/-!
# Failures of collaborators

What an outside collaborator reports when it fails: a message, and below it the messages of
what made it fail, outermost first.
-/

namespace Converge

structure Failure where
  message : String
  causes : List String
deriving DecidableEq, Repr, Inhabited

namespace Failure

/-- A failure with nothing below it. -/
def of (message : String) : Failure := ⟨message, []⟩

/-- The failure seen from further out: a message about what was being done comes on top. -/
def within (f : Failure) (doing : String) : Failure := ⟨doing, f.message :: f.causes⟩

/-- All messages, outermost first. -/
def messages (f : Failure) : List String := f.message :: f.causes

/-- All messages on one line. -/
def chain (f : Failure) : String := ": ".intercalate f.messages

/-- The failure that a list of messages describes. -/
def ofMessages : List String → Failure
  | [] => of ""
  | m :: rest => ⟨m, rest⟩

@[simp] theorem messages_within (f : Failure) (doing : String) :
    (f.within doing).messages = doing :: f.messages := rfl

end Failure

end Converge
