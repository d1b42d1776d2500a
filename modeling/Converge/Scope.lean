/-!
# Cancellation scopes

Work is done in a scope, and a scope can be cancelled.  Scopes share a token or hold one of
their own; a token made under another one is cancelled together with it, and not the other way
round.
-/

namespace Converge

/-- A token: the one it was made under, if any, and whether it has been cancelled. -/
structure Token where
  parent? : Option Nat
  cancelled : Bool
deriving DecidableEq, Repr

/-- All scopes of a program.  Tokens and scopes are named by their place in order of making;
`tokenOf` says which token each scope holds. -/
structure Scopes where
  tokens : List Token
  tokenOf : List Nat
deriving DecidableEq, Repr

namespace Scopes

/-- A single scope, not cancelled. -/
def one : Scopes := ⟨[⟨none, false⟩], [0]⟩

/-- Has the token been cancelled? -/
def tokenCancelled (s : Scopes) (t : Nat) : Bool := (s.tokens[t]?).any Token.cancelled

/-- Has the scope been cancelled? -/
def cancelled (s : Scopes) (i : Nat) : Bool := (s.tokenOf[i]?).any s.tokenCancelled

/-- How many scopes there are; the next one made has this name. -/
def size (s : Scopes) : Nat := s.tokenOf.length

/-- A new scope on a new token under no other. -/
def fresh (s : Scopes) : Scopes :=
  ⟨s.tokens ++ [⟨none, false⟩], s.tokenOf ++ [s.tokens.length]⟩

/-- A new scope on the token of scope `i`. -/
def share (s : Scopes) (i : Nat) : Scopes :=
  ⟨s.tokens, s.tokenOf ++ [s.tokenOf[i]?.getD s.tokens.length]⟩

/-- A new scope on a new token under that of scope `i`; it is born cancelled if that one is. -/
def child (s : Scopes) (i : Nat) : Scopes :=
  ⟨s.tokens ++ [⟨s.tokenOf[i]?, s.cancelled i⟩], s.tokenOf ++ [s.tokens.length]⟩

/-- Cancels token `t` and everything under it: tokens are visited in order of making, `done`
before the ones in the list, so a parent is always visited before what was made under it. -/
def sweep (t : Nat) : List Token → List Token → List Token
  | done, [] => done
  | done, k :: rest =>
      let hit := done.length = t || k.parent?.any fun p => (done[p]?).any Token.cancelled
      sweep t (done ++ [{ k with cancelled := k.cancelled || hit }]) rest

/-- Cancels scope `i`. -/
def cancel (s : Scopes) (i : Nat) : Scopes :=
  match s.tokenOf[i]? with
  | none => s
  | some t => { s with tokens := sweep t [] s.tokens }

/-- The flags of all scopes. -/
def flags (s : Scopes) : List Bool := (List.range s.size).map s.cancelled

@[simp] theorem length_sweep (t : Nat) (done rest : List Token) :
    (sweep t done rest).length = done.length + rest.length := by
  induction rest generalizing done with
  | nil => simp [sweep]
  | cons k rest ih => simp [sweep, ih]; omega

@[simp] theorem size_cancel (s : Scopes) (i : Nat) : (s.cancel i).size = s.size := by
  unfold cancel; split <;> rfl

@[simp] theorem size_child (s : Scopes) (i : Nat) : (s.child i).size = s.size + 1 := by
  simp [size, child]

@[simp] theorem size_share (s : Scopes) (i : Nat) : (s.share i).size = s.size + 1 := by
  simp [size, share]

@[simp] theorem size_fresh (s : Scopes) : s.fresh.size = s.size + 1 := by
  simp [size, fresh]

end Scopes

end Converge
