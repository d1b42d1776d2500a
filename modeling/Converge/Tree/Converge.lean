import Converge.Tally
import Converge.Tree.Validate

/-!
# Converging a tree

A tree is converged depth first, each node after its children.  A node whose resource is
already in its declared state is left alone, and under `Policy.skipSubtree` so is everything
beneath it.  The scope is looked at before each node and before each resource is worked on, so
a cancelled walk stops at the next such point; what fails once the scope has been cancelled was
interrupted, not broken.
-/

namespace Converge.Tree

variable {Q : Type} {A : Q → Type} {R : Type}

/-- Ends a walk whose collaborator failed: the scope says whether it was interrupted. -/
def stop {α : Type} (here : Address) (fault : Fault) : Course Q A R (Except Fault α) :=
  .look fun cancelled => .done (.error (if cancelled then .cancelled here else fault))

/-- Finds out whether a resource is in its declared state. -/
def isSatisfied (P : Provider Q A R) (here : Address) (r : R) :
    Course Q A R (Except Fault Bool) :=
  (Course.call .satisfied r (P.satisfied r)).bind fun
    | .ok b => .done (.ok b)
    | .error f => stop here (.satisfied here f)

/-- Brings a resource to its declared state, unless the scope has been cancelled. -/
def applyResource (P : Provider Q A R) (here : Address) (r : R) :
    Course Q A R (Except Fault Unit) :=
  .look fun cancelled =>
    if cancelled then .done (.error (.cancelled here))
    else
      .note (.nodeApplying here.text (P.kind r)) <|
        (Course.call .apply r (P.apply r)).bind fun
          | .ok () => .note (.nodeApplied here.text (P.kind r) none) (.done (.ok ()))
          | .error f => stop here (.apply here f)

/-- How many children are passed over because of a satisfied node. -/
def skipped (policy : Policy) (children : List (Tree R)) : Nat :=
  match policy with
  | .skipSubtree => children.length
  | .selfOnly => 0

mutual

/-- Converges a tree that hangs below `above`. -/
def convergeAt (P : Provider Q A R) (policy : Policy) (above : Address) :
    Tree R → Course Q A R (Except Fault Tally)
  | node name resource children =>
      .look fun cancelled =>
        if cancelled then .done (.error (.cancelled (above.child name)))
        else
          match resource with
          | none =>
              (convergeAll P policy (above.child name) children).andThen fun below =>
                .done (.ok (.enter + below))
          | some r =>
              (isSatisfied P (above.child name) r).andThen fun satisfied =>
                if satisfied then
                  .note (.nodeSatisfied (above.child name).text (P.kind r)
                    (skipped policy children)) <|
                  match policy with
                  | .skipSubtree => .done (.ok (.enter + .rest))
                  | .selfOnly =>
                      (convergeAll P policy (above.child name) children).andThen fun below =>
                        .done (.ok (.enter + .rest + below))
                else
                  (convergeAll P policy (above.child name) children).andThen fun below =>
                    (applyResource P (above.child name) r).andThen fun () =>
                      .done (.ok (.enter + below + .work))

def convergeAll (P : Provider Q A R) (policy : Policy) (above : Address) :
    List (Tree R) → Course Q A R (Except Fault Tally)
  | [] => .done (.ok 0)
  | t :: rest =>
      (t.convergeAt P policy above).andThen fun first =>
        (convergeAll P policy above rest).andThen fun others => .done (.ok (first + others))

end

/-- Writes down how a walk over a tree ended; a cancelled one ends without a word. -/
def concluded (root : String) : Except Fault Tally → Course Q A R (Except Fault Tally)
  | .ok tally =>
      .note (.applyCompleted root tally.applied tally.satisfied none) (.done (.ok tally))
  | .error f =>
      if f.isCancellation then .done (.error f)
      else .note (.passFailed "apply" root f.message) (.done (.error f))

/-- Converges a whole tree. -/
def converge (P : Provider Q A R) (policy : Policy) (t : Tree R) :
    Course Q A R (Except Fault Tally) :=
  .note (.applyStarted t.name policy.name) <|
    (t.convergeAt P policy .top).bind (concluded t.name)

/-! ## Equations -/

theorem convergeAt_bare (P : Provider Q A R) (policy : Policy) (above : Address) (name : String)
    (ts : List (Tree R)) :
    (node name none ts).convergeAt P policy above =
      .look fun cancelled =>
        if cancelled then .done (.error (.cancelled (above.child name)))
        else (convergeAll P policy (above.child name) ts).andThen fun below =>
          .done (.ok (.enter + below)) := by
  rw [convergeAt]

theorem convergeAt_resource (P : Provider Q A R) (policy : Policy) (above : Address)
    (name : String) (r : R) (ts : List (Tree R)) :
    (node name (some r) ts).convergeAt P policy above =
      .look fun cancelled =>
        if cancelled then .done (.error (.cancelled (above.child name)))
        else (isSatisfied P (above.child name) r).andThen fun satisfied =>
          if satisfied then
            .note (.nodeSatisfied (above.child name).text (P.kind r) (skipped policy ts)) <|
              match policy with
              | .skipSubtree => .done (.ok (.enter + .rest))
              | .selfOnly =>
                  (convergeAll P policy (above.child name) ts).andThen fun below =>
                    .done (.ok (.enter + .rest + below))
          else
            (convergeAll P policy (above.child name) ts).andThen fun below =>
              (applyResource P (above.child name) r).andThen fun () =>
                .done (.ok (.enter + below + .work)) := by
  cases policy <;> simp only [convergeAt]

@[simp] theorem convergeAll_nil (P : Provider Q A R) (policy : Policy) (above : Address) :
    convergeAll P policy above [] = .done (.ok 0) := by
  rw [convergeAll]

@[simp] theorem convergeAll_cons (P : Provider Q A R) (policy : Policy) (above : Address)
    (t : Tree R) (ts : List (Tree R)) :
    convergeAll P policy above (t :: ts) =
      (t.convergeAt P policy above).andThen fun first =>
        (convergeAll P policy above ts).andThen fun others => .done (.ok (first + others)) := by
  rw [convergeAll]

theorem convergeAll_append (P : Provider Q A R) (policy : Policy) (above : Address)
    (ts ts' : List (Tree R)) :
    convergeAll P policy above (ts ++ ts') =
      (convergeAll P policy above ts).andThen fun first =>
        (convergeAll P policy above ts').andThen fun others => .done (.ok (first + others)) := by
  induction ts with
  | nil => simp
  | cons t ts ih => simp [ih, Course.andThen_assoc, Tally.add_assoc]

end Converge.Tree
