import Converge.Scope

/-!
# Histories of scopes

What is done to scopes, one thing after the other, beginning with no scope at all.  Scopes are named
in the order in which they are made, so what is done with a scope names one that was made before.
-/

namespace Converge.Scopes

/-- One thing that is done to scopes. -/
inductive Act where
  /-- A scope is made on a token of its own. -/
  | fresh
  /-- A scope is made on the token of scope `i`, by copying the scope or by taking its token. -/
  | share (i : Nat)
  /-- A scope is made on a token under that of scope `i`. -/
  | child (i : Nat)
  | cancel (i : Nat)
deriving DecidableEq, Repr

namespace Act

/-- The scope that it is done with. -/
def with? : Act → Option Nat
  | fresh => none
  | share i | child i | cancel i => some i

/-- Is a scope made? -/
def makes : Act → Bool
  | cancel _ => false
  | _ => true

/-- Can it be done when there are `n` scopes? -/
def IsPossible (n : Nat) (a : Act) : Prop := ∀ i ∈ a.with?, i < n

instance (n : Nat) (a : Act) : Decidable (a.IsPossible n) :=
  inferInstanceAs (Decidable (∀ i ∈ a.with?, i < n))

end Act

/-- The scopes after an act. -/
def act (s : Scopes) : Act → Scopes
  | .fresh => s.fresh
  | .share i => s.share i
  | .child i => s.child i
  | .cancel i => s.cancel i

/-- The scopes after several acts. -/
def after (acts : List Act) : Scopes := acts.foldl act ⟨[], []⟩

/-- The acts by which scopes were made; that of scope `i` stands at place `i`. -/
def makings (acts : List Act) : List Act := acts.filter Act.makes

/-- Can the acts be done one after the other when there are `n` scopes? -/
def PossibleFrom : Nat → List Act → Prop
  | _, [] => True
  | n, a :: rest => a.IsPossible n ∧ PossibleFrom (n + (makings [a]).length) rest

instance : (n : Nat) → (acts : List Act) → Decidable (PossibleFrom n acts)
  | _, [] => inferInstanceAs (Decidable True)
  | n, a :: rest =>
      have := instDecidablePossibleFrom (n + (makings [a]).length) rest
      inferInstanceAs (Decidable (a.IsPossible n ∧ _))

/-- Can the acts be done one after the other, beginning with no scope? -/
abbrev Possible (acts : List Act) : Prop := PossibleFrom 0 acts

/-- What a look at a scope finds that waits for its cancellation. -/
inductive Poll where
  | ready
  | pending
deriving DecidableEq, Repr

/-- Waits for the cancellation of scope `i`, and looks once. -/
def poll (s : Scopes) (i : Nat) : Poll := if s.cancelled i then .ready else .pending

@[simp] theorem after_nil : after [] = ⟨[], []⟩ := rfl

@[simp] theorem after_concat (acts : List Act) (a : Act) :
    after (acts ++ [a]) = (after acts).act a := by
  simp [after]

@[simp] theorem makings_nil : makings [] = [] := rfl

@[simp] theorem makings_append (acts more : List Act) :
    makings (acts ++ more) = makings acts ++ makings more := by
  simp [makings]

theorem poll_eq_ready_iff {s : Scopes} {i : Nat} : s.poll i = .ready ↔ s.cancelled i = true := by
  cases h : s.cancelled i <;> simp [poll, h]

theorem possibleFrom_append {n : Nat} {acts more : List Act} : PossibleFrom n (acts ++ more) ↔
    PossibleFrom n acts ∧ PossibleFrom (n + (makings acts).length) more := by
  induction acts generalizing n with
  | nil => simp [PossibleFrom]
  | cons a acts ih =>
      have hlength : (makings (a :: acts)).length =
          (makings [a]).length + (makings acts).length := by
        rw [← List.singleton_append, makings_append, List.length_append]
      rw [List.cons_append, PossibleFrom, PossibleFrom, ih, hlength, and_assoc, Nat.add_assoc]

theorem possible_concat {acts : List Act} {a : Act} :
    Possible (acts ++ [a]) ↔ Possible acts ∧ a.IsPossible (makings acts).length := by
  rw [Possible, possibleFrom_append, PossibleFrom, PossibleFrom, Nat.zero_add, and_true]

end Converge.Scopes
