import Converge.Command

/-!
# Procedures step by step

A procedure asks the world outside one thing after another.  What comes of several of them in a row,
and what they ask for, is put together here from what comes of each.
-/

namespace Converge

variable {Q : Type} {A : Q → Type} {α β ε σ : Type}

namespace Plan

/-- The questions that a plan puts to the world when it is carried out, in order. -/
def asked (answer : (q : Q) → σ → A q × σ) : Plan Q A α → σ → List Q
  | done _, _ => []
  | ask q next, s => q :: (next (answer q s).1).asked answer (answer q s).2

variable (answer : (q : Q) → σ → A q × σ)

@[simp] theorem asked_done (a : α) (s : σ) : (done a : Plan Q A α).asked answer s = [] := rfl
@[simp] theorem run_query (q : Q) (s : σ) : (query q : Plan Q A (A q)).run answer s = answer q s :=
  rfl
@[simp] theorem asked_query (q : Q) (s : σ) :
    (query q : Plan Q A (A q)).asked answer s = [q] := rfl

theorem asked_bind (p : Plan Q A α) (f : α → Plan Q A β) (s : σ) :
    (p.bind f).asked answer s =
      p.asked answer s ++ (f (p.run answer s).1).asked answer (p.run answer s).2 := by
  induction p generalizing s with
  | done a => rfl
  | ask q next ih => exact congrArg (q :: ·) (ih _ _)

/-- Plans in a row succeed if one does and then the other. -/
theorem run_andThen_ok_iff {p : Plan Q A (Except ε α)} {f : α → Plan Q A (Except ε β)} {s s' : σ}
    {b : β} : (p.andThen f).run answer s = (.ok b, s') ↔
      ∃ a t, p.run answer s = (.ok a, t) ∧ (f a).run answer t = (.ok b, s') := by
  rw [andThen, run_bind]
  obtain ⟨⟨r, t⟩, hp⟩ : ∃ x, p.run answer s = x := ⟨_, rfl⟩
  rw [hp]
  cases r with
  | ok a =>
      constructor
      · exact fun h => ⟨a, t, rfl, h⟩
      · rintro ⟨a, t, ⟨⟩, h⟩
        exact h
  | error e =>
      constructor
      · intro h
        cases h
      · rintro ⟨a, t, ⟨⟩, -⟩

end Plan

namespace Command

/-- Did a command run, and exit with code 0? -/
def wentWell : Except Failure Output → Bool
  | .ok o => o.success
  | .error _ => false

variable (answer : (q : Request) → σ → q.Answer × σ) (c : Command) (doing : String)

@[simp] theorem asked_perform (s : σ) : (c.perform doing).asked answer s = [.run c] := rfl

/-- A command that is performed is run once, and its failure is told as one of what it is a part
of. -/
theorem run_perform (s : σ) : (c.perform doing).run answer s =
    (((c.checked (answer (.run c) s).1).mapError (·.within doing)).map fun _ => (),
      (answer (.run c) s).2) := by
  simp [perform, runChecked, run, Plan.run_bind]

theorem checked_of_wentWell {c : Command} {r : Except Failure Output} (h : wentWell r = true) :
    ∃ o, c.checked r = .ok o := by
  cases r with
  | error f => cases h
  | ok o => exact ⟨o, if_pos h⟩

theorem wentWell_of_checked {c : Command} {r : Except Failure Output} {o : Output}
    (h : c.checked r = .ok o) : wentWell r = true := by
  cases r with
  | error f => cases h
  | ok o' =>
      rw [checked] at h
      split at h
      · rename_i ho
        exact ho
      · cases h

/-- A command that has to succeed is performed if it goes well. -/
theorem run_perform_ok_iff {s s' : σ} : (c.perform doing).run answer s = (.ok (), s') ↔
    wentWell (answer (.run c) s).1 = true ∧ s' = (answer (.run c) s).2 := by
  rw [run_perform, Prod.mk.injEq]
  refine and_congr ?_ eq_comm
  constructor
  · intro h
    cases hchecked : c.checked (answer (.run c) s).1 with
    | error f => rw [hchecked] at h; cases h
    | ok o => exact wentWell_of_checked hchecked
  · intro h
    obtain ⟨o, hchecked⟩ := checked_of_wentWell (c := c) h
    rw [hchecked]
    rfl

end Command

end Converge
