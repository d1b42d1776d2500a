import Converge.Proofs.Fleet.Progress
import Converge.Proofs.Fleet.Summary

/-!
# Runs in which nothing goes wrong from outside

A run goes smoothly if all of its moves are its own: nobody cancels anything, and every question is
answered.  Then no job breaks off, and a job can be cancelled only because another one failed.
-/

namespace Converge.Fleet

variable {Q : Type} {A : Q → Type} {R : Type} {u : Setup Q A R} {s t : State Q A R} {m : Move Q A}

/-- In a move of the run itself no job breaks off. -/
theorem Moved.not_crashed {answers : (i : Nat) → (q : Q) → A q} (h : Moved u s m t)
    (hs : s.Sound u) (hown : m.IsOwn answers) {i : Nat} {q : Q}
    {next : A q → Course Q A R (Except Fault Tally)} (hi : s.stages[i]? = some (.asking q next))
    {task : Nat} {how : String} : t.stages[i]? ≠ some (.leaving (.crashed task how)) := by
  intro hcrashed
  rcases h.stage_asking hs hi with hstays | ⟨answer, -, hreplied⟩ | ⟨how', rfl, -⟩
  · cases hstays.symm.trans hcrashed
  · cases hreplied.symm.trans hcrashed
  · exact hown

/-- The states that a run can come to by its own moves, whatever it is answered. -/
inductive Smooth (u : Setup Q A R) (first : State Q A R) : State Q A R → Prop where
  | start : Smooth u first first
  | move {s t : State Q A R} (m : Move Q A) (answers : (i : Nat) → (q : Q) → A q) :
      Smooth u first s → m.IsOwn answers → s.move? u m = some t → Smooth u first t

namespace Smooth

variable {first : State Q A R} {scopes : Scopes} {caller : Nat}

theorem undisturbed (h : Smooth u first s) : Undisturbed u first s := by
  induction h with
  | start => exact .start
  | move m answers _ hown hm ih =>
      refine ih.move m hm fun hout => ?_
      rw [hown.isOutside] at hout
      cases hout

theorem reachable (h : Smooth u first s) : Reachable u first s := h.undisturbed.reachable

/-- No job breaks off. -/
theorem outcome?_ne_crashed (h : Smooth u (Fleet.start u scopes caller) s) {i : Nat}
    {g : Stage Q A R} (hi : s.stages[i]? = some g) (task : Nat) (how : String) :
    g.outcome? ≠ some (.crashed task how) := by
  induction h generalizing g with
  | start =>
      rw [stage_start hi]
      exact nofun
  | @move s t m answers hs hown hm ih =>
      have hmoved := moved_of_move? hm
      have hsound := hs.reachable.isSound
      obtain ⟨g₀, hg₀, ⟨rfl, -⟩ | ⟨ds, -, hstep⟩⟩ := hmoved.came hsound hi
      · exact ih hg₀
      · intro hcrashed
        cases hstep with
        | crash => exact hmoved.not_crashed hsound hown hg₀ hi
        | leave | join => exact ih hg₀ hcrashed
        | _ => cases hcrashed

/-- If no job fails of itself, the run returns the sum of what the jobs come to. -/
theorem result_of_closed (h : Smooth u (Fleet.start u scopes caller) s)
    (hcaller : scopes.cancelled caller = false) (hc : s.closed = true) {f : Nat → Tally}
    (hf : ∀ (i : Nat) r, s.stages[i]? = some (.joined (.returned r)) →
      r = .ok (f i) ∨ ∃ e, r = .error e ∧ e.isCancellation = true) :
    s.result = .ok ⟨u.jobs.length, u.jobs.length, 0, 0,
      ((List.range u.jobs.length).map f).sum⟩ := by
  have hreach := h.reachable
  have hok : ∃ summary, s.result = .ok summary := by
    cases hresult : s.result with
    | ok summary => exact ⟨summary, rfl⟩
    | error e =>
        -- there would be a failure, and no job has one
        have hfault := hreach.isCancellation_of_undisturbed hc h.undisturbed hcaller hresult
        obtain ⟨⟨i, o⟩, hj, hfails⟩ := hreach.exists_join_of_failure hresult hfault
        have hi := hreach.mem_joins.mp hj
        cases o with
        | crashed task how => exact absurd rfl (h.outcome?_ne_crashed hi task how)
        | returned r =>
            rcases hf i r hi with rfl | ⟨e', rfl, hcancel⟩
            · cases hfails
            · simp [Setup.failure?, Outcome.failure?, Outcome.result, hcancel] at hfails
  refine hreach.result_of_joins hc hok fun j tally hj htally => ?_
  have hi := hreach.mem_joins.mp hj
  rw [htally] at hi
  rcases hf j.1 _ hi with hok | ⟨e, he, -⟩
  · exact Except.ok.inj hok
  · cases he

end Smooth

end Converge.Fleet
