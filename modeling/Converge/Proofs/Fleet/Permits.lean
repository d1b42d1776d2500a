import Converge.Proofs.Fleet.Moves

/-!
# Permits

A permit is free or held by one job, and goes from hand to hand without getting lost: what is free
and what is held make up what there is at every time of a run.  Jobs stand in line only while
nothing is free.
-/

namespace Converge.Fleet

variable {Q : Type} {A : Q → Type} {R : Type}

/-- How many jobs hold a permit. -/
def State.held (s : State Q A R) : Nat := s.stages.countP Stage.holdsPermit

/-- The permits that are free and those that are held are all that there are, and none is free
while a job stands in line. -/
structure State.Metered (u : Setup Q A R) (s : State Q A R) : Prop where
  balance : s.free + s.held = u.permits
  line : s.line ≠ [] → s.free = 0

variable {u : Setup Q A R} {s t : State Q A R} {m : Move Q A}

/-! ## How many there can be -/

theorem Setup.isAdmissible_iff : u.isAdmissible = true ↔ u.limit ≤ maxPermits := by
  have hone : 1 ≤ maxPermits := by decide
  rw [isAdmissible, decide_eq_true_eq, permits, Nat.max_le, and_iff_left hone]

/-- A run breaks off before it begins if and only if it would have too many permits. -/
theorem begin?_eq_none_iff {scopes : Scopes} {caller : Nat} :
    begin? u scopes caller = none ↔ maxPermits < u.limit := by
  rw [← Nat.not_le, ← Setup.isAdmissible_iff, begin?]
  split
  · simp_all
  · simp_all

theorem eq_start_of_begin? {scopes : Scopes} {caller : Nat} {first : State Q A R}
    (h : begin? u scopes caller = some first) : first = start u scopes caller := by
  rw [begin?] at h
  split at h
  · exact (Option.some.inj h).symm
  · cases h

/-! ## Where they are -/

namespace State

@[simp] theorem free_account (s : State Q A R) (i : Nat) (o : Outcome) (u : Setup Q A R) :
    (s.account u i o).free = s.free := by
  simp only [account]; repeat' split
  all_goals rfl

/-- How many permits a job at this stage holds. -/
def permitOf (g : Stage Q A R) : Nat := if g.holdsPermit then 1 else 0

theorem held_setStage {i : Nat} {g : Stage Q A R} (hi : s.stages[i]? = some g)
    (g' : Stage Q A R) : (s.setStage i g').held + permitOf g = s.held + permitOf g' := by
  obtain ⟨hlt, hg⟩ := List.getElem?_eq_some_iff.mp hi
  have hcount : permitOf g ≤ s.held := by
    rw [permitOf, held]
    split
    · exact List.countP_pos_iff.mpr ⟨g, List.mem_of_getElem? hi, ‹_›⟩
    · exact Nat.zero_le _
  simp only [held, setStage, permitOf] at *
  rw [List.countP_set hlt, hg]
  omega

/-- A job takes a permit. -/
theorem held_take {i : Nat} {g k : Stage Q A R} (hi : s.stages[i]? = some g)
    (hg : g.holdsPermit = false) (hk : k.holdsPermit = true) :
    (s.setStage i k).held = s.held + 1 := by
  simpa [permitOf, hg, hk] using held_setStage hi k

/-- A job lets its permit go. -/
theorem held_drop {i : Nat} {g g' : Stage Q A R} (hi : s.stages[i]? = some g)
    (hg : g.holdsPermit = true) (hg' : g'.holdsPermit = false) :
    (s.setStage i g').held + 1 = s.held := by
  simpa [permitOf, hg, hg'] using held_setStage hi g'

/-- A permit that is given back is free, or in the hands of the job that was first in line. -/
theorem Metered.release (hs : s.Sound u) (hbalance : s.free + s.held + 1 = u.permits)
    (hline : s.line ≠ [] → s.free = 0) (i : Nat) : (s.release i).Metered u := by
  unfold State.release
  cases hl : s.line with
  | nil =>
      refine ⟨?_, fun h => absurd rfl h⟩
      change s.free + 1 + s.held = u.permits
      omega
  | cons j rest =>
      have hj : s.stages[j]? = some .waiting := (hs.inLine j).mp (by rw [hl]; exact .head _)
      have hheld := held_take (k := .admitted) hj rfl rfl
      have hfree := hline (by rw [hl]; exact List.cons_ne_nil j rest)
      refine ⟨?_, fun _ => hfree⟩
      change s.free + (s.setStage j .admitted).held = u.permits
      omega

/-- Only the permits, the line and the stages count. -/
theorem Metered.congr (hs : s.Metered u) (hfree : t.free = s.free) (hline : t.line = s.line)
    (hstages : t.stages = s.stages) : t.Metered u where
  balance := by rw [hfree, held, hstages]; exact hs.balance
  line := by rw [hfree, hline]; exact hs.line

/-- A job keeps its permit, or goes on without one. -/
theorem Metered.change (hs : s.Metered u) {i : Nat} {g k : Stage Q A R}
    (hi : s.stages[i]? = some g) (hstages : t.stages = (s.setStage i k).stages)
    (hg : k.holdsPermit = g.holdsPermit) (hfree : t.free = s.free)
    (hline : t.line ≠ [] → s.free = 0) : t.Metered u where
  balance := by
    have hheld := held_setStage hi k
    have hbalance := hs.balance
    rw [permitOf, permitOf, hg, Nat.add_right_cancel_iff] at hheld
    rw [hfree, held, hstages, ← hbalance, ← hheld]
    rfl
  line h := by rw [hfree]; exact hline h

/-- A job that lets its permit go gives it back. -/
theorem Metered.giveBack (hm : s.Metered u) (hs : s.Sound u) {i : Nat} {g g' : Stage Q A R}
    (hi : s.stages[i]? = some g) (hg : g.holdsPermit = true) (hg' : g'.holdsPermit = false)
    (hwaits : g ≠ .waiting) (hwaits' : g' ≠ .waiting) :
    ((s.setStage i g').release i).Metered u := by
  have hheld := held_drop hi hg hg'
  have hbalance := hm.balance
  refine Metered.release (hs.setStage hi hwaits hwaits') ?_ hm.line i
  change s.free + (s.setStage i g').held + 1 = u.permits
  omega

end State

namespace Moved

theorem metered (h : Moved u s m t) (hs : s.Sound u) (hm : s.Metered u) : t.Metered u := by
  cases h with
  | pass hi | turnAway hi => exact hm.change hi rfl rfl rfl hm.line
  | giveUp hi =>
      refine hm.change hi rfl rfl rfl fun hline => hm.line fun hnil => hline ?_
      simp [State.setStage, hnil]
  | @handOn i hi => exact hm.giveBack hs hi rfl rfl (by simp) (by simp)
  | takeUp hi => exact hm.change hi rfl rfl rfl hm.line
  | @enter i hi hfree =>
      have hheld := State.held_take (k := .working (u.course i)) hi rfl rfl
      have hbalance := hm.balance
      refine ⟨?_, fun hline => ?_⟩
      · change s.free - 1 + (s.setStage i (.working (u.course i))).held = u.permits
        omega
      · have := hm.line hline
        omega
  | queue hi hfree => exact hm.change hi rfl rfl rfl fun _ => hfree
  | finish hi => split <;> exact hm.change hi rfl rfl rfl hm.line
  | ask hi | pace hi | reply hi | crash hi => exact hm.change hi rfl rfl rfl hm.line
  | leave hi => exact hm.giveBack hs hi rfl rfl (by simp) (by simp)
  | @join i o hi =>
      refine hm.change (k := .joined o) hi (State.stages_account ..) rfl (State.free_account ..) ?_
      rw [State.line_account]
      exact hm.line
  | disturb | cancel | close => exact hm.congr rfl rfl rfl

end Moved

theorem metered_start (u : Setup Q A R) (scopes : Scopes) (caller : Nat) :
    (start u scopes caller).Metered u where
  balance := by
    have hnone : (start u scopes caller).held = 0 := by
      refine List.countP_eq_zero.mpr fun g hg => ?_
      obtain ⟨_, -, rfl⟩ := List.mem_map.mp hg
      exact Bool.false_ne_true
    rw [hnone]
    rfl
  line hline := absurd rfl hline

/-- No permit is lost or made in a run. -/
theorem Reachable.metered {scopes : Scopes} {caller : Nat}
    (h : Reachable u (Fleet.start u scopes caller) s) : s.Metered u := by
  induction h with
  | start => exact metered_start u scopes caller
  | move m hs hm ih => exact (moved_of_move? hm).metered hs.isSound ih

/-- Whoever stands in line waits for a job that holds a permit. -/
theorem Reachable.exists_holder {scopes : Scopes} {caller : Nat}
    (h : Reachable u (Fleet.start u scopes caller) s) {i : Nat}
    (hi : s.stages[i]? = some .waiting) :
    ∃ (j : Nat) (g : Stage Q A R), s.stages[j]? = some g ∧ g.holdsPermit = true := by
  have hline : s.line ≠ [] := by
    intro hnil
    have hmem := (h.isSound.inLine i).mpr hi
    rw [hnil] at hmem
    cases hmem
  have hbalance := h.metered.balance
  rw [h.metered.line hline, Nat.zero_add] at hbalance
  have hpos : 0 < s.held := by
    rw [hbalance, Setup.permits]
    omega
  obtain ⟨g, hg, hholds⟩ := List.countP_pos_iff.mp hpos
  obtain ⟨j, hj⟩ := List.mem_iff_getElem?.mp hg
  exact ⟨j, g, hj, hholds⟩

end Converge.Fleet
