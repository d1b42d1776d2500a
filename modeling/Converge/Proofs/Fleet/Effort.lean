import Mathlib.Algebra.Order.BigOperators.Group.Finset
import Converge.Proofs.Fleet.Progress

/-!
# Counting the moves of a run

If every course of a run is bounded by a number, whatever the world answers, then so is the number
of moves that the run can still make.
-/

namespace Converge.Fleet

variable {Q : Type} {A : Q → Type} {R : Type}

/-! ## From ranks to numbers -/

/-- The least number that bounds an ordinal, if one does. -/
noncomputable def leastBound (o : Ordinal.{0}) : ℕ := sInf {n : ℕ | o ≤ n}

theorem leastBound_le {o : Ordinal.{0}} {n : ℕ} (h : o ≤ n) : leastBound o ≤ n :=
  Nat.sInf_le h

theorem le_leastBound {o : Ordinal.{0}} {n : ℕ} (h : o ≤ n) : o ≤ leastBound o :=
  Nat.sInf_mem (s := {n : ℕ | o ≤ n}) ⟨n, h⟩

theorem leastBound_lt {o o' : Ordinal.{0}} {n : ℕ} (h : o < o') (hn : o' ≤ n) :
    leastBound o < leastBound o' := by
  have hbound : o < leastBound o' := lt_of_lt_of_le h (le_leastBound hn)
  cases hk : leastBound o' with
  | zero =>
      rw [hk, Nat.cast_zero] at hbound
      exact absurd hbound (not_lt_bot)
  | succ k =>
      rw [hk, Nat.cast_succ, Order.lt_add_one_iff] at hbound
      exact Nat.lt_succ_of_le (leastBound_le hbound)

/-- A bound on the moves of a job at this height, if its course is bounded by `n`. -/
noncomputable def weight (n : ℕ) (h : ℕ ×ₗ Ordinal.{0}) : ℕ :=
  if (ofLex h).1 < 3 then (ofLex h).1
  else if (ofLex h).1 = 3 then 3 + leastBound (ofLex h).2
  else (ofLex h).1 + n

/-- A height that a job with a course bounded by `n` can have. -/
structure Within (n : ℕ) (h : ℕ ×ₗ Ordinal.{0}) : Prop where
  bounded : (ofLex h).2 ≤ n
  atWork : (ofLex h).1 ≠ 3 → (ofLex h).2 = 0

theorem weight_lt {n : ℕ} {h k : ℕ ×ₗ Ordinal.{0}} (hh : Within n h) (hk : Within n k)
    (hlt : h < k) : weight n h < weight n k := by
  have hsmall : leastBound (ofLex h).2 ≤ n := leastBound_le hh.bounded
  rcases Prod.Lex.lt_iff.mp hlt with hphase | ⟨hphase, hrank⟩
  · rw [weight, weight]
    split_ifs <;> omega
  · have hthree : (ofLex k).1 = 3 := by
      refine Classical.not_not.mp fun hne => ?_
      rw [hk.atWork hne] at hrank
      exact absurd hrank (not_lt_bot)
    have hlb := leastBound_lt hrank hk.bounded
    rw [weight, weight, hphase, hthree]
    simpa using hlb

theorem weight_le {n : ℕ} {h k : ℕ ×ₗ Ordinal.{0}} (hh : Within n h) (hk : Within n k)
    (hle : h ≤ k) : weight n h ≤ weight n k := by
  rcases hle.lt_or_eq with hlt | rfl
  · exact le_of_lt (weight_lt hh hk hlt)
  · exact le_refl _

/-! ## The moves that are left -/

variable {u : Setup Q A R} {s t : State Q A R} {m : Move Q A} {r : Nat → ℕ} {scopes : Scopes}
  {caller : Nat}

/-- The course of each job `i` is bounded by `r i`. -/
def Setup.Bounded (u : Setup Q A R) (r : Nat → ℕ) : Prop := ∀ i, (u.course i).rank ≤ r i

theorem Stage.height_atWork (g : Stage Q A R) :
    (ofLex g.height).1 ≠ 3 → (ofLex g.height).2 = 0 := by
  intro hne
  cases g with
  | working | asking => exact absurd rfl hne
  | _ => rfl

/-- No job is further away than its whole course. -/
theorem Reachable.within (h : Reachable u (Fleet.start u scopes caller) s) (hu : u.Bounded r)
    (i : Nat) : Within (r i) (s.height i) := by
  cases hi : s.stages[i]? with
  | none =>
      rw [State.height, hi]
      exact ⟨bot_le, fun _ => rfl⟩
  | some g =>
      rw [State.height_eq hi]
      refine ⟨?_, g.height_atWork⟩
      refine h.keeps i (fun _ _ g => (ofLex g.height).2 ≤ r i) (fun _ _ hg => hg) ?_
        (sound_start u scopes caller) (fun g hg => by rw [stage_start hg]; exact bot_le) hi
      intro _ b b' g ds g' _ hgoes hg
      cases hgoes with
      | takeUp | enter => exact hu i
      | pace => exact (Course.rank_pace_le b _).trans hg
      | ask => exact (le_of_lt (Course.rankAsking_lt _)).trans hg
      | reply a => exact (le_of_lt (Course.rank_lt_rankAsking _ a)).trans hg
      | _ => exact bot_le

/-- A bound on the moves that the jobs of a run can still make. -/
noncomputable def State.effort (u : Setup Q A R) (r : Nat → ℕ) (s : State Q A R) : ℕ :=
  ∑ i ∈ Finset.range u.jobs.length, weight (r i) (s.height i)

/-- No move makes more of them. -/
theorem Reachable.effort_le (h : Reachable u (Fleet.start u scopes caller) s) (hu : u.Bounded r)
    (hm : s.move? u m = some t) : t.effort u r ≤ s.effort u r := by
  refine Finset.sum_le_sum fun i _ => ?_
  exact weight_le ((h.move m hm).within hu i) (h.within hu i)
    ((moved_of_move? hm).height_le h.isSound i)

/-- A move of a job makes fewer of them. -/
theorem Reachable.effort_lt (h : Reachable u (Fleet.start u scopes caller) s) (hu : u.Bounded r)
    (hm : s.move? u m = some t) (hin : m.isOutside = false) (hclose : m ≠ .close) :
    t.effort u r < s.effort u r := by
  have hwithin := fun i => (h.move m hm).within hu i
  obtain ⟨i, hi, hlt⟩ := Moved.exists_height_lt hm h.isSound hin hclose
  refine Finset.sum_lt_sum (fun k _ => ?_) ⟨i, Finset.mem_range.mpr hi, ?_⟩
  · exact weight_le (hwithin k) (h.within hu k) ((moved_of_move? hm).height_le h.isSound k)
  · exact weight_lt (hwithin i) (h.within hu i) hlt

end Converge.Fleet
