import Mathlib.Algebra.BigOperators.Group.List.Basic
import Mathlib.Algebra.Ring.Nat
import Converge.Proofs.Fleet.Verdict

/-!
# Counts

The summary of a run is a count over the outcomes that were joined: how many of each kind there
are, and the sum of the tallies of those that succeeded.
-/

namespace Converge

/-- Tallies are added up in any order. -/
instance : AddCommMonoid Tally where
  add_assoc := Tally.add_assoc
  zero_add := Tally.zero_add
  add_zero := Tally.add_zero
  add_comm := Tally.add_comm
  nsmul := nsmulRec

/-- Each count of a sum is the sum of the counts. -/
theorem Tally.sum_map {α : Type} (f g h : α → Nat) (xs : List α) :
    (xs.map fun x => (⟨f x, g x, h x⟩ : Tally)).sum =
      ⟨(xs.map f).sum, (xs.map g).sum, (xs.map h).sum⟩ := by
  induction xs with
  | nil => rfl
  | cons x xs ih =>
      simp only [List.map_cons, List.sum_cons, ih]
      rfl

namespace Fleet

variable {Q : Type} {A : Q → Type} {R : Type} {u : Setup Q A R} {s t : State Q A R} {m : Move Q A}

/-- The counts with one more outcome. -/
def Setup.tallied (u : Setup Q A R) (sum : Summary) (j : Nat × Outcome) : Summary :=
  match j.2.result (u.unit j.1) with
  | .ok tally => { sum with succeeded := sum.succeeded + 1, totals := sum.totals + tally }
  | .error f =>
      if f.isCancellation then { sum with cancelled := sum.cancelled + 1 }
      else { sum with failed := sum.failed + 1 }

theorem State.summary_account {s : State Q A R} {i : Nat} (hname : s.nameOf u i = u.unit i)
    (o : Outcome) : (s.account u i o).summary = u.tallied s.summary (i, o) := by
  rw [account, hname]
  cases hr : o.result (u.unit i) with
  | ok tally => simp [Setup.tallied, hr, strike]
  | error f =>
      cases hf : f.isCancellation
      · simp only [Setup.tallied, hr, hf, cancelShared, record, strike]
        cases s.failure <;> rfl
      · simp [Setup.tallied, hr, hf, record, strike]

@[simp] theorem State.summary_release (s : State Q A R) (i : Nat) :
    (s.release i).summary = s.summary := by
  unfold release; split <;> rfl

/-- A move joins one outcome and counts it, or leaves the joined outcomes and the counts as they
are. -/
theorem Moved.summary (h : Moved u s m t) (hn : s.Named u) :
    (t.joins = s.joins ∧ t.summary = s.summary) ∨
    ∃ j, t.joins = s.joins ++ [j] ∧ t.summary = u.tallied s.summary j := by
  have hjoins := h.joins_eq
  cases h with
  | @join i o hi =>
      exact .inr ⟨(i, o), State.joins_account .., State.summary_account (hn.nameOf_join hi) o⟩
  | handOn | leave => exact .inl ⟨hjoins (fun _ h => by cases h), State.summary_release ..⟩
  | finish =>
      refine .inl ⟨hjoins (fun _ h => by cases h), ?_⟩
      split <;> rfl
  | _ => exact .inl ⟨hjoins (fun _ h => by cases h), rfl⟩

/-- The summary counts the outcomes that were joined. -/
theorem Reachable.summary_eq {scopes : Scopes} {caller : Nat}
    (h : Reachable u (Fleet.start u scopes caller) s) :
    s.summary = s.joins.foldl u.tallied (.start u.jobs.length) := by
  induction h with
  | start => rfl
  | move m hs hm ih =>
      rcases (moved_of_move? hm).summary hs.named with ⟨hjoins, hsummary⟩ | ⟨j, hjoins, hsummary⟩
      · rw [hjoins, hsummary, ih]
      · rw [hjoins, hsummary, ih, List.foldl_append]
        rfl

/-- A run that succeeds returns its summary. -/
theorem State.result_eq_summary {sum : Summary} (h : s.result = .ok sum) : sum = s.summary := by
  rw [State.result] at h
  cases hfaults : s.failure <|> s.cancellation with
  | none =>
      rw [hfaults] at h
      exact (Except.ok.inj h).symm
  | some f =>
      rw [hfaults] at h
      cases h

/-- Outcomes that are all successes add to the number of those, and to the totals. -/
theorem foldl_tallied_of_ok {f : Nat → Tally} {l : List (Nat × Outcome)}
    (hl : ∀ j ∈ l, j.2 = .returned (.ok (f j.1))) (sum : Summary) :
    l.foldl u.tallied sum = { sum with
      succeeded := sum.succeeded + l.length
      totals := sum.totals + ((l.map Prod.fst).map f).sum } := by
  induction l generalizing sum with
  | nil => simp
  | cons j l ih =>
      obtain ⟨i, o⟩ := j
      obtain rfl : o = .returned (.ok (f i)) := hl (i, o) List.mem_cons_self
      rw [List.foldl_cons, ih fun j hj => hl j (List.mem_cons_of_mem _ hj)]
      simp only [Setup.tallied, Outcome.result, List.length_cons, List.map_cons, List.sum_cons,
        add_assoc, Nat.add_comm 1]

/-- A run that has returned a success returns the sum of what its jobs have come to. -/
theorem Reachable.result_of_joins {scopes : Scopes} {caller : Nat}
    (h : Reachable u (Fleet.start u scopes caller) s) (hc : s.closed = true)
    (hok : ∃ summary, s.result = .ok summary) {f : Nat → Tally}
    (hf : ∀ j tally, j ∈ s.joins → j.2 = .returned (.ok tally) → tally = f j.1) :
    s.result = .ok ⟨u.jobs.length, u.jobs.length, 0, 0,
      ((List.range u.jobs.length).map f).sum⟩ := by
  have hjoins : ∀ j ∈ s.joins, j.2 = .returned (.ok (f j.1)) := by
    intro j hj
    obtain ⟨tally, htally⟩ := h.result_ok_iff.mp hok j hj
    rw [htally, hf j tally hj htally]
  have hperm := h.perm_joins hc
  have hlength : s.joins.length = u.jobs.length := by
    rw [← List.length_map (f := Prod.fst), hperm.length_eq, List.length_range]
  obtain ⟨summary, hsummary⟩ := hok
  rw [hsummary, State.result_eq_summary hsummary, h.summary_eq, foldl_tallied_of_ok hjoins,
    hlength, (hperm.map f).sum_eq]
  simp [Summary.start]

end Fleet

end Converge
