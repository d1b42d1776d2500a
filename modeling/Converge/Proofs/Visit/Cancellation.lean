import Converge.Proofs.Scopes
import Converge.Proofs.Visit.Agenda
import Converge.Rehearsal.Actor

/-! # Cancellation during a walk

The scope may be cancelled before a walk begins or during any of its calls.  Wherever that falls,
no further call begins; a call that fails from then on was interrupted, and one that succeeds is
the last, so that the walk stops at its next task, if there is one.
-/

namespace Converge

open Course (World Step)

variable {Q : Type} {A : Q → Type} {R σ : Type}

/-- A scope that has been cancelled stays so, whatever is asked. -/
def Course.World.Latches (w : World Q A σ) : Prop :=
  ∀ q s, w.cancelled s = true → w.cancelled (w.answer q s).2 = true

theorem Course.World.Latches.after {w : World Q A σ} (hw : w.Latches) {s : σ}
    (hs : w.cancelled s = true) (steps : List (Step Q A R)) :
    w.cancelled (w.after s steps) = true := by
  induction steps generalizing s with
  | nil => exact hs
  | cons x steps ih =>
      cases x with
      | left m => exact ih hs
      | answered q a => exact ih (hw q s hs)

/-- Time that passes does not revive a scope. -/
theorem Environment.Solo.isCancelled_passUntil {ω : Type} {s : Environment.Solo ω}
    (hs : s.isCancelled = true) (time : Nat) : (s.passUntil time).isCancelled = true := by
  rw [passUntil]
  split
  · split
    · exact Scopes.cancelled_cancel hs _
    · exact hs
  · exact hs

/-- No environment revives a scope. -/
theorem Environment.latches_alone {ω : Type} (env : Environment Q A ω) : env.alone.Latches := by
  intro q s hs
  have hs' : s.isCancelled = true := hs
  change Solo.isCancelled _ = true
  simp only [alone]
  split
  · split
    · exact Scopes.cancelled_cancel hs' _
    · exact hs'
  · split
    · refine Solo.isCancelled_passUntil ?_ _
      exact hs'
    · refine Solo.isCancelled_passUntil ?_ _
      exact hs'
  · exact hs'

/-- No call begins any more once the scope has been cancelled. -/
theorem Calls.none_after_cancellation {w : World Q A σ} (hw : w.Latches) {P : Provider Q A R}
    {s s' : σ} {steps before after : List (Step Q A R)} {cs : List (Returned R)}
    (h : Calls w P s steps cs s') (hsteps : steps = before ++ after)
    (hbefore : w.cancelled (w.after s before) = true) :
    w.cancelled s' = true ∧ ∀ call r, .left (.began call r) ∉ after := by
  subst hsteps
  constructor
  · rw [← h.after_eq, World.after_append]
    exact hw.after hbefore after
  · intro call r hmem
    obtain ⟨xs, ys, rfl⟩ := List.append_of_mem hmem
    have hnot : w.cancelled (w.after s (before ++ xs)) = false :=
      h.not_cancelled (by rw [List.append_assoc])
    rw [World.after_append, hw.after hbefore xs] at hnot
    cases hnot

namespace Tree

variable {w : World Q A σ} {P : Provider Q A R} {policy : Policy} {k : List (Task R)} {s s' : σ}
  {cs : List (Returned R)}

/-- How a walk ends whose calls have all succeeded: at the next task if the scope has been
cancelled and there is one, and well if not. -/
def Winds (cancelled : Bool) (result : Except Fault Tally) (k : List (Task R)) : Prop :=
  match cancelled, k with
  | true, task :: _ => result = .error (.cancelled task.address)
  | _, _ => ∃ tally, result = .ok tally

/-- A walk ends after calls that have all succeeded, or its last call has failed. -/
inductive Ended (policy : Policy) (cancelled : Bool) (k : List (Task R)) :
    List (Returned R) → Except Fault Tally → Prop
  | wound {cs k' result} (h : After policy k cs k') (hresult : Winds cancelled result k') :
      Ended policy cancelled k cs result
  | failed {cs k₁ k₂ c here f} (h : After policy k cs k₁) (ho : Opens k₁ k₂)
      (hc : Fails k₂ c here f) :
      Ended policy cancelled k (cs ++ [c]) (.error (if cancelled then .cancelled here else f))

theorem Stops.ended {f : Fault} (h : Stops w P policy k s cs f s') :
    Ended policy (w.cancelled s') k cs (.error f) := by
  cases h with
  | cancelled hwalks hs' =>
      obtain ⟨k₁, hafter, -, hup⟩ := hwalks.exists_after
      rw [hup hs'] at hafter
      refine .wound hafter ?_
      rw [hs']
      exact rfl
  | failed hwalks ht hc hruns =>
      obtain ⟨k₁, hafter, hopens, -⟩ := hwalks.exists_after
      exact .failed hafter hopens hc

theorem Walks.ended (h : Walks w P policy k s cs [] s') (tally : Tally) :
    Ended policy (w.cancelled s') k cs (.ok tally) := by
  obtain ⟨k₁, hafter, -, hup⟩ := h.exists_after
  refine .wound hafter ?_
  cases hs' : w.cancelled s' with
  | false => exact ⟨tally, rfl⟩
  | true =>
      rw [hup hs']
      exact ⟨tally, rfl⟩

theorem Visit.ended {t : Tree R} {above : Address} {result : Except Fault Tally}
    (h : Visit w P policy above t s cs result s') :
    Ended policy (w.cancelled s') [.enter above t] cs result := by
  have hproceeds := h.proceeds []
  cases result with
  | ok tally => exact Walks.ended hproceeds tally
  | error f => exact Stops.ended hproceeds

namespace Ended

variable {cancelled : Bool} {result : Except Fault Tally}

/-- A call that failed was the last one, and the walk ends with it. -/
theorem of_failure (h : Ended policy cancelled k cs result) {before after : List (Returned R)}
    {c : Returned R} (hcs : cs = before ++ c :: after) (hc : c.isFailure = true) :
    after = [] ∧ ∃ k₁ k₂ here f, After policy k before k₁ ∧ Opens k₁ k₂ ∧ Fails k₂ c here f ∧
      result = .error (if cancelled then .cancelled here else f) := by
  cases h with
  | wound hafter hresult =>
      have := hafter.not_failure c (by rw [hcs]; exact List.mem_append_right _ List.mem_cons_self)
      rw [this] at hc
      cases hc
  | @failed cs k₁ k₂ d here f hafter hopens hfails =>
      rcases List.eq_nil_or_concat after with rfl | ⟨ds, e, rfl⟩
      · obtain ⟨rfl, hd⟩ := List.append_inj' hcs rfl
        cases hd
        exact ⟨rfl, k₁, k₂, here, f, hafter, hopens, hfails, rfl⟩
      · -- a failed call that is not the last would be among those that have succeeded
        have heq : cs ++ [d] = (before ++ c :: ds) ++ [e] := by
          rw [hcs]
          simp
        obtain ⟨rfl, -⟩ := List.append_inj' heq rfl
        have := hafter.not_failure c (List.mem_append_right _ List.mem_cons_self)
        rw [this] at hc
        cases hc

/-- If no call failed, the walk ends as its next task and the scope say. -/
theorem of_success (h : Ended policy cancelled k cs result)
    (hcs : ∀ c ∈ cs, c.isFailure = false) :
    ∃ k', After policy k cs k' ∧ Winds cancelled result k' := by
  cases h with
  | wound hafter hresult => exact ⟨_, hafter, hresult⟩
  | failed hafter hopens hfails =>
      have := hcs _ (List.mem_append_right _ List.mem_cons_self)
      rw [hfails.isFailure] at this
      cases this

theorem cancelled_of_cancellation {a : Address}
    (h : Ended policy cancelled k cs (.error (.cancelled a))) : cancelled = true := by
  cases cancelled with
  | true => rfl
  | false =>
      generalize hr : Except.error (Fault.cancelled a) = r at h
      cases h with
      | wound hafter hresult =>
          obtain ⟨tally, rfl⟩ := hresult
          cases hr
      | failed hafter hopens hfails =>
          have hnot := hfails.not_cancellation
          simp only [Bool.false_eq_true, if_false, Except.error.injEq] at hr
          rw [← hr] at hnot
          cases hnot

/-- A walk whose scope has not been cancelled fails with its last call. -/
theorem exists_failed {f : Fault} (h : Ended policy false k cs (.error f)) :
    ∃ before c k₁ k₂ here, cs = before ++ [c] ∧ After policy k before k₁ ∧ Opens k₁ k₂ ∧
      Fails k₂ c here f := by
  generalize hr : Except.error f = r at h
  cases h with
  | wound hafter hresult =>
      obtain ⟨tally, rfl⟩ := hresult
      cases hr
  | @failed before k₁ k₂ c here g hafter hopens hfails =>
      obtain rfl := Except.error.inj hr
      exact ⟨before, c, k₁, k₂, here, rfl, hafter, hopens, hfails⟩

theorem not_cancelled_of_failure {f : Fault} (h : Ended policy cancelled k cs (.error f))
    (hf : f.isCancellation = false) : cancelled = false := by
  cases cancelled with
  | false => rfl
  | true =>
      generalize hr : Except.error f = r at h
      cases h with
      | @wound _ k' _ hafter hresult =>
          cases k' with
          | nil =>
              obtain ⟨tally, rfl⟩ := hresult
              cases hr
          | cons task k' =>
              obtain rfl := Except.error.inj (hr.trans hresult)
              cases hf
      | failed hafter hopens hfails =>
          obtain rfl := Except.error.inj hr
          cases hf

end Ended

/-- What a cancellation does to a walk, before which or during which it may happen:

* no call begins after it;
* a call that fails is the last one, and the walk ends with the fault at its node, which is that
  it was cancelled if by then the scope had been, and the failure of the call if not;
* if no call fails, the calls leave one agenda, and if by then the scope has been cancelled, the
  walk ends cancelled at the node of the next task on it, and well exactly if it is empty;
* conversely it ends cancelled only if the scope has been cancelled, and with the failure of a
  call only if the scope had not been when that call came back. -/
theorem converge_cancellation (P : Provider Q A R) (policy : Policy) (w : World Q A σ)
    (hw : w.Latches) (t : Tree R) (s : σ) :
    ∃ result steps s' cs, (t.converge P policy).run w s = (result, steps, s') ∧
      Calls w P s steps cs s' ∧
      (∀ before after, steps = before ++ after → w.cancelled (w.after s before) = true →
        w.cancelled s' = true ∧ ∀ call r, .left (.began call r) ∉ after) ∧
      (∀ before c after, cs = before ++ c :: after → c.isFailure = true →
        after = [] ∧ ∃ k₁ k₂ here f, After policy [.enter .top t] before k₁ ∧ Opens k₁ k₂ ∧
          Fails k₂ c here f ∧
          result = .error (if w.cancelled s' then .cancelled here else f)) ∧
      ((∀ c ∈ cs, c.isFailure = false) →
        ∃ k, (∀ k', After policy [.enter .top t] cs k' ↔ k' = k) ∧
          (w.cancelled s' = true → (∀ task rest, k = task :: rest →
            result = .error (.cancelled task.address)) ∧ ((∃ tally, result = .ok tally) ↔ k = [])) ∧
          (w.cancelled s' = false → ∃ tally, result = .ok tally)) ∧
      (∀ a, result = .error (.cancelled a) → w.cancelled s' = true) ∧
      (∀ f, result = .error f → f.isCancellation = false → w.cancelled s' = false ∧
        ∃ before c k₁ k₂ here, cs = before ++ [c] ∧ After policy [.enter .top t] before k₁ ∧
          Opens k₁ k₂ ∧ Fails k₂ c here f) := by
  obtain ⟨cs, result, s', ⟨steps, hrun, hcs⟩, hvisit⟩ := exists_visit_of_converge w P policy t s
  have hended := hvisit.ended
  refine ⟨result, steps, s', cs, hrun, hcs, ?_, ?_, ?_, ?_, ?_⟩
  · exact fun before after hsteps hbefore => hcs.none_after_cancellation hw hsteps hbefore
  · exact fun before c after hsplit hc => hended.of_failure hsplit hc
  · intro hok
    obtain ⟨k, hafter, hwinds⟩ := hended.of_success hok
    have hagenda : ∀ k', After policy [.enter .top t] cs k' ↔ k' = k :=
      fun k' => ⟨fun h => h.unique hafter, fun hk => hk ▸ hafter⟩
    refine ⟨k, hagenda, fun hs' => ?_, fun hs' => ?_⟩
    · rw [hs'] at hwinds
      refine ⟨fun task rest hk => ?_, fun hresult => ?_, fun hk => ?_⟩
      · rw [hk] at hwinds
        exact hwinds
      · obtain ⟨tally, rfl⟩ := hresult
        cases k with
        | nil => rfl
        | cons task rest => cases hwinds
      · rw [hk] at hwinds
        exact hwinds
    · rw [hs'] at hwinds
      exact hwinds
  · rintro a rfl
    exact hended.cancelled_of_cancellation
  · rintro f rfl hf
    have hs' := hended.not_cancelled_of_failure hf
    rw [hs'] at hended
    exact ⟨hs', hended.exists_failed⟩

end Tree

/-! ## A failure after a cancellation -/

namespace Rehearsal

/-- A node whose work cancels the scope and then fails, beneath one that has its work to do. -/
def house : Tree Actor :=
  .node "house" (some (.plain "house" 0))
    [.node "roof" (some { Actor.plain "roof" 1 with
      cancelOn := ["apply"], failApply := some (.of "it fell") }) []]

/-- The walk ends cancelled at the node whose work failed, and not with that failure. -/
theorem converge_cancellation_of_house : stage.alone.Latches ∧
    ∃ steps s' cs, (house.converge company .skipSubtree).run stage.alone curtain =
        (.error (.cancelled ⟨["house", "roof"]⟩), steps, s') ∧
      Calls stage.alone company curtain steps cs s' ∧ s'.isCancelled = true ∧
      ∀ before after, steps = before ++ after →
        (stage.alone.after curtain before).isCancelled = true →
        ∀ call r, .left (.began call r) ∉ after := by
  obtain ⟨result, steps, s', cs, hrun, hcs, hnone, -, -, hcancelled, -⟩ :=
    Tree.converge_cancellation company .skipSubtree stage.alone stage.latches_alone house curtain
  have hresult : ((house.converge company .skipSubtree).run stage.alone curtain).1 =
      .error (.cancelled ⟨["house", "roof"]⟩) := rfl
  rw [hrun] at hresult
  obtain rfl : result = .error (.cancelled ⟨["house", "roof"]⟩) := hresult
  refine ⟨stage.latches_alone, steps, s', cs, hrun, hcs, hcancelled _ rfl, ?_⟩
  exact fun before after hsteps hbefore => (hnone before after hsteps hbefore).2

end Rehearsal

end Converge
