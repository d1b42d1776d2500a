import Converge.Tree.Converge

/-!
# Courses that heed a cancellation

A walk that looks and finds its scope cancelled ends there and then, without another question and
without another mark.  So what a walk does before it is cancelled is what it would have done
anyway, and it does nothing else.
-/

namespace Converge

variable {Q : Type} {A : Q → Type} {R α β γ : Type}

namespace Course

/-- Every look that finds a cancellation is the end of the course. -/
def Heeds : Course Q A R (Except Fault α) → Prop
  | done _ => True
  | ask _ next => ∀ a, (next a).Heeds
  | look next => (∃ here, next true = done (.error (.cancelled here))) ∧ (next false).Heeds
  | leave _ next => next.Heeds

namespace Heeds

variable {c : Course Q A R (Except Fault α)}

/-- What comes next may do as it likes with a success or a failure, but lets a cancellation pass. -/
theorem bind {f : Except Fault α → Course Q A R (Except Fault β)} (h : c.Heeds)
    (hf : ∀ r, (f r).Heeds)
    (hpass : ∀ here, f (.error (.cancelled here)) = done (.error (.cancelled here))) :
    (c.bind f).Heeds := by
  induction c with
  | done r => exact hf r
  | ask q next ih => exact fun a => ih a (h a)
  | look next ih =>
      obtain ⟨⟨here, hstop⟩, hgo⟩ := h
      refine ⟨⟨here, ?_⟩, ih false hgo⟩
      change (next true).bind f = _
      rw [hstop, done_bind, hpass]
  | leave m next ih => exact ih h

theorem andThen {f : α → Course Q A R (Except Fault β)} (h : c.Heeds) (hf : ∀ a, (f a).Heeds) :
    (c.andThen f).Heeds := by
  refine h.bind (fun r => ?_) fun here => rfl
  cases r with
  | ok a => exact hf a
  | error e => exact trivial

/-- A call looks for nothing. -/
theorem call {f : γ → Course Q A R (Except Fault α)} (call : Call) (r : R) (work : Plan Q A γ)
    (hf : ∀ a, (f a).Heeds) : ((Course.call call r work).bind f).Heeds := by
  have hplan : ∀ p : Plan Q A γ,
      (((ofPlan p).bind fun a => leave (.ended call r) (done a)).bind f).Heeds := by
    intro p
    induction p with
    | done a => exact hf a
    | ask q next ih => exact fun a => ih a
  exact hplan work

/-- The marks that come next change nothing. -/
theorem marks (h : c.Heeds) : c.marks.2.Heeds := by
  induction c with
  | leave m next ih => exact ih h
  | _ => exact h

end Heeds

end Course

namespace Tree

variable (P : Provider Q A R)

theorem heeds_stop (here : Address) (fault : Fault) :
    (stop here fault : Course Q A R (Except Fault α)).Heeds :=
  ⟨⟨here, rfl⟩, trivial⟩

theorem heeds_isSatisfied (here : Address) (r : R) : (isSatisfied P here r).Heeds := by
  refine .call .satisfied r (P.satisfied r) fun answer => ?_
  cases answer with
  | ok b => exact trivial
  | error f => exact heeds_stop here _

theorem heeds_applyResource (here : Address) (r : R) : (applyResource P here r).Heeds := by
  refine ⟨⟨here, rfl⟩, ?_⟩
  refine Course.Heeds.call .apply r (P.apply r) fun answer => ?_
  cases answer with
  | ok => exact trivial
  | error f => exact heeds_stop here _

mutual

theorem heeds_convergeAt : ∀ (t : Tree R) (policy : Policy) (above : Address),
    (t.convergeAt P policy above).Heeds
  | node name none ts, policy, above => by
      rw [convergeAt_bare]
      refine ⟨⟨above.child name, rfl⟩, ?_⟩
      exact (heeds_convergeAll ts policy (above.child name)).andThen fun below => trivial
  | node name (some r) ts, policy, above => by
      rw [convergeAt_resource]
      refine ⟨⟨above.child name, rfl⟩, ?_⟩
      refine (heeds_isSatisfied P (above.child name) r).andThen fun satisfied => ?_
      cases satisfied with
      | true =>
          cases policy with
          | skipSubtree => exact trivial
          | selfOnly =>
              exact (heeds_convergeAll ts .selfOnly (above.child name)).andThen fun below => trivial
      | false =>
          refine (heeds_convergeAll ts policy (above.child name)).andThen fun below => ?_
          exact (heeds_applyResource P (above.child name) r).andThen fun _ => trivial

theorem heeds_convergeAll : ∀ (ts : List (Tree R)) (policy : Policy) (above : Address),
    (convergeAll P policy above ts).Heeds
  | [], policy, above => by
      rw [convergeAll_nil]
      exact trivial
  | t :: ts, policy, above => by
      rw [convergeAll_cons]
      refine (heeds_convergeAt t policy above).andThen fun first => ?_
      exact (heeds_convergeAll ts policy above).andThen fun others => trivial

end

/-- A walk heeds a cancellation. -/
theorem heeds_converge (t : Tree R) (policy : Policy) : (t.converge P policy).Heeds := by
  have hwalk := heeds_convergeAt P t policy .top
  refine hwalk.bind (fun r => ?_) fun here => rfl
  cases r with
  | ok tally => exact trivial
  | error f =>
      rw [concluded]
      split <;> exact trivial

end Tree

end Converge
