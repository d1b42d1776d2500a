import Converge.Proofs.Fleet.Verdict

/-!
# The faults of runs

A run ends with a fault of a resource that was asked about or brought to its state, with work that
broke off, or with a cancellation.  It finds no fault with a declaration any more.
-/

namespace Converge

variable {Q : Type} {A : Q → Type} {R : Type}

namespace Fault

/-- Can work on a tree end with this? -/
def IsOfRun : Fault → Prop
  | satisfied _ _ | apply _ _ | cancelled _ | broken _ _ => True
  | unit _ cause => cause.IsOfRun
  | validation _ _ | children _ _ | unknownUnit _ => False

theorem IsOfRun.forUnit {f : Fault} (h : f.IsOfRun) (name : String) : (f.forUnit name).IsOfRun := by
  cases f <;> exact h

/-- No declaration is blamed for it. -/
theorem IsOfRun.kind {f : Fault} (h : f.IsOfRun) : f.kind ≠ "validation" ∧ f.kind ≠ "children" := by
  induction f with
  | unit name cause ih => exact ih h
  | validation | children | unknownUnit => exact h.elim
  | _ => simp [Fault.kind]

theorem isOfRun_of_isCancellation {f : Fault} (h : f.isCancellation = true) : f.IsOfRun := by
  induction f with
  | cancelled => trivial
  | unit name cause ih => exact ih h
  | _ => cases h

end Fault

namespace Tree

variable {P : Provider Q A R}

theorem meets_free {α : Type} (c : Course Q A R α) : c.Meets .free (fun _ _ => True) () := by
  induction c with
  | done a => trivial
  | ask q next ih => exact ⟨trivial, ih⟩
  | look next ih => exact fun b _ _ => ih b
  | leave m next ih => exact ⟨trivial, ih⟩

theorem stop_free {α : Type} (here : Address) {f : Fault} (hf : f.IsOfRun) :
    (stop here f : Course Q A R (Except Fault α)).Meets .free
      (Keeps (fun _ => True) Fault.IsOfRun) () := by
  rintro (_ | _) y -
  · exact keeps_error.mpr ⟨trivial, hf⟩
  · exact keeps_error.mpr ⟨trivial, trivial⟩

/-- What ends a walk is a fault of a call, or a cancellation. -/
theorem free_grants (P : Provider Q A R) :
    Grants .free P (fun _ => True) (fun _ => True) Fault.IsOfRun where
  note _ _ _ _ := ⟨trivial, trivial⟩
  look _ _ _ _ _ := trivial
  stop _ _ _ _ _ := trivial
  satisfied x y here r _ _ _ := by
    refine (meets_free _).bind fun z result _ => ?_
    cases result with
    | ok b => exact keeps_ok.mpr trivial
    | error f => exact stop_free here trivial
  apply x here r _ _ := by
    rintro (_ | _) y -
    · refine ⟨trivial, (meets_free _).bind fun z result _ => ?_⟩
      cases result with
      | ok => exact ⟨trivial, keeps_ok.mpr trivial⟩
      | error f => exact stop_free here trivial
    · exact keeps_error.mpr ⟨trivial, trivial⟩

end Tree

namespace Fleet

variable {u : Setup Q A R} {s : State Q A R} {scopes : Scopes} {caller : Nat}

/-- At this stage a job will end with a fault of a run, if with any. -/
def Stage.EndsOfRun : Stage Q A R → Prop
  | working c => c.Meets .free (Tree.Keeps (fun _ => True) Fault.IsOfRun) ()
  | asking _ next => ∀ a, (next a).Meets .free (Tree.Keeps (fun _ => True) Fault.IsOfRun) ()
  | leaving o | ended o | joined o => ∀ f, o = .returned (.error f) → f.IsOfRun
  | _ => True

namespace Reachable

theorem endsOfRun (h : Reachable u (Fleet.start u scopes caller) s) {i : Nat} {g : Stage Q A R}
    (hi : s.stages[i]? = some g) : g.EndsOfRun := by
  have hcourse : (u.course i).Meets .free (Tree.Keeps (fun _ => True) Fault.IsOfRun) () := by
    have hlt : i < u.jobs.length := h.isSound.length ▸ State.lt_of_stage hi
    rw [Setup.course, List.getElem?_eq_getElem hlt]
    exact (Tree.free_grants u.provider).converge_meets u.policy _ () (by simp) trivial
  have hnotStarted : ∀ f, State.notStarted = .returned (.error f) → f.IsOfRun := by
    intro f hf
    obtain rfl := Except.error.inj (Outcome.returned.inj hf)
    trivial
  refine h.keeps i (fun _ _ g => g.EndsOfRun) (fun _ _ hg => hg) ?_ (sound_start u scopes caller)
    (fun g hg => by rw [stage_start hg]; trivial) hi
  intro _ b b' g ds g' _ hgoes hg
  cases hgoes with
  | takeUp | enter => exact hcourse
  | pace => exact (Course.Meets.pace hg rfl).2
  | ask => exact hg.2
  | reply a => exact hg a
  | finish => exact fun f hf => hg.2 f (Outcome.returned.inj hf)
  | leave | join => exact hg
  | crash => exact fun f hf => by cases hf
  | turnAway | giveUp | handOn => exact hnotStarted
  | pass | queue | letOn => trivial

/-- A run that returns a success has joined one of every job. -/
theorem joined_ok (h : Reachable u (Fleet.start u scopes caller) s) (hc : s.closed = true)
    {summary : Summary} (hok : s.result = .ok summary) {i : Nat} (hi : i < u.jobs.length) :
    ∃ tally, s.stages[i]? = some (.joined (.returned (.ok tally))) := by
  rw [← h.isSound.length] at hi
  obtain ⟨o, ho⟩ := h.joined_of_closed hc (List.getElem?_eq_getElem hi)
  have hstage : s.stages[i]? = some (.joined o) := by rw [List.getElem?_eq_getElem hi, ho]
  obtain ⟨tally, rfl⟩ := h.result_ok_iff.mp ⟨summary, hok⟩ _ (h.mem_joins.mpr hstage)
  exact ⟨tally, hstage⟩

/-- No run returns a fault of another kind. -/
theorem isOfRun (h : Reachable u (Fleet.start u scopes caller) s) {f : Fault}
    (hf : s.result = .error f) : f.IsOfRun := by
  have hjoined : ∀ j ∈ s.joins, ∀ e, j.2.result (u.unit j.1) = .error e → e.IsOfRun := by
    intro j hj e hr
    have hends := h.endsOfRun (h.mem_joins.mp hj)
    rcases j with ⟨i, r | how⟩
    · exact hends e (by rw [show r = .error e from hr])
    · obtain rfl := Except.error.inj hr
      trivial
  obtain ⟨j, hj, hjf⟩ := h.exists_join_of_error hf
  obtain ⟨e, he, rfl⟩ := Outcome.exists_error hjf
  exact (hjoined j hj e he).forUnit _

end Reachable

end Fleet

end Converge
