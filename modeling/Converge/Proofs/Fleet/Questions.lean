import Converge.Proofs.Fleet.Conduct
import Converge.Proofs.Walk

/-!
# What a job asks

A job puts the questions of the work on the resources of its own tree, and no others.
-/

namespace Converge

variable {Q : Type} {A : Q → Type} {R α β ε : Type} {S T : Q → Prop}

/-! ## Plans -/

/-- All questions that the plan can come to are in `S`. -/
def Plan.AsksOnly (S : Q → Prop) : Plan Q A α → Prop
  | done _ => True
  | ask q next => S q ∧ ∀ a, (next a).AsksOnly S

namespace Plan.AsksOnly

theorem query {q : Q} (h : S q) : (Plan.query q : Plan Q A (A q)).AsksOnly S :=
  ⟨h, fun _ => trivial⟩

theorem mono {p : Plan Q A α} (h : p.AsksOnly S) (himp : ∀ q, S q → T q) : p.AsksOnly T := by
  induction p with
  | done a => trivial
  | ask q next ih => exact ⟨himp q h.1, fun a => ih a (h.2 a)⟩

theorem bind {p : Plan Q A α} {f : α → Plan Q A β} (h : p.AsksOnly S)
    (hf : ∀ a, (f a).AsksOnly S) : (p.bind f).AsksOnly S := by
  induction p with
  | done a => exact hf a
  | ask q next ih => exact ⟨h.1, fun a => ih a (h.2 a)⟩

theorem andThen {p : Plan Q A (Except ε α)} {f : α → Plan Q A (Except ε β)} (h : p.AsksOnly S)
    (hf : ∀ a, (f a).AsksOnly S) : (p.andThen f).AsksOnly S := by
  refine h.bind fun r => ?_
  cases r with
  | ok a => exact hf a
  | error e => trivial

end Plan.AsksOnly

/-! ## Walks -/

namespace Monitor

/-- The monitor of the courses that put no questions but those in `S`. -/
def asking (S : Q → Prop) : Monitor Q A R Unit where
  mayAsk _ q := S q
  answered _ _ _ := ()
  looked _ _ := some ()
  mayLeave _ _ := True
  left _ _ := ()

theorem asking_onlyAsks (S : Q → Prop) : (asking S : Monitor Q A R Unit).OnlyAsks where
  blind _ _ := rfl
  mayLeave _ _ := trivial
  left _ _ := rfl

end Monitor

theorem Plan.AsksOnly.meets {p : Plan Q A α} (h : p.AsksOnly S) :
    (Course.ofPlan p : Course Q A R α).Meets (.asking S) (fun _ _ => True) () := by
  induction p with
  | done a => trivial
  | ask q next ih => exact ⟨h.1, fun a => ih a (h.2 a)⟩

/-- A walk over resources that are worked on with questions in `S` puts no others. -/
theorem Tree.asking_grants (P : Provider Q A R) (S : Q → Prop) :
    Grants (.asking S) P (fun r => (P.satisfied r).AsksOnly S ∧ (P.apply r).AsksOnly S)
      (fun _ => True) (fun _ => True) where
  note _ _ _ _ := ⟨trivial, trivial⟩
  look _ _ _ _ _ := trivial
  stop _ _ _ _ _ := trivial
  satisfied x y here r _ _ hr := by
    refine (hr.1.meets.call (Monitor.asking_onlyAsks S) .satisfied r).bind fun z a _ => ?_
    cases a <;> simp [Tree.stop]
  apply x here r _ hr := by
    refine .look (Monitor.asking_onlyAsks S) fun b => ?_
    cases b with
    | true => simp
    | false =>
        refine .leave (Monitor.asking_onlyAsks S)
          ((hr.2.meets.call (Monitor.asking_onlyAsks S) .apply r).bind fun z a _ => ?_)
        cases a with
        | ok => exact .leave (Monitor.asking_onlyAsks S) (by simp)
        | error f => simp [Tree.stop]

/-! ## Runs -/

namespace Fleet

variable {u : Setup Q A R} {s : State Q A R} {scopes : Scopes} {caller i : Nat} {q : Q}

/-- What a job asks is a question of the work on a resource of its tree. -/
theorem Reachable.resource_of_asked (h : Reachable u (Fleet.start u scopes caller) s)
    (hq : .asked i q ∈ s.history) {S : R → Q → Prop}
    (hS : ∀ r, (u.provider.satisfied r).AsksOnly (S r) ∧ (u.provider.apply r).AsksOnly (S r)) :
    ∃ job, u.jobs[i]? = some job ∧ ∃ r ∈ job.tree.resources, S r q := by
  obtain ⟨later, earlier, hsplit⟩ := List.append_of_mem hq
  obtain ⟨job, hjob⟩ := h.job_of_deed hq rfl
  refine ⟨job, hjob, ?_⟩
  have hmeets := (Tree.asking_grants u.provider fun q => ∃ r ∈ job.tree.resources, S r q)
    |>.converge_meets u.policy job.tree () ?_ trivial
  · rw [← Setup.course_eq hjob] at hmeets
    exact h.may_ask (Monitor.asking_onlyAsks _).blind hmeets hsplit
  · intro r hr
    have himp : ∀ q, S r q → ∃ r ∈ job.tree.resources, S r q := fun q hq => ⟨r, hr, hq⟩
    exact ⟨(hS r).1.mono himp, (hS r).2.mono himp⟩

end Fleet

end Converge
