import Mathlib.Logic.Relation
import Converge.Program
import Converge.Proofs.Inspection
import Converge.Proofs.Monitor

/-!
# The checks before a run

Trees are built and their resources are checked before anything is brought to its state.  If both
succeed, every node of every unit was found well-formed, and so was its resource; if they fail
although that is so, then because of a cancellation.  Neither asks anything of the world outside.
-/

namespace Converge

variable {Q : Type} {A : Q → Type} {R α β σ : Type}

/-! ## Courses that decide something -/

/-- A success says that `p` holds, and if it does then only a cancellation stands in the way of
one. -/
def Decided (p : Prop) : Except Fault α → Prop
  | .ok _ => p
  | .error f => p → f.isCancellation = true

theorem decided_congr {p q : Prop} (h : p ↔ q) {r : Except Fault α} :
    Decided p r ↔ Decided q r := by
  cases r with
  | ok a => exact h
  | error f => exact imp_congr_left h

namespace Course

/-- Whenever the course is followed, it decides whether `p` holds. -/
def Decides (w : World Q A σ) (p : Prop) (c : Course Q A R (Except Fault α)) : Prop :=
  ∀ s, Decided p (c.run w s).1

variable {w : World Q A σ} {p q : Prop}

theorem Decides.congr {c : Course Q A R (Except Fault α)} (h : c.Decides w p) (hpq : p ↔ q) :
    c.Decides w q :=
  fun s => (decided_congr hpq).mp (h s)

theorem decides_ok (a : α) (h : p) : (done (.ok a) : Course Q A R _).Decides w p := fun _ => h

theorem decides_error {f : Fault} (h : p → f.isCancellation = true) :
    (done (.error f) : Course Q A R (Except Fault α)).Decides w p := fun _ => h

theorem Decides.look {next : Bool → Course Q A R (Except Fault α)} (h : ∀ b, (next b).Decides w p) :
    (Course.look next).Decides w p := fun s => h _ s

theorem Decides.leave {m : Mark R} {c : Course Q A R (Except Fault α)} (h : c.Decides w p) :
    (Course.leave m c).Decides w p := fun s => h s

/-- One course after another, whatever comes of the first one. -/
theorem Decides.bind {c : Course Q A R (Except Fault α)}
    {f : Except Fault α → Course Q A R (Except Fault β)} (h : c.Decides w p)
    (hok : ∀ a, p → (f (.ok a)).Decides w q)
    (herror : ∀ e, (p → e.isCancellation = true) → (f (.error e)).Decides w q) :
    (c.bind f).Decides w q := by
  intro s
  rw [run_bind]
  have hc := h s
  generalize c.run w s = r at hc ⊢
  obtain ⟨a | e, steps, s'⟩ := r
  · exact herror _ hc s'
  · exact hok _ hc s'

/-- Two courses decide whether two things hold. -/
theorem Decides.andThen {c : Course Q A R (Except Fault α)}
    {f : α → Course Q A R (Except Fault β)} (h : c.Decides w p) (hf : ∀ a, (f a).Decides w q) :
    (c.andThen f).Decides w (p ∧ q) := by
  refine h.bind (fun a hp => (hf a).congr ⟨fun hq => ⟨hp, hq⟩, And.right⟩) fun e he => ?_
  exact decides_error fun hpq => he hpq.1

end Course

/-- The name of a unit is added to faults only. -/
theorem Job.decides_onBehalf {w : Course.World Q A σ} {p : Prop} (name : String)
    {c : Course Q A R (Except Fault α)} (h : c.Decides w p) : (onBehalf name c).Decides w p := by
  refine h.bind (fun a hp => Course.decides_ok a hp) fun e he => Course.decides_error fun hp => ?_
  rw [Fault.isCancellation_forUnit]
  exact he hp

/-! ## Building -/

namespace Blueprint

variable {H : Type}

mutual

/-- All nodes of a blueprint are such. -/
def All (p : H → Option R → Prop) : Blueprint H R → Prop
  | node _ hooks resource children => p hooks resource ∧ AllOf p children

def AllOf (p : H → Option R → Prop) : List (Blueprint H R) → Prop
  | [] => True
  | b :: rest => b.All p ∧ AllOf p rest

end

theorem allOf_iff {p : H → Option R → Prop} {bs : List (Blueprint H R)} :
    AllOf p bs ↔ ∀ b ∈ bs, b.All p := by
  induction bs with
  | nil => simp [AllOf]
  | cons b rest ih => simp [AllOf, ih]

mutual

/-- The resources of a tree are those of the blueprint. -/
theorem forall_resources_tree {p : R → Prop} (b : Blueprint H R) :
    (∀ r ∈ b.tree.resources, p r) ↔ b.All fun _ resource => ∀ r ∈ resource, p r := by
  cases b with
  | node name hooks resource children =>
      rw [tree, All, Tree.resources_node, ← forall_resources_trees children]
      simp [or_imp, forall_and]

theorem forall_resources_trees {p : R → Prop} (bs : List (Blueprint H R)) :
    (∀ r ∈ Tree.resourcesAll (trees bs), p r) ↔
      AllOf (fun _ resource => ∀ r ∈ resource, p r) bs := by
  cases bs with
  | nil => simp [trees, AllOf]
  | cons b rest =>
      rw [trees, AllOf, Tree.resourcesAll_cons, ← forall_resources_tree b,
        ← forall_resources_trees rest]
      simp [or_imp, forall_and]

end

end Blueprint

namespace Design

variable {ω : Type}

/-- Every node says of itself that it is well-formed. -/
abbrev Passes (b : Design) : Prop := b.All fun verdict _ => verdict = .ok ()

theorem decides_validate (v : Verdict) (fault : Failure → Fault) :
    (Blueprint.hook (.validate v) fault : Blueprint.Building Verdict Resource Unit).Decides
      (verdicts (ω := ω)).alone (v = .ok ()) := by
  intro s
  cases v with
  | ok a => exact rfl
  | error f => exact nofun

theorem decides_children (v : Verdict) (fault : Failure → Fault) :
    (Blueprint.hook (.children v) fault : Blueprint.Building Verdict Resource Unit).Decides
      (verdicts (ω := ω)).alone True :=
  fun _ => trivial

mutual

theorem decides_buildAt (above : Address) (b : Design) :
    (b.buildAt above).Decides (verdicts (ω := ω)).alone (Passes b) := by
  cases b with
  | node name verdict resource children =>
      refine .look fun cancelled => ?_
      cases cancelled with
      | true => exact Course.decides_error fun _ => rfl
      | false =>
          have hbelow := (decides_buildAll (above.child name) children).andThen (q := True)
            fun built => Course.decides_ok (Tree.node name resource built) trivial
          have hbuilt := (decides_validate verdict (.validation (above.child name))).andThen
            fun _ => (decides_children verdict (.children (above.child name))).andThen
              fun _ => hbelow
          refine hbuilt.congr ?_
          rw [Passes, Blueprint.All, and_true, true_and]

theorem decides_buildAll (above : Address) (bs : List Design) :
    (Blueprint.buildAll above bs).Decides (verdicts (ω := ω)).alone
      (Blueprint.AllOf (fun verdict _ => verdict = .ok ()) bs) := by
  cases bs with
  | nil => exact Course.decides_ok _ trivial
  | cons b rest =>
      have hbuilt := (decides_buildAt above b).andThen fun t =>
        (decides_buildAll above rest).andThen (q := True)
          fun ts => Course.decides_ok (t :: ts) trivial
      refine hbuilt.congr ?_
      rw [Blueprint.AllOf, and_true]

end

theorem decides_build (b : Design) :
    b.build.Decides (verdicts (ω := ω)).alone (Passes b) := by
  have hbuilt := (decides_buildAt (ω := ω) .top b).andThen (q := True) fun t =>
    (Course.decides_ok t trivial).leave (m := .event (.treeBuilt t.name t.size))
  exact hbuilt.congr (iff_of_eq (and_true _))

end Design

/-- All nodes of all units are well-formed, or building fails. -/
theorem Job.decides_buildAll {ω : Type} (bs : List (String × Design)) :
    (buildAll bs).Decides (verdicts (ω := ω)).alone (∀ b ∈ bs, Design.Passes b.2) := by
  induction bs with
  | nil => exact Course.decides_ok _ (by simp)
  | cons b rest ih =>
      have hbuilt := (decides_onBehalf b.1 (Design.decides_build (ω := ω) b.2)).andThen fun t =>
        ih.andThen (q := True) fun jobs => Course.decides_ok (⟨b.1, t⟩ :: jobs) trivial
      refine hbuilt.congr ?_
      rw [List.forall_mem_cons, and_true]

/-! ## Checking resources -/

/-- Whether a resource is well-formed is not for the world outside to say. -/
theorem Resource.valid_iff {ω : Type} (env : Outside ω) (r : Resource) (s : Environment.Solo ω) :
    Valid env.alone Resource.provider s r ↔ r.validate = .ok () := Iff.rfl

/-- All resources of all units are well-formed, or the check fails. -/
theorem Job.decides_validateAll {ω : Type} {env : Outside ω} (jobs : List (Job Resource)) :
    (validateAll Resource.provider jobs).Decides env.alone
      (∀ job ∈ jobs, ∀ r ∈ job.tree.resources, r.validate = .ok ()) := by
  intro s
  have hiff := Job.validateAll_ok_iff (Resource.valid_iff env) jobs s
  cases hresult : ((validateAll Resource.provider jobs).run env.alone s).1 with
  | ok _ => exact hiff.mp hresult
  | error f =>
      intro hvalid
      rw [hiff.mpr hvalid] at hresult
      cases hresult

/-! ## Nothing is asked -/

/-- The monitor of courses that ask nothing. -/
def mute : Monitor Q A R Unit where
  mayAsk _ _ := False
  answered _ _ _ := ()
  looked _ _ := some ()
  mayLeave _ _ := True
  left _ _ := ()

/-- The course asks nothing. -/
abbrev Course.Mute (c : Course Q A R α) : Prop := c.Meets mute (fun _ _ => True) ()

namespace Course.Mute

/-- All of its steps are marks. -/
theorem not_answered {c : Course Q A R α} (h : c.Mute) (w : World Q A σ) (s : σ) :
    ∀ x ∈ (c.run w s).2.1, ∃ m, x = .left m := by
  induction c generalizing s with
  | done a => exact nofun
  | ask q next ih => exact h.1.elim
  | look next ih => exact ih _ (h _ () rfl) s
  | leave m next ih =>
      intro x hx
      rcases List.mem_cons.mp hx with rfl | hx
      · exact ⟨m, rfl⟩
      · exact ih h.2 s x hx

end Course.Mute

/-- A resource is validated without a question, so only the refusals could ask one. -/
theorem mute_inspect {X : Type}
    {refuse : X → Failure → Course Command.Request Command.Request.Answer Resource Fault}
    (hrefuse : ∀ x cause, (refuse x cause).Mute) (xs : List (X × Resource)) :
    (inspect Resource.provider refuse xs).Mute := by
  induction xs with
  | nil => trivial
  | cons x xs ih =>
      obtain ⟨x, r⟩ := x
      have hcall : (Course.call .validate r (Resource.provider.validate r)).Mute := by
        rw [Course.Mute]
        exact ⟨trivial, trivial, trivial⟩
      rw [inspect, Course.Mute]
      refine Course.Meets.bind hcall fun _ answer _ => ?_
      cases answer with
      | ok _ => exact ih
      | error cause => exact Course.Meets.bind (hrefuse x cause) fun _ _ _ => trivial

theorem Job.mute_validateAll (jobs : List (Job Resource)) :
    (validateAll Resource.provider jobs).Mute := by
  have hrefuse : ∀ x cause, (invalidIn x cause : Course Command.Request Command.Request.Answer
      Resource Fault).Mute := fun _ _ => by
    rw [Course.Mute]
    exact ⟨trivial, trivial⟩
  rw [validateAll_eq]
  exact mute_inspect hrefuse _

/-! ## The stretches before a run -/

namespace Stretch

variable {ω : Type}

theorem build_decided (selected : List (String × Declaration)) (s : Environment.Solo ω) :
    Decided (∀ x ∈ selected, Design.Passes x.2.design) (build selected s).result := by
  refine (decided_congr ?_).mp (Job.decides_buildAll (selected.map fun x => (x.1, x.2.design)) s)
  rw [List.forall_mem_map]

theorem check_decided (env : Outside ω) (jobs : List (Job Resource)) (s : Environment.Solo ω) :
    Decided (∀ job ∈ jobs, ∀ r ∈ job.tree.resources, r.validate = .ok ())
      (check env jobs s).result :=
  Job.decides_validateAll jobs s

/-- Checking asks nothing of the world outside. -/
theorem asked_check (env : Outside ω) (jobs : List (Job Resource)) (s : Environment.Solo ω) :
    (check env jobs s).asked = [] := by
  refine List.filterMap_eq_nil_iff.mpr fun x hx => ?_
  obtain ⟨m, rfl⟩ := (Job.mute_validateAll jobs).not_answered env.alone s x hx
  rfl

end Stretch

end Converge
