import Converge.Proofs.Addresses
import Converge.Proofs.Faults
import Converge.Proofs.Fleet.Conduct
import Converge.Proofs.Fleet.Verdict
import Converge.Proofs.Provision.Assembly

/-!
# Whose fault it is

A fault that comes of several units names one of them.  Three things have to agree for this to help:
the name of the job whose work ended with the fault, the name under which the unit was registered,
and the root of the tree to which the address in the fault belongs.
-/

namespace Converge

open Course (World)

variable {Q : Type} {A : Q → Type} {H R N κ α β σ : Type}

/-! ## Faults of one tree -/

namespace Fault

variable {f : Fault} {name : String}

/-- The fault happened at a node of a tree with this root, and names no unit. -/
def ArisesIn (root : String) (f : Fault) : Prop :=
  f.unit? = none ∧ ∃ here, f.address? = some here ∧ here.names.head? = some root

/-- The fault names this unit, and if it says where it happened, then in a tree whose root has the
same name. -/
def LiesWith (unit : String) (f : Fault) : Prop :=
  f.unit? = some unit ∧
    ∀ here, f.address? = some here → here.isTop = false → here.names.head? = some unit

theorem ArisesIn.liesWith (h : f.ArisesIn name) : (Fault.unit name f).LiesWith name := by
  obtain ⟨-, root, hroot, hhead⟩ := h
  constructor
  · rfl
  · intro here hhere _
    obtain rfl : root = here := Option.some.inj (hroot.symm.trans hhere)
    exact hhead

end Fault

theorem Trouble.unit?_fault (here : Address) (c : Trouble) : (c.fault here).unit? = none := by
  cases c <;> rfl

namespace Walk

/-- Addresses begin with the root. -/
theorem head?_addressOf (W : Walk Q A R N κ α β) (n : N) (p : Place) :
    (W.addressOf .top n p).names.head? = some (W.name n) := by
  cases p with
  | nil =>
      rw [addressOf_nil]
      rfl
  | cons i p =>
      rw [addressOf, Address.names_along_cons, nameAt?]
      rfl

theorem Lawful.arisesIn [SizeOf N] {W : Walk Q A R N κ α β} (L : W.Lawful) {n : N}
    {trace : List (Moment Q A R)} {f : Fault} (h : (W.one .top n).Leads trace (.error f)) :
    f.ArisesIn (W.name n) := by
  obtain ⟨p, c, -, rfl⟩ := L.error_iff.mp h
  exact ⟨c.unit?_fault _, _, c.address?_fault _, W.head?_addressOf n p⟩

end Walk

section

variable {P : Provider Q A R} {policy : Policy} {t : Tree R} {f : Fault}

theorem Tree.arisesIn_of_validate {trace : List (Moment Q A R)}
    (h : (t.validate P).Leads trace (.error f)) : f.ArisesIn t.name :=
  (lawful_validating P).arisesIn (leads_validate_error.mp h)

theorem Tree.arisesIn_of_converge {trace : List (Moment Q A R)}
    (h : (t.converge P policy).Leads trace (.error f)) : f.ArisesIn t.name :=
  (lawful_converging P policy).arisesIn (leads_converge_error.mp h)

theorem Blueprint.arisesIn_of_build {b : Blueprint H R}
    {trace : List (Moment (Hook H) Hook.Answer R)} (h : b.build.Leads trace (.error f)) :
    f.ArisesIn b.name :=
  lawful_building.arisesIn (leads_build_error.mp h)

end

/-! ## Faults of passes over several units -/

namespace Job

variable {trace : List (Moment Q A R)} {name : String} {f : Fault}

/-- What is done on behalf of a unit fails as it would have, but for the name. -/
theorem leads_onBehalf_error {c : Course Q A R (Except Fault α)} :
    (onBehalf name c).Leads trace (.error f) ↔
      ∃ e, c.Leads trace (.error e) ∧ f = e.forUnit name := by
  rw [onBehalf, Course.leads_bind]
  constructor
  · rintro ⟨first, _, e | a, rfl, hfirst, rfl, hrest⟩
    · cases hrest
      exact ⟨e, by rwa [List.append_nil], rfl⟩
    · cases hrest
  · rintro ⟨e, h, rfl⟩
    exact ⟨trace, [], .error e, (List.append_nil _).symm, h, rfl, rfl⟩

/-- A fault that is found while trees are built is one of a blueprint, under its name. -/
theorem leads_buildAll_error {bs : List (String × Blueprint H R)}
    {trace : List (Moment (Hook H) Hook.Answer R)} (h : (buildAll bs).Leads trace (.error f)) :
    ∃ b ∈ bs, ∃ e, f = .unit b.1 e ∧ e.ArisesIn b.2.name := by
  induction bs generalizing trace with
  | nil => cases h.2
  | cons b rest ih =>
      rw [buildAll, Course.leads_andThen_error, leads_onBehalf_error] at h
      rcases h with ⟨e, he, rfl⟩ | ⟨_, _, t, -, -, hrest⟩
      · have harises := Blueprint.arisesIn_of_build he
        exact ⟨b, List.mem_cons_self, e, Fault.forUnit_of_unit? harises.1 _, harises⟩
      · rcases Course.leads_andThen_error.mp hrest with hrest | ⟨_, _, jobs, -, -, hdone⟩
        · obtain ⟨b', hb', hf⟩ := ih hrest
          exact ⟨b', List.mem_cons_of_mem _ hb', hf⟩
        · cases hdone.2

/-- A fault that is found while trees are validated is one of a job, under its name. -/
theorem leads_validateAll_error {P : Provider Q A R} {jobs : List (Job R)}
    (h : (validateAll P jobs).Leads trace (.error f)) :
    ∃ job ∈ jobs, ∃ e, f = .unit job.name e ∧ e.ArisesIn job.tree.name := by
  induction jobs generalizing trace with
  | nil => cases h.2
  | cons job jobs ih =>
      rw [validateAll, Course.leads_andThen_error, leads_onBehalf_error] at h
      rcases h with ⟨e, he, rfl⟩ | ⟨_, _, _, -, -, hrest⟩
      · have harises := Tree.arisesIn_of_validate he
        exact ⟨job, List.mem_cons_self, e, Fault.forUnit_of_unit? harises.1 _, harises⟩
      · obtain ⟨job', hjob', hf⟩ := ih hrest
        exact ⟨job', List.mem_cons_of_mem _ hjob', hf⟩

end Job

/-- What a course ends with, whatever it is answered, is what one of its traces leads to. -/
theorem Course.meets_leads (c : Course Q A R α) :
    c.Meets .free (fun _ a => ∃ trace, c.Leads trace a) () := by
  induction c with
  | done a => exact ⟨[], rfl, rfl⟩
  | ask q next ih =>
      refine ⟨trivial, fun x => (ih x).mono ?_⟩
      rintro _ a ⟨trace, h⟩
      exact ⟨_, x, trace, rfl, h⟩
  | look next ih =>
      rintro b _ -
      refine (ih b).mono ?_
      rintro _ a ⟨trace, h⟩
      exact ⟨_, b, trace, rfl, h⟩
  | leave m next ih =>
      refine ⟨trivial, ih.mono ?_⟩
      rintro _ a ⟨trace, h⟩
      exact ⟨_, trace, rfl, h⟩

/-! ## Faults of runs -/

namespace Fleet

variable {u : Setup Q A R} {s : State Q A R} {scopes : Scopes} {caller i : Nat} {job : Job R}
  {f : Fault}

/-- The fault is what the work on job `i` came to. -/
inductive Blames (u : Setup Q A R) (s : State Q A R) (i : Nat) (job : Job R) : Fault → Prop
  /-- The work on it returned a fault that names no unit: one of its tree, or the cancellation with
  which a job is turned away that has not set to work. -/
  | returned {e : Fault} (hstage : s.stages[i]? = some (.joined (.returned (.error e))))
      (he : e.unit? = none)
      (hcourse : e = .cancelled .top ∨ e.ArisesIn job.tree.name ∧
        ∃ trace, (job.tree.converge u.provider u.policy).Leads trace (.error e)) :
      Blames u s i job (.unit job.name e)
  /-- The task that it is broke off. -/
  | crashed {how : String} (hstage : s.stages[i]? = some (.joined (.crashed (u.task i) how))) :
      Blames u s i job (.broken job.name (crashText (u.task i) how))

/-- What the work on a job returned is a fault of its tree, unless the job was turned away. -/
theorem Reachable.leads_of_returned (h : Reachable u (Fleet.start u scopes caller) s)
    (hjob : u.jobs[i]? = some job) {r : Except Fault Tally}
    (hstage : s.stages[i]? = some (.joined (.returned r))) :
    (∃ trace, (job.tree.converge u.provider u.policy).Leads trace r) ∨
      r = .error (.cancelled .top) := by
  have hpost := h.outcome_meets Monitor.free_onlyAsks.blind (u.course i).meets_leads hstage rfl
  rwa [Setup.course_eq hjob] at hpost

/-- Whatever a run returns but a success is put down to the job that it came of. -/
theorem Reachable.exists_blamed (h : Reachable u (Fleet.start u scopes caller) s)
    (hf : s.result = .error f) : ∃ i job, u.jobs[i]? = some job ∧ Blames u s i job f := by
  obtain ⟨⟨i, o⟩, hj, hjf⟩ := h.exists_join_of_error hf
  have hstage := h.mem_joins.mp hj
  obtain ⟨job, hjob⟩ : ∃ job, u.jobs[i]? = some job :=
    ⟨_, List.getElem?_eq_getElem (h.lt_of_mem_joins _ hj)⟩
  refine ⟨i, job, hjob, ?_⟩
  obtain ⟨e, he, rfl⟩ := Outcome.exists_error hjf
  rw [Setup.unit_eq hjob] at he ⊢
  cases o with
  | crashed task how =>
      obtain rfl := h.eq_task_of_crashed hstage rfl
      obtain rfl := Except.error.inj he
      exact .crashed hstage
  | returned r =>
      obtain rfl : r = .error e := he
      rcases h.leads_of_returned hjob hstage with ⟨trace, hleads⟩ | hcut
      · have harises := Tree.arisesIn_of_converge hleads
        rw [Fault.forUnit_of_unit? harises.1]
        exact .returned hstage harises.1 (.inr ⟨harises, trace, hleads⟩)
      · obtain rfl := Except.error.inj hcut
        exact .returned hstage rfl (.inl rfl)

/-- If the tree of a job has its name, then the fault lies with it. -/
theorem Blames.liesWith (h : Blames u s i job f) (hname : job.tree.name = job.name) :
    f.LiesWith job.name := by
  cases h with
  | returned _ _ hcourse =>
      rcases hcourse with rfl | ⟨harises, -⟩
      · refine ⟨rfl, fun here hhere htop => ?_⟩
        cases hhere
        cases htop
      · exact (hname ▸ harises).liesWith
  | crashed => exact ⟨rfl, fun here hhere => nomatch hhere⟩

end Fleet

/-! ## Units of a configuration -/

/-- The blueprints of declarations, under their names. -/
def designs (selected : List (String × Declaration)) : List (String × Design) :=
  selected.map fun x => (x.1, x.2.design)

/-- A unit is registered under the name of its root. -/
theorem Config.name_design {c : Config} {choice : Option String}
    {selected : List (String × Declaration)} (h : c.registry.select choice = .ok selected) :
    ∀ x ∈ selected, x.2.design.name = x.1 := by
  intro x hx
  obtain ⟨u, -, rfl⟩ := unit_of_mem_registry (Catalog.mem_of_mem_select h hx)
  rfl

section

variable {selected : List (String × Declaration)} {w : World (Hook Verdict) Hook.Answer σ} {s : σ}

/-- A job that has been built for a declaration has its name. -/
theorem exists_of_job {jobs : List (Job Resource)} {job : Job Resource}
    (h : ((Job.buildAll (designs selected)).run w s).1 = .ok jobs) (hjob : job ∈ jobs) :
    ∃ x ∈ selected, job.name = x.1 ∧ job.tree.name = x.2.design.name := by
  rw [Job.eq_of_run_buildAll h, designs, List.map_map] at hjob
  obtain ⟨x, hx, rfl⟩ := List.mem_map.mp hjob
  exact ⟨x, hx, rfl, Blueprint.name_tree _⟩

end

/-- At every time a run has a name for the number of a task if and only if that is the task of a job
which has not been joined, and then it is the name of the unit of that job.  What the run returns,
if not a success, names a unit of the run, and is what the work on that unit came to: a fault that
itself names none, or that its task broke off.

If the units are those of a configuration, then whatever goes wrong while their trees are built,
validated or converged, in whatever world, names one of them, and happened in its tree if it is
known where. -/
theorem Fleet.attribution :
    (∀ (u : Fleet.Setup Q A R) scopes caller s,
      Fleet.Reachable u (Fleet.start u scopes caller) s →
      (∀ n name, s.names[n]? = some name ↔ ∃ i job, u.jobs[i]? = some job ∧ u.task i = n ∧
        job.name = name ∧ ∀ o, s.stages[i]? ≠ some (.joined o)) ∧
      ∀ f, s.result = .error f →
        ∃ i job, u.jobs[i]? = some job ∧ Fleet.Blames u s i job f) ∧
    ∀ (c : Config) choice selected, c.registry.select choice = .ok selected →
    ∀ (τ : Type) (hooks : World (Hook Verdict) Hook.Answer τ) t,
      (∀ f, ((Job.buildAll (designs selected)).run hooks t).1 = .error f →
        ∃ x ∈ selected, f.LiesWith x.1) ∧
      ∀ jobs, ((Job.buildAll (designs selected)).run hooks t).1 = .ok jobs →
        (∀ (P : Provider Q A Resource) (σ : Type) (w : World Q A σ) s f,
          ((Job.validateAll P jobs).run w s).1 = .error f → ∃ x ∈ selected, f.LiesWith x.1) ∧
        ∀ (u : Fleet.Setup Q A Resource) scopes caller s f, u.jobs = jobs →
          Fleet.Reachable u (Fleet.start u scopes caller) s → s.result = .error f →
          ∃ x ∈ selected, f.LiesWith x.1 := by
  refine ⟨fun u scopes caller s h => ⟨fun n name => h.getElem?_names, fun f => h.exists_blamed⟩,
    ?_⟩
  intro c choice selected hselect τ hooks t
  have hnames := Config.name_design hselect
  constructor
  · intro f hf
    obtain ⟨trace, hleads, -⟩ := Course.exists_leads_run hooks (Job.buildAll (designs selected)) t
    rw [hf] at hleads
    obtain ⟨b, hb, e, rfl, harises⟩ := Job.leads_buildAll_error hleads
    obtain ⟨x, hx, rfl⟩ := List.mem_map.mp hb
    exact ⟨x, hx, (hnames x hx ▸ harises).liesWith⟩
  intro jobs hbuilt
  have hjobs : ∀ job ∈ jobs, job.tree.name = job.name ∧ ∃ x ∈ selected, job.name = x.1 := by
    intro job hjob
    obtain ⟨x, hx, hname, htree⟩ := exists_of_job hbuilt hjob
    exact ⟨by rw [htree, hnames x hx, hname], x, hx, hname⟩
  constructor
  · intro P σ w s f hf
    obtain ⟨trace, hleads, -⟩ := Course.exists_leads_run w (Job.validateAll P jobs) s
    rw [hf] at hleads
    obtain ⟨job, hjob, e, rfl, harises⟩ := Job.leads_validateAll_error hleads
    obtain ⟨hname, x, hx, hjobname⟩ := hjobs job hjob
    rw [hname] at harises
    exact ⟨x, hx, hjobname ▸ harises.liesWith⟩
  · rintro u scopes caller s f rfl h hf
    obtain ⟨i, job, hi, hblames⟩ := h.exists_blamed hf
    obtain ⟨hname, x, hx, hjobname⟩ := hjobs job (List.mem_of_getElem? hi)
    exact ⟨x, hx, hjobname ▸ hblames.liesWith hname⟩

/-! ## A pier -/

namespace Rehearsal

/-- A unit with a point in its name, which it must not have. -/
def pier : Config where
  defaults := ⟨none, none, none⟩
  options := ⟨none, .skipSubtree⟩
  units := [{ name := "north.pier", images := [], manifests := [] }]
  baseDir := ⟨""⟩

/-- What a run of two jobs returns is put down to one of them, and the pier is not built. -/
theorem attribution_of_pier :
    (∃ s f i job, Fleet.Reachable clumsyPair (Fleet.start clumsyPair .one 0) s ∧
      s.result = .error f ∧ clumsyPair.jobs[i]? = some job ∧
      Fleet.Blames clumsyPair s i job f) ∧
    ∃ selected f, pier.registry.select none = .ok selected ∧
      ((Job.buildAll (designs selected)).run verdicts.alone
        (⟨(), .one, 0, 0, none⟩ : Environment.Solo Unit)).1 = .error f ∧
      f.LiesWith "north.pier" := by
  constructor
  · have hsome : ((Fleet.start clumsyPair .one 0).moves? clumsyPair untilReturn).isSome = true := by
      decide
    have hreach := Fleet.reachable_moves? .start (Option.some_get hsome).symm
    obtain ⟨hruns, -⟩ := Fleet.attribution (Q := Cue) (A := Cue.Answer) (R := Actor)
    obtain ⟨-, hblamed⟩ := hruns _ _ _ _ hreach
    obtain ⟨i, job, hjob, hblames⟩ := hblamed _ rfl
    exact ⟨_, _, i, job, hreach, rfl, hjob, hblames⟩
  · obtain ⟨-, hunits⟩ := Fleet.attribution (Q := Cue) (A := Cue.Answer) (R := Actor)
    obtain ⟨hbuild, -⟩ := hunits pier none _ rfl _ verdicts.alone
      (⟨(), .one, 0, 0, none⟩ : Environment.Solo Unit)
    obtain ⟨x, hx, hlies⟩ := hbuild _ rfl
    obtain rfl := List.mem_singleton.mp hx
    exact ⟨_, _, rfl, rfl, hlies⟩

end Rehearsal

end Converge
