import Converge.Proofs.Building
import Converge.Proofs.Dispatch.Budget
import Converge.Proofs.Gate.Checks
import Converge.Proofs.Gate.Faults
import Converge.Rehearsal.Answers

/-!
# Nothing is done before everything was checked

The program asks the world outside for something only when the configuration was loaded and has no
problems, the units were found, and every node and every resource of every unit to be converged is
well-formed.  If any of this is not so it fails with nothing done, and with everything in order its
success is that of all units.
-/

namespace Converge

/-! ## The parts of a declaration -/

namespace Declaration

/-- The node itself, and the parts of the nodes below. -/
def Part (d e : Declaration) : Prop := Relation.ReflTransGen (fun d e => e ∈ d.children) d e

theorem forall_part {p : Declaration → Prop} {d : Declaration} :
    (∀ e, d.Part e → p e) ↔ p d ∧ ∀ c ∈ d.children, ∀ e, c.Part e → p e := by
  constructor
  · exact fun h => ⟨h d .refl, fun c hc e he => h e (.head hc he)⟩
  · rintro ⟨hself, hbelow⟩ e he
    rcases Relation.ReflTransGen.cases_head he with rfl | ⟨c, hc, he⟩
    · exact hself
    · exact hbelow c hc e he

/-- What holds of a node when it holds of the nodes below holds of all nodes. -/
theorem of_children {p : Declaration → Prop} (h : ∀ d, (∀ c ∈ d.children, p c) → p d)
    (d : Declaration) : p d := by
  have hcheckout : ∀ c, p (.checkout c) := fun c => h _ nofun
  have himage : ∀ i, p (.image i) := by
    refine fun i => h _ fun c hc => ?_
    obtain ⟨_, _, rfl⟩ := List.mem_map.mp hc
    exact hcheckout _
  have hmanifest : ∀ m, p (.manifest m) := by
    refine fun m => h _ fun c hc => ?_
    obtain ⟨_, _, rfl⟩ := List.mem_map.mp hc
    exact himage _
  cases d with
  | checkout c => exact hcheckout c
  | image i => exact himage i
  | manifest m => exact hmanifest m
  | unit u =>
      refine h _ fun c hc => ?_
      rcases List.mem_append.mp hc with hc | hc
      · obtain ⟨_, _, rfl⟩ := List.mem_map.mp hc
        exact himage _
      · obtain ⟨_, _, rfl⟩ := List.mem_map.mp hc
        exact hmanifest _

theorem design_eq (d : Declaration) : d.design = d.above (d.children.map design) := by
  cases d with
  | checkout c => rfl
  | image i =>
      rw [children, List.map_map]
      rfl
  | manifest m =>
      rw [children, List.map_map]
      rfl
  | unit u =>
      rw [children, List.map_append, List.map_map, List.map_map]
      rfl

/-- The blueprint of a declaration has a node for each of its parts. -/
theorem all_design {p : Verdict → Option Resource → Prop} (d : Declaration) :
    d.design.All p ↔ ∀ e, d.Part e → p e.check e.resource := by
  induction d using of_children with
  | h d ih =>
      rw [design_eq, above, Blueprint.All, Blueprint.allOf_iff, forall_part, List.forall_mem_map]
      exact and_congr_right fun _ => forall₂_congr ih

end Declaration

/-! ## Clearance -/

variable {ω : Type}

/-- Everything is in order for a run: the configuration was loaded and has no problems, the units
were found, and all of their nodes and the resources of those are well-formed. -/
structure Invocation.Cleared (i : Invocation) (outcome : Except ConfigError Config) (c : Config)
    (selected : List (String × Declaration)) : Prop where
  loaded : outcome = .ok c
  sound : c.problems = []
  found : c.registry.select i.unit = .ok selected
  nodes : ∀ x ∈ selected, ∀ d, x.2.Part d → d.check = .ok ()
  resources : ∀ x ∈ selected, ∀ d, x.2.Part d → ∀ r, d.resource = some r → r.validate = .ok ()

namespace Invocation

/-- What is fixed for the run of units that were selected from a configuration. -/
def setup (i : Invocation) (m : Machine) (c : Config) (selected : List (String × Declaration)) :
    Fleet.Setup Command.Request Command.Request.Answer Resource :=
  m.fleet (i.policyFor c) (i.limitFor m c) (selected.map fun x => ⟨x.1, x.2.design.tree⟩)

/-- The ways in which a run of the program can end, given what loading its configuration came to:
what the run comes to, and what it has asked. -/
inductive Ends (i : Invocation) (m : Machine) (loaded : Except ConfigError Config) :
    Conclusion → List Command.Request → Prop
  /-- Something is not in order. -/
  | refused {result : Conclusion} (hnot : ¬ ∃ c selected, i.Cleared loaded c selected)
      (hcode : result.code = 1) : Ends i m loaded result []
  /-- The scope was cancelled before a run. -/
  | cancelled {f : Fault} (hf : f.isCancellation = true) : Ends i m loaded (.faulty f) []
  | checked {c : Config} {selected : List (String × Declaration)}
      (h : i.Cleared loaded c selected) (honly : i.validateOnly = true) :
      Ends i m loaded (.valid selected.length) []
  | overcommitted {c : Config} {selected : List (String × Declaration)}
      (h : i.Cleared loaded c selected) (hrun : i.validateOnly = false)
      (hmany : (i.setup m c selected).isAdmissible = false) :
      Ends i m loaded .overcommitted []
  | returned {c : Config} {selected : List (String × Declaration)}
      (h : i.Cleared loaded c selected) (hrun : i.validateOnly = false) {scopes : Scopes}
      {caller : Nat} {t : Fleet.State Command.Request Command.Request.Answer Resource}
      (hreach : Fleet.Reachable (i.setup m c selected)
        (Fleet.start (i.setup m c selected) scopes caller) t)
      (hclosed : t.closed = true) :
      Ends i m loaded (.ofRun t.result) (t.history.reverse.filterMap Fleet.Deed.request?)

variable {i : Invocation} {m : Machine} {loaded : Except ConfigError Config} {c : Config}
  {selected : List (String × Declaration)}

/-- The nodes of the blueprints are in order if the declared ones are. -/
theorem passes_iff : (∀ x ∈ selected, Design.Passes x.2.design) ↔
    ∀ x ∈ selected, ∀ d, x.2.Part d → d.check = .ok () :=
  forall₂_congr fun x _ => x.2.all_design

/-- The resources of the trees are in order if those of the declared nodes are. -/
theorem resources_iff :
    (∀ job ∈ selected.map fun x => (⟨x.1, x.2.design.tree⟩ : Job Resource),
      ∀ r ∈ job.tree.resources, r.validate = .ok ()) ↔
    ∀ x ∈ selected, ∀ d, x.2.Part d → ∀ r, d.resource = some r → r.validate = .ok () := by
  rw [List.forall_mem_map]
  refine forall₂_congr fun x _ => ?_
  rw [Blueprint.forall_resources_tree, Declaration.all_design]
  rfl

/-- A fault ends a run that is in order only if it is a cancellation. -/
theorem Ends.fault {f : Fault}
    (h : ∀ c selected, i.Cleared loaded c selected → f.isCancellation = true) :
    i.Ends m loaded (.faulty f) [] := by
  by_cases hclear : ∃ c selected, i.Cleared loaded c selected
  · obtain ⟨c, selected, hclear⟩ := hclear
    exact .cancelled (h c selected hclear)
  · exact .refused hclear rfl

/-- What the program comes to once everything was found in order. -/
theorem Cleared.ends (h : i.Cleared loaded c selected) (env : Outside ω)
    (s : Environment.Solo ω) :
    let last : Stretch ω Conclusion :=
      if i.validateOnly then .settled (.valid (i.setup m c selected).jobs.length) s
      else Stretch.converge m env (i.policyFor c) (i.limitFor m c) (i.setup m c selected).jobs s
    i.Ends m loaded last.result last.asked := by
  intro last
  cases honly : i.validateOnly with
  | true =>
      have hlast : last = .settled (.valid (i.setup m c selected).jobs.length) s := if_pos honly
      have hlength : (i.setup m c selected).jobs.length = selected.length := List.length_map ..
      rw [hlast, hlength]
      exact .checked h honly
  | false =>
      let fleet := m.fleet (i.policyFor c) (i.limitFor m c) (i.setup m c selected).jobs
      have hlast : last = Stretch.converge m env (i.policyFor c) (i.limitFor m c)
          (i.setup m c selected).jobs s := if_neg (by simp [honly])
      rw [hlast]
      cases hadmissible : fleet.isAdmissible with
      | false =>
          rw [Stretch.converge_of_not_isAdmissible hadmissible]
          exact .overcommitted h honly hadmissible
      | true =>
          obtain ⟨t, hreach, hclosed, hresult, -, hasked⟩ :=
            Stretch.exists_closed env s hadmissible
          rw [hresult, hasked]
          exact .returned h honly hreach hclosed

/-- A step before the run that asks nothing. -/
theorem Ends.andThen {α : Type} {first : Stretch ω (Except Fault α)}
    {next : α → Environment.Solo ω → Stretch ω Conclusion} (hasked : first.asked = [])
    (hok : ∀ a, first.result = .ok a →
      i.Ends m loaded (next a first.solo).result (next a first.solo).asked)
    (herror : ∀ f, first.result = .error f → i.Ends m loaded (.faulty f) []) :
    i.Ends m loaded (first.andThen next).result (first.andThen next).asked := by
  rw [Stretch.andThen]
  cases hr : first.result with
  | ok a =>
      simp only [Stretch.after, hasked, List.nil_append]
      exact hok a hr
  | error f =>
      simp only [hasked]
      exact herror f hr

theorem ends_runWith (env : Outside ω) (s : Environment.Solo ω)
    (hloaded : loaded = .ok c) (hsound : c.problems = []) :
    i.Ends m loaded (i.runWith m env c s).result (i.runWith m env c s).asked := by
  cases hfound : c.registry.select i.unit with
  | error f =>
      simp only [runWith, hfound]
      refine .fault fun c' selected h => ?_
      obtain rfl := Except.ok.inj (hloaded.symm.trans h.loaded)
      cases hfound.symm.trans h.found
  | ok selected =>
      have hthese : ∀ c' selected', i.Cleared loaded c' selected' → i.Cleared loaded c selected := by
        intro c' selected' h
        obtain rfl := Except.ok.inj (hloaded.symm.trans h.loaded)
        obtain rfl := Except.ok.inj (hfound.symm.trans h.found)
        exact h
      simp only [runWith, hfound]
      have hbuilt := (decided_congr passes_iff).mp (Stretch.build_decided selected s)
      refine Ends.andThen rfl (fun jobs hbuild => ?_) fun f hbuild => ?_
      · rw [hbuild] at hbuilt
        obtain rfl : jobs = (i.setup m c selected).jobs := by
          rw [Job.eq_of_run_buildAll hbuild, List.map_map]
          rfl
        have hchecked := (decided_congr resources_iff).mp
          (Stretch.check_decided env (i.setup m c selected).jobs (Stretch.build selected s).solo)
        refine Ends.andThen (Stretch.asked_check _ _ _) (fun _ hcheck => ?_) fun f hcheck => ?_
        · rw [hcheck] at hchecked
          exact Cleared.ends ⟨hloaded, hsound, hfound, hbuilt, hchecked⟩ env _
        · rw [hcheck] at hchecked
          exact .fault fun c' selected' h => hchecked (hthese c' selected' h).resources
      · rw [hbuild] at hbuilt
        exact .fault fun c' selected' h => hbuilt (hthese c' selected' h).nodes

/-- Every run of the program ends in one of these ways. -/
theorem ends (i : Invocation) (m : Machine) (env : Outside ω)
    (loaded : Except ConfigError Config) (s : Environment.Solo ω) :
    i.Ends m loaded (i.runLoaded m env loaded s).result (i.runLoaded m env loaded s).asked := by
  cases loaded with
  | error e =>
      refine .refused ?_ rfl
      rintro ⟨c, selected, h⟩
      cases h.loaded
  | ok c =>
      simp only [runLoaded, Config.reviewed, Config.review]
      cases hsound : c.problems with
      | nil => exact ends_runWith env s rfl hsound
      | cons p rest =>
          refine .refused ?_ rfl
          rintro ⟨c', selected, h⟩
          obtain rfl := Except.ok.inj h.loaded
          cases hsound.symm.trans h.sound

/-! ## What each ending tells -/

namespace Ends

variable {result : Conclusion} {asked : List Command.Request}

theorem cleared_of_asked (h : i.Ends m loaded result asked) (hasked : asked ≠ []) :
    i.validateOnly = false ∧ ∃ c selected, i.Cleared loaded c selected := by
  cases h with
  | returned hclear hrun => exact ⟨hrun, _, _, hclear⟩
  | _ => exact absurd rfl hasked

theorem of_not_cleared (h : i.Ends m loaded result asked)
    (hnot : ¬ ∃ c selected, i.Cleared loaded c selected) : result.code = 1 ∧ asked = [] := by
  cases h with
  | refused _ hcode => exact ⟨hcode, rfl⟩
  | cancelled => exact ⟨rfl, rfl⟩
  | checked hclear | overcommitted hclear | returned hclear => exact absurd ⟨_, _, hclear⟩ hnot

theorem of_validateOnly (h : i.Ends m loaded result asked) (honly : i.validateOnly = true) :
    asked = [] := by
  cases h with
  | returned _ hrun =>
      rw [honly] at hrun
      cases hrun
  | _ => rfl

/-- Without faults there was a run, and it has succeeded. -/
theorem of_success (h : i.Ends m loaded result asked) (hrun : i.validateOnly = false)
    (hcode : result.code = 0) :
    ∃ c selected, i.Cleared loaded c selected ∧ ∃ scopes caller t summary,
      Fleet.Reachable (i.setup m c selected) (Fleet.start (i.setup m c selected) scopes caller) t ∧
      t.closed = true ∧ t.result = .ok summary ∧ result = .converged summary ∧
      asked = t.history.reverse.filterMap Fleet.Deed.request? := by
  cases h with
  | refused _ hfailed =>
      rw [hfailed] at hcode
      cases hcode
  | cancelled | overcommitted => cases hcode
  | checked _ honly =>
      rw [hrun] at honly
      cases honly
  | @returned c selected hclear _ scopes caller t hreach hclosed =>
      cases hr : t.result with
      | error f =>
          rw [hr] at hcode
          cases hcode
      | ok summary =>
          exact ⟨c, selected, hclear, scopes, caller, t, summary, hreach, hclosed, hr, rfl, rfl⟩

/-- With everything in order the only faults are those of a run. -/
theorem isOfRun (h : i.Ends m loaded result asked) (hclear : i.Cleared loaded c selected) {f : Fault}
    (hf : result = .faulty f) : f.IsOfRun := by
  cases h with
  | refused hnot => exact absurd ⟨c, selected, hclear⟩ hnot
  | cancelled hcut =>
      obtain rfl := Conclusion.faulty.inj hf
      exact Fault.isOfRun_of_isCancellation hcut
  | checked | overcommitted => cases hf
  | @returned _ _ _ _ _ _ t hreach =>
      cases hr : t.result with
      | ok summary =>
          rw [hr] at hf
          cases hf
      | error f' =>
          rw [hr] at hf
          obtain rfl := Conclusion.faulty.inj hf
          exact hreach.isOfRun hr

end Ends

/-- When a run of units that were found in order returns a success, whatever their turns were, all
of them have succeeded. -/
theorem joined_ok {scopes : Scopes} {caller : Nat}
    {t : Fleet.State Command.Request Command.Request.Answer Resource}
    (h : Fleet.Reachable (i.setup m c selected) (Fleet.start (i.setup m c selected) scopes caller) t)
    (hclosed : t.closed = true) {summary : Summary} (hok : t.result = .ok summary) :
    ∀ k < selected.length, ∃ tally, t.stages[k]? = some (.joined (.returned (.ok tally))) := by
  intro k hk
  refine h.joined_ok hclosed hok ?_
  rwa [setup, Machine.fleet, List.length_map]

/-- Whatever the command line, the machine, the world outside, the bytes of the configuration file
and the way in which a configuration is read from them: nothing is asked unless everything was
found in order and more than a check is wanted; if something is not in order the exit code is 1;
success means that all units succeeded; and a run that was begun blames no declaration, in whatever
order its jobs have their turns. -/
theorem gate (i : Invocation) (m : Machine) (env : Outside ω) (loader : Config.Loader)
    (bytes : Except String (List Nat)) (s : Environment.Solo ω) :
    let loaded := loader i.file bytes
    let run := i.runLoaded m env loaded s
    (run.asked ≠ [] → i.validateOnly = false ∧ ∃ c selected, i.Cleared loaded c selected) ∧
    ((¬ ∃ c selected, i.Cleared loaded c selected) → run.result.code = 1 ∧ run.asked = []) ∧
    (i.validateOnly = true → run.asked = []) ∧
    (i.validateOnly = false → run.result.code = 0 →
      ∃ c selected, i.Cleared loaded c selected ∧ ∃ scopes caller t summary,
        Fleet.Reachable (i.setup m c selected) (Fleet.start (i.setup m c selected) scopes caller) t ∧
        t.closed = true ∧ t.result = .ok summary ∧ run.result = .converged summary ∧
        run.asked = t.history.reverse.filterMap Fleet.Deed.request? ∧
        ∀ k < selected.length, ∃ tally, t.stages[k]? = some (.joined (.returned (.ok tally)))) ∧
    ∀ c selected, i.Cleared loaded c selected →
      (∀ f, run.result = .faulty f → f.kind ≠ "validation" ∧ f.kind ≠ "children") ∧
      ∀ scopes caller t,
        Fleet.Reachable (i.setup m c selected) (Fleet.start (i.setup m c selected) scopes caller) t →
        (∀ f, t.result = .error f → f.kind ≠ "validation" ∧ f.kind ≠ "children") ∧
        (t.closed = true → ∀ summary, t.result = .ok summary →
          ∀ k < selected.length, ∃ tally,
            t.stages[k]? = some (.joined (.returned (.ok tally)))) := by
  intro loaded run
  have hends := i.ends m env loaded s
  refine ⟨hends.cleared_of_asked, hends.of_not_cleared, hends.of_validateOnly,
    fun hrun hcode => ?_, fun c selected hclear => ⟨fun f hf => (hends.isOfRun hclear hf).kind,
    fun scopes caller t hreach => ⟨fun f hf => (hreach.isOfRun hf).kind,
    fun hclosed summary hok => joined_ok hreach hclosed hok⟩⟩⟩
  obtain ⟨c, selected, hclear, scopes, caller, t, summary, hreach, hclosed, hok, hresult, hasked⟩ :=
    hends.of_success hrun hcode
  exact ⟨c, selected, hclear, scopes, caller, t, summary, hreach, hclosed, hok, hresult, hasked,
    joined_ok hreach hclosed hok⟩

end Invocation

/-! ## A file of two units -/

namespace Rehearsal

/-- A file of two units with one image each, of which the second is kept in this repository. -/
def twoUnits (repository : String) : Except String (List Nat) :=
  let lines := ["units:",
    "- name: shop", "  images:", "  - name: web", "    repository: shop/web", "    tag: '1'",
    "- name: bank", "  images:", "  - name: app", "    repository: " ++ repository, "    tag: '1'"]
  .ok (("\n".intercalate lines).toList.map Char.toNat)

/-- A run without any options. -/
def plainRun : Invocation := { Invocation.empty with config := some Invocation.defaultConfig }

/-- Every command succeeds. -/
def calmStage : Environment.Solo Backstage := ⟨⟨[], .empty, []⟩, .one, 0, 0, none⟩

/-- Is the conclusion a fault of this kind? -/
def isFaulty (kind : String) : Conclusion → Bool
  | .faulty f => f.kind = kind
  | _ => false

/-- Both units of the file are brought to their state; with an image in the last one that cannot be
kept anywhere nothing is asked. -/
theorem gate_of_two_units :
    let inOrder := Config.ofBytes plainRun.file (twoUnits "bank/app")
    let amiss := Config.ofBytes plainRun.file (twoUnits "Bank/App")
    (∃ c selected, plainRun.Cleared inOrder c selected ∧
      ∃ scopes caller t, Fleet.Reachable (plainRun.setup .silent c selected)
          (Fleet.start (plainRun.setup .silent c selected) scopes caller) t ∧
        ∀ k < selected.length, ∃ tally, t.stages[k]? = some (.joined (.returned (.ok tally)))) ∧
    (plainRun.runLoaded .silent prepared inOrder calmStage).asked ≠ [] ∧
    (¬ ∃ c selected, plainRun.Cleared amiss c selected) ∧
    (plainRun.runLoaded .silent prepared amiss calmStage).result.code = 1 ∧
    (plainRun.runLoaded .silent prepared amiss calmStage).asked = [] := by
  intro inOrder amiss
  obtain ⟨hcode, hasked⟩ :
      (plainRun.runLoaded .silent prepared inOrder calmStage).result.code = 0 ∧
      (plainRun.runLoaded .silent prepared inOrder calmStage).asked ≠ [] := by
    decide +kernel
  have hfaulty : isFaulty "validation"
      (plainRun.runLoaded .silent prepared amiss calmStage).result = true := by
    decide +kernel
  obtain ⟨-, -, -, hsuccess, -⟩ :=
    Invocation.gate plainRun .silent prepared Config.ofBytes (twoUnits "bank/app") calmStage
  obtain ⟨-, hrefused, -, -, hruns⟩ :=
    Invocation.gate plainRun .silent prepared Config.ofBytes (twoUnits "Bank/App") calmStage
  obtain ⟨c, selected, hclear, scopes, caller, t, -, hreach, -, -, -, -, hjoined⟩ :=
    hsuccess rfl hcode
  have hnot : ¬ ∃ c selected, plainRun.Cleared amiss c selected := by
    rintro ⟨c, selected, hclear⟩
    cases hresult : (plainRun.runLoaded .silent prepared amiss calmStage).result with
    | faulty f =>
        rw [hresult] at hfaulty
        exact ((hruns c selected hclear).1 f hresult).1 (of_decide_eq_true hfaulty)
    | _ =>
        rw [hresult] at hfaulty
        cases hfaulty
  exact ⟨⟨c, selected, hclear, scopes, caller, t, hreach, hjoined⟩, hasked, hnot, hrefused hnot⟩

end Rehearsal

end Converge
