import Converge.Process
import Converge.Proofs.Building
import Converge.Proofs.Building.Selection
import Converge.Proofs.Dispatch.Limits
import Converge.Proofs.Provision.Inventory

/-!
# Units do not meddle with each other

What becomes of a unit depends on its own declaration, on the defaults and on the directory that
paths start from.  Which other units the configuration has, in what order, and how the units are to
be run, can be told neither from its tree nor from what a run of the unit alone does.
-/

namespace Converge

open Course (Step)

variable {ω α : Type}

/-! ## The nodes of a unit -/

section

variable {c c' : Config}

theorem Config.resolve_congr (hbase : c.baseDir = c'.baseDir) (p : Pathname) :
    c.resolve p = c'.resolve p := by
  rw [resolve, resolve, hbase]

theorem ImageSpec.node_congr (hdefaults : c.defaults = c'.defaults)
    (hbase : c.baseDir = c'.baseDir) (i : ImageSpec) : i.node c = i.node c' := by
  have hcheckout : i.checkout c = i.checkout c' := by
    rw [checkout, checkout]
    simp only [Config.resolve_congr hbase]
  have hcontext : i.buildContext c = i.buildContext c' := by
    rw [buildContext, buildContext, hcheckout, Config.resolve_congr hbase]
  rw [node, node, hdefaults, hcheckout, hcontext]

/-- The node of a unit is made from its declaration, the defaults and the base directory. -/
theorem UnitSpec.node_congr (hdefaults : c.defaults = c'.defaults)
    (hbase : c.baseDir = c'.baseDir) (u : UnitSpec) : u.node c = u.node c' := by
  have himages : ∀ names, u.imageNodes c names = u.imageNodes c' names := fun names =>
    List.map_congr_left fun i _ => i.node_congr hdefaults hbase
  have hmanifest : u.manifestNode c = u.manifestNode c' := by
    funext m
    rw [manifestNode, manifestNode, hdefaults, Config.resolve_congr hbase, himages]
  rw [node, node, himages, hmanifest]

end

/-! ## The registry -/

namespace Config

variable {c c' : Config}

theorem ordered_registry (c : Config) : c.registry.Ordered := Catalog.ordered_ofList _

theorem mem_names_registry_iff {name : String} :
    name ∈ c.registry.names ↔ ∃ u ∈ c.units, u.name = name := by
  rw [registry, Catalog.mem_names_ofList_iff, List.map_map]
  exact List.mem_map

/-- The entries are the units, each under its name. -/
theorem mem_entries_registry_iff (hc : c.problems = []) {name : String} {d : Declaration} :
    (name, d) ∈ c.registry.entries ↔ ∃ u ∈ c.units, (u.name, .unit (u.node c)) = (name, d) := by
  have hpairs : (c.units.map fun u => (u.name, Declaration.unit (u.node c))).map Prod.fst =
      c.units.map UnitSpec.name := by
    rw [List.map_map]
    rfl
  have hperm : c.registry.entries.Perm (c.units.map fun u => (u.name, .unit (u.node c))) :=
    Catalog.perm_ofList (by rw [hpairs]; exact (nodup_of_unitProblems hc).1)
  rw [hperm.mem_iff, List.mem_map]

theorem find?_registry (hc : c.problems = []) {u : UnitSpec} (hu : u ∈ c.units) :
    c.registry.find? u.name = some (.unit (u.node c)) :=
  (ordered_registry c).mem_entries.mp ((mem_entries_registry_iff hc).mpr ⟨u, hu, rfl⟩)

/-- How the names are listed depends on nothing but which names are declared. -/
theorem names_registry_congr
    (h : ∀ name, (∃ u ∈ c.units, u.name = name) ↔ ∃ u ∈ c'.units, u.name = name) :
    c.registry.names = c'.registry.names := by
  have hordered : ∀ c : Config, c.registry.names.Pairwise (· < ·) := fun c =>
    List.pairwise_map.mpr (ordered_registry c)
  have hperm : c.registry.names.Perm c'.registry.names := by
    refine (List.perm_ext_iff_of_nodup ((hordered c).imp ne_of_lt)
      ((hordered c').imp ne_of_lt)).mpr fun name => ?_
    rw [mem_names_registry_iff, mem_names_registry_iff, h name]
  exact hperm.eq_of_pairwise (fun _ _ _ _ hlt hgt => absurd hlt hgt.asymm) (hordered c)
    (hordered c')

end Config

/-! ## Runs of one unit -/

/-- Stretches that come to the same, ask the same of the world outside and leave it alike. -/
structure Stretch.Agrees (first second : Stretch ω α) : Prop where
  result : first.result = second.result
  asked : first.asked = second.asked
  solo : first.solo = second.solo

namespace Stretch.Agrees

theorem refl (first : Stretch ω α) : first.Agrees first := ⟨rfl, rfl, rfl⟩

theorem andThen {first second : Stretch ω (Except Fault α)}
    {next next' : α → Environment.Solo ω → Stretch ω Conclusion} (h : first.Agrees second)
    (hnext : ∀ a s, first.result = .ok a → (next a s).Agrees (next' a s)) :
    (first.andThen next).Agrees (second.andThen next') := by
  obtain ⟨result, events, asked, solo⟩ := first
  obtain ⟨result', events', asked', solo'⟩ := second
  obtain ⟨hresult, hasked, hsolo⟩ := h
  dsimp only at hresult hasked hsolo
  subst hresult hasked hsolo
  cases result with
  | error f => exact ⟨rfl, rfl, rfl⟩
  | ok a =>
      obtain ⟨hresult, hasked, hsolo⟩ := hnext a solo rfl
      exact ⟨hresult, congrArg (asked ++ ·) hasked, hsolo⟩

end Stretch.Agrees

/-- A unit of the registry, built and then converged with nothing beside it. -/
def Registry.solo (r : Registry) (name : String) (policy : Policy) (env : Outside ω)
    (s : Environment.Solo ω) : Stretch ω (Except Fault Tally) :=
  match r.find? name with
  | none => ⟨.error (.unknownUnit name), [], [], s⟩
  | some d =>
      match d.design.build.run verdicts.alone s with
      | (.error f, steps, s) => ⟨.error f, steps.filterMap Step.event?, [], s⟩
      | (.ok t, steps, s) =>
          let (result, further, s) := (t.converge Resource.provider policy).run env.alone s
          ⟨result, steps.filterMap Step.event? ++ further.filterMap Step.event?,
            further.filterMap Step.request?, s⟩

/-- A run of a single unit comes to the same under all limits that can be kept count of. -/
theorem Invocation.runWith_agrees {m : Machine} {c c' : Config} {i i' : Invocation}
    {selected : List (String × Declaration)} (hone : selected.length ≤ 1)
    (hselect : c.registry.select i.unit = .ok selected)
    (hselect' : c'.registry.select i'.unit = .ok selected)
    (hvalidate : i.validateOnly = i'.validateOnly) (hpolicy : i.policyFor c = i'.policyFor c')
    (hlimit : i.limitFor m c ≤ Fleet.maxPermits) (hlimit' : i'.limitFor m c' ≤ Fleet.maxPermits)
    (env : Outside ω) (s : Environment.Solo ω) :
    (i.runWith m env c s).Agrees (i'.runWith m env c' s) := by
  rw [runWith, runWith, hselect, hselect']
  refine Stretch.Agrees.andThen (.refl _) fun jobs s hjobs => ?_
  refine Stretch.Agrees.andThen (.refl _) fun _ s _ => ?_
  rw [hvalidate, hpolicy]
  split
  · exact .refl _
  · have hlength : jobs.length ≤ 1 := by
      rw [Job.eq_of_run_buildAll hjobs, List.length_map, List.length_map]
      exact hone
    obtain ⟨hresult, hasked, hsolo, -⟩ :=
      Stretch.converge_limit env (i'.policyFor c') hlimit hlimit' hlength s
    exact ⟨hresult.symm, hasked.symm, hsolo.symm⟩

/-- What two configurations without problems have in common if they agree on the defaults and on
the base directory, whatever else they say:

* a unit that both declare is the same entry in both registries, so that the same tree is built of
  it; converged with nothing beside it, under one policy and in one environment, it does and comes
  to the same;
* so does the whole program if it is asked for this unit only, under any two limits that can be kept
  count of;
* the names in the registry, and those of a selection of everything, are the declared ones, each
  once and in the order of their bytes, and so the same if the same names are declared;
* the registries are the same if the same units are declared, in whatever order. -/
theorem Config.isolation {c c' : Config} (hc : c.problems = []) (hc' : c'.problems = [])
    (hdefaults : c.defaults = c'.defaults) (hbase : c.baseDir = c'.baseDir) :
    (∀ u ∈ c.units, u ∈ c'.units →
      c.registry.select (some u.name) = .ok [(u.name, .unit (u.node c))] ∧
      c'.registry.select (some u.name) = .ok [(u.name, .unit (u.node c))] ∧
      (∀ (ω : Type) (env : Outside ω) (policy : Policy) (s : Environment.Solo ω),
        c.registry.solo u.name policy env s = c'.registry.solo u.name policy env s) ∧
      ∀ (m : Machine) (ω : Type) (env : Outside ω) (s : Environment.Solo ω) (i i' : Invocation),
        i.unit = some u.name → i'.unit = some u.name → i.validateOnly = i'.validateOnly →
        i.policyFor c = i'.policyFor c' → i.limitFor m c ≤ Fleet.maxPermits →
        i'.limitFor m c' ≤ Fleet.maxPermits → (i.runWith m env c s).Agrees (i'.runWith m env c' s)) ∧
    (c.registry.names.Pairwise fun m n => Text.bytes m < Text.bytes n) ∧
    (∀ name, name ∈ c.registry.names ↔ ∃ u ∈ c.units, u.name = name) ∧
    (∃ selected, c.registry.select none = .ok selected ∧
      selected.map Prod.fst = c.registry.names) ∧
    ((∀ name, (∃ u ∈ c.units, u.name = name) ↔ ∃ u ∈ c'.units, u.name = name) →
      c.registry.names = c'.registry.names ∧
      (c.registry.select none).map (List.map Prod.fst) =
        (c'.registry.select none).map (List.map Prod.fst)) ∧
    ((∀ u, u ∈ c.units ↔ u ∈ c'.units) → c.registry = c'.registry) := by
  have hfind : ∀ u ∈ c.units, u ∈ c'.units →
      c.registry.find? u.name = some (.unit (u.node c)) ∧
        c'.registry.find? u.name = some (.unit (u.node c)) := by
    intro u hu hu'
    refine ⟨find?_registry hc hu, ?_⟩
    rw [u.node_congr hdefaults hbase]
    exact find?_registry hc' hu'
  refine ⟨fun u hu hu' => ?units, (ordered_registry c).pairwise_bytes,
    fun _ => mem_names_registry_iff, ⟨_, rfl, rfl⟩, fun hnames => ?names, fun hunits => ?registry⟩
  case units =>
    obtain ⟨hfound, hfound'⟩ := hfind u hu hu'
    have hselect : c.registry.select (some u.name) = .ok [(u.name, .unit (u.node c))] := by
      rw [Catalog.select, hfound]
    have hselect' : c'.registry.select (some u.name) = .ok [(u.name, .unit (u.node c))] := by
      rw [Catalog.select, hfound']
    refine ⟨hselect, hselect', fun ω env policy s => ?_, fun m ω env s i i' hi hi' => ?_⟩
    · rw [Registry.solo, Registry.solo, hfound, hfound']
    · rw [← hi] at hselect
      rw [← hi'] at hselect'
      exact fun hvalidate hpolicy hlimit hlimit' => Invocation.runWith_agrees
        (by rw [List.length_singleton]) hselect hselect' hvalidate hpolicy hlimit hlimit' env s
  case names =>
    have hsame := names_registry_congr hnames
    exact ⟨hsame, congrArg Except.ok hsame⟩
  case registry =>
    refine (ordered_registry c).ext (ordered_registry c') fun name => Option.ext fun d => ?_
    rw [← (ordered_registry c).mem_entries, ← (ordered_registry c').mem_entries]
    refine (mem_entries_registry_iff hc).trans (.trans ?_ (mem_entries_registry_iff hc').symm)
    simp only [hunits, UnitSpec.node_congr hdefaults hbase]

/-! ## A unit in two configurations -/

namespace Rehearsal

/-- A unit that has images of the same names as the stall, and goes before it. -/
def cart : UnitSpec where
  name := "cart"
  images := [⟨"till", "cart/till", "7", ⟨"cart"⟩, none, .empty, none⟩,
    ⟨"bread", "cart/bread", "7", ⟨"cart"⟩, some ⟨"Cartfile"⟩, .empty, none⟩]
  manifests := [⟨"counter", ⟨"cart.yaml"⟩, some "other", none, ["bread"]⟩]

/-- The market on another day, when it is not only the stall that is open. -/
def fair : Config where
  defaults := ⟨some "registry.local", some "prod", some "back"⟩
  options := ⟨some 9, .selfOnly⟩
  units := [cart, stall]
  baseDir := ⟨"deploy"⟩

/-- The stall does not care about the cart. -/
theorem isolation_of_stall : market.problems = [] ∧ fair.problems = [] ∧
    fair.registry.names = ["cart", "stall"] ∧
    fair.registry.select (some "stall") = market.registry.select (some "stall") ∧
    ∀ (sys : System Files) (s : Environment.Solo Files),
      fair.registry.solo "stall" .skipSubtree (.ofSystem sys) s =
        market.registry.solo "stall" .skipSubtree (.ofSystem sys) s := by
  have hmarket : market.problems = [] := by decide +kernel
  have hfair : fair.problems = [] := by decide +kernel
  have hnames : fair.registry.names = ["cart", "stall"] := by decide +kernel
  obtain ⟨hunits, -⟩ := Config.isolation hfair hmarket rfl rfl
  obtain ⟨hselect, hselect', hsolo, -⟩ :=
    hunits stall (List.mem_cons_of_mem _ List.mem_cons_self) List.mem_cons_self
  exact ⟨hmarket, hfair, hnames, hselect.trans hselect'.symm,
    fun sys => hsolo Files (.ofSystem sys) .skipSubtree⟩

end Rehearsal

end Converge
