import Converge.Proofs.Gate
import Converge.Proofs.Gate.Success
import Converge.Proofs.Provision.Inventory

/-!
# Empty paths

The nodes of a unit refuse to have an empty path for a manifest, for the context of an image or for
the directory of a checkout.  They get to see it only after it was joined to the directory of the
configuration file, and what is joined to a directory that has a name is never empty: an empty path
is noticed exactly if that directory is the empty path itself.
-/

namespace Converge

/-! ## Joined paths -/

namespace Pathname

variable {p q : Pathname}

theorem not_isAbsolute_of_empty (h : q.text = "") : q.isAbsolute = false := by
  simp [isAbsolute, h]

/-- Only empty paths are joined to an empty one. -/
theorem text_join_eq_empty : (p.join q).text = "" ↔ p.text = "" ∧ q.text = "" := by
  rw [join]
  split
  · rename_i habsolute
    constructor
    · intro hq
      rw [not_isAbsolute_of_empty hq] at habsolute
      cases habsolute
    · rintro ⟨-, hq⟩
      exact hq
  split
  · exact String.append_eq_empty_iff
  · rename_i hopen
    constructor
    · intro h
      simp at h
    · rintro ⟨hp, -⟩
      simp [isOpen, hp] at hopen

end Pathname

theorem Config.text_resolve_eq_empty {c : Config} {p : Pathname} :
    (c.resolve p).text = "" ↔ c.baseDir.text = "" ∧ p.text = "" := by
  rw [resolve]
  split
  · rename_i habsolute
    constructor
    · intro hp
      rw [Pathname.not_isAbsolute_of_empty hp] at habsolute
      cases habsolute
    · exact And.right
  · exact Pathname.text_join_eq_empty

/-! ## What is asked of a declaration -/

/-- The image leaves empty what says where it is built: the directory of its source, or without
a source its context. -/
def ImageSpec.LeavesPathEmpty (i : ImageSpec) : Prop :=
  match i.source with
  | none => i.context.text = ""
  | some s => s.dir.text = ""

/-- Some path of the unit is empty that should not be. -/
def UnitSpec.LeavesPathEmpty (u : UnitSpec) : Prop :=
  (∃ i ∈ u.images, i.LeavesPathEmpty) ∨ ∃ m ∈ u.manifests, m.path.text = ""

/-- All that is asked of an image apart from paths. -/
structure ImageSpec.WellFormed (c : Config) (i : ImageSpec) : Prop where
  name : Text.isBlankText i.name = false
  reference : Reference.check (i.reference c.defaults) = .ok ()
  url : ∀ s, i.source = some s → Text.isBlankText s.url = false
  rev : ∀ s, i.source = some s → s.rev ≠ "" ∧ ∀ x ∈ s.rev.toList, Text.isBlank x = false

/-- All that is asked of a manifest apart from its path. -/
structure ManifestSpec.WellFormed (c : Config) (m : ManifestSpec) : Prop where
  name : Text.isBlankText m.name = false
  context : ∀ context, (m.kubeContext <|> c.defaults.kubeContext) = some context →
    Text.isBlankText context = false

/-- All that is asked of a unit apart from paths. -/
structure UnitSpec.WellFormed (c : Config) (u : UnitSpec) : Prop where
  name : Text.isBlankText u.name = false ∧ '.' ∉ u.name.toList
  images : ∀ i ∈ u.images, i.WellFormed c
  manifests : ∀ m ∈ u.manifests, m.WellFormed c

/-! ## What is found out -/

/-- Nothing is found wrong with the node and its resource. -/
def Declaration.Fine (d : Declaration) : Prop :=
  d.check = .ok () ∧ ∀ r, d.resource = some r → r.validate = .ok ()

theorem verdict_ite {p : Prop} [Decidable p] {f : Failure} {v : Verdict} :
    (if p then .error f else v) = .ok () ↔ ¬p ∧ v = .ok () := by
  split <;> simp [*]

theorem Checkout.fine_iff {src : Checkout} : (Declaration.checkout src).Fine ↔
    src.dir.text ≠ "" ∧ Text.isBlankText src.url = false ∧
      src.rev ≠ "" ∧ ∀ x ∈ src.rev.toList, Text.isBlank x = false := by
  simp [Declaration.Fine, Declaration.check, Declaration.resource, Resource.validate, validate,
    verdict_ite]

theorem ImageNode.fine_iff {n : ImageNode} : (Declaration.image n).Fine ↔
    Text.isBlankText n.name = false ∧ Reference.check n.image.reference = .ok () ∧
      n.image.context.text ≠ "" := by
  have hvalidate : n.image.validate = .ok () ↔
      Reference.check n.image.reference = .ok () ∧ n.image.context.text ≠ "" := by
    rw [Image.validate]
    split
    · rename_i f hcheck
      simp [hcheck]
    · rename_i hcheck
      simp [hcheck]
  simp [Declaration.Fine, Declaration.check, Declaration.resource, Resource.validate, hvalidate]

theorem ManifestNode.fine_iff {n : ManifestNode} : (Declaration.manifest n).Fine ↔
    Text.isBlankText n.name = false ∧ n.manifest.path.text ≠ "" ∧
      Text.isBlankText n.manifest.kubeContext = false := by
  simp [Declaration.Fine, Declaration.check, Declaration.resource, Resource.validate,
    Manifest.validate, verdict_ite]

theorem UnitNode.fine_iff {n : UnitNode} : (Declaration.unit n).Fine ↔
    Text.isBlankText n.name = false ∧ '.' ∉ n.name.toList := by
  simp [Declaration.Fine, Declaration.check, Declaration.resource, verdict_ite]

/-- The parts of a unit are its own node, those of its images and their sources, and those of its
manifests. -/
theorem UnitNode.forall_part {p : Declaration → Prop} {n : UnitNode} :
    (∀ d, (Declaration.unit n).Part d → p d) ↔ p (.unit n) ∧
      (∀ i ∈ n.visited, p (.image i) ∧ ∀ src, i.source = some src → p (.checkout src)) ∧
      ∀ m ∈ n.manifests, p (.manifest m) := by
  have hcheckout : ∀ src, (∀ d, (Declaration.checkout src).Part d → p d) ↔ p (.checkout src) := by
    intro src
    simp [Declaration.forall_part (d := .checkout src), Declaration.children]
  have himage : ∀ i : ImageNode, (∀ d, (Declaration.image i).Part d → p d) ↔
      p (.image i) ∧ ∀ src, i.source = some src → p (.checkout src) := by
    intro i
    simp [Declaration.forall_part (d := .image i), Declaration.children, hcheckout]
  have hmanifest : ∀ m : ManifestNode, (∀ d, (Declaration.manifest m).Part d → p d) ↔
      p (.manifest m) ∧
        ∀ i ∈ m.images, p (.image i) ∧ ∀ src, i.source = some src → p (.checkout src) := by
    intro m
    simp [Declaration.forall_part (d := .manifest m), Declaration.children, himage]
  rw [Declaration.forall_part (d := .unit n), visited]
  simp only [Declaration.children, List.forall_mem_append, List.forall_mem_map, himage, hmanifest]
  refine and_congr_right fun _ => ?_
  constructor
  · rintro ⟨himages, hmanifests⟩
    refine ⟨⟨himages, fun i hi => ?_⟩, fun m hm => (hmanifests m hm).1⟩
    obtain ⟨m, hm, hi⟩ := List.mem_flatMap.mp hi
    exact (hmanifests m hm).2 i hi
  · rintro ⟨⟨himages, hlisted⟩, hmanifests⟩
    refine ⟨himages, fun m hm => ⟨hmanifests m hm, fun i hi => ?_⟩⟩
    exact hlisted i (List.mem_flatMap.mpr ⟨m, hm, hi⟩)

/-! ## When a unit is found in order -/

namespace ImageSpec

variable {c : Config} {i : ImageSpec}

/-- An image is in order if it is well-formed, and if an empty path would be noticed then the one
that matters is not empty. -/
theorem fine_iff : ((Declaration.image (i.node c)).Fine ∧
      ∀ src, (i.node c).source = some src → (Declaration.checkout src).Fine) ↔
    i.WellFormed c ∧ (c.baseDir.text = "" → ¬i.LeavesPathEmpty) := by
  rw [ImageNode.fine_iff]
  cases hsource : i.source with
  | none =>
      have hcontext : (i.buildContext c).text = "" ↔ c.baseDir.text = "" ∧ i.context.text = "" := by
        simp [buildContext, checkout, hsource, Config.text_resolve_eq_empty]
      have hnode : (i.node c).source = none := by simp [node, checkout, hsource]
      rw [LeavesPathEmpty, hsource, hnode]
      constructor
      · rintro ⟨⟨hname, hreference, hpath⟩, -⟩
        refine ⟨⟨hname, hreference, by simp [hsource], by simp [hsource]⟩, fun hbase hempty => ?_⟩
        exact hpath (hcontext.mpr ⟨hbase, hempty⟩)
      · rintro ⟨⟨hname, hreference, -, -⟩, hpath⟩
        refine ⟨⟨hname, hreference, fun hempty => ?_⟩, fun _ hsome => by cases hsome⟩
        exact hpath (hcontext.mp hempty).1 (hcontext.mp hempty).2
  | some s =>
      have hdir : (c.resolve s.dir).text = "" ↔ c.baseDir.text = "" ∧ s.dir.text = "" :=
        Config.text_resolve_eq_empty
      have hcontext : (i.buildContext c).text = "" → (c.resolve s.dir).text = "" := by
        simp only [buildContext, checkout, hsource, Option.map_some]
        exact fun h => (Pathname.text_join_eq_empty.mp h).1
      have hnode : (i.node c).source = some ⟨s.url, s.rev, c.resolve s.dir⟩ := by
        simp [node, checkout, hsource]
      rw [LeavesPathEmpty, hsource, hnode]
      constructor
      · rintro ⟨⟨hname, hreference, -⟩, hcheckout⟩
        obtain ⟨hpath, hurl, hrev⟩ := Checkout.fine_iff.mp (hcheckout _ rfl)
        refine ⟨⟨hname, hreference, ?_, ?_⟩, fun hbase hempty => ?_⟩
        · simpa [hsource] using hurl
        · simpa [hsource] using hrev
        · exact hpath (hdir.mpr ⟨hbase, hempty⟩)
      · rintro ⟨⟨hname, hreference, hurl, hrev⟩, hpath⟩
        have hnonempty : (c.resolve s.dir).text ≠ "" :=
          fun hempty => hpath (hdir.mp hempty).1 (hdir.mp hempty).2
        refine ⟨⟨hname, hreference, fun hempty => hnonempty (hcontext hempty)⟩, ?_⟩
        rintro _ ⟨⟩
        exact Checkout.fine_iff.mpr ⟨hnonempty, hurl s hsource, hrev s hsource⟩

end ImageSpec

theorem ManifestSpec.fine_iff {c : Config} {u : UnitSpec} {m : ManifestSpec} {context : String}
    (hcontext : (m.kubeContext <|> c.defaults.kubeContext) = some context) :
    (Declaration.manifest (u.manifestNode c m)).Fine ↔
      m.WellFormed c ∧ (c.baseDir.text = "" → m.path.text ≠ "") := by
  rw [ManifestNode.fine_iff]
  simp only [UnitSpec.manifestNode, hcontext, Option.getD_some]
  constructor
  · rintro ⟨hname, hpath, hblank⟩
    refine ⟨⟨hname, fun k hk => ?_⟩, fun hbase hempty => ?_⟩
    · obtain rfl := Option.some.inj (hcontext.symm.trans hk)
      exact hblank
    · exact hpath (Config.text_resolve_eq_empty.mpr ⟨hbase, hempty⟩)
  · rintro ⟨⟨hname, hblank⟩, hpath⟩
    refine ⟨hname, fun hempty => ?_, hblank context hcontext⟩
    obtain ⟨hbase, hempty⟩ := Config.text_resolve_eq_empty.mp hempty
    exact hpath hbase hempty

namespace UnitSpec

variable {c : Config} {u : UnitSpec}

/-- Every image of a unit is worked on somewhere. -/
theorem mem_order (hu : u.Sound) {i : ImageSpec} : i ∈ u.order ↔ i ∈ u.images := by
  refine ⟨mem_images_of_mem_order, fun hi => ?_⟩
  refine List.mem_filterMap.mpr ⟨i.name, ?_, image?_of_mem hu hi⟩
  cases hneeds : u.needs i.name with
  | false =>
      refine List.mem_append_left _ (List.mem_filter.mpr ⟨List.mem_map_of_mem hi, ?_⟩)
      simp [hneeds]
  | true =>
      obtain ⟨m, hm, hlisted⟩ := List.any_eq_true.mp hneeds
      exact List.mem_append_right _ (List.mem_flatMap.mpr ⟨m, hm, by simpa using hlisted⟩)

/-- A unit of a configuration without problems is found in order if it is well-formed, and if an
empty path would be noticed then none of its paths is empty that should not be. -/
theorem fine_iff (hu : u.problems c.defaults = []) :
    (∀ d, (Declaration.unit (u.node c)).Part d → d.Fine) ↔
      u.WellFormed c ∧ (c.baseDir.text = "" → ¬u.LeavesPathEmpty) := by
  have hsound := sound_of_problems hu
  have himages : (∀ n ∈ (u.node c).visited, (Declaration.image n).Fine ∧
        ∀ src, n.source = some src → (Declaration.checkout src).Fine) ↔
      ∀ i ∈ u.images, i.WellFormed c ∧ (c.baseDir.text = "" → ¬i.LeavesPathEmpty) := by
    rw [visited_node, List.forall_mem_map]
    refine forall_congr' fun i => ?_
    rw [mem_order hsound, ImageSpec.fine_iff]
  have hmanifests : (∀ n ∈ (u.node c).manifests, (Declaration.manifest n).Fine) ↔
      ∀ m ∈ u.manifests, m.WellFormed c ∧ (c.baseDir.text = "" → m.path.text ≠ "") := by
    rw [node, List.forall_mem_map]
    refine forall₂_congr fun m hm => ?_
    have hproblems := (List.append_eq_nil_iff.mp hu).2
    obtain ⟨context, hcontext⟩ :=
      m.kubeContext_of_problems (List.flatMap_eq_nil_iff.mp hproblems m hm)
    have hcontext' : (m.kubeContext <|> c.defaults.kubeContext) = some context := by
      rcases hcontext with hown | ⟨hnone, hdefault⟩ <;> simp [*]
    exact ManifestSpec.fine_iff hcontext'
  rw [UnitNode.forall_part, UnitNode.fine_iff, himages, hmanifests, LeavesPathEmpty]
  constructor
  · rintro ⟨hname, hi, hm⟩
    refine ⟨⟨hname, fun i h => (hi i h).1, fun m h => (hm m h).1⟩, ?_⟩
    rintro hbase (⟨i, h, hempty⟩ | ⟨m, h, hempty⟩)
    · exact (hi i h).2 hbase hempty
    · exact (hm m h).2 hbase hempty
  · rintro ⟨⟨hname, hi, hm⟩, hpaths⟩
    refine ⟨hname, fun i h => ⟨hi i h, ?_⟩, fun m h => ⟨hm m h, ?_⟩⟩
    · exact fun hbase hempty => hpaths hbase (.inl ⟨i, h, hempty⟩)
    · exact fun hbase hempty => hpaths hbase (.inr ⟨m, h, hempty⟩)

end UnitSpec

/-! ## The whole selection -/

variable {ω : Type} {c : Config} {choice : Option String} {selected : List (String × Declaration)}
  {s : Environment.Solo ω}

/-- Units are built and checked with success exactly if nothing is found wrong with any part of
them. -/
theorem Stretch.passes_iff (env : Outside ω) (hs : s.isCancelled = false) :
    (∃ jobs, (build selected s).result = .ok jobs ∧
      (check env jobs (build selected s).solo).result = .ok ()) ↔
      ∀ x ∈ selected, ∀ d, x.2.Part d → d.Fine := by
  have hjobs : ∀ jobs, (build selected s).result = .ok jobs →
      jobs = selected.map fun x => ⟨x.1, x.2.design.tree⟩ := by
    intro jobs hbuild
    rw [Job.eq_of_run_buildAll hbuild, List.map_map]
    rfl
  constructor
  · rintro ⟨jobs, hbuild, hcheck⟩ x hx d hd
    have hnodes := Invocation.passes_iff.mp ((build_ok_iff hs).mp ⟨jobs, hbuild⟩) x hx d hd
    rw [check_ok_iff, hjobs jobs hbuild] at hcheck
    exact ⟨hnodes, Invocation.resources_iff.mp hcheck x hx d hd⟩
  · intro hfine
    have hnodes := Invocation.passes_iff.mpr fun x hx d hd => (hfine x hx d hd).1
    obtain ⟨jobs, hbuild⟩ := (build_ok_iff hs).mpr hnodes
    refine ⟨jobs, hbuild, ?_⟩
    rw [check_ok_iff, hjobs jobs hbuild]
    exact Invocation.resources_iff.mpr fun x hx d hd => (hfine x hx d hd).2

/-- What was not built and checked with success is not run. -/
theorem Invocation.runWith_of_refused (i : Invocation) (m : Machine) (env : Outside ω)
    (hselect : c.registry.select i.unit = .ok selected)
    (h : ¬∃ jobs, (Stretch.build selected s).result = .ok jobs ∧
      (Stretch.check env jobs (Stretch.build selected s).solo).result = .ok ()) :
    (i.runWith m env c s).result.code = 1 ∧ (i.runWith m env c s).asked = [] := by
  simp only [runWith, hselect, Stretch.andThen]
  cases hbuild : (Stretch.build selected s).result with
  | error f => exact ⟨rfl, rfl⟩
  | ok jobs =>
      have hasked := Stretch.asked_check env jobs (Stretch.build selected s).solo
      cases hcheck : (Stretch.check env jobs (Stretch.build selected s).solo).result with
      | error f =>
          simp only [Stretch.after, hcheck, hasked, List.append_nil]
          exact ⟨rfl, rfl⟩
      | ok a => exact absurd ⟨jobs, hbuild, hcheck⟩ h

/-- Units of a configuration without problems are built and checked with success exactly if they
are well-formed and, should the directory of the configuration file be the empty path, leave no
path empty that should not be.  Otherwise the program fails, and nothing is asked. -/
theorem Config.empty_path_noticed_iff (hc : c.problems = [])
    (hselect : c.registry.select choice = .ok selected) (m : Machine) (env : Outside ω)
    (hs : s.isCancelled = false) :
    ((∃ jobs, (Stretch.build selected s).result = .ok jobs ∧
        (Stretch.check env jobs (Stretch.build selected s).solo).result = .ok ()) ↔
      ∀ u ∈ c.units, (u.name, .unit (u.node c)) ∈ selected →
        u.WellFormed c ∧ (c.baseDir.text = "" → ¬u.LeavesPathEmpty)) ∧
    ((¬∀ u ∈ c.units, (u.name, .unit (u.node c)) ∈ selected →
        u.WellFormed c ∧ (c.baseDir.text = "" → ¬u.LeavesPathEmpty)) →
      ∀ i : Invocation, i.unit = choice →
        (i.runWith m env c s).result.code = 1 ∧ (i.runWith m env c s).asked = []) := by
  have hiff : (∃ jobs, (Stretch.build selected s).result = .ok jobs ∧
        (Stretch.check env jobs (Stretch.build selected s).solo).result = .ok ()) ↔
      ∀ u ∈ c.units, (u.name, .unit (u.node c)) ∈ selected →
        u.WellFormed c ∧ (c.baseDir.text = "" → ¬u.LeavesPathEmpty) := by
    rw [Stretch.passes_iff env hs]
    constructor
    · intro hfine u hu hmem
      exact (UnitSpec.fine_iff (unitProblems_eq_nil hc u hu)).mp (hfine _ hmem)
    · intro hunits x hx
      obtain ⟨u, hu, rfl⟩ := Config.unit_of_mem_registry (Catalog.mem_of_mem_select hselect hx)
      exact (UnitSpec.fine_iff (unitProblems_eq_nil hc u hu)).mpr (hunits u hu hx)
  refine ⟨hiff, fun hnot i hi => ?_⟩
  subst hi
  exact i.runWith_of_refused m env hselect fun hpasses => hnot (hiff.mp hpasses)

/-! ## A manifest without a path -/

namespace Rehearsal

/-- A unit with a manifest whose path is empty, in a configuration file in directory `dir`. -/
def blankShop (dir : String) : Config where
  defaults := ⟨none, some "prod", none⟩
  options := ⟨none, .skipSubtree⟩
  units := [{ name := "shop", images := [], manifests := [⟨"app", ⟨""⟩, none, none, []⟩] }]
  baseDir := ⟨dir⟩

theorem blankShop_leavesPathEmpty (dir : String) :
    ∀ u ∈ (blankShop dir).units, u.LeavesPathEmpty := by
  rintro u hu
  obtain rfl := List.mem_singleton.mp hu
  exact .inr ⟨_, List.mem_cons_self, rfl⟩

/-- The empty path is noticed if the file is given by its name alone. -/
theorem empty_path_noticed_beside_file :
    (blankShop "").problems = [] ∧
    (∀ u ∈ (blankShop "").units, u.LeavesPathEmpty) ∧
    (plainRun.runWith .silent prepared (blankShop "") calmStage).result.code = 1 ∧
    (plainRun.runWith .silent prepared (blankShop "") calmStage).asked = [] := by
  have hproblems : (blankShop "").problems = [] := by decide +kernel
  have hselect : (blankShop "").registry.select plainRun.unit =
      .ok (blankShop "").registry.entries := rfl
  obtain ⟨-, hrefused⟩ :=
    Config.empty_path_noticed_iff hproblems hselect .silent prepared (s := calmStage) rfl
  refine ⟨hproblems, blankShop_leavesPathEmpty "", hrefused (fun hunits => ?_) plainRun rfl⟩
  obtain ⟨-, hpaths⟩ := hunits _ List.mem_cons_self List.mem_cons_self
  exact hpaths rfl (blankShop_leavesPathEmpty "" _ List.mem_cons_self)

/-- It is not noticed if the file is given as one in a directory: the unit is built and checked
with success, and the directory itself is brought to the cluster. -/
theorem empty_path_not_noticed_in_directory :
    (blankShop "deploy").problems = [] ∧
    (∀ u ∈ (blankShop "deploy").units, u.LeavesPathEmpty) ∧
    (∃ jobs, (Stretch.build (blankShop "deploy").registry.entries calmStage).result = .ok jobs ∧
      (Stretch.check prepared jobs
        (Stretch.build (blankShop "deploy").registry.entries calmStage).solo).result = .ok ()) ∧
    (plainRun.runWith .silent prepared (blankShop "deploy") calmStage).result.code = 0 ∧
    (plainRun.runWith .silent prepared (blankShop "deploy") calmStage).asked =
      [.run ⟨"kubectl", ["--context", "prod", "apply", "-f", "deploy/"], none⟩] := by
  have hproblems : (blankShop "deploy").problems = [] := by decide +kernel
  have hrun : (plainRun.runWith .silent prepared (blankShop "deploy") calmStage).result.code = 0 ∧
      (plainRun.runWith .silent prepared (blankShop "deploy") calmStage).asked =
        [.run ⟨"kubectl", ["--context", "prod", "apply", "-f", "deploy/"], none⟩] := by
    decide +kernel
  exact ⟨hproblems, blankShop_leavesPathEmpty "deploy", ⟨_, rfl, rfl⟩, hrun⟩

end Rehearsal

end Converge
