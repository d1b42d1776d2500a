import Converge.Proofs.Provision.Assembly

/-!
# What a unit consists of

A configuration without problems is made into a registry, and its units into trees, by going over
the declarations a second time.  Nothing is lost on the way and nothing is made up: the registry
holds each unit once, and the tree of a unit has a node for every entry of the declaration, each of
them where the declaration puts it.
-/

namespace Converge

/-! ## Declarations without problems -/

theorem nodup_of_unitProblems {defaults : Defaults} {seen : List String} {units : List UnitSpec}
    (h : unitProblems defaults seen units = []) :
    (units.map UnitSpec.name).Nodup ∧ ∀ u ∈ units, u.name ∉ seen := by
  obtain ⟨hseen, hunits, -⟩ := unitProblems_eq_nil_iff.mp h
  exact ⟨List.pairwise_map.mpr hunits, hseen⟩

theorem ManifestSpec.kubeContext_of_problems {defaults : Defaults} {unit : String}
    {declared : List String} {m : ManifestSpec} (h : m.problems defaults unit declared = []) :
    ∃ context, m.kubeContext = some context ∨
      m.kubeContext = none ∧ defaults.kubeContext = some context := by
  obtain ⟨-, hcontext⟩ := List.append_eq_nil_iff.mp h
  cases hown : m.kubeContext with
  | some context => exact ⟨context, .inl rfl⟩
  | none =>
      cases hdefault : defaults.kubeContext with
      | some context => exact ⟨context, .inr ⟨rfl, rfl⟩⟩
      | none => simp [hown, hdefault] at hcontext

/-! ## What is to be expected -/

/-- The tree of an image that is declared like this: there is a node for its source, if it has
one, below its own. -/
def ImageSpec.tree (c : Config) (i : ImageSpec) : Tree Resource :=
  .node i.name (some (.image ⟨i.reference c.defaults, i.buildContext c, i.dockerfile, i.buildArgs⟩))
    (i.source.toList.map fun s =>
      .node "source" (some (.checkout ⟨s.url, s.rev, c.resolve s.dir⟩)) [])

/-- The tree of a manifest: below its own node are the images that it lists, in the order of the
list and as often as the list has them.  What it does not say about the cluster is taken from the
defaults. -/
def ManifestSpec.Laid (c : Config) (u : UnitSpec) (m : ManifestSpec) (t : Tree Resource) : Prop :=
  ∃ (images : List ImageSpec) (context : String),
    t = .node m.name (some (.manifest ⟨c.resolve m.path, context, m.space <|> c.defaults.space⟩))
      (images.map (ImageSpec.tree c)) ∧
    images.map ImageSpec.name = m.images ∧ (∀ i ∈ images, i ∈ u.images) ∧
    (m.kubeContext = some context ∨ m.kubeContext = none ∧ c.defaults.kubeContext = some context)

/-- The trees below a unit: first those of images, and then those of manifests. -/
structure UnitSpec.Laid (c : Config) (u : UnitSpec) (images manifests : List (Tree Resource)) :
    Prop where
  /-- Directly below the unit are the images that no manifest lists. -/
  images_eq : images =
    (u.images.filter fun i => ∀ m ∈ u.manifests, i.name ∉ m.images).map (ImageSpec.tree c)
  manifests_laid : List.Forall₂ (ManifestSpec.Laid c u) u.manifests manifests
  /-- No two images have the same name, so a name says which image is meant. -/
  nodup : (u.images.map ImageSpec.name).Nodup
  /-- Every image is somewhere. -/
  complete : ∀ i ∈ u.images, i.tree c ∈ images ∨ ∃ t ∈ manifests, i.tree c ∈ t.children
  /-- No image is both directly below the unit and below a manifest. -/
  apart : ∀ a ∈ images, ∀ t ∈ manifests, ∀ b ∈ t.children, a.name ≠ b.name

/-! ## What is there -/

theorem ImageSpec.tree_node (c : Config) (i : ImageSpec) : (i.node c).design.tree = i.tree c := by
  rw [ImageNode.tree_design, node, tree, checkout]
  cases i.source <;> rfl

namespace UnitSpec

variable {c : Config} {u : UnitSpec}

theorem image?_of_mem (hu : u.Sound) {i : ImageSpec} (hi : i ∈ u.images) :
    u.image? i.name = some i := by
  obtain ⟨j, hj⟩ := exists_image? (List.mem_map_of_mem hi)
  obtain ⟨hmem, hname⟩ := image?_eq_some hj
  rw [hj, List.inj_on_of_nodup_map hu.nodup hmem hi hname]

/-- No name in a list of names of images is passed over. -/
theorem map_name_filterMap {names : List String}
    (h : ∀ name ∈ names, name ∈ u.images.map ImageSpec.name) :
    (names.filterMap u.image?).map ImageSpec.name = names := by
  induction names with
  | nil => rfl
  | cons name rest ih =>
      rw [List.forall_mem_cons] at h
      obtain ⟨i, hi⟩ := exists_image? h.1
      rw [List.filterMap_cons_some hi, List.map_cons, ih h.2, (image?_eq_some hi).2]

/-- The images that no manifest lists are found again by their names. -/
theorem filterMap_filter (hu : u.Sound) :
    ((u.images.map ImageSpec.name).filter (!u.needs ·)).filterMap u.image? =
      u.images.filter fun i => ∀ m ∈ u.manifests, i.name ∉ m.images := by
  have hneeds : ∀ name, (!u.needs name) = decide (∀ m ∈ u.manifests, name ∉ m.images) := by
    intro name
    rw [Bool.eq_iff_iff]
    simp [needs]
  rw [List.filter_map, List.filterMap_map]
  have hfound : ∀ i ∈ u.images.filter ((!u.needs ·) ∘ ImageSpec.name),
      (u.image? ∘ ImageSpec.name) i = some i :=
    fun i hi => image?_of_mem hu (List.mem_of_mem_filter hi)
  rw [List.filterMap_congr hfound, List.filterMap_some]
  exact List.filter_congr fun i _ => hneeds i.name

theorem laid_manifest (hu : u.Sound) {m : ManifestSpec} (hm : m ∈ u.manifests)
    (hcontext : ∃ context, m.kubeContext = some context ∨
      m.kubeContext = none ∧ c.defaults.kubeContext = some context) :
    m.Laid c u (u.manifestNode c m).design.tree := by
  obtain ⟨context, hcontext⟩ := hcontext
  refine ⟨m.images.filterMap u.image?, context, ?_, map_name_filterMap (hu.declared m hm), ?_,
    hcontext⟩
  · have hsame : (m.kubeContext <|> c.defaults.kubeContext).getD "" = context := by
      rcases hcontext with h | ⟨h, h'⟩ <;> simp [*]
    rw [ManifestNode.tree_design, manifestNode, imageNodes, hsame, List.map_map]
    congr 1
    exact List.map_congr_left fun i _ => i.tree_node c
  · intro i hi
    obtain ⟨name, -, hname⟩ := List.mem_filterMap.mp hi
    exact (image?_eq_some hname).1

/-- The trees below the node of a unit are those that its declaration asks for. -/
theorem laid_node (hu : u.Sound)
    (hcontext : ∀ m ∈ u.manifests, ∃ context, m.kubeContext = some context ∨
      m.kubeContext = none ∧ c.defaults.kubeContext = some context) :
    u.Laid c ((u.node c).images.map fun i => i.design.tree)
      ((u.node c).manifests.map fun m => m.design.tree) := by
  have himages : ((u.node c).images.map fun i => i.design.tree) =
      (u.images.filter fun i => ∀ m ∈ u.manifests, i.name ∉ m.images).map (ImageSpec.tree c) := by
    rw [node, imageNodes, filterMap_filter hu, List.map_map]
    exact List.map_congr_left fun i _ => i.tree_node c
  have hmanifests : ((u.node c).manifests.map fun m => m.design.tree) =
      u.manifests.map fun m => (u.manifestNode c m).design.tree := by
    rw [node, List.map_map]
    rfl
  have hlaid : ∀ m ∈ u.manifests, m.Laid c u (u.manifestNode c m).design.tree :=
    fun m hm => laid_manifest hu hm (hcontext m hm)
  rw [himages, hmanifests]
  constructor
  case images_eq => rfl
  case manifests_laid =>
    rw [List.forall₂_map_right_iff, List.forall₂_same]
    exact hlaid
  case nodup => exact hu.nodup
  case complete =>
    intro i hi
    by_cases hfree : ∀ m ∈ u.manifests, i.name ∉ m.images
    · exact .inl (List.mem_map_of_mem (List.mem_filter.mpr ⟨hi, by simpa using hfree⟩))
    · right
      obtain ⟨m, hm, hlisted⟩ : ∃ m ∈ u.manifests, i.name ∈ m.images := by simpa using hfree
      obtain ⟨images, context, htree, hnames, hdeclared, -⟩ := hlaid m hm
      rw [← hnames] at hlisted
      obtain ⟨j, hj, hname⟩ := List.mem_map.mp hlisted
      obtain rfl := List.inj_on_of_nodup_map hu.nodup (hdeclared j hj) hi hname
      refine ⟨_, List.mem_map_of_mem hm, ?_⟩
      rw [htree]
      exact List.mem_map_of_mem hj
  case apart =>
    intro a ha t ht b hb hname
    obtain ⟨i, hi, rfl⟩ := List.mem_map.mp ha
    obtain ⟨m, hm, rfl⟩ := List.mem_map.mp ht
    obtain ⟨images, context, htree, hnames, -⟩ := hlaid m hm
    rw [htree] at hb
    obtain ⟨j, hj, rfl⟩ := List.mem_map.mp hb
    have hfree : i.name ∉ m.images := by
      have := (List.mem_filter.mp hi).2
      exact of_decide_eq_true this m hm
    refine hfree ?_
    rw [← hnames, show i.name = j.name from hname]
    exact List.mem_map_of_mem hj

end UnitSpec

/-- What a configuration without problems comes to: each of its units is in the registry once and
under its name, and the trees below it are those that the unit declares. -/
theorem Config.inventory {c : Config} (hc : c.problems = []) :
    (c.units.map UnitSpec.name).Nodup ∧
    c.registry.entries.Perm (c.units.map fun u => (u.name, .unit (u.node c))) ∧
    ∀ u ∈ c.units, c.registry.select (some u.name) = .ok [(u.name, .unit (u.node c))] ∧
      ∃ images manifests,
        (Declaration.unit (u.node c)).design.tree = .node u.name none (images ++ manifests) ∧
        u.Laid c images manifests := by
  have hnodup := (nodup_of_unitProblems hc).1
  have hpairs : (c.units.map fun u => (u.name, Declaration.unit (u.node c))).map Prod.fst =
      c.units.map UnitSpec.name := by
    rw [List.map_map]
    rfl
  have hperm : c.registry.entries.Perm (c.units.map fun u => (u.name, .unit (u.node c))) :=
    Catalog.perm_ofList (by rwa [hpairs])
  refine ⟨hnodup, hperm, fun u hu => ⟨?_, _, _, UnitNode.tree_design _, ?_⟩⟩
  · have hnames : c.registry.names.Nodup :=
      (hperm.map Prod.fst).nodup_iff.mpr (by rwa [hpairs])
    have hmem : (u.name, Declaration.unit (u.node c)) ∈ c.registry.entries :=
      hperm.mem_iff.mpr (List.mem_map_of_mem hu)
    rw [Catalog.select, Catalog.find?_of_mem hnames hmem]
  · have hproblems := unitProblems_eq_nil hc u hu
    refine UnitSpec.laid_node (UnitSpec.sound_of_problems hproblems) fun m hm => ?_
    have hmanifests := (List.append_eq_nil_iff.mp hproblems).2
    exact m.kubeContext_of_problems (List.flatMap_eq_nil_iff.mp hmanifests m hm)

/-! ## A unit with images of both kinds -/

namespace Rehearsal

/-- A unit of three images, two of which are listed by its manifest, one of them twice. -/
def stall : UnitSpec where
  name := "stall"
  images := [⟨"fruit", "stall/fruit", "1", ⟨"fruit"⟩, none, .empty, none⟩,
    ⟨"till", "stall/till", "2", ⟨"."⟩, none, .empty, some ⟨"git@forge:till", "main", ⟨"src"⟩⟩⟩,
    ⟨"bread", "stall/bread", "1", ⟨"bread"⟩, none, .empty, none⟩]
  manifests := [⟨"counter", ⟨"counter.yaml"⟩, none, some "front", ["bread", "fruit", "bread"]⟩]

def market : Config where
  defaults := ⟨some "registry.local", some "prod", some "back"⟩
  options := ⟨none, .skipSubtree⟩
  units := [stall]
  baseDir := ⟨"deploy"⟩

/-- The image that no manifest lists comes first, and then those of the manifest as it lists
them. -/
theorem inventory_of_market : market.problems = [] ∧ ∃ images manifests,
    (Declaration.unit (stall.node market)).design.tree =
      .node "stall" none (images ++ manifests) ∧
    images.map Tree.name = ["till"] ∧
    manifests.map (fun t => t.children.map Tree.name) = [["bread", "fruit", "bread"]] := by
  have hproblems : market.problems = [] := by decide +kernel
  obtain ⟨-, -, hunits⟩ := Config.inventory hproblems
  obtain ⟨-, images, manifests, htree, hlaid⟩ := hunits stall List.mem_cons_self
  refine ⟨hproblems, images, manifests, htree, ?_, ?_⟩
  · rw [hlaid.images_eq]
    rfl
  · cases hlaid.manifests_laid with
    | cons hcounter hrest =>
        cases hrest
        obtain ⟨listed, context, rfl, hnames, -⟩ := hcounter
        show [(listed.map (ImageSpec.tree market)).map Tree.name] = _
        rw [List.map_map]
        exact congrArg (fun names => [names]) hnames

end Rehearsal

end Converge
