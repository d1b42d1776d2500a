import Converge.Proofs.Catalog
import Converge.Proofs.Problems
import Converge.Proofs.Provision.Order
import Converge.Registry

/-!
# From a configuration to its units

What a configuration without problems says about images holds of the units that are declared with
it: every image that a manifest lists is there under its name, and is the only one of that name.
-/

namespace Converge

/-- What is selected from a catalog is in it. -/
theorem Catalog.mem_of_mem_select {α : Type} {x : String × α} {c : Catalog α}
    {choice : Option String} {selected : List (String × α)} (h : c.select choice = .ok selected)
    (hx : x ∈ selected) : x ∈ c.entries := by
  cases choice with
  | none =>
      obtain rfl := Except.ok.inj h
      exact hx
  | some name =>
      rw [select] at h
      split at h
      · rename_i a hfind
        obtain rfl := Except.ok.inj h
        obtain rfl := List.mem_singleton.mp hx
        exact mem_of_find? hfind
      · cases h

/-- The registry of a configuration holds its units under their names. -/
theorem Config.unit_of_mem_registry {c : Config} {x : String × Declaration}
    (hx : x ∈ c.registry.entries) : ∃ u ∈ c.units, x = (u.name, .unit (u.node c)) := by
  obtain ⟨u, hu, rfl⟩ := List.mem_map.mp (Catalog.mem_of_mem_ofList hx)
  exact ⟨u, hu, rfl⟩

/-! ## Configurations without problems -/

/-- What a unit is promised: no name is given to two of its images, and its manifests list names
of its images. -/
structure UnitSpec.Sound (u : UnitSpec) : Prop where
  nodup : (u.images.map ImageSpec.name).Nodup
  declared : ∀ m ∈ u.manifests, ∀ name ∈ m.images, name ∈ u.images.map ImageSpec.name

theorem UnitSpec.sound_of_problems {defaults : Defaults} {u : UnitSpec}
    (h : u.problems defaults = []) : u.Sound := by
  have hconsistent := UnitSpec.problems_eq_nil_iff.mp h
  refine ⟨List.pairwise_map.mpr hconsistent.images, fun m hm name hname => ?_⟩
  exact List.mem_map.mpr (hconsistent.declared m hm name hname)

theorem unitProblems_eq_nil {defaults : Defaults} {seen : List String} {units : List UnitSpec}
    (h : unitProblems defaults seen units = []) : ∀ u ∈ units, u.problems defaults = [] :=
  fun u hu => UnitSpec.problems_eq_nil_iff.mpr ((unitProblems_eq_nil_iff.mp h).2.2 u hu)

/-- The units of a configuration without problems. -/
theorem Config.sound_of_problems {c : Config} (h : c.problems = []) {u : UnitSpec}
    (hu : u ∈ c.units) : u.Sound :=
  UnitSpec.sound_of_problems (unitProblems_eq_nil h u hu)

/-! ## The images of a unit -/

namespace UnitSpec

variable {u : UnitSpec} {c : Config} {name : String} {image : ImageSpec}

theorem image?_eq_some (h : u.image? name = some image) : image ∈ u.images ∧ image.name = name := by
  refine ⟨List.mem_reverse.mp (List.mem_of_find?_eq_some h), ?_⟩
  simpa using List.find?_some h

theorem exists_image? (h : name ∈ u.images.map ImageSpec.name) :
    ∃ image, u.image? name = some image := by
  obtain ⟨image, himage, rfl⟩ := List.mem_map.mp h
  rw [← Option.isSome_iff_exists, image?, List.find?_isSome]
  exact ⟨image, List.mem_reverse.mpr himage, by simp⟩

/-- The images of a unit in the order in which they are worked on: those that no manifest lists,
and then those of each manifest. -/
def order (u : UnitSpec) : List ImageSpec :=
  ((u.images.map ImageSpec.name).filter (!u.needs ·) ++
    u.manifests.flatMap ManifestSpec.images).filterMap u.image?

theorem mem_images_of_mem_order (h : image ∈ u.order) : image ∈ u.images := by
  obtain ⟨_, _, himage⟩ := List.mem_filterMap.mp h
  exact (image?_eq_some himage).1

theorem visited_node (u : UnitSpec) (c : Config) :
    (u.node c).visited = u.order.map (·.node c) := by
  simp [UnitNode.visited, node, order, imageNodes, manifestNode, List.flatMap_map,
    List.filterMap_flatMap, List.map_flatMap]

/-- The images below a manifest are those that it lists. -/
theorem mem_manifestNode (h : u.Sound) {m : ManifestSpec} (hm : m ∈ u.manifests)
    (hname : name ∈ m.images) : ∃ image ∈ u.images, image.name = name ∧
      (∀ other ∈ u.images, other.name = name → other = image) ∧
      image.node c ∈ (u.manifestNode c m).images := by
  obtain ⟨image, himage⟩ := exists_image? (h.declared m hm name hname)
  obtain ⟨hmem, rfl⟩ := image?_eq_some himage
  refine ⟨image, hmem, rfl, fun other hother hsame => ?_, ?_⟩
  · exact List.inj_on_of_nodup_map h.nodup hother hmem hsame
  · exact List.mem_map_of_mem (List.mem_filterMap.mpr ⟨_, hname, himage⟩)

end UnitSpec

end Converge
