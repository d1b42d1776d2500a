import Converge.Config.Load

/-!
# When a configuration is accepted

The problems of a configuration are found by a pass that keeps in mind the names it has seen.  Here
they are listed from the declarations themselves, each of which is held against those before it, and
shown to be the same, as often and in the same order.  There are none of them exactly if the
declarations agree with one another, and then, and only then, is a file that can be read accepted.
-/

namespace Converge

variable {α β : Type}

/-! ## What comes before -/

/-- The members of a list, each together with those before it. -/
def withEarlier (xs : List α) : List (List α × α) := xs.zipIdx.map fun (x, k) => (xs.take k, x)

example : withEarlier ["api", "web", "api"] =
    [([], "api"), (["api"], "web"), (["api", "web"], "api")] := rfl

@[simp] theorem withEarlier_nil : withEarlier ([] : List α) = [] := rfl

@[simp] theorem withEarlier_cons (x : α) (xs : List α) :
    withEarlier (x :: xs) = ([], x) :: (withEarlier xs).map fun p => (x :: p.1, p.2) := by
  simp [withEarlier, List.zipIdx_cons, List.zipIdx_succ, Function.comp_def]

theorem withEarlier_concat (xs : List α) (x : α) :
    withEarlier (xs ++ [x]) = withEarlier xs ++ [(xs, x)] := by
  induction xs with
  | nil => rfl
  | cons y xs ih => simp [ih]

/-- Each member is there once. -/
theorem map_snd_withEarlier (xs : List α) : (withEarlier xs).map Prod.snd = xs := by
  rw [withEarlier, List.map_map]
  exact List.zipIdx_map_fst 0 xs

theorem forall_mem_withEarlier {q : α → Prop} {xs : List α} :
    (∀ p ∈ withEarlier xs, q p.2) ↔ ∀ x ∈ xs, q x := by
  conv => rhs; rw [← map_snd_withEarlier xs]
  exact List.forall_mem_map.symm

theorem withEarlier_map (f : α → β) (xs : List α) :
    withEarlier (xs.map f) = (withEarlier xs).map fun p => (p.1.map f, f p.2) := by
  induction xs with
  | nil => rfl
  | cons x xs ih => simp [ih]

theorem pairwise_iff_withEarlier {r : α → α → Prop} {xs : List α} :
    xs.Pairwise r ↔ ∀ p ∈ withEarlier xs, ∀ y ∈ p.1, r y p.2 := by
  induction xs with
  | nil => simp
  | cons x xs ih =>
      rw [List.pairwise_cons, ih, ← forall_mem_withEarlier, withEarlier_cons,
        List.forall_mem_cons, List.forall_mem_map]
      simp [forall_and]

/-! ## The list of problems -/

/-- What there is to say against a manifest of a unit: the images that it lists and the unit does
not declare, as often as it lists them, and that nobody says which cluster it is meant for. -/
def ManifestSpec.objections (defaults : Defaults) (u : UnitSpec) (m : ManifestSpec) :
    List Problem :=
  (m.images.filter fun name => ∀ i ∈ u.images, i.name ≠ name).map (.unknownImage u.name m.name) ++
    if m.kubeContext = none ∧ defaults.kubeContext = none then [.missingKubeContext u.name m.name]
    else []

/-- What there is to say against a unit that comes after those in `earlier`: that one of them has
the same name, the images that have the name of an image before them, and what there is to say
against its manifests. -/
def UnitSpec.objections (defaults : Defaults) (earlier : List UnitSpec) (u : UnitSpec) :
    List Problem :=
  (if ∃ v ∈ earlier, v.name = u.name then [.duplicateUnit u.name] else []) ++
    (((withEarlier u.images).filter fun p => ∃ j ∈ p.1, j.name = p.2.name).map
      fun p => .duplicateImage u.name p.2.name) ++
    u.manifests.flatMap (·.objections defaults u)

/-- What there is to say against a configuration, unit by unit. -/
def Config.objections (c : Config) : List Problem :=
  (withEarlier c.units).flatMap fun p => p.2.objections c.defaults p.1

/-- The declarations of a unit agree with one another. -/
structure UnitSpec.Consistent (defaults : Defaults) (u : UnitSpec) : Prop where
  /-- No two images have the same name. -/
  images : u.images.Pairwise fun i j => i.name ≠ j.name
  /-- A manifest lists images of its own unit, wherever they are declared in it. -/
  declared : ∀ m ∈ u.manifests, ∀ name ∈ m.images, ∃ i ∈ u.images, i.name = name
  /-- It is known which cluster a manifest is meant for. -/
  context : ∀ m ∈ u.manifests,
    m.kubeContext.isSome = true ∨ defaults.kubeContext.isSome = true

/-- So do those of all units, and no two units have the same name. -/
structure Config.Consistent (c : Config) : Prop where
  units : c.units.Pairwise fun u v => u.name ≠ v.name
  inside : ∀ u ∈ c.units, u.Consistent c.defaults

/-! ## Nothing is missed and nothing made up -/

/-- The names that the pass finds repeated are those that occur before, or have been seen. -/
theorem repeats_eq (seen names : List String) :
    repeats seen names =
      ((withEarlier names).filter fun p => p.2 ∈ seen ∨ p.2 ∈ p.1).map Prod.snd := by
  induction names generalizing seen with
  | nil => rfl
  | cons x rest ih =>
      have hrest : ∀ seen', (∀ y, y ∈ seen' ↔ y ∈ seen ∨ y = x) → repeats seen' rest =
          (((withEarlier rest).map fun p => (x :: p.1, p.2)).filter
            fun p => p.2 ∈ seen ∨ p.2 ∈ p.1).map Prod.snd := by
        intro seen' hseen'
        rw [ih, List.filter_map, List.map_map]
        simp [hseen', Function.comp_def, or_assoc]
      rw [repeats, withEarlier_cons, List.filter_cons]
      by_cases hx : x ∈ seen
      · have hsame : ∀ y, y ∈ seen ↔ y ∈ seen ∨ y = x :=
          fun y => ⟨.inl, fun h => h.elim id fun heq => heq ▸ hx⟩
        simp [hx, hrest seen hsame]
      · have hadded : ∀ y, y ∈ x :: seen ↔ y ∈ seen ∨ y = x :=
          fun y => List.mem_cons.trans or_comm
        simp [hx, hrest (x :: seen) hadded]

theorem ManifestSpec.problems_eq (defaults : Defaults) (u : UnitSpec) (m : ManifestSpec) :
    m.problems defaults u.name (u.images.map ImageSpec.name) = m.objections defaults u := by
  have hunknown : ∀ name, (!(u.images.map ImageSpec.name).contains name) =
      decide (∀ i ∈ u.images, i.name ≠ name) := by
    intro name
    rw [Bool.eq_iff_iff]
    simp
  simp only [problems, objections, hunknown, Bool.and_eq_true, Option.isNone_iff_eq_none]

theorem UnitSpec.problems_eq (defaults : Defaults) (u : UnitSpec) :
    u.problems defaults =
      (((withEarlier u.images).filter fun p => ∃ j ∈ p.1, j.name = p.2.name).map
        fun p => .duplicateImage u.name p.2.name) ++
      u.manifests.flatMap (·.objections defaults u) := by
  rw [problems, repeats_eq, withEarlier_map, List.filter_map, List.map_map, List.map_map]
  simp [Function.comp_def, ManifestSpec.problems_eq]

theorem unitProblems_eq (defaults : Defaults) (seen : List String) (units : List UnitSpec) :
    unitProblems defaults seen units = (withEarlier units).flatMap fun p =>
      (if p.2.name ∈ seen ∨ ∃ v ∈ p.1, v.name = p.2.name then [.duplicateUnit p.2.name] else []) ++
        p.2.problems defaults := by
  induction units generalizing seen with
  | nil => rfl
  | cons u rest ih =>
      rw [unitProblems, ih, withEarlier_cons, List.flatMap_cons, List.flatMap_map]
      simp [or_assoc, or_left_comm, eq_comm]

theorem Config.problems_eq_objections (c : Config) : c.problems = c.objections := by
  rw [problems, unitProblems_eq, objections]
  simp [UnitSpec.objections, UnitSpec.problems_eq]

/-! ## When there are none -/

theorem ManifestSpec.objections_eq_nil_iff {defaults : Defaults} {u : UnitSpec}
    {m : ManifestSpec} : m.objections defaults u = [] ↔
      (∀ name ∈ m.images, ∃ i ∈ u.images, i.name = name) ∧
        (m.kubeContext.isSome = true ∨ defaults.kubeContext.isSome = true) := by
  rw [objections, List.append_eq_nil_iff, List.map_eq_nil_iff, List.filter_eq_nil_iff]
  refine and_congr (by simp) ?_
  cases m.kubeContext <;> cases defaults.kubeContext <;> simp

/-- No member has the name of one before it exactly if no two members have the same name. -/
theorem forall_withEarlier_iff {name : α → String} {xs : List α} :
    (∀ p ∈ withEarlier xs, ¬ ∃ y ∈ p.1, name y = name p.2) ↔
      xs.Pairwise fun x y => name x ≠ name y := by
  rw [pairwise_iff_withEarlier]
  simp only [not_exists, not_and, ne_eq]

theorem UnitSpec.problems_eq_nil_iff {defaults : Defaults} {u : UnitSpec} :
    u.problems defaults = [] ↔ u.Consistent defaults := by
  rw [problems_eq, List.append_eq_nil_iff, List.map_eq_nil_iff, List.filter_eq_nil_iff,
    List.flatMap_eq_nil_iff]
  simp only [decide_eq_true_eq, ManifestSpec.objections_eq_nil_iff]
  rw [forall_withEarlier_iff]
  constructor
  · rintro ⟨himages, hmanifests⟩
    exact ⟨himages, fun m hm => (hmanifests m hm).1, fun m hm => (hmanifests m hm).2⟩
  · intro h
    exact ⟨h.images, fun m hm => ⟨h.declared m hm, h.context m hm⟩⟩

theorem unitProblems_eq_nil_iff {defaults : Defaults} {seen : List String}
    {units : List UnitSpec} : unitProblems defaults seen units = [] ↔
      (∀ u ∈ units, u.name ∉ seen) ∧ (units.Pairwise fun u v => u.name ≠ v.name) ∧
        ∀ u ∈ units, u.Consistent defaults := by
  have hone : ∀ p : List UnitSpec × UnitSpec,
      ((if p.2.name ∈ seen ∨ ∃ v ∈ p.1, v.name = p.2.name then [.duplicateUnit p.2.name] else []) ++
        p.2.problems defaults = []) ↔
      p.2.name ∉ seen ∧ (¬ ∃ v ∈ p.1, v.name = p.2.name) ∧ p.2.Consistent defaults := by
    intro p
    rw [List.append_eq_nil_iff, UnitSpec.problems_eq_nil_iff, ← and_assoc, ← not_or]
    simp
  rw [unitProblems_eq, List.flatMap_eq_nil_iff]
  simp only [hone, forall_and]
  refine and_congr (forall_mem_withEarlier (q := fun u : UnitSpec => u.name ∉ seen)) ?_
  exact and_congr forall_withEarlier_iff forall_mem_withEarlier

/-- A configuration has no problems exactly if its declarations agree with one another. -/
theorem Config.problems_eq_nil_iff {c : Config} : c.problems = [] ↔ c.Consistent := by
  rw [problems, unitProblems_eq_nil_iff]
  exact ⟨fun h => ⟨h.2.1, h.2.2⟩, fun h => ⟨by simp, h.units, h.inside⟩⟩

namespace Config

/-! ## What comes of a file -/

theorem review_eq (path : Pathname) (c : Config) :
    review path c = match c.objections with
      | [] => (.ok c, [.configLoaded path.text c.units.length])
      | p :: rest =>
          (.error (.problem p), (p :: rest).map fun q => .configRejected q.message) := by
  have hproblems := problems_eq_objections c
  cases h : c.objections with
  | nil =>
      rw [h] at hproblems
      simp only [review, hproblems]
  | cons p rest =>
      rw [h] at hproblems
      simp only [review, hproblems]

/-- The problems of a configuration are what there is to say against it, entry for entry, and there
are none of them exactly if its declarations agree with one another.

However a configuration is read from the bytes of a file, a file that cannot be read or understood
is refused without a word.  Otherwise every problem of the
configuration is written down, in order, and the first one is what the file is refused for; if there
are none, that it was loaded is all that is written down, and the configuration is returned. -/
theorem scrutiny :
    (∀ c : Config, c.problems = c.objections ∧ (c.problems = [] ↔ c.Consistent)) ∧
    ∀ (loader : Loader) path bytes, reviewed path (loader path bytes) = match loader path bytes with
      | .error e => (.error e, [])
      | .ok c => match c.objections with
        | [] => (.ok c, [.configLoaded path.text c.units.length])
        | p :: rest =>
            (.error (.problem p), (p :: rest).map fun q => .configRejected q.message) := by
  refine ⟨fun c => ⟨problems_eq_objections c, problems_eq_nil_iff⟩, fun loader path bytes => ?_⟩
  cases loader path bytes with
  | error e => rfl
  | ok c => exact review_eq path c

end Config

end Converge
