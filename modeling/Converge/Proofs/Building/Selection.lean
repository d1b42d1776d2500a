import Converge.Proofs.Building.Survey
import Converge.Proofs.Catalog
import Converge.Proofs.Text.Bytes
import Converge.Registry

/-!
# What is selected, and what is built of it

Under each name a catalog has what was put there last.  A selection from it is built entry by
entry: each tree is the one that building gives for the entry by itself, up to the first entry for
which building fails, and nothing of the entries after that is looked at.
-/

namespace Converge

open Course (World Step)

/-! ## Selections -/

namespace Catalog

variable {α : Type} {pairs selected : List (String × α)} {name : String} {a : α}

/-- Of the values that are given under this name, the last is `a`. -/
def GivenLast (pairs : List (String × α)) (name : String) (a : α) : Prop :=
  ∃ before after, pairs = before ++ (name, a) :: after ∧ name ∉ after.map Prod.fst

theorem find?_ofList_eq_some_iff : (ofList pairs).find? name = some a ↔ GivenLast pairs name a := by
  rw [find?_ofList, List.lookup_eq_some_iff]
  constructor
  · rintro ⟨after, before, hpairs, hafter⟩
    refine ⟨before.reverse, after.reverse, ?_, fun hmem => ?_⟩
    · rw [List.reverse_eq_iff] at hpairs
      simp [hpairs]
    · obtain ⟨x, hx, hname⟩ := List.mem_map.mp hmem
      have hne := hafter x (List.mem_reverse.mp hx)
      exact absurd hname.symm (by simpa using hne)
  · rintro ⟨before, after, rfl, hafter⟩
    refine ⟨after.reverse, before.reverse, by simp, fun x hx => ?_⟩
    have hne : name ≠ x.1 := fun hname =>
      hafter (hname ▸ List.mem_map_of_mem (List.mem_reverse.mp hx))
    simpa using hne

/-- There is a last value under every name under which any is given. -/
theorem exists_givenLast_iff : (∃ a, GivenLast pairs name a) ↔ name ∈ pairs.map Prod.fst := by
  constructor
  · rintro ⟨a, before, after, rfl, -⟩
    simp
  · intro hname
    cases hfind : (ofList pairs).find? name with
    | some a => exact ⟨a, find?_ofList_eq_some_iff.mp hfind⟩
    | none =>
        rw [find?_ofList, List.lookup_eq_none_iff] at hfind
        obtain ⟨x, hx, rfl⟩ := List.mem_map.mp hname
        exact absurd (hfind x (List.mem_reverse.mpr hx)) (by simp)

theorem select_some_eq_ok_iff :
    (ofList pairs).select (some name) = .ok selected ↔
      ∃ a, selected = [(name, a)] ∧ GivenLast pairs name a := by
  simp only [← find?_ofList_eq_some_iff]
  rw [select]
  cases (ofList pairs).find? name with
  | none => simp
  | some a => simp [eq_comm]

theorem select_some_of_not_mem (h : name ∉ pairs.map Prod.fst) :
    (ofList pairs).select (some name) = .error (.unknownUnit name) := by
  rw [select]
  cases hfind : (ofList pairs).find? name with
  | none => rfl
  | some a => exact absurd (exists_givenLast_iff.mp ⟨a, find?_ofList_eq_some_iff.mp hfind⟩) h

theorem mem_entries_ofList_iff : (name, a) ∈ (ofList pairs).entries ↔ GivenLast pairs name a :=
  (ordered_ofList pairs).mem_entries.trans find?_ofList_eq_some_iff

example : (ofList [("till", 1), ("bread", 2), ("till", 3)]).entries =
    [("bread", 2), ("till", 3)] := by
  decide +kernel

theorem mem_names_ofList_iff : name ∈ (ofList pairs).names ↔ name ∈ pairs.map Prod.fst := by
  rw [← exists_givenLast_iff, names, List.mem_map]
  simp only [← mem_entries_ofList_iff]
  simp

/-- The names go up from entry to entry, byte for byte. -/
theorem Ordered.pairwise_bytes {c : Catalog α} (h : c.Ordered) :
    c.names.Pairwise fun m n => Text.bytes m < Text.bytes n :=
  List.pairwise_map.mpr (h.imp Text.bytes_lt_iff.mpr)

end Catalog

namespace Blueprint

variable {H R σ : Type} {w : World (Hook H) Hook.Answer σ} {s s' : σ} {b : Blueprint H R}
  {result : Except Fault (Tree R)} {steps : List (Step (Hook H) Hook.Answer R)} {f : Fault}

/-- A tree that is built is the one that is declared, and then every hook has been asked. -/
theorem of_run_build_ok {t : Tree R} (h : b.build.run w s = (.ok t, steps, s')) :
    t = b.tree ∧ Course.questions steps = b.agenda.map Prod.snd := by
  obtain ⟨verdict, asked, steps', _, hrun, hsurveys, hasked, -⟩ := exists_surveys_build w b s
  obtain ⟨hresult, hrest⟩ := Prod.mk.inj (h.symm.trans hrun)
  obtain ⟨rfl, -⟩ := Prod.mk.inj hrest
  cases verdict with
  | error f => cases hresult
  | ok _ =>
      cases hresult
      exact ⟨rfl, hasked.trans hsurveys.asked_eq⟩

/-- A tree that cannot be built leaves it to whoever asked for it to say which unit it is of. -/
theorem of_run_build_error (h : b.build.run w s = (.error f, steps, s')) :
    (∀ name, f.forUnit name = .unit name f) ∧
      Course.questions steps <+: b.agenda.map Prod.snd := by
  obtain ⟨verdict, asked, steps', _, hrun, hsurveys, hasked, -⟩ := exists_surveys_build w b s
  obtain ⟨hresult, hrest⟩ := Prod.mk.inj (h.symm.trans hrun)
  obtain ⟨rfl, -⟩ := Prod.mk.inj hrest
  cases verdict with
  | ok _ => cases hresult
  | error f =>
      cases hresult
      refine ⟨fun name => ?_, hasked ▸ hsurveys.asked_prefix⟩
      obtain ⟨_, _, _, _, _, -, -, hhinders, -⟩ := hsurveys.exists_hinders
      cases hhinders <;> rfl

end Blueprint

namespace Job

variable {H R σ : Type}

/-! ## Building one entry after another -/

section

variable (w : World (Hook H) Hook.Answer σ)

/-- Each entry, built by itself where the one before it has left the world, gives the tree of its
job. -/
inductive Builds : σ → List (String × Blueprint H R) → List (Job R) →
    List (Step (Hook H) Hook.Answer R) → σ → Prop
  | nil {s} : Builds s [] [] [] s
  | cons {s t s' name b tree steps rest jobs further}
      (h : b.build.run w s = (.ok tree, steps, t)) (hrest : Builds t rest jobs further s') :
      Builds s ((name, b) :: rest) (⟨name, tree⟩ :: jobs) (steps ++ further) s'

/-- All entries are built, or those before the first that by itself cannot be. -/
inductive BuildsUpTo (s : σ) (entries : List (String × Blueprint H R)) :
    Except Fault (List (Job R)) → List (Step (Hook H) Hook.Answer R) → σ → Prop
  | all {jobs steps s'} (h : Builds w s entries jobs steps s') :
      BuildsUpTo s entries (.ok jobs) steps s'
  | first {before name b after jobs steps t f last s'}
      (hentries : entries = before ++ (name, b) :: after) (h : Builds w s before jobs steps t)
      (hb : b.build.run w t = (.error f, last, s')) :
      BuildsUpTo s entries (.error (.unit name f)) (steps ++ last) s'

/-- What the building of one entry alone comes to. -/
def alone (s : σ) (entry : String × Blueprint H R) : Except Fault (Job R) :=
  match (entry.2.build.run w s).1 with
  | .ok tree => .ok ⟨entry.1, tree⟩
  | .error f => .error (.unit entry.1 f)

end

variable {w : World (Hook H) Hook.Answer σ} {s t s' : σ} {b : Blueprint H R}
  {entries : List (String × Blueprint H R)} {jobs : List (Job R)}
  {steps : List (Step (Hook H) Hook.Answer R)} {result : Except Fault (List (Job R))} {f : Fault}

theorem run_onBehalf_ok {t : Tree R} (h : b.build.run w s = (.ok t, steps, s')) (name : String) :
    (onBehalf name b.build).run w s = (.ok t, steps, s') := by
  simp [onBehalf, Course.run_bind, h, Course.run]

theorem run_onBehalf_error (h : b.build.run w s = (.error f, steps, s')) (name : String) :
    (onBehalf name b.build).run w s = (.error (.unit name f), steps, s') := by
  simp [onBehalf, Course.run_bind, h, Course.run, (Blueprint.of_run_build_error h).1]

theorem buildsUpTo_buildAll (w : World (Hook H) Hook.Answer σ)
    (entries : List (String × Blueprint H R)) (s : σ) :
    ∃ result steps s', (buildAll entries).run w s = (result, steps, s') ∧
      BuildsUpTo w s entries result steps s' := by
  induction entries generalizing s with
  | nil => exact ⟨_, _, _, rfl, .all .nil⟩
  | cons entry rest ih =>
      obtain ⟨name, b⟩ := entry
      obtain ⟨⟨result, steps, t⟩, hb⟩ : ∃ x, b.build.run w s = x := ⟨_, rfl⟩
      cases result with
      | error f =>
          exact ⟨_, _, _, Course.run_andThen_error (run_onBehalf_error hb name) _,
            .first rfl .nil hb⟩
      | ok tree =>
          obtain ⟨others, further, s', hrun, hbuilds⟩ := ih t
          have hentry := run_onBehalf_ok hb name
          cases hbuilds with
          | all h =>
              refine ⟨_, _, _, Course.run_andThen_ok hentry (Course.run_andThen_ok hrun rfl), ?_⟩
              rw [List.append_nil]
              exact .all (.cons hb h)
          | first hentries h hlast =>
              refine ⟨_, _, _, Course.run_andThen_ok hentry (Course.run_andThen_error hrun _), ?_⟩
              rw [← List.append_assoc]
              exact .first (congrArg _ hentries) (.cons hb h) hlast

namespace Builds

/-- The jobs have the names of the entries, and the trees that are declared. -/
theorem jobs_eq (h : Builds w s entries jobs steps s') :
    jobs = entries.map fun entry => ⟨entry.1, entry.2.tree⟩ := by
  induction h with
  | nil => rfl
  | cons hb _ ih => rw [ih, (Blueprint.of_run_build_ok hb).1, List.map_cons]

/-- The hooks of all entries have been asked. -/
theorem questions_eq (h : Builds w s entries jobs steps s') :
    Course.questions steps = entries.flatMap fun entry => entry.2.agenda.map Prod.snd := by
  induction h with
  | nil => rfl
  | cons hb _ ih =>
      rw [Course.questions, List.filterMap_append, List.flatMap_cons, ← ih,
        ← (Blueprint.of_run_build_ok hb).2]
      rfl

end Builds

/-! ## Hooks that change nothing -/

/-- Whatever is asked, the world stays as it is. -/
def Still (w : World (Hook H) Hook.Answer σ) (s : σ) : Prop := ∀ q, (w.answer q s).2 = s

theorem Still.state_eq {α : Type} (hw : Still w s) (c : Course (Hook H) Hook.Answer R α) :
    (c.run w s).2.2 = s := by
  induction c with
  | done a => rfl
  | ask q next ih => simp only [Course.run, hw q, ih]
  | look next ih => exact ih _
  | leave m next ih => exact ih

/-- Then it makes no difference to an entry which others are built before it. -/
theorem Builds.mapM_alone (h : Builds w s entries jobs steps s') (hw : Still w s) :
    s' = s ∧ entries.mapM (alone w s) = .ok jobs := by
  induction h with
  | nil => exact ⟨rfl, rfl⟩
  | @cons s t s' name b tree steps rest jobs further hb hrest ih =>
      have ht : t = s := by simpa [hb] using hw.state_eq b.build
      subst ht
      obtain ⟨hstate, hjobs⟩ := ih hw
      have hentry : alone w t (name, b) = .ok ⟨name, tree⟩ := by rw [alone, hb]
      rw [List.mapM_cons, hentry, hjobs]
      exact ⟨hstate, rfl⟩

theorem BuildsUpTo.result_eq (h : BuildsUpTo w s entries result steps s') (hw : Still w s) :
    result = entries.mapM (alone w s) := by
  cases h with
  | all h => exact (h.mapM_alone hw).2.symm
  | @first before name b after jobs steps t f last s' hentries h hb =>
      obtain ⟨rfl, hjobs⟩ := h.mapM_alone hw
      have hentry : alone w t (name, b) = .error (.unit name f) := by rw [alone, hb]
      rw [hentries, List.mapM_append, hjobs, List.mapM_cons, hentry]
      rfl

/-! ## From registrations to jobs -/

/-- What can be selected from units that have been registered one after another, and what building
comes to, whatever the hooks do:

* a single name can be selected just if it has been registered, and what is selected is what was
  registered last under it; otherwise the name is said to be unknown;
* without a name everything registered is selected, each name once and in the order of their bytes,
  with what was registered last under it;
* a selection is built entry by entry: either each entry by itself gives the tree of its job, under
  the registered name and in the same order, and all hooks are asked; or the first entry that by
  itself cannot be built ends it with that fault under the registered name, and no hook of a later
  entry is asked;
* where hooks change nothing, that is to say that building goes over the entries alone, each in the
  state from which the whole began. -/
theorem built_of_registered (registrations : List (String × Blueprint H R))
    (w : World (Hook H) Hook.Answer σ) (s : σ) :
    (∀ name, ((∃ selected, (Catalog.ofList registrations).select (some name) = .ok selected) ↔
        name ∈ registrations.map Prod.fst) ∧
      (∀ selected, (Catalog.ofList registrations).select (some name) = .ok selected →
        ∃ b, selected = [(name, b)] ∧ Catalog.GivenLast registrations name b) ∧
      (name ∉ registrations.map Prod.fst →
        (Catalog.ofList registrations).select (some name) = .error (.unknownUnit name))) ∧
    (∃ selected, (Catalog.ofList registrations).select none = .ok selected ∧
      ((selected.map Prod.fst).Pairwise fun m n => Text.bytes m < Text.bytes n) ∧
      (∀ name, name ∈ selected.map Prod.fst ↔ name ∈ registrations.map Prod.fst) ∧
      ∀ name b, (name, b) ∈ selected ↔ Catalog.GivenLast registrations name b) ∧
    ∀ choice selected, (Catalog.ofList registrations).select choice = .ok selected →
      ∃ result steps s', (buildAll selected).run w s = (result, steps, s') ∧
        ((∃ jobs, result = .ok jobs ∧ Builds w s selected jobs steps s' ∧
            jobs = selected.map (fun entry => ⟨entry.1, entry.2.tree⟩) ∧
            Course.questions steps =
              selected.flatMap fun entry => entry.2.agenda.map Prod.snd) ∨
          ∃ before name b after jobs early t f last,
            selected = before ++ (name, b) :: after ∧ Builds w s before jobs early t ∧
            b.build.run w t = (.error f, last, s') ∧ result = .error (.unit name f) ∧
            steps = early ++ last ∧
            Course.questions early =
              before.flatMap (fun entry => entry.2.agenda.map Prod.snd) ∧
            Course.questions last <+: b.agenda.map Prod.snd) ∧
        (Still w s → result = selected.mapM (alone w s)) := by
  refine ⟨fun name => ⟨?single, ?last, Catalog.select_some_of_not_mem⟩, ?whole, ?building⟩
  case single =>
    rw [← Catalog.exists_givenLast_iff]
    simp only [Catalog.select_some_eq_ok_iff]
    exact ⟨fun ⟨_, b, _, hb⟩ => ⟨b, hb⟩, fun ⟨b, hb⟩ => ⟨_, b, rfl, hb⟩⟩
  case last => exact fun selected hselected => Catalog.select_some_eq_ok_iff.mp hselected
  case whole =>
    exact ⟨_, rfl, (Catalog.ordered_ofList registrations).pairwise_bytes,
      fun name => Catalog.mem_names_ofList_iff, fun name b => Catalog.mem_entries_ofList_iff⟩
  case building =>
    intro choice selected _
    obtain ⟨result, steps, s', hrun, hbuilds⟩ := buildsUpTo_buildAll w selected s
    refine ⟨result, steps, s', hrun, ?_, hbuilds.result_eq⟩
    cases hbuilds with
    | all h => exact .inl ⟨_, rfl, h, h.jobs_eq, h.questions_eq⟩
    | first hentries h hb =>
        exact .inr ⟨_, _, _, _, _, _, _, _, _, hentries, h, hb, rfl, rfl, h.questions_eq,
          (Blueprint.of_run_build_error hb).2⟩

end Job

end Converge
