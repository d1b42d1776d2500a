import Converge.Proofs.Fleet.Jobs

/-!
# The names of the units

A run finds the name of a unit by the number of the task that has ended.  Its list of names holds
those of the jobs that have not been joined, each under the number of its own task, and no others;
so the name that is found belongs to the job whose outcome is taken into account.
-/

namespace Converge.Fleet

variable {Q : Type} {A : Q → Type} {R : Type}
variable {u : Setup Q A R} {s t : State Q A R} {m : Move Q A} {i j : Nat}

@[simp] theorem Setup.task_inj : u.task i = u.task j ↔ i = j := u.tasks.injective.eq_iff

theorem Setup.unit_eq {job : Job R} (hjob : u.jobs[i]? = some job) : u.unit i = job.name := by
  rw [unit, hjob]
  rfl

namespace State

/-- Job `i` is one of the run and has not been joined. -/
def IsLive (s : State Q A R) (i : Nat) : Prop := ∃ g, s.stages[i]? = some g ∧ g.isJoined = false

/-- The list of names holds those of the jobs that have not been joined, and no others. -/
def Named (u : Setup Q A R) (s : State Q A R) : Prop :=
  ∀ n name, s.names[n]? = some name ↔ ∃ i, s.IsLive i ∧ u.task i = n ∧ u.unit i = name

/-- A job that has not been joined is known by the name of its unit. -/
theorem Named.nameOf (h : s.Named u) (hi : s.IsLive i) : s.nameOf u i = u.unit i := by
  rw [State.nameOf, (h (u.task i) (u.unit i)).mpr ⟨i, hi, rfl, rfl⟩, Option.getD_some]

/-- So it is under that name that an outcome is taken into account. -/
theorem Named.nameOf_join {o : Outcome} (h : s.Named u) (hi : s.stages[i]? = some (.ended o)) :
    ((s.setStage i (.joined o)).record (.joined i o)).nameOf u i = u.unit i :=
  h.nameOf ⟨_, hi, rfl⟩

end State

/-! ## At the beginning -/

theorem Setup.mem_names_iff {n : Nat} {name : String} :
    (n, name) ∈ u.jobs.mapIdx (fun i job => (u.task i, job.name)) ↔
      ∃ i job, u.jobs[i]? = some job ∧ u.task i = n ∧ job.name = name := by
  simp only [List.mem_mapIdx, Prod.mk.injEq, List.getElem?_eq_some_iff]
  constructor
  · rintro ⟨i, hi, hn, hname⟩
    exact ⟨i, _, ⟨hi, rfl⟩, hn, hname⟩
  · rintro ⟨i, _, ⟨hi, rfl⟩, hn, hname⟩
    exact ⟨i, hi, hn, hname⟩

/-- The names that are entered are found under the numbers of their tasks. -/
theorem Setup.getElem?_names {n : Nat} {name : String} : u.names[n]? = some name ↔
    ∃ i job, u.jobs[i]? = some job ∧ u.task i = n ∧ job.name = name := by
  have hdistinct : (u.jobs.mapIdx fun i job => (u.task i, job.name)).Pairwise
      fun a b => ¬compare a.1 b.1 = .eq := by
    rw [List.pairwise_iff_getElem]
    intro i j hi hj hij heq
    simp only [List.getElem_mapIdx, Nat.compare_eq_eq, Setup.task_inj] at heq
    exact absurd heq (Nat.ne_of_lt hij)
  rw [← Setup.mem_names_iff]
  constructor
  · intro h
    have hmem : n ∈ u.names := Std.TreeMap.mem_iff_isSome_getElem?.mpr (h ▸ rfl)
    rw [Setup.names, Std.TreeMap.mem_ofList, List.contains_iff_mem, List.mem_map] at hmem
    obtain ⟨⟨n', name'⟩, hentry, rfl⟩ := hmem
    have hfound : u.names[n']? = some name' :=
      Std.TreeMap.getElem?_ofList_of_mem (Nat.compare_eq_eq.mpr rfl) hdistinct hentry
    obtain rfl := Option.some.inj (h.symm.trans hfound)
    exact hentry
  · exact Std.TreeMap.getElem?_ofList_of_mem (Nat.compare_eq_eq.mpr rfl) hdistinct

theorem named_start (u : Setup Q A R) (scopes : Scopes) (caller : Nat) :
    (start u scopes caller).Named u := by
  intro n name
  rw [start, Setup.getElem?_names]
  constructor
  · rintro ⟨i, job, hjob, hn, hname⟩
    have hstage : (start u scopes caller).stages[i]? = some .fresh := by
      rw [start, List.getElem?_map, hjob]
      rfl
    exact ⟨i, ⟨.fresh, hstage, rfl⟩, hn, by rw [Setup.unit_eq hjob, hname]⟩
  · rintro ⟨i, ⟨g, hg, -⟩, hn, hname⟩
    obtain ⟨job, hjob, -⟩ := Option.map_eq_some_iff.mp (List.getElem?_map .. ▸ hg)
    exact ⟨i, job, hjob, hn, by rw [← hname, Setup.unit_eq hjob]⟩

/-! ## From one state to the next -/

namespace Moved

/-- Only a job that is joined goes off the list of names. -/
theorem names_eq (h : Moved u s m t) (hm : ∀ i, m ≠ .join i) : t.names = s.names := by
  cases h with
  | join => exact absurd rfl (hm _)
  | finish => split <;> rfl
  | handOn | leave => exact State.names_release ..
  | _ => rfl

theorem names_erase (h : Moved u s (.join i) t) : t.names = s.names.erase (u.task i) := by
  cases h
  exact State.names_account ..

/-- A move that is no join leaves those jobs unjoined that were, and a join takes one out. -/
theorem isLive_iff (h : Moved u s m t) (hs : s.Sound u) :
    t.IsLive j ↔ s.IsLive j ∧ m ≠ .join j := by
  constructor
  · rintro ⟨g, hg, hlive⟩
    constructor
    · obtain ⟨g₀, hg₀, ⟨rfl, -⟩ | ⟨ds, -, hstep⟩⟩ := h.came hs hg
      · exact ⟨g, hg₀, hlive⟩
      · exact ⟨g₀, hg₀, by cases hstep <;> rfl⟩
    · rintro rfl
      cases h with
      | @join _ o hi =>
          rw [State.stages_account] at hg
          obtain rfl := Option.some.inj ((State.stage_setStage_self hi).symm.trans hg)
          cases hlive
  · rintro ⟨⟨g, hg, hlive⟩, hm⟩
    rcases h.kept hs hg with ⟨hstage, -⟩ | ⟨g', ds, hstage, hdeeds, hstep⟩
    · exact ⟨g, hstage, hlive⟩
    · refine ⟨g', hstage, ?_⟩
      have hdue := h.isDue hdeeds
      cases hstep with
      | @join o => exact absurd (hdue (.joined j o) (by simp)).1 hm
      | _ => rfl

/-- Every move keeps the list of names. -/
theorem named (h : Moved u s m t) (hs : s.Sound u) (hn : s.Named u) : t.Named u := by
  intro n name
  simp only [h.isLive_iff hs]
  by_cases hm : ∃ i, m = .join i
  · obtain ⟨i, rfl⟩ := hm
    simp only [h.names_erase, Std.TreeMap.getElem?_erase, Nat.compare_eq_eq]
    split
    · subst n
      simp +contextual [eq_comm]
    · rename_i hne
      rw [hn]
      refine exists_congr fun j => ?_
      constructor
      · rintro ⟨hlive, rfl, hname⟩
        exact ⟨⟨hlive, by rintro ⟨⟩; exact hne rfl⟩, rfl, hname⟩
      · rintro ⟨⟨hlive, -⟩, hn, hname⟩
        exact ⟨hlive, hn, hname⟩
  · have hne : ∀ i, m ≠ .join i := fun i hi => hm ⟨i, hi⟩
    simp only [h.names_eq hne, hn n name, hne, ne_eq, not_false_eq_true, and_true]

end Moved

namespace Reachable

variable {scopes : Scopes} {caller : Nat}

/-- At every time the list of names holds those of the jobs that have not been joined. -/
theorem named (h : Reachable u (Fleet.start u scopes caller) s) : s.Named u := by
  induction h with
  | start => exact named_start u scopes caller
  | move m hs hm ih => exact (moved_of_move? hm).named hs.isSound ih

/-- What is found under a number is the name of the job whose task has it, until that is joined. -/
theorem getElem?_names (h : Reachable u (Fleet.start u scopes caller) s) {n : Nat}
    {name : String} : s.names[n]? = some name ↔ ∃ i job, u.jobs[i]? = some job ∧ u.task i = n ∧
      job.name = name ∧ ∀ o, s.stages[i]? ≠ some (.joined o) := by
  rw [h.named n name]
  constructor
  · rintro ⟨i, ⟨g, hg, hlive⟩, hn, hname⟩
    have hjob := List.getElem?_eq_getElem (h.isSound.length ▸ State.lt_of_stage hg)
    refine ⟨i, _, hjob, hn, by rw [← hname, Setup.unit_eq hjob], fun o ho => ?_⟩
    obtain rfl := Option.some.inj (hg.symm.trans ho)
    cases hlive
  · rintro ⟨i, job, hjob, hn, hname, hnot⟩
    obtain ⟨g, hg⟩ : ∃ g, s.stages[i]? = some g := by
      have hlt := (List.getElem?_eq_some_iff.mp hjob).1
      exact ⟨_, List.getElem?_eq_getElem (h.isSound.length ▸ hlt)⟩
    refine ⟨i, ⟨g, hg, ?_⟩, hn, by rw [Setup.unit_eq hjob, hname]⟩
    cases g with
    | joined o => exact absurd hg (hnot o)
    | _ => rfl

/-- The task that is said to have broken off is that of the job. -/
theorem eq_task_of_crashed (h : Reachable u (Fleet.start u scopes caller) s)
    {g : Stage Q A R} (hi : s.stages[i]? = some g) {task : Nat} {how : String}
    (ho : g.outcome? = some (.crashed task how)) : task = u.task i := by
  refine h.keeps i (fun _ _ g => ∀ task how, g.outcome? = some (.crashed task how) →
    task = u.task i) (fun _ _ h => h) (fun _ _ _ _ _ _ _ hgoes hg => ?_)
    (sound_start u scopes caller) (fun g hg => ?_) hi task how ho
  · cases hgoes with
    | crash => exact fun _ _ ho => by cases ho; rfl
    | leave | join => exact hg
    | _ => exact nofun
  · rw [stage_start hg]
    exact nofun

end Reachable

end Converge.Fleet
