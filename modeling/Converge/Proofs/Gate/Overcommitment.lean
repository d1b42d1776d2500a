import Converge.Proofs.Gate.Success
import Converge.Proofs.Gate
import Converge.Proofs.Settings

/-!
# Settings that no run can have

However many units are to be at work at once, a run wants a permit for each of them, and one at
least.  There are numbers of 64 bits that are more than can be kept count of.  Nothing turns them
down before the run, which comes to grief over them with nothing done.
-/

namespace Converge

variable {ω : Type}

namespace Invocation

variable {i : Invocation} {m : Machine} {bytes : Except String (List Nat)} {c : Config}
  {loaded : Except ConfigError Config} {selected : List (String × Declaration)}
  {s : Environment.Solo ω}

/-- How many units somebody wants to be at work at once, if anybody says. -/
def setting (i : Invocation) (c : Config) : Option Nat := i.jobs <|> c.options.limit

theorem permits_setup (i : Invocation) (m : Machine) (c : Config)
    (selected : List (String × Declaration)) :
    (i.setup m c selected).permits = max ((i.setting c).getD m.limit) 1 := by
  rw [Fleet.Setup.permits, setup, Machine.fleet, limitFor, setting, Config.limit]
  cases i.jobs with
  | some n => rfl
  | none => exact Nat.max_eq_left (Nat.le_max_right _ _)

/-- A run can have its permits unless they are to be more than there can be. -/
theorem isAdmissible_setup : (i.setup m c selected).isAdmissible = true ↔
    (i.setting c).getD m.limit ≤ Fleet.maxPermits := by
  have hone : 1 ≤ Fleet.maxPermits := by decide
  rw [Fleet.Setup.isAdmissible, decide_eq_true_eq, permits_setup, Nat.max_le, and_iff_left hone]

theorem not_isAdmissible_setup : (i.setup m c selected).isAdmissible = false ↔
    Fleet.maxPermits < (i.setting c).getD m.limit := by
  rw [← Bool.not_eq_true, isAdmissible_setup, Nat.not_le]

/-- What a machine says that it can do is a number of 64 bits. -/
theorem limit_lt_wordBound (m : Machine) : m.limit < wordBound := by
  rw [Machine.limit]
  cases hcores : m.cores with
  | none => decide
  | some n => exact of_decide_eq_true (m.isWord_cores n hcores)

/-- The command line and the file give numbers of 64 bits, and a run wants no more permits. -/
theorem permits_lt_wordBound (m : Machine) (selected : List (String × Declaration))
    {surrounding : Option String} {args : List String}
    (hargs : ofArgs surrounding args = .ok i) (hloaded : Config.ofBytes i.file bytes = .ok c) :
    (∀ n ∈ i.setting c, isWord n = true) ∧ (i.setup m c selected).permits < wordBound := by
  have hfits : ∀ n ∈ i.setting c, isWord n = true := by
    intro n hn
    cases hjobs : i.jobs with
    | some k =>
        rw [setting, hjobs] at hn
        exact fits_ofArgs hargs n (hjobs.trans hn)
    | none =>
        rw [setting, hjobs] at hn
        exact Config.fits_ofBytes hloaded n hn
  refine ⟨hfits, ?_⟩
  rw [permits_setup, Nat.max_lt]
  refine ⟨?_, by decide⟩
  cases hsetting : i.setting c with
  | none => exact limit_lt_wordBound m
  | some n => exact of_decide_eq_true (hfits n hsetting)

/-! ## What the program comes to -/

/-- The run of the jobs, for which everything was found in order. -/
def launch (i : Invocation) (m : Machine) (env : Outside ω) (c : Config)
    (selected : List (String × Declaration)) (s : Environment.Solo ω) : Stretch ω Conclusion :=
  Stretch.converge m env (i.policyFor c) (i.limitFor m c) (i.setup m c selected).jobs s

theorem andThen_of_ok {α : Type} {first : Stretch ω (Except Fault α)} {a : α}
    (h : first.result = .ok a) (next : α → Environment.Solo ω → Stretch ω Conclusion) :
    first.andThen next = first.after (next a first.solo) := by
  rw [Stretch.andThen, h]

/-- With everything in order, and in a scope that is not cancelled, the program gets as far as to
the run of the jobs. -/
theorem Cleared.exists_launch (h : i.Cleared loaded c selected) (hrun : i.validateOnly = false)
    (m : Machine) (env : Outside ω) (hs : s.isCancelled = false) :
    ∃ (before : List Event) (s' : Environment.Solo ω),
      (i.runLoaded m env loaded s).result = (i.launch m env c selected s').result ∧
      (i.runLoaded m env loaded s).asked = (i.launch m env c selected s').asked ∧
      (i.runLoaded m env loaded s).events = before ++ (i.launch m env c selected s').events := by
  obtain ⟨jobs, hbuild⟩ := (Stretch.build_ok_iff hs).mpr (passes_iff.mpr h.nodes)
  obtain rfl : jobs = (i.setup m c selected).jobs := by
    rw [Job.eq_of_run_buildAll hbuild, List.map_map]
    rfl
  have hcheck := (Stretch.check_ok_iff (s := (Stretch.build selected s).solo) env
    (i.setup m c selected).jobs).mpr (resources_iff.mpr h.resources)
  have hasked :=
    Stretch.asked_check env (i.setup m c selected).jobs (Stretch.build selected s).solo
  have hrunWith : i.runWith m env c s = (Stretch.build selected s).after
      ((Stretch.check env (i.setup m c selected).jobs (Stretch.build selected s).solo).after
        (i.launch m env c selected (Stretch.check env (i.setup m c selected).jobs
          (Stretch.build selected s).solo).solo)) := by
    simp only [runWith, h.found]
    rw [andThen_of_ok hbuild, andThen_of_ok hcheck, hrun]
    rfl
  have hwhole : i.runLoaded m env loaded s = { i.runWith m env c s with
      events := [.configLoaded i.file.text c.units.length] ++ (i.runWith m env c s).events } := by
    rw [runLoaded, h.loaded]
    simp only [Config.reviewed, Config.review, h.sound]
  rw [hwhole, hrunWith]
  refine ⟨[.configLoaded i.file.text c.units.length] ++ ((Stretch.build selected s).events ++
    (Stretch.check env (i.setup m c selected).jobs (Stretch.build selected s).solo).events), _,
    rfl, ?_, ?_⟩
  · simp only [Stretch.after, hasked, List.nil_append]
    rfl
  · simp only [Stretch.after, List.append_assoc]

/-- A run that cannot have its permits comes to no more than to say how many they are. -/
theorem launch_of_not_isAdmissible {env : Outside ω}
    (h : (i.setup m c selected).isAdmissible = false) : i.launch m env c selected s =
      ⟨.overcommitted, [.unitsDiscovered selected.length (i.setup m c selected).permits], [], s⟩ := by
  have hmany : (m.fleet (i.policyFor c) (i.limitFor m c) (i.setup m c selected).jobs).isAdmissible =
    false := h
  have hlength : (i.setup m c selected).jobs.length = selected.length := List.length_map ..
  rw [launch, Stretch.converge_of_not_isAdmissible hmany, ← hlength]
  rfl

/-- A run that can have its permits is launched with them, and returns. -/
theorem exists_closed_of_launch (h : (i.setup m c selected).isAdmissible = true)
    (env : Outside ω) (s : Environment.Solo ω) : ∃ scopes caller t,
      Fleet.Reachable (i.setup m c selected) (Fleet.start (i.setup m c selected) scopes caller) t ∧
      t.closed = true ∧
      (i.launch m env c selected s).result = .ofRun t.result ∧
      (i.launch m env c selected s).asked = t.history.reverse.filterMap Fleet.Deed.request? := by
  obtain ⟨t, hreach, hclosed, hresult, -, hasked⟩ := Stretch.exists_closed env s h
  exact ⟨s.scopes, s.scope, t, hreach, hclosed, hresult, hasked⟩

/-- A run that was launched breaks off over its permits exactly if it cannot have them. -/
theorem launch_eq_overcommitted_iff (env : Outside ω) :
    (i.launch m env c selected s).result = .overcommitted ↔
      (i.setup m c selected).isAdmissible = false := by
  cases hadmissible : (i.setup m c selected).isAdmissible with
  | false => exact iff_of_true (by rw [launch_of_not_isAdmissible hadmissible]) rfl
  | true =>
      obtain ⟨-, -, t, -, -, hresult, -⟩ := exists_closed_of_launch hadmissible env s
      rw [hresult]
      cases t.result <;> exact iff_of_false nofun nofun

theorem Ends.of_overcommitted {result : Conclusion} {asked : List Command.Request}
    (h : i.Ends m loaded result asked) (hresult : result = .overcommitted) :
    asked = [] ∧ i.validateOnly = false ∧ ∃ c selected, i.Cleared loaded c selected ∧
      Fleet.maxPermits < (i.setting c).getD m.limit := by
  cases h with
  | refused _ hcode =>
      rw [hresult] at hcode
      cases hcode
  | cancelled | checked => cases hresult
  | overcommitted hclear hrun hmany =>
      exact ⟨rfl, hrun, _, _, hclear, not_isAdmissible_setup.mp hmany⟩
  | @returned _ _ _ _ _ _ t => cases hr : t.result <;> rw [hr] at hresult <;> cases hresult

/-- Whatever numbers the command line and the configuration file give, whatever the machine can do,
and unless the scope is cancelled:

* the program breaks off over its permits exactly if everything is in order for a run and the
  number that counts, which is that of the command line if it gives one, or else that of the file,
  or else what the machine can do, is more than the largest number of permits; in that case nothing
  is asked, and the last word in the journal is of the permits that the run was to have;
* the number that counts is one of 64 bits, and the permits that a run is to have are as many, or
  one if it is none;
* a run that can have its permits is launched with them, and returns. -/
theorem overcommitted_iff {surrounding : Option String} {args : List String}
    (hargs : ofArgs surrounding args = .ok i) (m : Machine) (env : Outside ω)
    (bytes : Except String (List Nat)) (hs : s.isCancelled = false) :
    let loaded := Config.ofBytes i.file bytes
    let run := i.run m env bytes s
    (run.result = .overcommitted ↔ i.validateOnly = false ∧ ∃ c selected,
      i.Cleared loaded c selected ∧ Fleet.maxPermits < (i.setting c).getD m.limit) ∧
    (run.result = .overcommitted → run.result.code = 101 ∧ run.asked = []) ∧
    ∀ c selected, i.Cleared loaded c selected →
      (∀ n ∈ i.setting c, isWord n = true) ∧
      (i.setup m c selected).permits = max ((i.setting c).getD m.limit) 1 ∧
      1 ≤ (i.setup m c selected).permits ∧ (i.setup m c selected).permits < wordBound ∧
      (run.result = .overcommitted → run.events.getLast? =
        some (.unitsDiscovered selected.length (i.setup m c selected).permits)) ∧
      (i.validateOnly = false → (i.setting c).getD m.limit ≤ Fleet.maxPermits →
        (i.setup m c selected).permits ≤ Fleet.maxPermits ∧
        ∃ scopes caller t,
          Fleet.Reachable (i.setup m c selected)
            (Fleet.start (i.setup m c selected) scopes caller) t ∧
          t.closed = true ∧ run.result = .ofRun t.result ∧
          run.asked = t.history.reverse.filterMap Fleet.Deed.request?) := by
  intro loaded run
  have hends : i.Ends m loaded run.result run.asked := i.ends m env loaded s
  have hcomes : ∀ c selected, i.Cleared loaded c selected → i.validateOnly = false →
      (run.result = .overcommitted ↔ Fleet.maxPermits < (i.setting c).getD m.limit) := by
    intro c selected hclear hrun
    obtain ⟨-, s', hresult, -, -⟩ := hclear.exists_launch hrun m env hs
    exact (iff_of_eq (congrArg (· = _) hresult)).trans
      ((launch_eq_overcommitted_iff env).trans not_isAdmissible_setup)
  refine ⟨⟨fun hresult => (hends.of_overcommitted hresult).2, ?_⟩, fun hresult => ?_,
    fun c selected hclear => ?_⟩
  · rintro ⟨hrun, c, selected, hclear, hmany⟩
    exact (hcomes c selected hclear hrun).mpr hmany
  · rw [hresult]
    exact ⟨rfl, (hends.of_overcommitted hresult).1⟩
  · obtain ⟨hfits, hlt⟩ := permits_lt_wordBound m selected hargs hclear.loaded
    refine ⟨hfits, permits_setup i m c selected, Nat.le_max_right _ _, hlt, fun hresult => ?_,
      fun hrun hfew => ?_⟩
    · obtain ⟨-, hrun, -⟩ := hends.of_overcommitted hresult
      have hover : (i.setup m c selected).isAdmissible = false :=
        not_isAdmissible_setup.mpr ((hcomes c selected hclear hrun).mp hresult)
      obtain ⟨before, s', -, -, hevents⟩ := hclear.exists_launch hrun m env hs
      rw [launch_of_not_isAdmissible hover] at hevents
      exact (congrArg List.getLast? hevents).trans List.getLast?_concat
    · have hadmissible : (i.setup m c selected).isAdmissible = true := isAdmissible_setup.mpr hfew
      obtain ⟨-, s', hresult, hasked, -⟩ := hclear.exists_launch hrun m env hs
      obtain ⟨scopes, caller, t, hreach, hclosed, hlaunched, hput⟩ :=
        exists_closed_of_launch hadmissible env s'
      exact ⟨of_decide_eq_true hadmissible, scopes, caller, t, hreach, hclosed,
        hresult.trans hlaunched, hasked.trans hput⟩

end Invocation

/-! ## One permit too many -/

namespace Rehearsal

/-- A file of one unit with one image, for which so many units may be at work at once. -/
def wideShop (limit : String) : Except String (List Nat) :=
  let lines := ["executor_options:", "  max_concurrency: " ++ limit, "units:",
    "- name: shop", "  images:", "  - name: web", "    repository: shop/web", "    tag: '1'"]
  .ok (("\n".intercalate lines).toList.map Char.toNat)

/-- A run that is told of more jobs than there can be permits. -/
def wideRun : Invocation := { plainRun with jobs := some (wordBound - 1) }

/-- The largest number of jobs that can be asked for is taken, and breaks a run that is in order. -/
theorem overcommitted_of_wideRun :
    Invocation.ofArgs none ["--jobs", toString (wordBound - 1)] = .ok wideRun ∧
    (∃ c selected, wideRun.Cleared (Config.ofBytes wideRun.file (wideShop "2")) c selected ∧
      (wideRun.setup .silent c selected).permits = wordBound - 1) ∧
    (wideRun.run .silent prepared (wideShop "2") calmStage).result = .overcommitted ∧
    (wideRun.run .silent prepared (wideShop "2") calmStage).asked = [] := by
  have hargs : Invocation.ofArgs none ["--jobs", toString (wordBound - 1)] = .ok wideRun :=
    Invocation.ofArgs_jobs (by decide)
  have hresult : (wideRun.run .silent prepared (wideShop "2") calmStage).result =
      .overcommitted := by
    decide +kernel
  obtain ⟨hiff, hbreaks, hcleared⟩ :=
    Invocation.overcommitted_iff hargs .silent prepared (wideShop "2") (s := calmStage) rfl
  obtain ⟨-, c, selected, hclear, -⟩ := hiff.mp hresult
  obtain ⟨-, hpermits, -⟩ := hcleared c selected hclear
  exact ⟨hargs, ⟨c, selected, hclear, hpermits⟩, hresult, (hbreaks hresult).2⟩

/-- The limit of a file may be one more than there can be permits: the file is loaded, and its units
are found in order, but they are not run.  With one permit less they are. -/
theorem overcommitted_of_wideShop :
    let tooWide := wideShop (toString (Fleet.maxPermits + 1))
    ({ plainRun with validateOnly := true }.run .silent prepared tooWide calmStage).result =
      .valid 1 ∧
    (plainRun.run .silent prepared tooWide calmStage).result = .overcommitted ∧
    (plainRun.run .silent prepared tooWide calmStage).asked = [] ∧
    (plainRun.run .silent prepared (wideShop (toString Fleet.maxPermits)) calmStage).result.code =
      0 := by
  decide +kernel

end Rehearsal

end Converge
