import Converge.Proofs.Provision.Builds
import Converge.Proofs.Provision.Inventory
import Converge.Proofs.Provision.Rounds

/-!
# A second run finds its work done

After a run that succeeded, the registry has every image of every unit that was run, since each of
them was found there or pushed there.  A second run of the same units, from trees that are built
anew, finds the images and has nothing to do but to apply the manifests again.
-/

namespace Converge

open Fleet

/-! ## Units as they are declared -/

/-- The command that asks the registry for an image that is declared like this. -/
def ImageSpec.inspect (c : Config) (i : ImageSpec) : Command :=
  ⟨"docker", ["manifest", "inspect", i.reference c.defaults], none⟩

namespace UnitSpec

/-- The images of a unit that no manifest lists. -/
def unlisted (u : UnitSpec) : List ImageSpec :=
  u.images.filter fun i => ∀ m ∈ u.manifests, i.name ∉ m.images

/-- How often images occur below a unit: once if no manifest lists them, and otherwise as often as
manifests do. -/
def occurrences (u : UnitSpec) : Nat :=
  u.unlisted.length + (u.manifests.map fun m => m.images.length).sum

/-- The commands of a unit whose images are all in the registry: every occurrence of an image is
asked for, and every manifest is applied after its images. -/
def round (c : Config) (u : UnitSpec) : List Command :=
  u.unlisted.map (·.inspect c) ++ u.manifests.flatMap fun m =>
    (m.images.filterMap u.image?).map (·.inspect c) ++ [(u.manifestNode c m).manifest.command]

variable {c : Config} {u : UnitSpec}

theorem round_node (hu : u.Sound) : (u.node c).round = u.round c := by
  rw [UnitNode.round, node, imageNodes, filterMap_filter hu, round, unlisted]
  simp only [List.map_map, List.flatMap_map, ManifestNode.round, manifestNode, imageNodes]
  rfl

theorem roundTally_node (hu : u.Sound) : (u.node c).roundTally =
    ⟨1 + u.occurrences + u.manifests.length, u.manifests.length, u.occurrences⟩ := by
  have hlisted : ∀ m ∈ u.manifests, (m.images.filterMap u.image?).length = m.images.length := by
    intro m hm
    rw [← List.length_map (f := ImageSpec.name), map_name_filterMap (hu.declared m hm)]
  have hvisited : (u.node c).visited.length = u.occurrences := by
    rw [visited_node, List.length_map, order, List.filterMap_append, filterMap_filter hu,
      List.filterMap_flatMap, List.length_append, List.length_flatMap, occurrences, unlisted,
      List.map_congr_left hlisted]
  rw [UnitNode.roundTally_eq, hvisited, node, List.length_map]

end UnitSpec

/-! ## Runs of selected units -/

/-- Units under their names, as they are selected. -/
def Config.selection (c : Config) (units : List UnitSpec) : List (String × Declaration) :=
  units.map fun unit => (unit.name, .unit (unit.node c))

/-- What is selected are declared units. -/
theorem Config.exists_units {c : Config} {selected : List (String × Declaration)}
    (hselect : ∀ x ∈ selected, x ∈ c.registry.entries) :
    ∃ units : List UnitSpec, (∀ unit ∈ units, unit ∈ c.units) ∧ selected = c.selection units := by
  induction selected with
  | nil => exact ⟨[], by simp, rfl⟩
  | cons x selected ih =>
      rw [List.forall_mem_cons] at hselect
      obtain ⟨units, hunits, rfl⟩ := ih hselect.2
      obtain ⟨unit, hunit, rfl⟩ := Config.unit_of_mem_registry hselect.1
      exact ⟨unit :: units, List.forall_mem_cons.mpr ⟨hunit, hunits⟩, rfl⟩

/-- What the round of the unit at this place comes to. -/
def Config.roundTallyAt (c : Config) (units : List UnitSpec) (i : Nat) : Tally :=
  (units[i]?).elim 0 fun unit => (unit.node c).roundTally

theorem Config.roundTallyAt_eq {c : Config} {units : List UnitSpec} {i : Nat} {unit : UnitSpec}
    (hi : units[i]? = some unit) : c.roundTallyAt units i = (unit.node c).roundTally := by
  rw [roundTallyAt, hi, Option.elim_some]

theorem Config.map_roundTallyAt (c : Config) (units : List UnitSpec) :
    (List.range units.length).map (c.roundTallyAt units) =
      units.map fun unit => (unit.node c).roundTally := by
  refine List.ext_getElem (by simp) fun i hi hi' => ?_
  have hlt : i < units.length := by simpa using hi'
  simp [roundTallyAt_eq (List.getElem?_eq_getElem hlt)]

/-- A setup for selected units, whose trees have been built for it. -/
structure Prepared (selected : List (String × Declaration)) (policy : Policy)
    (u : Setup Command.Request Command.Request.Answer Resource) : Prop where
  provider : u.provider = Resource.provider
  policy : u.policy = policy
  built : ∃ (ω : Type) (solo : Environment.Solo ω),
    (Stretch.build selected solo).result = .ok u.jobs

/-- All that has happened in a run of selected units that has returned with success. -/
def Accomplished (selected : List (String × Declaration)) (policy : Policy)
    (present : String → Bool) (past : Deeds) : Prop :=
  ∃ u scopes caller s, Prepared selected policy u ∧ Reachable u (start u scopes caller) s ∧
    s.closed = true ∧ (∃ summary, s.result = .ok summary) ∧ Honest present s.history ∧
    s.history = past

section Runs

variable {c : Config} {units : List UnitSpec} {unit : UnitSpec} {policy : Policy}
  {u : Setup Command.Request Command.Request.Answer Resource}
  {s : State Command.Request Command.Request.Answer Resource} {scopes : Scopes} {caller i : Nat}
  {present : String → Bool} {past : Deeds}

namespace Prepared

/-- There is a job for each unit. -/
theorem jobs_eq (h : Prepared (c.selection units) policy u) :
    u.jobs = units.map fun unit => ⟨unit.name, (unit.node c).design.tree⟩ := by
  obtain ⟨ω, solo, hbuilt⟩ := h.built
  rw [Job.eq_of_run_buildAll hbuilt, Config.selection, List.map_map, List.map_map]
  rfl

theorem length_jobs (h : Prepared (c.selection units) policy u) :
    u.jobs.length = units.length := by
  rw [h.jobs_eq, List.length_map]

/-- A job works on its unit. -/
theorem course_eq (h : Prepared (c.selection units) policy u) (hunit : units[i]? = some unit) :
    u.course i = (unit.node c).design.tree.converge Resource.provider policy := by
  have hjob : u.jobs[i]? = some ⟨unit.name, (unit.node c).design.tree⟩ := by
    rw [h.jobs_eq, List.getElem?_map, hunit]
    rfl
  rw [Setup.course_eq hjob, h.provider, h.policy]

/-- What a job does is done for a unit. -/
theorem exists_unit (h : Prepared (c.selection units) policy u)
    (hs : Reachable u (start u scopes caller) s)
    {d : Deed Command.Request Command.Request.Answer Resource} (hd : d ∈ s.history)
    (hi : d.job? = some i) : ∃ unit, units[i]? = some unit := by
  obtain ⟨job, hjob⟩ := hs.job_of_deed hd hi
  have hlt := (List.getElem?_eq_some_iff.mp hjob).1
  rw [h.length_jobs] at hlt
  exact ⟨_, List.getElem?_eq_getElem hlt⟩

/-- When a run has succeeded, the work on every unit has. -/
theorem exists_joined (h : Prepared (c.selection units) policy u)
    (hs : Reachable u (start u scopes caller) s) (hc : s.closed = true)
    (hok : ∃ summary, s.result = .ok summary) (hunit : units[i]? = some unit) :
    ∃ tally, s.stages[i]? = some (.joined (.returned (.ok tally))) := by
  have hlt : i < s.stages.length := by
    rw [hs.isSound.length, h.length_jobs]
    exact (List.getElem?_eq_some_iff.mp hunit).1
  obtain ⟨o, ho⟩ := hs.joined_of_closed hc (List.getElem?_eq_getElem hlt)
  have hstage : s.stages[i]? = some (.joined o) := by rw [List.getElem?_eq_getElem hlt, ho]
  obtain ⟨tally, rfl⟩ := hs.result_ok_iff.mp hok (i, o) (hs.mem_joins.mpr hstage)
  exact ⟨tally, hstage⟩

/-- What came of the work on a unit is what a monitor of it says, if it was begun. -/
theorem outcome_meets {mayRun : Replies → Command → Prop}
    {post : Replies → Except Fault Tally → Prop} (h : Prepared (c.selection units) policy u)
    (hs : Reachable u (start u scopes caller) s) (hunit : units[i]? = some unit)
    (hmeets : ((unit.node c).design.tree.converge Resource.provider policy).Meets
      (.ofReplies mayRun) post [])
    {r : Except Fault Tally} (hi : s.stages[i]? = some (.joined (.returned r))) :
    post (repliesTo i s.history) r ∨ r = .error (.cancelled .top) := by
  rw [← h.course_eq hunit] at hmeets
  have hpost := hs.outcome_meets (Monitor.ofReplies_onlyAsks _).blind hmeets hi rfl
  rwa [Monitor.after_ofReplies, List.nil_append] at hpost

/-- No unit builds for a reference twice. -/
theorem nodup_builtBy (h : Prepared (c.selection units) policy u)
    (hs : Reachable u (start u scopes caller) s) (hh : Honest present s.history) (i : Nat) :
    (builtBy i s.history).Nodup := by
  cases hunit : units[i]? with
  | none =>
      have hnone : deedsOf i s.history = [] := by
        refine List.filter_eq_nil_iff.mpr fun d hd hi => ?_
        obtain ⟨unit, hsome⟩ := h.exists_unit hs hd (of_decide_eq_true hi)
        cases hunit.symm.trans hsome
      rw [builtBy, commandsOf, requestsOf, hnone]
      exact List.nodup_nil
  | some unit =>
      refine hs.nodup_builtBy ?_ hh
      rw [h.course_eq hunit]
      exact (unit.node c).converge_tidy policy

end Prepared

/-- After a run that succeeded, all images of its units are in the registry. -/
theorem Accomplished.stocked (h : Accomplished (c.selection units) policy present past)
    (hunit : unit ∈ units) :
    ∀ image ∈ (unit.node c).visited, stocked present past image.image.reference = true := by
  obtain ⟨u, scopes, caller, s, hprepared, hs, hc, hok, hh, rfl⟩ := h
  obtain ⟨i, hi⟩ := List.mem_iff_getElem?.mp hunit
  obtain ⟨tally, hstage⟩ := hprepared.exists_joined hs hc hok hi
  intro image himage
  rcases hprepared.outcome_meets hs hi ((unit.node c).meets_order policy) hstage with hpost | hcut
  · rcases hpost tally rfl image himage with ⟨o, ho, hfound⟩ | ⟨o, o', hsub, -, hpushed⟩
    · exact hh.stocked_of_found ho (Image.inspected?_inspect _) hfound
    · have hmem : (image.image.push, .ok o') ∈ repliesTo i s.history := hsub.subset (by simp)
      exact stocked_of_pushed hmem (Image.pushed?_push _) hpushed
  · cases hcut

/-! ## The second run -/

variable {first : Policy}

/-- In a second run no image is missed. -/
theorem Accomplished.not_missed (hpast : Accomplished (c.selection units) first present past)
    (hs : Reachable u (start u scopes caller) s) (hh : Honest present (s.history ++ past))
    (hunit : unit ∈ units) : ¬ (unit.node c).Missed (repliesTo i s.history) := by
  rintro ⟨image, himage, r, hr, hfailed⟩
  have hstocked := hpast.stocked hunit image himage
  rw [hh.found_of_stocked hs hr (Image.inspected?_inspect _) hstocked] at hfailed
  cases hfailed

/-- If manifests can be applied, none is refused. -/
theorem Fleet.Obliging.not_refused {h : Deeds} (ho : Obliging present past h) :
    ¬ (repliesTo i h).Refused := by
  rintro ⟨⟨c, r⟩, hr, hkubectl, hfailed⟩
  obtain ⟨before, after, hsplit⟩ := List.append_of_mem hr
  obtain ⟨later, earlier, rfl, -⟩ := exists_answered hsplit
  have happlied := ho.applied (.step i (.answered (.run c) r)) (by simp) hkubectl
  rw [happlied] at hfailed
  cases hfailed

namespace Prepared

/-- All that a second run does belongs to the rounds of its units. -/
theorem mem_round (h : Prepared (c.selection units) .skipSubtree u)
    (hs : Reachable u (start u scopes caller) s)
    (hpast : Accomplished (c.selection units) first present past)
    (hh : Honest present (s.history ++ past)) {cmd : Command}
    (hasked : .asked i (.run cmd) ∈ s.history) : ∃ unit ∈ units, cmd ∈ (unit.node c).round := by
  obtain ⟨unit, hi⟩ := h.exists_unit hs hasked rfl
  have hunit := List.mem_of_getElem? hi
  refine ⟨unit, hunit, ?_⟩
  have hmeets := (unit.node c).converge_repeated
  rw [← h.course_eq hi] at hmeets
  obtain ⟨later, earlier, hsplit⟩ := List.append_of_mem hasked
  have hmay := hs.may_ask (Monitor.ofReplies_onlyAsks _).blind hmeets hsplit
  rw [Monitor.after_ofReplies, List.nil_append] at hmay
  rcases hmay with hmissed | hprefix
  · have hgrown : repliesTo i earlier <+: repliesTo i s.history := by
      rw [hsplit]
      exact repliesTo_prefix ((List.suffix_cons _ _).trans (List.suffix_append _ _))
    exact absurd (hmissed.mono hgrown) (hpast.not_missed hs hh hunit)
  · exact hprefix.subset (by simp)

/-- A second run in an obliging world comes to the rounds of its units. -/
theorem outcome_of_obliging (h : Prepared (c.selection units) .skipSubtree u)
    (hs : Reachable u (start u scopes caller) s)
    (hpast : Accomplished (c.selection units) first present past)
    (ho : Obliging present past s.history) (hi : units[i]? = some unit)
    {r : Except Fault Tally} (hstage : s.stages[i]? = some (.joined (.returned r))) :
    (r = .ok (unit.node c).roundTally ∧
      (repliesTo i s.history).map Prod.fst = (unit.node c).round) ∨
    ∃ f, r = .error f ∧ f.isCancellation = true := by
  have hnot := hpast.not_missed (i := i) hs ho.honest (List.mem_of_getElem? hi)
  rcases h.outcome_meets hs hi (unit.node c).converge_repeated hstage with hround | rfl
  · obtain ⟨hok, herror⟩ := hround.resolve_left hnot
    cases r with
    | ok tally =>
        obtain ⟨hdone, rfl⟩ := hok tally rfl
        exact .inl ⟨rfl, hdone⟩
    | error f => exact .inr ⟨f, rfl, (herror f rfl).resolve_right ho.not_refused⟩
  · exact .inr ⟨_, rfl, rfl⟩

/-- Such a run succeeds, with a round for each unit. -/
theorem result_of_obliging (h : Prepared (c.selection units) .skipSubtree u)
    (hs : Smooth u (start u scopes caller) s) (hcaller : scopes.cancelled caller = false)
    (hc : s.closed = true) (hpast : Accomplished (c.selection units) first present past)
    (ho : Obliging present past s.history) :
    s.result = .ok ⟨units.length, units.length, 0, 0,
      (units.map fun unit => (unit.node c).roundTally).sum⟩ := by
  have hresult := hs.result_of_closed hcaller hc (f := c.roundTallyAt units) fun i r hstage => by
    have hlt := State.lt_of_stage hstage
    rw [hs.reachable.isSound.length, h.length_jobs] at hlt
    have hi := List.getElem?_eq_getElem hlt
    rw [Config.roundTallyAt_eq hi]
    exact (h.outcome_of_obliging hs.reachable hpast ho hi hstage).imp_left And.left
  rw [hresult, h.length_jobs, Config.map_roundTallyAt]

/-- Each unit has gone its round then, and done nothing else. -/
theorem commandsOf_of_obliging (h : Prepared (c.selection units) .skipSubtree u)
    (hs : Smooth u (start u scopes caller) s) (hcaller : scopes.cancelled caller = false)
    (hc : s.closed = true) (hpast : Accomplished (c.selection units) first present past)
    (ho : Obliging present past s.history) (hi : units[i]? = some unit) :
    commandsOf i s.history = (unit.node c).round := by
  have hreach := hs.reachable
  have hok := h.result_of_obliging hs hcaller hc hpast ho
  obtain ⟨tally, hstage⟩ := h.exists_joined hreach hc ⟨_, hok⟩ hi
  rcases h.outcome_of_obliging hreach hpast ho hi hstage with ⟨-, hround⟩ | ⟨f, hf, -⟩
  · rw [commandsOf_of_answered (hreach.answered_of_returned hstage rfl), hround]
  · cases hf

end Prepared

end Runs

/-- In a run of units of a configuration without problems no unit builds for a reference twice.
After a run that succeeded, a second run of the same units, from trees that are built anew, builds
nothing, pushes nothing and fetches nothing.  If in addition nothing is cancelled and manifests can
be applied, it cannot but come to its end and succeed, and each unit does nothing but ask for each
occurrence of an image and apply each manifest, in the order of the tree. -/
theorem Config.convergence {c : Config} {choice : Option String}
    {selected : List (String × Declaration)} (hc : c.problems = [])
    (hselect : c.registry.select choice = .ok selected) (present : String → Bool) :
    (∀ policy u scopes caller s i, Prepared selected policy u →
      Reachable u (start u scopes caller) s → Honest present s.history →
      (builtBy i s.history).Nodup) ∧
    ∃ units : List UnitSpec, (∀ unit ∈ units, unit ∈ c.units) ∧ selected = c.selection units ∧
    ∀ first past, Accomplished selected first present past →
    ∀ u scopes caller s, Prepared selected .skipSubtree u →
      (Reachable u (start u scopes caller) s → Honest present (s.history ++ past) →
        ∀ i cmd, .asked i (.run cmd) ∈ s.history →
          cmd.isBuild = false ∧ cmd.isPush = false ∧ cmd.isGit = false) ∧
      (Smooth u (start u scopes caller) s → scopes.cancelled caller = false →
        Obliging present past s.history →
        (∃ t, Smooth u s t ∧ Obliging present past t.history ∧ t.closed = true) ∧
        (∀ run : Nat → State Command.Request Command.Request.Answer Resource, run 0 = s →
          ¬ ∀ k, ∃ m, m.isOutside = false ∧ (run k).move? u m = some (run (k + 1))) ∧
        (s.closed = true →
          (∃ summary, s.result = .ok summary ∧ summary.succeeded = units.length ∧
            summary.totals.applied = (units.map fun unit => unit.manifests.length).sum ∧
            summary.totals.satisfied = (units.map UnitSpec.occurrences).sum) ∧
          ∀ i unit, units[i]? = some unit → commandsOf i s.history = unit.round c)) := by
  have hentries : ∀ x ∈ selected, x ∈ c.registry.entries :=
    fun x hx => Catalog.mem_of_mem_select hselect hx
  obtain ⟨units, hunits, rfl⟩ := Config.exists_units hentries
  have hsound : ∀ unit ∈ units, unit.Sound := fun unit hunit =>
    Config.sound_of_problems hc (hunits unit hunit)
  refine ⟨fun policy u scopes caller s i hu hs hh => hu.nodup_builtBy hs hh i, units, hunits, rfl,
    ?_⟩
  intro first past hpast u scopes caller s hu
  constructor
  · intro hs hh i cmd hasked
    obtain ⟨unit, -, hround⟩ := hu.mem_round hs hpast hh hasked
    exact UnitNode.quiet_of_mem_round hround
  · intro hs hcaller ho
    refine ⟨ho.exists_closed hs, fun run hfirst => ?_, fun hclosed => ⟨?_, fun i unit hi => ?_⟩⟩
    · subst hfirst
      exact hs.reachable.not_endless
    · have htallies : (units.map fun unit => (unit.node c).roundTally) = units.map fun unit =>
          ⟨1 + unit.occurrences + unit.manifests.length, unit.manifests.length,
            unit.occurrences⟩ :=
        List.map_congr_left fun unit hunit => UnitSpec.roundTally_node (hsound unit hunit)
      refine ⟨_, hu.result_of_obliging hs hcaller hclosed hpast ho, rfl, ?_⟩
      rw [htallies, Tally.sum_map]
      exact ⟨rfl, rfl⟩
    · rw [hu.commandsOf_of_obliging hs hcaller hclosed hpast ho hi]
      exact UnitSpec.round_node (hsound unit (List.mem_of_getElem? hi))

/-! ## Two loaves from one oven -/

namespace Rehearsal

/-- Both manifests list the same image. -/
def baker : UnitSpec where
  name := "bakery"
  images := [⟨"oven", "bakery/oven", "1", ⟨"oven"⟩, none, .empty, none⟩]
  manifests := [⟨"bread", ⟨"bread.yaml"⟩, none, none, ["oven"]⟩,
    ⟨"cake", ⟨"cake.yaml"⟩, none, none, ["oven"]⟩]

def bakery : Config where
  defaults := ⟨some "registry.local", some "prod", none⟩
  options := ⟨none, .skipSubtree⟩
  units := [baker]
  baseDir := ⟨"deploy"⟩

def bakerySetup : Setup Command.Request Command.Request.Answer Resource where
  provider := Resource.provider
  policy := .skipSubtree
  limit := 1
  jobs := bakery.units.map fun u => ⟨u.name, (u.node bakery).design.tree⟩
  tasks := .inTurn 1

/-- The work goes on for a while, and then a command is answered. -/
def untilAnswered (n : Nat) (code : Int) : List (Move Command.Request Command.Request.Answer) :=
  List.replicate n (.goOn 0) ++ [.reply 0 (exits code)]

/-- The image is missing and is built and pushed; for the second manifest it is there. -/
def untilBaked : List (Move Command.Request Command.Request.Answer) :=
  [[.look 0, .enter 0],
    untilAnswered 5 1, untilAnswered 3 0, untilAnswered 1 0, untilAnswered 3 0,
    untilAnswered 4 0, untilAnswered 3 0,
    [.goOn 0, .goOn 0, .leave 0, .join 0, .close]].flatten

/-- A registry without any images. -/
def emptyRegistry : String → Bool := fun _ => false

/-- After a first run that built the image once, a second one asks for it twice and builds nothing
before it applies either manifest. -/
theorem convergence_of_bakery : ∃ s t : State Command.Request Command.Request.Answer Resource,
    Reachable bakerySetup (start bakerySetup .one 0) s ∧ (builtBy 0 s.history).Nodup ∧
    builtBy 0 s.history = ["registry.local/bakery/oven:1"] ∧
    Reachable bakerySetup (start bakerySetup .one 0) t ∧ t.closed = true ∧
    (∃ summary, t.result = .ok summary ∧ summary.succeeded = 1 ∧ summary.totals.applied = 2 ∧
      summary.totals.satisfied = 2) ∧
    (commandsOf 0 t.history).map Command.line =
      ["docker manifest inspect registry.local/bakery/oven:1",
        "kubectl --context prod apply -f deploy/bread.yaml",
        "docker manifest inspect registry.local/bakery/oven:1",
        "kubectl --context prod apply -f deploy/cake.yaml"] := by
  have hrun : ((start bakerySetup .one 0).moves? bakerySetup untilBaked).any (fun s =>
      s.closed && s.result.toBool && decide (Honest emptyRegistry s.history) &&
        builtBy 0 s.history = ["registry.local/bakery/oven:1"]) = true := by
    decide +kernel
  obtain ⟨s, hs, hended⟩ := (Option.any_eq_true _ _).mp hrun
  simp only [Bool.and_eq_true, decide_eq_true_eq] at hended
  obtain ⟨⟨⟨hclosed, hok⟩, hhonest⟩, hbuilt⟩ := hended
  have hreach : Reachable bakerySetup (start bakerySetup .one 0) s := reachable_moves? .start hs
  have hproblems : bakery.problems = [] := by decide +kernel
  have hselect : bakery.registry.select none = .ok bakery.registry.entries := rfl
  have hprepared : Prepared bakery.registry.entries .skipSubtree bakerySetup :=
    ⟨rfl, rfl, Unit, ⟨(), .one, 0, 0, none⟩, rfl⟩
  obtain ⟨hnodup, units, hunits, hselection, hagain⟩ :=
    Config.convergence hproblems hselect emptyRegistry
  have hone : units = [baker] := by
    have hlength : units.length = 1 := by
      have hentries : bakery.registry.entries.length = 1 := rfl
      rw [← hentries, hselection, Config.selection, List.length_map]
    obtain ⟨unit, rfl⟩ := List.length_eq_one_iff.mp hlength
    rw [List.mem_singleton.mp (hunits unit (List.mem_singleton_self unit))]
  subst hone
  have hpast : Accomplished bakery.registry.entries .skipSubtree emptyRegistry s.history := by
    refine ⟨bakerySetup, .one, 0, s, hprepared, hreach, hclosed, ?_, hhonest, rfl⟩
    cases hresult : s.result with
    | ok summary => exact ⟨summary, rfl⟩
    | error e =>
        rw [hresult] at hok
        cases hok
  have hstart : Obliging emptyRegistry s.history (start bakerySetup .one 0).history :=
    ⟨⟨trivial, hhonest⟩, by simp [start, Deed.IsApplied]⟩
  obtain ⟨t, ht, hoblige, hend⟩ :=
    ((hagain _ _ hpast bakerySetup .one 0 _ hprepared).2 .start rfl hstart).1
  obtain ⟨⟨summary, hresult, hsucceeded, happlied, hsatisfied⟩, hcommands⟩ :=
    ((hagain _ _ hpast bakerySetup .one 0 t hprepared).2 ht rfl hoblige).2.2 hend
  refine ⟨s, t, hreach, hnodup _ _ _ _ s 0 hprepared hreach hhonest, hbuilt, ht.reachable, hend,
    ⟨summary, hresult, hsucceeded, happlied, hsatisfied⟩, ?_⟩
  rw [hcommands 0 baker rfl]
  decide +kernel

end Rehearsal

end Converge
