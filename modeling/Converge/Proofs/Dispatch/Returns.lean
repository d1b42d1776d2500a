import Converge.Proofs.Dispatch.Turns

/-!
# Dispatch comes to an end

A turn either makes a move or passes, and turns pass only as long as the queue lasts; then the clock
goes on, to a time at which somebody has something to do.  The moves of a run are bounded, and so it
returns within a number of turns that is known at its beginning.
-/

namespace Converge.Fleet

variable {Q : Type} {A : Q → Type} {R ω : Type} {u : Setup Q A R} {s t : State Q A R}
  {r : Nat → ℕ} {scopes : Scopes} {caller : Nat}

namespace Dispatch

variable {d₀ d d' : Dispatch Q A R ω} {busy : Nat → Stage Q A R → Prop} {rest : List Turn}

/-! ## The turn of the run -/

/-- A job that has ended and is in this list has not been joined yet. -/
def Unjoined (l : List Nat) (k : Nat) (g : Stage Q A R) : Prop := (∃ o, g = .ended o) ∧ k ∈ l

/-- The run has its turn, and those that have ended are to be joined in it. -/
theorem Attended.popRun (h : Attended u (fun _ _ => False) d) (hq : d.queue = .run :: rest) :
    Attended u (Unjoined d.finished) { d with queue := rest, finished := [] } where
  nodup := (List.nodup_cons.mp (hq ▸ h.nodup)).2
  queued k hk := h.queued k (hq ▸ List.mem_cons_of_mem _ hk)
  watched := h.watched
  asleep := h.asleep
  distinct := h.distinct
  awaits k g hk hnot :=
    (h.awaits k g hk id).mono rfl (mem_rest hq (by simp)) id (fun _ ha _ => ha)
      fun o ho hf => absurd ⟨⟨o, ho⟩, hf.1⟩ hnot

theorem move?_join {k : Nat} {o : Outcome} (hk : s.stages[k]? = some (.ended o)) :
    s.move? u (.join k) =
      some (((s.setStage k (.joined o)).record (.joined k o)).account u k o) := by
  rw [State.move?, hk]

/-- The job that is joined has ended before, and is joined then. -/
theorem ended_of_join {k : Nat} (hm : s.move? u (.join k) = some t) :
    ∃ o, s.stages[k]? = some (.ended o) ∧ t.stages[k]? = some (.joined o) := by
  cases moved_of_move? hm with
  | @join _ o hi =>
      refine ⟨o, hi, ?_⟩
      rw [State.stages_account]
      exact State.stage_setStage_self hi

theorem make_join_of_not_ended {k : Nat} (hk : ¬ ∃ o, d.state.stages[k]? = some (.ended o)) :
    d.make u (.join k) = d := by
  refine make_of_none (Option.eq_none_iff_forall_ne_some.mpr fun s hm => hk ?_)
  obtain ⟨o, ho, -⟩ := ended_of_join hm
  exact ⟨o, ho⟩

/-- Once job `k` is joined, if it has ended, only the others are left. -/
theorem Proceeded.join {k : Nat} {l : List Nat}
    (h : Proceeded u r scopes caller (Unjoined (k :: l)) d₀ d) (hu : u.Bounded r) :
    Proceeded u r scopes caller (Unjoined l) d₀ (d.make u (.join k)) := by
  have hmade := h.make (m := .join k) hu (fun s k' g hm hk hg => ?_) fun s hm a ha hk => ?_
  · refine { hmade with attended := hmade.attended.narrow fun k' g hg hbusy => .inl ?_ }
    refine ⟨hbusy.1, (List.mem_cons.mp hbusy.2).resolve_left ?_⟩
    rintro rfl
    obtain ⟨o, rfl⟩ := hbusy.1
    cases hm : d.state.move? u (.join k') with
    | none =>
        rw [make_of_none hm] at hg
        rw [move?_join hg] at hm
        cases hm
    | some s =>
        obtain ⟨o', -, hs⟩ := ended_of_join hm
        rw [state_make hm, hs] at hg
        cases hg
  · obtain rfl := Option.some.inj hk
    obtain ⟨o, -, hs⟩ := ended_of_join hm
    obtain rfl := Option.some.inj (hg.symm.trans hs)
    exact .inr rfl
  · obtain ⟨o, hended, -⟩ := ended_of_join hm
    obtain ⟨q, next, hasking⟩ := h.attended.asleep a ha
    obtain rfl := Option.some.inj hk
    cases hended.symm.trans hasking

/-- All that have ended are joined, one after another. -/
theorem Proceeded.joinEach {l : List Nat} (h : Proceeded u r scopes caller (Unjoined l) d₀ d)
    (hu : u.Bounded r) :
    Proceeded u r scopes caller (fun _ _ => False) d₀
      (l.foldl (fun d k => Dispatch.make u d (.join k)) d) := by
  induction l generalizing d with
  | nil =>
      refine { h with attended := h.attended.narrow fun k g _ hbusy => ?_ }
      exact absurd hbusy.2 List.not_mem_nil
  | cons k l ih => exact ih (h.join hu)

/-- If there is one, it has made a move. -/
theorem Proceeded.joinEach_lt {l : List Nat} (h : Proceeded u r scopes caller (Unjoined l) d₀ d)
    (hu : u.Bounded r) (hended : ∃ k ∈ l, ∃ o, d.state.stages[k]? = some (.ended o)) :
    (l.foldl (fun d k => Dispatch.make u d (.join k)) d).state.effort u r < d.state.effort u r := by
  induction l generalizing d with
  | nil =>
      obtain ⟨k, hk, -⟩ := hended
      exact absurd hk List.not_mem_nil
  | cons j l ih =>
      have hrest := h.join hu
      by_cases hj : ∃ o, d.state.stages[j]? = some (.ended o)
      · obtain ⟨o, ho⟩ := hj
        exact lt_of_le_of_lt (hrest.restart.joinEach hu).effort
          (effort_make_lt h.reachable hu (move?_join ho) rfl nofun)
      · rw [List.foldl_cons]
        rw [make_join_of_not_ended hj] at hrest ⊢
        obtain ⟨k, hk, ho⟩ := hended
        refine ih hrest ⟨k, (List.mem_cons.mp hk).resolve_left ?_, ho⟩
        rintro rfl
        exact hj ho

/-- If there is none, nothing happens. -/
theorem joinEach_of_none {l : List Nat}
    (hnone : ¬ ∃ k ∈ l, ∃ o, d.state.stages[k]? = some (.ended o)) :
    l.foldl (fun d k => Dispatch.make u d (.join k)) d = d := by
  induction l with
  | nil => rfl
  | cons k l ih =>
      rw [List.foldl_cons,
        make_join_of_not_ended fun hended => hnone ⟨k, List.mem_cons_self, hended⟩]
      refine ih fun ⟨k', hk', ho⟩ => hnone ⟨k', List.mem_cons_of_mem k hk', ho⟩

theorem move?_close (s : State Q A R) :
    s.move? u .close = if s.stages.all Stage.isJoined && !s.closed then
      some { s.cancelShared with closed := true } else none := rfl

/-- When all have been joined the run returns. -/
theorem closed_make_close (hall : d.state.stages.all Stage.isJoined = true) :
    (d.make u .close).state.closed = true := by
  cases hclosed : d.state.closed with
  | true => rw [make_of_none (by rw [move?_close, hall, hclosed]; rfl), hclosed]
  | false =>
      rw [state_make (s := { d.state.cancelShared with closed := true })
        (by rw [move?_close, hall, hclosed]; rfl)]

/-- Until then some job has not. -/
theorem isOpen_close (hs : d.state.Sound u) : (d.make u .close).IsOpen := by
  by_cases hall : d.state.stages.all Stage.isJoined = true
  · exact .inl (closed_make_close hall)
  · have hopen : d.IsOpen := by
      rw [List.all_eq_true] at hall
      push Not at hall
      obtain ⟨g, hg, hnot⟩ := hall
      obtain ⟨i, hi⟩ := List.getElem?_of_mem hg
      exact .inr (.inr ⟨i, g, hi, Bool.eq_false_iff.mpr hnot⟩)
    exact hopen.make hs nofun

/-- The turn of the run. -/
theorem Rested.turned_run (h : Rested u r scopes caller d₀ d) (hu : u.Bounded r)
    (hq : d.queue = .run :: rest) :
    Turned u r scopes caller d .run rest (joinAll u { d with queue := rest }) := by
  have hjoining : Proceeded u r scopes caller (Unjoined d.finished) d
      { d with queue := rest, finished := [] } :=
    { h.toProceeded.restart with attended := h.attended.popRun hq }
  have hjoined := hjoining.joinEach hu
  have hclosed := hjoined.make (m := .close) hu nofun (fun _ _ _ _ => nofun)
  have hidle : (¬ ∃ k ∈ d.finished, ∃ o, d.state.stages[k]? = some (.ended o)) →
      joinAll u { d with queue := rest } =
        Dispatch.make u { d with queue := rest, finished := [] } .close := fun hended =>
    congrArg (fun d => Dispatch.make u d .close)
      (joinEach_of_none (d := { d with queue := rest, finished := [] }) hended)
  refine ⟨⟨hclosed, isOpen_close hjoined.reachable.isSound⟩, fun heff => ?_, fun hnot => ?_⟩
  · by_cases hended : ∃ k ∈ d.finished, ∃ o, d.state.stages[k]? = some (.ended o)
    · refine .inl (lt_of_le_of_lt (effort_make_le hjoined.reachable hu .close) ?_)
      exact hjoining.joinEach_lt hu hended
    · obtain ⟨hall, -⟩ := heff.resolve_left hended
      rw [hidle hended]
      exact .inr (closed_make_close hall)
  · obtain ⟨hended, hall⟩ := not_or.mp hnot
    have hnone : d.state.move? u .close = none := by
      rw [move?_close, if_neg]
      intro hmay
      rw [Bool.and_eq_true, Bool.not_eq_true'] at hmay
      exact hall hmay
    rw [hidle hended, make_of_none (d := { d with queue := rest, finished := [] }) hnone]
    exact ⟨rfl, rfl, rfl, rfl, fun k hk ho => absurd ⟨k, hk, ho⟩ hended⟩

/-! ## The clock -/

/-- When nobody has a turn coming, somebody is asleep. -/
theorem Rested.exists_alarm (h : Rested u r scopes caller d₀ d) (hq : d.queue = [])
    (hclosed : d.state.closed = false) : ∃ a, a ∈ d.alarms := by
  have hnobody : ∀ x, x ∉ d.queue := by
    intro x hx
    rw [hq] at hx
    cases hx
  have hasleep : ∀ {i : Nat} {g : Stage Q A R}, d.state.stages[i]? = some g → g ≠ .waiting →
      g.isJoined = false → ∃ a, a ∈ d.alarms := by
    intro i g hi hwaits hjoined
    have hawaits := h.attended.awaits i g hi id
    cases g with
    | asking =>
        obtain ⟨a, ha, -⟩ := hawaits
        exact ⟨a, ha⟩
    | fresh | admitted => exact absurd hawaits (hnobody _)
    | ended => exact absurd hawaits.2 (hnobody _)
    | waiting => exact absurd rfl hwaits
    | joined => cases hjoined
    | entering | working | leaving => exact hawaits.elim
  rcases h.isOpen with hc | hrun | ⟨i, g, hi, hg⟩
  · rw [hclosed] at hc
    cases hc
  · exact absurd hrun (hnobody _)
  · by_cases hwaits : g = .waiting
    · -- a job in line waits for one that holds a permit, and that one is asleep
      subst hwaits
      obtain ⟨j, g', hj, hholds⟩ := h.reachable.exists_holder hi
      refine hasleep hj ?_ ?_
      · rintro rfl
        cases hholds
      · cases g' with
        | joined => cases hholds
        | _ => rfl
    · exact hasleep hi hwaits hg

theorem Rested.roused {ts : List Turn} (h : Rested u r scopes caller d₀ d) (hd : Roused d ts d')
    (hts : ∀ i, .job i ∈ ts → i < u.jobs.length) : Rested u r scopes caller d₀ d' := by
  have hattended := h.attended.roused hd hts
  cases hd with
  | intro hmem =>
      exact ⟨{ h.toProceeded with attended := hattended },
        h.isOpen.imp id (.imp (fun hrun => (hmem _).mpr (.inl hrun)) id)⟩

/-- An alarm has gone off, and the job that it was set for has a turn coming. -/
def Rings (d : Dispatch Q A R ω) : Prop := ∃ a ∈ d.alarms, a.time ≤ d.now ∧ .job a.job ∈ d.queue

theorem Rings.make (h : d.Rings) (m : Move Q A) : (d.make u m).Rings := by
  cases hm : d.state.move? u m with
  | none =>
      rw [make_of_none hm]
      exact h
  | some s =>
      obtain ⟨q, w, heq, hkeeps⟩ := exists_make hm
      obtain ⟨a, ha, htime, hqueued⟩ := h
      rw [heq]
      exact ⟨a, ha, htime, hkeeps _ hqueued⟩

/-- That job has something to do, since no other alarm is set for it. -/
theorem Attended.effective_of_rings (h : Attended u busy d) (hrings : d.Rings) :
    ∃ x ∈ d.queue, d.Effective x := by
  obtain ⟨a, ha, htime, hqueued⟩ := hrings
  obtain ⟨q, next, hasking⟩ := h.asleep a ha
  exact ⟨_, hqueued, _, hasking, a, h.find?_alarm ha, .inl htime⟩

/-- The caller may cancel. -/
theorem Rested.intervene {l : List (Nat × Intervention)} (h : Rested u r scopes caller d₀ d)
    (hu : u.Bounded r) (hstays : ∀ x ∈ l, x.2 = .cancelCaller) :
    Rested u r scopes caller d₀ (l.foldl (fun d x => d.intervene u x.2) d) ∧
      (d.Rings → (l.foldl (fun d x => d.intervene u x.2) d).Rings) := by
  induction l generalizing d with
  | nil => exact ⟨h, id⟩
  | cons x l ih =>
      have hcancel : Rested u r scopes caller d₀ (d.make u (.cancel d.caller)) :=
        ⟨h.toProceeded.make hu nofun (fun _ _ _ _ => nofun),
          h.isOpen.make h.reachable.isSound nofun⟩
      obtain ⟨hrested, hrings⟩ := ih hcancel fun y hy => hstays y (List.mem_cons_of_mem x hy)
      rw [List.foldl_cons, hstays x List.mem_cons_self]
      exact ⟨hrested, fun hr => hrings (hr.make _)⟩

/-- The clock goes on. -/
theorem Rested.passTo (h : Rested u r scopes caller d₀ d) (hu : u.Bounded r)
    (hstays : ∀ x ∈ d.interventions, x.2 = .cancelCaller) (time : Nat) :
    Rested u r scopes caller { d with
        now := time
        interventions := d.interventions.filter (time < ·.1) } (d.passTo u time) ∧
      ((∃ a ∈ d.alarms, a.time ≤ time) → (d.passTo u time).Rings) := by
  have hlater : Rested u r scopes caller { d with
        now := time
        interventions := d.interventions.filter (time < ·.1) } { d with
        now := time
        interventions := d.interventions.filter (time < ·.1) } :=
    ⟨{ h.toProceeded.restart with attended := { h.attended with }, interventions := rfl }, h.isOpen⟩
  have hroused := roused_foldl (fun a : Alarm => Turn.job a.job)
    (d.alarms.filter (·.time ≤ time)) { d with
      now := time
      interventions := d.interventions.filter (time < ·.1) }
  have hrung := hlater.roused hroused fun i hi => by
    obtain ⟨a, ha, heq⟩ := List.mem_map.mp hi
    obtain rfl := Turn.job.inj heq
    obtain ⟨q, next, hasking⟩ := h.attended.asleep a (List.mem_filter.mp ha).1
    rw [← h.reachable.isSound.length]
    exact State.lt_of_stage hasking
  obtain ⟨hrested, hrings⟩ := hrung.intervene hu
    (l := d.interventions.filter (·.1 ≤ time)) fun x hx => hstays x (List.mem_filter.mp hx).1
  refine ⟨hrested, fun ⟨a, ha, htime⟩ => hrings ?_⟩
  generalize List.foldl _ _ _ = d' at hroused
  cases hroused with
  | intro hmem =>
      refine ⟨a, ha, htime, (hmem _).mpr (.inr (List.mem_map.mpr ⟨a, ?_, rfl⟩))⟩
      exact List.mem_filter.mpr ⟨ha, decide_eq_true htime⟩

/-! ## The turns that are left -/

/-- How many moves can still be made, and how often the caller can still cancel. -/
noncomputable def remaining (u : Setup Q A R) (r : Nat → ℕ) (d : Dispatch Q A R ω) : ℕ :=
  d.state.effort u r + d.interventions.length

open Classical in
/-- A bound on the turns that pass before one of them.  If there is no move to be made in any turn
that is coming, they all pass, the clock goes on, and then it is the turn of somebody who wakes. -/
noncomputable def delay (u : Setup Q A R) (d : Dispatch Q A R ω) : ℕ :=
  if ∃ x ∈ d.queue, d.Effective x then d.queue.length
  else u.jobs.length + 2 + d.queue.length

/-- A bound on the turns that are left. -/
noncomputable def potential (u : Setup Q A R) (r : Nat → ℕ) (d : Dispatch Q A R ω) : ℕ :=
  d.remaining u r * (2 * u.jobs.length + 4) + d.delay u

/-- Nobody is in the queue twice. -/
theorem Attended.length_queue_le (h : Attended u busy d) : d.queue.length ≤ u.jobs.length + 1 := by
  rw [← List.toFinset_card_of_nodup h.nodup]
  have hsub : d.queue.toFinset ⊆ insert .run ((Finset.range u.jobs.length).image .job) := by
    intro x hx
    cases x with
    | run => exact Finset.mem_insert_self _ _
    | job i =>
        have hi := h.queued i (List.mem_toFinset.mp hx)
        exact Finset.mem_insert_of_mem (Finset.mem_image_of_mem _ (Finset.mem_range.mpr hi))
  calc d.queue.toFinset.card
      ≤ (insert .run ((Finset.range u.jobs.length).image Turn.job)).card := Finset.card_le_card hsub
    _ ≤ ((Finset.range u.jobs.length).image Turn.job).card + 1 := Finset.card_insert_le _ _
    _ ≤ u.jobs.length + 1 := by
        refine Nat.add_le_add_right ?_ 1
        exact Finset.card_image_le.trans (le_of_eq (Finset.card_range _))

theorem Attended.delay_le (h : Attended u busy d) : d.delay u ≤ 2 * u.jobs.length + 3 := by
  have hlen := h.length_queue_le
  unfold delay
  split <;> omega

theorem Attended.potential_lt (h : Attended u busy d') (hlt : d'.remaining u r < d.remaining u r) :
    d'.potential u r < d.potential u r := by
  have hdelay := h.delay_le
  calc d'.remaining u r * (2 * u.jobs.length + 4) + d'.delay u
      < d'.remaining u r * (2 * u.jobs.length + 4) + (2 * u.jobs.length + 4) := by omega
    _ = (d'.remaining u r + 1) * (2 * u.jobs.length + 4) := (Nat.add_one_mul _ _).symm
    _ ≤ d.remaining u r * (2 * u.jobs.length + 4) := Nat.mul_le_mul_right _ hlt
    _ ≤ d.potential u r := Nat.le_add_right _ _

/-- A turn that passes brings the others nearer. -/
theorem Passed.delay_lt {x : Turn} (h : Passed d d' rest) (hq : d.queue = x :: rest)
    (hnot : ¬ d.Effective x) : d'.delay u < d.delay u := by
  have hkept : (∃ y ∈ d.queue, d.Effective y) → ∃ y ∈ d'.queue, d'.Effective y := by
    rintro ⟨y, hy, heff⟩
    rw [hq] at hy
    rcases List.mem_cons.mp hy with rfl | hy
    · exact absurd heff hnot
    · exact ⟨y, h.queue ▸ hy, h.effective heff⟩
  have hlen : d'.queue.length < d.queue.length := by
    rw [h.queue, hq]
    exact Nat.lt_succ_self _
  unfold delay
  split_ifs with h₁ h₂
  · exact hlen
  · omega
  · exact absurd (hkept ‹_›) h₁
  · omega

/-- After a turn fewer are left, or the run has returned. -/
theorem Turned.potential_lt {x : Turn} (h : Turned u r scopes caller d x rest d')
    (hq : d.queue = x :: rest) : d'.state.closed = true ∨ d'.potential u r < d.potential u r := by
  by_cases heff : d.Effective x
  · rcases h.moved heff with hlt | hclosed
    · refine .inr (h.rested.attended.potential_lt ?_)
      rw [remaining, remaining, h.rested.interventions]
      omega
    · exact .inl hclosed
  · have hpassed := h.passed heff
    have hdelay := hpassed.delay_lt (u := u) hq heff
    have hsame : d'.remaining u r = d.remaining u r := by
      rw [remaining, remaining, hpassed.state, h.rested.interventions]
    refine .inr ?_
    rw [potential, potential, hsame]
    omega

/-- When the queue is empty the clock goes on, and then fewer turns are left. -/
theorem Rested.exists_nextTime (h : Rested u r scopes caller d₀ d) (hu : u.Bounded r)
    (hstays : ∀ x ∈ d.interventions, x.2 = .cancelCaller) (hq : d.queue = [])
    (hclosed : d.state.closed = false) :
    ∃ time, d.nextTime = some time ∧ (d.passTo u time).potential u r < d.potential u r := by
  obtain ⟨a, ha⟩ := h.exists_alarm hq hclosed
  obtain ⟨time, htime⟩ : ∃ time, d.nextTime = some time := by
    refine Option.ne_none_iff_exists'.mp fun hnone => ?_
    have hnil := List.min?_eq_none_iff.mp hnone
    rw [List.append_eq_nil_iff, List.map_eq_nil_iff] at hnil
    rw [hnil.1] at ha
    cases ha
  obtain ⟨hrested, hrings⟩ := h.passTo hu hstays time
  have hmem := (List.min?_eq_some_iff.mp htime).1
  have heffort : (d.passTo u time).state.effort u r ≤ d.state.effort u r := hrested.effort
  refine ⟨time, htime, ?_⟩
  rcases List.mem_append.mp hmem with halarm | hinter
  · obtain ⟨b, hb, rfl⟩ := List.mem_map.mp halarm
    have hsome := hrested.attended.effective_of_rings (hrings ⟨b, hb, le_refl _⟩)
    have hnone : ¬ ∃ x ∈ d.queue, d.Effective x := by
      rintro ⟨x, hx, -⟩
      rw [hq] at hx
      cases hx
    have hlen := hrested.attended.length_queue_le
    have hfewer : (d.passTo u b.time).interventions.length ≤ d.interventions.length := by
      rw [hrested.interventions]
      exact List.length_filter_le _ _
    have hremaining : (d.passTo u b.time).remaining u r ≤ d.remaining u r := by
      rw [remaining, remaining]
      omega
    rw [potential, potential, delay, if_pos hsome, delay, if_neg hnone]
    have hmul := Nat.mul_le_mul_right (2 * u.jobs.length + 4) hremaining
    omega
  · obtain ⟨x, hx, rfl⟩ := List.mem_map.mp hinter
    refine hrested.attended.potential_lt ?_
    have hfewer : (d.passTo u x.1).interventions.length < d.interventions.length := by
      rw [hrested.interventions]
      exact List.length_filter_lt_length_iff_exists.mpr ⟨x, hx, by simp⟩
    rw [remaining, remaining]
    omega

theorem proceed_of_closed {env : Environment Q A ω} {work fuel : Nat}
    (h : d.state.closed = true) : d.proceed u env work fuel = d := by
  cases fuel with
  | zero => rfl
  | succ fuel => rw [proceed, h, Bool.true_or, if_pos rfl]

/-- With fuel for all of them the run returns. -/
theorem Rested.closed_proceed {env : Environment Q A ω} {work fuel : Nat}
    (h : Rested u r scopes caller d₀ d) (hu : u.Bounded r)
    (hstays : ∀ x ∈ d.interventions, x.2 = .cancelCaller) (hdropped : d.dropped = false)
    (hwork : d.state.effort u r < work) (hfuel : d.potential u r < fuel) :
    (d.proceed u env work fuel).state.closed = true := by
  induction fuel generalizing d₀ d with
  | zero => exact absurd hfuel (Nat.not_lt_zero _)
  | succ fuel ih =>
      have hnext : ∀ {d₁ d' : Dispatch Q A R ω}, Rested u r scopes caller d₁ d' →
          d₁.state.effort u r = d.state.effort u r →
          (∀ x ∈ d₁.interventions, x ∈ d.interventions) → d₁.dropped = d.dropped →
          d'.state.closed = true ∨ d'.potential u r < d.potential u r →
          (d'.proceed u env work fuel).state.closed = true := by
        intro d₁ d' hrested heffort hfewer hsame hless
        rcases hless with hclosed | hless
        · rw [proceed_of_closed hclosed]
          exact hclosed
        · refine ih hrested (fun x hx => hstays x (hfewer x ?_)) ?_ ?_ (by omega)
          · rwa [← hrested.interventions]
          · rw [hrested.dropped, hsame, hdropped]
          · have hle := hrested.effort
            omega
      cases hclosed : d.state.closed with
      | true =>
          rw [proceed_of_closed hclosed]
          exact hclosed
      | false =>
          rw [proceed, if_neg (by rw [hclosed, hdropped]; nofun)]
          cases hq : d.queue with
          | cons x rest =>
              cases x with
              | job i =>
                  have hturned := h.turned_job env hu hq hwork
                  exact hnext hturned.rested rfl (fun _ hx => hx) rfl (hturned.potential_lt hq)
              | run =>
                  have hturned := h.turned_run hu hq
                  exact hnext hturned.rested rfl (fun _ hx => hx) rfl (hturned.potential_lt hq)
          | nil =>
              obtain ⟨time, htime, hless⟩ := h.exists_nextTime hu hstays hq hclosed
              simp only [htime]
              exact hnext (h.passTo hu hstays time).1 rfl (fun _ hx => (List.mem_filter.mp hx).1)
                rfl (.inr hless)

/-- At its beginning everybody has a turn coming. -/
theorem rested_opening (u : Setup Q A R) (r : Nat → ℕ) (world : ω) (scopes : Scopes) (caller : Nat)
    (interventions : List (Nat × Intervention)) :
    Rested u r scopes caller (opening (start u scopes caller) world caller interventions)
      (opening (start u scopes caller) world caller interventions) := by
  refine ⟨⟨.start, ⟨?_, fun i hi => ?_, nofun, nofun, List.nodup_nil, fun i g hi _ => ?_⟩,
    le_refl _, rfl, rfl⟩, .inr (.inl List.mem_cons_self)⟩
  · refine List.nodup_cons.mpr ⟨by simp, ?_⟩
    exact (List.nodup_range).map fun i j hij => Turn.job.inj hij
  · have hlength : (start u scopes caller).stages.length = u.jobs.length :=
      (sound_start u scopes caller).length
    simpa [opening, hlength] using hi
  · obtain rfl := stage_start hi
    exact List.mem_cons_of_mem _ (List.mem_map.mpr
      ⟨i, List.mem_range.mpr (State.lt_of_stage hi), rfl⟩)

end Dispatch

end Converge.Fleet
