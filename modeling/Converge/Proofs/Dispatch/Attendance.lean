import Mathlib.Data.List.Nodup
import Converge.Fleet.Dispatch
import Converge.Proofs.Fleet.Jobs

/-!
# Whoever can go on has a turn coming

Under dispatch a job that can go on is in the queue, and one that cannot has somebody to wake it:
the alarm of its sleep, the job whose permit it waits for, or a cancellation.  So nobody is
forgotten, and when the queue is empty it is time that has to pass.
-/

namespace Converge.Fleet

variable {Q : Type} {A : Q → Type} {R ω : Type} {u : Setup Q A R} {s t : State Q A R}
  {m : Move Q A}

/-! ## Moves of one job, and the others -/

/-- The job that a move is made by. -/
def Move.job? : Move Q A → Option Nat
  | look i | enter i | goOn i | reply i _ | crash i _ | leave i | join i => some i
  | disturb _ | cancel _ | close => none

/-- A move of one job leaves the others where they are, but for the head of the line, which may get
a permit. -/
theorem Moved.stage_other (h : Moved u s m t) (hs : s.Sound u) {j : Nat} {g : Stage Q A R}
    (hm : m.job? ≠ some j) (hj : s.stages[j]? = some g) :
    t.stages[j]? = some g ∨
      g = .waiting ∧ t.stages[j]? = some .admitted ∧ s.line.head? = some j := by
  have hset : ∀ {i : Nat} (k : Stage Q A R), some i ≠ some j →
      (s.setStage i k).stages[j]? = some g := fun k hij =>
    (State.stage_setStage_ne fun heq => hij (congrArg some heq)).trans hj
  cases h with
  | handOn hi | leave hi =>
      rw [State.stage_release (hset _ hm)]
      split
      · rename_i hhead
        have hwaits := (hs.inLine j).mp (List.mem_of_mem_head? hhead)
        exact .inr ⟨Option.some.inj (hj.symm.trans hwaits), rfl, hhead⟩
      · exact .inl rfl
  | join hi =>
      rw [State.stages_account]
      exact .inl (hset _ hm)
  | finish hi =>
      refine .inl ?_
      split <;> exact hset _ hm
  | disturb | cancel | close => exact .inl hj
  | _ => exact .inl (hset _ hm)

/-- Some job has not been joined. -/
def State.IsOpen (s : State Q A R) : Prop :=
  ∃ (i : Nat) (g : Stage Q A R), s.stages[i]? = some g ∧ g.isJoined = false

/-- A job is joined by the move for that only. -/
theorem Moved.isOpen (h : Moved u s m t) (hs : s.Sound u) (hm : ∀ i, m ≠ .join i)
    (hopen : s.IsOpen) : t.IsOpen := by
  obtain ⟨i, g, hi, hg⟩ := hopen
  rcases h.kept hs hi with ⟨hstays, -⟩ | ⟨g', ds, hstage, hdeeds, hgoes⟩
  · exact ⟨i, g, hstays, hg⟩
  · refine ⟨i, g', hstage, ?_⟩
    cases hgoes with
    | join => exact absurd (h.isDue hdeeds _ List.mem_cons_self).1 (hm i)
    | _ => rfl

namespace Dispatch

variable {d d' d'' : Dispatch Q A R ω}

/-! ## Queueing and waking -/

/-- Some more turns are in the queue, and nothing else has changed. -/
inductive Roused (d : Dispatch Q A R ω) (ts : List Turn) : Dispatch Q A R ω → Prop
  | intro {q : List Turn} (hmem : ∀ x, x ∈ q ↔ x ∈ d.queue ∨ x ∈ ts)
      (hnodup : d.queue.Nodup → q.Nodup) : Roused d ts { d with queue := q }

theorem roused_enqueue (d : Dispatch Q A R ω) (x : Turn) : Roused d [x] (d.enqueue x) := by
  rw [enqueue]
  split
  · rename_i hin
    refine .intro (q := d.queue) (fun y => ⟨.inl, fun hy => ?_⟩) id
    rcases hy with hy | hy
    · exact hy
    · rw [List.mem_singleton.mp hy]
      exact List.contains_iff_mem.mp hin
  · rename_i hnot
    refine .intro (fun y => List.mem_append) fun hd => ?_
    refine List.nodup_append.mpr ⟨hd, by simp, fun y hy z hz => ?_⟩
    rintro rfl
    rw [List.mem_singleton.mp hz] at hy
    exact hnot (List.contains_iff_mem.mpr hy)

theorem Roused.trans {ts ts' : List Turn} (h : Roused d ts d') (h' : Roused d' ts' d'') :
    Roused d (ts ++ ts') d'' := by
  cases h with
  | intro hmem hnodup =>
      cases h' with
      | intro hmem' hnodup' =>
          refine .intro (fun x => ?_) fun hd => hnodup' (hnodup hd)
          rw [hmem' x, List.mem_append, ← or_assoc]
          exact or_congr_left (hmem x)

theorem roused_foldl {α : Type} (f : α → Turn) (l : List α) (d : Dispatch Q A R ω) :
    Roused d (l.map f) (l.foldl (fun d x => d.enqueue (f x)) d) := by
  induction l generalizing d with
  | nil => exact .intro (q := d.queue) (by simp) id
  | cons x l ih => exact (roused_enqueue d (f x)).trans (ih _)

theorem roused_wakeAll (d : Dispatch Q A R ω) :
    Roused { d with watchers := [] } (d.watchers.map .job) d.wakeAll :=
  roused_foldl .job d.watchers { d with watchers := [] }

/-- The state has changed to `s`, and those whom that concerns have been woken: those who wait for a
cancellation, if it has come, and the head of the line, if it has got a permit. -/
inductive Made (d : Dispatch Q A R ω) (s : State Q A R) : Dispatch Q A R ω → Prop
  | intro {q : List Turn} {w : List Nat} (hkeeps : ∀ x ∈ d.queue, x ∈ q)
      (hnodup : d.queue.Nodup → q.Nodup)
      (hnew : ∀ x ∈ q, x ∈ d.queue ∨ (∃ i ∈ d.watchers, x = .job i) ∨
        ∃ j, d.state.line.head? = some j ∧ x = .job j)
      (hwatchers : ∀ i ∈ w, i ∈ d.watchers)
      (hwoken : d.state.isCancelled = false → ∀ i ∈ d.watchers, .job i ∈ q ∨
        i ∈ w ∧ s.isCancelled = false)
      (hhanded : ∀ j, d.state.line.head? = some j → (s.stages[j]?).any Stage.holdsPermit = true →
        .job j ∈ q) :
      Made d s { d with state := s, queue := q, watchers := w }

/-- What is left to do after the waking is to hand on a permit. -/
theorem made_of_woken {q : List Turn} {w : List Nat} (hkeeps : ∀ x ∈ d.queue, x ∈ q)
    (hnodup : d.queue.Nodup → q.Nodup)
    (hnew : ∀ x ∈ q, x ∈ d.queue ∨ ∃ i ∈ d.watchers, x = .job i)
    (hwatchers : ∀ i ∈ w, i ∈ d.watchers)
    (hwoken : d.state.isCancelled = false → ∀ i ∈ d.watchers, .job i ∈ q ∨
      i ∈ w ∧ s.isCancelled = false)
    (hd : d' = { d with state := s, queue := q, watchers := w }) :
    Made d s (match d.state.line with
      | [] => d'
      | j :: _ => if d'.isAt j Stage.holdsPermit then d'.enqueue (.job j) else d') := by
  subst hd
  have hsame : (∀ j, d.state.line.head? = some j →
      (s.stages[j]?).any Stage.holdsPermit = false) →
      Made d s { d with state := s, queue := q, watchers := w } := by
    intro hnone
    refine .intro hkeeps hnodup (fun x hx => ?_) hwatchers hwoken fun j hj hholds => ?_
    · exact (hnew x hx).imp id .inl
    · rw [hnone j hj] at hholds
      cases hholds
  split
  · rename_i hline
    exact hsame fun j hj => by rw [hline] at hj; cases hj
  · rename_i j rest hline
    have hhead : d.state.line.head? = some j := by rw [hline, List.head?_cons]
    split
    · have hroused := roused_enqueue { d with state := s, queue := q, watchers := w } (.job j)
      generalize enqueue _ _ = d' at hroused
      cases hroused with
      | @intro q' hmem hnodup' =>
          refine .intro (fun x hx => (hmem x).mpr (.inl (hkeeps x hx)))
            (fun hd => hnodup' (hnodup hd)) (fun x hx => ?_) hwatchers (fun hb i hi => ?_)
            fun k hk _ => ?_
          · rcases (hmem x).mp hx with hx | hx
            · exact (hnew x hx).imp id .inl
            · exact .inr (.inr ⟨j, hhead, List.mem_singleton.mp hx⟩)
          · exact (hwoken hb i hi).imp (fun hi => (hmem _).mpr (.inl hi)) id
          · obtain rfl := Option.some.inj (hhead.symm.trans hk)
            exact (hmem _).mpr (.inr (List.mem_singleton.mpr rfl))
    · rename_i hnot
      refine hsame fun k hk => ?_
      obtain rfl := Option.some.inj (hhead.symm.trans hk)
      exact Bool.eq_false_iff.mpr hnot

theorem made_make (hm : d.state.move? u m = some s) : Made d s (d.make u m) := by
  simp only [make, hm]
  by_cases hraised : (!d.state.isCancelled && s.isCancelled) = true
  · rw [if_pos hraised]
    have hroused := roused_wakeAll { d with state := s }
    generalize wakeAll { d with state := s } = d' at hroused ⊢
    cases hroused with
    | intro hmem hnodup =>
        refine made_of_woken (fun x hx => (hmem x).mpr (.inl hx)) hnodup (fun x hx => ?_)
          (by simp) (fun _ i hi => ?_) rfl
        · refine ((hmem x).mp hx).imp id fun hx => ?_
          obtain ⟨i, hi, rfl⟩ := List.mem_map.mp hx
          exact ⟨i, hi, rfl⟩
        · exact .inl ((hmem _).mpr (.inr (List.mem_map.mpr ⟨i, hi, rfl⟩)))
  · rw [if_neg hraised]
    refine made_of_woken (q := d.queue) (w := d.watchers) (fun _ hx => hx) id (fun _ hx => .inl hx)
      (fun _ hi => hi) (fun hb i hi => .inr ⟨hi, ?_⟩) rfl
    cases hs : s.isCancelled with
    | false => rfl
    | true => exact absurd (by rw [hb, hs]; rfl) hraised

/-! ## Everybody is attended to -/

/-- Job `i` at this stage has a turn coming, or there is somebody to wake it. -/
def Awaits (d : Dispatch Q A R ω) (i : Nat) : Stage Q A R → Prop
  | .fresh | .admitted => .job i ∈ d.queue
  | .waiting => .job i ∈ d.queue ∨ i ∈ d.watchers ∧ d.state.isCancelled = false
  | .asking _ _ => ∃ a ∈ d.alarms, a.job = i
  | .ended _ => i ∈ d.finished ∧ .run ∈ d.queue
  | .joined _ => True
  | .entering | .working _ | .leaving _ => False

/-- A job stays attended to as long as it keeps its turn, its place among the watchers, its alarm
and, once it has ended, the coming turn of the run. -/
theorem Awaits.mono {i : Nat} {g : Stage Q A R} (h : d.Awaits i g) (hstate : d'.state = d.state)
    (hqueue : .job i ∈ d.queue → .job i ∈ d'.queue) (hwatchers : i ∈ d.watchers → i ∈ d'.watchers)
    (halarms : ∀ a ∈ d.alarms, a.job = i → a ∈ d'.alarms)
    (hended : ∀ o, g = .ended o → i ∈ d.finished ∧ .run ∈ d.queue →
      i ∈ d'.finished ∧ .run ∈ d'.queue) : d'.Awaits i g := by
  cases g with
  | fresh | admitted => exact hqueue h
  | waiting =>
      rcases h with hin | ⟨hwatch, hb⟩
      · exact .inl (hqueue hin)
      · exact .inr ⟨hwatchers hwatch, by rw [hstate, hb]⟩
  | asking =>
      obtain ⟨a, ha, hjob⟩ := h
      exact ⟨a, halarms a ha hjob, hjob⟩
  | ended o => exact hended o rfl h
  | joined => trivial
  | entering | working | leaving => exact h

/-- All jobs are attended to but those that are `busy`, and whoever is in a list belongs there. -/
structure Attended (u : Setup Q A R) (busy : Nat → Stage Q A R → Prop) (d : Dispatch Q A R ω) :
    Prop where
  nodup : d.queue.Nodup
  queued : ∀ i, .job i ∈ d.queue → i < u.jobs.length
  watched : ∀ i ∈ d.watchers, i < u.jobs.length
  asleep : ∀ a ∈ d.alarms, ∃ q next, d.state.stages[a.job]? = some (.asking q next)
  distinct : (d.alarms.map Alarm.job).Nodup
  awaits : ∀ i g, d.state.stages[i]? = some g → ¬ busy i g → d.Awaits i g

variable {busy busy' : Nat → Stage Q A R → Prop}

/-- No other alarm is set for the same job. -/
theorem Attended.find?_alarm (h : Attended u busy d) {a : Alarm} (ha : a ∈ d.alarms) :
    d.alarms.find? (·.job = a.job) = some a := by
  obtain ⟨b, hb⟩ : ∃ b, d.alarms.find? (·.job = a.job) = some b := by
    refine Option.ne_none_iff_exists'.mp fun hnone => ?_
    exact List.find?_eq_none.mp hnone a ha (decide_eq_true rfl)
  have hjob := List.find?_some hb
  obtain rfl : b = a := List.inj_on_of_nodup_map h.distinct (List.mem_of_find?_eq_some hb) ha
    (of_decide_eq_true hjob)
  exact hb

/-- Whoever has a turn coming, or somebody to wake him, need not be busy. -/
theorem Attended.narrow (h : Attended u busy d)
    (hbusy : ∀ k g, d.state.stages[k]? = some g → busy k g → busy' k g ∨ d.Awaits k g) :
    Attended u busy' d where
  nodup := h.nodup
  queued := h.queued
  watched := h.watched
  asleep := h.asleep
  distinct := h.distinct
  awaits k g hk hnot := by
    by_cases hb : busy k g
    · exact (hbusy k g hk hb).resolve_left hnot
    · exact h.awaits k g hk hb

/-! ## The lists change -/

theorem mem_rest {x y : Turn} {rest : List Turn} (hq : d.queue = y :: rest) (hne : x ≠ y)
    (hx : x ∈ d.queue) : x ∈ rest := by
  rw [hq] at hx
  exact (List.mem_cons.mp hx).resolve_left hne

theorem Attended.roused {ts : List Turn} (h : Attended u busy d) (hd : Roused d ts d')
    (hts : ∀ i, .job i ∈ ts → i < u.jobs.length) : Attended u busy d' := by
  cases hd with
  | intro hmem hnodup =>
      exact {
        nodup := hnodup h.nodup
        queued := fun k hk => ((hmem _).mp hk).elim (h.queued k) (hts k)
        watched := h.watched
        asleep := h.asleep
        distinct := h.distinct
        awaits := fun k g hk hnot =>
          (h.awaits k g hk hnot).mono rfl (fun hx => (hmem _).mpr (.inl hx)) id (fun _ ha _ => ha)
            fun _ _ hf => ⟨hf.1, (hmem _).mpr (.inl hf.2)⟩ }

/-- The turn at the head of the queue is that of job `i`, and so nobody else waits for it. -/
theorem Attended.pop {i : Nat} {rest : List Turn} (h : Attended u (fun _ _ => False) d)
    (hq : d.queue = .job i :: rest) :
    Attended u (fun k _ => k = i) { d with queue := rest } where
  nodup := (List.nodup_cons.mp (hq ▸ h.nodup)).2
  queued k hk := h.queued k (hq ▸ List.mem_cons_of_mem _ hk)
  watched := h.watched
  asleep := h.asleep
  distinct := h.distinct
  awaits k g hk hne :=
    (h.awaits k g hk id).mono rfl (mem_rest hq fun heq => hne (Turn.job.inj heq)) id
      (fun _ ha _ => ha) fun _ _ hf => ⟨hf.1, mem_rest hq (by simp) hf.2⟩

/-- A busy job has no need of the alarm that was set for it, nor of being woken. -/
theorem Attended.hush {i : Nat} (h : Attended u (fun k _ => k = i) d) :
    Attended u (fun k _ => k = i) { d with
      alarms := d.alarms.filter (·.job ≠ i)
      watchers := d.watchers.filter (· ≠ i) } where
  nodup := h.nodup
  queued := h.queued
  watched k hk := h.watched k (List.mem_filter.mp hk).1
  asleep a ha := h.asleep a (List.mem_filter.mp ha).1
  distinct := h.distinct.sublist (List.filter_sublist.map _)
  awaits k g hk hne := by
    refine (h.awaits k g hk hne).mono rfl id (fun hw => ?_) (fun a ha hjob => ?_) fun _ _ hf => hf
    · exact List.mem_filter.mpr ⟨hw, decide_eq_true hne⟩
    · exact List.mem_filter.mpr ⟨ha, decide_eq_true (hjob ▸ hne)⟩

/-- A busy job is to be woken by a cancellation. -/
theorem Attended.watch {i : Nat} (h : Attended u (fun k _ => k = i) d) (hi : i < u.jobs.length) :
    Attended u (fun k _ => k = i) { d with watchers := d.watchers ++ [i] } where
  nodup := h.nodup
  queued := h.queued
  watched k hk := by
    rcases List.mem_append.mp hk with hk | hk
    · exact h.watched k hk
    · exact (List.mem_singleton.mp hk) ▸ hi
  asleep := h.asleep
  distinct := h.distinct
  awaits k g hk hne :=
    (h.awaits k g hk hne).mono rfl id (fun hw => List.mem_append_left _ hw) (fun _ ha _ => ha)
      fun _ _ hf => hf

/-- An alarm is set for a busy job, which then is not busy any more. -/
theorem Attended.sleep {i : Nat} {q : Q} {next : A q → Course Q A R (Except Fault Tally)}
    (h : Attended u (fun k _ => k = i) d) (hidle : ∀ a ∈ d.alarms, a.job ≠ i)
    (hi : d.state.stages[i]? = some (.asking q next)) (time : Nat) (interruptible : Bool) :
    Attended u (fun _ _ => False) { d with alarms := d.alarms ++ [⟨time, i, interruptible⟩] } where
  nodup := h.nodup
  queued := h.queued
  watched := h.watched
  asleep a ha := by
    rcases List.mem_append.mp ha with ha | ha
    · exact h.asleep a ha
    · rw [List.mem_singleton.mp ha]
      exact ⟨q, next, hi⟩
  distinct := by
    rw [List.map_append, List.nodup_append]
    refine ⟨h.distinct, by simp, fun j hj k hk => ?_⟩
    obtain ⟨a, ha, rfl⟩ := List.mem_map.mp hj
    rw [List.mem_singleton.mp hk]
    exact hidle a ha
  awaits k g hk _ := by
    by_cases hki : k = i
    · subst hki
      obtain rfl := Option.some.inj (hi.symm.trans hk)
      exact ⟨_, List.mem_append_right _ (List.mem_singleton.mpr rfl), rfl⟩
    · exact (h.awaits k g hk hki).mono rfl id id (fun a ha _ => List.mem_append_left _ ha)
        fun _ _ hf => hf

/-- The end of a job is taken down, and the run has a turn coming. -/
theorem exists_noteEnd {i : Nat} (hend : d.isAt i Stage.isEnded = true) :
    ∃ q, d.noteEnd i = { d with
        queue := q
        finished := d.finished ++ [i]
        watchers := d.watchers.filter (· ≠ i) } ∧
      (∀ x, x ∈ q ↔ x ∈ d.queue ∨ x = .run) ∧ (d.queue.Nodup → q.Nodup) := by
  rw [noteEnd, if_pos hend]
  have hroused := roused_enqueue { d with
    finished := d.finished ++ [i], watchers := d.watchers.filter (· ≠ i) } .run
  generalize enqueue _ _ = d' at hroused ⊢
  cases hroused with
  | intro hmem hnodup => exact ⟨_, rfl, fun x => by rw [hmem x, List.mem_singleton], hnodup⟩

theorem Attended.noteEnd {i : Nat} (h : Attended u (fun k _ => k = i) d) :
    Attended u (fun k _ => k = i) (d.noteEnd i) := by
  by_cases hend : d.isAt i Stage.isEnded = true
  · obtain ⟨q, heq, hmem, hnodup⟩ := exists_noteEnd hend
    have hold : ∀ x ∈ d.queue, x ∈ q := fun x hx => (hmem x).mpr (.inl hx)
    rw [heq]
    exact {
      nodup := hnodup h.nodup
      queued := fun k hk => h.queued k (((hmem _).mp hk).resolve_right (by simp))
      watched := fun k hk => h.watched k (List.mem_filter.mp hk).1
      asleep := h.asleep
      distinct := h.distinct
      awaits := fun k g hk hne =>
        (h.awaits k g hk hne).mono rfl (hold _)
          (fun hw => List.mem_filter.mpr ⟨hw, decide_eq_true hne⟩) (fun _ ha _ => ha)
          fun _ _ hf => ⟨List.mem_append_left _ hf.1, hold _ hf.2⟩ }
  · rw [Dispatch.noteEnd, if_neg hend]
    exact h

/-! ## The state changes -/

/-- A move keeps everybody attended to but the job that makes it. -/
theorem Attended.make (h : Attended u busy d) (hs : d.state.Sound u)
    (hm : d.state.move? u m = some s)
    (hbusy : ∀ i g, m.job? = some i → s.stages[i]? = some g → busy i g ∨ g.isJoined = true)
    (hidle : ∀ a ∈ d.alarms, m.job? ≠ some a.job) : Attended u busy (d.make u m) := by
  have hmoved := moved_of_move? hm
  have hmade : Made d s (d.make u m) := made_make hm
  generalize d.make u m = d' at hmade
  cases hmade with
  | @intro q w hkeeps hnodup hnew hwatchers hwoken hhanded =>
      refine ⟨hnodup h.nodup, fun i hi => ?_, fun i hi => h.watched i (hwatchers i hi),
        fun a ha => ?_, h.distinct, fun i g hi hnot => ?_⟩
      · rcases hnew _ hi with hold | ⟨k, hk, heq⟩ | ⟨k, hk, heq⟩
        · exact h.queued i hold
        · obtain rfl := Turn.job.inj heq
          exact h.watched i hk
        · obtain rfl := Turn.job.inj heq
          rw [← hs.length]
          exact State.lt_of_stage ((hs.inLine i).mp (List.mem_of_mem_head? hk))
      · obtain ⟨q', next, hasking⟩ := h.asleep a ha
        rcases hmoved.stage_other hs (hidle a ha) hasking with hstays | ⟨heq, -⟩
        · exact ⟨q', next, hstays⟩
        · cases heq
      · by_cases hjob : m.job? = some i
        · have hjoined := (hbusy i g hjob hi).resolve_left hnot
          cases g with
          | joined o => trivial
          | _ => cases hjoined
        · obtain ⟨g₀, hg₀, -⟩ := hmoved.came hs hi
          rcases hmoved.stage_other hs hjob hg₀ with hstays | ⟨rfl, hadmitted, hhead⟩
          · obtain rfl := Option.some.inj (hi.symm.trans hstays)
            have hawaits := h.awaits i g hg₀ hnot
            cases g with
            | fresh | admitted => exact hkeeps _ hawaits
            | waiting =>
                rcases hawaits with hin | ⟨hwatch, hb⟩
                · exact .inl (hkeeps _ hin)
                · exact hwoken hb i hwatch
            | asking => exact hawaits
            | ended => exact ⟨hawaits.1, hkeeps _ hawaits.2⟩
            | joined => trivial
            | entering | working | leaving => exact hawaits
          · obtain rfl := Option.some.inj (hi.symm.trans hadmitted)
            exact hhanded i hhead (by rw [hadmitted]; rfl)

end Dispatch

end Converge.Fleet
