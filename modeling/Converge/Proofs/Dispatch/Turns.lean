import Converge.Proofs.Dispatch.Attendance
import Converge.Proofs.Fleet.Effort

/-!
# The turn of a job

A job that has its turn runs until it has to wait for something, or to its end.  Then everybody is
attended to again, the job as well, and unless the turn has passed idly fewer moves are left.
-/

namespace Converge.Fleet

variable {Q : Type} {A : Q → Type} {R ω : Type} {u : Setup Q A R} {s : State Q A R}
  {m : Move Q A} {r : Nat → ℕ} {scopes : Scopes} {caller i : Nat} {d₀ d d' : Dispatch Q A R ω}

namespace Dispatch

theorem make_of_none (hm : d.state.move? u m = none) : d.make u m = d := by
  rw [make, hm]

/-- What a move changes apart from the state are the queue, which can only grow, and the
watchers. -/
theorem exists_make (hm : d.state.move? u m = some s) :
    ∃ q w, d.make u m = { d with state := s, queue := q, watchers := w } ∧
      ∀ x ∈ d.queue, x ∈ q := by
  have hmade : Made d s (d.make u m) := made_make hm
  generalize d.make u m = d' at hmade
  cases hmade with
  | intro hkeeps => exact ⟨_, _, rfl, hkeeps⟩

theorem state_make (hm : d.state.move? u m = some s) : (d.make u m).state = s := by
  obtain ⟨q, w, heq, -⟩ := exists_make hm
  rw [heq]

theorem alarms_make (d : Dispatch Q A R ω) (m : Move Q A) : (d.make u m).alarms = d.alarms := by
  cases hm : d.state.move? u m with
  | none => rw [make_of_none hm]
  | some s =>
      obtain ⟨q, w, heq, -⟩ := exists_make hm
      rw [heq]

/-- The run has returned, or has a turn coming, or some job has not been joined. -/
def IsOpen (d : Dispatch Q A R ω) : Prop :=
  d.state.closed = true ∨ .run ∈ d.queue ∨ d.state.IsOpen

/-- The run has come from `d₀` to `d`, where all jobs are attended to but those that are `busy`. -/
structure Proceeded (u : Setup Q A R) (r : Nat → ℕ) (scopes : Scopes) (caller : Nat)
    (busy : Nat → Stage Q A R → Prop) (d₀ d : Dispatch Q A R ω) : Prop where
  reachable : Reachable u (start u scopes caller) d.state
  attended : Attended u busy d
  effort : d.state.effort u r ≤ d₀.state.effort u r
  interventions : d.interventions = d₀.interventions
  dropped : d.dropped = d₀.dropped

/-- Another move. -/
theorem Proceeded.make {busy : Nat → Stage Q A R → Prop}
    (h : Proceeded u r scopes caller busy d₀ d) (hu : u.Bounded r)
    (hbusy : ∀ s k g, d.state.move? u m = some s → m.job? = some k → s.stages[k]? = some g →
      busy k g ∨ g.isJoined = true)
    (hidle : ∀ s, d.state.move? u m = some s → ∀ a ∈ d.alarms, m.job? ≠ some a.job) :
    Proceeded u r scopes caller busy d₀ (d.make u m) := by
  cases hmove : d.state.move? u m with
  | none =>
      rw [make_of_none hmove]
      exact h
  | some s =>
      have hattended := h.attended.make h.reachable.isSound hmove (fun k g => hbusy s k g hmove)
        (hidle s hmove)
      obtain ⟨q, w, heq, -⟩ := exists_make hmove
      rw [heq] at hattended ⊢
      exact ⟨h.reachable.move m hmove, hattended, (h.reachable.effort_le hu hmove).trans h.effort,
        h.interventions, h.dropped⟩

/-- From here on by itself. -/
theorem Proceeded.restart {busy : Nat → Stage Q A R → Prop}
    (h : Proceeded u r scopes caller busy d₀ d) : Proceeded u r scopes caller busy d d :=
  ⟨h.reachable, h.attended, le_refl _, rfl, rfl⟩

theorem IsOpen.make (h : d.IsOpen) (hs : d.state.Sound u) (hjoin : ∀ k, m ≠ .join k) :
    (d.make u m).IsOpen := by
  cases hmove : d.state.move? u m with
  | none =>
      rw [make_of_none hmove]
      exact h
  | some s =>
      have hmoved := moved_of_move? hmove
      obtain ⟨q, w, heq, hkeeps⟩ := exists_make hmove
      rw [heq]
      rcases h with hclosed | hrun | hopen
      · exact .inl (hmoved.closed_mono hclosed)
      · exact .inr (.inl (hkeeps _ hrun))
      · exact .inr (.inr (hmoved.isOpen hs hjoin hopen))

/-! ## The turn of a job -/

/-- In its turn, which began with `d₀`, job `i` has come to `d`: everybody else is attended to, and
no alarm is set for it. -/
structure InTurn (u : Setup Q A R) (r : Nat → ℕ) (scopes : Scopes) (caller i : Nat)
    (d₀ d : Dispatch Q A R ω) : Prop extends
    Proceeded u r scopes caller (fun k _ => k = i) d₀ d where
  idle : ∀ a ∈ d.alarms, a.job ≠ i
  isOpen : d.IsOpen

/-- After a turn, which began with `d₀`, everybody is attended to. -/
structure Rested (u : Setup Q A R) (r : Nat → ℕ) (scopes : Scopes) (caller : Nat)
    (d₀ d : Dispatch Q A R ω) : Prop extends
    Proceeded u r scopes caller (fun _ _ => False) d₀ d where
  isOpen : d.IsOpen

namespace InTurn

/-- Another move of the job. -/
theorem make (h : InTurn u r scopes caller i d₀ d) (hu : u.Bounded r)
    (hm : m.job? = some i ∨ m.job? = none) (hjoin : ∀ k, m ≠ .join k) :
    InTurn u r scopes caller i d₀ (d.make u m) := by
  have hself : ∀ k, m.job? = some k → k = i := by
    intro k hk
    rcases hm with hm | hm
    · exact Option.some.inj (hk.symm.trans hm)
    · cases hm.symm.trans hk
  refine ⟨h.toProceeded.make hu (fun _ k _ _ hk _ => .inl (hself k hk)) fun _ _ a ha hk => ?_,
    fun a ha => ?_, h.isOpen.make h.reachable.isSound hjoin⟩
  · exact h.idle a ha (hself _ hk)
  · rw [alarms_make] at ha
    exact h.idle a ha

/-- What goes on in the world is nothing to the others. -/
theorem world (h : InTurn u r scopes caller i d₀ d) (w : ω) :
    InTurn u r scopes caller i d₀ { d with world := w } :=
  ⟨{ h.toProceeded with attended := { h.attended with } }, h.idle, h.isOpen⟩

/-- The job has ended, and that has been taken down. -/
theorem noteEnd (h : InTurn u r scopes caller i d₀ d) :
    InTurn u r scopes caller i d₀ (d.noteEnd i) := by
  have hattended := h.attended.noteEnd
  by_cases hend : d.isAt i Stage.isEnded = true
  · obtain ⟨q, heq, hmem, -⟩ := exists_noteEnd hend
    rw [heq] at hattended ⊢
    exact ⟨{ h.toProceeded with attended := hattended }, h.idle,
      h.isOpen.imp id (.imp (fun hrun => (hmem _).mpr (.inl hrun)) id)⟩
  · rw [Dispatch.noteEnd, if_neg hend]
    exact h

theorem lt (h : InTurn u r scopes caller i d₀ d) {g : Stage Q A R}
    (hi : d.state.stages[i]? = some g) : i < u.jobs.length := by
  rw [← h.reachable.isSound.length]
  exact State.lt_of_stage hi

/-- The rest of the turn, by itself. -/
theorem restart (h : InTurn u r scopes caller i d₀ d) : InTurn u r scopes caller i d d :=
  ⟨h.toProceeded.restart, h.idle, h.isOpen⟩

/-- The job is to be woken by a cancellation. -/
theorem watch (h : InTurn u r scopes caller i d₀ d) {g : Stage Q A R}
    (hi : d.state.stages[i]? = some g) :
    InTurn u r scopes caller i d₀ { d with watchers := d.watchers ++ [i] } :=
  ⟨{ h.toProceeded with attended := h.attended.watch (h.lt hi) }, h.idle, h.isOpen⟩

/-- The job falls asleep. -/
theorem sleep (h : InTurn u r scopes caller i d₀ d) {q : Q}
    {next : A q → Course Q A R (Except Fault Tally)}
    (hi : d.state.stages[i]? = some (.asking q next)) (time : Nat) (interruptible : Bool) :
    Rested u r scopes caller d₀ { d with
      alarms := d.alarms ++ [⟨time, i, interruptible⟩]
      watchers := if interruptible then d.watchers ++ [i] else d.watchers } := by
  cases interruptible with
  | true =>
      have hwatched := h.watch hi
      exact ⟨{ hwatched.toProceeded with
        attended := hwatched.attended.sleep h.idle hi time true }, h.isOpen⟩
  | false =>
      exact ⟨{ h.toProceeded with attended := h.attended.sleep h.idle hi time false }, h.isOpen⟩

/-- The job waits for something, or there is nothing left for it to do. -/
theorem rest (h : InTurn u r scopes caller i d₀ d)
    (hself : ∀ g, d.state.stages[i]? = some g → d.Awaits i g) : Rested u r scopes caller d₀ d := by
  refine ⟨{ h.toProceeded with attended := h.attended.narrow ?_ }, h.isOpen⟩
  rintro k g hk rfl
  exact .inr (hself g hk)

end InTurn

/-! ## A job that runs -/

theorem effort_make_le (h : Reachable u (start u scopes caller) d.state) (hu : u.Bounded r)
    (m : Move Q A) : (d.make u m).state.effort u r ≤ d.state.effort u r := by
  cases hm : d.state.move? u m with
  | none => rw [make_of_none hm]
  | some s =>
      rw [state_make hm]
      exact h.effort_le hu hm

theorem effort_make_lt (h : Reachable u (start u scopes caller) d.state) (hu : u.Bounded r)
    (hm : d.state.move? u m = some s) (hin : m.isOutside = false) (hclose : m ≠ .close) :
    (d.make u m).state.effort u r < d.state.effort u r := by
  rw [state_make hm]
  exact h.effort_lt hu hm hin hclose

/-- A disturbance is nothing to the stages. -/
theorem stages_disturb (d : Dispatch Q A R ω) (i : Nat) :
    (d.make u (.disturb i)).state.stages = d.state.stages := by
  cases hm : d.state.move? u (.disturb i) with
  | none => rw [make_of_none hm]
  | some s =>
      rw [state_make hm]
      cases moved_of_move? hm
      rfl

theorem state_noteEnd (d : Dispatch Q A R ω) (i : Nat) : (d.noteEnd i).state = d.state := by
  by_cases hend : d.isAt i Stage.isEnded = true
  · obtain ⟨q, heq, -⟩ := exists_noteEnd hend
    rw [heq]
  · rw [Dispatch.noteEnd, if_neg hend]

/-- A job that has ended is to be joined in the next turn of the run. -/
theorem awaits_noteEnd {o : Outcome} (hi : d.state.stages[i]? = some (.ended o)) {g : Stage Q A R}
    (hg : (d.noteEnd i).state.stages[i]? = some g) : (d.noteEnd i).Awaits i g := by
  rw [state_noteEnd] at hg
  obtain rfl := Option.some.inj (hi.symm.trans hg)
  have hend : d.isAt i Stage.isEnded = true := by
    rw [isAt, hi]
    rfl
  obtain ⟨q, heq, hmem, -⟩ := exists_noteEnd hend
  rw [heq]
  exact ⟨List.mem_append_right _ (List.mem_singleton.mpr rfl), (hmem _).mpr (.inr rfl)⟩

end Dispatch

/-- Does a job at this stage go on of itself? -/
def Stage.isUnderWay : Stage Q A R → Bool
  | working _ | asking _ _ | leaving _ => true
  | _ => false

/-- A job at work that goes on is still under way. -/
theorem State.stage_goOn {s : State Q A R} {c : Course Q A R (Except Fault Tally)}
    (hi : s.stages[i]? = some (.working c)) :
    ∃ g, (s.goOn i c).stages[i]? = some g ∧ g.isUnderWay = true := by
  cases c with
  | done r =>
      refine ⟨.leaving (.returned r), ?_, rfl⟩
      simp only [State.goOn]
      split <;> exact State.stage_setStage_self hi
  | ask q next => exact ⟨_, State.stage_setStage_self hi, rfl⟩
  | look next => exact ⟨_, State.stage_setStage_self hi, rfl⟩
  | leave mk next => exact ⟨_, State.stage_setStage_self hi, rfl⟩

theorem State.move?_reply {s : State Q A R} {q : Q}
    {next : A q → Course Q A R (Except Fault Tally)}
    (hi : s.stages[i]? = some (.asking q next)) (answer : (q : Q) → A q) :
    s.move? u (.reply i answer) =
      some ((s.setStage i (.working (next (answer q)))).record
        (.step i (.answered q (answer q)))) := by
  rw [State.move?, hi]

namespace Dispatch

/-- A job that runs gets to where it has to wait, or to its end. -/
theorem InTurn.drive {env : Environment Q A ω} {fuel : Nat} (h : InTurn u r scopes caller i d₀ d)
    (hu : u.Bounded r)
    (hself : ∀ g, d.state.stages[i]? = some g → g.isUnderWay = true ∨ d.Awaits i g)
    (hfuel : d.state.effort u r < fuel) : Rested u r scopes caller d₀ (d.drive u env i fuel) := by
  induction fuel generalizing d with
  | zero => exact absurd hfuel (Nat.not_lt_zero _)
  | succ fuel ih =>
      -- after a move of its own the job is under way, and there are fewer moves left
      have hmove : ∀ {d' : Dispatch Q A R ω} {m : Move Q A} {s : State Q A R} {g : Stage Q A R},
          InTurn u r scopes caller i d₀ d' → d'.state.effort u r ≤ d.state.effort u r →
          m.job? = some i → (∀ k, m ≠ .join k) → m.isOutside = false → m ≠ .close →
          d'.state.move? u m = some s → s.stages[i]? = some g → g.isUnderWay = true →
          Rested u r scopes caller d₀ ((d'.make u m).drive u env i fuel) := by
        intro d' m s g h' hle hjob hjoin hin hclose hm hg hway
        refine ih (h'.make hu (.inl hjob) hjoin) (fun g' hg' => .inl ?_) ?_
        · rw [state_make hm] at hg'
          obtain rfl := Option.some.inj (hg.symm.trans hg')
          exact hway
        · have hlt := effort_make_lt h'.reachable hu hm hin hclose
          omega
      unfold Dispatch.drive
      split
      · rename_i c hi
        obtain ⟨g, hg, hway⟩ := State.stage_goOn hi
        exact hmove h (le_refl _) rfl (by simp) rfl (by simp) (by rw [State.move?, hi]) hg hway
      · rename_i q next hi
        have hanswer : ∀ {d' : Dispatch Q A R ω} (answer : (q : Q) → A q),
            d'.state.stages[i]? = some (.asking q next) → InTurn u r scopes caller i d₀ d' →
            d'.state.effort u r ≤ d.state.effort u r →
            Rested u r scopes caller d₀ ((d'.make u (.reply i answer)).drive u env i fuel) := by
          intro d' answer hi' h' hle
          exact hmove h' hle rfl (by simp) rfl (by simp) (State.move?_reply hi' answer)
            (State.stage_setStage_self hi') rfl
        split
        · rename_i a cancels w _
          have hworld := h.world w
          split
          · refine hanswer _ ?_ (hworld.make (m := .disturb i) hu (.inr rfl) (by simp))
              (effort_make_le hworld.reachable hu _)
            rw [stages_disturb]
            exact hi
          · exact hanswer _ hi hworld (le_refl _)
        · rename_i millis interruptible w _
          simp only
          split
          · exact hanswer env.interrupted hi (h.world w) (le_refl _)
          · exact (h.world w).sleep hi _ _
        · rename_i how w _
          have hm : d.state.move? u (.crash i how) =
              some (d.state.setStage i (.leaving (.crashed (u.task i) how))) := by rw [State.move?, hi]
          exact hmove (h.world w) (le_refl _) rfl (by simp) rfl (by simp) hm
            (State.stage_setStage_self hi) rfl
      · rename_i o hi
        have hm : d.state.move? u (.leave i) =
            some ((d.state.setStage i (.ended o)).release i) := by rw [State.move?, hi]
        have hended : (d.make u (.leave i)).state.stages[i]? = some (.ended o) := by
          rw [state_make hm]
          exact State.stage_giveBack h.reachable.isSound hi (by simp)
        have hleft := h.make (m := .leave i) hu (.inl rfl) (by simp)
        exact hleft.noteEnd.rest fun g hg => awaits_noteEnd hended hg
      · rename_i h₁ h₂ h₃
        refine h.rest fun g hg => (hself g hg).resolve_left fun hway => ?_
        cases g with
        | working c => exact h₁ c hg
        | asking q next => exact h₂ q next hg
        | leaving o => exact h₃ o hg
        | _ => cases hway

/-! ## The turn of a job as a whole -/

theorem IsOpen.pop {rest : List Turn} (h : d.IsOpen) (hq : d.queue = .job i :: rest) :
    IsOpen { d with queue := rest } := by
  exact h.imp id (.imp (mem_rest hq (by simp)) id)

/-- The job at the head of the queue has its turn. -/
theorem Rested.inTurn {rest : List Turn} (h : Rested u r scopes caller d₀ d)
    (hq : d.queue = .job i :: rest) :
    InTurn u r scopes caller i d { d with
      queue := rest
      alarms := d.alarms.filter (·.job ≠ i)
      watchers := d.watchers.filter (· ≠ i) } :=
  ⟨{ h.toProceeded.restart with attended := (h.attended.pop hq).hush },
    fun _ ha => of_decide_eq_true (List.mem_filter.mp ha).2, h.isOpen.pop hq⟩

/-- Only a job that is asleep has an alarm. -/
theorem Rested.hushed (h : Rested u r scopes caller d₀ d) {g : Stage Q A R}
    (hi : d.state.stages[i]? = some g) (hg : ∀ q next, g ≠ .asking q next) :
    d.alarms.filter (·.job ≠ i) = d.alarms := by
  refine List.filter_eq_self.mpr fun a ha => decide_eq_true ?_
  rintro rfl
  obtain ⟨q, next, hasking⟩ := h.attended.asleep a ha
  exact hg q next (Option.some.inj (hi.symm.trans hasking))

/-- At this stage a job is at work or waits for a permit, or its work is over. -/
def Abides (d : Dispatch Q A R ω) (g : Stage Q A R) : Prop :=
  g.isUnderWay = true ∨ g.isEnded = true ∨ g.isJoined = true ∨
    g = .waiting ∧ d.state.isCancelled = false

/-- A job that has looked for a cancellation abides, or it asks for a permit next. -/
theorem exists_stage_look (hs : d.state.Sound u) {g : Stage Q A R}
    (hi : d.state.stages[i]? = some g) (hidle : g.isUnderWay = false) (hg : g ≠ .entering) :
    ∃ g', (d.make u (.look i)).state.stages[i]? = some g' ∧
      ((d.make u (.look i)).Abides g' ∨
        g' = .entering ∧ (d.make u (.look i)).state.isCancelled = false) := by
  cases hm : d.state.move? u (.look i) with
  | some s =>
      simp only [Abides, state_make hm]
      cases moved_of_move? hm with
      | pass hi hb => exact ⟨_, State.stage_setStage_self hi, .inr ⟨rfl, hb⟩⟩
      | turnAway hi | giveUp hi => exact ⟨_, State.stage_setStage_self hi, .inl (.inr (.inl rfl))⟩
      | handOn hi => exact ⟨_, State.stage_giveBack hs hi (by simp), .inl (.inr (.inl rfl))⟩
      | takeUp hi => exact ⟨_, State.stage_setStage_self hi, .inl (.inl rfl)⟩
  | none =>
      rw [make_of_none hm]
      rw [State.move?, hi] at hm
      refine ⟨g, hi, .inl ?_⟩
      cases g with
      | fresh => cases hm
      | waiting =>
          cases hb : d.state.isCancelled with
          | true => simp [hb] at hm
          | false => exact .inr (.inr (.inr ⟨rfl, hb⟩))
      | admitted => cases hb : d.state.isCancelled <;> simp [hb] at hm
      | ended => exact .inr (.inl rfl)
      | joined => exact .inr (.inr (.inl rfl))
      | entering => exact absurd rfl hg
      | _ => cases hidle

/-- If it then asks for one, it abides. -/
theorem exists_stage_enter {g : Stage Q A R} (hi : d.state.stages[i]? = some g)
    (hg : d.Abides g ∨ g = .entering ∧ d.state.isCancelled = false) :
    ∃ g', (d.make u (.enter i)).state.stages[i]? = some g' ∧ (d.make u (.enter i)).Abides g' := by
  rcases hg with hg | ⟨rfl, hb⟩
  · have hnone : d.state.move? u (.enter i) = none := by
      rw [State.move?, hi]
      cases g with
      | entering => rcases hg with hg | hg | hg | ⟨hg, -⟩ <;> cases hg
      | _ => rfl
    rw [make_of_none hnone]
    exact ⟨g, hi, hg⟩
  · cases hm : d.state.move? u (.enter i) with
    | some s =>
        simp only [Abides, state_make hm]
        cases moved_of_move? hm with
        | enter hi => exact ⟨_, State.stage_setStage_self hi, .inl rfl⟩
        | queue hi => exact ⟨_, State.stage_setStage_self hi, .inr (.inr (.inr ⟨rfl, hb⟩))⟩
    | none =>
        rw [State.move?, hi] at hm
        by_cases hfree : 0 < d.state.free <;> simp [hfree] at hm

/-- The world answers, and the job goes on. -/
theorem InTurn.answer (env : Environment Q A ω) {fuel : Nat}
    (h : InTurn u r scopes caller i d₀ d) (hu : u.Bounded r) {q : Q}
    {next : A q → Course Q A R (Except Fault Tally)}
    (hi : d.state.stages[i]? = some (.asking q next)) (answer : (q : Q) → A q)
    (hfuel : d.state.effort u r < fuel) :
    Rested u r scopes caller d₀ ((d.make u (.reply i answer)).drive u env i fuel) ∧
      ((d.make u (.reply i answer)).drive u env i fuel).state.effort u r < d.state.effort u r := by
  have hm := State.move?_reply (u := u) hi answer
  have hlt := effort_make_lt h.reachable hu hm rfl (by simp)
  have hdrive : ∀ {d₀ : Dispatch Q A R ω},
      InTurn u r scopes caller i d₀ (d.make u (.reply i answer)) →
      Rested u r scopes caller d₀ ((d.make u (.reply i answer)).drive u env i fuel) := by
    intro d₀ h'
    refine h'.drive hu (fun g hg => .inl ?_) (hlt.trans hfuel)
    rw [state_make hm] at hg
    obtain rfl := Option.some.inj ((State.stage_setStage_self hi).symm.trans hg)
    rfl
  have hturn := h.make (m := .reply i answer) hu (.inl rfl) (by simp)
  exact ⟨hdrive hturn, lt_of_le_of_lt (hdrive hturn.restart).effort hlt⟩

/-! ## Turns that make a move -/

/-- At this stage job `i` would make a move if it had its turn. -/
def Acts (d : Dispatch Q A R ω) (i : Nat) : Stage Q A R → Prop
  | .fresh | .admitted => True
  | .waiting => d.state.isCancelled = true
  | .asking _ _ => ∃ a, d.alarms.find? (·.job = i) = some a ∧
      (a.time ≤ d.now ∨ (a.interruptible && d.state.isCancelled) = true)
  | _ => False

/-- There is a move to be made in this turn. -/
def Effective (d : Dispatch Q A R ω) : Turn → Prop
  | .job i => ∃ g, d.state.stages[i]? = some g ∧ d.Acts i g
  | .run => (∃ i ∈ d.finished, ∃ o, d.state.stages[i]? = some (.ended o)) ∨
      d.state.stages.all Stage.isJoined = true ∧ d.state.closed = false

/-- A turn has passed without a move. -/
structure Passed (d d' : Dispatch Q A R ω) (rest : List Turn) : Prop where
  state : d'.state = d.state
  queue : d'.queue = rest
  alarms : d'.alarms = d.alarms
  now : d'.now = d.now
  finished : ∀ i ∈ d.finished, (∃ o, d.state.stages[i]? = some (.ended o)) → i ∈ d'.finished

/-- What there was to be done in the other turns is still to be done. -/
theorem Passed.effective {rest : List Turn} {x : Turn} (h : Passed d d' rest)
    (hx : d.Effective x) : d'.Effective x := by
  cases x with
  | job i =>
      obtain ⟨g, hi, hacts⟩ := hx
      refine ⟨g, by rw [h.state, hi], ?_⟩
      cases g with
      | fresh | admitted => trivial
      | waiting => rwa [Acts, h.state]
      | asking => rwa [Acts, h.state, h.alarms, h.now]
      | _ => exact hacts
  | run =>
      rw [Effective, h.state]
      refine hx.imp_left ?_
      rintro ⟨i, hi, hended⟩
      exact ⟨i, h.finished i hi hended, hended⟩

/-- A turn leaves everybody attended to; it makes a move if there is one to be made, and passes if
not. -/
structure Turned (u : Setup Q A R) (r : Nat → ℕ) (scopes : Scopes) (caller : Nat)
    (d : Dispatch Q A R ω) (x : Turn) (rest : List Turn) (d' : Dispatch Q A R ω) : Prop where
  rested : Rested u r scopes caller d d'
  moved : d.Effective x →
    d'.state.effort u r < d.state.effort u r ∨ d'.state.closed = true
  passed : ¬ d.Effective x → Passed d d' rest

theorem takeTurn_asking {env : Environment Q A ω} {fuel : Nat} {q : Q}
    {next : A q → Course Q A R (Except Fault Tally)} {a : Alarm}
    (hi : d.state.stages[i]? = some (.asking q next))
    (ha : d.alarms.find? (·.job = i) = some a) :
    d.takeTurn u env fuel i =
      if a.time ≤ d.now then
        drive u env i fuel (Dispatch.make u { d with
          alarms := d.alarms.filter (·.job ≠ i), watchers := d.watchers.filter (· ≠ i) }
          (.reply i env.slept))
      else if a.interruptible && d.state.isCancelled then
        drive u env i fuel (Dispatch.make u { d with
          alarms := d.alarms.filter (·.job ≠ i), watchers := d.watchers.filter (· ≠ i) }
          (.reply i env.interrupted))
      else d := by
  rw [Dispatch.takeTurn, hi]
  simp only [ha]

/-- The turn of a job that is asleep. -/
theorem Rested.turned_asking {env : Environment Q A ω} {fuel : Nat} {rest : List Turn}
    (h : Rested u r scopes caller d₀ d) (hu : u.Bounded r) (hq : d.queue = .job i :: rest)
    (hfuel : d.state.effort u r < fuel) {q : Q} {next : A q → Course Q A R (Except Fault Tally)}
    (hi : d.state.stages[i]? = some (.asking q next)) :
    Turned u r scopes caller d (.job i) rest (takeTurn u env fuel i { d with queue := rest }) := by
  have hturn := h.inTurn hq
  obtain ⟨a, hset, hjob⟩ := h.attended.awaits i _ hi id
  have ha : d.alarms.find? (·.job = i) = some a := hjob ▸ h.attended.find?_alarm hset
  have heffective : d.Effective (.job i) ↔
      a.time ≤ d.now ∨ (a.interruptible && d.state.isCancelled) = true := by
    constructor
    · rintro ⟨g, hg, hacts⟩
      obtain rfl := Option.some.inj (hi.symm.trans hg)
      obtain ⟨a', ha', hnow⟩ := hacts
      obtain rfl := Option.some.inj (ha.symm.trans ha')
      exact hnow
    · exact fun hnow => ⟨_, hi, a, ha, hnow⟩
  rw [takeTurn_asking (d := { d with queue := rest }) hi ha]
  by_cases htime : a.time ≤ d.now
  · obtain ⟨hrested, hlt⟩ := hturn.answer env hu hi env.slept hfuel
    rw [if_pos htime]
    exact ⟨hrested, fun _ => .inl hlt, fun hnot => absurd (heffective.mpr (.inl htime)) hnot⟩
  · rw [if_neg htime]
    by_cases hcut : (a.interruptible && d.state.isCancelled) = true
    · obtain ⟨hrested, hlt⟩ := hturn.answer env hu hi env.interrupted hfuel
      rw [if_pos hcut]
      exact ⟨hrested, fun _ => .inl hlt, fun hnot => absurd (heffective.mpr (.inr hcut)) hnot⟩
    · rw [if_neg hcut]
      have hpop := h.attended.pop hq
      have hrested : Attended u (fun _ _ => False) { d with queue := rest } := by
        refine hpop.narrow ?_
        rintro k g hk rfl
        obtain rfl := Option.some.inj (hi.symm.trans hk)
        exact .inr ⟨a, hset, hjob⟩
      exact ⟨⟨{ h.toProceeded.restart with attended := hrested }, h.isOpen.pop hq⟩,
        fun heff => absurd (heffective.mp heff) (not_or.mpr ⟨htime, hcut⟩),
        fun _ => ⟨rfl, rfl, rfl, rfl, fun _ hf _ => hf⟩⟩

theorem takeTurn_awake {env : Environment Q A ω} {fuel : Nat} {g : Stage Q A R}
    (hi : d.state.stages[i]? = some g) (hg : ∀ q next, g ≠ .asking q next) :
    d.takeTurn u env fuel i =
      let looked := Dispatch.make u { d with watchers := d.watchers.filter (· ≠ i) } (.look i)
      let entered := looked.make u (.enter i)
      if entered.isAt i Stage.isWaiting then { entered with watchers := entered.watchers ++ [i] }
      else drive u env i fuel (entered.noteEnd i) := by
  rw [Dispatch.takeTurn, hi]
  cases g with
  | asking q next => exact absurd rfl (hg q next)
  | _ => rfl

/-- A job that is not under way stays where it is. -/
theorem drive_of_not_underWay {env : Environment Q A ω} {fuel : Nat} {g : Stage Q A R}
    (hi : d.state.stages[i]? = some g) (hg : g.isUnderWay = false) :
    d.drive u env i fuel = d := by
  cases fuel with
  | zero => rfl
  | succ fuel =>
      rw [Dispatch.drive, hi]
      cases g with
      | working | asking | leaving => cases hg
      | _ => rfl

/-- Once a job has looked and asked for a permit it waits, or it runs. -/
theorem InTurn.goOn (env : Environment Q A ω) {fuel : Nat} (h : InTurn u r scopes caller i d₀ d)
    (hu : u.Bounded r) {g : Stage Q A R} (hi : d.state.stages[i]? = some g) (hg : d.Abides g)
    (hfuel : d.state.effort u r < fuel) :
    Rested u r scopes caller d₀
      (if d.isAt i Stage.isWaiting then { d with watchers := d.watchers ++ [i] }
        else Dispatch.drive u env i fuel (d.noteEnd i)) := by
  have hat : ∀ p : Stage Q A R → Bool, d.isAt i p = p g := by
    intro p
    rw [isAt, hi]
    rfl
  rw [hat]
  split
  · rename_i hwaits
    obtain rfl : g = .waiting := by
      cases g with
      | waiting => rfl
      | _ => cases hwaits
    refine (h.watch hi).rest fun g' hg' => ?_
    obtain rfl := Option.some.inj (hi.symm.trans hg')
    rcases hg with hg | hg | hg | ⟨-, hb⟩
    · cases hg
    · cases hg
    · cases hg
    · exact .inr ⟨List.mem_append_right _ (List.mem_singleton.mpr rfl), hb⟩
  · rename_i hnot
    refine h.noteEnd.drive hu (fun g' hg' => ?_) ?_
    · rcases hg with hg | hg | hg | ⟨rfl, -⟩
      · rw [state_noteEnd] at hg'
        obtain rfl := Option.some.inj (hi.symm.trans hg')
        exact .inl hg
      · cases g with
        | ended o => exact .inr (awaits_noteEnd hi hg')
        | _ => cases hg
      · rw [state_noteEnd] at hg'
        obtain rfl := Option.some.inj (hi.symm.trans hg')
        cases g with
        | joined o => exact .inr trivial
        | _ => cases hg
      · exact absurd rfl hnot
    · rw [state_noteEnd]
      exact hfuel

/-- A job that is not asleep acts by looking for a cancellation and at its permit. -/
theorem isSome_look_iff {g : Stage Q A R} (hi : d.state.stages[i]? = some g)
    (hg : ∀ q next, g ≠ .asking q next) :
    (d.state.move? u (.look i)).isSome = true ↔ d.Acts i g := by
  rw [State.move?, hi]
  cases g with
  | asking q next => exact absurd rfl (hg q next)
  | waiting | admitted => cases hb : d.state.isCancelled <;> simp [Acts, hb]
  | _ => simp [Acts]

/-- A job that waits on or has ended has nothing to do in its turn. -/
theorem Rested.passed_awake {env : Environment Q A ω} {fuel : Nat} {rest : List Turn}
    (h : Rested u r scopes caller d₀ d) (hq : d.queue = .job i :: rest) {g : Stage Q A R}
    (hi : d.state.stages[i]? = some g) (hg : ∀ q next, g ≠ .asking q next) (hnot : ¬ d.Acts i g) :
    Passed d (takeTurn u env fuel i { d with queue := rest }) rest := by
  have hawaits := h.attended.awaits i g hi id
  have hstays : g = .waiting ∧ d.state.isCancelled = false ∨ (∃ o, g = .ended o) ∨
      ∃ o, g = .joined o := by
    cases g with
    | fresh | admitted => exact absurd trivial hnot
    | waiting => exact .inl ⟨rfl, Bool.eq_false_iff.mpr hnot⟩
    | ended o => exact .inr (.inl ⟨o, rfl⟩)
    | joined o => exact .inr (.inr ⟨o, rfl⟩)
    | asking q next => exact absurd rfl (hg q next)
    | entering | working | leaving => exact hawaits.elim
  have hlook : d.state.move? u (.look i) = none := by
    rw [← Option.not_isSome_iff_eq_none, isSome_look_iff hi hg]
    exact hnot
  have henter : d.state.move? u (.enter i) = none := by
    rw [State.move?, hi]
    rcases hstays with ⟨rfl, -⟩ | ⟨o, rfl⟩ | ⟨o, rfl⟩ <;> rfl
  generalize hbase : { d with queue := rest, watchers := d.watchers.filter (· ≠ i) } = base
  have hstate : base.state = d.state := by rw [← hbase]
  rw [← hstate] at hlook henter hi
  have hunmoved : (base.make u (.look i)).make u (.enter i) = base := by
    rw [make_of_none hlook, make_of_none henter]
  rw [takeTurn_awake (d := { d with queue := rest }) (hstate ▸ hi) hg]
  simp only [hbase, hunmoved]
  rcases hstays with ⟨rfl, -⟩ | ⟨o, rfl⟩ | ⟨o, rfl⟩
  · rw [if_pos (by rw [isAt, hi]; rfl)]
    subst hbase
    exact ⟨rfl, rfl, rfl, rfl, fun _ hf _ => hf⟩
  · have hrun : .run ∈ rest := mem_rest hq (by simp) hawaits.2
    have hended : (base.noteEnd i).state.stages[i]? = some (.ended o) := by
      rw [state_noteEnd, hi]
    rw [drive_of_not_underWay hended rfl, if_neg (by rw [isAt, hi]; simp [Stage.isWaiting]),
      noteEnd, if_pos (by rw [isAt, hi]; rfl), enqueue]
    subst hbase
    rw [if_pos (List.contains_iff_mem.mpr hrun)]
    exact ⟨rfl, rfl, rfl, rfl, fun _ hf _ => List.mem_append_left _ hf⟩
  · have hnoted : base.noteEnd i = base := by
      rw [noteEnd, if_neg (by rw [isAt, hi]; simp [Stage.isEnded])]
    rw [hnoted, drive_of_not_underWay hi rfl, if_neg (by rw [isAt, hi]; simp [Stage.isWaiting])]
    subst hbase
    exact ⟨rfl, rfl, rfl, rfl, fun _ hf _ => hf⟩

/-- The turn of a job that is not asleep. -/
theorem Rested.turned_awake {env : Environment Q A ω} {fuel : Nat} {rest : List Turn}
    (h : Rested u r scopes caller d₀ d) (hu : u.Bounded r) (hq : d.queue = .job i :: rest)
    (hfuel : d.state.effort u r < fuel) {g : Stage Q A R} (hi : d.state.stages[i]? = some g)
    (hg : ∀ q next, g ≠ .asking q next) :
    Turned u r scopes caller d (.job i) rest (takeTurn u env fuel i { d with queue := rest }) := by
  have hturn := h.inTurn hq
  rw [h.hushed hi hg] at hturn
  have hawaits := h.attended.awaits i g hi id
  have hidle : g.isUnderWay = false := by
    cases g with
    | working | leaving => exact hawaits.elim
    | asking q next => exact absurd rfl (hg q next)
    | _ => rfl
  have hentering : g ≠ .entering := by
    rintro rfl
    exact hawaits
  have hlook := hturn.make (m := .look i) hu (.inl rfl) (by simp)
  have henter := hlook.make (m := .enter i) hu (.inl rfl) (by simp)
  obtain ⟨g₁, hg₁, habides₁⟩ := exists_stage_look hturn.reachable.isSound hi hidle hentering
  obtain ⟨g₂, hg₂, habides₂⟩ := exists_stage_enter hg₁ habides₁
  have hle := effort_make_le hlook.reachable hu (.enter i)
  refine ⟨?_, ?_, fun hnot => h.passed_awake hq hi hg fun hacts => hnot ⟨g, hi, hacts⟩⟩
  · rw [takeTurn_awake (d := { d with queue := rest }) hi hg]
    exact henter.goOn env hu hg₂ habides₂ (lt_of_le_of_lt henter.effort hfuel)
  · rintro ⟨g', hg', hacts⟩
    rw [takeTurn_awake (d := { d with queue := rest }) hi hg]
    obtain rfl := Option.some.inj (hi.symm.trans hg')
    obtain ⟨s, hm⟩ := Option.isSome_iff_exists.mp ((isSome_look_iff (u := u) hi hg).mpr hacts)
    have hlt := effort_make_lt hturn.reachable hu hm rfl (by simp)
    have hgoOn := henter.restart.goOn env hu hg₂ habides₂ (lt_of_le_of_lt henter.effort hfuel)
    exact .inl (lt_of_le_of_lt hgoOn.effort (lt_of_le_of_lt hle hlt))

/-- The turn of a job. -/
theorem Rested.turned_job (env : Environment Q A ω) {fuel : Nat} {rest : List Turn}
    (h : Rested u r scopes caller d₀ d) (hu : u.Bounded r) (hq : d.queue = .job i :: rest)
    (hfuel : d.state.effort u r < fuel) :
    Turned u r scopes caller d (.job i) rest (takeTurn u env fuel i { d with queue := rest }) := by
  obtain ⟨g, hi⟩ : ∃ g, d.state.stages[i]? = some g := by
    have hlt := h.attended.queued i (hq ▸ List.mem_cons_self)
    rw [← h.reachable.isSound.length] at hlt
    exact ⟨_, List.getElem?_eq_getElem hlt⟩
  by_cases hasking : ∃ q next, g = .asking q next
  · obtain ⟨q, next, rfl⟩ := hasking
    exact h.turned_asking hu hq hfuel hi
  · exact h.turned_awake hu hq hfuel hi fun q next hg => hasking ⟨q, next, hg⟩

end Dispatch

end Converge.Fleet
