import Converge.Proofs.Fleet.Jobs
import Converge.Proofs.Walk
import Converge.Rehearsal.Actor

/-!
# Nothing is begun after a cancellation

Every call on a resource is guarded by a look of its own, which comes right before it.  So once
the shared scope has been cancelled no job begins a call any more, not even one that takes up its
permit only then; and as a job that fails has the scope cancelled while it holds its permit, the
jobs that still wait for one at that time never begin any.
-/

namespace Converge

variable {Q : Type} {A : Q → Type} {R σ α : Type}

/-! ## Calls are guarded -/

/-- Is it the beginning of a call? -/
def Mark.begins : Mark R → Bool
  | began _ _ => true
  | _ => false

/-- The monitor that lets a call begin only if a look has found no cancellation since the last
answer and the last call. -/
def callGuard : Monitor Q A R Bool where
  mayAsk _ _ := True
  answered _ _ _ := false
  looked _ b := some !b
  mayLeave clear m := m.begins = true → clear = true
  left clear m := clear && !m.begins

/-- Every call of the course is guarded. -/
abbrev Course.Guarded (c : Course Q A R α) (clear : Bool) : Prop :=
  c.Meets callGuard (fun _ _ => True) clear

/-- A call that comes right after a look is guarded. -/
theorem call_guarded (call : Call) (r : R) (work : Plan Q A α) :
    (Course.call call r work).Guarded true := by
  refine ⟨fun _ => rfl, ?_⟩
  refine (Course.Meets.ofPlan (I := fun _ => True) (by simp [callGuard]) (by simp) work
    trivial).bind fun y a _ => ?_
  exact ⟨by simp [callGuard, Mark.begins], trivial⟩

/-- Walks begin calls only after looks. -/
theorem callGuard_grants (P : Provider Q A R) :
    Tree.Grants callGuard P (fun _ => True) (fun _ => True) (fun _ => True) where
  note x e _ _ := ⟨by simp [callGuard, Mark.begins], trivial⟩
  look _ _ _ _ _ := trivial
  stop _ _ _ _ _ := trivial
  satisfied x y here r _ hy _ := by
    obtain rfl : true = y := Option.some.inj hy
    refine (call_guarded .satisfied r (P.satisfied r)).bind fun z a _ => ?_
    cases a <;> simp [Tree.stop, Tree.Keeps]
  apply x here r _ _ := by
    rintro (_ | _) y hy
    · obtain rfl : true = y := Option.some.inj hy
      refine ⟨by simp [callGuard, Mark.begins], ?_⟩
      refine (call_guarded .apply r (P.apply r)).bind fun z a _ => ?_
      cases a with
      | ok => exact ⟨by simp [callGuard, Mark.begins], by simp [Tree.Keeps]⟩
      | error f => simp [Tree.stop, Tree.Keeps]
    · simp [Tree.Keeps]

namespace Course

/-- What follows the next marks is guarded whatever was seen before. -/
theorem Guarded.reset {c : Course Q A R α} {x y : Bool} (h : c.marks.2.Guarded x) :
    c.marks.2.Guarded y := by
  induction c with
  | leave m next ih => exact ih h
  | _ => exact h

/-- Without a look no call is begun. -/
theorem begins_eq_false {ms : List (Mark R)}
    (h : (callGuard : Monitor Q A R Bool).MayLeaveAll false ms) : ∀ m ∈ ms, m.begins = false := by
  induction ms with
  | nil => simp
  | cons m ms ih =>
      rintro m' (_ | ⟨_, hm'⟩)
      · simpa [callGuard] using h.1
      · exact ih (by simpa [callGuard] using h.2) m' hm'

/-- A pace of a guarded course leaves it guarded, and begins no call if the flag is up. -/
theorem Guarded.pace {c : Course Q A R α} (h : c.Guarded false) (b : Bool) :
    (c.pace b).2.Guarded false ∧ (b = true → ∀ m ∈ (c.pace b).1, m.begins = false) := by
  cases c with
  | look next =>
      have hnext : (next b).Guarded (!b) := h b _ rfl
      refine ⟨Guarded.reset hnext.marks.2, fun hb => begins_eq_false (Q := Q) (A := A) ?_⟩
      subst hb
      exact hnext.marks.1
  | leave m next =>
      exact ⟨Guarded.reset (Course.Meets.marks h).2,
        fun _ => begins_eq_false (Course.Meets.marks h).1⟩
  | done a => exact ⟨h, by simp [Course.pace]⟩
  | ask q next => exact ⟨h, by simp [Course.pace]⟩

end Course

namespace Fleet

variable {u : Setup Q A R}

/-- The work on every job is guarded. -/
theorem Setup.course_guarded (u : Setup Q A R) (i : Nat) : (u.course i).Guarded false := by
  unfold course
  split
  · exact ((callGuard_grants u.provider).converge_meets u.policy _ false (by simp)
      trivial).mono fun _ _ _ => trivial
  · trivial

/-- At this stage all further calls are guarded. -/
def Stage.Guarded : Stage Q A R → Prop
  | working c => c.Guarded false
  | asking _ next => ∀ a, (next a).Guarded false
  | _ => True

/-! ## What is begun -/

/-- A call in the history is a deed of the job that makes it. -/
theorem mem_calls {s : State Q A R} {i : Nat} {call : Call} {r : R} :
    (i, call, r) ∈ s.calls ↔ .step i (.left (.began call r)) ∈ deedsOf i s.history := by
  constructor
  · intro h
    obtain ⟨d, hd, hcall⟩ := List.mem_filterMap.mp h
    unfold Deed.call? at hcall
    split at hcall
    · simp only [Option.some.injEq, Prod.mk.injEq] at hcall
      obtain ⟨rfl, rfl, rfl⟩ := hcall
      exact List.mem_filter.mpr ⟨List.mem_reverse.mp hd, by simp [Deed.job?]⟩
    · cases hcall
  · intro h
    exact List.mem_filterMap.mpr ⟨_, List.mem_reverse.mpr (List.mem_filter.mp h).1, rfl⟩

/-- No move begins a call once the shared scope has been cancelled. -/
theorem Moved.calls_eq {s t : State Q A R} {m : Move Q A} (h : Moved u s m t)
    (hg : ∀ (i : Nat) (g : Stage Q A R), s.stages[i]? = some g → g.Guarded)
    (hb : s.isCancelled = true) : t.calls = s.calls := by
  obtain ⟨new, hnew, hdue⟩ := h.history
  refine view_eq hnew fun d hd => ?_
  have hd := hdue d hd
  cases d with
  | step i x =>
      cases x with
      | left mk =>
          obtain ⟨c, hi, hmk⟩ := hd
          have hc : c.Guarded false := hg i _ hi
          have hbegins := (hc.pace s.isCancelled).2 hb mk hmk
          cases mk with
          | began call r => cases hbegins
          | event | ended => rfl
      | answered q a => rfl
  | _ => rfl

namespace Reachable

variable {scopes : Scopes} {caller : Nat} {s t : State Q A R}

/-- Whatever is still to come of a run is guarded. -/
theorem guarded (h : Reachable u (Fleet.start u scopes caller) s) {i : Nat} {g : Stage Q A R}
    (hi : s.stages[i]? = some g) : g.Guarded := by
  refine h.keeps i (fun _ _ g => g.Guarded) (fun _ _ hg => hg) ?_
    (sound_start u scopes caller) (fun g hg => stage_start hg ▸ trivial) hi
  intro _ b b' g ds g' _ hstep hg
  cases hstep with
  | takeUp | enter => exact u.course_guarded i
  | pace => exact (Course.Guarded.pace hg b).1
  | ask => exact hg.2
  | reply a => exact hg a
  | _ => trivial

/-- Once the shared scope has been cancelled the calls stay as they are. -/
theorem calls_eq (h : Reachable u (Fleet.start u scopes caller) s) (hb : s.isCancelled = true)
    (ht : Reachable u s t) : t.calls = s.calls := by
  induction ht with
  | start => rfl
  | move m hr hm ih =>
      rw [← ih]
      exact (moved_of_move? hm).calls_eq (fun _ _ hi => (h.trans hr).guarded hi)
        (hr.isCancelled hb)

/-- A job that has no permit in hand has done nothing so far. -/
theorem deedsOf_pending (h : Reachable u (Fleet.start u scopes caller) s) {i : Nat}
    {g : Stage Q A R} (hi : s.stages[i]? = some g) (hg : g.isPending = true) :
    deedsOf i s.history = [] := by
  refine h.keeps i (fun h _ g => g.isPending = true → h = []) (fun _ _ hg => hg) ?_
    (sound_start u scopes caller) (fun _ _ _ => deedsOf_start scopes caller i) hi hg
  intro _ b b' g ds g' _ hstep hg hpending
  cases hstep <;> simp_all [Stage.isPending]

/-- A job whose work ended with a fault has had the shared scope cancelled. -/
theorem isCancelled_of_fault (h : Reachable u (Fleet.start u scopes caller) s) {i : Nat}
    {g : Stage Q A R} {o : Outcome} (hi : s.stages[i]? = some g) (ho : g.outcome? = some o)
    (hf : o.isFault = true) : s.isCancelled = true := by
  refine h.keeps i (fun _ b g => g.outcome? = some o → b = true)
    (fun _ _ _ _ => rfl) ?_ (sound_start u scopes caller)
    (fun g hg => by simp [stage_start hg, Stage.outcome?]) hi ho
  intro _ b b' g ds g' hmono hstep hg ho
  cases hstep with
  | finish hr =>
      obtain rfl := Option.some.inj ho
      exact hr hf
  | leave | join => exact hmono (hg ho)
  | turnAway | giveUp | handOn | crash =>
      obtain rfl := Option.some.inj ho
      cases hf
  | _ => cases ho

/-- A permit goes on only after the work with it is over, or was turned down. -/
theorem outcome_of_release (h : Reachable u (Fleet.start u scopes caller) s) {m : Move Q A}
    (hm : s.move? u m = some t) {i : Nat} {g g' : Stage Q A R} (hi : s.stages[i]? = some g)
    (hi' : t.stages[i]? = some g') (hg : g.holdsPermit = true) (hg' : g'.holdsPermit = false) :
    g'.outcome? = g.outcome? ∨ g'.outcome? = some State.notStarted := by
  have hsound := h.isSound
  rcases (moved_of_move? hm).kept hsound hi with ⟨hstage, -⟩ | ⟨g'', ds, hstage, -, hstep⟩
  · obtain rfl := Option.some.inj (hstage.symm.trans hi')
    simp [hg] at hg'
  · obtain rfl := Option.some.inj (hstage.symm.trans hi')
    cases hstep <;> simp_all [Stage.holdsPermit, Stage.outcome?]

/-- A failure has the shared scope cancelled when it is taken into account. -/
theorem isCancelled_of_join (h : Reachable u (Fleet.start u scopes caller) s) {i : Nat}
    {o : Outcome} {f : Fault} (hi : s.stages[i]? = some (.ended o))
    (hf : o.failure? (u.unit i) = some f) (hm : s.move? u (.join i) = some t) :
    t.isCancelled = true := by
  have hsound := h.isSound
  obtain rfl : ((s.setStage i (.joined o)).record (.joined i o)).account u i o = t := by
    simpa [State.move?, hi] using hm
  rw [State.isCancelled, State.scopes_account, State.shared_account, hf]
  exact Scopes.cancelled_cancel_self hsound.token

/-- Once the shared scope has been cancelled, be it by a job, by the run as it takes a failure
into account, or through the caller's scope, no job begins a call on a resource any more.  A job
whose work fails has the scope cancelled before its permit goes on, and so no job that has yet to
take one up at that time ever begins a call.  What is before the world may still be answered. -/
theorem no_call_after_cancellation (h : Reachable u (Fleet.start u scopes caller) s) :
    (s.isCancelled = true → ∀ t, Reachable u s t → t.isCancelled = true ∧ t.calls = s.calls) ∧
    (∀ i, s.hasFailed i = true → s.isCancelled = true ∧
      ∀ j, s.isPending j = true → ∀ t, Reachable u s t → ∀ call r, (j, call, r) ∉ t.calls) ∧
    (∀ m t i, s.move? u m = some t → s.holdsPermit i = true → t.holdsPermit i = false →
      t.hasFailed i = true → s.isCancelled = true) ∧
    (∀ i o f t, s.stages[i]? = some (.ended o) → o.failure? (u.unit i) = some f →
      s.move? u (.join i) = some t → t.isCancelled = true) ∧
    (scopes.HasToken caller → ∀ t, s.move? u (.cancel caller) = some t →
      t.isCancelled = true) ∧
    (∀ i q next answer, s.stages[i]? = some (.asking q next) →
      ∃ t, s.move? u (.reply i answer) = some t) := by
  refine ⟨fun hb t ht => ⟨ht.isCancelled hb, h.calls_eq hb ht⟩, ?_, ?_, ?_, ?_, ?_⟩
  · intro i hfailed
    obtain ⟨g, hi, hg⟩ := (Option.any_eq_true _ _).mp hfailed
    obtain ⟨o, ho, hf⟩ := (Option.any_eq_true _ _).mp hg
    have hb : s.isCancelled = true := h.isCancelled_of_fault hi ho hf
    refine ⟨hb, fun j hpending t ht call r hcall => ?_⟩
    obtain ⟨w, hj, hw⟩ := (Option.any_eq_true _ _).mp hpending
    -- The job had made no call, and from now on there are no further ones.
    rw [h.calls_eq hb ht, mem_calls, h.deedsOf_pending hj hw] at hcall
    exact List.not_mem_nil hcall
  · intro m t i hm hholds hholds' hfailed
    obtain ⟨g, hi, hg⟩ := (Option.any_eq_true _ _).mp hholds
    obtain ⟨g', hi', hg'⟩ := (Option.any_eq_true _ _).mp hfailed
    obtain ⟨o, ho, hf⟩ := (Option.any_eq_true _ _).mp hg'
    have hnone : g'.holdsPermit = false := by simpa [State.holdsPermit, hi'] using hholds'
    rcases h.outcome_of_release hm hi hi' hg hnone with hsame | hturned
    · exact h.isCancelled_of_fault hi (hsame.symm.trans ho) hf
    · obtain rfl := Option.some.inj (ho.symm.trans hturned)
      cases hf
  · exact fun i o f t hi hf hm => h.isCancelled_of_join hi hf hm
  · intro hcaller t hm
    have hunder : s.scopes.Under s.shared caller := h.under (Scopes.under_child hcaller)
    cases moved_of_move? hm with
    | cancel hk hb => exact Scopes.cancelled_cancel_under hunder
  · intro i q next answer hi
    simp [State.move?, hi]

end Reachable

end Fleet

/-! ## A failure before a job in line -/

namespace Rehearsal

open Fleet

/-- Two units of one resource each, and a single permit for them. -/
def pair (first second : Actor) : Setup Cue Cue.Answer Actor where
  provider := company
  policy := .skipSubtree
  limit := 1
  jobs := [⟨"first", .node "root" (some first) []⟩, ⟨"second", .node "root" (some second) []⟩]
  tasks := .inTurn 1

/-- The first of two jobs takes the permit and works on its resource, while the second one gets
in line; the cue that comes last is that for the work itself. -/
def untilWork : List (Move Cue Cue.Answer) :=
  [.look 0, .enter 0, .look 1, .enter 1, .goOn 0, .goOn 0, .goOn 0, .reply 0 (stage.reply ⟨[], []⟩),
    .goOn 0, .reply 0 (stage.reply ⟨[], []⟩), .goOn 0, .goOn 0, .goOn 0]

/-- The moves by which work that fails comes to its end. -/
def untilFailure : List (Move Cue Cue.Answer) :=
  untilWork ++ [.reply 0 (stage.reply ⟨[], []⟩), .goOn 0, .goOn 0, .goOn 0]

/-- The work on the first resource fails. -/
def clumsyPair : Setup Cue Cue.Answer Actor :=
  pair { Actor.plain "clumsy" 0 with failApply := some (.of "it broke") } (.plain "deft" 1)

/-- The first job has failed and holds its permit still, and the second one stands in line. -/
theorem no_call_after_failure_of_first : ∃ s, Reachable clumsyPair (start clumsyPair .one 0) s ∧
    s.holdsPermit 0 = true ∧ s.isWaiting 1 = true ∧ s.isCancelled = true ∧
    ∀ t, Reachable clumsyPair s t → ∀ call r, (1, call, r) ∉ t.calls := by
  have hsome : ((start clumsyPair .one 0).moves? clumsyPair untilFailure).isSome = true := by
    decide
  have h := reachable_moves? .start (Option.some_get hsome).symm
  have hstop := h.no_call_after_cancellation.2.1 0 rfl
  exact ⟨_, h, rfl, rfl, hstop.1, hstop.2 1 rfl⟩

end Rehearsal

end Converge
