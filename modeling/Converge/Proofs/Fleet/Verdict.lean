import Converge.Proofs.Fleet.Cancellation
import Converge.Proofs.Fleet.Names

/-!
# What a run returns

A run returns once every job has been joined.  What it returns then is decided by the outcomes in
the order in which they were joined: the first failure among them, or else the first cancellation.
When nobody outside cancels anything, every cancellation of the shared scope has a failure behind
it, and a run that does not succeed returns a failure.
-/

namespace Converge

variable {Q : Type} {A : Q → Type} {R α : Type}

/-! ## Courses that nobody disturbs -/

/-- The monitor that follows a course for as long as no look finds a cancellation. -/
def calm : Monitor Q A R Unit where
  mayAsk _ _ := True
  answered _ _ _ := ()
  looked _ b := if b then none else some ()
  mayLeave _ _ := True
  left _ _ := ()

/-- A call is nothing to the monitor. -/
theorem call_calm (call : Call) (r : R) (work : Plan Q A α) :
    (Course.call call r work).Meets calm (fun _ _ => True) () := by
  refine ⟨trivial, ?_⟩
  refine (Course.Meets.ofPlan (I := fun _ => True) (fun _ _ _ => trivial)
    (fun _ _ _ _ => trivial) work trivial).bind fun y a _ => ?_
  exact ⟨trivial, trivial⟩

/-- What ends a walk that was not disturbed is no cancellation. -/
theorem calm_grants (P : Provider Q A R) :
    Tree.Grants calm P (fun _ => True) (fun _ => True) (fun f => f.isCancellation = false) where
  note _ _ _ _ := ⟨trivial, trivial⟩
  look _ _ _ _ _ := trivial
  stop x y here _ hy := by cases hy
  satisfied x y here r _ _ _ := by
    refine (call_calm .satisfied r (P.satisfied r)).bind fun z a _ => ?_
    cases a with
    | ok b => simp
    | error f =>
        rintro (_ | _) y hy
        · simp [Fault.isCancellation]
        · cases hy
  apply x here r _ _ := by
    rintro (_ | _) y hy
    · refine ⟨trivial, (call_calm .apply r (P.apply r)).bind fun z a _ => ?_⟩
      cases a with
      | ok => exact ⟨trivial, by simp⟩
      | error f =>
          rintro (_ | _) y hy
          · simp [Fault.isCancellation]
          · cases hy
    · cases hy

/-- The course ends without a cancellation unless a look finds one. -/
abbrev Course.Calm (c : Course Q A R (Except Fault α)) : Prop :=
  c.Meets calm (Tree.Keeps (fun _ => True) fun f => f.isCancellation = false) ()

namespace Fleet

variable {u : Setup Q A R} {s t : State Q A R} {m : Move Q A}

/-! ## Outcomes -/

namespace Outcome

variable {name : String} {o : Outcome} {f : Fault}

/-- An outcome is no failure and no cancellation only if it is a success. -/
theorem eq_ok_iff : (∃ tally, o = .returned (.ok tally)) ↔
    o.failure? name = none ∧ o.cancellation? name = none := by
  rcases o with (f | tally) | how
  · cases hf : f.isCancellation <;> simp [failure?, cancellation?, result, hf]
  · simp [failure?, cancellation?, result]
  · simp [failure?, result, Fault.isCancellation]

theorem cancellation?_eq_none {r : Except Fault Tally}
    (h : ∀ f, r = .error f → f.isCancellation = false) :
    (returned r).cancellation? name = none := by
  cases r with
  | ok tally => rfl
  | error f => simp [cancellation?, result, h f rfl]

theorem isCancellation_of_failure? (h : o.failure? name = some f) : f.isCancellation = false := by
  unfold failure? at h
  split at h
  · cases h
  · split at h <;> rename_i hf
    · cases h
    · obtain rfl := Option.some.inj h
      simpa using hf

theorem isCancellation_of_cancellation? (h : o.cancellation? name = some f) :
    f.isCancellation = true := by
  unfold cancellation? at h
  split at h
  · cases h
  · split at h
    · obtain rfl := Option.some.inj h
      simpa using ‹_›
    · cases h

/-- A failure or a cancellation is reported on behalf of the unit. -/
theorem exists_error (h : o.failure? name = some f ∨ o.cancellation? name = some f) :
    ∃ e, o.result name = .error e ∧ e.forUnit name = f := by
  rw [failure?, cancellation?] at h
  cases hr : o.result name with
  | ok tally => simp [hr] at h
  | error e =>
      refine ⟨e, rfl, ?_⟩
      cases he : e.isCancellation <;> simpa [hr, he] using h

end Outcome

/-! ## The outcomes that were joined -/

namespace Setup

/-- The failure that a joined outcome is. -/
def failure? (u : Setup Q A R) (j : Nat × Outcome) : Option Fault := j.2.failure? (u.unit j.1)

/-- The cancellation that a joined outcome is. -/
def cancellation? (u : Setup Q A R) (j : Nat × Outcome) : Option Fault :=
  j.2.cancellation? (u.unit j.1)

end Setup

/-- Outcomes are joined by the move for that only. -/
theorem Moved.joins_eq (h : Moved u s m t) (hm : ∀ i, m ≠ .join i) : t.joins = s.joins := by
  obtain ⟨new, hnew, hdue⟩ := h.history
  refine view_eq hnew fun d hd => ?_
  cases d with
  | joined i o => exact absurd (hdue _ hd).1 (hm i)
  | _ => rfl

/-- An outcome that is taken into account is the last of those that were joined. -/
theorem State.joins_account (u : Setup Q A R) (s : State Q A R) (i : Nat) (o : Outcome) :
    (((s.setStage i (.joined o)).record (.joined i o)).account u i o).joins =
      s.joins ++ [(i, o)] := by
  obtain ⟨ds, hds, hnone⟩ :=
    State.history_account ((s.setStage i (.joined o)).record (.joined i o)) i o u
  rw [State.joins, view_eq hds fun d hd => ?_]
  · simp [State.record, State.setStage, State.joins, Deed.join?]
  · cases d with
    | joined => cases hnone _ hd
    | _ => rfl

/-- A move joins one outcome that has ended and has it judged, or leaves the joined outcomes and
the judgement as they are. -/
theorem Moved.judgement (h : Moved u s m t) (hn : s.Named u) :
    (t.joins = s.joins ∧ t.failure = s.failure ∧ t.cancellation = s.cancellation) ∨
    ∃ j, t.joins = s.joins ++ [j] ∧ t.failure = s.failure.or (u.failure? j) ∧
      t.cancellation = s.cancellation.or (u.cancellation? j) := by
  have hjoins := h.joins_eq
  cases h with
  | @join i o hi =>
      refine .inr ⟨(i, o), State.joins_account .., ?_, ?_⟩
      · rw [State.failure_account, hn.nameOf_join hi]
        rfl
      · rw [State.cancellation_account, hn.nameOf_join hi]
        rfl
  | handOn | leave =>
      refine .inl ⟨hjoins (fun _ h => by cases h), ?_, ?_⟩
      all_goals unfold State.release; split <;> rfl
  | @finish i r =>
      refine .inl ⟨hjoins (fun _ h => by cases h), ?_⟩
      cases hr : (Outcome.returned r).isFault <;> exact ⟨rfl, rfl⟩
  | _ => exact .inl ⟨hjoins (fun _ h => by cases h), rfl, rfl⟩

/-- The faults that a run holds are the first of their kind among those that were joined. -/
structure State.Judged (u : Setup Q A R) (s : State Q A R) : Prop where
  failure : s.failure = s.joins.findSome? u.failure?
  cancellation : s.cancellation = s.joins.findSome? u.cancellation?

theorem Moved.judged (h : Moved u s m t) (hn : s.Named u) (hs : s.Judged u) : t.Judged u := by
  rcases h.judgement hn with ⟨hj, hf, hc⟩ | ⟨j, hj, hf, hc⟩
  · exact ⟨by rw [hf, hj, hs.failure], by rw [hc, hj, hs.cancellation]⟩
  · constructor
    · rw [hf, hj, hs.failure, List.findSome?_append]
      simp
    · rw [hc, hj, hs.cancellation, List.findSome?_append]
      simp

/-! ## Every job is joined once -/

/-- The outcome of job `i` that a history says was joined. -/
def Stage.joins (i : Nat) : Stage Q A R → List (Nat × Outcome)
  | joined o => [(i, o)]
  | _ => []

/-- The joined outcomes of one job are among its deeds. -/
theorem filter_joins (s : State Q A R) (i : Nat) :
    s.joins.filter (·.1 = i) = ((deedsOf i s.history).filterMap Deed.join?).reverse := by
  rw [State.joins, deedsOf, ← List.filterMap_reverse, ← List.filter_reverse, List.filterMap_filter,
    List.filter_filterMap]
  congr
  funext d
  cases d <;> simp [Deed.join?, Deed.job?, Option.filter]

namespace Reachable

variable {scopes : Scopes} {caller : Nat}

/-- Only jobs of the run are joined. -/
theorem lt_of_mem_joins (h : Reachable u (Fleet.start u scopes caller) s) :
    ∀ j ∈ s.joins, j.1 < u.jobs.length := by
  intro j hj
  obtain ⟨d, hd, hjoin⟩ := List.mem_filterMap.mp hj
  have hjob : d.job? = some j.1 := by
    cases d <;> simp_all [Deed.join?, Deed.job?]
    simp [← hjoin]
  obtain ⟨_, hi⟩ := h.job_of_deed (List.mem_reverse.mp hd) hjob
  exact (List.getElem?_eq_some_iff.mp hi).1

/-- A job is joined as its stage says, and not more than once. -/
theorem filter_joins (h : Reachable u (Fleet.start u scopes caller) s) (i : Nat) :
    s.joins.filter (·.1 = i) = (s.stages[i]?).elim [] (Stage.joins i) := by
  have hlength := h.isSound.length
  cases hi : s.stages[i]? with
  | none =>
      have hge : s.stages.length ≤ i := List.getElem?_eq_none_iff.mp hi
      refine List.filter_eq_nil_iff.mpr fun j hj hji => ?_
      have hlt : j.1 < u.jobs.length := h.lt_of_mem_joins j hj
      have hij : j.1 = i := by simpa using hji
      omega
  | some g =>
      have hdeeds : (deedsOf i s.history).filterMap Deed.join? = g.joins i := by
        refine h.keeps i (fun h _ g => h.filterMap Deed.join? = g.joins i) (fun _ _ hg => hg) ?_
          (sound_start u scopes caller) (fun g hg => by simp [stage_start hg, Stage.joins]) hi
        intro h b b' g ds g' _ hstep hg
        cases hstep with
        | pace =>
            simpa [List.filterMap_append, List.filterMap_map, Deed.join?, Stage.joins] using hg
        | _ => simp_all [Stage.joins, Deed.join?]
      rw [Fleet.filter_joins, hdeeds]
      cases g <;> rfl

/-- What was joined of a job is the outcome at its stage. -/
theorem mem_joins (h : Reachable u (Fleet.start u scopes caller) s) {i : Nat} {o : Outcome} :
    (i, o) ∈ s.joins ↔ s.stages[i]? = some (.joined o) := by
  have hself : (i, o) ∈ s.joins ↔ (i, o) ∈ s.joins.filter (·.1 = i) := by simp
  rw [hself, h.filter_joins i]
  cases s.stages[i]? with
  | none => simp
  | some g => cases g <;> simp [Stage.joins, eq_comm]

/-- No job is joined twice. -/
theorem nodup_joins (h : Reachable u (Fleet.start u scopes caller) s) :
    (s.joins.map Prod.fst).Nodup := by
  refine List.nodup_iff_count.mpr fun i => ?_
  have hcount : (s.joins.map Prod.fst).count i = (s.joins.filter (·.1 = i)).length := by
    rw [List.count, List.countP_map, List.countP_eq_length_filter]
    rfl
  rw [hcount, h.filter_joins i]
  cases s.stages[i]? with
  | none => simp
  | some g => cases g <;> simp [Stage.joins]

end Reachable

/-- A run returns when all of its jobs have been joined. -/
theorem Moved.closed (h : Moved u s m t) (hc : t.closed = true) :
    s.closed = true ∨ s.stages.all Stage.isJoined = true ∧ t.stages = s.stages := by
  cases h with
  | handOn | leave => exact .inl (by simpa [State.setStage] using hc)
  | join => exact .inl (by simpa [State.setStage, State.record] using hc)
  | @finish i r =>
      cases hr : (Outcome.returned r).isFault <;> rw [hr] at hc <;> exact .inl hc
  | close hall => exact .inr ⟨hall, rfl⟩
  | _ => exact .inl hc

namespace Reachable

variable {scopes : Scopes} {caller : Nat}

theorem joined_of_closed (h : Reachable u (Fleet.start u scopes caller) s) (hc : s.closed = true)
    {i : Nat} {g : Stage Q A R} (hi : s.stages[i]? = some g) : ∃ o, g = .joined o := by
  induction h generalizing g with
  | start => cases hc
  | @move s t m hs hm ih =>
      have hmoved := moved_of_move? hm
      rcases hmoved.closed hc with hc' | ⟨hall, hstages⟩
      · obtain ⟨g₀, hg₀, ⟨rfl, -⟩ | ⟨ds, -, hstep⟩⟩ :=
          hmoved.came hs.isSound hi
        · exact ih hc' hg₀
        · -- A joined job does not go on.
          obtain ⟨o, rfl⟩ := ih hc' hg₀
          cases hstep
      · rw [hstages] at hi
        have hg := List.all_eq_true.mp hall g (List.mem_of_getElem? hi)
        cases g with
        | joined o => exact ⟨o, rfl⟩
        | _ => cases hg

/-- The run holds the faults that were joined first. -/
theorem judged (h : Reachable u (Fleet.start u scopes caller) s) : s.Judged u := by
  induction h with
  | start => exact ⟨rfl, rfl⟩
  | move m hs hm ih => exact (moved_of_move? hm).judged hs.named ih

end Reachable

/-! ## Runs that nobody disturbs

Failures and cancellations race: work that fails after the flag has gone up is taken for cancelled.
So it is not enough that some job failed first; the invariant is that as long as the flag is up, or
a job has been told of it, some job has an outcome that is a failure and will be joined as one. -/

/-- At this stage a job has not been cancelled, and will not be unless a look finds that. -/
def Stage.Calm (name : String) : Stage Q A R → Prop
  | working c => c.Calm
  | asking _ next => ∀ a, (next a).Calm
  | leaving o | ended o | joined o => o.cancellation? name = none
  | _ => True

/-- As long as the shared scope is not cancelled, no job has been. -/
theorem Reachable.calm {scopes : Scopes} {caller : Nat}
    (h : Reachable u (Fleet.start u scopes caller) s) (hb : s.isCancelled = false) {i : Nat}
    {g : Stage Q A R} (hi : s.stages[i]? = some g) : g.Calm (u.unit i) := by
  have hlength := h.isSound.length
  have hcourse : (u.course i).Calm := by
    have hlt : i < u.jobs.length := hlength ▸ State.lt_of_stage hi
    rw [Setup.course, List.getElem?_eq_getElem hlt]
    exact (calm_grants u.provider).converge_meets u.policy _ () (by simp) trivial
  refine h.keeps i (fun _ b g => b = false → g.Calm (u.unit i)) (fun _ _ _ hb => by cases hb) ?_
    (sound_start u scopes caller) (fun g hg _ => by rw [stage_start hg]; trivial) hi hb
  intro _ b b' g ds g' hmono hstep hg hb'
  obtain rfl : b = false := by cases b <;> simp_all
  have hg := hg rfl
  cases hstep with
  | takeUp | enter => exact hcourse
  | pace => exact (Course.Meets.pace hg rfl).2
  | ask => exact hg.2
  | reply a => exact hg a
  | finish => exact Outcome.cancellation?_eq_none hg.2
  | leave | join => exact hg
  | crash => rfl
  | pass | queue | letOn => trivial
  | turnAway hb | giveUp hb | handOn hb => cases hb

/-- Does the move cancel a scope from outside? -/
def Move.isOutside : Move Q A → Bool
  | disturb _ | cancel _ => true
  | _ => false

/-- The states that a run can come to while nothing outside cancels its shared scope: neither the
caller, nor what is asked on behalf of a resource. -/
inductive Undisturbed (u : Setup Q A R) (first : State Q A R) : State Q A R → Prop where
  | start : Undisturbed u first first
  | move {s t : State Q A R} (m : Move Q A) :
      Undisturbed u first s → s.move? u m = some t →
      (m.isOutside = true → t.isCancelled = s.isCancelled) → Undisturbed u first t

theorem Undisturbed.reachable {first : State Q A R} (h : Undisturbed u first s) :
    Reachable u first s := by
  induction h with
  | start => exact .start
  | move m _ hm _ ih => exact ih.move m hm

/-- Moves from inside do not disturb a run. -/
theorem undisturbed_moves? {first : State Q A R} (h : Undisturbed u first s)
    {ms : List (Move Q A)} (hin : ∀ m ∈ ms, m.isOutside = false) (ht : s.moves? u ms = some t) :
    Undisturbed u first t := by
  induction ms generalizing s with
  | nil => exact Option.some.inj ht ▸ h
  | cons m ms ih =>
      obtain ⟨r, hr, ht⟩ := Option.bind_eq_some_iff.mp ht
      have hm : m.isOutside = false := hin m List.mem_cons_self
      refine ih (h.move m hr fun hout => ?_) (fun m' hm' => hin m' (List.mem_cons_of_mem m hm')) ht
      rw [hm] at hout
      cases hout

/-- Has the work on some job failed? -/
def State.HasFailure (u : Setup Q A R) (s : State Q A R) : Prop :=
  ∃ (i : Nat) (g : Stage Q A R) (o : Outcome), s.stages[i]? = some g ∧ g.outcome? = some o ∧
    (o.failure? (u.unit i)).isSome = true

/-- A failure is not made undone. -/
theorem Moved.hasFailure (h : Moved u s m t) (hs : s.Sound u) (hf : s.HasFailure u) :
    t.HasFailure u := by
  obtain ⟨i, g, o, hi, ho, hfail⟩ := hf
  rcases h.kept hs hi with ⟨hstage, -⟩ | ⟨g', ds, hstage, -, hstep⟩
  · exact ⟨i, g, o, hstage, ho, hfail⟩
  · exact ⟨i, g', o, hstage, hstep.outcome? ho, hfail⟩

/-- What cancels the shared scope from inside is a failure, or the end of the run. -/
theorem Moved.cause (h : Moved u s m t) (hb : s.isCancelled = false) (hb' : t.isCancelled = true)
    (hm : m.isOutside = false) :
    t.HasFailure u ∨ ∀ g ∈ t.stages, g.isJoined = true := by
  cases h with
  | disturb | cancel => cases hm
  | @finish i r hi =>
      cases hr : (Outcome.returned r).isFault with
      | false =>
          rw [hr] at hb'
          exact absurd (hb.symm.trans hb') Bool.false_ne_true
      | true =>
          refine .inl ⟨i, _, .returned r, State.stage_setStage_self hi, rfl, ?_⟩
          rcases r with f | tally
          · simpa [Outcome.failure?, Outcome.result, Outcome.isFault] using hr
          · cases hr
  | @join i o hi =>
      cases hf : o.failure? (u.unit i) with
      | none =>
          rw [State.isCancelled, State.scopes_account, State.shared_account, hf] at hb'
          exact absurd (hb.symm.trans hb') Bool.false_ne_true
      | some f =>
          refine .inl ⟨i, .joined o, o, ?_, rfl, by simp [hf]⟩
          rw [State.stages_account]
          exact State.stage_setStage_self hi
  | close hall =>
      exact .inr (List.all_eq_true.mp hall)
  | handOn | leave =>
      simp [hb] at hb'
  | _ => exact absurd (hb.symm.trans hb') Bool.false_ne_true

/-- Every cancellation has a failure behind it. -/
structure State.Blamed (u : Setup Q A R) (s : State Q A R) : Prop where
  flag : s.isCancelled = true → s.HasFailure u ∨ ∀ g ∈ s.stages, g.isJoined = true
  cut : ∀ (i : Nat) (g : Stage Q A R) (o : Outcome), s.stages[i]? = some g →
    g.outcome? = some o → (o.cancellation? (u.unit i)).isSome = true → s.HasFailure u

namespace Undisturbed

variable {scopes : Scopes} {caller : Nat}

/-- As long as nobody disturbs a run, failures account for all of its cancellations. -/
theorem blamed (h : Undisturbed u (Fleet.start u scopes caller) s)
    (hcaller : scopes.cancelled caller = false) : s.Blamed u := by
  induction h with
  | start =>
      refine ⟨fun hb => ?_, fun i g o hi ho => ?_⟩
      · rw [isCancelled_start, hcaller] at hb
        cases hb
      · rw [stage_start hi] at ho
        cases ho
  | @move s t m hs hm hin ih =>
      have hmoved := moved_of_move? hm
      have hreach := hs.reachable
      have hsound := hreach.isSound
      constructor
      · intro hb'
        cases hb : s.isCancelled with
        | false =>
            cases hout : m.isOutside with
            | false => exact hmoved.cause hb hb' hout
            | true =>
                rw [hin hout, hb] at hb'
                cases hb'
        | true =>
            refine (ih.flag hb).imp (hmoved.hasFailure hsound) fun hall g hg => ?_
            obtain ⟨i, hi⟩ := List.mem_iff_getElem?.mp hg
            obtain ⟨g₀, hg₀, ⟨rfl, -⟩ | ⟨ds, -, hstep⟩⟩ := hmoved.came hsound hi
            · exact hall _ (List.mem_of_getElem? hg₀)
            · have hjoined := hall g₀ (List.mem_of_getElem? hg₀)
              cases hstep <;> cases hjoined
      · intro i g o hi ho hcut
        refine hmoved.hasFailure hsound ?_
        obtain ⟨g₀, hg₀, ⟨rfl, -⟩ | ⟨ds, -, hstep⟩⟩ := hmoved.came hsound hi
        · exact ih.cut i _ o hg₀ ho hcut
        · -- The job was told of a cancellation just now, or has the outcome already.
          have hflag : s.isCancelled = true → g₀.isJoined = false → s.HasFailure u := by
            intro hb hnot
            refine (ih.flag hb).resolve_right fun hall => ?_
            rw [hall g₀ (List.mem_of_getElem? hg₀)] at hnot
            cases hnot
          cases hstep with
          | turnAway hb | giveUp hb | handOn hb => exact hflag hb rfl
          | leave | join => exact ih.cut i _ o hg₀ ho hcut
          | finish =>
              cases hb : s.isCancelled with
              | true => exact hflag hb rfl
              | false =>
                  obtain rfl := Option.some.inj ho
                  have hcalm := (hreach.calm hb hg₀).2
                  rw [Outcome.cancellation?_eq_none hcalm] at hcut
                  cases hcut
          | crash =>
              obtain rfl := Option.some.inj ho
              cases hcut
          | _ => cases ho

end Undisturbed

/-! ## The verdict -/

namespace Reachable

variable {scopes : Scopes} {caller : Nat}

/-- The result of a run in terms of the outcomes that it joined. -/
theorem result_eq (h : Reachable u (Fleet.start u scopes caller) s) :
    s.result = match (s.joins.findSome? u.failure?).or (s.joins.findSome? u.cancellation?) with
      | some f => .error f
      | none => .ok s.summary := by
  rw [State.result, h.judged.failure, h.judged.cancellation]
  cases s.joins.findSome? u.failure? <;> cases s.joins.findSome? u.cancellation? <;> rfl

/-- What a run returns, if not a success, is what one of the joined outcomes is. -/
theorem exists_join_of_error (h : Reachable u (Fleet.start u scopes caller) s) {f : Fault}
    (hf : s.result = .error f) :
    ∃ j ∈ s.joins, u.failure? j = some f ∨ u.cancellation? j = some f := by
  rw [h.result_eq] at hf
  cases hor : (s.joins.findSome? u.failure?).or (s.joins.findSome? u.cancellation?) with
  | none =>
      rw [hor] at hf
      cases hf
  | some f' =>
      rw [hor] at hf
      obtain rfl := Except.error.inj hf
      rcases Option.or_eq_some_iff.mp hor with hfail | ⟨-, hcut⟩
      · obtain ⟨j, hj, hjf⟩ := List.exists_of_findSome?_eq_some hfail
        exact ⟨j, hj, .inl hjf⟩
      · obtain ⟨j, hj, hjf⟩ := List.exists_of_findSome?_eq_some hcut
        exact ⟨j, hj, .inr hjf⟩

/-- A failure that a run returns is that of a job that was joined. -/
theorem exists_join_of_failure (h : Reachable u (Fleet.start u scopes caller) s) {f : Fault}
    (hf : s.result = .error f) (hfault : f.isCancellation = false) :
    ∃ j ∈ s.joins, u.failure? j = some f := by
  obtain ⟨j, hj, hjf⟩ := h.exists_join_of_error hf
  refine ⟨j, hj, hjf.resolve_right fun hcut => ?_⟩
  rw [Outcome.isCancellation_of_cancellation? hcut] at hfault
  cases hfault

/-- The first of those in a list that `g` speaks of. -/
theorem first_of_exists {α β : Type} {l : List α} {g : α → Option β}
    (h : ∃ a ∈ l, (g a).isSome = true) :
    ∃ before a after b, l = before ++ a :: after ∧ (∀ k ∈ before, g k = none) ∧ g a = some b ∧
      l.findSome? g = some b := by
  obtain ⟨b, hb⟩ := Option.isSome_iff_exists.mp (List.findSome?_isSome_iff.mpr h)
  obtain ⟨before, a, after, hsplit, ha, hbefore⟩ := List.findSome?_eq_some_iff.mp hb
  exact ⟨before, a, after, b, hsplit, hbefore, ha, hb⟩

/-- A run that nobody disturbs returns no cancellation. -/
theorem isCancellation_of_undisturbed (h : Reachable u (Fleet.start u scopes caller) s)
    (hc : s.closed = true) (hu : Undisturbed u (Fleet.start u scopes caller) s)
    (hcaller : scopes.cancelled caller = false) {f : Fault} (hf : s.result = .error f) :
    f.isCancellation = false := by
  rw [h.result_eq] at hf
  cases hfail : s.joins.findSome? u.failure? with
  | some f' =>
      obtain ⟨j, -, hj⟩ := List.exists_of_findSome?_eq_some hfail
      obtain rfl : f' = f := by simpa [hfail] using hf
      exact Outcome.isCancellation_of_failure? hj
  | none =>
      have hcut : s.joins.findSome? u.cancellation? = some f := by
        cases hcut : s.joins.findSome? u.cancellation? <;> simp_all
      obtain ⟨⟨i, o⟩, hj, ho⟩ := List.exists_of_findSome?_eq_some hcut
      -- There is a failure behind the cancellation, and it has been joined by now.
      obtain ⟨k, g, o', hk, hg, hfailed⟩ := (hu.blamed hcaller).cut i _ o (h.mem_joins.mp hj) rfl
        (by rw [show o.cancellation? (u.unit i) = some f from ho]; rfl)
      obtain ⟨o'', rfl⟩ := h.joined_of_closed hc hk
      obtain rfl := Option.some.inj hg
      have hnone := List.findSome?_eq_none_iff.mp hfail _ (h.mem_joins.mpr hk)
      rw [show o''.failure? (u.unit k) = none from hnone] at hfailed
      cases hfailed

/-- By the time a run returns it has joined each of its jobs once. -/
theorem perm_joins (h : Reachable u (Fleet.start u scopes caller) s) (hc : s.closed = true) :
    (s.joins.map Prod.fst).Perm (List.range u.jobs.length) := by
  refine (List.perm_ext_iff_of_nodup h.nodup_joins List.nodup_range).mpr fun i => ?_
  rw [List.mem_range]
  constructor
  · intro hi
    obtain ⟨j, hj, rfl⟩ := List.mem_map.mp hi
    exact h.lt_of_mem_joins j hj
  · intro hi
    rw [← h.isSound.length] at hi
    obtain ⟨o, ho⟩ := h.joined_of_closed hc (List.getElem?_eq_getElem hi)
    refine List.mem_map.mpr ⟨(i, o), h.mem_joins.mpr ?_, rfl⟩
    rw [List.getElem?_eq_getElem hi, ho]

/-- What was joined so far makes a success if all of it is. -/
theorem result_ok_iff (h : Reachable u (Fleet.start u scopes caller) s) :
    (∃ summary, s.result = .ok summary) ↔
      ∀ j ∈ s.joins, ∃ tally, j.2 = .returned (.ok tally) := by
  rw [h.result_eq]
  constructor
  · rintro ⟨summary, hok⟩ j hj
    have hnone : (s.joins.findSome? u.failure?).or (s.joins.findSome? u.cancellation?) =
        none := by
      cases hor : (s.joins.findSome? u.failure?).or (s.joins.findSome? u.cancellation?) with
      | none => rfl
      | some f => simp [hor] at hok
    obtain ⟨hfail, hcut⟩ := Option.or_eq_none_iff.mp hnone
    exact Outcome.eq_ok_iff.mpr
      ⟨List.findSome?_eq_none_iff.mp hfail j hj, List.findSome?_eq_none_iff.mp hcut j hj⟩
  · intro hall
    have hfail : s.joins.findSome? u.failure? = none :=
      List.findSome?_eq_none_iff.mpr fun j hj => (Outcome.eq_ok_iff.mp (hall j hj)).1
    have hcut : s.joins.findSome? u.cancellation? = none :=
      List.findSome?_eq_none_iff.mpr fun j hj => (Outcome.eq_ok_iff.mp (hall j hj)).2
    exact ⟨s.summary, by rw [hfail, hcut]; rfl⟩

/-- A run returns after each of its jobs has been joined once, with the outcome of its work.  It
succeeds if and only if all jobs did.  If some outcome is a failure, the run returns the one that
was joined first, whatever cancellations came before it; if there are only cancellations, it
returns the first of them.  A run that nobody disturbs never returns a cancellation. -/
theorem verdict (h : Reachable u (Fleet.start u scopes caller) s) (hc : s.closed = true) :
    (s.joins.map Prod.fst).Perm (List.range u.jobs.length) ∧
    (∀ i o, (i, o) ∈ s.joins ↔ s.stages[i]? = some (.joined o)) ∧
    ((∃ summary, s.result = .ok summary) ↔ ∀ j ∈ s.joins, ∃ tally, j.2 = .returned (.ok tally)) ∧
    ((∃ j ∈ s.joins, (u.failure? j).isSome = true) →
      ∃ before j after f, s.joins = before ++ j :: after ∧ (∀ k ∈ before, u.failure? k = none) ∧
        u.failure? j = some f ∧ f.isCancellation = false ∧ s.result = .error f) ∧
    ((∀ j ∈ s.joins, u.failure? j = none) → (∃ j ∈ s.joins, (u.cancellation? j).isSome = true) →
      ∃ before j after f, s.joins = before ++ j :: after ∧
        (∀ k ∈ before, u.cancellation? k = none) ∧
        u.cancellation? j = some f ∧ f.isCancellation = true ∧ s.result = .error f) ∧
    (Undisturbed u (Fleet.start u scopes caller) s → scopes.cancelled caller = false →
      ∀ f, s.result = .error f → f.isCancellation = false) := by
  refine ⟨h.perm_joins hc, fun i o => h.mem_joins, h.result_ok_iff, ?_, ?_, ?_⟩
  · intro hex
    obtain ⟨before, j, after, f, hsplit, hbefore, hj, hf⟩ := first_of_exists hex
    refine ⟨before, j, after, f, hsplit, hbefore, hj, Outcome.isCancellation_of_failure? hj, ?_⟩
    rw [h.result_eq, hf]
    rfl
  · intro hnone hex
    obtain ⟨before, j, after, f, hsplit, hbefore, hj, hf⟩ := first_of_exists hex
    refine ⟨before, j, after, f, hsplit, hbefore, hj,
      Outcome.isCancellation_of_cancellation? hj, ?_⟩
    rw [h.result_eq, hf, List.findSome?_eq_none_iff.mpr hnone]
    rfl
  · exact fun hu hcaller f hf => h.isCancellation_of_undisturbed hc hu hcaller hf

end Reachable

end Fleet

/-! ## A cancellation that is joined before the failure behind it -/

namespace Rehearsal

open Fleet

/-- After the failure of the first job the second one is turned away, and joined first. -/
def untilReturn : List (Move Cue Cue.Answer) :=
  untilFailure ++ [.leave 0, .look 1, .join 1, .join 0, .close]

/-- The run returns the failure of the first job. -/
theorem verdict_of_clumsy : ∃ s f, Undisturbed clumsyPair (start clumsyPair .one 0) s ∧
    s.closed = true ∧ s.joins.map (fun j => (clumsyPair.cancellation? j).isSome) = [true, false] ∧
    s.result = .error f ∧ f.isCancellation = false := by
  have hsome : ((start clumsyPair .one 0).moves? clumsyPair untilReturn).isSome = true := by
    decide
  have hmoves := (Option.some_get hsome).symm
  have hu := undisturbed_moves? .start (by decide) hmoves
  have hverdict := (reachable_moves? .start hmoves).verdict rfl
  obtain ⟨_, _, _, f, -, -, -, -, hf⟩ := hverdict.2.2.2.1 ⟨_, .tail _ (.head _), rfl⟩
  exact ⟨_, f, hu, rfl, rfl, hf, hverdict.2.2.2.2.2 hu rfl f hf⟩

end Rehearsal

end Converge
