import Converge.Program
import Converge.Proofs.Fleet.Started
import Converge.Proofs.Problems

/-!
# How units are reported

When an outcome is joined that is no success, the journal says so: that the unit was cancelled, and
whether it had started, or that it failed.  Only the first failure is reported as one.  The journal
is therefore known from the outcomes in the order in which they were joined, and agrees with what
the run returns.
-/

namespace Converge

variable {Q : Type} {A : Q → Type} {R α : Type}

/-- Does the event tell how the work on a unit of several ended? -/
def Event.isNotice : Event → Bool
  | unitFailed .. | furtherFailure .. | unitCancelled .. => true
  | _ => false

def Event.isUnitFailed : Event → Bool
  | unitFailed .. => true
  | _ => false

/-- No walk gives notice. -/
theorem Event.isNotice_of_isOfWalk {e : Event} (h : e.isOfWalk = true) : e.isNotice = false := by
  cases e with
  | unitFailed | furtherFailure | unitCancelled => cases h
  | _ => rfl

/-! ## Walks write no notices -/

/-- The monitor of the courses that write down no events but those of walks. -/
def discreet : Monitor Q A R Unit where
  mayAsk _ _ := True
  answered _ _ _ := ()
  looked _ _ := some ()
  mayLeave _ m := ∀ e, m = .event e → e.isOfWalk = true
  left _ _ := ()

theorem call_discreet (call : Call) (r : R) (work : Plan Q A α) :
    (Course.call call r work).Meets discreet (fun _ _ => True) () := by
  refine ⟨nofun, (Course.Meets.ofPlan (I := fun _ => True) (fun _ _ _ => trivial)
    (fun _ _ _ _ => trivial) work trivial).bind fun _ _ _ => ?_⟩
  exact ⟨nofun, trivial⟩

theorem mayLeave_discreet {e : Event} (he : e.isOfWalk = true) :
    (discreet : Monitor Q A R Unit).mayLeave () (.event e) := by
  rintro _ ⟨⟩
  exact he

theorem discreet_grants (P : Provider Q A R) :
    Tree.Grants discreet P (fun _ => True) (fun _ => True) (fun _ => True) where
  note _ _ he _ := ⟨mayLeave_discreet he, trivial⟩
  look _ _ _ _ _ := trivial
  stop _ _ _ _ _ := trivial
  satisfied _ _ here r _ _ _ := by
    refine (call_discreet .satisfied r (P.satisfied r)).bind fun _ a _ => ?_
    cases a <;> simp [Tree.stop]
  apply _ here r _ _ := by
    rintro (_ | _) _ ⟨⟩
    · refine ⟨mayLeave_discreet rfl, (call_discreet .apply r (P.apply r)).bind fun _ a _ => ?_⟩
      cases a with
      | ok => exact ⟨mayLeave_discreet rfl, by simp⟩
      | error f => simp [Tree.stop]
    · simp

namespace Fleet

variable {u : Setup Q A R} {s t : State Q A R} {m : Move Q A} {scopes : Scopes} {caller : Nat}

/-- The notice of the run itself that a deed is. -/
def Deed.notice? : Deed Q A R → Option Event
  | event e => if e.isNotice then some e else none
  | _ => none

/-- What a run has written down. -/
def State.journal (s : State Q A R) : List Event := s.history.reverse.filterMap Deed.event?

/-- The notices of the run itself. -/
def State.notices (s : State Q A R) : List Event := s.history.reverse.filterMap Deed.notice?

/-- What a job writes down is what walks write. -/
theorem Reachable.isOfWalk (h : Reachable u (Fleet.start u scopes caller) s) {i : Nat} {e : Event}
    (hd : .step i (.left (.event e)) ∈ s.history) : e.isOfWalk = true := by
  obtain ⟨later, earlier, hsplit⟩ := List.append_of_mem hd
  obtain ⟨job, hjob⟩ := h.job_of_deed hd rfl
  have hmeets := (discreet_grants u.provider).converge_meets u.policy job.tree ()
    (fun _ _ => trivial) trivial
  rw [← Setup.course_eq hjob] at hmeets
  exact h.may_leave (fun _ _ => rfl) hmeets hsplit e rfl

/-- So there are no other notices in the journal. -/
theorem Reachable.filter_journal (h : Reachable u (Fleet.start u scopes caller) s) :
    s.journal.filter Event.isNotice = s.notices := by
  rw [State.journal, List.filter_filterMap, State.notices]
  refine List.filterMap_congr fun d hd => ?_
  rcases d with e | _ | ⟨i, (e | _ | _) | _⟩ | _ | _ | _ | _
  case step.left.event =>
    have hnot := Event.isNotice_of_isOfWalk (h.isOfWalk (List.mem_reverse.mp hd))
    simp [Deed.event?, Course.Step.event?, Deed.notice?, Option.filter, hnot]
  case event => cases he : e.isNotice <;> simp [Deed.event?, Deed.notice?, Option.filter, he]
  all_goals rfl

/-! ## One notice for each outcome that is no success -/

/-- What is written down when an outcome is joined: whether a unit that was cancelled had `started`,
and whether a unit that failed is the `first` to do so. -/
def Setup.notice? (u : Setup Q A R) (started : Bool) (first : Option Fault) (j : Nat × Outcome) :
    Option Event :=
  match j.2.result (u.unit j.1) with
  | .ok _ => none
  | .error f =>
      if f.isCancellation then some (.unitCancelled (u.unit j.1) started)
      else if first.isSome then some (.furtherFailure (u.unit j.1) f.message)
      else some (.unitFailed (u.unit j.1) (f.forUnit (u.unit j.1)).message)

namespace State

theorem notices_record (s : State Q A R) (d : Deed Q A R) :
    (s.record d).notices = s.notices ++ d.notice?.toList := by
  cases hd : d.notice? <;> simp [notices, record, hd]

/-- What is no notice of the run goes into the history without being seen here. -/
theorem notices_record_of_none (s : State Q A R) {d : Deed Q A R} (hd : d.notice? = none) :
    (s.record d).notices = s.notices := by
  rw [notices_record, hd]
  exact List.append_nil _

theorem notices_release (s : State Q A R) (i : Nat) : (s.release i).notices = s.notices := by
  unfold release
  split <;> exact notices_record_of_none _ rfl

theorem notices_mark (s : State Q A R) (i : Nat) (ms : List (Mark R)) :
    (s.mark i ms).notices = s.notices := by
  have hnone : (ms.map fun m => (.step i (.left m) : Deed Q A R)).filterMap Deed.notice? = [] := by
    simp [Deed.notice?]
  simp [notices, mark, ← List.map_reverse, hnone]

theorem notices_account {u : Setup Q A R} {s : State Q A R} {i : Nat}
    (hname : s.nameOf u i = u.unit i) (o : Outcome) : (s.account u i o).notices =
      s.notices ++ (u.notice? o.isStarted s.failure (i, o)).toList := by
  rw [account, hname]
  cases hr : o.result (u.unit i) with
  | ok tally => simp [Setup.notice?, hr, notices, strike]
  | error f =>
      have hstarted := Outcome.isStarted_of_result hr
      cases hf : f.isCancellation with
      | true =>
          simp only [Setup.notice?, hr, hf, if_true, hstarted]
          exact notices_record _ _
      | false =>
          have hcancel : (s.record .cancelled).notices = s.notices := notices_record_of_none s rfl
          cases hfirst : s.failure with
          | none | some =>
              simp only [Setup.notice?, hr, hf, cancelShared, hfirst, record, strike]
              exact (notices_record _ _).trans (congrArg (· ++ _) hcancel)

end State

/-- Only an outcome that is joined gives rise to a notice. -/
theorem Moved.notices_eq (h : Moved u s m t) (hm : ∀ i, m ≠ .join i) : t.notices = s.notices := by
  cases h with
  | join => exact absurd rfl (hm _)
  | handOn | leave => exact State.notices_release ..
  | pace => exact State.notices_mark ..
  | takeUp | enter | ask | reply | disturb | close => exact State.notices_record_of_none _ rfl
  | finish =>
      split
      · exact State.notices_record_of_none _ rfl
      · rfl
  | pass | turnAway | giveUp | queue | crash | cancel => rfl

/-- A move joins an outcome and gives notice of it, or it does neither. -/
theorem Moved.notices (h : Moved u s m t) (hn : s.Named u) :
    (t.joins = s.joins ∧ t.notices = s.notices) ∨
      ∃ j, t.joins = s.joins ++ [j] ∧
        t.notices = s.notices ++ (u.notice? j.2.isStarted s.failure j).toList := by
  by_cases hm : ∀ i, m ≠ .join i
  · exact .inl ⟨h.joins_eq hm, h.notices_eq hm⟩
  · cases h with
    | @join i o hi =>
        refine .inr ⟨(i, o), State.joins_account .., ?_⟩
        rw [State.notices_account (hn.nameOf_join hi)]
        exact congrArg (· ++ _) (State.notices_record_of_none _ rfl)
    | _ => exact absurd nofun hm

namespace Reachable

/-- The notices are those of the outcomes that were joined, in the same order. -/
theorem notices (h : Reachable u (Fleet.start u scopes caller) s) :
    s.notices = (withEarlier s.joins).filterMap fun p =>
      u.notice? p.2.2.isStarted (p.1.findSome? u.failure?) p.2 := by
  induction h with
  | start => rfl
  | @move s t m hs hm ih =>
      rcases (moved_of_move? hm).notices hs.named with ⟨hjoins, hnotices⟩ | ⟨j, hjoins, hnotices⟩
      · rw [hjoins, hnotices, ih]
      · rw [hjoins, hnotices, ih, withEarlier_concat, List.filterMap_append, hs.judged.failure]
        rfl

/-- Of each outcome that was joined the ledger tells whether the job had set to work. -/
theorem isStarted_of_mem_joins (h : Reachable u (Fleet.start u scopes caller) s) :
    ∀ j ∈ s.joins, j.2.isStarted = decide (j.1 ∈ s.begun) :=
  fun _ hj => h.isStarted_eq (h.mem_joins.mp hj) rfl

theorem filter_journal_eq (h : Reachable u (Fleet.start u scopes caller) s) :
    s.journal.filter Event.isNotice = (withEarlier s.joins).filterMap fun p =>
      u.notice? (decide (p.2.1 ∈ s.begun)) (p.1.findSome? u.failure?) p.2 := by
  rw [h.filter_journal, h.notices]
  refine List.filterMap_congr fun p hp => ?_
  rw [forall_mem_withEarlier.mpr h.isStarted_of_mem_joins p hp]

end Reachable

/-! ## Cancelled units and the unit that failed first -/

section

variable {started : Bool} {first : Option Fault} {j : Nat × Outcome} {name : String}

theorem Setup.notice?_eq_unitCancelled_iff {flag : Bool} :
    u.notice? started first j = some (.unitCancelled name flag) ↔
      (u.cancellation? j).isSome = true ∧ u.unit j.1 = name ∧ started = flag := by
  rw [notice?, cancellation?, Outcome.cancellation?]
  cases j.2.result (u.unit j.1) with
  | ok tally => simp
  | error f => cases hf : f.isCancellation <;> cases first <;> simp [hf]

/-- The report of the failure that a joined outcome is. -/
def Setup.report? (u : Setup Q A R) (j : Nat × Outcome) : Option Event :=
  (u.failure? j).map fun f => .unitFailed (u.unit j.1) f.message

/-- A failure is reported if it is the first. -/
theorem Setup.filter_notice? : (u.notice? started first j).toList.filter Event.isUnitFailed =
    if first.isSome then [] else (u.report? j).toList := by
  rw [notice?, report?, failure?, Outcome.failure?]
  cases j.2.result (u.unit j.1) with
  | ok tally => simp
  | error f => cases hf : f.isCancellation <;> cases first <;> simp [hf, Event.isUnitFailed]

end

/-- There is something to report if there is a failure. -/
theorem Setup.isSome_report? (u : Setup Q A R) (js : List (Nat × Outcome)) :
    (js.findSome? u.report?).isSome = (js.findSome? u.failure?).isSome := by
  rw [Bool.eq_iff_iff, List.findSome?_isSome_iff, List.findSome?_isSome_iff]
  simp [report?]

/-- Of several outcomes in a row the first failure is reported, and no other one. -/
theorem Setup.filter_notices (u : Setup Q A R) (started : Nat × Outcome → Bool)
    (js : List (Nat × Outcome)) :
    ((withEarlier js).filterMap fun p =>
      u.notice? (started p.2) (p.1.findSome? u.failure?) p.2).filter Event.isUnitFailed =
        (js.findSome? u.report?).toList := by
  induction js using List.reverseRecOn with
  | nil => rfl
  | append_singleton js j ih =>
      have hlast : [(js, j)].filterMap (fun p =>
          u.notice? (started p.2) (p.1.findSome? u.failure?) p.2) =
            (u.notice? (started j) (js.findSome? u.failure?) j).toList := by
        rw [List.filterMap_cons, List.filterMap_nil]
        split <;> simp [*]
      rw [withEarlier_concat, List.filterMap_append, List.filter_append, ih, hlast, filter_notice?,
        List.findSome?_append, ← u.isSome_report?]
      cases js.findSome? u.report? <;> simp

namespace Reachable

/-- A failure that was joined names the unit whose work it ended. -/
theorem unit?_of_failure? (h : Reachable u (Fleet.start u scopes caller) s) {j : Nat × Outcome}
    (hj : j ∈ s.joins) {f : Fault} (hf : u.failure? j = some f) : f.unit? = some (u.unit j.1) := by
  obtain ⟨i, o⟩ := j
  obtain ⟨e, he, rfl⟩ := Outcome.exists_error (.inl hf)
  cases o with
  | crashed how =>
      obtain rfl := Except.error.inj he
      rfl
  | returned r =>
      obtain rfl : r = .error e := he
      have hnone : e.unit? = none := by
        obtain ⟨job, hjob⟩ : ∃ job, u.jobs[i]? = some job :=
          ⟨_, List.getElem?_eq_getElem (h.lt_of_mem_joins _ hj)⟩
        rcases h.leads_of_returned hjob (h.mem_joins.mp hj) with ⟨trace, hleads⟩ | hcut
        · exact (Tree.arisesIn_of_converge hleads).1
        · obtain rfl := Except.error.inj hcut
          rfl
      rw [Fault.forUnit_of_unit? hnone]
      rfl

/-- The reports of failed units are at most one: that of the failure which the run returns. -/
theorem filter_isUnitFailed (h : Reachable u (Fleet.start u scopes caller) s) :
    s.journal.filter Event.isUnitFailed = (s.joins.findSome? u.report?).toList := by
  have hsub : s.journal.filter Event.isUnitFailed =
      (s.journal.filter Event.isNotice).filter Event.isUnitFailed := by
    rw [List.filter_filter]
    refine List.filter_congr fun e _ => ?_
    cases e <;> rfl
  rw [hsub, h.filter_journal, h.notices]
  exact u.filter_notices (fun j => j.2.isStarted) s.joins

/-- A cancellation with this flag is reported once for each unit of the name that was so
cancelled. -/
theorem count_unitCancelled (h : Reachable u (Fleet.start u scopes caller) s) (name : String)
    (flag : Bool) : s.journal.count (.unitCancelled name flag) =
      s.joins.countP fun j => (u.cancellation? j).isSome ∧ u.unit j.1 = name ∧
        decide (j.1 ∈ s.begun) = flag := by
  have hcount : s.journal.count (.unitCancelled name flag) =
      (s.journal.filter Event.isNotice).count (.unitCancelled name flag) :=
    (List.count_filter rfl).symm
  rw [hcount, h.filter_journal_eq, List.count_eq_countP, List.countP_filterMap]
  conv => rhs; rw [← map_snd_withEarlier s.joins, List.countP_map]
  refine List.countP_congr fun p _ => ?_
  have hiff : u.notice? (decide (p.2.1 ∈ s.begun)) (p.1.findSome? u.failure?) p.2 =
    some (.unitCancelled name flag) ↔ _ := Setup.notice?_eq_unitCancelled_iff
  rw [Function.comp_apply, decide_eq_true_iff, ← hiff]
  cases u.notice? (decide (p.2.1 ∈ s.begun)) (p.1.findSome? u.failure?) p.2 <;> simp

theorem not_mem_calls_of_not_begun (h : Reachable u (Fleet.start u scopes caller) s) {i : Nat}
    (hi : i ∉ s.begun) (call : Call) (r : R) : (i, call, r) ∉ s.calls := by
  intro hcall
  obtain ⟨g, hg⟩ := h.stage_of_deed (List.mem_filter.mp (mem_calls.mp hcall)).1 rfl
  exact State.not_mem_calls (h.stepsOf_eq_nil hi hg) hcall

/-- The first fault that a run holds is what it returns. -/
theorem failure_of_result (h : Reachable u (Fleet.start u scopes caller) s) {f : Fault}
    (hf : s.result = .error f) (hfault : f.isCancellation = false) :
    s.joins.findSome? u.failure? = some f := by
  rw [h.result_eq] at hf
  cases hfirst : s.joins.findSome? u.failure? with
  | some f' => simpa [hfirst] using hf
  | none =>
      cases hcut : s.joins.findSome? u.cancellation? with
      | none => simp [hfirst, hcut] at hf
      | some f' =>
          obtain rfl : f' = f := by simpa [hfirst, hcut] using hf
          obtain ⟨j, -, hj⟩ := List.exists_of_findSome?_eq_some hcut
          rw [Outcome.isCancellation_of_cancellation? hj] at hfault
          cases hfault

/-- What ends in a success or a cancellation has seen no failure. -/
theorem no_failure_of_result (h : Reachable u (Fleet.start u scopes caller) s)
    (hall : ∀ f, s.result = .error f → f.isCancellation = true) :
    s.joins.findSome? u.failure? = none := by
  cases hfirst : s.joins.findSome? u.failure? with
  | none => rfl
  | some f =>
      obtain ⟨j, -, hj⟩ := List.exists_of_findSome?_eq_some hfirst
      have hcut := hall f (by rw [h.result_eq, hfirst]; rfl)
      rw [Outcome.isCancellation_of_failure? hj] at hcut
      cases hcut

/-- The first failure is reported under the name of the unit that it names. -/
theorem exists_report (h : Reachable u (Fleet.start u scopes caller) s) {f : Fault}
    (hf : s.joins.findSome? u.failure? = some f) : ∃ name, f.unit? = some name ∧
      s.joins.findSome? u.report? = some (.unitFailed name f.message) := by
  obtain ⟨before, j, after, hsplit, hj, hbefore⟩ := List.findSome?_eq_some_iff.mp hf
  refine ⟨u.unit j.1, h.unit?_of_failure? (hsplit ▸ by simp) hj,
    List.findSome?_eq_some_iff.mpr ⟨before, j, after, hsplit, ?_, fun k hk => ?_⟩⟩
  · rw [Setup.report?, hj]
    rfl
  · rw [Setup.report?, hbefore k hk]
    rfl

/-- At every time of a run, and so when it returns,

* the notices in its journal are those of the outcomes that have been joined, in the same order, and
  they say of each unit that was cancelled whether its job had set to work;
* so for each of these units there is one such event with its name and this flag;
* a job that has not set to work has made no calls;
* if the run returns a failure, then one failure of a unit is reported: this one, with the name of
  the unit that it names;
* if it returns a success or a cancellation, then none is. -/
theorem units_reported (h : Reachable u (Fleet.start u scopes caller) s) :
    (s.journal.filter Event.isNotice = (withEarlier s.joins).filterMap fun p =>
      u.notice? (decide (p.2.1 ∈ s.begun)) (p.1.findSome? u.failure?) p.2) ∧
    (∀ name flag, s.journal.count (.unitCancelled name flag) =
      s.joins.countP fun j => (u.cancellation? j).isSome ∧ u.unit j.1 = name ∧
        decide (j.1 ∈ s.begun) = flag) ∧
    (∀ i, i ∉ s.begun → ∀ call r, (i, call, r) ∉ s.calls) ∧
    (∀ f, s.result = .error f → f.isCancellation = false → ∃ name, f.unit? = some name ∧
      s.journal.filter Event.isUnitFailed = [.unitFailed name f.message]) ∧
    ((∀ f, s.result = .error f → f.isCancellation = true) →
      s.journal.filter Event.isUnitFailed = []) := by
  refine ⟨h.filter_journal_eq, h.count_unitCancelled, fun i => h.not_mem_calls_of_not_begun,
    fun f hf hfault => ?_, fun hall => ?_⟩
  · obtain ⟨name, hname, hreport⟩ := h.exists_report (h.failure_of_result hf hfault)
    refine ⟨name, hname, ?_⟩
    rw [h.filter_isUnitFailed, hreport]
    rfl
  · have hreport : s.joins.findSome? u.report? = none := by
      rw [← Option.not_isSome_iff_eq_none, u.isSome_report?, h.no_failure_of_result hall]
      exact Bool.false_ne_true
    rw [h.filter_isUnitFailed, hreport]
    rfl

end Reachable

end Fleet

/-! ## A failure, and a unit that is turned away -/

namespace Rehearsal

open Fleet

/-- The second unit is reported first, as one that was not started, and then the failure. -/
theorem units_reported_of_clumsy : ∃ s f, Reachable clumsyPair (start clumsyPair .one 0) s ∧
    s.begun = [0] ∧ s.result = .error f ∧ f.unit? = some "first" ∧
    s.journal.filter Event.isNotice =
      [.unitCancelled "second" false, .unitFailed "first" "unit 'first' failed"] ∧
    s.journal.count (.unitCancelled "second" false) = 1 ∧
    s.journal.filter Event.isUnitFailed = [.unitFailed "first" f.message] := by
  have hsome : ((start clumsyPair .one 0).moves? clumsyPair untilReturn).isSome = true := by
    decide
  have h := reachable_moves? .start (Option.some_get hsome).symm
  obtain ⟨hnotices, hcount, -, hfailed, -⟩ := h.units_reported
  obtain ⟨name, hname, hfilter⟩ := hfailed _ rfl rfl
  cases hname
  exact ⟨_, _, h, rfl, rfl, rfl, hnotices.trans rfl, (hcount _ _).trans rfl, hfilter⟩

end Rehearsal

end Converge
