import Converge.Proofs.Fleet.Conduct
import Converge.Proofs.Fleet.Smooth
import Converge.Proofs.Heed
import Converge.Proofs.Visit.Cancellation

/-!
# Jobs that keep to themselves

Suppose that what a job is answered depends on nothing but what it has asked before, and that
nothing breaks off and nobody outside cancels anything.  Then the other jobs matter to it in one
way only: the failure of one of them may cut its work short.  Up to there it does what it would do
alone, whatever the order of moves and however many permits there are.
-/

namespace Converge

open Course (World Step)

variable {Q : Type} {A : Q → Type} {R σ α : Type}

/-! ## A pace of a course that is followed alone -/

namespace Course

theorem after_map_left (w : World Q A σ) (s : σ) (ms : List (Mark R)) :
    w.after s (ms.map Step.left) = s := by
  induction ms with
  | nil => rfl
  | cons m ms ih => exact ih

theorem run_marks (w : World Q A σ) (c : Course Q A R α) (s : σ) :
    (c.run w s).1 = (c.marks.2.run w s).1 ∧
      (c.run w s).2.1 = c.marks.1.map .left ++ (c.marks.2.run w s).2.1 := by
  induction c with
  | leave m next ih => exact ⟨ih.1, congrArg (Step.left m :: ·) ih.2⟩
  | _ => exact ⟨rfl, rfl⟩

theorem run_pace (w : World Q A σ) (c : Course Q A R α) (s : σ) :
    (c.run w s).1 = ((c.pace (w.cancelled s)).2.run w s).1 ∧
      (c.run w s).2.1 = (c.pace (w.cancelled s)).1.map .left ++
        ((c.pace (w.cancelled s)).2.run w s).2.1 := by
  cases c with
  | look next => exact run_marks w (next (w.cancelled s)) s
  | _ => exact run_marks w _ s

/-- A pace after a cancellation is the one that would have been made anyway, or it is the end. -/
theorem Heeds.pace {c : Course Q A R (Except Fault α)} (h : c.Heeds) (b : Bool) :
    c.pace b = c.pace false ∨ ∃ here, c.pace b = ([], done (.error (.cancelled here))) := by
  cases b with
  | false => exact .inl rfl
  | true =>
      cases c with
      | look next =>
          obtain ⟨here, hstop⟩ := h.1
          exact .inr ⟨here, by rw [pace_look, hstop]; rfl⟩
      | _ => exact .inl rfl

theorem Heeds.pace_false {c : Course Q A R (Except Fault α)} (h : c.Heeds) :
    (c.pace false).2.Heeds := by
  cases c with
  | look next => exact h.2.marks
  | leave m next => exact Heeds.marks (c := leave m next) h
  | _ => exact h

end Course

namespace Fleet

/-- The calls of one job that have been begun, in order. -/
def State.callsOf (s : State Q A R) (i : Nat) : List (Call × R) :=
  (s.calls.filter (·.1 = i)).map Prod.snd

/-- They begin with steps of its course. -/
theorem State.callsOf_eq (s : State Q A R) (i : Nat) :
    s.callsOf i = (stepsOf i s.history).filterMap Step.call? := by
  rw [callsOf, calls, stepsOf, stepsIn, deedsOf, ← List.filter_reverse, List.filterMap_filterMap,
    List.filterMap_filter, List.filter_filterMap, List.map_filterMap]
  congr
  funext d
  cases d with
  | step k x =>
      by_cases hk : k = i
      · cases x with
        | left m => cases m <;> simp [Deed.call?, Deed.step?, Deed.job?, Step.call?, hk]
        | answered => simp [Deed.call?, Deed.step?, Deed.job?, Step.call?, hk]
      · cases x with
        | left m => cases m <;> simp [Deed.call?, Deed.job?, hk]
        | answered => simp [Deed.call?, Deed.job?, hk]
  | _ => simp [Deed.call?, Deed.step?]

/-! ## Worlds of their own -/

/-- A world for each job, of which the others know nothing. -/
structure Seclusion (Q : Type) (A : Q → Type) (σ : Type) where
  answer : Nat → (q : Q) → σ → A q × σ
  first : Nat → σ

namespace Seclusion

/-- The world of job `i`, in which nobody cancels anything. -/
def world (p : Seclusion Q A σ) (i : Nat) : World Q A σ := ⟨fun _ => false, p.answer i⟩

/-- What job `i` comes to alone, and the steps that it takes. -/
def solo (p : Seclusion Q A σ) (u : Setup Q A R) (i : Nat) :
    Except Fault Tally × List (Step Q A R) × σ :=
  (u.course i).run (p.world i) (p.first i)

/-- What a job is answered after its steps so far. -/
def answers (p : Seclusion Q A σ) (s : State Q A R) (i : Nat) (q : Q) : A q :=
  (p.answer i q ((p.world i).after (p.first i) (stepsOf i s.history))).1

end Seclusion

/-- The states that a run can come to by its own moves, with each job in its own world. -/
inductive Isolated (u : Setup Q A R) (p : Seclusion Q A σ) (first : State Q A R) :
    State Q A R → Prop where
  | start : Isolated u p first first
  | move {s t : State Q A R} (m : Move Q A) :
      Isolated u p first s → m.IsOwn (p.answers s) → s.move? u m = some t → Isolated u p first t

variable {u : Setup Q A R} {p : Seclusion Q A σ} {s t : State Q A R} {m : Move Q A}

namespace Isolated

theorem smooth {first : State Q A R} (h : Isolated u p first s) : Smooth u first s := by
  induction h with
  | start => exact .start
  | @move s t m _ hown hm ih => exact ih.move m (p.answers s) hown hm

theorem reachable {first : State Q A R} (h : Isolated u p first s) : Reachable u first s :=
  h.smooth.reachable

theorem undisturbed {first : State Q A R} (h : Isolated u p first s) : Undisturbed u first s :=
  h.smooth.undisturbed

end Isolated

/-! ## A job follows its own course -/

/-- After the steps `past` the course `c` is what is left of what job `i` does alone. -/
structure Leads (u : Setup Q A R) (p : Seclusion Q A σ) (i : Nat) (past : List (Step Q A R))
    (c : Course Q A R (Except Fault Tally)) : Prop where
  heeds : c.Heeds
  result : (c.run (p.world i) ((p.world i).after (p.first i) past)).1 = (p.solo u i).1
  steps : past ++ (c.run (p.world i) ((p.world i).after (p.first i) past)).2.1 = (p.solo u i).2.1

/-- Job `i` has come after the steps `past` to the end that it comes to alone, or was cancelled
before that. -/
def Settles (u : Setup Q A R) (p : Seclusion Q A σ) (i : Nat) (past : List (Step Q A R))
    (r : Except Fault Tally) : Prop :=
  (r = (p.solo u i).1 ∧ past = (p.solo u i).2.1) ∨
    (∃ here, r = .error (.cancelled here)) ∧ past <+: (p.solo u i).2.1

/-- At this stage, after the steps `past`, job `i` has done nothing that it would not do alone. -/
def Stage.Follows (u : Setup Q A R) (p : Seclusion Q A σ) (i : Nat) (past : List (Step Q A R)) :
    Stage Q A R → Prop
  | fresh | entering | waiting | admitted => past = []
  | working c => Leads u p i past c ∨ ∃ r, c = .done r ∧ Settles u p i past r
  | asking q next => Leads u p i past (.ask q next)
  | leaving o | ended o | joined o => ∃ r, o = .returned r ∧ Settles u p i past r

variable {i : Nat} {past : List (Step Q A R)}

namespace Leads

variable {c : Course Q A R (Except Fault Tally)}

/-- A job that sets to work has its whole course before it. -/
theorem start (hi : i < u.jobs.length) : Leads u p i [] (u.course i) where
  heeds := by
    rw [Setup.course_eq (List.getElem?_eq_getElem hi)]
    exact Tree.heeds_converge u.provider _ u.policy
  result := rfl
  steps := rfl

theorem settles {r : Except Fault Tally} (h : Leads u p i past (.done r)) :
    Settles u p i past r :=
  .inl ⟨h.result, (List.append_nil past).symm.trans h.steps⟩

theorem isPrefix (h : Leads u p i past c) : past <+: (p.solo u i).2.1 := ⟨_, h.steps⟩

/-- A pace leads on, or finds a cancellation and is the end. -/
theorem pace (h : Leads u p i past c) (b : Bool) :
    Leads u p i (past ++ (c.pace b).1.map .left) (c.pace b).2 ∨
      ∃ here, c.pace b = ([], .done (.error (.cancelled here))) := by
  rcases h.heeds.pace b with hpace | hstop
  · obtain ⟨hresult, hsteps⟩ :=
      Course.run_pace (p.world i) c ((p.world i).after (p.first i) past)
    rw [hpace]
    refine .inl ⟨h.heeds.pace_false, ?_, ?_⟩
    · rw [World.after_append, Course.after_map_left, ← h.result]
      exact hresult.symm
    · rw [World.after_append, Course.after_map_left, ← h.steps, hsteps, List.append_assoc]
      rfl
  · exact .inr hstop

/-- The answer of its own world leads on. -/
theorem reply {q : Q} {next : A q → Course Q A R (Except Fault Tally)} {a : A q}
    (h : Leads u p i past (.ask q next))
    (ha : a = (p.answer i q ((p.world i).after (p.first i) past)).1) :
    Leads u p i (past ++ [.answered q a]) (next a) := by
  subst ha
  refine ⟨h.heeds _, ?_, ?_⟩
  · rw [← h.result, World.after_append]
    rfl
  · rw [← h.steps, World.after_append, List.append_assoc]
    rfl

end Leads

theorem Settles.isPrefix {r : Except Fault Tally} (h : Settles u p i past r) :
    past <+: (p.solo u i).2.1 := by
  rcases h with ⟨-, rfl⟩ | ⟨-, hpast⟩
  · exact List.prefix_rfl
  · exact hpast

/-- What ends otherwise than cancelled ends as it does alone. -/
theorem Settles.eq_solo {r : Except Fault Tally} (h : Settles u p i past r)
    (hr : ∀ here, r ≠ .error (.cancelled here)) :
    r = (p.solo u i).1 ∧ past = (p.solo u i).2.1 := by
  refine h.resolve_right ?_
  rintro ⟨⟨here, heq⟩, -⟩
  exact hr here heq

theorem Stage.Follows.isPrefix {g : Stage Q A R} (h : g.Follows u p i past) :
    past <+: (p.solo u i).2.1 := by
  cases g with
  | fresh | entering | waiting | admitted =>
      obtain rfl : past = [] := h
      exact List.nil_prefix
  | working c =>
      rcases h with h | ⟨r, -, h⟩
      · exact h.isPrefix
      · exact h.isPrefix
  | asking q next => exact Leads.isPrefix h
  | leaving o | ended o | joined o =>
      obtain ⟨r, -, h⟩ := h
      exact h.isPrefix

/-- A job that goes on follows its course still, if it is answered by its own world and does not
break off. -/
theorem Goes.follows {b b' : Bool} {g g' : Stage Q A R} {h ds : List (Deed Q A R)}
    (hstep : Goes u i b b' g ds g') (hi : i < u.jobs.length) (hg : g.Follows u p i (stepsIn h))
    (hreply : ∀ q a, .step i (.answered q a) ∈ ds →
      a = (p.answer i q ((p.world i).after (p.first i) (stepsIn h))).1)
    (hcrash : ∀ task how, g' ≠ .leaving (.crashed task how)) : g'.Follows u p i (stepsIn (ds ++ h)) := by
  have hturned : stepsIn h = [] → Settles u p i (stepsIn h) (.error (.cancelled .top)) := by
    intro hnil
    rw [hnil]
    exact .inr ⟨⟨_, rfl⟩, List.nil_prefix⟩
  cases hstep with
  | pass | queue | letOn => exact hg
  | turnAway | giveUp => exact ⟨_, rfl, hturned hg⟩
  | handOn => exact ⟨_, rfl, by simpa [Deed.step?] using hturned hg⟩
  | takeUp | enter =>
      refine .inl ?_
      rw [List.singleton_append, stepsIn_cons, show stepsIn h = [] from hg]
      exact .start hi
  | finish =>
      rcases hg with hlead | ⟨r, hr, hsettled⟩
      · exact ⟨_, rfl, hlead.settles⟩
      · obtain rfl := Course.done.inj hr
        exact ⟨_, rfl, hsettled⟩
  | ask =>
      rcases hg with hlead | ⟨r, hr, -⟩
      · simpa [Stage.Follows, Deed.step?] using hlead
      · cases hr
  | @pace c =>
      rw [stepsIn_marks]
      rcases hg with hlead | ⟨r, rfl, hsettled⟩
      · rcases hlead.pace b with hgo | ⟨here, hstop⟩
        · exact .inl hgo
        · rw [hstop, List.map_nil, List.append_nil]
          exact .inr ⟨_, rfl, .inr ⟨⟨here, rfl⟩, hlead.isPrefix⟩⟩
      · exact .inr ⟨r, rfl, by simpa [Course.pace] using hsettled⟩
  | reply a =>
      refine .inl ?_
      simpa [Deed.step?] using Leads.reply hg (hreply _ a List.mem_cons_self)
  | crash => exact absurd rfl (hcrash _ _)
  | leave => simpa [Stage.Follows, Deed.step?] using hg
  | join => simpa [Stage.Follows, Deed.step?] using hg

/-! ## Every job of a run follows its own course -/

/-- Alone a job can only fail with the failure of a call. -/
theorem Seclusion.forUnit_of_solo (hi : i < u.jobs.length) {e : Fault}
    (he : (p.solo u i).1 = .error e) (name : String) : e.forUnit name = .unit name e := by
  have hcourse := Setup.course_eq (List.getElem?_eq_getElem hi)
  obtain ⟨cs, result, s', ⟨steps, hrun, -⟩, hvisit⟩ :=
    Tree.exists_visit_of_converge (p.world i) u.provider u.policy u.jobs[i].tree (p.first i)
  rw [Seclusion.solo, hcourse, hrun] at he
  obtain rfl : result = .error e := he
  obtain ⟨_, _, _, _, _, -, -, -, hfails⟩ := Tree.Ended.exists_failed hvisit.ended
  exact hfails.forUnit name

namespace Isolated

variable {scopes : Scopes} {caller : Nat}

theorem follows (h : Isolated u p (Fleet.start u scopes caller) s) {g : Stage Q A R}
    (hi : s.stages[i]? = some g) : g.Follows u p i (stepsOf i s.history) := by
  induction h generalizing g with
  | start =>
      rw [stage_start hi, stepsOf, deedsOf_start]
      exact rfl
  | @move s t m hs hown hm ih =>
      have hmoved := moved_of_move? hm
      have hsound := hs.reachable.isSound
      obtain ⟨g₀, hg₀, ⟨rfl, hdeeds⟩ | ⟨ds, hdeeds, hstep⟩⟩ := hmoved.came hsound hi
      · rw [stepsOf, hdeeds]
        exact ih hg₀
      · have hlt : i < u.jobs.length := by
          rw [← hsound.length]
          exact State.lt_of_stage hg₀
        rw [stepsOf, hdeeds]
        refine hstep.follows hlt (ih hg₀) (fun q a hmem => ?_) ?_
        · obtain ⟨next, answer, -, rfl, rfl⟩ := hmoved.isDue hdeeds _ hmem
          obtain rfl : answer = p.answers s i := hown
          rfl
        · -- only a job that has put a question could break off
          rintro task how rfl
          cases hstep with
          | crash => exact hmoved.not_crashed hsound hown hg₀ hi

/-- An outcome is what the job comes to alone, or a cancellation on the way there. -/
theorem settles (h : Isolated u p (Fleet.start u scopes caller) s) {g : Stage Q A R} {o : Outcome}
    (hi : s.stages[i]? = some g) (ho : g.outcome? = some o) :
    ∃ r, o = .returned r ∧ Settles u p i (stepsOf i s.history) r := by
  have hfollows := h.follows hi
  cases g with
  | leaving | ended | joined =>
      obtain rfl := Option.some.inj ho
      exact hfollows
  | _ => cases ho

theorem lt_of_stage (h : Isolated u p (Fleet.start u scopes caller) s) {g : Stage Q A R}
    (hi : s.stages[i]? = some g) : i < u.jobs.length := by
  rw [← h.reachable.isSound.length]
  exact State.lt_of_stage hi

/-! ## What the run returns -/

/-- A job that succeeds has done all that it does alone, with the same tally. -/
theorem eq_solo_of_ok (h : Isolated u p (Fleet.start u scopes caller) s) {g : Stage Q A R}
    {tally : Tally} (hi : s.stages[i]? = some g)
    (ho : g.outcome? = some (.returned (.ok tally))) :
    (p.solo u i).1 = .ok tally ∧ stepsOf i s.history = (p.solo u i).2.1 := by
  obtain ⟨r, hr, hsettles⟩ := h.settles hi ho
  obtain rfl := Outcome.returned.inj hr
  obtain ⟨hresult, hsteps⟩ := hsettles.eq_solo (by simp)
  exact ⟨hresult.symm, hsteps⟩

/-- What a joined job failed with is what it fails with alone. -/
theorem exists_solo_of_failure (h : Isolated u p (Fleet.start u scopes caller) s)
    {j : Nat × Outcome} (hj : j ∈ s.joins) {f : Fault} (hf : u.failure? j = some f) :
    j.1 < u.jobs.length ∧ ∃ e, (p.solo u j.1).1 = .error e ∧ f = e.forUnit (u.unit j.1) := by
  obtain ⟨i, o⟩ := j
  have hi := h.reachable.mem_joins.mp hj
  refine ⟨h.lt_of_stage hi, ?_⟩
  obtain ⟨r, rfl, hsettles⟩ := h.settles hi rfl
  have hfault := Outcome.isCancellation_of_failure? hf
  cases r with
  | ok tally => cases hf
  | error e =>
      have he : e.isCancellation = false := by
        cases hcancel : e.isCancellation with
        | false => rfl
        | true => simp [Setup.failure?, Outcome.failure?, Outcome.result, hcancel] at hf
      have hsolo := (hsettles.eq_solo fun here heq => ?_).1
      · refine ⟨e, hsolo.symm, ?_⟩
        simpa [Setup.failure?, Outcome.failure?, Outcome.result, he, eq_comm] using hf
      · obtain rfl := Except.error.inj heq
        cases he

/-- A run that has returned succeeded as all of its jobs do alone, or fails as one of them does. -/
theorem result_of_closed (h : Isolated u p (Fleet.start u scopes caller) s)
    (hcaller : scopes.cancelled caller = false) (hc : s.closed = true) :
    ((∃ summary, s.result = .ok summary) ∧
      ∀ i < u.jobs.length, ∃ tally, (p.solo u i).1 = .ok tally) ∨
    ∃ i < u.jobs.length, ∃ e, (p.solo u i).1 = .error e ∧
      s.result = .error (.unit (u.unit i) e) := by
  have hreach := h.reachable
  cases hresult : s.result with
  | ok summary =>
      refine .inl ⟨⟨summary, rfl⟩, fun i hi => ?_⟩
      have hlt := hi
      rw [← hreach.isSound.length] at hlt
      obtain ⟨o, ho⟩ := hreach.joined_of_closed hc (List.getElem?_eq_getElem hlt)
      have hstage : s.stages[i]? = some (.joined o) := by rw [List.getElem?_eq_getElem hlt, ho]
      obtain ⟨tally, rfl⟩ :=
        hreach.result_ok_iff.mp ⟨summary, hresult⟩ (i, o) (hreach.mem_joins.mpr hstage)
      exact ⟨tally, (h.eq_solo_of_ok hstage rfl).1⟩
  | error f =>
      -- the fault is no cancellation, so it is the failure of a job that was joined
      have hfault := hreach.isCancellation_of_undisturbed hc h.undisturbed hcaller hresult
      obtain ⟨j, hmem, hj⟩ := hreach.exists_join_of_failure hresult hfault
      obtain ⟨hlt, e, he, rfl⟩ := h.exists_solo_of_failure hmem hj
      exact .inr ⟨j.1, hlt, e, he, by rw [Seclusion.forUnit_of_solo hlt he]⟩

/-- When all jobs succeed alone, the run returns the sum of what they come to. -/
theorem result_of_solo_ok (h : Isolated u p (Fleet.start u scopes caller) s)
    (hcaller : scopes.cancelled caller = false) (hc : s.closed = true) {tally : Nat → Tally}
    (hsolo : ∀ i < u.jobs.length, (p.solo u i).1 = .ok (tally i)) :
    s.result = .ok ⟨u.jobs.length, u.jobs.length, 0, 0,
      ((List.range u.jobs.length).map tally).sum⟩ := by
  have hreach := h.reachable
  rcases h.result_of_closed hcaller hc with ⟨hok, -⟩ | ⟨i, hi, e, he, -⟩
  · refine hreach.result_of_joins hc hok fun j tally' hj htally' => ?_
    have hi := hreach.mem_joins.mp hj
    rw [htally'] at hi
    have htally := (h.eq_solo_of_ok hi rfl).1
    rw [hsolo j.1 (h.lt_of_stage hi)] at htally
    exact (Except.ok.inj htally).symm
  · rw [hsolo i hi] at he
    cases he

end Isolated

/-! ## Every schedule comes to an end -/

/-- The run makes one of its own moves, with each job in its own world. -/
def Advances (u : Setup Q A R) (p : Seclusion Q A σ) (s t : State Q A R) : Prop :=
  ∃ m : Move Q A, m.IsOwn (p.answers s) ∧ s.move? u m = some t

namespace Isolated

variable {scopes : Scopes} {caller : Nat}

/-- However far a run has come, it can be brought to its end. -/
theorem exists_closed (h : Isolated u p (Fleet.start u scopes caller) s) :
    ∃ t, Isolated u p s t ∧ t.closed = true := by
  refine h.reachable.exists_closed (I := Isolated u p s) .start fun t ht hs hc => ?_
  obtain ⟨m, t', hown, hm⟩ := ht.exists_own_move hc (p.answers t)
  exact ⟨m, t', hown.isOutside, hm, hs.move m hown hm⟩

/-- No run goes on for ever. -/
theorem not_endless (h : Isolated u p (Fleet.start u scopes caller) s) {run : Nat → State Q A R}
    (hfirst : run 0 = s) : ¬ ∀ k, Advances u p (run k) (run (k + 1)) := by
  subst hfirst
  intro hrun
  refine h.reachable.not_endless fun k => ?_
  obtain ⟨m, hown, hm⟩ := hrun k
  exact ⟨m, hown.isOutside, hm⟩

/-- A job begins the calls that it begins alone, as far as it gets, and all of them if it
succeeds. -/
theorem calls_solo (h : Isolated u p (Fleet.start u scopes caller) s) (hi : i < u.jobs.length) :
    s.callsOf i <+: (p.solo u i).2.1.filterMap Step.call? ∧
    stepsOf i s.history <+: (p.solo u i).2.1 ∧
    ∀ g tally, s.stages[i]? = some g → g.outcome? = some (.returned (.ok tally)) →
      s.callsOf i = (p.solo u i).2.1.filterMap Step.call? ∧
      stepsOf i s.history = (p.solo u i).2.1 ∧ (p.solo u i).1 = .ok tally := by
  rw [← h.reachable.isSound.length] at hi
  have hpast := (h.follows (List.getElem?_eq_getElem hi)).isPrefix
  rw [State.callsOf_eq]
  refine ⟨hpast.filterMap _, hpast, fun g tally hg ho => ?_⟩
  obtain ⟨hsolo, hsteps⟩ := h.eq_solo_of_ok hg ho
  exact ⟨by rw [hsteps], hsteps, hsolo⟩

/-- If some job fails alone, the run returns the failure of such a job. -/
theorem result_of_solo_error (h : Isolated u p (Fleet.start u scopes caller) s)
    (hcaller : scopes.cancelled caller = false) (hc : s.closed = true)
    (hsolo : ∃ i < u.jobs.length, ∃ e, (p.solo u i).1 = .error e) :
    ∃ i < u.jobs.length, ∃ e, (p.solo u i).1 = .error e ∧
      s.result = .error (.unit (u.unit i) e) := by
  obtain ⟨i, hi, e, he⟩ := hsolo
  rcases h.result_of_closed hcaller hc with ⟨-, hall⟩ | hfails
  · obtain ⟨tally, hok⟩ := hall i hi
    cases he.symm.trans hok
  · exact hfails

end Isolated

/-- Under whatever limit jobs are run that each have a world of their own, the run begins unless the
limit is more than the largest number of permits.  If it begins, then a job begins the calls that
it begins alone, as far as it gets, and all of them if it succeeds; so much does not depend on the
schedule or on the limit.  The run cannot but come to its end.  If all jobs succeed alone it then
returns that, with the sum of their tallies, and if some job fails alone, it returns the failure of
such a job, under its name. -/
theorem Seclusion.schedule_independence (p : Seclusion Q A σ) (u : Setup Q A R) (limit : Nat)
    {scopes : Scopes} {caller : Nat} (hcaller : scopes.cancelled caller = false) :
    let v : Setup Q A R := { u with limit := limit }
    (begin? v scopes caller = none ↔ maxPermits < limit) ∧
    ∀ first, begin? v scopes caller = some first → ∀ s, Isolated v p first s →
      (∀ i < u.jobs.length,
        s.callsOf i <+: (p.solo u i).2.1.filterMap Step.call? ∧
        stepsOf i s.history <+: (p.solo u i).2.1 ∧
        ∀ g tally, s.stages[i]? = some g → g.outcome? = some (.returned (.ok tally)) →
          s.callsOf i = (p.solo u i).2.1.filterMap Step.call? ∧
          stepsOf i s.history = (p.solo u i).2.1 ∧ (p.solo u i).1 = .ok tally) ∧
      (∃ t, Isolated v p s t ∧ t.closed = true) ∧
      (∀ run : Nat → State Q A R, run 0 = s → ¬ ∀ k, Advances v p (run k) (run (k + 1))) ∧
      (s.closed = true →
        (∀ tally : Nat → Tally, (∀ i < u.jobs.length, (p.solo u i).1 = .ok (tally i)) →
          s.result = .ok ⟨u.jobs.length, u.jobs.length, 0, 0,
            ((List.range u.jobs.length).map tally).sum⟩) ∧
        ((∃ i < u.jobs.length, ∃ e, (p.solo u i).1 = .error e) →
          ∃ i < u.jobs.length, ∃ e, (p.solo u i).1 = .error e ∧
            s.result = .error (.unit (u.unit i) e))) := by
  intro v
  refine ⟨begin?_eq_none_iff, fun first hfirst s h => ?_⟩
  obtain rfl := eq_start_of_begin? hfirst
  exact ⟨fun i hi => h.calls_solo hi, h.exists_closed, fun run hrun => h.not_endless hrun,
    fun hc => ⟨fun tally hsolo => h.result_of_solo_ok hcaller hc hsolo,
      fun hsolo => h.result_of_solo_error hcaller hc hsolo⟩⟩

end Fleet

/-! ## Two jobs and one permit -/

namespace Rehearsal

open Fleet

/-- A stage for each job. -/
def stages : Seclusion Cue Cue.Answer (Environment.Solo Theatre) where
  answer _ := stage.alone.answer
  first _ := curtain

/-- Two jobs that do their work. -/
def deftPair : Setup Cue Cue.Answer Actor := pair (.plain "deft" 0) (.plain "nimble" 1)

/-- Whatever the order of moves, two jobs that do their work are reported as such, and if one of
them cannot do it, its failure is what the run returns. -/
theorem schedule_independence_of_pairs :
    (∃ first s, begin? deftPair .one 0 = some first ∧ Isolated deftPair stages first s ∧
      s.closed = true ∧ s.result = .ok ⟨2, 2, 0, 0, ⟨2, 2, 0⟩⟩) ∧
    ∃ first s, begin? clumsyPair .one 0 = some first ∧ Isolated clumsyPair stages first s ∧
      s.closed = true ∧ s.result = .error (.unit "first" (.apply ⟨["root"]⟩ (.of "it broke"))) := by
  have hone : Scopes.one.cancelled 0 = false := rfl
  constructor
  · obtain ⟨-, hruns⟩ := stages.schedule_independence deftPair 1 hone
    obtain ⟨-, ⟨s, hs, hc⟩, -⟩ := hruns _ rfl _ .start
    refine ⟨_, s, rfl, hs, hc, ?_⟩
    obtain ⟨-, -, -, hends⟩ := hruns _ rfl s hs
    refine (hends hc).1 (fun _ => ⟨1, 1, 0⟩) fun i hi => ?_
    match i, hi with
    | 0, _ => rfl
    | 1, _ => rfl
  · obtain ⟨-, hruns⟩ := stages.schedule_independence clumsyPair 1 hone
    obtain ⟨-, ⟨s, hs, hc⟩, -⟩ := hruns _ rfl _ .start
    refine ⟨_, s, rfl, hs, hc, ?_⟩
    obtain ⟨-, -, -, hends⟩ := hruns _ rfl s hs
    obtain ⟨i, hi, e, he, hresult⟩ := (hends hc).2 ⟨0, by decide, _, rfl⟩
    match i, hi with
    | 0, _ =>
        obtain rfl := Except.error.inj he
        exact hresult
    | 1, _ => cases he

/-- Two jobs that do their work alone do not come to begin if more of them may be at work at once
than there can be permits.  With one less they do. -/
theorem no_run_of_widePair :
    let widePair := { deftPair with limit := 2305843009213693952 }
    (∀ i < widePair.jobs.length, (stages.solo widePair i).1 = .ok ⟨1, 1, 0⟩) ∧
    begin? widePair .one 0 = none ∧
    (begin? { deftPair with limit := 2305843009213693951 } .one 0).isSome = true := by
  refine ⟨fun i hi => ?_, by decide, by decide⟩
  match i, hi with
  | 0, _ => rfl
  | 1, _ => rfl

end Rehearsal

end Converge
