import Converge.Proofs.Fleet.Cancellation
import Converge.Proofs.Fleet.Conduct

/-!
# What slips in after a crash

A job that fails has the shared scope cancelled before its permit goes on.  One that breaks off
does not: its permit goes to the job at the head of the line, and the scope is cancelled only when
the crash is taken into account.  In between that job, and those behind it whose trees hold no
resource at all, can set to work.
-/

namespace Converge

variable {Q : Type} {A : Q → Type} {R α β ε : Type}

/-- The call that begins with a mark. -/
def Mark.call? : Mark R → Option (Call × R)
  | began call r => some (call, r)
  | _ => none

namespace Course

/-! ## What a course comes to first -/

/-- What a course comes to first while no look finds a cancellation: the beginning of a call, or
its end.  It comes to neither if it puts a question before. -/
def first? : Course Q A R α → Option (Sum (Call × R) α)
  | done a => some (.inr a)
  | ask _ _ => none
  | look next => (next false).first?
  | leave m next => (m.call?.map Sum.inl).or next.first?

@[simp] theorem first?_done (a : α) : (done a : Course Q A R α).first? = some (.inr a) := rfl
@[simp] theorem first?_ask (q : Q) (next : A q → Course Q A R α) : (ask q next).first? = none := rfl
@[simp] theorem first?_look (next : Bool → Course Q A R α) :
    (look next).first? = (next false).first? := rfl
@[simp] theorem first?_leave (m : Mark R) (next : Course Q A R α) :
    (leave m next).first? = (m.call?.map Sum.inl).or next.first? := rfl

/-- A course that begins a call first does so whatever comes after it. -/
theorem first?_bind_of_call {c : Course Q A R α} {x : Call × R} (h : c.first? = some (.inl x))
    (f : α → Course Q A R β) : (c.bind f).first? = some (.inl x) := by
  induction c with
  | done a => cases h
  | ask q next ih => cases h
  | look next ih => exact ih false h
  | leave m next ih =>
      rw [leave_bind, first?_leave]
      rw [first?_leave] at h
      cases hm : m.call? with
      | none => exact ih (by simpa [hm] using h)
      | some y => simpa [hm] using h

/-- A course that comes to its end first makes way for what comes after it. -/
theorem first?_bind_of_end {c : Course Q A R α} {a : α} (h : c.first? = some (.inr a))
    (f : α → Course Q A R β) : (c.bind f).first? = (f a).first? := by
  induction c with
  | done b =>
      obtain rfl : b = a := by simpa using h
      rfl
  | ask q next ih => cases h
  | look next ih => exact ih false h
  | leave m next ih =>
      rw [leave_bind, first?_leave]
      rw [first?_leave] at h
      cases hm : m.call? with
      | none => exact ih (by simpa [hm] using h)
      | some y => simp [hm] at h

/-- The marks that come next either hold the call that comes first, or nothing of the kind. -/
theorem first?_marks (c : Course Q A R α) :
    c.first? = ((c.marks.1.findSome? Mark.call?).map Sum.inl).or c.marks.2.first? := by
  induction c with
  | leave m next ih =>
      rw [first?_leave, ih, marks_leave]
      cases hm : m.call? <;> simp [hm]
  | _ => rfl

/-- What comes first comes in the next pace or after it. -/
theorem first?_pace (c : Course Q A R α) : c.first? =
    (((c.pace false).1.findSome? Mark.call?).map Sum.inl).or (c.pace false).2.first? := by
  cases c with
  | look next => exact (next false).first?_marks
  | _ => exact first?_marks _

end Course

namespace Tree

mutual

/-- A walk that nobody disturbs begins with a call on the first resource of the tree; without any
resources it goes through. -/
theorem convergeAt_first? (P : Provider Q A R) (policy : Policy) : ∀ (t : Tree R) (above : Address),
    (∃ tally, t.resources = [] ∧
      (t.convergeAt P policy above).first? = some (.inr (.ok tally))) ∨
    ∃ r rest, t.resources = r :: rest ∧
      (t.convergeAt P policy above).first? = some (.inl (.satisfied, r))
  | node name none ts, above => by
      rw [convergeAt_bare]
      rcases convergeAll_first? P policy ts (above.child name) with
        ⟨tally, hts, hfirst⟩ | ⟨r, rest, hts, hfirst⟩
      · exact .inl ⟨_, by simpa using hts, Course.first?_bind_of_end hfirst _⟩
      · exact .inr ⟨r, rest, by simpa using hts, Course.first?_bind_of_call hfirst _⟩
  | node name (some r) ts, above => by
      rw [convergeAt_resource]
      exact .inr ⟨r, resourcesAll ts, by simp, rfl⟩

/-- So does one over several trees. -/
theorem convergeAll_first? (P : Provider Q A R) (policy : Policy) :
    ∀ (ts : List (Tree R)) (above : Address),
    (∃ tally, resourcesAll ts = [] ∧
      (convergeAll P policy above ts).first? = some (.inr (.ok tally))) ∨
    ∃ r rest, resourcesAll ts = r :: rest ∧
      (convergeAll P policy above ts).first? = some (.inl (.satisfied, r))
  | [], above => by
      rw [convergeAll_nil]
      exact .inl ⟨0, by simp, rfl⟩
  | t :: ts, above => by
      rw [convergeAll_cons]
      rcases convergeAt_first? P policy t above with ⟨tally, ht, hfirst⟩ | ⟨r, rest, ht, hfirst⟩
      · rw [Course.andThen, Course.first?_bind_of_end hfirst]
        rcases convergeAll_first? P policy ts above with
          ⟨tally', hts, hfirst'⟩ | ⟨r, rest, hts, hfirst'⟩
        · exact .inl ⟨_, by simp [ht, hts], Course.first?_bind_of_end hfirst' _⟩
        · exact .inr ⟨r, rest, by simp [ht, hts], Course.first?_bind_of_call hfirst' _⟩
      · exact .inr ⟨r, rest ++ resourcesAll ts, by simp [ht], Course.first?_bind_of_call hfirst _⟩

end

/-- What a whole walk comes to first. -/
theorem converge_first? (P : Provider Q A R) (policy : Policy) (t : Tree R) :
    (∃ tally, t.resources = [] ∧ (t.converge P policy).first? = some (.inr (.ok tally))) ∨
    ∃ r rest, t.resources = r :: rest ∧
      (t.converge P policy).first? = some (.inl (.satisfied, r)) := by
  have hnote : (t.converge P policy).first? =
      ((t.convergeAt P policy .top).bind (concluded t.name)).first? := rfl
  rcases convergeAt_first? P policy t .top with ⟨tally, ht, hfirst⟩ | ⟨r, rest, ht, hfirst⟩
  · exact .inl ⟨tally, ht, by rw [hnote, Course.first?_bind_of_end hfirst]; rfl⟩
  · exact .inr ⟨r, rest, ht, by rw [hnote, Course.first?_bind_of_call hfirst]⟩

/-- The monitor of the courses that make calls on resources in `S` only. -/
def within (S : R → Prop) : Monitor Q A R Unit where
  mayAsk _ _ := True
  answered _ _ _ := ()
  looked _ _ := some ()
  mayLeave _ m := ∀ x, m.call? = some x → S x.2
  left _ _ := ()

/-- A call on a resource in `S`. -/
theorem call_within {S : R → Prop} {r : R} (hr : S r) (call : Call) (work : Plan Q A α) :
    (Course.call call r work).Meets (within S) (fun _ _ => True) () := by
  refine ⟨fun x hx => Option.some.inj hx ▸ hr, ?_⟩
  refine (Course.Meets.ofPlan (I := fun _ => True) (fun _ _ _ => trivial)
    (fun _ _ _ _ => trivial) work trivial).bind fun y a _ => ?_
  exact ⟨(fun _ hx => by cases hx), trivial⟩

/-- A walk makes calls on the resources of its tree only. -/
theorem within_grants (P : Provider Q A R) (S : R → Prop) :
    Grants (within S) P S (fun _ => True) (fun _ => True) where
  note _ _ _ _ := ⟨(fun _ hx => by cases hx), trivial⟩
  look _ _ _ _ _ := trivial
  stop _ _ _ _ _ := trivial
  satisfied x y here r _ _ hr := by
    refine (call_within hr .satisfied (P.satisfied r)).bind fun z a _ => ?_
    cases a <;> simp [stop, Keeps]
  apply x here r _ hr := by
    rintro (_ | _) y hy
    · refine ⟨(fun _ hx => by cases hx), (call_within hr .apply (P.apply r)).bind fun z a _ => ?_⟩
      cases a with
      | ok => exact ⟨(fun _ hx => by cases hx), by simp [Keeps]⟩
      | error f => simp [stop, Keeps]
    · simp [Keeps]

end Tree

namespace Fleet

variable {u : Setup Q A R} {s t : State Q A R} {i : Nat}

/-- A job makes calls on the resources of its own tree only. -/
theorem Reachable.mem_resources_of_call {scopes : Scopes} {caller : Nat}
    (h : Reachable u (Fleet.start u scopes caller) s) {call : Call} {r : R}
    (hcall : (i, call, r) ∈ s.calls) :
    ∃ job, u.jobs[i]? = some job ∧ r ∈ job.tree.resources := by
  have hdeed := (List.mem_filter.mp (mem_calls.mp hcall)).1
  obtain ⟨later, earlier, hsplit⟩ := List.append_of_mem hdeed
  obtain ⟨job, hjob⟩ := h.job_of_deed hdeed rfl
  refine ⟨job, hjob, ?_⟩
  have hmeets := (Tree.within_grants u.provider (· ∈ job.tree.resources)).converge_meets
    u.policy job.tree () (fun r hr => hr) trivial
  rw [← Setup.course_eq hjob] at hmeets
  exact h.may_leave (fun _ _ => rfl) hmeets hsplit (call, r) rfl

/-! ## A job that is left alone

That a call can follow a crash takes a run in which one does.  The moves of such a run are those
of a single job at a time, so each stretch changes that job's stage and nothing that the next
stretch needs. -/

/-- From `s` to `t` nothing has happened but what job `i` did. -/
structure Alone (i : Nat) (s t : State Q A R) : Prop where
  flag : t.isCancelled = s.isCancelled
  line : t.line = s.line
  others : ∀ j, i ≠ j → t.stages[j]? = s.stages[j]?

theorem Alone.trans {v : State Q A R} (h : Alone i s t) (h' : Alone i t v) : Alone i s v where
  flag := h'.flag.trans h.flag
  line := h'.line.trans h.line
  others := fun j hj => (h'.others j hj).trans (h.others j hj)

/-- Job `i` has come to the beginning of a call, or to its end. -/
def State.HasCome (i : Nat) : Sum (Call × R) (Except Fault Tally) → State Q A R → Prop
  | .inl (call, r), s => (i, call, r) ∈ s.calls
  | .inr a, s => s.stages[i]? = some (.working (.done a))

/-- Marks with a call among them are the beginning of that call. -/
theorem mem_calls_mark {ms : List (Mark R)} {call : Call} {r : R}
    (h : ms.findSome? Mark.call? = some (call, r)) : (i, call, r) ∈ (s.mark i ms).calls := by
  obtain ⟨m, hm, hcall⟩ := List.exists_of_findSome?_eq_some h
  cases m with
  | began call' r' =>
      obtain ⟨rfl, rfl⟩ := Prod.mk.inj (Option.some.inj hcall)
      refine List.mem_filterMap.mpr ⟨.step i (.left (.began call' r')), ?_, rfl⟩
      simp [State.mark, hm]
  | _ => cases hcall

/-- A pace of a job that is left alone brings it to what comes first, or nearer to it. -/
theorem exists_pace {c : Course Q A R (Except Fault Tally)}
    {x : Sum (Call × R) (Except Fault Tally)}
    (hi : s.stages[i]? = some (.working c)) (hb : s.isCancelled = false) (hx : c.first? = some x)
    (hgo : s.goOn i c = (s.setStage i (.working (c.pace s.isCancelled).2)).mark i
      (c.pace s.isCancelled).1) :
    ∃ t, Reachable u s t ∧ Alone i s t ∧ (State.HasCome i x t ∨
      t.stages[i]? = some (.working (c.pace false).2) ∧ (c.pace false).2.first? = some x) := by
  rw [hb] at hgo
  refine ⟨s.goOn i c, .move (.goOn i) .start (by simp [State.move?, hi]), ?_, ?_⟩
  · rw [hgo]
    exact ⟨rfl, rfl, fun j hj => State.stage_setStage_ne hj⟩
  · rw [hgo]
    rw [Course.first?_pace] at hx
    cases hcall : (c.pace false).1.findSome? Mark.call? with
    | some y =>
        obtain rfl : Sum.inl y = x := by simpa [hcall] using hx
        exact .inl (mem_calls_mark hcall)
    | none =>
        refine .inr ⟨State.stage_setStage_self hi, by simpa [hcall] using hx⟩

/-- A job that is left alone comes to what comes first on its course. -/
theorem exists_hasCome (c : Course Q A R (Except Fault Tally)) (s : State Q A R)
    {x : Sum (Call × R) (Except Fault Tally)} (hi : s.stages[i]? = some (.working c.marks.2))
    (hb : s.isCancelled = false) (hx : c.marks.2.first? = some x) :
    ∃ t, Reachable u s t ∧ Alone i s t ∧ State.HasCome i x t := by
  induction c generalizing s with
  | done a =>
      obtain rfl : Sum.inr a = x := by simpa using hx
      exact ⟨s, .start, ⟨rfl, rfl, fun _ _ => rfl⟩, hi⟩
  | ask q next ih => cases hx
  | leave m next ih => exact ih s hi hb hx
  | look next ih =>
      obtain ⟨t, ht, halone, hcome | ⟨hstage, hfirst⟩⟩ := exists_pace hi hb hx rfl
      · exact ⟨t, ht, halone, hcome⟩
      · obtain ⟨v, hv, halone', hcome⟩ := ih false t hstage (halone.flag.trans hb) hfirst
        exact ⟨v, ht.trans hv, halone.trans halone', hcome⟩

/-- A job that has been handed a permit comes to what comes first for it. -/
theorem exists_hasCome_of_admitted {x : Sum (Call × R) (Except Fault Tally)} {job : Job R}
    (hi : s.stages[i]? = some .admitted) (hb : s.isCancelled = false)
    (hjob : u.jobs[i]? = some job) (hx : (job.tree.converge u.provider u.policy).first? = some x) :
    ∃ t, Reachable u s t ∧ Alone i s t ∧ State.HasCome i x t := by
  have hcourse : u.course i = job.tree.converge u.provider u.policy := by
    rw [Setup.course, hjob]
  have hlook : s.move? u (.look i) = some (s.begin u i) := by simp [State.move?, hi, hb]
  have hbegin : (s.begin u i).stages[i]? =
      some (.working (job.tree.converge u.provider u.policy)) := by
    rw [← hcourse]
    exact State.stage_setStage_self hi
  have halone : Alone i s (s.begin u i) := ⟨rfl, rfl, fun j hj => State.stage_setStage_ne hj⟩
  obtain ⟨t, ht, halone', hcome | ⟨hstage, hfirst⟩⟩ := exists_pace (u := u) hbegin hb hx rfl
  · exact ⟨t, (Reachable.start.move _ hlook).trans ht, halone.trans halone', hcome⟩
  · obtain ⟨v, hv, halone'', hcome⟩ :=
      exists_hasCome (u := u) _ t hstage (halone'.flag.trans hb) hfirst
    exact ⟨v, ((Reachable.start.move _ hlook).trans ht).trans hv,
      (halone.trans halone').trans halone'', hcome⟩

/-- A job whose work is over gives its permit to the head of the line. -/
theorem exists_leave {o : Outcome} {j : Nat} {rest : List Nat} (hs : s.Sound u)
    (hi : s.stages[i]? = some (.leaving o)) (hline : s.line = j :: rest) :
    ∃ t, Reachable u s t ∧ t.isCancelled = s.isCancelled ∧ t.line = rest ∧
      t.stages[j]? = some .admitted := by
  have hleave : s.move? u (.leave i) = some ((s.setStage i (.ended o)).release i) := by
    simp [State.move?, hi]
  refine ⟨_, Reachable.start.move _ hleave, by simp, by simp [State.setStage, hline], ?_⟩
  have hj : s.stages[j]? = some .waiting := (hs.inLine j).mp (by simp [hline])
  have hij : i ≠ j := fun h => by simp [h, hj] at hi
  have hstage : (s.setStage i (.ended o)).stages[j]? = some .waiting := by
    rw [State.stage_setStage_ne hij, hj]
  rw [State.stage_release hstage, if_pos]
  simp [State.setStage, hline]

/-- So does a job that has nothing to do for a resource. -/
theorem exists_handOn {j : Nat} {rest : List Nat} {tally : Tally} (hs : s.Sound u)
    (hi : s.stages[i]? = some (.working (.done (.ok tally)))) (hline : s.line = j :: rest) :
    ∃ t, Reachable u s t ∧ t.isCancelled = s.isCancelled ∧ t.line = rest ∧
      t.stages[j]? = some .admitted := by
  let o := Outcome.returned (.ok tally)
  have hfinish : s.move? u (.goOn i) = some (s.setStage i (.leaving o)) := by
    simp [State.move?, hi, State.goOn, Outcome.isFault, o]
  obtain ⟨t, ht, hflag, hrest, hj⟩ := exists_leave (hs.setStage hi (by simp) (by simp))
    (State.stage_setStage_self hi) hline
  exact ⟨t, (Reachable.start.move _ hfinish).trans ht, hflag, hrest, hj⟩

/-- If a permit has gone to a job while the shared scope was not cancelled, then that job or one
behind it can begin a call, unless there are no resources among them. -/
theorem exists_call_of_admitted (rest : List Nat) (s : State Q A R) (j : Nat) (hs : s.Sound u)
    (hb : s.isCancelled = false) (hj : s.stages[j]? = some .admitted) (hline : s.line = rest)
    (hex : ∃ k ∈ j :: rest, ∃ job, u.jobs[k]? = some job ∧ job.tree.resources ≠ []) :
    ∃ k ∈ j :: rest, ∃ t, Reachable u s t ∧ ∃ call r, (k, call, r) ∈ t.calls := by
  induction rest generalizing s j with
  | nil =>
      obtain ⟨k, hk, job, hjob, hres⟩ := hex
      obtain rfl := List.mem_singleton.mp hk
      rcases job.tree.converge_first? u.provider u.policy with ⟨_, hnone, -⟩ | ⟨r, _, -, hfirst⟩
      · exact absurd hnone hres
      · obtain ⟨t, ht, -, hcall⟩ := exists_hasCome_of_admitted hj hb hjob hfirst
        exact ⟨k, hk, t, ht, _, r, hcall⟩
  | cons j' rest ih =>
      have hlt : j < u.jobs.length := hs.length ▸ State.lt_of_stage hj
      have hjob := List.getElem?_eq_getElem hlt
      rcases (u.jobs[j]).tree.converge_first? u.provider u.policy with
        ⟨tally, hnone, hfirst⟩ | ⟨r, _, -, hfirst⟩
      · -- The job has nothing to do, and the one behind it is next.
        obtain ⟨t, ht, halone, hend⟩ := exists_hasCome_of_admitted hj hb hjob hfirst
        obtain ⟨v, hv, hflag, hrest, hj'⟩ :=
          exists_handOn (ht.sound hs) hend (halone.line.trans hline)
        obtain ⟨k, hk, job, hkjob, hres⟩ := hex
        have hkrest : k ∈ j' :: rest := by
          rcases List.mem_cons.mp hk with rfl | hk
          · obtain rfl := Option.some.inj (hjob.symm.trans hkjob)
            exact absurd hnone hres
          · exact hk
        obtain ⟨l, hl, w, hw, hcall⟩ := ih v j' (hv.sound (ht.sound hs))
          (hflag.trans (halone.flag.trans hb)) hj' hrest ⟨k, hkrest, job, hkjob, hres⟩
        exact ⟨l, List.mem_cons_of_mem _ hl, w, (ht.trans hv).trans hw, hcall⟩
      · obtain ⟨t, ht, -, hcall⟩ := exists_hasCome_of_admitted hj hb hjob hfirst
        exact ⟨j, List.mem_cons_self, t, ht, _, r, hcall⟩

namespace Reachable

variable {scopes : Scopes} {caller : Nat} {how : String}

/-- Whoever stands in line at a crash may come to a call, unless the scope was cancelled before
or no resource is in line. -/
theorem exists_call_after_crash (h : Reachable u (Fleet.start u scopes caller) s)
    (hm : s.move? u (.crash i how) = some t) (hb : s.isCancelled = false)
    (hex : ∃ j job, s.isWaiting j = true ∧ u.jobs[j]? = some job ∧ job.tree.resources ≠ []) :
    ∃ j, s.isWaiting j = true ∧ ∃ v, Reachable u t v ∧ ∃ call r, (j, call, r) ∈ v.calls := by
  have hsound := h.isSound
  have hline : ∀ j, s.isWaiting j = true ↔ j ∈ s.line := fun j => by
    rw [hsound.inLine, State.isWaiting, Option.any_eq_true]
    constructor
    · rintro ⟨g, hj, hg⟩
      cases g <;> first | exact hj | cases hg
    · exact fun hj => ⟨_, hj, rfl⟩
  obtain ⟨j, job, hj, hjob, hres⟩ := hex
  rw [hline] at hj
  cases moved_of_move? hm with
  | crash hi =>
      have hset : (s.setStage i (.leaving (.crashed (u.task i) how))).Sound u :=
        hsound.setStage hi (by simp) (by simp)
      cases hl : s.line with
      | nil => simp [hl] at hj
      | cons j₀ rest =>
          obtain ⟨v, hv, hflag, hrest, hj₀⟩ :=
            exists_leave hset (State.stage_setStage_self hi) hl
          obtain ⟨k, hk, w, hw, hcall⟩ := exists_call_of_admitted rest v j₀ (hv.sound hset)
            (hflag.trans hb) hj₀ hrest ⟨j, hl ▸ hj, job, hjob, hres⟩
          exact ⟨k, (hline k).mpr (hl ▸ hk), w, hv.trans hw, hcall⟩

/-- No call is begun any more once a crash has been taken into account. -/
theorem calls_eq_of_crash_joined (h : Reachable u (Fleet.start u scopes caller) s)
    (hm : s.move? u (.crash i how) = some t) {v w : State Q A R} (hv : Reachable u t v)
    (hw : v.move? u (.join i) = some w) :
    w.isCancelled = true ∧ ∀ x, Reachable u w x → x.calls = w.calls := by
  have ht : Reachable u (Fleet.start u scopes caller) t := h.move _ hm
  have hreach : Reachable u (Fleet.start u scopes caller) w := (ht.trans hv).move _ hw
  suffices hb : w.isCancelled = true from ⟨hb, fun x hx => hreach.calls_eq hb hx⟩
  cases moved_of_move? hm with
  | crash hi =>
      obtain ⟨g, hg, ho⟩ := hv.outcome? ht.isSound
        (State.stage_setStage_self hi) rfl
      cases moved_of_move? hw with
      | @join _ o hended =>
          obtain rfl := Option.some.inj (hg.symm.trans hended)
          obtain rfl := Option.some.inj ho
          exact (ht.trans hv).isCancelled_of_join hended rfl hw

/-- After a crash a call of a job in line can follow if and only if the shared scope was not
cancelled before and some job in line has a resource.  It is over when the crash has been taken
into account. -/
theorem call_after_crash_iff (h : Reachable u (Fleet.start u scopes caller) s)
    (hm : s.move? u (.crash i how) = some t) :
    ((∃ j, s.isWaiting j = true ∧ ∃ v, Reachable u t v ∧ ∃ call r, (j, call, r) ∈ v.calls) ↔
      s.isCancelled = false ∧ ∃ j job, s.isWaiting j = true ∧ u.jobs[j]? = some job ∧
        job.tree.resources ≠ []) ∧
    (∀ v w, Reachable u t v → v.move? u (.join i) = some w →
      w.isCancelled = true ∧ ∀ x, Reachable u w x → x.calls = w.calls) := by
  refine ⟨⟨?_, fun ⟨hb, hex⟩ => h.exists_call_after_crash hm hb hex⟩,
    fun v w hv hw => h.calls_eq_of_crash_joined hm hv hw⟩
  rintro ⟨j, hj, v, hv, call, r, hcall⟩
  have hv : Reachable u s v := (Reachable.start.move _ hm).trans hv
  obtain ⟨job, hjob, hr⟩ := (h.trans hv).mem_resources_of_call hcall
  refine ⟨?_, j, job, hj, hjob, List.ne_nil_of_mem hr⟩
  cases hb : s.isCancelled with
  | false => rfl
  | true =>
      obtain ⟨g, hg, hwaiting⟩ := (Option.any_eq_true _ _).mp hj
      have hpending : g.isPending = true := by cases g <;> first | rfl | cases hwaiting
      rw [h.calls_eq hb hv, mem_calls, h.deedsOf_pending hg hpending] at hcall
      cases hcall

end Reachable

end Fleet

namespace Rehearsal

open Fleet

/-- The work on the first resource breaks off. -/
def fragilePair : Setup Cue Cue.Answer Actor :=
  pair { Actor.plain "fragile" 0 with crashApply := some "it fell apart" } (.plain "deft" 1)

/-- The moves up to the point at which the work breaks off. -/
def untilCrash : List (Move Cue Cue.Answer) :=
  untilWork ++ [.reply 0 (stage.reply ⟨[], []⟩), .goOn 0]

/-- The second job stands in line when the work of the first one breaks off, and comes to a
call. -/
theorem call_after_crash_of_first : ∃ s t, Reachable fragilePair (start fragilePair .one 0) s ∧
    s.move? fragilePair (.crash 0 "it fell apart") = some t ∧
    ∃ j, s.isWaiting j = true ∧
      ∃ v, Reachable fragilePair t v ∧ ∃ call r, (j, call, r) ∈ v.calls := by
  have hrun : ((start fragilePair .one 0).moves? fragilePair untilCrash).any (fun s =>
      s.isWaiting 1 && !s.isCancelled &&
        (s.move? fragilePair (.crash 0 "it fell apart")).isSome) = true := by
    decide
  obtain ⟨s, hs, hfacts⟩ := (Option.any_eq_true _ _).mp hrun
  simp only [Bool.and_eq_true, Bool.not_eq_true'] at hfacts
  obtain ⟨⟨hwaits, hb⟩, hcrash⟩ := hfacts
  obtain ⟨t, hm⟩ := Option.isSome_iff_exists.mp hcrash
  have h : Reachable fragilePair (start fragilePair .one 0) s := reachable_moves? .start hs
  exact ⟨s, t, h, hm, (h.call_after_crash_iff hm).1.mpr ⟨hb, 1, _, hwaits, rfl, by simp⟩⟩

/-- So it is not true that no job in line at a crash ever begins a call. -/
theorem crash_not_contained : ¬ ∀ s t how,
    Reachable fragilePair (start fragilePair .one 0) s →
      s.move? fragilePair (.crash 0 how) = some t → ∀ j, s.isWaiting j = true →
        ∀ v, Reachable fragilePair t v → ∀ call r, (j, call, r) ∉ v.calls := by
  intro hclaim
  have hrun : ((start fragilePair .one 0).moves? fragilePair untilCrash).any (fun s =>
      s.isWaiting 1 && (s.move? fragilePair (.crash 0 "it fell apart")).any fun t =>
        (t.moves? fragilePair [.leave 0, .look 1, .goOn 1, .goOn 1]).any fun v =>
          v.calls.any fun c => c.1 = 1) = true := by
    decide
  obtain ⟨s, hs, hfacts⟩ := (Option.any_eq_true _ _).mp hrun
  obtain ⟨hwaits, hcrash⟩ := Bool.and_eq_true_iff.mp hfacts
  obtain ⟨t, hm, hrest⟩ := (Option.any_eq_true _ _).mp hcrash
  obtain ⟨v, hv, hcalls⟩ := (Option.any_eq_true _ _).mp hrest
  obtain ⟨⟨i, call, r⟩, hcall, hi⟩ := List.any_eq_true.mp hcalls
  obtain rfl : i = 1 := by simpa using hi
  exact hclaim s t _ (reachable_moves? .start hs) hm 1 hwaits v (reachable_moves? .start hv) call r
    hcall

end Rehearsal

end Converge
