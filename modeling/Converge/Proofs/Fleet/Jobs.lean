import Converge.Proofs.Fleet.Moves

/-!
# A run as one job sees it

To a single job a run is a sequence of steps of its own: whatever the others do, its stage stays
as it is, or changes in one of a few ways, and with the stage its deeds.  What holds of a job at
every time is therefore proved once over these ways.
-/

namespace Converge.Fleet

variable {Q : Type} {A : Q → Type} {R : Type}

/-- How the stage of job `i` can change while the flag of the shared scope goes from `b` to `b'`,
and the deeds that go with it, the latest first. -/
inductive Goes (u : Setup Q A R) (i : Nat) (b b' : Bool) :
    Stage Q A R → List (Deed Q A R) → Stage Q A R → Prop
  | pass (hb : b = false) : Goes u i b b' .fresh [] .entering
  | turnAway (hb : b = true) : Goes u i b b' .fresh [] (.ended State.notStarted)
  | giveUp (hb : b = true) : Goes u i b b' .waiting [] (.ended State.notStarted)
  | handOn (hb : b = true) : Goes u i b b' .admitted [.released i] (.ended State.notStarted)
  | takeUp (hb : b = false) : Goes u i b b' .admitted [.began i] (.working (u.course i))
  | enter : Goes u i b b' .entering [.began i] (.working (u.course i))
  | queue : Goes u i b b' .entering [] .waiting
  /-- Another job has handed its permit on. -/
  | letOn : Goes u i b b' .waiting [] .admitted
  | finish {r : Except Fault Tally} (hr : (Outcome.returned r).isFault = true → b' = true) :
      Goes u i b b' (.working (.done r)) [] (.leaving (.returned r))
  | ask {q : Q} {next : A q → Course Q A R (Except Fault Tally)} :
      Goes u i b b' (.working (.ask q next)) [.asked i q] (.asking q next)
  | pace {c : Course Q A R (Except Fault Tally)} :
      Goes u i b b' (.working c) ((c.pace b).1.reverse.map fun m => .step i (.left m))
        (.working (c.pace b).2)
  | reply {q : Q} {next : A q → Course Q A R (Except Fault Tally)} (a : A q) :
      Goes u i b b' (.asking q next) [.step i (.answered q a)] (.working (next a))
  | crash {q : Q} {next : A q → Course Q A R (Except Fault Tally)} {how : String} :
      Goes u i b b' (.asking q next) [] (.leaving (.crashed (u.task i) how))
  | leave {o : Outcome} : Goes u i b b' (.leaving o) [.released i] (.ended o)
  | join {o : Outcome} : Goes u i b b' (.ended o) [.joined i o] (.joined o)

/-- An outcome stands. -/
theorem Goes.outcome? {u : Setup Q A R} {i : Nat} {b b' : Bool} {g g' : Stage Q A R}
    {ds : List (Deed Q A R)} {o : Outcome} (h : Goes u i b b' g ds g') (ho : g.outcome? = some o) :
    g'.outcome? = some o := by
  cases h <;> simp_all [Stage.outcome?]

namespace State

variable {s : State Q A R} {i j : Nat} {g g' : Stage Q A R}

theorem stage_setStage_self (hi : s.stages[i]? = some g) :
    (s.setStage i g').stages[i]? = some g' := by
  simp [setStage, lt_of_stage hi]

theorem stage_setStage_ne (hij : i ≠ j) : (s.setStage i g').stages[j]? = s.stages[j]? := by
  simp [setStage, hij]

/-- The stage of a job after a permit has been given back: the head of the line has it now. -/
theorem stage_release (hj : s.stages[j]? = some g) :
    (s.release i).stages[j]? = some (if s.line.head? = some j then .admitted else g) := by
  rw [stages_release]
  cases hl : s.line.head? with
  | none => simpa using hj
  | some k =>
      have hlt := lt_of_stage hj
      by_cases hkj : k = j
      · subst hkj
        simp [hlt]
      · simpa [hkj] using hj

end State

variable {u : Setup Q A R} {s t : State Q A R} {m : Move Q A}

/-- A stage that stays as it is, or changes in one of the ways, with the deeds of the job. -/
def Kept (u : Setup Q A R) (s t : State Q A R) (j : Nat) (g : Stage Q A R) : Prop :=
  (t.stages[j]? = some g ∧ deedsOf j t.history = deedsOf j s.history) ∨
    ∃ g' ds, t.stages[j]? = some g' ∧ deedsOf j t.history = ds ++ deedsOf j s.history ∧
      Goes u j s.isCancelled t.isCancelled g ds g'

/-- A move of job `i` that sets its stage: the others see nothing of it. -/
theorem kept_setStage {i j : Nat} {g g₀ g' : Stage Q A R} (new : List (Deed Q A R))
    {ds : List (Deed Q A R)} (hi : s.stages[i]? = some g₀)
    (hstages : t.stages = (s.setStage i g').stages)
    (hhistory : t.history = new ++ s.history) (hself : deedsOf i new = ds)
    (hothers : ∀ k, i ≠ k → deedsOf k new = [])
    (hgoes : Goes u i s.isCancelled t.isCancelled g₀ ds g') (hj : s.stages[j]? = some g) :
    Kept u s t j g := by
  by_cases hij : i = j
  · subst hij
    obtain rfl := Option.some.inj (hi.symm.trans hj)
    refine .inr ⟨g', ds, ?_, by rw [hhistory, deedsOf_append, hself], hgoes⟩
    rw [hstages, State.stage_setStage_self hi]
  · refine .inl ⟨by rw [hstages, State.stage_setStage_ne hij, hj], ?_⟩
    rw [hhistory, deedsOf_append, hothers j hij, List.nil_append]

/-- A move of job `i` that gives its permit back: the job at the head of the line is let on. -/
theorem kept_release {i j : Nat} {g g₀ g' : Stage Q A R} (hs : s.Sound u)
    (hi : s.stages[i]? = some g₀) (hg₀ : g₀ ≠ .waiting)
    (hgoes : Goes u i s.isCancelled s.isCancelled g₀ [.released i] g')
    (hj : s.stages[j]? = some g) : Kept u s ((s.setStage i g').release i) j g := by
  have hdeeds : deedsOf j ((s.setStage i g').release i).history =
      deedsOf j [.released i] ++ deedsOf j s.history := by
    rw [State.history_release, ← deedsOf_append]
    rfl
  have hline : (s.setStage i g').line.head? = some j → s.stages[j]? = some .waiting := fun h =>
    (hs.inLine j).mp (List.mem_of_mem_head? h)
  by_cases hij : i = j
  · subst hij
    obtain rfl := Option.some.inj (hi.symm.trans hj)
    have hnot : (s.setStage i g').line.head? ≠ some i := fun h =>
      hg₀ (Option.some.inj (hi.symm.trans (hline h)))
    refine .inr ⟨g', [.released i], ?_, by simpa [deedsOf, Deed.job?] using hdeeds, ?_⟩
    · rw [State.stage_release (State.stage_setStage_self hi), if_neg hnot]
    · simpa using hgoes
  · have hdeeds' : deedsOf j ((s.setStage i g').release i).history = deedsOf j s.history := by
      simpa [deedsOf, Deed.job?, hij] using hdeeds
    have hset : (s.setStage i g').stages[j]? = some g := (State.stage_setStage_ne hij).trans hj
    have hstage := State.stage_release (i := i) hset
    by_cases hhead : (s.setStage i g').line.head? = some j
    · obtain rfl := Option.some.inj (hj.symm.trans (hline hhead))
      rw [if_pos hhead] at hstage
      exact .inr ⟨.admitted, [], hstage, by simpa using hdeeds', .letOn⟩
    · rw [if_neg hhead] at hstage
      exact .inl ⟨hstage, hdeeds'⟩

/-- The marks of one job are its own deeds. -/
theorem deedsOf_marks (i j : Nat) (ms : List (Mark R)) :
    deedsOf j (ms.reverse.map fun m => (.step i (.left m) : Deed Q A R)) =
      if i = j then ms.reverse.map fun m => .step i (.left m) else [] := by
  split <;> simp_all [deedsOf, Deed.job?]

/-- To every job a move is a step of its own or none at all. -/
theorem Moved.kept (h : Moved u s m t) (hs : s.Sound u) {j : Nat} {g : Stage Q A R}
    (hj : s.stages[j]? = some g) : Kept u s t j g := by
  cases h with
  | pass hi hb => exact kept_setStage [] hi rfl rfl rfl (by simp) (.pass hb) hj
  | turnAway hi hb => exact kept_setStage [] hi rfl rfl rfl (by simp) (.turnAway hb) hj
  | giveUp hi hb => exact kept_setStage [] hi rfl rfl rfl (by simp) (.giveUp hb) hj
  | handOn hi hb => exact kept_release hs hi (by simp) (.handOn hb) hj
  | @takeUp i hi hb =>
      exact kept_setStage [.began i] hi rfl rfl (by simp [deedsOf_cons, Deed.job?])
        (fun k hk => by simp [deedsOf_cons, Deed.job?, hk]) (.takeUp hb) hj
  | @enter i hi =>
      exact kept_setStage [.began i] hi rfl rfl (by simp [deedsOf_cons, Deed.job?])
        (fun k hk => by simp [deedsOf_cons, Deed.job?, hk]) .enter hj
  | queue hi => exact kept_setStage [] hi rfl rfl rfl (by simp) .queue hj
  | @finish i r hi =>
      cases hr : (Outcome.returned r).isFault with
      | false => exact kept_setStage [] hi rfl rfl rfl (by simp) (.finish (by simp [hr])) hj
      | true =>
          refine kept_setStage [.cancelled] hi rfl rfl rfl (by simp [deedsOf_cons, Deed.job?])
            (.finish fun _ => ?_) hj
          exact State.isCancelled_cancelShared hs
  | @ask i q next hi =>
      exact kept_setStage [.asked i q] hi rfl rfl (by simp [deedsOf_cons, Deed.job?])
        (fun k hk => by simp [deedsOf_cons, Deed.job?, hk]) .ask hj
  | @pace i c hi =>
      exact kept_setStage _ hi rfl rfl (by rw [deedsOf_marks, if_pos rfl])
        (fun k hk => by rw [deedsOf_marks, if_neg hk]) .pace hj
  | @reply i q next answer hi =>
      exact kept_setStage [.step i (.answered q (answer q))] hi rfl rfl
        (by simp [deedsOf_cons, Deed.job?]) (fun k hk => by simp [deedsOf_cons, Deed.job?, hk])
        (.reply (answer q)) hj
  | disturb => exact .inl ⟨hj, rfl⟩
  | crash hi => exact kept_setStage [] hi rfl rfl rfl (by simp) .crash hj
  | leave hi => exact kept_release hs hi (by simp) .leave hj
  | @join i o hi =>
      obtain ⟨ds, hds, hnone⟩ :=
        State.history_account ((s.setStage i (.joined o)).record (.joined i o)) i o u
      have hjobs : ∀ k, deedsOf k ds = [] := fun k =>
        List.filter_eq_nil_iff.mpr fun d hd => by simp [hnone d hd]
      refine kept_setStage (ds ++ [.joined i o]) hi (State.stages_account ..)
        (by rw [hds, List.append_assoc]; rfl) ?_ (fun k hk => ?_) .join hj
      · simp [hjobs, deedsOf_cons, Deed.job?]
      · simp [hjobs, deedsOf_cons, Deed.job?, hk]
  | cancel | close => exact .inl ⟨hj, rfl⟩

/-- The stage of a job before a move, and how the job came from there to where it is. -/
theorem Moved.came (h : Moved u s m t) (hs : s.Sound u) {i : Nat} {g : Stage Q A R}
    (hi : t.stages[i]? = some g) :
    ∃ g₀, s.stages[i]? = some g₀ ∧
      (g = g₀ ∧ deedsOf i t.history = deedsOf i s.history ∨
        ∃ ds, deedsOf i t.history = ds ++ deedsOf i s.history ∧
          Goes u i s.isCancelled t.isCancelled g₀ ds g) := by
  have hlt : i < s.stages.length := by
    rw [hs.length, ← (h.sound hs).length]
    exact State.lt_of_stage hi
  have hg₀ := List.getElem?_eq_getElem hlt
  refine ⟨_, hg₀, ?_⟩
  rcases h.kept hs hg₀ with ⟨hstage, hdeeds⟩ | ⟨g', ds, hstage, hdeeds, hstep⟩
  · exact .inl ⟨Option.some.inj (hi.symm.trans hstage), hdeeds⟩
  · obtain rfl := Option.some.inj (hstage.symm.trans hi)
    exact .inr ⟨ds, hdeeds, hstep⟩

/-- A job that has put a question stands there until it is answered or breaks off. -/
theorem Moved.stage_asking (h : Moved u s m t) (hs : s.Sound u) {j : Nat} {q : Q}
    {next : A q → Course Q A R (Except Fault Tally)} (hj : s.stages[j]? = some (.asking q next)) :
    t.stages[j]? = some (.asking q next) ∨
      (∃ answer, m = .reply j answer ∧ t.stages[j]? = some (.working (next (answer q)))) ∨
      ∃ how, m = .crash j how ∧ t.stages[j]? = some (.leaving (.crashed (u.task j) how)) := by
  have hne : ∀ {i : Nat} {g : Stage Q A R}, s.stages[i]? = some g → g ≠ .asking q next → i ≠ j := by
    rintro i g hi hg rfl
    exact hg (Option.some.inj (hi.symm.trans hj))
  have hset : ∀ {i : Nat} {g g' : Stage Q A R}, s.stages[i]? = some g → g ≠ .asking q next →
      (s.setStage i g').stages[j]? = some (.asking q next) := fun hi hg =>
    (State.stage_setStage_ne (hne hi hg)).trans hj
  cases h with
  | pass hi | turnAway hi | giveUp hi | takeUp hi | enter hi | queue hi | ask hi | pace hi =>
      exact .inl (hset hi nofun)
  | finish hi => split <;> exact .inl (hset hi nofun)
  | handOn hi | leave hi =>
      refine .inl ?_
      rw [State.stage_release (hset hi nofun), if_neg]
      intro hhead
      have hwaits := (hs.inLine j).mp (List.mem_of_mem_head? hhead)
      cases hwaits.symm.trans hj
  | join hi =>
      refine .inl ?_
      rw [State.stages_account]
      exact hset hi nofun
  | @reply i q' next' answer hi =>
      by_cases hij : i = j
      · subst hij
        cases hi.symm.trans hj
        exact .inr (.inl ⟨answer, rfl, State.stage_setStage_self hi⟩)
      · exact .inl ((State.stage_setStage_ne hij).trans hj)
  | @crash i q' next' how hi =>
      by_cases hij : i = j
      · subst hij
        exact .inr (.inr ⟨how, rfl, State.stage_setStage_self hi⟩)
      · exact .inl ((State.stage_setStage_ne hij).trans hj)
  | disturb | cancel | close => exact .inl hj

/-- What holds of a job at one time, of its deeds, of the flag and of its stage, holds from then
on if no step of the job and no cancellation changes that. -/
theorem Reachable.keeps {first : State Q A R} (h : Reachable u first s) (i : Nat)
    (J : List (Deed Q A R) → Bool → Stage Q A R → Prop)
    (hflag : ∀ h g, J h false g → J h true g)
    (hgoes : ∀ h b b' g ds g', (b = true → b' = true) → Goes u i b b' g ds g' → J h b g →
      J (ds ++ h) b' g')
    (hfirst : first.Sound u)
    (hstart : ∀ g, first.stages[i]? = some g → J (deedsOf i first.history) first.isCancelled g)
    {g : Stage Q A R} (hi : s.stages[i]? = some g) :
    J (deedsOf i s.history) s.isCancelled g := by
  induction h generalizing g with
  | start => exact hstart g hi
  | @move s t m hs hm ih =>
      have hmoved := moved_of_move? hm
      have hmono : s.isCancelled = true → t.isCancelled = true := hmoved.isCancelled
      obtain ⟨g₀, hg₀, ⟨rfl, hdeeds⟩ | ⟨ds, hdeeds, hstep⟩⟩ := hmoved.came (hs.sound hfirst) hi
      · rw [hdeeds]
        have hJ := ih hg₀
        cases hb : s.isCancelled <;> cases hb' : t.isCancelled <;> simp_all
      · rw [hdeeds]
        exact hgoes _ _ _ _ _ _ hmono hstep (ih hg₀)

/-- An outcome stands however the run goes on. -/
theorem Reachable.outcome? {first : State Q A R} (h : Reachable u first s) (hfirst : first.Sound u)
    {i : Nat} {g : Stage Q A R} {o : Outcome} (hi : first.stages[i]? = some g)
    (ho : g.outcome? = some o) : ∃ g', s.stages[i]? = some g' ∧ g'.outcome? = some o := by
  induction h with
  | start => exact ⟨g, hi, ho⟩
  | @move s t m hs hm ih =>
      obtain ⟨g', hg', ho'⟩ := ih
      rcases (moved_of_move? hm).kept (hs.sound hfirst) hg' with
        ⟨hstage, -⟩ | ⟨g'', ds, hstage, -, hstep⟩
      · exact ⟨g', hstage, ho'⟩
      · exact ⟨g'', hstage, hstep.outcome? ho'⟩

/-- The beginning of a run, as one job sees it. -/
theorem stage_start {scopes : Scopes} {caller i : Nat} {g : Stage Q A R}
    (hi : (start u scopes caller).stages[i]? = some g) : g = .fresh := by
  simp only [start, List.getElem?_map, Option.map_eq_some_iff] at hi
  obtain ⟨_, _, rfl⟩ := hi
  rfl

@[simp] theorem deedsOf_start (scopes : Scopes) (caller i : Nat) :
    deedsOf i (start u scopes caller).history = [] := by
  simp [start, deedsOf, Deed.job?]

/-! ## What is written down

A deed gets into the history only in the move that it is due in.  Whatever is to be shown of all
deeds of a kind (that jobs of the run made them, that a cancellation keeps calls out of the history,
that outcomes are joined by one move only) is read off from that. -/

/-- May the deed be written down in a move from `s`?  A deed of a job is one that the job has
come to, and an answer is the one that the move brings. -/
def Deed.IsDue (s : State Q A R) (m : Move Q A) : Deed Q A R → Prop
  | began i | released i => ∃ g, s.stages[i]? = some g
  | asked i q => ∃ next, s.stages[i]? = some (.working (.ask q next))
  | step i (.left mk) => ∃ c, s.stages[i]? = some (.working c) ∧ mk ∈ (c.pace s.isCancelled).1
  | step i (.answered q a) => ∃ next answer, s.stages[i]? = some (.asking q next) ∧
      m = .reply i answer ∧ a = answer q
  | joined i o => m = .join i ∧ s.stages[i]? = some (.ended o)
  | event _ | cancelled => True

theorem Deed.isDue_of_job?_eq_none {d : Deed Q A R} (h : d.job? = none) : d.IsDue s m := by
  cases d with
  | event | cancelled => trivial
  | _ => cases h

theorem Deed.IsDue.stage {d : Deed Q A R} (h : d.IsDue s m) {i : Nat} (hi : d.job? = some i) :
    ∃ g, s.stages[i]? = some g := by
  cases d with
  | event | cancelled => cases hi
  | began | released =>
      obtain rfl := Option.some.inj hi
      exact h
  | asked =>
      obtain rfl := Option.some.inj hi
      obtain ⟨next, hnext⟩ := h
      exact ⟨_, hnext⟩
  | joined =>
      obtain rfl := Option.some.inj hi
      exact ⟨_, h.2⟩
  | step k x =>
      obtain rfl := Option.some.inj hi
      cases x with
      | left mk =>
          obtain ⟨c, hc, -⟩ := h
          exact ⟨_, hc⟩
      | answered q a =>
          obtain ⟨next, answer, hnext, -⟩ := h
          exact ⟨_, hnext⟩

/-- A move writes down what is due, and leaves the history before that as it was. -/
theorem Moved.history (h : Moved u s m t) :
    ∃ new, t.history = new ++ s.history ∧ ∀ d ∈ new, d.IsDue s m := by
  cases h with
  | pass | turnAway | giveUp | queue | crash | cancel => exact ⟨[], rfl, by simp⟩
  | @takeUp i hi | @enter i hi => exact ⟨[.began i], rfl, by simp [Deed.IsDue, hi]⟩
  | @handOn i hi | @leave i o hi =>
      exact ⟨[.released i], State.history_release _ _, by simp [Deed.IsDue, hi]⟩
  | @finish i r hi =>
      cases hr : (Outcome.returned r).isFault
      · exact ⟨[], rfl, by simp⟩
      · exact ⟨[.cancelled], rfl, by simp [Deed.IsDue]⟩
  | @ask i q next hi => exact ⟨[.asked i q], rfl, by simp [Deed.IsDue, hi]⟩
  | @pace i c hi =>
      refine ⟨_, rfl, fun d hd => ?_⟩
      obtain ⟨mk, hmk, rfl⟩ := List.mem_map.mp hd
      exact ⟨c, hi, List.mem_reverse.mp hmk⟩
  | @reply i q next answer hi =>
      exact ⟨[.step i (.answered q (answer q))], rfl, by simp [Deed.IsDue, hi]⟩
  | disturb | close => exact ⟨[.cancelled], rfl, by simp [Deed.IsDue]⟩
  | @join i o hi =>
      obtain ⟨ds, hds, hnone⟩ :=
        State.history_account ((s.setStage i (.joined o)).record (.joined i o)) i o u
      refine ⟨ds ++ [.joined i o], by rw [hds, List.append_assoc]; rfl, fun d hd => ?_⟩
      rcases List.mem_append.mp hd with hd | hd
      · exact Deed.isDue_of_job?_eq_none (hnone d hd)
      · obtain rfl := List.mem_singleton.mp hd
        exact ⟨rfl, hi⟩

/-- So what a job comes to do in a move is due in it. -/
theorem Moved.isDue (h : Moved u s m t) {i : Nat} {ds : List (Deed Q A R)}
    (hds : deedsOf i t.history = ds ++ deedsOf i s.history) : ∀ d ∈ ds, d.IsDue s m := by
  obtain ⟨new, hnew, hdue⟩ := h.history
  rw [hnew, deedsOf_append] at hds
  intro d hd
  rw [← List.append_cancel_right hds] at hd
  exact hdue d (List.mem_filter.mp hd).1

/-- A view of the history stays the same if it shows nothing of what was written down. -/
theorem view_eq {β : Type} {f : Deed Q A R → Option β} {new : List (Deed Q A R)}
    (h : t.history = new ++ s.history) (hnew : ∀ d ∈ new, f d = none) :
    t.history.reverse.filterMap f = s.history.reverse.filterMap f := by
  have hnone : new.reverse.filterMap f = [] :=
    List.filterMap_eq_nil_iff.mpr fun d hd => hnew d (List.mem_reverse.mp hd)
  rw [h, List.reverse_append, List.filterMap_append, hnone, List.append_nil]

/-- The job of a deed is one of the run. -/
theorem Reachable.job_of_deed {scopes : Scopes} {caller : Nat}
    (h : Reachable u (Fleet.start u scopes caller) s) {i : Nat} {d : Deed Q A R}
    (hd : d ∈ s.history) (hi : d.job? = some i) : ∃ job, u.jobs[i]? = some job := by
  induction h with
  | start =>
      obtain rfl := List.mem_singleton.mp hd
      cases hi
  | @move s t m hs hm ih =>
      obtain ⟨new, hnew, hdue⟩ := (moved_of_move? hm).history
      rw [hnew] at hd
      rcases List.mem_append.mp hd with hd | hd
      · obtain ⟨g, hg⟩ := (hdue d hd).stage hi
        have hlt := State.lt_of_stage hg
        rw [hs.isSound.length] at hlt
        exact ⟨_, List.getElem?_eq_getElem hlt⟩
      · exact ih hd

theorem Reachable.stage_of_deed {scopes : Scopes} {caller : Nat}
    (h : Reachable u (Fleet.start u scopes caller) s) {i : Nat} {d : Deed Q A R}
    (hd : d ∈ s.history) (hi : d.job? = some i) : ∃ g, s.stages[i]? = some g := by
  obtain ⟨job, hjob⟩ := h.job_of_deed hd hi
  have hlt := (List.getElem?_eq_some_iff.mp hjob).1
  rw [← h.isSound.length] at hlt
  exact ⟨_, List.getElem?_eq_getElem hlt⟩

/-- A job goes through the work on its tree. -/
theorem Setup.course_eq {i : Nat} {job : Job R} (hjob : u.jobs[i]? = some job) :
    u.course i = job.tree.converge u.provider u.policy := by
  rw [course, hjob]

@[simp] theorem isCancelled_start (scopes : Scopes) (caller : Nat) :
    (start u scopes caller).isCancelled = scopes.cancelled caller :=
  Scopes.cancelled_child scopes caller

end Converge.Fleet
