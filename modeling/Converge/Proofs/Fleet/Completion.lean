import Converge.Proofs.Fleet.Conduct
import Converge.Proofs.Fleet.Progress
import Converge.Proofs.Fleet.Summary
import Converge.Proofs.Walk

/-!
# Nothing is left behind

A run cannot get stuck: until it returns it goes on by itself or has a question before the world.
Nor can it go on for ever, whatever is cancelled or breaks off meanwhile, since a scope is cancelled
only once.  When it returns, every job has been joined and counted once, no call is under way, and
nothing is done afterwards.
-/

namespace Converge

open Fleet

variable {Q : Type} {A : Q → Type} {R α : Type}

/-! ## Scopes that can still be cancelled -/

/-- The scopes that have not been cancelled. -/
def Scopes.live (s : Scopes) : Finset Nat := (Finset.range s.size).filter (s.cancelled · = false)

/-- Cancelling a scope that has a token and has not been cancelled leaves fewer of them. -/
theorem Scopes.card_live_cancel {s : Scopes} {i : Nat} (htoken : s.HasToken i)
    (hi : s.cancelled i = false) : (s.cancel i).live.card < s.live.card := by
  have hlt : i < s.size := by
    obtain ⟨t, ht, -⟩ := htoken
    exact (List.getElem?_eq_some_iff.mp ht).1
  refine Finset.card_lt_card (Finset.ssubset_iff_of_subset ?_ |>.mpr ⟨i, ?_, ?_⟩)
  · intro j hj
    rw [live, Finset.mem_filter, Finset.mem_range, size_cancel] at hj
    rw [live, Finset.mem_filter, Finset.mem_range]
    refine ⟨hj.1, Bool.eq_false_iff.mpr fun hcancelled => ?_⟩
    rw [cancelled_cancel hcancelled] at hj
    cases hj.2
  · rw [live, Finset.mem_filter, Finset.mem_range]
    exact ⟨hlt, hi⟩
  · rw [live, Finset.mem_filter, cancelled_cancel_self htoken]
    simp

/-! ## Calls under way -/

/-- The monitor that knows which call is under way.  Questions are put on behalf of a call only, and
one call is over before the next one begins. -/
def attendant : Monitor Q A R (Option (Call × R)) where
  mayAsk x _ := x.isSome = true
  answered x _ _ := x
  looked x _ := some x
  mayLeave
    | _, .event _ => True
    | x, .began _ _ => x = none
    | x, .ended call r => x = some (call, r)
  left
    | x, .event _ => x
    | _, .began call r => some (call, r)
    | _, .ended _ _ => none

theorem call_attendant (call : Call) (r : R) (work : Plan Q A α) :
    (Course.call call r work).Meets attendant (fun x _ => x = none) none := by
  refine ⟨rfl, ?_⟩
  refine (Course.Meets.ofPlan (I := (· = some (call, r))) (fun x _ hx => ?_) (fun _ _ _ hx => hx)
    work rfl).bind fun y a hy => ⟨hy, rfl⟩
  rw [hx]
  rfl

theorem attendant_grants (P : Provider Q A R) :
    Tree.Grants attendant P (fun _ => True) (· = none) (fun _ => True) where
  note x e _ hx := ⟨trivial, hx⟩
  look x b y hx hy := Option.some.inj hy ▸ hx
  stop _ _ _ _ _ := trivial
  satisfied x y here r hx hy _ := by
    obtain rfl : x = y := Option.some.inj hy
    subst hx
    refine (call_attendant .satisfied r (P.satisfied r)).bind fun z a hz => ?_
    cases a with
    | ok b => exact Tree.keeps_ok.mpr hz
    | error f => exact fun b y hy => Tree.keeps_error.mpr ⟨Option.some.inj hy ▸ hz, trivial⟩
  apply x here r hx _ := by
    rintro b y hy
    obtain rfl : x = y := Option.some.inj hy
    subst hx
    cases b with
    | true => exact Tree.keeps_error.mpr ⟨rfl, trivial⟩
    | false =>
        refine ⟨trivial, (call_attendant .apply r (P.apply r)).bind fun z a hz => ?_⟩
        cases a with
        | ok _ => exact ⟨trivial, Tree.keeps_ok.mpr hz⟩
        | error f => exact fun b y hy => Tree.keeps_error.mpr ⟨Option.some.inj hy ▸ hz, trivial⟩

namespace Fleet

/-- The call of job `i` that has begun and has not ended. -/
def State.openCall? (s : State Q A R) (i : Nat) : Option (Call × R) :=
  attendant.after none (stepsOf i s.history)

variable {u : Setup Q A R} {s t : State Q A R} {m : Move Q A}

/-- A job that has returned has no call under way. -/
def Stage.Rests (g : Stage Q A R) (x : Option (Call × R)) : Prop :=
  ∀ r, g.outcome? = some (.returned r) → x = none

theorem Goes.rests {i : Nat} {b b' : Bool} {g g' : Stage Q A R} {h ds : List (Deed Q A R)}
    (hgoes : Goes u i b b' g ds g')
    (hg : g.Conducts attendant (fun x _ => x = none) none h)
    (hrests : g.Rests (attendant.after none (stepsIn h))) :
    g'.Rests (attendant.after none (stepsIn (ds ++ h))) := by
  cases hgoes with
  | finish => exact fun _ _ => hg.meets
  | turnAway | giveUp => exact fun _ _ => by simp [hg.pending rfl]
  | handOn => exact fun _ _ => by simp [hg.pending rfl, Deed.step?]
  | leave | join =>
      intro r hr
      simpa [Deed.step?] using hrests r hr
  | _ =>
      intro r hr
      cases hr

namespace Reachable

variable {scopes : Scopes} {caller : Nat}

/-- The course of a job is over with its last call. -/
theorem course_meets_attendant (u : Setup Q A R) (i : Nat) :
    (u.course i).Meets attendant (fun x _ => x = none) none := by
  rw [Setup.course]
  split
  · exact ((attendant_grants u.provider).converge_meets u.policy _ none (fun _ _ => trivial)
      rfl).mono fun _ _ hkeeps => hkeeps.1
  · exact rfl

/-- A call is under way only while its job is at work, unless the job broke off in it. -/
theorem openCall_cases (h : Reachable u (Fleet.start u scopes caller) s) {i : Nat}
    {g : Stage Q A R} (hi : s.stages[i]? = some g) {o : Outcome} (ho : g.outcome? = some o) :
    s.openCall? i = none ∨ ∃ how, o = .crashed (u.task i) how := by
  have hJ := h.keeps i
    (fun ds _ g => g.Conducts attendant (fun x _ => x = none) none ds ∧
      g.Rests (attendant.after none (stepsIn ds)))
    (fun _ _ hg => hg)
    (fun _ _ _ _ _ _ _ hgoes hg =>
      ⟨hgoes.conducts (fun _ _ => rfl) (course_meets_attendant u i) hg.1, hgoes.rests hg.1 hg.2⟩)
    (sound_start u scopes caller) ?_ hi
  · cases o with
    | returned r => exact .inl (hJ.2 r ho)
    | crashed task how => exact .inr ⟨how, by rw [h.eq_task_of_crashed hi ho]⟩
  · intro g hg
    rw [stage_start hg, deedsOf_start]
    exact ⟨⟨trivial, fun _ => rfl, trivial, nofun⟩, nofun⟩

end Reachable

/-! ## Every move brings a run nearer to its end -/

/-- What a run has still before it: how far it is from having returned, and how many scopes there
are that somebody could cancel. -/
noncomputable def State.remaining (u : Setup Q A R) (s : State Q A R) :
    (ℕ ×ₗ (Fin u.jobs.length → ℕ ×ₗ Ordinal.{0})) ×ₗ ℕ :=
  toLex (s.distance u, s.scopes.live.card)

/-- A cancellation from outside changes no job. -/
theorem Moved.of_isOutside (h : Moved u s m t) (hs : s.Sound u) (hscopes : s.scopes.Whole)
    (hm : m.isOutside = true) :
    t.distance u = s.distance u ∧ t.scopes.live.card < s.scopes.live.card := by
  cases h with
  | disturb hi hb => exact ⟨rfl, Scopes.card_live_cancel hs.token hb⟩
  | cancel hk hb =>
      obtain ⟨_, hshared, -⟩ := hs.token
      have hlt := (List.getElem?_eq_some_iff.mp hshared).1
      exact ⟨rfl, Scopes.card_live_cancel (hscopes _ (hk.trans hlt)) hb⟩
  | _ => cases hm

/-- Every move leaves less to come. -/
theorem remaining_lt (h : s.move? u m = some t) (hs : s.Sound u) (hscopes : s.scopes.Whole) :
    t.remaining u < s.remaining u := by
  rw [State.remaining, State.remaining, Prod.Lex.toLex_lt_toLex]
  cases hm : m.isOutside with
  | false => exact .inl (distance_lt h hs hm)
  | true => exact .inr ((moved_of_move? h).of_isOutside hs hscopes hm)

theorem wellFounded_remaining (u : Setup Q A R) :
    WellFounded fun t s : State Q A R => t.remaining u < s.remaining u :=
  InvImage.wf _ wellFounded_lt

theorem Moved.whole (h : Moved u s m t) (hs : s.scopes.Whole) : t.scopes.Whole := by
  obtain ⟨-, hscopes | ⟨k, hscopes⟩⟩ := h.scopes
  · rwa [hscopes]
  · rw [hscopes]
    exact hs.cancel k

/-! ## When a run has returned -/

/-- An outcome counts as a success, as a failure or as a cancellation. -/
theorem Setup.tallied_counts (u : Setup Q A R) (sum : Summary) (j : Nat × Outcome) :
    (u.tallied sum j).units = sum.units ∧
      (u.tallied sum j).succeeded + (u.tallied sum j).failed + (u.tallied sum j).cancelled =
        sum.succeeded + sum.failed + sum.cancelled + 1 := by
  unfold tallied
  split
  · exact ⟨rfl, by simp only; omega⟩
  · split
    · exact ⟨rfl, by simp only; omega⟩
    · exact ⟨rfl, by simp only; omega⟩

theorem Setup.foldl_tallied_counts (u : Setup Q A R) (l : List (Nat × Outcome)) (sum : Summary) :
    (l.foldl u.tallied sum).units = sum.units ∧
      (l.foldl u.tallied sum).succeeded + (l.foldl u.tallied sum).failed +
          (l.foldl u.tallied sum).cancelled =
        sum.succeeded + sum.failed + sum.cancelled + l.length := by
  induction l generalizing sum with
  | nil => exact ⟨rfl, rfl⟩
  | cons j l ih =>
      obtain ⟨hunits, hcounts⟩ := u.tallied_counts sum j
      obtain ⟨hunits', hcounts'⟩ := ih (u.tallied sum j)
      rw [List.foldl_cons, List.length_cons]
      exact ⟨hunits'.trans hunits, by omega⟩

namespace Reachable

variable {scopes : Scopes} {caller : Nat}

theorem whole (h : Reachable u (Fleet.start u scopes caller) s) (hscopes : scopes.Whole) :
    s.scopes.Whole := by
  induction h with
  | start => exact hscopes.child caller
  | move m _ hm ih => exact (moved_of_move? hm).whole ih

/-- The counts of a run that has returned add up to its jobs. -/
theorem summary_counts (h : Reachable u (Fleet.start u scopes caller) s) (hc : s.closed = true) :
    s.summary.units = u.jobs.length ∧
      s.summary.succeeded + s.summary.failed + s.summary.cancelled = u.jobs.length := by
  obtain ⟨hunits, hcounts⟩ := u.foldl_tallied_counts s.joins (.start u.jobs.length)
  have hlength : s.joins.length = u.jobs.length := by
    rw [← List.length_map (f := Prod.fst), (h.perm_joins hc).length_eq, List.length_range]
  rw [h.summary_eq]
  refine ⟨hunits, ?_⟩
  rw [hcounts, hlength]
  simp [Summary.start]

/-- After it has returned, a run does nothing; scopes above its own may still be cancelled. -/
theorem moved_closed (h : Reachable u (Fleet.start u scopes caller) s) (hc : s.closed = true)
    (hm : s.move? u m = some t) :
    t.stages = s.stages ∧ t.history = s.history ∧ t.closed = true := by
  have hnone : ∀ {i : Nat} {g : Stage Q A R}, s.stages[i]? = some g → g.isJoined = false →
      False := by
    intro i g hi hg
    obtain ⟨o, rfl⟩ := h.joined_of_closed hc hi
    cases hg
  cases moved_of_move? hm with
  | pass hi | turnAway hi | giveUp hi | handOn hi | takeUp hi | enter hi | queue hi | finish hi
  | ask hi | pace hi | reply hi | disturb hi | crash hi | leave hi | join hi =>
      exact (hnone hi rfl).elim
  | cancel => exact ⟨rfl, rfl, hc⟩
  | close hall hc' => cases hc.symm.trans hc'

theorem eq_of_closed (h : Reachable u (Fleet.start u scopes caller) s) (hc : s.closed = true)
    (ht : Reachable u s t) : t.stages = s.stages ∧ t.history = s.history ∧ t.closed = true := by
  induction ht with
  | start => exact ⟨rfl, rfl, hc⟩
  | move m ht hm ih =>
      obtain ⟨hstages, hhistory, hclosed⟩ := (h.trans ht).moved_closed ih.2.2 hm
      exact ⟨hstages.trans ih.1, hhistory.trans ih.2.1, hclosed⟩

/-- However a run goes, with failures, crashes and cancellations at any time:

* until it returns, it can go on by itself, or there is a question before the world, and then any
  answer brings the run on, and so does the end of the work if it breaks off there;
* every move leaves less to come, in a sense that is well-founded;
* when it has returned, whatever it returns, every job has been joined once, the counts add up to
  the jobs, no call is under way but such as broke off, and nothing is done afterwards. -/
theorem completion (hscopes : scopes.Whole) (h : Reachable u (Fleet.start u scopes caller) s) :
    (s.closed = false →
      (∃ m t, m.isSolo = true ∧ s.move? u m = some t) ∨
      ∃ (i : Nat) (q : Q) (next : A q → Course Q A R (Except Fault Tally)),
        s.stages[i]? = some (.asking q next) ∧
        (∀ answer : (q : Q) → A q, ∃ t, s.move? u (.reply i answer) = some t) ∧
        ∀ how, ∃ t, s.move? u (.crash i how) = some t) ∧
    (∀ m t, s.move? u m = some t → t.remaining u < s.remaining u) ∧
    (WellFounded fun t s : State Q A R => t.remaining u < s.remaining u) ∧
    (s.closed = true →
      (∀ i < u.jobs.length, ∃ o, s.stages[i]? = some (.joined o) ∧
        (s.openCall? i = none ∨ ∃ how, o = .crashed (u.task i) how)) ∧
      (s.joins.map Prod.fst).Perm (List.range u.jobs.length) ∧
      s.summary.units = u.jobs.length ∧
      s.summary.succeeded + s.summary.failed + s.summary.cancelled = u.jobs.length ∧
      ∀ t, Reachable u s t → t.stages = s.stages ∧ t.history = s.history) := by
  refine ⟨fun hc => ?_, fun m t hm => remaining_lt hm h.isSound (h.whole hscopes),
    wellFounded_remaining u, fun hc => ⟨fun i hi => ?_, h.perm_joins hc, (h.summary_counts hc).1,
      (h.summary_counts hc).2, fun t ht => ?_⟩⟩
  · rcases h.exists_solo_move hc with hmove | ⟨i, q, next, hi⟩
    · exact .inl hmove
    · exact .inr ⟨i, q, next, hi, fun answer => ⟨_, by rw [State.move?, hi]⟩,
        fun how => ⟨_, by rw [State.move?, hi]⟩⟩
  · rw [← h.isSound.length] at hi
    have hstage := List.getElem?_eq_getElem hi
    obtain ⟨o, ho⟩ := h.joined_of_closed hc hstage
    rw [ho] at hstage
    exact ⟨o, hstage, h.openCall_cases hstage rfl⟩
  · obtain ⟨hstages, hhistory, -⟩ := h.eq_of_closed hc ht
    exact ⟨hstages, hhistory⟩

end Reachable

end Fleet

/-! ## A failure is not the end -/

namespace Rehearsal

/-- The first job has failed, and the run has returned with its failure after the second one, which
was turned away, had been joined too. -/
theorem completion_of_clumsy :
    Scopes.one.Whole ∧ ∃ s f, Reachable clumsyPair (start clumsyPair .one 0) s ∧
      s.closed = true ∧ s.result = .error f ∧ s.summary.failed = 1 ∧ s.summary.cancelled = 1 ∧
      s.openCall? 0 = none ∧
      ∀ t, Reachable clumsyPair s t → t.stages = s.stages ∧ t.history = s.history := by
  have hsome : ((start clumsyPair .one 0).moves? clumsyPair untilReturn).isSome = true := by
    decide
  have h := reachable_moves? .start (Option.some_get hsome).symm
  obtain ⟨-, -, -, hdone⟩ := h.completion Scopes.whole_one
  obtain ⟨hjoined, -, -, -, hrest⟩ := hdone rfl
  obtain ⟨o, ho, hcall | ⟨how, rfl⟩⟩ := hjoined 0 (by decide)
  · exact ⟨Scopes.whole_one, _, _, h, rfl, rfl, rfl, rfl, hcall, hrest⟩
  · cases ho

end Rehearsal

end Converge
