import Converge.Proofs.Dispatch.Schedule
import Converge.Proofs.Fleet.Permits

/-!
# How many permits a single job needs

A job that has no others beside it never waits for a permit: however many there are, one is free.
So two runs of a single job that differ in nothing but the number of permits go in step, and all
that can be told from their records is what is said of that number at the beginning.
-/

namespace Converge

namespace Fleet

variable {Q : Type} {A : Q → Type} {R ω : Type}

/-- The same run with another number of permits. -/
def Setup.withLimit (u : Setup Q A R) (limit : Nat) : Setup Q A R := { u with limit := limit }

/-- After these openings the same has happened, and the states differ at most in the number of
free permits. -/
def State.Alike (opening opening' : List (Deed Q A R)) (s s' : State Q A R) : Prop :=
  ∃ free deeds, s.history = deeds ++ opening ∧
    s' = { s with free := free, history := deeds ++ opening' }

variable {u : Setup Q A R} {limit : Nat} {s s' : State Q A R} {opening opening' : List (Deed Q A R)}

namespace State.Alike

theorem setStage (h : Alike opening opening' s s') (i : Nat) (g : Stage Q A R) :
    Alike opening opening' (s.setStage i g) (s'.setStage i g) := by
  obtain ⟨free, deeds, hhistory, rfl⟩ := h
  exact ⟨free, deeds, hhistory, rfl⟩

theorem setLine (h : Alike opening opening' s s') (f : List Nat → List Nat) :
    Alike opening opening' { s with line := f s.line } { s' with line := f s'.line } := by
  obtain ⟨free, deeds, hhistory, rfl⟩ := h
  exact ⟨free, deeds, hhistory, rfl⟩

theorem setFree (h : Alike opening opening' s s') (f : Nat → Nat) :
    Alike opening opening' { s with free := f s.free } { s' with free := f s'.free } := by
  obtain ⟨_, deeds, hhistory, rfl⟩ := h
  exact ⟨_, deeds, hhistory, rfl⟩

theorem record (h : Alike opening opening' s s') (d : Deed Q A R) :
    Alike opening opening' (s.record d) (s'.record d) := by
  obtain ⟨free, deeds, hhistory, rfl⟩ := h
  exact ⟨free, d :: deeds, congrArg (d :: ·) hhistory, rfl⟩

theorem mark (h : Alike opening opening' s s') (i : Nat) (ms : List (Mark R)) :
    Alike opening opening' (s.mark i ms) (s'.mark i ms) := by
  obtain ⟨free, deeds, hhistory, rfl⟩ := h
  refine ⟨free, ms.reverse.map (fun m => .step i (.left m)) ++ deeds, ?_, ?_⟩
  · rw [State.mark, hhistory, List.append_assoc]
  · rw [State.mark, State.mark, List.append_assoc]

theorem cancelShared (h : Alike opening opening' s s') :
    Alike opening opening' s.cancelShared s'.cancelShared := by
  obtain ⟨free, deeds, hhistory, rfl⟩ := h
  exact ⟨free, .cancelled :: deeds, congrArg (_ :: ·) hhistory, rfl⟩

theorem release (h : Alike opening opening' s s') (i : Nat) :
    Alike opening opening' (s.release i) (s'.release i) := by
  obtain ⟨free, deeds, hhistory, rfl⟩ := h
  unfold State.release
  cases s.line with
  | nil => exact ⟨free + 1, .released i :: deeds, congrArg (_ :: ·) hhistory, rfl⟩
  | cons j rest => exact ⟨free, .released i :: deeds, congrArg (_ :: ·) hhistory, rfl⟩

theorem begin (h : Alike opening opening' s s') (i : Nat) :
    Alike opening opening' (s.begin u i) (s'.begin (u.withLimit limit) i) :=
  (h.setStage i (.working (u.course i))).record (.began i)

theorem isCancelled_eq (h : Alike opening opening' s s') : s'.isCancelled = s.isCancelled := by
  obtain ⟨free, deeds, hhistory, rfl⟩ := h
  rfl

theorem stages_eq (h : Alike opening opening' s s') : s'.stages = s.stages := by
  obtain ⟨free, deeds, hhistory, rfl⟩ := h
  rfl

theorem closed_eq (h : Alike opening opening' s s') : s'.closed = s.closed := by
  obtain ⟨free, deeds, hhistory, rfl⟩ := h
  rfl

theorem line_eq (h : Alike opening opening' s s') : s'.line = s.line := by
  obtain ⟨free, deeds, hhistory, rfl⟩ := h
  rfl

theorem goOn (h : Alike opening opening' s s') (i : Nat)
    (c : Course Q A R (Except Fault Tally)) :
    Alike opening opening' (s.goOn i c) (s'.goOn i c) := by
  have hcancelled := h.isCancelled_eq
  cases c with
  | done r =>
      simp only [State.goOn]
      split
      · exact h.cancelShared.setStage i _
      · exact h.setStage i _
  | ask q next => exact (h.setStage i _).record _
  | look next | leave m next =>
      simp only [State.goOn, hcancelled]
      exact (h.setStage i _).mark i _

theorem account (h : Alike opening opening' s s') (i : Nat) (o : Outcome) :
    Alike opening opening' (s.account u i o) (s'.account (u.withLimit limit) i o) := by
  obtain ⟨free, deeds, hhistory, rfl⟩ := h
  have hname : State.nameOf (u.withLimit limit) { s with free := free, history := deeds ++ opening' }
      i = s.nameOf u i := rfl
  simp only [State.account, hname]
  cases o.result (s.nameOf u i) with
  | ok tally => exact ⟨free, deeds, hhistory, rfl⟩
  | error f =>
      dsimp only
      cases f.isCancellation with
      | true => exact ⟨free, _ :: deeds, congrArg (_ :: ·) hhistory, rfl⟩
      | false =>
          simp only [State.cancelShared, State.record, State.strike]
          cases s.failure with
          | none => exact ⟨free, _ :: .cancelled :: deeds, congrArg (_ :: _ :: ·) hhistory, rfl⟩
          | some _ => exact ⟨free, _ :: .cancelled :: deeds, congrArg (_ :: _ :: ·) hhistory, rfl⟩

/-- Alike states make the same moves, as long as in both there is a permit for a job that asks for
one, or in neither. -/
theorem move? (h : Alike opening opening' s s')
    (hfree : ∀ i : Nat, s.stages[i]? = some .entering → (0 < s'.free ↔ 0 < s.free))
    (m : Move Q A) :
    Option.Rel (Alike opening opening') (s.move? u m) (s'.move? (u.withLimit limit) m) := by
  have hcancelled := h.isCancelled_eq
  have hstages : ∀ i : Nat, s'.stages[i]? = s.stages[i]? := fun i => by rw [h.stages_eq]
  cases m with
  | look i =>
      simp only [State.move?, hstages, hcancelled]
      split
      · exact .some (h.setStage i _)
      · split
        · exact .some ((h.setLine (·.erase i)).setStage i _)
        · exact .none
      · split
        · exact .some ((h.setStage i _).release i)
        · exact .some (h.begin i)
      · exact .none
  | enter i =>
      simp only [State.move?, hstages]
      split
      · rename_i hi
        by_cases hpermit : 0 < s.free
        · rw [if_pos hpermit, if_pos ((hfree i hi).mpr hpermit)]
          exact .some ((h.setFree (· - 1)).begin i)
        · rw [if_neg hpermit, if_neg (hpermit ∘ (hfree i hi).mp)]
          exact .some ((h.setLine (· ++ [i])).setStage i _)
      · exact .none
  | goOn i =>
      simp only [State.move?, hstages]
      split
      · exact .some (h.goOn i _)
      · exact .none
  | reply i answer =>
      simp only [State.move?, hstages]
      split
      · exact .some ((h.setStage i _).record _)
      · exact .none
  | disturb i =>
      simp only [State.move?, hstages, hcancelled]
      split
      · split
        · exact .none
        · exact .some h.cancelShared
      · exact .none
  | crash i how =>
      simp only [State.move?, hstages]
      split
      · exact .some (h.setStage i _)
      · exact .none
  | leave i =>
      simp only [State.move?, hstages]
      split
      · exact .some ((h.setStage i _).release i)
      · exact .none
  | join i =>
      simp only [State.move?, hstages]
      split
      · exact .some (((h.setStage i _).record _).account i _)
      · exact .none
  | cancel scope =>
      obtain ⟨free, deeds, hhistory, rfl⟩ := h
      simp only [State.move?]
      split
      · exact .some ⟨free, deeds, hhistory, rfl⟩
      · exact .none
  | close =>
      obtain ⟨free, deeds, hhistory, rfl⟩ := h
      simp only [State.move?]
      split
      · exact .some ⟨free, _ :: deeds, congrArg (_ :: ·) hhistory, rfl⟩
      · exact .none

end State.Alike

/-- A job that asks for a permit finds one, if there is no other job. -/
theorem Reachable.free_pos {scopes : Scopes} {caller : Nat}
    (h : Reachable u (Fleet.start u scopes caller) s) (hu : u.jobs.length ≤ 1) {i : Nat}
    (hi : s.stages[i]? = some .entering) : 0 < s.free := by
  have hone : s.stages = [.entering] := by
    have hlength := h.isSound.length
    have hlt := State.lt_of_stage hi
    obtain ⟨g, hg⟩ := List.length_eq_one_iff.mp (show s.stages.length = 1 by omega)
    have hzero : i = 0 := by omega
    rw [hg, hzero] at hi
    rw [hg, Option.some.inj hi]
  have hheld : s.held = 0 := by rw [State.held, hone]; rfl
  have hbalance := h.metered.balance
  rw [hheld, Setup.permits] at hbalance
  omega

namespace Dispatch

variable {scopes : Scopes} {caller : Nat} {d d' : Dispatch Q A R ω} {env : Environment Q A ω}

/-- Two dispatches of one job, under different numbers of permits, that have come equally far. -/
structure InStep (u : Setup Q A R) (limit : Nat) (scopes : Scopes) (caller : Nat)
    (d d' : Dispatch Q A R ω) : Prop where
  same : d' = { d with state := d'.state }
  alike : State.Alike (start u scopes caller).history
    (start (u.withLimit limit) scopes caller).history d.state d'.state
  scheduled : d.Scheduled u (start u scopes caller)
  scheduled' : d'.Scheduled (u.withLimit limit) (start (u.withLimit limit) scopes caller)

namespace InStep

theorem exists_state (h : InStep u limit scopes caller d d') : ∃ s', d' = { d with state := s' } :=
  ⟨_, h.same⟩

/-- What has nothing to do with the state of the run. -/
theorem map (h : InStep u limit scopes caller d d') (f : Dispatch Q A R ω → Dispatch Q A R ω)
    (hf : ∀ d s, f { d with state := s } = { f d with state := s } := by intros; rfl)
    (hstate : ∀ d, (f d).state = d.state := by intros; rfl)
    (hstays : ∀ d, (∀ x ∈ d.interventions, x.2 = .cancelCaller) →
      ∀ x ∈ (f d).interventions, x.2 = .cancelCaller := by exact fun _ h => h) :
    InStep u limit scopes caller (f d) (f d') where
  same := by
    have hsame := hf d d'.state
    rw [← h.same] at hsame
    rw [hstate, ← hsame]
  alike := by rw [hstate, hstate]; exact h.alike
  scheduled := ⟨by rw [hstate]; exact h.scheduled.reachable, hstays d h.scheduled.staysOn⟩
  scheduled' := ⟨by rw [hstate]; exact h.scheduled'.reachable, hstays d' h.scheduled'.staysOn⟩

theorem enqueue (h : InStep u limit scopes caller d d') (t : Turn) :
    InStep u limit scopes caller (d.enqueue t) (d'.enqueue t) := by
  have hqueue : d'.queue = d.queue := by rw [h.same]
  unfold Dispatch.enqueue
  rw [hqueue]
  split
  · exact h
  · have hlonger : InStep u limit scopes caller { d with queue := d.queue ++ [t] }
        { d' with queue := d'.queue ++ [t] } := h.map fun d => { d with queue := d.queue ++ [t] }
    rwa [hqueue] at hlonger

theorem foldl {α : Type} {f f' : Dispatch Q A R ω → α → Dispatch Q A R ω} {l : List α}
    (hf : ∀ d d', InStep u limit scopes caller d d' → ∀ x ∈ l,
      InStep u limit scopes caller (f d x) (f' d' x))
    (h : InStep u limit scopes caller d d') :
    InStep u limit scopes caller (l.foldl f d) (l.foldl f' d') := by
  induction l generalizing d d' with
  | nil => exact h
  | cons x l ih =>
      refine ih (fun d d' hd y hy => hf d d' hd y (List.mem_cons_of_mem x hy)) ?_
      exact hf d d' h x List.mem_cons_self

theorem either {p : Prop} [Decidable p] {e e' : Dispatch Q A R ω}
    (h : InStep u limit scopes caller d d') (h' : InStep u limit scopes caller e e') :
    InStep u limit scopes caller (if p then d else e) (if p then d' else e') := by
  split
  · exact h
  · exact h'

theorem wakeAll (h : InStep u limit scopes caller d d') :
    InStep u limit scopes caller d.wakeAll d'.wakeAll := by
  have hwatchers : d'.watchers = d.watchers := by rw [h.same]
  unfold Dispatch.wakeAll
  rw [hwatchers]
  exact foldl (fun _ _ hd i _ => hd.enqueue (.job i)) (h.map fun d => { d with watchers := [] })

theorem isAt_eq (h : InStep u limit scopes caller d d') (i : Nat) (p : Stage Q A R → Bool) :
    d'.isAt i p = d.isAt i p := by
  rw [isAt, isAt, h.alike.stages_eq]

theorem noteEnd (h : InStep u limit scopes caller d d') (i : Nat) :
    InStep u limit scopes caller (d.noteEnd i) (d'.noteEnd i) := by
  unfold Dispatch.noteEnd
  rw [h.isAt_eq]
  split
  · exact (h.map fun d => { d with
      finished := d.finished ++ [i], watchers := d.watchers.filter (· ≠ i) }).enqueue .run
  · exact h

variable (hu : u.jobs.length ≤ 1)
include hu

theorem make (h : InStep u limit scopes caller d d') (m : Move Q A) :
    InStep u limit scopes caller (d.make u m) (d'.make (u.withLimit limit) m) := by
  have hfree : ∀ i : Nat, d.state.stages[i]? = some .entering →
      (0 < d'.state.free ↔ 0 < d.state.free) := fun i hi =>
    iff_of_true (h.scheduled'.reachable.free_pos hu (by rwa [h.alike.stages_eq]))
      (h.scheduled.reachable.free_pos hu hi)
  have hmove : Option.Rel _ (d.state.move? u m) (d'.state.move? (u.withLimit limit) m) :=
    h.alike.move? hfree m
  unfold Dispatch.make
  cases hs : d.state.move? u m with
  | none =>
      rw [hs] at hmove
      cases hs' : d'.state.move? (u.withLimit limit) m with
      | none => exact h
      | some t => rw [hs'] at hmove; cases hmove
  | some s =>
      rw [hs] at hmove
      cases hs' : d'.state.move? (u.withLimit limit) m with
      | none => rw [hs'] at hmove; cases hmove
      | some s' =>
          rw [hs'] at hmove
          cases hmove with
          | some halike =>
              have hmoved : InStep u limit scopes caller { d with state := s }
                  { d' with state := s' } := by
                refine ⟨?_, halike, ⟨h.scheduled.reachable.move m hs, h.scheduled.staysOn⟩,
                  h.scheduled'.reachable.move m hs', h.scheduled'.staysOn⟩
                obtain ⟨t, rfl⟩ := h.exists_state
                rfl
              simp only [h.alike.isCancelled_eq, halike.isCancelled_eq, h.alike.line_eq]
              have hwoken := hmoved.wakeAll.either
                (p := !d.state.isCancelled && s.isCancelled) hmoved
              cases d.state.line with
              | nil => exact hwoken
              | cons j rest =>
                  dsimp only
                  rw [hwoken.isAt_eq]
                  exact (hwoken.enqueue (.job j)).either hwoken

theorem drive (h : InStep u limit scopes caller d d') (i fuel : Nat) :
    InStep u limit scopes caller (d.drive u env i fuel)
      (d'.drive (u.withLimit limit) env i fuel) := by
  induction fuel generalizing d d' with
  | zero => exact h
  | succ fuel ih =>
      have hworld : d'.world = d.world := by rw [h.same]
      have hchanged : ∀ w : ω, InStep u limit scopes caller { d with world := w }
          { d' with world := w } := fun w => h.map fun d => { d with world := w }
      unfold Dispatch.drive
      rw [h.alike.stages_eq, hworld]
      split
      · exact ih (h.make hu _)
      · split
        · exact ih (InStep.make hu (either ((hchanged _).make hu _) (hchanged _)) _)
        · rename_i millis interruptible w _
          dsimp only
          rw [h.alike.isCancelled_eq]
          split
          · exact ih ((hchanged w).make hu _)
          · exact (hchanged w).map fun d => { d with
              alarms := d.alarms ++ [⟨d.now + millis, i, interruptible⟩]
              watchers := if interruptible then d.watchers ++ [i] else d.watchers }
        · exact ih ((hchanged _).make hu _)
      · exact (h.make hu _).noteEnd i
      · exact h

theorem takeTurn (h : InStep u limit scopes caller d d') (fuel i : Nat) :
    InStep u limit scopes caller (d.takeTurn u env fuel i)
      (d'.takeTurn (u.withLimit limit) env fuel i) := by
  have hstages := h.alike.stages_eq
  have hcancelled := h.alike.isCancelled_eq
  obtain ⟨s', rfl⟩ := h.exists_state
  unfold Dispatch.takeTurn
  dsimp only at hstages hcancelled ⊢
  rw [hstages, hcancelled]
  split
  · split
    · exact h
    · have hawake := h.map fun d => { d with
        alarms := d.alarms.filter (·.job ≠ i)
        watchers := d.watchers.filter (· ≠ i) }
      split
      · exact (hawake.make hu _).drive hu i fuel
      · split
        · exact (hawake.make hu _).drive hu i fuel
        · exact h
  · have hunwatched := h.map fun d => { d with watchers := d.watchers.filter (· ≠ i) }
    have hlooked := (hunwatched.make hu (.look i)).make hu (.enter i)
    rw [hlooked.isAt_eq]
    exact either (hlooked.map fun d => { d with watchers := d.watchers ++ [i] })
      ((hlooked.noteEnd i).drive hu i fuel)
  · exact h

theorem joinAll (h : InStep u limit scopes caller d d') :
    InStep u limit scopes caller (d.joinAll u) (d'.joinAll (u.withLimit limit)) := by
  obtain ⟨s', rfl⟩ := h.exists_state
  have hempty := h.map fun d => { d with finished := [] }
  exact (hempty.foldl fun _ _ hd i _ => hd.make hu (.join i)).make hu .close

theorem passTo (h : InStep u limit scopes caller d d') (time : Nat) :
    InStep u limit scopes caller (d.passTo u time) (d'.passTo (u.withLimit limit) time) := by
  have hstays := h.scheduled.staysOn
  obtain ⟨s', rfl⟩ := h.exists_state
  have hlater := h.map
    (fun d => { d with now := time, interventions := d.interventions.filter (time < ·.1) })
    (fun _ _ => rfl) (fun _ => rfl) fun d hd x hx => hd x (List.mem_filter.mp hx).1
  refine foldl (fun d d' hd x hx => ?_) (hlater.foldl fun _ _ hd a _ => hd.enqueue (.job a.job))
  have hcaller : d'.caller = d.caller := by rw [hd.same]
  rw [hstays x (List.mem_filter.mp hx).1]
  unfold Dispatch.intervene
  rw [hcaller]
  exact hd.make hu _

theorem proceed (h : InStep u limit scopes caller d d') (work fuel : Nat) :
    InStep u limit scopes caller (d.proceed u env work fuel)
      (d'.proceed (u.withLimit limit) env work fuel) := by
  induction fuel generalizing d d' with
  | zero => exact h
  | succ fuel ih =>
      have hqueue : ∀ q : List Turn, InStep u limit scopes caller { d with queue := q }
          { d' with queue := q } := fun q => h.map fun d => { d with queue := q }
      have hclosed : d'.state.closed = d.state.closed := h.alike.closed_eq
      obtain ⟨s', rfl⟩ := h.exists_state
      unfold Dispatch.proceed
      dsimp only at hclosed hqueue ⊢
      rw [hclosed]
      split
      · exact h
      · split
        · exact ih ((hqueue _).takeTurn hu work _)
        · exact ih ((hqueue _).joinAll hu)
        · have htime : ({ d with state := s' } : Dispatch Q A R ω).nextTime = d.nextTime := rfl
          rw [htime]
          split
          · exact ih (h.passTo hu _)
          · exact h

omit hu in
/-- What can be seen of two dispatches in step. -/
theorem views (h : InStep u limit scopes caller d d') :
    d'.state.result = d.state.result ∧ d'.world = d.world ∧ d'.state.scopes = d.state.scopes ∧
      ∃ deeds, d.state.history = deeds ++ (start u scopes caller).history ∧
        d'.state.history = deeds ++ (start (u.withLimit limit) scopes caller).history := by
  have hworld : d'.world = d.world := by rw [h.same]
  obtain ⟨free, deeds, hhistory, hstate⟩ := h.alike
  refine ⟨?_, hworld, ?_, deeds, hhistory, ?_⟩ <;> rw [hstate]
  rfl

end InStep

/-- A run of a single job under another number of permits comes to the same, except for what is
said of that number at the beginning. -/
theorem inStep_carryOn (env : Environment Q A ω) (hu : u.jobs.length ≤ 1) (limit : Nat) (world : ω)
    (scopes : Scopes) (caller : Nat) {interventions : List (Nat × Intervention)}
    (h : ∀ x ∈ interventions, x.2 = .cancelCaller) :
    InStep u limit scopes caller
      (carryOn u env world caller interventions (start u scopes caller))
      (carryOn (u.withLimit limit) env world caller interventions
        (start (u.withLimit limit) scopes caller)) := by
  have hopening : InStep u limit scopes caller
      (opening (start u scopes caller) world caller interventions)
      (opening (start (u.withLimit limit) scopes caller) world caller interventions) :=
    ⟨rfl, ⟨_, [], rfl, rfl⟩, ⟨.start, h⟩, .start, h⟩
  exact hopening.proceed hu _ _

end Dispatch

end Fleet

/-- Converging a single job comes to the same under any two limits that can be kept count of: the
same result, the same commands, and the same journal after the line that says what the limit is. -/
theorem Stretch.converge_limit {ω : Type} {m : Machine} (env : Outside ω) (policy : Policy)
    {limit limit' : Nat} (hlimit : limit ≤ Fleet.maxPermits) (hlimit' : limit' ≤ Fleet.maxPermits)
    {jobs : List (Job Resource)} (hjobs : jobs.length ≤ 1) (s : Environment.Solo ω) :
    let first := Stretch.converge m env policy limit jobs s
    let second := Stretch.converge m env policy limit' jobs s
    second.result = first.result ∧ second.asked = first.asked ∧ second.solo = first.solo ∧
      ∃ events, first.events = .unitsDiscovered jobs.length (max limit 1) :: events ∧
        second.events = .unitsDiscovered jobs.length (max limit' 1) :: events := by
  intro first second
  have hadmissible : ∀ {limit}, limit ≤ Fleet.maxPermits →
      (m.fleet policy limit jobs).isAdmissible = true := fun h =>
    Fleet.Setup.isAdmissible_iff.mpr h
  have hstep := Fleet.Dispatch.inStep_carryOn (u := m.fleet policy limit jobs) env hjobs limit'
    s.world s.scopes s.scope s.interventions_eq
  obtain ⟨hresult, hworld, hscopes, deeds, hhistory, hhistory'⟩ := hstep.views
  have hsecond : (m.fleet policy limit jobs).withLimit limit' = m.fleet policy limit' jobs := rfl
  rw [hsecond] at hresult hworld hscopes hhistory'
  simp only [first, second, converge, Fleet.Dispatch.run?, Fleet.begin?, hadmissible hlimit,
    hadmissible hlimit', if_true, Option.map_some, hresult, hworld, hscopes, hhistory, hhistory',
    List.reverse_append, true_and]
  exact ⟨rfl, deeds.reverse.filterMap Fleet.Deed.event?, rfl, rfl⟩

end Converge
