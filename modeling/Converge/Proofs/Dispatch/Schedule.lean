import Converge.Program
import Converge.Proofs.Fleet.Moves

/-!
# Dispatch makes moves

However turns, sleeps and wakings are ordered, the state of a run under dispatch changes by moves
only, unless the run is given up.  So what is true of all runs is true of those of the program.
-/

namespace Converge

namespace Fleet.Dispatch

variable {Q : Type} {A : Q → Type} {R ω : Type} {u : Setup Q A R} {first : State Q A R}
  {env : Environment Q A ω} {d : Dispatch Q A R ω}

/-- The state was reached by moves, and the run will not be given up. -/
structure Scheduled (u : Setup Q A R) (first : State Q A R) (d : Dispatch Q A R ω) : Prop where
  reachable : Reachable u first d.state
  staysOn : ∀ x ∈ d.interventions, x.2 = .cancelCaller

namespace Scheduled

theorem either {p : Prop} [Decidable p] {d' : Dispatch Q A R ω} (h : d.Scheduled u first)
    (h' : d'.Scheduled u first) : (if p then d else d').Scheduled u first := by
  split
  · exact h
  · exact h'

theorem foldl {α : Type} {f : Dispatch Q A R ω → α → Dispatch Q A R ω} {l : List α}
    (hf : ∀ d, d.Scheduled u first → ∀ x ∈ l, (f d x).Scheduled u first)
    (h : d.Scheduled u first) : (l.foldl f d).Scheduled u first := by
  induction l generalizing d with
  | nil => exact h
  | cons x l ih =>
      refine ih (fun d hd y hy => hf d hd y (List.mem_cons_of_mem x hy)) ?_
      exact hf d h x List.mem_cons_self

/-! ## Moves and wakings -/

theorem enqueue (h : d.Scheduled u first) (t : Turn) : (d.enqueue t).Scheduled u first :=
  either h ⟨h.reachable, h.staysOn⟩

theorem wakeAll (h : d.Scheduled u first) : d.wakeAll.Scheduled u first :=
  foldl (fun _ hd i _ => hd.enqueue (.job i)) ⟨h.reachable, h.staysOn⟩

theorem make (h : d.Scheduled u first) (m : Move Q A) : (d.make u m).Scheduled u first := by
  unfold Dispatch.make
  split
  · exact h
  · rename_i s hs
    have hmoved : { d with state := s }.Scheduled u first := ⟨h.reachable.move m hs, h.staysOn⟩
    have hwoken := hmoved.wakeAll.either (p := !d.state.isCancelled && s.isCancelled) hmoved
    cases d.state.line with
    | nil => exact hwoken
    | cons j rest => exact (hwoken.enqueue (.job j)).either hwoken

theorem noteEnd (h : d.Scheduled u first) (i : Nat) : (d.noteEnd i).Scheduled u first := by
  refine either (enqueue ?_ .run) h
  exact ⟨h.reachable, h.staysOn⟩

/-! ## Turns -/

/-- A job that runs makes moves until it has to wait. -/
theorem drive (h : d.Scheduled u first) (i fuel : Nat) :
    (d.drive u env i fuel).Scheduled u first := by
  induction fuel generalizing d with
  | zero => exact h
  | succ fuel ih =>
      unfold Dispatch.drive
      split
      · exact ih (h.make _)
      · have hworld : ∀ w : ω, { d with world := w }.Scheduled u first :=
          fun w => ⟨h.reachable, h.staysOn⟩
        split
        · exact ih ((((hworld _).make _).either (hworld _)).make _)
        · exact either (ih ((hworld _).make _)) ⟨h.reachable, h.staysOn⟩
        · exact ih ((hworld _).make _)
      · exact (h.make _).noteEnd i
      · exact h

theorem takeTurn (h : d.Scheduled u first) (fuel i : Nat) :
    (d.takeTurn u env fuel i).Scheduled u first := by
  unfold Dispatch.takeTurn
  split
  · split
    · exact h
    · have hawake : { d with
          alarms := d.alarms.filter (·.job ≠ i)
          watchers := d.watchers.filter (· ≠ i) }.Scheduled u first := ⟨h.reachable, h.staysOn⟩
      refine either ?_ (either ?_ h)
      · exact (hawake.make _).drive i fuel
      · exact (hawake.make _).drive i fuel
  · have hunwatched : { d with watchers := d.watchers.filter (· ≠ i) }.Scheduled u first :=
      ⟨h.reachable, h.staysOn⟩
    have hlooked := (hunwatched.make (.look i)).make (.enter i)
    exact either ⟨hlooked.reachable, hlooked.staysOn⟩ ((hlooked.noteEnd i).drive i fuel)
  · exact h

theorem joinAll (h : d.Scheduled u first) : (d.joinAll u).Scheduled u first := by
  have hempty : { d with finished := [] }.Scheduled u first := ⟨h.reachable, h.staysOn⟩
  exact (hempty.foldl fun _ hd i _ => hd.make (.join i)).make .close

/-- The clock rings, and the caller may cancel. -/
theorem passTo (h : d.Scheduled u first) (time : Nat) : (d.passTo u time).Scheduled u first := by
  have hlater : { d with
      now := time
      interventions := d.interventions.filter (time < ·.1) }.Scheduled u first :=
    ⟨h.reachable, fun x hx => h.staysOn x (List.mem_filter.mp hx).1⟩
  refine foldl (fun d' hd x hx => ?_) (hlater.foldl fun _ hd a _ => hd.enqueue (.job a.job))
  rw [h.staysOn x (List.mem_filter.mp hx).1]
  exact hd.make _

theorem proceed (h : d.Scheduled u first) (work fuel : Nat) :
    (d.proceed u env work fuel).Scheduled u first := by
  induction fuel generalizing d with
  | zero => exact h
  | succ fuel ih =>
      unfold Dispatch.proceed
      split
      · exact h
      · have hqueue : ∀ q : List Turn, { d with queue := q }.Scheduled u first :=
          fun q => ⟨h.reachable, h.staysOn⟩
        split
        · exact ih ((hqueue _).takeTurn work _)
        · exact ih (hqueue _).joinAll
        · split
          · exact ih (h.passTo _)
          · exact h

end Scheduled

/-- A run under dispatch is a run, whatever the environment does and whenever the caller cancels,
as long as it is not given up. -/
theorem reachable_carryOn {world : ω} {first : State Q A R} {caller : Nat}
    {interventions : List (Nat × Intervention)} (h : ∀ x ∈ interventions, x.2 = .cancelCaller) :
    Reachable u first (carryOn u env world caller interventions first).state := by
  have hopening : (opening first world caller interventions).Scheduled u first := ⟨.start, h⟩
  exact (hopening.proceed _ _).reachable

end Fleet.Dispatch

/-- From outside of the program nothing comes but a cancellation. -/
theorem Environment.Solo.interventions_eq {ω : Type} (s : Environment.Solo ω) :
    ∀ x ∈ s.interventions, x.2 = .cancelCaller := by
  intro x hx
  obtain ⟨time, -, rfl⟩ := Option.map_eq_some_iff.mp (Option.mem_toList.mp hx)
  rfl

end Converge
