import Converge.Proofs.Fleet.Jobs
import Converge.Proofs.Monitor

/-!
# A job does what its course may do

Whatever else goes on in a run, the deeds of a job are those of its course.  So if the course
meets a monitor that takes no account of looks, then the job does what the monitor allows after
the steps that the job has taken so far, at every time of every run.
-/

namespace Converge.Fleet

variable {Q : Type} {A : Q → Type} {R σ : Type}

/-- Every question and every mark among the deeds, the latest first, was in order when its turn
came. -/
def Accords (M : Monitor Q A R σ) (x : σ) : List (Deed Q A R) → Prop
  | [] => True
  | .asked _ q :: h => M.mayAsk (M.after x (stepsIn h)) q ∧ Accords M x h
  | .step _ (.left m) :: h => M.mayLeave (M.after x (stepsIn h)) m ∧ Accords M x h
  | _ :: h => Accords M x h

variable {M : Monitor Q A R σ} {x : σ}

/-- What came before some of the deeds accords as well. -/
theorem Accords.of_append {later earlier : List (Deed Q A R)}
    (h : Accords M x (later ++ earlier)) : Accords M x earlier := by
  induction later with
  | nil => exact h
  | cons d later ih =>
      refine ih ?_
      cases d with
      | asked i q => exact h.2
      | step i x =>
          cases x with
          | left m => exact h.2
          | answered q a => exact h
      | _ => exact h

/-- Marks are steps. -/
@[simp] theorem stepsIn_marks (i : Nat) (ms : List (Mark R)) (h : List (Deed Q A R)) :
    stepsIn (ms.reverse.map (fun m => .step i (.left m)) ++ h) = stepsIn h ++ ms.map .left := by
  induction ms generalizing h with
  | nil => simp
  | cons m ms ih =>
      rw [List.reverse_cons, List.map_append, List.append_assoc, ih]
      simp [Deed.step?]

/-- Marks that may be left one after the other accord. -/
theorem Accords.marks {i : Nat} {ms : List (Mark R)} {h : List (Deed Q A R)}
    (hm : M.MayLeaveAll (M.after x (stepsIn h)) ms) (hh : Accords M x h) :
    Accords M x (ms.reverse.map (fun m => .step i (.left m)) ++ h) := by
  induction ms generalizing h with
  | nil => exact hh
  | cons m ms ih =>
      rw [List.reverse_cons, List.map_append, List.append_assoc]
      refine ih ?_ ⟨hm.1, hh⟩
      simpa [Deed.step?, Monitor.step] using hm.2

/-- At this stage all that is still to come meets the monitor. -/
def Stage.Meets (M : Monitor Q A R σ) (post : σ → Except Fault Tally → Prop) (x : σ) :
    Stage Q A R → Prop
  | working c => c.Meets M post x
  | asking q next => ∀ a, (next a).Meets M post (M.answered x q a)
  | _ => True

/-- An outcome at this stage is one that the work on the job may end with, unless the job never
set to work. -/
def Stage.Concludes (post : σ → Except Fault Tally → Prop) (x : σ) (g : Stage Q A R) : Prop :=
  ∀ r, g.outcome? = some (.returned r) → post x r ∨ r = .error (.cancelled .top)

variable {u : Setup Q A R} {s : State Q A R} {scopes : Scopes} {caller : Nat}
  {post : σ → Except Fault Tally → Prop}

/-- After the deeds `h` of a job all is in accordance with the monitor: what has been done, what is
still to come, and what has come of it. -/
structure Stage.Conducts (M : Monitor Q A R σ) (post : σ → Except Fault Tally → Prop) (x : σ)
    (h : List (Deed Q A R)) (g : Stage Q A R) : Prop where
  accords : Accords M x h
  pending : g.isPending = true → stepsIn h = []
  meets : g.Meets M post (M.after x (stepsIn h))
  concludes : g.Concludes post (M.after x (stepsIn h))

/-- A job that goes on keeps to the monitor. -/
theorem Goes.conducts {i : Nat} {b b' : Bool} {g g' : Stage Q A R} {h ds : List (Deed Q A R)}
    (hstep : Goes u i b b' g ds g') (hM : M.IsBlind) (hc : (u.course i).Meets M post x)
    (hg : g.Conducts M post x h) : g'.Conducts M post x (ds ++ h) := by
  obtain ⟨hh, hpending, hmeets, hends⟩ := hg
  cases hstep with
  | takeUp | enter =>
      have hnil : stepsIn h = [] := hpending rfl
      refine ⟨hh, (fun hp => by cases hp), ?_, nofun⟩
      simpa [Stage.Meets, Deed.step?, hnil] using hc
  | pace =>
      obtain ⟨hmarks, hrest⟩ := Course.Meets.pace hmeets (hM _ b)
      refine ⟨hh.marks hmarks, (fun hp => by cases hp), ?_, nofun⟩
      rw [stepsIn_marks, Monitor.after_append, Monitor.after_marks]
      exact hrest
  | ask =>
      refine ⟨⟨hmeets.1, hh⟩, (fun hp => by cases hp), ?_, nofun⟩
      simpa [Stage.Meets, Deed.step?] using hmeets.2
  | reply a =>
      refine ⟨hh, (fun hp => by cases hp), ?_, nofun⟩
      simpa [Stage.Meets, Deed.step?, Monitor.step] using hmeets a
  | finish =>
      refine ⟨hh, (fun hp => by cases hp), trivial, ?_⟩
      rintro r ⟨⟩
      exact .inl hmeets
  | turnAway | giveUp | handOn =>
      refine ⟨hh, (fun hp => by cases hp), trivial, ?_⟩
      rintro r ⟨⟩
      exact .inr rfl
  | crash => exact ⟨hh, (fun hp => by cases hp), trivial, nofun⟩
  | leave | join =>
      refine ⟨hh, (fun hp => by cases hp), trivial, fun r hr => ?_⟩
      simpa [Deed.step?] using hends r hr
  | pass | queue | letOn => exact ⟨hh, hpending, trivial, nofun⟩

namespace Reachable

/-- All that a job does accords with a monitor that its course meets. -/
theorem conducts (h : Reachable u (Fleet.start u scopes caller) s) (hM : M.IsBlind) {i : Nat}
    (hc : (u.course i).Meets M post x) {g : Stage Q A R} (hi : s.stages[i]? = some g) :
    g.Conducts M post x (deedsOf i s.history) := by
  refine h.keeps i (fun h _ g => g.Conducts M post x h) (fun _ _ hg => hg)
    (fun _ _ _ _ _ _ _ hstep hg => hstep.conducts hM hc hg) (sound_start u scopes caller) ?_ hi
  intro g hg
  rw [stage_start hg, deedsOf_start]
  exact ⟨trivial, fun _ => rfl, trivial, nofun⟩

/-- The deeds of a job accord with a monitor that its course meets. -/
theorem accords (h : Reachable u (Fleet.start u scopes caller) s) (hM : M.IsBlind) {i : Nat}
    (hc : (u.course i).Meets M post x) {g : Stage Q A R} (hi : s.stages[i]? = some g) :
    Accords M x (deedsOf i s.history) :=
  (h.conducts hM hc hi).accords

/-- What a job has returned is what its course may end with after the steps of the job, or the job
was turned away. -/
theorem outcome_meets (h : Reachable u (Fleet.start u scopes caller) s) (hM : M.IsBlind) {i : Nat}
    (hc : (u.course i).Meets M post x) {g : Stage Q A R} (hi : s.stages[i]? = some g)
    {r : Except Fault Tally} (hr : g.outcome? = some (.returned r)) :
    post (M.after x (stepsOf i s.history)) r ∨ r = .error (.cancelled .top) :=
  (h.conducts hM hc hi).concludes r hr

/-- A question that a job puts is one that its course may put after the steps before it. -/
theorem may_ask (h : Reachable u (Fleet.start u scopes caller) s) (hM : M.IsBlind) {i : Nat} {q : Q}
    (hc : (u.course i).Meets M post x) {later earlier : List (Deed Q A R)}
    (hs : s.history = later ++ .asked i q :: earlier) :
    M.mayAsk (M.after x (stepsOf i earlier)) q := by
  obtain ⟨g, hi⟩ := h.stage_of_deed (i := i) (d := .asked i q) (by simp [hs]) rfl
  have haccords := h.accords hM hc hi
  rw [hs, deedsOf_append, deedsOf_cons_self rfl] at haccords
  exact haccords.of_append.1

/-- So is a mark that it leaves. -/
theorem may_leave (h : Reachable u (Fleet.start u scopes caller) s) (hM : M.IsBlind) {i : Nat}
    {m : Mark R} (hc : (u.course i).Meets M post x) {later earlier : List (Deed Q A R)}
    (hs : s.history = later ++ .step i (.left m) :: earlier) :
    M.mayLeave (M.after x (stepsOf i earlier)) m := by
  obtain ⟨g, hi⟩ := h.stage_of_deed (i := i) (d := .step i (.left m)) (by simp [hs]) rfl
  have haccords := h.accords hM hc hi
  rw [hs, deedsOf_append, deedsOf_cons_self rfl] at haccords
  exact haccords.of_append.1

end Reachable

end Converge.Fleet
