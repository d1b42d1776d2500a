import Converge.Program
import Converge.Proofs.Fleet.Conduct

/-!
# One question at a time

A job that has put a question waits for the answer before it does anything else.  So each answer
comes right after its question, and whatever a job asked for before it asks again has been answered.
-/

namespace Converge

open Command (Request)

variable {R : Type}

/-- The requests that were answered in the steps of a course. -/
def Course.answeredIn (steps : List (Step Request Request.Answer R)) : List Request :=
  steps.filterMap Step.request?

namespace Fleet

/-- The requests among deeds, in the order in which they were made. -/
def requestsIn (h : List (Deed Request Request.Answer R)) : List Request :=
  h.reverse.filterMap Deed.request?

/-- The requests of one job. -/
def requestsOf (i : Nat) (h : List (Deed Request Request.Answer R)) : List Request :=
  requestsIn (deedsOf i h)

@[simp] theorem requestsIn_nil : requestsIn ([] : List (Deed Request Request.Answer R)) = [] := rfl

@[simp] theorem requestsIn_cons (d : Deed Request Request.Answer R)
    (h : List (Deed Request Request.Answer R)) :
    requestsIn (d :: h) = requestsIn h ++ d.request?.toList := by
  cases hd : d.request? <;> simp [requestsIn, hd]

@[simp] theorem requestsIn_marks (i : Nat) (ms : List (Mark R))
    (h : List (Deed Request Request.Answer R)) :
    requestsIn (ms.reverse.map (fun m => .step i (.left m)) ++ h) = requestsIn h := by
  induction ms.reverse with
  | nil => rfl
  | cons m ms ih =>
      rw [List.map_cons, List.cons_append, requestsIn_cons, ih]
      exact List.append_nil _

/-- A job makes requests by asking. -/
theorem requestsOf_cons (i : Nat) (d : Deed Request Request.Answer R)
    (h : List (Deed Request Request.Answer R)) :
    requestsOf i (d :: h) = requestsOf i h ∨
      ∃ q, d = .asked i q ∧ requestsOf i (d :: h) = requestsOf i h ++ [q] := by
  rw [requestsOf, deedsOf_cons]
  split
  · rename_i hd
    rw [requestsIn_cons]
    cases d with
    | asked k q =>
        obtain rfl : k = i := Option.some.inj hd
        exact .inr ⟨q, rfl, rfl⟩
    | _ => exact .inl (List.append_nil _)
  · exact .inl rfl

/-- The requests among the deeds have all been answered. -/
def Answered (h : List (Deed Request Request.Answer R)) : Prop :=
  requestsIn h = Course.answeredIn (stepsIn h)

/-- Among the deeds of a job, the latest first, each answer comes right after its question, and
each question when those before it have been answered. -/
def TakesTurns : List (Deed Request Request.Answer R) → Prop
  | [] => True
  | .asked _ _ :: h => Answered h ∧ TakesTurns h
  | .step i (.answered q _) :: h => h.head? = some (.asked i q) ∧ TakesTurns h
  | _ :: h => TakesTurns h

variable {h later earlier : List (Deed Request Request.Answer R)}

theorem TakesTurns.of_append (ht : TakesTurns (later ++ earlier)) : TakesTurns earlier := by
  induction later with
  | nil => exact ht
  | cons d later ih =>
      refine ih ?_
      cases d with
      | asked i q => exact ht.2
      | step i x =>
          cases x with
          | left m => exact ht
          | answered q a => exact ht.2
      | _ => exact ht

theorem TakesTurns.marks {i : Nat} {ms : List (Mark R)} (ht : TakesTurns h) :
    TakesTurns (ms.reverse.map (fun m => .step i (.left m)) ++ h) := by
  induction ms.reverse with
  | nil => exact ht
  | cons m ms ih => exact ih

theorem Answered.marks {i : Nat} {ms : List (Mark R)} (ha : Answered h) :
    Answered (ms.reverse.map (fun m => .step i (.left m)) ++ h) := by
  have hnone : Course.answeredIn (ms.map fun m => .left m) = [] := by
    induction ms with
    | nil => rfl
    | cons m ms ih => exact ih
  rw [Answered, requestsIn_marks, stepsIn_marks, ha]
  simp only [Course.answeredIn, List.filterMap_append]
  exact (List.append_right_eq_self.mpr hnone).symm

/-- Whose turn it is at this stage of job `i`. -/
def Stage.InTurn (i : Nat) (h : List (Deed Request Request.Answer R)) :
    Stage Request Request.Answer R → Prop
  | asking q _ => ∃ h', h = .asked i q :: h' ∧ Answered h'
  | leaving o | ended o | joined o => (∀ task how, o ≠ .crashed task how) → Answered h
  | _ => Answered h

variable {u : Setup Request Request.Answer R} {s : State Request Request.Answer R}
  {scopes : Scopes} {caller i : Nat} {g g' : Stage Request Request.Answer R}

/-- A job that goes on takes turns with the world. -/
theorem Goes.inTurn {b b' : Bool} {ds : List (Deed Request Request.Answer R)}
    (hstep : Goes u i b b' g ds g') (ht : TakesTurns h) (hg : g.InTurn i h) :
    TakesTurns (ds ++ h) ∧ g'.InTurn i (ds ++ h) := by
  have hother : ∀ d : Deed Request Request.Answer R, d.request? = none → d.step? = none →
      Answered h → Answered (d :: h) := by
    intro d hrequest hstep ha
    simpa [Answered, hrequest, hstep] using ha
  cases hstep with
  | pass | queue | letOn => exact ⟨ht, hg⟩
  | turnAway | giveUp => exact ⟨ht, fun _ => hg⟩
  | handOn => exact ⟨ht, fun _ => hother _ rfl rfl hg⟩
  | takeUp | enter => exact ⟨ht, hother _ rfl rfl hg⟩
  | finish => exact ⟨ht, fun _ => hg⟩
  | crash => exact ⟨ht, fun hne => absurd rfl (hne _ _)⟩
  | pace => exact ⟨ht.marks, hg.marks⟩
  | ask => exact ⟨⟨hg, ht⟩, h, rfl, hg⟩
  | @reply q next a =>
      obtain ⟨h', rfl, ha⟩ := hg
      refine ⟨⟨rfl, ht⟩, ?_⟩
      show Answered _
      simp only [Answered, List.singleton_append, requestsIn_cons, stepsIn_cons, Deed.request?,
        Deed.step?, Option.toList_none, Option.toList_some, List.append_nil]
      rw [show requestsIn h' = _ from ha]
      simp [Course.answeredIn, Course.Step.request?]
  | leave => exact ⟨ht, fun hne => hother _ rfl rfl (hg hne)⟩
  | join => exact ⟨ht, fun hne => hother _ rfl rfl (hg hne)⟩

namespace Reachable

/-- Every job takes turns with the world. -/
theorem inTurn (h : Reachable u (Fleet.start u scopes caller) s) (hi : s.stages[i]? = some g) :
    TakesTurns (deedsOf i s.history) ∧ g.InTurn i (deedsOf i s.history) := by
  refine h.keeps i (fun h _ g => TakesTurns h ∧ g.InTurn i h) (fun _ _ hg => hg)
    (fun _ _ _ _ _ _ _ hstep hg => hstep.inTurn hg.1 hg.2) (sound_start u scopes caller) ?_ hi
  intro g hg
  rw [stage_start hg, deedsOf_start]
  exact ⟨trivial, rfl⟩

/-- An answer comes right after the question, as far as its job is concerned. -/
theorem exists_asked (h : Reachable u (Fleet.start u scopes caller) s) {q : Request}
    {a : Request.Answer q} (hs : s.history = later ++ .step i (.answered q a) :: earlier) :
    ∃ mid before, earlier = mid ++ .asked i q :: before ∧ deedsOf i mid = [] := by
  obtain ⟨g, hi⟩ := h.stage_of_deed (i := i) (d := .step i (.answered q a)) (by simp [hs]) rfl
  have hturns := (h.inTurn hi).1
  rw [hs, deedsOf_append, deedsOf_cons_self rfl] at hturns
  obtain ⟨rest, hrest⟩ := List.head?_eq_some_iff.mp hturns.of_append.1
  obtain ⟨mid, before, rfl, hmid, -, -⟩ := List.filter_eq_cons_iff.mp hrest
  exact ⟨mid, before, rfl, List.filter_eq_nil_iff.mpr hmid⟩

/-- When a job puts a question, all that it asked before has been answered. -/
theorem answered_before (h : Reachable u (Fleet.start u scopes caller) s) {q : Request}
    (hs : s.history = later ++ .asked i q :: earlier) :
    requestsOf i earlier = Course.answeredIn (stepsOf i earlier) := by
  obtain ⟨g, hi⟩ := h.stage_of_deed (i := i) (d := .asked i q) (by simp [hs]) rfl
  have hturns := (h.inTurn hi).1
  rw [hs, deedsOf_append, deedsOf_cons_self rfl] at hturns
  exact hturns.of_append.1

/-- When a job has returned, all that it asked has been answered. -/
theorem answered_of_returned (h : Reachable u (Fleet.start u scopes caller) s)
    (hi : s.stages[i]? = some g) {r : Except Fault Tally}
    (hr : g.outcome? = some (.returned r)) :
    requestsOf i s.history = Course.answeredIn (stepsOf i s.history) := by
  have hg := (h.inTurn hi).2
  cases g with
  | leaving | ended | joined =>
      obtain rfl := Option.some.inj hr
      exact hg nofun
  | _ => cases hr

end Reachable

end Fleet

end Converge
