import Converge.Course

/-!
# Monitors

A monitor follows a course from outside.  It has a state, which answers, looks and marks change,
and it says which questions may be put and which marks may be left.  A course meets a monitor if
it keeps to that whatever the world answers and whatever the flag of its scope says; what it ends
with is then known to satisfy a postcondition.
-/

namespace Converge

/-- A monitor with states of type `σ`. -/
structure Monitor (Q : Type) (A : Q → Type) (R σ : Type) where
  /-- May the question be put? -/
  mayAsk : σ → Q → Prop
  answered : σ → (q : Q) → A q → σ
  /-- The state after a look at the flag; without one, such looks are left out of account. -/
  looked : σ → Bool → Option σ
  /-- May the mark be left? -/
  mayLeave : σ → Mark R → Prop
  left : σ → Mark R → σ

variable {Q : Type} {A : Q → Type} {R σ α β ε : Type}

namespace Monitor

/-- May the marks be left one after the other? -/
def MayLeaveAll (M : Monitor Q A R σ) : σ → List (Mark R) → Prop
  | _, [] => True
  | x, m :: ms => M.mayLeave x m ∧ M.MayLeaveAll (M.left x m) ms

/-- The state after one step of a course. -/
def step (M : Monitor Q A R σ) (x : σ) : Course.Step Q A R → σ
  | .answered q a => M.answered x q a
  | .left m => M.left x m

/-- The state after several steps. -/
def after (M : Monitor Q A R σ) (x : σ) (past : List (Course.Step Q A R)) : σ :=
  past.foldl M.step x

@[simp] theorem after_nil (M : Monitor Q A R σ) (x : σ) : M.after x [] = x := rfl

@[simp] theorem after_singleton (M : Monitor Q A R σ) (x : σ) (s : Course.Step Q A R) :
    M.after x [s] = M.step x s := rfl

@[simp] theorem after_append (M : Monitor Q A R σ) (x : σ) (past next : List (Course.Step Q A R)) :
    M.after x (past ++ next) = M.after (M.after x past) next := by
  simp [after]

theorem after_marks (M : Monitor Q A R σ) (x : σ) (ms : List (Mark R)) :
    M.after x (ms.map .left) = ms.foldl M.left x := by
  rw [after, List.foldl_map]
  rfl

/-- A monitor that takes no account of looks. -/
def IsBlind (M : Monitor Q A R σ) : Prop := ∀ x b, M.looked x b = some x

/-- A monitor that takes account of questions and their answers only. -/
structure OnlyAsks (M : Monitor Q A R σ) : Prop where
  blind : M.IsBlind
  mayLeave : ∀ x m, M.mayLeave x m
  left : ∀ x m, M.left x m = x

/-- The monitor that allows everything, for what is true of the end alone. -/
def free : Monitor Q A R Unit where
  mayAsk _ _ := True
  answered _ _ _ := ()
  looked _ _ := some ()
  mayLeave _ _ := True
  left _ _ := ()

theorem free_onlyAsks : (free : Monitor Q A R Unit).OnlyAsks where
  blind _ _ := rfl
  mayLeave _ _ := trivial
  left _ _ := rfl

end Monitor

namespace Course

/-- The course keeps to the monitor from state `x` on, and ends in accordance with `post`. -/
def Meets (M : Monitor Q A R σ) (post : σ → α → Prop) : Course Q A R α → σ → Prop
  | done a, x => post x a
  | ask q next, x => M.mayAsk x q ∧ ∀ a, (next a).Meets M post (M.answered x q a)
  | look next, x => ∀ b, ∀ y ∈ M.looked x b, (next b).Meets M post y
  | leave m next, x => M.mayLeave x m ∧ next.Meets M post (M.left x m)

variable {M : Monitor Q A R σ} {post : σ → α → Prop}

@[simp] theorem meets_done {x : σ} {a : α} :
    (done a : Course Q A R α).Meets M post x ↔ post x a := Iff.rfl
@[simp] theorem meets_ask {x : σ} {q : Q} {next : A q → Course Q A R α} :
    (ask q next).Meets M post x ↔
      M.mayAsk x q ∧ ∀ a, (next a).Meets M post (M.answered x q a) := Iff.rfl
@[simp] theorem meets_look {x : σ} {next : Bool → Course Q A R α} :
    (look next).Meets M post x ↔ ∀ b, ∀ y ∈ M.looked x b, (next b).Meets M post y := Iff.rfl
@[simp] theorem meets_leave {x : σ} {m : Mark R} {next : Course Q A R α} :
    (leave m next).Meets M post x ↔ M.mayLeave x m ∧ next.Meets M post (M.left x m) := Iff.rfl

namespace Meets

/-- A weaker postcondition is met as well. -/
theorem mono {post' : σ → α → Prop} {c : Course Q A R α} {x : σ} (h : c.Meets M post x)
    (himp : ∀ y a, post y a → post' y a) : c.Meets M post' x := by
  induction c generalizing x with
  | done a => exact himp x a h
  | ask q next ih => exact ⟨h.1, fun a => ih a (h.2 a)⟩
  | look next ih => exact fun b y hy => ih b (h b y hy)
  | leave m next ih => exact ⟨h.1, ih h.2⟩

/-- One course after another: the second one starts from what the first one ends with. -/
theorem bind {mid : σ → α → Prop} {post : σ → β → Prop} {c : Course Q A R α}
    {f : α → Course Q A R β} {x : σ} (h : c.Meets M mid x)
    (hf : ∀ y a, mid y a → (f a).Meets M post y) : (c.bind f).Meets M post x := by
  induction c generalizing x with
  | done a => exact hf x a h
  | ask q next ih => exact ⟨h.1, fun a => ih a (h.2 a)⟩
  | look next ih => exact fun b y hy => ih b (h b y hy)
  | leave m next ih => exact ⟨h.1, ih h.2⟩

/-- One course after the success of another. -/
theorem andThen {mid : σ → Except ε α → Prop} {post : σ → Except ε β → Prop}
    {c : Course Q A R (Except ε α)} {f : α → Course Q A R (Except ε β)} {x : σ}
    (h : c.Meets M mid x) (hf : ∀ y a, mid y (.ok a) → (f a).Meets M post y)
    (he : ∀ y e, mid y (.error e) → post y (.error e)) : (c.andThen f).Meets M post x := by
  refine h.bind fun y r hr => ?_
  cases r with
  | ok a => exact hf y a hr
  | error e => exact he y e hr

/-- A plan meets a monitor that lets everything be asked, and keeps what answers keep. -/
theorem ofPlan {I : σ → Prop} (hask : ∀ x q, I x → M.mayAsk x q)
    (hanswer : ∀ x q a, I x → I (M.answered x q a)) (p : Plan Q A α) {x : σ} (hx : I x) :
    (ofPlan p).Meets M (fun y _ => I y) x := by
  induction p generalizing x with
  | done a => exact hx
  | ask q next ih => exact ⟨hask x q hx, fun a => ih a (hanswer x q a hx)⟩

/-- The marks that are left next may be left, and what follows them meets the monitor. -/
theorem marks {c : Course Q A R α} {x : σ} (h : c.Meets M post x) :
    M.MayLeaveAll x c.marks.1 ∧ c.marks.2.Meets M post (c.marks.1.foldl M.left x) := by
  induction c generalizing x with
  | leave m next ih => exact ⟨⟨h.1, (ih h.2).1⟩, (ih h.2).2⟩
  | _ => exact ⟨trivial, h⟩

/-- So may those of a pace, if a look would leave the state as it is. -/
theorem pace {c : Course Q A R α} {x : σ} {b : Bool} (h : c.Meets M post x)
    (hlook : M.looked x b = some x) :
    M.MayLeaveAll x (c.pace b).1 ∧ (c.pace b).2.Meets M post ((c.pace b).1.foldl M.left x) := by
  cases c with
  | look next => exact (h b x hlook).marks
  | _ => exact h.marks

/-- A course that is followed alone ends in accordance with the postcondition. -/
theorem run {τ : Type} {c : Course Q A R α} {x : σ} (h : c.Meets M post x) (hM : M.IsBlind)
    (w : World Q A τ) (t : τ) : post (M.after x (c.run w t).2.1) (c.run w t).1 := by
  induction c generalizing x t with
  | done a => exact h
  | ask q next ih => exact ih _ (h.2 _) _
  | look next ih => exact ih _ (h _ x (hM x _)) t
  | leave m next ih => exact ih h.2 t

section OnlyAsks

variable (hM : M.OnlyAsks) {x : σ}
include hM

/-- Looks do not matter to a monitor of questions. -/
theorem look {next : Bool → Course Q A R α} (h : ∀ b, (next b).Meets M post x) :
    (look next).Meets M post x := by
  intro b y hy
  obtain rfl : x = y := Option.some.inj ((hM.blind x b).symm.trans hy)
  exact h b

/-- Nor do marks. -/
theorem leave {m : Mark R} {c : Course Q A R α} (h : c.Meets M post x) :
    (leave m c).Meets M post x := by
  refine ⟨hM.mayLeave x m, ?_⟩
  rw [hM.left]
  exact h

/-- A call is as good as the work in it. -/
theorem call {work : Plan Q A α} (h : (Course.ofPlan work).Meets M post x) (c : Call) (r : R) :
    (Course.call c r work).Meets M post x :=
  leave hM (h.bind fun _ _ hy => leave hM hy)

end OnlyAsks

end Meets

/-! ## Courses that may fail -/

/-- The course meets the monitor, and what it ends with satisfies `p` if it is a success. -/
def Secures (M : Monitor Q A R σ) (p : σ → α → Prop) (c : Course Q A R (Except ε α)) (x : σ) :
    Prop :=
  c.Meets M (fun y r => ∀ a, r = .ok a → p y a) x

namespace Secures

variable {M : Monitor Q A R σ} {p : σ → α → Prop} {x : σ}

theorem ok {a : α} (h : p x a) : (done (.ok a) : Course Q A R (Except ε α)).Secures M p x := by
  intro b hb
  obtain rfl := Except.ok.inj hb
  exact h

theorem error {e : ε} : (done (.error e) : Course Q A R (Except ε α)).Secures M p x := by
  intro b hb
  cases hb

theorem mono {q : σ → α → Prop} {c : Course Q A R (Except ε α)} (h : c.Secures M p x)
    (himp : ∀ y a, p y a → q y a) : c.Secures M q x :=
  Meets.mono h fun y _ hr a ha => himp y a (hr a ha)

/-- One course after another, whatever comes of the first one. -/
theorem bind {δ : Type} {q : σ → β → Prop} {c : Course Q A R (Except ε α)}
    {f : Except ε α → Course Q A R (Except δ β)} (h : c.Secures M p x)
    (hok : ∀ y a, p y a → (f (.ok a)).Secures M q y)
    (herror : ∀ y e, (f (.error e)).Secures M q y) :
    (c.bind f).Secures M q x := by
  refine Meets.bind h fun y r hr => ?_
  cases r with
  | ok a => exact hok y a (hr a rfl)
  | error e => exact herror y e

/-- A failure of the first course is the end. -/
theorem andThen {q : σ → β → Prop} {c : Course Q A R (Except ε α)}
    {f : α → Course Q A R (Except ε β)} (h : c.Secures M p x)
    (hf : ∀ y a, p y a → (f a).Secures M q y) : (c.andThen f).Secures M q x :=
  h.bind hf fun _ _ => error

variable (hM : M.OnlyAsks)
include hM

theorem look {next : Bool → Course Q A R (Except ε α)} (h : ∀ b, (next b).Secures M p x) :
    (look next).Secures M p x :=
  Meets.look hM h

theorem leave {m : Mark R} {c : Course Q A R (Except ε α)} (h : c.Secures M p x) :
    (leave m c).Secures M p x :=
  Meets.leave hM h

theorem call {work : Plan Q A (Except ε α)} (h : (ofPlan work).Secures M p x) (c : Call) (r : R) :
    (Course.call c r work).Secures M p x :=
  Meets.call hM h c r

end Secures

end Course

end Converge
