/-!
# Plans

A plan puts questions to the world, one at a time, and goes on as each answer says, until it is
done.  The questions are those of a type `Q`, and `A q` is the type of the answers to `q`.
-/

namespace Converge

inductive Plan (Q : Type) (A : Q → Type) (α : Type) : Type where
  | done (a : α)
  | ask (q : Q) (next : A q → Plan Q A α)

namespace Plan

variable {Q : Type} {A : Q → Type} {α β γ ε : Type}

/-- One plan after another. -/
def bind : Plan Q A α → (α → Plan Q A β) → Plan Q A β
  | done a, f => f a
  | ask q next, f => ask q fun a => (next a).bind f

instance : Monad (Plan Q A) where
  pure := done
  bind := bind

/-- A single question. -/
def query (q : Q) : Plan Q A (A q) := ask q done

@[simp] theorem pure_eq (a : α) : (pure a : Plan Q A α) = done a := rfl
@[simp] theorem bind_eq (p : Plan Q A α) (f : α → Plan Q A β) : p >>= f = p.bind f := rfl
@[simp] theorem done_bind (a : α) (f : α → Plan Q A β) : (done a).bind f = f a := rfl
@[simp] theorem ask_bind (q : Q) (next : A q → Plan Q A α) (f : α → Plan Q A β) :
    (ask q next).bind f = ask q fun a => (next a).bind f := rfl

@[simp] theorem bind_done (p : Plan Q A α) : p.bind done = p := by
  induction p with
  | done a => rfl
  | ask q next ih => simp [ih]

theorem bind_assoc (p : Plan Q A α) (f : α → Plan Q A β) (g : β → Plan Q A γ) :
    (p.bind f).bind g = p.bind fun a => (f a).bind g := by
  induction p with
  | done a => rfl
  | ask q next ih => simp [ih]

instance : LawfulMonad (Plan Q A) := .mk' _ bind_done (fun _ _ => rfl) bind_assoc

/-- Goes on only after a success. -/
def andThen (p : Plan Q A (Except ε α)) (f : α → Plan Q A (Except ε β)) :
    Plan Q A (Except ε β) :=
  p.bind fun
    | .ok a => f a
    | .error e => done (.error e)

@[simp] theorem ok_andThen (a : α) (f : α → Plan Q A (Except ε β)) :
    andThen (done (.ok a)) f = f a := rfl
@[simp] theorem error_andThen (e : ε) (f : α → Plan Q A (Except ε β)) :
    andThen (done (.error e)) f = done (.error e) := rfl

/-- To go on after a success is what `ExceptT` does, and has its laws from there. -/
theorem andThen_eq_bind (p : Plan Q A (Except ε α)) (f : α → Plan Q A (Except ε β)) :
    p.andThen f = ExceptT.bind p f := by
  refine congrArg p.bind (funext fun r => ?_)
  cases r <;> rfl

theorem andThen_assoc (p : Plan Q A (Except ε α)) (f : α → Plan Q A (Except ε β))
    (g : β → Plan Q A (Except ε γ)) :
    (p.andThen f).andThen g = p.andThen fun a => (f a).andThen g := by
  simp only [andThen_eq_bind]
  exact LawfulMonad.bind_assoc (m := ExceptT ε (Plan Q A)) p f g

/-- A success is left as it is. -/
theorem andThen_ok (p : Plan Q A (Except ε α)) : (p.andThen fun a => done (.ok a)) = p := by
  rw [andThen_eq_bind]
  exact bind_pure (m := ExceptT ε (Plan Q A)) p

/-- Carries a plan out in a world of state `σ`, which answers every question. -/
def run {σ : Type} (answer : (q : Q) → σ → A q × σ) : Plan Q A α → σ → α × σ
  | done a, s => (a, s)
  | ask q next, s =>
      let (a, s) := answer q s
      (next a).run answer s

@[simp] theorem run_done {σ : Type} (answer : (q : Q) → σ → A q × σ) (a : α) (s : σ) :
    (done a : Plan Q A α).run answer s = (a, s) := rfl

theorem run_bind {σ : Type} (answer : (q : Q) → σ → A q × σ) (p : Plan Q A α)
    (f : α → Plan Q A β) (s : σ) :
    (p.bind f).run answer s = (f (p.run answer s).1).run answer (p.run answer s).2 := by
  induction p generalizing s with
  | done a => rfl
  | ask q next ih => simp [run, ih]

end Plan

end Converge
