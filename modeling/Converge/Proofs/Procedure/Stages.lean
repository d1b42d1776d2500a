import Converge.Proofs.Provision.Replies

/-!
# Stages of a procedure

Work on a resource can be a list of stages: commands that have to succeed, one after the other, each
with words for what it is a part of.  The commands are run in the order of the list, and the first
that does not go well is the last that is run.
-/

namespace Converge

variable {Q : Type} {A : Q → Type} {α β σ : Type}

/-! ## Questions with their answers -/

namespace Plan

/-- What a plan asks when it is carried out, each question with its answer, in order. -/
def exchanges (answer : (q : Q) → σ → A q × σ) : Plan Q A α → σ → List ((q : Q) × A q)
  | done _, _ => []
  | ask q next, s => ⟨q, (answer q s).1⟩ :: (next (answer q s).1).exchanges answer (answer q s).2

variable (answer : (q : Q) → σ → A q × σ)

theorem exchanges_bind (p : Plan Q A α) (f : α → Plan Q A β) (s : σ) :
    (p.bind f).exchanges answer s = p.exchanges answer s ++
      (f (p.run answer s).1).exchanges answer (p.run answer s).2 := by
  induction p generalizing s with
  | done a => rfl
  | ask q next ih => exact congrArg (_ :: ·) (ih _ _)

end Plan

/-- Replies, as they were had from the world outside. -/
def Replies.exchanges (replies : Replies) : List ((q : Command.Request) × q.Answer) :=
  replies.map fun r => ⟨.run r.1, r.2⟩

/-! ## Stages -/

/-- A command that has to succeed, and what it is a part of. -/
structure Stage where
  command : Command
  doing : String

namespace Stage

open Command (wentWell)

/-- One stage after the other. -/
def performAll : List Stage → Command.Procedure (Except Failure Unit)
  | [] => .done (.ok ())
  | t :: rest => (t.command.perform t.doing).andThen fun () => performAll rest

@[simp] theorem performAll_nil : performAll [] = .done (.ok ()) := rfl

theorem performAll_cons (t : Stage) (rest : List Stage) :
    performAll (t :: rest) = (t.command.perform t.doing).andThen fun () => performAll rest := rfl

@[simp] theorem performAll_singleton (t : Stage) :
    performAll [t] = t.command.perform t.doing :=
  Plan.andThen_ok _

theorem performAll_append (stages rest : List Stage) :
    performAll (stages ++ rest) = (performAll stages).andThen fun () => performAll rest := by
  induction stages with
  | nil => rfl
  | cons t stages ih => rw [List.cons_append, performAll_cons, ih, performAll_cons,
      Plan.andThen_assoc]

/-- What is run of some stages, what came of each command, and what comes of it all. -/
structure Performed (stages : List Stage) (replies : Replies) (result : Except Failure Unit) :
    Prop where
  /-- The commands are run in the order of the stages, none of which is passed over. -/
  commands : replies.map Prod.fst <+: stages.map Stage.command
  /-- Only after a command that went well is another one run. -/
  onward : ∀ r ∈ replies.dropLast, wentWell r.2 = true
  /-- It is a success if all stages were gone through, and all of them went well. -/
  ok_iff : result = .ok () ↔
    replies.map Prod.fst = stages.map Stage.command ∧ ∀ r ∈ replies, wentWell r.2 = true
  /-- A failure is that of the last command that was run, told as one of its stage. -/
  error : ∀ f, result = .error f → ∃ before stage after past reply g,
    stages = before ++ stage :: after ∧ replies = past ++ [(stage.command, reply)] ∧
    past.map Prod.fst = before.map Stage.command ∧ wentWell reply = false ∧
    stage.command.checked reply = .error g ∧ f = g.within stage.doing

namespace Performed

variable {t : Stage} {rest stages : List Stage} {replies : Replies}
  {result : Except Failure Unit} {r : Except Failure Output} {g : Failure}

theorem nil : Performed [] [] (.ok ()) where
  commands := List.prefix_refl _
  onward := List.forall_mem_nil _
  ok_iff := ⟨fun _ => ⟨rfl, List.forall_mem_nil _⟩, fun _ => rfl⟩
  error := nofun

/-- The first command does not go well. -/
theorem failed (hchecked : t.command.checked r = .error g) :
    Performed (t :: rest) [(t.command, r)] (.error (g.within t.doing)) := by
  have hfailed : wentWell r = false := by
    rw [Bool.eq_false_iff]
    intro hwell
    obtain ⟨o, ho⟩ := Command.checked_of_wentWell (c := t.command) hwell
    cases hchecked.symm.trans ho
  constructor
  case commands => exact ⟨rest.map Stage.command, rfl⟩
  case onward => exact List.forall_mem_nil _
  case ok_iff =>
    refine iff_of_false nofun ?_
    rintro ⟨-, hwell⟩
    exact Bool.false_ne_true (hfailed.symm.trans (hwell _ List.mem_cons_self))
  case error =>
    rintro _ ⟨⟩
    exact ⟨[], t, rest, [], r, g, rfl, rfl, rfl, hfailed, hchecked, rfl⟩

/-- The first command goes well, and then the others are run. -/
theorem next (hwell : wentWell r = true) (h : Performed rest replies result) :
    Performed (t :: rest) ((t.command, r) :: replies) result := by
  constructor
  case commands => exact List.cons_prefix_cons.mpr ⟨rfl, h.commands⟩
  case onward =>
    intro p hp
    cases replies with
    | nil => cases hp
    | cons q replies =>
        rw [List.dropLast_cons_cons] at hp
        rcases List.mem_cons.mp hp with rfl | hp
        · exact hwell
        · exact h.onward p hp
  case ok_iff =>
    rw [h.ok_iff, List.map_cons, List.map_cons, List.cons_inj_right, List.forall_mem_cons]
    exact and_congr_right fun _ => (and_iff_right hwell).symm
  case error =>
    intro f hf
    obtain ⟨before, stage, after, past, reply, g, rfl, rfl, hpast, hreply⟩ := h.error f hf
    refine ⟨t :: before, stage, after, (t.command, r) :: past, reply, g, rfl, rfl, ?_, hreply⟩
    rw [List.map_cons, List.map_cons, hpast]

/-- Before a command that was run, all stages before its own were gone through with success. -/
theorem before (h : Performed stages replies result) {past later : Replies}
    {p : Command × Except Failure Output} (hreplies : replies = past ++ p :: later) :
    past.map Prod.fst = (stages.map Stage.command).take past.length ∧
      (stages.map Stage.command)[past.length]? = some p.1 ∧ ∀ q ∈ past, wentWell q.2 = true := by
  subst hreplies
  obtain ⟨more, hmore⟩ := h.commands
  rw [List.map_append, List.map_cons, List.append_assoc] at hmore
  refine ⟨?_, ?_, fun q hq => h.onward q ?_⟩
  · rw [← hmore, List.take_left' (List.length_map _)]
  · rw [← hmore, List.getElem?_append_right (Nat.le_of_eq (List.length_map _)), List.length_map,
      Nat.sub_self]
    rfl
  · rw [List.dropLast_append_of_ne_nil (List.cons_ne_nil p later)]
    exact List.mem_append_left _ hq

end Performed

/-- Stages are gone through in whatever world they are performed in. -/
theorem exists_performed (answer : (q : Command.Request) → σ → q.Answer × σ)
    (stages : List Stage) (s : σ) :
    ∃ replies : Replies, (performAll stages).exchanges answer s = replies.exchanges ∧
      Performed stages replies ((performAll stages).run answer s).1 := by
  induction stages generalizing s with
  | nil => exact ⟨[], rfl, .nil⟩
  | cons t rest ih =>
      have hfirst : (t.command.perform t.doing).exchanges answer s =
          [⟨.run t.command, (answer (.run t.command) s).1⟩] := rfl
      rw [performAll_cons, Plan.andThen, Plan.exchanges_bind, Plan.run_bind, hfirst,
        Command.run_perform]
      cases hchecked : t.command.checked (answer (.run t.command) s).1 with
      | error g => exact ⟨[(t.command, _)], rfl, .failed hchecked⟩
      | ok o =>
          obtain ⟨replies, hexchanges, hperformed⟩ := ih (answer (.run t.command) s).2
          refine ⟨(t.command, (answer (.run t.command) s).1) :: replies, ?_,
            .next (Command.wentWell_of_checked hchecked) hperformed⟩
          exact congrArg (_ :: ·) hexchanges

end Stage

end Converge
