import Converge.Job
import Converge.Proofs.Visit.Calls
import Converge.Rehearsal.Actor

/-!
# What validating goes through

The trees of several jobs are validated by one recursion inside another.  Both come to a single pass
over a list, in which the resources of all trees stand one after another in pre-order.  The pass
goes to the end of the list, or to the first resource that is not valid, and calls nothing else.
-/

namespace Converge

open Course (World Step)

variable {Q : Type} {A : Q → Type} {R σ X Y : Type}

/-! ## The list -/

namespace Tree

mutual

/-- The resources of a tree that hangs below `above`, in pre-order, with the addresses of their
nodes. -/
def holdingsAt (above : Address) : Tree R → List (Address × R)
  | node name r ts =>
      (r.toList.map fun r => (above.child name, r)) ++ holdingsAll (above.child name) ts

def holdingsAll (above : Address) : List (Tree R) → List (Address × R)
  | [] => []
  | t :: ts => t.holdingsAt above ++ holdingsAll above ts

end

/-- The resources of a whole tree, in pre-order, with the addresses of their nodes. -/
def holdings (t : Tree R) : List (Address × R) := t.holdingsAt .top

@[simp] theorem holdingsAt_node (above : Address) (name : String) (r : Option R)
    (ts : List (Tree R)) :
    (node name r ts).holdingsAt above =
      (r.toList.map fun r => (above.child name, r)) ++ holdingsAll (above.child name) ts := by
  rw [holdingsAt]
@[simp] theorem holdingsAll_nil (above : Address) :
    holdingsAll above ([] : List (Tree R)) = [] := by rw [holdingsAll]
@[simp] theorem holdingsAll_cons (above : Address) (t : Tree R) (ts : List (Tree R)) :
    holdingsAll above (t :: ts) = t.holdingsAt above ++ holdingsAll above ts := by rw [holdingsAll]

mutual

theorem map_snd_holdingsAt : ∀ (t : Tree R) (above : Address),
    (t.holdingsAt above).map Prod.snd = t.resources
  | node name r ts, above => by
      rw [holdingsAt_node, resources_node, List.map_append, List.map_map,
        map_snd_holdingsAll ts (above.child name)]
      exact congrArg (· ++ _) (List.map_id _)

theorem map_snd_holdingsAll : ∀ (ts : List (Tree R)) (above : Address),
    (holdingsAll above ts).map Prod.snd = resourcesAll ts
  | [], above => by rw [holdingsAll_nil, resourcesAll_nil, List.map_nil]
  | t :: ts, above => by
      rw [holdingsAll_cons, resourcesAll_cons, List.map_append, map_snd_holdingsAt t,
        map_snd_holdingsAll ts]

end

end Tree

/-- The resources of the trees of jobs, tree after tree, with their jobs and addresses. -/
def Job.holdings (jobs : List (Job R)) : List ((Job R × Address) × R) :=
  jobs.flatMap fun job => job.tree.holdings.map fun x => ((job, x.1), x.2)

theorem Job.map_snd_holdings (jobs : List (Job R)) :
    (Job.holdings jobs).map Prod.snd = jobs.flatMap fun job => job.tree.resources := by
  rw [Job.holdings, List.map_flatMap]
  congr
  funext job
  rw [List.map_map]
  exact job.tree.map_snd_holdingsAt .top

/-! ## The pass -/

section

variable (P : Provider Q A R) (refuse : X → Failure → Course Q A R Fault)

/-- Validates the resources of a list, one after another.  The first one that is not valid ends the
pass; what it comes to then is left to `refuse`. -/
def inspect : List (X × R) → Course Q A R (Except Fault Unit)
  | [] => .done (.ok ())
  | (x, r) :: xs => (Course.call .validate r (P.validate r)).bind fun
      | .ok () => inspect xs
      | .error cause => (refuse x cause).bind fun f => .done (.error f)

theorem inspect_append (xs ys : List (X × R)) :
    inspect P refuse (xs ++ ys) =
      (inspect P refuse xs).andThen fun () => inspect P refuse ys := by
  induction xs with
  | nil => rfl
  | cons x xs ih =>
      obtain ⟨x, r⟩ := x
      rw [List.cons_append, inspect, inspect, Course.andThen, Course.bind_assoc]
      refine congrArg _ (funext fun answer => ?_)
      cases answer with
      | ok _ => exact ih
      | error cause =>
          show _ = ((refuse x cause).bind fun f => .done (Except.error f)).bind _
          rw [Course.bind_assoc]
          rfl

/-- What is done after the pass, and does nothing after a success, belongs to the refusal. -/
theorem inspect_bind {k : Except Fault Unit → Course Q A R (Except Fault Unit)}
    {g : Fault → Course Q A R Fault} (hok : k (.ok ()) = .done (.ok ()))
    (herror : ∀ f, k (.error f) = (g f).bind fun f => .done (.error f)) (xs : List (X × R)) :
    (inspect P refuse xs).bind k = inspect P (fun x cause => (refuse x cause).bind g) xs := by
  induction xs with
  | nil => exact hok
  | cons x xs ih =>
      obtain ⟨x, r⟩ := x
      rw [inspect, inspect, Course.bind_assoc]
      refine congrArg _ (funext fun answer => ?_)
      cases answer with
      | ok _ => exact ih
      | error cause =>
          calc ((refuse x cause).bind fun f => .done (.error f)).bind k
              = (refuse x cause).bind fun f => (g f).bind fun f => .done (.error f) := by
                rw [Course.bind_assoc]
                exact congrArg _ (funext herror)
            _ = ((refuse x cause).bind g).bind fun f => .done (.error f) :=
                (Course.bind_assoc _ _ _).symm

theorem inspect_map (g : Y → X) (ys : List (Y × R)) :
    inspect P refuse (ys.map fun y => (g y.1, y.2)) = inspect P (fun y => refuse (g y)) ys := by
  induction ys with
  | nil => rfl
  | cons y ys ih =>
      rw [List.map_cons, inspect, inspect, ih]

end

namespace Tree

variable (P : Provider Q A R)

/-- A refusal that is told only to the one who asked for the pass. -/
def invalidAt (here : Address) (cause : Failure) : Course Q A R Fault :=
  .done (.validation here cause)

mutual

theorem validateAt_eq : ∀ (t : Tree R) (above : Address),
    t.validateAt P above = inspect P invalidAt (t.holdingsAt above)
  | node name none ts, above => by
      rw [validateAt_node, holdingsAt_node, validateAll_eq ts]
      rfl
  | node name (some r) ts, above => by
      rw [validateAt_node, holdingsAt_node, validateAll_eq ts, inspect_append]
      refine congrArg (Course.andThen · _) ?_
      rw [Option.toList_some, List.map_singleton, inspect, validateResource]
      refine congrArg _ (funext fun answer => ?_)
      cases answer <;> rfl

theorem validateAll_eq : ∀ (ts : List (Tree R)) (above : Address),
    validateAll P above ts = inspect P invalidAt (holdingsAll above ts)
  | [], above => by
      rw [validateAll_nil, holdingsAll_nil]
      rfl
  | t :: ts, above => by
      rw [validateAll_cons, holdingsAll_cons, inspect_append, validateAt_eq t, validateAll_eq ts]

end

/-- The failure of a pass over the tree `t` is written down. -/
def invalidIn (t : Tree R) (here : Address) (cause : Failure) : Course Q A R Fault :=
  .note (.passFailed "validate" t.name (Fault.validation here cause).message)
    (.done (.validation here cause))

theorem validate_eq (t : Tree R) : t.validate P = inspect P t.invalidIn t.holdings := by
  rw [validate, validateAt_eq]
  exact inspect_bind P invalidAt (k := reported "validate" t.name)
    (g := fun f => .note (.passFailed "validate" t.name f.message) (.done f)) rfl (fun _ => rfl) _

end Tree

namespace Job

variable (P : Provider Q A R)

/-- It is written down, and then put down to the job. -/
def invalidIn (x : Job R × Address) (cause : Failure) : Course Q A R Fault :=
  .note (.passFailed "validate" x.1.tree.name (Fault.validation x.2 cause).message)
    (.done (.unit x.1.name (.validation x.2 cause)))

theorem onBehalf_validate (job : Job R) :
    onBehalf job.name (job.tree.validate P) =
      inspect P invalidIn (job.tree.holdings.map fun x => ((job, x.1), x.2)) := by
  rw [onBehalf, Tree.validate_eq, inspect_map P invalidIn fun here => (job, here)]
  refine inspect_bind P job.tree.invalidIn (g := fun f => .done (f.forUnit job.name)) ?_ ?_ _
  · rfl
  · intro f
    rfl

theorem validateAll_eq (jobs : List (Job R)) :
    validateAll P jobs = inspect P invalidIn (holdings jobs) := by
  induction jobs with
  | nil => rfl
  | cons job jobs ih =>
      rw [validateAll, onBehalf_validate, ih, ← inspect_append]
      rfl

end Job

/-! ## What it comes to -/

section

variable (w : World Q A σ) (P : Provider Q A R)

/-- The resource is found valid in this state of the world. -/
def Valid (s : σ) (r : R) : Prop := ((P.validate r).run w.answer s).1 = .ok ()

/-- The state of the world after some resources have been validated, one after another. -/
def stateAfter (s : σ) (rs : List R) : σ :=
  rs.foldl (fun s r => ((P.validate r).run w.answer s).2) s

/-- Every resource of the list is valid, in the state that those before it lead to. -/
def AllValid (s : σ) (rs : List R) : Prop :=
  ∀ before r after, rs = before ++ r :: after → Valid w P (stateAfter w P s before) r

/-- From state `s`, the resources of a list have been validated with this result, by these calls,
and the world has been left in state `s'`. -/
structure Inspected (fault : X → Failure → Fault) (s : σ) (xs : List (X × R))
    (result : Except Fault Unit) (called : List (Call × R)) (s' : σ) : Prop where
  /-- The pass succeeds exactly if every resource is valid. -/
  ok_iff : result = .ok () ↔ AllValid w P s (xs.map Prod.snd)
  /-- Then each of them has been validated once, in order. -/
  all : result = .ok () →
    called = (xs.map fun x => (.validate, x.2)) ∧ s' = stateAfter w P s (xs.map Prod.snd)
  /-- Otherwise there is a first one that is not valid.  The fault is about it, and the resources
  up to it, itself included, have been validated once, in order. -/
  first : ∀ f, result = .error f → ∃ before x r after cause,
    xs = before ++ (x, r) :: after ∧ AllValid w P s (before.map Prod.snd) ∧
    (P.validate r).run w.answer (stateAfter w P s (before.map Prod.snd)) = (.error cause, s') ∧
    f = fault x cause ∧ called = (before ++ [(x, r)]).map fun x => (.validate, x.2)

end

variable {w : World Q A σ} {P : Provider Q A R} {s t s' : σ} {r : R} {rs : List R}
  {fault : X → Failure → Fault} {x : X} {xs : List (X × R)} {result : Except Fault Unit}
  {called : List (Call × R)} {cause : Failure}

theorem allValid_nil : AllValid w P s [] := by
  intro before r after h
  simp at h

theorem allValid_cons :
    AllValid w P s (r :: rs) ↔
      Valid w P s r ∧ AllValid w P ((P.validate r).run w.answer s).2 rs := by
  constructor
  · intro h
    constructor
    · exact h [] r rs rfl
    · intro before r' after hrs
      exact h (r :: before) r' after (congrArg (r :: ·) hrs)
  · rintro ⟨hr, h⟩ before r' after hrs
    cases before with
    | nil =>
        obtain ⟨rfl, -⟩ := List.cons.inj hrs
        exact hr
    | cons _ before =>
        obtain ⟨rfl, htail⟩ := List.cons.inj hrs
        exact h before r' after htail

/-- If it does not depend on the state of the world what is valid, then no order matters. -/
theorem allValid_iff {valid : R → Prop} (hvalid : ∀ r s, Valid w P s r ↔ valid r) :
    AllValid w P s rs ↔ ∀ r ∈ rs, valid r := by
  induction rs generalizing s with
  | nil => exact iff_of_true allValid_nil (List.forall_mem_nil _)
  | cons r rs ih => rw [allValid_cons, hvalid, ih, List.forall_mem_cons]

namespace Inspected

theorem nil : Inspected w P fault s [] (.ok ()) [] s where
  ok_iff := iff_of_true rfl allValid_nil
  all _ := ⟨rfl, rfl⟩
  first _ h := nomatch h

theorem invalid (hr : (P.validate r).run w.answer s = (.error cause, s')) :
    Inspected w P fault s ((x, r) :: xs) (.error (fault x cause)) [(.validate, r)] s' where
  ok_iff := by
    refine iff_of_false (fun h => nomatch h) (fun h => ?_)
    have hvalid := (allValid_cons.mp h).1
    rw [Valid, hr] at hvalid
    cases hvalid
  all h := nomatch h
  first f h := by
    cases h
    exact ⟨[], x, r, xs, cause, rfl, allValid_nil, hr, rfl, rfl⟩

theorem valid (hr : (P.validate r).run w.answer s = (.ok (), t))
    (h : Inspected w P fault t xs result called s') :
    Inspected w P fault s ((x, r) :: xs) result ((.validate, r) :: called) s' where
  ok_iff := by
    have hvalid : Valid w P s r := by rw [Valid, hr]
    rw [h.ok_iff, List.map_cons, allValid_cons, hr, and_iff_right hvalid]
  all hok := by
    obtain ⟨rfl, rfl⟩ := h.all hok
    constructor
    · rfl
    · rw [List.map_cons, stateAfter, stateAfter, List.foldl_cons, hr]
  first f hf := by
    obtain ⟨before, x', r', after, cause, rfl, hbefore, hr', rfl, rfl⟩ := h.first f hf
    have hvalid : Valid w P s r := by rw [Valid, hr]
    refine ⟨(x, r) :: before, x', r', after, cause, rfl, ?_, ?_, rfl, rfl⟩
    · rw [List.map_cons, allValid_cons, hr]
      exact ⟨hvalid, hbefore⟩
    · rw [List.map_cons, stateAfter, List.foldl_cons, hr]
      exact hr'

end Inspected

/-- The pass goes through its list, whatever a refusal writes down. -/
theorem exists_inspected {refuse : X → Failure → Course Q A R Fault}
    (hrefuse : ∀ x cause s, ∃ steps, (refuse x cause).run w s = (fault x cause, steps, s) ∧
      Course.calls steps = [])
    (xs : List (X × R)) (s : σ) :
    ∃ result steps s', (inspect P refuse xs).run w s = (result, steps, s') ∧
      Inspected w P fault s xs result (Course.calls steps) s' := by
  induction xs generalizing s with
  | nil => exact ⟨.ok (), [], s, rfl, .nil⟩
  | cons x xs ih =>
      obtain ⟨x, r⟩ := x
      obtain ⟨steps, hcall, hsteps⟩ := Course.run_call w .validate r (P.validate r) s
      obtain ⟨⟨answer, t⟩, hr⟩ : ∃ y, (P.validate r).run w.answer s = y := ⟨_, rfl⟩
      rw [hr] at hcall
      cases answer with
      | ok _ =>
          obtain ⟨result, further, s', hrun, hinspected⟩ := ih t
          refine ⟨result, steps ++ further, s', ?_, ?_⟩
          · simp only [inspect, Course.run_bind, hcall, hrun]
          · rw [Course.calls_append, hsteps]
            exact .valid hr hinspected
      | error cause =>
          obtain ⟨further, hrun, hfurther⟩ := hrefuse x cause t
          refine ⟨.error (fault x cause), steps ++ further, t, ?_, ?_⟩
          · simp only [inspect, Course.run_bind, hcall, hrun, Course.run, List.append_nil]
          · rw [Course.calls_append, hsteps, hfurther]
            exact .invalid hr

namespace Job

theorem exists_inspected_validateAll (P : Provider Q A R) (w : World Q A σ) (jobs : List (Job R))
    (s : σ) :
    ∃ result steps s', (validateAll P jobs).run w s = (result, steps, s') ∧
      Inspected w P (fun x cause => .unit x.1.name (.validation x.2 cause)) s (holdings jobs) result
        (Course.calls steps) s' := by
  rw [validateAll_eq]
  exact exists_inspected (fun _ _ _ => ⟨[.left (.event _)], rfl, rfl⟩) _ s

/-- If it does not depend on the state of the world what is valid, then the trees of jobs pass
exactly if all of their resources are. -/
theorem validateAll_ok_iff {valid : R → Prop} (hvalid : ∀ r s, Valid w P s r ↔ valid r)
    (jobs : List (Job R)) (s : σ) :
    ((validateAll P jobs).run w s).1 = .ok () ↔
      ∀ job ∈ jobs, ∀ r ∈ job.tree.resources, valid r := by
  obtain ⟨result, steps, s', hrun, hinspected⟩ := exists_inspected_validateAll P w jobs s
  rw [hrun, hinspected.ok_iff, map_snd_holdings, allValid_iff hvalid]
  exact List.forall_mem_flatMap

/-- Validating one tree, or those of several jobs, goes through the list of their resources: it
succeeds exactly if every one of them is valid, and otherwise names the first that is not.  It calls
nothing but what it validates.  Whether the scope has been cancelled does not matter to it. -/
theorem validateAll_inspects (P : Provider Q A R) (w : World Q A σ) (s : σ) :
    (∀ t : Tree R, ∃ result steps s', (t.validate P).run w s = (result, steps, s') ∧
      Inspected w P .validation s t.holdings result (Course.calls steps) s') ∧
    (∀ jobs : List (Job R), ∃ result steps s',
      (validateAll P jobs).run w s = (result, steps, s') ∧
      Inspected w P (fun x cause => .unit x.1.name (.validation x.2 cause)) s (holdings jobs) result
        (Course.calls steps) s') ∧
    ∀ valid : R → Prop, (∀ r s, Valid w P s r ↔ valid r) → ∀ jobs : List (Job R),
      ((validateAll P jobs).run w s).1 = .ok () ↔
        ∀ job ∈ jobs, ∀ r ∈ job.tree.resources, valid r := by
  refine ⟨fun t => ?_, fun jobs => exists_inspected_validateAll P w jobs s,
    fun valid hvalid jobs => validateAll_ok_iff hvalid jobs s⟩
  rw [Tree.validate_eq]
  exact exists_inspected (fun _ _ _ => ⟨[.left (.event _)], rfl, rfl⟩) _ s

end Job

/-! ## A village -/

namespace Rehearsal

/-- Whether an actor is valid is written in its script. -/
theorem valid_company (a : Actor) (s : Environment.Solo Theatre) :
    Valid stage.alone company s a ↔ a.invalid = none := by
  show ((Actor.orFailure a.invalid ()).run stage.alone.answer _).1 = .ok () ↔ _
  cases a.invalid with
  | none => exact iff_of_true rfl rfl
  | some f => exact iff_of_false (fun h => nomatch h) (fun h => nomatch h)

/-- An inn with a cellar, and a forge with a cracked anvil. -/
def village : List (Job Actor) :=
  [⟨"inn", .node "inn" (some (.plain "inn" 0)) [.node "cellar" (some (.plain "cellar" 1)) []]⟩,
    ⟨"forge", .node "forge" none
      [.node "anvil" (some { Actor.plain "anvil" 2 with invalid := some (.of "it is cracked") }) [],
        .node "bellows" (some (.plain "bellows" 3)) []]⟩]

/-- The inn is all right, but the village is not: the pass over it stops somewhere, and has
validated the resources up to there. -/
theorem validateAll_inspects_of_village :
    ((Job.validateAll company (village.take 1)).run stage.alone curtain).1 = .ok () ∧
    ∃ f steps s' before x r after cause,
      (Job.validateAll company village).run stage.alone curtain = (.error f, steps, s') ∧
      Job.holdings village = before ++ (x, r) :: after ∧
      f = .unit x.1.name (.validation x.2 cause) ∧
      Course.calls steps = (before ++ [(x, r)]).map fun x => (.validate, x.2) := by
  obtain ⟨-, hjobs, hplain⟩ := Job.validateAll_inspects company stage.alone curtain
  constructor
  · refine (hplain _ valid_company _).mpr ?_
    simp [village, Actor.plain]
  · obtain ⟨result, steps, s', hrun, hinspected⟩ := hjobs village
    cases result with
    | ok _ =>
        have hvalid := (hplain _ valid_company village).mp (by rw [hrun])
        simp [village, Actor.plain] at hvalid
    | error f =>
        obtain ⟨before, x, r, after, cause, hlist, -, -, hf, hcalls⟩ := hinspected.first f rfl
        exact ⟨f, steps, s', before, x, r, after, cause, hrun, hlist, hf, hcalls⟩

end Rehearsal

end Converge
