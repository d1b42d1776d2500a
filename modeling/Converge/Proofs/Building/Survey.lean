import Converge.Proofs.Addresses

/-! # How far building gets

Building asks the hooks of the nodes in pre-order, and looks for a cancellation at each node before
that.  It comes to the end of this list, or to the first entry that stands in its way; what it has
asked by then is what the list has up to there.
-/

namespace Converge

open Course (World Step)

variable {H R σ : Type}

/-- The question that was put in a step. -/
def Course.Step.question? {Q : Type} {A : Q → Type} : Step Q A R → Option Q
  | left _ => none
  | answered q _ => some q

/-- The questions that were put in the course of some steps, in this order. -/
def Course.questions {Q : Type} {A : Q → Type} (steps : List (Step Q A R)) : List Q :=
  steps.filterMap Step.question?

namespace Blueprint

/-! ## The agenda -/

mutual

/-- The nodes of a blueprint that hangs below `above`, in pre-order: their addresses and hooks. -/
def rowsAt (above : Address) : Blueprint H R → List (Address × H)
  | node name hooks _ bs => (above.child name, hooks) :: rowsAll (above.child name) bs

def rowsAll (above : Address) : List (Blueprint H R) → List (Address × H)
  | [] => []
  | b :: bs => b.rowsAt above ++ rowsAll above bs

end

/-- Each node is checked, and then its children are determined. -/
def hooksOf (rows : List (Address × H)) : List (Address × Hook H) :=
  rows.flatMap fun x => [(x.1, .validate x.2), (x.1, .children x.2)]

/-- The nodes of a whole blueprint, in pre-order. -/
def rows (b : Blueprint H R) : List (Address × H) := b.rowsAt .top

/-- The hooks of a whole blueprint, in the order in which they are to be asked. -/
def agenda (b : Blueprint H R) : List (Address × Hook H) := hooksOf b.rows

@[simp] theorem rowsAt_node (above : Address) (name : String) (hooks : H) (r : Option R)
    (bs : List (Blueprint H R)) :
    (node name hooks r bs).rowsAt above =
      (above.child name, hooks) :: rowsAll (above.child name) bs := by rw [rowsAt]
@[simp] theorem rowsAll_nil (above : Address) :
    rowsAll above ([] : List (Blueprint H R)) = [] := by rw [rowsAll]
@[simp] theorem rowsAll_cons (above : Address) (b : Blueprint H R) (bs : List (Blueprint H R)) :
    rowsAll above (b :: bs) = b.rowsAt above ++ rowsAll above bs := by rw [rowsAll]
@[simp] theorem hooksOf_cons (here : Address) (hooks : H) (rows : List (Address × H)) :
    hooksOf ((here, hooks) :: rows) =
      (here, .validate hooks) :: (here, .children hooks) :: hooksOf rows := rfl
@[simp] theorem hooksOf_append (xs ys : List (Address × H)) :
    hooksOf (xs ++ ys) = hooksOf xs ++ hooksOf ys := List.flatMap_append

example :
    let leaf (h : Nat) : Blueprint Nat Unit := node "leaf" h none []
    (node "top" 0 none [node "inner" 1 none [leaf 2], leaf 3]).agenda.map Prod.snd =
      [.validate 0, .children 0, .validate 1, .children 1, .validate 2, .children 2,
        .validate 3, .children 3] := rfl

mutual

/-- The tree of a blueprint has as many nodes. -/
theorem length_rowsAt : ∀ (b : Blueprint H R) (above : Address),
    (b.rowsAt above).length = b.tree.size
  | node name hooks r bs, above => by
      rw [rowsAt_node, List.length_cons, length_rowsAll bs, tree, Tree.size_node, Nat.add_comm]

theorem length_rowsAll : ∀ (bs : List (Blueprint H R)) (above : Address),
    (rowsAll above bs).length = Tree.sizeAll (trees bs)
  | [], above => by rw [rowsAll_nil, trees, Tree.sizeAll_nil]; rfl
  | b :: bs, above => by
      rw [rowsAll_cons, List.length_append, length_rowsAt b, length_rowsAll bs, trees,
        Tree.sizeAll_cons]

end

/-! ## Going through a list of hooks -/

section

variable (w : World (Hook H) Hook.Answer σ)

/-- The hook does not stand in the way in this state of the world: it succeeds, and the node has
not been cancelled when it is entered, which is right before it is checked. -/
def Passes (s : σ) : Hook H → Prop
  | .validate h => w.cancelled s = false ∧ (w.answer (.validate h) s).1 = .ok ()
  | .children h => (w.answer (.children h) s).1 = .ok ()

/-- The hook, of the node `here`, stands in the way, and the fault says why; by then it has been
asked itself, or not even that, and the world is left in this state. -/
inductive Hinders (s : σ) (here : Address) : Hook H → Fault → List (Hook H) → σ → Prop
  | cancelled {h} (hs : w.cancelled s = true) :
      Hinders s here (.validate h) (.cancelled here) [] s
  | invalid {h cause s'} (hs : w.cancelled s = false)
      (hh : w.answer (.validate h) s = (.error cause, s')) :
      Hinders s here (.validate h) (.validation here cause) [.validate h] s'
  | unresolved {h cause s'} (hh : w.answer (.children h) s = (.error cause, s')) :
      Hinders s here (.children h) (.children here cause) [.children h] s'

/-- The hooks of a list are asked, one after another, up to the first that stands in the way. -/
inductive Surveys : σ → List (Address × Hook H) → Except Fault Unit → List (Hook H) → σ → Prop
  | done {s} : Surveys s [] (.ok ()) [] s
  | passes {s s' here q xs result asked} (hq : Passes w s q)
      (h : Surveys (w.answer q s).2 xs result asked s') :
      Surveys s ((here, q) :: xs) result (q :: asked) s'
  | hinders {s s' here q xs f asked} (hq : Hinders w s here q f asked s') :
      Surveys s ((here, q) :: xs) (.error f) asked s'

/-- The state of the world after some hooks have been asked, one after another. -/
def stateAfter (s : σ) (xs : List (Address × Hook H)) : σ :=
  xs.foldl (fun s x => (w.answer x.2 s).2) s

/-- No hook of the list stands in the way, in the state that those before it lead to. -/
def Clear (s : σ) (xs : List (Address × Hook H)) : Prop :=
  ∀ before here q after, xs = before ++ (here, q) :: after → Passes w (stateAfter w s before) q

end

variable {w : World (Hook H) Hook.Answer σ} {s t s' : σ} {here : Address} {q : Hook H}
  {xs ys : List (Address × Hook H)} {result : Except Fault Unit} {f : Fault}
  {asked further : List (Hook H)}

theorem Hinders.not_passes (h : Hinders w s here q f asked s') : ¬ Passes w s q := by
  intro hq
  cases h with
  | cancelled hs => cases hs.symm.trans hq.1
  | invalid hs hh =>
      have hok := hq.2
      rw [hh] at hok
      cases hok
  | unresolved hh =>
      have hok : (w.answer (.children _) s).1 = .ok () := hq
      rw [hh] at hok
      cases hok

theorem Hinders.asked_prefix (h : Hinders w s here q f asked s') (qs : List (Hook H)) :
    asked <+: q :: qs := by
  cases h with
  | cancelled => exact List.nil_prefix
  | invalid | unresolved => exact ⟨qs, rfl⟩

theorem clear_nil : Clear w s [] := by
  intro before here q after h
  simp at h

theorem clear_cons :
    Clear w s ((here, q) :: xs) ↔ Passes w s q ∧ Clear w (w.answer q s).2 xs := by
  constructor
  · intro h
    refine ⟨h [] here q xs rfl, fun before here' q' after hxs => ?_⟩
    exact h ((here, q) :: before) here' q' after (by rw [hxs]; rfl)
  · rintro ⟨hq, h⟩ before here' q' after hxs
    cases before with
    | nil =>
        obtain ⟨heq, -⟩ := List.cons.inj hxs
        cases heq
        exact hq
    | cons x before =>
        obtain ⟨rfl, htail⟩ := List.cons.inj hxs
        exact h before here' q' after htail

namespace Surveys

theorem append (h : Surveys w s xs (.ok ()) asked t) (h' : Surveys w t ys result further s') :
    Surveys w s (xs ++ ys) result (asked ++ further) s' := by
  generalize hr : (.ok () : Except Fault Unit) = r at h
  induction h with
  | done => exact h'
  | passes hq _ ih => exact .passes hq (ih h' hr)
  | hinders => cases hr

theorem append_error (h : Surveys w s xs (.error f) asked s') (ys : List (Address × Hook H)) :
    Surveys w s (xs ++ ys) (.error f) asked s' := by
  generalize hr : (.error f : Except Fault Unit) = r at h
  induction h with
  | done => cases hr
  | passes hq _ ih => exact .passes hq (ih hr)
  | hinders hq => exact .hinders hq

/-- Nothing stands in the way just if the end is reached. -/
theorem clear_iff (h : Surveys w s xs result asked s') : Clear w s xs ↔ result = .ok () := by
  induction h with
  | done => exact iff_of_true clear_nil rfl
  | passes hq _ ih => rw [clear_cons, and_iff_right hq, ih]
  | hinders hq =>
      refine iff_of_false (fun hclear => ?_) (fun h => nomatch h)
      exact hq.not_passes (clear_cons.mp hclear).1

theorem asked_prefix (h : Surveys w s xs result asked s') : asked <+: xs.map Prod.snd := by
  induction h with
  | done => exact List.nil_prefix
  | passes _ _ ih => exact List.cons_prefix_cons.mpr ⟨rfl, ih⟩
  | hinders hq => exact hq.asked_prefix _

/-- At the end all hooks have been asked. -/
theorem asked_eq (h : Surveys w s xs (.ok ()) asked s') : asked = xs.map Prod.snd := by
  generalize hr : (.ok () : Except Fault Unit) = r at h
  induction h with
  | done => rfl
  | passes _ _ ih => rw [ih hr, List.map_cons]
  | hinders => cases hr

/-- Otherwise there is a first hook that stands in the way, and none is asked after it. -/
theorem exists_hinders (h : Surveys w s xs (.error f) asked s') :
    ∃ before here q after last, xs = before ++ (here, q) :: after ∧ Clear w s before ∧
      Hinders w (stateAfter w s before) here q f last s' ∧
      asked = before.map Prod.snd ++ last := by
  generalize hr : (.error f : Except Fault Unit) = r at h
  induction h with
  | done => cases hr
  | @passes s s' here q xs _ _ hq _ ih =>
      obtain ⟨before, here', q', after, last, rfl, hclear, hhinders, rfl⟩ := ih hr
      exact ⟨(here, q) :: before, here', q', after, last, rfl, clear_cons.mpr ⟨hq, hclear⟩,
        hhinders, rfl⟩
  | @hinders s s' here q xs _ asked hq =>
      cases hr
      exact ⟨[], here, q, xs, asked, rfl, clear_nil, hq, rfl⟩

end Surveys

end Blueprint

namespace Course

variable {Q : Type} {A : Q → Type} {α β ε : Type} {w : World Q A σ} {s t s' : σ}

theorem run_andThen_ok {c : Course Q A R (Except ε α)} {f : α → Course Q A R (Except ε β)} {a : α}
    {b : Except ε β} {steps further : List (Step Q A R)} (h : c.run w s = (.ok a, steps, t))
    (hf : (f a).run w t = (b, further, s')) :
    (c.andThen f).run w s = (b, steps ++ further, s') := by
  simp only [andThen, run_bind, h, hf]

theorem run_andThen_error {c : Course Q A R (Except ε α)} {e : ε} {steps : List (Step Q A R)}
    (h : c.run w s = (.error e, steps, s')) (f : α → Course Q A R (Except ε β)) :
    (c.andThen f).run w s = (.error e, steps, s') := by
  simp [andThen, run_bind, h, run]

end Course

namespace Blueprint

/-! ## Building goes through the agenda -/

variable {w : World (Hook H) Hook.Answer σ} {s s' : σ}

/-- Followed from state `s`, the course asks these hooks, and makes no call on a resource. -/
def Asks {α : Type} (w : World (Hook H) Hook.Answer σ) (c : Building H R α) (s : σ)
    (result : Except Fault α) (asked : List (Hook H)) (s' : σ) : Prop :=
  ∃ steps, c.run w s = (result, steps, s') ∧ Course.questions steps = asked ∧
    ∀ x ∈ steps, x.mark? = none

namespace Asks

variable {α β : Type} {c : Building H R α} {k : α → Building H R β} {t : σ}
  {asked further : List (Hook H)}

theorem andThen {a : α} {b : Except Fault β} (h : Asks w c s (.ok a) asked t)
    (hk : Asks w (k a) t b further s') : Asks w (c.andThen k) s b (asked ++ further) s' := by
  obtain ⟨steps, hrun, rfl, hsteps⟩ := h
  obtain ⟨more, hrun', rfl, hmore⟩ := hk
  refine ⟨steps ++ more, Course.run_andThen_ok hrun hrun', List.filterMap_append, ?_⟩
  exact List.forall_mem_append.mpr ⟨hsteps, hmore⟩

theorem andThen_error {f : Fault} (h : Asks w c s (.error f) asked s')
    (k : α → Building H R β) : Asks w (c.andThen k) s (.error f) asked s' := by
  obtain ⟨steps, hrun, hasked, hsteps⟩ := h
  exact ⟨steps, Course.run_andThen_error hrun k, hasked, hsteps⟩

theorem done (a : Except Fault α) : Asks w (.done a : Building H R α) s a [] s :=
  ⟨[], rfl, rfl, fun _ hx => nomatch hx⟩

theorem map {a : Except Fault α} (g : α → β) (h : Asks w c s a asked s') :
    Asks w (c.andThen fun x => (.done (.ok (g x)) : Building H R β)) s (a.map g) asked s' := by
  cases a with
  | error f => exact h.andThen_error _
  | ok a =>
      have hend : Asks w (.done (.ok (g a)) : Building H R β) s' (.ok (g a)) [] s' := .done _
      simpa [Except.map] using h.andThen (k := fun x => .done (.ok (g x))) hend

theorem look {next : Bool → Building H R α} {a : Except Fault α} (b : Bool) (hb : w.cancelled s = b)
    (h : Asks w (next b) s a asked s') : Asks w (.look next) s a asked s' := by
  subst hb
  exact h

theorem hook_ok {q : Hook H} (fault : Failure → Fault) (h : w.answer q s = (.ok (), s')) :
    Asks w (hook q fault : Building H R Unit) s (.ok ()) [q] s' := by
  refine ⟨[.answered q (.ok ())], ?_, rfl, by simp [Step.mark?]⟩
  simp [hook, Course.run, h]

theorem hook_error {q : Hook H} {cause : Failure} (fault : Failure → Fault)
    (h : w.answer q s = (.error cause, s')) :
    Asks w (hook q fault : Building H R Unit) s (.error (fault cause)) [q] s' := by
  refine ⟨[.answered q (.error cause)], ?_, rfl, by simp [Step.mark?]⟩
  simp [hook, Course.run, h]

end Asks

mutual

/-- Building a tree surveys the hooks of its nodes, and the tree is the one that is declared. -/
theorem exists_surveys_buildAt : ∀ (b : Blueprint H R) (above : Address) (s : σ),
    ∃ result asked s', Asks w (b.buildAt above) s (result.map fun () => b.tree) asked s' ∧
      Surveys w s (hooksOf (b.rowsAt above)) result asked s'
  | node name hooks r bs, above, s => by
      rw [buildAt, rowsAt_node, hooksOf_cons]
      cases hs : w.cancelled s with
      | true => exact ⟨.error _, [], s, .look true hs (.done _), .hinders (.cancelled hs)⟩
      | false =>
      obtain ⟨⟨answer, t⟩, hvalidate⟩ : ∃ x, w.answer (.validate hooks) s = x := ⟨_, rfl⟩
      cases answer with
      | error cause =>
          exact ⟨.error _, _, t, .look false hs ((Asks.hook_error _ hvalidate).andThen_error _),
            .hinders (.invalid hs hvalidate)⟩
      | ok _ =>
      have hentered : Passes w s (.validate hooks) := ⟨hs, by rw [hvalidate]⟩
      have hchecked := Asks.hook_ok (R := R) (.validation (above.child name)) hvalidate
      obtain ⟨⟨answer, u⟩, hchildren⟩ : ∃ x, w.answer (.children hooks) t = x := ⟨_, rfl⟩
      cases answer with
      | error cause =>
          have hfailed := Asks.hook_error (R := R) (.children (above.child name)) hchildren
          refine ⟨.error (.children (above.child name) cause), [.validate hooks, .children hooks],
            u, .look false hs (hchecked.andThen (hfailed.andThen_error _)), .passes hentered ?_⟩
          rw [hvalidate]
          exact .hinders (.unresolved hchildren)
      | ok _ =>
      have hresolved : Passes w t (.children hooks) := by rw [Passes, hchildren]
      have hmet := Asks.hook_ok (R := R) (.children (above.child name)) hchildren
      obtain ⟨result, asked, s', hasks, hsurveys⟩ := exists_surveys_buildAll bs (above.child name) u
      refine ⟨result, .validate hooks :: .children hooks :: asked, s', .look false hs ?_,
        .passes hentered ?_⟩
      · have hbuilt := hasks.map (Tree.node name r)
        have htree : (result.map fun () => trees bs).map (Tree.node name r) =
            result.map fun () => (node name hooks r bs).tree := by
          rw [tree]
          cases result <;> rfl
        rw [htree] at hbuilt
        exact hchecked.andThen (hmet.andThen hbuilt)
      · rw [hvalidate]
        refine .passes hresolved ?_
        rwa [hchildren]

theorem exists_surveys_buildAll : ∀ (bs : List (Blueprint H R)) (above : Address) (s : σ),
    ∃ result asked s', Asks w (buildAll above bs) s (result.map fun () => trees bs) asked s' ∧
      Surveys w s (hooksOf (rowsAll above bs)) result asked s'
  | [], above, s => by
      rw [buildAll, rowsAll_nil, trees]
      exact ⟨.ok (), [], s, .done _, .done⟩
  | b :: bs, above, s => by
      rw [buildAll, rowsAll_cons, hooksOf_append, trees]
      obtain ⟨result, asked, t, hasks, hsurveys⟩ := exists_surveys_buildAt b above s
      cases result with
      | error f =>
          exact ⟨.error f, asked, t, hasks.andThen_error _, hsurveys.append_error _⟩
      | ok _ =>
          obtain ⟨others, further, s', hasks', hsurveys'⟩ := exists_surveys_buildAll bs above t
          refine ⟨others, asked ++ further, s', hasks.andThen ?_, hsurveys.append hsurveys'⟩
          have hall := hasks'.map (b.tree :: ·)
          cases others <;> exact hall

end

/-- Only a tree that has been built is written down, and nothing else is. -/
theorem exists_surveys_build (w : World (Hook H) Hook.Answer σ) (b : Blueprint H R) (s : σ) :
    ∃ result asked steps s', b.build.run w s = (result.map fun () => b.tree, steps, s') ∧
      Surveys w s b.agenda result asked s' ∧ Course.questions steps = asked ∧
      ∀ m, .left m ∈ steps → result = .ok () ∧ m = .event (.treeBuilt b.tree.name b.tree.size) := by
  obtain ⟨result, asked, s', ⟨steps, hrun, hasked, hsteps⟩, hsurveys⟩ :=
    exists_surveys_buildAt (w := w) b .top s
  have hleft : ∀ m, .left m ∉ steps := fun m hm => nomatch hsteps _ hm
  cases result with
  | error f =>
      exact ⟨.error f, asked, steps, s', Course.run_andThen_error hrun _, hsurveys, hasked,
        fun m hm => absurd hm (hleft m)⟩
  | ok _ =>
      have hbuild : b.build.run w s =
          (.ok b.tree, steps ++ [.left (.event (.treeBuilt b.tree.name b.tree.size))], s') :=
        Course.run_andThen_ok hrun rfl
      refine ⟨.ok (), asked, _, s', hbuild, hsurveys, ?_, fun m hm => ⟨rfl, ?_⟩⟩
      · rw [← hasked, Course.questions, List.filterMap_append]
        exact List.append_nil _
      · rcases List.mem_append.mp hm with hm | hm
        · exact absurd hm (hleft m)
        · cases List.mem_singleton.mp hm
          rfl

/-! ## What is built, and what is asked -/

theorem resource_tree (b : Blueprint H R) : b.tree.resource = b.resource := by
  cases b
  rw [tree]
  rfl

theorem length_trees (bs : List (Blueprint H R)) : (trees bs).length = bs.length := by
  induction bs with
  | nil => rw [trees]; rfl
  | cons b bs ih => rw [trees, List.length_cons, ih, List.length_cons]

theorem length_children_tree (b : Blueprint H R) :
    b.tree.children.length = b.children.length := by
  obtain ⟨name, hooks, r, bs⟩ := b
  rw [tree]
  exact length_trees bs

/-- The tree has at each place what is declared there. -/
theorem described_tree (b : Blueprint H R) (p : Place) :
    (b.tree.at? p).map (fun u => (u.name, u.resource, u.children.length)) =
      (b.at? p).map fun c => (c.name, c.resource, c.children.length) := by
  rw [at?_tree, Option.map_map]
  congr
  funext c
  simp only [Function.comp_apply, name_tree, resource_tree, length_children_tree]

/-- How building ends, whatever the hooks do:

* it succeeds if and only if no hook of the agenda stands in the way;
* then all of them have been asked, and the tree has at each place the name, the resource and the
  number of children that are declared there;
* if it fails, the first hook that stands in the way says with which fault, and what has been asked
  is what the agenda has before it, and that hook itself unless its node has been cancelled;
* so at all events the beginning of the agenda has been asked;
* no call on a resource is made, and a tree is written down only if it is built. -/
theorem build_surveys (w : World (Hook H) Hook.Answer σ) (b : Blueprint H R) (s : σ) :
    ∃ result steps s', b.build.run w s = (result, steps, s') ∧
      ((∃ t, result = .ok t) ↔ Clear w s b.agenda) ∧
      (∀ t, result = .ok t →
        (∀ p, (t.at? p).map (fun u => (u.name, u.resource, u.children.length)) =
          (b.at? p).map fun c => (c.name, c.resource, c.children.length)) ∧
        t.size = b.rows.length ∧
        Course.questions steps = b.agenda.map Prod.snd) ∧
      (∀ f, result = .error f →
        ∃ before here q after last, b.agenda = before ++ (here, q) :: after ∧ Clear w s before ∧
          Hinders w (stateAfter w s before) here q f last s' ∧
          Course.questions steps = before.map Prod.snd ++ last) ∧
      Course.questions steps <+: b.agenda.map Prod.snd ∧
      (∀ call r, .left (.began call r) ∉ steps ∧ .left (.ended call r) ∉ steps) ∧
      ∀ m, .left m ∈ steps → ∃ t, result = .ok t ∧ m = .event (.treeBuilt t.name t.size) := by
  obtain ⟨verdict, asked, steps, s', hrun, hsurveys, rfl, hmarks⟩ := exists_surveys_build w b s
  refine ⟨_, steps, s', hrun, ?success, ?built, ?failure, hsurveys.asked_prefix, ?calls, ?notes⟩
  case success =>
    rw [hsurveys.clear_iff]
    cases verdict with
    | ok _ => exact iff_of_true ⟨b.tree, rfl⟩ rfl
    | error f => exact iff_of_false (fun ⟨_, h⟩ => by cases h) (fun h => by cases h)
  case built =>
    intro t ht
    cases verdict with
    | ok _ =>
        cases ht
        exact ⟨b.described_tree, (length_rowsAt b .top).symm, hsurveys.asked_eq⟩
    | error f => cases ht
  case failure =>
    intro f hf
    cases verdict with
    | ok _ => cases hf
    | error g =>
        cases hf
        exact hsurveys.exists_hinders
  case calls =>
    intro call r
    constructor
    · intro hm
      cases (hmarks _ hm).2
    · intro hm
      cases (hmarks _ hm).2
  case notes =>
    intro m hm
    obtain ⟨rfl, rfl⟩ := hmarks m hm
    exact ⟨b.tree, rfl, rfl⟩

end Blueprint

end Converge
