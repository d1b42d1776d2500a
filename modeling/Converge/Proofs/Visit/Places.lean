import Converge.Tree.Converge

/-! # Places in a tree

Several nodes of a tree may hold the same resource, and have the same name too, so neither tells
them apart.  A place does: it says which child to go to, from the root on.  Here every resource
of a tree is labelled with the place of its node, and a walk is shown to be blind to labels: over
the labelled tree it does what it does over the tree itself.
-/

namespace Converge

open Course (World Step)

variable {Q : Type} {A : Q → Type} {R S σ α β ε : Type}

/-- Where a node is in its tree: the children to go to, from the root on, each by its number. -/
abbrev Place := List Nat

namespace Tree

/-- What is found at a place. -/
def at? : Place → Tree R → Option (Tree R)
  | [], t => some t
  | i :: p, t => t.children[i]?.bind (at? p)

mutual

/-- Changes the resources. -/
def map (f : R → S) : Tree R → Tree S
  | node name resource children => node name (resource.map f) (mapAll f children)

def mapAll (f : R → S) : List (Tree R) → List (Tree S)
  | [] => []
  | t :: rest => t.map f :: mapAll f rest

end

mutual

/-- Labels the resources of a tree that is found at place `p`. -/
def placedAt (p : Place) : Tree R → Tree (Place × R)
  | node name resource children => node name (resource.map (p, ·)) (placedAll p 0 children)

/-- Labels the resources of children of the node at place `p`, the first of which has number `i`. -/
def placedAll (p : Place) (i : Nat) : List (Tree R) → List (Tree (Place × R))
  | [] => []
  | t :: rest => t.placedAt (p ++ [i]) :: placedAll p (i + 1) rest

end

/-- Labels every resource with the place of its node. -/
def placed (t : Tree R) : Tree (Place × R) := t.placedAt []

@[simp] theorem at?_nil (t : Tree R) : t.at? [] = some t := by rw [at?]
@[simp] theorem at?_cons (i : Nat) (p : Place) (t : Tree R) :
    t.at? (i :: p) = t.children[i]?.bind (at? p) := by rw [at?]

theorem at?_append (p q : Place) (t : Tree R) : t.at? (p ++ q) = (t.at? p).bind (at? q) := by
  induction p generalizing t with
  | nil => rw [List.nil_append, at?_nil, Option.bind_some]
  | cons i p ih =>
      rw [List.cons_append, at?_cons, at?_cons, Option.bind_assoc]
      congr 1
      funext u
      exact ih u

/-- A place that there is can be gone to step by step. -/
theorem isSome_at?_take {t : Tree R} {p : Place} (h : (t.at? p).isSome = true) (k : Nat) :
    (t.at? (p.take k)).isSome = true := by
  rw [← List.take_append_drop k p, at?_append] at h
  exact Option.isSome_of_isSome_bind h

theorem at?_child {t : Tree R} {p : Place} {name : String} {r : Option R} {ts : List (Tree R)}
    (h : t.at? p = some (node name r ts)) (j : Nat) : t.at? (p ++ [j]) = ts[j]? := by
  have hself : (at? [] : Tree R → Option (Tree R)) = some := funext at?_nil
  rw [at?_append, h, Option.bind_some, at?_cons, hself, Option.bind_fun_some, children]

@[simp] theorem mapAll_nil (f : R → S) : mapAll f [] = [] := by rw [mapAll]
@[simp] theorem mapAll_cons (f : R → S) (t : Tree R) (ts : List (Tree R)) :
    mapAll f (t :: ts) = t.map f :: mapAll f ts := by rw [mapAll]
@[simp] theorem map_node (f : R → S) (name : String) (r : Option R) (ts : List (Tree R)) :
    (node name r ts).map f = node name (r.map f) (mapAll f ts) := by rw [map]
@[simp] theorem placedAll_nil (p : Place) (i : Nat) :
    placedAll p i ([] : List (Tree R)) = [] := by rw [placedAll]
@[simp] theorem placedAll_cons (p : Place) (i : Nat) (t : Tree R) (ts : List (Tree R)) :
    placedAll p i (t :: ts) = t.placedAt (p ++ [i]) :: placedAll p (i + 1) ts := by rw [placedAll]
@[simp] theorem placedAt_node (p : Place) (name : String) (r : Option R) (ts : List (Tree R)) :
    (node name r ts).placedAt p = node name (r.map (p, ·)) (placedAll p 0 ts) := by rw [placedAt]

theorem length_mapAll (f : R → S) (ts : List (Tree R)) : (mapAll f ts).length = ts.length := by
  induction ts with
  | nil => rw [mapAll_nil]; rfl
  | cons t ts ih => rw [mapAll_cons, List.length_cons, List.length_cons, ih]

mutual

/-- The labels can be taken off again. -/
theorem map_snd_placedAt : ∀ (t : Tree R) (p : Place), (t.placedAt p).map Prod.snd = t
  | node name r ts, p => by
      rw [placedAt_node, map_node, mapAll_snd_placedAll ts p 0]
      cases r <;> rfl

theorem mapAll_snd_placedAll : ∀ (ts : List (Tree R)) (p : Place) (i : Nat),
    mapAll Prod.snd (placedAll p i ts) = ts
  | [], p, i => by rw [placedAll_nil, mapAll_nil]
  | t :: ts, p, i => by
      rw [placedAll_cons, mapAll_cons, map_snd_placedAt t, mapAll_snd_placedAll ts]

end

theorem map_snd_placed (t : Tree R) : t.placed.map Prod.snd = t := map_snd_placedAt t []

theorem getElem?_placedAll (p : Place) (ts : List (Tree R)) (i j : Nat) :
    (placedAll p i ts)[j]? = ts[j]?.map (placedAt (p ++ [i + j])) := by
  induction ts generalizing i j with
  | nil => rw [placedAll_nil]; rfl
  | cons t ts ih =>
      rw [placedAll_cons]
      cases j with
      | zero => rfl
      | succ j =>
          rw [List.getElem?_cons_succ, List.getElem?_cons_succ, ih, Nat.add_right_comm,
            Nat.add_assoc]

/-- `u` is a node of `t`, with all that is beneath it. -/
inductive Within (u : Tree R) : Tree R → Prop
  | here : Within u u
  | beneath {name : String} {r : Option R} {ts : List (Tree R)} {t : Tree R} (ht : t ∈ ts)
      (hu : Within u t) : Within u (node name r ts)

theorem mem_resourcesAll {r : R} {ts : List (Tree R)} :
    r ∈ resourcesAll ts ↔ ∃ t ∈ ts, r ∈ t.resources := by
  induction ts with
  | nil => simp
  | cons t ts ih => simp [ih]

theorem mem_resources_of_mem_children {name : String} {r : Option R} {r' : R} {t : Tree R}
    {ts : List (Tree R)} (ht : t ∈ ts) (hr' : r' ∈ t.resources) :
    r' ∈ (node name r ts).resources := by
  rw [resources_node, List.mem_append, mem_resourcesAll]
  exact .inr ⟨t, ht, hr'⟩

/-- What a node within the tree holds is a resource of the tree. -/
theorem Within.mem_resources {name : String} {r : R} {ts : List (Tree R)} {t : Tree R}
    (h : (node name (some r) ts).Within t) : r ∈ t.resources := by
  induction h with
  | here => simp
  | beneath ht _ ih => exact mem_resources_of_mem_children ht ih

/-- What is within a labelled tree is what is found at some place, with its labels. -/
theorem Within.exists_at? {u : Tree (Place × R)} {t' : Tree (Place × R)} (h : u.Within t') :
    ∀ (t : Tree R) (p : Place), t' = t.placedAt p →
      ∃ q v, t.at? q = some v ∧ u = v.placedAt (p ++ q) := by
  induction h with
  | here =>
      intro t p ht
      exact ⟨[], t, t.at?_nil, by rw [ht, List.append_nil]⟩
  | @beneath name r ts c hc _ ih =>
      rintro ⟨name', r', ts'⟩ p ht
      rw [placedAt_node, node.injEq] at ht
      obtain ⟨j, hj⟩ := List.mem_iff_getElem?.mp hc
      rw [ht.2.2, getElem?_placedAll, Option.map_eq_some_iff] at hj
      obtain ⟨c', hc', rfl⟩ := hj
      obtain ⟨q, v, hv, rfl⟩ := ih c' _ rfl
      refine ⟨j :: q, v, ?_, ?_⟩
      · rw [at?_cons, children, hc']
        exact hv
      · rw [List.append_assoc, List.singleton_append, Nat.zero_add]

end Tree

/-! ## Walks do not see labels -/

/-- Works on what `f` makes of a resource. -/
def Provider.comap (f : S → R) (P : Provider Q A R) : Provider Q A S where
  kind s := P.kind (f s)
  validate s := P.validate (f s)
  satisfied s := P.satisfied (f s)
  apply s := P.apply (f s)

/-- Changes the resource that a mark is about. -/
def Mark.map (f : R → S) : Mark R → Mark S
  | event e => event e
  | began c r => began c (f r)
  | ended c r => ended c (f r)

/-- Changes the resource that a step is about. -/
def Course.Step.map (f : R → S) : Step Q A R → Step Q A S
  | left m => left (m.map f)
  | answered q a => answered q a

namespace Course

/-- Changes the resources that the marks of a course are about. -/
def mapMarks (f : R → S) : Course Q A R α → Course Q A S α
  | done a => done a
  | ask q next => ask q fun a => (next a).mapMarks f
  | look next => look fun b => (next b).mapMarks f
  | leave m next => leave (m.map f) (next.mapMarks f)

theorem run_mapMarks (f : R → S) (w : World Q A σ) (c : Course Q A R α) (s : σ) :
    (c.mapMarks f).run w s =
      ((c.run w s).1, (c.run w s).2.1.map (Step.map f), (c.run w s).2.2) := by
  induction c generalizing s with
  | done a => rfl
  | ask q next ih => simp only [mapMarks, run, ih, List.map_cons, Step.map]
  | look next ih => exact ih _ s
  | leave m next ih => simp only [mapMarks, run, ih, List.map_cons, Step.map]

theorem mapMarks_bind (f : R → S) (c : Course Q A R α) (k : α → Course Q A R β) :
    (c.bind k).mapMarks f = (c.mapMarks f).bind fun a => (k a).mapMarks f := by
  induction c with
  | done a => rfl
  | ask q next ih => simp only [ask_bind, mapMarks, ih]
  | look next ih => simp only [look_bind, mapMarks, ih]
  | leave m next ih => simp only [leave_bind, mapMarks, ih]

theorem mapMarks_andThen (f : R → S) (c : Course Q A R (Except ε α))
    (k : α → Course Q A R (Except ε β)) :
    (c.andThen k).mapMarks f = (c.mapMarks f).andThen fun a => (k a).mapMarks f := by
  rw [andThen, andThen, mapMarks_bind]
  congr 1
  funext r
  cases r <;> rfl

theorem mapMarks_ofPlan (f : R → S) (p : Plan Q A α) :
    (ofPlan p : Course Q A R α).mapMarks f = ofPlan p := by
  induction p with
  | done a => rfl
  | ask q next ih => simp only [ofPlan_ask, mapMarks, ih]

theorem mapMarks_call (f : R → S) (c : Call) (r : R) (p : Plan Q A α) :
    (call c r p).mapMarks f = call c (f r) p := by
  simp only [call, mapMarks, mapMarks_bind, mapMarks_ofPlan, Mark.map]

end Course

namespace Tree

variable (f : R → S) (P : Provider Q A S)

theorem mapMarks_isSatisfied (here : Address) (r : R) :
    (isSatisfied (P.comap f) here r).mapMarks f = isSatisfied P here (f r) := by
  rw [isSatisfied, Course.mapMarks_bind, Course.mapMarks_call, isSatisfied]
  congr 1
  funext answer
  cases answer <;> rfl

theorem mapMarks_applyResource (here : Address) (r : R) :
    (applyResource (P.comap f) here r).mapMarks f = applyResource P here (f r) := by
  rw [applyResource, Course.mapMarks, applyResource]
  congr 1
  funext cancelled
  cases cancelled with
  | true => rfl
  | false =>
      simp only [Bool.false_eq_true, if_false, Course.note, Course.mapMarks, Mark.map,
        Course.mapMarks_bind, Course.mapMarks_call]
      congr 2
      funext answer
      cases answer <;> rfl

mutual

theorem mapMarks_convergeAt : ∀ (t : Tree R) (policy : Policy) (above : Address),
    (t.convergeAt (P.comap f) policy above).mapMarks f = (t.map f).convergeAt P policy above
  | node name none ts, policy, above => by
      rw [map_node, Option.map_none, convergeAt_bare, convergeAt_bare, Course.mapMarks]
      congr 1
      funext cancelled
      cases cancelled with
      | true => rfl
      | false =>
          simp only [Bool.false_eq_true, if_false]
          rw [Course.mapMarks_andThen, mapMarks_convergeAll ts policy]
          rfl
  | node name (some r) ts, policy, above => by
      rw [map_node, Option.map_some, convergeAt_resource, convergeAt_resource, Course.mapMarks]
      congr 1
      funext cancelled
      cases cancelled with
      | true => rfl
      | false =>
          simp only [Bool.false_eq_true, if_false]
          rw [Course.mapMarks_andThen, mapMarks_isSatisfied]
          congr 1
          funext satisfied
          cases satisfied with
          | true =>
              cases policy with
              | skipSubtree =>
                  simp only [if_true, skipped, length_mapAll]
                  rfl
              | selfOnly =>
                  simp only [if_true, Course.note, Course.mapMarks, skipped]
                  rw [Course.mapMarks_andThen, mapMarks_convergeAll ts .selfOnly]
                  rfl
          | false =>
              simp only [Bool.false_eq_true, if_false]
              rw [Course.mapMarks_andThen, mapMarks_convergeAll ts policy]
              congr 1
              funext below
              rw [Course.mapMarks_andThen, mapMarks_applyResource]
              rfl

theorem mapMarks_convergeAll : ∀ (ts : List (Tree R)) (policy : Policy) (above : Address),
    (convergeAll (P.comap f) policy above ts).mapMarks f = convergeAll P policy above (mapAll f ts)
  | [], policy, above => by
      rw [convergeAll_nil, mapAll_nil, convergeAll_nil]
      rfl
  | t :: ts, policy, above => by
      rw [convergeAll_cons, mapAll_cons, convergeAll_cons, Course.mapMarks_andThen,
        mapMarks_convergeAt t policy]
      congr 1
      funext first
      rw [Course.mapMarks_andThen, mapMarks_convergeAll ts policy]
      rfl

end

theorem mapMarks_converge (t : Tree R) (policy : Policy) :
    (t.converge (P.comap f) policy).mapMarks f = (t.map f).converge P policy := by
  have hname : (t.map f).name = t.name := by
    cases t
    rw [map_node]
    rfl
  rw [converge, converge, Course.note, Course.mapMarks, Course.mapMarks_bind,
    mapMarks_convergeAt, hname]
  congr 2
  funext r
  cases r with
  | ok tally => rfl
  | error e =>
      cases h : e.isCancellation <;>
        simp [concluded, h, Course.mapMarks, Course.note, Mark.map]

/-- A walk over the labelled tree ends as one over the tree itself, in the same state, and its
steps are the same but for the labels. -/
theorem run_converge_placed (P : Provider Q A R) (policy : Policy) (w : World Q A σ) (t : Tree R)
    (s : σ) :
    (t.converge P policy).run w s =
      let (result, steps, s') := (t.placed.converge (P.comap Prod.snd) policy).run w s
      (result, steps.map (Step.map Prod.snd), s') := by
  have h := mapMarks_converge Prod.snd P t.placed policy
  rw [map_snd_placed] at h
  rw [← h, Course.run_mapMarks]

end Tree

end Converge
