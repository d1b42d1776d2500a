import Mathlib.Algebra.BigOperators.Group.List.Basic
import Mathlib.Algebra.Ring.Nat
import Converge.Proofs.Visit.Policies

/-! # What a walk counts

A walk that succeeds counts the nodes that it enters, the resources that it brings to their state
and those that it finds in it.  Every node of the tree is accounted for: it was worked on, it was
found as declared, it has no resource, or it lies beneath a node that made the walk turn back.
-/

namespace Converge

open Course (World Step)

variable {Q : Type} {A : Q → Type} {R σ : Type}

namespace Returned

/-- The resource that a call finds as declared. -/
def found? : Returned R → Option R
  | satisfied r (.ok true) => some r
  | satisfied _ _ | apply _ _ => none

/-- What is found as declared in the course of some calls, in this order. -/
def found (cs : List (Returned R)) : List R := cs.filterMap found?

@[simp] theorem found_nil : found ([] : List (Returned R)) = [] := rfl
@[simp] theorem found_held (r : R) (cs : List (Returned R)) :
    found (.satisfied r (.ok true) :: cs) = r :: found cs := rfl
@[simp] theorem found_wanting (r : R) (cs : List (Returned R)) :
    found (.satisfied r (.ok false) :: cs) = found cs := rfl
@[simp] theorem found_apply (r : R) (answer : Except Failure Unit) (cs : List (Returned R)) :
    found (.apply r answer :: cs) = found cs := rfl
@[simp] theorem found_append (cs ds : List (Returned R)) :
    found (cs ++ ds) = found cs ++ found ds := List.filterMap_append

end Returned

open Returned

namespace Tree

variable {w : World Q A σ} {P : Provider Q A R} {policy : Policy}

mutual

/-- A visit that succeeds counts what was found as declared. -/
theorem Visit.satisfied_eq : ∀ {t : Tree R} {above : Address} {s s' : σ} {cs : List (Returned R)}
    {tally : Tally}, Visit w P policy above t s cs (.ok tally) s' →
    tally.satisfied = (found cs).length
  | node name none ts, above, s, s', cs, tally, h => by
      cases h with
      | bare hs hts hresult =>
          obtain ⟨below, rfl⟩ := exists_ok_of_map hresult
          cases hresult
          simp [Tally.enter, hts.satisfied_eq]
  | node name (some r) ts, above, s, s', cs, tally, h => by
      cases h with
      | rest hs hcall hpolicy => simp [Tally.enter, Tally.rest]
      | pass hs hcall hpolicy hts hresult =>
          obtain ⟨below, rfl⟩ := exists_ok_of_map hresult
          cases hresult
          simp [Tally.enter, Tally.rest, hts.satisfied_eq, Nat.add_comm]
      | worked hs hcall hts hu hcall' => simp [Tally.enter, Tally.work, hts.satisfied_eq]

theorem VisitAll.satisfied_eq : ∀ {ts : List (Tree R)} {above : Address} {s s' : σ}
    {cs : List (Returned R)} {tally : Tally},
    VisitAll w P policy above ts s cs (.ok tally) s' → tally.satisfied = (found cs).length
  | [], above, s, s', cs, tally, h => by
      cases h with
      | nil => rfl
  | t :: ts, above, s, s', cs, tally, h => by
      cases h with
      | cons ht hts hresult =>
          obtain ⟨others, rfl⟩ := exists_ok_of_map hresult
          cases hresult
          simp [ht.satisfied_eq, hts.satisfied_eq]

end

/-! ## Nodes that are entered -/

/-- Those places at which the tree has no resource. -/
def bare (t : Tree R) (ps : List Place) : List Place := ps.filter fun p => (t.resourceAt p).isNone

theorem bare_append (t : Tree R) (ps qs : List Place) :
    t.bare (ps ++ qs) = t.bare ps ++ t.bare qs :=
  List.filter_append ..

theorem bare_cons_none {t : Tree R} {p : Place} (h : t.resourceAt p = none) (ps : List Place) :
    t.bare (p :: ps) = p :: t.bare ps := by
  simp [bare, h]

theorem bare_cons_some {t : Tree R} {p : Place} {r : R} (h : t.resourceAt p = some r)
    (ps : List Place) : t.bare (p :: ps) = t.bare ps := by
  simp [bare, h]

section

variable (t : Tree R)

mutual

/-- A node that is entered is worked on, is found as declared, or has no resource. -/
theorem Visit.visited_split : ∀ {u : Tree R} {above : Address} {s s' : σ} {cs : List (Returned R)}
    {tally : Tally}, Visit w P policy above u s cs (.ok tally) s' → ∀ {p}, t.at? p = some u →
    tally.visited = tally.applied + tally.satisfied +
      (t.bare (enteredAt w P policy above p u s)).length
  | node name none ts, above, s, s', cs, tally, h, p, hat => by
      have hr : t.resourceAt p = none := by rw [resourceAt, hat]; rfl
      cases h with
      | bare hs hts hresult =>
          obtain ⟨below, rfl⟩ := exists_ok_of_map hresult
          cases hresult
          rw [enteredAt_bare _ _ _ _ hs, bare_cons_none hr]
          have hbelow := hts.visited_split fun j => by rw [Nat.zero_add, at?_child hat]
          simp only [Tally.enter, Tally.visited_add, Tally.applied_add, Tally.satisfied_add,
            List.length_cons]
          omega
  | node name (some r) ts, above, s, s', cs, tally, h, p, hat => by
      have hr : t.resourceAt p = some r := by rw [resourceAt, hat]; rfl
      cases h with
      | rest hs hcall hpolicy =>
          rw [enteredAt_rest _ _ _ _ hs (Course.plan_of_run_ofPlan hcall) hpolicy,
            bare_cons_some hr]
          rfl
      | pass hs hcall hpolicy hts hresult =>
          obtain ⟨below, rfl⟩ := exists_ok_of_map hresult
          cases hresult
          rw [enteredAt_pass _ _ _ _ hs (Course.plan_of_run_ofPlan hcall) hpolicy,
            bare_cons_some hr]
          have hbelow := hts.visited_split fun j => by rw [Nat.zero_add, at?_child hat]
          simp only [Tally.enter, Tally.rest, Tally.visited_add, Tally.applied_add,
            Tally.satisfied_add]
          omega
      | worked hs hcall hts hu hcall' =>
          rw [enteredAt_wanting _ _ _ _ hs (Course.plan_of_run_ofPlan hcall), bare_cons_some hr]
          have hbelow := hts.visited_split fun j => by rw [Nat.zero_add, at?_child hat]
          simp only [Tally.enter, Tally.work, Tally.visited_add, Tally.applied_add,
            Tally.satisfied_add]
          omega

theorem VisitAll.visited_split : ∀ {us : List (Tree R)} {above : Address} {s s' : σ}
    {cs : List (Returned R)} {tally : Tally},
    VisitAll w P policy above us s cs (.ok tally) s' →
    ∀ {p i}, (∀ j, t.at? (p ++ [i + j]) = us[j]?) →
    tally.visited = tally.applied + tally.satisfied +
      (t.bare (enteredAll w P policy above p i us s)).length
  | [], above, s, s', cs, tally, h, p, i, hat => by
      cases h with
      | nil => rw [enteredAll]; rfl
  | u :: us, above, s, s', cs, tally, h, p, i, hat => by
      cases h with
      | cons hu hus hresult =>
          obtain ⟨others, rfl⟩ := exists_ok_of_map hresult
          cases hresult
          rw [enteredAll_cons hu.makes, bare_append, List.length_append]
          have hfirst := hu.visited_split (hat 0)
          have hothers := hus.visited_split (p := p) (i := i + 1) fun j => by
            rw [Nat.add_right_comm, Nat.add_assoc]
            exact hat (j + 1)
          simp only [Tally.visited_add, Tally.applied_add, Tally.satisfied_add]
          rw [Nat.add_zero] at hfirst
          omega

end

end

/-! ## Nodes that are passed over -/

/-- How many nodes the tree has at a place and beneath it. -/
def sizeAt (t : Tree R) (p : Place) : Nat := ((t.at? p).map size).getD 0

theorem sizeAt_eq {t u : Tree R} {p : Place} (h : t.at? p = some u) : t.sizeAt p = u.size := by
  rw [sizeAt, h]
  rfl

/-- How many nodes of a tree of this size are passed over if its root is found as declared. -/
def passedOver : Policy → Nat → Nat
  | .skipSubtree, n => n - 1
  | .selfOnly, _ => 0

/-- How many nodes are passed over in the course of some calls. -/
def passedOverBy (t : Tree R) (policy : Policy) (cs : List (Returned (Place × R))) : Nat :=
  ((found cs).map fun x => passedOver policy (t.sizeAt x.1)).sum

@[simp] theorem passedOverBy_nil (t : Tree R) (policy : Policy) :
    t.passedOverBy policy [] = 0 := rfl

theorem passedOverBy_append (t : Tree R) (policy : Policy) (cs ds : List (Returned (Place × R))) :
    t.passedOverBy policy (cs ++ ds) = t.passedOverBy policy cs + t.passedOverBy policy ds := by
  rw [passedOverBy, found_append, List.map_append, List.sum_append_nat]
  rfl

theorem passedOverBy_held (t : Tree R) (policy : Policy) (p : Place) (r : R)
    (cs : List (Returned (Place × R))) :
    t.passedOverBy policy (.satisfied (p, r) (.ok true) :: cs) =
      passedOver policy (t.sizeAt p) + t.passedOverBy policy cs := by
  rw [passedOverBy, found_held, List.map_cons, List.sum_cons]
  rfl

theorem passedOverBy_selfOnly (t : Tree R) (cs : List (Returned (Place × R))) :
    t.passedOverBy .selfOnly cs = 0 := by
  rw [passedOverBy]
  induction found cs with
  | nil => rfl
  | cons x xs ih => rw [List.map_cons, List.sum_cons, ih]; rfl

section

variable {P : Provider Q A (Place × R)} (t : Tree R)

mutual

/-- Every node is counted as entered, or passed over with one that is found as declared. -/
theorem Visit.visited_add_passedOver : ∀ {u : Tree R} {p : Place} {above : Address} {s s' : σ}
    {cs : List (Returned (Place × R))} {tally : Tally},
    Visit w P policy above (u.placedAt p) s cs (.ok tally) s' → t.at? p = some u →
    tally.visited + t.passedOverBy policy cs = u.size
  | node name none ts, p, above, s, s', cs, tally, h, hat => by
      rw [placedAt_node, Option.map_none] at h
      cases h with
      | bare hs hts hresult =>
          obtain ⟨below, rfl⟩ := exists_ok_of_map hresult
          cases hresult
          have hbelow := hts.visited_add_passedOver fun j => by rw [Nat.zero_add, at?_child hat]
          simp only [Tally.enter, Tally.visited_add, size_node]
          omega
  | node name (some r) ts, p, above, s, s', cs, tally, h, hat => by
      rw [placedAt_node, Option.map_some] at h
      have hsize := sizeAt_eq hat
      cases h with
      | rest hs hcall hpolicy =>
          rw [passedOverBy_held, passedOverBy_nil, hsize, hpolicy, size_node]
          simp [Tally.enter, Tally.rest, passedOver]
      | pass hs hcall hpolicy hts hresult =>
          obtain ⟨below, rfl⟩ := exists_ok_of_map hresult
          cases hresult
          have hbelow := hts.visited_add_passedOver fun j => by rw [Nat.zero_add, at?_child hat]
          rw [passedOverBy_held, hpolicy, passedOver, ← hpolicy, size_node]
          simp only [Tally.enter, Tally.rest, Tally.visited_add]
          omega
      | worked hs hcall hts hu hcall' =>
          have hbelow := hts.visited_add_passedOver fun j => by rw [Nat.zero_add, at?_child hat]
          simp only [passedOverBy, found_wanting, found_append, found_apply, found_nil,
            List.append_nil, size_node, Tally.enter, Tally.work, Tally.visited_add] at hbelow ⊢
          omega

theorem VisitAll.visited_add_passedOver : ∀ {us : List (Tree R)} {p : Place} {i : Nat}
    {above : Address} {s s' : σ} {cs : List (Returned (Place × R))} {tally : Tally},
    VisitAll w P policy above (placedAll p i us) s cs (.ok tally) s' →
    (∀ j, t.at? (p ++ [i + j]) = us[j]?) →
    tally.visited + t.passedOverBy policy cs = sizeAll us
  | [], p, i, above, s, s', cs, tally, h, hat => by
      rw [placedAll_nil] at h
      cases h with
      | nil => rw [sizeAll_nil]; rfl
  | u :: us, p, i, above, s, s', cs, tally, h, hat => by
      rw [placedAll_cons] at h
      cases h with
      | cons hu hus hresult =>
          obtain ⟨others, rfl⟩ := exists_ok_of_map hresult
          cases hresult
          have hfirst := hu.visited_add_passedOver (hat 0)
          have hothers := hus.visited_add_passedOver fun j => by
            rw [Nat.add_right_comm, Nat.add_assoc]
            exact hat (j + 1)
          rw [passedOverBy_append, sizeAll_cons, Tally.visited_add]
          omega

end

end

/-! ## The whole walk -/

/-- A walk that succeeds is a visit to the root, with labels and without. -/
theorem Charted.exists_visit {t : Tree R} {s s' : σ} {result : Except Fault Tally}
    {cs : List (Returned (Place × R))} (h : t.Charted w P policy s result cs s') :
    ∃ ds, Visit w P policy .top t s ds result s' := by
  obtain ⟨steps, -, hrun, -⟩ := h
  obtain ⟨ds, result', u, ⟨steps', hrun', -⟩, hvisit⟩ := exists_visit_of_converge w P policy t s
  obtain ⟨rfl, -, rfl⟩ : result' = result ∧ steps' = _ ∧ u = s' := by
    simpa using hrun'.symm.trans hrun
  exact ⟨ds, hvisit⟩

/-- What a walk over a tree counts if it succeeds:

* as worked on, the calls to that end that succeeded, and no others have been made;
* as found as declared, the calls that said so;
* as visited, the nodes that were entered, each of them once: those that were worked on, those
  found as declared and those without a resource;
* under `selfOnly` these are all nodes of the tree, and under `skipSubtree` all but those beneath
  a node that was found as declared. -/
theorem converge_counts (P : Provider Q A R) (policy : Policy) {w : World Q A σ} {t : Tree R}
    {s s' : σ} {tally : Tally} {cs : List (Returned (Place × R))}
    (h : t.Charted w P policy s (.ok tally) cs s') :
    tally.applied = (works (cs.filter fun c => !c.isFailure)).length ∧
    tally.applied = (works cs).length ∧
    tally.satisfied = (found cs).length ∧
    tally.visited = (t.entered w P policy s).length ∧
    (t.entered w P policy s).Nodup ∧ (∀ p ∈ t.entered w P policy s, ∃ u, t.at? p = some u) ∧
    tally.visited = tally.applied + tally.satisfied +
      ((t.entered w P policy s).filter fun p => (t.resourceAt p).isNone).length ∧
    (policy = .selfOnly → tally.visited = t.size) ∧
    (policy = .skipSubtree →
      tally.visited + ((found cs).map fun x => t.sizeAt x.1 - 1).sum = t.size) := by
  have hvisit := charted_iff.mp h
  obtain ⟨ds, hbare⟩ := h.exists_visit
  have hsize := hvisit.visited_add_passedOver t t.at?_nil
  have hok : ∀ c ∈ cs, c.isFailure = false := by
    intro c hc
    obtain ⟨before, after, hcs⟩ := List.append_of_mem hc
    cases hfailure : c.isFailure with
    | false => rfl
    | true =>
        obtain ⟨-, _, _, _, _, -, -, -, hresult⟩ := hvisit.ended.of_failure hcs hfailure
        cases hresult
  have hfilter : cs.filter (fun c => !c.isFailure) = cs :=
    List.filter_eq_self.mpr fun c hc => by rw [hok c hc]; rfl
  refine ⟨?_, hvisit.applied_eq, hvisit.satisfied_eq, (hbare.visited_eq []).symm,
    nodup_enteredAt t .top [] s, ?_, hbare.visited_split t t.at?_nil, ?_, ?_⟩
  · rw [hfilter]
    exact hvisit.applied_eq
  · intro p hp
    obtain ⟨q, rfl, hq⟩ := exists_of_mem_enteredAt t hp
    exact hq
  · rintro rfl
    rwa [passedOverBy_selfOnly] at hsize
  · rintro rfl
    exact hsize

end Tree

/-! ## A gallery -/

namespace Rehearsal

/-- If the etching is in the registry, its paper is passed over, and is not counted as visited. -/
theorem converge_counts_of_gallery : ∃ cs s',
    gallery.Charted shelf Resource.provider .skipSubtree ["etching"] (.ok ⟨4, 2, 1⟩) cs s' ∧
    (works cs).length = 2 ∧ (found cs).length = 1 ∧
    4 + ((found cs).map fun x => gallery.sizeAt x.1 - 1).sum = 5 := by
  obtain ⟨result, cs, s', hcharted⟩ :=
    Tree.exists_charted shelf Resource.provider .skipSubtree gallery ["etching"]
  have hresult : ((gallery.converge Resource.provider .skipSubtree).run shelf ["etching"]).1 =
      .ok ⟨4, 2, 1⟩ := rfl
  obtain ⟨steps, -, hrun, -⟩ := id hcharted
  rw [hrun] at hresult
  obtain rfl : result = _ := hresult
  obtain ⟨-, happlied, hsatisfied, -, -, -, -, -, hsize⟩ :=
    Tree.converge_counts Resource.provider .skipSubtree hcharted
  exact ⟨cs, s', hcharted, happlied.symm, hsatisfied.symm, hsize rfl⟩

end Rehearsal

end Converge
