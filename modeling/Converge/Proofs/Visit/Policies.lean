import Converge.Proofs.Visit.Cancellation
import Converge.Proofs.Visit.Entered
import Converge.Proofs.Visit.Repetition

/-! # Policies compared

Under `skipSubtree` a walk turns back at a resource that it finds as declared, and under `selfOnly`
it goes on.  If both find the same resources as declared and no call fails, then what work is done
is read off the tree, and the work of the first walk is that of the second but for the nodes
beneath a resource that was found as declared.  Nothing is lost if whatever lies beneath such a
resource is as declared too.
-/

namespace Converge

open Course (World Step)

variable {Q : Type} {A : Q → Type} {R σ σ' : Type}

namespace Returned

/-- The call succeeds, and a resource is found as declared exactly where `held` says so. -/
def Agrees (held : Place → Bool) : Returned (Place × R) → Prop
  | satisfied (p, _) answer => answer = .ok (held p)
  | apply _ answer => answer = .ok ()

@[simp] theorem agrees_satisfied {held : Place → Bool} {p : Place} {r : R} {b : Bool} :
    (satisfied (p, r) (.ok b)).Agrees held ↔ held p = b :=
  Except.ok.injEq _ _ ▸ eq_comm

theorem Agrees.not_failure {held : Place → Bool} {c : Returned (Place × R)} (h : c.Agrees held) :
    c.isFailure = false := by
  cases c <;> cases h <;> rfl

/-- The resource that a call works on, if it is not only asked about. -/
def work? : Returned R → Option R
  | satisfied _ _ => none
  | apply r _ => some r

/-- What is worked on in the course of some calls, in this order. -/
def works (cs : List (Returned R)) : List R := cs.filterMap work?

@[simp] theorem works_nil : works ([] : List (Returned R)) = [] := rfl
@[simp] theorem works_satisfied (r : R) (answer : Except Failure Bool) (cs : List (Returned R)) :
    works (.satisfied r answer :: cs) = works cs := rfl
@[simp] theorem works_apply (r : R) (answer : Except Failure Unit) (cs : List (Returned R)) :
    works (.apply r answer :: cs) = r :: works cs := rfl
@[simp] theorem works_append (cs ds : List (Returned R)) :
    works (cs ++ ds) = works cs ++ works ds := List.filterMap_append

end Returned

open Returned

namespace Tree

/-! ## Walks and places -/

/-- From state `s` the walk over the tree ends with `result` in state `s'`; `cs` are the calls that
it makes, each with the place of its node. -/
def Charted (w : World Q A σ) (P : Provider Q A R) (policy : Policy) (t : Tree R) (s : σ)
    (result : Except Fault Tally) (cs : List (Returned (Place × R))) (s' : σ) : Prop :=
  ∃ steps, (t.placed.converge (P.comap Prod.snd) policy).run w s = (result, steps, s') ∧
    (t.converge P policy).run w s = (result, steps.map (Step.map Prod.snd), s') ∧
    Calls w (P.comap Prod.snd) s steps cs s'

section

variable {w : World Q A σ} {P : Provider Q A R} {policy : Policy} {t : Tree R} {s s' : σ}
  {result : Except Fault Tally} {cs : List (Returned (Place × R))}

/-- A walk is charted by what a visit to the root of the labelled tree comes to. -/
theorem charted_iff : t.Charted w P policy s result cs s' ↔
    Visit w (P.comap Prod.snd) policy .top t.placed s cs result s' := by
  constructor
  · rintro ⟨steps, hrun, -, hcs⟩
    obtain ⟨ds, result', u, ⟨steps', hrun', hds⟩, hvisit⟩ :=
      exists_visit_of_converge w (P.comap Prod.snd) policy t.placed s
    obtain ⟨rfl, rfl, rfl⟩ : result' = result ∧ steps' = steps ∧ u = s' := by
      simpa using hrun'.symm.trans hrun
    rwa [hcs.unique hds]
  · intro hvisit
    obtain ⟨steps, hrun, hcs⟩ := hvisit.makes_converge
    exact ⟨steps, hrun, by rw [run_converge_placed, hrun], hcs⟩

/-- Every walk can be charted. -/
theorem exists_charted (w : World Q A σ) (P : Provider Q A R) (policy : Policy) (t : Tree R)
    (s : σ) : ∃ result cs s', t.Charted w P policy s result cs s' := by
  obtain ⟨cs, result, s', hvisit⟩ := exists_visit t.placed policy .top s
  exact ⟨result, cs, s', charted_iff.mpr hvisit⟩

end

/-! ## Work that succeeds is counted -/

section

variable {w : World Q A σ} {P : Provider Q A R} {policy : Policy}

mutual

/-- A visit that succeeds counts what was worked on. -/
theorem Visit.applied_eq : ∀ {t : Tree R} {above : Address} {s s' : σ} {cs : List (Returned R)}
    {tally : Tally}, Visit w P policy above t s cs (.ok tally) s' →
    tally.applied = (works cs).length
  | node name none ts, above, s, s', cs, tally, h => by
      cases h with
      | bare hs hts hresult =>
          obtain ⟨below, rfl⟩ := exists_ok_of_map hresult
          cases hresult
          simp [Tally.enter, hts.applied_eq]
  | node name (some r) ts, above, s, s', cs, tally, h => by
      cases h with
      | rest hs hcall hpolicy => simp [Tally.enter, Tally.rest]
      | pass hs hcall hpolicy hts hresult =>
          obtain ⟨below, rfl⟩ := exists_ok_of_map hresult
          cases hresult
          simp [Tally.enter, Tally.rest, hts.applied_eq]
      | worked hs hcall hts hu hcall' => simp [Tally.enter, Tally.work, hts.applied_eq]

theorem VisitAll.applied_eq : ∀ {ts : List (Tree R)} {above : Address} {s s' : σ}
    {cs : List (Returned R)} {tally : Tally},
    VisitAll w P policy above ts s cs (.ok tally) s' → tally.applied = (works cs).length
  | [], above, s, s', cs, tally, h => by
      cases h with
      | nil => rfl
  | t :: ts, above, s, s', cs, tally, h => by
      cases h with
      | cons ht hts hresult =>
          obtain ⟨others, rfl⟩ := exists_ok_of_map hresult
          cases hresult
          simp [ht.applied_eq, hts.applied_eq]

end

end

/-! ## What there is to do -/

section

variable (policy : Policy) (held : Place → Bool)

mutual

/-- The resources that are worked on in a tree found at place `p`, if those where `held` says so
are found as declared, in the order in which they are worked on. -/
def dueAt (p : Place) : Tree R → List (Place × R)
  | node _ none ts => dueAll p 0 ts
  | node _ (some r) ts =>
      if held p then
        match policy with
        | .skipSubtree => []
        | .selfOnly => dueAll p 0 ts
      else dueAll p 0 ts ++ [(p, r)]

/-- The same for children of the node at place `p`, the first of which has number `i`. -/
def dueAll (p : Place) (i : Nat) : List (Tree R) → List (Place × R)
  | [] => []
  | t :: ts => dueAt (p ++ [i]) t ++ dueAll p (i + 1) ts

end

end

variable {policy : Policy} {held : Place → Bool}

@[simp] theorem dueAt_bare (p : Place) (name : String) (ts : List (Tree R)) :
    dueAt policy held p (node name none ts) = dueAll policy held p 0 ts := by rw [dueAt]
@[simp] theorem dueAll_nil (p : Place) (i : Nat) :
    dueAll policy held p i ([] : List (Tree R)) = [] := by rw [dueAll]
@[simp] theorem dueAll_cons (p : Place) (i : Nat) (t : Tree R) (ts : List (Tree R)) :
    dueAll policy held p i (t :: ts) =
      dueAt policy held (p ++ [i]) t ++ dueAll policy held p (i + 1) ts := by rw [dueAll]

theorem dueAt_wanting {p : Place} (hp : held p = false) (name : String) (r : R)
    (ts : List (Tree R)) : dueAt policy held p (node name (some r) ts) =
      dueAll policy held p 0 ts ++ [(p, r)] := by
  simp [dueAt, hp]

theorem dueAt_rest {p : Place} (hp : held p = true) (hpolicy : policy = .skipSubtree)
    (name : String) (r : R) (ts : List (Tree R)) :
    dueAt policy held p (node name (some r) ts) = [] := by
  simp [dueAt, hp, hpolicy]

theorem dueAt_pass {p : Place} (hp : held p = true) (hpolicy : policy = .selfOnly)
    (name : String) (r : R) (ts : List (Tree R)) :
    dueAt policy held p (node name (some r) ts) = dueAll policy held p 0 ts := by
  simp [dueAt, hp, hpolicy]

mutual

/-- In a completed visit exactly that is worked on. -/
theorem Completed.works_eq : ∀ {t : Tree R} {p : Place} {cs : List (Returned (Place × R))},
    Completed policy (t.placedAt p) cs → (∀ c ∈ cs, c.Agrees held) →
    works cs = dueAt policy held p t
  | node name none ts, p, cs, h, hcs => by
      rw [placedAt_node, Option.map_none] at h
      cases h with
      | bare hts => rw [dueAt_bare, hts.works_eq hcs]
  | node name (some r) ts, p, cs, h, hcs => by
      rw [placedAt_node, Option.map_some] at h
      cases h with
      | rest hpolicy =>
          have hp := agrees_satisfied.mp (hcs _ List.mem_cons_self)
          rw [dueAt_rest hp hpolicy]
          rfl
      | pass hpolicy hts =>
          rw [List.forall_mem_cons, agrees_satisfied] at hcs
          rw [works_satisfied, hts.works_eq hcs.2, dueAt_pass hcs.1 hpolicy]
      | worked hts =>
          rw [List.forall_mem_cons, List.forall_mem_append, agrees_satisfied] at hcs
          rw [works_satisfied, works_append, hts.works_eq hcs.2.1, dueAt_wanting hcs.1]
          rfl

theorem CompletedAll.works_eq : ∀ {ts : List (Tree R)} {p : Place} {i : Nat}
    {cs : List (Returned (Place × R))}, CompletedAll policy (placedAll p i ts) cs →
    (∀ c ∈ cs, c.Agrees held) → works cs = dueAll policy held p i ts
  | [], p, i, cs, h, hcs => by
      rw [placedAll_nil] at h
      cases h with
      | nil => rw [dueAll_nil, works_nil]
  | t :: ts, p, i, cs, h, hcs => by
      rw [placedAll_cons] at h
      cases h with
      | cons ht hts =>
          rw [List.forall_mem_append] at hcs
          rw [works_append, dueAll_cons, ht.works_eq hcs.1, hts.works_eq hcs.2]

end

/-- The resource of the node at a place. -/
def resourceAt (t : Tree R) (p : Place) : Option R := (t.at? p).bind resource

theorem resourceAt_cons (name : String) (r : Option R) (ts : List (Tree R)) (j : Nat) (q : Place) :
    (node name r ts).resourceAt (j :: q) = ts[j]?.bind fun t => t.resourceAt q := by
  rw [resourceAt, at?_cons, Option.bind_assoc]
  rfl

mutual

/-- What is worked on is a resource of the tree, and it was not found as declared. -/
theorem exists_of_mem_dueAt {x : Place × R} : ∀ (t : Tree R) {p : Place},
    x ∈ dueAt policy held p t →
    ∃ q, x.1 = p ++ q ∧ t.resourceAt q = some x.2 ∧ held x.1 = false
  | node name none ts, p, hx => by
      rw [dueAt_bare] at hx
      obtain ⟨j, q, heq, hr, hheld⟩ := exists_of_mem_dueAll ts hx
      rw [Nat.zero_add] at heq
      exact ⟨j :: q, heq, by rwa [resourceAt_cons], hheld⟩
  | node name (some r) ts, p, hx => by
      have hbelow : x ∈ dueAll policy held p 0 ts →
          ∃ q, x.1 = p ++ q ∧ (node name (some r) ts).resourceAt q = some x.2 ∧
            held x.1 = false := by
        intro hx
        obtain ⟨j, q, heq, hr, hheld⟩ := exists_of_mem_dueAll ts hx
        rw [Nat.zero_add] at heq
        exact ⟨j :: q, heq, by rwa [resourceAt_cons], hheld⟩
      cases hp : held p with
      | true =>
          rcases policy.eq_or_eq with hpolicy | hpolicy
          · rw [dueAt_rest hp hpolicy] at hx
            cases hx
          · rw [dueAt_pass hp hpolicy] at hx
            exact hbelow hx
      | false =>
          rw [dueAt_wanting hp, List.mem_append] at hx
          rcases hx with hx | hx
          · exact hbelow hx
          · obtain rfl := List.mem_singleton.mp hx
            exact ⟨[], by simp, rfl, hp⟩

theorem exists_of_mem_dueAll {x : Place × R} : ∀ (ts : List (Tree R)) {p : Place} {i : Nat},
    x ∈ dueAll policy held p i ts →
    ∃ j q, x.1 = p ++ (i + j) :: q ∧ (ts[j]?.bind fun t => t.resourceAt q) = some x.2 ∧
      held x.1 = false
  | [], p, i, hx => by
      rw [dueAll_nil] at hx
      cases hx
  | t :: ts, p, i, hx => by
      rw [dueAll_cons, List.mem_append] at hx
      rcases hx with hx | hx
      · obtain ⟨q, heq, hr, hheld⟩ := exists_of_mem_dueAt t hx
        exact ⟨0, q, by simpa using heq, hr, hheld⟩
      · obtain ⟨j, q, heq, hr, hheld⟩ := exists_of_mem_dueAll ts hx
        exact ⟨j + 1, q, by rw [heq, Nat.add_right_comm, Nat.add_assoc], hr, hheld⟩

end

/-! ## What lies beneath a resource found as declared -/

/-- Is there a resource found as declared at a node properly above this place? -/
def overshadowed (t : Tree R) (held : Place → Bool) (q : Place) : Bool :=
  (List.range q.length).any fun n => held (q.take n) && (t.resourceAt (q.take n)).isSome

/-- Whatever lies beneath a resource found as declared is found as declared too. -/
def ClosedDown (t : Tree R) (held : Place → Bool) : Prop :=
  ∀ q, (t.resourceAt q).isSome → t.overshadowed held q = true → held q = true

theorem overshadowed_iff {t : Tree R} {q : Place} : t.overshadowed held q = true ↔
    ∃ p i rest, q = p ++ i :: rest ∧ held p = true ∧ (t.resourceAt p).isSome = true := by
  simp only [overshadowed, List.any_eq_true, List.mem_range, Bool.and_eq_true]
  constructor
  · rintro ⟨n, hn, hheld, hr⟩
    refine ⟨q.take n, q[n], q.drop (n + 1), ?_, hheld, hr⟩
    rw [← List.drop_eq_getElem_cons hn, List.take_append_drop]
  · rintro ⟨p, i, rest, rfl, hheld, hr⟩
    exact ⟨p.length, by simp, by simpa using hheld, by simpa using hr⟩

theorem overshadowed_nil (t : Tree R) : t.overshadowed held [] = false := rfl

/-- A child is overshadowed along with its parent, or by it. -/
theorem overshadowed_child (t : Tree R) (p : Place) (j : Nat) :
    t.overshadowed held (p ++ [j]) =
      (t.overshadowed held p || held p && (t.resourceAt p).isSome) := by
  rw [overshadowed, List.length_append, List.length_singleton, List.range_succ, List.any_append,
    overshadowed]
  congr 1
  · simp only [List.any_eq, decide_eq_decide, List.mem_range]
    refine exists_congr fun n => and_congr_right fun hn => ?_
    rw [List.take_append_of_le_length (Nat.le_of_lt hn)]
  · simp

/-- What is worked on beneath a resource that is found as declared is overshadowed. -/
theorem filter_dueAll_eq_nil (t : Tree R) {p : Place} (hp : held p = true)
    (hr : (t.resourceAt p).isSome = true) (i : Nat) (ts : List (Tree R)) :
    (dueAll policy held p i ts).filter (fun x => !t.overshadowed held x.1) = [] := by
  rw [List.filter_eq_nil_iff]
  intro x hx
  obtain ⟨j, q, heq, -, -⟩ := exists_of_mem_dueAll ts hx
  rw [overshadowed_iff.mpr ⟨p, i + j, q, heq, hp, hr⟩]
  exact Bool.false_ne_true

section

variable (held) (t : Tree R)

mutual

/-- In a subtree that is not overshadowed, the work under `skipSubtree` is what remains of the work
under `selfOnly` without that which is overshadowed. -/
theorem filter_dueAt : ∀ (u : Tree R) {p : Place}, t.at? p = some u →
    t.overshadowed held p = false →
    (dueAt .selfOnly held p u).filter (fun x => !t.overshadowed held x.1) =
      dueAt .skipSubtree held p u
  | node name none ts, p, hat, hp => by
      have hr : t.resourceAt p = none := by rw [resourceAt, hat]; rfl
      rw [dueAt_bare, dueAt_bare]
      refine filter_dueAll ts (fun j => ?_) fun j => ?_
      · rw [Nat.zero_add, at?_child hat]
      · rw [overshadowed_child, hp, hr, Option.isSome_none, Bool.and_false, Bool.or_self]
  | node name (some r) ts, p, hat, hp => by
      have hr : t.resourceAt p = some r := by rw [resourceAt, hat]; rfl
      cases hheld : held p with
      | true =>
          rw [dueAt_pass hheld rfl, dueAt_rest hheld rfl,
            filter_dueAll_eq_nil t hheld (Option.isSome_of_eq_some hr)]
      | false =>
          rw [dueAt_wanting hheld, dueAt_wanting hheld, List.filter_append]
          congr 1
          · refine filter_dueAll ts (fun j => ?_) fun j => ?_
            · rw [Nat.zero_add, at?_child hat]
            · rw [overshadowed_child, hp, hheld]
              rfl
          · simp [hp]

theorem filter_dueAll : ∀ (ts : List (Tree R)) {p : Place} {i : Nat},
    (∀ j, t.at? (p ++ [i + j]) = ts[j]?) → (∀ j, t.overshadowed held (p ++ [j]) = false) →
    (dueAll .selfOnly held p i ts).filter (fun x => !t.overshadowed held x.1) =
      dueAll .skipSubtree held p i ts
  | [], p, i, hat, hp => by rw [dueAll_nil, dueAll_nil, List.filter_nil]
  | u :: us, p, i, hat, hp => by
      rw [dueAll_cons, dueAll_cons, List.filter_append]
      congr 1
      · exact filter_dueAt u (hat 0) (hp i)
      · refine filter_dueAll us (fun j => ?_) hp
        rw [Nat.add_right_comm, Nat.add_assoc]
        exact hat (j + 1)

end

end

/-- If what lies beneath resources found as declared is as declared too, nothing that is worked on
is overshadowed. -/
theorem ClosedDown.not_overshadowed {t : Tree R} (h : t.ClosedDown held) {x : Place × R}
    (hx : x ∈ dueAt policy held [] t) : t.overshadowed held x.1 = false := by
  obtain ⟨q, heq, hr, hheld⟩ := exists_of_mem_dueAt t hx
  obtain rfl : x.1 = q := heq
  refine Bool.eq_false_iff.mpr fun hover => ?_
  rw [h x.1 (by rw [hr]; rfl) hover] at hheld
  cases hheld

/-! ## The policies side by side -/

/-- A walk in which no call fails and that is not cancelled succeeds; its work is what the tree says
there is to do, and it is counted. -/
theorem Charted.works_eq {w : World Q A σ} {P : Provider Q A R} {t : Tree R} {s s' : σ}
    {result : Except Fault Tally} {cs : List (Returned (Place × R))}
    (h : t.Charted w P policy s result cs s') (hcs : ∀ c ∈ cs, c.Agrees held)
    (hs' : w.cancelled s' = false) :
    ∃ tally, result = .ok tally ∧ tally.applied = (works cs).length ∧
      works cs = dueAt policy held [] t := by
  have hvisit := charted_iff.mp h
  obtain ⟨k, -, hwinds⟩ := hvisit.ended.of_success fun c hc => (hcs c hc).not_failure
  rw [hs'] at hwinds
  obtain ⟨tally, rfl⟩ := hwinds
  exact ⟨tally, rfl, hvisit.applied_eq, hvisit.completed.works_eq hcs⟩

/-- Two walks over one tree, one under each policy, in which no call fails, no cancellation comes
and the same resources are found as declared:

* both succeed, and count what they worked on;
* what is worked on under `skipSubtree` is, in the same order, what is worked on under `selfOnly`
  except for the nodes beneath a resource that was found as declared;
* if whatever lies beneath such a resource is as declared too, the work is the same. -/
theorem converge_policies (P : Provider Q A R) (t : Tree R) (held : Place → Bool)
    {w : World Q A σ} {s s' : σ} {a : Except Fault Tally} {cs : List (Returned (Place × R))}
    {v : World Q A σ'} {u u' : σ'} {b : Except Fault Tally} {ds : List (Returned (Place × R))}
    (hskip : t.Charted w P .skipSubtree s a cs s') (hself : t.Charted v P .selfOnly u b ds u')
    (hcs : ∀ c ∈ cs, c.Agrees held) (hds : ∀ d ∈ ds, d.Agrees held)
    (hs' : w.cancelled s' = false) (hu' : v.cancelled u' = false) :
    ∃ x y, a = .ok x ∧ b = .ok y ∧
      x.applied = (works cs).length ∧ y.applied = (works ds).length ∧
      works cs = (works ds).filter (fun x => !t.overshadowed held x.1) ∧
      (t.ClosedDown held → works cs = works ds ∧ x.applied = y.applied) := by
  obtain ⟨x, rfl, hx, hworks⟩ := hskip.works_eq hcs hs'
  obtain ⟨y, rfl, hy, hworks'⟩ := hself.works_eq hds hu'
  have hfilter : works cs = (works ds).filter (fun x => !t.overshadowed held x.1) := by
    rw [hworks, hworks', filter_dueAt held t t t.at?_nil t.overshadowed_nil]
  refine ⟨x, y, rfl, rfl, hx, hy, hfilter, fun hclosed => ?_⟩
  have hsame : works cs = works ds := by
    rw [hfilter, List.filter_eq_self]
    intro x hx
    rw [hworks'] at hx
    rw [hclosed.not_overshadowed hx]
    rfl
  exact ⟨hsame, by rw [hx, hy, hsame]⟩

end Tree

/-! ## A print shop -/

namespace Rehearsal

section

variable {policy : Policy} {above : Address} {p : Place} {name : String}
  {ts : List (Tree (Place × Resource))} {s u : List String}
  {cs : List (Returned (Place × Resource))}

theorem exists_runs_shelf (p : Place) (name : String) (s : List String) :
    ∃ steps, (Returned.satisfied (p, picture name) (.ok (decide (name ∈ s)))).Runs shelf
      (Resource.provider.comap Prod.snd) s steps s := by
  obtain ⟨answer, steps, u, hcall⟩ := Tree.exists_runs_satisfied shelf
    (Resource.provider.comap Prod.snd) (p, picture name) s
  obtain ⟨rfl, rfl⟩ := Prod.mk.inj ((Course.plan_of_run_ofPlan hcall).symm.trans
    (run_satisfied_shelf ⟨name, ⟨name⟩, none, .empty⟩ s))
  exact ⟨steps, hcall⟩

/-- An image that the registry does not have is pushed after those beneath it. -/
theorem visit_missing {below : Tally} (hs : name ∉ s)
    (hts : Tree.VisitAll shelf (Resource.provider.comap Prod.snd) policy (above.child name) ts s cs
      (.ok below) u) :
    Tree.Visit shelf (Resource.provider.comap Prod.snd) policy above
      (.node name (some (p, picture name)) ts) s
      (.satisfied (p, picture name) (.ok false) :: (cs ++ [.apply (p, picture name) (.ok ())]))
      (.ok (.enter + below + .work)) (name :: u) := by
  obtain ⟨steps, hcall⟩ := exists_runs_shelf p name s
  rw [decide_eq_false hs] at hcall
  exact .worked rfl hcall hts rfl rfl

end

/-- Two images, each of them above the image that it is made from. -/
def studio : Tree Resource :=
  .node "studio" none
    [.node "etching" (some (picture "etching")) [.node "paper" (some (picture "paper")) []],
      .node "drawing" (some (picture "drawing")) [.node "canvas" (some (picture "canvas")) []]]

/-- Of the images in the studio only the etching is found. -/
def etched (p : Place) : Bool := p == [0]

/-- The paper for an etching that is in the registry already is pushed under `selfOnly` only. -/
theorem converge_policies_of_studio :
    ∃ x y cs ds s u,
      studio.Charted shelf Resource.provider .skipSubtree ["etching"] (.ok x) cs s ∧
      studio.Charted shelf Resource.provider .selfOnly ["etching"] (.ok y) ds u ∧
      (∀ c ∈ cs, c.Agrees etched) ∧ (∀ d ∈ ds, d.Agrees etched) ∧
      (works ds).map Prod.fst = [[0, 0], [1, 0], [1]] ∧
      (works cs).map Prod.fst = [[1, 0], [1]] ∧
      works cs = (works ds).filter (fun x => !studio.overshadowed etched x.1) ∧
      x.applied = 2 ∧ y.applied = 3 := by
  obtain ⟨steps, hetching⟩ := exists_runs_shelf [0] "etching" ["etching"]
  rw [decide_eq_true (List.mem_singleton_self _)] at hetching
  have hskip : studio.Charted shelf Resource.provider .skipSubtree ["etching"] _ _ _ :=
    Tree.charted_iff.mpr (.bare rfl
      (.cons (.rest rfl hetching rfl)
        (.cons (visit_missing (by decide) (.cons (visit_missing (by decide) .nil) .nil rfl))
          .nil rfl) rfl) rfl)
  have hself : studio.Charted shelf Resource.provider .selfOnly ["etching"] _ _ _ :=
    Tree.charted_iff.mpr (.bare rfl
      (.cons (.pass rfl hetching rfl (.cons (visit_missing (by decide) .nil) .nil rfl) rfl)
        (.cons (visit_missing (by decide) (.cons (visit_missing (by decide) .nil) .nil rfl))
          .nil rfl) rfl) rfl)
  obtain ⟨x, y, -, -, -, -, hfilter, -⟩ :=
    Tree.converge_policies _ _ etched hskip hself (by simp [Agrees, etched])
      (by simp [Agrees, etched]) rfl rfl
  exact ⟨_, _, _, _, _, _, hskip, hself, by simp [Agrees, etched], by simp [Agrees, etched], rfl,
    rfl, hfilter, rfl, rfl⟩

end Rehearsal

end Converge
