import Converge.Proofs.Addresses.Walks
import Converge.Proofs.Visit.Policies

/-! # Walks that fail

A walk that fails without having been cancelled fails with its last call.  By then everything that
lies to the left of the node of that call has been seen to; what is above the node has at most been
asked about, and nothing to the right of it has been touched.
-/

namespace Converge

open Course (World Step)

variable {Q : Type} {A : Q → Type} {R σ : Type}

/-- The call, made on the node of this address, fails, and the fault says so. -/
def Fault.Reports (f : Fault) (here : Address) : Returned R → Prop
  | .satisfied _ answer => ∃ cause, answer = .error cause ∧ f = .satisfied here cause
  | .apply _ answer => ∃ cause, answer = .error cause ∧ f = .apply here cause

namespace Tree

/-- The address of the node at a place: the names from the root down to it. -/
def addressOf (t : Tree R) (p : Place) : Address := Address.along (fun q => (t.at? q).map name) p

theorem addressOf_nil (t : Tree R) : t.addressOf [] = ⟨[t.name]⟩ := by
  rw [addressOf, Address.along_nil, at?_nil]
  rfl

theorem addressOf_cons {name : String} {r : Option R} {ts : List (Tree R)} {i : Nat} {u : Tree R}
    (hu : ts[i]? = some u) (p : Place) :
    ((node name r ts).addressOf (i :: p)).names = name :: (u.addressOf p).names := by
  rw [addressOf, Address.names_along_cons, at?_nil]
  simp only [at?_cons, children, hu]
  rfl

/-- The address of a child is that of its parent and its own name. -/
theorem addressOf_child {t u : Tree R} {p : Place} {j : Nat} (h : t.at? (p ++ [j]) = some u) :
    (t.addressOf p).child u.name = t.addressOf (p ++ [j]) := by
  have hnames : (t.addressOf p).names ++ [u.name] = (t.addressOf (p ++ [j])).names := by
    induction p generalizing t with
    | nil =>
        obtain ⟨name, r, ts⟩ := t
        rw [List.nil_append, at?_cons, children, Option.bind_eq_some_iff] at h
        obtain ⟨v, hv, hu⟩ := h
        obtain rfl : v = u := Option.some.inj ((at?_nil v).symm.trans hu)
        rw [List.nil_append, addressOf_cons hv, addressOf_nil, addressOf_nil]
        rfl
    | cons i p ih =>
        obtain ⟨name, r, ts⟩ := t
        rw [List.cons_append, at?_cons, children, Option.bind_eq_some_iff] at h
        obtain ⟨v, hv, hu⟩ := h
        rw [List.cons_append, addressOf_cons hv, addressOf_cons hv, List.cons_append, ih hu]
  exact congrArg Address.mk hnames

/-! ## Pre-order -/

mutual

/-- The places of the nodes of a tree that is found at place `p`, in pre-order. -/
def placesAt (p : Place) : Tree R → List Place
  | node _ _ ts => p :: placesAll p 0 ts

/-- The same for children of the node at place `p`, the first of which has number `i`. -/
def placesAll (p : Place) (i : Nat) : List (Tree R) → List Place
  | [] => []
  | t :: ts => placesAt (p ++ [i]) t ++ placesAll p (i + 1) ts

end

/-- The places of the nodes of a tree, in pre-order. -/
def places (t : Tree R) : List Place := placesAt [] t

@[simp] theorem placesAt_node (p : Place) (name : String) (r : Option R) (ts : List (Tree R)) :
    placesAt p (node name r ts) = p :: placesAll p 0 ts := by rw [placesAt]
@[simp] theorem placesAll_nil (p : Place) (i : Nat) : placesAll p i ([] : List (Tree R)) = [] := by
  rw [placesAll]
@[simp] theorem placesAll_cons (p : Place) (i : Nat) (t : Tree R) (ts : List (Tree R)) :
    placesAll p i (t :: ts) = placesAt (p ++ [i]) t ++ placesAll p (i + 1) ts := by rw [placesAll]

mutual

theorem mem_placesAt {x : Place} : ∀ (t : Tree R) {p : Place},
    x ∈ placesAt p t ↔ ∃ q u, x = p ++ q ∧ t.at? q = some u
  | node name r ts, p => by
      rw [placesAt_node, List.mem_cons, mem_placesAll ts]
      constructor
      · rintro (rfl | ⟨j, q, u, rfl, hu⟩)
        · exact ⟨[], _, by rw [List.append_nil], at?_nil _⟩
        · exact ⟨j :: q, u, by rw [Nat.zero_add], by rwa [at?_cons, children]⟩
      · rintro ⟨q, u, rfl, hu⟩
        cases q with
        | nil => exact .inl (List.append_nil p)
        | cons j q => exact .inr ⟨j, q, u, by rw [Nat.zero_add], by rwa [at?_cons, children] at hu⟩

theorem mem_placesAll {x : Place} : ∀ (ts : List (Tree R)) {p : Place} {i : Nat},
    x ∈ placesAll p i ts ↔ ∃ j q u, x = p ++ (i + j) :: q ∧ ts[j]?.bind (at? q) = some u
  | [], p, i => by simp
  | t :: ts, p, i => by
      rw [placesAll_cons, List.mem_append, mem_placesAt t, mem_placesAll ts]
      constructor
      · rintro (⟨q, u, rfl, hu⟩ | ⟨j, q, u, rfl, hu⟩)
        · exact ⟨0, q, u, by simp, hu⟩
        · exact ⟨j + 1, q, u, by rw [Nat.add_right_comm, Nat.add_assoc], hu⟩
      · rintro ⟨j, q, u, rfl, hu⟩
        cases j with
        | zero => exact .inl ⟨q, u, by simp, hu⟩
        | succ j => exact .inr ⟨j, q, u, by rw [Nat.add_right_comm, Nat.add_assoc], hu⟩

end

/-- Places are ordered as words are in a dictionary: a place comes before those beneath it. -/
theorem lt_of_beneath (p : Place) (i : Nat) (q : Place) : p < p ++ i :: q := by
  conv => lhs; rw [← List.append_nil p]
  exact List.append_left_lt (List.nil_lt_cons _ _)

/-- A place comes before those to the right of it. -/
theorem lt_of_left (p : Place) {i j : Nat} (h : i < j) (x y : Place) :
    p ++ i :: x < p ++ j :: y :=
  List.append_left_lt (List.cons_lt_cons_iff.mpr (.inl h))

mutual

/-- In pre-order, places come one after another in this order. -/
theorem pairwise_placesAt : ∀ (t : Tree R) (p : Place), (placesAt p t).Pairwise (· < ·)
  | node name r ts, p => by
      rw [placesAt_node, List.pairwise_cons]
      refine ⟨fun x hx => ?_, pairwise_placesAll ts p 0⟩
      obtain ⟨j, q, -, rfl, -⟩ := (mem_placesAll ts).mp hx
      exact lt_of_beneath p _ q

theorem pairwise_placesAll : ∀ (ts : List (Tree R)) (p : Place) (i : Nat),
    (placesAll p i ts).Pairwise (· < ·)
  | [], p, i => by simp
  | t :: ts, p, i => by
      rw [placesAll_cons, List.pairwise_append]
      refine ⟨pairwise_placesAt t _, pairwise_placesAll ts p (i + 1), fun x hx y hy => ?_⟩
      obtain ⟨q, -, rfl, -⟩ := (mem_placesAt t).mp hx
      obtain ⟨j, q', -, rfl, -⟩ := (mem_placesAll ts).mp hy
      rw [List.append_assoc]
      exact lt_of_left p (by omega) q q'

end

/-! ## Where a visit breaks off -/

/-- What happens at a node before its children are visited: a resource is asked about. -/
inductive Opening (policy : Policy) : Option R → List (Returned R) → Prop
  | bare : Opening policy none []
  | asked {r satisfied} (h : satisfied = true → policy = .selfOnly) :
      Opening policy (some r) [.satisfied r (.ok satisfied)]

/-- The calls are those of a visit that breaks off at place `p` with this fault: on the way there
every node is asked about and the children before the one to go to are visited, and the last call
is the one that fails. -/
inductive Breaks (policy : Policy) :
    Address → Tree R → Place → List (Returned R) → Fault → Prop
  /-- It cannot be found out whether the resource is as declared. -/
  | unknown {above name r ts cause} :
      Breaks policy above (node name (some r) ts) [] [.satisfied r (.error cause)]
        (.satisfied (above.child name) cause)
  /-- The work on the resource fails. -/
  | failed {above name r ts cs cause} (hts : CompletedAll policy ts cs) :
      Breaks policy above (node name (some r) ts) []
        (.satisfied r (.ok false) :: (cs ++ [.apply r (.error cause)]))
        (.apply (above.child name) cause)
  /-- The visit to a child breaks off. -/
  | beneath {above name r ts i t p first front rest f} (hfirst : Opening policy r first)
      (hfront : CompletedAll policy (ts.take i) front) (ht : ts[i]? = some t)
      (h : Breaks policy (above.child name) t p rest f) :
      Breaks policy above (node name r ts) (i :: p) (first ++ (front ++ rest)) f

variable {w : World Q A σ} {P : Provider Q A R} {policy : Policy}

theorem blamed_of_not_cancellation {s : σ} {here : Address} {fault : Fault}
    (h : (blamed w s here fault).isCancellation = false) : blamed w s here fault = fault := by
  rw [blamed]
  split
  · rw [blamed, if_pos ‹_›] at h
    cases h
  · rfl

mutual

/-- A visit that fails without having been cancelled breaks off somewhere. -/
theorem Visit.breaks : ∀ {t : Tree R} {above : Address} {s s' : σ} {cs : List (Returned R)}
    {f : Fault}, Visit w P policy above t s cs (.error f) s' → f.isCancellation = false →
    ∃ p, Breaks policy above t p cs f
  | node name none ts, above, s, s', cs, f, h, hf => by
      cases h with
      | cancelled hs => cases hf
      | @bare _ _ _ _ _ below _ _ hs hts hresult =>
          cases below with
          | ok below => cases hresult
          | error f' =>
              cases hresult
              obtain ⟨i, t, p, front, rest, ht, hfront, hrest, rfl⟩ := hts.breaks hf
              exact ⟨i :: p, .beneath .bare hfront ht hrest⟩
  | node name (some r) ts, above, s, s', cs, f, h, hf => by
      cases h with
      | cancelled hs => cases hf
      | unknown hs hcall =>
          rw [blamed_of_not_cancellation hf]
          exact ⟨[], .unknown⟩
      | @pass _ _ _ _ _ _ _ _ _ below _ hs hcall hpolicy hts hresult =>
          cases below with
          | ok below => cases hresult
          | error f' =>
              cases hresult
              obtain ⟨i, t, p, front, rest, ht, hfront, hrest, rfl⟩ := hts.breaks hf
              exact ⟨i :: p, .beneath (.asked fun _ => hpolicy) hfront ht hrest⟩
      | stuck hs hcall hts =>
          obtain ⟨i, t, p, front, rest, ht, hfront, hrest, rfl⟩ := hts.breaks hf
          have hfirst : Opening policy (some r) [.satisfied r (.ok false)] := .asked nofun
          exact ⟨i :: p, .beneath hfirst hfront ht hrest⟩
      | halted hs hcall hts hs' => cases hf
      | failed hs hcall hts hu hcall' =>
          rw [blamed_of_not_cancellation hf]
          exact ⟨[], .failed hts.completed⟩

/-- Visits to the nodes of a list break off at one of them. -/
theorem VisitAll.breaks : ∀ {ts : List (Tree R)} {above : Address} {s s' : σ}
    {cs : List (Returned R)} {f : Fault}, VisitAll w P policy above ts s cs (.error f) s' →
    f.isCancellation = false →
    ∃ i t p front rest, ts[i]? = some t ∧ CompletedAll policy (ts.take i) front ∧
      Breaks policy above t p rest f ∧ cs = front ++ rest
  | [], above, s, s', cs, f, h, hf => by cases h
  | t :: ts, above, s, s', cs, f, h, hf => by
      cases h with
      | fails ht =>
          obtain ⟨p, hp⟩ := ht.breaks hf
          exact ⟨0, t, p, [], cs, rfl, .nil, hp, rfl⟩
      | @cons _ _ _ _ _ _ first _ _ others _ ht hts hresult =>
          cases others with
          | ok others => cases hresult
          | error f' =>
              cases hresult
              obtain ⟨i, u, p, front, rest, hu, hfront, hrest, rfl⟩ := hts.breaks hf
              exact ⟨i + 1, u, p, first ++ front, rest, hu, .cons ht.completed hfront, hrest,
                (List.append_assoc ..).symm⟩

end

/-! ## What has been called by then -/

section Places

variable {above : Address} {cs : List (Returned (Place × R))} {f : Fault}

mutual

/-- The calls of a completed visit are made at the node and beneath it. -/
theorem Completed.exists_place : ∀ {t : Tree R} {p : Place} {cs : List (Returned (Place × R))},
    Completed policy (t.placedAt p) cs → ∀ c ∈ cs, ∃ q, c.place = p ++ q
  | node name none ts, p, cs, h, c, hc => by
      rw [placedAt_node, Option.map_none] at h
      cases h with
      | bare hts =>
          obtain ⟨j, q, -, hplace⟩ := hts.exists_place c hc
          exact ⟨j :: q, by rw [hplace, Nat.zero_add]⟩
  | node name (some r) ts, p, cs, h, c, hc => by
      rw [placedAt_node, Option.map_some] at h
      have hself : ∃ q, p = p ++ q := ⟨[], (List.append_nil p).symm⟩
      cases h with
      | rest hpolicy =>
          obtain rfl := List.mem_singleton.mp hc
          exact hself
      | pass hpolicy hts =>
          rcases List.mem_cons.mp hc with rfl | hc
          · exact hself
          · obtain ⟨j, q, -, hplace⟩ := hts.exists_place c hc
            exact ⟨j :: q, by rw [hplace, Nat.zero_add]⟩
      | worked hts =>
          rcases List.mem_cons.mp hc with rfl | hc
          · exact hself
          rcases List.mem_append.mp hc with hc | hc
          · obtain ⟨j, q, -, hplace⟩ := hts.exists_place c hc
            exact ⟨j :: q, by rw [hplace, Nat.zero_add]⟩
          · obtain rfl := List.mem_singleton.mp hc
            exact hself

theorem CompletedAll.exists_place : ∀ {ts : List (Tree R)} {p : Place} {i : Nat}
    {cs : List (Returned (Place × R))}, CompletedAll policy (placedAll p i ts) cs →
    ∀ c ∈ cs, ∃ j q, j < ts.length ∧ c.place = p ++ (i + j) :: q
  | [], p, i, cs, h, c, hc => by
      rw [placedAll_nil] at h
      cases h with
      | nil => cases hc
  | t :: ts, p, i, cs, h, c, hc => by
      rw [placedAll_cons] at h
      cases h with
      | cons ht hts =>
          rcases List.mem_append.mp hc with hc | hc
          · obtain ⟨q, hplace⟩ := ht.exists_place c hc
            exact ⟨0, q, Nat.succ_pos _, by simp [hplace]⟩
          · obtain ⟨j, q, hj, hplace⟩ := hts.exists_place c hc
            exact ⟨j + 1, q, Nat.succ_lt_succ hj, by
              rw [hplace, Nat.add_right_comm, Nat.add_assoc]⟩

end

theorem not_prefix_of_ne {p : Place} {i j : Nat} (h : i ≠ j) (x y : Place) :
    ¬ p ++ i :: x <+: p ++ j :: y := by
  rw [List.prefix_append_right_inj, List.cons_prefix_cons]
  exact fun hprefix => h hprefix.1

theorem not_prefix_self (p : Place) (i : Nat) (q : Place) : ¬ p ++ i :: q <+: p :=
  fun h => absurd (lt_of_beneath p i q) h.le

/-- The calls on the node at a place and on those beneath it. -/
def callsUnder (p : Place) (cs : List (Returned (Place × R))) : List (Returned (Place × R)) :=
  cs.filter fun c => p.isPrefixOf c.place

theorem callsUnder_append (p : Place) (cs ds : List (Returned (Place × R))) :
    callsUnder p (cs ++ ds) = callsUnder p cs ++ callsUnder p ds := List.filter_append ..

theorem callsUnder_eq_self {p : Place} (h : ∀ c ∈ cs, ∃ q, c.place = p ++ q) :
    callsUnder p cs = cs := by
  refine List.filter_eq_self.mpr fun c hc => ?_
  obtain ⟨q, hplace⟩ := h c hc
  rw [hplace, List.isPrefixOf_iff_prefix]
  exact List.prefix_append p q

theorem callsUnder_eq_nil {p : Place} (h : ∀ c ∈ cs, ¬ p <+: c.place) : callsUnder p cs = [] := by
  refine List.filter_eq_nil_iff.mpr fun c hc => ?_
  rw [List.isPrefixOf_iff_prefix]
  exact h c hc

/-- Of the calls of completed visits to children, those under one child complete the visit to it. -/
theorem CompletedAll.completed_under : ∀ {ts : List (Tree R)} {p : Place} {i j : Nat} {u : Tree R}
    {cs : List (Returned (Place × R))}, CompletedAll policy (placedAll p i ts) cs →
    ts[j]? = some u →
    Completed policy (u.placedAt (p ++ [i + j])) (callsUnder (p ++ [i + j]) cs)
  | [], p, i, j, u, cs, h, hu => nomatch hu
  | t :: ts, p, i, j, u, cs, h, hu => by
      rw [placedAll_cons] at h
      cases h with
      | @cons _ _ xs ys ht hts =>
          rw [callsUnder_append]
          cases j with
          | zero =>
              obtain rfl := Option.some.inj hu
              have hys : callsUnder (p ++ [i]) ys = [] := by
                refine callsUnder_eq_nil fun c hc => ?_
                obtain ⟨j, q, -, hplace⟩ := hts.exists_place c hc
                rw [hplace]
                exact not_prefix_of_ne (by omega) [] q
              rw [Nat.add_zero, callsUnder_eq_self ht.exists_place, hys, List.append_nil]
              exact ht
          | succ j =>
              have hxs : callsUnder (p ++ [i + (j + 1)]) xs = [] := by
                refine callsUnder_eq_nil fun c hc => ?_
                obtain ⟨q, hplace⟩ := ht.exists_place c hc
                rw [hplace, List.append_assoc]
                exact not_prefix_of_ne (by omega) [] q
              rw [hxs, List.nil_append, ← Nat.succ_add_eq_add_succ]
              exact hts.completed_under hu

/-- Where a call is made, seen from the place at which a visit breaks off with a fault. -/
inductive Reached (n : Place) (f : Fault) (c : Returned (Place × R)) : Prop
  /-- At the place itself, or above it, where nothing has been worked on. -/
  | above (hplace : c.place <+: n) (hcall : c.call = .apply → c.place = n)
  /-- To the left of it. -/
  | left {a i j x y} (hij : i < j) (hplace : c.place = a ++ i :: x) (hn : n = a ++ j :: y)
  /-- Beneath it, if the fault is that the work there failed. -/
  | beneath {here cause} (hplace : n <+: c.place) (hf : f = .apply here cause)

namespace Reached

variable {n : Place} {c : Returned (Place × R)}

/-- What lies above the place has not been worked on. -/
theorem not_above (h : Reached n f c) (hcall : c.call = .apply) (i : Nat) (q : Place) :
    n ≠ c.place ++ i :: q := by
  intro hn
  cases h with
  | above hplace hown =>
      have hlength := congrArg List.length (hn.symm.trans (hown hcall).symm)
      rw [List.length_append, List.length_cons] at hlength
      omega
  | left hij hplace hn' =>
      have hprefix : c.place <+: n := ⟨i :: q, hn.symm⟩
      rw [hplace, hn'] at hprefix
      exact not_prefix_of_ne (Nat.ne_of_lt hij) _ _ hprefix
  | beneath hplace hf =>
      have hlength := hplace.length_le
      rw [hn, List.length_append, List.length_cons] at hlength
      omega

/-- What comes after the place in pre-order lies beneath it. -/
theorem prefix_of_lt (h : Reached n f c) (hlt : n < c.place) : n <+: c.place := by
  cases h with
  | above hplace hcall => exact absurd hlt (hplace.le)
  | left hij hplace hn =>
      rw [hplace, hn] at hlt
      exact absurd hlt (List.lt_asymm (lt_of_left _ hij _ _))
  | beneath hplace hf => exact hplace

/-- Nothing beneath the place has been called if it was only asked about. -/
theorem not_beneath (h : Reached n f c) {here : Address} {cause : Failure}
    (hf : f = .satisfied here cause) (i : Nat) (q : Place) : c.place ≠ n ++ i :: q := by
  intro hplace
  have hlt : n < c.place := by
    rw [hplace]
    exact lt_of_beneath n i q
  cases h with
  | above hprefix hcall => exact absurd hlt hprefix.le
  | left hij hplace' hn =>
      rw [hplace', hn] at hlt
      exact absurd hlt (List.lt_asymm (lt_of_left _ hij _ _))
  | beneath hprefix hf' => cases hf.symm.trans hf'

end Reached

theorem take_placedAll (p : Place) (ts : List (Tree R)) (i k : Nat) :
    (placedAll p i ts).take k = placedAll p i (ts.take k) := by
  induction ts generalizing i k with
  | nil => rw [placedAll_nil, List.take_nil, List.take_nil, placedAll_nil]
  | cons t ts ih =>
      cases k with
      | zero => rw [List.take_zero, List.take_zero, placedAll_nil]
      | succ k => rw [placedAll_cons, List.take_succ_cons, List.take_succ_cons, placedAll_cons, ih]

namespace Breaks

variable {t : Tree R} {q p : Place} {i : Nat}

/-- Over a labelled tree: at the place itself a call fails. -/
theorem cases_nil (h : Breaks policy above (t.placedAt q) [] cs f) :
    ∃ name r ts, t = node name (some r) ts ∧
      ((∃ cause, cs = [.satisfied (q, r) (.error cause)] ∧
          f = .satisfied (above.child name) cause) ∨
        ∃ inner cause, CompletedAll policy (placedAll q 0 ts) inner ∧
          cs = .satisfied (q, r) (.ok false) :: (inner ++ [.apply (q, r) (.error cause)]) ∧
          f = .apply (above.child name) cause) := by
  obtain ⟨name, r, ts⟩ := t
  rw [placedAt_node] at h
  cases r with
  | none => cases h
  | some r =>
      refine ⟨name, r, ts, rfl, ?_⟩
      cases h with
      | unknown => exact .inl ⟨_, rfl, rfl⟩
      | failed hts => exact .inr ⟨_, _, hts, rfl, rfl⟩

/-- On the way to it, a node is asked about, and its children are visited up to the next one. -/
theorem cases_cons (h : Breaks policy above (t.placedAt q) (i :: p) cs f) :
    ∃ name r ts u first front rest, t = node name r ts ∧ ts[i]? = some u ∧
      cs = first ++ (front ++ rest) ∧ (∀ c ∈ first, c.place = q ∧ c.call = .satisfied) ∧
      CompletedAll policy (placedAll q 0 (ts.take i)) front ∧
      Breaks policy (above.child name) (u.placedAt (q ++ [i])) p rest f := by
  obtain ⟨name, r, ts⟩ := t
  rw [placedAt_node] at h
  generalize hr : r.map (q, ·) = labelled at h
  cases h with
  | @beneath _ _ _ _ _ _ _ first front rest _ hfirst hfront ht h =>
      rw [getElem?_placedAll, Nat.zero_add, Option.map_eq_some_iff] at ht
      obtain ⟨u, hu, rfl⟩ := ht
      rw [take_placedAll] at hfront
      refine ⟨name, r, ts, u, first, front, rest, rfl, hu, rfl, fun c hc => ?_, hfront, h⟩
      cases hfirst with
      | bare => cases hc
      | asked hpolicy =>
          obtain ⟨r, rfl, rfl⟩ := Option.map_eq_some_iff.mp hr
          obtain rfl := List.mem_singleton.mp hc
          exact ⟨rfl, rfl⟩

/-- The calls are made at the root and beneath it. -/
theorem exists_place (h : Breaks policy above (t.placedAt q) p cs f) :
    ∀ c ∈ cs, ∃ x, c.place = q ++ x := by
  induction p generalizing t q above cs with
  | nil =>
      intro c hc
      obtain ⟨name, r, ts, rfl, ⟨cause, rfl, rfl⟩ | ⟨inner, cause, hinner, rfl, rfl⟩⟩ := h.cases_nil
      · obtain rfl := List.mem_singleton.mp hc
        exact ⟨[], (List.append_nil q).symm⟩
      · rcases List.mem_cons.mp hc with rfl | hc
        · exact ⟨[], (List.append_nil q).symm⟩
        rcases List.mem_append.mp hc with hc | hc
        · obtain ⟨j, x, -, hplace⟩ := hinner.exists_place c hc
          exact ⟨_, hplace⟩
        · obtain rfl := List.mem_singleton.mp hc
          exact ⟨[], (List.append_nil q).symm⟩
  | cons i p ih =>
      intro c hc
      obtain ⟨name, r, ts, u, first, front, rest, rfl, hu, rfl, hfirst, hfront, hrest⟩ :=
        h.cases_cons
      rcases List.mem_append.mp hc with hc | hc
      · exact ⟨[], by rw [(hfirst c hc).1, List.append_nil]⟩
      rcases List.mem_append.mp hc with hc | hc
      · obtain ⟨j, x, -, hplace⟩ := hfront.exists_place c hc
        exact ⟨_, hplace⟩
      · obtain ⟨x, hplace⟩ := ih hrest c hc
        exact ⟨i :: x, by rw [hplace, List.append_assoc]; rfl⟩

/-- Wherever a call has been made, it is above the place, to the left of it or beneath it. -/
theorem reached (h : Breaks policy above (t.placedAt q) p cs f) :
    ∀ c ∈ cs, Reached (q ++ p) f c := by
  induction p generalizing t q above cs with
  | nil =>
      rw [List.append_nil]
      intro c hc
      obtain ⟨name, r, ts, rfl, ⟨cause, rfl, rfl⟩ | ⟨inner, cause, hinner, rfl, rfl⟩⟩ := h.cases_nil
      · obtain rfl := List.mem_singleton.mp hc
        exact .above (List.prefix_refl q) fun _ => rfl
      · rcases List.mem_cons.mp hc with rfl | hc
        · exact .above (List.prefix_refl q) fun _ => rfl
        rcases List.mem_append.mp hc with hc | hc
        · obtain ⟨j, x, -, hplace⟩ := hinner.exists_place c hc
          exact .beneath (hplace ▸ List.prefix_append q _) rfl
        · obtain rfl := List.mem_singleton.mp hc
          exact .above (List.prefix_refl q) fun _ => rfl
  | cons i p ih =>
      intro c hc
      obtain ⟨name, r, ts, u, first, front, rest, rfl, hu, rfl, hfirst, hfront, hrest⟩ :=
        h.cases_cons
      rcases List.mem_append.mp hc with hc | hc
      · obtain ⟨hplace, hcall⟩ := hfirst c hc
        refine .above (hplace ▸ List.prefix_append q _) fun happly => ?_
        cases hcall.symm.trans happly
      rcases List.mem_append.mp hc with hc | hc
      · obtain ⟨j, x, hj, hplace⟩ := hfront.exists_place c hc
        rw [List.length_take] at hj
        exact .left (by omega) hplace rfl
      · have hreached := ih hrest c hc
        rwa [List.append_assoc] at hreached

/-- The last call is made at the place, and it fails as the fault says. -/
theorem exists_last (h : Breaks policy above (t.placedAt q) p cs f) :
    ∃ name r ts before c, t.at? p = some (node name (some r) ts) ∧ cs = before ++ [c] ∧
      c.resource = (q ++ p, r) ∧
      f.Reports ⟨above.names ++ (t.addressOf p).names⟩ c := by
  induction p generalizing t q above cs with
  | nil =>
      obtain ⟨name, r, ts, rfl, ⟨cause, rfl, rfl⟩ | ⟨inner, cause, hinner, rfl, rfl⟩⟩ := h.cases_nil
      · refine ⟨name, r, ts, [], _, at?_nil _, rfl, ?_, cause, rfl, ?_⟩
        · rw [List.append_nil]; rfl
        · rw [addressOf_nil]; rfl
      · refine ⟨name, r, ts, _ :: inner, _, at?_nil _, rfl, ?_, cause, rfl, ?_⟩
        · rw [List.append_nil]; rfl
        · rw [addressOf_nil]; rfl
  | cons i p ih =>
      obtain ⟨name, r, ts, u, first, front, rest, rfl, hu, rfl, hfirst, hfront, hrest⟩ :=
        h.cases_cons
      obtain ⟨name', r', ts', before, c, hat, rfl, hresource, hreports⟩ := ih hrest
      refine ⟨name', r', ts', first ++ (front ++ before), c, ?_, ?_, ?_, ?_⟩
      · rw [at?_cons, children, hu]
        exact hat
      · simp
      · rw [hresource, List.append_assoc]
        rfl
      · rw [addressOf_cons hu]
        rwa [Address.names_child, List.append_assoc] at hreports

/-- The visits to all children to the left have been completed. -/
theorem completed (h : Breaks policy above (t.placedAt q) p cs f) {a x : Place} {i j : Nat}
    (hp : p = a ++ j :: x) (hij : i < j) :
    ∃ u, t.at? (a ++ [i]) = some u ∧
      Completed policy (u.placedAt (q ++ (a ++ [i]))) (callsUnder (q ++ (a ++ [i])) cs) := by
  induction a generalizing t q above cs p with
  | nil =>
      subst hp
      obtain ⟨name, r, ts, u, first, front, rest, rfl, hu, rfl, hfirst, hfront, hrest⟩ :=
        h.cases_cons
      have hlt : j < ts.length := (List.getElem?_eq_some_iff.mp hu).1
      have hv : (ts.take j)[i]? = some ts[i] := by
        rw [List.getElem?_take_of_lt hij, List.getElem?_eq_getElem (by omega)]
      refine ⟨ts[i], ?_, ?_⟩
      · rw [List.nil_append, at?_cons, children, List.getElem?_eq_getElem (by omega)]
        rfl
      · have hfirst' : callsUnder (q ++ [i]) first = [] := by
          refine callsUnder_eq_nil fun c hc => ?_
          rw [(hfirst c hc).1]
          exact not_prefix_self q _ _
        have hrest' : callsUnder (q ++ [i]) rest = [] := by
          refine callsUnder_eq_nil fun c hc => ?_
          obtain ⟨y, hplace⟩ := hrest.exists_place c hc
          rw [hplace, List.append_assoc]
          exact not_prefix_of_ne (Nat.ne_of_lt hij) [] y
        have hdone := hfront.completed_under hv
        rw [Nat.zero_add] at hdone
        rw [List.nil_append, callsUnder_append, callsUnder_append, hfirst', hrest',
          List.nil_append, List.append_nil]
        exact hdone
  | cons k a ih =>
      subst hp
      obtain ⟨name, r, ts, u, first, front, rest, rfl, hu, rfl, hfirst, hfront, hrest⟩ :=
        h.cases_cons
      obtain ⟨v, hv, hdone⟩ := ih hrest rfl
      refine ⟨v, ?_, ?_⟩
      · rw [List.cons_append, at?_cons, children, hu]
        exact hv
      · have hfirst' : callsUnder (q ++ (k :: a ++ [i])) first = [] := by
          refine callsUnder_eq_nil fun c hc => ?_
          rw [(hfirst c hc).1]
          exact not_prefix_self q _ _
        have hfront' : callsUnder (q ++ (k :: a ++ [i])) front = [] := by
          refine callsUnder_eq_nil fun c hc => ?_
          obtain ⟨y, z, hy, hplace⟩ := hfront.exists_place c hc
          rw [List.length_take] at hy
          rw [hplace]
          exact not_prefix_of_ne (by omega) _ z
        rw [callsUnder_append, callsUnder_append, hfirst', hfront']
        simpa using hdone

end Breaks

end Places

/-! ## The whole walk -/

/-- A walk over a tree that fails, and not because of a cancellation, fails at one node:

* the last call is made on it, and fails as the fault says, and all calls before it succeeded;
* no node properly above it has been worked on;
* no call has been made on a node that comes after it in pre-order, but for those beneath it;
* nor on those beneath it, if it could not be found out whether its resource is as declared;
* the visits to its earlier siblings, and to those of the nodes above it, have been completed. -/
theorem converge_fails_fast (P : Provider Q A R) (policy : Policy) {w : World Q A σ} {t : Tree R}
    {s s' : σ} {f : Fault} {cs : List (Returned (Place × R))}
    (h : t.Charted w P policy s (.error f) cs s') (hf : f.isCancellation = false) :
    ∃ n name r ts before c,
      t.at? n = some (node name (some r) ts) ∧
      cs = before ++ [c] ∧ c.resource = (n, r) ∧ f.Reports (t.addressOf n) c ∧
      (∀ d ∈ before, d.isFailure = false) ∧
      (∀ d ∈ cs, d.call = .apply → ∀ i q, n ≠ d.place ++ i :: q) ∧
      (n ∈ t.places ∧ ∀ left right, t.places = left ++ n :: right →
        ∀ d ∈ cs, d.place ∈ right → n <+: d.place) ∧
      (∀ here cause, f = .satisfied here cause → ∀ d ∈ cs, ∀ i q, d.place ≠ n ++ i :: q) ∧
      ∀ a i j x, n = a ++ j :: x → i < j → ∃ u, t.at? (a ++ [i]) = some u ∧
        Completed policy (u.placedAt (a ++ [i])) (callsUnder (a ++ [i]) cs) := by
  have hvisit := charted_iff.mp h
  obtain ⟨n, hbreaks⟩ := hvisit.breaks hf
  obtain ⟨name, r, ts, before, c, hat, rfl, hresource, hreports⟩ := hbreaks.exists_last
  have hreached := hbreaks.reached
  refine ⟨n, name, r, ts, before, c, hat, rfl, hresource, hreports, ?success, ?above, ?order,
    ?beneath, ?completed⟩
  case success =>
    have hended := hvisit.ended
    rw [hended.not_cancelled_of_failure hf] at hended
    obtain ⟨front, d, k₁, k₂, here, heq, hafter, -⟩ := hended.exists_failed
    obtain ⟨rfl, -⟩ := List.append_inj' heq rfl
    exact hafter.not_failure
  case above => exact fun d hd hcall i q => (hreached d hd).not_above hcall i q
  case order =>
    refine ⟨(mem_placesAt t).mpr ⟨n, _, rfl, hat⟩, fun left right hplaces d hd hright => ?_⟩
    have hsorted : t.places.Pairwise (· < ·) := pairwise_placesAt t []
    rw [hplaces, List.pairwise_append, List.pairwise_cons] at hsorted
    exact (hreached d hd).prefix_of_lt (hsorted.2.1.1 _ hright)
  case beneath => exact fun here cause hcause d hd => (hreached d hd).not_beneath hcause
  case completed => exact fun a i j x hn hij => hbreaks.completed hn hij

end Tree

/-! ## A mill -/

namespace Rehearsal

/-- A mill that stands on its dam and its works; of the works, the stone breaks. -/
def mill : Tree Actor :=
  .node "mill" (some (.plain "mill" 0))
    [.node "dam" (some (.plain "dam" 1)) [],
      .node "works" none
        [.node "axle" (some (.plain "axle" 2)) [],
          .node "stone" (some { Actor.plain "stone" 3 with failApply := some (.of "it broke") }) [],
          .node "chute" (some (.plain "chute" 4)) []]]

/-- The mill is never worked on, but the dam and the axle are; the chute is not even looked at. -/
theorem converge_fails_fast_of_mill : ∃ f cs s',
    mill.Charted stage.alone company .skipSubtree curtain (.error f) cs s' ∧
    f.isCancellation = false ∧ f = .apply ⟨["mill", "works", "stone"]⟩ (.of "it broke") ∧
    (∀ d ∈ cs, d.call = .apply → d.place ≠ []) ∧
    (∀ d ∈ cs, d.place ≠ [1, 2]) ∧
    ∃ u, mill.at? [0] = some u ∧
      Tree.Completed .skipSubtree (u.placedAt [0]) (Tree.callsUnder [0] cs) := by
  obtain ⟨result, cs, s', hcharted⟩ :=
    Tree.exists_charted stage.alone company .skipSubtree mill curtain
  have hresult : ((mill.converge company .skipSubtree).run stage.alone curtain).1 =
      .error (.apply ⟨["mill", "works", "stone"]⟩ (.of "it broke")) := rfl
  obtain ⟨steps, -, hrun, -⟩ := id hcharted
  rw [hrun] at hresult
  obtain rfl : result = _ := hresult
  obtain ⟨n, name, r, ts, before, c, -, -, -, hreports, -, habove, ⟨hmem, horder⟩, -, hcompleted⟩ :=
    Tree.converge_fails_fast company .skipSubtree hcharted rfl
  obtain rfl : n = [1, 1] := by
    have haddress : mill.addressOf n = ⟨["mill", "works", "stone"]⟩ := by
      cases c with
      | satisfied r answer => obtain ⟨cause, -, hcause⟩ := hreports; cases hcause
      | apply r answer =>
          obtain ⟨cause, -, hcause⟩ := hreports
          injection hcause with here
          exact here.symm
    have hunique : ∀ p ∈ mill.places,
        mill.addressOf p = ⟨["mill", "works", "stone"]⟩ → p = [1, 1] := by decide
    exact hunique n hmem haddress
  have hplaces : mill.places = [[], [0], [1], [1, 0]] ++ [1, 1] :: [[1, 2]] := rfl
  refine ⟨_, cs, s', hcharted, rfl, rfl, fun d hd hcall hroot => ?_, fun d hd hchute => ?_,
    hcompleted [] 0 1 [1] rfl (by decide)⟩
  · exact habove d hd hcall 1 [1] (by rw [hroot]; rfl)
  · have hprefix := horder _ _ hplaces d hd (by rw [hchute]; decide)
    rw [hchute] at hprefix
    exact absurd hprefix (by decide)

end Rehearsal

end Converge
