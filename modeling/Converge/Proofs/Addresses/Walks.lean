import Converge.Fault
import Converge.Proofs.Trace
import Converge.Proofs.Visit.Places

/-!
# Where a walk stops

A walk over a tree does something at a node, goes over its children one after the other, and may do
something more at the node.  What goes wrong goes wrong at one place, and the fault that the walk
ends with has the address of that place: the names of the nodes on the way there from the root,
whatever has been visited before.  This is shown here for any walk that goes about it in this way.
-/

namespace Converge

variable {Q : Type} {A : Q → Type} {R N κ α β : Type}

/-! ## Addresses and places -/

/-- The names of the nodes from the root down to the one at place `p`, if it is known what name the
node at each place has. -/
def Address.along (nameAt? : Place → Option String) (p : Place) : Address :=
  ⟨(List.range (p.length + 1)).filterMap fun k => nameAt? (p.take k)⟩

namespace Address

variable {f : Place → Option String}

theorem along_nil (f : Place → Option String) : along f [] = ⟨(f []).toList⟩ := by
  simp only [along, List.length_nil, Nat.zero_add, List.range_one, List.take_nil]
  cases f [] <;> rfl

theorem names_along_cons (f : Place → Option String) (i : Nat) (p : Place) :
    (along f (i :: p)).names = (f []).toList ++ (along (fun q => f (i :: q)) p).names := by
  rw [along, List.length_cons, List.range_succ_eq_map, List.filterMap_cons, List.filterMap_map]
  cases h : f [] <;> simp [h, along, Function.comp_def]

/-- There is one name for each node on the way. -/
theorem map_some_names_along {p : Place} (h : ∀ k ≤ p.length, (f (p.take k)).isSome = true) :
    (along f p).names.map some = (List.range (p.length + 1)).map fun k => f (p.take k) := by
  rw [along, List.map_filterMap_some_eq_filter_map_isSome, List.filter_eq_self]
  intro x hx
  obtain ⟨k, hk, rfl⟩ := List.mem_map.mp hx
  exact h k (Nat.lt_succ_iff.mp (List.mem_range.mp hk))

theorem length_along {p : Place} (h : ∀ k ≤ p.length, (f (p.take k)).isSome = true) :
    (along f p).length = p.length + 1 := by
  rw [length, ← List.length_map some, map_some_names_along h, List.length_map, List.length_range]

theorem getElem?_along {p : Place} (h : ∀ k ≤ p.length, (f (p.take k)).isSome = true) {k : Nat}
    (hk : k ≤ p.length) : (along f p).names[k]? = f (p.take k) := by
  have hnames := congrArg (fun l => l[k]?) (map_some_names_along h)
  rw [List.getElem?_map, List.getElem?_map, List.getElem?_range (Nat.lt_succ_of_le hk),
    Option.map_some] at hnames
  obtain ⟨name, hname, heq⟩ := Option.map_eq_some_iff.mp hnames
  rw [hname, heq]

end Address

/-! ## Troubles -/

/-- What a walk stops for at a node. -/
inductive Trouble where
  | validation (cause : Failure)
  | children (cause : Failure)
  | satisfied (cause : Failure)
  | apply (cause : Failure)
  | cancelled
deriving DecidableEq, Repr

namespace Trouble

/-- The fault that a trouble amounts to at the node of this address. -/
def fault (here : Address) : Trouble → Fault
  | validation cause => .validation here cause
  | children cause => .children here cause
  | satisfied cause => .satisfied here cause
  | apply cause => .apply here cause
  | cancelled => .cancelled here

@[simp] theorem address?_fault (here : Address) (c : Trouble) :
    (c.fault here).address? = some here := by
  cases c <;> rfl

/-- What is made of a trouble when a look after it finds a cancellation, or finds none. -/
def seen (c : Trouble) (isCancelled : Bool) : Trouble := if isCancelled then .cancelled else c

end Trouble

/-! ## Walks in general -/

/-- A walk over nodes of type `N`, and what it does at a node. -/
structure Walk (Q : Type) (A : Q → Type) (R N κ α β : Type) where
  name : N → String
  children : N → List N
  /-- The walk over a node that hangs below an address. -/
  one : Address → N → Course Q A R (Except Fault α)
  /-- The walk over several nodes, one after the other. -/
  all : Address → List N → Course Q A R (Except Fault β)
  /-- A node is entered by this trace, and something is found out by that. -/
  enters : N → List (Moment Q A R) → κ → Prop
  /-- Entering a node comes to an end by this trace. -/
  stops : N → List (Moment Q A R) → Trouble → Prop
  /-- The children that are gone to, after what has been found out. -/
  beneath : N → κ → List N
  /-- When the children are done, the walk comes to an end at the node by this trace. -/
  breaks : N → κ → List (Moment Q A R) → Trouble → Prop

namespace Walk

variable (W : Walk Q A R N κ α β)

/-- The name of the node at a place below another one. -/
def nameAt? : N → Place → Option String
  | n, [] => some (W.name n)
  | n, i :: p => (W.children n)[i]?.bind fun m => nameAt? m p

/-- The address of the node at place `p` below a node that hangs below `above`. -/
def addressOf (above : Address) (n : N) (p : Place) : Address :=
  ⟨above.names ++ (Address.along (W.nameAt? n) p).names⟩

/-- The walk over a node comes to an end by this trace at place `p` below it: at the node itself, or
beneath it after the children before that one are done. -/
inductive StopsAt : Address → N → Place → List (Moment Q A R) → Trouble → Prop
  | stops {above n trace c} (hc : W.stops n trace c) : StopsAt above n [] trace c
  | breaks {above n entry below outer k b c} (hk : W.enters n entry k)
      (hbelow : (W.all (above.child (W.name n)) (W.beneath n k)).Leads below (.ok b))
      (hc : W.breaks n k outer c) : StopsAt above n [] (entry ++ (below ++ outer)) c
  | beneath {above n entry earlier rest k i m p b c} (hk : W.enters n entry k)
      (hm : (W.beneath n k)[i]? = some m)
      (hearlier : (W.all (above.child (W.name n)) ((W.beneath n k).take i)).Leads earlier (.ok b))
      (hrest : StopsAt (above.child (W.name n)) m p rest c) :
      StopsAt above n (i :: p) (entry ++ (earlier ++ rest)) c

/-- The walk goes over its nodes as it should. -/
structure Lawful [SizeOf N] : Prop where
  all_nil : ∀ above, ∃ b, W.all above [] = .done (.ok b)
  all_cons : ∀ above n ns, ∃ g : α → β → β, W.all above (n :: ns) =
    (W.one above n).andThen fun a => (W.all above ns).andThen fun b => .done (.ok (g a b))
  one_error : ∀ above n trace f, (W.one above n).Leads trace (.error f) ↔
    (∃ c, W.stops n trace c ∧ f = c.fault (above.child (W.name n))) ∨
    ∃ entry rest k, trace = entry ++ rest ∧ W.enters n entry k ∧
      ((W.all (above.child (W.name n)) (W.beneath n k)).Leads rest (.error f) ∨
        ∃ below outer b c, rest = below ++ outer ∧
          (W.all (above.child (W.name n)) (W.beneath n k)).Leads below (.ok b) ∧
          W.breaks n k outer c ∧ f = c.fault (above.child (W.name n)))
  beneath : ∀ n k, W.beneath n k = W.children n ∨ W.beneath n k = []
  smaller : ∀ n, ∀ m ∈ W.children n, sizeOf m < sizeOf n

variable {W} {above : Address} {n m : N} {p : Place} {trace : List (Moment Q A R)} {c : Trouble}
  {f : Fault}

theorem addressOf_nil (above : Address) (n : N) :
    W.addressOf above n [] = above.child (W.name n) := by
  rw [addressOf, Address.along_nil]
  rfl

theorem addressOf_cons {i : Nat} (hm : (W.children n)[i]? = some m) (above : Address) (p : Place) :
    W.addressOf above n (i :: p) = W.addressOf (above.child (W.name n)) m p := by
  have hbelow : (fun q => W.nameAt? n (i :: q)) = W.nameAt? m := by
    funext q
    rw [nameAt?, hm, Option.bind_some]
  rw [addressOf, addressOf, Address.names_along_cons, hbelow, Address.names_child,
    List.append_assoc]
  rfl

namespace Lawful

variable [SizeOf N] (L : W.Lawful)
include L

/-- A walk over nothing does nothing. -/
theorem leads_nil_ok : (∃ b, (W.all above []).Leads trace (.ok b)) ↔ trace = [] := by
  obtain ⟨b, hnil⟩ := L.all_nil above
  simp [hnil]

theorem not_leads_nil_error : ¬ (W.all above []).Leads trace (.error f) := by
  obtain ⟨b, hnil⟩ := L.all_nil above
  simp [hnil]

theorem leads_cons_ok {ns : List N} :
    (∃ b, (W.all above (n :: ns)).Leads trace (.ok b)) ↔
      ∃ first rest a, trace = first ++ rest ∧ (W.one above n).Leads first (.ok a) ∧
        ∃ b, (W.all above ns).Leads rest (.ok b) := by
  obtain ⟨g, hcons⟩ := L.all_cons above n ns
  simp only [hcons, Course.leads_andThen_ok, Course.leads_done]
  constructor
  · rintro ⟨_, first, _, a, rfl, hone, rest, _, b, rfl, hrest, rfl, -⟩
    exact ⟨first, rest, a, by rw [List.append_nil], hone, b, hrest⟩
  · rintro ⟨first, rest, a, rfl, hone, b, hrest⟩
    exact ⟨g a b, first, rest, a, rfl, hone, rest, [], b, (List.append_nil _).symm, hrest, rfl, rfl⟩

theorem leads_cons_error {ns : List N} :
    (W.all above (n :: ns)).Leads trace (.error f) ↔ (W.one above n).Leads trace (.error f) ∨
      ∃ first rest a, trace = first ++ rest ∧ (W.one above n).Leads first (.ok a) ∧
        (W.all above ns).Leads rest (.error f) := by
  obtain ⟨g, hcons⟩ := L.all_cons above n ns
  simp [hcons, Course.leads_andThen_error]

/-- A walk over several nodes fails at the first of them that fails. -/
theorem all_error {ns : List N} :
    (W.all above ns).Leads trace (.error f) ↔
      ∃ i n earlier rest, ns[i]? = some n ∧ trace = earlier ++ rest ∧
        (∃ b, (W.all above (ns.take i)).Leads earlier (.ok b)) ∧
        (W.one above n).Leads rest (.error f) := by
  induction ns generalizing trace with
  | nil =>
      refine iff_of_false L.not_leads_nil_error ?_
      rintro ⟨_, _, _, _, hn, -⟩
      cases hn
  | cons n ns ih =>
      rw [L.leads_cons_error]
      constructor
      · rintro (hone | ⟨first, _, a, rfl, hone, hrest⟩)
        · exact ⟨0, n, [], trace, rfl, rfl, L.leads_nil_ok.mpr rfl, hone⟩
        · obtain ⟨i, m, earlier, rest, hm, rfl, hearlier, hrest⟩ := ih.mp hrest
          refine ⟨i + 1, m, first ++ earlier, rest, hm, (List.append_assoc ..).symm, ?_, hrest⟩
          exact L.leads_cons_ok.mpr ⟨first, earlier, a, rfl, hone, hearlier⟩
      · rintro ⟨_ | i, m, earlier, rest, hm, rfl, hearlier, hrest⟩
        · obtain rfl := Option.some.inj hm
          rw [L.leads_nil_ok.mp hearlier]
          exact .inl hrest
        · obtain ⟨first, earlier, a, rfl, hone, hearlier⟩ := L.leads_cons_ok.mp hearlier
          refine .inr ⟨first, earlier ++ rest, a, List.append_assoc .., hone, ?_⟩
          exact ih.mpr ⟨i, m, earlier, rest, hm, rfl, hearlier, hrest⟩

/-- What is gone to beneath a node is a child of it. -/
theorem child_of_beneath {n m : N} {k : κ} {i : Nat} (hm : (W.beneath n k)[i]? = some m) :
    (W.children n)[i]? = some m := by
  rcases L.beneath n k with heq | heq
  · rwa [heq] at hm
  · rw [heq] at hm
    cases hm

/-- Where a walk stops it fails, with the address of that place. -/
theorem error_of_stopsAt (h : W.StopsAt above n p trace c) :
    (W.one above n).Leads trace (.error (c.fault (W.addressOf above n p))) := by
  induction h with
  | stops hc =>
      rw [addressOf_nil, L.one_error]
      exact .inl ⟨_, hc, rfl⟩
  | breaks hk hbelow hc =>
      rw [addressOf_nil, L.one_error]
      exact .inr ⟨_, _, _, rfl, hk, .inr ⟨_, _, _, _, rfl, hbelow, hc, rfl⟩⟩
  | beneath hk hm hearlier _ ih =>
      rw [addressOf_cons (L.child_of_beneath hm), L.one_error]
      refine .inr ⟨_, _, _, rfl, hk, .inl ?_⟩
      exact L.all_error.mpr ⟨_, _, _, _, hm, rfl, ⟨_, hearlier⟩, ih⟩

/-- A walk that fails stops somewhere. -/
theorem exists_stopsAt (h : (W.one above n).Leads trace (.error f)) :
    ∃ p c, W.StopsAt above n p trace c ∧ f = c.fault (W.addressOf above n p) := by
  induction hn : sizeOf n using Nat.strongRecOn generalizing above n trace with
  | ind size ih =>
      subst hn
      rcases (L.one_error above n trace f).mp h with ⟨c, hc, rfl⟩ |
        ⟨entry, rest, k, rfl, hk, hbelow | ⟨below, outer, b, c, rfl, hbelow, hc, rfl⟩⟩
      · exact ⟨[], c, .stops hc, by rw [addressOf_nil]⟩
      · obtain ⟨i, m, earlier, rest, hm, rfl, ⟨b, hearlier⟩, hrest⟩ := L.all_error.mp hbelow
        have hchild := L.child_of_beneath hm
        obtain ⟨p, c, hstops, rfl⟩ :=
          ih _ (L.smaller n m (List.mem_of_getElem? hchild)) hrest rfl
        exact ⟨i :: p, c, .beneath hk hm hearlier hstops, by rw [addressOf_cons hchild]⟩
      · exact ⟨[], c, .breaks hk hbelow hc, by rw [addressOf_nil]⟩

/-- So a walk fails exactly where it stops, and says so. -/
theorem error_iff : (W.one above n).Leads trace (.error f) ↔
    ∃ p c, W.StopsAt above n p trace c ∧ f = c.fault (W.addressOf above n p) := by
  constructor
  · exact L.exists_stopsAt
  · rintro ⟨p, c, hstops, rfl⟩
    exact L.error_of_stopsAt hstops

/-- A walk stops at a place that there is. -/
theorem isSome_nameAt? (h : W.StopsAt above n p trace c) : (W.nameAt? n p).isSome = true := by
  induction h with
  | stops | breaks => rfl
  | beneath _ hm _ _ ih =>
      rw [nameAt?, L.child_of_beneath hm]
      exact ih

end Lawful

end Walk

end Converge
