import Converge.Proofs.Addresses.Building
import Converge.Proofs.Addresses.Passes
import Converge.Proofs.Building

/-!
# Addresses agree

A tree is built, validated and converged by three recursions of their own, each of which carries an
address along and puts it into the faults that it ends with.  All of them give a place the same
address: the names that the blueprint has on the way there.
-/

namespace Converge

variable {Q : Type} {A : Q → Type} {H R N κ α β δ σ : Type}

/-- What a course ends with by one of its traces is as every end of it is. -/
theorem Course.Meets.of_leads {c : Course Q A R α} {post : Unit → α → Prop}
    (h : c.Meets .free post ()) {trace : List (Moment Q A R)} {a : α} (ha : c.Leads trace a) :
    post () a := by
  induction c generalizing trace with
  | done b =>
      obtain ⟨-, rfl⟩ := ha
      exact h
  | ask q next ih =>
      obtain ⟨x, rest, -, ha⟩ := ha
      exact ih x (h.2 x) ha
  | look next ih =>
      obtain ⟨b, rest, -, ha⟩ := ha
      exact ih b (h b () rfl) ha
  | leave m next ih =>
      obtain ⟨rest, -, ha⟩ := ha
      exact ih h.2 ha

namespace Tree

variable {P : Provider Q A R} {policy : Policy} {t : Tree R} {trace : List (Moment Q A R)}
  {f : Fault}

theorem nameAt?_validating (t : Tree R) (p : Place) :
    (validating P).nameAt? t p = (t.at? p).map name := by
  induction p generalizing t with
  | nil => rw [at?_nil]; rfl
  | cons i p ih =>
      rw [at?_cons, Walk.nameAt?, Option.map_bind]
      exact congrArg _ (funext ih)

theorem nameAt?_converging (t : Tree R) (p : Place) :
    (converging P policy).nameAt? t p = (t.at? p).map name := by
  induction p generalizing t with
  | nil => rw [at?_nil]; rfl
  | cons i p ih =>
      rw [at?_cons, Walk.nameAt?, Option.map_bind]
      exact congrArg _ (funext ih)

/-- What is written down in the end makes no difference to a failure. -/
theorem leads_validate_error : (t.validate P).Leads trace (.error f) ↔
    (t.validateAt P .top).Leads trace (.error f) := by
  rw [validate, Course.leads_bind]
  constructor
  · rintro ⟨first, _, e | a, rfl, hfirst, hrest⟩
    · obtain ⟨rfl, heq⟩ := Course.leads_note.mp hrest
      rw [List.append_nil, heq]
      exact hfirst
    · cases hrest.2
  · exact fun h => ⟨trace, [], .error f, (List.append_nil _).symm, h,
      Course.leads_note.mpr ⟨rfl, rfl⟩⟩

theorem leads_converge_error : (t.converge P policy).Leads trace (.error f) ↔
    (t.convergeAt P policy .top).Leads trace (.error f) := by
  rw [converge, Course.leads_note, Course.leads_bind]
  have hconcluded : ∀ {rest : List (Moment Q A R)} {e : Fault},
      (concluded t.name (.error e) : Course Q A R _).Leads rest (.error f) ↔ rest = [] ∧ f = e := by
    intro rest e
    rw [concluded]
    split <;> simp
  constructor
  · rintro ⟨first, _, e | a, rfl, hfirst, hrest⟩
    · obtain ⟨rfl, rfl⟩ := hconcluded.mp hrest
      rwa [List.append_nil]
    · cases (Course.leads_note.mp hrest).2
  · exact fun h => ⟨trace, [], .error f, (List.append_nil _).symm, h, hconcluded.mpr ⟨rfl, rfl⟩⟩

end Tree

namespace Blueprint

variable {b : Blueprint H R} {trace : List (Moment (Hook H) Hook.Answer R)} {f : Fault}

theorem name_tree (b : Blueprint H R) : b.tree.name = b.name := by
  cases b
  rw [tree]
  rfl

theorem getElem?_trees (bs : List (Blueprint H R)) (i : Nat) :
    (trees bs)[i]? = bs[i]?.map tree := by
  induction bs generalizing i with
  | nil => rw [trees]; rfl
  | cons b bs ih =>
      rw [trees]
      cases i with
      | zero => rfl
      | succ i => exact ih i

/-- The tree has at each place what the blueprint declares there. -/
theorem at?_tree (b : Blueprint H R) (p : Place) : b.tree.at? p = (b.at? p).map tree := by
  induction p generalizing b with
  | nil => rw [Tree.at?_nil, at?]; rfl
  | cons i p ih =>
      obtain ⟨name, hooks, r, bs⟩ := b
      rw [tree, Tree.at?_cons, at?, Tree.children, getElem?_trees, Option.bind_map, Option.map_bind]
      exact congrArg _ (funext ih)

theorem nameAt?_building (b : Blueprint H R) (p : Place) :
    building.nameAt? b p = (b.at? p).map name := by
  induction p generalizing b with
  | nil => rw [at?]; rfl
  | cons i p ih =>
      rw [at?, Walk.nameAt?, Option.map_bind]
      exact congrArg _ (funext ih)

/-- The names from the root of a blueprint down to the node at a place. -/
def addressOf (b : Blueprint H R) (p : Place) : Address :=
  Address.along (fun q => (b.at? q).map name) p

/-- A node of the blueprint can be gone to step by step, and each step has a name. -/
theorem isSome_name_take {p : Place} {u : Blueprint H R} (h : b.at? p = some u) (k : Nat) :
    ((b.at? (p.take k)).map name).isSome = true := by
  have hplace : (b.tree.at? p).isSome = true := by
    rw [at?_tree, h, Option.map_some, Option.isSome_some]
  have hstep := Tree.isSome_at?_take hplace k
  rw [at?_tree, Option.isSome_map] at hstep
  rwa [Option.isSome_map]

/-- There is one name for each step, and that of the root. -/
theorem length_addressOf {p : Place} {u : Blueprint H R} (h : b.at? p = some u) :
    (b.addressOf p).length = p.length + 1 :=
  Address.length_along fun k _ => isSome_name_take h k

theorem getElem?_addressOf {p : Place} {u : Blueprint H R} (h : b.at? p = some u) {k : Nat}
    (hk : k ≤ p.length) : (b.addressOf p).names[k]? = (b.at? (p.take k)).map name :=
  Address.getElem?_along (fun k _ => isSome_name_take h k) hk

-- Neither names that are used again nor nodes to the left make a difference.
example :
    let leaf : Blueprint Unit Unit := node "leaf" () none []
    (node "top" () none [leaf, node "top" () none [leaf, leaf]]).addressOf [1, 0] =
      ⟨["top", "top", "leaf"]⟩ := rfl

theorem leads_build_error : b.build.Leads trace (.error f) ↔
    (b.buildAt .top).Leads trace (.error f) := by
  rw [build, Course.leads_andThen_error, or_iff_left]
  rintro ⟨_, _, _, _, _, hdone⟩
  cases (Course.leads_note.mp hdone).2

/-- The nodes of a walk have the names that a blueprint gives them. -/
theorem nameAt?_tree {W : Walk Q A R (Tree R) κ α β}
    (hW : ∀ p, W.nameAt? b.tree p = (b.tree.at? p).map Tree.name) (p : Place) :
    W.nameAt? b.tree p = (b.at? p).map name := by
  rw [hW, at?_tree, Option.map_map]
  exact congrArg (Option.map · (b.at? p)) (funext name_tree)

/-- A course over the nodes of the blueprint fails exactly where it stops, and the fault has the
address of that place. -/
def Locates (b : Blueprint H R) (c : Course Q A R (Except Fault α))
    (stopsAt : Place → List (Moment Q A R) → Trouble → Prop) : Prop :=
  ∀ trace f, c.Leads trace (.error f) ↔
    ∃ p u t, b.at? p = some u ∧ stopsAt p trace t ∧ f = t.fault (b.addressOf p)

/-- A lawful walk from the root locates what goes wrong. -/
theorem locates_of_lawful [SizeOf N] {W : Walk Q A R N κ α β} (L : W.Lawful) {n : N}
    (hname : ∀ p, W.nameAt? n p = (b.at? p).map name) {c : Course Q A R (Except Fault δ)}
    (hc : ∀ trace f, c.Leads trace (.error f) ↔ (W.one .top n).Leads trace (.error f)) :
    b.Locates c (W.StopsAt .top n) := by
  have haddress : W.addressOf .top n = b.addressOf := by
    funext p
    rw [Walk.addressOf, funext hname]
    rfl
  intro trace f
  rw [hc, L.error_iff, haddress]
  constructor
  · rintro ⟨p, t, hstops, rfl⟩
    have hplace := L.isSome_nameAt? hstops
    rw [hname, Option.isSome_map] at hplace
    obtain ⟨u, hu⟩ := Option.isSome_iff_exists.mp hplace
    exact ⟨p, u, t, hu, hstops, rfl⟩
  · rintro ⟨p, _, t, -, hstops, rfl⟩
    exact ⟨p, t, hstops, rfl⟩

/-- Building a tree, validating the tree that is built, and converging it, all fail exactly where
they stop, and the fault has the names from the root of the blueprint down to that very node: as
many as the node lies deep, and one more. -/
theorem addresses_agree (b : Blueprint H R) (P : Provider Q A R) (policy : Policy) :
    b.Locates b.build (building.StopsAt .top b) ∧
    (∀ trace t, b.build.Leads trace (.ok t) → t = b.tree) ∧
    b.Locates (b.tree.validate P) ((Tree.validating P).StopsAt .top b.tree) ∧
    b.Locates (b.tree.converge P policy) ((Tree.converging P policy).StopsAt .top b.tree) ∧
    (∀ t here, (Trouble.fault here t).address? = some here) ∧
    ∀ p u, b.at? p = some u → (b.addressOf p).length = p.length + 1 ∧
      ∀ k ≤ p.length, (b.addressOf p).names[k]? = (b.at? (p.take k)).map name := by
  refine ⟨?build, ?built, ?validate, ?converge, ?address, ?names⟩
  case build =>
    exact locates_of_lawful lawful_building (nameAt?_building b) fun _ _ => leads_build_error
  case built =>
    exact fun _ t h => Course.Meets.of_leads b.build_secures h t rfl
  case validate =>
    exact locates_of_lawful (Tree.lawful_validating P)
      (nameAt?_tree (Tree.nameAt?_validating b.tree)) fun _ _ => Tree.leads_validate_error
  case converge =>
    exact locates_of_lawful (Tree.lawful_converging P policy)
      (nameAt?_tree (Tree.nameAt?_converging b.tree)) fun _ _ => Tree.leads_converge_error
  case address => exact fun t here => t.address?_fault here
  case names => exact fun p u h => ⟨length_addressOf h, fun k hk => getElem?_addressOf h hk⟩

end Blueprint

end Converge
