import Converge.Proofs.Reference
import Converge.Registry
import Mathlib.Data.List.DropRight

/-!
# References that are put together

The reference of an image is its repository behind the registry prefix, with its tag.  Whether the
prefix is a host or a name already, what comes of it is a name, which is read again as it was put
together.
-/

namespace Converge

namespace Text

variable {α : Type} {p : α → Bool} {xs : List α} {x : α}

theorem dropTail_of_getLast? (h : ∀ y, xs.getLast? = some y → p y = false) :
    dropTail p xs = xs := by
  show xs.rdropWhile p = xs
  rw [List.rdropWhile_eq_self_iff]
  intro hne
  rw [h _ (List.getLast?_eq_some_getLast hne)]
  exact Bool.false_ne_true

theorem dropTail_append_replicate (hx : p x = true) (n : Nat) :
    dropTail p (xs ++ List.replicate n x) = dropTail p xs := by
  induction n with
  | zero => rw [List.replicate_zero, List.append_nil]
  | succ n ih =>
      rw [List.replicate_succ', ← List.append_assoc, ← ih]
      exact List.rdropWhile_concat_pos p _ x hx

end Text

namespace Reference

variable {cs ds : List Char}

/-! ## Names behind names -/

/-- What is made of items is in the end an item. -/
theorem Separated.exists_suffix {item sep : List Char → Prop} (h : Separated item sep cs) :
    ∃ xs, item xs ∧ xs <:+ cs := by
  induction h with
  | @last xs h => exact ⟨xs, h, List.suffix_rfl⟩
  | more _ _ _ ih =>
      obtain ⟨zs, hzs, hsuffix⟩ := ih
      exact ⟨zs, hzs, (hsuffix.trans (List.suffix_append _ _)).trans (List.suffix_append _ _)⟩

theorem Separated.append {item : List Char → Prop} {p : Char → Bool} {c : Char}
    (h : Separated item (One p) cs) (hc : p c = true) (hds : Separated item (One p) ds) :
    Separated item (One p) (cs ++ c :: ds) := by
  induction h with
  | last h => exact .cons h hc hds
  | more h hsep _ ih =>
      rw [List.append_assoc, List.append_assoc]
      exact .more h hsep ih

theorem Path.append (hcs : Path cs) (hds : Path ds) : Path (cs ++ '/' :: ds) :=
  Separated.append hcs rfl hds

theorem Name.append (hcs : Name cs) (hds : Path ds) : Name (cs ++ '/' :: ds) := by
  cases hcs with
  | plain h => exact .plain (h.append hds)
  | hosted hhost h =>
      rw [List.append_assoc, List.cons_append]
      exact .hosted hhost (h.append hds)

/-- What follows a registry with a slash between is a name, be the registry a host or a name. -/
theorem Name.of_registry (h : Host cs ∨ Name cs) (hds : Path ds) : Name (cs ++ '/' :: ds) := by
  cases h with
  | inl h => exact .hosted h hds
  | inr h => exact h.append hds

/-! ## The end of a prefix -/

theorem Component.ne_nil (h : Component cs) : cs ≠ [] := by
  obtain ⟨word, ⟨hne, -⟩, hword⟩ := Separated.exists_suffix h
  rintro rfl
  exact hne (List.suffix_nil.mp hword)

theorem Name.exists_suffix (h : Name cs) : ∃ xs, Component xs ∧ xs <:+ cs := by
  cases h with
  | plain h => exact Separated.exists_suffix h
  | @hosted host path _ h =>
      obtain ⟨xs, hxs, hsuffix⟩ := Separated.exists_suffix h
      exact ⟨xs, hxs, (hsuffix.trans (List.suffix_cons _ _)).trans (List.suffix_append _ _)⟩

theorem getLast?_ne_slash (h : Host cs ∨ Name cs) : cs.getLast? ≠ some '/' := by
  intro hlast
  cases h with
  | inl h => exact h.slash_not_mem (List.mem_of_getLast? hlast)
  | inr h =>
      obtain ⟨xs, hxs, before, rfl⟩ := h.exists_suffix
      rw [List.getLast?_append_of_ne_nil _ hxs.ne_nil] at hlast
      exact hxs.slash_not_mem (List.mem_of_getLast? hlast)

/-! ## A name with a tag -/

section Tagged

variable {name tag : String}

/-- The reference of a name and a tag. -/
def tagged (name tag : String) : Reference := ⟨name.toList, some tag.toList, none⟩

theorem grammatical_tagged (hname : Name name.toList) (htag : Tag tag.toList) :
    (tagged name tag).Grammatical where
  name := hname
  tag := by
    rintro t ⟨⟩
    exact htag
  digest := by
    rintro d ⟨⟩

theorem render_tagged (name tag : String) :
    (name ++ ":" ++ tag).toList = (tagged name tag).render := by
  rw [String.toList_append, String.toList_append, List.append_assoc]
  exact (List.append_nil _).symm

theorem read?_tagged (hname : Name name.toList) (htag : Tag tag.toList) :
    read? (name ++ ":" ++ tag).toList = some (tagged name tag) :=
  read?_eq_some_iff.mpr ⟨grammatical_tagged hname htag, render_tagged name tag⟩

theorem check_tagged (hname : Name name.toList) (htag : Tag tag.toList) :
    check (name ++ ":" ++ tag) =
      if 255 < name.utf8ByteSize then
        .error (.of (Problem.longName.message (name ++ ":" ++ tag)))
      else .ok () := by
  have hproblem :=
    (grammatical_tagged hname htag).problem?_eq (.inl rfl) (render_tagged name tag)
  have hbytes : (String.ofList (tagged name tag).name).utf8ByteSize = name.utf8ByteSize :=
    congrArg String.utf8ByteSize String.ofList_toList
  rw [hbytes] at hproblem
  by_cases hlong : 255 < name.utf8ByteSize
  · rw [if_pos hlong] at hproblem ⊢
    rw [check, hproblem]
  · rw [if_neg hlong] at hproblem ⊢
    rw [check, hproblem]

theorem matches_tagged (hname : Name name.toList) (htag : Tag tag.toList) {groups : Captures} :
    Pattern.reference.Matches (name ++ ":" ++ tag).toList groups ↔
      groups = [("name", name.toList), ("tag", tag.toList)] := by
  rw [matches_reference]
  constructor
  · rintro ⟨r, hr, htext, rfl⟩
    have hread := read?_eq_some_iff.mpr ⟨hr, htext⟩
    rw [read?_tagged hname htag] at hread
    cases hread
    rfl
  · rintro rfl
    exact ⟨tagged name tag, grammatical_tagged hname htag, render_tagged name tag, rfl⟩

end Tagged

end Reference

open Reference

theorem trimSlashes_append {registry : String} (h : Host registry.toList ∨ Name registry.toList)
    (slashes : Nat) :
    trimSlashes (registry ++ String.ofList (List.replicate slashes '/')) = registry := by
  have hend : ∀ c, registry.toList.getLast? = some c → decide (c = '/') = false := by
    intro c hc
    refine decide_eq_false ?_
    rintro rfl
    exact getLast?_ne_slash h hc
  rw [trimSlashes, String.toList_append, String.toList_ofList]
  show String.ofList (Text.dropTail (fun c => decide (c = '/')) _) = registry
  rw [Text.dropTail_append_replicate (x := '/') rfl, Text.dropTail_of_getLast? hend,
    String.ofList_toList]

/-- A repository behind a registry prefix is asked for under both together, however many slashes the
prefix ends with.  The reference can be pushed to if the two are not too long, which is all that can
be wrong with it; and it is read as what it was put together from. -/
theorem ImageSpec.reference_behind_registry {c : Config} {i : ImageSpec} (registry : String)
    (slashes : Nat)
    (hdefaults : c.defaults.registry =
      some (registry ++ String.ofList (List.replicate slashes '/')))
    (hregistry : Host registry.toList ∨ Name registry.toList)
    (hrepository : Path i.repository.toList) (htag : Tag i.tag.toList) :
    ∃ name reference : String,
      name = registry ++ "/" ++ i.repository ∧ reference = name ++ ":" ++ i.tag ∧
      (i.node c).image.reference = reference ∧
      (check reference = .ok () ↔ name.utf8ByteSize ≤ 255) ∧
      (255 < name.utf8ByteSize →
        check reference = .error (.of (Problem.longName.message reference))) ∧
      read? reference.toList = some ⟨name.toList, some i.tag.toList, none⟩ ∧
      ∀ groups, Pattern.reference.Matches reference.toList groups ↔
        groups = [("name", name.toList), ("tag", i.tag.toList)] := by
  have hreference : i.reference c.defaults = registry ++ "/" ++ i.repository ++ ":" ++ i.tag := by
    rw [ImageSpec.reference, hdefaults]
    show trimSlashes _ ++ "/" ++ i.repository ++ ":" ++ i.tag = _
    rw [trimSlashes_append hregistry]
  have hname : Name (registry ++ "/" ++ i.repository).toList := by
    rw [String.toList_append, String.toList_append, List.append_assoc]
    exact .of_registry hregistry hrepository
  refine ⟨_, _, rfl, rfl, hreference, ?_, ?_, read?_tagged hname htag,
    fun groups => matches_tagged hname htag⟩
  · rw [check_tagged hname htag]
    split
    next hlong => exact ⟨nofun, fun hshort => absurd hlong (Nat.not_lt_of_le hshort)⟩
    next hshort => exact ⟨fun _ => Nat.le_of_not_lt hshort, fun _ => rfl⟩
  · intro hlong
    rw [check_tagged hname htag, if_pos hlong]

namespace Rehearsal

/-- A configuration whose registry is a host with a port, with two slashes behind it. -/
def quay : Config where
  defaults := ⟨some "localhost:5000//", none, none⟩
  options := ⟨none, .skipSubtree⟩
  units := []
  baseDir := ⟨""⟩

def dinghy : ImageSpec := ⟨"dinghy", "boats/dinghy", "1.0-rc1", ⟨"."⟩, none, .empty, none⟩

theorem reference_behind_registry_of_quay :
    (dinghy.node quay).image.reference = "localhost:5000/boats/dinghy:1.0-rc1" ∧
    check "localhost:5000/boats/dinghy:1.0-rc1" = .ok () ∧
    read? "localhost:5000/boats/dinghy:1.0-rc1".toList =
      some ⟨"localhost:5000/boats/dinghy".toList, some "1.0-rc1".toList, none⟩ := by
  have hregistry : Host "localhost:5000".toList := isHost_iff.mp (by decide)
  have hrepository : Path dinghy.repository.toList := by
    rw [path_iff]
    intro component hcomponent
    refine isComponent_iff.mp ?_
    revert component
    decide
  have htag : Tag dinghy.tag.toList := isTag_iff.mp (by decide)
  obtain ⟨name, reference, rfl, rfl, hreference, hcheck, -, hread, -⟩ :=
    ImageSpec.reference_behind_registry (c := quay) "localhost:5000" 2 rfl (.inl hregistry)
      hrepository htag
  exact ⟨hreference, hcheck.mpr (by decide), hread⟩

end Rehearsal

end Converge
