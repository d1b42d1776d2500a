import Converge.Proofs.Reference.Pattern
import Converge.Proofs.Reference.Reading

/-!
# Which references can be pushed to

The checks come to the grammar, a tag or a digest, and a limit on the name.
-/

namespace Converge.Reference

variable {r : Reference} {text : String}

theorem exists_pushable_of_problem? (h : problem? text = none) :
    ∃ r : Reference, r.Pushable ∧ text.toList = r.render := by
  unfold problem? at h
  dsimp only at h
  split at h
  · cases h
  · split at h
    · cases h
    · split at h
      · cases h
      · next r hread =>
        obtain ⟨hr, htext⟩ := read?_eq_some_iff.mp hread
        split at h
        · cases h
        · next hversion =>
          split at h
          · cases h
          · next hlength =>
            refine ⟨r, ⟨hr, ?_, ?_⟩, htext⟩
            · rwa [Bool.not_eq_true, Bool.and_eq_false_iff, Option.isNone_eq_false_iff,
                Option.isNone_eq_false_iff] at hversion
            · rw [hr.utf8ByteSize_name]
              exact Nat.le_of_not_lt hlength

/-- Of a reference that is well-formed and has a tag or a digest, only the length of the name can be
wrong. -/
theorem Grammatical.problem?_eq (h : r.Grammatical)
    (hversion : r.tag.isSome = true ∨ r.digest.isSome = true) (htext : text.toList = r.render) :
    problem? text =
      if 255 < (String.ofList r.name).utf8ByteSize then some .longName else none := by
  have hread : read? text.toList = some r := read?_eq_some_iff.mpr ⟨h, htext⟩
  have hempty : text.toList.isEmpty = false := by
    cases hcs : text.toList with
    | nil => rw [hcs] at hread; cases hread
    | cons => rfl
  have hblank : text.toList.any Text.isBlank = false := by
    rw [List.any_eq_false, htext]
    intro c hc
    rw [isBlank_of_isVisible (h.isVisible c hc)]
    exact Bool.false_ne_true
  have hversion' : (r.tag.isNone && r.digest.isNone) = false := by
    rw [Bool.and_eq_false_iff, Option.isNone_eq_false_iff, Option.isNone_eq_false_iff]
    exact hversion
  simp only [problem?, hempty, hblank, hread, hversion', if_false, Bool.false_eq_true]
  rw [h.utf8ByteSize_name, maxNameLength]

theorem Pushable.problem?_eq_none (h : r.Pushable) (htext : text.toList = r.render) :
    problem? text = none := by
  rw [h.toGrammatical.problem?_eq h.versioned htext]
  exact if_neg (Nat.not_lt_of_le h.short)

theorem check_eq_ok_iff : check text = .ok () ↔ problem? text = none := by
  rw [check]
  cases problem? text <;> simp

/-- The texts that pass the check are the renderings of the references that can be pushed to.  Such
a text is the rendering of one of them only, which is what it is read as; and the pattern of
references matches it in one way, with the parts of that reference for its groups.  Indeed the
pattern matches all texts that can be read, and no others. -/
theorem check_accepts_grammar (text : String) :
    (check text = .ok () ↔ ∃ r : Reference, r.Pushable ∧ text.toList = r.render) ∧
    (∀ r : Reference, r.Pushable → text.toList = r.render →
      (∀ r' : Reference, r'.Grammatical → text.toList = r'.render → r' = r) ∧
      read? text.toList = some r ∧
      ∀ groups, Pattern.reference.Matches text.toList groups ↔ groups = r.captures) ∧
    ∀ groups, Pattern.reference.Matches text.toList groups ↔
      ∃ r, read? text.toList = some r ∧ groups = r.captures := by
  have hmatches : ∀ groups, Pattern.reference.Matches text.toList groups ↔
      ∃ r, read? text.toList = some r ∧ groups = r.captures := by
    intro groups
    simp only [matches_reference, read?_eq_some_iff, and_assoc]
  refine ⟨check_eq_ok_iff.trans ⟨exists_pushable_of_problem?, fun ⟨_, hr, htext⟩ =>
    hr.problem?_eq_none htext⟩, fun r hr htext => ?_, hmatches⟩
  have hread : read? text.toList = some r := read?_eq_some_iff.mpr ⟨hr.toGrammatical, htext⟩
  refine ⟨fun r' hr' htext' => ?_, hread, fun groups => ?_⟩
  · have hread' := read?_eq_some_iff.mpr ⟨hr', htext'⟩
    exact Option.some.inj (hread'.symm.trans hread)
  · rw [hmatches, hread]
    simp

-- The first colon stands before a port, the second before the tag.
example : (read? "localhost:5000/shop-api:1.0".toList).map captures =
    some [("name", "localhost:5000/shop-api".toList), ("tag", "1.0".toList)] := by decide

end Converge.Reference
