import Converge.Proofs.Reference.Recognition

/-!
# Reading a reference

The parts of a reference are found by the character before them, although a colon may stand before
a port as well: no slash follows the one before the tag.  So a text is made of well-formed parts in
one way at most, and cutting it finds them.
-/

namespace Converge.Reference

variable {cs ds : List Char} {c : Char} {r : Reference}

/-! ## Cutting -/

theorem cutAt_cons_self (c : Char) (cs : List Char) : cutAt c (c :: cs) = ([], some cs) := by
  rw [cutAt, if_pos rfl]

theorem cutAt_cons_of_ne {d : Char} (h : d ≠ c) (cs : List Char) :
    cutAt c (d :: cs) = (d :: (cutAt c cs).1, (cutAt c cs).2) := by
  rw [cutAt, if_neg h]

theorem cutAt_of_not_mem (h : c ∉ cs) : cutAt c cs = (cs, none) := by
  induction cs with
  | nil => rfl
  | cons d cs ih =>
      obtain ⟨hd, hcs⟩ := List.ne_and_not_mem_of_not_mem_cons h
      rw [cutAt_cons_of_ne (Ne.symm hd), ih hcs]

theorem cutAt_append_cons (h : c ∉ cs) (ds : List Char) :
    cutAt c (cs ++ c :: ds) = (cs, some ds) := by
  induction cs with
  | nil => exact cutAt_cons_self c ds
  | cons d cs ih =>
      obtain ⟨hd, hcs⟩ := List.ne_and_not_mem_of_not_mem_cons h
      rw [List.cons_append, cutAt_cons_of_ne (Ne.symm hd), ih hcs]

/-- Nothing is lost but the character at which the list is cut. -/
theorem cutAt_join (c : Char) (cs : List Char) :
    (cutAt c cs).1 ++ (cutAt c cs).2.elim [] (c :: ·) = cs := by
  induction cs with
  | nil => rfl
  | cons d cs ih =>
      by_cases hd : d = c
      · rw [hd, cutAt_cons_self]
        rfl
      · rw [cutAt_cons_of_ne hd]
        exact congrArg (d :: ·) ih

theorem cutTag_cons_colon (h : '/' ∉ cs) : cutTag (':' :: cs) = ([], some cs) := by
  rw [cutTag, if_pos (by simpa using h)]

theorem cutTag_cons (h : c = ':' → '/' ∈ cs) :
    cutTag (c :: cs) = (c :: (cutTag cs).1, (cutTag cs).2) := by
  rw [cutTag, if_neg (by simpa using h)]

theorem cutTag_join (cs : List Char) : (cutTag cs).1 ++ (cutTag cs).2.elim [] (':' :: ·) = cs := by
  induction cs with
  | nil => rfl
  | cons c cs ih =>
      by_cases h : c = ':' → '/' ∈ cs
      · rw [cutTag_cons h]
        exact congrArg (c :: ·) ih
      · obtain ⟨rfl, hcs⟩ := Classical.not_imp.mp h
        rw [cutTag_cons_colon hcs]
        rfl

theorem cut_eq (cs : List Char) :
    cut cs = ⟨(cutTag (cutAt '@' cs).1).1, (cutTag (cutAt '@' cs).1).2, (cutAt '@' cs).2⟩ := rfl

/-- The parts of a text make up the text. -/
theorem render_cut (cs : List Char) : (cut cs).render = cs := by
  rw [render, cut_eq, cutTag_join, cutAt_join]

theorem cutTag_of_not_mem (h : ':' ∉ cs) : cutTag cs = (cs, none) := by
  induction cs with
  | nil => rfl
  | cons c cs ih =>
      obtain ⟨hc, hcs⟩ := List.ne_and_not_mem_of_not_mem_cons h
      rw [cutTag_cons fun heq => absurd heq.symm hc, ih hcs]

/-- Colons before a slash are passed over. -/
theorem cutTag_append_slash (h : ':' ∉ ds) (cs : List Char) :
    cutTag (cs ++ '/' :: ds) = (cs ++ '/' :: ds, none) := by
  induction cs with
  | nil => exact cutTag_of_not_mem (List.not_mem_cons_of_ne_of_not_mem (by decide) h)
  | cons c cs ih => rw [List.cons_append, cutTag_cons (by simp), ih]

/-- A tag is found after a text in which none is. -/
theorem cutTag_append_colon (hcs : (cutTag cs).2 = none) (hds : '/' ∉ ds) :
    cutTag (cs ++ ':' :: ds) = (cs, some ds) := by
  induction cs with
  | nil => exact cutTag_cons_colon hds
  | cons c cs ih =>
      have hcolon : c = ':' → '/' ∈ cs := by
        rintro rfl
        refine Decidable.byContradiction fun hslash => ?_
        rw [cutTag_cons_colon hslash] at hcs
        cases hcs
      rw [cutTag_cons hcolon] at hcs
      rw [List.cons_append, cutTag_cons fun h => List.mem_append_left _ (hcolon h), ih hcs]

/-! ## Well-formed parts are found again -/

theorem Path.colon_not_mem (h : Path cs) : ':' ∉ cs :=
  h.spelled.not_mem rfl (by decide)

/-- In a name no colon is taken for that of a tag. -/
theorem Name.cutTag_eq (h : Name cs) : cutTag cs = (cs, none) := by
  cases h with
  | plain h => exact cutTag_of_not_mem h.colon_not_mem
  | hosted hhost h => exact cutTag_append_slash h.colon_not_mem _

theorem cut_render (h : r.Grammatical) : cut r.render = r := by
  obtain ⟨name, tag, digest⟩ := r
  obtain ⟨hname, htag, -⟩ := h
  -- What stands before the digest has no `@`, and is cut into name and tag.
  have hhead : '@' ∉ name ++ tag.elim [] (':' :: ·) ∧
      cutTag (name ++ tag.elim [] (':' :: ·)) = (name, tag) := by
    have hat : '@' ∉ name := hname.spelled.not_mem rfl (by decide)
    cases tag with
    | none =>
        rw [Option.elim_none, List.append_nil]
        exact ⟨hat, hname.cutTag_eq⟩
    | some t =>
        have ht := (htag t rfl).spelled
        refine ⟨fun hmem => ?_, ?_⟩
        · rcases List.mem_append.mp hmem with hmem | hmem
          · exact hat hmem
          · exact List.not_mem_cons_of_ne_of_not_mem (by decide)
              (ht.not_mem rfl (by decide)) hmem
        · exact cutTag_append_colon (by rw [hname.cutTag_eq]) (ht.not_mem rfl (by decide))
  have hcut : cutAt '@' (render ⟨name, tag, digest⟩) =
      (name ++ tag.elim [] (':' :: ·), digest) := by
    cases digest with
    | none =>
        rw [render, Option.elim_none, List.append_nil]
        exact cutAt_of_not_mem hhead.1
    | some d => exact cutAt_append_cons hhead.1 d
  rw [cut_eq, hcut, hhead.2]

/-- A text is read as the reference that it is the rendering of. -/
theorem read?_eq_some_iff : read? cs = some r ↔ r.Grammatical ∧ cs = r.render := by
  rw [read?, Option.ite_none_right_eq_some, isWellFormed_iff, Option.some.injEq]
  constructor
  · rintro ⟨h, rfl⟩
    exact ⟨h, (render_cut cs).symm⟩
  · rintro ⟨h, rfl⟩
    rw [cut_render h]
    exact ⟨h, rfl⟩

/-! ## Nothing but visible characters -/

/-- A character of ASCII that leaves a mark. -/
def isVisible (c : Char) : Bool := 0x21 ≤ c.toNat && c.toNat ≤ 0x7e

theorem isVisible_iff : isVisible c = true ↔ 0x21 ≤ c.toNat ∧ c.toNat ≤ 0x7e := by
  rw [isVisible, Bool.and_eq_true, decide_eq_true_iff, decide_eq_true_iff]

theorem isVisible_of_isAlphanumeric (h : isAlphanumeric c = true) : isVisible c = true := by
  simp only [isAlphanumeric, isLetter, isLower, isUpper, isDigit, Bool.or_eq_true,
    Bool.and_eq_true, decide_eq_true_eq, Char.le_def, UInt32.le_iff_toNat_le] at h
  rw [isVisible_iff]
  rcases h with (⟨hleast, hmost⟩ | ⟨hleast, hmost⟩) | ⟨hleast, hmost⟩ <;>
    exact ⟨Nat.le_trans (by decide) hleast, Nat.le_trans hmost (by decide)⟩

theorem isBlank_of_isVisible (h : isVisible c = true) : Text.isBlank c = false := by
  obtain ⟨hleast, hmost⟩ := isVisible_iff.mp h
  simp only [Text.isBlank, Bool.or_eq_false_iff, Bool.and_eq_false_iff, decide_eq_false_iff_not,
    beq_eq_false_iff_ne]
  omega

theorem utf8Size_of_isVisible (h : isVisible c = true) : c.utf8Size = 1 := by
  rw [Char.utf8Size_eq_one_iff, UInt32.le_iff_toNat_le]
  exact Nat.le_trans (isVisible_iff.mp h).2 (by decide)

theorem Spelled.isVisible {extra : List Char} (h : Spelled extra cs)
    (hextra : extra.all isVisible = true) : ∀ c ∈ cs, isVisible c = true :=
  fun c hc => (h c hc).elim isVisible_of_isAlphanumeric (List.all_eq_true.mp hextra c)

theorem utf8ByteSize_of_isVisible (h : ∀ c ∈ cs, isVisible c = true) :
    (String.ofList cs).utf8ByteSize = cs.length := by
  induction cs with
  | nil => rfl
  | cons c cs ih =>
      obtain ⟨hc, hcs⟩ := List.forall_mem_cons.mp h
      rw [String.ofList_cons, String.utf8ByteSize_append, String.utf8ByteSize_singleton,
        utf8Size_of_isVisible hc, ih hcs, List.length_cons, Nat.add_comm]

theorem Grammatical.isVisible (h : r.Grammatical) : ∀ c ∈ r.render, isVisible c = true := by
  obtain ⟨name, tag, digest⟩ := r
  refine List.forall_mem_append.mpr ⟨List.forall_mem_append.mpr ⟨?_, ?_⟩, ?_⟩
  · exact h.name.spelled.isVisible rfl
  · cases tag with
    | none => exact List.forall_mem_nil _
    | some t =>
        have ht := h.tag t rfl
        exact List.forall_mem_cons.mpr ⟨rfl, ht.spelled.isVisible rfl⟩
  · cases digest with
    | none => exact List.forall_mem_nil _
    | some d =>
        have hd := h.digest d rfl
        exact List.forall_mem_cons.mpr ⟨rfl, hd.spelled.isVisible rfl⟩

/-- A byte is all that a character of a name takes. -/
theorem Grammatical.utf8ByteSize_name (h : r.Grammatical) :
    (String.ofList r.name).utf8ByteSize = r.name.length :=
  utf8ByteSize_of_isVisible (h.name.spelled.isVisible rfl)

end Converge.Reference
