import Converge.Proofs.Reference.Grammar

/-!
# Recognizing the parts of a reference

A text is split at the characters that separate its items, and a component is read by an automaton;
either way just the texts of the grammar are recognized.
-/

namespace Converge.Reference

variable {cs : List Char}

/-! ## Splitting -/

section

variable {α : Type} {p : α → Bool} {xs ys : List α}

/-- A list is free of what satisfies `p`, or it can be cut at the first such thing. -/
theorem exists_cut (p : α → Bool) (xs : List α) :
    (∀ x ∈ xs, p x = false) ∨
      ∃ ys x zs, xs = ys ++ x :: zs ∧ p x = true ∧ ∀ y ∈ ys, p y = false := by
  induction xs with
  | nil => exact .inl (List.forall_mem_nil _)
  | cons x xs ih =>
      cases hx : p x with
      | true => exact .inr ⟨[], x, xs, rfl, hx, List.forall_mem_nil _⟩
      | false =>
          rcases ih with hfree | ⟨ys, y, zs, rfl, hy, hys⟩
          · exact .inl (List.forall_mem_cons.mpr ⟨hx, hfree⟩)
          · exact .inr ⟨x :: ys, y, zs, rfl, hy, List.forall_mem_cons.mpr ⟨hx, hys⟩⟩

theorem splitOnP_eq_singleton_iff :
    xs.splitOnP p = [ys] ↔ xs = ys ∧ ∀ y ∈ ys, p y = false := by
  constructor
  · intro h
    rcases exists_cut p xs with hfree | ⟨ys', x, zs, rfl, hx, hys⟩
    · rw [List.splitOnP_eq_singleton hfree] at h
      cases h
      exact ⟨rfl, hfree⟩
    · rw [List.splitOnP_append_cons_of_forall_mem hys x hx zs] at h
      exact absurd (List.cons.inj h).2 (List.splitOnP_ne_nil p zs)
  · rintro ⟨rfl, hfree⟩
    exact List.splitOnP_eq_singleton hfree

theorem splitOnP_eq_cons_cons_iff {zs : List α} {rest : List (List α)} :
    xs.splitOnP p = ys :: zs :: rest ↔
      ∃ x tail, xs = ys ++ x :: tail ∧ p x = true ∧ (∀ y ∈ ys, p y = false) ∧
        tail.splitOnP p = zs :: rest := by
  constructor
  · intro h
    rcases exists_cut p xs with hfree | ⟨ys', x, tail, rfl, hx, hys⟩
    · rw [List.splitOnP_eq_singleton hfree] at h
      cases h
    · rw [List.splitOnP_append_cons_of_forall_mem hys x hx tail] at h
      obtain ⟨rfl, hrest⟩ := List.cons.inj h
      exact ⟨x, tail, rfl, hx, hys, hrest⟩
  · rintro ⟨x, tail, rfl, hx, hys, h⟩
    rw [List.splitOnP_append_cons_of_forall_mem hys x hx tail, h]

end

section

variable {c : Char} {xs ys : List Char}

theorem forall_beq_eq_false_iff : (∀ d ∈ cs, (d == c) = false) ↔ c ∉ cs := by
  simp only [beq_eq_false_iff_ne]
  exact ⟨fun h hc => h c hc rfl, fun h d hd heq => h (heq ▸ hd)⟩

theorem splitOn_append_cons (h : c ∉ cs) (ds : List Char) :
    (cs ++ c :: ds).splitOn c = cs :: ds.splitOn c := by
  rw [List.splitOn_eq_splitOnP, List.splitOn_eq_splitOnP,
    List.splitOnP_append_cons_of_forall_mem (forall_beq_eq_false_iff.mpr h) c (beq_self_eq_true c)]

theorem splitOn_eq_singleton_iff : cs.splitOn c = [xs] ↔ cs = xs ∧ c ∉ xs := by
  rw [List.splitOn_eq_splitOnP, splitOnP_eq_singleton_iff, forall_beq_eq_false_iff]

theorem splitOn_eq_pair_iff :
    cs.splitOn c = [xs, ys] ↔ cs = xs ++ c :: ys ∧ c ∉ xs ∧ c ∉ ys := by
  rw [List.splitOn_eq_splitOnP, splitOnP_eq_cons_cons_iff]
  constructor
  · rintro ⟨d, tail, rfl, hd, hxs, htail⟩
    obtain ⟨rfl, hys⟩ := splitOnP_eq_singleton_iff.mp htail
    obtain rfl := eq_of_beq hd
    exact ⟨rfl, forall_beq_eq_false_iff.mp hxs, forall_beq_eq_false_iff.mp hys⟩
  · rintro ⟨rfl, hxs, hys⟩
    exact ⟨c, ys, rfl, beq_self_eq_true c, forall_beq_eq_false_iff.mpr hxs,
      splitOnP_eq_singleton_iff.mpr ⟨rfl, forall_beq_eq_false_iff.mpr hys⟩⟩

end

/-- Items that contain no separator are what is between the separators. -/
theorem separated_iff {item : List Char → Prop} {p : Char → Bool}
    (hitem : ∀ xs, item xs → ∀ c ∈ xs, p c = false) :
    Separated item (One p) cs ↔ ∀ xs ∈ cs.splitOnP p, item xs := by
  constructor
  · intro h
    induction h with
    | last h =>
        rw [List.splitOnP_eq_singleton (hitem _ h)]
        exact List.forall_mem_singleton.mpr h
    | more h hsep _ ih =>
        obtain ⟨c, hc, rfl⟩ := hsep
        rw [List.singleton_append, List.splitOnP_append_cons_of_forall_mem (hitem _ h) c hc]
        exact List.forall_mem_cons.mpr ⟨h, ih⟩
  · generalize hparts : cs.splitOnP p = parts
    intro h
    induction parts generalizing cs with
    | nil => exact absurd hparts (List.splitOnP_ne_nil p cs)
    | cons xs parts ih =>
        obtain ⟨hxs, hrest⟩ := List.forall_mem_cons.mp h
        cases parts with
        | nil =>
            obtain ⟨rfl, -⟩ := splitOnP_eq_singleton_iff.mp hparts
            exact .last hxs
        | cons ys rest =>
            obtain ⟨c, tail, rfl, hc, -, htail⟩ := splitOnP_eq_cons_cons_iff.mp hparts
            exact .more hxs ⟨c, hc, rfl⟩ (ih htail hrest)

/-! ## Hosts -/

theorem isLabel_iff : isLabel cs = true ↔ Label cs := by
  constructor
  · intro h
    simp only [isLabel, Bool.and_eq_true, List.all_eq_true, Bool.or_eq_true,
      decide_eq_true_eq] at h
    obtain ⟨⟨hall, hfirst⟩, hlast⟩ := h
    cases cs with
    | nil => cases hfirst
    | cons c cs =>
        rcases List.eq_nil_or_concat cs with rfl | ⟨inner, d, rfl⟩
        · exact .single hfirst
        · rw [List.concat_eq_append] at hall hlast ⊢
          refine .longer hfirst (fun e he => hall e ?_) ?_
          · simp [he]
          · simpa [List.getLast?_cons] using hlast
  · intro h
    cases h with
    | single h => simp [isLabel, h]
    | longer hc hinner hd =>
        simpa [isLabel, hc, hd, List.getLast?_cons] using hinner

theorem isHostName_iff : isHostName cs = true ↔ HostName cs := by
  rw [isHostName, HostName, separated_iff, List.splitOn_eq_splitOnP]
  · simp only [List.all_eq_true, isLabel_iff]
  · exact fun xs h => forall_beq_eq_false_iff.mpr (h.spelled.not_mem rfl (by decide))

theorem isPort_iff : isPort cs = true ↔ Run isDigit cs := by
  simp [isPort, Run]

theorem isHost_iff : isHost cs = true ↔ Host cs := by
  constructor
  · intro h
    unfold isHost at h
    split at h
    · next host hsplit =>
        obtain ⟨rfl, -⟩ := splitOn_eq_singleton_iff.mp hsplit
        exact .plain (isHostName_iff.mp h)
    · next host port hsplit =>
        obtain ⟨rfl, -, -⟩ := splitOn_eq_pair_iff.mp hsplit
        obtain ⟨hhost, hport⟩ := Bool.and_eq_true_iff.mp h
        exact .ported (isHostName_iff.mp hhost) (isPort_iff.mp hport)
    · cases h
  · have hcolon : ∀ {cs}, HostName cs → ':' ∉ cs := fun h => h.spelled.not_mem rfl (by decide)
    intro h
    cases h with
    | plain h =>
        rw [isHost, splitOn_eq_singleton_iff.mpr ⟨rfl, hcolon h⟩]
        exact isHostName_iff.mpr h
    | ported h hport =>
        have hdigits : Spelled [] _ :=
          hport.spelled fun _ hc => .inl (isAlphanumeric_of_isDigit hc)
        rw [isHost, splitOn_eq_pair_iff.mpr ⟨rfl, hcolon h, hdigits.not_mem rfl (by decide)⟩]
        exact Bool.and_eq_true_iff.mpr ⟨isHostName_iff.mpr h, isPort_iff.mpr hport⟩

/-! ## Components -/

theorem Spot.next?_of_isWordChar {c : Char} (s : Spot) (h : isWordChar c = true) :
    s.next? c = some .word :=
  if_pos h

theorem foldlM_next?_word (h : ∀ c ∈ cs, isWordChar c = true) :
    cs.foldlM Spot.next? .word = some .word := by
  induction cs with
  | nil => rfl
  | cons c cs ih =>
      obtain ⟨hc, hcs⟩ := List.forall_mem_cons.mp h
      rw [List.foldlM_cons, Spot.next?_of_isWordChar _ hc]
      exact ih hcs

/-- A separator is read to its end. -/
theorem Separator.exists_spot (h : Separator cs) : ∃ s, cs.foldlM Spot.next? .word = some s := by
  cases h with
  | point => exact ⟨.point, rfl⟩
  | underscore => exact ⟨.underscore, rfl⟩
  | underscores => exact ⟨.underscores, rfl⟩
  | hyphens h =>
      have hmore : ∀ ds : List Char, (∀ d ∈ ds, (d == '-') = true) →
          ds.foldlM Spot.next? .hyphens = some .hyphens := by
        intro ds hds
        induction ds with
        | nil => rfl
        | cons d ds ih =>
            obtain ⟨hd, hds⟩ := List.forall_mem_cons.mp hds
            rw [List.foldlM_cons, eq_of_beq hd]
            exact ih hds
      obtain ⟨hne, hall⟩ := h
      cases cs with
      | nil => exact absurd rfl hne
      | cons c cs =>
          obtain ⟨hc, hcs⟩ := List.forall_mem_cons.mp hall
          refine ⟨.hyphens, ?_⟩
          rw [List.foldlM_cons, eq_of_beq hc]
          exact hmore cs hcs

/-- A word may begin at every spot, and so may a component. -/
theorem Component.foldlM_next? (h : Component cs) (s : Spot) :
    cs.foldlM Spot.next? s = some .word := by
  have hword : ∀ {xs : List Char} (s : Spot), Run isWordChar xs →
      xs.foldlM Spot.next? s = some .word := by
    rintro (_ | ⟨x, xs⟩) s ⟨hne, hall⟩
    · exact absurd rfl hne
    · obtain ⟨hx, hxs⟩ := List.forall_mem_cons.mp hall
      rw [List.foldlM_cons, Spot.next?_of_isWordChar s hx]
      exact foldlM_next?_word hxs
  induction h generalizing s with
  | last h => exact hword s h
  | more h hsep _ ih =>
      obtain ⟨t, ht⟩ := hsep.exists_spot
      simp only [List.foldlM_append, hword s h, ht, ih t, Option.bind_eq_bind, Option.bind_some]

/-- What is left of a component when a reader stands at a spot. -/
def Spot.Rest : Spot → List Char → Prop
  | .word, cs => ∃ xs ys, cs = xs ++ ys ∧ (∀ x ∈ xs, isWordChar x = true) ∧
      (ys = [] ∨ ∃ sep zs, ys = sep ++ zs ∧ Separator sep ∧ Component zs)
  | .underscore, cs => Component cs ∨ ∃ zs, cs = '_' :: zs ∧ Component zs
  | .hyphens, cs => ∃ xs zs, cs = xs ++ zs ∧ (∀ x ∈ xs, (x == '-') = true) ∧ Component zs
  | .start, cs | .point, cs | .underscores, cs => Component cs

namespace Spot.Rest

theorem component {c : Char} (hc : isWordChar c = true) (h : Spot.word.Rest cs) :
    Component (c :: cs) := by
  obtain ⟨xs, ys, rfl, hxs, hys⟩ := h
  have hword : Run isWordChar (c :: xs) :=
    ⟨List.cons_ne_nil c xs, List.forall_mem_cons.mpr ⟨hc, hxs⟩⟩
  rcases hys with rfl | ⟨sep, zs, rfl, hsep, hzs⟩
  · rw [List.append_nil]
    exact .last hword
  · exact .more hword hsep hzs

theorem separator {sep : List Char} (hsep : Separator sep) (h : Component cs) :
    Spot.word.Rest (sep ++ cs) :=
  ⟨[], sep ++ cs, rfl, List.forall_mem_nil _, .inr ⟨sep, cs, rfl, hsep, h⟩⟩

theorem of_component (s : Spot) (hs : s ≠ .word) (h : Component cs) : s.Rest cs := by
  cases s with
  | word => exact absurd rfl hs
  | underscore => exact .inl h
  | hyphens => exact ⟨[], cs, rfl, List.forall_mem_nil _, h⟩
  | start | point | underscores => exact h

/-- One character more is read. -/
theorem cons {s s' : Spot} {c : Char} (hnext : s.next? c = some s') (h : s'.Rest cs) :
    s.Rest (c :: cs) := by
  -- A word begins or goes on; or the character belongs to what separates two words.
  by_cases hc : isWordChar c = true
  · rw [Spot.next?_of_isWordChar s hc] at hnext
    cases hnext
    by_cases hs : s = .word
    · subst hs
      obtain ⟨xs, ys, rfl, hxs, hys⟩ := h
      exact ⟨c :: xs, ys, rfl, List.forall_mem_cons.mpr ⟨hc, hxs⟩, hys⟩
    · exact of_component s hs (h.component hc)
  · unfold Spot.next? at hnext
    dsimp only at hnext
    rw [if_neg hc] at hnext
    split at hnext
    · cases hnext
      exact separator .point h
    · cases hnext
      rcases h with h | ⟨zs, rfl, h⟩
      · exact separator .underscore h
      · exact separator .underscores h
    · cases hnext
      obtain ⟨xs, zs, rfl, hxs, h⟩ := h
      exact separator (.hyphens ⟨List.cons_ne_nil '-' xs, List.forall_mem_cons.mpr ⟨rfl, hxs⟩⟩) h
    · cases hnext
      exact .inr ⟨cs, rfl, h⟩
    · cases hnext
      obtain ⟨xs, zs, rfl, hxs, h⟩ := h
      exact ⟨'-' :: xs, zs, rfl, List.forall_mem_cons.mpr ⟨rfl, hxs⟩, h⟩
    · cases hnext

theorem of_foldlM {s : Spot} (h : cs.foldlM Spot.next? s = some .word) : s.Rest cs := by
  induction cs generalizing s with
  | nil =>
      obtain rfl : s = .word := Option.some.inj h
      exact ⟨[], [], rfl, List.forall_mem_nil _, .inl rfl⟩
  | cons c cs ih =>
      rw [List.foldlM_cons] at h
      obtain ⟨s', hnext, hrest⟩ := Option.bind_eq_some_iff.mp h
      exact cons hnext (ih hrest)

end Spot.Rest

theorem isComponent_iff : isComponent cs = true ↔ Component cs := by
  rw [isComponent, decide_eq_true_iff]
  exact ⟨Spot.Rest.of_foldlM, fun h => h.foldlM_next? .start⟩

/-! ## Names -/

theorem Component.slash_not_mem (h : Component cs) : '/' ∉ cs :=
  h.spelled.not_mem rfl (by decide)

theorem Host.slash_not_mem (h : Host cs) : '/' ∉ cs :=
  h.spelled.not_mem rfl (by decide)

theorem path_iff : Path cs ↔ ∀ xs ∈ cs.splitOn '/', Component xs := by
  rw [Path, separated_iff, List.splitOn_eq_splitOnP]
  exact fun xs h => forall_beq_eq_false_iff.mpr h.slash_not_mem

/-- What is split off first belongs to a path that goes on, or it is a host. -/
theorem isName_append_slash {first : List Char} (h : '/' ∉ first) :
    isName (first ++ '/' :: cs) = ((isComponent first || isHost first) &&
      (cs.splitOn '/').all isComponent) := by
  obtain ⟨second, rest, hsplit⟩ := List.exists_cons_of_ne_nil (List.splitOnP_ne_nil (· == '/') cs)
  rw [isName, splitOn_append_cons h, List.splitOn_eq_splitOnP, hsplit]

theorem isName_iff : isName cs = true ↔ Name cs := by
  have hall : ∀ {cs}, (cs.splitOn '/').all isComponent = true ↔ Path cs := fun {cs} => by
    simp only [path_iff, List.all_eq_true, isComponent_iff]
  constructor
  · intro h
    rcases exists_cut (· == '/') cs with hfree | ⟨first, c, rest, rfl, hc, hfirst⟩
    · have hsplit : cs.splitOn '/' = [cs] := List.splitOnP_eq_singleton hfree
      rw [isName, hsplit] at h
      exact .plain (.last (isComponent_iff.mp h))
    · obtain rfl := eq_of_beq hc
      rw [isName_append_slash (forall_beq_eq_false_iff.mp hfirst), Bool.and_eq_true,
        Bool.or_eq_true, hall, isComponent_iff, isHost_iff] at h
      obtain ⟨h | h, hrest⟩ := h
      · exact .plain (.cons h rfl hrest)
      · exact .hosted h hrest
  · intro h
    cases h with
    | plain h =>
        cases h with
        | last h =>
            rw [isName, splitOn_eq_singleton_iff.mpr ⟨rfl, h.slash_not_mem⟩]
            exact isComponent_iff.mpr h
        | more h hsep hrest =>
            obtain ⟨c, hc, rfl⟩ := hsep
            obtain rfl := eq_of_beq hc
            rw [List.singleton_append, isName_append_slash h.slash_not_mem, isComponent_iff.mpr h,
              hall.mpr hrest]
            rfl
    | hosted hhost h =>
        rw [isName_append_slash hhost.slash_not_mem, isHost_iff.mpr hhost, hall.mpr h,
          Bool.or_true, Bool.and_true]

/-! ## Tags and digests -/

theorem isTag_iff : isTag cs = true ↔ Tag cs := by
  constructor
  · intro h
    simp only [isTag, Bool.and_eq_true, List.all_eq_true, decide_eq_true_eq] at h
    obtain ⟨⟨hchars, hopening⟩, hlength⟩ := h
    cases cs with
    | nil => cases hopening
    | cons c cs =>
        refine ⟨hchars, ?_, Nat.succ_pos _, hlength⟩
        rintro _ ⟨⟩
        simpa using hopening
  · rintro ⟨hchars, hopening, hpos, hlength⟩
    cases cs with
    | nil => cases hpos
    | cons c cs =>
        have hc := hopening c rfl
        simp only [isTag, Bool.and_eq_true, List.all_eq_true, decide_eq_true_eq]
        exact ⟨⟨hchars, by simpa using hc⟩, hlength⟩

theorem isAlgorithmWord_iff : isAlgorithmWord cs = true ↔ AlgorithmWord cs := by
  constructor
  · intro h
    obtain ⟨hall, hfirst⟩ := Bool.and_eq_true_iff.mp h
    cases cs with
    | nil => cases hfirst
    | cons c cs => exact .mk hfirst (List.forall_mem_cons.mp (List.all_eq_true.mp hall)).2
  · rintro ⟨hc, hcs⟩
    refine Bool.and_eq_true_iff.mpr ⟨List.all_eq_true.mpr ?_, hc⟩
    exact List.forall_mem_cons.mpr ⟨isAlphanumeric_of_isLetter hc, hcs⟩

theorem isAlgorithm_iff : isAlgorithm cs = true ↔ Algorithm cs := by
  rw [Algorithm, separated_iff]
  · simp only [isAlgorithm, List.all_eq_true, isAlgorithmWord_iff]
    rfl
  · intro xs h c hc
    rw [Bool.eq_false_iff]
    intro hsep
    simp only [isAlgorithmSeparator, Bool.or_eq_true, decide_eq_true_eq] at hsep
    rcases hsep with ((rfl | rfl) | rfl) | rfl <;> exact h.spelled.not_mem rfl (by decide) hc

theorem isDigest_iff : isDigest cs = true ↔ Digest cs := by
  constructor
  · intro h
    unfold isDigest at h
    split at h
    · next algorithm hex hsplit =>
        obtain ⟨rfl, -, -⟩ := splitOn_eq_pair_iff.mp hsplit
        simp only [Bool.and_eq_true, List.all_eq_true, decide_eq_true_eq] at h
        obtain ⟨⟨halgorithm, hhex⟩, hlength⟩ := h
        exact .mk (isAlgorithm_iff.mp halgorithm) hhex hlength
    · cases h
  · rintro ⟨halgorithm, hhex, hlength⟩
    have hdigits : Spelled [] _ := fun c hc => .inl (isAlphanumeric_of_isHexadecimal (hhex c hc))
    rw [isDigest, splitOn_eq_pair_iff.mpr ⟨rfl, halgorithm.spelled.not_mem rfl (by decide),
      hdigits.not_mem rfl (by decide)⟩]
    simp only [Bool.and_eq_true, List.all_eq_true, decide_eq_true_eq]
    exact ⟨⟨isAlgorithm_iff.mpr halgorithm, hhex⟩, hlength⟩

theorem isWellFormed_iff {r : Reference} : r.isWellFormed = true ↔ r.Grammatical := by
  simp only [isWellFormed, Bool.and_eq_true, isName_iff, Option.all_eq_true, isTag_iff,
    isDigest_iff]
  exact ⟨fun ⟨⟨hname, htag⟩, hdigest⟩ => ⟨hname, htag, hdigest⟩,
    fun ⟨hname, htag, hdigest⟩ => ⟨⟨hname, htag⟩, hdigest⟩⟩

end Converge.Reference
