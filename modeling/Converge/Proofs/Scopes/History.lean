import Converge.Proofs.Scopes.Reflection

/-!
# Which scopes are cancelled

After any history a scope is cancelled exactly if its token, or one above it, was cancelled at some
time, be it before the scope was made or afterwards.  Who heeds whom is read off the history alone.
-/

namespace Converge.Scopes

/-- Scope `i` was made on the token of scope `j`. -/
def Shares (acts : List Act) (i j : Nat) : Prop := (makings acts)[i]? = some (.share j)

/-- Scope `i` was made on a token right under that of scope `j`. -/
def IsChild (acts : List Act) (i j : Nat) : Prop := (makings acts)[i]? = some (.child j)

/-- The two scopes hold one token. -/
def SameToken (acts : List Act) : Nat → Nat → Prop := Relation.EqvGen (Shares acts)

/-- The token of scope `j` is that of scope `i` or stands above it. -/
def Heeds (acts : List Act) : Nat → Nat → Prop :=
  Relation.ReflTransGen fun i j => SameToken acts i j ∨ IsChild acts i j

variable {acts more : List Act} {s : Scopes} {i j k t p : Nat}

theorem SameToken.heeds (h : SameToken acts i j) : Heeds acts i j := .single (.inl h)

theorem IsChild.heeds (h : IsChild acts i j) : Heeds acts i j := .single (.inr h)

/-- Scope `i` is scope `j`, or was made of a scope that stems from it. -/
def Stems (acts : List Act) : Nat → Nat → Prop :=
  Relation.ReflTransGen fun i j => Shares acts i j ∨ IsChild acts i j

theorem Stems.heeds (h : Stems acts i j) : Heeds acts i j :=
  Relation.ReflTransGen.mono (fun _ _ => Or.imp_left (.rel _ _)) i j h

theorem IsChild.not_shares (h : IsChild acts i k) (j : Nat) : ¬ Shares acts i j := by
  intro hj
  cases h.symm.trans hj

/-- Only the makings tell who heeds whom. -/
theorem heeds_congr (h : makings acts = makings more) : Heeds acts = Heeds more := by
  unfold Heeds SameToken Shares IsChild
  rw [h]

/-! ## What the history tells of the tokens -/

namespace Reflects

theorem tokenOf_eq (h : s.Reflects acts) (hij : SameToken acts i j) :
    s.tokenOf[i]? = s.tokenOf[j]? := by
  induction hij with
  | rel i j hij => exact (h.holds i _ hij).2
  | refl i => rfl
  | symm i j _ ih => exact ih.symm
  | trans i j k _ _ ihij ihjk => exact ihij.trans ihjk

theorem exists_making (h : s.Reflects acts) (hi : i < s.size) :
    ∃ made, (makings acts)[i]? = some made ∧ s.Holds i made := by
  have hlt : i < (makings acts).length := h.size ▸ hi
  have hmade := List.getElem?_eq_getElem hlt
  exact ⟨_, hmade, h.holds i _ hmade⟩

/-- Some scope has the token of scope `i` to itself at first. -/
theorem exists_first (h : s.Reflects acts) (hi : i < s.size) :
    ∃ o < s.size, SameToken acts i o ∧ ∀ j, ¬ Shares acts o j := by
  induction i using Nat.strongRecOn with
  | ind i ih =>
      obtain ⟨made, hmade, hholds⟩ := h.exists_making hi
      cases made with
      | share j =>
          obtain ⟨o, ho, hjo, hfirst⟩ := ih j hholds.1 (Nat.lt_trans hholds.1 hi)
          exact ⟨o, ho, .trans _ _ _ (.rel _ _ hmade) hjo, hfirst⟩
      | cancel j => exact hholds.elim
      | fresh | child =>
          refine ⟨i, hi, .refl i, fun j hj => ?_⟩
          cases hmade.symm.trans hj

/-- The token of a scope that has it to itself at first was made with the scope: it is the newest,
and stands under no other or under that of the scope that it was made under. -/
theorem of_first (h : s.Reflects acts) (hfirst : ∀ j, ¬ Shares acts i j)
    (hi : s.tokenOf[i]? = some t) : s.IsNewer t i ∧ (s.above? t = none ∨
      ∃ k p, IsChild acts i k ∧ s.tokenOf[k]? = some p ∧ s.above? t = some p) := by
  obtain ⟨made, hmade, hholds⟩ := h.exists_making (List.getElem?_eq_some_iff.mp hi).1
  cases made with
  | share j => exact absurd hmade (hfirst j)
  | cancel j => exact hholds.elim
  | fresh =>
      obtain ⟨q, hq, hnone, hnew⟩ := hholds
      obtain rfl := Option.some.inj (hi.symm.trans hq)
      exact ⟨hnew, .inl hnone⟩
  | child k =>
      obtain ⟨-, q, p, hq, hp, habove, hnew⟩ := hholds
      obtain rfl := Option.some.inj (hi.symm.trans hq)
      exact ⟨hnew, .inr ⟨k, p, hmade, hp, habove⟩⟩

/-- Only one scope has a token to itself at first. -/
theorem first_unique (h : s.Reflects acts) (hi : s.tokenOf[i]? = some t)
    (hj : s.tokenOf[j]? = some t) (hfirst : ∀ k, ¬ Shares acts i k)
    (hfirst' : ∀ k, ¬ Shares acts j k) : i = j := by
  rcases Nat.lt_trichotomy i j with hlt | heq | hlt
  · exact absurd ((h.of_first hfirst' hj).1 i t hlt hi) (Nat.lt_irrefl t)
  · exact heq
  · exact absurd ((h.of_first hfirst hi).1 j t hlt hj) (Nat.lt_irrefl t)

/-- Scopes hold one token only if they have come by it in one way. -/
theorem sameToken_of_eq (h : s.Reflects acts) (hi : s.tokenOf[i]? = some t)
    (hj : s.tokenOf[j]? = some t) : SameToken acts i j := by
  obtain ⟨o, -, hio, hfirst⟩ := h.exists_first (List.getElem?_eq_some_iff.mp hi).1
  obtain ⟨o', -, hjo', hfirst'⟩ := h.exists_first (List.getElem?_eq_some_iff.mp hj).1
  obtain rfl : o = o' := h.first_unique ((h.tokenOf_eq hio).symm.trans hi)
    ((h.tokenOf_eq hjo').symm.trans hj) hfirst hfirst'
  exact .trans _ _ _ hio (.symm _ _ hjo')

/-- A scope heeds those who hold the token above its own. -/
theorem heeds_of_above? (h : s.Reflects acts) (hi : s.tokenOf[i]? = some t)
    (hj : s.tokenOf[j]? = some p) (hstep : s.above? t = some p) : Heeds acts i j := by
  obtain ⟨o, -, hio, hfirst⟩ := h.exists_first (List.getElem?_eq_some_iff.mp hi).1
  obtain ⟨-, hnone | ⟨k, q, hchild, hq, habove⟩⟩ :=
    h.of_first hfirst ((h.tokenOf_eq hio).symm.trans hi)
  · cases hnone.symm.trans hstep
  · obtain rfl := Option.some.inj (hstep.symm.trans habove)
    exact hio.heeds.trans (.head (.inr hchild) (h.sameToken_of_eq hq hj).heeds)

/-- To heed a scope is to hold a token at or under that scope's. -/
theorem heeds_iff (h : s.Reflects acts) (hi : s.tokenOf[i]? = some t)
    (hj : s.tokenOf[j]? = some p) : Heeds acts i j ↔ s.AtOrUnder t p := by
  constructor
  · intro hpath
    induction hpath using Relation.ReflTransGen.head_induction_on generalizing t with
    | refl =>
        obtain rfl := Option.some.inj (hi.symm.trans hj)
        exact .refl
    | head hstep _ ih =>
        rcases hstep with hsame | hchild
        · exact ih ((h.tokenOf_eq hsame).symm.trans hi)
        · obtain ⟨-, q, r, hq, hr, habove, -⟩ := h.holds _ _ hchild
          obtain rfl := Option.some.inj (hi.symm.trans hq)
          exact .head habove (ih hr)
  · intro hpath
    induction hpath using Relation.ReflTransGen.head_induction_on generalizing i with
    | refl => exact (h.sameToken_of_eq hi hj).heeds
    | head hstep _ ih =>
        obtain ⟨k, hk⟩ := h.held _ (Nat.lt_trans (h.layered _ _ hstep) (lt_of_above? hstep))
        exact (h.heeds_of_above? hi hk hstep).trans (ih hk)

/-- A scope is cancelled exactly if one that it heeds was. -/
theorem cancelled_iff (h : s.Reflects acts) (hi : i < s.size) :
    s.cancelled i = true ↔ ∃ j, .cancel j ∈ acts ∧ Heeds acts i j := by
  obtain ⟨t, ht, hlt⟩ := h.whole i hi
  rw [cancelled, ht, Option.any_some, h.flags t hlt]
  refine exists_congr fun j => ?_
  constructor
  · rintro ⟨p, hj, hp, hpath⟩
    exact ⟨hj, (h.heeds_iff ht hp).mpr hpath⟩
  · rintro ⟨hj, hheeds⟩
    obtain ⟨p, hp, -⟩ := h.whole j (h.named j hj)
    exact ⟨p, hj, hp, (h.heeds_iff ht hp).mp hheeds⟩

/-- Cancelling a scope reaches those that heed it. -/
theorem cancelled_cancel_iff (h : s.Reflects acts) (hi : i < s.size) (hj : j < s.size) :
    (s.cancel j).cancelled i = true ↔ s.cancelled i = true ∨ Heeds acts i j := by
  obtain ⟨t, ht, -⟩ := h.whole i hi
  obtain ⟨p, hp, hlt⟩ := h.whole j hj
  rw [cancelled, cancelled, tokenOf_cancel, ht, Option.any_some, Option.any_some,
    tokenCancelled_cancel_iff h.layered h.downward hp hlt, h.heeds_iff ht hp]

/-- A scope that was made on a token of its own heeds nobody but the scopes on that token, and those
that the one heeds under which it was made. -/
theorem heeds_child (h : s.Reflects acts) (hij : IsChild acts i j) (hk : k < s.size) :
    Heeds acts i k ↔ SameToken acts i k ∨ Heeds acts j k := by
  obtain ⟨-, t, p, ht, hp, habove, -⟩ := h.holds i _ hij
  obtain ⟨q, hq, -⟩ := h.whole k hk
  constructor
  · intro hheeds
    rcases Relation.ReflTransGen.cases_head ((h.heeds_iff ht hq).mp hheeds) with
      rfl | ⟨r, hstep, hrest⟩
    · exact .inl (h.sameToken_of_eq ht hq)
    · obtain rfl := Option.some.inj (habove.symm.trans hstep)
      exact .inr ((h.heeds_iff hp hq).mpr hrest)
  · rintro (hsame | hheeds)
    · exact hsame.heeds
    · exact hij.heeds.trans hheeds

/-- A scope that was made under another one is heeded by those that stem from it, and no others. -/
theorem heeds_iff_stems (h : s.Reflects acts) (hj : IsChild acts j k) (hi : i < s.size) :
    Heeds acts i j ↔ Stems acts i j := by
  refine ⟨fun hheeds => ?_, Stems.heeds⟩
  have hjlt := h.lt_size hj
  induction i using Nat.strongRecOn with
  | ind i ih =>
      by_cases hij : i = j
      · exact hij ▸ .refl
      obtain ⟨q, hq, -⟩ := h.whole j hjlt
      -- A scope that had its token to itself at first does not share that of scope `j`.
      have hapart : s.tokenOf[i]? = some q → ¬ ∀ l, ¬ Shares acts i l := fun hi hfirst =>
        hij (h.first_unique hi hq hfirst hj.not_shares)
      obtain ⟨made, hmade, hholds⟩ := h.exists_making hi
      cases made with
      | share l =>
          have hsame : SameToken acts l i := .symm _ _ (.rel _ _ hmade)
          have hstems := ih l hholds.1 (Nat.lt_trans hholds.1 hi) (hsame.heeds.trans hheeds)
          exact .head (.inl hmade) hstems
      | child l =>
          have hchild : IsChild acts i l := hmade
          rcases (h.heeds_child hchild hjlt).mp hheeds with hsame | hup
          · exact absurd hchild.not_shares (hapart ((h.tokenOf_eq hsame).trans hq))
          · exact .head (.inr hmade) (ih l hholds.1 (Nat.lt_trans hholds.1 hi) hup)
      | fresh =>
          obtain ⟨t, ht, hnone, -⟩ := hholds
          rcases Relation.ReflTransGen.cases_head ((h.heeds_iff ht hq).mp hheeds) with
            rfl | ⟨r, hstep, -⟩
          · refine absurd (fun l hl => ?_) (hapart ht)
            cases hmade.symm.trans hl
          · cases hnone.symm.trans hstep
      | cancel l => exact hholds.elim

/-- No scope heeds one that was made under another one later than it was made itself. -/
theorem not_heeds_later (h : s.Reflects acts) (hchild : IsChild acts j k) (hij : i < j) :
    ¬ Heeds acts i j := by
  obtain ⟨-, t, _, ht, -, -, hnew⟩ := h.holds j _ hchild
  obtain ⟨q, hq, -⟩ := h.whole i (Nat.lt_trans hij (h.lt_size hchild))
  intro hheeds
  have hle := ((h.heeds_iff hq ht).mp hheeds).le h.layered
  exact absurd (hnew i q hij hq) (Nat.not_lt.mpr hle)

/-- Scopes that heed each other hold one token. -/
theorem sameToken_of_heeds (h : s.Reflects acts) (hi : i < s.size) (hj : j < s.size)
    (hij : Heeds acts i j) (hji : Heeds acts j i) : SameToken acts i j := by
  obtain ⟨t, ht, -⟩ := h.whole i hi
  obtain ⟨p, hp, -⟩ := h.whole j hj
  have hle := ((h.heeds_iff ht hp).mp hij).le h.layered
  have hge := ((h.heeds_iff hp ht).mp hji).le h.layered
  obtain rfl := Nat.le_antisymm hle hge
  exact h.sameToken_of_eq ht hp

/-- Scopes that were made right under one token do not heed each other. -/
theorem not_heeds_sibling (h : s.Reflects acts) (hi : IsChild acts i k) {l : Nat}
    (hj : IsChild acts j l) (hkl : SameToken acts k l) (hne : i ≠ j) : ¬ Heeds acts i j := by
  intro hheeds
  rcases Nat.lt_or_gt_of_ne hne with hlt | hgt
  · exact h.not_heeds_later hj hlt hheeds
  rcases (h.heeds_child hi (h.lt_size hj)).mp hheeds with hsame | hheeds
  · exact h.not_heeds_later hi hgt (.single (.inl (.symm _ _ hsame)))
  · -- The token above both stands before that of `j`.
    obtain ⟨hlj, t, p, ht, hp, habove, -⟩ := h.holds j _ hj
    have hle := ((h.heeds_iff ((h.tokenOf_eq hkl).trans hp) ht).mp hheeds).le h.layered
    exact absurd (h.layered t p habove) (Nat.not_lt.mpr hle)

end Reflects

/-! ## Histories -/

theorem size_after (h : Possible acts) : (after acts).size = (makings acts).length :=
  (reflects_after h).size

/-- No cancellation is ever taken back. -/
theorem cancelled_after_append (h : (after acts).cancelled i = true) (more : List Act) :
    (after (acts ++ more)).cancelled i = true := by
  induction more using List.reverseRecOn with
  | nil => rwa [List.append_nil]
  | append_singleton more a ih =>
      rw [← List.append_assoc, after_concat]
      exact cancelled_act a ih

/-- After any history a scope is cancelled, and whoever waits for that finds it so, exactly if one
of the acts has cancelled a scope whose token is its own or stands above it.  So no cancellation is
taken back, a scope is born as the one under which it is made, and scopes on one token agree; and
cancelling a scope changes nothing for those that do not heed it, such as those that stand above it
and those beside it. -/
theorem cancelled_by_history (h : Possible acts) :
    (∀ i < (after acts).size,
      ((after acts).cancelled i = true ↔ ∃ j, .cancel j ∈ acts ∧ Heeds acts i j) ∧
      ((after acts).poll i = .ready ↔ ∃ j, .cancel j ∈ acts ∧ Heeds acts i j)) ∧
    (∀ more i, (after acts).cancelled i = true → (after (acts ++ more)).cancelled i = true) ∧
    (∀ i < (after acts).size,
      (after (acts ++ [.child i])).cancelled (after acts).size = (after acts).cancelled i) ∧
    (∀ i j, SameToken acts i j → (after acts).cancelled i = (after acts).cancelled j) ∧
    (∀ i < (after acts).size, ∀ j < (after acts).size, ¬ Heeds acts i j →
      (after (acts ++ [.cancel j])).cancelled i = (after acts).cancelled i) ∧
    (∀ i < (after acts).size, ∀ j < (after acts).size, Heeds acts j i → ¬ SameToken acts i j →
      ¬ Heeds acts i j) ∧
    (∀ i j k l, IsChild acts i k → IsChild acts j l → SameToken acts k l → i ≠ j →
      ¬ Heeds acts i j) := by
  have hreflects := reflects_after h
  refine ⟨fun i hi => ⟨hreflects.cancelled_iff hi, ?poll⟩, fun more i hi => ?kept,
    fun i hi => ?born, fun i j hsame => ?agree, fun i hi j hj hnot => ?unchanged,
    fun i hi j hj hji hnot hij => ?above,
    fun i j k l hi hj hkl hne => hreflects.not_heeds_sibling hi hj hkl hne⟩
  case poll => rw [poll_eq_ready_iff, hreflects.cancelled_iff hi]
  case kept => exact cancelled_after_append hi more
  case born => rw [after_concat, act, cancelled_child]
  case agree => rw [cancelled, cancelled, hreflects.tokenOf_eq hsame]
  case unchanged =>
    rw [after_concat, act, Bool.eq_iff_iff, hreflects.cancelled_cancel_iff hi hj]
    exact or_iff_left hnot
  case above => exact hnot (hreflects.sameToken_of_heeds hi hj hij hji)

/-! ## Two branches -/

/-- A scope with a child that is shared, cancelled, and has a child then; and another child. -/
def twoBranches : List Act := [.fresh, .child 0, .share 1, .cancel 1, .child 2, .child 0]

/-- The late child of the cancelled branch is cancelled, the other branch and the root are not. -/
theorem cancelled_by_history_of_twoBranches : Possible twoBranches ∧
    (∃ j, .cancel j ∈ twoBranches ∧ Heeds twoBranches 3 j) ∧
    ¬ (∃ j, .cancel j ∈ twoBranches ∧ Heeds twoBranches 4 j) ∧
    (after twoBranches).poll 0 = .pending ∧ ¬ Heeds twoBranches 0 3 ∧ ¬ Heeds twoBranches 1 4 := by
  have hpossible : Possible twoBranches := by decide
  obtain ⟨hflags, -, -, -, -, habove, hbeside⟩ := cancelled_by_history hpossible
  refine ⟨hpossible, (hflags 3 (by decide)).1.mp (by decide), fun hfour => ?_, by decide, ?_, ?_⟩
  · have := (hflags 4 (by decide)).1.mpr hfour
    revert this
    decide
  · refine habove 0 (by decide) 3 (by decide) ?_ fun hsame => ?_
    · have hchild : IsChild twoBranches 3 2 := rfl
      have hshares : Shares twoBranches 2 1 := rfl
      have hroot : IsChild twoBranches 1 0 := rfl
      exact hchild.heeds.trans (.trans (SameToken.heeds (.rel _ _ hshares)) hroot.heeds)
    · have := (reflects_after hpossible).tokenOf_eq hsame
      revert this
      decide
  · exact hbeside 1 4 0 0 rfl rfl (.refl 0) (by decide)

end Converge.Scopes
