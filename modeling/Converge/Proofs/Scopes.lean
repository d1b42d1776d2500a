import Converge.Scope

/-!
# Cancellation never goes back

A scope that has been cancelled stays so whatever else is cancelled, and cancelling a scope that
holds a token cancels that scope and every scope that was made right under it.
-/

namespace Converge.Scopes

/-! ## One sweep -/

/-- A sweep takes no cancellation back. -/
theorem cancelled_sweep (t : Nat) (done rest : List Token) (k : Nat)
    (h : ((done ++ rest)[k]?).any Token.cancelled = true) :
    ((sweep t done rest)[k]?).any Token.cancelled = true := by
  induction rest generalizing done with
  | nil => simpa [sweep] using h
  | cons token rest ih =>
      rw [sweep]
      apply ih
      -- Only the token at the place `done.length` is written, and its flag is only raised.
      rcases Nat.lt_trichotomy k done.length with hk | rfl | hk
      · simpa [List.getElem?_append, hk, Nat.lt_succ_of_lt hk] using h
      · have hflag : token.cancelled = true := by simpa using h
        simp [List.append_assoc, hflag]
      · obtain ⟨n, rfl⟩ : ∃ n, k = done.length + (n + 1) := ⟨k - done.length - 1, by omega⟩
        simpa [List.append_assoc, List.getElem?_append_right] using h

/-- A sweep from a token cancels it. -/
theorem cancelled_sweep_self (t : Nat) (done rest : List Token) (h : done.length ≤ t)
    (ht : t < done.length + rest.length) :
    ((sweep t done rest)[t]?).any Token.cancelled = true := by
  induction rest generalizing done with
  | nil => simp at ht; omega
  | cons token rest ih =>
      rw [sweep]
      by_cases hd : done.length = t
      · apply cancelled_sweep
        subst hd
        simp [List.append_assoc]
      · exact ih _ (by simp; omega) (by simp at ht ⊢; omega)

/-- A sweep leaves alone what it has visited. -/
theorem getElem?_sweep_of_lt (t : Nat) (done rest : List Token) {k : Nat} (h : k < done.length) :
    (sweep t done rest)[k]? = done[k]? := by
  induction rest generalizing done with
  | nil => simp [sweep]
  | cons token rest ih =>
      rw [sweep, ih _ (by simp; omega), List.getElem?_append_left h]

/-- A sweep leaves every token under the one that it was made under. -/
theorem parent_sweep (t : Nat) (done rest : List Token) (k : Nat) :
    ((sweep t done rest)[k]?).map Token.parent? = ((done ++ rest)[k]?).map Token.parent? := by
  induction rest generalizing done with
  | nil => simp [sweep]
  | cons token rest ih =>
      rw [sweep, ih, List.append_assoc]
      rcases Nat.lt_trichotomy k done.length with hk | rfl | hk
      · simp [List.getElem?_append_left hk]
      · simp
      · obtain ⟨n, rfl⟩ : ∃ n, k = done.length + (n + 1) := ⟨k - done.length - 1, by omega⟩
        simp [List.getElem?_append_right]

/-- A sweep cancels what was made under a token that is cancelled by the end of it. -/
theorem cancelled_sweep_under (t : Nat) (done rest : List Token) {k p : Nat} {token : Token}
    (hk : done.length ≤ k) (hpk : p < k) (htoken : (done ++ rest)[k]? = some token)
    (hparent : token.parent? = some p)
    (hp : ((sweep t done rest)[p]?).any Token.cancelled = true) :
    ((sweep t done rest)[k]?).any Token.cancelled = true := by
  induction rest generalizing done with
  | nil =>
      have := (List.getElem?_eq_some_iff.mp htoken).1
      simp at this
      omega
  | cons token' rest ih =>
      rw [sweep] at hp ⊢
      by_cases hd : done.length = k
      · subst hd
        obtain rfl : token' = token := by simpa using htoken
        -- The sweep has visited the token's parent, and left it as it is now.
        rw [getElem?_sweep_of_lt _ _ _ (by simp; omega), List.getElem?_append_left hpk] at hp
        apply cancelled_sweep
        simp [List.append_assoc, hparent, hp]
      · refine ih _ (by simp; omega) ?_ hp
        obtain ⟨n, rfl⟩ : ∃ n, k = done.length + (n + 1) := ⟨k - done.length - 1, by omega⟩
        simpa [List.append_assoc, List.getElem?_append_right] using htoken

/-! ## Cancelling a scope -/

/-- Does a scope hold a token? -/
def HasToken (s : Scopes) (i : Nat) : Prop := ∃ t, s.tokenOf[i]? = some t ∧ t < s.tokens.length

@[simp] theorem tokenOf_cancel (s : Scopes) (i : Nat) : (s.cancel i).tokenOf = s.tokenOf := by
  unfold cancel; split <;> rfl

@[simp] theorem length_tokens_cancel (s : Scopes) (i : Nat) :
    (s.cancel i).tokens.length = s.tokens.length := by
  unfold cancel; split <;> simp

@[simp] theorem hasToken_cancel (s : Scopes) (i j : Nat) :
    (s.cancel i).HasToken j ↔ s.HasToken j := by
  simp [HasToken]

/-- No scope is revived by the cancellation of another. -/
theorem cancelled_cancel {s : Scopes} {j : Nat} (h : s.cancelled j = true) (i : Nat) :
    (s.cancel i).cancelled j = true := by
  unfold cancelled at *
  rw [tokenOf_cancel]
  cases hj : s.tokenOf[j]? with
  | none => simp [hj] at h
  | some k =>
      simp only [hj, Option.any_some] at h ⊢
      unfold cancel
      split
      · exact h
      · exact cancelled_sweep _ [] _ _ (by simpa [tokenCancelled] using h)

/-- A scope with a token is cancelled by its own cancellation. -/
theorem cancelled_cancel_self {s : Scopes} {i : Nat} (h : s.HasToken i) :
    (s.cancel i).cancelled i = true := by
  obtain ⟨t, hi, ht⟩ := h
  simp only [cancelled, tokenOf_cancel, hi, Option.any_some]
  simp only [cancel, hi, tokenCancelled]
  exact cancelled_sweep_self t [] s.tokens (by simp) (by simpa using ht)

/-- Was the token of scope `i` made right under that of scope `j`? -/
def Under (s : Scopes) (i j : Nat) : Prop :=
  ∃ k p, s.tokenOf[i]? = some k ∧ s.tokenOf[j]? = some p ∧ p < k ∧
    (s.tokens[k]?).map Token.parent? = some (some p)

/-- Cancellation moves no token. -/
theorem Under.cancel {s : Scopes} {i j : Nat} (h : s.Under i j) (n : Nat) :
    (s.cancel n).Under i j := by
  obtain ⟨k, p, hi, hj, hpk, hk⟩ := h
  refine ⟨k, p, by simpa using hi, by simpa using hj, hpk, ?_⟩
  rw [← hk]
  unfold Scopes.cancel
  split
  · rfl
  · simpa using parent_sweep _ [] s.tokens k

/-- A scope is cancelled together with the one it was made under. -/
theorem cancelled_cancel_under {s : Scopes} {i j : Nat} (h : s.Under i j) :
    (s.cancel j).cancelled i = true := by
  obtain ⟨k, p, hi, hj, hpk, hk⟩ := h
  obtain ⟨token, htoken, hparent⟩ := Option.map_eq_some_iff.mp hk
  have hlt : k < s.tokens.length := (List.getElem?_eq_some_iff.mp htoken).1
  simp only [cancelled, tokenOf_cancel, hi, Option.any_some]
  simp only [Scopes.cancel, hj, tokenCancelled]
  refine cancelled_sweep_under p [] s.tokens (by simp) hpk (by simpa using htoken) hparent ?_
  exact cancelled_sweep_self p [] s.tokens (by simp) (by simp; omega)

/-- A scope made under another one holds a token. -/
theorem hasToken_child (s : Scopes) (i : Nat) : (s.child i).HasToken s.size :=
  ⟨s.tokens.length, by simp [child, size], by simp [child]⟩

/-- A new scope stands under the one that it was made under. -/
theorem under_child {s : Scopes} {i : Nat} (h : s.HasToken i) : (s.child i).Under s.size i := by
  obtain ⟨p, hi, hp⟩ := h
  have hlt : i < s.tokenOf.length := (List.getElem?_eq_some_iff.mp hi).1
  refine ⟨s.tokens.length, p, by simp [child, size], ?_, hp, by simp [child, hi]⟩
  simpa [child, List.getElem?_append_left hlt] using hi

/-- Every scope holds a token.  It is so with a single scope, and stays so whatever scopes are made
and cancelled. -/
def Whole (s : Scopes) : Prop := ∀ i < s.size, s.HasToken i

theorem whole_one : one.Whole := by
  intro i hi
  obtain rfl : i = 0 := Nat.lt_one_iff.mp hi
  exact ⟨0, rfl, Nat.one_pos⟩

/-- A scope more makes no difference to the others. -/
theorem Whole.push {s : Scopes} (h : s.Whole) {tokens : List Token} {k : Nat}
    (htokens : s.tokens.length ≤ tokens.length) (hk : k < tokens.length) :
    Whole ⟨tokens, s.tokenOf ++ [k]⟩ := by
  intro i hi
  rw [size, List.length_append, List.length_singleton] at hi
  by_cases hlt : i < s.tokenOf.length
  · obtain ⟨t, ht, hlt'⟩ := h i hlt
    exact ⟨t, by rw [List.getElem?_append_left hlt, ht], Nat.lt_of_lt_of_le hlt' htokens⟩
  · obtain rfl : i = s.tokenOf.length := by omega
    exact ⟨k, by simp, hk⟩

theorem Whole.fresh {s : Scopes} (h : s.Whole) : s.fresh.Whole :=
  h.push (by simp) (by simp)

theorem Whole.child {s : Scopes} (h : s.Whole) (i : Nat) : (s.child i).Whole :=
  h.push (by simp) (by simp)

theorem Whole.share {s : Scopes} (h : s.Whole) {i : Nat} (hi : i < s.size) :
    (s.share i).Whole := by
  obtain ⟨t, ht, hlt⟩ := h i hi
  refine h.push (Nat.le_refl _) ?_
  rwa [ht, Option.getD_some]

theorem Whole.cancel {s : Scopes} (h : s.Whole) (i : Nat) : (s.cancel i).Whole :=
  fun j hj => (hasToken_cancel s i j).mpr (h j (by rwa [size_cancel] at hj))

/-- A scope made under another one is born as that one is. -/
@[simp] theorem cancelled_child (s : Scopes) (i : Nat) :
    (s.child i).cancelled s.size = s.cancelled i := by
  simp [cancelled, child, size, tokenCancelled]

end Converge.Scopes
