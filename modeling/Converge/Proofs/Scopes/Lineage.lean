import Converge.Proofs.Scopes
import Converge.Scope.History
import Mathlib.Logic.Relation

/-!
# What a cancellation reaches

Cancelling a scope cancels its token and every token under that one, and no other: tokens stand
under tokens that were made before them, so one sweep in order of making finds all of them.
-/

namespace Converge.Scopes

/-- The token that token `t` was made under. -/
def above? (s : Scopes) (t : Nat) : Option Nat := (s.tokens[t]?).bind Token.parent?

/-- Token `t` is `p`, or was made under it, directly or not. -/
def AtOrUnder (s : Scopes) : Nat → Nat → Prop :=
  Relation.ReflTransGen fun t p => s.above? t = some p

/-- Tokens stand under tokens that were made before them. -/
def Layered (s : Scopes) : Prop := ∀ t p, s.above? t = some p → p < t

/-- What stands under a cancelled token is cancelled. -/
def Downward (s : Scopes) : Prop :=
  ∀ t p, s.above? t = some p → s.tokenCancelled p = true → s.tokenCancelled t = true

variable {s s' : Scopes} {i j t p : Nat}

theorem lt_of_above? (h : s.above? t = some p) : t < s.tokens.length := by
  obtain ⟨token, htoken, -⟩ := Option.bind_eq_some_iff.mp h
  exact (List.getElem?_eq_some_iff.mp htoken).1

theorem lt_of_tokenCancelled (h : s.tokenCancelled t = true) : t < s.tokens.length := by
  obtain ⟨token, htoken, -⟩ := (Option.any_eq_true _ _).mp h
  exact (List.getElem?_eq_some_iff.mp htoken).1

namespace AtOrUnder

theorem le (h : s.AtOrUnder t p) (hlayered : s.Layered) : p ≤ t := by
  induction h with
  | refl => exact Nat.le_refl _
  | tail _ hstep ih => exact Nat.le_trans (Nat.le_of_lt (hlayered _ _ hstep)) ih

/-- Only what stands above the first tokens counts for them. -/
theorem mono {n : Nat} (h : s.AtOrUnder t p) (hlayered : s.Layered)
    (habove : ∀ k < n, s'.above? k = s.above? k) (ht : t < n) : s'.AtOrUnder t p := by
  induction h using Relation.ReflTransGen.head_induction_on with
  | refl => exact .refl
  | head hstep _ ih =>
      exact .head ((habove _ ht).trans hstep) (ih (Nat.lt_trans (hlayered _ _ hstep) ht))

end AtOrUnder

theorem atOrUnder_congr {n : Nat} (hlayered : s.Layered) (hlayered' : s'.Layered)
    (habove : ∀ k < n, s'.above? k = s.above? k) (ht : t < n) :
    s'.AtOrUnder t p ↔ s.AtOrUnder t p :=
  ⟨fun h => h.mono hlayered' (fun k hk => (habove k hk).symm) ht,
    fun h => h.mono hlayered habove ht⟩

/-! ## One sweep -/

/-- A sweep from a token cancels nothing but what stands under it. -/
theorem of_cancelled_sweep (hdown : s.Downward) (done rest : List Token)
    (hrest : s.tokens.drop done.length = rest)
    (hdone : ∀ k, (done[k]?).any Token.cancelled = true →
      s.tokenCancelled k = true ∨ s.AtOrUnder k t) {k : Nat}
    (h : ((sweep t done rest)[k]?).any Token.cancelled = true) :
    s.tokenCancelled k = true ∨ s.AtOrUnder k t := by
  induction rest generalizing done with
  | nil => exact hdone k h
  | cons token rest ih =>
      have htoken : s.tokens[done.length]? = some token := by
        rw [← Nat.add_zero done.length, ← List.getElem?_drop, hrest, List.getElem?_cons_zero]
      rw [sweep] at h
      refine ih _ ?_ (fun k hk => ?_) h
      · rw [List.length_append, ← List.drop_drop, hrest, List.length_singleton,
          List.drop_one, List.tail_cons]
      · rcases Nat.lt_trichotomy k done.length with hlt | rfl | hgt
        · rw [List.getElem?_append_left hlt] at hk
          exact hdone k hk
        · -- The token that is visited: it was cancelled before, or the sweep begins here, or the
          -- token above it has been hit.
          rw [List.getElem?_concat_length] at hk
          simp only [Option.any_some, Bool.or_eq_true, decide_eq_true_eq] at hk
          rcases hk with hk | rfl | hk
          · exact .inl (by rw [tokenCancelled, htoken]; exact hk)
          · exact .inr .refl
          · obtain ⟨p, hparent, hp⟩ := (Option.any_eq_true _ _).mp hk
            have habove : s.above? done.length = some p := by rw [above?, htoken]; exact hparent
            rcases hdone p hp with hp | hp
            · exact .inl (hdown _ _ habove hp)
            · exact .inr (.head habove hp)
        · rw [List.getElem?_eq_none (by simp; omega)] at hk
          cases hk

/-! ## Cancelling a scope -/

@[simp] theorem above?_cancel (s : Scopes) (i t : Nat) : (s.cancel i).above? t = s.above? t := by
  have hparent : ((s.cancel i).tokens[t]?).map Token.parent? =
      (s.tokens[t]?).map Token.parent? := by
    unfold cancel
    split
    · rfl
    · simpa using parent_sweep _ [] s.tokens t
  have hbind : ∀ token? : Option Token, token?.bind Token.parent? =
      (token?.map Token.parent?).join := by
    rintro (_ | _) <;> rfl
  rw [above?, above?, hbind, hbind, hparent]

theorem atOrUnder_cancel (s : Scopes) (i : Nat) : (s.cancel i).AtOrUnder = s.AtOrUnder := by
  simp only [AtOrUnder, above?_cancel]

/-- A cancellation reaches the tokens at and under the one that is cancelled. -/
theorem tokenCancelled_cancel_iff (hlayered : s.Layered) (hdown : s.Downward)
    (hi : s.tokenOf[i]? = some p) (hp : p < s.tokens.length) :
    (s.cancel i).tokenCancelled t = true ↔ s.tokenCancelled t = true ∨ s.AtOrUnder t p := by
  simp only [cancel, hi, tokenCancelled]
  constructor
  · exact of_cancelled_sweep hdown [] s.tokens rfl (fun k hk => by cases hk)
  · rintro (ht | ht)
    · exact cancelled_sweep p [] s.tokens t ht
    · induction ht using Relation.ReflTransGen.head_induction_on with
      | refl => exact cancelled_sweep_self p [] s.tokens (Nat.zero_le _) (by simpa using hp)
      | head hstep _ ih =>
          obtain ⟨token, htoken, hparent⟩ := Option.bind_eq_some_iff.mp hstep
          exact cancelled_sweep_under p [] s.tokens (Nat.zero_le _) (hlayered _ _ hstep) htoken
            hparent ih

/-! ## What an act leaves as it is -/

theorem tokenOf_act (a : Act) (hi : i < s.size) : (s.act a).tokenOf[i]? = s.tokenOf[i]? := by
  cases a with
  | cancel j => rw [act, tokenOf_cancel]
  | fresh | share | child => exact List.getElem?_append_left hi

/-! The tokens of new scopes. -/

theorem tokenOf_fresh (s : Scopes) : s.fresh.tokenOf[s.size]? = some s.tokens.length := by
  simp [fresh, size]

theorem tokenOf_child (s : Scopes) (i : Nat) :
    (s.child i).tokenOf[s.size]? = some s.tokens.length := by
  simp [child, size]

theorem tokenOf_share (h : s.tokenOf[i]? = some t) : (s.share i).tokenOf[s.size]? = some t := by
  simp [share, size, h]

theorem above?_fresh (s : Scopes) : s.fresh.above? s.tokens.length = none := by
  simp [fresh, above?]

theorem above?_child (s : Scopes) (i : Nat) :
    (s.child i).above? s.tokens.length = s.tokenOf[i]? := by
  simp [child, above?]

/-- Only two acts make a token. -/
theorem act_of_new_token {a : Act} (hold : ¬ t < s.tokens.length)
    (ht : t < (s.act a).tokens.length) :
    t = s.tokens.length ∧ (a = .fresh ∨ ∃ i, a = .child i) := by
  cases a with
  | cancel i =>
      rw [act, length_tokens_cancel] at ht
      exact absurd ht hold
  | share i => exact absurd ht hold
  | fresh =>
      have hlength : s.fresh.tokens.length = s.tokens.length + 1 := by simp [fresh]
      rw [act, hlength] at ht
      exact ⟨by omega, .inl rfl⟩
  | child i =>
      have hlength : (s.child i).tokens.length = s.tokens.length + 1 := by simp [child]
      rw [act, hlength] at ht
      exact ⟨by omega, .inr ⟨i, rfl⟩⟩

theorem above?_act (a : Act) (ht : t < s.tokens.length) : (s.act a).above? t = s.above? t := by
  cases a with
  | cancel j => exact above?_cancel s j t
  | share j => rfl
  | fresh | child => simp [act, above?, fresh, child, List.getElem?_append_left ht]

theorem size_act (s : Scopes) (a : Act) : (s.act a).size = s.size + (makings [a]).length := by
  cases a with
  | fresh => exact size_fresh s
  | share i => exact size_share s i
  | child i => exact size_child s i
  | cancel i => exact size_cancel s i

/-- No act takes a cancellation back. -/
theorem tokenCancelled_act (a : Act) (h : s.tokenCancelled t = true) :
    (s.act a).tokenCancelled t = true := by
  have ht := lt_of_tokenCancelled h
  cases a with
  | cancel i =>
      rw [act, cancel]
      split
      · exact h
      · exact cancelled_sweep _ [] s.tokens t h
  | share i => exact h
  | fresh | child =>
      simpa [tokenCancelled, act, fresh, child, List.getElem?_append_left ht] using h

theorem cancelled_act (a : Act) (h : s.cancelled i = true) : (s.act a).cancelled i = true := by
  obtain ⟨t, hi, ht⟩ := (Option.any_eq_true _ _).mp h
  have hlt : i < s.size := (List.getElem?_eq_some_iff.mp hi).1
  rw [cancelled, tokenOf_act a hlt, hi]
  exact tokenCancelled_act a ht

end Converge.Scopes
