import Converge.Proofs.Scopes.Lineage
import Mathlib.Data.List.Induction

/-!
# Scopes and their history

What a history has made of the scopes: how every scope holds its token, by the act that has made the
scope, and which tokens are cancelled, by the cancellations so far.  One act after the other keeps
the two together.
-/

namespace Converge.Scopes

variable {acts : List Act} {s : Scopes} {a : Act} {i : Nat}

/-- Token `t` was made later than those of the scopes before `i`. -/
def IsNewer (s : Scopes) (t i : Nat) : Prop := ∀ (k q : Nat), k < i → s.tokenOf[k]? = some q → q < t

/-- How scope `i` holds its token, by the act that has made it. -/
def Holds (s : Scopes) (i : Nat) : Act → Prop
  | .fresh => ∃ t, s.tokenOf[i]? = some t ∧ s.above? t = none ∧ s.IsNewer t i
  | .child j => j < i ∧ ∃ t p, s.tokenOf[i]? = some t ∧ s.tokenOf[j]? = some p ∧
      s.above? t = some p ∧ s.IsNewer t i
  | .share j => j < i ∧ s.tokenOf[i]? = s.tokenOf[j]?
  | .cancel _ => False

/-- The scopes are what the acts have made of them. -/
structure Reflects (s : Scopes) (acts : List Act) : Prop where
  size : s.size = (makings acts).length
  whole : s.Whole
  layered : s.Layered
  /-- Only scopes that were made are cancelled. -/
  named : ∀ j, .cancel j ∈ acts → j < s.size
  /-- Every token was made for a scope. -/
  held : ∀ t < s.tokens.length, ∃ i : Nat, s.tokenOf[i]? = some t
  holds : ∀ i a, (makings acts)[i]? = some a → s.Holds i a
  flags : ∀ t < s.tokens.length, s.tokenCancelled t = true ↔
    ∃ j p, .cancel j ∈ acts ∧ s.tokenOf[j]? = some p ∧ s.AtOrUnder t p

namespace Reflects

theorem lt_size (h : s.Reflects acts) (hi : (makings acts)[i]? = some a) : i < s.size := by
  rw [h.size]
  exact (List.getElem?_eq_some_iff.mp hi).1

theorem lt_tokens (h : s.Reflects acts) (hi : s.tokenOf[i]? = some t) : t < s.tokens.length := by
  obtain ⟨q, hq, hlt⟩ := h.whole i (List.getElem?_eq_some_iff.mp hi).1
  obtain rfl := Option.some.inj (hi.symm.trans hq)
  exact hlt

theorem downward (h : s.Reflects acts) : s.Downward := by
  intro t p hstep hp
  have ht := lt_of_above? hstep
  obtain ⟨j, q, hj, hq, hpath⟩ := (h.flags p (Nat.lt_trans (h.layered t p hstep) ht)).mp hp
  exact (h.flags t ht).mpr ⟨j, q, hj, hq, .head hstep hpath⟩

/-! ### One act more -/

/-- What held of the scopes that were there before holds still. -/
theorem holds_act (h : s.Reflects acts) (a : Act) (hi : i < s.size) {made : Act}
    (hold : s.Holds i made) : (s.act a).Holds i made := by
  have htoken : ∀ k ≤ i, (s.act a).tokenOf[k]? = s.tokenOf[k]? := fun k hk =>
    tokenOf_act a (Nat.lt_of_le_of_lt hk hi)
  have habove : ∀ t, s.tokenOf[i]? = some t → (s.act a).above? t = s.above? t := fun t ht =>
    above?_act a (h.lt_tokens ht)
  have hnewer : ∀ t, s.IsNewer t i → (s.act a).IsNewer t i := fun t hnew k q hk hq =>
    hnew k q hk (by rwa [htoken k (Nat.le_of_lt hk)] at hq)
  cases made with
  | fresh =>
      obtain ⟨t, ht, hnone, hnew⟩ := hold
      exact ⟨t, by rw [htoken i (Nat.le_refl i), ht], by rw [habove t ht, hnone], hnewer t hnew⟩
  | child j =>
      obtain ⟨hj, t, p, ht, hp, hstep, hnew⟩ := hold
      exact ⟨hj, t, p, by rw [htoken i (Nat.le_refl i), ht],
        by rw [htoken j (Nat.le_of_lt hj), hp], by rw [habove t ht, hstep], hnewer t hnew⟩
  | share j =>
      obtain ⟨hj, heq⟩ := hold
      exact ⟨hj, by rw [htoken i (Nat.le_refl i), htoken j (Nat.le_of_lt hj), heq]⟩
  | cancel j => exact hold

/-- A scope more, on the token that is given to it. -/
theorem holds_new (h : s.Reflects acts) (hmakes : a.makes = true) (ha : a.IsPossible s.size) :
    (s.act a).Holds s.size a := by
  have hnewer : (s.act a).IsNewer s.tokens.length s.size := fun k q hk hq =>
    h.lt_tokens (by rwa [tokenOf_act a hk] at hq)
  cases a with
  | fresh => exact ⟨s.tokens.length, s.tokenOf_fresh, s.above?_fresh, hnewer⟩
  | child i =>
      have hi : i < s.size := ha i rfl
      obtain ⟨p, hp, -⟩ := h.whole i hi
      exact ⟨hi, s.tokens.length, p, s.tokenOf_child i, by rw [tokenOf_act _ hi, hp],
        (s.above?_child i).trans hp, hnewer⟩
  | share i =>
      have hi : i < s.size := ha i rfl
      obtain ⟨p, hp, -⟩ := h.whole i hi
      exact ⟨hi, by rw [tokenOf_act _ hi, hp]; exact tokenOf_share hp⟩
  | cancel i => cases hmakes

theorem layered_act (h : s.Reflects acts) (a : Act) : (s.act a).Layered := by
  intro t p hstep
  by_cases hold : t < s.tokens.length
  · rw [above?_act a hold] at hstep
    exact h.layered t p hstep
  · obtain ⟨rfl, rfl | ⟨i, rfl⟩⟩ := act_of_new_token hold (lt_of_above? hstep)
    · rw [Scopes.act, above?_fresh] at hstep
      cases hstep
    · exact h.lt_tokens ((s.above?_child i).symm.trans hstep)

/-- Which tokens are cancelled, as far as they were there before and nothing is cancelled now. -/
theorem flags_old (h : s.Reflects acts) (hmakes : a.makes = true) {t : Nat}
    (ht : t < s.tokens.length) : (s.act a).tokenCancelled t = true ↔
      ∃ j p, .cancel j ∈ acts ++ [a] ∧ (s.act a).tokenOf[j]? = some p ∧
        (s.act a).AtOrUnder t p := by
  have hsame : (s.act a).tokenCancelled t = s.tokenCancelled t := by
    cases a with
    | cancel => cases hmakes
    | share => rfl
    | fresh | child =>
        simp [act, fresh, child, tokenCancelled, List.getElem?_append_left ht]
  rw [hsame, h.flags t ht]
  refine exists_congr fun j => exists_congr fun p => ?_
  have hmem : .cancel j ∈ acts ++ [a] ↔ .cancel j ∈ acts := by
    cases a with
    | cancel => cases hmakes
    | fresh | share | child => simp
  rw [hmem, atOrUnder_congr h.layered (h.layered_act a) (fun _ => above?_act a) ht]
  refine and_congr_right fun hj => ?_
  rw [tokenOf_act a (h.named j hj)]

theorem flags_cancel (h : s.Reflects acts) (hi : i < s.size) {t : Nat}
    (ht : t < s.tokens.length) : (s.act (.cancel i)).tokenCancelled t = true ↔
      ∃ j p, .cancel j ∈ acts ++ [.cancel i] ∧ (s.act (.cancel i)).tokenOf[j]? = some p ∧
        (s.act (.cancel i)).AtOrUnder t p := by
  obtain ⟨q, hq, hlt⟩ := h.whole i hi
  rw [act, tokenCancelled_cancel_iff h.layered h.downward hq hlt, h.flags t ht, atOrUnder_cancel,
    tokenOf_cancel]
  simp only [List.mem_append, List.mem_singleton, Act.cancel.injEq]
  constructor
  · rintro (⟨j, p, hj, hp, hpath⟩ | hpath)
    · exact ⟨j, p, .inl hj, hp, hpath⟩
    · exact ⟨i, q, .inr rfl, hq, hpath⟩
  · rintro ⟨j, p, hj | rfl, hp, hpath⟩
    · exact .inl ⟨j, p, hj, hp, hpath⟩
    · obtain rfl := Option.some.inj (hq.symm.trans hp)
      exact .inr hpath

/-- A token under no other has not been cancelled. -/
theorem flags_fresh (h : s.Reflects acts) : (s.act .fresh).tokenCancelled s.tokens.length = true ↔
    ∃ j p, .cancel j ∈ acts ++ [.fresh] ∧ (s.act .fresh).tokenOf[j]? = some p ∧
      (s.act .fresh).AtOrUnder s.tokens.length p := by
  have hfalse : (s.act .fresh).tokenCancelled s.tokens.length = false := by
    simp [act, fresh, tokenCancelled]
  rw [hfalse]
  refine ⟨fun hflag => absurd hflag Bool.false_ne_true, ?_⟩
  rintro ⟨j, p, hj, hp, hpath⟩
  have hj : .cancel j ∈ acts := by simpa using hj
  rw [tokenOf_act _ (h.named j hj)] at hp
  rcases Relation.ReflTransGen.cases_head hpath with rfl | ⟨q, hstep, -⟩
  · exact absurd (h.lt_tokens hp) (Nat.lt_irrefl _)
  · rw [act, above?_fresh] at hstep
    cases hstep

/-- A token under another one is born as that one is. -/
theorem flags_child (h : s.Reflects acts) (hi : i < s.size) :
    (s.act (.child i)).tokenCancelled s.tokens.length = true ↔
      ∃ j p, .cancel j ∈ acts ++ [.child i] ∧ (s.act (.child i)).tokenOf[j]? = some p ∧
        (s.act (.child i)).AtOrUnder s.tokens.length p := by
  obtain ⟨q, hq, hlt⟩ := h.whole i hi
  have hflag : (s.act (.child i)).tokenCancelled s.tokens.length = s.tokenCancelled q := by
    simp [act, child, tokenCancelled, cancelled, hq]
  have habove : (s.act (.child i)).above? s.tokens.length = some q := (s.above?_child i).trans hq
  have hpaths : ∀ p, (s.act (.child i)).AtOrUnder q p ↔ s.AtOrUnder q p := fun p =>
    atOrUnder_congr h.layered (h.layered_act _) (fun _ => above?_act _) hlt
  rw [hflag, h.flags q hlt]
  constructor
  · rintro ⟨j, p, hj, hp, hpath⟩
    exact ⟨j, p, by simp [hj], by rw [tokenOf_act _ (h.named j hj), hp],
      .head habove ((hpaths p).mpr hpath)⟩
  · rintro ⟨j, p, hj, hp, hpath⟩
    have hj : .cancel j ∈ acts := by simpa using hj
    rw [tokenOf_act _ (h.named j hj)] at hp
    rcases Relation.ReflTransGen.cases_head hpath with rfl | ⟨r, hstep, hrest⟩
    · exact absurd (h.lt_tokens hp) (Nat.lt_irrefl _)
    · obtain rfl := Option.some.inj (habove.symm.trans hstep)
      exact ⟨j, p, hj, hp, (hpaths p).mp hrest⟩

/-- An act more is reflected too. -/
theorem act (h : s.Reflects acts) (ha : a.IsPossible s.size) :
    (s.act a).Reflects (acts ++ [a]) where
  size := by rw [size_act, makings_append, List.length_append, h.size]
  whole := by
    cases a with
    | fresh => exact h.whole.fresh
    | share i => exact h.whole.share (ha i rfl)
    | child i => exact h.whole.child i
    | cancel i => exact h.whole.cancel i
  layered := h.layered_act a
  named j hj := by
    rw [size_act]
    rcases List.mem_append.mp hj with hj | hj
    · exact Nat.lt_add_right _ (h.named j hj)
    · obtain rfl := List.mem_singleton.mp hj
      exact ha j rfl
  held t ht := by
    by_cases hold : t < s.tokens.length
    · obtain ⟨i, hi⟩ := h.held t hold
      exact ⟨i, by rw [tokenOf_act a (List.getElem?_eq_some_iff.mp hi).1, hi]⟩
    · obtain ⟨rfl, rfl | ⟨i, rfl⟩⟩ := act_of_new_token hold ht
      · exact ⟨s.size, s.tokenOf_fresh⟩
      · exact ⟨s.size, s.tokenOf_child i⟩
  holds i made hi := by
    rw [makings_append] at hi
    by_cases hlt : i < s.size
    · rw [List.getElem?_append_left (h.size ▸ hlt)] at hi
      exact h.holds_act a hlt (h.holds i made hi)
    · rw [List.getElem?_append_right (h.size ▸ Nat.le_of_not_lt hlt), ← h.size] at hi
      cases hmakes : a.makes with
      | false => simp [makings, hmakes] at hi
      | true =>
          have hmakings : makings [a] = [a] := by simp [makings, hmakes]
          rw [hmakings, List.getElem?_singleton] at hi
          split at hi
          · obtain rfl := Option.some.inj hi
            obtain rfl : i = s.size := by omega
            exact h.holds_new hmakes ha
          · cases hi
  flags t ht := by
    by_cases hold : t < s.tokens.length
    · cases hmakes : a.makes with
      | true => exact h.flags_old hmakes hold
      | false =>
          cases a with
          | cancel i => exact h.flags_cancel (ha i rfl) hold
          | fresh | share | child => cases hmakes
    · obtain ⟨rfl, rfl | ⟨i, rfl⟩⟩ := act_of_new_token hold ht
      · exact h.flags_fresh
      · exact h.flags_child (ha i rfl)

end Reflects

theorem reflects_after {acts : List Act} (h : Possible acts) : (after acts).Reflects acts := by
  induction acts using List.reverseRecOn with
  | nil =>
      exact ⟨rfl, nofun, nofun, nofun, nofun, nofun, nofun⟩
  | append_singleton acts a ih =>
      obtain ⟨hacts, ha⟩ := possible_concat.mp h
      have hrest := ih hacts
      rw [after_concat]
      exact hrest.act (hrest.size ▸ ha)

end Converge.Scopes
