import Converge.Proofs.Visit.Order

/-! # Nodes that are entered

A walk does not go through all of a tree: it passes over what lies beneath a resource that it
leaves alone, and stops at the first failure.  Which nodes it enters is told here by their places;
a walk that succeeds counts them.
-/

namespace Converge

open Course (World Step)

variable {Q : Type} {A : Q → Type} {R σ : Type}

theorem Policy.eq_or_eq (policy : Policy) : policy = .skipSubtree ∨ policy = .selfOnly := by
  cases policy with
  | skipSubtree => exact .inl rfl
  | selfOnly => exact .inr rfl

namespace Tree

variable {w : World Q A σ} {P : Provider Q A R} {policy : Policy} {above : Address} {s s' : σ}
  {cs : List (Returned R)}

section Entered

variable (w : World Q A σ) (P : Provider Q A R) (policy : Policy)

mutual

/-- The places of the nodes that are entered in a walk from state `s` over a tree that is found at
place `p` below `above`, in the order in which they are entered. -/
def enteredAt (above : Address) (p : Place) : Tree R → σ → List Place
  | node name resource ts, s =>
      if w.cancelled s then []
      else
        p :: match resource with
          | none => enteredAll (above.child name) p 0 ts s
          | some r =>
              match (P.satisfied r).run w.answer s with
              | (.ok true, u) =>
                  match policy with
                  | .skipSubtree => []
                  | .selfOnly => enteredAll (above.child name) p 0 ts u
              | (.ok false, u) => enteredAll (above.child name) p 0 ts u
              | (.error _, _) => []

/-- The same for a list of children, the first of which has number `i`: the next one is gone to
only when the walk over the one before it has succeeded. -/
def enteredAll (above : Address) (p : Place) (i : Nat) : List (Tree R) → σ → List Place
  | [], _ => []
  | t :: ts, s =>
      enteredAt above (p ++ [i]) t s ++
        match (t.convergeAt P policy above).run w s with
        | (.ok _, _, u) => enteredAll above p (i + 1) ts u
        | (.error _, _, _) => []

end

/-- The places of the nodes that a walk over a whole tree enters. -/
def entered (t : Tree R) (s : σ) : List Place := enteredAt w P policy .top [] t s

end Entered

section

variable (above) (p : Place) (name : String) (ts : List (Tree R)) (hs : w.cancelled s = false)
include hs

theorem enteredAt_bare : enteredAt w P policy above p (node name none ts) s =
    p :: enteredAll w P policy (above.child name) p 0 ts s := by
  simp [enteredAt, hs]

theorem enteredAt_wanting {r : R} {u : σ} (h : (P.satisfied r).run w.answer s = (.ok false, u)) :
    enteredAt w P policy above p (node name (some r) ts) s =
      p :: enteredAll w P policy (above.child name) p 0 ts u := by
  simp [enteredAt, hs, h]

theorem enteredAt_rest {r : R} {u : σ} (h : (P.satisfied r).run w.answer s = (.ok true, u))
    (hpolicy : policy = .skipSubtree) :
    enteredAt w P policy above p (node name (some r) ts) s = [p] := by
  simp [enteredAt, hs, h, hpolicy]

theorem enteredAt_pass {r : R} {u : σ} (h : (P.satisfied r).run w.answer s = (.ok true, u))
    (hpolicy : policy = .selfOnly) :
    enteredAt w P policy above p (node name (some r) ts) s =
      p :: enteredAll w P policy (above.child name) p 0 ts u := by
  simp [enteredAt, hs, h, hpolicy]

end

theorem enteredAll_cons {p : Place} {i : Nat} {t : Tree R} {ts : List (Tree R)} {tally : Tally}
    {u : σ} (h : (t.convergeAt P policy above).Makes w P s (.ok tally) cs u) :
    enteredAll w P policy above p i (t :: ts) s =
      enteredAt w P policy above (p ++ [i]) t s ++
        enteredAll w P policy above p (i + 1) ts u := by
  obtain ⟨steps, hrun, -⟩ := h
  simp [enteredAll, hrun]

mutual

/-- A visit that succeeds counts the nodes that are entered. -/
theorem Visit.visited_eq : ∀ {t : Tree R} {above : Address} {s s' : σ} {cs : List (Returned R)}
    {tally : Tally}, Visit w P policy above t s cs (.ok tally) s' →
    ∀ p, (enteredAt w P policy above p t s).length = tally.visited
  | node name none ts, above, s, s', cs, tally, h => by
      intro p
      cases h with
      | bare hs hts hresult =>
          obtain ⟨below, rfl⟩ := exists_ok_of_map hresult
          cases hresult
          rw [enteredAt_bare _ _ _ _ hs, List.length_cons, hts.visited_eq p 0]
          simp [Tally.enter, Nat.add_comm]
  | node name (some r) ts, above, s, s', cs, tally, h => by
      intro p
      cases h with
      | rest hs hcall hpolicy =>
          rw [enteredAt_rest _ _ _ _ hs (Course.plan_of_run_ofPlan hcall) hpolicy]
          rfl
      | pass hs hcall hpolicy hts hresult =>
          obtain ⟨below, rfl⟩ := exists_ok_of_map hresult
          cases hresult
          rw [enteredAt_pass _ _ _ _ hs (Course.plan_of_run_ofPlan hcall) hpolicy, List.length_cons,
            hts.visited_eq p 0]
          simp [Tally.enter, Tally.rest, Nat.add_comm]
      | worked hs hcall hts hu hcall' =>
          rw [enteredAt_wanting _ _ _ _ hs (Course.plan_of_run_ofPlan hcall), List.length_cons,
            hts.visited_eq p 0]
          simp [Tally.enter, Tally.work, Nat.add_comm]

theorem VisitAll.visited_eq : ∀ {ts : List (Tree R)} {above : Address} {s s' : σ}
    {cs : List (Returned R)} {tally : Tally}, VisitAll w P policy above ts s cs (.ok tally) s' →
    ∀ p i, (enteredAll w P policy above p i ts s).length = tally.visited
  | [], above, s, s', cs, tally, h => by
      intro p i
      cases h with
      | nil => simp [enteredAll]
  | t :: ts, above, s, s', cs, tally, h => by
      intro p i
      cases h with
      | cons ht hts hresult =>
          obtain ⟨others, rfl⟩ := exists_ok_of_map hresult
          cases hresult
          rw [enteredAll_cons ht.makes, List.length_append, ht.visited_eq, hts.visited_eq]
          rfl

end

/-- At a node, its own place comes first if it is entered at all, and then those of its children,
if they are gone to. -/
theorem enteredAt_cases (w : World Q A σ) (P : Provider Q A R) (policy : Policy) (above : Address)
    (p : Place) (name : String) (r : Option R) (ts : List (Tree R)) (s : σ) :
    enteredAt w P policy above p (node name r ts) s = [] ∨
      ∃ rest, enteredAt w P policy above p (node name r ts) s = p :: rest ∧
        (rest = [] ∨ ∃ u, rest = enteredAll w P policy (above.child name) p 0 ts u) := by
  cases hs : w.cancelled s with
  | true => exact .inl (by cases r <;> simp [enteredAt, hs])
  | false =>
      right
      cases r with
      | none => exact ⟨_, enteredAt_bare above p name ts hs, .inr ⟨s, rfl⟩⟩
      | some r =>
          obtain ⟨⟨answer, u⟩, h⟩ : ∃ x, (P.satisfied r).run w.answer s = x := ⟨_, rfl⟩
          match answer with
          | .error f => exact ⟨[], by simp [enteredAt, hs, h], .inl rfl⟩
          | .ok false => exact ⟨_, enteredAt_wanting above p name ts hs h, .inr ⟨u, rfl⟩⟩
          | .ok true =>
              rcases policy.eq_or_eq with hpolicy | hpolicy
              · exact ⟨_, enteredAt_rest above p name ts hs h hpolicy, .inl rfl⟩
              · exact ⟨_, enteredAt_pass above p name ts hs h hpolicy, .inr ⟨u, rfl⟩⟩

theorem enteredAll_cases (w : World Q A σ) (P : Provider Q A R) (policy : Policy)
    (above : Address) (p : Place) (i : Nat) (t : Tree R) (ts : List (Tree R)) (s : σ) :
    ∃ rest, enteredAll w P policy above p i (t :: ts) s =
        enteredAt w P policy above (p ++ [i]) t s ++ rest ∧
      (rest = [] ∨ ∃ u, rest = enteredAll w P policy above p (i + 1) ts u) := by
  rw [enteredAll]
  refine ⟨_, rfl, ?_⟩
  split
  · exact .inr ⟨_, rfl⟩
  · exact .inl rfl

mutual

/-- Nodes are entered at places of the tree. -/
theorem exists_of_mem_enteredAt : ∀ (t : Tree R) {above : Address} {p : Place} {s : σ} {x : Place},
    x ∈ enteredAt w P policy above p t s → ∃ q, x = p ++ q ∧ ∃ u, t.at? q = some u
  | node name r ts, above, p, s, x, hx => by
      have hself : ∃ q, p = p ++ q ∧ ∃ u, (node name r ts).at? q = some u :=
        ⟨[], by rw [List.append_nil], _, at?_nil _⟩
      rcases enteredAt_cases w P policy above p name r ts s with heq | ⟨rest, heq, hrest⟩
      · rw [heq] at hx
        cases hx
      · rw [heq, List.mem_cons] at hx
        rcases hx with rfl | hx
        · exact hself
        rcases hrest with rfl | ⟨u, rfl⟩
        · cases hx
        · obtain ⟨j, q, rfl, t, ht, v, hv⟩ := exists_of_mem_enteredAll ts hx
          refine ⟨j :: q, by rw [Nat.zero_add], v, ?_⟩
          rw [at?_cons, children, ht]
          exact hv

theorem exists_of_mem_enteredAll : ∀ (ts : List (Tree R)) {above : Address} {p : Place} {i : Nat}
    {s : σ} {x : Place}, x ∈ enteredAll w P policy above p i ts s →
    ∃ j q, x = p ++ (i + j) :: q ∧ ∃ t, ts[j]? = some t ∧ ∃ u, t.at? q = some u
  | [], above, p, i, s, x, hx => by
      rw [enteredAll] at hx
      cases hx
  | t :: ts, above, p, i, s, x, hx => by
      obtain ⟨rest, heq, hrest⟩ := enteredAll_cases w P policy above p i t ts s
      rw [heq, List.mem_append] at hx
      rcases hx with hx | hx
      · obtain ⟨q, rfl, u, hu⟩ := exists_of_mem_enteredAt t hx
        exact ⟨0, q, by simp, t, rfl, u, hu⟩
      rcases hrest with rfl | ⟨u, rfl⟩
      · cases hx
      · obtain ⟨j, q, rfl, t', ht', v, hv⟩ := exists_of_mem_enteredAll ts hx
        exact ⟨j + 1, q, by rw [Nat.add_right_comm, Nat.add_assoc], t', ht', v, hv⟩

end

mutual

/-- No node is entered twice. -/
theorem nodup_enteredAt : ∀ (t : Tree R) (above : Address) (p : Place) (s : σ),
    (enteredAt w P policy above p t s).Nodup
  | node name r ts, above, p, s => by
      rcases enteredAt_cases w P policy above p name r ts s with heq | ⟨rest, heq, rfl | ⟨u, rfl⟩⟩
      · rw [heq]
        exact List.nodup_nil
      · rw [heq]
        simp
      · rw [heq, List.nodup_cons]
        refine ⟨fun hp => ?_, nodup_enteredAll ts _ p 0 u⟩
        obtain ⟨j, q, hq, -⟩ := exists_of_mem_enteredAll ts hp
        have := congrArg List.length hq
        simp at this

theorem nodup_enteredAll : ∀ (ts : List (Tree R)) (above : Address) (p : Place) (i : Nat) (s : σ),
    (enteredAll w P policy above p i ts s).Nodup
  | [], above, p, i, s => by
      rw [enteredAll]
      exact List.nodup_nil
  | t :: ts, above, p, i, s => by
      obtain ⟨rest, heq, hrest⟩ := enteredAll_cases w P policy above p i t ts s
      rw [heq, List.nodup_append]
      refine ⟨nodup_enteredAt t above _ s, ?_, ?_⟩
      · rcases hrest with rfl | ⟨u, rfl⟩
        · exact List.nodup_nil
        · exact nodup_enteredAll ts above p (i + 1) u
      · rintro x hx y hy rfl
        rcases hrest with rfl | ⟨u, rfl⟩
        · cases hy
        · obtain ⟨q, rfl, -⟩ := exists_of_mem_enteredAt t hx
          obtain ⟨j, q', heq', -⟩ := exists_of_mem_enteredAll ts hy
          simp at heq'
          omega

end

end Tree

end Converge
