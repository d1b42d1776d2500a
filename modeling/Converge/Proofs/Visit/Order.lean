import Converge.Proofs.Visit
import Converge.Proofs.Visit.Places

/-! # The order of calls

In a walk every node is asked and worked on at most once, and it is worked on only after it was
found wanting and after everything beneath it has been seen to.  Nodes are told apart by their
places, so the walk is followed over the tree that carries them.
-/

namespace Converge

open Course (World Step)

variable {Q : Type} {A : Q → Type} {R σ : Type}

/-- The place of the node that a call is made on. -/
def Returned.place (c : Returned (Place × R)) : Place := c.resource.1

namespace Tree

variable {w : World Q A σ} {P : Provider Q A R} {policy : Policy} {above : Address} {s s' : σ}
  {cs : List (Returned R)} {result : Except Fault Tally}

/-! ## Completed visits -/

mutual

/-- The calls are those of a visit that was completed: the resource of the node was found as
declared, or it was worked on with success after the children. -/
inductive Completed (policy : Policy) : Tree R → List (Returned R) → Prop
  | bare {name ts cs} (hts : CompletedAll policy ts cs) : Completed policy (node name none ts) cs
  | rest {name r ts} (hpolicy : policy = .skipSubtree) :
      Completed policy (node name (some r) ts) [.satisfied r (.ok true)]
  | pass {name r ts cs} (hpolicy : policy = .selfOnly) (hts : CompletedAll policy ts cs) :
      Completed policy (node name (some r) ts) (.satisfied r (.ok true) :: cs)
  | worked {name r ts cs} (hts : CompletedAll policy ts cs) :
      Completed policy (node name (some r) ts)
        (.satisfied r (.ok false) :: (cs ++ [.apply r (.ok ())]))

/-- The calls are those of completed visits to the nodes of the list, one after the other. -/
inductive CompletedAll (policy : Policy) : List (Tree R) → List (Returned R) → Prop
  | nil : CompletedAll policy [] []
  | cons {t ts cs ds} (ht : Completed policy t cs) (hts : CompletedAll policy ts ds) :
      CompletedAll policy (t :: ts) (cs ++ ds)

end

theorem exists_ok_of_map {r : Except Fault Tally} {f : Tally → Tally} {tally : Tally}
    (h : .ok tally = r.map f) : ∃ below, r = .ok below := by
  cases r with
  | ok below => exact ⟨below, rfl⟩
  | error e => cases h

mutual

/-- A visit that succeeds is completed. -/
theorem Visit.completed : ∀ {t : Tree R} {above : Address} {s s' : σ} {cs : List (Returned R)}
    {tally : Tally}, Visit w P policy above t s cs (.ok tally) s' → Completed policy t cs
  | node name none ts, above, s, s', cs, tally, h => by
      cases h with
      | bare hs hts hresult =>
          obtain ⟨below, rfl⟩ := exists_ok_of_map hresult
          exact .bare hts.completed
  | node name (some r) ts, above, s, s', cs, tally, h => by
      cases h with
      | rest hs hcall hpolicy => exact .rest hpolicy
      | pass hs hcall hpolicy hts hresult =>
          obtain ⟨below, rfl⟩ := exists_ok_of_map hresult
          exact .pass hpolicy hts.completed
      | worked hs hcall hts hu hcall' => exact .worked hts.completed

theorem VisitAll.completed : ∀ {ts : List (Tree R)} {above : Address} {s s' : σ}
    {cs : List (Returned R)} {tally : Tally},
    VisitAll w P policy above ts s cs (.ok tally) s' → CompletedAll policy ts cs
  | [], above, s, s', cs, tally, h => by
      cases h with
      | nil => exact .nil
  | t :: ts, above, s, s', cs, tally, h => by
      cases h with
      | cons ht hts hresult =>
          obtain ⟨others, rfl⟩ := exists_ok_of_map hresult
          exact .cons ht.completed hts.completed

end

/-! ## The calls at a node

For what calls are made, and in what order, there are only three ways through a node that holds a
resource: it is left before a call, it is left after its first call, or its children are visited.
-/

/-- The calls of a visit to a node that holds a resource. -/
theorem Visit.calls_cases {name : String} {r : R} {ts : List (Tree R)}
    (h : Visit w P policy above (node name (some r) ts) s cs result s') :
    cs = [] ∨ (∃ answer, cs = [.satisfied r answer]) ∨
      ∃ satisfied t inner below u outer,
        cs = .satisfied r (.ok satisfied) :: (inner ++ outer) ∧
        VisitAll w P policy (above.child name) ts t inner below u ∧
        (satisfied = true → policy = .selfOnly) ∧
        (outer = [] ∨ ∃ answer tally, outer = [.apply r answer] ∧ satisfied = false ∧
          below = .ok tally) := by
  cases h with
  | cancelled hs => exact .inl rfl
  | unknown hs hcall => exact .inr (.inl ⟨_, rfl⟩)
  | rest hs hcall hpolicy => exact .inr (.inl ⟨_, rfl⟩)
  | pass hs hcall hpolicy hts hresult =>
      exact .inr (.inr ⟨true, _, _, _, _, [], by simp, hts, fun _ => hpolicy, .inl rfl⟩)
  | stuck hs hcall hts => exact .inr (.inr ⟨false, _, _, _, _, [], by simp, hts, nofun, .inl rfl⟩)
  | halted hs hcall hts hs' =>
      exact .inr (.inr ⟨false, _, _, _, _, [], by simp, hts, nofun, .inl rfl⟩)
  | failed hs hcall hts hu hcall' =>
      exact .inr (.inr ⟨false, _, _, _, _, _, rfl, hts, nofun, .inr ⟨_, _, rfl, rfl, rfl⟩⟩)
  | worked hs hcall hts hu hcall' =>
      exact .inr (.inr ⟨false, _, _, _, _, _, rfl, hts, nofun, .inr ⟨_, _, rfl, rfl, rfl⟩⟩)

/-- The calls of a visit to a node that holds none. -/
theorem Visit.calls_cases_bare {name : String} {ts : List (Tree R)}
    (h : Visit w P policy above (node name none ts) s cs result s') :
    cs = [] ∨ ∃ below, VisitAll w P policy (above.child name) ts s cs below s' := by
  cases h with
  | cancelled hs => exact .inl rfl
  | bare hs hts hresult => exact .inr ⟨_, hts⟩

/-- Children are visited from the first on: a visit to the first one, and then the rest. -/
theorem VisitAll.calls_cases {t : Tree R} {ts : List (Tree R)}
    (h : VisitAll w P policy above (t :: ts) s cs result s') :
    ∃ first xs u ys, cs = xs ++ ys ∧ Visit w P policy above t s xs first u ∧
      (ys = [] ∨ ∃ tally others, first = .ok tally ∧
        VisitAll w P policy above ts u ys others s') := by
  cases h with
  | fails ht => exact ⟨_, _, _, [], by simp, ht, .inl rfl⟩
  | cons ht hts hresult => exact ⟨_, _, _, _, rfl, ht, .inr ⟨_, _, rfl, hts⟩⟩

mutual

/-- Calls are made on nodes of the tree only. -/
theorem Visit.within : ∀ {t : Tree R} {above : Address} {s s' : σ} {cs : List (Returned R)}
    {result : Except Fault Tally}, Visit w P policy above t s cs result s' →
    ∀ c ∈ cs, ∃ name ts, (node name (some c.resource) ts).Within t
  | node name none ts, above, s, s', cs, result, h => by
      intro c hc
      rcases h.calls_cases_bare with rfl | ⟨below, hts⟩
      · cases hc
      · obtain ⟨t, ht, name', ts', hwithin⟩ := hts.within c hc
        exact ⟨name', ts', .beneath ht hwithin⟩
  | node name (some r) ts, above, s, s', cs, result, h => by
      intro c hc
      rcases h.calls_cases with rfl | ⟨answer, rfl⟩ |
        ⟨satisfied, t, inner, below, u, outer, rfl, hts, -, houter⟩
      · cases hc
      · obtain rfl := List.mem_singleton.mp hc
        exact ⟨name, ts, .here⟩
      · rcases List.mem_cons.mp hc with rfl | hc
        · exact ⟨name, ts, .here⟩
        rcases List.mem_append.mp hc with hc | hc
        · obtain ⟨t, ht, name', ts', hwithin⟩ := hts.within c hc
          exact ⟨name', ts', .beneath ht hwithin⟩
        · rcases houter with rfl | ⟨answer, tally, rfl, -, -⟩
          · cases hc
          · obtain rfl := List.mem_singleton.mp hc
            exact ⟨name, ts, .here⟩

theorem VisitAll.within : ∀ {ts : List (Tree R)} {above : Address} {s s' : σ}
    {cs : List (Returned R)} {result : Except Fault Tally},
    VisitAll w P policy above ts s cs result s' →
    ∀ c ∈ cs, ∃ t ∈ ts, ∃ name ts', (node name (some c.resource) ts').Within t
  | [], above, s, s', cs, result, h => by
      cases h with
      | nil => exact fun c hc => nomatch hc
  | t :: ts, above, s, s', cs, result, h => by
      intro c hc
      obtain ⟨first, xs, u, ys, rfl, ht, hys⟩ := h.calls_cases
      rcases List.mem_append.mp hc with hc | hc
      · exact ⟨t, List.mem_cons_self, ht.within c hc⟩
      · rcases hys with rfl | ⟨tally, others, -, hts⟩
        · cases hc
        · obtain ⟨t', ht', hwithin⟩ := hts.within c hc
          exact ⟨t', List.mem_cons_of_mem t ht', hwithin⟩

end

/-! ## Work comes after everything beneath -/

/-- Before work on `r` begins, the calls end with those of its node that must precede it: the
resource was found wanting, and then the visits of all children were completed. -/
def Preceded (policy : Policy) (t : Tree R) (before : List (Returned R)) (r : R) : Prop :=
  ∃ name ts earlier below, (node name (some r) ts).Within t ∧
    before = earlier ++ .satisfied r (.ok false) :: below ∧ CompletedAll policy ts below

theorem Preceded.append {t : Tree R} {before : List (Returned R)} {r : R}
    (h : Preceded policy t before r) (earlier : List (Returned R)) :
    Preceded policy t (earlier ++ before) r := by
  obtain ⟨name, ts, first, below, hwithin, rfl, hbelow⟩ := h
  exact ⟨name, ts, earlier ++ first, below, hwithin, by rw [List.append_assoc], hbelow⟩

theorem Preceded.beneath {t : Tree R} {before : List (Returned R)} {r : R} {name : String}
    {r' : Option R} {ts : List (Tree R)} (h : Preceded policy t before r) (ht : t ∈ ts) :
    Preceded policy (node name r' ts) before r := by
  obtain ⟨name', ts', earlier, below, hwithin, heq, hbelow⟩ := h
  exact ⟨name', ts', earlier, below, .beneath ht hwithin, heq, hbelow⟩

/-- A member of two lists, one after the other, lies in the first one or in the second one. -/
theorem append_eq_append_cons {α : Type} {xs ys before after : List α} {a : α}
    (h : xs ++ ys = before ++ a :: after) :
    (∃ mid, xs = before ++ a :: mid) ∨ ∃ mid, before = xs ++ mid ∧ ys = mid ++ a :: after := by
  rcases List.append_eq_append_iff.mp h with ⟨mid, hbefore, hys⟩ | ⟨mid, hxs, hafter⟩
  · exact .inr ⟨mid, hbefore, hys⟩
  · cases mid with
    | nil => exact .inr ⟨[], by simpa using hxs.symm, by simpa using hafter.symm⟩
    | cons x mid =>
        obtain ⟨rfl, -⟩ := List.cons.inj hafter
        exact .inl ⟨mid, hxs⟩

mutual

theorem Visit.preceded : ∀ {t : Tree R} {above : Address} {s s' : σ}
    {cs before after : List (Returned R)} {result : Except Fault Tally} {r : R}
    {answer : Except Failure Unit}, Visit w P policy above t s cs result s' →
    cs = before ++ .apply r answer :: after → Preceded policy t before r
  | node name none ts, above, s, s', cs, before, after, result, r, answer, h, hcs => by
      rcases h.calls_cases_bare with rfl | ⟨below, hts⟩
      · simp at hcs
      · obtain ⟨t, ht, hpreceded⟩ := hts.preceded hcs
        exact hpreceded.beneath ht
  | node name (some r') ts, above, s, s', cs, before, after, result, r, answer, h, hcs => by
      rcases h.calls_cases with rfl | ⟨answer', rfl⟩ |
        ⟨satisfied, t, inner, below, u, outer, rfl, hts, -, houter⟩
      · simp at hcs
      · cases before <;> simp at hcs
      · cases before with
        | nil => simp at hcs
        | cons c before =>
            obtain ⟨rfl, hrest⟩ := List.cons.inj hcs
            rcases append_eq_append_cons hrest with ⟨mid, hinner⟩ | ⟨mid, rfl, hmid⟩
            · obtain ⟨t, ht, hpreceded⟩ := hts.preceded hinner
              exact (hpreceded.beneath ht).append [.satisfied r' (.ok satisfied)]
            · -- the call is the work on the node itself
              rcases houter with rfl | ⟨answer'', tally, rfl, rfl, rfl⟩
              · simp at hmid
              · cases mid with
                | cons c mid => simp at hmid
                | nil =>
                    obtain ⟨hcall, -⟩ := List.cons.inj hmid
                    cases hcall
                    exact ⟨name, ts, [], inner, .here, by simp, hts.completed⟩

theorem VisitAll.preceded : ∀ {ts : List (Tree R)} {above : Address} {s s' : σ}
    {cs before after : List (Returned R)} {result : Except Fault Tally} {r : R}
    {answer : Except Failure Unit}, VisitAll w P policy above ts s cs result s' →
    cs = before ++ .apply r answer :: after → ∃ t ∈ ts, Preceded policy t before r
  | [], above, s, s', cs, before, after, result, r, answer, h, hcs => by
      cases h with
      | nil => simp at hcs
  | t :: ts, above, s, s', cs, before, after, result, r, answer, h, hcs => by
      obtain ⟨first, xs, u, ys, rfl, ht, hys⟩ := h.calls_cases
      rcases append_eq_append_cons hcs with ⟨mid, hxs⟩ | ⟨mid, rfl, hmid⟩
      · exact ⟨t, List.mem_cons_self, ht.preceded hxs⟩
      · rcases hys with rfl | ⟨tally, others, -, hts⟩
        · simp at hmid
        · obtain ⟨t', ht', hpreceded⟩ := hts.preceded hmid
          exact ⟨t', List.mem_cons_of_mem t ht', hpreceded.append xs⟩

end

/-! ## Calls and places

Calls at the node at place `p` and beneath it are made at places that extend `p`, and those at
different children of it at places that differ in the number after `p`.
-/

section Places

variable {w : World Q A σ} {P : Provider Q A (Place × R)} {cs : List (Returned (Place × R))}

theorem Visit.exists_place {t : Tree R} {p : Place}
    (h : Visit w P policy above (t.placedAt p) s cs result s') :
    ∀ c ∈ cs, ∃ q, c.place = p ++ q := by
  intro c hc
  obtain ⟨name, ts, hwithin⟩ := h.within c hc
  obtain ⟨q, ⟨name', r, ts'⟩, -, heq⟩ := hwithin.exists_at? t p rfl
  rw [placedAt_node, node.injEq] at heq
  obtain ⟨r', -, hr'⟩ := Option.map_eq_some_iff.mp heq.2.1.symm
  exact ⟨q, by rw [Returned.place, ← hr']⟩

theorem VisitAll.exists_place {ts : List (Tree R)} {p : Place} {i : Nat}
    (h : VisitAll w P policy above (placedAll p i ts) s cs result s') :
    ∀ c ∈ cs, ∃ j q, i ≤ j ∧ c.place = p ++ j :: q := by
  intro c hc
  obtain ⟨t', ht', name, ts', hwithin⟩ := h.within c hc
  obtain ⟨j, hj⟩ := List.mem_iff_getElem?.mp ht'
  rw [getElem?_placedAll, Option.map_eq_some_iff] at hj
  obtain ⟨t, -, rfl⟩ := hj
  obtain ⟨q, ⟨name', r, ts''⟩, -, heq⟩ := hwithin.exists_at? t _ rfl
  rw [placedAt_node, node.injEq] at heq
  obtain ⟨r', -, hr'⟩ := Option.map_eq_some_iff.mp heq.2.1.symm
  exact ⟨i + j, q, by omega, by rw [Returned.place, ← hr']; simp⟩

/-- No call is made twice, and under `skipSubtree` none beneath a node found as declared. -/
structure Tidy (policy : Policy) (cs : List (Returned (Place × R))) : Prop where
  nodup : (cs.map fun c => (c.call, c.place)).Nodup
  spared : policy = .skipSubtree → ∀ p r, .satisfied (p, r) (.ok true) ∈ cs →
    ∀ c ∈ cs, ∀ i q, c.place ≠ p ++ i :: q

theorem Tidy.nil : Tidy policy ([] : List (Returned (Place × R))) where
  nodup := List.nodup_nil
  spared _ _ _ h := nomatch h

/-- Calls at places that do not lie above one another can be put together. -/
theorem Tidy.append {xs ys : List (Returned (Place × R))} (hxs : Tidy policy xs)
    (hys : Tidy policy ys)
    (hapart : ∀ x ∈ xs, ∀ y ∈ ys, ∀ q, x.place ≠ y.place ++ q ∧ y.place ≠ x.place ++ q) :
    Tidy policy (xs ++ ys) where
  nodup := by
    rw [List.map_append, List.nodup_append]
    refine ⟨hxs.nodup, hys.nodup, fun a ha b hb hab => ?_⟩
    obtain ⟨x, hx, rfl⟩ := List.mem_map.mp ha
    obtain ⟨y, hy, rfl⟩ := List.mem_map.mp hb
    have hplace : x.place = y.place := congrArg Prod.snd hab
    exact (hapart x hx y hy []).1 (by rw [hplace, List.append_nil])
  spared hpolicy p r hsat c hc i q heq := by
    rcases List.mem_append.mp hsat with hsat | hsat <;> rcases List.mem_append.mp hc with hc | hc
    · exact hxs.spared hpolicy p r hsat c hc i q heq
    · exact (hapart _ hsat c hc (i :: q)).2 heq
    · exact (hapart c hc _ hsat (i :: q)).1 heq
    · exact hys.spared hpolicy p r hsat c hc i q heq

/-- So can the calls on a node and those beneath it, unless it was found as declared. -/
theorem Tidy.around {p : Place} {r : R} {answer : Except Failure Bool}
    {inner outer : List (Returned (Place × R))} (hinner : Tidy policy inner)
    (hbelow : ∀ c ∈ inner, ∃ i q, c.place = p ++ i :: q)
    (houter : outer = [] ∨ ∃ answer', outer = [.apply (p, r) answer'])
    (hspared : policy = .skipSubtree → answer ≠ .ok true) :
    Tidy policy (.satisfied (p, r) answer :: (inner ++ outer)) where
  nodup := by
    have hself : ∀ c, (c, p) ∉ inner.map fun d => (d.call, d.place) := by
      intro c hc
      obtain ⟨d, hd, heq⟩ := List.mem_map.mp hc
      obtain ⟨i, q, hplace⟩ := hbelow d hd
      rw [Prod.mk.injEq, hplace] at heq
      simp at heq
    rcases houter with rfl | ⟨answer', rfl⟩
    · rw [List.append_nil, List.map_cons, List.nodup_cons]
      exact ⟨hself .satisfied, hinner.nodup⟩
    · rw [List.map_cons, List.map_append, List.nodup_cons, List.nodup_append]
      refine ⟨?_, hinner.nodup, by simp, ?_⟩
      · rw [List.mem_append]
        rintro (h | h)
        · exact hself .satisfied h
        · simp [Returned.call] at h
      · rintro a ha b hb rfl
        obtain rfl := List.mem_singleton.mp hb
        exact hself .apply ha
  spared hpolicy p' r' hsat c hc i q heq := by
    -- the node found as declared is beneath `p`, and so nothing on `p` is beneath it
    have hsat' : .satisfied (p', r') (.ok true) ∈ inner := by
      rcases List.mem_cons.mp hsat with h | h
      · cases h
        exact absurd rfl (hspared hpolicy)
      rcases List.mem_append.mp h with h | h
      · exact h
      · rcases houter with rfl | ⟨answer', rfl⟩
        · cases h
        · simp at h
    obtain ⟨j, q', hplace⟩ := hbelow _ hsat'
    have hp' : p' = p ++ j :: q' := hplace
    have hself : c.place ≠ p := by
      rintro rfl
      have := congrArg List.length heq
      rw [hp'] at this
      simp at this
    rcases List.mem_cons.mp hc with rfl | hc
    · exact hself rfl
    rcases List.mem_append.mp hc with hc | hc
    · exact hinner.spared hpolicy p' r' hsat' c hc i q heq
    · rcases houter with rfl | ⟨answer', rfl⟩
      · cases hc
      · obtain rfl := List.mem_singleton.mp hc
        exact hself rfl

mutual

theorem Visit.tidy : ∀ {t : Tree R} {p : Place} {above : Address} {s s' : σ}
    {cs : List (Returned (Place × R))} {result : Except Fault Tally},
    Visit w P policy above (t.placedAt p) s cs result s' → Tidy policy cs
  | node name none ts, p, above, s, s', cs, result, h => by
      rw [placedAt_node, Option.map_none] at h
      rcases h.calls_cases_bare with rfl | ⟨below, hts⟩
      · exact .nil
      · exact hts.tidy
  | node name (some r) ts, p, above, s, s', cs, result, h => by
      rw [placedAt_node, Option.map_some] at h
      rcases h.calls_cases with rfl | ⟨answer, rfl⟩ |
        ⟨satisfied, t, inner, below, u, outer, rfl, hts, hpolicy, houter⟩
      · exact .nil
      · refine ⟨by simp, fun _ p' r' hsat c hc i q heq => ?_⟩
        obtain rfl := List.mem_singleton.mp hc
        cases List.mem_singleton.mp hsat
        simp [Returned.place, Returned.resource] at heq
      · refine hts.tidy.around (fun c hc => ?_) ?_ ?_
        · obtain ⟨j, q, -, hplace⟩ := hts.exists_place c hc
          exact ⟨j, q, hplace⟩
        · rcases houter with rfl | ⟨answer, tally, rfl, -, -⟩
          · exact .inl rfl
          · exact .inr ⟨answer, rfl⟩
        · rintro rfl hsatisfied
          cases hpolicy (Except.ok.inj hsatisfied)

theorem VisitAll.tidy : ∀ {ts : List (Tree R)} {p : Place} {i : Nat} {above : Address} {s s' : σ}
    {cs : List (Returned (Place × R))} {result : Except Fault Tally},
    VisitAll w P policy above (placedAll p i ts) s cs result s' → Tidy policy cs
  | [], p, i, above, s, s', cs, result, h => by
      rw [placedAll_nil] at h
      cases h with
      | nil => exact .nil
  | t :: ts, p, i, above, s, s', cs, result, h => by
      rw [placedAll_cons] at h
      obtain ⟨first, xs, u, ys, rfl, ht, hys⟩ := h.calls_cases
      rcases hys with rfl | ⟨tally, others, -, hts⟩
      · rw [List.append_nil]
        exact ht.tidy
      · refine ht.tidy.append hts.tidy fun x hx y hy q => ?_
        obtain ⟨q₁, hx'⟩ := ht.exists_place x hx
        obtain ⟨j, q₂, hj, hy'⟩ := hts.exists_place y hy
        rw [hx', hy']
        constructor <;> intro heq <;> simp at heq <;> omega

end

end Places

/-! ## The whole walk -/

/-- In a walk over a tree, whatever the world answers:

* calls do not overlap, and each is made on a node of the tree;
* no node is asked twice or worked on twice;
* a node is worked on only after it was found wanting and after that the visits of all its
  children, in their order, were completed;
* under `skipSubtree` no call is made beneath a node that was found as declared;
* if the walk succeeds, the visit to the root is completed. -/
theorem converge_order (P : Provider Q A R) (policy : Policy) (w : World Q A σ) (t : Tree R)
    (s : σ) :
    ∃ result steps s' cs,
      (t.placed.converge (P.comap Prod.snd) policy).run w s = (result, steps, s') ∧
      (t.converge P policy).run w s = (result, steps.map (Step.map Prod.snd), s') ∧
      Calls w (P.comap Prod.snd) s steps cs s' ∧
      (∀ c ∈ cs, ∃ name ts, t.at? c.place = some (node name (some c.resource.2) ts)) ∧
      (cs.map fun c => (c.call, c.place)).Nodup ∧
      (∀ before p r answer after, cs = before ++ .apply (p, r) answer :: after →
        ∃ name ts, t.at? p = some (node name (some r) ts) ∧
          ∃ earlier below, before = earlier ++ .satisfied (p, r) (.ok false) :: below ∧
            CompletedAll policy (placedAll p 0 ts) below) ∧
      (policy = .skipSubtree → ∀ p r, .satisfied (p, r) (.ok true) ∈ cs →
        ∀ c ∈ cs, ∀ i q, c.place ≠ p ++ i :: q) ∧
      (∀ tally, result = .ok tally → Completed policy t.placed cs) := by
  obtain ⟨cs, result, s', ⟨steps, hrun, hcs⟩, hvisit⟩ :=
    exists_visit_of_converge w (P.comap Prod.snd) policy t.placed s
  refine ⟨result, steps, s', cs, hrun, ?_, hcs, ?_, hvisit.tidy.nodup, ?_, hvisit.tidy.spared, ?_⟩
  · rw [run_converge_placed, hrun]
  · intro c hc
    obtain ⟨name, ts, hwithin⟩ := hvisit.within c hc
    obtain ⟨q, ⟨name', r, ts'⟩, hat, heq⟩ := hwithin.exists_at? t [] rfl
    rw [placedAt_node, node.injEq] at heq
    obtain ⟨r', rfl, hr'⟩ := Option.map_eq_some_iff.mp heq.2.1.symm
    refine ⟨name', ts', ?_⟩
    rw [Returned.place, ← hr']
    exact hat
  · intro before p r answer after hcalls
    obtain ⟨name, ts, earlier, below, hwithin, hbefore, hbelow⟩ := hvisit.preceded hcalls
    obtain ⟨q, ⟨name', r', ts'⟩, hat, heq⟩ := hwithin.exists_at? t [] rfl
    rw [placedAt_node, node.injEq] at heq
    obtain ⟨r'', rfl, hr''⟩ := Option.map_eq_some_iff.mp heq.2.1.symm
    cases hr''
    obtain rfl := heq.2.2
    exact ⟨name', ts', hat, earlier, below, hbefore, hbelow⟩
  · rintro tally rfl
    exact hvisit.completed

end Tree

end Converge
