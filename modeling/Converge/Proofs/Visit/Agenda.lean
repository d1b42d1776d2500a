import Converge.Proofs.Visit

/-! # Agendas

What a walk has yet to do is a list of tasks: nodes to enter, and resources to work on once the
children of their nodes are done.  The calls that have come back determine the list, and when the
scope is cancelled, its first task is where the walk stops.

Entering a node without a resource leaves no trace, so the list is read as it was when the last
call came back.  A walk that is followed state by state may have got further by the next call, but
not if the scope was cancelled meanwhile.
-/

namespace Converge.Tree

open Course (World)

variable {Q : Type} {A : Q → Type} {R σ : Type}

/-- What a walk has yet to do. -/
inductive Task (R : Type) where
  /-- To enter a node that hangs below `above`. -/
  | enter (above : Address) (t : Tree R)
  /-- To work on the resource of the node `here`, whose children are done. -/
  | work (here : Address) (r : R)

/-- The node that a task is about. -/
def Task.address : Task R → Address
  | enter above t => above.child t.name
  | work here _ => here

/-- To enter the nodes of a list. -/
def enterAll (above : Address) (ts : List (Tree R)) : List (Task R) := ts.map (.enter above)

@[simp] theorem enterAll_nil (above : Address) : enterAll above ([] : List (Tree R)) = [] := rfl
@[simp] theorem enterAll_cons (above : Address) (t : Tree R) (ts : List (Tree R)) :
    enterAll above (t :: ts) = .enter above t :: enterAll above ts := rfl

/-- Nodes without a resource are entered until a call comes next. -/
inductive Opens : List (Task R) → List (Task R) → Prop
  | refl (k : List (Task R)) : Opens k k
  | bare {above name ts k k'} (h : Opens (enterAll (above.child name) ts ++ k) k') :
      Opens (.enter above (node name none ts) :: k) k'

/-- The call is the one that comes next, and it succeeds. -/
inductive Serves (policy : Policy) : List (Task R) → Returned R → List (Task R) → Prop
  | rest {above name r ts k} (hpolicy : policy = .skipSubtree) :
      Serves policy (.enter above (node name (some r) ts) :: k) (.satisfied r (.ok true)) k
  | pass {above name r ts k} (hpolicy : policy = .selfOnly) :
      Serves policy (.enter above (node name (some r) ts) :: k) (.satisfied r (.ok true))
        (enterAll (above.child name) ts ++ k)
  | wanting {above name r ts k} :
      Serves policy (.enter above (node name (some r) ts) :: k) (.satisfied r (.ok false))
        (enterAll (above.child name) ts ++ .work (above.child name) r :: k)
  | worked {here r k} : Serves policy (.work here r :: k) (.apply r (.ok ())) k

/-- The call is the one that comes next, and it fails at the node `here` with the given fault. -/
inductive Fails : List (Task R) → Returned R → Address → Fault → Prop
  | unknown {above name r ts k f} :
      Fails (.enter above (node name (some r) ts) :: k) (.satisfied r (.error f))
        (above.child name) (.satisfied (above.child name) f)
  | failed {here r k f} : Fails (.work here r :: k) (.apply r (.error f)) here (.apply here f)

/-- What is left to do after some calls have succeeded. -/
inductive After (policy : Policy) : List (Task R) → List (Returned R) → List (Task R) → Prop
  | none (k : List (Task R)) : After policy k [] k
  | call {k k₁ k₂ k' : List (Task R)} {c : Returned R} {cs : List (Returned R)} (ho : Opens k k₁)
      (hc : Serves policy k₁ c k₂) (hcs : After policy k₂ cs k') : After policy k (c :: cs) k'

/-! ## The calls determine what is left -/

theorem Opens.eq_of_serves {policy : Policy} {k a b a' b' : List (Task R)} {c d : Returned R}
    (h : Opens k a) (h' : Opens k b) (ha : Serves policy a c a') (hb : Serves policy b d b') :
    a = b := by
  induction h with
  | refl k =>
      cases h' with
      | refl => rfl
      | bare h' => cases ha
  | bare h ih =>
      cases h' with
      | refl => cases hb
      | bare h' => exact ih h' ha

theorem Serves.unique {policy : Policy} {k a b : List (Task R)} {c : Returned R}
    (h : Serves policy k c a) (h' : Serves policy k c b) : a = b := by
  cases h with
  | rest hpolicy =>
      cases h' with
      | rest => rfl
      | pass hpolicy' => cases hpolicy.symm.trans hpolicy'
  | pass hpolicy =>
      cases h' with
      | rest hpolicy' => cases hpolicy.symm.trans hpolicy'
      | pass => rfl
  | wanting =>
      cases h' with
      | wanting => rfl
  | worked =>
      cases h' with
      | worked => rfl

/-- After the same calls, the same is left to do. -/
theorem After.unique {policy : Policy} {k a b : List (Task R)} {cs : List (Returned R)}
    (h : After policy k cs a) (h' : After policy k cs b) : a = b := by
  induction h with
  | none k =>
      cases h' with
      | none => rfl
  | call ho hc _ ih =>
      cases h' with
      | call ho' hc' hcs' =>
          obtain rfl := ho.eq_of_serves ho' hc hc'
          obtain rfl := hc.unique hc'
          exact ih hcs'

theorem Serves.not_failure {policy : Policy} {k k' : List (Task R)} {c : Returned R}
    (h : Serves policy k c k') : c.isFailure = false := by
  cases h <;> rfl

theorem After.not_failure {policy : Policy} {k k' : List (Task R)} {cs : List (Returned R)}
    (h : After policy k cs k') : ∀ c ∈ cs, c.isFailure = false := by
  induction h with
  | none k => exact fun c hc => nomatch hc
  | call ho hc _ ih =>
      intro d hd
      rcases List.mem_cons.mp hd with rfl | hd
      · exact hc.not_failure
      · exact ih d hd

theorem Fails.isFailure {k : List (Task R)} {c : Returned R} {here : Address} {f : Fault}
    (h : Fails k c here f) : c.isFailure = true := by
  cases h <;> rfl

/-- A failure names the node and not yet the unit. -/
theorem Fails.forUnit {k : List (Task R)} {c : Returned R} {here : Address} {f : Fault}
    (h : Fails k c here f) (name : String) : f.forUnit name = .unit name f := by
  cases h <;> rfl

theorem Fails.not_cancellation {k : List (Task R)} {c : Returned R} {here : Address} {f : Fault}
    (h : Fails k c here f) : f.isCancellation = false := by
  cases h <;> rfl

/-! ## Walks, state by state -/

section

variable (w : World Q A σ) (P : Provider Q A R) (policy : Policy)

/-- From the list `k` and state `s` the walk gets to the list `k'` and state `s'` by the calls
`cs`.  Every task that is taken up on the way is taken up before the scope is cancelled. -/
inductive Walks : List (Task R) → σ → List (Returned R) → List (Task R) → σ → Prop
  | refl (k : List (Task R)) (s : σ) : Walks k s [] k s
  | bare {above name ts k s cs k' s'} (hs : w.cancelled s = false)
      (h : Walks (enterAll (above.child name) ts ++ k) s cs k' s') :
      Walks (.enter above (node name none ts) :: k) s cs k' s'
  | call {k s c steps k₁ t cs k' s'} (hs : w.cancelled s = false) (hc : Serves policy k c k₁)
      (hruns : c.Runs w P s steps t) (h : Walks k₁ t cs k' s') : Walks k s (c :: cs) k' s'

/-- From the list `k` and state `s` the walk makes the calls `cs` and then ends with a fault. -/
inductive Stops : List (Task R) → σ → List (Returned R) → Fault → σ → Prop
  /-- The scope has been cancelled when the next task is taken up. -/
  | cancelled {k s cs task k' s'} (h : Walks w P policy k s cs (task :: k') s')
      (hs' : w.cancelled s' = true) : Stops k s cs (.cancelled task.address) s'
  /-- The next call fails. -/
  | failed {k s cs k' t c here f steps s'} (h : Walks w P policy k s cs k' t)
      (ht : w.cancelled t = false) (hc : Fails k' c here f) (hruns : c.Runs w P t steps s') :
      Stops k s (cs ++ [c]) (blamed w s' here f) s'

/-- The walk gets through to the list `k'`, or it stops on the way, as the result says. -/
def Proceeds (k : List (Task R)) (s : σ) (cs : List (Returned R)) (result : Except Fault Tally)
    (k' : List (Task R)) (s' : σ) : Prop :=
  match result with
  | .ok _ => Walks w P policy k s cs k' s'
  | .error f => Stops w P policy k s cs f s'

end

variable {w : World Q A σ} {P : Provider Q A R} {policy : Policy} {k k₁ k' : List (Task R)}
  {s t s' : σ} {cs ds : List (Returned R)}

theorem Walks.trans (h : Walks w P policy k s cs k₁ t) (h' : Walks w P policy k₁ t ds k' s') :
    Walks w P policy k s (cs ++ ds) k' s' := by
  induction h with
  | refl k s => exact h'
  | bare hs _ ih => exact .bare hs (ih h')
  | call hs hc hruns _ ih => exact .call hs hc hruns (ih h')

theorem Walks.stops {f : Fault} (h : Walks w P policy k s cs k₁ t)
    (h' : Stops w P policy k₁ t ds f s') : Stops w P policy k s (cs ++ ds) f s' := by
  cases h' with
  | cancelled hwalks hs' => exact .cancelled (h.trans hwalks) hs'
  | failed hwalks ht hc hruns =>
      rw [← List.append_assoc]
      exact .failed (h.trans hwalks) ht hc hruns

theorem Walks.proceeds {result : Except Fault Tally} (h : Walks w P policy k s cs k₁ t)
    (h' : Proceeds w P policy k₁ t ds result k' s') :
    Proceeds w P policy k s (cs ++ ds) result k' s' := by
  cases result with
  | ok tally => exact h.trans h'
  | error f => exact h.stops h'

theorem proceeds_map {result : Except Fault Tally} (f : Tally → Tally) :
    Proceeds w P policy k s cs (result.map f) k' s' ↔ Proceeds w P policy k s cs result k' s' := by
  cases result <;> exact Iff.rfl

theorem Walks.single {c : Returned R} {steps : List (Course.Step Q A R)}
    (hs : w.cancelled s = false) (hc : Serves policy k c k') (hruns : c.Runs w P s steps s') :
    Walks w P policy k s [c] k' s' :=
  .call hs hc hruns (.refl k' s')

theorem Walks.eq_of_no_calls (h : Walks w P policy k s [] k' s') : s = s' := by
  generalize hcs : ([] : List (Returned R)) = cs at h
  induction h with
  | refl k s => rfl
  | bare hs _ ih => exact ih hcs
  | call => cases hcs

/-- What a walk has got to is what is left after its calls, or further only through nodes without
a resource; and not further if by then the scope has been cancelled. -/
theorem Walks.exists_after (h : Walks w P policy k s cs k' s') :
    ∃ k₁, After policy k cs k₁ ∧ Opens k₁ k' ∧ (w.cancelled s' = true → k₁ = k') := by
  induction h with
  | refl k s => exact ⟨k, .none k, .refl k, fun _ => rfl⟩
  | @bare above name ts k s cs k' s' hs h ih =>
      obtain ⟨k₁, hafter, hopens, hup⟩ := ih
      cases hafter with
      | none =>
          refine ⟨_, .none _, .bare hopens, fun hs' => ?_⟩
          rw [h.eq_of_no_calls, hs'] at hs
          cases hs
      | call ho hc hcs => exact ⟨k₁, .call (.bare ho) hc hcs, hopens, hup⟩
  | call hs hc hruns _ ih =>
      obtain ⟨k₁, hafter, hopens, hup⟩ := ih
      exact ⟨k₁, .call (.refl _) hc hafter, hopens, hup⟩

/-! ## Visits as walks -/

mutual

/-- A visit to a node takes the task of entering it off the list. -/
theorem Visit.proceeds : ∀ {t : Tree R} {above : Address} {s s' : σ} {cs : List (Returned R)}
    {result : Except Fault Tally}, Visit w P policy above t s cs result s' →
    ∀ k, Proceeds w P policy (.enter above t :: k) s cs result k s'
  | node name none ts, above, s, s', cs, result, h => by
      intro k
      cases h with
      | cancelled hs => exact .cancelled (.refl _ s) hs
      | bare hs hts hresult =>
          rw [hresult, proceeds_map]
          have hwalk : Walks w P policy (.enter above (node name none ts) :: k) s []
              (enterAll (above.child name) ts ++ k) s := .bare hs (.refl _ s)
          exact hwalk.proceeds (hts.proceeds k)
  | node name (some r) ts, above, s, s', cs, result, h => by
      intro k
      cases h with
      | cancelled hs => exact .cancelled (.refl _ s) hs
      | unknown hs hcall => exact Stops.failed (.refl _ s) hs .unknown hcall
      | rest hs hcall hpolicy => exact Walks.single hs (.rest hpolicy) hcall
      | pass hs hcall hpolicy hts hresult =>
          rw [hresult, proceeds_map]
          exact (Walks.single hs (.pass hpolicy) hcall).proceeds (hts.proceeds k)
      | stuck hs hcall hts =>
          have hbelow := hts.proceeds (.work (above.child name) r :: k)
          exact (Walks.single hs .wanting hcall).stops hbelow
      | halted hs hcall hts hs' =>
          have hbelow := hts.proceeds (.work (above.child name) r :: k)
          exact Stops.cancelled ((Walks.single hs .wanting hcall).trans hbelow) hs'
      | failed hs hcall hts hu hcall' =>
          have hbelow := hts.proceeds (.work (above.child name) r :: k)
          exact Stops.failed ((Walks.single hs .wanting hcall).trans hbelow) hu .failed hcall'
      | worked hs hcall hts hu hcall' =>
          have hbelow := hts.proceeds (.work (above.child name) r :: k)
          exact ((Walks.single hs .wanting hcall).trans hbelow).trans
            (.single hu .worked hcall')

/-- Visits to the nodes of a list take off the tasks of entering them. -/
theorem VisitAll.proceeds : ∀ {ts : List (Tree R)} {above : Address} {s s' : σ}
    {cs : List (Returned R)} {result : Except Fault Tally},
    VisitAll w P policy above ts s cs result s' →
    ∀ k, Proceeds w P policy (enterAll above ts ++ k) s cs result k s'
  | [], above, s, s', cs, result, h => by
      intro k
      cases h with
      | nil => exact Walks.refl k s
  | t :: ts, above, s, s', cs, result, h => by
      intro k
      rw [enterAll_cons, List.cons_append]
      cases h with
      | fails ht =>
          have hfirst := ht.proceeds (enterAll above ts ++ k)
          exact hfirst
      | cons ht hts hresult =>
          have hfirst := ht.proceeds (enterAll above ts ++ k)
          rw [hresult, proceeds_map]
          exact Walks.proceeds hfirst (hts.proceeds k)

end

end Converge.Tree
