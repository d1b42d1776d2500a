import Converge.Tree.Converge
import Converge.Proofs.Visit.Calls

/-! # Visits

What a walk does at a node, as a relation between the state of the world when the node is reached,
the calls that are made at it and beneath it, what comes of the visit, and the state it leaves.
There is one constructor for every way through a node, so facts about walks are proved by cases
on visits and recursion on trees, and need not look at courses again.
-/

namespace Converge.Tree

open Course (World)

variable {Q : Type} {A : Q → Type} {R σ : Type}

/-- How a visit ends that a failing call stops: the scope says whether it was interrupted. -/
def blamed (w : World Q A σ) (s : σ) (here : Address) (fault : Fault) : Fault :=
  if w.cancelled s then .cancelled here else fault

section

variable (w : World Q A σ) (P : Provider Q A R) (policy : Policy)

mutual

/-- A visit to a node that hangs below `above`, with all beneath it. -/
inductive Visit : Address → Tree R → σ → List (Returned R) → Except Fault Tally → σ → Prop
  /-- The scope has been cancelled before the node is entered. -/
  | cancelled {above name resource ts s} (hs : w.cancelled s = true) :
      Visit above (node name resource ts) s [] (.error (.cancelled (above.child name))) s
  /-- A node without a resource leads to its children. -/
  | bare {above name ts s cs below result s'} (hs : w.cancelled s = false)
      (hts : VisitAll (above.child name) ts s cs below s')
      (hresult : result = below.map (Tally.enter + ·)) :
      Visit above (node name none ts) s cs result s'
  /-- It cannot be found out whether the resource is as declared. -/
  | unknown {above name r ts s f s' steps} (hs : w.cancelled s = false)
      (hcall : (Returned.satisfied r (.error f)).Runs w P s steps s') :
      Visit above (node name (some r) ts) s [.satisfied r (.error f)]
        (.error (blamed w s' (above.child name) (.satisfied (above.child name) f))) s'
  /-- The resource is as declared, and so nothing beneath it is looked at. -/
  | rest {above name r ts s s' steps} (hs : w.cancelled s = false)
      (hcall : (Returned.satisfied r (.ok true)).Runs w P s steps s')
      (hpolicy : policy = .skipSubtree) :
      Visit above (node name (some r) ts) s [.satisfied r (.ok true)]
        (.ok (.enter + .rest)) s'
  /-- The resource is as declared; its children are visited all the same. -/
  | pass {above name r ts s t s' steps cs below result} (hs : w.cancelled s = false)
      (hcall : (Returned.satisfied r (.ok true)).Runs w P s steps t)
      (hpolicy : policy = .selfOnly)
      (hts : VisitAll (above.child name) ts t cs below s')
      (hresult : result = below.map (Tally.enter + Tally.rest + ·)) :
      Visit above (node name (some r) ts) s (.satisfied r (.ok true) :: cs) result s'
  /-- There is work to do, but the children fail. -/
  | stuck {above name r ts s t s' steps cs f} (hs : w.cancelled s = false)
      (hcall : (Returned.satisfied r (.ok false)).Runs w P s steps t)
      (hts : VisitAll (above.child name) ts t cs (.error f) s') :
      Visit above (node name (some r) ts) s (.satisfied r (.ok false) :: cs) (.error f) s'
  /-- There is work to do, but by the time the children are done the scope has been cancelled. -/
  | halted {above name r ts s t s' steps cs below} (hs : w.cancelled s = false)
      (hcall : (Returned.satisfied r (.ok false)).Runs w P s steps t)
      (hts : VisitAll (above.child name) ts t cs (.ok below) s')
      (hs' : w.cancelled s' = true) :
      Visit above (node name (some r) ts) s (.satisfied r (.ok false) :: cs)
        (.error (.cancelled (above.child name))) s'
  /-- The work on the resource fails. -/
  | failed {above name r ts s t u s' steps steps' cs below f} (hs : w.cancelled s = false)
      (hcall : (Returned.satisfied r (.ok false)).Runs w P s steps t)
      (hts : VisitAll (above.child name) ts t cs (.ok below) u)
      (hu : w.cancelled u = false)
      (hcall' : (Returned.apply r (.error f)).Runs w P u steps' s') :
      Visit above (node name (some r) ts) s
        (.satisfied r (.ok false) :: (cs ++ [.apply r (.error f)]))
        (.error (blamed w s' (above.child name) (.apply (above.child name) f))) s'
  /-- The work on the resource is done. -/
  | worked {above name r ts s t u s' steps steps' cs below} (hs : w.cancelled s = false)
      (hcall : (Returned.satisfied r (.ok false)).Runs w P s steps t)
      (hts : VisitAll (above.child name) ts t cs (.ok below) u)
      (hu : w.cancelled u = false)
      (hcall' : (Returned.apply r (.ok ())).Runs w P u steps' s') :
      Visit above (node name (some r) ts) s
        (.satisfied r (.ok false) :: (cs ++ [.apply r (.ok ())]))
        (.ok (.enter + below + .work)) s'

/-- Visits to the nodes of a list, one after the other; the first that fails is the last. -/
inductive VisitAll :
    Address → List (Tree R) → σ → List (Returned R) → Except Fault Tally → σ → Prop
  | nil {above s} : VisitAll above [] s [] (.ok 0) s
  | fails {above t ts s cs f s'} (ht : Visit above t s cs (.error f) s') :
      VisitAll above (t :: ts) s cs (.error f) s'
  | cons {above t ts s u s' cs ds first others result} (ht : Visit above t s cs (.ok first) u)
      (hts : VisitAll above ts u ds others s') (hresult : result = others.map (first + ·)) :
      VisitAll above (t :: ts) s (cs ++ ds) result s'

end

end

variable {w : World Q A σ} {P : Provider Q A R}

/-! ## Every walk is a visit -/

theorem makes_stop {α : Type} (here : Address) (fault : Fault) (s : σ) :
    (stop here fault : Course Q A R (Except Fault α)).Makes w P s
      (.error (blamed w s here fault)) [] s :=
  .look _ rfl (.done _)

theorem makes_isSatisfied (here : Address) {r : R} {answer : Except Failure Bool}
    {steps : List (Course.Step Q A R)} {s s' : σ} (hs : w.cancelled s = false)
    (h : (Returned.satisfied r answer).Runs w P s steps s') :
    (isSatisfied P here r).Makes w P s
      (answer.mapError fun f => blamed w s' here (.satisfied here f))
      [.satisfied r answer] s' := by
  have hcall := Course.Makes.call_satisfied hs h
  cases answer with
  | ok b => exact hcall.bind (.done _)
  | error f => exact hcall.bind (makes_stop here _ s')

theorem makes_applyResource (here : Address) {r : R} {answer : Except Failure Unit}
    {steps : List (Course.Step Q A R)} {s s' : σ} (hs : w.cancelled s = false)
    (h : (Returned.apply r answer).Runs w P s steps s') :
    (applyResource P here r).Makes w P s
      (answer.mapError fun f => blamed w s' here (.apply here f))
      [.apply r answer] s' := by
  have hcall := Course.Makes.call_apply hs h
  refine .look false hs (.note _ ?_)
  cases answer with
  | ok b => exact hcall.bind (.note _ (.done _))
  | error f => exact hcall.bind (makes_stop here _ s')

mutual

/-- A visit to the root of a tree is what the walk over it comes to. -/
theorem Visit.makes : ∀ {t : Tree R} {policy : Policy} {above : Address} {s s' : σ}
    {cs : List (Returned R)} {result : Except Fault Tally},
    Visit w P policy above t s cs result s' → (t.convergeAt P policy above).Makes w P s result cs s'
  | node name none ts, policy, above, s, s', cs, result, h => by
      rw [convergeAt_bare]
      cases h with
      | cancelled hs => exact .look true hs (.done _)
      | bare hs hts hresult =>
          subst hresult
          exact .look false hs (hts.makes.map _)
  | node name (some r) ts, policy, above, s, s', cs, result, h => by
      rw [convergeAt_resource]
      cases h with
      | cancelled hs => exact .look true hs (.done _)
      | unknown hs hcall => exact .look false hs (makes_isSatisfied _ hs hcall).andThen_error
      | rest hs hcall hpolicy =>
          subst hpolicy
          exact .look false hs ((makes_isSatisfied _ hs hcall).andThen (.note _ (.done _)))
      | pass hs hcall hpolicy hts hresult =>
          subst hpolicy hresult
          exact .look false hs ((makes_isSatisfied _ hs hcall).andThen (.note _ (hts.makes.map _)))
      | stuck hs hcall hts =>
          exact .look false hs ((makes_isSatisfied _ hs hcall).andThen hts.makes.andThen_error)
      | @halted _ _ _ _ _ _ _ _ inner _ hs hcall hts hs' =>
          refine .look false hs ((makes_isSatisfied _ hs hcall).andThen ?_)
          rw [← inner.append_nil]
          exact hts.makes.andThen (.andThen_error (.look true hs' (.done _)))
      | failed hs hcall hts hu hcall' =>
          refine .look false hs ((makes_isSatisfied _ hs hcall).andThen (hts.makes.andThen ?_))
          exact (makes_applyResource _ hu hcall').andThen_error
      | worked hs hcall hts hu hcall' =>
          refine .look false hs ((makes_isSatisfied _ hs hcall).andThen (hts.makes.andThen ?_))
          exact (makes_applyResource _ hu hcall').andThen (.done _)

theorem VisitAll.makes : ∀ {ts : List (Tree R)} {policy : Policy} {above : Address} {s s' : σ}
    {cs : List (Returned R)} {result : Except Fault Tally},
    VisitAll w P policy above ts s cs result s' →
      (convergeAll P policy above ts).Makes w P s result cs s'
  | [], policy, above, s, s', cs, result, h => by
      rw [convergeAll_nil]
      cases h with
      | nil => exact .done _
  | t :: ts, policy, above, s, s', cs, result, h => by
      rw [convergeAll_cons]
      cases h with
      | fails ht => exact ht.makes.andThen_error
      | cons ht hts hresult =>
          subst hresult
          exact ht.makes.andThen (hts.makes.map _)

end

theorem exists_runs_satisfied (w : World Q A σ) (P : Provider Q A R) (r : R) (s : σ) :
    ∃ answer steps s', (Returned.satisfied r answer).Runs w P s steps s' := by
  obtain ⟨⟨answer, steps, s'⟩, hrun⟩ : ∃ x, (Course.ofPlan (P.satisfied r)).run w s = x := ⟨_, rfl⟩
  exact ⟨answer, steps, s', hrun⟩

theorem exists_runs_apply (w : World Q A σ) (P : Provider Q A R) (r : R) (s : σ) :
    ∃ answer steps s', (Returned.apply r answer).Runs w P s steps s' := by
  obtain ⟨⟨answer, steps, s'⟩, hrun⟩ : ∃ x, (Course.ofPlan (P.apply r)).run w s = x := ⟨_, rfl⟩
  exact ⟨answer, steps, s', hrun⟩

mutual

/-- Every tree can be visited. -/
theorem exists_visit : ∀ (t : Tree R) (policy : Policy) (above : Address) (s : σ),
    ∃ cs result s', Visit w P policy above t s cs result s'
  | node name none ts, policy, above, s => by
      cases hs : w.cancelled s with
      | true => exact ⟨[], _, s, .cancelled hs⟩
      | false =>
          obtain ⟨cs, below, s', hts⟩ := exists_visitAll ts policy (above.child name) s
          exact ⟨cs, _, s', .bare hs hts rfl⟩
  | node name (some r) ts, policy, above, s => by
      cases hs : w.cancelled s with
      | true => exact ⟨[], _, s, .cancelled hs⟩
      | false =>
      obtain ⟨answer, steps, t, hcall⟩ := exists_runs_satisfied w P r s
      match answer with
      | .error f => exact ⟨_, _, t, .unknown hs hcall⟩
      | .ok true =>
          cases policy with
          | skipSubtree => exact ⟨_, _, t, .rest hs hcall rfl⟩
          | selfOnly =>
              obtain ⟨cs, below, s', hts⟩ := exists_visitAll ts .selfOnly (above.child name) t
              exact ⟨_, _, s', .pass hs hcall rfl hts rfl⟩
      | .ok false =>
          obtain ⟨cs, below, u, hts⟩ := exists_visitAll ts policy (above.child name) t
          cases below with
          | error f => exact ⟨_, _, u, .stuck hs hcall hts⟩
          | ok below =>
          cases hu : w.cancelled u with
          | true => exact ⟨_, _, u, .halted hs hcall hts hu⟩
          | false =>
              obtain ⟨answer, steps', s', hcall'⟩ := exists_runs_apply w P r u
              cases answer with
              | error f => exact ⟨_, _, s', .failed hs hcall hts hu hcall'⟩
              | ok _ => exact ⟨_, _, s', .worked hs hcall hts hu hcall'⟩

theorem exists_visitAll : ∀ (ts : List (Tree R)) (policy : Policy) (above : Address) (s : σ),
    ∃ cs result s', VisitAll w P policy above ts s cs result s'
  | [], policy, above, s => ⟨[], .ok 0, s, .nil⟩
  | t :: ts, policy, above, s => by
      obtain ⟨cs, result, u, ht⟩ := exists_visit t policy above s
      cases result with
      | error f => exact ⟨cs, .error f, u, .fails ht⟩
      | ok first =>
          obtain ⟨ds, others, s', hts⟩ := exists_visitAll ts policy above u
          exact ⟨cs ++ ds, _, s', .cons ht hts rfl⟩

end

theorem Visit.makes_converge {policy : Policy} {t : Tree R} {s s' : σ} {cs : List (Returned R)}
    {result : Except Fault Tally} (h : Visit w P policy .top t s cs result s') :
    (t.converge P policy).Makes w P s result cs s' := by
  refine .note _ ?_
  rw [← List.append_nil cs]
  refine h.makes.bind ?_
  cases result with
  | ok tally => exact .note _ (.done _)
  | error f =>
      rw [concluded]
      split
      · exact .done _
      · exact .note _ (.done _)

/-- So a whole walk makes the calls of a visit to the root, and ends with what comes of it. -/
theorem exists_visit_of_converge (w : World Q A σ) (P : Provider Q A R) (policy : Policy)
    (t : Tree R) (s : σ) : ∃ cs result s',
      (t.converge P policy).Makes w P s result cs s' ∧ Visit w P policy .top t s cs result s' := by
  obtain ⟨cs, result, s', hvisit⟩ := exists_visit (w := w) (P := P) t policy .top s
  exact ⟨cs, result, s', hvisit.makes_converge, hvisit⟩

end Converge.Tree
