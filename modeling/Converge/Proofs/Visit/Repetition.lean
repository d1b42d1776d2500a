import Converge.Proofs.Visit.Entered
import Converge.Resource

/-! # A second walk

In a world where finding out never fails and changes nothing, where work that succeeds brings its
resource to the declared state, and where no work takes another resource out of it, a walk that
succeeded leaves nothing to do: another walk over the same tree does no work.  It may meet fewer
nodes than the first one, for what lies beneath a resource brought to its state in between may
now be passed over, but it meets no others.
-/

namespace Converge

open Course (World Step)

variable {Q : Type} {A : Q → Type} {R σ : Type}

namespace Tree

/-! ## Steady worlds -/

/-- Asked about in state `s`, the resource is said to be as declared. -/
def Holds (w : World Q A σ) (P : Provider Q A R) (s : σ) (r : R) : Prop :=
  ((P.satisfied r).run w.answer s).1 = .ok true

/-- A world that is never cancelled and in which the resources of `S` stay as they were brought
to be. -/
structure Steady (w : World Q A σ) (P : Provider Q A R) (S : R → Prop) : Prop where
  lasting : ∀ s, w.cancelled s = false
  /-- Finding out about a resource never fails and changes nothing. -/
  answered : ∀ r, S r → ∀ s, ∃ b, (P.satisfied r).run w.answer s = (.ok b, s)
  /-- Work that succeeds makes its own resource as declared. -/
  worked : ∀ r, S r → ∀ s s', (P.apply r).run w.answer s = (.ok (), s') → Holds w P s' r
  /-- Work, whether or not it succeeds, leaves every resource as declared that was so. -/
  kept : ∀ r, S r → ∀ r', S r' → ∀ s, Holds w P s r' → Holds w P ((P.apply r).run w.answer s).2 r'

variable {w : World Q A σ} {P : Provider Q A R} {S : R → Prop} {policy : Policy} {above : Address}
  {s s' : σ} {cs : List (Returned R)} {result : Except Fault Tally}

namespace Steady

theorem mono {S' : R → Prop} (hw : Steady w P S) (h : ∀ r, S' r → S r) : Steady w P S' where
  lasting := hw.lasting
  answered r hr := hw.answered r (h r hr)
  worked r hr := hw.worked r (h r hr)
  kept r hr r' hr' := hw.kept r (h r hr) r' (h r' hr')

variable (hw : Steady w P S) {r : R} {steps : List (Step Q A R)}
include hw

/-- Being asked about a resource, the world answers as it stands, and stays as it is. -/
theorem runs_satisfied (hr : S r) {answer : Except Failure Bool}
    (h : (Returned.satisfied r answer).Runs w P s steps s') :
    s' = s ∧ ∃ b, answer = .ok b ∧ (b = true ↔ Holds w P s r) := by
  obtain ⟨b, hb⟩ := hw.answered r hr s
  obtain ⟨rfl, rfl⟩ := Prod.mk.inj (hb.symm.trans (Course.plan_of_run_ofPlan h))
  refine ⟨rfl, b, rfl, ?_⟩
  rw [Holds, hb, Except.ok.injEq]

/-- Work on a resource keeps what holds, and if it succeeds its own resource holds too. -/
theorem runs_apply (hr : S r) {answer : Except Failure Unit}
    (h : (Returned.apply r answer).Runs w P s steps s') :
    (∀ r', S r' → Holds w P s r' → Holds w P s' r') ∧ (answer = .ok () → Holds w P s' r) := by
  have hrun : (P.apply r).run w.answer s = (answer, s') := Course.plan_of_run_ofPlan h
  constructor
  · intro r' hr' hholds
    have hkept := hw.kept r hr r' hr' s hholds
    rwa [hrun] at hkept
  · rintro rfl
    exact hw.worked r hr s s' hrun

/-- No resource that holds is found wanting. -/
theorem not_wanting (hr : S r) (hholds : Holds w P s r) :
    ¬(Returned.satisfied r (.ok false)).Runs w P s steps s' := by
  intro h
  obtain ⟨-, b, hb, hiff⟩ := hw.runs_satisfied hr h
  obtain rfl := Except.ok.inj hb
  exact absurd (hiff.mpr hholds) Bool.false_ne_true

/-- Calls on the resources of `S` keep what holds. -/
theorem calls_keep (h : Calls w P s steps cs s') (hcs : ∀ c ∈ cs, S c.resource) {r' : R}
    (hr' : S r') (hholds : Holds w P s r') : Holds w P s' r' := by
  induction h with
  | nil s => exact hholds
  | event e _ ih => exact ih hcs hholds
  | call c hs hc hinner _ ih =>
      rw [List.forall_mem_cons] at hcs
      refine ih hcs.2 ?_
      cases c with
      | satisfied r answer =>
          obtain ⟨rfl, -⟩ := hw.runs_satisfied hcs.1 hc
          exact hholds
      | apply r answer => exact (hw.runs_apply hcs.1 hc).1 r' hr' hholds

end Steady

/-! ## Trees with nothing left to do -/

/-- Where `H` says which resources are as declared, a walk over the tree finds nothing to do: it
comes to no resource that is not. -/
inductive Settled (policy : Policy) (H : R → Prop) : Tree R → Prop
  | bare {name ts} (hts : ∀ t ∈ ts, Settled policy H t) : Settled policy H (node name none ts)
  | rest {name r ts} (hr : H r) (hpolicy : policy = .skipSubtree) :
      Settled policy H (node name (some r) ts)
  | pass {name r ts} (hr : H r) (hts : ∀ t ∈ ts, Settled policy H t) :
      Settled policy H (node name (some r) ts)

theorem Settled.holds {H : R → Prop} {name : String} {r : R} {ts : List (Tree R)}
    (h : Settled policy H (node name (some r) ts)) : H r := by
  cases h with
  | rest hr => exact hr
  | pass hr => exact hr

theorem Settled.children {H : R → Prop} {name : String} {r : R} {ts : List (Tree R)}
    (h : Settled policy H (node name (some r) ts)) (hpolicy : policy = .selfOnly) :
    ∀ t ∈ ts, Settled policy H t := by
  cases h with
  | rest hr hskip =>
      rw [hpolicy] at hskip
      cases hskip
  | pass hr hts => exact hts

/-- Growing with what is declared, `H` keeps a tree settled. -/
theorem Settled.mono {H H' : R → Prop} {t : Tree R} (h : Settled policy H t)
    (hH : ∀ r ∈ t.resources, H r → H' r) : Settled policy H' t := by
  induction h with
  | bare hts ih =>
      refine .bare fun t ht => ih t ht fun r hr => hH r ?_
      exact mem_resources_of_mem_children ht hr
  | rest hr hpolicy => exact .rest (hH _ (by simp) hr) hpolicy
  | pass hr hts ih =>
      refine .pass (hH _ (by simp) hr) fun t ht => ih t ht fun r hr => hH r ?_
      exact mem_resources_of_mem_children ht hr

/-- Nothing happens in a visit: the state stays as it is, every resource that is asked about is
found as declared, and the visit succeeds without work. -/
structure Idle (s : σ) (cs : List (Returned R)) (result : Except Fault Tally) (s' : σ) : Prop where
  state : s' = s
  calls : ∀ c ∈ cs, ∃ r, c = .satisfied r (.ok true)
  result : ∃ tally, result = .ok tally ∧ tally.applied = 0

/-- Visits keep what holds. -/
theorem VisitAll.keeps (hw : Steady w P S) {ts : List (Tree R)}
    (h : VisitAll w P policy above ts s cs result s') (hS : ∀ r ∈ resourcesAll ts, S r) {r : R}
    (hr : S r) (hholds : Holds w P s r) : Holds w P s' r := by
  obtain ⟨steps, -, hcalls⟩ := h.makes
  refine hw.calls_keep hcalls (fun c hc => ?_) hr hholds
  obtain ⟨t, ht, name, ts', hwithin⟩ := h.within c hc
  exact hS _ (mem_resourcesAll.mpr ⟨t, ht, hwithin.mem_resources⟩)

mutual

/-- A visit that succeeds leaves nothing to do beneath its node. -/
theorem Visit.settled (hw : Steady w P S) : ∀ {t : Tree R} {above : Address} {s s' : σ}
    {cs : List (Returned R)} {tally : Tally}, Visit w P policy above t s cs (.ok tally) s' →
    (∀ r ∈ t.resources, S r) → Settled policy (Holds w P s') t
  | node name none ts, above, s, s', cs, tally, h, hS => by
      cases h with
      | bare hs hts hresult =>
          obtain ⟨below, rfl⟩ := exists_ok_of_map hresult
          exact .bare (hts.settled hw (by simpa using hS))
  | node name (some r) ts, above, s, s', cs, tally, h, hS => by
      have hr : S r := hS r (by simp)
      have hts' : ∀ r' ∈ resourcesAll ts, S r' := fun r' hr' => hS r' (by simp [hr'])
      cases h with
      | rest hs hcall hpolicy =>
          obtain ⟨rfl, b, hb, hholds⟩ := hw.runs_satisfied hr hcall
          exact .rest (hholds.mp (Except.ok.inj hb).symm) hpolicy
      | pass hs hcall hpolicy hts hresult =>
          obtain ⟨rfl, b, hb, hholds⟩ := hw.runs_satisfied hr hcall
          obtain ⟨below, rfl⟩ := exists_ok_of_map hresult
          have hkept := hts.keeps hw hts' hr (hholds.mp (Except.ok.inj hb).symm)
          exact .pass hkept (hts.settled hw hts')
      | worked hs hcall hts hu hcall' =>
          obtain ⟨hkept, hholds⟩ := hw.runs_apply hr hcall'
          refine .pass (hholds rfl) fun t ht => (hts.settled hw hts' t ht).mono fun r' hr' => ?_
          exact hkept r' (hts' r' (mem_resourcesAll.mpr ⟨t, ht, hr'⟩))

theorem VisitAll.settled (hw : Steady w P S) : ∀ {ts : List (Tree R)} {above : Address} {s s' : σ}
    {cs : List (Returned R)} {tally : Tally}, VisitAll w P policy above ts s cs (.ok tally) s' →
    (∀ r ∈ resourcesAll ts, S r) → ∀ t ∈ ts, Settled policy (Holds w P s') t
  | [], above, s, s', cs, tally, h, hS => by
      intro t ht
      cases ht
  | t :: ts, above, s, s', cs, tally, h, hS => by
      rw [resourcesAll_cons, List.forall_mem_append] at hS
      cases h with
      | cons ht hts hresult =>
          obtain ⟨others, rfl⟩ := exists_ok_of_map hresult
          rw [List.forall_mem_cons]
          refine ⟨(ht.settled hw hS.1).mono fun r hr => ?_, hts.settled hw hS.2⟩
          exact hts.keeps hw hS.2 (hS.1 r hr)

end

mutual

/-- Where there is nothing left to do, nothing happens. -/
theorem Visit.idle (hw : Steady w P S) : ∀ {t : Tree R} {above : Address} {s s' : σ}
    {cs : List (Returned R)} {result : Except Fault Tally},
    Visit w P policy above t s cs result s' → (∀ r ∈ t.resources, S r) →
    Settled policy (Holds w P s) t → Idle s cs result s'
  | node name none ts, above, s, s', cs, result, h, hS, hsettled => by
      cases h with
      | cancelled hs => rw [hw.lasting] at hs; cases hs
      | bare hs hts hresult =>
          obtain ⟨hchildren⟩ := hsettled
          obtain ⟨rfl, hcalls, below, rfl, happlied⟩ := hts.idle hw (by simpa using hS) hchildren
          subst hresult
          exact ⟨rfl, hcalls, _, rfl, by simpa [Tally.enter] using happlied⟩
  | node name (some r) ts, above, s, s', cs, result, h, hS, hsettled => by
      have hr : S r := hS r (by simp)
      have hholds := hsettled.holds
      cases h with
      | cancelled hs => rw [hw.lasting] at hs; cases hs
      | unknown hs hcall =>
          obtain ⟨-, b, hb, -⟩ := hw.runs_satisfied hr hcall
          cases hb
      | rest hs hcall hpolicy =>
          obtain ⟨rfl, -⟩ := hw.runs_satisfied hr hcall
          exact ⟨rfl, by simp, _, rfl, rfl⟩
      | pass hs hcall hpolicy hts hresult =>
          obtain ⟨rfl, -⟩ := hw.runs_satisfied hr hcall
          obtain ⟨rfl, hcalls, below, rfl, happlied⟩ :=
            hts.idle hw (fun r' hr' => hS r' (by simp [hr'])) (hsettled.children hpolicy)
          subst hresult
          refine ⟨rfl, List.forall_mem_cons.mpr ⟨⟨r, rfl⟩, hcalls⟩, _, rfl, ?_⟩
          simpa [Tally.enter, Tally.rest] using happlied
      | stuck hs hcall hts => exact absurd hcall (hw.not_wanting hr hholds)
      | halted hs hcall hts hs' => exact absurd hcall (hw.not_wanting hr hholds)
      | failed hs hcall hts hu hcall' => exact absurd hcall (hw.not_wanting hr hholds)
      | worked hs hcall hts hu hcall' => exact absurd hcall (hw.not_wanting hr hholds)

theorem VisitAll.idle (hw : Steady w P S) : ∀ {ts : List (Tree R)} {above : Address} {s s' : σ}
    {cs : List (Returned R)} {result : Except Fault Tally},
    VisitAll w P policy above ts s cs result s' → (∀ r ∈ resourcesAll ts, S r) →
    (∀ t ∈ ts, Settled policy (Holds w P s) t) → Idle s cs result s'
  | [], above, s, s', cs, result, h, hS, hsettled => by
      cases h with
      | nil => exact ⟨rfl, nofun, 0, rfl, rfl⟩
  | t :: ts, above, s, s', cs, result, h, hS, hsettled => by
      rw [resourcesAll_cons, List.forall_mem_append] at hS
      rw [List.forall_mem_cons] at hsettled
      cases h with
      | fails ht =>
          obtain ⟨-, -, tally, htally, -⟩ := ht.idle hw hS.1 hsettled.1
          cases htally
      | cons ht hts hresult =>
          obtain ⟨rfl, hcalls, first, hfirst, happlied⟩ := ht.idle hw hS.1 hsettled.1
          obtain ⟨rfl, hcalls', others, rfl, happlied'⟩ := hts.idle hw hS.2 hsettled.2
          obtain rfl := Except.ok.inj hfirst
          subst hresult
          refine ⟨rfl, List.forall_mem_append.mpr ⟨hcalls, hcalls'⟩, _, rfl, ?_⟩
          rw [Tally.applied_add, happlied, happlied']

end

/-! ## Fewer nodes are entered -/

/-- Where there is nothing left to do a walk succeeds, and leaves the state as it is. -/
theorem Settled.exists_makes (hw : Steady w P S) {t : Tree R} (hS : ∀ r ∈ t.resources, S r)
    (h : Settled policy (Holds w P s) t) (above : Address) :
    ∃ cs tally, (t.convergeAt P policy above).Makes w P s (.ok tally) cs s := by
  obtain ⟨cs, result, s', hvisit⟩ := exists_visit (w := w) (P := P) t policy above s
  obtain ⟨rfl, -, tally, rfl, -⟩ := hvisit.idle hw hS h
  exact ⟨cs, tally, hvisit.makes⟩

/-- Where a resource holds, its children are entered under `selfOnly` and passed over otherwise. -/
theorem Steady.enteredAt_of_holds (hw : Steady w P S) {r : R} (hr : S r) (hholds : Holds w P s r)
    (above : Address) (p : Place) (name : String) (ts : List (Tree R)) :
    (policy = .skipSubtree → enteredAt w P policy above p (node name (some r) ts) s = [p]) ∧
    (policy = .selfOnly → enteredAt w P policy above p (node name (some r) ts) s =
      p :: enteredAll w P policy (above.child name) p 0 ts s) := by
  obtain ⟨b, hb⟩ := hw.answered r hr s
  rw [Holds, hb] at hholds
  obtain rfl := Except.ok.inj hholds
  constructor
  · exact enteredAt_rest above p name ts (hw.lasting s) hb
  · exact enteredAt_pass above p name ts (hw.lasting s) hb

mutual

/-- Once there is nothing left to do, no node is entered that the visit that saw to it had not
entered. -/
theorem Visit.sublist_entered (hw : Steady w P S) : ∀ {t : Tree R} {above : Address}
    {s s' u : σ} {cs : List (Returned R)} {tally : Tally},
    Visit w P policy above t s cs (.ok tally) s' → (∀ r ∈ t.resources, S r) →
    Settled policy (Holds w P u) t → ∀ p,
    (enteredAt w P policy above p t u).Sublist (enteredAt w P policy above p t s)
  | node name none ts, above, s, s', u, cs, tally, h, hS, hsettled => by
      intro p
      obtain ⟨hchildren⟩ := hsettled
      cases h with
      | bare hs hts hresult =>
          obtain ⟨below, rfl⟩ := exists_ok_of_map hresult
          rw [enteredAt_bare _ _ _ _ hs, enteredAt_bare _ _ _ _ (hw.lasting u)]
          exact (hts.sublist_entered hw (by simpa using hS) hchildren p 0).cons_cons p
  | node name (some r) ts, above, s, s', u, cs, tally, h, hS, hsettled => by
      intro p
      have hr : S r := hS r (by simp)
      have hts' : ∀ r' ∈ resourcesAll ts, S r' := fun r' hr' => hS r' (by simp [hr'])
      obtain ⟨hskip, hself⟩ := hw.enteredAt_of_holds hr hsettled.holds above p name ts
      cases h with
      | rest hs hcall hpolicy =>
          have hanswer := Course.plan_of_run_ofPlan hcall
          rewrite [hskip hpolicy, enteredAt_rest _ _ _ _ hs hanswer hpolicy]
          exact .refl [p]
      | pass hs hcall hpolicy hts hresult =>
          obtain ⟨below, rfl⟩ := exists_ok_of_map hresult
          rw [hself hpolicy, enteredAt_pass _ _ _ _ hs (Course.plan_of_run_ofPlan hcall) hpolicy]
          exact (hts.sublist_entered hw hts' (hsettled.children hpolicy) p 0).cons_cons p
      | worked hs hcall hts hu hcall' =>
          rw [enteredAt_wanting _ _ _ _ hs (Course.plan_of_run_ofPlan hcall)]
          rcases policy.eq_or_eq with hpolicy | hpolicy
          · rw [hskip hpolicy]
            exact (List.nil_sublist _).cons_cons p
          · rw [hself hpolicy]
            exact (hts.sublist_entered hw hts' (hsettled.children hpolicy) p 0).cons_cons p

theorem VisitAll.sublist_entered (hw : Steady w P S) : ∀ {ts : List (Tree R)} {above : Address}
    {s s' u : σ} {cs : List (Returned R)} {tally : Tally},
    VisitAll w P policy above ts s cs (.ok tally) s' → (∀ r ∈ resourcesAll ts, S r) →
    (∀ t ∈ ts, Settled policy (Holds w P u) t) → ∀ p i,
    (enteredAll w P policy above p i ts u).Sublist (enteredAll w P policy above p i ts s)
  | [], above, s, s', u, cs, tally, h, hS, hsettled => by
      intro p i
      simp [enteredAll]
  | t :: ts, above, s, s', u, cs, tally, h, hS, hsettled => by
      intro p i
      rw [resourcesAll_cons, List.forall_mem_append] at hS
      rw [List.forall_mem_cons] at hsettled
      cases h with
      | cons ht hts hresult =>
          obtain ⟨others, rfl⟩ := exists_ok_of_map hresult
          obtain ⟨cs', tally', hmakes⟩ := hsettled.1.exists_makes hw hS.1 above
          rw [enteredAll_cons ht.makes, enteredAll_cons hmakes]
          exact (ht.sublist_entered hw hS.1 hsettled.1 _).append
            (hts.sublist_entered hw hS.2 hsettled.2 p (i + 1))

end

/-! ## The second walk -/

/-- In a steady world, after a walk over a tree that succeeded, the same walk again

* succeeds, and leaves the world as it is;
* only asks about resources, finds each of them as declared, and does no work;
* enters no node that the first one had not entered.

Each walk enters as many nodes as it counts. -/
theorem converge_again (w : World Q A σ) (P : Provider Q A R) (policy : Policy) (t : Tree R)
    (hw : Steady w P (· ∈ t.resources)) {s s' : σ} {tally : Tally} {steps : List (Step Q A R)}
    (hrun : (t.converge P policy).run w s = (.ok tally, steps, s')) :
    ∃ again steps' cs, (t.converge P policy).run w s' = (.ok again, steps', s') ∧
      Calls w P s' steps' cs s' ∧
      (∀ c ∈ cs, ∃ r, c = .satisfied r (.ok true)) ∧
      (∀ r, .left (.began .apply r) ∉ steps') ∧
      again.applied = 0 ∧
      (t.entered w P policy s').Sublist (t.entered w P policy s) ∧
      (t.entered w P policy s).Nodup ∧
      (∀ p ∈ t.entered w P policy s, ∃ u, t.at? p = some u) ∧
      tally.visited = (t.entered w P policy s).length ∧
      again.visited = (t.entered w P policy s').length := by
  obtain ⟨cs, result, u, ⟨steps₁, hrun₁, -⟩, hvisit⟩ := exists_visit_of_converge w P policy t s
  obtain ⟨rfl, rfl, rfl⟩ : result = .ok tally ∧ steps₁ = steps ∧ u = s' := by
    simpa using hrun₁.symm.trans hrun
  have hsettled := hvisit.settled hw fun _ hr => hr
  obtain ⟨cs', result', u', ⟨steps', hrun', hcalls⟩, hvisit'⟩ :=
    exists_visit_of_converge w P policy t u
  obtain ⟨rfl, hidle, again, rfl, happlied⟩ := hvisit'.idle hw (fun _ hr => hr) hsettled
  refine ⟨again, steps', cs', hrun', hcalls, hidle, ?_, happlied, ?_, ?_, ?_, ?_, ?_⟩
  · intro r hbegan
    obtain ⟨c, hc, hcall, -⟩ := hcalls.exists_of_began hbegan
    obtain ⟨r', rfl⟩ := hidle c hc
    cases hcall
  · exact hvisit.sublist_entered hw (fun _ hr => hr) hsettled []
  · exact nodup_enteredAt t .top [] s
  · intro p hp
    obtain ⟨q, rfl, hq⟩ := exists_of_mem_enteredAt t hp
    exact hq
  · exact (hvisit.visited_eq []).symm
  · exact (hvisit'.visited_eq []).symm

end Tree

/-! ## Images in a registry -/

namespace Rehearsal

/-- A registry has the images that were pushed to it; every other command succeeds, and changes
nothing. -/
def shelf : World Command.Request Command.Request.Answer (List String) where
  cancelled _ := false
  answer
    | .run c, s =>
        match c.args with
        | ["manifest", "inspect", r] => (.ok ⟨some (if r ∈ s then 0 else 1), "", ""⟩, s)
        | ["push", r] => (.ok .silent, r :: s)
        | _ => (.ok .silent, s)
    | .pathExists _, s => (false, s)

theorem run_satisfied_shelf (i : Image) (s : List String) :
    i.satisfied.run shelf.answer s = (.ok (decide (i.reference ∈ s)), s) := by
  by_cases h : i.reference ∈ s <;>
    simp [Image.satisfied, Command.run, Plan.query, Plan.run, Image.inspect, shelf, h,
      Except.map, Output.success]

theorem run_apply_shelf (i : Image) (s : List String) :
    i.apply.run shelf.answer s = (.ok (), i.reference :: s) := rfl

theorem holds_shelf (i : Image) (s : List String) :
    Tree.Holds shelf Resource.provider s (.image i) ↔ i.reference ∈ s := by
  show (i.satisfied.run shelf.answer s).1 = .ok true ↔ i.reference ∈ s
  simp [run_satisfied_shelf]

theorem steady_shelf : Tree.Steady shelf Resource.provider fun r => ∃ i, r = .image i where
  lasting _ := rfl
  answered := by
    rintro r ⟨i, rfl⟩ s
    exact ⟨_, run_satisfied_shelf i s⟩
  worked := by
    rintro r ⟨i, rfl⟩ s s' hrun
    obtain ⟨-, rfl⟩ := Prod.mk.inj ((run_apply_shelf i s).symm.trans hrun)
    exact (holds_shelf i _).mpr List.mem_cons_self
  kept := by
    rintro r ⟨i, rfl⟩ r' ⟨j, rfl⟩ s hholds
    show Tree.Holds shelf Resource.provider (i.apply.run shelf.answer s).2 (.image j)
    rw [run_apply_shelf, holds_shelf]
    exact List.mem_cons_of_mem _ ((holds_shelf j s).mp hholds)

/-- The image of this name, without a tag to speak of. -/
def picture (name : String) : Resource := .image ⟨name, ⟨name⟩, none, .empty⟩

/-- Two images, each of them above an image that both are made from. -/
def gallery : Tree Resource :=
  .node "gallery" none
    [.node "etching" (some (picture "etching")) [.node "paper" (some (picture "paper")) []],
      .node "drawing" (some (picture "drawing")) [.node "paper" (some (picture "paper")) []]]

/-- The first walk pushes three images, and the second one finds two of them in the registry. -/
theorem converge_again_of_gallery :
    Tree.Steady shelf Resource.provider (· ∈ gallery.resources) ∧
    ∃ steps s', (gallery.converge Resource.provider .skipSubtree).run shelf [] =
        (.ok ⟨5, 3, 1⟩, steps, s') ∧ s' = ["drawing", "etching", "paper"] ∧
      ∃ steps', (gallery.converge Resource.provider .skipSubtree).run shelf s' =
          (.ok ⟨3, 0, 2⟩, steps', s') ∧
        ∀ r, .left (.began .apply r) ∉ steps' := by
  have hw : Tree.Steady shelf Resource.provider (· ∈ gallery.resources) := by
    have hresources : gallery.resources = ["etching", "paper", "drawing", "paper"].map picture := by
      simp [gallery]
    refine steady_shelf.mono fun r hr => ?_
    rw [hresources] at hr
    obtain ⟨name, -, rfl⟩ := List.mem_map.mp hr
    exact ⟨_, rfl⟩
  obtain ⟨steps, hfirst⟩ : ∃ steps, (gallery.converge Resource.provider .skipSubtree).run shelf [] =
      (.ok ⟨5, 3, 1⟩, steps, ["drawing", "etching", "paper"]) := ⟨_, rfl⟩
  have hsecond : ((gallery.converge Resource.provider .skipSubtree).run shelf
      ["drawing", "etching", "paper"]).1 = .ok ⟨3, 0, 2⟩ := rfl
  obtain ⟨again, steps', cs, hrun, -, -, hnone, -⟩ :=
    Tree.converge_again shelf Resource.provider .skipSubtree gallery hw hfirst
  rw [hrun] at hsecond
  obtain rfl := Except.ok.inj hsecond
  exact ⟨hw, steps, _, hfirst, rfl, steps', hrun, hnone⟩

end Rehearsal

end Converge
