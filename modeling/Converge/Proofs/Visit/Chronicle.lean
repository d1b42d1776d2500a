import Converge.Proofs.Fleet.Started
import Converge.Proofs.Steps
import Converge.Proofs.Visit.Failure

/-! # What a walk writes down

A walk announces the work on a resource before the call to that end and reports it after; it reports
a resource that it finds as declared, and it opens and closes with events of its own.  Here the
record of a walk is cut into calls with the events that go with them, and the journal is held
against what the walk came to.  As in other places, calls are labelled with the places of nodes, so
that nodes which have the same address can be told apart.
-/

namespace Converge

open Course (World Step events called noted)

variable {Q : Type} {A : Q → Type} {R α σ : Type}

namespace Event

/-- Is it about a single node of a tree? -/
def isNode : Event → Bool
  | nodeSatisfied .. | nodeApplying .. | nodeApplied .. => true
  | _ => false

def isNodeSatisfied : Event → Bool
  | nodeSatisfied .. => true
  | _ => false

def isNodeApplied : Event → Bool
  | nodeApplied .. => true
  | _ => false

end Event

namespace Tree

/-! ## Calls with their events -/

section

variable (P : Provider Q A R) (policy : Policy) (t : Tree R)

/-- The steps are calls on nodes of `t`, one after the other and each with the events that go with
it.  It is also said whether the walk breaks off after them. -/
inductive Told : List (Step Q A (Place × R)) → Bool → Prop
  | nil : Told [] false
  /-- The walk was cancelled between two calls. -/
  | cut : Told [] true
  /-- It cannot be found out whether the resource is as declared. -/
  | unknown {p name r ts inner f} (hat : t.at? p = some (node name (some r) ts))
      (hcall : (P.satisfied r).Leads inner (.error f)) :
      Told (called .satisfied (p, r) inner) true
  /-- There is work to do. -/
  | wanting {p name r ts inner steps broken} (hat : t.at? p = some (node name (some r) ts))
      (hcall : (P.satisfied r).Leads inner (.ok false)) (hsteps : Told steps broken) :
      Told (called .satisfied (p, r) inner ++ steps) broken
  /-- The resource is as declared. -/
  | held {p name r ts inner steps broken} (hat : t.at? p = some (node name (some r) ts))
      (hcall : (P.satisfied r).Leads inner (.ok true)) (hsteps : Told steps broken) :
      Told (called .satisfied (p, r) inner ++
        .left (.event (.nodeSatisfied (t.addressOf p).text (P.kind r) (skipped policy ts))) ::
          steps) broken
  /-- The work on the resource fails. -/
  | failed {p name r ts inner f} (hat : t.at? p = some (node name (some r) ts))
      (hcall : (P.apply r).Leads inner (.error f)) :
      Told (.left (.event (.nodeApplying (t.addressOf p).text (P.kind r))) ::
        called .apply (p, r) inner) true
  /-- The work on the resource is done. -/
  | worked {p name r ts inner steps broken} (hat : t.at? p = some (node name (some r) ts))
      (hcall : (P.apply r).Leads inner (.ok ())) (hsteps : Told steps broken) :
      Told (.left (.event (.nodeApplying (t.addressOf p).text (P.kind r))) ::
        (called .apply (p, r) inner ++
          .left (.event (.nodeApplied (t.addressOf p).text (P.kind r) none)) :: steps)) broken

/-- The event is about a node of `t`, and stands where it should: between the steps `before` and
`after` of a walk. -/
inductive Stands : List (Step Q A (Place × R)) → Event → List (Step Q A (Place × R)) → Prop
  /-- A resource has just been found as declared. -/
  | held {p name r ts inner} (earlier after) (hat : t.at? p = some (node name (some r) ts))
      (hcall : (P.satisfied r).Leads inner (.ok true)) :
      Stands (earlier ++ called .satisfied (p, r) inner)
        (.nodeSatisfied (t.addressOf p).text (P.kind r) (skipped policy ts)) after
  /-- The work on a resource is next, and is reported at once if it succeeds. -/
  | announced {p name r ts inner answer rest} (before)
      (hat : t.at? p = some (node name (some r) ts)) (hcall : (P.apply r).Leads inner answer)
      (hok : answer = .ok () → ∃ later, rest =
        .left (.event (.nodeApplied (t.addressOf p).text (P.kind r) none)) :: later)
      (herror : ∀ f, answer = .error f → ∀ e ∈ events rest, e.isNode = false) :
      Stands before (.nodeApplying (t.addressOf p).text (P.kind r))
        (called .apply (p, r) inner ++ rest)
  /-- The work on a resource has just been done. -/
  | applied {p name r ts inner} (earlier after) (hat : t.at? p = some (node name (some r) ts))
      (hcall : (P.apply r).Leads inner (.ok ())) :
      Stands (earlier ++ .left (.event (.nodeApplying (t.addressOf p).text (P.kind r))) ::
          called .apply (p, r) inner)
        (.nodeApplied (t.addressOf p).text (P.kind r) none) after

end

variable {P : Provider Q A R} {policy : Policy} {t : Tree R}
  {steps further before after : List (Step Q A (Place × R))} {broken : Bool} {e : Event}

/-- What precedes the steps before an event makes no difference to it. -/
theorem Stands.append (h : Stands P policy t before e after)
    (earlier : List (Step Q A (Place × R))) : Stands P policy t (earlier ++ before) e after := by
  cases h with
  | held first after hat hcall =>
      rw [← List.append_assoc]
      exact .held _ after hat hcall
  | announced before hat hcall hok herror => exact .announced _ hat hcall hok herror
  | applied first after hat hcall =>
      rw [← List.append_assoc]
      exact .applied _ after hat hcall

theorem Stands.isNode (h : Stands P policy t before e after) : e.isNode = true := by
  cases h <;> rfl

namespace Told

theorem append (h : Told P policy t steps broken) (hbroken : broken = false) {broken' : Bool}
    (h' : Told P policy t further broken') : Told P policy t (steps ++ further) broken' := by
  induction h with
  | nil => exact h'
  | cut | unknown | failed => cases hbroken
  | wanting hat hcall _ ih =>
      rw [List.append_assoc]
      exact .wanting hat hcall (ih hbroken)
  | held hat hcall _ ih =>
      rw [List.append_assoc]
      exact .held hat hcall (ih hbroken)
  | worked hat hcall _ ih =>
      rw [List.cons_append, List.append_assoc]
      exact .worked hat hcall (ih hbroken)

/-- Whatever follows the walk, as long as it tells of no more nodes, all events of the walk stand
where they should. -/
theorem stands (h : Told P policy t steps broken)
    (heq : steps = before ++ .left (.event e) :: after) {tail : List (Step Q A (Place × R))}
    (htail : ∀ e ∈ events tail, e.isNode = false) :
    Stands P policy t before e (after ++ tail) := by
  induction h generalizing before with
  | nil | cut => simp at heq
  | unknown hat hcall => exact absurd heq (Course.ne_of_events_eq_nil (hcall.events_called ..))
  | wanting hat hcall _ ih =>
      obtain ⟨mid, rfl, hmid⟩ := Course.split_event (hcall.events_called ..) heq
      exact (ih hmid).append _
  | held hat hcall _ ih =>
      obtain ⟨mid, rfl, hmid⟩ := Course.split_event (hcall.events_called ..) heq
      rcases Course.split_first hmid with ⟨rfl, rfl, rfl⟩ | ⟨mid, rfl, hlater⟩
      · rw [List.append_nil]
        exact .held [] _ hat hcall
      · rw [List.append_cons]
        exact (ih hlater).append _
  | failed hat hcall =>
      rcases Course.split_first heq with ⟨rfl, rfl, rfl⟩ | ⟨mid, rfl, hmid⟩
      · exact .announced [] hat hcall nofun fun _ _ => htail
      · exact absurd hmid (Course.ne_of_events_eq_nil (hcall.events_called ..))
  | worked hat hcall _ ih =>
      rcases Course.split_first heq with ⟨rfl, rfl, rfl⟩ | ⟨mid, rfl, hmid⟩
      · rw [List.append_assoc]
        exact .announced [] hat hcall (fun _ => ⟨_, rfl⟩) nofun
      obtain ⟨mid, rfl, hrest⟩ := Course.split_event (hcall.events_called ..) hmid
      rcases Course.split_first hrest with ⟨rfl, rfl, rfl⟩ | ⟨mid, rfl, hlater⟩
      · rw [List.append_nil]
        exact .applied [] _ hat hcall
      · rw [List.append_cons, ← List.cons_append]
        exact (ih hlater).append _

/-- So a walk writes down events of nodes only. -/
theorem isNode (h : Told P policy t steps broken) : ∀ e ∈ events steps, e.isNode = true := by
  intro e he
  obtain ⟨x, hx, hevent⟩ := List.mem_filterMap.mp he
  obtain ⟨before, after, rfl⟩ := List.append_of_mem hx
  rcases x with (_ | _ | _) | _ <;> cases hevent
  have htail : ∀ e ∈ events ([] : List (Step Q A (Place × R))), e.isNode = false := nofun
  exact (h.stands rfl htail).isNode

end Told

/-! ## Walks -/

/-- The record of a walk, or of a part of it, that comes to `result`. -/
structure Accounts (P : Provider Q A R) (policy : Policy) (t : Tree R)
    (steps : List (Step Q A (Place × R))) (result : Except Fault Tally) : Prop where
  told : Told P policy t steps (!result.isOk)
  applied : ∀ tally, result = .ok tally →
    (events steps).countP Event.isNodeApplied = tally.applied
  satisfied : ∀ tally, result = .ok tally →
    (events steps).countP Event.isNodeSatisfied = tally.satisfied

namespace Accounts

theorem of_error (h : Told P policy t steps true) (f : Fault) :
    Accounts P policy t steps (.error f) :=
  ⟨h, nofun, nofun⟩

theorem nil : Accounts P policy t [] (.ok 0) := by
  refine ⟨.nil, ?_, ?_⟩
  all_goals
    rintro _ ⟨⟩
    rfl

/-- A node is entered without a word. -/
theorem enter : Accounts P policy t [] (.ok .enter) := by
  refine ⟨.nil, ?_, ?_⟩
  all_goals
    rintro _ ⟨⟩
    rfl

/-- One part of a walk after another. -/
theorem append {a : Tally} {result : Except Fault Tally} (h : Accounts P policy t steps (.ok a))
    (h' : Accounts P policy t further result) :
    Accounts P policy t (steps ++ further) (result.map (a + ·)) := by
  cases result with
  | error f => exact .of_error (h.told.append rfl h'.told) f
  | ok b =>
      refine ⟨h.told.append rfl h'.told, ?_, ?_⟩
      all_goals
        rintro _ ⟨⟩
        rw [Course.events_append, List.countP_append]
      · rw [h.applied a rfl, h'.applied b rfl]
        rfl
      · rw [h.satisfied a rfl, h'.satisfied b rfl]
        rfl

section

variable {p : Place} {name : String} {r : R} {ts : List (Tree R)}
  {inner : List (Step Q A (Place × R))}

theorem wanting (hat : t.at? p = some (node name (some r) ts))
    (hcall : (P.satisfied r).Leads inner (.ok false)) :
    Accounts P policy t (called .satisfied (p, r) inner) (.ok 0) := by
  have htold : Told P policy t (called .satisfied (p, r) inner ++ []) false :=
    .wanting hat hcall .nil
  rw [List.append_nil] at htold
  refine ⟨htold, ?_, ?_⟩
  all_goals
    rintro _ ⟨⟩
    rw [hcall.events_called]
    rfl

theorem held (hat : t.at? p = some (node name (some r) ts))
    (hcall : (P.satisfied r).Leads inner (.ok true)) :
    Accounts P policy t (called .satisfied (p, r) inner ++
      [.left (.event (.nodeSatisfied (t.addressOf p).text (P.kind r) (skipped policy ts)))])
      (.ok .rest) := by
  refine ⟨.held hat hcall .nil, ?_, ?_⟩
  all_goals
    rintro _ ⟨⟩
    rw [Course.events_append, hcall.events_called]
    rfl

theorem worked (hat : t.at? p = some (node name (some r) ts))
    (hcall : (P.apply r).Leads inner (.ok ())) :
    Accounts P policy t (.left (.event (.nodeApplying (t.addressOf p).text (P.kind r))) ::
      (called .apply (p, r) inner ++
        [.left (.event (.nodeApplied (t.addressOf p).text (P.kind r) none))])) (.ok .work) := by
  refine ⟨.worked hat hcall .nil, ?_, ?_⟩
  all_goals
    rintro _ ⟨⟩
    rw [Course.events_event, Course.events_append, hcall.events_called]
    rfl

end

end Accounts

/-- What fails is stopped without a word. -/
theorem stop_ensures (here : Address) (fault : Fault) :
    (stop here fault : Course Q A R (Except Fault α)).Ensures fun steps r =>
      steps = [] ∧ ∃ f, r = .error f :=
  fun _ => ⟨rfl, _, rfl⟩

theorem isSatisfied_ensures (P : Provider Q A R) (here : Address) (r : R) :
    (isSatisfied P here r).Ensures fun steps result => ∃ inner, steps = called .satisfied r inner ∧
      ((∃ b, result = .ok b ∧ (P.satisfied r).Leads inner (.ok b)) ∨
        ∃ f e, result = .error f ∧ (P.satisfied r).Leads inner (.error e)) := by
  refine (Course.Ensures.call .satisfied r (P.satisfied r)).bind ?_
  rintro _ answer ⟨inner, rfl, hcall⟩
  cases answer with
  | ok b => exact ⟨inner, List.append_nil _, .inl ⟨b, rfl, hcall⟩⟩
  | error e =>
      refine (stop_ensures here _).mono ?_
      rintro _ _ ⟨rfl, f, rfl⟩
      exact ⟨inner, List.append_nil _, .inr ⟨f, e, rfl, hcall⟩⟩

section

variable (P : Provider Q A R) (policy : Policy) (t : Tree R)

theorem applyResource_ensures {p : Place} {name : String} {r : R} {ts : List (Tree R)}
    (hat : t.at? p = some (node name (some r) ts)) :
    (applyResource (P.comap Prod.snd) (t.addressOf p) (p, r)).Ensures fun steps result =>
      Accounts P policy t steps (result.map fun _ => .work) := by
  refine .look (.note ((Course.Ensures.call .apply (p, r) (P.apply r)).bind ?_))
    (.of_error .cut _)
  rintro _ answer ⟨inner, rfl, hcall⟩
  cases answer with
  | ok _ => exact .worked hat hcall
  | error e =>
      refine (stop_ensures _ _).mono ?_
      rintro _ _ ⟨rfl, f, rfl⟩
      rw [List.append_nil]
      exact .of_error (.failed hat hcall) f

theorem skipped_placedAll (p : Place) (ts : List (Tree R)) :
    skipped policy (placedAll p 0 ts) = skipped policy ts := by
  have hlength := length_mapAll Prod.snd (placedAll p 0 ts)
  rw [mapAll_snd_placedAll] at hlength
  cases policy with
  | skipSubtree => exact hlength.symm
  | selfOnly => rfl

mutual

/-- What a walk leaves behind over the tree that `t` has at place `p`. -/
theorem convergeAt_ensures : ∀ (u : Tree R) {p : Place} {above : Address},
    t.at? p = some u → above.child u.name = t.addressOf p →
    ((u.placedAt p).convergeAt (P.comap Prod.snd) policy above).Ensures (Accounts P policy t)
  | node name none ts, p, above, hat, hhere => by
      rw [placedAt_node, Option.map_none, convergeAt_bare]
      refine .look (.map _ (convergeAll_ensures ts hhere fun j => ?_) ?_) (.of_error .cut _)
      · rw [Nat.zero_add, at?_child hat]
      · exact fun _ _ hbelow => Accounts.enter.append hbelow
  | node name (some r) ts, p, above, hat, hhere => by
      change above.child name = t.addressOf p at hhere
      have hts : (convergeAll (P.comap Prod.snd) policy (t.addressOf p) (placedAll p 0 ts)).Ensures
          (Accounts P policy t) :=
        convergeAll_ensures ts rfl fun j => by rw [Nat.zero_add, at?_child hat]
      rw [placedAt_node, Option.map_some, convergeAt_resource, hhere, skipped_placedAll]
      refine .look ((isSatisfied_ensures _ _ _).andThen ?_ ?_) (.of_error .cut _)
      · rintro _ b ⟨inner, rfl, ⟨_, ⟨⟩, hcall⟩ | ⟨_, _, ⟨⟩, -⟩⟩
        cases b with
        | true =>
            have hself : Accounts P policy t _ (.ok (.enter + .rest)) :=
              Accounts.enter.append (.held hat hcall)
            refine .note ?_
            cases policy with
            | skipSubtree => exact hself
            | selfOnly =>
                refine hts.map _ fun below result hbelow => ?_
                have h := hself.append hbelow
                rwa [List.nil_append, List.append_assoc] at h
        | false =>
            have hself : Accounts P policy t _ (.ok (.enter + 0)) :=
              Accounts.enter.append (.wanting hat hcall)
            refine hts.andThen (fun steps below hbelow => ?_) fun _ _ hbelow => hself.append hbelow
            refine (applyResource_ensures P policy t hat).map _ fun work result hwork => ?_
            have h := (hself.append hbelow).append hwork
            rw [List.nil_append, List.append_assoc] at h
            cases result with
            | ok _ => simpa [Except.map] using h
            | error f => exact h
      · rintro _ f ⟨inner, rfl, ⟨_, ⟨⟩, -⟩ | ⟨_, _, ⟨⟩, hcall⟩⟩
        exact .of_error (.unknown hat hcall) f

theorem convergeAll_ensures : ∀ (us : List (Tree R)) {p : Place} {i : Nat} {above : Address},
    above = t.addressOf p → (∀ j, t.at? (p ++ [i + j]) = us[j]?) →
    (convergeAll (P.comap Prod.snd) policy above (placedAll p i us)).Ensures
      (Accounts P policy t)
  | [], p, i, above, habove, hat => by
      rw [placedAll_nil, convergeAll_nil]
      exact .nil
  | u :: us, p, i, above, habove, hat => by
      have hu : t.at? (p ++ [i]) = some u := hat 0
      have hhere : above.child u.name = t.addressOf (p ++ [i]) := by
        rw [habove, addressOf_child hu]
      rw [placedAll_cons, convergeAll_cons]
      refine (convergeAt_ensures u hu hhere).andThen (fun steps first hfirst => ?_) fun _ _ h => h
      refine .map _ (convergeAll_ensures us habove fun j => ?_) fun _ _ hothers =>
        hfirst.append hothers
      rw [Nat.add_right_comm, Nat.add_assoc]
      exact hat (j + 1)

end

end

/-! ## The journal of a pass -/

/-- What is written down at the end of a pass: the counts of a success, a failure by its message,
and nothing at all of a cancellation. -/
def ending (root : String) : Except Fault Tally → List Event
  | .ok tally => [.applyCompleted root tally.applied tally.satisfied none]
  | .error f => if f.isCancellation then [] else [.passFailed "apply" root f.message]

/-- Among the steps of a pass, in which the calls are labelled with the places of their nodes, the
events about nodes stand where they should. -/
structure Bracketed (P : Provider Q A R) (policy : Policy) (t : Tree R)
    (steps : List (Step Q A (Place × R))) : Prop where
  /-- Where work on a node is announced, the call on its resource follows.  If the call succeeds, it
  is reported at once; if it fails, no node is mentioned any more. -/
  announced : ∀ before here kind after,
    steps = before ++ .left (.event (.nodeApplying here kind)) :: after →
    ∃ p name r ts inner answer rest, t.at? p = some (node name (some r) ts) ∧
      here = (t.addressOf p).text ∧ kind = P.kind r ∧
      after = called .apply (p, r) inner ++ rest ∧ (P.apply r).Leads inner answer ∧
      (answer = .ok () → ∃ later, rest = .left (.event (.nodeApplied here kind none)) :: later) ∧
      ∀ f, answer = .error f → ∀ e ∈ events rest, e.isNode = false
  /-- Where work on a node is reported, it was announced, and the call has just succeeded. -/
  reported : ∀ before here kind took after,
    steps = before ++ .left (.event (.nodeApplied here kind took)) :: after →
    ∃ p name r ts earlier inner, t.at? p = some (node name (some r) ts) ∧
      here = (t.addressOf p).text ∧ kind = P.kind r ∧
      before = earlier ++ .left (.event (.nodeApplying here kind)) :: called .apply (p, r) inner ∧
      (P.apply r).Leads inner (.ok ())
  /-- Where a node is reported to be satisfied, its resource has just been found so.  The children
  passed over are all children of the node, or none, as the policy says. -/
  satisfied : ∀ before here kind n after,
    steps = before ++ .left (.event (.nodeSatisfied here kind n)) :: after →
    ∃ p name r ts earlier inner, t.at? p = some (node name (some r) ts) ∧
      here = (t.addressOf p).text ∧ kind = P.kind r ∧
      before = earlier ++ called .satisfied (p, r) inner ∧ (P.satisfied r).Leads inner (.ok true) ∧
      (policy = .skipSubtree → n = ts.length) ∧ (policy = .selfOnly → n = 0)

/-- The record of a pass over `t` agrees with what the pass came to. -/
structure Chronicle (P : Provider Q A R) (policy : Policy) (t : Tree R)
    (steps : List (Step Q A R)) (result : Except Fault Tally) : Prop where
  /-- The journal opens with the beginning of the pass and closes with its end, and all events
  between the two are about nodes. -/
  framed : ∃ nodes, events steps =
      .applyStarted t.name policy.name :: (nodes ++ ending t.name result) ∧
    ∀ e ∈ nodes, e.isNode = true
  /-- A success counts the events of either kind. -/
  counted : ∀ tally, result = .ok tally →
    (events steps).countP Event.isNodeApplied = tally.applied ∧
    (events steps).countP Event.isNodeSatisfied = tally.satisfied
  bracketed : ∃ labelled, steps = labelled.map (Step.map Prod.snd) ∧
    Bracketed P policy t labelled

theorem isNode_ending {root : String} {result : Except Fault Tally} :
    ∀ e ∈ ending root result, e.isNode = false := by
  intro e he
  rcases result with f | tally
  · rw [ending] at he
    split at he
    · cases he
    · rw [List.mem_singleton.mp he]
      rfl
  · rw [List.mem_singleton.mp he]
    rfl

theorem concluded_ensures (root : String) (result : Except Fault Tally) :
    (concluded root result : Course Q A R _).Ensures fun steps r =>
      steps = noted (ending root result) ∧ r = result := by
  rcases result with f | tally
  · rw [concluded, ending]
    split
    · exact ⟨rfl, rfl⟩
    · exact ⟨rfl, rfl⟩
  · exact ⟨rfl, rfl⟩

/-- An event about a node stands where it should in the whole pass, too. -/
theorem Told.stands_in_pass (h : Told P policy t steps broken) {first : Event} {last : List Event}
    (hfirst : first.isNode = false) (hlast : ∀ e ∈ last, e.isNode = false)
    (heq : .left (.event first) :: (steps ++ noted last) = before ++ .left (.event e) :: after)
    (he : e.isNode = true) : Stands P policy t before e after := by
  have hnot (mid : List (Step Q A (Place × R))) :
      noted last ≠ mid ++ .left (.event e) :: after := by
    intro hmid
    have hevents := congrArg events hmid
    rw [Course.events_noted, Course.events_append, Course.events_event] at hevents
    have hmem : e ∈ last := hevents ▸ by simp
    rw [hlast e hmem] at he
    cases he
  rcases Course.split_first heq with ⟨-, rfl, -⟩ | ⟨mid, rfl, hmid⟩
  · rw [hfirst] at he
    cases he
  rcases List.append_eq_append_iff.mp hmid with ⟨rest, -, hrest⟩ | ⟨rest, hsteps, hrest⟩
  · exact absurd hrest (hnot rest)
  · cases rest with
    | nil => exact absurd hrest.symm (hnot [])
    | cons x rest =>
        obtain ⟨rfl, rfl⟩ := List.cons.inj hrest
        have htail : ∀ e ∈ events (noted last : List (Step Q A (Place × R))), e.isNode = false := by
          rwa [Course.events_noted]
        exact (h.stands hsteps htail).append [.left (.event first)]

/-- What a walk tells makes a chronicle when the beginning and the end are added. -/
theorem Accounts.chronicle {result : Except Fault Tally} (h : Accounts P policy t steps result) :
    Chronicle P policy t ((.left (.event (.applyStarted t.name policy.name)) ::
      (steps ++ noted (ending t.name result))).map (Step.map Prod.snd)) result := by
  refine ⟨⟨events steps, ?_, h.told.isNode⟩, ?_, _, rfl, ?_, ?_, ?_⟩
  · rw [Course.events_map, Course.events_event, Course.events_append, Course.events_noted]
  · rintro tally rfl
    rw [Course.events_map, Course.events_event, Course.events_append, Course.events_noted,
      ← h.applied tally rfl, ← h.satisfied tally rfl]
    simp [ending, Event.isNodeApplied, Event.isNodeSatisfied]
  · intro before here kind after heq
    cases h.told.stands_in_pass rfl isNode_ending heq rfl with
    | announced _ hat hcall hok herror =>
        exact ⟨_, _, _, _, _, _, _, hat, rfl, rfl, rfl, hcall, hok, herror⟩
  · intro before here kind took after heq
    cases h.told.stands_in_pass rfl isNode_ending heq rfl with
    | applied earlier _ hat hcall => exact ⟨_, _, _, _, earlier, _, hat, rfl, rfl, rfl, hcall⟩
  · intro before here kind n after heq
    cases h.told.stands_in_pass rfl isNode_ending heq rfl with
    | held earlier _ hat hcall =>
        refine ⟨_, _, _, _, earlier, _, hat, rfl, rfl, rfl, hcall, ?_, ?_⟩
        · rintro rfl
          rfl
        · rintro rfl
          rfl

theorem name_placed (t : Tree R) : t.placed.name = t.name := by
  cases t
  rw [placed, placedAt_node]
  rfl

/-- Whatever happens in the course of a pass, its record is a chronicle. -/
theorem converge_ensures (P : Provider Q A R) (policy : Policy) (t : Tree R) :
    (t.converge P policy).Ensures (Chronicle P policy t) := by
  have hplaced : (t.placed.converge (P.comap Prod.snd) policy).Ensures fun labelled =>
      Chronicle P policy t (labelled.map (Step.map Prod.snd)) := by
    have hroot : Address.top.child t.name = t.addressOf [] := t.addressOf_nil.symm
    rw [converge, name_placed]
    refine .note ((convergeAt_ensures P policy t t t.at?_nil hroot).bind fun steps result h => ?_)
    refine (concluded_ensures t.name result).mono ?_
    rintro _ _ ⟨rfl, rfl⟩
    exact h.chronicle
  rw [← congrArg (converge P policy) t.map_snd_placed, ← mapMarks_converge]
  exact .mapMarks hplaced

/-- What is written down in the course of a pass agrees with what the pass came to, in whatever
world it is carried out, and also if it is the work on a job among others: as soon as that has come
to an end, its part of the history of the run is a chronicle. -/
theorem converge_chronicle (P : Provider Q A R) (policy : Policy) (t : Tree R) :
    (∀ (σ : Type) (w : World Q A σ) (s : σ),
      Chronicle P policy t ((t.converge P policy).run w s).2.1
        ((t.converge P policy).run w s).1) ∧
    ∀ (u : Fleet.Setup Q A R) scopes caller s i name g result,
      u.provider = P → u.policy = policy → u.jobs[i]? = some ⟨name, t⟩ →
      Fleet.Reachable u (Fleet.start u scopes caller) s → i ∈ s.begun →
      s.stages[i]? = some g → g.outcome? = some (.returned result) →
      Chronicle P policy t (Fleet.stepsOf i s.history) result := by
  constructor
  · exact fun σ w s => (converge_ensures P policy t).run w s
  rintro u scopes caller s i name g result rfl rfl hjob h hbegun hi ho
  have hmeets : (u.course i).Meets scribe (Chronicle u.provider u.policy t) [] := by
    rw [Fleet.Setup.course_eq hjob]
    exact (converge_ensures u.provider u.policy t).meets
  rcases h.outcome_meets scribe_blind hmeets hi ho with hpost | rfl
  · rwa [after_scribe] at hpost
  · -- A job that has set to work is not turned away.
    have hstarted := h.isStarted_eq hi ho
    rw [decide_eq_true hbegun] at hstarted
    cases hstarted

end Tree

/-! ## A failure among others -/

namespace Rehearsal

open Fleet

/-- The work on the first of two jobs is announced, and then the failure of the pass. -/
theorem converge_chronicle_of_clumsy : ∃ s t f,
    Reachable clumsyPair (start clumsyPair .one 0) s ∧
    clumsyPair.jobs[0]? = some ⟨"first", t⟩ ∧
    Tree.Chronicle company .skipSubtree t (stepsOf 0 s.history) (.error f) ∧
    events (stepsOf 0 s.history) = [.applyStarted "root" "skip_subtree",
      .nodeApplying "root" "actor", .passFailed "apply" "root" "apply failed at 'root'"] := by
  have hsome : ((start clumsyPair .one 0).moves? clumsyPair untilFailure).isSome = true := by
    decide
  have h := reachable_moves? .start (Option.some_get hsome).symm
  obtain ⟨-, hjobs⟩ := Tree.converge_chronicle company .skipSubtree
    (.node "root" (some { Actor.plain "clumsy" 0 with failApply := some (.of "it broke") }) [])
  have hchronicle := hjobs clumsyPair .one 0 _ 0 _ _ _ rfl rfl rfl h (.head _) rfl rfl
  exact ⟨_, _, _, h, rfl, hchronicle, rfl⟩

end Rehearsal

end Converge
