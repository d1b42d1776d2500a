import Converge.Tree.Converge
import Converge.Proofs.Addresses.Walks

/-!
# Where the passes over a tree stop

Validating a tree stops at the first resource that is not well-formed.  Converging a tree can stop
at a node before the children of the node are gone to, and after they are done.
-/

namespace Converge

variable {Q : Type} {A : Q → Type} {R α : Type}

/-! ## Validating -/

namespace Tree

variable {P : Provider Q A R} {policy : Policy} {above here : Address} {r : R}
  {trace : List (Moment Q A R)} {f : Fault}

theorem sizeOf_lt_of_mem_children {t u : Tree R} (hu : u ∈ t.children) : sizeOf u < sizeOf t := by
  obtain ⟨name, r, ts⟩ := t
  have hlt : sizeOf u < sizeOf ts := List.sizeOf_lt_of_mem hu
  simp only [node.sizeOf_spec]
  omega

/-- The resource of a node, if it has one, is found to be well-formed. -/
inductive PassesAt (P : Provider Q A R) : Tree R → List (Moment Q A R) → Unit → Prop
  | bare {name ts} : PassesAt P (node name none ts) [] ()
  | valid {name r ts trace} (h : (Course.call .validate r (P.validate r)).Leads trace (.ok ())) :
      PassesAt P (node name (some r) ts) trace ()

/-- Validating stops at a node. -/
inductive InvalidAt (P : Provider Q A R) : Tree R → List (Moment Q A R) → Trouble → Prop
  | invalid {name r ts trace cause}
      (h : (Course.call .validate r (P.validate r)).Leads trace (.error cause)) :
      InvalidAt P (node name (some r) ts) trace (.validation cause)

/-- Validating as a walk. -/
def validating (P : Provider Q A R) : Walk Q A R (Tree R) Unit Unit Unit where
  name := name
  children := children
  one above t := t.validateAt P above
  all := validateAll P
  enters := PassesAt P
  stops := InvalidAt P
  beneath t _ := t.children
  breaks _ _ _ _ := False

theorem leads_validateResource_ok (name : String) (ts : List (Tree R)) {r : Option R} {a : Unit} :
    (validateResource P here r).Leads trace (.ok a) ↔ PassesAt P (node name r ts) trace () := by
  cases r with
  | none =>
      constructor
      · rintro ⟨rfl, -⟩
        exact .bare
      · rintro ⟨⟩
        exact ⟨rfl, rfl⟩
  | some r =>
      rw [validateResource, Course.leads_bind]
      constructor
      · rintro ⟨first, _, cause | _, rfl, hcall, hdone⟩
        · cases hdone.2
        · obtain ⟨rfl, -⟩ := hdone
          rw [List.append_nil]
          exact .valid hcall
      · rintro ⟨⟩
        rename_i hcall
        exact ⟨trace, [], .ok (), (List.append_nil _).symm, hcall, rfl, rfl⟩

theorem leads_validateResource_error (name : String) (ts : List (Tree R)) {r : Option R} :
    (validateResource P here r).Leads trace (.error f) ↔
      ∃ c, InvalidAt P (node name r ts) trace c ∧ f = c.fault here := by
  cases r with
  | none =>
      constructor
      · rintro ⟨-, heq⟩
        cases heq
      · rintro ⟨_, ⟨⟩, -⟩
  | some r =>
      rw [validateResource, Course.leads_bind]
      constructor
      · rintro ⟨first, _, cause | _, rfl, hcall, hdone⟩
        · obtain ⟨rfl, heq⟩ := hdone
          rw [List.append_nil]
          exact ⟨_, .invalid hcall, Except.error.inj heq⟩
        · cases hdone.2
      · rintro ⟨_, ⟨hcall⟩, rfl⟩
        exact ⟨trace, [], .error _, (List.append_nil _).symm, hcall, rfl, rfl⟩

theorem lawful_validating (P : Provider Q A R) : (validating P).Lawful where
  all_nil above := ⟨(), validateAll_nil P above⟩
  all_cons above t ts := ⟨fun _ b => b, by
    simp only [validating, validateAll_cons, Course.andThen_ok]⟩
  one_error above t trace f := by
    obtain ⟨name, r, ts⟩ := t
    simp only [validating, validateAt_node]
    rw [Course.leads_andThen_error, leads_validateResource_error name ts]
    refine or_congr_right ?_
    constructor
    · rintro ⟨entry, rest, _, rfl, hentry, h⟩
      exact ⟨entry, rest, (), rfl, (leads_validateResource_ok name ts).mp hentry, .inl h⟩
    · rintro ⟨entry, rest, _, rfl, hentry, h | ⟨_, _, _, _, _, _, hbreaks, _⟩⟩
      · exact ⟨entry, rest, (), rfl, (leads_validateResource_ok name ts).mpr hentry, h⟩
      · exact hbreaks.elim
  beneath _ _ := .inl rfl
  smaller _ _ := sizeOf_lt_of_mem_children

/-! ## Converging -/

/-- A node is entered, and it is asked whether its resource, if it has one, is as declared. -/
inductive EntersAt (P : Provider Q A R) : Tree R → List (Moment Q A R) → Option Bool → Prop
  | bare {name ts} : EntersAt P (node name none ts) [.looked false] none
  | asked {name r ts trace b}
      (h : (Course.call .satisfied r (P.satisfied r)).Leads trace (.ok b)) :
      EntersAt P (node name (some r) ts) (.looked false :: trace) (some b)

/-- The walk stops at a node before its children: it was cancelled, or it could not be found out
whether the resource is as declared. -/
inductive StopsBefore (P : Provider Q A R) : Tree R → List (Moment Q A R) → Trouble → Prop
  | cancelled {t} : StopsBefore P t [.looked true] .cancelled
  | unknown {name r ts trace cause b}
      (h : (Course.call .satisfied r (P.satisfied r)).Leads trace (.error cause)) :
      StopsBefore P (node name (some r) ts) (.looked false :: (trace ++ [.looked b]))
        ((Trouble.satisfied cause).seen b)

/-- The children that are gone to, after it was found out whether the resource is as declared. -/
def goneTo (policy : Policy) (t : Tree R) (found : Option Bool) : List (Tree R) :=
  if found = some true ∧ policy = .skipSubtree then [] else t.children

/-- The walk stops at a node after its children: it was cancelled, or the work on the resource
failed. -/
inductive StopsAfter (P : Provider Q A R) :
    Tree R → Option Bool → List (Moment Q A R) → Trouble → Prop
  | cancelled {name r ts} :
      StopsAfter P (node name (some r) ts) (some false) [.looked true] .cancelled
  | failed {name r ts trace cause b}
      (h : (Course.call .apply r (P.apply r)).Leads trace (.error cause)) :
      StopsAfter P (node name (some r) ts) (some false) (.looked false :: (trace ++ [.looked b]))
        ((Trouble.apply cause).seen b)

/-- Nothing is done to a resource that was found as declared. -/
theorem StopsAfter.found_eq {t : Tree R} {found : Bool} {c : Trouble}
    (h : StopsAfter P t (some found) trace c) : found = false := by
  cases h <;> rfl

/-- Converging as a walk. -/
def converging (P : Provider Q A R) (policy : Policy) :
    Walk Q A R (Tree R) (Option Bool) Tally Tally where
  name := name
  children := children
  one above t := t.convergeAt P policy above
  all := convergeAll P policy
  enters := EntersAt P
  stops := StopsBefore P
  beneath := goneTo policy
  breaks := StopsAfter P

theorem leads_stop {fault : Fault} :
    (stop here fault : Course Q A R (Except Fault α)).Leads trace (.error f) ↔
      ∃ b, trace = [.looked b] ∧ f = if b then .cancelled here else fault := by
  rw [stop, Course.leads_look]
  constructor
  · rintro ⟨b, _, rfl, rfl, heq⟩
    exact ⟨b, rfl, Except.error.inj heq⟩
  · rintro ⟨b, rfl, rfl⟩
    exact ⟨b, [], rfl, rfl, rfl⟩

theorem leads_isSatisfied_ok {b : Bool} :
    (isSatisfied P here r).Leads trace (.ok b) ↔
      (Course.call .satisfied r (P.satisfied r)).Leads trace (.ok b) := by
  rw [isSatisfied, Course.leads_bind]
  constructor
  · rintro ⟨first, _, cause | b', rfl, hcall, hdone⟩
    · obtain ⟨_, _, _, _, heq⟩ := hdone
      cases heq
    · obtain ⟨rfl, heq⟩ := hdone
      cases heq
      rwa [List.append_nil]
  · exact fun hcall => ⟨trace, [], .ok b, (List.append_nil _).symm, hcall, rfl, rfl⟩

theorem leads_isSatisfied_error (name : String) (ts : List (Tree R)) :
    (isSatisfied P here r).Leads trace (.error f) ↔
      ∃ c, StopsBefore P (node name (some r) ts) (.looked false :: trace) c ∧ f = c.fault here := by
  rw [isSatisfied, Course.leads_bind]
  constructor
  · rintro ⟨asked, _, cause | b, rfl, hcall, hdone⟩
    · obtain ⟨b, rfl, rfl⟩ := leads_stop.mp hdone
      exact ⟨_, .unknown hcall, by cases b <;> rfl⟩
    · cases hdone.2
  · rintro ⟨_, ⟨⟩, rfl⟩
    rename_i asked cause b hcall
    exact ⟨asked, _, .error cause, rfl, hcall, leads_stop.mpr ⟨b, rfl, by cases b <;> rfl⟩⟩

theorem leads_applyResource_error (name : String) (ts : List (Tree R)) :
    (applyResource P here r).Leads trace (.error f) ↔
      ∃ c, StopsAfter P (node name (some r) ts) (some false) trace c ∧ f = c.fault here := by
  rw [applyResource, Course.leads_look]
  constructor
  · rintro ⟨_ | _, rest, rfl, h⟩
    · obtain ⟨worked, _, cause | _, rfl, hcall, hdone⟩ :=
        Course.leads_bind.mp (Course.leads_note.mp h)
      · obtain ⟨b, rfl, rfl⟩ := leads_stop.mp hdone
        exact ⟨_, .failed hcall, by cases b <;> rfl⟩
      · cases (Course.leads_note.mp hdone).2
    · obtain ⟨rfl, heq⟩ := h
      exact ⟨_, .cancelled, Except.error.inj heq⟩
  · rintro ⟨_, hc, rfl⟩
    cases hc with
    | cancelled => exact ⟨true, [], rfl, rfl, rfl⟩
    | @failed _ _ _ worked cause b hcall =>
        refine ⟨false, _, rfl, Course.leads_note.mpr (Course.leads_bind.mpr ?_)⟩
        exact ⟨worked, _, .error cause, rfl, hcall, leads_stop.mpr ⟨b, rfl, by cases b <;> rfl⟩⟩

theorem goneTo_skipSubtree (t : Tree R) : goneTo .skipSubtree t (some true) = [] :=
  if_pos ⟨rfl, rfl⟩

/-- A walk that goes on after its children without fail fails where they do. -/
theorem leads_all_error {ts : List (Tree R)} {g : Tally → Tally} :
    ((convergeAll P policy here ts).andThen fun below =>
      (Course.done (.ok (g below)) : Course Q A R (Except Fault Tally))).Leads trace (.error f) ↔
      (convergeAll P policy here ts).Leads trace (.error f) := by
  rw [Course.leads_andThen_error, or_iff_left]
  rintro ⟨_, _, _, _, _, -, hdone⟩
  cases hdone

theorem one_error_bare {name : String} {ts : List (Tree R)} :
    ((node name none ts).convergeAt P policy above).Leads trace (.error f) ↔
      (trace = [.looked true] ∧ f = .cancelled (above.child name)) ∨
      ∃ rest, trace = .looked false :: rest ∧
        (convergeAll P policy (above.child name) ts).Leads rest (.error f) := by
  rw [convergeAt_bare, Course.leads_look]
  constructor
  · rintro ⟨_ | _, rest, rfl, h⟩
    · exact .inr ⟨rest, rfl, leads_all_error.mp h⟩
    · obtain ⟨rfl, heq⟩ := h
      exact .inl ⟨rfl, Except.error.inj heq⟩
  · rintro (⟨rfl, rfl⟩ | ⟨rest, rfl, h⟩)
    · exact ⟨true, [], rfl, rfl, rfl⟩
    · exact ⟨false, rest, rfl, leads_all_error.mpr h⟩

/-- After it has been found out whether the resource of a node is as declared, the children may
fail, or the work on the resource. -/
theorem one_error_resource {name : String} {ts : List (Tree R)} :
    ((node name (some r) ts).convergeAt P policy above).Leads trace (.error f) ↔
      (trace = [.looked true] ∧ f = .cancelled (above.child name)) ∨
      ∃ rest, trace = .looked false :: rest ∧
        ((isSatisfied P (above.child name) r).Leads rest (.error f) ∨
          ∃ asked below found, rest = asked ++ below ∧
            (isSatisfied P (above.child name) r).Leads asked (.ok found) ∧
            ((convergeAll P policy (above.child name)
                (goneTo policy (node name (some r) ts) (some found))).Leads below (.error f) ∨
              found = false ∧ ∃ inner outer tally, below = inner ++ outer ∧
                (convergeAll P policy (above.child name) ts).Leads inner (.ok tally) ∧
                (applyResource P (above.child name) r).Leads outer (.error f))) := by
  rw [convergeAt_resource, Course.leads_look]
  constructor
  · rintro ⟨_ | _, rest, rfl, h⟩
    · refine .inr ⟨rest, rfl, ?_⟩
      rcases Course.leads_andThen_error.mp h with hask | ⟨asked, below, found, rfl, hask, hnext⟩
      · exact .inl hask
      refine .inr ⟨asked, below, found, rfl, hask, ?_⟩
      cases found with
      | true =>
          cases policy with
          | skipSubtree => cases (Course.leads_note.mp hnext).2
          | selfOnly => exact .inl (leads_all_error.mp (Course.leads_note.mp hnext))
      | false =>
          rcases Course.leads_andThen_error.mp hnext with
            hbelow | ⟨inner, outer, tally, rfl, hinner, houter⟩
          · exact .inl hbelow
          rcases Course.leads_andThen_error.mp houter with happly | ⟨_, _, _, _, _, hdone⟩
          · exact .inr ⟨rfl, inner, outer, tally, rfl, hinner, happly⟩
          · cases hdone.2
    · obtain ⟨rfl, heq⟩ := h
      exact .inl ⟨rfl, Except.error.inj heq⟩
  · rintro (⟨rfl, rfl⟩ | ⟨rest, rfl, h⟩)
    · exact ⟨true, [], rfl, rfl, rfl⟩
    refine ⟨false, rest, rfl, Course.leads_andThen_error.mpr ?_⟩
    rcases h with hask | ⟨asked, below, found, rfl, hask, hnext⟩
    · exact .inl hask
    refine .inr ⟨asked, below, found, rfl, hask, ?_⟩
    rcases hnext with hbelow | ⟨rfl, inner, outer, tally, rfl, hinner, happly⟩
    · cases found with
      | true =>
          cases policy with
          | skipSubtree =>
              rw [goneTo_skipSubtree, convergeAll_nil] at hbelow
              cases hbelow.2
          | selfOnly => exact Course.leads_note.mpr (leads_all_error.mpr hbelow)
      | false => exact Course.leads_andThen_error.mpr (.inl hbelow)
    · refine Course.leads_andThen_error.mpr (.inr ⟨inner, outer, tally, rfl, hinner, ?_⟩)
      exact Course.leads_andThen_error.mpr (.inl happly)

theorem lawful_converging (P : Provider Q A R) (policy : Policy) :
    (converging P policy).Lawful where
  all_nil above := ⟨0, convergeAll_nil P policy above⟩
  all_cons above t ts := ⟨(· + ·), convergeAll_cons P policy above t ts⟩
  one_error above t trace f := by
    obtain ⟨name, none | r, ts⟩ := t
    · refine one_error_bare.trans ?_
      constructor
      · rintro (⟨rfl, rfl⟩ | ⟨rest, rfl, h⟩)
        · exact .inl ⟨_, .cancelled, rfl⟩
        · exact .inr ⟨_, rest, none, rfl, .bare, .inl h⟩
      · rintro (⟨_, ⟨⟩, rfl⟩ | ⟨_, rest, _, rfl, ⟨⟩, h | ⟨_, _, _, _, _, _, ⟨⟩, _⟩⟩)
        · exact .inl ⟨rfl, rfl⟩
        · exact .inr ⟨rest, rfl, h⟩
    · refine one_error_resource.trans ?_
      constructor
      · rintro (⟨rfl, rfl⟩ | ⟨rest, rfl, h | ⟨asked, below, found, rfl, hfound, h⟩⟩)
        · exact .inl ⟨_, .cancelled, rfl⟩
        · exact .inl ((leads_isSatisfied_error name ts).mp h)
        · refine .inr ⟨_, below, some found, rfl, .asked (leads_isSatisfied_ok.mp hfound), ?_⟩
          rcases h with h | ⟨rfl, inner, outer, tally, rfl, hinner, h⟩
          · exact .inl h
          · obtain ⟨c, hc, rfl⟩ := (leads_applyResource_error name ts).mp h
            exact .inr ⟨inner, outer, tally, c, rfl, hinner, hc, rfl⟩
      · rintro (⟨_, hc, rfl⟩ | ⟨_, below, _, rfl, ⟨⟩ | hcall, h⟩)
        · cases hc with
          | cancelled => exact .inl ⟨rfl, rfl⟩
          | unknown hcall =>
              refine .inr ⟨_, rfl, .inl ?_⟩
              exact (leads_isSatisfied_error name ts).mpr ⟨_, .unknown hcall, rfl⟩
        · refine .inr ⟨_, rfl, .inr ⟨_, below, _, rfl, leads_isSatisfied_ok.mpr hcall, ?_⟩⟩
          rcases h with h | ⟨inner, outer, tally, c, rfl, hinner, hc, rfl⟩
          · exact .inl h
          · obtain rfl := hc.found_eq
            refine .inr ⟨rfl, inner, outer, tally, rfl, hinner, ?_⟩
            exact (leads_applyResource_error name ts).mpr ⟨c, hc, rfl⟩
  beneath t found := by
    by_cases h : found = some true ∧ policy = .skipSubtree
    · exact .inr (if_pos h)
    · exact .inl (if_neg h)
  smaller _ _ := sizeOf_lt_of_mem_children

end Tree

end Converge
