import Converge.Blueprint
import Converge.Proofs.Addresses.Walks

/-!
# Where building stops

Building a tree checks a node and determines its children before it goes on to them, and it looks
for a cancellation before that.
-/

namespace Converge

variable {R : Type}

namespace Blueprint

variable {H : Type} {above : Address}

/-- What is found at a place. -/
def at? : Place → Blueprint H R → Option (Blueprint H R)
  | [], b => some b
  | i :: p, b => b.children[i]?.bind (at? p)

/-- A node is checked, and its children are determined. -/
inductive Enters : Blueprint H R → List (Moment (Hook H) Hook.Answer R) → Unit → Prop
  | entered {name hooks r bs} :
      Enters (node name hooks r bs)
        [.looked false, .answered (.validate hooks) (.ok ()), .answered (.children hooks) (.ok ())]
        ()

/-- Building stops at a node. -/
inductive Stops : Blueprint H R → List (Moment (Hook H) Hook.Answer R) → Trouble → Prop
  | cancelled {b} : Stops b [.looked true] .cancelled
  | invalid {name hooks r bs cause} :
      Stops (node name hooks r bs) [.looked false, .answered (.validate hooks) (.error cause)]
        (.validation cause)
  | unresolved {name hooks r bs cause} :
      Stops (node name hooks r bs)
        [.looked false, .answered (.validate hooks) (.ok ()),
          .answered (.children hooks) (.error cause)]
        (.children cause)

/-- Building as a walk. -/
def building : Walk (Hook H) Hook.Answer R (Blueprint H R) Unit (Tree R) (List (Tree R)) where
  name := name
  children := children
  one above b := b.buildAt above
  all := buildAll
  enters := Enters
  stops := Stops
  beneath b _ := b.children
  breaks _ _ _ _ := False

theorem leads_hook_ok {q : Hook H} {fault : Failure → Fault}
    {trace : List (Moment (Hook H) Hook.Answer R)} {a : Unit} :
    (hook q fault : Building H R Unit).Leads trace (.ok a) ↔ trace = [.answered q (.ok ())] := by
  rw [hook, Course.leads_ask]
  constructor
  · rintro ⟨a | a, rest, rfl, rfl, heq⟩
    · cases heq
    · rfl
  · rintro rfl
    exact ⟨.ok (), [], rfl, rfl, rfl⟩

theorem leads_hook_error {q : Hook H} {fault : Failure → Fault}
    {trace : List (Moment (Hook H) Hook.Answer R)} {f : Fault} :
    (hook q fault : Building H R Unit).Leads trace (.error f) ↔
      ∃ cause, trace = [.answered q (.error cause)] ∧ f = fault cause := by
  rw [hook, Course.leads_ask]
  constructor
  · rintro ⟨cause | a, rest, rfl, rfl, heq⟩
    · exact ⟨cause, rfl, Except.error.inj heq⟩
    · cases heq
  · rintro ⟨cause, rfl, rfl⟩
    exact ⟨.error cause, [], rfl, rfl, rfl⟩

theorem one_error_building {b : Blueprint H R} {trace : List (Moment (Hook H) Hook.Answer R)}
    {f : Fault} :
    (b.buildAt above).Leads trace (.error f) ↔
      (∃ c, Stops b trace c ∧ f = c.fault (above.child b.name)) ∨
      ∃ entry rest, trace = entry ++ rest ∧ Enters b entry () ∧
        (buildAll (above.child b.name) b.children).Leads rest (.error f) := by
  obtain ⟨name, hooks, resource, bs⟩ := b
  rw [buildAt, Course.leads_look]
  constructor
  · rintro ⟨_ | _, rest, rfl, h⟩
    · rcases Course.leads_andThen_error.mp h with hcheck | ⟨_, rest, _, rfl, hcheck, hnext⟩
      · obtain ⟨cause, rfl, rfl⟩ := leads_hook_error.mp hcheck
        exact .inl ⟨_, .invalid, rfl⟩
      obtain rfl := leads_hook_ok.mp hcheck
      rcases Course.leads_andThen_error.mp hnext with hask | ⟨_, rest, _, rfl, hask, hbelow⟩
      · obtain ⟨cause, rfl, rfl⟩ := leads_hook_error.mp hask
        exact .inl ⟨_, .unresolved, rfl⟩
      obtain rfl := leads_hook_ok.mp hask
      rcases Course.leads_andThen_error.mp hbelow with hbelow | ⟨_, _, _, _, _, hdone⟩
      · exact .inr ⟨_, rest, rfl, .entered, hbelow⟩
      · cases hdone.2
    · obtain ⟨rfl, heq⟩ := h
      cases heq
      exact .inl ⟨_, .cancelled, rfl⟩
  · rintro (⟨c, hc, rfl⟩ | ⟨entry, rest, rfl, hentry, h⟩)
    · cases hc with
      | cancelled => exact ⟨true, [], rfl, rfl, rfl⟩
      | invalid =>
          refine ⟨false, _, rfl, Course.leads_andThen_error.mpr (.inl ?_)⟩
          exact leads_hook_error.mpr ⟨_, rfl, rfl⟩
      | unresolved =>
          refine ⟨false, _, rfl, Course.leads_andThen_error.mpr (.inr ?_)⟩
          refine ⟨_, [_], (), rfl, leads_hook_ok.mpr rfl, Course.leads_andThen_error.mpr (.inl ?_)⟩
          exact leads_hook_error.mpr ⟨_, rfl, rfl⟩
    · cases hentry with
      | entered =>
          refine ⟨false, _, rfl, Course.leads_andThen_error.mpr (.inr ?_)⟩
          refine ⟨_, _ :: rest, (), rfl, leads_hook_ok.mpr rfl,
            Course.leads_andThen_error.mpr (.inr ?_)⟩
          exact ⟨_, rest, (), rfl, leads_hook_ok.mpr rfl, Course.leads_andThen_error.mpr (.inl h)⟩

theorem lawful_building : (building : Walk (Hook H) Hook.Answer R _ _ _ _).Lawful where
  all_nil above := ⟨[], by simp only [building, buildAll]⟩
  all_cons above b bs := ⟨List.cons, by simp only [building, buildAll]⟩
  one_error above b trace f := by
    refine one_error_building.trans (or_congr_right ?_)
    constructor
    · rintro ⟨entry, rest, rfl, hentry, h⟩
      exact ⟨entry, rest, (), rfl, hentry, .inl h⟩
    · rintro ⟨entry, rest, _, rfl, hentry, h | ⟨_, _, _, _, _, _, hbreaks, _⟩⟩
      · exact ⟨entry, rest, rfl, hentry, h⟩
      · exact hbreaks.elim
  beneath _ _ := .inl rfl
  smaller := by
    rintro ⟨name, hooks, resource, bs⟩ b hb
    have hlt : sizeOf b < sizeOf bs := List.sizeOf_lt_of_mem hb
    simp only [node.sizeOf_spec]
    omega

end Blueprint

end Converge
