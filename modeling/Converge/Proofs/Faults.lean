import Converge.Fault

/-!
# What a fault says when it is wrapped

A fault that belongs to a unit is wrapped with its name, at most once on the way out, though a
collaborator may hand over one that was wrapped before.  However often it is wrapped, the fault is
read as the one inside: it is of the same kind, happened at the same place, and is a cancellation
or is none.
-/

namespace Converge.Fault

/-- The fault inside all wrappings. -/
def origin : Fault → Fault
  | .unit _ cause => cause.origin
  | f => f

variable {f : Fault}

theorem origin_ne_unit (f : Fault) (name : String) (cause : Fault) :
    f.origin ≠ .unit name cause := by
  induction f with
  | unit _ _ ih => exact ih
  | _ => exact Fault.noConfusion

/-- A fault is its origin with wrappings around it. -/
theorem exists_wrappings (f : Fault) : ∃ names : List String, f = names.foldr .unit f.origin := by
  induction f with
  | unit name cause ih =>
      obtain ⟨names, hnames⟩ := ih
      exact ⟨name :: names, congrArg (Fault.unit name) hnames⟩
  | _ => exact ⟨[], rfl⟩

theorem kind_origin (f : Fault) : f.origin.kind = f.kind := by
  induction f with
  | unit _ _ ih => exact ih
  | _ => rfl

theorem address?_origin (f : Fault) : f.origin.address? = f.address? := by
  induction f with
  | unit _ _ ih => exact ih
  | _ => rfl

theorem isCancellation_origin (f : Fault) : f.origin.isCancellation = f.isCancellation := by
  induction f with
  | unit _ _ ih => exact ih
  | _ => rfl

/-- A cancellation is told by its kind. -/
theorem isCancellation_iff_kind : f.isCancellation = true ↔ f.kind = "cancelled" := by
  rw [← isCancellation_origin, ← kind_origin]
  have hnot := f.origin_ne_unit
  cases h : f.origin with
  | unit name cause => exact absurd h (hnot name cause)
  | _ => simp [isCancellation, kind]

/-- Only a fault without a node happened nowhere. -/
theorem address?_eq_none_iff : f.address? = none ↔
    (∃ name how, f.origin = .broken name how) ∨ ∃ name, f.origin = .unknownUnit name := by
  rw [← address?_origin]
  have hnot := f.origin_ne_unit
  cases h : f.origin with
  | unit name cause => exact absurd h (hnot name cause)
  | _ => simp [address?]

/-! ## Faults on behalf of a unit -/

/-- A fault that names a unit stays as it is. -/
theorem forUnit_of_unit?_isSome (h : f.unit?.isSome = true) (name : String) :
    f.forUnit name = f := by
  cases f with
  | unit | broken => rfl
  | _ => cases h

/-- A fault that names no unit is given the name. -/
theorem forUnit_of_unit? (h : f.unit? = none) (name : String) : f.forUnit name = .unit name f := by
  cases f with
  | unit | broken => cases h
  | _ => rfl

theorem unit?_isSome_iff : f.unit?.isSome = true ↔
    (∃ name cause, f = .unit name cause) ∨ ∃ name how, f = .broken name how := by
  cases f <;> simp [unit?]

@[simp] theorem isSome_unit?_forUnit (f : Fault) (name : String) :
    (f.forUnit name).unit?.isSome = true := by
  cases f <;> rfl

@[simp] theorem kind_forUnit (f : Fault) (name : String) : (f.forUnit name).kind = f.kind := by
  cases f <;> rfl

@[simp] theorem address?_forUnit (f : Fault) (name : String) :
    (f.forUnit name).address? = f.address? := by
  cases f <;> rfl

/-- The readings of a fault agree, and go through all wrappings: it is a cancellation exactly if
its kind says so, and happened at a node unless a unit broke off or is not known.  Naming the unit
changes none of the readings; it puts one wrapping around the fault if that names no unit, and does
nothing otherwise, so that the first name stays. -/
theorem readings_agree (f : Fault) :
    ((∃ names : List String, f = names.foldr .unit f.origin) ∧
      ∀ name cause, f.origin ≠ .unit name cause) ∧
    (f.isCancellation = true ↔ f.kind = "cancelled") ∧
    (f.address? = none ↔
      (∃ name how, f.origin = .broken name how) ∨ ∃ name, f.origin = .unknownUnit name) ∧
    ∀ name, (f.forUnit name).kind = f.kind ∧ (f.forUnit name).address? = f.address? ∧
      (f.forUnit name).isCancellation = f.isCancellation ∧
      (((∃ n cause, f = .unit n cause) ∨ ∃ n how, f = .broken n how) → f.forUnit name = f) ∧
      (¬ ((∃ n cause, f = .unit n cause) ∨ ∃ n how, f = .broken n how) →
        f.forUnit name = .unit name f) ∧
      ∀ other, (f.forUnit name).forUnit other = f.forUnit name := by
  refine ⟨⟨f.exists_wrappings, f.origin_ne_unit⟩, isCancellation_iff_kind, address?_eq_none_iff,
    fun name => ⟨kind_forUnit f name, address?_forUnit f name, isCancellation_forUnit name f,
      fun hnames => ?_, fun hnot => ?_, fun other => ?_⟩⟩
  · exact forUnit_of_unit?_isSome (unit?_isSome_iff.mpr hnames) name
  · rw [← unit?_isSome_iff, Option.not_isSome_iff_eq_none] at hnot
    exact forUnit_of_unit? hnot name
  · exact forUnit_of_unit?_isSome (isSome_unit?_forUnit f name) other

end Converge.Fault
