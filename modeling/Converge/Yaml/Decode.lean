import Converge.Word
import Converge.Yaml.Value

/-!
# Decoding

Reading the nodes of a document as what they are known to be.  A node that does not fit is
reported with the place at which it stands.
-/

namespace Converge.Yaml

/-- A step from a collection to a node in it. -/
inductive PlaceStep where
  | item (n : Nat)
  /-- To the value of a key, if that is a text. -/
  | entry (key : Option String)
deriving DecidableEq, Repr

/-- Where in a document a node stands: the steps to it, the last one first. -/
structure Place where
  steps : List PlaceStep
deriving DecidableEq, Repr

namespace Place

def root : Place := ⟨[]⟩

def step (p : Place) (s : PlaceStep) : Place := ⟨s :: p.steps⟩

/-- The place of the collection around. -/
def outer (p : Place) : Place := ⟨p.steps.tail⟩

/-- A step as it is written after what has been written before. -/
def writeStep (before : String) : PlaceStep → String
  | .item n => s!"{before}[{n}]"
  | .entry key => (if before.isEmpty then "" else before ++ ".") ++ key.getD "?"

def text (p : Place) : String := p.steps.reverse.foldl writeStep ""

end Place

/-- Why a node is not what it should be, and where it stands. -/
structure Misfit where
  place : Place
  cause : String
deriving DecidableEq, Repr

/-- The cause, after the place unless that is the whole document. -/
def Misfit.text (m : Misfit) : String :=
  if m.place.steps.isEmpty then m.cause else m.place.text ++ ": " ++ m.cause

/-- Reading what may be a misfit; the state is how many more times a node may be repeated. -/
abbrev Decoding : Type → Type := StateT Nat (Except Misfit)

/-- Reads the node at a place of a document. -/
abbrev Decoder (α : Type) : Type := Document → Place → Node → Decoding α

namespace Decoder

variable {α β σ : Type}

/-- The node that is meant. -/
def follow (d : Document) (n : Node) : Decoding Node :=
  Value.follow (.error ⟨.root, "repetition limit exceeded"⟩) d n

/-- A node of another kind than was expected. -/
def misfit (expected : String) (place : Place) (n : Node) : Misfit :=
  let cause := match n with
    | .sequence _ _ => s!"invalid type: sequence, expected {expected}"
    | .mapping _ _ => s!"invalid type: map, expected {expected}"
    | .reference _ => s!"invalid type: alias, expected {expected}"
    | .scalar p style text =>
        match Atom.ofScalar p.tag style text with
        | .ok a => s!"invalid type: {a.described}, expected {expected}"
        | .error meant => s!"invalid value: string {Text.quoted text}, expected {meant}"
  ⟨place, cause⟩

/-- The text of any scalar. -/
def text (expected : String) : Decoder String := fun d place n => do
  match ← follow d n with
  | .scalar _ _ text => return text
  | n => throw (misfit expected place n)

/-- The scalar says that there is nothing. -/
def isNothing (text : String) : Bool := text.isEmpty || isNull text

/-- Does the node say that there is nothing? -/
def isAbsent (place : Place) : Node → Except Misfit Bool
  | .scalar p .plain text =>
      if p.tag = some (Atom.commonTag "null") then
        if isNull text then .ok true
        else .error ⟨place.outer, s!"invalid value: string {Text.quoted text}, expected null"⟩
      else .ok (p.tag.isNone && isNothing text)
  | _ => .ok false

/-- Nothing, or what `read` reads. -/
def optional (read : Decoder α) : Decoder (Option α) := fun d place n => do
  let n ← follow d n
  if ← isAbsent place n then return none
  else some <$> read d place n

/-- The number of 64 bits that a node stands for. -/
def natural? (n : Node) : Option Nat :=
  let number? : Option Nat := match n with
    | .scalar _ .plain text => Yaml.natural? text.toList
    | .scalar p .literal text =>
        if p.tag = some (Atom.commonTag "int") then Yaml.natural? text.toList else none
    | _ => none
  number?.filter isWord

/-- A natural number of 64 bits. -/
def natural (expected : String) : Decoder Nat := fun d place n => do
  let n ← follow d n
  match natural? n with
  | some k => return k
  | none => throw (misfit expected place n)

/-- The error for a text that is none of those that may be chosen. -/
def unknownChoice (choices : List (String × α)) (name : String) : String :=
  let names := choices.map fun (choice, _) => s!"`{choice}`"
  s!"unknown variant `{name}`, expected " ++ " or ".intercalate names

/-- One of several names, given as the text of a scalar or as the tag of an empty one. -/
def choice (choices : List (String × α)) : Decoder α := fun d place n => do
  let named (tag : String) (check : Except Misfit Unit) : Except Misfit α :=
    let name := (Value.keptTag? (some tag)).getD tag
    match choices.lookup name with
    | some a => check.map fun _ => a
    | none => .error ⟨place.outer, unknownChoice choices name⟩
  match ← follow d n with
  | .scalar ⟨_, some tag⟩ style text =>
      named tag (if style = .plain && isNothing text then .ok ()
        else .error ⟨place, s!"invalid value: string {Text.quoted text}, expected null"⟩)
  | .scalar _ _ text =>
      match choices.lookup text with
      | some a => return a
      | none => throw ⟨place, unknownChoice choices text⟩
  | n =>
      match n.props.tag with
      | some tag => named tag (.error (misfit "unit" place n))
      | none => throw (misfit "a YAML tag starting with '!'" place n)

/-- Nothing stands where a collection is expected. -/
def isVacant : Node → Bool
  | .scalar _ .plain text => text.isEmpty
  | _ => false

/-- The items of a sequence; nothing at all is an empty one. -/
def list (read : Decoder α) : Decoder (List α) := fun d place n => do
  match ← follow d n with
  | .sequence _ items =>
      items.zipIdx.mapM fun (item, k) => read d (place.step (.item k)) item
  | n => if isVacant n then return [] else throw (misfit "a sequence" place n)

/-- The entries of a mapping; nothing at all is an empty one. -/
def entries (expected : String) (d : Document) (place : Place) (n : Node) :
    Decoding (List (Node × Node)) := do
  match ← follow d n with
  | .mapping _ entries => return entries
  | n => if isVacant n then return [] else throw (misfit expected place n)

/-- The step to the value of a key. -/
def stepTo : Node → PlaceStep
  | .scalar _ _ text => .entry (some text)
  | _ => .entry none

/-- A mapping from texts, in the order of the document. -/
def table (read : Decoder α) : Decoder (List (String × α)) := fun d place n => do
  (← entries "a map" d place n).mapM fun (key, value) => do
    let name ← text "a string" d place key
    return (name, ← read d (place.step (stepTo key)) value)

/-- A field of a record, and how its value is put into the record. -/
structure Slot (σ : Type) where
  name : String
  isRequired : Bool
  put : σ → Decoder σ

/-- A field that has to be given. -/
def Slot.required (name : String) (read : Decoder β) (set : σ → β → σ) : Slot σ :=
  ⟨name, true, fun s d place n => (set s) <$> read d place n⟩

/-- A field that keeps its value if it is not given. -/
def Slot.free (name : String) (read : Decoder β) (set : σ → β → σ) : Slot σ :=
  ⟨name, false, fun s d place n => (set s) <$> read d place n⟩

/-- Puts the entries of a mapping into a record, and tells which fields were given.  No field may
be given twice; an entry that belongs to no field is passed over. -/
def fill (fields : List (Slot σ)) (d : Document) (place : Place) (s : σ) (seen : List String) :
    List (Node × Node) → Decoding (σ × List String)
  | [] => return (s, seen)
  | (key, value) :: rest => do
      let name ← text "field identifier" d place key
      match fields.find? (·.name = name) with
      | none => fill fields d place s seen rest
      | some field =>
          if seen.contains name then throw ⟨place, s!"duplicate field `{name}`"⟩
          else
            let s ← field.put s d (place.step (stepTo key)) value
            fill fields d place s (name :: seen) rest

/-- A mapping as a record, which is `start` where the mapping says nothing. -/
def record (expected : String) (fields : List (Slot σ)) (start : σ) : Decoder σ :=
  fun d place n => do
    let (s, seen) ← fill fields d place start [] (← entries expected d place n)
    match fields.find? fun f => f.isRequired && !seen.contains f.name with
    | some f => throw ⟨place, s!"missing field `{f.name}`"⟩
    | none => return s

end Decoder

end Converge.Yaml
