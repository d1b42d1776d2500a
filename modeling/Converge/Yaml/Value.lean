import Converge.Yaml.Scalar

/-!
# Values

What a document says when nothing is known of what it is for.  Not every document has a value:
a mapping must not have two entries with the same key, numbers must not be too large, and
neither must the value itself.
-/

namespace Converge.Yaml

inductive Value where
  | atom (a : Atom)
  | sequence (items : List Value)
  | mapping (entries : List (Value × Value))
  | tagged (tag : String) (v : Value)
deriving Repr

/-- The same number; zero is the same with either sign. -/
def Decimal.same : Decimal → Decimal → Bool
  | finite x, finite y => x = y || (x.mantissa = 0 && y.mantissa = 0)
  | x, y => x = y

def Atom.same : Atom → Atom → Bool
  | decimal x, decimal y => x.same y
  | a, b => a = b

/-- Can the atom be kept? -/
def Atom.isInRange : Atom → Bool
  | integer n => isIntegerInRange n
  | _ => true

namespace Value

mutual

/-- The same value, whatever the order of entries. -/
def same : Value → Value → Bool
  | atom a, atom b => a.same b
  | sequence xs, sequence ys => sameItems xs ys
  | mapping es, mapping fs => es.length = fs.length && sameEntries es fs
  | tagged s v, tagged t w => s = t && same v w
  | _, _ => false

def sameItems : List Value → List Value → Bool
  | [], [] => true
  | v :: vs, w :: ws => same v w && sameItems vs ws
  | _, _ => false

/-- Is every entry of the first list in the second one? -/
def sameEntries : List (Value × Value) → List (Value × Value) → Bool
  | [], _ => true
  | (key, value) :: rest, fs =>
      fs.any (fun (k, v) => same key k && same value v) && sameEntries rest fs

end

/-- The deepest nesting of a value. -/
def maxDepth : Nat := 128

/-- How many times in a document, for each of its marks, a node may be repeated. -/
def maxRepeats : Nat := 100

/-- The node that is meant, unless it is a repetition and there have been enough of them; the state
is how many more times a node may be repeated. -/
def follow {m : Type → Type} [Monad m] (enough : m Node) (d : Document) : Node → StateT Nat m Node
  | .reference number => do
      match ← get with
      | 0 => enough
      | left + 1 => set left; return d.follow (.reference number)
  | n => return n

/-- Reading a value. -/
abbrev Reading : Type → Type := StateT Nat Option

/-- The tag that a value keeps: one of those that the document itself gives a meaning to. -/
def keptTag? (tag : Option String) : Option String :=
  tag.bind fun t => match t.toList with
    | ['!'] => some t
    | '!' :: rest => some (String.ofList rest)
    | _ => none

/-- The value with its tag, if it keeps it. -/
def withTag (tag : Option String) (v : Value) : Value :=
  match keptTag? tag with
  | some t => tagged t v
  | none => v

/-- The entries of a mapping, as long as no key occurs twice. -/
def distinct (read : Node → Reading Value) (seen : List Value) :
    List (Node × Node) → Reading (List (Value × Value))
  | [] => return []
  | (key, value) :: rest => do
      let key ← read key
      if seen.any key.same then failure
      else
        let value ← read value
        return (key, value) :: (← distinct read (key :: seen) rest)

/-- The value of a node that is nested no deeper than the number given. -/
def read (d : Document) : Nat → Node → Reading Value
  | 0, n => do
      match ← follow none d n with
      | .scalar p style text => scalar p style text
      | _ => failure
  | depth + 1, n => do
      match ← follow none d n with
      | .scalar p style text => scalar p style text
      | .sequence p items => return withTag p.tag (sequence (← items.mapM (read d depth)))
      | .mapping p entries =>
          return withTag p.tag (mapping (← distinct (read d depth) [] entries))
      | .reference _ => failure
where
  scalar (p : Properties) (style : Style) (text : String) : Reading Value :=
    match Atom.ofScalar p.tag style text with
    | .ok a => if a.isInRange then pure (withTag p.tag (atom a)) else failure
    | .error _ => failure

/-- The value of a document, if it is alone and has one. -/
def ofDocument? (d : Document) : Option Value :=
  if !d.isAlone then none
  else match d.root with
  | none => some (atom .null)
  | some n => ((read d maxDepth n).run (maxRepeats * n.weight)).map Prod.fst

end Value

end Converge.Yaml
