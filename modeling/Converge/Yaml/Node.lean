import Converge.Yaml.Token

/-!
# Nodes

What a document says, without how it is laid out: scalars, sequences, mappings, and places where
a node is repeated that has been given a name elsewhere.  A name is known by a number, which is
how many names there were before it; a name that is given once more gets a new number.
-/

namespace Converge.Yaml

/-- What precedes the content of a node. -/
structure Properties where
  anchor : Option Nat
  tag : Option String
deriving DecidableEq, Repr

def Properties.none : Properties := ⟨.none, .none⟩

inductive Node where
  /-- The node with this number once more. -/
  | reference (anchor : Nat)
  | scalar (props : Properties) (style : Style) (text : String)
  | sequence (props : Properties) (items : List Node)
  | mapping (props : Properties) (entries : List (Node × Node))
deriving Repr, Inhabited

namespace Node

/-- A node with nothing in it. -/
def empty (p : Properties) : Node := scalar p .plain ""

end Node

/-- What is left to be read of a document, and what its names and handles stand for. -/
structure Reader where
  tokens : List Token
  handles : List (String × String)
  names : List (String × Nat)

/-- Why a text has no node. -/
inductive Unreadable where
  /-- It breaks the rules. -/
  | malformed
  /-- It repeats a node by a name that no node has. -/
  | unknownName
deriving DecidableEq, Repr

/-- Reading tokens, if they fit together. -/
abbrev Reading : Type → Type := StateT Reader (Except Unreadable)

namespace Reading

def fail {α : Type} : Reading α := throw .malformed

/-- The next token. -/
def peek : Reading Token := do return (← get).tokens.headD .streamEnd

def skip : Reading Unit := modify fun r => { r with tokens := r.tokens.tail }

/-- Is the next token one of these? -/
def sees (ts : List Token) : Reading Bool := do return ts.contains (← peek)

/-- Passes over a token that has to come next. -/
def expect (t : Token) : Reading Unit := do
  if (← peek) = t then skip else fail

/-- What the handles stand for in every document. -/
def commonHandles : List (String × String) := [("!", "!"), ("!!", "tag:yaml.org,2002:")]

/-- The tag in full. -/
def resolve (t : TagText) : Reading String := do
  if t.handle.isEmpty then return t.suffix
  else
    let r ← get
    match (r.handles ++ commonHandles).lookup t.handle with
    | some expansion => return expansion ++ t.suffix
    | none => fail

/-- Gives a name to the node that follows. -/
def declare (name : String) : Reading Nat := do
  let r ← get
  let number := r.names.length
  set { r with names := (name, number) :: r.names.filter (·.1 ≠ name) }
  return number

def anchor? : Reading (Option String) := do
  match ← peek with
  | .anchor name => skip; return some name
  | _ => return none

def tag? : Reading (Option String) := do
  match ← peek with
  | .tag t => skip; return some (← resolve t)
  | _ => return none

/-- An anchor and a tag, in either order. -/
def properties : Reading Properties := do
  let first ← anchor?
  let tag ← tag?
  let anchor ← if first.isSome then pure first else anchor?
  match anchor with
  | some name => return ⟨some (← declare name), tag⟩
  | none => return ⟨none, tag⟩

/-- A node without content, which has to have something before the content. -/
def vacant (p : Properties) : Reading Node :=
  if p.anchor.isSome || p.tag.isSome then pure (.empty p) else fail

/-- A scalar with a lone exclamation mark for a tag has none. -/
def scalar (p : Properties) (style : Style) (text : String) : Node :=
  .scalar { p with tag := p.tag.filter (· ≠ "!") } style text

mutual

/-- A node; `inBlock` if collections without brackets may follow, and `indentless` if a
sequence may be no further right than what is around it. -/
def node (inBlock indentless : Bool) : Nat → Reading Node
  | 0 => fail
  | fuel + 1 => do
      match ← peek with
      | .reference name =>
          skip
          match (← get).names.lookup name with
          | some number => return .reference number
          | none => throw .unknownName
      | _ =>
          let p ← properties
          match ← peek with
          | .scalar style text => skip; return scalar p style text
          | .openList => skip; return .sequence p (← list true fuel)
          | .openMap => skip; return .mapping p (← map true fuel)
          | .openSequence =>
              if inBlock then skip; return .sequence p (← sequence fuel) else vacant p
          | .openMapping =>
              if inBlock then skip; return .mapping p (← mapping fuel) else vacant p
          | .entry =>
              if indentless then return .sequence p (← entries fuel) else vacant p
          | _ => vacant p

/-- A node, or nothing before one of the tokens that can follow it. -/
def nodeBefore (ends : List Token) (inBlock indentless : Bool) : Nat → Reading Node
  | 0 => fail
  | fuel + 1 => do
      if ← sees ends then return .empty .none else node inBlock indentless fuel

/-- A value, if there is one. -/
def valueBefore (ends : List Token) (inBlock : Bool) : Nat → Reading Node
  | 0 => fail
  | fuel + 1 => do
      if ← sees [.value] then skip; nodeBefore ends inBlock inBlock fuel
      else return .empty .none

/-- The entries of a sequence up to where it closes. -/
def sequence : Nat → Reading (List Node)
  | 0 => fail
  | fuel + 1 => do
      match ← peek with
      | .entry =>
          skip
          let item ← nodeBefore [.entry, .close] true false fuel
          return item :: (← sequence fuel)
      | .close => skip; return []
      | _ => fail

/-- The entries of a sequence that ends where no entry follows. -/
def entries : Nat → Reading (List Node)
  | 0 => fail
  | fuel + 1 => do
      match ← peek with
      | .entry =>
          skip
          let item ← nodeBefore [.entry, .key, .value, .close] true false fuel
          return item :: (← entries fuel)
      | _ => return []

/-- The entries of a mapping up to where it closes. -/
def mapping : Nat → Reading (List (Node × Node))
  | 0 => fail
  | fuel + 1 => do
      match ← peek with
      | .key =>
          skip
          let key ← nodeBefore [.key, .value, .close] true true fuel
          let value ← valueBefore [.key, .value, .close] true fuel
          return (key, value) :: (← mapping fuel)
      | .close => skip; return []
      | _ => fail

/-- The items of a list in brackets, up to the closing one. -/
def list (isFirst : Bool) : Nat → Reading (List Node)
  | 0 => fail
  | fuel + 1 => do
      if ← sees [.closeList] then skip; return []
      else
        unless isFirst do expect .comma
        match ← peek with
        | .closeList => skip; return []
        | .key =>
            skip
            let item ← pair fuel
            return item :: (← list false fuel)
        | _ =>
            let item ← node false false fuel
            return item :: (← list false fuel)

/-- A mapping of one entry, as an item of a list in brackets; a token that stands in place of the
key is passed over. -/
def pair : Nat → Reading Node
  | 0 => fail
  | fuel + 1 => do
      let isVacant ← sees [.value, .comma, .closeList]
      if isVacant then skip
      let key ← if isVacant then pure (.empty .none) else node false false fuel
      let value ← valueBefore [.comma, .closeList] false fuel
      return .mapping .none [(key, value)]

/-- The entries of a mapping in braces, up to the closing one. -/
def map (isFirst : Bool) : Nat → Reading (List (Node × Node))
  | 0 => fail
  | fuel + 1 => do
      if ← sees [.closeMap] then skip; return []
      else
        unless isFirst do expect .comma
        match ← peek with
        | .closeMap => skip; return []
        | .key =>
            skip
            let key ← nodeBefore [.value, .comma, .closeMap] false false fuel
            let value ← valueBefore [.comma, .closeMap] false fuel
            return (key, value) :: (← map false fuel)
        | _ =>
            let key ← node false false fuel
            return (key, .empty .none) :: (← map false fuel)

end

/-- The handles that directives explain; there is at most one version, of the rules that are
known here, and no handle is explained twice. -/
def directives (hasVersion : Bool) : List Token → Option (List (String × String) × List Token)
  | .directive (.version major minor) :: rest =>
      if hasVersion || major ≠ 1 || (minor ≠ 1 && minor ≠ 2) then none
      else directives true rest
  | .directive (.handle handle expansion) :: rest => do
      let (handles, rest) ← directives hasVersion rest
      if (handles.lookup handle).isSome then none
      else return ((handle, expansion) :: handles, rest)
  | rest => some ([], rest)

/-- The tokens between which a document has no content. -/
def isDocumentEdge : Token → Bool
  | .directive _ | .documentStart | .documentEnd | .streamEnd => true
  | _ => false

/-- The content of a document that has been opened. -/
def content (fuel : Nat) : Reading Node := do
  if isDocumentEdge (← peek) then return .empty .none else node true false fuel

/-- The node of the first document, if there is one at all. -/
def first (fuel : Nat) : Reading (Option Node) := do
  match ← peek with
  | .streamEnd => return none
  | .directive _ | .documentStart =>
      let r ← get
      match directives false r.tokens with
      | none => fail
      | some (handles, tokens) =>
          set { r with handles, tokens }
          expect .documentStart
          some <$> content fuel
  | _ => some <$> node true false fuel

end Reading

/-- Is there nothing but ends of a document? -/
def isOver : List Token → Bool
  | .documentEnd :: rest => isOver rest
  | ts => ts = [.streamEnd]

/-- Does another document follow? -/
def isFollowed : List Token → Bool
  | .documentEnd :: rest => isFollowed rest
  | .directive _ :: _ | .documentStart :: _ => true
  | _ => false

namespace Node

def props : Node → Properties
  | reference _ => .none
  | scalar p _ _ => p
  | sequence p _ => p
  | mapping p _ => p

/-- The name of the node, if it has one, with the node itself. -/
def named (n : Node) : List (Nat × Node) := n.props.anchor.toList.map (·, n)

mutual

/-- The nodes with a name, in the order in which they begin. -/
def anchored : Node → List (Nat × Node)
  | reference _ => []
  | scalar p style text => (scalar p style text).named
  | sequence p items => (sequence p items).named ++ anchoredItems items
  | mapping p entries => (mapping p entries).named ++ anchoredEntries entries

def anchoredItems : List Node → List (Nat × Node)
  | [] => []
  | n :: rest => n.anchored ++ anchoredItems rest

def anchoredEntries : List (Node × Node) → List (Nat × Node)
  | [] => []
  | (key, value) :: rest => key.anchored ++ value.anchored ++ anchoredEntries rest

end

mutual

/-- How many marks a document needs that gives one to every scalar and every alias, and two to
every collection. -/
def weight : Node → Nat
  | reference _ => 1
  | scalar _ _ _ => 1
  | sequence _ items => 2 + weightItems items
  | mapping _ entries => 2 + weightEntries entries

def weightItems : List Node → Nat
  | [] => 0
  | n :: rest => n.weight + weightItems rest

def weightEntries : List (Node × Node) → Nat
  | [] => 0
  | (key, value) :: rest => key.weight + value.weight + weightEntries rest

end

end Node

/-- A document: its node, if it has one, and the nodes that have a name, the last one first. -/
structure Document where
  root : Option Node
  anchored : List (Nat × Node)
  /-- Is it the only document of its text? -/
  isAlone : Bool
deriving Repr

namespace Document

/-- The first document of a list of tokens. -/
def ofTokens (ts : List Token) : Except Unreadable Document := do
  let (root, r) ← (Reading.first (3 * ts.length + 3)).run ⟨ts, [], []⟩
  let anchored := ((root.map Node.anchored).getD []).reverse
  if isOver r.tokens then return ⟨root, anchored, true⟩
  else if isFollowed r.tokens then return ⟨root, anchored, false⟩
  else .error .malformed

/-- The first document of a text. -/
def ofText (s : String) : Except Unreadable Document :=
  match Token.ofText? s with
  | none => .error .malformed
  | some ts => ofTokens ts

/-- The node that stands for a repeated one; any other stands for itself. -/
def follow (d : Document) : Node → Node
  | .reference number => (d.anchored.lookup number).getD (.reference number)
  | n => n

end Document

end Converge.Yaml
