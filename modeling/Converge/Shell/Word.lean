/-!
# Words of a command line

A line for the shell is cut into words and operators.  A word is made of pieces: text as it
stands, and places where something else is put in when the word is used.
-/

namespace Converge.Shell

inductive Piece where
  | text (cs : List Char) (isQuoted : Bool)
  /-- The value of a parameter, or of a text in its place if it is unset or empty. -/
  | parameter (name : String) (orElse : List Char) (isQuoted : Bool)
  | arithmetic (expr : List Char)
  /-- What a script writes. -/
  | substitution (script : List Char) (isQuoted : Bool)
deriving DecidableEq, Repr

abbrev Word : Type := List Piece

inductive Token where
  | word (w : Word)
  | operator (s : String)
  /-- A redirection operator with the number of the stream that it is for. -/
  | redirection (stream : Nat) (s : String)
deriving DecidableEq, Repr

def isNameStart (c : Char) : Bool := c.isAlpha || c == '_'

def isNameChar (c : Char) : Bool := c.isAlphanum || c == '_'

def isSpacing (c : Char) : Bool := c == ' ' || c == '\t'

/-- Does the character end a word that is not quoted? -/
def endsWord (c : Char) : Bool := isSpacing c || "\n;&|()<>".toList.contains c

/-- The text up to the parenthesis that closes it, and what follows; inside a quotation
parentheses do not count. -/
def enclosed (depth : Nat) (quote : Option Char) (reversed : List Char) :
    List Char → Option (List Char × List Char)
  | [] => none
  | c :: rest =>
      match quote with
      | some q => enclosed depth (if c = q then none else quote) (c :: reversed) rest
      | none =>
          if c = '\'' || c = '"' then enclosed depth (some c) (c :: reversed) rest
          else if c = '(' then enclosed (depth + 1) none (c :: reversed) rest
          else if c = ')' then
            match depth with
            | 0 => some (reversed.reverse, rest)
            | depth + 1 => enclosed depth none (c :: reversed) rest
          else enclosed depth none (c :: reversed) rest

/-- The parameter that a text in braces names, with what takes its place. -/
def braced (cs : List Char) : String × List Char :=
  let name := cs.takeWhile (· ≠ ':')
  (String.ofList name, cs.drop (name.length + 2))

/-- The piece after a dollar sign. -/
def afterDollar? (isQuoted : Bool) : List Char → Option (Piece × List Char)
  | '(' :: '(' :: rest => do
      let (expr, rest) ← enclosed 0 none [] rest
      match rest with
      | ')' :: rest => some (.arithmetic expr, rest)
      | _ => none
  | '(' :: rest => do
      let (script, rest) ← enclosed 0 none [] rest
      some (.substitution script isQuoted, rest)
  | '{' :: rest =>
      let body := rest.takeWhile (· ≠ '}')
      let (name, orElse) := braced body
      some (.parameter name orElse isQuoted, rest.drop (body.length + 1))
  | c :: rest =>
      if isNameStart c then
        let name := c :: rest.takeWhile isNameChar
        some (.parameter (String.ofList name) [] isQuoted, rest.dropWhile isNameChar)
      else if c.isDigit || "@*#?$!".toList.contains c then
        some (.parameter (String.singleton c) [] isQuoted, rest)
      else some (.text ['$'] isQuoted, c :: rest)
  | [] => some (.text ['$'] isQuoted, [])

/-- The pieces between double quotes, the last one first, and what follows. -/
def doubleQuoted : Nat → List Piece → List Char → Option (List Piece × List Char)
  | 0, _, _ => none
  | fuel + 1, reversed, cs =>
      match cs with
      | [] => none
      | '"' :: rest => some (reversed, rest)
      | '\\' :: '\n' :: rest => doubleQuoted fuel reversed rest
      | '\\' :: c :: rest =>
          let text := if "$\"\\`".toList.contains c then [c] else ['\\', c]
          doubleQuoted fuel (.text text true :: reversed) rest
      | '$' :: rest => do
          let (piece, rest) ← afterDollar? true rest
          doubleQuoted fuel (piece :: reversed) rest
      | '`' :: rest =>
          let script := rest.takeWhile (· ≠ '`')
          doubleQuoted fuel (.substitution script true :: reversed)
            (rest.drop (script.length + 1))
      | c :: rest => doubleQuoted fuel (.text [c] true :: reversed) rest

/-- A word, its last piece first, and what follows. -/
def word : Nat → List Piece → List Char → Option (List Piece × List Char)
  | 0, _, _ => none
  | fuel + 1, reversed, cs =>
      match cs with
      | [] => some (reversed, [])
      | '\\' :: '\n' :: rest => word fuel reversed rest
      | '\\' :: c :: rest => word fuel (.text [c] true :: reversed) rest
      | '\'' :: rest =>
          let text := rest.takeWhile (· ≠ '\'')
          if text.length = rest.length then none
          else word fuel (.text text true :: reversed) (rest.drop (text.length + 1))
      | '"' :: rest => do
          let (pieces, rest) ← doubleQuoted fuel (.text [] true :: reversed) rest
          word fuel pieces rest
      | '$' :: rest => do
          let (piece, rest) ← afterDollar? false rest
          word fuel (piece :: reversed) rest
      | '`' :: rest =>
          let script := rest.takeWhile (· ≠ '`')
          word fuel (.substitution script false :: reversed) (rest.drop (script.length + 1))
      | c :: rest =>
          if endsWord c then some (reversed, cs)
          else word fuel (.text [c] false :: reversed) rest

/-- The operators, each before those that it begins with. -/
def operators : List String := ["&&", "||", ">>", ">&", "<&", ";", "&", "|", "(", ")", "\n"]

/-- The operators that redirect a stream. -/
def redirections : List String := [">>", ">&", "<&", ">", "<"]

/-- The first of the operators that the text begins with. -/
def startsWith? (ops : List String) (cs : List Char) : Option String :=
  ops.find? fun op => op.toList.isPrefixOf cs

/-- The stream that a redirection is for if none is named. -/
def usualStream (op : String) : Nat := if op.startsWith "<" then 0 else 1

/-- Cuts a text into words and operators. -/
def tokens : Nat → List Char → Option (List Token)
  | 0, _ => none
  | fuel + 1, cs =>
      match cs with
      | [] => some []
      | c :: rest =>
          let digits := cs.takeWhile Char.isDigit
          let afterDigits := cs.dropWhile Char.isDigit
          if isSpacing c then tokens fuel rest
          else if c = '\\' && rest.head? = some '\n' then tokens fuel rest.tail
          else if c = '#' then tokens fuel (cs.dropWhile (· ≠ '\n'))
          else match startsWith? redirections afterDigits with
            | some op =>
                let stream := if digits.isEmpty then usualStream op
                  else Nat.ofDigitChars 10 digits 0
                do return .redirection stream op :: (← tokens fuel (afterDigits.drop op.length))
            | none =>
                match startsWith? operators cs with
                | some op => do return .operator op :: (← tokens fuel (cs.drop op.length))
                | none => do
                    let (pieces, rest) ← word fuel [] cs
                    return .word pieces.reverse :: (← tokens fuel rest)

/-- The words and operators of a text, if its quotations are closed. -/
def tokens? (cs : List Char) : Option (List Token) := tokens (2 * cs.length + 2) cs

end Converge.Shell
