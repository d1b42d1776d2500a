import Converge.Yaml.Folding

/-!
# Quoted scalars

Text between quotes.  Between single quotes only the quote itself is special, and is written
twice; between double quotes a backslash begins an escape.
-/

namespace Converge.Yaml

inductive Quote where
  | single
  | double
deriving DecidableEq, Repr

def Quote.char : Quote → Char
  | .single => '\''
  | .double => '"'

/-- What the character after a backslash makes of it. -/
inductive Escape where
  | char (c : Char)
  /-- A character whose number follows, in this many hexadecimal digits. -/
  | number (digits : Nat)
deriving DecidableEq, Repr

/-- The escape that the character after a backslash names. -/
def escape? : Char → Option Escape
  | '0' => some (.char '\x00')
  | 'a' => some (.char '\x07')
  | 'b' => some (.char '\x08')
  | 't' | '\t' => some (.char '\t')
  | 'n' => some (.char '\n')
  | 'v' => some (.char '\x0b')
  | 'f' => some (.char '\x0c')
  | 'r' => some (.char '\r')
  | 'e' => some (.char '\x1b')
  | ' ' => some (.char ' ')
  | '"' => some (.char '"')
  | '/' => some (.char '/')
  | '\\' => some (.char '\\')
  | 'N' => some (.char (Char.ofNat 0x85))
  | '_' => some (.char (Char.ofNat 0xA0))
  | 'L' => some (.char (Char.ofNat 0x2028))
  | 'P' => some (.char (Char.ofNat 0x2029))
  | 'x' => some (.number 2)
  | 'u' => some (.number 4)
  | 'U' => some (.number 8)
  | _ => none

/-- The character of a number, if there is one. -/
def character? (n : Nat) : Option Char :=
  if n.isValidChar then some (Char.ofNat n) else none

/-- What the next character is part of. -/
inductive QuotedState where
  | text
  | escape
  /-- The number of a character, of which so many digits are missing. -/
  | number (missing value : Nat)
deriving DecidableEq, Repr

/-- Reads on up to the closing quote; the text so far has its last character first. -/
def readQuoted (quote : Quote) (state : QuotedState) (pos : Position) (gap : Gap)
    (reversed : List Char) : List Char → Option (String × Cursor)
  | [] => none
  | c :: rest =>
      match state with
      | .escape =>
          if isBreak c then readQuoted quote .text (pos.after c) (.breaks none []) reversed rest
          else match escape? c with
            | none => none
            | some (.char e) =>
                readQuoted quote .text (pos.after c) .none (e :: reversed) rest
            | some (.number n) =>
                readQuoted quote (.number n 0) (pos.after c) .none reversed rest
      | .number missing value =>
          match hexValue? c with
          | none => none
          | some d =>
              let value := 16 * value + d
              if 1 < missing then
                readQuoted quote (.number (missing - 1) value) (pos.after c) .none reversed rest
              else match character? value with
                | none => none
                | some e => readQuoted quote .text (pos.after c) .none (e :: reversed) rest
      | .text =>
          if isBreak c then
            readQuoted quote .text (pos.after c) (gap.addBreak c) reversed rest
          else if isSpacing c then
            readQuoted quote .text (pos.after c) (gap.addBlank c) reversed rest
          else if isSeparator pos.column (c :: rest) then none
          else if c = quote.char then
            match quote, rest with
            | .single, '\'' :: more =>
                readQuoted quote .text ((pos.after c).after c) .none ('\'' :: gap.flush reversed)
                  more
            | _, _ =>
                some (String.ofList (gap.flush reversed).reverse, ⟨rest, pos.after c⟩)
          else if quote = .double && c = '\\' then
            readQuoted quote .escape (pos.after c) .none (gap.flush reversed) rest
          else readQuoted quote .text (pos.after c) .none (c :: gap.flush reversed) rest

end Converge.Yaml
