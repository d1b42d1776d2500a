import Converge.Shell.Word

/-!
# Scripts

What a line for the shell says: simple commands, and how they are put together.
-/

namespace Converge.Shell

/-- Where a stream of a command goes to, or comes from. -/
inductive Redirect where
  /-- Where another stream goes. -/
  | copy (stream : Nat) (other : Word)
  /-- A file, to whose end it goes if `append`. -/
  | write (stream : Nat) (file : Word) (append : Bool)
  | read (file : Word)
deriving Repr

inductive Script where
  | empty
  | simple (words : List Word) (redirects : List Redirect)
  | pipe (a b : Script)
  | both (a b : Script)
  | either (a b : Script)
  | not (a : Script)
  | sequence (a b : Script)
  /-- In a shell of its own. -/
  | nested (a : Script)
  | redirected (a : Script) (redirects : List Redirect)
  | branch (condition yes no : Script)
  /-- As long as the condition is, or is not, met. -/
  | loop (whether : Bool) (condition body : Script)
  | each (name : String) (words : List Word) (body : Script)
deriving Repr

/-- The text of a word in which nothing is quoted and nothing put in. -/
def bare? (w : Word) : Option String :=
  let part : Piece → Option (List Char)
    | .text cs false => some cs
    | _ => none
  (w.mapM part).map fun parts => String.ofList parts.flatten

/-- The words that begin or continue a compound command, where a command may begin. -/
def reserved : List String :=
  ["if", "then", "elif", "else", "fi", "while", "until", "for", "do", "done", "\x7b", "\x7d", "!"]

/-- The reserved word that comes next, if one does. -/
def keyword? : List Token → Option String
  | .word w :: _ => (bare? w).filter reserved.contains
  | _ => none

/-- Passes over a reserved word. -/
def expect? (word : String) (ts : List Token) : Option (List Token) :=
  if keyword? ts = some word then some ts.tail else none

/-- Passes over line ends. -/
def dropLineEnds (ts : List Token) : List Token := ts.dropWhile (· = .operator "\n")

/-- A redirection and its target. -/
def redirect? : List Token → Option (Redirect × List Token)
  | .redirection n op :: .word w :: rest =>
      match op with
      | ">" => some (.write n w false, rest)
      | ">>" => some (.write n w true, rest)
      | "<" => some (.read w, rest)
      | _ => some (.copy n w, rest)
  | _ => none

/-- The words and redirections of a simple command. -/
def simple : List Token → List Word → List Redirect → Option (Script × List Token)
  | .word w :: rest, words, redirects => simple rest (w :: words) redirects
  | .redirection n op :: .word w :: rest, words, redirects => do
      let (r, _) ← redirect? [.redirection n op, .word w]
      simple rest words (r :: redirects)
  | .redirection _ _ :: _, _, _ => none
  | ts, words, redirects =>
      if words.isEmpty && redirects.isEmpty then none
      else some (.simple words.reverse redirects.reverse, ts)

/-- The redirections after a compound command. -/
def trailing : List Token → List Redirect → Option (List Redirect × List Token)
  | .redirection n op :: .word w :: rest, redirects => do
      let (r, _) ← redirect? [.redirection n op, .word w]
      trailing rest (r :: redirects)
  | .redirection _ _ :: _, _ => none
  | ts, redirects => some (redirects.reverse, ts)

/-- The words up to the end of the line. -/
def wordsOf : List Token → List Word × List Token
  | .word w :: rest =>
      let (ws, rest) := wordsOf rest
      (w :: ws, rest)
  | ts => ([], ts)

/-- Passes over a separator of commands. -/
def dropSeparator (ts : List Token) : List Token :=
  match ts with
  | .operator ";" :: rest => dropLineEnds rest
  | _ => dropLineEnds ts

mutual

/-- Commands one after another, up to something that cannot begin another one. -/
def commands : Nat → List Token → Option (Script × List Token)
  | 0, _ => none
  | fuel + 1, ts => do
      let ts := dropLineEnds ts
      let atEnd := match ts with
        | [] | .operator ")" :: _ => true
        | _ => (keyword? ts).any ["then", "elif", "else", "fi", "do", "done", "\x7d"].contains
      if atEnd then some (.empty, ts)
      else
        let (first, ts) ← chain fuel ts
        match ts with
        | .operator op :: rest =>
            if [";", "&", "\n"].contains op then do
              let (others, ts) ← commands fuel rest
              some (.sequence first others, ts)
            else some (first, ts)
        | _ => some (first, ts)

/-- Pipelines, each of which depends on how those before it ended. -/
def chain : Nat → List Token → Option (Script × List Token)
  | 0, _ => none
  | fuel + 1, ts => do
      let (first, ts) ← pipeline fuel ts
      chainFrom fuel first ts

def chainFrom : Nat → Script → List Token → Option (Script × List Token)
  | 0, _, _ => none
  | fuel + 1, first, ts =>
      match ts with
      | .operator "&&" :: rest => do
          let (second, ts) ← pipeline fuel (dropLineEnds rest)
          chainFrom fuel (.both first second) ts
      | .operator "||" :: rest => do
          let (second, ts) ← pipeline fuel (dropLineEnds rest)
          chainFrom fuel (.either first second) ts
      | _ => some (first, ts)

/-- Commands of which each reads what the one before it writes. -/
def pipeline : Nat → List Token → Option (Script × List Token)
  | 0, _ => none
  | fuel + 1, ts => do
      if keyword? ts = some "!" then
        let (p, ts) ← pipeline fuel ts.tail
        some (.not p, ts)
      else
        let (first, ts) ← command fuel ts
        match ts with
        | .operator "|" :: rest => do
            let (others, ts) ← pipeline fuel (dropLineEnds rest)
            some (.pipe first others, ts)
        | _ => some (first, ts)

/-- A command with its redirections. -/
def command : Nat → List Token → Option (Script × List Token)
  | 0, _ => none
  | fuel + 1, ts => do
      match compound fuel ts with
      | some (s, ts) =>
          let (redirects, ts) ← trailing ts []
          some (if redirects.isEmpty then s else .redirected s redirects, ts)
      | none => if (keyword? ts).isSome then none else simple ts [] []

/-- A command made of others. -/
def compound : Nat → List Token → Option (Script × List Token)
  | 0, _ => none
  | fuel + 1, ts => do
      match ts, keyword? ts with
      | .operator "(" :: rest, _ =>
          let (s, ts) ← commands fuel rest
          match ts with
          | .operator ")" :: ts => some (.nested s, ts)
          | _ => none
      | _, some "\x7b" =>
          let (s, ts) ← commands fuel ts.tail
          some (s, ← expect? "\x7d" ts)
      | _, some "if" => branches fuel ts.tail
      | _, some "while" => repeated true fuel ts.tail
      | _, some "until" => repeated false fuel ts.tail
      | _, some "for" =>
          match ts with
          | _ :: .word name :: .word within :: rest =>
              if bare? within = some "in" then
                let (words, rest) := wordsOf rest
                let ts ← expect? "do" (dropSeparator rest)
                let (body, ts) ← commands fuel ts
                some (.each (← bare? name) words body, ← expect? "done" ts)
              else none
          | _ => none
      | _, _ => none

/-- The rest of a conditional command. -/
def branches : Nat → List Token → Option (Script × List Token)
  | 0, _ => none
  | fuel + 1, ts => do
      let (condition, ts) ← commands fuel ts
      let (yes, ts) ← commands fuel (← expect? "then" ts)
      match keyword? ts with
      | some "fi" => some (.branch condition yes .empty, ts.tail)
      | some "else" =>
          let (no, ts) ← commands fuel ts.tail
          some (.branch condition yes no, ← expect? "fi" ts)
      | some "elif" =>
          let (no, ts) ← branches fuel ts.tail
          some (.branch condition yes no, ts)
      | _ => none

/-- The rest of a loop. -/
def repeated (whether : Bool) : Nat → List Token → Option (Script × List Token)
  | 0, _ => none
  | fuel + 1, ts => do
      let (condition, ts) ← commands fuel ts
      let (body, ts) ← commands fuel (← expect? "do" ts)
      some (.loop whether condition body, ← expect? "done" ts)

end

/-- The script that a text spells. -/
def Script.ofText? (cs : List Char) : Option Script := do
  let ts ← tokens? cs
  let (s, rest) ← commands (8 * ts.length + 8) ts
  if rest.isEmpty then some s else none

end Converge.Shell
