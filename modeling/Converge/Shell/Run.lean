import Converge.Shell.Arithmetic
import Converge.Shell.Script
import Converge.Shell.Tool

/-!
# Running scripts

What a script does: its words are expanded, its commands run one after the other, and what they
write goes where they are told.  A script that goes on for too long is given up.
-/

namespace Converge.Shell

/-- Where a stream leads. -/
inductive Target where
  | out
  | err
  | nowhere
  /-- The end of a file. -/
  | file (path : Pathname)
deriving DecidableEq, Repr

/-- Where the two streams of a command lead that it writes to. -/
structure Streams where
  one : Target
  two : Target
deriving DecidableEq, Repr

/-- Everything that a script can change. -/
structure Machine where
  files : Files
  dir : Pathname
  values : List (String × String)
  /-- The parameters with numbers, the one numbered zero first. -/
  params : List String
  /-- How the last command ended. -/
  status : Nat
  input : List Nat
  out : Array Nat
  err : Array Nat

/-- How things go on after a command. -/
inductive Flow where
  | next
  /-- To the end of the innermost loop. -/
  | leave
  /-- To the next turn of the innermost loop. -/
  | again
  /-- The shell ends. -/
  | exit
  /-- A signal ends the shell. -/
  | killed
deriving DecidableEq, Repr

namespace Machine

/-- The number of the process that runs the script. -/
def processNumber : String := "4242"

def value (m : Machine) (name : String) : String :=
  match name with
  | "?" => toString m.status
  | "#" => toString (m.params.length - 1)
  | "$" => processNumber
  | "@" | "*" => " ".intercalate m.params.tail
  | _ =>
      match name.toNat? with
      | some n => (m.params[n]?).getD ""
      | none => (m.values.lookup name).getD ""

def set (m : Machine) (name value : String) : Machine :=
  { m with values := (name, value) :: m.values.filter (·.1 ≠ name) }

def ended (m : Machine) (code : Nat) : Machine := { m with status := code }

/-- Writes to where a stream leads. -/
def write (m : Machine) (bytes : List Nat) : Target → Machine
  | .out => { m with out := m.out ++ bytes }
  | .err => { m with err := m.err ++ bytes }
  | .nowhere => m
  | .file path =>
      let old := match m.files.find path with
        | .inside _ (.file old) => old
        | _ => []
      { m with files := m.files.write path (old ++ bytes) }

/-- Says what is wrong. -/
def complain (m : Machine) (s : Streams) (code : Nat) (why : String) : Machine :=
  (m.write (Text.bytesOf (s!"sh: 1: {why}\n")) s.two).ended code

end Machine

/-! ## Fields -/

/-- A word that is being expanded: the fields so far, the last one first and its characters in
reverse, and whether that one has begun. -/
structure Fields where
  done : List String
  current : List Char
  hasBegun : Bool

namespace Fields

def empty : Fields := ⟨[], [], false⟩

/-- Puts text at the end of the current field. -/
def add (f : Fields) (cs : List Char) : Fields :=
  { f with current := cs.reverse ++ f.current, hasBegun := true }

/-- Ends the current field, if it has begun. -/
def cut (f : Fields) : Fields :=
  if f.hasBegun then ⟨String.ofList f.current.reverse :: f.done, [], false⟩ else f

/-- Adds text that is cut into fields at its blanks. -/
def addSplit (f : Fields) : List Char → Fields
  | [] => f
  | c :: rest =>
      if isSpacing c || c = '\n' then f.cut.addSplit rest else (f.add [c]).addSplit rest

/-- Adds several texts, each a field of its own but for the ends. -/
def addAll (f : Fields) : List String → Fields
  | [] => f
  | [s] => f.add s.toList
  | s :: rest => (f.add s.toList).cut.addAll rest

def finish (f : Fields) : List String := f.cut.done.reverse

end Fields

/-- The text without the line ends at its end. -/
def dropLineEndsAtEnd (s : String) : List Char :=
  (s.toList.reverse.dropWhile (· = '\n')).reverse

/-- The name and the value in an assignment. -/
def assignment? (w : Word) : Option (String × Word) :=
  let letters := w.takeWhile fun
    | .text [c] false => isNameChar c
    | _ => false
  match letters, w.drop letters.length with
  | .text [c] false :: _, .text ['='] false :: value =>
      if isNameStart c then (bare? letters).map fun name => (name, value) else none
  | _, _ => none

/-- Does a command end the shell that runs it? -/
def killsShell (args : List String) : Bool :=
  args.contains Machine.processNumber && args.head? ≠ some "-0"

/-- Where a stream leads that follows another one. -/
def Streams.copied (s : Streams) (name : String) : Target :=
  match name with
  | "1" => s.one
  | "2" => s.two
  | _ => .nowhere

/-- Lets a stream lead elsewhere. -/
def Streams.redirected (s : Streams) (stream : Nat) (t : Target) : Streams :=
  if stream = 2 then { s with two := t } else { s with one := t }

/-- Takes over a value from a text such as `name=value`. -/
def Machine.assign (m : Machine) (text : String) : Machine :=
  let name := text.toList.takeWhile (· ≠ '=')
  if name.length < text.length then
    m.set (String.ofList name) (String.ofList (text.toList.drop (name.length + 1)))
  else m

/-- The tools that read everything there is to read. -/
def readers : List String := ["cat", "head", "tail", "tr", "wc", "sort"]

/-- A command that the shell knows of itself, or a tool. -/
def runNamed (s : Streams) (name : String) (args : List String) (m : Machine) : Flow × Machine :=
  match name with
  | ":" | "set" | "wait" => (.next, m.ended 0)
  | "export" => (.next, (args.foldl Machine.assign m).ended 0)
  | "unset" => (.next, { m with values := m.values.filter (!args.contains ·.1) }.ended 0)
  | "exit" =>
      match args with
      | [] => (.exit, m)
      | code :: _ =>
          match code.toNat? with
          | some n => (.exit, m.ended (n % 256))
          | none => (.exit, m.complain s 2 s!"exit: Illegal number: {code}")
  | "break" => (.leave, m.ended 0)
  | "continue" => (.again, m.ended 0)
  | "shift" => (.next, { m with params := m.params.take 1 ++ m.params.drop 2 }.ended 0)
  | "kill" => if killsShell args then (.killed, m) else (.next, m.ended 1)
  | "cd" =>
      let path := m.dir.join ⟨args.headD ""⟩
      match m.files.find path with
      | .inside _ .directory | .outside => (.next, { m with dir := path }.ended 0)
      | _ => (.next, m.complain s 2 ("cd: can't cd to " ++ args.headD ""))
  | "read" =>
      let line := m.input.takeWhile (· ≠ 10)
      let isWhole := line.length < m.input.length
      let m := { m with input := m.input.drop (line.length + 1) }
      (.next, (m.set (args.getLastD "REPLY") (Text.ofBytes line)).ended (if isWhole then 0 else 1))
  | _ =>
      match tools.lookup name with
      | none => (.next, m.complain s 127 (name ++ ": not found"))
      | some tool =>
          let r := tool ⟨args, m.input, m.dir, m.files⟩
          let m := { m with
            input := if readers.contains name then [] else m.input
            files := r.files.getD m.files }
          (.next, ((m.write r.out s.one).write (Text.bytesOf r.err) s.two).ended r.code)

mutual

/-- The fields of a word, added to those before it. -/
def expand : Nat → Word → Fields → Machine → Fields × Machine
  | 0, _, f, m => (f, m)
  | _ + 1, [], f, m => (f, m)
  | fuel + 1, piece :: rest, f, m =>
      match piece with
      | .text cs _ => expand fuel rest (f.add cs) m
      | .parameter "@" _ true => expand fuel rest (f.addAll m.params.tail) m
      | .parameter name orElse isQuoted =>
          let value := m.value name
          let cs := if value.isEmpty then orElse else value.toList
          expand fuel rest (if isQuoted then f.add cs else f.addSplit cs) m
      | .arithmetic expr =>
          match Arithmetic.value? (fun name => leadingInt (m.value name)) expr with
          | some n => expand fuel rest (f.add (toString n).toList) m
          | none => expand fuel rest f (m.ended 2)
      | .substitution script isQuoted =>
          let (written, m) := capture fuel script m
          expand fuel rest (if isQuoted then f.add written else f.addSplit written) m

/-- What a script writes, run in a shell of its own. -/
def capture : Nat → List Char → Machine → List Char × Machine
  | 0, _, m => ([], m)
  | fuel + 1, script, m =>
      match Script.ofText? script with
      | none => ([], m.ended 2)
      | some s =>
          let (_, inner) := run fuel ⟨.out, .err⟩ s { m with out := #[] }
          (dropLineEndsAtEnd (Text.ofBytes inner.out.toList),
            { m with err := inner.err, files := inner.files, status := inner.status })

/-- The fields of several words. -/
def expandAll : Nat → List Word → Machine → List String × Machine
  | 0, _, m => ([], m)
  | _ + 1, [], m => ([], m)
  | fuel + 1, w :: rest, m =>
      let (f, m) := expand fuel w .empty m
      let (fields, m) := expandAll fuel rest m
      (f.finish ++ fields, m)

/-- The text of a word that is not cut into fields. -/
def expandText : Nat → Word → Machine → String × Machine
  | 0, _, m => ("", m)
  | fuel + 1, w, m =>
      let (f, m) := expand fuel w .empty m
      (" ".intercalate f.finish, m)

/-- Lets the streams of a command lead where its redirections say; nothing if one cannot. -/
def redirect : Nat → List Redirect → Streams → Machine → Option Streams × Machine
  | 0, _, s, m => (some s, m)
  | _ + 1, [], s, m => (some s, m)
  | fuel + 1, r :: rest, s, m =>
      match r with
      | .copy stream other =>
          let (name, m) := expandText fuel other m
          redirect fuel rest (s.redirected stream (s.copied name)) m
      | .write stream file append =>
          let (name, m) := expandText fuel file m
          if name = "/dev/null" then redirect fuel rest (s.redirected stream .nowhere) m
          else
            let path := m.dir.join ⟨name⟩
            match m.files.find path, hindrance? ⟨[], [], m.dir, m.files⟩ m.files name with
            | .inside _ .directory, _ | .outside, _ =>
                (none, m.complain s 2 s!"cannot create {name}: Is a directory")
            | .inside _ (.file _), _ =>
                let files := if append then m.files else m.files.write path []
                redirect fuel rest (s.redirected stream (.file path)) { m with files := files }
            | _, some _ => (none, m.complain s 2 s!"cannot create {name}: Directory nonexistent")
            | _, none =>
                redirect fuel rest (s.redirected stream (.file path))
                  { m with files := m.files.write path [] }
      | .read file =>
          let (name, m) := expandText fuel file m
          match (Setting.mk [] [] m.dir m.files).read name with
          | .ok bytes => redirect fuel rest s { m with input := bytes }
          | .error _ => (none, m.complain s 2 s!"cannot open {name}: No such file")

/-- Runs a script whose streams lead to `s`. -/
def run : Nat → Streams → Script → Machine → Flow × Machine
  | 0, _, _, m => (.exit, m.ended 2)
  | fuel + 1, s, script, m =>
      match script with
      | .empty => (.next, m)
      | .simple words redirects =>
          match words, redirects, (words.head?).bind assignment? with
          | _ :: rest, redirects, some (name, value) =>
              let (text, m) := expandText fuel value (m.ended 0)
              let m := m.set name text
              if rest.isEmpty then (.next, m) else run fuel s (.simple rest redirects) m
          | words, redirects, _ =>
              let (fields, m) := expandAll fuel words m
              let outer := m.input
              match redirect fuel redirects s m with
              | (none, m) => (.next, m)
              | (some t, m) =>
                  match fields with
                  | [] => (.next, m.ended 0)
                  | "exec" :: name :: args =>
                      let (flow, m) := runNamed t name args m
                      (if flow = .killed then .killed else .exit, m)
                  | "sh" :: "-c" :: script :: params =>
                      match Script.ofText? script.toList with
                      | none => (.next, m.complain t 2 "Syntax error")
                      | some script =>
                          let (flow, inner) := run fuel t script
                            { m with params := if params.isEmpty then ["sh"] else params }
                          (.next, { inner with
                            dir := m.dir, values := m.values, params := m.params
                            status := if flow = .killed then 137 else inner.status })
                  | name :: args =>
                      let (flow, m) := runNamed t name args m
                      let readsElsewhere := redirects.any (· matches .read _)
                      (flow, if readsElsewhere then { m with input := outer } else m)
      | .pipe a b =>
          let (_, left) := run fuel ⟨.out, s.two⟩ a { m with out := #[] }
          let (_, right) := run fuel s b
            { m with input := left.out.toList, err := left.err, files := left.files }
          (.next, { m with
            out := right.out, err := right.err, files := right.files, status := right.status })
      | .both a b =>
          match run fuel s a m with
          | (.next, m) => if m.status = 0 then run fuel s b m else (.next, m)
          | stopped => stopped
      | .either a b =>
          match run fuel s a m with
          | (.next, m) => if m.status = 0 then (.next, m) else run fuel s b m
          | stopped => stopped
      | .not a =>
          let (flow, m) := run fuel s a m
          (flow, if flow = .next then m.ended (if m.status = 0 then 1 else 0) else m)
      | .sequence a b =>
          match run fuel s a m with
          | (.next, m) => run fuel s b m
          | stopped => stopped
      | .nested a =>
          match run fuel s a m with
          | (.killed, m) => (.killed, m)
          | (_, inner) =>
              (.next, { inner with dir := m.dir, values := m.values, params := m.params })
      | .redirected a redirects =>
          match redirect fuel redirects s m with
          | (none, m) => (.next, m)
          | (some t, m) => run fuel t a m
      | .branch condition yes no =>
          match run fuel s condition m with
          | (.next, m) => run fuel s (if m.status = 0 then yes else no) (m.ended 0)
          | stopped => stopped
      | .loop whether condition body =>
          match run fuel s condition m with
          | (.next, tested) =>
              if (tested.status = 0) = whether then
                match run fuel s body tested with
                | (.next, m) | (.again, m) => run fuel s (.loop whether condition body) m
                | (.leave, m) => (.next, m)
                | stopped => stopped
              else (.next, tested.ended 0)
          | stopped => stopped
      | .each name words body =>
          let (fields, m) := expandAll fuel words m
          turns fuel s name fields body m

/-- Runs a script once for each value of a name. -/
def turns : Nat → Streams → String → List String → Script → Machine → Flow × Machine
  | 0, _, _, _, _, m => (.exit, m.ended 2)
  | _ + 1, _, _, [], _, m => (.next, m)
  | fuel + 1, s, name, value :: rest, body, m =>
      match run fuel s body (m.set name value) with
      | (.next, m) | (.again, m) => turns fuel s name rest body m
      | (.leave, m) => (.next, m)
      | stopped => stopped

end

/-- How long a script may go on. -/
def patience : Nat := 1000000

/-- Runs the text of a script from its beginning. -/
def runText (text : String) (m : Machine) : Flow × Machine :=
  match tokens? text.toList, Script.ofText? text.toList with
  | none, _ => (.exit, m.complain ⟨.out, .err⟩ 2 "Syntax error: Unterminated quoted string")
  | _, none => (.exit, m.complain ⟨.out, .err⟩ 2 "Syntax error")
  | _, some script => run patience ⟨.out, .err⟩ script m

end Converge.Shell
