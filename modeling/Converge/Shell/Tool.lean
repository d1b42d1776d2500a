import Converge.Files
import Converge.Text.Encoding

/-!
# Tools

The small programs that scripts use: each reads its arguments, its input and the files, and
ends with a code and something written.
-/

namespace Converge.Shell

/-- What a tool leaves: its exit code, what it wrote, and the files if it changed them. -/
structure Result where
  code : Nat
  out : List Nat
  err : String
  files : Option Files

namespace Result

def done (code : Nat) (out : List Nat) : Result := ⟨code, out, "", none⟩

def say (text : String) : Result := done 0 (Text.bytesOf text)

def fail (code : Nat) (err : String) : Result := ⟨code, [], err ++ "\n", none⟩

end Result

/-- What a tool is given. -/
structure Setting where
  args : List String
  input : List Nat
  dir : Pathname
  files : Files

namespace Setting

/-- Where a path leads from the directory of the tool. -/
def place (s : Setting) (path : String) : Pathname := s.dir.join ⟨path⟩

/-- The bytes of a file, or what is wrong with it. -/
def read (s : Setting) (path : String) : Except String (List Nat) :=
  if path = "-" then .ok s.input
  else if path = "/dev/null" then .ok []
  else match s.files.find (s.place path) with
    | .inside _ (.file bytes) => .ok bytes
    | .inside _ .directory | .outside => .error "Is a directory"
    | .blocked => .error "Not a directory"
    | .tooLong => .error "File name too long"
    | .missing | .noPath => .error "No such file or directory"

end Setting

/-! ## Escapes -/

/-- The number that up to `n` octal digits spell, and what follows. -/
def octal (n : Nat) (cs : List Char) : Nat × List Char :=
  let digits := (cs.take n).takeWhile fun c => '0' ≤ c && c ≤ '7'
  (Nat.ofDigitChars 8 digits 0, cs.drop digits.length)

/-- A single character after a backslash that stands for another one. -/
def simpleEscape? : Char → Option Nat
  | 'a' => some 7
  | 'b' => some 8
  | 'f' => some 12
  | 'n' => some 10
  | 'r' => some 13
  | 't' => some 9
  | 'v' => some 11
  | '\\' => some 92
  | _ => none

/-- The bytes of a text with escapes, and whether it goes on after them; `zeroFirst` if octal
numbers begin with a zero of their own. -/
def unescape (zeroFirst : Bool) : Nat → List Char → List Nat × Bool
  | 0, _ => ([], true)
  | fuel + 1, cs =>
      let andThen (bytes : List Nat) (rest : List Char) : List Nat × Bool :=
        let (more, goesOn) := unescape zeroFirst fuel rest
        (bytes ++ more, goesOn)
      match cs with
      | [] => ([], true)
      | '\\' :: c :: rest =>
          match simpleEscape? c with
          | some n => andThen [n] rest
          | none =>
              if c = 'c' then ([], false)
              else if zeroFirst then
                if c = '0' then
                  let (n, rest) := octal 3 rest
                  andThen [n % 256] rest
                else andThen (Text.bytesOf (String.ofList ['\\', c])) rest
              else if '0' ≤ c && c ≤ '7' then
                let (n, rest) := octal 3 (c :: rest)
                andThen [n % 256] rest
              else andThen (Text.bytesOf (String.ofList ['\\', c])) rest
      | c :: rest => andThen (Text.bytesOf (String.singleton c)) rest

/-- The bytes of a text with escapes. -/
def unescaped (zeroFirst : Bool) (s : String) : List Nat × Bool :=
  unescape zeroFirst (s.length + 1) s.toList

/-! ## Reading and writing -/

def echo (s : Setting) : Result :=
  let (words, ending) : List String × List Nat := match s.args with
    | "-n" :: rest => (rest, [])
    | words => (words, [10])
  let (bytes, goesOn) := unescaped true (" ".intercalate words)
  Result.done 0 (bytes ++ if goesOn then ending else [])

/-- The whole number that a text begins with. -/
def leadingInt (s : String) : Int :=
  match s.toList with
  | '-' :: cs => -Int.ofNat (Nat.ofDigitChars 10 (cs.takeWhile Char.isDigit) 0)
  | cs => Int.ofNat (Nat.ofDigitChars 10 (cs.takeWhile Char.isDigit) 0)

/-- What a directive of a format makes of an argument. -/
def formatted (directive : Char) (arg : String) : List Nat :=
  match directive with
  | 'd' | 'i' | 'u' => Text.bytesOf (toString (leadingInt arg))
  | 'x' => Text.bytesOf (String.ofList (Nat.toDigits 16 (leadingInt arg).toNat))
  | 'o' => Text.bytesOf (String.ofList (Nat.toDigits 8 (leadingInt arg).toNat))
  | 'c' => (Text.bytesOf arg).take 1
  | 'b' => (unescaped true arg).1
  | _ => Text.bytesOf arg

/-- Writes a format once; gives the arguments that are left, and whether any was used. -/
def formatOnce : Nat → List Char → List String → List Nat × List String × Bool
  | 0, _, args => ([], args, false)
  | fuel + 1, cs, args =>
      match cs with
      | [] => ([], args, false)
      | '%' :: '%' :: rest =>
          let (bytes, args, used) := formatOnce fuel rest args
          (37 :: bytes, args, used)
      | '%' :: d :: rest =>
          let (bytes, left, _) := formatOnce fuel rest args.tail
          (formatted d (args.headD "") ++ bytes, left, true)
      | ['%'] => ([37], args, false)
      | cs =>
          let text := cs.takeWhile (· ≠ '%')
          let (bytes, args, used) := formatOnce fuel (cs.dropWhile (· ≠ '%')) args
          ((unescaped false (String.ofList text)).1 ++ bytes, args, used)

/-- Writes a format again and again until no argument is left. -/
def formatAll (format : List Char) : Nat → List String → List Nat
  | 0, _ => []
  | fuel + 1, args =>
      let (bytes, left, used) := formatOnce (format.length + 1) format args
      bytes ++ if left.isEmpty || !used then [] else formatAll format fuel left

def printf (s : Setting) : Result :=
  match s.args with
  | [] => Result.fail 2 "sh: 1: printf: usage: printf format [arg ...]"
  | format :: args => Result.done 0 (formatAll format.toList (args.length + 1) args)

/-- Everything that is read from the files named, or from the input. -/
def cat (s : Setting) : Result :=
  let add (r : Result) (path : String) : Result :=
    match s.read path with
    | .ok bytes => { r with out := r.out ++ bytes }
    | .error why => { r with code := 1, err := r.err ++ s!"cat: {path}: {why}\n" }
  (if s.args.isEmpty then ["-"] else s.args).foldl add (Result.done 0 [])

/-- The lines of some bytes, each with its end. -/
def linesOf (bytes : List Nat) : List (List Nat) :=
  let add (b : Nat) (lines : List (List Nat)) : List (List Nat) :=
    match lines with
    | [] => [[b]]
    | l :: rest => if b = 10 then [b] :: l :: rest else (b :: l) :: rest
  bytes.foldr add []

/-- A number of lines or bytes at the front. -/
def head (s : Setting) : Result :=
  let (n, inBytes, paths) : String × Bool × List String := match s.args with
    | "-n" :: n :: rest => (n, false, rest)
    | "-c" :: n :: rest => (n, true, rest)
    | first :: rest =>
        if first.startsWith "-n" then ((first.drop 2).toString, false, rest)
        else if first.startsWith "-c" then ((first.drop 2).toString, true, rest)
        else if first.startsWith "-" then ((first.drop 1).toString, false, rest)
        else ("10", false, first :: rest)
    | [] => ("10", false, [])
  let n := (leadingInt n).toNat
  if paths = ["/dev/zero"] then Result.done 0 (List.replicate n 0)
  else
    let path := paths.headD "-"
    match s.read path with
    | .ok bytes =>
        Result.done 0 (if inBytes then bytes.take n else ((linesOf bytes).take n).flatten)
    | .error why => Result.fail 1 s!"head: cannot open '{path}' for reading: {why}"

/-- The characters of a set, with ranges and escapes written out. -/
def setOf : Nat → List Char → List Nat
  | 0, _ => []
  | fuel + 1, cs =>
      match cs with
      | '\\' :: 'n' :: rest => 10 :: setOf fuel rest
      | '\\' :: '0' :: rest => 0 :: setOf fuel rest
      | '\\' :: c :: rest => c.toNat :: setOf fuel rest
      | a :: '-' :: b :: rest =>
          (List.range (b.toNat + 1 - a.toNat)).map (· + a.toNat) ++ setOf fuel rest
      | c :: rest => c.toNat :: setOf fuel rest
      | [] => []

/-- Replaces characters by others, or deletes them. -/
def tr (s : Setting) : Result :=
  let charsOf (t : String) : List Nat := setOf (t.length + 1) t.toList
  match s.args with
  | ["-d", set] =>
      let set := charsOf set
      Result.done 0 (s.input.filter (!set.contains ·))
  | [old, new] =>
      let old := charsOf old
      let new := charsOf new
      let become (b : Nat) : Nat :=
        match old.idxOf? b with
        | some i => (new[i]? <|> new.getLast?).getD b
        | none => b
      Result.done 0 (s.input.map become)
  | _ => Result.fail 1 "tr: missing operand"

/-- A number of lines at the end. -/
def tail (s : Setting) : Result :=
  let (n, paths) : String × List String := match s.args with
    | "-n" :: n :: rest => (n, rest)
    | paths => ("10", paths)
  let path := paths.headD "-"
  match s.read path with
  | .ok bytes =>
      let lines := linesOf bytes
      Result.done 0 (lines.drop (lines.length - (leadingInt n).toNat)).flatten
  | .error why => Result.fail 1 s!"tail: cannot open '{path}' for reading: {why}"

/-- The lines of the input in the order of their bytes. -/
def sort (s : Setting) : Result :=
  let lines := (linesOf s.input).map fun l => l.filter (· ≠ 10)
  Result.done 0 ((lines.mergeSort fun a b => !decide (b < a)).map (· ++ [10])).flatten

/-- The same line again and again, more often than anybody reads it. -/
def yes (s : Setting) : Result :=
  let line := Text.bytesOf (" ".intercalate (if s.args.isEmpty then ["y"] else s.args) ++ "\n")
  Result.done 0 (List.replicate 100000 line).flatten

/-- Counts lines, words or bytes of the input. -/
def wc (s : Setting) : Result :=
  let lines := s.input.count 10
  match s.args with
  | ["-l"] => Result.say s!"{lines}\n"
  | ["-c"] => Result.say s!"{s.input.length}\n"
  | _ => Result.fail 1 "wc: invalid option"

def seq (s : Setting) : Result :=
  let (low, high) : Int × Int := match s.args.map leadingInt with
    | [n] => (1, n)
    | [m, n] => (m, n)
    | _ => (1, 0)
  let count := (high + 1 - low).toNat
  Result.say (String.join ((List.range count).map fun i => s!"{low + Int.ofNat i}\n"))

/-- Is there something of this kind? -/
def isThere (s : Setting) (kind path : String) : Bool :=
  match kind, s.files.find (s.place path) with
  | "-e", .inside _ _ | "-e", .outside => true
  | "-f", .inside _ (.file _) => true
  | "-d", .inside _ .directory | "-d", .outside => true
  | "-s", .inside _ (.file bytes) => !bytes.isEmpty
  | _, _ => false

/-- Does a condition hold? -/
def holds (s : Setting) : List String → Bool
  | [] => false
  | [a] => !a.isEmpty
  | ["!", a] => a.isEmpty
  | ["-n", a] => !a.isEmpty
  | ["-z", a] => a.isEmpty
  | [kind, path] => isThere s kind path
  | ["!", op, a] => !holds s [op, a]
  | [a, op, b] =>
      match op with
      | "=" => a = b
      | "!=" => a ≠ b
      | "-eq" => leadingInt a = leadingInt b
      | "-ne" => leadingInt a ≠ leadingInt b
      | "-lt" => leadingInt a < leadingInt b
      | "-le" => leadingInt a ≤ leadingInt b
      | "-gt" => leadingInt b < leadingInt a
      | "-ge" => leadingInt b ≤ leadingInt a
      | _ => false
  | "!" :: rest => !holds s rest
  | _ => false

def test (s : Setting) : Result := Result.done (if holds s s.args then 0 else 1) []

/-! ## Files and directories -/

/-- The last part of a path, without an ending that is not all of it. -/
def basename (s : Setting) : Result :=
  match s.args with
  | [] => Result.fail 1 "basename: missing operand\nTry 'basename --help' for more information."
  | path :: rest =>
      let name := (Pathname.mk path).steps.getLastD (if path.startsWith "/" then "/" else path)
      let ending := rest.headD ""
      let short := if name.endsWith ending && name ≠ ending then
        (name.dropEnd ending.length).toString else name
      Result.say (short ++ "\n")

/-- The working directory of a run, as it is shown. -/
def workingDir : Pathname := ⟨"/work"⟩

def pwd (s : Setting) : Result :=
  Result.say ((if s.dir.text.isEmpty then workingDir else workingDir.join s.dir).text ++ "\n")

/-- The names in a directory that are not hidden, in the order of their bytes. -/
def ls (s : Setting) : Result :=
  let path := (s.args.filter (!·.startsWith "-")).headD "."
  match s.files.find (s.place path) with
  | .inside _ (.file _) => Result.say (path ++ "\n")
  | .inside place .directory =>
      let names := s.files.nodes.filterMap fun (q, _) =>
        if q.dropLast = place then q.getLast? else none
      let sorted := (names.filter (!·.startsWith ".")).mergeSort fun a b => !decide (b < a)
      Result.say (String.join (sorted.map (· ++ "\n")))
  | .outside => Result.say ""
  | .blocked => Result.fail 2 s!"ls: cannot access '{path}': Not a directory"
  | _ => Result.fail 2 s!"ls: cannot access '{path}': No such file or directory"

/-- Changes the files path by path; says what is wrong with those that cannot be changed. -/
def changing (s : Setting) (paths : List String)
    (change : Files → String → Except String Files) : Result :=
  let next (r : Result × Files) (path : String) : Result × Files :=
    match change r.2 path with
    | .ok fs => (r.1, fs)
    | .error why => ({ r.1 with code := 1, err := r.1.err ++ why ++ "\n" }, r.2)
  let (r, fs) := paths.foldl next (Result.done 0 [], s.files)
  { r with files := some fs }

/-- What hinders a path from leading to something new. -/
def hindrance? (s : Setting) (fs : Files) (path : String) : Option String :=
  match fs.find ((s.place path).parent?.getD .empty) with
  | .inside _ .directory => none
  | .inside _ (.file _) | .blocked => some "Not a directory"
  | _ => if (Pathname.mk path).steps.length = 1 then none else some "No such file or directory"

def mkdir (s : Setting) : Result :=
  let withParents := s.args.contains "-p"
  changing s (s.args.filter (· ≠ "-p")) fun fs path =>
    let refused (why : String) := s!"mkdir: cannot create directory ‘{path}’: {why}"
    if withParents then .ok (fs.makeDirectory (s.place path))
    else if fs.pathExists (s.place path) then .error (refused "File exists")
    else match hindrance? s fs path with
      | some why => .error (refused why)
      | none => .ok (fs.makeDirectory (s.place path))

def touch (s : Setting) : Result :=
  changing s s.args fun fs path =>
    if fs.pathExists (s.place path) then .ok fs
    else match hindrance? s fs path with
      | some why => .error s!"touch: cannot touch '{path}': {why}"
      | none => .ok (fs.write (s.place path) [])

def rm (s : Setting) : Result :=
  let (options, paths) := s.args.partition (·.startsWith "-")
  let has (c : Char) : Bool := options.any (·.toList.contains c)
  changing s paths fun fs path =>
    match fs.find (s.place path) with
    | .inside place (.file _) => .ok ⟨fs.nodes.filter (·.1 ≠ place)⟩
    | .inside _ .directory | .outside =>
        if has 'r' then .ok (fs.removeDirectory (s.place path))
        else .error s!"rm: cannot remove '{path}': Is a directory"
    | .blocked => .error s!"rm: cannot remove '{path}': Not a directory"
    | _ =>
        if has 'f' then .ok fs
        else .error s!"rm: cannot remove '{path}': No such file or directory"

/-- The tools by name. -/
def tools : List (String × (Setting → Result)) := [
  ("echo", echo), ("printf", printf), ("cat", cat), ("head", head), ("tail", tail), ("tr", tr),
  ("wc", wc), ("sort", sort), ("seq", seq), ("yes", yes), ("test", test),
  ("basename", basename), ("pwd", pwd), ("ls", ls), ("mkdir", mkdir), ("touch", touch), ("rm", rm),
  ("[", fun s => test { s with args := s.args.dropLast }),
  ("true", fun _ => .done 0 []), ("false", fun _ => .done 1 []),
  ("sleep", fun _ => .done 0 [])]

end Converge.Shell
