import LivePreview.Shell.Ending
import LivePreview.Shell.Script

/-! Running commands.

The commands known here read their input, write, wait and end; none of them looks at files. Time is counted and
not spent: a command that waits says how long. -/
namespace LivePreview.Shell
open Text

/-- A script at work: what is left of its input, what it has written, how long it has taken, and how the command
before ended. -/
structure State where
  input : ByteArray
  output : ByteArray := .empty
  errors : ByteArray := .empty
  milliseconds : Nat := 0
  last : Nat := 0

/-- What a command does: goes on with a status, or ends the script. -/
inductive Effect where
  | status (n : Nat)
  | finish (ending : Ending)

def State.write (s : State) (sink : Sink) (text : ByteArray) : State :=
  match sink with
  | .output => { s with output := s.output ++ text }
  | .errors => { s with errors := s.errors ++ text }
  | .nowhere => s

/-- A text with its escapes resolved. -/
def unescape : List Char → List Char
  | '\\' :: 'n' :: r => '\n' :: unescape r
  | '\\' :: 't' :: r => '\t' :: unescape r
  | '\\' :: '\\' :: r => '\\' :: unescape r
  | c :: r => c :: unescape r
  | [] => []

/-- The text of a form with the words that it asks for. -/
def filled : List Char → List String → List Char
  | '%' :: 's' :: r, w :: ws => w.toList ++ filled r ws
  | '%' :: 's' :: r, [] => filled r []
  | '%' :: '%' :: r, ws => '%' :: filled r ws
  | c :: r, ws => c :: filled r ws
  | [], _ => []

/-- The milliseconds of a count of seconds, which may have a fraction. -/
def duration? (s : List Char) : Option Nat :=
  let seconds := s.takeWhile isDigit
  let fraction := (s.dropWhile isDigit).drop 1
  let isPlain := (s.dropWhile isDigit).head?.all (· == '.') && fraction.all isDigit
  if isPlain && !(seconds.isEmpty && fraction.isEmpty) then
    some ((seconds ++ (fraction ++ ['0', '0', '0']).take 3).foldl (fun n c => 10 * n + (c.toNat - '0'.toNat)) 0)
  else none

/-- Words with spaces between them. -/
def joined (words : List String) : List Char := (" ".intercalate words).toList

def bytes (s : List Char) : ByteArray := (String.ofList s).toUTF8

/-- Runs one command by its name and its further words; none when no command has this name. -/
def known? (s : State) (c : Command) (name : String) (words : List String) : Option (State × Effect) :=
  match name with
  | "true" | ":" => some (s, .status 0)
  | "false" => some (s, .status 1)
  | "exit" =>
    match words with
    | [] => some (s, .finish (.exit s.last))
    | w :: _ => some (s, .finish (.exit ((w.toNat?.getD 2) % 256)))
  | "echo" =>
    let (words, mark) := match words with
      | "-n" :: words => (words, [])
      | words => (words, ['\n'])
    some (s.write c.output (bytes (unescape (joined words) ++ mark)), .status 0)
  | "printf" =>
    match words with
    | [] => some (s, .status 2)
    | form :: words => some (s.write c.output (bytes (filled (unescape form.toList) words)), .status 0)
  | "cat" =>
    match words, c.input with
    | [], some text => some (s.write c.output text.toUTF8, .status 0)
    | [], none => some ({ s.write c.output s.input with input := .empty }, .status 0)
    | file :: _, _ =>
      some (s.write c.errors (bytes ("cat: ".toList ++ file.toList ++ ": No such file or directory\n".toList)),
        .status 1)
  | "sleep" =>
    match words.head?.bind fun w => duration? w.toList with
    | some n => some ({ s with milliseconds := s.milliseconds + n }, .status 0)
    | none => some (s, .status 1)
  | "kill" =>
    match words with
    | [signal, "$$"] => some (s, .finish (.signal ((String.ofList (signal.toList.drop 1)).toNat?.getD 15)))
    | _ => some (s, .status 1)
  | _ => none

/-- Runs one command of a script. -/
def State.run (s : State) (c : Command) : State × Effect :=
  match c.words with
  | [] => (s, .status s.last)
  | name :: words =>
    match known? s c name words with
    | some result => result
    | none =>
      (s.write c.errors (bytes ("sh: ".toList ++ (toString c.line).toList ++ ": ".toList ++ name.toList ++
        ": not found\n".toList)), .status 127)

def Condition.holds (last : Nat) : Condition → Bool
  | always => true
  | afterSuccess => last == 0
  | afterFailure => last != 0

/-- Runs commands one after another, up to the one that ends the script. -/
def State.runAll (s : State) : List Command → State × Ending
  | [] => (s, .exit s.last)
  | c :: cs =>
    if c.condition.holds s.last then
      match s.run c with
      | (s, .status n) => State.runAll { s with last := n } cs
      | (s, .finish ending) => (s, ending)
    else State.runAll s cs

def State.finished (s : State) (ending : Ending) : Finished := ⟨ending, s.output, s.errors, s.milliseconds⟩

/-- Runs a script on an input. -/
def runScript (text : String) (input : ByteArray) : Finished :=
  match parse? text with
  | some cs =>
    let (s, ending) := State.runAll { input } cs
    s.finished ending
  | none => { ending := .exit 2, errors := "sh: 1: Syntax error\n".toUTF8 }

/-- Why a program does not start. -/
inductive StartError where
  | notFound
  | denied
  | badName
deriving DecidableEq, Repr

def StartError.message : StartError → String
  | .notFound => "No such file or directory (os error 2)"
  | .denied => "Permission denied (os error 13)"
  | .badName => "nul byte found in provided data"

/-- The programs that a command can name. -/
def programs : List String := ["sh", "true", "false", "echo", "printf", "cat", "sleep"]

/-- Places that exist and are no programs. -/
def places : List String :=
  ["/", ".", "..", "/tmp", "/etc", "/usr", "/usr/bin", "/bin", "/etc/passwd", "/dev/null"]

/-- The program that a name or a path means. -/
def program? (name : String) : Except StartError String :=
  if name.toList.contains '\x00' then .error .badName
  else if places.contains name then .error .denied
  else
    match (programs ++ programs.map ("/bin/" ++ ·) ++ programs.map ("/usr/bin/" ++ ·)).find? (· == name) with
    | some path => .ok ((path.splitOn "/").getLastD path)
    | none => .error .notFound

/-- Runs a program with its arguments on an input. -/
def start (name : String) (args : List String) (input : ByteArray) : Except StartError Finished := do
  let program ← program? name
  if args.any (·.toList.contains '\x00') then throw .badName
  match program, args with
  | "sh", "-c" :: text :: _ => return runScript text input
  | "sh", [] => return runScript ((String.fromUTF8? input).getD "") .empty
  | "sh", file :: _ =>
    return {
      ending := .exit 2,
      errors := bytes ("sh: 0: cannot open ".toList ++ file.toList ++ ": No such file\n".toList) }
  | name, args =>
    let (s, effect) := State.run { input } { words := name :: args }
    match effect with
    | .status n => return s.finished (.exit n)
    | .finish ending => return s.finished ending

end LivePreview.Shell
