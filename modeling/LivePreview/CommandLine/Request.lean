import LivePreview.Text.Space

/-! What a command line asks for. -/
namespace LivePreview.CommandLine

inductive Command where
  /-- Writes a settings file, in place of one that is there or not. -/
  | init (overwrite : Bool)
  /-- Prints a source as a plain script. -/
  | normalize (file : String) (markdown : Bool)
  /-- Prints the name of a component. -/
  | extract (file : String) (markdown : Bool)
  /-- Looks through the sources of a directory. -/
  | check (directory : String)
  /-- Compiles a source and prints what it renders. -/
  | preview (file : String) (target props : Option String) (watch : Bool)
deriving DecidableEq, Repr

structure Invocation where
  settings : String := "glimpse.toml"
  verbose : Bool := false
  command : Command
deriving DecidableEq, Repr

inductive Request where
  | run (i : Invocation)
  | version
  | help
deriving DecidableEq, Repr

/-! ### Words and options -/

/-- An option by its two names. One with a value may refuse an empty one, as a path does. -/
structure Opt where
  long : String
  short : Char
  hasValue : Bool := false
  isPath : Bool := false
deriving DecidableEq, Repr

/-- What a command takes: options, so many words, and whether it knows its version. -/
structure Form where
  options : List Opt
  words : Nat := 0
  knowsVersion : Bool := false
  /-- The first word is a command of its own, with all that follows. -/
  endsAtWord : Bool := false

/-- Options with their values, the words, and what stands behind the word that ends it. -/
structure Given where
  options : List (String × String) := []
  words : List String := []
  rest : List String := []
deriving DecidableEq, Repr

/-- How reading arguments ends. -/
inductive Scan where
  | given (g : Given)
  | help
  | version
  | wrong
deriving DecidableEq, Repr

namespace Given

/-- Adds an option that was not given before. -/
def add? (g : Given) (o : Opt) (value : String) : Option Given :=
  if (g.options.lookup o.long).isSome || (o.isPath && value.isEmpty) then none
  else some { g with options := g.options ++ [(o.long, value)] }

/-- Adds words, as many as the form takes. Every word is a path. -/
def addWords? (g : Given) (f : Form) (words : List String) : Option Given :=
  if f.words < g.words.length + words.length || words.any (·.isEmpty) then none
  else some { g with words := g.words ++ words }

def has (g : Given) (long : String) : Bool := (g.options.lookup long).isSome

end Given

/-- Whether an argument is an option or the sign that no more follow. -/
def isOption (a : String) : Bool := a.startsWith "-" && a != "-"

/-- What the letters of one argument say: the options among them, and the option at the end that wants the next
argument for its value. -/
inductive Letters where
  | given (g : Given)
  | wants (g : Given) (o : Opt)
  | ended (s : Scan)

/-- Reads letters behind one hyphen. An option with a value takes the letters behind it. -/
def letters (f : Form) (g : Given) : List Char → Letters
  | [] => .given g
  | c :: r =>
    match f.options.find? (·.short == c) with
    | some o =>
      if o.hasValue then
        match r with
        | [] => .wants g o
        | r => match g.add? o (String.ofList (if r.head? == some '=' then r.drop 1 else r)) with
          | some g => .given g
          | none => .ended .wrong
      else match g.add? o "" with
        | some g => letters f g r
        | none => .ended .wrong
    | none => .ended (if c == 'h' then .help else if c == 'V' && f.knowsVersion then .version else .wrong)

/-- Reads an option behind two hyphens, with a value behind an equals sign or without. -/
def longOption (f : Form) (g : Given) (a : List Char) : Letters :=
  let name := String.ofList (a.takeWhile (· != '='))
  let value? := match a.dropWhile (· != '=') with
    | _ :: r => some (String.ofList r)
    | [] => none
  match f.options.find? (·.long == name), value? with
  | some o, some value => if !o.hasValue then .ended .wrong else of? (g.add? o value)
  | some o, none => if o.hasValue then .wants g o else of? (g.add? o "")
  | none, none => .ended
    (if name == "help" then .help else if name == "version" && f.knowsVersion then .version else .wrong)
  | none, some _ => .ended .wrong
where
  of? : Option Given → Letters
    | some g => .given g
    | none => .ended .wrong

/-- Reads arguments in order; the first mistake ends it, as does asking for help or the version. -/
def scan (f : Form) (g : Given) : List String → Scan
  | [] => .given g
  | a :: rest =>
    if a == "--" then
      match g.addWords? f rest with
      | some g => .given g
      | none => .wrong
    else if isOption a then
      match if a.startsWith "--" then longOption f g (a.toList.drop 2) else letters f g (a.toList.drop 1) with
      | .given g => scan f g rest
      | .ended s => s
      | .wants g o =>
        match rest with
        | [] => .wrong
        | value :: rest =>
          if isOption value then .wrong
          else
            match g.add? o value with
            | some g => scan f g rest
            | none => .wrong
    else if f.endsAtWord then .given { g with words := [a], rest }
    else
      match g.addWords? f [a] with
      | some g => scan f g rest
      | none => .wrong

/-! ### Commands -/

def topForm : Form :=
  { options := [{ long := "config", short := 'c', hasValue := true, isPath := true },
    { long := "verbose", short := 'v' }]
    knowsVersion := true
    endsAtWord := true }

def markdownOption : Opt := { long := "markdown", short := 'm' }

/-- The form of a command. -/
def form? : String → Option Form
  | "init" => some { options := [{ long := "yes", short := 'y' }] }
  | "normalize" | "extract" => some { options := [markdownOption], words := 1 }
  | "check" => some { options := [], words := 1 }
  | "preview" =>
    some {
      options :=
        [{ long := "target", short := 't', hasValue := true }, { long := "props", short := 'p', hasValue := true },
          { long := "watch", short := 'w' }]
      words := 1 }
  | _ => none

/-- The command of a name with what was given to it; none when a word is missing. -/
def command? (name : String) (g : Given) : Option Command :=
  match name, g.words with
  | "init", _ => some (.init (g.has "yes"))
  | "normalize", [file] => some (.normalize file (g.has "markdown"))
  | "extract", [file] => some (.extract file (g.has "markdown"))
  | "check", words => some (.check (words.headD "."))
  | "preview", [file] =>
    some (.preview file (g.options.lookup "target") (g.options.lookup "props") (g.has "watch"))
  | _, _ => none

/-- Help on a command, or on all of them. -/
def helpOn? : List String → Option Request
  | [] => some .help
  | [name] => if name == "help" || (form? name).isSome then some .help else none
  | _ => none

/-- What the arguments ask for; none when they are not well formed. -/
def request? (args : List String) : Option Request :=
  match scan topForm {} args with
  | .wrong => none
  | .help => some .help
  | .version => some .version
  | .given top =>
    match top.words with
    | ["help"] => helpOn? top.rest
    | [name] =>
      match (form? name).map (scan · {} top.rest) with
      | some (.given g) =>
        (command? name g).map fun command =>
          .run ⟨(top.options.lookup "config").getD "glimpse.toml", top.has "verbose", command⟩
      | some .help => some .help
      | _ => none
    | _ => none

end LivePreview.CommandLine
