import LivePreview.CommandLine.Request
import LivePreview.Compile.Command
import LivePreview.Jsx.Program
import LivePreview.Preview.Session
import LivePreview.Settings
import LivePreview.Source.Response
import LivePreview.Text.Quoted
import LivePreview.Workspace

/-! What the commands do to a workspace, what they print, and what they note on the way.

A command either comes to its end or breaks off with a message. What it has printed, noted and written until then
stays. -/
namespace LivePreview.CommandLine

/-! ### Notes and jobs -/

inductive Level where
  | debug
  | info
  | warn
  | error
deriving DecidableEq, Repr

def Level.label : Level → String
  | debug => "DEBUG"
  | info => "INFO"
  | warn => "WARN"
  | error => "ERROR"

inductive Note where
  | say (level : Level) (text : String)
  /-- So many files were looked through, with problems in so many of them. -/
  | checked (files problems : Nat)
deriving DecidableEq, Repr

/-- A note as a line, given how many milliseconds the command has taken. -/
def Note.line (milliseconds : String) : Note → String
  | say level text => level.label ++ " " ++ text
  | checked files problems =>
    Level.info.label ++ " Checked " ++ toString files ++ " files in " ++ milliseconds ++ "ms, " ++ toString problems ++
      " with problems"

/-- A workspace with what has been printed and noted. -/
structure Desk where
  workspace : Workspace
  verbose : Bool := false
  output : String := ""
  notes : Array Note := #[]

/-- A command at work, which may break off with a message. -/
abbrev Job := ExceptT String (StateM Desk)

namespace Job

/-- Notes a text. What is for the curious is noted only if they asked for it. -/
def note (level : Level) (text : String) : Job Unit :=
  modify fun d => if level == .debug && !d.verbose then d else { d with notes := d.notes.push (.say level text) }

/-- Prints a line. -/
def print (line : List Char) : Job Unit := modify fun d => { d with output := d.output ++ String.ofList line ++ "\n" }

def workspace : Job Workspace := do return (← get).workspace

/-- The text of a file. -/
def readText (path : String) : Job String := do
  match (← workspace).read? path with
  | some text => return text
  | none => throw ("Failed to read " ++ path)

/-- The source in a file: of an answer in a markdown file, or where that is asked for, the code in it. -/
def readSource (path : String) (markdown : Bool) : Job (List Char) := do
  let text := (← readText path).toList
  let type := Path.fileType path
  return if markdown || type == "md" || type == "mdx" then Source.unwrap text else text

end Job

open Job

/-! ### Commands on sources -/

/-- Writes a settings file. One that is there stays unless it is to be overwritten. -/
def init (path : String) (overwrite : Bool) : Job Unit := do
  note .info "Initializing glimpse..."
  let w ← workspace
  if (w.find? path).isSome && !overwrite then
    note .warn (path ++ " already exists. Use --yes to overwrite.")
  else
    match w.write? path Settings.defaultText with
    | none => throw ("Failed to write " ++ path)
    | some w =>
      modify ({ · with workspace := w })
      note .info ("Created " ++ path)
      note .info "Set [compiler] command, then run 'glimpse preview <file>'."

/-- The note on a text that is no plain script. -/
def syntaxNote (path : String) : Job Unit := note .warn (path ++ ": <syntax error>")

/-- Prints a source as a plain script. -/
def normalize (path : String) (markdown : Bool) : Job Unit := do
  let plain := Source.normalize (← readSource path markdown)
  unless Jsx.isValid plain do syntaxNote path
  print plain

def kindName : Source.NameKind → String
  | .binding => "Binding"
  | .function => "Function"
  | .exported => "Export"

/-- Prints the name of a component. -/
def extract (path : String) (markdown : Bool) : Job Unit := do
  match Source.componentName? (← readSource path markdown) with
  | none => throw ("No component name found in " ++ path)
  | some found =>
    note .debug ("Matched " ++ kindName found.kind ++ " pattern")
    print found.name

/-- The types of files that hold sources. -/
def sourceTypes : List String := ["tsx", "jsx", "ts", "js", "md", "mdx"]

/-- Looks at a source: whether it is in order. -/
def checkFile (path : String) : Job Bool := do
  let source ← readSource path false
  let named := (Source.componentName? source).isSome
  let valid := Jsx.isValid (Source.normalize source)
  unless named do note .warn (path ++ ": no component name found")
  unless valid do syntaxNote path
  return named && valid

/-- Looks at all sources of a directory. -/
def check (directory : String) : Job Unit := do
  let w ← workspace
  if (w.find? directory).isNone then throw ("Directory not found: " ++ directory)
  let paths := (w.filesUnder directory).map (·.1) |>.filter fun path => sourceTypes.contains (Path.fileType path)
  let good ← paths.filterM checkFile
  let problems := paths.length - good.length
  modify fun d => { d with notes := d.notes.push (.checked paths.length problems) }
  if 0 < problems then
    throw (toString problems ++ " of " ++ toString paths.length ++ " files failed the check")

/-! ### Previews -/

/-- The settings of a file, or the defaults where there is none. -/
def loadSettings (path : String) : Job Settings := do
  match (← workspace).find? path with
  | none => return {}
  | some _ =>
    match Settings.parse? (← readText path) with
    | none => throw ("Failed to parse " ++ path)
    | some s =>
      note .debug ("Loaded config from " ++ path)
      return s

/-- The properties for a component; none given are no properties. -/
def readProps (props : Option String) : Job Json := do
  match props.map Json.parse? with
  | none => return .obj []
  | some none => throw "Failed to parse --props as JSON"
  | some (some (.obj members)) => return .obj members
  | some (some _) => throw "--props must be a JSON object"

/-- The compiler of some settings, if a program is named. -/
def compiler? (c : CompilerSettings) : Option Compile.CommandCompiler :=
  c.program?.map fun program => { program, args := c.args, timeout := c.timeout }

/-- The compiler of the settings, with the second one behind it if there is one. -/
def gateway (path : String) (s : Settings) : Job (Compile.Gateway Compile.CommandCompiler) := do
  match compiler? s.compiler, compiler? s.fallback with
  | none, _ => throw ("No compiler configured. Set [compiler] command in " ++ path)
  | some primary, none => return .compiler primary
  | some primary, some secondary =>
    note .debug ("Using " ++ primary.program ++ " with fallback " ++ secondary.program)
    return .fallback (.compiler primary) (.compiler secondary)

def noteGateway (source : String) : Compile.GatewayEvent Compile.CommandCompiler → Job Unit
  | .asked c =>
    note .debug ("Invoking compiler program=" ++ c.program ++ " bytes=" ++ toString source.utf8ByteSize)
  | .rejected reason =>
    note .warn ("Primary compiler rejected source, trying fallback error=" ++ Text.quoted reason)
  | .unavailable e => note .warn ("Primary compiler unavailable, trying fallback error=" ++ e.message)

def noteBoard : Preview.BoardEvent → Job Unit
  | .ignored => note .debug "Ignoring submission after unmount"
  | .compiling generation component bytes =>
    note .debug ("Compiling preview generation=" ++ toString generation ++ " component=" ++ component ++ " bytes=" ++
      toString bytes)
  | .dropped generation => note .debug ("Dropping stale pipeline result generation=" ++ toString generation)
  | .settled generation phase =>
    note .debug ("Pipeline run settled generation=" ++ toString generation ++ " phase=" ++ phase)
  | .unmounted => note .debug "Preview controller unmounted"

def phaseName : Phase → String
  | .mount => "Mount"
  | .update => "Update"

def noteSurface : SurfaceEvent → Job Unit
  | .mounting component => note .debug ("Mounting component component=" ++ Text.quoted component)
  | .unmounting component => note .debug ("Unmounting component component=" ++ Text.quoted component)
  | .captured r =>
    note .warn ("Component render failed component=" ++ r.component ++ " phase=" ++ phaseName r.phase ++ " error=" ++
      r.error.message)
  | .cleanupFailed component (.panic text) =>
    note .warn ("Effect cleanup panicked component=" ++ Text.quoted component ++ " error=" ++ text)
  | .cleanupFailed component fault =>
    note .warn ("Effect cleanup failed component=" ++ Text.quoted component ++ " error=" ++ fault.message)

/-- Notes what has happened in a session, and forgets it. -/
def noteSession (s : Preview.Session) : Job Preview.Session := do
  s.board.events.toList.forM noteBoard
  s.stage.surface.events.toList.forM noteSurface
  return { s with
    board := { s.board with events := #[] }
    stage := { s.stage with surface := { s.stage.surface with events := #[] } } }

/-- Notes that a component was built, if one more was. -/
def noteBuilt (before after : Preview.Session) : Job Unit :=
  if before.stage.components.size < after.stage.components.size then
    match after.stage.components.back?.bind (·.component?) with
    | some c => note .debug ("Instantiated component component=" ++ Text.quoted c.name)
    | none => pure ()
  else pure ()

/-- Hands in a submission and takes its run to the end. -/
def submit (compiler : Compile.Gateway Compile.CommandCompiler) (submission : Preview.Submission)
    (s : Preview.Session) : Job Preview.Session := do
  let (s, i) := s.submit submission
  let s ← noteSession (s.advance i)
  match s.pending? i with
  | none => return s
  | some source =>
    let (reply, events) := compiler.ask fun c => c.reply source
    events.forM (noteGateway source)
    let after := s.reply i reply
    noteBuilt s after
    noteSession after

/-- Prints what the component of a session renders: the session after it, and whether it rendered. -/
def show? (props : Json) (s : Preview.Session) : Job (Preview.Session × Bool) := do
  match s.board.state with
  | .ready i =>
    let name := ((s.stage.component? i).map (·.name)).getD ""
    let s ← noteSession ((s.render Script.invoke props).getD s)
    match s.stage.surface.shown with
    | .rendered nodes =>
      note .info ("Rendered " ++ name)
      print (Node.markupAll nodes)
      return (s, true)
    | .captured r =>
      note .error (name ++ " threw while rendering: " ++ r.error.message)
      return (s, false)
    | .empty => return (s, false)
  | .failed kind message =>
    note .error (kind.label ++ ": " ++ message)
    return (s, false)
  | _ => return (s, false)

/-- Compiles a source and prints what it renders. -/
def preview (settingsPath path : String) (target props : Option String) : Job Unit := do
  let settings ← loadSettings settingsPath
  let props ← readProps props
  let compiler ← gateway settingsPath settings
  let source ← readSource path false
  note .info ("Compiling " ++ path ++ "...")
  let submission : Preview.Submission := ⟨String.ofList source, .ofTag (target.getD settings.target)⟩
  let s ← submit compiler submission { binding := ⟨settings.binding, false⟩, limits := settings.limits }
  let (s, rendered) ← show? props s
  let s ← noteSession s.unmount
  let _ ← noteSession { s with stage := s.stage.unmount Script.invoke }
  unless rendered do throw ("Preview of " ++ path ++ " failed")

/-! ### Reports -/

/-- How an invocation has ended. -/
structure Report where
  workspace : Workspace
  status : Nat
  output : String := ""
  notes : List Note := []
  /-- Why it has failed. -/
  error : Option String := none
deriving DecidableEq, Repr

/-- The work of a command. A preview is made once; whoever watches a file asks again when it has changed. -/
def Invocation.job (i : Invocation) : Job Unit :=
  match i.command with
  | .init overwrite => init i.settings overwrite
  | .normalize path markdown => normalize path markdown
  | .extract path markdown => extract path markdown
  | .check directory => check directory
  | .preview path target props _ => preview i.settings path target props

/-- The paths that an invocation looks at. -/
def Invocation.paths (i : Invocation) : List String :=
  match i.command with
  | .init _ => [i.settings]
  | .normalize path _ | .extract path _ | .check path => [path]
  | .preview path _ _ _ => [i.settings, path]

def Request.paths : Request → List String
  | .run i => i.paths
  | .version | .help => []

def Invocation.run (i : Invocation) (w : Workspace) : Report :=
  let (result, d) := i.job.run { workspace := w, verbose := i.verbose }
  let error := match result with
    | .ok _ => none
    | .error e => some e
  ⟨d.workspace, if error.isSome then 1 else 0, d.output, d.notes.toList, error⟩

def versionText : String := "glimpse 0.1.0\n"

def helpText : String :=
  "Live preview host for generated React components\n\n" ++
  "Usage: glimpse [OPTIONS] <COMMAND>\n\n" ++
  "Commands:\n" ++
  "  init       Write a default glimpse.toml\n" ++
  "  normalize  Print a source file normalized to plain JSX\n" ++
  "  extract    Print the component name found in a source file\n" ++
  "  check      Normalize every source under a directory and report leftover syntax\n" ++
  "  preview    Compile, instantiate and render a component\n"

/-- Does what arguments ask for. Arguments that are not well formed do nothing. -/
def run (args : List String) (w : Workspace) : Report :=
  match request? args with
  | none => { workspace := w, status := 2 }
  | some .version => { workspace := w, status := 0, output := versionText }
  | some .help => { workspace := w, status := 0, output := helpText }
  | some (.run i) => i.run w

end LivePreview.CommandLine
