import LivePreview.CommandLine.Run

/-! The command line: reads the files that the arguments name, lets the command work on them, and writes and prints
what it leaves. -/
namespace LivePreview.CommandLine

/-- What is read of the file system: texts with their paths, and directories. -/
structure Gathered where
  texts : List (String × String) := []
  directories : List String := []

def Gathered.append (a b : Gathered) : Gathered := ⟨a.texts ++ b.texts, a.directories ++ b.directories⟩

/-- What is under a directory entry. What cannot be read as text is left out. -/
partial def gather (path : String) (entry : IO.FS.DirEntry) : IO Gathered := do
  if ← entry.path.isDir then
    let inside ← entry.path.readDir
    inside.foldlM (fun g e => return g.append (← gather (Path.join path [e.fileName]) e)) { directories := [path] }
  else
    try return { texts := [(path, ← IO.FS.readFile entry.path)] } catch _ => return {}

/-- What is under a path, and the directory around it. -/
def look (path : String) : IO Gathered := do
  let entry (path : String) : IO.FS.DirEntry := ⟨".", path⟩
  let around : Gathered := if ← (entry (Path.parent path)).path.isDir then { directories := [Path.parent path] } else {}
  if ← (entry path).path.pathExists then return around.append (← gather path (entry path)) else return around

/-- The workspace as far as paths lead into it. -/
def load (paths : List String) : IO Workspace := do
  let g ← paths.foldlM (fun (g : Gathered) path => return g.append (← look path)) {}
  return Workspace.ofTexts g.texts g.directories

/-- Writes the files that are not as they were. -/
def save (before after : Workspace) : IO Unit := do
  for (parts, text) in after.files do
    if before.files.lookup parts != some text then
      IO.FS.writeFile ("/".intercalate parts) text

end LivePreview.CommandLine

open LivePreview.CommandLine in
def main (args : List String) : IO UInt32 := do
  let start ← IO.monoMsNow
  let before ← load (((request? args).map (·.paths)).getD [])
  let report := run args before
  save before report.workspace
  let elapsed := toString ((← IO.monoMsNow) - start)
  for note in report.notes do IO.println (note.line elapsed)
  IO.print report.output
  match report.error with
  | some e => IO.eprintln ("Error: " ++ e)
  | none => if report.status == 2 then IO.eprintln helpText
  return report.status.toUInt32
