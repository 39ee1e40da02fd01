import LivePreview.Assoc

/-! Workspaces: text files in directories.

A path is a list of parts. It starts with `/` when it does not start at the workspace, and with `..` for each
directory that it goes up from there. A directory is there when a file is in it or when it is known to be; the
workspace and the directories around it always are. -/
namespace LivePreview

/-- Files under their paths, each path in its parts, and directories that may be empty. -/
structure Workspace where
  files : List (List String × String) := []
  directories : List (List String) := []
deriving DecidableEq, Repr

/-- What a path leads to. -/
inductive Place where
  | file (text : String)
  | directory
deriving DecidableEq, Repr

namespace Path

/-- The last part of a path that is a name. -/
def fileName? (path : String) : Option String :=
  match ((path.splitOn "/").filter fun p => p != "" && p != ".").getLast? with
  | some ".." | none => none
  | some name => some name

/-- What stands behind the last point of a file's name. A point at the start of a name does not count. -/
def fileType (path : String) : String :=
  match fileName? path with
  | none => ""
  | some name =>
    match name.splitOn "." with
    | "" :: [_] | [_] => ""
    | parts => parts.getLastD ""

/-- The directory that a path stands in, as far as the path names it. -/
def parent (path : String) : String :=
  match (path.splitOn "/").dropLast with
  | [] => "."
  | [""] => "/"
  | parts => "/".intercalate parts

/-- A path inside a directory. -/
def join (directory : String) (parts : List String) : String :=
  let rest := "/".intercalate parts
  if directory.endsWith "/" then directory ++ rest else directory ++ "/" ++ rest

end Path

namespace Workspace

def isDirectory (w : Workspace) (parts : List String) : Bool :=
  parts.all (· == "..") || parts == ["/"] || w.directories.contains parts ||
    w.files.any fun (file, _) => parts.isPrefixOf file && parts != file

/-- One step of a path from a directory. -/
def enter (here : List String) (part : String) : List String :=
  match part with
  | "" | "." => here
  | ".." => if here == ["/"] then here else if here.all (· == "..") then here ++ [".."] else here.dropLast
  | name => here ++ [name]

/-- Where the parts of a path begin, and the parts. -/
def origin (path : String) : List String × List String :=
  match path.splitOn "/" with
  | "" :: parts => (["/"], parts)
  | parts => ([], parts)

/-- Where a path leads from a directory, part by part; each part but the last leads to a directory. -/
def follow? (w : Workspace) : List String → List String → Option (List String)
  | here, [] => some here
  | here, part :: rest => if w.isDirectory here then w.follow? (enter here part) rest else none

/-- The parts of a path as files are kept under them. -/
def parts? (w : Workspace) (path : String) : Option (List String) :=
  if path.isEmpty then none
  else
    let (here, parts) := origin path
    w.follow? here parts

/-- What a path leads to. -/
def find? (w : Workspace) (path : String) : Option Place := do
  let parts ← w.parts? path
  if w.isDirectory parts then some .directory else (w.files.lookup parts).map .file

/-- The text of a file. -/
def read? (w : Workspace) (path : String) : Option String :=
  match w.find? path with
  | some (.file text) => some text
  | _ => none

/-- The workspace with a text under a path, where a file can be. -/
def write? (w : Workspace) (path text : String) : Option Workspace := do
  let parts ← w.parts? path
  if w.isDirectory parts then none else some { w with files := Assoc.insert parts text w.files }

/-- The files under a path, with their texts, in the order of their paths. -/
def filesUnder (w : Workspace) (path : String) : List (String × String) :=
  match w.parts? path with
  | none => []
  | some parts =>
    if w.isDirectory parts then
      let inside := w.files.filter fun (file, _) => parts.isPrefixOf file
      let named := inside.map fun (file, text) => (Path.join path (file.drop parts.length), text)
      named.mergeSort fun a b => a.1 ≤ b.1
    else ((w.files.lookup parts).map fun text => (path, text)).toList

/-- The parts of a path to something that is there. -/
def partsOf (path : String) : List String :=
  let (here, parts) := origin path
  parts.foldl enter here

/-- A workspace of texts and directories under their paths. -/
def ofTexts (texts : List (String × String)) (directories : List String) : Workspace :=
  { files := texts.map fun (path, text) => (partsOf path, text), directories := directories.map partsOf }

end Workspace
end LivePreview
