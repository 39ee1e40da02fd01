import LivePreview.Script.Sandbox
import LivePreview.Text.Space
import LivePreview.Toml.Reader

/-! Settings of previews, as a configuration file gives them.

Every group and every setting may be missing; what is not known is passed over. A group may also be a list of its
settings in order. -/
namespace LivePreview

/-- A compiler that is a command. -/
structure CompilerSettings where
  command : Option String := none
  args : List String := []
  timeout : Option Nat := none
deriving DecidableEq, Repr

/-- The program to run, if there is one. -/
def CompilerSettings.program? (c : CompilerSettings) : Option String :=
  c.command.bind fun s =>
    let name := Text.trim s.toList
    if name.isEmpty then none else some (String.ofList name)

structure Settings where
  target : String := "react"
  binding : String := "React"
  compiler : CompilerSettings := {}
  fallback : CompilerSettings := {}
  megabytes : Nat := 8
  milliseconds : Nat := 250
deriving DecidableEq, Repr

namespace Settings
open Toml

/-- What the settings allow a script. The memory ends at the greatest number of 64 bits. -/
def limits (s : Settings) : Script.Limits := ⟨min (s.megabytes * (1024 * 1024)) (Nat.pow 2 64 - 1), s.milliseconds⟩

/-! ### Reading -/

/-- The settings of a group by name; `inOrder` when they were given as a list. -/
structure Group where
  entries : Entries
  inOrder : Bool := false

/-- A group: a table, or a list of the settings in the order of these names. -/
def group? (names : List String) : Value → Option Group
  | .table _ entries => some { entries }
  | .list items | .tables items => some { entries := names.zip items, inOrder := true }
  | .date => some { entries := [] }
  | _ => none

/-- A setting that may be missing. -/
def Group.get? (g : Group) (name : String) (read : Value → Option α) (default : α) : Option α :=
  match g.entries.lookup name with
  | none => some default
  | some v => read v

/-- A setting without a value of its own: in a table it may be missing, in a list it may not. -/
def Group.optional? (g : Group) (name : String) (read : Value → Option α) : Option (Option α) :=
  match g.entries.lookup name with
  | none => if g.inOrder then none else some none
  | some v => (read v).map some

def text? : Value → Option String
  | .text s => some s
  | _ => none

def texts? : Value → Option (List String)
  | .list items | .tables items => items.mapM text?
  | _ => none

def count? : Value → Option Nat
  | .whole (.ofNat n) => some n
  | _ => none

def compiler? (v : Value) : Option CompilerSettings := do
  let g ← group? ["command", "args", "timeout_ms"] v
  some {
    command := ← g.optional? "command" text?
    args := ← g.get? "args" texts? []
    timeout := ← g.optional? "timeout_ms" count? }

/-- The settings with those of the group `preview` . -/
def withPreview? (s : Settings) (v : Value) : Option Settings := do
  let g ← group? ["target", "binding"] v
  some { s with target := ← g.get? "target" text? s.target, binding := ← g.get? "binding" text? s.binding }

/-- The settings with those of the group `sandbox` . -/
def withSandbox? (s : Settings) (v : Value) : Option Settings := do
  let g ← group? ["memory_mb", "time_budget_ms"] v
  some { s with
    megabytes := ← g.get? "memory_mb" count? s.megabytes
    milliseconds := ← g.get? "time_budget_ms" count? s.milliseconds }

/-- The settings of a document. -/
def ofEntries? (entries : Entries) : Option Settings := do
  let s : Settings := {}
  let g : Group := { entries }
  let s ← g.get? "preview" s.withPreview? s
  let s ← g.get? "sandbox" s.withSandbox? s
  some { s with compiler := ← g.get? "compiler" compiler? {}, fallback := ← g.get? "fallback" compiler? {} }

/-- The settings that a text gives; none when it is no configuration or a setting is not of its kind. -/
def parse? (text : String) : Option Settings := (Toml.parse? text.toList).bind ofEntries?

/-- The text of a new configuration file. It gives every setting its default. -/
def defaultText : String :=
  "# Glimpse Configuration\n\n" ++
  "[preview]\n" ++
  "# Target runtime; only \"react\" can be previewed\n" ++
  "target = \"react\"\n\n" ++
  "# Name the UI runtime is visible under in compiled code\n" ++
  "binding = \"React\"\n\n" ++
  "[compiler]\n" ++
  "# Command that reads normalized JSX on stdin and prints compiled Luau,\n" ++
  "# or a JSON object \x7b \"code\": \"...\", \"error\": null, \"success\": true \x7d\n" ++
  "# command = \"jsx2luau\"\n" ++
  "args = []\n" ++
  "# timeout_ms = 10000\n\n" ++
  "[fallback]\n" ++
  "# Optional second compiler, used when the first is unreachable or rejects\n" ++
  "# command = \"\"\n\n" ++
  "[sandbox]\n" ++
  "# Heap limit per component VM\n" ++
  "memory_mb = 8\n\n" ++
  "# Time budget per evaluation, render or event handler\n" ++
  "time_budget_ms = 250\n"

end Settings
end LivePreview
