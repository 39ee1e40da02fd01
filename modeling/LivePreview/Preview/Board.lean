import LivePreview.Compile.Gateway
import LivePreview.Preview.Submission
import LivePreview.Source.ComponentName
import LivePreview.Source.Plain

/-! The board that submissions share: the newest one decides what it shows.

Every submission that is taken gets the next generation. Its run goes through small steps, and the steps of
several runs may come in any order. A run writes to the board only while its generation is still the latest and
the board is mounted: the check and the write are one step. Runs that were overtaken go on, but nobody sees what
they find. -/
namespace LivePreview.Preview
open Compile

inductive FailureKind where
  | unsupportedTarget
  | emptyInput
  | identifierNotFound
  | compilationFailed
  | instantiationFailed
deriving DecidableEq, Repr

def FailureKind.label : FailureKind → String
  | unsupportedTarget => "unsupported target"
  | emptyInput => "empty input"
  | identifierNotFound => "identifier not found"
  | compilationFailed => "compilation failed"
  | instantiationFailed => "instantiation failed"

/-- What the board shows; `H` is the type of built components. -/
inductive State (H : Type) where
  | idle
  | compiling
  | ready (component : H)
  | failed (kind : FailureKind) (message : String)
deriving DecidableEq, Repr

namespace State
variable {H : Type}

def phase : State H → String
  | idle => "Idle"
  | compiling => "Compiling"
  | ready _ => "Ready"
  | failed _ _ => "Failed"

/-- Whether a run has come to its end. -/
def isSettled : State H → Bool
  | ready _ | failed _ _ => true
  | _ => false

def unsupported (tag : String) : State H :=
  failed .unsupportedTarget
    ("Target runtime '" ++ tag ++ "' is not supported; only React components can be previewed")

def empty : State H := failed .emptyInput "No code provided"

def nameless : State H :=
  failed .identifierNotFound
    ("Could not find a component name. Declare it as `const Name = ...`, `function Name(...)` or " ++
      "`export default Name`.")

end State

/-- How far a submission has come. -/
inductive Progress (H : Type) where
  /-- Handed in; it has not been looked whether the board is mounted. -/
  | handedIn
  /-- The board was mounted; no generation is taken yet. -/
  | admitted
  /-- The board was not mounted. -/
  | ignored
  /-- The generation is taken; nothing is written yet. -/
  | numbered (generation : Nat)
  /-- The first write is done; the source has not been looked at. -/
  | announced (generation : Nat)
  /-- The compiler was asked. -/
  | asked (generation : Nat) (name source : String)
  /-- The compiler gave code; it has not been looked whether the run is still the latest. -/
  | compiled (generation : Nat) (name code : String)
  /-- The code is being made into a component. -/
  | building (generation : Nat) (name code : String)
  /-- The result is there but not written. -/
  | finishing (generation : Nat) (result : State H)
  | settled (generation : Nat)
  /-- The run broke off without a result. -/
  | broken (generation : Nat)
deriving DecidableEq, Repr

namespace Progress
variable {H : Type}

/-- The generation of a submission that has taken one. -/
def generation? : Progress H → Option Nat
  | handedIn | admitted | ignored => none
  | numbered g | announced g | asked g _ _ | compiled g _ _ | building g _ _ | finishing g _ | settled g | broken g =>
    some g

end Progress

structure Entry (H : Type) where
  submission : Submission
  progress : Progress H := .handedIn
deriving DecidableEq, Repr

/-- What happens on a board apart from what it shows. -/
inductive BoardEvent where
  | ignored
  | compiling (generation : Nat) (component : String) (bytes : Nat)
  | dropped (generation : Nat)
  | settled (generation : Nat) (phase : String)
  | unmounted

structure Board (H : Type) where
  state : State H := .idle
  /-- How often the state was written. -/
  version : Nat := 0
  generation : Nat := 0
  mounted : Bool := true
  entries : Array (Entry H) := #[]
  /-- The sources sent to the compiler, with the submissions they came from. -/
  calls : Array (Nat × String) := #[]
  /-- How many times the board was taken down without a new generation yet. -/
  closing : Nat := 0
  events : Array BoardEvent := #[]

/-- A small step; the steps of a run name the submission by its number. -/
inductive Step (H : Type) where
  | handIn (submission : Submission)
  | check (i : Nat)
  | number (i : Nat)
  | announce (i : Nat)
  | start (i : Nat)
  | reply (i : Nat) (reply : Reply)
  /-- The compiler call breaks off. -/
  | breakOff (i : Nat)
  | verify (i : Nat)
  /-- The code has become a component, or there is a reason why it has not. -/
  | built (i : Nat) (result : Except String H)
  | settle (i : Nat)
  | close
  | retire

namespace Board
variable {H : Type}

/-- The generation after another one; generations are counted in 64 bits. -/
def nextGeneration (generation : Nat) : Nat := (generation + 1) % Nat.pow 2 64

/-- Whether a generation may write. -/
def isLive (b : Board H) (generation : Nat) : Bool := b.mounted && b.generation == generation

/-- Writes a state in the name of a generation, if that may write. -/
def commit (b : Board H) (generation : Nat) (next : State H) : Board H :=
  if b.isLive generation then { b with state := next, version := b.version + 1 }
  else { b with events := b.events.push (.dropped generation) }

/-- How far a submission has come. -/
def progress? (b : Board H) (i : Nat) : Option (Progress H) := b.entries[i]?.map (·.progress)

/-- Moves a submission on. -/
def move (b : Board H) (i : Nat) (progress : Progress H) : Board H :=
  { b with entries := b.entries.modify i fun e => { e with progress } }

def note (b : Board H) (event : BoardEvent) : Board H := { b with events := b.events.push event }

/-- The first write of a submission: its failure when it cannot be compiled, else that it is being compiled. -/
def announce (b : Board H) (i generation : Nat) (s : Submission) : Board H :=
  match s.target with
  | .unsupported tag => (b.commit generation (.unsupported tag)).move i (.settled generation)
  | .react =>
    if Text.isBlankText s.text.toList then (b.commit generation .empty).move i (.settled generation)
    else (b.commit generation .compiling).move i (.announced generation)

/-- Looks at the source of a submission: without a component name it fails, else the compiler is asked. -/
def start (b : Board H) (i generation : Nat) (s : Submission) : Board H :=
  match Source.componentName? s.text.toList with
  | none => b.move i (.finishing generation .nameless)
  | some found =>
    let name := String.ofList found.name
    let source := String.ofList (Source.normalize s.text.toList)
    { (b.note (.compiling generation name source.utf8ByteSize)).move i (.asked generation name source) with
      calls := b.calls.push (i, source) }

/-- What a reply makes of the run that waits for it. -/
def afterReply (generation : Nat) (name : String) (reply : Reply) : Progress H :=
  match reply with
  | .error e => .finishing generation (.failed .compilationFailed e.message)
  | .ok answer =>
    match answer.outcome with
    | .compiled code => .compiled generation name code
    | .rejected message => .finishing generation (.failed .compilationFailed message)

/-- The last write of a run. -/
def settle (b : Board H) (i generation : Nat) (result : State H) : Board H :=
  let live := b.isLive generation
  let b := (b.commit generation result).move i (.settled generation)
  if live then b.note (.settled generation result.phase) else b

/-- One small step. A step that is not due changes nothing. -/
def step (b : Board H) (step : Step H) : Board H :=
  match step with
  | .handIn submission => { b with entries := b.entries.push { submission } }
  | .check i =>
    match b.progress? i with
    | some .handedIn => if b.mounted then b.move i .admitted else (b.note .ignored).move i .ignored
    | _ => b
  | .number i =>
    match b.progress? i with
    | some .admitted =>
      let generation := nextGeneration b.generation
      { b.move i (.numbered generation) with generation }
    | _ => b
  | .announce i =>
    match b.entries[i]? with
    | some ⟨s, .numbered generation⟩ => b.announce i generation s
    | _ => b
  | .start i =>
    match b.entries[i]? with
    | some ⟨s, .announced generation⟩ => b.start i generation s
    | _ => b
  | .reply i reply =>
    match b.progress? i with
    | some (.asked generation name _) => b.move i (afterReply generation name reply)
    | _ => b
  | .breakOff i =>
    match b.progress? i with
    | some (.asked generation _ _) => b.move i (.broken generation)
    | _ => b
  | .verify i =>
    match b.progress? i with
    | some (.compiled generation name code) =>
      if b.isLive generation then b.move i (.building generation name code)
      else b.move i (.finishing generation .compiling)
    | _ => b
  | .built i result =>
    match b.progress? i with
    | some (.building generation _ _) =>
      match result with
      | .ok component => b.move i (.finishing generation (.ready component))
      | .error message => b.move i (.finishing generation (.failed .instantiationFailed message))
    | _ => b
  | .settle i =>
    match b.progress? i with
    | some (.finishing generation result) => b.settle i generation result
    | _ => b
  | .close => { b with mounted := false, closing := b.closing + 1 }
  | .retire =>
    if b.closing == 0 then b
    else ({ b with generation := nextGeneration b.generation, closing := b.closing - 1 }).note .unmounted

/-- Steps one after another. -/
def run (b : Board H) (steps : List (Step H)) : Board H := steps.foldl Board.step b

end Board
end LivePreview.Preview
