import LivePreview.Preview.Board
import LivePreview.Surface.Stage

/-! A preview session: a board, the components built for it, and the surface they are mounted on. -/
namespace LivePreview.Preview
open Script

structure Session where
  binding : Binding := {}
  limits : Limits := {}
  /-- The board shows components by their number on the stage. -/
  board : Board Nat := {}
  stage : Stage := {}

namespace Session

/-- Makes the code of a run into a component, when that is due. -/
def build (s : Session) (i : Nat) : Session :=
  match s.board.progress? i with
  | some (.building _ name code) =>
    let attempt := Component.attempt s.binding s.limits code name
    let result := match attempt.result with
      | .ok _ => .ok s.stage.components.size
      | .error e => .error e.message
    { s with board := s.board.step (.built i result), stage := s.stage.add attempt }
  | _ => s

/-- Takes a run as far as it goes without the compiler. -/
def advance (s : Session) (i : Nat) : Session :=
  let s := { s with board := s.board.run [.start i, .verify i] }.build i
  { s with board := s.board.step (.settle i) }

/-- Hands in a submission, up to its first write; its number is the second part. -/
def submit (s : Session) (submission : Submission) : Session × Nat :=
  let i := s.board.entries.size
  ({ s with board := s.board.run [.handIn submission, .check i, .number i, .announce i] }, i)

/-- The generation that a submission was told. One that was ignored is told the latest. -/
def generationOf (s : Session) (i : Nat) : Nat :=
  ((s.board.progress? i).bind (·.generation?)).getD s.board.generation

/-- Whether a submission came to its end with its first write, or without one. -/
def isImmediate (s : Session) (i : Nat) : Bool :=
  match s.board.progress? i with
  | some .ignored | some (.settled _) => true
  | _ => false

/-- The source that waits for the compiler. -/
def pending? (s : Session) (i : Nat) : Option String :=
  match s.board.progress? i with
  | some (.asked _ _ source) => some source
  | _ => none

/-- The compiler replies to a run, which then goes to its end. -/
def reply (s : Session) (i : Nat) (reply : Compile.Reply) : Session :=
  { s with board := s.board.step (.reply i reply) }.advance i

def breakOff (s : Session) (i : Nat) : Session := { s with board := s.board.step (.breakOff i) }

/-- Takes the board down. -/
def unmount (s : Session) : Session := { s with board := s.board.run [.close, .retire] }

/-- Mounts the component that is ready, if one is. -/
def render (invoke : Invoke) (props : Json) (s : Session) : Option Session :=
  match s.board.state with
  | .ready i => (s.stage.mount? invoke i props).map fun stage => { s with stage }
  | _ => none

end Session
end LivePreview.Preview
