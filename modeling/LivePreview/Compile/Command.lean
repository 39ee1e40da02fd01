import LivePreview.Compile.Gateway
import LivePreview.Shell.Run
import LivePreview.Text.Utf8

/-! Compilers that are commands: the source goes in, and what comes out is an answer. -/
namespace LivePreview.Compile

/-- The answer of a finished compiler: the one that its output spells, or else the output as code when it
succeeded, and the words of its error output or its ending when it did not. -/
def Answer.ofText (ending : Shell.Ending) (output errors : String) : Answer :=
  let trimmed := Text.trim output.toList
  let spelled? := if trimmed.head? == some '{' then Answer.parse? trimmed else none
  match spelled? with
  | some answer => answer
  | none =>
    if ending.isSuccess then .compiled output
    else
      let message := Text.trim errors.toList
      if message.isEmpty then .failed ("Compiler exited with " ++ ending.message) else .failed (String.ofList message)

def Answer.ofFinished (p : Shell.Finished) : Answer :=
  .ofText p.ending (Text.decodeLossy p.output) (Text.decodeLossy p.errors)

/-- A compiler that is a command, and how many milliseconds it may take. -/
structure CommandCompiler where
  program : String
  args : List String := []
  timeout : Option Nat := none
deriving DecidableEq, Repr

namespace CommandCompiler

/-- The reply to a finished command. One that took all of its time is too late. -/
def replyTo (c : CommandCompiler) (p : Shell.Finished) : Reply :=
  match c.timeout with
  | some limit => if limit ≤ p.milliseconds then .error (.timeout limit) else .ok (.ofFinished p)
  | none => .ok (.ofFinished p)

/-- Runs the command on a source. -/
def reply (c : CommandCompiler) (source : String) : Reply :=
  match Shell.start c.program c.args source.toUTF8 with
  | .ok p => c.replyTo p
  | .error e => .error (.spawn c.program e.message)

end CommandCompiler
end LivePreview.Compile
