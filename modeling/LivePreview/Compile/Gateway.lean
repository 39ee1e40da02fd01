import LivePreview.Compile.Answer

/-! Gateways to compilers, alone or one behind another. -/
namespace LivePreview.Compile

/-- Why a compiler gives no answer. One that refuses the source does give one. -/
inductive GatewayError where
  | spawn (program cause : String)
  | io (cause : String)
  | timeout (milliseconds : Nat)
  | unavailable (cause : String)
deriving DecidableEq, Repr, Inhabited

def GatewayError.message : GatewayError → String
  | .spawn program cause => "Failed to start compiler '" ++ program ++ "': " ++ cause
  | .io cause => "Compiler I/O failed: " ++ cause
  | .timeout milliseconds => "Compiler did not respond within " ++ toString milliseconds ++ "ms"
  | .unavailable cause => "Compiler unavailable: " ++ cause

abbrev Reply := Except GatewayError Answer

/-- A compiler, or one with another behind it that is asked when the first has no code to give. -/
inductive Gateway (C : Type) where
  | compiler (c : C)
  | fallback (primary secondary : Gateway C)
deriving Inhabited

/-- What happens while a gateway is asked. -/
inductive GatewayEvent (C : Type) where
  | asked (c : C)
  /-- The first compiler refused the source. -/
  | rejected (reason : String)
  /-- The first compiler gave no answer. -/
  | unavailable (error : GatewayError)

namespace Gateway
variable {C : Type}

/-- Asks a gateway, given what each compiler replies: its reply and what happened, in order. -/
def ask (reply : C → Reply) : Gateway C → Reply × List (GatewayEvent C)
  | compiler c => (reply c, [.asked c])
  | fallback primary secondary =>
    let (first, events) := ask reply primary
    let again (why : GatewayEvent C) : Reply × List (GatewayEvent C) :=
      let (second, more) := ask reply secondary
      (second, events ++ why :: more)
    match first with
    | .ok answer =>
      if answer.success then (.ok answer, events)
      else again (.rejected (answer.error.getD Answer.defaultError))
    | .error e => again (.unavailable e)

end Gateway
end LivePreview.Compile
