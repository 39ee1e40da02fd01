import LivePreview.Script.Machine

/-! Arguments of host functions. Each is converted to what the function needs, in order, and the first that cannot
be is the fault. -/
namespace LivePreview.Script

/-- The words for a value that is not what the host needs. -/
def conversionText (v : Value) (target : String) : String :=
  "error converting Lua " ++ v.hostTypeName ++ " to " ++ target

namespace Value

/-- The text of a string or number, or why there is none. -/
def hostText (v : Value) : Except String String :=
  match v.asBytes? with
  | none => .error (conversionText v "String" ++ " (expected string or number)")
  | some s =>
    match Text.utf8Complaint? s with
    | none => .ok (Text.decodeLossy s)
    | some why => .error (conversionText v "String" ++ " (" ++ why ++ ")")

/-- Equality as the host sees it: a caught fault differs even from itself. -/
def equals (a b : Value) : Bool :=
  match a with
  | .failure _ => false
  | a => a.same b

end Value

namespace Run

/-- The argument with a number, counted from 1. -/
def argument (args : List Value) (i : Nat) : Value := args.getD (i - 1) .nil

def functionArgument (args : List Value) (i : Nat) : Run Value :=
  match argument args i with
  | .func place => return .func place
  | v => fault (.argument i (conversionText v "function"))

/-- A function or nothing. -/
def optionalFunction (args : List Value) (i : Nat) : Run (Option Value) :=
  if (argument args i).isNil then return none else some <$> functionArgument args i

/-- The place of a table, or nothing. -/
def optionalTable (args : List Value) (i : Nat) : Run (Option Nat) :=
  match argument args i with
  | .nil => return none
  | .table place => return some place
  | v => fault (.argument i (conversionText v "table"))

def textArgument (args : List Value) (i : Nat) : Run String :=
  match (argument args i).hostText with
  | .ok s => return s
  | .error why => fault (.argument i why)

end Run
end LivePreview.Script
