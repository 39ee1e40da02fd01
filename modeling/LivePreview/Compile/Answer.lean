import LivePreview.Json.Parser
import LivePreview.Json.Printer

/-! Answers of a compiler, and their text on the wire: an object with the members `code`, `error` and `success`.

A reader asks for `success` alone, takes the members in any order, refuses one of them that comes twice, and passes
over all others. -/
namespace LivePreview.Compile

structure Answer where
  code : String := ""
  error : Option String := none
  success : Bool
deriving DecidableEq, Repr

/-- What an answer means: code to run, or the reason why there is none. -/
inductive Outcome where
  | compiled (code : String)
  | rejected (message : String)
deriving DecidableEq, Repr

namespace Answer

def compiled (code : String) : Answer := { code, success := true }

def failed (message : String) : Answer := { error := some message, success := false }

/-- The reason of a rejection that gives none. -/
def defaultError : String := "Compilation failed"

/-- The meaning of an answer. A blank reason counts as none. -/
def outcome (a : Answer) : Outcome :=
  if a.success then .compiled a.code
  else
    match a.error with
    | some e => .rejected (if Text.isBlankText e.toList then defaultError else e)
    | none => .rejected defaultError

/-- An answer as a JSON value. -/
def toJson (a : Answer) : Json :=
  .obj [("code", .str a.code), ("error", match a.error with | some e => .str e | none => .null),
    ("success", .bool a.success)]

/-- The text of an answer on the wire. -/
def wire (a : Answer) : String := a.toJson.compact

/-! ### Reading -/

/-- A member of an answer. -/
inductive Member where
  | code (s : String)
  | error (s : Option String)
  | success (b : Bool)
  | other

/-- The text of a string value, or null. -/
def optionalText? (s : List Char) : Option (Option String × List Char) :=
  match s with
  | 'n' :: _ => (Json.word? "null" s).map fun r => (none, r)
  | s => (Json.string? true s).map fun (t, r) => (some t, r)

def truth? (s : List Char) : Option (Bool × List Char) :=
  match Json.word? "true" s with
  | some r => some (true, r)
  | none => (Json.word? "false" s).map fun r => (false, r)

/-- The value of the member with a name. -/
def memberValue? (name : String) (s : List Char) : Option (Member × List Char) :=
  match name with
  | "code" => (Json.string? true s).map fun (t, r) => (.code t, r)
  | "error" => (optionalText? s).map fun (t, r) => (.error t, r)
  | "success" => (truth? s).map fun (b, r) => (.success b, r)
  | _ => (Json.skipValue? s).map fun r => (.other, r)

/-- A name, a colon and the value that the name asks for. -/
def member? (s : List Char) : Option (Member × List Char) := do
  let (name, r) ← Json.string? true s
  match Json.skipSpace r with
  | ':' :: r => memberValue? name (Json.skipSpace r)
  | _ => none

/-- What has been read of an answer. -/
structure Draft where
  code : Option String := none
  error : Option (Option String) := none
  success : Option Bool := none

def Draft.add? (d : Draft) : Member → Option Draft
  | .code s => if d.code.isSome then none else some { d with code := some s }
  | .error s => if d.error.isSome then none else some { d with error := some s }
  | .success b => if d.success.isSome then none else some { d with success := some b }
  | .other => some d

def Draft.answer? (d : Draft) : Option Answer :=
  d.success.map fun success => { code := d.code.getD "", error := d.error.getD none, success }

/-- The three members of an answer in order, without their names. -/
def positional? (s : List Char) : Option (Answer × List Char) := do
  let comma? (s : List Char) : Option (List Char) := match Json.skipSpace s with
    | ',' :: r => some (Json.skipSpace r)
    | _ => none
  let (code, r) ← Json.string? true (Json.skipSpace s)
  let (error, r) ← optionalText? (← comma? r)
  let (success, r) ← truth? (← comma? r)
  match Json.skipSpace r with
  | ']' :: r => some ({ code, error, success }, r)
  | _ => none

/-- The answer that a whole text holds. -/
def parse? (text : List Char) : Option Answer := do
  let (answer, r) ← match Json.skipSpace text with
    | '{' :: r => do
      let (members, r) ← Json.bracketed? '}' member? r
      let draft ← members.foldlM Draft.add? {}
      some (← draft.answer?, r)
    | '[' :: r => positional? r
    | _ => none
  if (Json.skipSpace r).isEmpty then some answer else none

end Answer
end LivePreview.Compile
