/-! JSON values.

Objects keep their members in the order they were written. Whole numbers stay exact; every other number is a
64-bit float. -/
namespace LivePreview

inductive Json where
  | null
  | bool (b : Bool)
  | int (n : Int)
  | num (x : Float)
  | str (s : String)
  | arr (items : List Json)
  | obj (members : List (String × Json))
deriving Inhabited

namespace Json

/-- The member with a name; of several the last one counts. -/
def get? (j : Json) (name : String) : Option Json :=
  match j with
  | .obj members => (members.reverse.find? (·.1 == name)).map (·.2)
  | _ => none

/-- The text of a string value. -/
def asString? : Json → Option String
  | .str s => some s
  | _ => none

/-- The items of an array. -/
def asArray? : Json → Option (List Json)
  | .arr items => some items
  | _ => none

/-- The members of an object. -/
def asObject? : Json → Option (List (String × Json))
  | .obj members => some members
  | _ => none

/-- A natural number. -/
def asNat? : Json → Option Nat
  | .int (.ofNat n) => some n
  | _ => none

def isNull : Json → Bool
  | .null => true
  | _ => false

end Json
end LivePreview
