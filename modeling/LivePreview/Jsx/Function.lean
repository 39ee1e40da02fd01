import LivePreview.Jsx.Reader

/-! Functions and classes of markup scripts. -/
namespace LivePreview.Jsx
open Reader

/-! ### Patterns and parameters -/

/-- Whether a rest stands at the end only, with no comma after it. -/
def restIsLast (trailing : Bool) : List Bool → Bool
  | [] => true
  | [r] => !(r && trailing)
  | r :: more => !r && restIsLast trailing more

/-- A pattern with a default or without. -/
def bindingPart (g : Grammar) : Reader (List String) := do
  let s ← g.binding
  if ← sign? "=" then (g.withIn true).value
  return s.names

/-- Items where three dots may stand before the last one: the variables they declare. -/
def partsUpTo (close : String) (rest part : Reader (List String)) (g : Grammar) : Reader (List (List String)) := do
  let (parts, trailing) ← items close
    (do if ← sign? "..." then return (true, ← rest) else return (false, ← part)) g.limit
  require (restIsLast trailing (parts.map (·.1)))
  return parts.map (·.2)

/-- The name of a property. A word or a string is known, a number or an expression is not. -/
def propertyName (g : Grammar) : Reader (Option String) := do
  match ← lexeme with
  | .word s _ | .str s =>
    advance
    return some s
  | .num =>
    advance
    return none
  | .sign "[" =>
    advance
    (g.withIn true).value
    sign "]"
    return none
  | _ => failure

/-- Whether a property can start with this token. -/
def startsProperty : Lexeme → Bool
  | .word _ _ | .secret _ | .str _ | .num => true
  | s => s == .sign "["

/-- A part of an object pattern. -/
def bindingProperty (g : Grammar) : Reader (List String) := do
  let short := g.isVariable (← lexeme) && (← next).1 != .sign ":"
  if short then bindingPart g
  else
    let _ ← propertyName g
    sign ":"
    bindingPart g

/-- A pattern that declares variables. -/
def bindingPattern (g : Grammar) : Reader Shape := do
  if ← sign? "[" then
    let part : Reader (List String) := do if ← atSign "," then return [] else bindingPart g
    let parts ← partsUpTo "]" (return (← g.binding).names) part g
    return { names := parts.flatten }
  else if ← sign? "\x7b" then
    let parts ← partsUpTo "\x7d" (return [← g.name]) (bindingProperty g) g
    return { names := parts.flatten }
  else return { Shape.ofName with names := [← g.name] }

/-- The parameters of a function: whether each is a rest. -/
def parameters (g : Grammar) : Reader (List Bool) := do
  sign "("
  let g := g.withIn true
  let (ps, trailing) ← items ")"
    (do
      if ← sign? "..." then
        let _ ← g.binding
        return true
      else
        let _ ← bindingPart g
        return false) g.limit
  require (restIsLast trailing ps)
  return ps

/-! ### Functions -/

/-- How a function runs. -/
structure Manner where
  isAsync : Bool := false
  isGenerator : Bool := false

/-- The place inside a function. -/
def Manner.context (m : Manner) : Context := ⟨m.isAsync, m.isGenerator, true, true⟩

/-- The parameters and the body of a function, with what the parameters are. -/
def functionRest (g : Grammar) (m : Manner) : Reader (List Bool) := do
  let g := g.within m.context
  let ps ← parameters g
  g.block
  return ps

/-- The star of a generator, if there is one. -/
def manner (isAsync : Bool) : Reader Manner := do return ⟨isAsync, ← sign? "*"⟩

/-- A function from the word `function` on, its name read at the place that the caller says; a name is wanted or
not. -/
def functionFrom (g : Grammar) (isAsync : Bool) (nameContext : Manner → Context) (named : Bool) :
    Reader (List String) := do
  word "function"
  let m ← manner isAsync
  let outer := g.within (nameContext m)
  let names ← if outer.isVariable (← lexeme) then pure [← outer.name] else do
    require (!named)
    pure []
  let _ ← functionRest g m
  return names

/-- A function that stands for a value. -/
def functionValue (g : Grammar) (isAsync : Bool) : Reader Unit := do
  let _ ← functionFrom g isAsync Manner.context false

/-- Whether an asynchronous function starts here. -/
def atAsyncFunction : Reader Bool := do
  return (← atWord "async") && (← next) == (.word "function" false, false)

/-- A function that declares its name. -/
def functionDeclaration (g : Grammar) (named : Bool) : Reader (List String) := do
  let isAsync ← atAsyncFunction
  if isAsync then advance
  functionFrom g isAsync (fun _ => g.context) named

/-- What is read or written by a member: nothing, for a plain one. -/
inductive Accessor where
  | plain
  | getter
  | setter
deriving BEq

/-- Whether a function with these parameters can be the accessor. -/
def Accessor.accepts : Accessor → List Bool → Bool
  | .plain, _ => true
  | .getter, ps => ps.isEmpty
  | .setter, ps => ps == [false]

/-- What stands before the name of a member that is a function. -/
structure Method where
  manner : Manner
  accessor : Accessor

def Method.isPlain (m : Method) : Bool := !m.manner.isAsync && !m.manner.isGenerator && m.accessor == .plain

/-- The words and signs before the name of a member. -/
def method : Reader Method := do
  let (n, newline) ← next
  if (← atWord "async") && !newline && (startsProperty n || n == .sign "*") then
    advance
    return ⟨← manner true, .plain⟩
  if ← sign? "*" then return ⟨⟨false, true⟩, .plain⟩
  if startsProperty n then
    if ← word? "get" then return ⟨{}, .getter⟩
    if ← word? "set" then return ⟨{}, .setter⟩
  return ⟨{}, .plain⟩

/-- The parameters and the body of a member. -/
def methodRest (g : Grammar) (m : Method) : Reader Unit := do
  require (m.accessor.accepts (← functionRest g m.manner))

/-! ### Classes -/

/-- The place of the first value of a field, and of a block that a class runs. -/
def fieldContext : Context := ⟨false, false, false, true⟩

/-- Whether a member can have this name. Only a plain function builds the objects of a class, and a class has its
prototype already. -/
def allowsName (isStatic isMethod : Bool) (m : Method) (name : Option String) : Bool :=
  !(name == some "constructor" && !(isMethod && (isStatic || m.isPlain))) &&
    !(name == some "prototype" && isStatic)

/-- What comes before the `static` of a member. -/
def staticWord : Reader Bool := do
  let n := (← next).1
  if (← atWord "static") && (startsProperty n || n == .sign "*") then
    advance
    return true
  else return false

/-- The word before a field that is kept behind a getter and a setter. -/
def accessorWord : Reader Bool := do
  let (n, newline) ← next
  if (← atWord "accessor") && startsProperty n && !newline then
    advance
    return true
  else return false

/-- The functions that stand before a class or a member, and whether there are any. -/
def decorators (g : Grammar) : Reader Bool := do
  let found ← atSign "@"
  loop (do
    if ← sign? "@" then
      require (← g.read .decorator).isValue
      return true
    else return false) g.limit
  return found

/-- A member of a class. -/
def classMember (g : Grammar) : Reader Unit := do
  if ← sign? ";" then return
  let _ ← decorators g
  if (← atWord "static") && (← next).1 == .sign "\x7b" then
    advance
    (g.within fieldContext).block
    return
  let isStatic ← staticWord
  let kept ← accessorWord
  let m ← method
  let name ← match ← lexeme with
    | .secret s => do
      require (s != "constructor")
      advance
      pure none
    | _ => propertyName g
  let isMethod := (← atSign "(") && !kept
  require (allowsName isStatic isMethod m name)
  if isMethod then methodRest g m
  else
    require m.isPlain
    if ← sign? "=" then (g.within fieldContext).value
    semicolon

/-- The base and the members of a class. -/
def classRest (g : Grammar) : Reader Unit := do
  if ← word? "extends" then require (← g.read .operand).isValue
  sign "\x7b"
  loop (do
    if ← sign? "\x7d" then return false
    classMember g
    return true) g.limit

/-- A class from the word `class` on, and the name it declares; a name is wanted or not. -/
def classFrom (g : Grammar) (named : Bool) : Reader (List String) := do
  word "class"
  let names ← if g.isVariable (← lexeme) && !(← atWord "implements") then pure [← g.name] else do
    require (!named)
    pure []
  classRest g
  return names

end LivePreview.Jsx
