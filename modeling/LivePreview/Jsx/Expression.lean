import LivePreview.Jsx.Function

/-! Expressions of markup scripts. -/
namespace LivePreview.Jsx
open Reader

/-! ### Templates and arguments -/

/-- The rest of a template, its first backtick being the token at hand. A template on its own has sound escapes
only; one behind a function need not. -/
def template (g : Grammar) (tagged : Bool) : Reader Unit := do
  let piece : Reader Bool := do
    match templatePiece? (← get).after with
    | none => failure
    | some p =>
      require (tagged || p.sound)
      moveTo p.rest
      if p.last then return false
      (g.withIn true).expression
      require (← atSign "\x7d")
      return true
  loop piece g.limit

/-- A value in a list, with three dots before it or without. -/
def spreadValue (g : Grammar) : Reader Unit := do
  let _ ← sign? "..."
  g.value

/-- The arguments of a call. -/
def arguments (g : Grammar) : Reader Unit := do
  sign "("
  let _ ← items ")" (spreadValue (g.withIn true)) g.limit

/-! ### Lists and objects -/

/-- A part of a list or an object that may turn out to be assigned to. -/
structure Part where
  isValue : Bool := true
  isTarget : Bool := false
  isRest : Bool := false

/-- A list or an object of these parts. -/
def Shape.ofParts (parts : List Part) (trailing : Bool) : Shape :=
  let target := parts.all (·.isTarget) && restIsLast trailing (parts.map (·.isRest))
  { isValue := parts.all (·.isValue), isTarget := target, isPart := target }

/-- A list, whose items may be left out. -/
def list (g : Grammar) : Reader Shape := do
  sign "["
  let g := g.withIn true
  let (parts, trailing) ← items "]"
    (do
      if ← atSign "," then return { isTarget := true }
      else if ← sign? "..." then
        let s ← g.read .assignment
        return { isValue := s.isValue, isTarget := s.isTarget, isRest := true }
      else
        let s ← g.read .assignment
        return { isValue := s.isValue, isTarget := s.isPart }) g.limit
  return .ofParts parts trailing

/-- Whether a variable at hand is a property of its own name. -/
def atShortProperty (g : Grammar) : Reader Bool := do
  let n := (← next).1
  return g.isVariable (← lexeme) && (n == .sign "," || n == .sign "\x7d" || n == .sign "=")

/-- A property of an object. One with a default of its own is no value yet. -/
def property (g : Grammar) : Reader Part := do
  if ← sign? "..." then
    let s ← g.read .assignment
    return { isValue := s.isValue, isTarget := s.isPlace, isRest := true }
  if ← atShortProperty g then
    let _ ← g.name
    if ← sign? "=" then
      g.value
      return { isValue := false, isTarget := true }
    return { isTarget := true }
  let m ← method
  let _ ← propertyName g
  if ← atSign "(" then
    methodRest g m
    return {}
  require m.isPlain
  sign ":"
  let s ← g.read .assignment
  return { isValue := s.isValue, isTarget := s.isPart }

/-- An object. -/
def object (g : Grammar) : Reader Shape := do
  sign "\x7b"
  let (parts, trailing) ← items "\x7d" (property (g.withIn true)) g.limit
  return .ofParts parts trailing

/-! ### Operands -/

/-- A value in parentheses. -/
def enclosed (g : Grammar) : Reader Shape := do
  sign "("
  let s ← (g.withIn true).read .expression
  require s.isValue
  sign ")"
  return s.enclosed

/-- A regular expression, read anew from its first slash. -/
def regex : Reader Unit := do
  match regex? ((← get).start.drop 1) with
  | some rest => moveTo rest
  | none => failure

/-- The import of a module where a value is wanted, with what it is called with, or what is known of the script. -/
def importValue (g : Grammar) : Reader Unit := do
  word "import"
  if ← sign? "." then word "meta"
  else
    sign "("
    let g := g.withIn true
    g.value
    unless ← sign? ")" do
      sign ","
      unless ← sign? ")" do
        g.value
        let _ ← sign? ","
        sign ")"

/-- A base of objects, whose members or call follow. -/
def superValue : Reader Unit := do
  word "super"
  require ((← atSign ".") || (← atSign "[") || (← atSign "("))

/-- A new object, or what the function around was called with. -/
def newObject (g : Grammar) : Reader Unit := do
  word "new"
  if ← sign? "." then word "target"
  else
    require !((← atWord "import") && (← next).1 == .sign "(")
    require (← g.read .callee).isValue
    if ← atSign "(" then arguments g

/-- What stands behind an operand: whether it is a part of a chain that may end early. -/
structure Chain where
  shape : Shape
  mayEnd : Bool := false

/-- A member or a call behind an operand, or nothing. -/
def link? (g : Grammar) (calls computed : Bool) (c : Chain) : Reader (Option Chain) := do
  let member (mayEnd : Bool) : Chain := ⟨Shape.ofPlace !mayEnd, mayEnd⟩
  let named : Reader Unit := do
    match ← lexeme with
    | .word _ _ | .secret _ => advance
    | _ => failure
  let indexed : Reader Unit := do
    sign "["
    (g.withIn true).expression
    sign "]"
  match ← lexeme with
  | .sign "." =>
    require c.shape.isValue
    advance
    named
    return some (member c.mayEnd)
  | .sign "?." =>
    require (calls && c.shape.isValue)
    advance
    if ← atSign "[" then indexed
    else if ← atSign "(" then arguments g
    else named
    return some (member true)
  | .sign "[" =>
    if computed then
      require c.shape.isValue
      indexed
      return some (member c.mayEnd)
    else return none
  | .sign "(" =>
    if calls then
      require c.shape.isValue
      arguments g
      return some ⟨{}, c.mayEnd⟩
    else return none
  | .sign "`" =>
    require (c.shape.isValue && !c.mayEnd)
    template g true
    return some ⟨{}, false⟩
  | _ => return none

/-- Members and calls behind an operand, as many as there are; at most `n`. -/
def links (g : Grammar) (calls computed : Bool) : Nat → Chain → Reader Shape
  | 0, _ => failure
  | n + 1, c => do
    match ← link? g calls computed c with
    | none => return c.shape
    | some c => links g calls computed n c

/-- A value without what stands behind it. -/
def primary (g : Grammar) : Reader Shape := do
  match ← lexeme with
  | .num | .str _ =>
    advance
    return {}
  | .sign "(" => enclosed g
  | .sign "[" => list g
  | .sign "\x7b" => object g
  | .sign "`" =>
    template g false
    return {}
  | .sign "<" =>
    let _ ← g.read .element
    advance
    return {}
  | .sign "/" | .sign "/=" =>
    regex
    return {}
  | .sign "@" | .word "class" false =>
    let _ ← decorators g
    let _ ← classFrom g false
    return {}
  | .word "this" false | .word "null" false | .word "true" false | .word "false" false =>
    advance
    return {}
  | .word "function" false =>
    functionValue g false
    return {}
  | .word "new" false =>
    newObject g
    return {}
  | .word "super" false =>
    superValue
    return {}
  | .word "import" false =>
    importValue g
    return {}
  | _ =>
    if ← atAsyncFunction then
      advance
      functionValue g true
      return {}
    else
      let _ ← g.name
      return Shape.ofName

/-- A value with what stands behind it: members, in brackets if `computed`, and calls if `calls`. -/
def operand (g : Grammar) (calls computed : Bool) : Reader Shape := do
  links g calls computed g.limit ⟨← primary g, false⟩

/-! ### Operators -/

/-- The level of an operator between two values; those of a higher level hold tighter. -/
def operatorLevel? : Lexeme → Option Nat
  | .sign s =>
    match s with
    | "??" => some 1
    | "||" => some 2
    | "&&" => some 3
    | "|" => some 4
    | "^" => some 5
    | "&" => some 6
    | "==" | "!=" | "===" | "!==" => some 7
    | "<" | ">" | "<=" | ">=" => some 8
    | "<<" | ">>" | ">>>" => some 9
    | "+" | "-" => some 10
    | "*" | "/" | "%" => some 11
    | "**" => some 12
    | _ => none
  | .word "in" false | .word "instanceof" false => some 8
  | _ => none

/-- The level of powers, which hold to the right. -/
def powerLevel : Nat := 12

/-- The signs that start with `>` , longer ones first. -/
def angleSigns : List String := [">>>=", ">>>", ">>=", ">>", ">=", ">"]

/-- Reads the signs that start with `>` whole. -/
def wholeAngle : Reader Unit := do
  let c ← get
  if c.lexeme == .sign ">" then
    match angleSigns.find? (·.toList.isPrefixOf c.start) with
    | some s => set { c with lexeme := .sign s, after := c.start.drop s.length }
    | none => pure ()

/-- Whether two values may be joined: a power has no operator before its base, and a choice of what is there is not
mixed with other choices. -/
def canJoin (op : Lexeme) (left right : Shape) : Bool :=
  left.isValue && right.isValue && !(op == .sign "**" && left.isPrefixed) &&
    !(op == .sign "??" && (left.isChoice || right.isChoice))

/-- The operators behind a value that hold tighter than a level, with the values behind them; at most `n`. -/
def joins (g : Grammar) (level : Nat) : Nat → Shape → Reader Shape
  | 0, _ => failure
  | n + 1, left => do
    wholeAngle
    let op ← lexeme
    match operatorLevel? op with
    | none => return left
    | some l =>
      if l < level || (l == level && l != powerLevel) || (op == .word "in" false && !g.context.hasIn) then
        return left
      advance
      let right ← g.read (.binary l)
      require (canJoin op left right)
      joins g level n { isChoice := op == .sign "||" || op == .sign "&&" }

/-- A private name that is looked for in an object. -/
def secretIn (g : Grammar) (level : Nat) : Reader Shape := do
  advance
  require (g.context.hasIn && level < 8 && (← atWord "in"))
  return {}

/-- An expression of operators that hold tighter than a level. -/
def binary (g : Grammar) (level : Nat) : Reader Shape := do
  let left ← match ← lexeme with
    | .secret _ => secretIn g level
    | _ => g.read .unary
  joins g level g.limit left

/-- A value with `++` or `--` behind it, or without. -/
def postfixed (g : Grammar) : Reader Shape := do
  let s ← g.read .operand
  if ((← atSign "++") || (← atSign "--")) && !(← newline) then
    require s.isPlace
    advance
    return {}
  else return s

/-- Whether `await` is an operator here. -/
def atAwait (g : Grammar) : Reader Bool := do
  return g.context.awaits && (← atWord "await") && (← next).1 != .sign "=>"

/-- A value with the operators before it. -/
def unary (g : Grammar) : Reader Shape := do
  let t ← lexeme
  if t == .sign "++" || t == .sign "--" then
    advance
    require (← g.read .unary).isPlace
    return {}
  let isOperator := match t with
    | .sign s => ["!", "~", "+", "-"].contains s
    | .word w false => ["typeof", "void", "delete"].contains w
    | _ => false
  if isOperator || (← atAwait g) then
    advance
    require (← g.read .unary).isValue
    return { isPrefixed := true }
  postfixed g

/-! ### Assignments, functions with arrows, and lists of expressions -/

/-- What follows the parameters of a function with an arrow. -/
def arrowRest (g : Grammar) (isAsync : Bool) : Reader Unit := do
  require (!(← newline))
  sign "=>"
  let inner : Context := ⟨isAsync, false, true, g.context.hasIn⟩
  if ← atSign "\x7b" then (g.within inner).block else (g.within { inner with returns := g.context.returns }).value

/-- The parameters of a function with an arrow, up to the arrow. -/
def arrowHead (g : Grammar) : Reader Unit := do
  let _ ← parameters g
  require (!(← newline) && (← atSign "=>"))

/-- The same for one that is asynchronous, from the word `async` on; a single parameter needs no parentheses. -/
def asyncArrowHead (g : Grammar) : Reader Unit := do
  let g := g.within { g.context with awaits := true }
  word "async"
  require (!(← newline))
  if ← atSign "(" then arrowHead g
  else
    let _ ← g.name
    require (← atSign "=>")

/-- A function with an arrow that is asynchronous or has its parameters in parentheses, or nothing. -/
def arrow? (g : Grammar) : Reader Bool := do
  if ← attempt (asyncArrowHead g) then
    arrowRest g true
    return true
  if ← attempt (arrowHead g) then
    arrowRest g false
    return true
  return false

/-- What a generator hands out. -/
def yielded (g : Grammar) : Reader Unit := do
  word "yield"
  if ← newline then return
  if ← sign? "*" then g.value
  else
    let atEnd := match ← lexeme with
      | .sign s => [")", "]", "\x7d", ",", ";", ":"].contains s
      | .word w false => w == "in" || w == "of"
      | .done => true
      | _ => false
    if !atEnd then g.value

def assignSigns : List String :=
  ["+=", "-=", "*=", "/=", "%=", "**=", "<<=", ">>=", ">>>=", "&=", "|=", "^=", "&&=", "||=", "??="]

/-- An expression without commas. -/
def assignment (g : Grammar) : Reader Shape := do
  if g.context.yields && (← atWord "yield") then
    yielded g
    return {}
  if ← arrow? g then return {}
  let left ← g.read (.binary 0)
  match ← lexeme with
  | .sign "=>" =>
    require left.isName
    arrowRest g false
    return {}
  | .sign "=" =>
    require left.isTarget
    advance
    g.value
    return { isPart := true }
  | .sign "?" =>
    require left.isValue
    advance
    (g.withIn true).value
    sign ":"
    g.value
    return {}
  | .sign s =>
    if assignSigns.contains s then
      require left.isPlace
      advance
      g.value
      return {}
    else return left
  | _ => return left

/-- Expressions with commas between them. A single one keeps its shape. -/
def expression (g : Grammar) : Reader Shape := do
  let s ← g.read .assignment
  if ← atSign "," then
    require s.isValue
    loop (do
      if ← sign? "," then
        g.value
        return true
      else return false) g.limit
    return {}
  else return s

end LivePreview.Jsx
