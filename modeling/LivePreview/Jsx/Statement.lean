import LivePreview.Jsx.Expression

/-! Statements of markup scripts, and what a module takes in and hands out. -/
namespace LivePreview.Jsx
open Reader

/-! ### Declarations of variables -/

inductive Keeping where
  | var
  | let
  | const
  /-- A variable that is disposed of at the end of its block. -/
  | using
deriving BEq

/-- A variable or a pattern of variables with its first value, if it has one. -/
structure Declared where
  shape : Shape
  hasValue : Bool

/-- Whether a declaration has the first value it needs. -/
def Keeping.accepts (k : Keeping) (d : Declared) : Bool :=
  d.hasValue && (k != .using || d.shape.isName) || (k == .var || k == .let) && d.shape.isName

/-- A variable or a pattern with its first value. -/
def declared (g : Grammar) : Reader Declared := do
  let s ← g.binding
  if ← sign? "=" then
    g.value
    return ⟨s, true⟩
  else return ⟨s, false⟩

/-- Variables with commas between them; at most `n`. -/
def declaredList (g : Grammar) : Nat → Reader (List Declared)
  | 0 => failure
  | n + 1 => do
    let d ← declared g
    if ← sign? "," then return d :: (← declaredList g n) else return [d]

/-- Whether `let` stands before variables here and is not the name of one. -/
def letDeclares (alone : Bool) : Reader Bool := do
  match (← next).1 with
  | .sign s => return s == "[" || (s == "\x7b" && !alone)
  | .word w false => return !alone && w != "in" && w != "instanceof"
  | .done => return false
  | _ => return !alone

/-- Whether `using` , the token at hand, stands before a variable. -/
def usingDeclares (g : Grammar) : Reader Bool := do
  let (n, newline) ← next
  return !newline && g.isVariable n && n != .word "of" false

/-- The word that a declaration of variables starts with, taken if there is one. -/
def keeping? (g : Grammar) (alone : Bool) : Reader (Option Keeping) := do
  if ← word? "var" then return some .var
  if ← word? "const" then return some .const
  if (← atWord "let") && (← letDeclares alone) then
    advance
    return some .let
  if (← atWord "using") && (← usingDeclares g) then
    advance
    return some .using
  if (← atAwait g) && (← next) == (.word "using" false, false) then
    let c ← get
    advance
    if ← usingDeclares g then
      advance
      return some .using
    set c
  return none

/-- The variables of a declaration, each with the first value it needs. -/
def declarations (g : Grammar) (k : Keeping) : Reader (List String) := do
  let ds ← declaredList g g.limit
  require (ds.all k.accepts)
  return ds.flatMap (·.shape.names)

/-! ### Loops and branches -/

/-- A value in parentheses that decides. -/
def condition (g : Grammar) : Reader Unit := do
  sign "("
  g.expression
  sign ")"

/-- A statement that is the body of another. -/
def body (g : Grammar) : Reader Unit := do let _ ← g.read (.statement true)

/-- What a loop goes through, from `of` or `in` on. -/
def loopRange (g : Grammar) (waits : Bool) : Reader Unit := do
  if ← word? "of" then g.value
  else
    require (!waits)
    word "in"
    g.expression

/-- Whether a loop goes through something here. -/
def atRange : Reader Bool := do return (← atWord "of") || (← atWord "in")

/-- The test and the step of a loop that counts, from its first semicolon on. -/
def loopSteps (g : Grammar) : Reader Unit := do
  sign ";"
  unless ← atSign ";" do g.expression
  sign ";"
  unless ← atSign ")" do g.expression

/-- A loop from the word `for` on. -/
def forLoop (g : Grammar) : Reader Unit := do
  word "for"
  let waits ← if g.context.awaits then word? "await" else pure false
  sign "("
  let start := g.withIn false
  if ← atSign ";" then
    require (!waits)
    loopSteps g
  else
    match ← keeping? start false with
    | some k =>
      let ds ← declaredList start g.limit
      if ← atRange then
        require (ds.length = 1 && ds.all (!·.hasValue))
        loopRange g waits
      else
        require (!waits && ds.all k.accepts)
        loopSteps g
    | none =>
      let s ← start.read .expression
      if ← atRange then
        require s.isTarget
        loopRange g waits
      else
        require (!waits && s.isValue)
        loopSteps g
  sign ")"
  body g

/-- A branch from the word `if` on. -/
def branch (g : Grammar) : Reader Unit := do
  word "if"
  condition g
  body g
  if ← word? "else" then body g

/-- A loop that runs before it is tested. -/
def doLoop (g : Grammar) : Reader Unit := do
  word "do"
  body g
  word "while"
  condition g
  let _ ← sign? ";"

/-- A block whose failures are caught, or that has an end of its own. -/
def tryBlock (g : Grammar) : Reader Unit := do
  word "try"
  g.block
  let caught ← word? "catch"
  if caught then
    if ← sign? "(" then
      let _ ← g.binding
      sign ")"
    g.block
  if ← word? "finally" then g.block else require caught

/-- A choice among cases. -/
def choice (g : Grammar) : Reader Unit := do
  word "switch"
  condition g
  sign "\x7b"
  loop (do
    if ← sign? "\x7d" then return false
    if ← word? "case" then g.expression else word "default"
    sign ":"
    loop (do
      if (← atSign "\x7d") || (← atWord "case") || (← atWord "default") then return false
      let _ ← g.read (.statement false)
      return true) g.limit
    return true) g.limit

/-- A way out of a loop, with a label or without. -/
def leave (g : Grammar) : Reader Unit := do
  advance
  if !(← newline) && g.isVariable (← lexeme) then
    let _ ← g.name
  semicolon

/-! ### Statements -/

/-- An expression for its effect. -/
def effect (g : Grammar) : Reader Unit := do
  g.expression
  semicolon

/-- A statement that starts with a value or with a label. -/
def labelled (g : Grammar) : Reader Unit := do
  if g.isVariable (← lexeme) && (← next).1 == .sign ":" then
    advance
    advance
    body g
  else effect g

/-- A declaration of variables, a function or a class: the names it declares, or none when there is none here. -/
def declaration? (g : Grammar) (alone : Bool) : Reader (Option (List String)) := do
  if (← atSign "@") || (← atWord "class") then
    require (!alone)
    let _ ← decorators g
    return some (← classFrom g true)
  if (← atWord "function") || (← atAsyncFunction) then
    let isPlain := (← atWord "function") && (← next).1 != .sign "*"
    require (isPlain || !alone)
    return some (← functionDeclaration g true)
  match ← keeping? g alone with
  | none => return none
  | some k =>
    require (k == .var || !alone)
    let names ← declarations g k
    semicolon
    return some names

/-- A statement; one that stands alone is the body of another. -/
def statement (g : Grammar) (alone : Bool) : Reader Shape := do
  if (← declaration? g alone).isSome then return {}
  match ← lexeme with
  | .sign "\x7b" => g.block
  | .sign ";" => advance
  | .word w false =>
    match w with
    | "if" => branch g
    | "for" => forLoop g
    | "while" | "with" =>
      advance
      condition g
      body g
    | "do" => doLoop g
    | "break" | "continue" => leave g
    | "return" =>
      require g.context.returns
      advance
      if !((← atBreak) || (← atSign ";")) then g.expression
      semicolon
    | "throw" =>
      advance
      require (!(← newline))
      effect g
    | "try" => tryBlock g
    | "switch" => choice g
    | "debugger" =>
      advance
      semicolon
    | _ => labelled g
  | _ => labelled g
  return {}

/-! ### Modules -/

/-- The name of something that a module hands out, and whether it is written as a string. -/
def moduleName : Reader (String × Bool) := do
  match ← lexeme with
  | .str _ => return (← str, true)
  | _ => return (← anyWord, false)

/-- The conditions on a module that is taken in. -/
def moduleConditions (g : Grammar) : Reader Unit := do
  let here := (← atWord "with") || ((← atWord "assert") && !(← newline))
  if here then
    advance
    sign "\x7b"
    let _ ← items "\x7d"
      (do
        let _ ← moduleName
        sign ":"
        str) g.limit

/-- The module that names come from. -/
def source (g : Grammar) : Reader Unit := do
  let _ ← str
  moduleConditions g

/-- A name that is taken in, under its own name or another. -/
def importedName (g : Grammar) : Reader Unit := do
  let isOwn := g.isVariable (← lexeme)
  let _ ← moduleName
  if ← word? "as" then
    let _ ← g.name
  else require isOwn

/-- Names that are taken in: all of a module, or some. -/
def importedNames (g : Grammar) : Reader Unit := do
  if ← sign? "*" then
    word "as"
    let _ ← g.name
  else
    sign "\x7b"
    let _ ← items "\x7d" (importedName g) g.limit

/-- What a module takes in. -/
def importFrom (g : Grammar) : Reader Unit := do
  word "import"
  match ← lexeme with
  | .str _ => source g
  | _ =>
    if (← atSign "*") || (← atSign "\x7b") then importedNames g
    else
      let _ ← g.name
      if ← sign? "," then importedNames g
    word "from"
    source g
  semicolon

/-- Notes names that are handed out. -/
def hand (names : List String) : Reader Unit := modify fun c => { c with exported := names ++ c.exported }

/-- A name that is handed out: whether a variable of the module can have it, and the name that others see. -/
def exportedName : Reader (Bool × String) := do
  let (own, quoted) ← moduleName
  let isOwn := !quoted && !reserved.contains own
  if ← word? "as" then return (isOwn, (← moduleName).1) else return (isOwn, own)

/-- The value that a module hands out under no name. -/
def exportDefault (g : Grammar) : Reader Unit := do
  hand ["default"]
  if (← atWord "class") || (← atSign "@") then
    let _ ← decorators g
    let _ ← classFrom g false
  else if (← atWord "function") || (← atAsyncFunction) then
    let _ ← functionDeclaration g false
  else
    g.value
    semicolon

/-- What a module hands out. -/
def exportTo (g : Grammar) : Reader Unit := do
  word "export"
  if ← word? "default" then exportDefault g
  else if ← sign? "*" then
    if ← word? "as" then hand [(← moduleName).1]
    word "from"
    source g
    semicolon
  else if ← sign? "\x7b" then
    let (names, _) ← items "\x7d" exportedName g.limit
    hand (names.map (·.2))
    if ← word? "from" then source g else require (names.all (·.1))
    semicolon
  else
    match ← declaration? g false with
    | some names => hand names
    | none => failure

/-- A statement of a module. -/
def moduleItem (g : Grammar) : Reader Unit := do
  let n := (← next).1
  if (← atWord "import") && n != .sign "(" && n != .sign "." then importFrom g
  else if ← atWord "export" then exportTo g
  else if ← atSign "@" then
    let _ ← decorators g
    if ← word? "export" then
      if ← word? "default" then
        hand ["default"]
        let _ ← classFrom g false
      else hand (← classFrom g true)
    else
      let _ ← classFrom g true
  else
    let _ ← g.read (.statement false)

end LivePreview.Jsx
