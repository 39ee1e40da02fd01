import LivePreview.Script.Syntax
import LivePreview.Script.Token

/-! Reading component scripts.

A script is read in one pass over its tokens, with the local variables in scope at hand. Each nested construct
takes a unit of fuel more than what it stands in, and a script has fewer constructs than four times its tokens. -/
namespace LivePreview.Script

/-- What is left to read, and the line of the token read last. -/
structure Rest where
  tokens : List Token
  line : Nat

/-- A reader of one construct; none when the tokens do not start with it. -/
abbrev Reader := StateT Rest Option

namespace Reader

/-- The next token, which stays. -/
def peek : Reader Token := do return (← get).tokens.headD ⟨.done, 0⟩

/-- Takes the next token. -/
def take : Reader Token := do
  match (← get).tokens with
  | [] => failure
  | t :: r =>
    set (Rest.mk r t.line)
    return t

def atWord (w : String) : Reader Bool := do
  match (← peek).lexeme with
  | .word s => return s == w
  | _ => return false

def atSign (w : String) : Reader Bool := do
  match (← peek).lexeme with
  | .sign s => return s == w
  | _ => return false

/-- Takes the next token if it is this word. -/
def word? (w : String) : Reader Bool := do
  if ← atWord w then
    let _ ← take
    return true
  else return false

/-- Takes the next token if it is this sign. -/
def sign? (w : String) : Reader Bool := do
  if ← atSign w then
    let _ ← take
    return true
  else return false

def word (w : String) : Reader Unit := do unless ← word? w do failure

def sign (w : String) : Reader Unit := do unless ← sign? w do failure

def name : Reader String := do
  match (← take).lexeme with
  | .name s => return s
  | _ => failure

/-- One construct, and more of them as long as a comma follows; at most `fuel` in all. -/
def commaList (item : Reader α) : Nat → Reader (List α)
  | 0 => failure
  | fuel + 1 => do
    let first ← item
    if ← sign? "," then return first :: (← commaList item fuel) else return [first]

/-- Whether the block around ends here. -/
def atBlockEnd : Reader Bool := do
  match (← peek).lexeme with
  | .done => return true
  | .word s => return ["end", "else", "elseif", "until"].contains s
  | _ => return false

end Reader

/-- Where a construct stands: the variables in scope, the last one first, whether there are extra arguments, and
whether a loop is around. -/
structure Place where
  scope : List String
  variadic : Bool
  inLoop : Bool

def Place.declare (p : Place) (names : List String) : Place := { p with scope := names.reverse ++ p.scope }

/-- What a name means at a place. -/
def Place.variable (p : Place) (name : String) : Expr :=
  match p.scope.findIdx? (· == name) with
  | some i => .var i
  | none => .global name.toUTF8

/-- A binary operator with how tightly it holds what is left and right of it. -/
structure Operator where
  join : Nat → Expr → Expr → Expr
  left : Nat
  right : Nat

def Operator.ofOp (op : BinaryOp) (left right : Nat) : Operator := ⟨fun line a b => .binary line op a b, left, right⟩

def Operator.ofLexeme? : Lexeme → Option Operator
  | .sign "+" => some (.ofOp .add 6 6)
  | .sign "-" => some (.ofOp .sub 6 6)
  | .sign "*" => some (.ofOp .mul 7 7)
  | .sign "/" => some (.ofOp .div 7 7)
  | .sign "//" => some (.ofOp .floorDiv 7 7)
  | .sign "%" => some (.ofOp .mod 7 7)
  | .sign "^" => some (.ofOp .pow 10 9)
  | .sign ".." => some (.ofOp .concat 5 4)
  | .sign "==" => some (.ofOp .eq 3 3)
  | .sign "~=" => some (.ofOp .ne 3 3)
  | .sign "<" => some (.ofOp .lt 3 3)
  | .sign "<=" => some (.ofOp .le 3 3)
  | .sign ">" => some (.ofOp .gt 3 3)
  | .sign ">=" => some (.ofOp .ge 3 3)
  | .word "and" => some ⟨fun _ a b => .and a b, 2, 2⟩
  | .word "or" => some ⟨fun _ a b => .or a b, 1, 1⟩
  | _ => none

def unaryStrength : Nat := 8

def UnaryOp.ofLexeme? : Lexeme → Option UnaryOp
  | .sign "-" => some .neg
  | .sign "#" => some .len
  | .word "not" => some .not
  | _ => none

/-- An expression that can stand on the left of an assignment. -/
def Target.ofExpr? : Expr → Option Target
  | .var i => some (.var i)
  | .global name => some (.global name)
  | .index line e key => some (.index line e key)
  | _ => none

/-- Whether an operand is at hand without a step of its own, so that its line is never the one to report. -/
def Expr.isAtHand : Expr → Bool
  | .var _ | .num _ => true
  | _ => false

namespace Reader

mutual

/-- An expression whose operators hold tighter than `strength`. -/
def expr (p : Place) (strength : Nat) : Nat → Reader Expr
  | 0 => failure
  | fuel + 1 => do
    let start ← peek
    let first ← match UnaryOp.ofLexeme? start.lexeme with
      | some op => do
        let _ ← take
        pure (.unary start.line op (← expr p unaryStrength fuel))
      | none => simple p fuel
    operators p strength start.line first fuel

/-- The binary operators after an operand that starts on a line. -/
def operators (p : Place) (strength line : Nat) (a : Expr) : Nat → Reader Expr
  | 0 => failure
  | fuel + 1 => do
    match Operator.ofLexeme? (← peek).lexeme with
    | none => return a
    | some op =>
      if op.left ≤ strength then return a
      let _ ← take
      let start ← peek
      let b ← expr p op.right fuel
      let line := if b.isAtHand then line else start.line
      operators p strength line (op.join line a b) fuel

/-- An expression without operators. -/
def simple (p : Place) : Nat → Reader Expr
  | 0 => failure
  | fuel + 1 => do
    match (← peek).lexeme with
    | .num x => let _ ← take; return .num x
    | .str s => let _ ← take; return .str s
    | .word "nil" => let _ ← take; return .nil
    | .word "true" => let _ ← take; return .bool true
    | .word "false" => let _ ← take; return .bool false
    | .sign "..." =>
      let _ ← take
      if p.variadic then return .extra else failure
    | .word "function" => let _ ← take; return .func (← function p [] fuel)
    | .sign "\x7b" => let _ ← take; return .table (← fields p fuel)
    | _ => primary p false fuel

/-- A name or an expression in parentheses, with the indices and calls after it. -/
def primary (p : Place) (starts : Bool) : Nat → Reader Expr
  | 0 => failure
  | fuel + 1 => do
    let start ← take
    match start.lexeme with
    | .name s => suffixes p starts (p.variable s) fuel
    | .sign "(" => do
      let e ← expr p 0 fuel
      sign ")"
      suffixes p starts (.paren e) fuel
    | _ => failure

/-- The indices and calls after an expression. Arguments in parentheses must start on the line where the function
ends: on a new line they end an expression within a statement, and are an error where a statement `starts`. -/
def suffixes (p : Place) (starts : Bool) (e : Expr) : Nat → Reader Expr
  | 0 => failure
  | fuel + 1 => do
    let line := (← get).line
    let next ← peek
    match next.lexeme with
    | .sign "." =>
      let _ ← take
      let s ← name
      suffixes p starts (.index (← get).line e (.str s.toUTF8)) fuel
    | .sign "[" =>
      let _ ← take
      let inner := (← peek).line
      let key ← expr p 0 fuel
      sign "]"
      suffixes p starts (.index inner e key) fuel
    | .sign ":" =>
      let _ ← take
      let s ← name
      let here := (← get).line
      let args ← arguments p fuel
      suffixes p starts (.method here e s.toUTF8 args) fuel
    | .sign "(" =>
      if next.line != line then
        if starts then failure else return e
      let args ← arguments p fuel
      suffixes p starts (.call line e args) fuel
    | .sign "\x7b" | .str _ =>
      let args ← arguments p fuel
      suffixes p starts (.call line e args) fuel
    | _ => return e

/-- The arguments of a call: expressions in parentheses, one table or one string. -/
def arguments (p : Place) : Nat → Reader (List Expr)
  | 0 => failure
  | fuel + 1 => do
    let line := (← get).line
    let next ← take
    match next.lexeme with
    | .str s => return [.str s]
    | .sign "\x7b" => return [.table (← fields p fuel)]
    | .sign "(" =>
      if next.line != line then failure
      if ← sign? ")" then return []
      let args ← commaList (expr p 0 fuel) fuel
      sign ")"
      return args
    | _ => failure

/-- The entries of a table constructor, read after its brace. -/
def fields (p : Place) : Nat → Reader (List Field)
  | 0 => failure
  | fuel + 1 => do
    if ← sign? "\x7d" then return []
    let entry ← field p fuel
    if ← sign? "," then return entry :: (← fields p fuel)
    if ← sign? ";" then return entry :: (← fields p fuel)
    sign "\x7d"
    return [entry]

def field (p : Place) : Nat → Reader Field
  | 0 => failure
  | fuel + 1 => do
    let line := (← peek).line
    if ← sign? "[" then
      let key ← expr p 0 fuel
      sign "]"
      sign "="
      return .pair line key (← expr p 0 fuel)
    match (← get).tokens with
    | ⟨.name s, _⟩ :: ⟨.sign "=", _⟩ :: _ =>
      let _ ← take
      let _ ← take
      return .pair line (.str s.toUTF8) (← expr p 0 fuel)
    | _ => return .item (← expr p 0 fuel)

/-- The parameters and the body of a function, which takes `first` before its own parameters. -/
def function (p : Place) (first : List String) : Nat → Reader FuncBody
  | 0 => failure
  | fuel + 1 => do
    sign "("
    let (names, variadic) ← parameters fuel
    let params := first ++ names
    let inner : Place := ⟨params.reverse ++ p.scope, variadic, false⟩
    let body ← block inner fuel
    word "end"
    return .mk params.length variadic body

/-- The parameters of a function, read after their parenthesis, and whether extra arguments are taken. -/
def parameters : Nat → Reader (List String × Bool)
  | 0 => failure
  | fuel + 1 => do
    if ← sign? ")" then return ([], false)
    more fuel

/-- At least one more parameter. -/
def more : Nat → Reader (List String × Bool)
  | 0 => failure
  | fuel + 1 => do
    if ← sign? "..." then
      sign ")"
      return ([], true)
    let s ← name
    if ← sign? "," then
      let (names, variadic) ← more fuel
      return (s :: names, variadic)
    sign ")"
    return ([s], false)

/-- The statements up to the end of the block. A return or a break is the last of them. -/
def block (p : Place) : Nat → Reader (List Stat)
  | 0 => failure
  | fuel + 1 => do
    if ← atBlockEnd then return []
    let ends := (← atWord "return") || (← atWord "break")
    let (stat, p) ← statement p fuel
    let _ ← sign? ";"
    if ends then return [stat] else return stat :: (← block p fuel)

/-- A statement, and the place after it. -/
def statement (p : Place) : Nat → Reader (Stat × Place)
  | 0 => failure
  | fuel + 1 => do
    match (← peek).lexeme with
    | .word "local" =>
      let _ ← take
      if ← word? "function" then
        let s ← name
        let p := p.declare [s]
        return (.localFunc (← function p [] fuel), p)
      let names ← commaList name fuel
      let values ← if ← sign? "=" then commaList (expr p 0 fuel) fuel else pure []
      return (.locals names.length values, p.declare names)
    | .word "function" =>
      let start ← take
      let (target, method) ← functionName start.line (p.variable (← name)) fuel
      let f ← function p (if method then ["self"] else []) fuel
      match Target.ofExpr? target with
      | some target => return (.assign [target] [.func f], p)
      | none => failure
    | .word "if" =>
      let _ ← take
      return (← conditional p fuel, p)
    | .word "while" =>
      let _ ← take
      let cond ← expr p 0 fuel
      word "do"
      let body ← block { p with inLoop := true } fuel
      word "end"
      return (.loop cond body, p)
    | .word "do" =>
      let _ ← take
      let body ← block p fuel
      word "end"
      return (.block body, p)
    | .word "for" => return (← iteration p fuel, p)
    | .word "return" =>
      let _ ← take
      if (← atBlockEnd) || (← atSign ";") then return (.ret [], p)
      return (.ret (← commaList (expr p 0 fuel) fuel), p)
    | .word "break" =>
      let _ ← take
      if p.inLoop then return (.leave, p) else failure
    | _ =>
      let e ← primary p true fuel
      if (← atSign "=") || (← atSign ",") then
        let others ← if ← sign? "," then commaList (primary p true fuel) fuel else pure []
        sign "="
        let values ← commaList (expr p 0 fuel) fuel
        match (e :: others).mapM Target.ofExpr? with
        | some targets => return (.assign targets values, p)
        | none => failure
      match e with
      | .call .. | .method .. => return (.eval e, p)
      | _ => failure

/-- The rest of the name of a function after its first part, and whether it is a method. -/
def functionName (line : Nat) (e : Expr) : Nat → Reader (Expr × Bool)
  | 0 => failure
  | fuel + 1 => do
    if ← sign? "." then
      let s ← name
      functionName line (.index line e (.str s.toUTF8)) fuel
    else if ← sign? ":" then
      let s ← name
      return (.index line e (.str s.toUTF8), true)
    else return (e, false)

/-- A conditional, read after its first word. -/
def conditional (p : Place) : Nat → Reader Stat
  | 0 => failure
  | fuel + 1 => do
    let cond ← expr p 0 fuel
    word "then"
    let yes ← block p fuel
    if ← word? "elseif" then return .ite cond yes [← conditional p fuel]
    let no ← if ← word? "else" then block p fuel else pure []
    word "end"
    return .ite cond yes no

/-- A loop over numbers or over what an iterator gives. -/
def iteration (p : Place) : Nat → Reader Stat
  | 0 => failure
  | fuel + 1 => do
    let line := (← take).line
    let first ← name
    if ← sign? "=" then
      let start ← expr p 0 fuel
      sign ","
      let limit ← expr p 0 fuel
      let step ← if ← sign? "," then expr p 0 fuel else pure (.num 1)
      word "do"
      let body ← block { p.declare [first] with inLoop := true } fuel
      word "end"
      return .forNum line start limit step body
    let others ← if ← sign? "," then commaList name fuel else pure []
    word "in"
    let values ← commaList (expr p 0 fuel) fuel
    word "do"
    let body ← block { p.declare (first :: others) with inLoop := true } fuel
    word "end"
    return .forEach line (others.length + 1) values body

end

end Reader

/-- A script as a function without parameters; none when it is not well formed. -/
def FuncBody.ofScript? (script : String) : Option FuncBody := do
  let tokens ← Token.ofScript? script
  let fuel := 4 * tokens.length + 8
  let (body, rest) ← (Reader.block ⟨[], true, false⟩ fuel).run ⟨tokens, 1⟩
  match rest.tokens with
  | ⟨.done, _⟩ :: _ => some (.mk 0 true body)
  | _ => none

end LivePreview.Script
