/-! The syntax of component scripts.

Names of local variables are resolved when a script is read: a variable is the number of variables declared
after it in the scopes around its use. Expressions that can fail carry the line to report. -/
namespace LivePreview.Script

inductive BinaryOp where
  | add | sub | mul | div | floorDiv | mod | pow | concat | eq | ne | lt | le | gt | ge
deriving DecidableEq, Repr

inductive UnaryOp where
  | neg | not | len
deriving DecidableEq, Repr

mutual
inductive Expr where
  | nil
  | bool (b : Bool)
  | num (x : Float)
  | str (s : ByteArray)
  /-- The extra arguments of the function around. -/
  | extra
  | var (i : Nat)
  | global (name : ByteArray)
  | func (f : FuncBody)
  | index (line : Nat) (e key : Expr)
  | call (line : Nat) (f : Expr) (args : List Expr)
  | method (line : Nat) (e : Expr) (name : ByteArray) (args : List Expr)
  | binary (line : Nat) (op : BinaryOp) (a b : Expr)
  | unary (line : Nat) (op : UnaryOp) (a : Expr)
  | and (a b : Expr)
  | or (a b : Expr)
  /-- An expression in parentheses, which has exactly one value. -/
  | paren (e : Expr)
  | table (fields : List Field)

/-- One entry of a table constructor. -/
inductive Field where
  | item (e : Expr)
  | pair (line : Nat) (key value : Expr)

/-- The left side of an assignment. -/
inductive Target where
  | var (i : Nat)
  | global (name : ByteArray)
  | index (line : Nat) (e key : Expr)

inductive Stat where
  /-- As many new variables, with the values of the expressions. -/
  | locals (count : Nat) (values : List Expr)
  /-- A new variable that holds a function which can see it. -/
  | localFunc (f : FuncBody)
  | assign (targets : List Target) (values : List Expr)
  | eval (e : Expr)
  | block (body : List Stat)
  | ite (cond : Expr) (yes no : List Stat)
  | loop (cond : Expr) (body : List Stat)
  | forNum (line : Nat) (start limit step : Expr) (body : List Stat)
  | forEach (line : Nat) (count : Nat) (values : List Expr) (body : List Stat)
  | ret (values : List Expr)
  | leave

/-- A function: the number of its parameters, whether it takes more arguments, and its body. -/
inductive FuncBody where
  | mk (params : Nat) (variadic : Bool) (body : List Stat)
end

/-- Whether an expression may have any number of values. -/
def Expr.isOpen : Expr → Bool
  | .call .. | .method .. | .extra => true
  | _ => false

end LivePreview.Script
