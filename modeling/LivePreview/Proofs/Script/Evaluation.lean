import LivePreview.Proofs.Script.Stable
import LivePreview.Script.Eval

/-! Evaluation does what calls do: a script reaches the hook state by calling values, and in no other way. Where calls
agree, evaluation agrees, and it keeps what they keep. -/
namespace LivePreview.Script
open Hook
variable {P : Loose} {α β : Type}

theorem iterate_agree {step step' : α → Run (α ⊕ β)} (hs : ∀ a, Matches P (step a) (step' a)) (fuel : Nat) (a : α) :
    Matches P (Run.iterate step fuel a) (Run.iterate step' fuel a) := by
  induction fuel generalizing a with
  | zero => exact .of_keeps (.throw _)
  | succ fuel ih =>
    refine .bind (hs a) fun r => ?_
    cases r with
    | inl a => exact ih a
    | inr b => exact .of_keeps (.pure b)

@[grind ←]
theorem bind_stable (scope : Scope) (vs : List Value) : Keeps P (Script.bind scope vs) := by
  induction vs generalizing scope with
  | nil => exact .pure scope
  | cons v vs ih => exact .bind (newCell_stable v) fun _ => ih _

namespace Frame
variable {f : Frame}

@[grind ←]
theorem fail_stable (line : Nat) (message : String) : Keeps P (f.fail line message : Run α) := .throw _

@[grind ←]
theorem orFail_stable (line : Nat) (r : Except String α) : Keeps P (f.orFail line r) := by
  cases r with
  | ok a => exact .pure a
  | error message => exact .throw _

@[grind ←]
theorem index_stable (line : Nat) (v key : Value) : Keeps P (f.index line v key) := by
  cases v
  case table place => exact .bind (readTable_stable place) fun _ => .pure _
  case str s => exact .bind .get fun _ => .bind (readTable_stable _) fun _ => .pure _
  all_goals exact .throw _

@[grind ←]
theorem findMethod_stable (line : Nat) (v : Value) (name : ByteArray) : Keeps P (f.findMethod line v name) := by
  refine .bind (index_stable line v _) fun m => .ite ?_ (.pure m)
  exact .bind (fail_stable line _) fun _ => .pure m

@[grind ←]
theorem setIndex_stable (line : Nat) (v key new : Value) : Keeps P (f.setIndex line v key new) := by
  cases v
  case table place =>
    unfold setIndex
    dsimp only
    split
    · exact fail_stable line _
    · exact writeTable_stable place key new
  all_goals exact .throw _

@[grind ←]
theorem binary_stable (line : Nat) (op : BinaryOp) (a b : Value) : Keeps P (f.binary line op a b) := by
  cases op <;> grind [binary]

@[grind ←]
theorem unary_stable (line : Nat) (op : UnaryOp) (a : Value) : Keeps P (f.unary line op a) := by
  cases op <;> cases a <;> grind [unary]

@[grind ←]
theorem loopNumber_stable (line : Nat) (what : String) (v : Value) : Keeps P (f.loopNumber line what v) := by
  unfold loopNumber
  split
  · exact .pure _
  · exact fail_stable line _

@[grind ←]
theorem construct_stable (items : List Value) (pairs : List (Value × Value)) : Keeps P (construct items pairs) :=
  newTable_stable _

theorem putAll_stable (slots : List Slot) (vs : List Value) : Keeps P (f.putAll slots vs) := by
  induction slots generalizing vs with
  | nil => exact .pure ()
  | cons slot slots ih =>
    cases vs with
    | nil => exact .pure ()
    | cons v vs =>
      refine .bind ?_ fun _ => ih vs
      cases slot with
      | cell place => exact writeCell_stable place v
      | entry line t key => exact setIndex_stable line t key v

/-- The same body with values called in another way. -/
def calling (f : Frame) (invoke : Invoke) : Frame := { f with invoke }

/-- Whatever value the body calls, it is as if it was called in another way. -/
def CallsLike (P : Loose) (f : Frame) (invoke : Invoke) : Prop :=
  ∀ trail v args, Matches P (f.invoke trail v args) (invoke trail v args)

theorem putAll_calling (invoke : Invoke) (slots : List Slot) (vs : List Value) :
    (f.calling invoke).putAll slots vs = f.putAll slots vs := by
  induction slots generalizing vs with
  | nil => rfl
  | cons slot slots ih =>
    cases vs with
    | nil => rfl
    | cons v vs => exact bind_congr fun _ => ih vs

variable {invoke : Invoke}

theorem call_agree (hf : f.CallsLike P invoke) (line : Nat) (v : Value) (args : List Value) :
    Matches P (f.call line v args) ((f.calling invoke).call line v args) :=
  hf ..

theorem advance_agree (hf : f.CallsLike P invoke) (line : Nat) (iterator state last : Value) :
    Matches P (f.advance line iterator state last) ((f.calling invoke).advance line iterator state last) := by
  cases iterator
  case table place =>
    refine .bind (.of_keeps (readTable_stable place)) fun t => .ite (call_agree hf line _ _) ?_
    refine .of_keeps (.bind tick_stable fun _ => ?_)
    split
    · exact .pure _
    · exact .pure []
  case func place => exact call_agree hf line _ _
  all_goals exact .of_keeps (.throw _)

/-! ### Syntax -/

mutual

theorem eval_agree (hf : f.CallsLike P invoke) (scope : Scope) (e : Expr) :
    Matches P (f.eval scope e) ((f.calling invoke).eval scope e) := by
  cases e with
  | nil | bool _ | num _ | str _ | extra => exact .of_keeps (.pure _)
  | var i => exact .of_keeps (readCell_stable _)
  | global name => exact .of_keeps (.bind (readTable_stable _) fun _ => .pure _)
  | func body => exact .of_keeps (newFunc_stable _)
  | index line e key =>
    exact .bind (eval_agree hf scope e) fun v => .bind (eval_agree hf scope key) fun k =>
      .of_keeps (index_stable line v k)
  | call line e args =>
    exact .bind (eval_agree hf scope e) fun v => .bind (evalList_agree hf scope args) fun vs =>
      .bind (call_agree hf line v vs) fun _ => .of_keeps (.pure _)
  | method line e name args =>
    exact .bind (eval_agree hf scope e) fun v => .bind (.of_keeps (findMethod_stable line v name)) fun m =>
      .bind (evalList_agree hf scope args) fun vs => .bind (call_agree hf line m (v :: vs)) fun _ =>
        .of_keeps (.pure _)
  | binary line op a b =>
    exact .bind (eval_agree hf scope a) fun v => .bind (eval_agree hf scope b) fun w =>
      .of_keeps (binary_stable line op v w)
  | unary line op a => exact .bind (eval_agree hf scope a) fun v => .of_keeps (unary_stable line op v)
  | and a b => exact .bind (eval_agree hf scope a) fun v => .ite (eval_agree hf scope b) (.of_keeps (.pure v))
  | or a b => exact .bind (eval_agree hf scope a) fun v => .ite (.of_keeps (.pure v)) (eval_agree hf scope b)
  | paren e => exact eval_agree hf scope e
  | table fields =>
    exact .bind (evalFields_agree hf scope fields) fun r => .of_keeps (construct_stable r.1 r.2)

theorem evalOpen_agree (hf : f.CallsLike P invoke) (scope : Scope) (e : Expr) :
    Matches P (f.evalOpen scope e) ((f.calling invoke).evalOpen scope e) := by
  cases e with
  | call line e args =>
    exact .bind (eval_agree hf scope e) fun v => .bind (evalList_agree hf scope args) fun vs =>
      call_agree hf line v vs
  | method line e name args =>
    exact .bind (eval_agree hf scope e) fun v => .bind (.of_keeps (findMethod_stable line v name)) fun m =>
      .bind (evalList_agree hf scope args) fun vs => call_agree hf line m (v :: vs)
  | _ => exact .of_keeps (.pure _)

theorem evalList_agree (hf : f.CallsLike P invoke) (scope : Scope) (es : List Expr) :
    Matches P (f.evalList scope es) ((f.calling invoke).evalList scope es) := by
  match es with
  | [] => exact .of_keeps (.pure [])
  | [e] =>
    unfold evalList
    exact .ite (evalOpen_agree hf scope e) (.bind (eval_agree hf scope e) fun _ => .of_keeps (.pure _))
  | e :: d :: es =>
    exact .bind (eval_agree hf scope e) fun _ => .bind (evalList_agree hf scope (d :: es)) fun _ =>
      .of_keeps (.pure _)

theorem evalFields_agree (hf : f.CallsLike P invoke) (scope : Scope) (fields : List Field) :
    Matches P (f.evalFields scope fields) ((f.calling invoke).evalFields scope fields) := by
  match fields with
  | [] => exact .of_keeps (.pure _)
  | [.item e] =>
    unfold evalFields
    refine .ite (.bind (evalOpen_agree hf scope e) fun _ => .of_keeps (.pure _)) ?_
    exact .bind (eval_agree hf scope e) fun _ => .of_keeps (.pure _)
  | .item e :: d :: r =>
    exact .bind (eval_agree hf scope e) fun _ => .bind (evalFields_agree hf scope (d :: r)) fun _ =>
      .of_keeps (.pure _)
  | .pair line key value :: r =>
    refine .bind (eval_agree hf scope key) fun k => .bind (eval_agree hf scope value) fun v => ?_
    dsimp only
    split
    · exact .of_keeps (.throw _)
    · exact .bind (evalFields_agree hf scope r) fun _ => .of_keeps (.pure _)

end

theorem target_agree (hf : f.CallsLike P invoke) (scope : Scope) (t : Target) :
    Matches P (f.target scope t) ((f.calling invoke).target scope t) := by
  cases t with
  | var i | global name => exact .of_keeps (.pure _)
  | index line e key =>
    exact .bind (eval_agree hf scope e) fun _ => .bind (eval_agree hf scope key) fun _ => .of_keeps (.pure _)

theorem targets_agree (hf : f.CallsLike P invoke) (scope : Scope) (ts : List Target) :
    Matches P (f.targets scope ts) ((f.calling invoke).targets scope ts) := by
  induction ts with
  | nil => exact .of_keeps (.pure [])
  | cons t ts ih => exact .bind (target_agree hf scope t) fun _ => .bind ih fun _ => .of_keeps (.pure _)

mutual

theorem exec_agree (hf : f.CallsLike P invoke) (scope : Scope) (s : Stat) :
    Matches P (f.exec scope s) ((f.calling invoke).exec scope s) := by
  cases s with
  | locals count values =>
    exact .bind (evalList_agree hf scope values) fun vs => .of_keeps (.bind (bind_stable scope _) fun _ => .pure _)
  | localFunc body =>
    exact .of_keeps (.bind (newCell_stable .nil) fun cell => .bind (newFunc_stable _) fun v =>
      .bind (writeCell_stable cell v) fun _ => .pure _)
  | assign ts values =>
    refine .bind (targets_agree hf scope ts) fun slots => .bind (evalList_agree hf scope values) fun vs => ?_
    rw [putAll_calling]
    exact .of_keeps (.bind (putAll_stable slots _) fun _ => .pure _)
  | eval e => exact .bind (eval_agree hf scope e) fun _ => .of_keeps (.pure _)
  | block body =>
    refine .bind (execAll_agree hf scope body) fun flow => .of_keeps ?_
    cases flow <;> exact .pure _
  | ite cond yes no =>
    refine .bind (eval_agree hf scope cond) fun v => .ite ?_ ?_
    · refine .bind (execAll_agree hf scope yes) fun flow => .of_keeps ?_
      cases flow <;> exact .pure _
    · refine .bind (execAll_agree hf scope no) fun flow => .of_keeps ?_
      cases flow <;> exact .pure _
  | loop cond body =>
    refine iterate_agree (fun _ => .bind (eval_agree hf scope cond) fun v => ?_) _ _
    refine .ite (.of_keeps (.pure _)) (.bind (execAll_agree hf scope body) fun flow => .of_keeps ?_)
    cases flow with
    | next scope => exact .bind tick_stable fun _ => .pure _
    | leave | ret vs => exact .pure _
  | forNum line start limit step body =>
    refine .bind (eval_agree hf scope start) fun v => .bind (eval_agree hf scope limit) fun w =>
      .bind (eval_agree hf scope step) fun u => .bind (.of_keeps (loopNumber_stable line _ v)) fun start =>
      .bind (.of_keeps (loopNumber_stable line _ w)) fun limit =>
      .bind (.of_keeps (loopNumber_stable line _ u)) fun step => ?_
    refine iterate_agree (fun x => .ite (.of_keeps (.pure _)) ?_) _ _
    refine .bind (.of_keeps (newCell_stable _)) fun cell => ?_
    refine .bind (execAll_agree hf (cell :: scope) body) fun flow => .of_keeps ?_
    cases flow with
    | next scope => exact .bind tick_stable fun _ => .pure _
    | leave | ret vs => exact .pure _
  | forEach line count values body =>
    refine .bind (evalList_agree hf scope values) fun vs => ?_
    refine iterate_agree (fun last => .bind (advance_agree hf line _ _ last) fun found => ?_) _ _
    refine .ite (.of_keeps (.pure _)) (.bind (.of_keeps (bind_stable scope _)) fun inner => ?_)
    refine .bind (execAll_agree hf inner body) fun flow => .of_keeps ?_
    cases flow <;> exact .pure _
  | ret values => exact .bind (evalList_agree hf scope values) fun _ => .of_keeps (.pure _)
  | leave => exact .of_keeps (.pure _)

theorem execAll_agree (hf : f.CallsLike P invoke) (scope : Scope) (ss : List Stat) :
    Matches P (f.execAll scope ss) ((f.calling invoke).execAll scope ss) := by
  match ss with
  | [] => exact .of_keeps (.pure _)
  | s :: ss =>
    refine .bind (exec_agree hf scope s) fun flow => ?_
    cases flow with
    | next scope => exact execAll_agree hf scope ss
    | leave | ret vs => exact .of_keeps (.pure _)

end

/-- The body of a function does the same where the calls in it do, and keeps what they keep. -/
theorem enter_agree (hf : f.CallsLike P invoke) (scope : Scope) (params : Nat) (body : List Stat)
    (args : List Value) :
    Matches P (f.enter scope params body args) ((f.calling invoke).enter scope params body args) := by
  refine .bind (.of_keeps (bind_stable scope _)) fun scope => .bind (execAll_agree hf scope body) fun flow => ?_
  refine .of_keeps (.bind tick_stable fun _ => ?_)
  cases flow <;> exact .pure _

end Frame
end LivePreview.Script
