import LivePreview.Proofs.Script.Spending
import LivePreview.Proofs.Script.Table
import LivePreview.Proofs.Surface.Walk
import Mathlib.Logic.Function.Iterate

/-! **The recursion of a pass ends.**

Components, values and the items of a list call one another. Counted from the root, the first two refuse what is too
deep; the items go on for as long as the list has another one, and nothing bounds them: a component that is called for
one item may put more behind it (`Recursion.step`). Still the recursion ends wherever it is started within an allowance
(`ends_root`): unfolded often enough it makes no call beyond. The depth bounds the levels, and a list is walked to its
end because it does not grow unless a component is called, which takes a step. The pass is this recursion; it gives up
on a list that outgrows the allowance, as a script does whose time is over. -/
namespace LivePreview.Surface
open Script Pass
variable {α β : Type} {invoke : Invoke}

/-! ### The recursion from the root on -/

/-- What renders components and values, and the items of a list from an index on, by the depth at which they stand. -/
structure Recursion where
  component : Nat → Nat → Value → String → Pass (List Node)
  value : Nat → Value → String → Pass (List Node)
  items : Nat → Nat → String → Nat → Pass (List Node)

/-- One unfolding: what is too deep is refused, and what is below is left to the recursion, one level deeper. Of a list
one item is rendered, and the rest is left to the recursion. -/
def Recursion.step (invoke : Invoke) (r : Recursion) : Recursion where
  component depth place props path :=
    if maxDepth < depth then throw (.depthExceeded maxDepth)
    else do
      let key := instanceKey path place
      let v ← callBody invoke key place props
      r.value (depth + 1) v (innerPath key)
  value depth v path :=
    if maxDepth < depth then throw (.depthExceeded maxDepth)
    else valueBy (r.component (depth + 1)) (r.value (depth + 1)) (fun place _ path => r.items depth place path 0) v path
  items depth place path index := do
    match ← item? place index with
    | none => return []
    | some child =>
      return (← inPlace (r.value (depth + 1)) path index child) ++ (← r.items depth place path (index + 1))

/-- Unfolded so often, a computation with the recursion gives this from there, whatever stands for the calls beyond. -/
def Unfolds (invoke : Invoke) (f : Recursion → Pass α) (handlers : Array Value) (m : Machine)
    (result : EStateM.Result RenderError Machine (α × Array Value)) : Prop :=
  ∃ count, ∀ r, f ((Recursion.step invoke)^[count] r) handlers m = result

namespace Unfolds
variable {f : Recursion → Pass α} {g : α → Recursion → Pass β} {handlers given : Array Value} {m n : Machine}
  {result : EStateM.Result RenderError Machine (α × Array Value)}

theorem const (p : Pass α) (handlers : Array Value) (m : Machine) :
    Unfolds invoke (fun _ => p) handlers m (p handlers m) := ⟨0, fun _ => rfl⟩

/-- Unfolded more often it gives the same. -/
theorem more {count : Nat} (h : ∀ r, f ((Recursion.step invoke)^[count] r) handlers m = result) {larger : Nat}
    (hl : count ≤ larger) (r : Recursion) : f ((Recursion.step invoke)^[larger] r) handlers m = result := by
  obtain ⟨rest, rfl⟩ := Nat.exists_eq_add_of_le hl
  rw [Function.iterate_add_apply]
  exact h _

theorem unfold (h : Unfolds invoke (fun r => f (r.step invoke)) handlers m result) :
    Unfolds invoke f handlers m result := by
  obtain ⟨count, h⟩ := h
  refine ⟨count + 1, fun r => ?_⟩
  rw [Function.iterate_succ_apply']
  exact h r

theorem bind_ok {a : α} {result : EStateM.Result RenderError Machine (β × Array Value)}
    (hf : Unfolds invoke f handlers m (.ok (a, given) n)) (hg : Unfolds invoke (g a) given n result) :
    Unfolds invoke (fun r => f r >>= fun a => g a r) handlers m result := by
  obtain ⟨count, hf⟩ := hf
  obtain ⟨larger, hg⟩ := hg
  refine ⟨max count larger, fun r => ?_⟩
  exact (run_after (more hf (Nat.le_max_left ..) r)).trans (more hg (Nat.le_max_right ..) r)

theorem bind_error {e : RenderError} (hf : Unfolds invoke f handlers m (.error e n)) :
    Unfolds invoke (fun r => f r >>= fun a => g a r) handlers m (.error e n) := by
  obtain ⟨count, hf⟩ := hf
  exact ⟨count, fun r => bind_of_error (hf r)⟩

end Unfolds

/-! ### Parts of a pass that end -/

/-- A machine is as it was, or has fewer steps left. -/
def Thrifty (m n : Machine) : Prop := n = m ∨ ∀ k, m.steps = some k → ∃ j < k, n.steps = some j

theorem Thrifty.trans {l m n : Machine} (h : Thrifty l m) (h' : Thrifty m n) : Thrifty l n := by
  rcases h with rfl | h
  · exact h'
  · refine .inr fun k hk => ?_
    obtain ⟨j, hj, hm⟩ := h k hk
    rcases h' with rfl | h'
    · exact ⟨j, hj, hm⟩
    · obtain ⟨i, hi, hn⟩ := h' j hm
      exact ⟨i, Nat.lt_trans hi hj, hn⟩

theorem Thrifty.isSome {m n : Machine} (h : Thrifty m n) (hm : m.steps.isSome) : n.steps.isSome := by
  rcases h with rfl | h
  · exact hm
  · obtain ⟨k, hk⟩ := Option.isSome_iff_exists.1 hm
    obtain ⟨j, -, hn⟩ := h k hk
    exact Option.isSome_iff_exists.2 ⟨j, hn⟩

/-- The time of a pass is over. -/
def Late (result : EStateM.Result RenderError Machine α) : Prop := ∃ n, result = .error (.script Run.overtime) n

/-- From there a computation with the recursion unfolds, and a part of a pass gives the same unless its time is over. -/
structure EndsAt (invoke : Invoke) (f : Recursion → Pass α) (p : Pass α) (handlers : Array Value) (m : Machine)
    (result : EStateM.Result RenderError Machine (α × Array Value)) : Prop where
  unfolds : Unfolds invoke f handlers m result
  thrifty : ∀ a n, result = .ok a n → Thrifty m n
  same : p handlers m = result ∨ Late (p handlers m)

/-- A computation with the recursion unfolds wherever it is started within an allowance. -/
structure Ends (invoke : Invoke) (f : Recursion → Pass α) (p : Pass α) : Prop where
  result : ∀ handlers m, m.steps.isSome → ∃ result, EndsAt invoke f p handlers m result

namespace EndsAt
variable {f : Recursion → Pass α} {g : α → Recursion → Pass β} {p : Pass α} {k : α → Pass β}
  {handlers given : Array Value} {m n : Machine}

theorem pure (a : α) : EndsAt invoke (fun _ => Pure.pure a) (Pure.pure a) handlers m (.ok (a, handlers) m) where
  unfolds := .const (Pure.pure a) handlers m
  thrifty _ _ h := by
    cases h
    exact .inl rfl
  same := .inl rfl

/-- A part ends when its beginning does, and then what comes behind. -/
theorem bind {first : EStateM.Result RenderError Machine (α × Array Value)} (hf : EndsAt invoke f p handlers m first)
    (hg : ∀ a given n, Thrifty m n → ∃ result, EndsAt invoke (g a) (k a) given n result) :
    ∃ result, EndsAt invoke (fun r => f r >>= fun a => g a r) (p >>= k) handlers m result := by
  cases first with
  | ok r n =>
    have ht := hf.thrifty _ _ rfl
    obtain ⟨result, h⟩ := hg r.1 r.2 n ht
    refine ⟨result, hf.unfolds.bind_ok h.unfolds, fun b l hr => ht.trans (h.thrifty b l hr), ?_⟩
    rcases hf.same with hp | ⟨l, hp⟩
    · rw [run_after hp]
      exact h.same
    · exact .inr ⟨l, bind_of_error hp⟩
  | error e n =>
    refine ⟨_, hf.unfolds.bind_error, (fun _ _ h => nomatch h), ?_⟩
    rcases hf.same with hp | ⟨l, hp⟩
    · exact .inl (bind_of_error hp)
    · exact .inr ⟨l, bind_of_error hp⟩

variable {f' : Recursion → Pass α} {p' : Pass α} {result : EStateM.Result RenderError Machine (α × Array Value)}

theorem unfold (h : EndsAt invoke (fun r => f (r.step invoke)) p handlers m result) :
    EndsAt invoke f p handlers m result := ⟨h.unfolds.unfold, h.thrifty, h.same⟩

/-- What is the same from there ends there as well. -/
theorem congr (h : EndsAt invoke f p handlers m result) (hf : ∀ r, f' r handlers m = f r handlers m)
    (hp : p' handlers m = p handlers m) : EndsAt invoke f' p' handlers m result where
  unfolds := by
    obtain ⟨count, h⟩ := h.unfolds
    exact ⟨count, fun r => (hf _).trans (h r)⟩
  thrifty := h.thrifty
  same := hp ▸ h.same

/-- A part of a pass whose time is over may differ. -/
theorem late (h : EndsAt invoke f p handlers m result) (hlate : Late (p' handlers m)) :
    EndsAt invoke f p' handlers m result := ⟨h.unfolds, h.thrifty, .inr hlate⟩

end EndsAt

namespace Ends
variable {f f' : Recursion → Pass α} {p p' : Pass α}

theorem const (h : ∀ handlers m a n, p handlers m = .ok a n → Thrifty m n) : Ends invoke (fun _ => p) p where
  result handlers m _ := ⟨p handlers m, .const p handlers m, h handlers m, .inl rfl⟩

theorem pure (a : α) : Ends invoke (fun _ => (Pure.pure a : Pass α)) (Pure.pure a) := ⟨fun _ _ _ => ⟨_, .pure a⟩⟩

theorem throw (e : RenderError) : Ends invoke (fun _ => (MonadExcept.throw e : Pass α)) (MonadExcept.throw e) :=
  .const fun _ _ _ _ h => nomatch h

theorem unfold (h : Ends invoke (fun r => f (r.step invoke)) p) : Ends invoke f p where
  result handlers m hm := by
    obtain ⟨result, h⟩ := h.result handlers m hm
    exact ⟨result, h.unfold⟩

theorem bind {g : α → Recursion → Pass β} {k : α → Pass β} (hf : Ends invoke f p) (hg : ∀ a, Ends invoke (g a) (k a)) :
    Ends invoke (fun r => f r >>= fun a => g a r) (p >>= k) where
  result handlers m hm := by
    obtain ⟨first, h⟩ := hf.result handlers m hm
    exact h.bind fun a given n thrifty => (hg a).result given n (thrifty.isSome hm)

theorem ite {c : Prop} [Decidable c] (h : Ends invoke f p) (h' : Ends invoke f' p') :
    Ends invoke (fun r => if c then f r else f' r) (if c then p else p') := by
  split
  · exact h
  · exact h'

/-! What only reads leaves the machine as it is. -/

theorem ofRun {r : Run α} (h : ∀ m a n, r m = .ok a n → n = m) : Ends invoke (fun _ => Pass.ofRun r) (Pass.ofRun r) :=
  .const fun handlers m a n he => by
    unfold Pass.ofRun at he
    split at he
    · cases he
      exact .inl (h m _ n ‹_›)
    · exact nomatch he

theorem readTable (place : Nat) :
    Ends invoke (fun _ => Pass.ofRun (Run.readTable place)) (Pass.ofRun (Run.readTable place)) :=
  .ofRun fun _ _ _ h => by
    cases h
    rfl

theorem props? (t : Table) : Ends invoke (fun _ => Pass.props? t) (Pass.props? t) :=
  .const fun _ _ _ _ h => .inl (props?_ok h).2

theorem keyText? (v : Value) : Ends invoke (fun _ => Pass.keyText? v) (Pass.keyText? v) :=
  .const fun _ _ _ _ h => .inl (keyText?_ok h).2

theorem readProps (own : List (Value × Value)) (attributes : List (String × String))
    (handlers : List (String × Value)) :
    Ends invoke (fun _ => Pass.readProps own attributes handlers) (Pass.readProps own attributes handlers) := by
  induction own generalizing attributes handlers with
  | nil => exact .pure _
  | cons e r ih =>
    obtain ⟨key, v⟩ := e
    cases key
    case str s =>
      unfold Pass.readProps
      dsimp only
      split
      · exact ih ..
      · exact ih ..
      · refine .bind (.readTable _) fun t => .bind ?_ fun rules => ih ..
        unfold Pass.ofExcept
        split
        · exact .pure _
        · exact .throw _
      · exact ih ..
    all_goals exact ih ..

theorem deal (handlers : List (String × Value)) : Ends invoke (fun _ => Pass.deal handlers) (Pass.deal handlers) :=
  .const fun _ _ _ _ h => by
    cases h
    exact .inl rfl

/-- A body that gives a value has spent a step. -/
theorem callBody (hi : Paid invoke) (key : Hook.Key) (place : Nat) (props : Value) :
    Ends invoke (fun _ => Pass.callBody invoke key place props) (Pass.callBody invoke key place props) := by
  refine .const fun handlers m a n h => ?_
  unfold Pass.callBody at h
  split at h
  · rename_i v l hr
    cases h
    obtain ⟨vs, l, hv, he⟩ := bind_ok hr
    cases he
    unfold Run.across at hv
    split at hv
    · rename_i hcall
      cases hv
      refine .inr fun k hk => ?_
      obtain ⟨j, hj, hn⟩ := hi _ _ _ _ _ _ k hcall hk
      exact ⟨j, hj, hn⟩
    · exact nomatch hv
  · exact nomatch h

end Ends

/-! ### Components, values and lists -/

section Below
variable {component : Nat → Value → String → Pass (List Node)} {value : Value → String → Pass (List Node)}
  {belowComponent : Recursion → Nat → Value → String → Pass (List Node)}
  {belowValue : Recursion → Value → String → Pass (List Node)}

theorem ends_elementBy
    (hc : ∀ place props path, Ends invoke (fun r => belowComponent r place props path) (component place props path))
    (hv : ∀ v path, Ends invoke (fun r => belowValue r v path) (value v path)) (t : Table) (path : String) :
    Ends invoke (fun r => elementBy (belowComponent r) (belowValue r) t path) (elementBy component value t path) := by
  refine .bind (.props? t) fun own? => ?_
  generalize t.getName "type" = kind
  cases kind
  case str s =>
    have hk (own : Table) : Ends invoke (fun r => tagged (belowValue r) (Text.decodeLossy s) path own)
        (tagged value (Text.decodeLossy s) path own) :=
      .ite (hv ..) (.bind (.readProps ..) fun read => .bind (.deal _) fun _ => .bind (hv ..) fun _ => .pure _)
    cases own? with
    | none => exact .bind (.pure _) hk
    | some place => exact .bind (.readTable place) hk
  case func place => exact hc ..
  all_goals exact .throw _

theorem ends_valueBy {list : Nat → Table → String → Pass (List Node)}
    {belowList : Recursion → Nat → Table → String → Pass (List Node)}
    (hc : ∀ place props path, Ends invoke (fun r => belowComponent r place props path) (component place props path))
    (hv : ∀ v path, Ends invoke (fun r => belowValue r v path) (value v path))
    (hl : ∀ place t path, Ends invoke (fun r => belowList r place t path) (list place t path))
    (v : Value) (path : String) :
    Ends invoke (fun r => valueBy (belowComponent r) (belowValue r) (belowList r) v path)
      (valueBy component value list v path) := by
  unfold valueBy
  cases v
  case nil | bool | null => exact .pure []
  case table place =>
    exact .bind (.readTable place) fun t => .ite (ends_elementBy hc hv t path) <| .ite (.throw _) (hl place t path)
  all_goals
    dsimp only
    generalize plainText? _ = text?
    cases text? with
    | some text => exact .pure _
    | none => exact .throw _

section Items
variable {depth place index more : Nat} {path : String} {handlers : Array Value} {m : Machine}

/-- Where an item is, a list is walked to its end if it is from the next one on. -/
theorem ends_items_of_next {child : Value}
    (hv : ∀ v path, Ends invoke (fun r => r.value (depth + 1) v path) (value v path))
    (hm : m.steps.isSome) (hc : (m.tables.getD place {}).item? index = some child)
    (next : ∀ more given n, Thrifty m n → ∃ result, EndsAt invoke (fun r => r.items depth place path (index + 1))
      (each value place path more (index + 1)) given n result) :
    ∃ result, EndsAt invoke (fun r => r.items depth place path index) (each value place path more index)
      handlers m result := by
  have here : Ends invoke (fun r => inPlace (r.value (depth + 1)) path index child) (inPlace value path index child) :=
    .bind (.keyText? child) fun _ => hv ..
  have hlook (r : Recursion) : (r.step invoke).items depth place path index handlers m =
      (do return (← inPlace (r.value (depth + 1)) path index child) ++ (← r.items depth place path (index + 1)) :
        Pass (List Node)) handlers m := run_after (item?_ok hc)
  have within (more : Nat) : ∃ result, EndsAt invoke (fun r => r.items depth place path index)
      (each value place path (more + 1) index) handlers m result := by
    obtain ⟨first, h⟩ := here.result handlers m hm
    obtain ⟨result, h⟩ := h.bind (k := fun nodes => do return nodes ++ (← each value place path more (index + 1)))
      (g := fun nodes r => do return nodes ++ (← r.items depth place path (index + 1))) fun nodes given n thrifty => by
        obtain ⟨rest, h⟩ := next more given n thrifty
        exact h.bind fun rest _ _ _ => ⟨_, .pure (nodes ++ rest)⟩
    exact ⟨result, .unfold <| h.congr hlook (each_some hc)⟩
  cases more with
  | zero =>
    obtain ⟨result, h⟩ := within 0
    exact ⟨result, h.late ⟨m, each_over hc⟩⟩
  | succ more => exact within more

/-- **A list is walked to its end.** The steps that are left count first, and then the items that are left: a call takes
a step, and without one the list is as it was. -/
theorem ends_items (hv : ∀ v path, Ends invoke (fun r => r.value (depth + 1) v path) (value v path))
    (hm : m.steps.isSome) : ∃ result, EndsAt invoke (fun r => r.items depth place path index)
      (each value place path more index) handlers m result := by
  obtain ⟨k, hk⟩ := Option.isSome_iff_exists.1 hm
  induction k using Nat.strongRecOn generalizing index more handlers m with
  | ind k fewer =>
    induction hs : (m.tables.getD place {}).items.size - index using Nat.strongRecOn
      generalizing index more handlers with
    | ind rest shorter =>
      cases hc : (m.tables.getD place {}).item? index with
      | none =>
        have hnone (r : Recursion) : (r.step invoke).items depth place path index handlers m = .ok ([], handlers) m :=
          run_after (item?_ok hc)
        exact ⟨_, .unfold <| .congr (EndsAt.pure []) hnone (each_none hc)⟩
      | some child =>
        refine ends_items_of_next hv hm hc fun more given n thrifty => ?_
        rcases thrifty with rfl | h
        · have hlt : index < (n.tables.getD place {}).items.size := Table.lt_of_item? hc
          exact shorter _ (by omega) rfl
        · obtain ⟨j, hj, hn⟩ := h k hk
          exact fewer j hj (Option.isSome_iff_exists.2 ⟨j, hn⟩) hn

end Items

end Below

/-- Components and values end wherever they are rendered, however many levels there still are. -/
theorem ends_component_value (paid : Paid invoke) {left depth : Nat} (from_root : depth + left = maxDepth + 1) :
    (∀ place props path, Ends invoke (fun r => r.component depth place props path)
      (component invoke left place props path)) ∧
    ∀ v path, Ends invoke (fun r => r.value depth v path) (value invoke left v path) := by
  induction left generalizing depth with
  | zero =>
    have deep : maxDepth < depth := by omega
    refine ⟨fun place props path => .unfold ?_, fun v path => .unfold ?_⟩
    · simp only [Recursion.step, if_pos deep]
      exact .throw _
    · simp only [Recursion.step, if_pos deep]
      exact .throw _
  | succ left ih =>
    have shallow : ¬maxDepth < depth := by omega
    obtain ⟨hc, hv⟩ := @ih (depth + 1) (by omega)
    refine ⟨fun place props path => .unfold ?_, fun v path => .unfold ?_⟩
    · simp only [Recursion.step, if_neg shallow]
      exact .bind (.callBody paid ..) fun v => hv ..
    · simp only [Recursion.step, if_neg shallow, value_succ]
      refine ends_valueBy hc hv (fun place t path => ⟨fun handlers m hm => ?_⟩) v path
      obtain ⟨result, h⟩ : ∃ result, EndsAt invoke (fun r => r.items depth place path 0)
          (each (value invoke left) place path (t.items.size + m.steps.getD m.allowance) 0) handlers m result :=
        ends_items hv hm
      exact ⟨result, h.congr (fun _ => rfl) (run_after (p := reach t) rfl)⟩

/-- **The recursion of a pass ends, wherever it is started within an allowance**: so often unfolded it makes no call
beyond. The pass gives the same as the recursion unless its time is over. -/
theorem ends_root (paid : Paid invoke) (f : Nat) (props : Value) :
    Ends invoke (fun r => r.component 0 f props "root") (root invoke (.func f) props) :=
  (ends_component_value paid (Nat.zero_add _)).1 f props "root"

end LivePreview.Surface
