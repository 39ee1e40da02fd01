import LivePreview.Proofs.Surface.Unfolding

/-! **A pass goes no deeper than it may, and its nodes nest no deeper than it goes.**

What is too deep is refused at once, so that the recursion of a pass never looks at what stands for deeper calls
(`Agree.iterate`). -/
namespace LivePreview.Surface
open Script Pass
variable {α β : Type} {invoke : Invoke}

/-! ### How deep the recursion goes -/

namespace Recursion

/-- The same for the levels that there are, and for the first one that is too deep. -/
structure Agree (r s : Recursion) : Prop where
  component : ∀ depth ≤ maxDepth + 1, r.component depth = s.component depth
  value : ∀ depth ≤ maxDepth + 1, r.value depth = s.value depth
  items : ∀ depth ≤ maxDepth, r.items depth = s.items depth

theorem Agree.step {r s : Recursion} (h : Agree r s) : Agree (r.step invoke) (s.step invoke) where
  component depth _ := by
    funext place props path
    by_cases deep : maxDepth < depth
    · exact (if_pos deep).trans (if_pos deep).symm
    · simp only [Recursion.step, h.value (depth + 1) (by omega)]
  value depth _ := by
    funext v path
    by_cases deep : maxDepth < depth
    · exact (if_pos deep).trans (if_pos deep).symm
    · simp only [Recursion.step, h.component (depth + 1) (by omega), h.value (depth + 1) (by omega),
        h.items depth (by omega)]
  items depth hd := by
    simp only [Recursion.step, h.value (depth + 1) (by omega), h.items depth hd]

/-- **However often it is unfolded, the recursion never goes deeper**: what stands for deeper calls counts for
nothing. -/
theorem Agree.iterate {r s : Recursion} (h : Agree r s) (count : Nat) :
    Agree ((Recursion.step invoke)^[count] r) ((Recursion.step invoke)^[count] s) := by
  induction count with
  | zero => exact h
  | succ count ih =>
    rw [Function.iterate_succ_apply', Function.iterate_succ_apply']
    exact ih.step

end Recursion

/-! ### How deep nodes nest -/

mutual

/-- How many levels a node has, itself counted. -/
def levels : Node → Nat
  | .text _ => 1
  | .element _ _ _ children => levelsAll children + 1

def levelsAll : List Node → Nat
  | [] => 0
  | n :: ns => max (levels n) (levelsAll ns)

end

theorem levelsAll_append (ns ks : List Node) : levelsAll (ns ++ ks) = max (levelsAll ns) (levelsAll ks) := by
  induction ns with
  | nil => exact (Nat.zero_max _).symm
  | cons n ns ih => exact (congrArg (max (levels n)) ih).trans (Nat.max_assoc ..).symm

/-- Whatever a part of a pass gives has the property. -/
structure Gives (P : α → Prop) (p : Pass α) : Prop where
  result : ∀ {handlers m a given n}, p handlers m = .ok (a, given) n → P a

namespace Gives
variable {P : α → Prop} {Q : β → Prop}

theorem pure {a : α} (h : P a) : Gives P (Pure.pure a) where
  result he := by
    cases he
    exact h

theorem throw (e : RenderError) : Gives P (MonadExcept.throw e) where
  result he := nomatch he

theorem any (p : Pass α) : Gives (fun _ => True) p where
  result _ := trivial

theorem bind {p : Pass α} {k : α → Pass β} (hp : Gives P p) (hk : ∀ a, P a → Gives Q (k a)) : Gives Q (p >>= k) where
  result he := by
    obtain ⟨⟨a, given⟩, n, ha, hb⟩ := bind_ok he
    exact (hk a (hp.result ha)).result hb

theorem ite {c : Prop} [Decidable c] {p q : Pass α} (hp : Gives P p) (hq : Gives P q) :
    Gives P (if c then p else q) := by
  split
  · exact hp
  · exact hq

end Gives

/-- Nodes of at most so many levels. -/
def Within (bound : Nat) (ns : List Node) : Prop := levelsAll ns ≤ bound

theorem Within.mono {bound larger : Nat} {ns : List Node} (h : Within bound ns) (hb : bound ≤ larger) :
    Within larger ns := Nat.le_trans h hb

theorem within_append {bound : Nat} {ns ks : List Node} (hn : Within bound ns) (hk : Within bound ks) :
    Within bound (ns ++ ks) := Nat.le_trans (Nat.le_of_eq (levelsAll_append ..)) (Nat.max_le.2 ⟨hn, hk⟩)

section Below
variable {component : Nat → Value → String → Pass (List Node)} {value : Value → String → Pass (List Node)}
  {bound : Nat}

theorem Gives.within_mono {p : Pass (List Node)} (h : Gives (Within bound) p) {larger : Nat} (hb : bound ≤ larger) :
    Gives (Within larger) p where
  result he := (h.result he).mono hb

/-- An element has one level more than what is below it. -/
theorem within_elementBy (hc : ∀ place props path, Gives (Within bound) (component place props path))
    (hv : ∀ v path, Gives (Within bound) (value v path)) (t : Table) (path : String) :
    Gives (Within (bound + 1)) (elementBy component value t path) := by
  refine .bind (.any _) fun own? _ => ?_
  generalize t.getName "type" = kind
  cases kind
  case str s =>
    have hk (own : Table) : Gives (Within (bound + 1)) (tagged value (Text.decodeLossy s) path own) := by
      refine .ite ((hv ..).within_mono (Nat.le_succ _)) <| .bind (.any _) fun r _ => .bind (.any _) fun ids _ => ?_
      exact .bind (hv ..) fun ns hns => .pure (Nat.max_le.2 ⟨Nat.succ_le_succ hns, Nat.zero_le _⟩)
    cases own? with
    | none => exact .bind (.any _) fun own _ => hk own
    | some place => exact .bind (.any _) fun own _ => hk own
  case func place => exact (hc ..).within_mono (Nat.le_succ _)
  all_goals exact .throw _

/-- A list has the levels of its items. -/
theorem within_each (hv : ∀ v path, Gives (Within bound) (value v path)) (place : Nat) (path : String)
    (more index : Nat) : Gives (Within bound) (each value place path more index) := by
  unfold each
  induction more generalizing index with
  | zero =>
    refine .bind (.any _) fun child? _ => ?_
    cases child? with
    | none => exact .pure (Nat.zero_le _)
    | some child => exact .throw _
  | succ more ih =>
    refine .bind (.any _) fun child? _ => ?_
    cases child? with
    | none => exact .pure (Nat.zero_le _)
    | some child =>
      refine .bind (.bind (.any _) fun key? _ => hv ..) fun first hf => .bind (ih _) fun rest hr => .pure ?_
      exact within_append hf hr

theorem within_valueBy {list : Nat → Table → String → Pass (List Node)}
    (hc : ∀ place props path, Gives (Within bound) (component place props path))
    (hv : ∀ v path, Gives (Within bound) (value v path))
    (hl : ∀ place t path, Gives (Within bound) (list place t path)) (v : Value) (path : String) :
    Gives (Within (bound + 1)) (valueBy component value list v path) := by
  unfold valueBy
  cases v
  case nil | bool | null => exact .pure (Nat.zero_le _)
  case table place =>
    refine .bind (.any _) fun t _ => .ite (within_elementBy hc hv t path) <| .ite (.throw _) ?_
    exact (hl ..).within_mono (Nat.le_succ _)
  all_goals
    dsimp only
    generalize plainText? _ = text?
    cases text? with
    | some text => exact .pure (Nat.max_le.2 ⟨Nat.le_add_left .., Nat.zero_le _⟩)
    | none => exact .throw _

end Below

/-- **Nodes have at most as many levels as were left.** -/
theorem within_component_value (invoke : Invoke) (left : Nat) :
    (∀ place props path, Gives (Within (left - 1)) (component invoke left place props path)) ∧
      ∀ v path, Gives (Within left) (value invoke left v path) := by
  induction left with
  | zero => exact ⟨fun _ _ _ => .throw _, fun _ _ => .throw _⟩
  | succ left ih =>
    obtain ⟨hc, hv⟩ := ih
    refine ⟨fun place props path => .bind (.any _) fun v _ => hv .., fun v path => ?_⟩
    rw [value_succ]
    refine within_valueBy (fun _ _ _ => (hc ..).within_mono (Nat.sub_le ..)) hv (fun place t path => ?_) v path
    exact .bind (.any _) fun more _ => within_each hv ..

/-- Nodes have at most as many levels as there are below the depth at which they stand. -/
structure Recursion.Shallow (r : Recursion) : Prop where
  component : ∀ depth place props path, Gives (Within (maxDepth - depth)) (r.component depth place props path)
  value : ∀ depth v path, Gives (Within (maxDepth + 1 - depth)) (r.value depth v path)
  items : ∀ depth place path index, Gives (Within (maxDepth - depth)) (r.items depth place path index)

theorem Recursion.Shallow.step {r : Recursion} (h : r.Shallow) : (r.step invoke).Shallow where
  component depth place props path := by
    refine .ite (.throw _) <| .bind (.any _) fun v _ => ?_
    exact (h.value ..).within_mono (by omega)
  value depth v path := by
    unfold Recursion.step
    dsimp only
    split
    · exact .throw _
    · have hc (place : Nat) (props : Value) (path : String) :
          Gives (Within (maxDepth - depth)) (r.component (depth + 1) place props path) :=
        (h.component ..).within_mono (by omega)
      have hv (v : Value) (path : String) : Gives (Within (maxDepth - depth)) (r.value (depth + 1) v path) :=
        (h.value ..).within_mono (by omega)
      exact (within_valueBy hc hv (fun place _ path => h.items depth place path 0) v path).within_mono (by omega)
  items depth place path index := by
    refine .bind (.any _) fun child? _ => ?_
    cases child? with
    | none => exact .pure (Nat.zero_le _)
    | some child =>
      refine .bind (.bind (.any _) fun key? _ => h.value ..) fun first hf => .bind (h.items ..) fun rest hr => .pure ?_
      exact within_append (hf.mono (by omega)) hr

theorem shallow_iterate {r : Recursion} (h : r.Shallow) (count : Nat) :
    ((Recursion.step invoke)^[count] r).Shallow := by
  induction count with
  | zero => exact h
  | succ count ih =>
    rw [Function.iterate_succ_apply']
    exact ih.step

/-- **What the recursion gives nests no deeper than it may go.** -/
theorem within_of_unfolds {f : Nat} {props : Value} {path : String} {handlers given : Array Value} {m n : Machine}
    {nodes : List Node} (h : Unfolds invoke (fun r => r.component 0 f props path) handlers m (.ok (nodes, given) n)) :
    levelsAll nodes ≤ maxDepth := by
  obtain ⟨count, h⟩ := h
  -- what stands for the calls beyond counts for nothing, so it may refuse them
  let refusing : Recursion := ⟨fun _ _ _ _ => throw (.depthExceeded maxDepth), fun _ _ _ =>
    throw (.depthExceeded maxDepth), fun _ _ _ _ => throw (.depthExceeded maxDepth)⟩
  have shallow : refusing.Shallow := ⟨fun _ _ _ _ => .throw _, fun _ _ _ => .throw _, fun _ _ _ _ => .throw _⟩
  exact ((shallow_iterate shallow count).component 0 f props path).result (h refusing)

end LivePreview.Surface
