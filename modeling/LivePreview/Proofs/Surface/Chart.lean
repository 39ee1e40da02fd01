import LivePreview.Proofs.Surface.Pass

/-! The chart of a pass: the tree of the places that it comes to.

Only what tells places apart is charted: the items of a list and the instances of components. Tags and
fragments with one child are at the place of this child. A part of a pass is charted as what it does together with
the places it comes to, in the order in which it does. Charting changes nothing (`chartRoot_run`), and the instances
of the chart are those that the store has as rendered (`mem_rendered_root`). -/
namespace LivePreview.Surface
open Script Pass
variable {α β : Type}

/-- Places side by side: instances, with their keys and what they render, and children, with what is there. -/
inductive Chart where
  | nil
  | body (key : Hook.Key) (inner rest : Chart)
  | child (index : Nat) (key? : Option String) (inner rest : Chart)
deriving DecidableEq, Repr

namespace Chart

def append : Chart → Chart → Chart
  | nil, other => other
  | body key inner rest, other => body key inner (append rest other)
  | child index key? inner rest, other => child index key? inner (append rest other)

/-- The keys of all instances, in the order in which they are rendered. -/
def keys : Chart → List Hook.Key
  | nil => []
  | body key inner rest => key :: (inner.keys ++ rest.keys)
  | child _ _ inner rest => inner.keys ++ rest.keys

/-- The keys that children have, of those side by side here. -/
def given : Chart → List String
  | nil => []
  | body _ _ rest => rest.given
  | child _ key? _ rest => key?.toList ++ rest.given

/-- Wherever children are side by side, any two of their keys are related. -/
def Siblings (R : String → String → Prop) : Chart → Prop
  | nil => True
  | body _ inner rest => inner.Siblings R ∧ rest.Siblings R
  | child _ key? inner rest =>
    (∀ key ∈ key?.toList, ∀ other ∈ rest.given, R key other) ∧ inner.Siblings R ∧ rest.Siblings R

instance decidableSiblings (R : String → String → Prop) [DecidableRel R] : (c : Chart) → Decidable (c.Siblings R)
  | nil => inferInstanceAs (Decidable True)
  | body _ inner rest =>
    have := decidableSiblings R inner
    have := decidableSiblings R rest
    inferInstanceAs (Decidable (inner.Siblings R ∧ rest.Siblings R))
  | child _ key? inner rest =>
    have := decidableSiblings R inner
    have := decidableSiblings R rest
    inferInstanceAs (Decidable
      ((∀ key ∈ key?.toList, ∀ other ∈ rest.given, R key other) ∧ inner.Siblings R ∧ rest.Siblings R))

@[simp] theorem append_nil (c : Chart) : c.append nil = c := by
  induction c with
  | nil => rfl
  | body key inner rest _ ih => exact congrArg (body key inner) ih
  | child index key? inner rest _ ih => exact congrArg (child index key? inner) ih

theorem append_assoc (c d e : Chart) : (c.append d).append e = c.append (d.append e) := by
  induction c <;> simp [append, *]

theorem keys_append (c d : Chart) : (c.append d).keys = c.keys ++ d.keys := by
  induction c with
  | nil => rfl
  | body key inner rest _ ih => simp [append, keys, ih]
  | child index key? inner rest _ ih => simp [append, keys, ih]

end Chart

/-- A part of a pass with its chart. -/
structure Charted (α : Type) where
  run : Pass α
  chart : Array Value → Machine → Chart

namespace Charted

/-- A part in which no place is come to. -/
def quiet (p : Pass α) : Charted α := ⟨p, fun _ _ => .nil⟩

/-- The chart of what comes behind a part with this result. -/
def chartFrom (k : α → Charted β) : EStateM.Result RenderError Machine (α × Array Value) → Chart
  | .ok r m => (k r.1).chart r.2 m
  | .error _ _ => .nil

/-- The chart goes on where the first part ends. -/
def andThen (t : Charted α) (k : α → Charted β) : Charted β where
  run := t.run >>= fun a => (k a).run
  chart handlers m := (t.chart handlers m).append (chartFrom k (t.run handlers m))

instance : Monad Charted where
  pure a := quiet (Pure.pure a)
  bind := andThen

def body (key : Hook.Key) (t : Charted α) : Charted α :=
  ⟨t.run, fun handlers m => .body key (t.chart handlers m) .nil⟩

def child (index : Nat) (key? : Option String) (t : Charted α) : Charted α :=
  ⟨t.run, fun handlers m => .child index key? (t.chart handlers m) .nil⟩

@[simp] theorem run_pure (a : α) : (pure a : Charted α).run = pure a := rfl
@[simp] theorem run_quiet (p : Pass α) : (quiet p).run = p := rfl
@[simp] theorem run_bind (t : Charted α) (k : α → Charted β) : (t >>= k).run = t.run >>= fun a => (k a).run := rfl
@[simp] theorem run_body (key : Hook.Key) (t : Charted α) : (t.body key).run = t.run := rfl
@[simp] theorem run_child (index : Nat) (key? : Option String) (t : Charted α) :
    (t.child index key?).run = t.run := rfl

theorem run_ite {c : Prop} [Decidable c] (t k : Charted α) :
    (if c then t else k).run = if c then t.run else k.run := apply_ite ..

section Bind
variable {t : Charted α} {k : α → Charted β} {handlers : Array Value} {m n : Machine}

theorem run_bind_ok {r : α × Array Value} (h : t.run handlers m = .ok r n) :
    (t >>= k).run handlers m = (k r.1).run r.2 n :=
  bind_of_ok (k := fun r : α × Array Value => (k r.1).run r.2) h

theorem run_bind_error {e : RenderError} (h : t.run handlers m = .error e n) :
    (t >>= k).run handlers m = .error e n :=
  bind_of_error (k := fun r : α × Array Value => (k r.1).run r.2) h

theorem chart_bind_ok {r : α × Array Value} (h : t.run handlers m = .ok r n) :
    (t >>= k).chart handlers m = (t.chart handlers m).append ((k r.1).chart r.2 n) :=
  congrArg (fun r => (t.chart handlers m).append (chartFrom k r)) h

theorem chart_bind_error {e : RenderError} (h : t.run handlers m = .error e n) :
    (t >>= k).chart handlers m = t.chart handlers m :=
  (congrArg (fun r => (t.chart handlers m).append (chartFrom k r)) h).trans (Chart.append_nil _)

end Bind

end Charted

/-! ### Parts of a pass -/

open Charted (quiet)

def chartElement (component : Nat → Value → String → Charted (List Node))
    (value : Value → String → Charted (List Node)) (t : Table) (path : String) : Charted (List Node) := do
  let own? ← quiet (props? t)
  match t.getName "type" with
  | .str s =>
    let tag := Text.decodeLossy s
    let own ← match own? with
      | some place => quiet (ofRun (Run.readTable place))
      | none => pure {}
    let children := own.getName "children"
    if tag == Element.fragment then value children path
    else
      let (attributes, handlers) ← quiet (readProps own.entries [] [])
      let handlers ← quiet (deal handlers)
      return [.element tag attributes handlers (← value children path)]
  | .func place =>
    let props := match own? with
      | some place => .table place
      | none => .nil
    component place props path
  | v => quiet (throw (.invalidElementType v.hostTypeName))

def chartInPlace (value : Value → String → Charted (List Node)) (path : String) (index : Nat) (child : Value) :
    Charted (List Node) := do
  let key? ← quiet (keyText? child)
  (value child (childPath path index key?)).child index key?

/-- The items of a list from an index on, each with what is there. -/
def chartEach (value : Value → String → Charted (List Node)) (place : Nat) (path : String) (more index : Nat) :
    Charted (List Node) :=
  along (fun i => quiet (item? place i)) (chartInPlace value path) (quiet (throw (.script Run.overtime))) more index

mutual

def chartComponent (invoke : Invoke) : Nat → Nat → Value → String → Charted (List Node)
  | 0, _, _, _ => quiet (throw (.depthExceeded maxDepth))
  | left + 1, place, props, path => Charted.body (instanceKey path place) do
    let v ← quiet (callBody invoke (instanceKey path place) place props)
    chartValue invoke left v (innerPath (instanceKey path place))

def chartValue (invoke : Invoke) : Nat → Value → String → Charted (List Node)
  | 0, _, _ => quiet (throw (.depthExceeded maxDepth))
  | left + 1, v, path =>
    match v with
    | .nil | .bool _ | .null => return []
    | .table place => do
      let t ← quiet (ofRun (Run.readTable place))
      if Element.isElement t then chartElement (chartComponent invoke left) (chartValue invoke left) t path
      else if t.length == 0 && !t.entries.isEmpty then quiet (throw (.invalidChild "object"))
      else chartEach (chartValue invoke left) place path (← quiet (reach t)) 0
    | v => quiet (
      match plainText? v with
      | some text => return [.text text]
      | none => throw (.invalidChild v.hostTypeName))

end

def chartRoot (invoke : Invoke) (render props : Value) : Charted (List Node) :=
  match render with
  | .func place => chartComponent invoke (maxDepth + 1) place props "root"
  | v => quiet (throw (.invalidElementType v.hostTypeName))

/-- The part of an element with a name and properties of its own. -/
def chartTagged (value : Value → String → Charted (List Node)) (tag path : String) (own : Table) :
    Charted (List Node) :=
  if tag == Element.fragment then value (own.getName "children") path
  else do
    let r ← quiet (readProps own.entries [] [])
    let handlers ← quiet (deal r.2)
    return [.element tag r.1 handlers (← value (own.getName "children") path)]

/-! ### Charting changes nothing -/

section Runs
variable {plainComponent : Nat → Value → String → Pass (List Node)} {plainValue : Value → String → Pass (List Node)}
  {component : Nat → Value → String → Charted (List Node)} {value : Value → String → Charted (List Node)}

theorem chartElement_run
    (hc : ∀ place props path, (component place props path).run = plainComponent place props path)
    (hv : ∀ v path, (value v path).run = plainValue v path) (t : Table) (path : String) :
    (chartElement component value t path).run = elementBy plainComponent plainValue t path := by
  unfold chartElement elementBy
  rw [Charted.run_bind]
  refine bind_congr fun own? => ?_
  generalize t.getName "type" = kind
  cases kind
  case str => cases own? <;> simp [Charted.run_ite, hv]
  case func => exact hc ..
  all_goals rfl

theorem chartInPlace_run (hv : ∀ v path, (value v path).run = plainValue v path) (path : String) (index : Nat)
    (child : Value) : (chartInPlace value path index child).run = inPlace plainValue path index child :=
  bind_congr fun _ => hv ..

theorem chartEach_run (hv : ∀ v path, (value v path).run = plainValue v path) (place : Nat) (path : String)
    (more index : Nat) : (chartEach value place path more index).run = each plainValue place path more index := by
  unfold chartEach each
  induction more generalizing index with
  | zero =>
    refine bind_congr fun child? => ?_
    cases child? <;> rfl
  | succ more ih =>
    refine bind_congr fun child? => ?_
    cases child? with
    | none => rfl
    | some child =>
      dsimp only
      rw [Charted.run_bind, chartInPlace_run hv]
      exact bind_congr fun nodes => congrArg (· >>= _) (ih (index + 1))

theorem chartComponent_chartValue_run (invoke : Invoke) (left : Nat) :
    (∀ place props path, (chartComponent invoke left place props path).run =
        Pass.component invoke left place props path) ∧
      ∀ v path, (chartValue invoke left v path).run = Pass.value invoke left v path := by
  induction left with
  | zero => exact ⟨fun _ _ _ => rfl, fun _ _ => rfl⟩
  | succ left ih =>
    obtain ⟨hc, hv⟩ := ih
    refine ⟨fun place props path => bind_congr fun v => hv .., fun v path => ?_⟩
    cases v
    case table place =>
      refine bind_congr fun t => ?_
      simp only [Charted.run_ite, chartElement_run hc hv, Charted.run_bind, Charted.run_quiet, chartEach_run hv]
    all_goals rfl

/-- **What is charted is what a pass does.** -/
theorem chartRoot_run (invoke : Invoke) (render props : Value) :
    (chartRoot invoke render props).run = root invoke render props := by
  cases render
  case func place => exact (chartComponent_chartValue_run invoke _).1 ..
  all_goals rfl

end Runs

/-! ### What a pass renders -/

theorem mem_rendered_enter (s : Hook.Store Value) (key other : Hook.Key) :
    other ∈ (s.enter key).rendered ↔ other ∈ s.rendered ∨ other = key := by
  unfold Hook.Store.enter
  dsimp only
  split
  · rename_i h
    exact ⟨.inl, fun ho => ho.elim id fun he => he ▸ List.contains_iff_mem.1 h⟩
  · rw [List.mem_cons, or_comm]

/-- Before a part of a pass some instances have been rendered that are not in its chart. The store has as rendered in
the end what it had before, these instances, and those of the chart. -/
structure Charted.Enters (ahead : List Hook.Key) (t : Charted α) : Prop where
  mem : ∀ handlers m key, key ∈ (Run.last (t.run handlers) m).hooks.rendered ↔
    key ∈ m.hooks.rendered ∨ key ∈ ahead ++ (t.chart handlers m).keys

namespace Charted.Enters
variable {ahead : List Hook.Key}

theorem quiet {p : Pass α} (hp : ∀ P, Draws P p) : Enters [] (Charted.quiet p) where
  mem handlers m key := by
    have h : (Run.last (p handlers) m).hooks.rendered = m.hooks.rendered :=
      ((hp fun s => s.rendered = m.hooks.rendered).keep handlers).keep m rfl
    simp [Charted.quiet, h, Chart.keys]

theorem bind {t : Charted α} {k : α → Charted β} (ht : Enters ahead t) (hk : ∀ a, Enters [] (k a)) :
    Enters ahead (t >>= k) where
  mem handlers m key := by
    have h := ht.mem handlers m key
    cases hr : t.run handlers m with
    | ok r n =>
      rw [last_of_ok hr] at h
      rw [Run.last, run_bind_ok hr, ← Run.last, (hk r.1).mem r.2 n key, h, chart_bind_ok hr, Chart.keys_append]
      simp [or_assoc]
    | error e n =>
      rw [last_of_error hr] at h
      rwa [last_of_error (run_bind_error hr), chart_bind_error hr]

theorem ite {c : Prop} [Decidable c] {t k : Charted α} (ht : Enters ahead t) (hk : Enters ahead k) :
    Enters ahead (if c then t else k) := by
  split
  · exact ht
  · exact hk

theorem child {t : Charted α} (h : Enters [] t) (index : Nat) (key? : Option String) :
    Enters [] (t.child index key?) where
  mem handlers m key := by simp [h.mem handlers m key, Charted.child, Chart.keys]

theorem body {key : Hook.Key} {t : Charted α} (h : Enters [key] t) : Enters [] (t.body key) where
  mem handlers m other := by simp [h.mem handlers m other, Charted.body, Chart.keys]

/-- The body of an instance is entered whether its function ends or fails. -/
theorem callBody {invoke : Invoke} (hi : Scripted invoke) (key : Hook.Key) (place : Nat) (props : Value) :
    Enters [key] (Charted.quiet (Pass.callBody invoke key place props)) where
  mem handlers m other := by
    have hf := (first_stable (hi.stable (P := fun s => s.rendered = (m.hooks.enter key).rendered)
      (fun _ _ _ ha hs => ha.rendered.trans hs) Trail.host (.func place) [props])).keep
        { m with hooks := m.hooks.enter key } rfl
    have hk : (Run.last (Pass.callBody invoke key place props handlers) m).hooks.rendered =
        (m.hooks.enter key).rendered := by
      unfold Run.last at hf ⊢
      unfold Pass.callBody
      cases hr : Run.first (invoke Trail.host (.func place) [props]) { m with hooks := m.hooks.enter key } with
      | ok v n =>
        rw [hr] at hf
        exact hf
      | error e n =>
        rw [hr] at hf
        dsimp only
        split <;> exact hf
    show other ∈ (Run.last (Pass.callBody invoke key place props handlers) m).hooks.rendered ↔
      other ∈ m.hooks.rendered ∨ other ∈ [key]
    rw [hk, List.mem_singleton, mem_rendered_enter]

end Charted.Enters

section Entering
variable {invoke : Invoke} (hi : Scripted invoke)
include hi
variable {component : Nat → Value → String → Charted (List Node)}
  {value : Value → String → Charted (List Node)}

omit hi in
theorem chartElement_enters (hc : ∀ place props path, (component place props path).Enters [])
    (hv : ∀ v path, (value v path).Enters []) (t : Table) (path : String) :
    (chartElement component value t path).Enters [] := by
  have hr {place : Nat} : (quiet (ofRun (Run.readTable place))).Enters [] := .quiet fun _ => readTable_draws place
  refine .bind (.quiet fun _ => props?_draws t) fun own? => ?_
  split
  · rename_i s _
    have hk (own : Table) : (chartTagged value (Text.decodeLossy s) path own).Enters [] :=
      .ite (hv ..) <| .bind (.quiet fun _ => readProps_draws ..) fun r =>
        .bind (.quiet fun _ => deal_draws r.2) fun _ => .bind (hv ..) fun _ => .quiet fun _ => .pure _
    cases own? with
    | none => exact .bind (.quiet fun _ => .pure _) hk
    | some place => exact .bind hr hk
  · exact hc ..
  · exact .quiet fun _ => .throw _

omit hi in
theorem chartEach_enters (hv : ∀ v path, (value v path).Enters []) (place : Nat) (path : String)
    (more index : Nat) : (chartEach value place path more index).Enters [] := by
  have hlook (i : Nat) : (quiet (item? place i)).Enters [] := .quiet fun _ => item?_draws place i
  unfold chartEach
  induction more generalizing index with
  | zero =>
    refine .bind (hlook index) fun child? => ?_
    cases child? with
    | none => exact .quiet fun _ => .pure _
    | some child => exact .quiet fun _ => .throw _
  | succ more ih =>
    refine .bind (hlook index) fun child? => ?_
    cases child? with
    | none => exact .quiet fun _ => .pure _
    | some child =>
      have hitem : (chartInPlace value path index child).Enters [] :=
        .bind (.quiet fun _ => keyText?_draws child) fun key? => (hv child (childPath path index key?)).child index key?
      exact .bind hitem fun nodes => .bind (ih (index + 1)) fun _ => .quiet fun _ => .pure _

theorem chartComponent_chartValue_enters (left : Nat) :
    (∀ place props path, (chartComponent invoke left place props path).Enters []) ∧
      ∀ v path, (chartValue invoke left v path).Enters [] := by
  induction left with
  | zero => exact ⟨fun _ _ _ => .quiet fun _ => .throw _, fun _ _ => .quiet fun _ => .throw _⟩
  | succ left ih =>
    obtain ⟨hc, hv⟩ := ih
    refine ⟨fun place props path => .body (.bind (.callBody hi ..) fun v => hv ..), fun v path => ?_⟩
    cases v
    case table place =>
      exact .bind (.quiet fun _ => readTable_draws place) fun t => .ite (chartElement_enters hc hv t path) <|
        .ite (.quiet fun _ => .throw _) <| .bind (.quiet fun _ => reach_draws t) fun more =>
          chartEach_enters hv place path more 0
    case nil | bool | null => exact .quiet fun _ => .pure _
    all_goals
      refine .quiet fun _ => ?_
      split
      · exact .pure _
      · exact .throw _

/-- **The instances that a pass renders are those of its chart**, also where it fails. -/
theorem mem_rendered_root (render props : Value) (handlers : Array Value) (m : Machine) (key : Hook.Key) :
    key ∈ (Run.last (root invoke render props handlers) m).hooks.rendered ↔
      key ∈ m.hooks.rendered ∨ key ∈ ((chartRoot invoke render props).chart handlers m).keys := by
  have h : (chartRoot invoke render props).Enters [] := by
    cases render
    case func place => exact (chartComponent_chartValue_enters hi _).1 ..
    all_goals exact .quiet fun _ => .throw _
  rw [← chartRoot_run]
  exact h.mem handlers m key

end Entering
end LivePreview.Surface
