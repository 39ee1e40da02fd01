import LivePreview.Proofs.Script.Table
import LivePreview.Proofs.Surface.Survival
import LivePreview.Proofs.Surface.Walk

/-! **Children with keys.**

The key of a child makes its place wherever it stands among the others, but only in the table that `createElement`
makes of several children. A single child is kept as it is (`create_kept`), so that it is rendered at the place of its
parent and its key counts for nothing (`comes_kept`). A child with a key is therefore found again however the others
move, come and go, as long as it has others or has none (`keyed_child_found`): when the first one joins it or the last
one leaves, it starts anew. -/
namespace LivePreview.Surface
open Script Pass Hook
variable {invoke : Invoke} {m n : Machine} {v : Value}

/-! ### How elements keep their children -/

/-- A single child is kept as it is, several in a table of their own. -/
inductive Kept (m : Machine) : Value → List Value → Prop
  | one (child : Value) : Kept m child [child]
  | several {place : Nat} {children : List Value} (many : 2 ≤ children.length)
      (stored : m.tables.getD place {} = Table.ofSequence children) : Kept m (.table place) children

/-- A new table is at a new place, and the others stay. -/
theorem newTable_stored {t : Table} (h : Run.newTable t m = .ok v n) :
    v = .table m.tables.size ∧ n.tables.size = m.tables.size + 1 ∧ n.tables.getD m.tables.size {} = t ∧
      ∀ i < m.tables.size, n.tables.getD i {} = m.tables.getD i {} := by
  obtain ⟨_, l, hcharge, h⟩ := bind_ok h
  obtain ⟨htables, -⟩ := charge_ok hcharge
  cases h
  dsimp only
  rw [htables]
  refine ⟨rfl, Array.size_push t, by simp, fun i hi => ?_⟩
  simp [Array.getElem?_push, Nat.ne_of_lt hi]

/-- The table of an element. -/
def elementTable (kind own : Value) : Table :=
  ((({} : Table).setName Element.mark (.bool true)).setName "type" kind).setName "props" own

/-- The end of `createElement`: the properties and the element are put on the heap. -/
theorem element?_made {own : Table} {kind : Value} {vs : List Value}
    (h : (do
      let place ← Run.newTable own
      return [← Run.newTable (elementTable kind place)]) m = .ok vs n) :
    ∃ v place, vs = [v] ∧ element? n v = some (kind, some place) ∧ tableAt n (some place) = own ∧
      ∀ i < m.tables.size, n.tables.getD i {} = m.tables.getD i {} := by
  obtain ⟨place, l, hp, h⟩ := bind_ok h
  obtain ⟨v, k, hv, h⟩ := bind_ok h
  cases h
  obtain ⟨rfl, hsize, hown, hold⟩ := newTable_stored hp
  obtain ⟨rfl, -, ht, hkeep⟩ := newTable_stored hv
  refine ⟨_, m.tables.size, rfl, ?_, ?_, fun i hi => ?_⟩
  · unfold element?
    dsimp only
    rw [ht]
    simp [elementTable, Element.isElement, Element.mark]
  · rw [tableAt, Option.elim, hkeep _ (by omega), hown]
  · rw [hkeep i (by omega), hold i hi]

theorem properties_several {children : List Value} (many : 2 ≤ children.length) (given : Table) (list : Value) :
    (Element.properties given children (some list)).getName "children" = list := by
  match children, many with
  | _ :: _ :: _, _ => exact (Table.getName_setName ..).trans (if_pos rfl)

/-- What `createElement` makes is an element with the children that it was given. -/
theorem create_kept {kind given : Value} {children : List Value} (hc : children ≠ []) {vs : List Value}
    (h : Element.create (kind :: given :: children) m = .ok vs n) :
    ∃ v own, vs = [v] ∧ element? n v = some (kind, some own) ∧
      Kept n ((tableAt n (some own)).getName "children") children := by
  unfold Element.create at h
  obtain ⟨place?, l, -, h⟩ := bind_ok h
  obtain ⟨props, k, h⟩ : ∃ (props : Table) (k : Machine), (if 2 ≤ children.length then do
      let list? ← some <$> Run.newTable (Table.ofSequence children)
      let place ← Run.newTable (Element.properties props children list?)
      return [← Run.newTable (elementTable kind place)]
    else do
      let place ← Run.newTable (Element.properties props children none)
      return [← Run.newTable (elementTable kind place)]) k = .ok vs n := by
    cases place? with
    | none => exact ⟨{}, l, h⟩
    | some place => exact ⟨_, l, h⟩
  split at h
  · rename_i many
    obtain ⟨list?, i, hl, h⟩ := bind_ok h
    obtain ⟨list, j, hl, hs⟩ := bind_ok hl
    cases hs
    obtain ⟨rfl, hsize, hlist, -⟩ := newTable_stored hl
    obtain ⟨v, own, rfl, he, ho, hkeep⟩ := element?_made h
    refine ⟨v, own, rfl, he, ?_⟩
    rw [ho, properties_several many]
    exact .several many ((hkeep _ (by omega)).trans hlist)
  · have := List.length_pos_of_ne_nil hc
    obtain ⟨child, rfl⟩ := List.length_eq_one_iff.1 (show children.length = 1 by omega)
    obtain ⟨v, own, rfl, he, ho, -⟩ := element?_made h
    refine ⟨v, own, rfl, he, ?_⟩
    rw [ho, Element.properties, Table.getName_setName, if_pos rfl]
    exact .one child

/-- A child has its turn: an only child at once, and one of several when those before it are rendered, as what is at
its index then. -/
inductive Turn (invoke : Invoke) (left : Nat) (parent : Stop) :
    List Value → Nat → Value → Array Value → Machine → Prop
  | only : Turn invoke left parent [parent.what] 0 parent.what parent.handlers parent.machine
  | item {children : List Value} {place index : Nat} {child : Value} {given : Array Value} {n : Machine}
      (many : 2 ≤ children.length) (list : parent.what = .table place) (within : index < span parent.machine place)
      (behind : behind? (value invoke left) place parent.path parent.handlers parent.machine index = some (given, n))
      (there : (n.tables.getD place {}).item? index = some child) : Turn invoke left parent children index child given n

/-- Where an item of a list has its turn, the list has a first one. -/
theorem item?_first {value : Value → String → Pass (List Node)} {place index : Nat} {path : String} {child : Value}
    {handlers given : Array Value} (behind : behind? value place path handlers m index = some (given, n))
    (there : (n.tables.getD place {}).item? index = some child) :
    ∃ first, (m.tables.getD place {}).item? 0 = some first := by
  induction index generalizing given n child with
  | zero =>
    cases behind
    exact ⟨child, there⟩
  | succ index ih =>
    obtain ⟨given, n, child, nodes, hb, hc, -⟩ := behind?_succ.1 behind
    exact ih hb hc

/-- Children in a table are a list if there is a first one. -/
theorem list?_several {place : Nat} {children : List Value} {first : Value}
    (stored : m.tables.getD place {} = Table.ofSequence children)
    (hf : (m.tables.getD place {}).item? 0 = some first) : list? m (.table place) = some place := by
  rw [stored] at hf
  obtain ⟨hi, hn⟩ := Option.filter_eq_some_iff.1 hf
  cases children with
  | nil => simp [Table.ofSequence] at hi
  | cons child children =>
    have hc : child.isNil = false := by
      obtain rfl : child = first := by simpa [Table.ofSequence] using hi
      simpa using hn
    have hl : ((Table.ofSequence (child :: children)).length == 0) = false :=
      beq_eq_false_iff_ne.2 (Nat.ne_of_gt (Table.length_ofSequence_pos hc children))
    unfold list?
    dsimp only
    rw [stored, hl, Element.isElement, Table.getName_ofSequence]
    rfl

/-- **Where a pass comes to a child**: at the place of all children if there is no other, and else at a place below. -/
theorem comes_kept {render props child : Value} {handlers given : Array Value} {start machine : Machine}
    {parent : Stop} {children : List Value} {index left : Nat} {key? : Option String}
    (comes : Comes invoke render props handlers start parent) (kept : Kept parent.machine parent.what children)
    (deep : parent.left = if children.length = 1 then left + 2 else left + 3)
    (turn : Turn invoke (left + 2) parent children index child given machine)
    (key : keyText? child given machine = .ok (key?, given) machine) :
    Comes invoke render props handlers start ⟨left + 2, child,
      if children.length = 1 then parent.path else childPath parent.path index key?, given, machine⟩ := by
  obtain ⟨_, what, path, _, _⟩ := parent
  dsimp only at deep kept
  cases turn with
  | only =>
    rw [deep] at comes
    exact comes
  | item many list within behind there =>
    have hn : children.length ≠ 1 := by omega
    rw [deep, if_neg hn] at comes
    rw [if_neg hn]
    cases kept with
    | one => simp at many
    | several _ stored =>
      cases list
      obtain ⟨first, hf⟩ := item?_first behind there
      exact .next comes (.item (list?_several stored hf) within behind there key)

/-! ### A child with a key -/

/-- A pass comes to the children of an element and then, with those before it rendered, to one of them: an element of a
component that has a key. -/
structure Sight (invoke : Invoke) where
  render : Value
  props : Value
  handlers : Array Value
  start : Machine
  /-- Where the children of the element are. -/
  parent : Stop
  comes : Comes invoke render props handlers start parent
  children : List Value
  kept : Kept parent.machine parent.what children
  /-- The levels that are left behind the instance. -/
  left : Nat
  deep : parent.left = if children.length = 1 then left + 2 else left + 3
  index : Nat
  child : Value
  given : Array Value
  machine : Machine
  turn : Turn invoke (left + 2) parent children index child given machine
  function : Nat
  own : Nat
  element : element? machine child = some (.func function, some own)
  key : String
  keyed : plainText? ((tableAt machine (some own)).getName "key") = some key

namespace Sight

/-- The place of the child: that of all children if there is no other, and else one below it by the key. -/
def path (s : Sight invoke) : String :=
  if s.children.length = 1 then s.parent.path else childPath s.parent.path s.index (some s.key)

/-- Where the child is rendered. -/
def stop (s : Sight invoke) : Stop := ⟨s.left + 2, s.child, s.path, s.given, s.machine⟩

/-- The hook key of the instance. -/
def hookKey (s : Sight invoke) : Hook.Key := instanceKey s.path s.function

/-- The store at the end of the pass. -/
def store (s : Sight invoke) : Store Value := (Run.last (root invoke s.render s.props s.handlers) s.start).hooks

variable (s : Sight invoke)

theorem keyText : keyText? s.child s.given s.machine = .ok (some s.key, s.given) s.machine := by
  obtain ⟨place, hc, hm, -, hp⟩ := of_element? s.element
  rw [hc]
  unfold keyText?
  dsimp only
  refine (run_after rfl).trans ?_
  rw [hm]
  refine (run_after (hp s.given)).trans ?_
  exact (run_after (p := ofRun (Run.readTable s.own)) rfl).trans
    (congrArg (fun key? => EStateM.Result.ok (key?, s.given) s.machine) s.keyed)

theorem comes_stop : Comes invoke s.render s.props s.handlers s.start s.stop :=
  comes_kept s.comes s.kept s.deep s.turn s.keyText

theorem chart_stop : ∃ inner, s.stop.chart invoke = .body s.hookKey inner .nil :=
  ⟨_, chart_component s.element⟩

theorem mem_rendered (hi : Scripted invoke) : s.hookKey ∈ s.store.rendered := by
  obtain ⟨inner, hc⟩ := s.chart_stop
  have hk : s.hookKey ∈ (s.stop.chart invoke).keys := by
    rw [hc]
    exact List.mem_cons_self
  exact (mem_rendered_root hi ..).2 (.inr ((keys_comes s.comes_stop).subset hk))

end Sight

/-- The pass comes to the child and renders it as the instance with the hook key, which the store has as rendered. -/
structure IsInstance (s : Sight invoke) : Prop where
  comes : Comes invoke s.render s.props s.handlers s.start s.stop
  chart : ∃ inner, s.stop.chart invoke = .body s.hookKey inner .nil
  rendered : s.hookKey ∈ s.store.rendered

/-- Children with the same key and function, of elements that are at the same place. -/
structure Alike (s t : Sight invoke) : Prop where
  path : s.parent.path = t.parent.path
  key : s.key = t.key
  function : s.function = t.function

/-- Both children are the only ones, or neither is. -/
def SameShape (s t : Sight invoke) : Prop := s.children.length = 1 ↔ t.children.length = 1

/-- What one store has for an instance the other one has too. -/
structure Untouched (key : Hook.Key) (s t : Store Value) : Prop where
  slots : ∀ index, t.slot? key index = s.slot? key index
  cleanups : ∀ index, t.cleanups.lookup (key, index) = s.cleanups.lookup (key, index)
  pending : ∀ e, e.key = key → (e ∈ t.pending ↔ e ∈ s.pending)

theorem untouched_finishPass {key : Hook.Key} {s : Store Value} (h : key ∈ s.rendered) :
    Untouched key s s.finishPass.2 := by
  have hr : s.rendered.contains key = true := List.contains_iff_mem.2 h
  refine ⟨fun index => ?_, fun index => ?_, fun e he => ?_⟩
  · rw [Store.slot?_finishPass, hr, if_pos rfl]
  · exact (Assoc.lookup_filter (fun c : Hook.Key × Nat => s.rendered.contains c.1) _ s.cleanups).trans (if_pos hr)
  · subst he
    exact List.mem_filter.trans (and_iff_left hr)

theorem childPath_ne (path : String) (index : Nat) (key? : Option String) (place : Nat) :
    instanceKey path place ≠ instanceKey (childPath path index key?) place := by
  intro h
  have hl := congrArg String.toList h
  cases key? <;> simp [instanceKey, childPath] at hl

/-- The keys of instances agree when the children are alike and both or neither are the only ones. -/
theorem hookKey_eq_iff {s t : Sight invoke} (h : Alike s t) : s.hookKey = t.hookKey ↔ SameShape s t := by
  unfold Sight.hookKey Sight.path SameShape
  rw [h.path, h.key, h.function]
  by_cases hs : s.children.length = 1 <;> by_cases ht : t.children.length = 1
  · simp [hs, ht]
  · rw [if_pos hs, if_neg ht]
    exact iff_of_false (childPath_ne _ _ _ _) fun h => ht (h.1 hs)
  · rw [if_neg hs, if_pos ht]
    exact iff_of_false (childPath_ne _ _ _ _).symm fun h => hs (h.2 ht)
  · simp [hs, ht, childPath]

/-! ### Sights of a component -/

/-- The children that an element has been given, from how it keeps them. -/
def children? (m : Machine) (v : Value) : Option (List Value) :=
  match v with
  | .table place =>
    let t := m.tables.getD place {}
    if (element? m v).isSome then some [v]
    else if t.fields.isEmpty && t.call.isNone && 2 ≤ t.items.size then some t.items.toList else none
  | v => some [v]

theorem kept_of_children? {children : List Value} (h : children? m v = some children) : Kept m v children := by
  unfold children? at h
  split at h
  · rename_i place
    dsimp only at h
    split at h
    · cases h
      exact .one _
    · split at h
      · rename_i hf
        cases h
        simp only [Bool.and_eq_true, decide_eq_true_eq, List.isEmpty_iff, Option.isNone_iff_eq_none] at hf
        obtain ⟨⟨hfields, hcall⟩, hsize⟩ := hf
        refine .several (by simpa using hsize) ?_
        generalize m.tables.getD place {} = t at *
        cases t
        cases hfields
        cases hcall
        simp [Table.ofSequence]
      · cases h
  · cases h
    exact .one _

/-- Where the children are of the tag that a component gives, with its properties and the machine before. -/
def row? (c : Component) (j : Json) : Option (Value × Machine × Stop) :=
  match c.render, j.toProps c.machine with
  | .func f, .ok props m =>
    match callBody Script.invoke (instanceKey "root" f) f props #[] m with
    | .ok (v, given) l =>
      match element? l v with
      | some (.str tag, own?) =>
        if Text.decodeLossy tag = Element.fragment then none
        else
          match (readProps (tableAt l own?).entries [] [] >>= fun r => deal r.2) given l with
          | .ok (_, given) n => some (props, m,
            ⟨maxDepth - 1, (tableAt l own?).getName "children", innerPath (instanceKey "root" f), given, n⟩)
          | .error _ _ => none
      | _ => none
    | .error _ _ => none
  | _, _ => none

theorem comes_of_row? {c : Component} {j : Json} {props : Value} {s : Stop} (h : row? c j = some (props, m, s)) :
    Comes Script.invoke c.render props #[] m s := by
  unfold row? at h
  split at h
  · split at h
    · split at h
      · split at h
        · cases h
        · split at h
          · cases h
            exact .next (.first ‹_› ‹_›) (.tag ‹_› ‹_› ‹_›)
          · cases h
      · cases h
    · cases h
  · cases h

/-- How many levels are left behind an instance among so many children of a tag that the root gives. -/
def leftBehind (count : Nat) : Nat := if count = 1 then 253 else 252

/-- What has its turn at an index, and how things stand then. -/
def turn? (left : Nat) (parent : Stop) (children : List Value) (index : Nat) :
    Option (Value × Array Value × Machine) :=
  match parent.what with
  | .table place =>
    if 2 ≤ children.length ∧ index < span parent.machine place then do
      let (given, n) ←
        behind? (value Script.invoke left) place parent.path parent.handlers parent.machine index
      return (← (n.tables.getD place {}).item? index, given, n)
    else if children.length = 1 ∧ index = 0 then some (parent.what, parent.handlers, parent.machine) else none
  | _ => none

theorem turn_of_turn? {left index : Nat} {parent : Stop} {children : List Value} {child : Value} {given : Array Value}
    (kept : Kept parent.machine parent.what children)
    (h : turn? left parent children index = some (child, given, n)) :
    Turn Script.invoke left parent children index child given n := by
  obtain ⟨_, what, path, handlers, m⟩ := parent
  unfold turn? at h
  dsimp only at h kept
  split at h
  · rename_i place
    split at h
    · rename_i hc
      obtain ⟨⟨given, n⟩, hb, h⟩ := Option.bind_eq_some_iff.1 h
      obtain ⟨child, ht, h⟩ := Option.bind_eq_some_iff.1 h
      cases h
      exact .item hc.1 rfl hc.2 hb ht
    · split at h
      · rename_i hc
        obtain ⟨hlength, rfl⟩ := hc
        cases h
        cases kept with
        | one => exact .only
        | several many => omega
      · cases h
  · cases h

/-- Whether the child with this index, of so many, is an instance with this key and function. -/
def sees (path key : String) (function index count : Nat) (s : Stop) : Bool :=
  match children? s.machine s.what with
  | some children =>
    (s.path == path && s.left == 255 && children.length == count) &&
    match turn? (leftBehind count + 2) s children index with
    | some (child, _, n) =>
      match element? n child with
      | some (.func f, some own) => f == function && plainText? ((tableAt n (some own)).getName "key") == some key
      | _ => false
    | none => false
  | none => false

theorem exists_sight {c : Component} {j : Json} {path key : String} {function index count : Nat}
    (h : (row? c j).any (fun r => sees path key function index count r.2.2) = true) :
    ∃ s : Sight Script.invoke, s.parent.path = path ∧ s.key = key ∧ s.function = function ∧
      s.children.length = count := by
  obtain ⟨⟨props, m, s⟩, hr, hs⟩ := (Option.any_eq_true ..).1 h
  dsimp only at hs
  unfold sees at hs
  split at hs
  · rename_i children hk
    obtain ⟨hc, hs⟩ := (Bool.and_eq_true_iff).1 hs
    simp only [Bool.and_eq_true, beq_iff_eq] at hc
    obtain ⟨⟨hpath, hleft⟩, hcount⟩ := hc
    have kept := kept_of_children? hk
    split at hs
    · rename_i child given n hturn
      split at hs
      · rename_i f own element
        simp only [Bool.and_eq_true, beq_iff_eq] at hs
        refine ⟨{
          render := c.render, props, handlers := #[], start := m, parent := s, comes := comes_of_row? hr
          children, kept, left := leftBehind count, deep := ?_
          index, child, given, machine := n, turn := turn_of_turn? kept hturn
          function := f, own, element, key, keyed := hs.2 }, hpath, rfl, hs.1, hcount⟩
        rw [hleft, hcount, leftBehind]
        split <;> rfl
      · cases hs
    · cases hs
  · cases hs

/-- A component with one cell that has a key, and around it what its properties ask for. -/
def cellRow : Component :=
  ((Component.attempt { instruments := true } {} ("local h = React.createElement\n" ++
    "function Cell() return React.useState(0) end\n" ++
    "function Row(props)\n" ++
    "  local cell = h(Cell, \x7bkey = 'a'\x7d)\n" ++
    "  if props.alone then return h('div', nil, cell) end\n" ++
    "  if props.last then return h('div', nil, h('p'), h('i'), cell) end\n" ++
    "  return h('div', nil, cell, h('p'))\nend") "Row").component?).getD default

set_option maxRecDepth 100000 in
/-- The cell alone, before a paragraph, and behind one and another element. -/
theorem sees_cell :
    ((row? cellRow (.obj [("alone", .bool true)])).any fun r => sees "root@35>" "a" 34 0 1 r.2.2) = true ∧
    ((row? cellRow (.obj [])).any fun r => sees "root@35>" "a" 34 0 2 r.2.2) = true ∧
    ((row? cellRow (.obj [("last", .bool true)])).any fun r => sees "root@35>" "a" 34 2 3 r.2.2) = true := by
  decide +kernel

/-! ### Identity by key -/

/-- **A child with a key is the same instance just when it is the only child in both passes or in neither.** -/
theorem keyed_child_found (hi : Scripted invoke) :
    (∀ (kind given : Value) (children : List Value) (m n : Machine) (vs : List Value), children ≠ [] →
      Element.create (kind :: given :: children) m = .ok vs n → ∃ v own, vs = [v] ∧
        element? n v = some (kind, some own) ∧ Kept n ((tableAt n (some own)).getName "children") children) ∧
    ∀ s t : Sight invoke, Alike s t →
      IsInstance s ∧ (s.hookKey = t.hookKey ↔ SameShape s t) ∧
      (SameShape s t → Untouched s.hookKey t.store t.store.finishPass.2) ∧
      (¬ SameShape s t → s.hookKey ∉ t.store.rendered → Gone s.hookKey t.store.finishPass.2) := by
  refine ⟨fun kind given children m n vs hc h => create_kept hc h, fun s t h => ?_⟩
  refine ⟨⟨s.comes_stop, s.chart_stop, s.mem_rendered hi⟩, hookKey_eq_iff h, fun hs => ?_, fun _ hr => ?_⟩
  · rw [(hookKey_eq_iff h).2 hs]
    exact untouched_finishPass (t.mem_rendered hi)
  · exact gone (d := .finishPass) hr

theorem keyed_child_found_moved : Scripted Script.invoke ∧ ∃ s t : Sight Script.invoke, Alike s t ∧
    s.children.length = 2 ∧ t.children.length = 3 ∧ s.hookKey = t.hookKey ∧
      Untouched s.hookKey t.store t.store.finishPass.2 := by
  obtain ⟨s, hsp, hsk, hsf, hs⟩ := exists_sight sees_cell.2.1
  obtain ⟨t, htp, htk, htf, ht⟩ := exists_sight sees_cell.2.2
  have ha : Alike s t := ⟨hsp.trans htp.symm, hsk.trans htk.symm, hsf.trans htf.symm⟩
  have hn : SameShape s t := by simp [SameShape, hs, ht]
  obtain ⟨-, hkey, hkeep, -⟩ := (keyed_child_found scripted_invoke).2 s t ha
  exact ⟨scripted_invoke, s, t, ha, hs, ht, hkey.2 hn, hkeep hn⟩

/-- It is not so that a child with a key is always the same instance: a sibling that joins it takes it to another
place. -/
theorem keyed_child_lost : ¬ ∀ s t : Sight Script.invoke, Alike s t → s.hookKey = t.hookKey := by
  intro h
  obtain ⟨s, hsp, hsk, hsf, hs⟩ := exists_sight sees_cell.1
  obtain ⟨t, htp, htk, htf, ht⟩ := exists_sight sees_cell.2.1
  have ha : Alike s t := ⟨hsp.trans htp.symm, hsk.trans htk.symm, hsf.trans htf.symm⟩
  have hn := (hookKey_eq_iff ha).1 (h s t ha)
  simp [SameShape, hs, ht] at hn

end LivePreview.Surface
