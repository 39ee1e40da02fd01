import LivePreview.Proofs.Surface.Chart

/-! The way of a pass through the tree.

A pass comes from one value to the next: from a tag or fragment to its children, from a list to an item of it once the
items before have been rendered, and from an element of a component to what its instance gives (`Next`). The chart of
the pass has the chart of every value that it comes to (`keys_comes`). -/
namespace LivePreview.Surface
open Script Pass

/-- A value that a pass comes to at a place, so many levels before it is too deep, and how things stand then. -/
structure Stop where
  left : Nat
  what : Value
  path : String
  handlers : Array Value
  machine : Machine

/-- The chart of what is rendered from there. -/
def Stop.chart (invoke : Invoke) (s : Stop) : Chart :=
  (chartValue invoke s.left s.what s.path).chart s.handlers s.machine

/-- The table at a place, if there is one. -/
def tableAt (m : Machine) (place? : Option Nat) : Table := place?.elim {} fun place => m.tables.getD place {}

/-- The type of an element and the place of its properties, if it has any. -/
def element? (m : Machine) (v : Value) : Option (Value × Option Nat) :=
  match v with
  | .table place =>
    let t := m.tables.getD place {}
    if Element.isElement t then
      match t.getName "props" with
      | .nil => some (t.getName "type", none)
      | .table own => some (t.getName "type", some own)
      | _ => none
    else none
  | _ => none

/-- The place of a table that is rendered item by item. -/
def list? (m : Machine) (v : Value) : Option Nat :=
  match v with
  | .table place =>
    let t := m.tables.getD place {}
    if Element.isElement t || (t.length == 0 && !t.entries.isEmpty) then none else some place
  | _ => none

/-- How many items of a list are rendered at most. -/
def span (m : Machine) (place : Nat) : Nat := (m.tables.getD place {}).items.size + m.steps.getD m.allowance

/-- How things stand once the items of a list before an index are rendered, each as it is when its turn comes. -/
def behind? (value : Value → String → Pass (List Node)) (place : Nat) (path : String) (handlers : Array Value)
    (m : Machine) : Nat → Option (Array Value × Machine)
  | 0 => some (handlers, m)
  | index + 1 => do
    let (given, n) ← behind? value place path handlers m index
    let child ← (n.tables.getD place {}).item? index
    match inPlace value path index child given n with
    | .ok (_, given) n => some (given, n)
    | .error _ _ => none

/-- From one value a pass comes to another one. -/
inductive Next (invoke : Invoke) : Stop → Stop → Prop
  /-- The children of a fragment are at its place. -/
  | fragment {left path handlers m tag} {what : Value} {own? : Option Nat}
      (element : element? m what = some (.str tag, own?))
      (named : Text.decodeLossy tag = Element.fragment) :
      Next invoke ⟨left + 1, what, path, handlers, m⟩ ⟨left, (tableAt m own?).getName "children", path, handlers, m⟩
  /-- So are those of a tag, once its attributes and handlers have been read. -/
  | tag {left path handlers m tag ids given n} {what : Value} {own? : Option Nat}
      (element : element? m what = some (.str tag, own?))
      (named : Text.decodeLossy tag ≠ Element.fragment)
      (opened : (readProps (tableAt m own?).entries [] [] >>= fun r => deal r.2) handlers m = .ok (ids, given) n) :
      Next invoke ⟨left + 1, what, path, handlers, m⟩ ⟨left, (tableAt m own?).getName "children", path, given, n⟩
  /-- What an instance gives is below it. -/
  | body {left path handlers m f v given n} {what : Value} {own? : Option Nat}
      (element : element? m what = some (.func f, own?))
      (called : callBody invoke (instanceKey path f) f (own?.elim .nil .table) handlers m = .ok (v, given) n) :
      Next invoke ⟨left + 2, what, path, handlers, m⟩ ⟨left, v, innerPath (instanceKey path f), given, n⟩
  /-- An item of a list has a place of its own. It is what is at its index when its turn comes. -/
  | item {left path handlers m place index child given n} {what : Value} {key? : Option String}
      (list : list? m what = some place) (within : index < span m place)
      (behind : behind? (value invoke left) place path handlers m index = some (given, n))
      (there : (n.tables.getD place {}).item? index = some child)
      (key : keyText? child given n = .ok (key?, given) n) :
      Next invoke ⟨left + 1, what, path, handlers, m⟩ ⟨left, child, childPath path index key?, given, n⟩

/-- A pass that renders a component comes to a value. -/
inductive Comes (invoke : Invoke) (render props : Value) (handlers : Array Value) (m : Machine) : Stop → Prop
  | first {f : Nat} {v given n} (root : render = .func f)
      (called : callBody invoke (instanceKey "root" f) f props handlers m = .ok (v, given) n) :
      Comes invoke render props handlers m ⟨maxDepth, v, innerPath (instanceKey "root" f), given, n⟩
  | next {s t} (comes : Comes invoke render props handlers m s) (next : Next invoke s t) :
      Comes invoke render props handlers m t

/-! ### Charts along the way -/

variable {α β : Type} {invoke : Invoke} {left f : Nat} {path : String} {handlers given : Array Value} {m n : Machine}
  {v kind : Value} {own? : Option Nat}

section Quiet
variable {p : Pass α} {k : α → Charted β} {a : α}

theorem run_after {k : α → Pass β} (h : p handlers m = .ok (a, given) n) :
    (p >>= k) handlers m = k a given n :=
  bind_of_ok (k := fun r : α × Array Value => k r.1 r.2) h

/-- Where parts end well one behind another, the first one has. -/
theorem of_run_bind {k : α → Pass β} {b : β} {l : Machine} {after : Array Value}
    (h : (p >>= k) handlers m = .ok (b, after) l) :
    ∃ a given n, p handlers m = .ok (a, given) n ∧ k a given n = .ok (b, after) l := by
  obtain ⟨⟨a, given⟩, n, hp, hk⟩ := bind_ok h
  exact ⟨a, given, n, hp, hk⟩

/-- What comes behind a part depends on what the part gives, not on how it is written. -/
theorem bind_run_congr {q : Pass α} {k : α → Pass β} (h : p handlers m = q handlers m) :
    (p >>= k) handlers m = (q >>= k) handlers m :=
  congrArg (fun r => EStateM.bind (fun _ => r) (fun r : α × Array Value => k r.1 r.2) m) h

theorem chart_after (h : p handlers m = .ok (a, given) n) :
    (Charted.quiet p >>= k).chart handlers m = (k a).chart given n :=
  Charted.chart_bind_ok (t := Charted.quiet p) h

theorem chart_before (t : Charted α) (g : α → β) :
    (t >>= fun a => (pure (g a) : Charted β)).chart handlers m = t.chart handlers m := by
  cases h : t.run handlers m with
  | ok r n => exact (Charted.chart_bind_ok h).trans (Chart.append_nil _)
  | error e n => exact Charted.chart_bind_error h

end Quiet

theorem of_element? {own? : Option Nat} (h : element? m v = some (kind, own?)) :
    ∃ place, v = .table place ∧ Element.isElement (m.tables.getD place {}) = true ∧
      (m.tables.getD place {}).getName "type" = kind ∧
      ∀ handlers, props? (m.tables.getD place {}) handlers m = .ok (own?, handlers) m := by
  unfold element? at h
  split at h
  · rename_i place
    dsimp only at h
    split at h
    · rename_i hm
      refine ⟨place, rfl, hm, ?_⟩
      unfold props?
      split at h <;> cases h <;> rename_i hp <;> exact ⟨rfl, fun _ => by rw [hp]; rfl⟩
    · cases h
  · cases h

/-- An element is rendered by its type. -/
theorem chart_element (h : element? m v = some (kind, own?)) : ∃ t : Table, t.getName "type" = kind ∧
    props? t handlers m = .ok (own?, handlers) m ∧
    (chartValue invoke (left + 1) v path).chart handlers m =
      (chartElement (chartComponent invoke left) (chartValue invoke left) t path).chart handlers m := by
  obtain ⟨place, rfl, hm, ht, hp⟩ := of_element? h
  refine ⟨_, ht, hp handlers, ?_⟩
  unfold chartValue
  rw [chart_after rfl, if_pos hm]

/-- An element with a name has its children at its own place. -/
theorem chart_named {tag : ByteArray} (h : element? m v = some (.str tag, own?)) :
    (chartValue invoke (left + 1) v path).chart handlers m =
      (chartTagged (chartValue invoke left) (Text.decodeLossy tag) path (tableAt m own?)).chart handlers m := by
  obtain ⟨t, ht, hp, hc⟩ := chart_element h
  rw [hc]
  unfold chartElement
  rw [chart_after hp, ht]
  cases own? with
  | none => exact chart_after (p := pure ({} : Table)) rfl
  | some own => exact chart_after (p := ofRun (Run.readTable own)) rfl

/-- An element of a component is an instance at its place. -/
theorem chart_component (h : element? m v = some (.func f, own?)) :
    (chartValue invoke (left + 1) v path).chart handlers m =
      (chartComponent invoke left f (own?.elim .nil .table) path).chart handlers m := by
  obtain ⟨t, ht, hp, hc⟩ := chart_element h
  rw [hc]
  unfold chartElement
  rw [chart_after hp, ht]
  cases own? <;> rfl

theorem chart_body {props : Value}
    (h : callBody invoke (instanceKey path f) f props handlers m = .ok (v, given) n) :
    (chartComponent invoke (left + 1) f props path).chart handlers m =
      .body (instanceKey path f) ((chartValue invoke left v (innerPath (instanceKey path f))).chart given n) .nil := by
  unfold chartComponent
  exact congrArg (Chart.body _ · .nil) (chart_after h)

theorem of_list? {place : Nat} (h : list? m v = some place) :
    v = .table place ∧ Element.isElement (m.tables.getD place {}) = false ∧
      ((m.tables.getD place {}).length == 0 && !(m.tables.getD place {}).entries.isEmpty) = false := by
  unfold list? at h
  split at h
  · dsimp only at h
    split at h
    · cases h
    · rename_i hn
      cases h
      exact ⟨rfl, Bool.or_eq_false_iff.1 (Bool.eq_false_iff.2 hn)⟩
  · cases h

theorem chart_list {place : Nat} (h : list? m v = some place) :
    (chartValue invoke (left + 1) v path).chart handlers m =
      (chartEach (chartValue invoke left) place path (span m place) 0).chart handlers m := by
  obtain ⟨rfl, hm, hl⟩ := of_list? h
  unfold chartValue
  rw [chart_after rfl, hm, hl]
  exact chart_after (p := reach (m.tables.getD place {})) rfl

/-! ### Along a list -/

section Row
variable {value : Value → String → Pass (List Node)} {place index more : Nat} {after : Array Value} {l : Machine}
  {child : Value} {nodes : List Node}

theorem behind?_zero : behind? value place path handlers m 0 = some (handlers, m) := rfl

/-- The items before the next index have been rendered when those before this one are and then the one here. -/
theorem behind?_succ : behind? value place path handlers m (index + 1) = some (after, l) ↔
    ∃ given n child nodes, behind? value place path handlers m index = some (given, n) ∧
      (n.tables.getD place {}).item? index = some child ∧
        inPlace value path index child given n = .ok (nodes, after) l := by
  rw [behind?]
  constructor
  · intro h
    obtain ⟨⟨given, n⟩, hb, h⟩ := Option.bind_eq_some_iff.1 h
    obtain ⟨child, hc, h⟩ := Option.bind_eq_some_iff.1 h
    cases hr : inPlace value path index child given n with
    | ok r _ =>
      rw [hr] at h
      cases h
      exact ⟨given, n, child, r.1, hb, hc, hr⟩
    | error e _ =>
      rw [hr] at h
      cases h
  · rintro ⟨given, n, child, nodes, hb, hc, hr⟩
    refine Option.bind_eq_some_iff.2 ⟨(given, n), hb, Option.bind_eq_some_iff.2 ⟨child, hc, ?_⟩⟩
    rw [hr]

theorem item?_ok {child? : Option Value} (hc : (m.tables.getD place {}).item? index = child?) :
    item? place index handlers m = .ok (child?, handlers) m := by
  rw [← hc]
  rfl

/-- Where no item is, a list ends. -/
theorem each_none (hc : (m.tables.getD place {}).item? index = none) :
    each value place path more index handlers m = .ok ([], handlers) m := by
  unfold each
  cases more <;> exact run_after (item?_ok hc)

/-- Where an item is and none may be rendered any more, the time is over. -/
theorem each_over (hc : (m.tables.getD place {}).item? index = some child) :
    each value place path 0 index handlers m = .error (.script Run.overtime) m := run_after (item?_ok hc)

/-- Where an item is, it is rendered first. -/
theorem each_some (hc : (m.tables.getD place {}).item? index = some child) :
    each value place path (more + 1) index handlers m =
      (do return (← inPlace value path index child) ++ (← each value place path more (index + 1)) : Pass (List Node))
        handlers m := run_after (item?_ok hc)

/-- A list is rendered on from where its first items have left off. -/
theorem each_behind (h : behind? value place path handlers m index = some (given, n)) :
    ∃ nodes, ∀ more, each value place path (index + more) 0 handlers m =
      (each value place path more index >>= fun rest => pure (nodes ++ rest)) given n := by
  induction index generalizing given n with
  | zero =>
    cases h
    exact ⟨[], fun more => by simp⟩
  | succ index ih =>
    obtain ⟨given, n, child, nodes, hb, hc, hr⟩ := behind?_succ.1 h
    obtain ⟨first, hf⟩ := ih hb
    refine ⟨first ++ nodes, fun more => ?_⟩
    rw [Nat.add_assoc, Nat.add_comm 1, hf, bind_run_congr (each_some hc)]
    simp only [bind_assoc, pure_bind, List.append_assoc]
    exact run_after hr

section Charts
variable {drawn : Value → String → Charted (List Node)} (hv : ∀ v path, (drawn v path).run = value v path)

theorem chartEach_look (hc : (m.tables.getD place {}).item? index = some child) :
    (chartEach drawn place path (more + 1) index).chart handlers m =
      (do return (← chartInPlace drawn path index child) ++ (← chartEach drawn place path more (index + 1)) :
        Charted (List Node)).chart handlers m := chart_after (item?_ok hc)

/-- What comes first in a list has a place of its own. -/
theorem chartEach_first {key? : Option String} (hc : (m.tables.getD place {}).item? index = some child)
    (hk : keyText? child handlers m = .ok (key?, given) n) :
    ∃ rest, (chartEach drawn place path (more + 1) index).chart handlers m =
      .child index key? ((drawn child (childPath path index key?)).chart given n) rest := by
  have hd : (chartInPlace drawn path index child).chart handlers m =
      .child index key? ((drawn child (childPath path index key?)).chart given n) .nil := chart_after hk
  rw [chartEach_look hc]
  exact ⟨_, congrArg (Chart.append · _) hd⟩

include hv in
/-- The chart of a list goes on where its first items have left off. -/
theorem chartEach_behind (h : behind? value place path handlers m index = some (given, n)) :
    ∃ first : Chart, ∀ more, (chartEach drawn place path (index + more) 0).chart handlers m =
      first.append ((chartEach drawn place path more index).chart given n) := by
  induction index generalizing given n with
  | zero =>
    cases h
    exact ⟨.nil, fun more => by rw [Nat.zero_add]; rfl⟩
  | succ index ih =>
    obtain ⟨given, n, child, nodes, hb, hc, hr⟩ := behind?_succ.1 h
    obtain ⟨first, hf⟩ := ih hb
    rw [← chartInPlace_run hv] at hr
    refine ⟨first.append ((chartInPlace drawn path index child).chart given n), fun more => ?_⟩
    rw [Nat.add_assoc, Nat.add_comm 1, hf, chartEach_look hc, Charted.chart_bind_ok hr, chart_before,
      Chart.append_assoc]

end Charts

end Row

/-- The chart of a pass has the chart of each value that it comes to next. -/
theorem keys_next {s t : Stop} (h : Next invoke s t) : (t.chart invoke).keys <:+: (s.chart invoke).keys := by
  have same {c d : Chart} (h : d = c) : c.keys <:+: d.keys := h ▸ List.infix_rfl
  cases h with
  | fragment element named =>
    refine same ?_
    unfold Stop.chart
    rw [chart_named element, chartTagged, if_pos (by rw [named]; rfl)]
  | tag element named opened =>
    obtain ⟨⟨r, l⟩, k, hr, hd⟩ := bind_ok opened
    refine same ?_
    unfold Stop.chart
    rw [chart_named element, chartTagged, if_neg (by simpa using named), chart_after hr, chart_after hd, chart_before]
  | body element called =>
    unfold Stop.chart
    rw [chart_component element, chart_body called]
    exact ⟨[_], [], rfl⟩
  | item list within behind there key =>
    obtain ⟨more, hm⟩ := Nat.exists_eq_add_of_lt within
    obtain ⟨first, hf⟩ := chartEach_behind (chartComponent_chartValue_run invoke _).2 behind
    obtain ⟨rest, hc⟩ := chartEach_first there key
    unfold Stop.chart
    rw [chart_list list, hm, Nat.add_assoc, hf, hc, Chart.keys_append]
    exact ⟨first.keys, rest.keys, List.append_assoc ..⟩

/-- **The instances below a value that a pass comes to are instances of the pass.** -/
theorem keys_comes {render props : Value} {s : Stop} (h : Comes invoke render props handlers m s) :
    (s.chart invoke).keys <:+: ((chartRoot invoke render props).chart handlers m).keys := by
  induction h with
  | first root called =>
    subst root
    unfold chartRoot Stop.chart
    rw [chart_body called]
    exact ⟨[_], [], rfl⟩
  | next _ next ih => exact (keys_next next).trans ih

/-! ### Renderings along the way -/

/-- Renders a value when this renders what stands one level below it, and the items of a list. -/
def valueBy (component : Nat → Value → String → Pass (List Node)) (value : Value → String → Pass (List Node))
    (list : Nat → Table → String → Pass (List Node)) (v : Value) (path : String) : Pass (List Node) := do
  match v with
  | .nil | .bool _ | .null => return []
  | .table place =>
    let t ← ofRun (Run.readTable place)
    if Element.isElement t then elementBy component value t path
    else if t.length == 0 && !t.entries.isEmpty then throw (.invalidChild "object")
    else list place t path
  | v =>
    match plainText? v with
    | some text => return [.text text]
    | none => throw (.invalidChild v.hostTypeName)

theorem value_succ (left : Nat) (v : Value) (path : String) :
    value invoke (left + 1) v path = valueBy (component invoke left) (value invoke left)
      (fun place t path => do each (value invoke left) place path (← reach t) 0) v path := by
  cases v <;> rfl

theorem props?_ok {t : Table} (h : props? t handlers m = .ok (own?, given) n) : given = handlers ∧ n = m := by
  unfold props? at h
  cases hp : t.getName "props" <;> rw [hp] at h <;> cases h <;> exact ⟨rfl, rfl⟩

/-- What has properties that can be read is an element. -/
theorem element?_of_props? {place : Nat} (hm : Element.isElement (m.tables.getD place {}) = true)
    (h : props? (m.tables.getD place {}) handlers m = .ok (own?, given) n) :
    element? m (.table place) = some ((m.tables.getD place {}).getName "type", own?) := by
  unfold element?
  dsimp only
  rw [hm, if_pos rfl]
  unfold props? at h
  cases hp : (m.tables.getD place {}).getName "props" <;> rw [hp] at h <;> cases h <;> rfl

/-- Reading a key changes nothing. -/
theorem keyText?_ok {key? : Option String} (h : keyText? v handlers m = .ok (key?, given) n) :
    given = handlers ∧ n = m := by
  unfold keyText? at h
  cases v
  case table place =>
    dsimp only at h
    rw [run_after (p := ofRun (Run.readTable place)) rfl] at h
    split at h
    · cases h
      exact ⟨rfl, rfl⟩
    · obtain ⟨⟨own?, _⟩, _, ho, h⟩ := bind_ok h
      obtain ⟨rfl, rfl⟩ := props?_ok ho
      cases own? <;> cases h <;> exact ⟨rfl, rfl⟩
  all_goals
    cases h
    exact ⟨rfl, rfl⟩

/-- An element is rendered by its type. -/
theorem value_element (h : element? m v = some (kind, own?)) : ∃ t : Table, t.getName "type" = kind ∧
    props? t handlers m = .ok (own?, handlers) m ∧
    value invoke (left + 1) v path handlers m =
      elementBy (component invoke left) (value invoke left) t path handlers m := by
  obtain ⟨place, rfl, hm, ht, hp⟩ := of_element? h
  refine ⟨_, ht, hp handlers, ?_⟩
  rw [value_succ, valueBy, run_after (p := ofRun (Run.readTable place)) rfl, if_pos hm]

/-- An element with a name shows its children, inside itself unless it is a fragment. -/
theorem value_named (invoke : Invoke) (left : Nat) (path : String) (handlers : Array Value) {tag : ByteArray}
    (h : element? m v = some (.str tag, own?)) :
    value invoke (left + 1) v path handlers m =
      tagged (value invoke left) (Text.decodeLossy tag) path (tableAt m own?) handlers m := by
  obtain ⟨t, ht, hp, hv⟩ := value_element h
  rw [hv]
  unfold elementBy
  rw [run_after hp, ht]
  cases own? with
  | none => exact run_after (p := (pure {} : Pass Table)) rfl
  | some own => exact run_after (p := ofRun (Run.readTable own)) rfl

/-- An element of a component shows what its instance shows. -/
theorem value_component (h : element? m v = some (.func f, own?)) :
    value invoke (left + 1) v path handlers m =
      component invoke left f (own?.elim .nil .table) path handlers m := by
  obtain ⟨t, ht, hp, hv⟩ := value_element h
  rw [hv]
  unfold elementBy
  rw [run_after hp, ht]
  cases own? <;> rfl

/-- A list shows its items, one behind another. -/
theorem value_list {place : Nat} (h : list? m v = some place) :
    value invoke (left + 1) v path handlers m = each (value invoke left) place path (span m place) 0 handlers m := by
  obtain ⟨rfl, hm, hl⟩ := of_list? h
  rw [value_succ, valueBy, run_after (p := ofRun (Run.readTable place)) rfl, hm, hl]
  exact run_after (p := reach (m.tables.getD place {})) rfl

end LivePreview.Surface
