import LivePreview.Proofs.Surface.Cycle

/-! A pass as drawing and numbering.

What a pass draws has no ids in it: an element is known with the properties that were read for it (`Sketch`), and no
list of handlers is kept. The ids are dealt afterwards, over the finished sketch, an element before its children and
both before what comes later. That is what a pass does, although it deals them on its way (`renderPass_eq`), so the
ids say which property of which element a handler is. -/
namespace LivePreview.Surface
open Script Pass
variable {α β : Type}

/-- A node before its handlers have ids: an element with the properties that were read for it. -/
inductive Sketch where
  | text (s : String)
  | element (tag : String) (attributes : List (String × String)) (own : List (Value × Value))
      (children : List Sketch)

/-! ### Handlers among properties -/

/-- The name of a property that is a handler. -/
def handlerName? (property : Value × Value) : Option String :=
  match property with
  | (.str s, v) =>
    match Property.of (Text.decodeLossy s) v with
    | .handler => some (Text.decodeLossy s)
    | _ => none
  | _ => none

/-- The handlers with those of one more property. -/
def addHandler (handlers : List (String × Value)) (property : Value × Value) : List (String × Value) :=
  match handlerName? property with
  | some name => Node.insertEntry name property.2 handlers
  | none => handlers

/-- The handlers among properties, in the order of their names. -/
def handlersOf (own : List (Value × Value)) : List (String × Value) := own.foldl addHandler []

theorem lookup_insertEntry {α : Type} (name event : String) (v : α) (l : List (String × α)) :
    (Node.insertEntry name v l).lookup event = if event = name then some v else l.lookup event := by
  induction l with
  | nil => by_cases h : event = name <;> simp [Node.insertEntry, List.lookup_cons, h, beq_false_of_ne]
  | cons e l ih =>
    unfold Node.insertEntry
    by_cases hname : e.1 = name
    · rw [if_pos (beq_iff_eq.2 hname), List.lookup_cons, List.lookup_cons, hname]
      by_cases h : event = name <;> simp [h, beq_false_of_ne]
    · rw [if_neg (by simpa using hname)]
      split
      · by_cases h : event = name <;> simp [List.lookup_cons, h, beq_false_of_ne]
      · rw [List.lookup_cons, List.lookup_cons, ih]
        by_cases h : event = name
        · simp [h, beq_false_of_ne (Ne.symm hname)]
        · simp [h]

namespace Sketch

mutual

/-- The functions of all handlers, in the order of their ids. -/
def callbacks : Sketch → List Value
  | text _ => []
  | element _ _ own children => (handlersOf own).map (·.2) ++ callbacksAll children

def callbacksAll : List Sketch → List Value
  | [] => []
  | s :: r => callbacks s ++ callbacksAll r

end

/-- Handlers with ids from `first` on. -/
def dealt (first : Nat) (handlers : List (String × Value)) : List (String × Nat) :=
  (handlers.zipIdx first).map fun (e, id) => (e.1, id)

mutual

/-- The node of a sketch, with ids from `first` on. -/
def number (first : Nat) : Sketch → Node
  | text s => .text s
  | element tag attributes own children =>
    .element tag attributes (dealt first (handlersOf own)) (numberAll (first + (handlersOf own).length) children)

def numberAll (first : Nat) : List Sketch → List Node
  | [] => []
  | s :: r => number first s :: numberAll (first + (callbacks s).length) r

end

theorem callbacksAll_append (ss rs : List Sketch) : callbacksAll (ss ++ rs) = callbacksAll ss ++ callbacksAll rs := by
  induction ss with
  | nil => rfl
  | cons s ss ih => simp [callbacksAll, ih]

theorem numberAll_append (first : Nat) (ss rs : List Sketch) :
    numberAll first (ss ++ rs) = numberAll first ss ++ numberAll (first + (callbacksAll ss).length) rs := by
  induction ss generalizing first with
  | nil => rfl
  | cons s ss ih => simp [numberAll, callbacksAll, ih, Nat.add_assoc]

end Sketch

/-! ### Parts of a pass that deal no ids -/

/-- A part of a pass without the list of handlers. -/
def bare (p : Pass α) : Cycle α := fun m =>
  match p #[] m with
  | .ok r n => .ok r.1 n
  | .error e n => .error e n

/-- What comes of a part that leaves the handlers as they are. -/
def beside (handlers : Array Value) :
    EStateM.Result RenderError Machine α → EStateM.Result RenderError Machine (α × Array Value)
  | .ok a n => .ok (a, handlers) n
  | .error e n => .error e n

/-- The part of a pass neither looks at the handlers nor adds to them. -/
structure Aside (p : Pass α) : Prop where
  run : ∀ handlers m, p handlers m = beside handlers (bare p m)

namespace Aside

theorem pure (a : α) : Aside (Pure.pure a : Pass α) := ⟨fun _ _ => rfl⟩

theorem throw (e : RenderError) : Aside (MonadExcept.throw e : Pass α) := ⟨fun _ _ => rfl⟩

theorem ofRun (r : Run α) : Aside (Pass.ofRun r) where
  run handlers m := by
    unfold bare Pass.ofRun
    cases r m <;> rfl

theorem ofExcept (r : Except HostFault α) : Aside (Pass.ofExcept r) := by
  cases r with
  | ok a => exact .pure a
  | error fault => exact .throw _

/-- Without the handlers, what follows goes on where the first part ends. -/
theorem bare_bind {p : Pass α} (hp : Aside p) (k : α → Pass β) :
    bare (p >>= k) = bare p >>= fun a => bare (k a) := by
  funext m
  have hp' := hp.run #[] m
  cases hb : bare p m with
  | ok a n =>
    rw [hb] at hp'
    have hrun : (p >>= k) #[] m = k a #[] n := bind_of_ok (k := fun r : α × Array Value => k r.1 r.2) hp'
    rw [bind_of_ok hb, bare, hrun]
    rfl
  | error e n =>
    rw [hb] at hp'
    have hrun : (p >>= k) #[] m = .error e n := bind_of_error (k := fun r : α × Array Value => k r.1 r.2) hp'
    rw [bind_of_error hb, bare, hrun]

theorem bind {p : Pass α} {k : α → Pass β} (hp : Aside p) (hk : ∀ a, Aside (k a)) : Aside (p >>= k) := by
  refine ⟨fun handlers m => ?_⟩
  have hp' := hp.run handlers m
  rw [hp.bare_bind]
  cases hb : bare p m with
  | ok a n =>
    rw [hb] at hp'
    rw [bind_of_ok hb, ← (hk a).run handlers n]
    exact bind_of_ok (k := fun r : α × Array Value => k r.1 r.2) hp'
  | error e n =>
    rw [hb] at hp'
    rw [bind_of_error hb]
    exact bind_of_error (k := fun r : α × Array Value => k r.1 r.2) hp'

theorem ite {c : Prop} [Decidable c] {p q : Pass α} (hp : Aside p) (hq : Aside q) : Aside (if c then p else q) := by
  split
  · exact hp
  · exact hq

theorem item? (place index : Nat) : Aside (Pass.item? place index) := .bind (.ofRun _) fun _ => .pure _

theorem reach (t : Table) : Aside (Pass.reach t) := .bind (.ofRun _) fun _ => .pure _

theorem props? (element : Table) : Aside (Pass.props? element) := by
  unfold Pass.props?
  split
  · exact .pure none
  · exact .pure _
  · exact .throw _

theorem keyText? (child : Value) : Aside (Pass.keyText? child) := by
  cases child
  case table place =>
    refine .bind (.ofRun _) fun t => .ite (.pure none) (.bind (.props? t) fun place? => ?_)
    cases place? with
    | none => exact .pure none
    | some place => exact .bind (.ofRun _) fun _ => .pure _
  all_goals exact .pure none

theorem readProps (own : List (Value × Value)) (attributes : List (String × String))
    (handlers : List (String × Value)) : Aside (Pass.readProps own attributes handlers) := by
  induction own generalizing attributes handlers with
  | nil => exact .pure _
  | cons e r ih =>
    obtain ⟨key, v⟩ := e
    cases key
    case str s =>
      unfold Pass.readProps
      dsimp only
      split
      · exact ih _ _
      · exact ih _ _
      · exact .bind (.ofRun _) fun _ => .bind (.ofExcept _) fun _ => ih _ _
      · exact ih _ _
    all_goals exact ih _ _

theorem callBody (invoke : Invoke) (key : Hook.Key) (place : Nat) (props : Value) :
    Aside (Pass.callBody invoke key place props) where
  run handlers m := by
    unfold bare Pass.callBody
    cases Run.first (invoke Trail.host (.func place) [props]) { m with hooks := m.hooks.enter key } <;> rfl

end Aside

/-! ### Drawing -/

def drawElement (component : Nat → Value → String → Cycle (List Sketch)) (value : Value → String → Cycle (List Sketch))
    (t : Table) (path : String) : Cycle (List Sketch) := do
  let own? ← bare (props? t)
  match t.getName "type" with
  | .str s =>
    let tag := Text.decodeLossy s
    let own ← bare (match own? with
      | some place => ofRun (Run.readTable place)
      | none => pure {})
    let children := own.getName "children"
    if tag == Element.fragment then value children path
    else
      let read ← bare (readProps own.entries [] [])
      return [.element tag read.1 own.entries (← value children path)]
  | .func place =>
    let props := match own? with
      | some place => .table place
      | none => .nil
    component place props path
  | v => throw (.invalidElementType v.hostTypeName)

def drawInPlace (value : Value → String → Cycle (List Sketch)) (path : String) (index : Nat) (child : Value) :
    Cycle (List Sketch) := do
  value child (childPath path index (← bare (keyText? child)))

/-- The items of a list from an index on, each as it is when its turn comes. -/
def drawEach (value : Value → String → Cycle (List Sketch)) (place : Nat) (path : String) (more index : Nat) :
    Cycle (List Sketch) :=
  along (fun i => bare (item? place i)) (drawInPlace value path) (throw (.script Run.overtime)) more index

mutual

def drawComponent (invoke : Invoke) : Nat → Nat → Value → String → Cycle (List Sketch)
  | 0, _, _, _ => throw (.depthExceeded maxDepth)
  | left + 1, place, props, path => do
    let v ← bare (callBody invoke (instanceKey path place) place props)
    drawValue invoke left v (innerPath (instanceKey path place))

def drawValue (invoke : Invoke) : Nat → Value → String → Cycle (List Sketch)
  | 0, _, _ => throw (.depthExceeded maxDepth)
  | left + 1, v, path =>
    match v with
    | .nil | .bool _ | .null => return []
    | .table place => do
      let t ← bare (ofRun (Run.readTable place))
      if Element.isElement t then drawElement (drawComponent invoke left) (drawValue invoke left) t path
      else if t.length == 0 && !t.entries.isEmpty then throw (.invalidChild "object")
      else drawEach (drawValue invoke left) place path (← bare (reach t)) 0
    | v =>
      match plainText? v with
      | some text => return [.text text]
      | none => throw (.invalidChild v.hostTypeName)

end

def drawRoot (invoke : Invoke) (render props : Value) : Cycle (List Sketch) :=
  match render with
  | .func place => drawComponent invoke (maxDepth + 1) place props "root"
  | v => throw (.invalidElementType v.hostTypeName)

/-- One pass, from properties to a sketch. -/
def drawPass (invoke : Invoke) (render : Value) (props : Json) : Cycle (List Sketch) := do
  Cycle.ofRun (Run.modifyHooks (·.beginPass))
  budgeted RenderError.isPanic (do
    let v ← Cycle.ofRun props.toProps
    drawRoot invoke render v)

/-! ### A pass draws and numbers -/

/-- The nodes of a sketch whose ids go on behind some handlers, and these with those of the sketch. -/
def numbered (handlers : Array Value) :
    EStateM.Result RenderError Machine (List Sketch) → EStateM.Result RenderError Machine (List Node × Array Value)
  | .ok ss n => .ok (Sketch.numberAll handlers.size ss, handlers ++ (Sketch.callbacksAll ss).toArray) n
  | .error e n => .error e n

theorem pure_pass {α : Type} (a : α) (handlers : Array Value) (m : Machine) :
    (pure a : Pass α) handlers m = .ok (a, handlers) m := rfl

theorem pure_cycle {α : Type} (a : α) (m : Machine) : (pure a : Cycle α) m = .ok a m := rfl

/-- A part of a pass draws and numbers what it has drawn. -/
structure Numbers (p : Pass (List Node)) (d : Cycle (List Sketch)) : Prop where
  run : ∀ handlers m, p handlers m = numbered handlers (d m)

namespace Numbers
variable {p : Pass (List Node)} {d : Cycle (List Sketch)}

theorem throw (e : RenderError) : Numbers (MonadExcept.throw e) (MonadExcept.throw e) := ⟨fun _ _ => rfl⟩

theorem pure_nil : Numbers (pure []) (pure []) where
  run handlers _ := by simp [numbered, Sketch.numberAll, Sketch.callbacksAll, pure_pass, pure_cycle]

theorem pure_text (s : String) : Numbers (pure [.text s]) (pure [.text s]) where
  run handlers _ := by
    simp [numbered, Sketch.numberAll, Sketch.number, Sketch.callbacksAll, Sketch.callbacks, pure_pass, pure_cycle]

theorem ite {c : Prop} [Decidable c] {q : Pass (List Node)} {e : Cycle (List Sketch)} (hp : Numbers p d)
    (hq : Numbers q e) : Numbers (if c then p else q) (if c then d else e) := by
  split
  · exact hp
  · exact hq

/-- Nothing is numbered before what only reads. -/
theorem bind_of_read {q : Pass α} {k : α → Pass (List Node)} {j : α → Cycle (List Sketch)} (hq : Aside q)
    (hk : ∀ m a n, bare q m = .ok a n → Numbers (k a) (j a)) : Numbers (q >>= k) (bare q >>= j) := by
  refine ⟨fun handlers m => ?_⟩
  have hq' := hq.run handlers m
  cases hb : bare q m with
  | ok a n =>
    rw [hb] at hq'
    rw [bind_of_ok hb, ← (hk m a n hb).run handlers n]
    exact bind_of_ok (k := fun r : α × Array Value => k r.1 r.2) hq'
  | error e n =>
    rw [hb] at hq'
    rw [bind_of_error hb]
    exact bind_of_error (k := fun r : α × Array Value => k r.1 r.2) hq'

theorem bind {q : Pass α} {k : α → Pass (List Node)} {j : α → Cycle (List Sketch)} (hq : Aside q)
    (hk : ∀ a, Numbers (k a) (j a)) : Numbers (q >>= k) (bare q >>= j) := bind_of_read hq fun _ a _ _ => hk a

/-- The ids of a second part go on behind those of the first. -/
theorem append {q : Pass (List Node)} {e : Cycle (List Sketch)} (hp : Numbers p d) (hq : Numbers q e) :
    Numbers (do return (← p) ++ (← q)) (do return (← d) ++ (← e)) := by
  refine ⟨fun handlers m => ?_⟩
  have hp' := hp.run handlers m
  cases hd : d m with
  | error err n =>
    rw [hd] at hp'
    rw [bind_of_error hd]
    exact bind_of_error (k := fun r : List Node × Array Value => (do return r.1 ++ (← q) : Pass (List Node)) r.2) hp'
  | ok ss n =>
    rw [hd] at hp'
    rw [bind_of_ok hd]
    refine (bind_of_ok (k := fun r : List Node × Array Value => (do return r.1 ++ (← q) : Pass (List Node)) r.2)
      hp').trans ?_
    have hq' := hq.run (handlers ++ (Sketch.callbacksAll ss).toArray) n
    cases he : e n with
    | error err l =>
      rw [he] at hq'
      rw [bind_of_error he]
      exact bind_of_error (k := fun r : List Node × Array Value => (pure (_ ++ r.1) : Pass (List Node)) r.2) hq'
    | ok rs l =>
      rw [he] at hq'
      rw [bind_of_ok he]
      refine (bind_of_ok
        (k := fun r : List Node × Array Value => (pure (_ ++ r.1) : Pass (List Node)) r.2) hq').trans ?_
      simp [numbered, Sketch.numberAll_append, Sketch.callbacksAll_append, pure_pass, pure_cycle]

/-- The handlers of an element have their ids before its children have theirs. -/
theorem element (hp : Numbers p d) (tag : String) (attributes : List (String × String))
    (own : List (Value × Value)) :
    Numbers (do
        let handlers ← deal (handlersOf own)
        return [.element tag attributes handlers (← p)])
      (do return [.element tag attributes own (← d)]) := by
  refine ⟨fun handlers m => ?_⟩
  have hp' := hp.run (handlers ++ ((handlersOf own).map (·.2)).toArray) m
  cases hd : d m with
  | error err n =>
    rw [hd] at hp'
    rw [bind_of_error hd]
    exact bind_of_error (k := fun r : List Node × Array Value => (pure [_] : Pass (List Node)) r.2) hp'
  | ok ss n =>
    rw [hd] at hp'
    rw [bind_of_ok hd]
    refine (bind_of_ok
        (k := fun r : List Node × Array Value => (pure [.element tag attributes _ r.1] : Pass (List Node)) r.2)
      hp').trans ?_
    simp [numbered, Sketch.numberAll, Sketch.number, Sketch.callbacksAll, Sketch.callbacks, Sketch.dealt, pure_pass,
      pure_cycle]

end Numbers

/-- The handlers that are read are those among the properties. -/
theorem readProps_handlers {own : List (Value × Value)} {attributes : List (String × String)}
    {handlers : List (String × Value)} {m n : Machine} {r} (h : bare (readProps own attributes handlers) m = .ok r n) :
    r.2 = own.foldl addHandler handlers := by
  induction own generalizing attributes handlers m with
  | nil =>
    cases h
    rfl
  | cons property own ih =>
    obtain ⟨key, v⟩ := property
    rw [List.foldl_cons]
    cases key
    case str s =>
      unfold readProps at h
      unfold addHandler handlerName?
      dsimp only at h ⊢
      cases hproperty : Property.of (Text.decodeLossy s) v with
      | style place =>
        rw [hproperty] at h
        dsimp only at h
        rw [(Aside.ofRun _).bare_bind] at h
        obtain ⟨t, l, -, h⟩ := bind_ok h
        rw [(Aside.ofExcept _).bare_bind] at h
        obtain ⟨rules, l, -, h⟩ := bind_ok h
        exact ih h
      | _ =>
        rw [hproperty] at h
        exact ih h
    all_goals exact ih h

theorem numbers_elementBy {component : Nat → Value → String → Pass (List Node)}
    {value : Value → String → Pass (List Node)} {drawnComponent : Nat → Value → String → Cycle (List Sketch)}
    {drawnValue : Value → String → Cycle (List Sketch)}
    (hc : ∀ place props path, Numbers (component place props path) (drawnComponent place props path))
    (hv : ∀ v path, Numbers (value v path) (drawnValue v path)) (t : Table) (path : String) :
    Numbers (elementBy component value t path) (drawElement drawnComponent drawnValue t path) := by
  refine .bind (.props? t) fun own? => ?_
  generalize t.getName "type" = kind
  cases kind
  case str s =>
    have hk (own : Table) : Numbers (tagged value (Text.decodeLossy s) path own)
        (if Text.decodeLossy s == Element.fragment then drawnValue (own.getName "children") path
        else do
          let r ← bare (readProps own.entries [] [])
          return [.element (Text.decodeLossy s) r.1 own.entries (← drawnValue (own.getName "children") path)]) := by
      refine .ite (hv ..) (.bind_of_read (.readProps ..) fun m r n hr => ?_)
      rw [readProps_handlers hr]
      exact .element (hv ..) ..
    cases own? with
    | none => exact .bind (.pure _) hk
    | some place => exact .bind (.ofRun _) hk
  case func place => exact hc ..
  all_goals exact .throw _

/-- The items of a list are numbered one behind another, whatever each does to those behind it. -/
theorem numbers_drawEach {value : Value → String → Pass (List Node)} {drawnValue : Value → String → Cycle (List Sketch)}
    (hv : ∀ v path, Numbers (value v path) (drawnValue v path)) (place : Nat) (path : String) (more index : Nat) :
    Numbers (each value place path more index) (drawEach drawnValue place path more index) := by
  unfold each drawEach
  induction more generalizing index with
  | zero =>
    refine .bind (.item? place index) fun child? => ?_
    cases child? with
    | none => exact .pure_nil
    | some child => exact .throw _
  | succ more ih =>
    refine .bind (.item? place index) fun child? => ?_
    cases child? with
    | none => exact .pure_nil
    | some child => exact .append (.bind (.keyText? child) fun _ => hv ..) (ih (index + 1))

theorem numbers_component_value (invoke : Invoke) (left : Nat) :
    (∀ place props path,
      Numbers (component invoke left place props path) (drawComponent invoke left place props path)) ∧
      ∀ v path, Numbers (value invoke left v path) (drawValue invoke left v path) := by
  induction left with
  | zero => exact ⟨fun _ _ _ => .throw _, fun _ _ => .throw _⟩
  | succ left ih =>
    obtain ⟨hc, hv⟩ := ih
    refine ⟨fun place props path => .bind (.callBody ..) fun v => hv .., fun v path => ?_⟩
    unfold Pass.value drawValue
    cases v
    case nil | bool | null => exact .pure_nil
    case table place =>
      exact .bind (.ofRun _) fun t => .ite (numbers_elementBy hc hv t path) <| .ite (.throw _) <|
        .bind (.reach t) fun more => numbers_drawEach hv place path more 0
    all_goals
      dsimp only
      generalize plainText? _ = text?
      cases text? with
      | some text => exact .pure_text text
      | none => exact .throw _

theorem numbers_root (invoke : Invoke) (render props : Value) :
    Numbers (root invoke render props) (drawRoot invoke render props) := by
  cases render
  case func place => exact (numbers_component_value invoke _).1 ..
  all_goals exact .throw _

/-- An allowance is not about numbers. -/
theorem numbered_budgeted (panics : RenderError → Bool) {r : Cycle (List Node × Array Value)} {d : Cycle (List Sketch)}
    (h : ∀ m, r m = numbered #[] (d m)) (m : Machine) : budgeted panics r m = numbered #[] (budgeted panics d m) := by
  unfold budgeted
  rw [h]
  cases d { m with steps := some m.allowance, taken := 0 } with
  | ok ss n => rfl
  | error e n => rfl

theorem numbered_bind {r : Cycle α} {k : α → Cycle (List Node × Array Value)} {d : α → Cycle (List Sketch)}
    (h : ∀ a m, k a m = numbered #[] (d a m)) (m : Machine) : (r >>= k) m = numbered #[] ((r >>= d) m) := by
  cases hr : r m with
  | ok a n => rw [bind_of_ok hr, bind_of_ok hr, h]
  | error e n =>
    rw [bind_of_error hr, bind_of_error hr]
    rfl

/-- **A pass draws, and the ids are dealt over what it has drawn.** -/
theorem renderPass_eq (invoke : Invoke) (render : Value) (props : Json) (m : Machine) :
    renderPass invoke render props m = numbered #[] (drawPass invoke render props m) :=
  numbered_bind (fun _ => numbered_budgeted _ <| numbered_bind fun v => (numbers_root invoke render v).run #[]) m

end LivePreview.Surface
