import LivePreview.Proofs.Surface.Enumeration
import Mathlib.Data.List.Pairwise

/-! A whole pass that reads tables in any order.

A pass is drawn again with the properties of each element read in an order of their own, and with a note of every table
that is read (`passUnder`). With the order in which the entries are kept it draws what the pass of the surface draws. As
long as nothing falls together in the tables that are read, the order is seen in the ids within the elements and
nowhere else (`order_invisible`). -/
namespace LivePreview.Surface
open Script Pass
variable {α β : Type}

/-! ### Computations that note what they read -/

/-- A computation with the tables that it reads as properties: the machine at that moment, and the place. -/
structure Noting (α : Type) where
  run : Cycle α
  reads : Machine → List (Machine × Nat)

namespace Noting

/-- A computation that reads no properties. -/
def quiet (r : Cycle α) : Noting α := ⟨r, fun _ => []⟩

def andThen (t : Noting α) (k : α → Noting β) : Noting β where
  run := t.run >>= fun a => (k a).run
  reads m := t.reads m ++ match t.run m with
    | .ok a m => (k a).reads m
    | .error _ _ => []

instance : Monad Noting where
  pure a := quiet (Pure.pure a)
  bind := andThen

def budgeted (t : Noting α) : Noting α :=
  ⟨Script.budgeted RenderError.isPanic t.run, fun m => t.reads { m with steps := some m.allowance, taken := 0 }⟩

end Noting

/-! ### A pass under an order -/

section Passes
variable (listing : Listing) (invoke : Invoke)

/-- Reads the properties at a place in their order. -/
def enumerate (place : Nat) : Noting (List (String × String) × List (Value × Value)) where
  run m :=
    match gather (attributeOf listing m) (listing.list m place) with
    | .ok attributes => .ok (attributes, listing.list m place) m
    | .error fault => .error (.script fault) m
  reads m := [(m, place)]

def elementUnder (component : Nat → Value → String → Noting (List Sketch))
    (value : Value → String → Noting (List Sketch)) (t : Table) (path : String) : Noting (List Sketch) := do
  let own? ← Noting.quiet (bare (props? t))
  match t.getName "type" with
  | .str s =>
    let tag := Text.decodeLossy s
    let own ← Noting.quiet (bare (match own? with
      | some place => ofRun (Run.readTable place)
      | none => pure {}))
    let children := own.getName "children"
    if tag == Element.fragment then value children path
    else
      let read ← match own? with
        | some place => enumerate listing place
        | none => pure ([], [])
      return [.element tag read.1 read.2 (← value children path)]
  | .func place =>
    let props := match own? with
      | some place => .table place
      | none => .nil
    component place props path
  | v => Noting.quiet (throw (.invalidElementType v.hostTypeName))

def inPlaceUnder (value : Value → String → Noting (List Sketch)) (path : String) (index : Nat) (child : Value) :
    Noting (List Sketch) := do
  value child (childPath path index (← Noting.quiet (bare (keyText? child))))

def eachUnder (value : Value → String → Noting (List Sketch)) (place : Nat) (path : String) (more index : Nat) :
    Noting (List Sketch) :=
  along (fun i => Noting.quiet (bare (item? place i))) (inPlaceUnder value path)
    (Noting.quiet (throw (.script Run.overtime))) more index

mutual

def componentUnder : Nat → Nat → Value → String → Noting (List Sketch)
  | 0, _, _, _ => Noting.quiet (throw (.depthExceeded maxDepth))
  | left + 1, place, props, path => do
    let v ← Noting.quiet (bare (callBody invoke (instanceKey path place) place props))
    valueUnder left v (innerPath (instanceKey path place))

def valueUnder : Nat → Value → String → Noting (List Sketch)
  | 0, _, _ => Noting.quiet (throw (.depthExceeded maxDepth))
  | left + 1, v, path =>
    match v with
    | .nil | .bool _ | .null => return []
    | .table place => do
      let t ← Noting.quiet (bare (ofRun (Run.readTable place)))
      if Element.isElement t then elementUnder listing (componentUnder left) (valueUnder left) t path
      else if t.length == 0 && !t.entries.isEmpty then Noting.quiet (throw (.invalidChild "object"))
      else eachUnder (valueUnder left) place path (← Noting.quiet (bare (Pass.reach t))) 0
    | v =>
      match plainText? v with
      | some text => return [.text text]
      | none => Noting.quiet (throw (.invalidChild v.hostTypeName))

end

def rootUnder (render props : Value) : Noting (List Sketch) :=
  match render with
  | .func place => componentUnder listing invoke (maxDepth + 1) place props "root"
  | v => Noting.quiet (throw (.invalidElementType v.hostTypeName))

/-- One pass, from properties to a sketch. -/
def passUnder (render : Value) (props : Json) : Noting (List Sketch) := do
  Noting.quiet (Cycle.ofRun (Run.modifyHooks (·.beginPass)))
  Noting.budgeted (do
    let v ← Noting.quiet (Cycle.ofRun props.toProps)
    rootUnder listing invoke render v)

end Passes

/-! ### The order of the entries as they are kept -/

variable {invoke : Invoke} {render : Value} {props : Json} {m n : Machine} {listing listing' : Listing}

theorem readProps_eq_gather (own : List (Value × Value)) (attributes : List (String × String))
    (handlers : List (String × Value)) (m : Machine) : bare (readProps own attributes handlers) m =
      match own.foldlM (put (attributeOf .stored m)) attributes with
      | .ok attributes => .ok (attributes, own.foldl addHandler handlers) m
      | .error fault => .error (.script fault) m := by
  induction own generalizing attributes handlers with
  | nil => rfl
  | cons property own ih =>
    obtain ⟨key, v⟩ := property
    -- What is no handler and gives no attribute leaves both as they are.
    have hskip (hgive : attributeOf .stored m (key, v) = .ok none) (hname : handlerName? (key, v) = none)
        (hread : readProps ((key, v) :: own) attributes handlers = readProps own attributes handlers) :
        bare (readProps ((key, v) :: own) attributes handlers) m =
          match ((key, v) :: own).foldlM (put (attributeOf .stored m)) attributes with
          | .ok attributes => .ok (attributes, ((key, v) :: own).foldl addHandler handlers) m
          | .error fault => .error (.script fault) m := by
      rw [hread, ih, List.foldlM_cons, List.foldl_cons, put, hgive, addHandler, hname]
      rfl
    cases key
    case str s =>
      cases hproperty : Property.of (Text.decodeLossy s) v with
      | ignored =>
        refine hskip ?_ ?_ ?_
        · simp [attributeOf, hproperty]
        · simp [handlerName?, hproperty]
        · simp [readProps, hproperty]
      | handler =>
        have hgive : attributeOf .stored m (.str s, v) = .ok none := by simp [attributeOf, hproperty]
        have hname : handlerName? (.str s, v) = some (Text.decodeLossy s) := by simp [handlerName?, hproperty]
        have hread : readProps ((.str s, v) :: own) attributes handlers =
            readProps own attributes (Node.insertEntry (Text.decodeLossy s) v handlers) := by
              simp [readProps, hproperty]
        rw [hread, ih, List.foldlM_cons, List.foldl_cons, put, hgive, addHandler, hname]
        rfl
      | style place =>
        have hname : handlerName? (.str s, v) = none := by simp [handlerName?, hproperty]
        have hread : readProps ((.str s, v) :: own) attributes handlers = (do
            let t ← ofRun (Run.readTable place)
            let rules ← ofExcept (styleRules t.entries)
            readProps own (Node.insertEntry (Text.decodeLossy s) (styleText rules) attributes) handlers) := by
          simp [readProps, hproperty]
        have htable : bare (ofRun (Run.readTable place)) m = .ok (m.tables.getD place {}) m := rfl
        rw [hread, (Aside.ofRun _).bare_bind, bind_of_ok htable, (Aside.ofExcept _).bare_bind, List.foldlM_cons,
          List.foldl_cons, put, addHandler, hname]
        have hgive : attributeOf .stored m (.str s, v) =
            (styleRules (m.tables.getD place {}).entries).map fun rules =>
              some (Text.decodeLossy s, styleText rules) := by
          simp [attributeOf, hproperty, Listing.stored]
        rw [hgive]
        cases styleRules (m.tables.getD place {}).entries with
        | error fault => rfl
        | ok rules => exact ih _ _
      | _ =>
        rename_i text
        have hgive : attributeOf .stored m (.str s, v) = .ok (some (Text.decodeLossy s, text)) := by
          simp [attributeOf, hproperty]
        have hname : handlerName? (.str s, v) = none := by simp [handlerName?, hproperty]
        have hread : readProps ((.str s, v) :: own) attributes handlers =
            readProps own (Node.insertEntry (Text.decodeLossy s) text attributes) handlers := by
              simp [readProps, hproperty]
        rw [hread, ih, List.foldlM_cons, List.foldl_cons, put, hgive, addHandler, hname]
        rfl
    all_goals exact hskip rfl rfl rfl

theorem enumerate_stored (place : Nat) (m : Machine) {k : List (String × String) × List (Value × Value) → Cycle β}
    {j : List (String × String) × List (String × Value) → Cycle β}
    (h : ∀ attributes handlers, k (attributes, (m.tables.getD place {}).entries) = j (attributes, handlers)) :
    ((enumerate .stored place).run >>= k) m = (bare (readProps (m.tables.getD place {}).entries [] []) >>= j) m := by
  have hread := readProps_eq_gather (m.tables.getD place {}).entries [] [] m
  have hrun : (enumerate .stored place).run m =
      match gather (attributeOf .stored m) (m.tables.getD place {}).entries with
      | .ok attributes => .ok (attributes, (m.tables.getD place {}).entries) m
      | .error fault => .error (.script fault) m := rfl
  unfold gather at hrun
  cases hg : (m.tables.getD place {}).entries.foldlM (put (attributeOf .stored m)) [] with
  | ok attributes =>
    rw [hg] at hread hrun
    rw [bind_of_ok hrun, bind_of_ok hread, h]
  | error fault =>
    rw [hg] at hread hrun
    rw [bind_of_error hrun, bind_of_error hread]

theorem elementUnder_stored {component : Nat → Value → String → Noting (List Sketch)}
    {value : Value → String → Noting (List Sketch)} {drawnComponent : Nat → Value → String → Cycle (List Sketch)}
    {drawnValue : Value → String → Cycle (List Sketch)}
    (hc : ∀ place props path, (component place props path).run = drawnComponent place props path)
    (hv : ∀ v path, (value v path).run = drawnValue v path) (t : Table) (path : String) :
    (elementUnder .stored component value t path).run = drawElement drawnComponent drawnValue t path := by
  refine congrArg (bare (props? t) >>= ·) (funext fun own? => ?_)
  generalize t.getName "type" = kind
  cases kind
  case str s =>
    have hchildren (children : Value) (tag : String) (attributes : List (String × String))
      (own : List (Value × Value)) :
        (do return [Sketch.element tag attributes own (← value children path)] : Noting (List Sketch)).run =
          (do return [.element tag attributes own (← drawnValue children path)]) :=
      congrArg (· >>= _) (hv children path)
    funext m
    cases own? with
    | none =>
      have hempty : bare (pure ({} : Table)) m = .ok {} m := rfl
      refine (bind_of_ok hempty).trans (.trans ?_ (bind_of_ok hempty).symm)
      cases Text.decodeLossy s == Element.fragment with
      | true => exact congrFun (hv _ _) m
      | false =>
        have hread : bare (readProps ({} : Table).entries [] []) m = .ok ([], []) m := rfl
        have hnone : (pure ([], []) : Cycle (List (String × String) × List (Value × Value))) m = .ok ([], []) m := rfl
        exact ((bind_of_ok hnone).trans (congrFun (hchildren ..) m)).trans (bind_of_ok hread).symm
    | some place =>
      have htable : bare (ofRun (Run.readTable place)) m = .ok (m.tables.getD place {}) m := rfl
      refine (bind_of_ok htable).trans (.trans ?_ (bind_of_ok htable).symm)
      cases Text.decodeLossy s == Element.fragment with
      | true => exact congrFun (hv _ _) m
      | false => exact enumerate_stored place m fun attributes handlers => hchildren ..
  case func place => exact hc ..
  all_goals rfl

theorem eachUnder_stored {value : Value → String → Noting (List Sketch)}
    {drawnValue : Value → String → Cycle (List Sketch)}
    (hv : ∀ v path, (value v path).run = drawnValue v path) (place : Nat) (path : String) (more index : Nat) :
    (eachUnder value place path more index).run = drawEach drawnValue place path more index := by
  have hitem (index : Nat) (child : Value) :
      (inPlaceUnder value path index child).run = drawInPlace drawnValue path index child :=
    congrArg (bare (keyText? child) >>= ·) (funext fun key? => hv ..)
  unfold eachUnder drawEach
  induction more generalizing index with
  | zero =>
    refine congrArg (bare (item? place index) >>= ·) (funext fun child? => ?_)
    cases child? <;> rfl
  | succ more ih =>
    refine congrArg (bare (item? place index) >>= ·) (funext fun child? => ?_)
    cases child? with
    | none => rfl
    | some child =>
      show (inPlaceUnder value path index child).run >>= _ = _
      rw [hitem]
      refine congrArg (drawInPlace drawnValue path index child >>= ·) (funext fun first => ?_)
      exact congrArg (· >>= _) (ih (index + 1))

theorem component_value_stored (invoke : Invoke) (left : Nat) :
    (∀ place props path, (componentUnder .stored invoke left place props path).run =
        drawComponent invoke left place props path) ∧
      ∀ v path, (valueUnder .stored invoke left v path).run = drawValue invoke left v path := by
  induction left with
  | zero => exact ⟨fun _ _ _ => rfl, fun _ _ => rfl⟩
  | succ left ih =>
    obtain ⟨hc, hv⟩ := ih
    refine ⟨fun place props path => ?_, fun v path => ?_⟩
    · exact congrArg (bare (callBody invoke (instanceKey path place) place props) >>= ·) (funext fun v => hv ..)
    · unfold valueUnder drawValue
      cases v
      case nil | bool | null => rfl
      case table place =>
        refine congrArg (bare (ofRun (Run.readTable place)) >>= ·) (funext fun t => ?_)
        beta_reduce
        cases Element.isElement t with
        | true => exact elementUnder_stored hc hv t path
        | false =>
          cases t.length == 0 && !t.entries.isEmpty with
          | true => rfl
          | false =>
            exact congrArg (bare (Pass.reach t) >>= ·) (funext fun more => eachUnder_stored hv place path more 0)
      all_goals
        dsimp only
        generalize plainText? _ = text?
        cases text? <;> rfl

/-- **With the entries in the order in which they are kept, the pass draws what the pass of the surface draws.** -/
theorem passUnder_stored (invoke : Invoke) (render : Value) (props : Json) :
    (passUnder .stored invoke render props).run = drawPass invoke render props := by
  refine congrArg (Cycle.ofRun (Run.modifyHooks (·.beginPass)) >>= ·) (funext fun _ => ?_)
  refine congrArg (Script.budgeted RenderError.isPanic)
    (congrArg (Cycle.ofRun props.toProps >>= ·) (funext fun v => ?_))
  cases render
  case func place => exact (component_value_stored invoke _).1 ..
  all_goals rfl

/-! ### Two orders -/

/-- Two runs end in one machine, with one error or with results of which `R` holds. -/
inductive EndAlike (R : α → α → Prop) :
    EStateM.Result RenderError Machine α → EStateM.Result RenderError Machine α → Prop
  | ok {a b : α} (h : R a b) (n : Machine) : EndAlike R (.ok a n) (.ok b n)
  | error (e : RenderError) (n : Machine) : EndAlike R (.error e n) (.error e n)

/-- Nothing falls together in the properties that are read. -/
def ReadsApart (p : Noting α) (m : Machine) : Prop := ∀ r ∈ p.reads m, Apart r.1 (Listing.stored.list r.1 r.2)

/-- While nothing falls together, two computations end alike. -/
structure Steady (R : α → α → Prop) (p q : Noting α) : Prop where
  run : ∀ m, ReadsApart p m → EndAlike R (p.run m) (q.run m)

namespace Steady
variable {R : α → α → Prop} {S : β → β → Prop} {p q : Noting α}

theorem quiet (r : Cycle α) : Steady Eq (Noting.quiet r) (Noting.quiet r) where
  run m _ := by
    show EndAlike Eq (r m) (r m)
    cases r m with
    | ok a n => exact .ok rfl n
    | error e n => exact .error e n

theorem pure {a b : α} (h : R a b) : Steady R (Pure.pure a) (Pure.pure b) := ⟨fun m _ => .ok h m⟩

theorem throw (e : RenderError) : Steady R (Noting.quiet (MonadExcept.throw e)) (Noting.quiet (MonadExcept.throw e)) :=
  ⟨fun m _ => .error e m⟩

theorem bind {k j : α → Noting β} (hp : Steady R p q) (hk : ∀ a b, R a b → Steady S (k a) (j b)) :
    Steady S (p >>= k) (q >>= j) := by
  refine ⟨fun m hm => ?_⟩
  have hreads : (p >>= k).reads m = p.reads m ++ match p.run m with
    | .ok a m => (k a).reads m
    | .error _ _ => [] := rfl
  have hfirst := hp.run m fun r hr => hm r (by rw [hreads]; exact List.mem_append_left _ hr)
  show EndAlike S ((p.run >>= fun a => (k a).run) m) ((q.run >>= fun a => (j a).run) m)
  cases hpm : p.run m with
  | ok a n =>
    cases hqm : q.run m with
    | ok b l =>
      rw [hpm, hqm] at hfirst
      cases hfirst with
      | ok h =>
        rw [bind_of_ok hpm, bind_of_ok hqm]
        refine (hk a b h).run n fun r hr => hm r ?_
        rw [hreads, hpm]
        exact List.mem_append_right _ hr
    | error e l =>
      rw [hpm, hqm] at hfirst
      cases hfirst
  | error e n =>
    cases hqm : q.run m with
    | ok b l =>
      rw [hpm, hqm] at hfirst
      cases hfirst
    | error e' l =>
      rw [hpm, hqm] at hfirst
      cases hfirst
      rw [bind_of_error hpm, bind_of_error hqm]
      exact .error e n

theorem ite {c : Prop} [Decidable c] {p' q' : Noting α} (h : Steady R p q) (h' : Steady R p' q') :
    Steady R (if c then p else p') (if c then q else q') := by
  split
  · exact h
  · exact h'

theorem budgeted (h : Steady R p q) : Steady R p.budgeted q.budgeted := by
  refine ⟨fun m hm => ?_⟩
  have hrun := h.run { m with steps := some m.allowance, taken := 0 } hm
  show EndAlike R (Script.budgeted RenderError.isPanic p.run m) (Script.budgeted RenderError.isPanic q.run m)
  unfold Script.budgeted
  generalize p.run { m with steps := some m.allowance, taken := 0 } = r at hrun ⊢
  generalize q.run { m with steps := some m.allowance, taken := 0 } = r' at hrun ⊢
  cases hrun with
  | ok h n => exact .ok h _
  | error e n => exact .error e _

end Steady

mutual

/-- The same but for the order in which the properties of elements were read. -/
def Similar : Sketch → Sketch → Prop
  | .text s, .text t => s = t
  | .element tag attributes own children, .element tag' attributes' own' children' =>
    (tag = tag' ∧ attributes = attributes') ∧ (own'.Perm own ∧ HandlersApart own) ∧ SimilarAll children children'
  | _, _ => False

def SimilarAll : List Sketch → List Sketch → Prop
  | [], [] => True
  | s :: ss, t :: ts => Similar s t ∧ SimilarAll ss ts
  | _, _ => False

end

theorem SimilarAll.append {ss ts ss' ts' : List Sketch} (h : SimilarAll ss ts) (h' : SimilarAll ss' ts') :
    SimilarAll (ss ++ ss') (ts ++ ts') := by
  induction ss generalizing ts with
  | nil =>
    cases ts with
    | nil => exact h'
    | cons => exact (h : False).elim
  | cons s ss ih =>
    cases ts with
    | nil => exact (h : False).elim
    | cons t ts => exact ⟨h.1, ih h.2⟩

/-- Attributes are the same in any order, and properties are read in some order. -/
theorem steady_enumerate (listing listing' : Listing) (place : Nat) :
    Steady (fun r r' => r.1 = r'.1 ∧ r'.2.Perm r.2 ∧ HandlersApart r.2) (enumerate listing place)
      (enumerate listing' place) := by
  refine ⟨fun m hm => ?_⟩
  have hapart : Apart m (Listing.stored.list m place) := hm (m, place) List.mem_cons_self
  have hgather (listing : Listing) : gather (attributeOf listing m) (listing.list m place) =
      gather (attributeOf .stored m) (Listing.stored.list m place) :=
    gather_attributeOf hapart (listing.perm m place) .stored listing
  show EndAlike _ (match gather (attributeOf listing m) (listing.list m place) with
    | .ok attributes => .ok (attributes, listing.list m place) m
    | .error fault => .error (.script fault) m) (match gather (attributeOf listing' m) (listing'.list m place) with
    | .ok attributes => .ok (attributes, listing'.list m place) m
    | .error fault => .error (.script fault) m)
  rw [hgather listing, hgather listing']
  cases hg : gather (attributeOf .stored m) (Listing.stored.list m place) with
  | error fault => exact .error _ m
  | ok attributes =>
    obtain ⟨-, -, hhandlers⟩ := hapart.names.resolve_left (no_fault_of_gather hg)
    refine .ok ⟨rfl, (listing'.perm m place).trans (listing.perm m place).symm, fun p hp q hq => ?_⟩ m
    exact hhandlers p ((listing.perm m place).mem_iff.1 hp) q ((listing.perm m place).mem_iff.1 hq)

theorem steady_elementUnder {component component' : Nat → Value → String → Noting (List Sketch)}
    {value value' : Value → String → Noting (List Sketch)}
    (hc : ∀ place props path, Steady SimilarAll (component place props path) (component' place props path))
    (hv : ∀ v path, Steady SimilarAll (value v path) (value' v path)) (t : Table) (path : String) :
    Steady SimilarAll (elementUnder listing component value t path)
      (elementUnder listing' component' value' t path) := by
  refine .bind (.quiet _) fun own? _ h => h ▸ ?_
  generalize t.getName "type" = kind
  cases kind
  case str s =>
    refine .bind (.quiet _) fun own _ h => h ▸ .ite (hv ..) ?_
    have hread {read read' : List (String × String) × List (Value × Value)}
        (h : read.1 = read'.1 ∧ read'.2.Perm read.2 ∧ HandlersApart read.2) : Steady SimilarAll
          (do return [Sketch.element (Text.decodeLossy s) read.1 read.2 (← value (own.getName "children") path)])
          (do return [Sketch.element (Text.decodeLossy s) read'.1 read'.2 (← value' (own.getName "children") path)]) :=
      .bind (hv ..) fun _ _ hchildren => .pure ⟨⟨⟨rfl, h.1⟩, h.2, hchildren⟩, trivial⟩
    cases own? with
    | none =>
      have hnone : HandlersApart [] := fun _ hp => nomatch hp
      exact .bind (.pure ⟨rfl, .refl _, hnone⟩) fun _ _ h => hread h
    | some place => exact .bind (steady_enumerate listing listing' place) fun _ _ h => hread h
  case func place => exact hc ..
  all_goals exact .throw _

theorem steady_eachUnder {value value' : Value → String → Noting (List Sketch)}
    (hv : ∀ v path, Steady SimilarAll (value v path) (value' v path)) (place : Nat) (path : String) (more index : Nat) :
    Steady SimilarAll (eachUnder value place path more index) (eachUnder value' place path more index) := by
  unfold eachUnder
  induction more generalizing index with
  | zero =>
    refine .bind (.quiet _) fun child? _ h => h ▸ ?_
    cases child? with
    | none => exact .pure trivial
    | some child => exact .throw _
  | succ more ih =>
    refine .bind (.quiet _) fun child? _ h => h ▸ ?_
    cases child? with
    | none => exact .pure trivial
    | some child =>
      have hitem : Steady SimilarAll (inPlaceUnder value path index child) (inPlaceUnder value' path index child) :=
        .bind (.quiet _) fun key? _ h => h ▸ hv ..
      refine .bind hitem fun first first' hfirst => ?_
      exact .bind (ih (index + 1)) fun rest rest' hrest => .pure (hfirst.append hrest)

theorem steady_component_value (listing listing' : Listing) (invoke : Invoke) (left : Nat) :
    (∀ place props path, Steady SimilarAll (componentUnder listing invoke left place props path)
        (componentUnder listing' invoke left place props path)) ∧
      ∀ v path, Steady SimilarAll (valueUnder listing invoke left v path) (valueUnder listing' invoke left v path) := by
  induction left with
  | zero => exact ⟨fun _ _ _ => .throw _, fun _ _ => .throw _⟩
  | succ left ih =>
    obtain ⟨hc, hv⟩ := ih
    refine ⟨fun place props path => .bind (.quiet _) fun v _ h => h ▸ hv .., fun v path => ?_⟩
    unfold valueUnder
    cases v
    case nil | bool | null => exact .pure trivial
    case table place =>
      refine .bind (.quiet _) fun t t' h => ?_
      subst h
      exact .ite (steady_elementUnder hc hv t path) <| .ite (.throw _) <|
        .bind (.quiet _) fun more _ h => h ▸ steady_eachUnder hv place path more 0
    all_goals
      dsimp only
      generalize plainText? _ = text?
      cases text? with
      | some text => exact .pure ⟨rfl, trivial⟩
      | none => exact .throw _

theorem steady_passUnder (listing listing' : Listing) (invoke : Invoke) (render : Value) (props : Json) :
    Steady SimilarAll (passUnder listing invoke render props) (passUnder listing' invoke render props) := by
  refine .bind (.quiet _) fun _ _ _ => .budgeted (.bind (.quiet _) fun v _ h => h ▸ ?_)
  cases render
  case func place => exact (steady_component_value listing listing' invoke _).1 ..
  all_goals exact .throw _

/-! ### Ids as they are dealt while tables are read -/

namespace Sketch

mutual

/-- The functions of all handlers, in the order in which they are read. -/
def pushedOf : Sketch → List Value
  | text _ => []
  | element _ _ own children => (pushed own).map (·.2) ++ pushedAll children

def pushedAll : List Sketch → List Value
  | [] => []
  | s :: r => pushedOf s ++ pushedAll r

end

mutual

/-- The node of a sketch, where each handler that is read gets the next id. -/
def read (first : Nat) : Sketch → Node
  | text s => .text s
  | element tag attributes own children =>
    .element tag attributes (idsFrom first (pushed own)) (readAll (first + (pushed own).length) children)

def readAll (first : Nat) : List Sketch → List Node
  | [] => []
  | s :: r => read first s :: readAll (first + (pushedOf s).length) r

end

end Sketch

/-- One pass that reads tables in an order: its nodes, and the functions at their ids. -/
def listedPass (listing : Listing) (invoke : Invoke) (render : Value) (props : Json) :
    Cycle (List Node × List Value) := do
  let sketch ← (passUnder listing invoke render props).run
  return (Sketch.readAll 0 sketch, Sketch.pushedAll sketch)

/-- The markup that is shown after a pass, and the machine. -/
def markupOf : EStateM.Result RenderError Machine (List Node × β) → EStateM.Result RenderError Machine (List Char)
  | .ok r n => .ok (Node.markupAll r.1) n
  | .error e n => .error e n

mutual

/-- The same node, with ids that differ at most within each element. -/
def Renumbered (fs gs : List Value) : Node → Node → Prop
  | .text s, .text t => s = t
  | .element tag attributes ids children, .element tag' attributes' ids' children' =>
    (tag = tag' ∧ attributes = attributes') ∧ SameEvents fs gs ids ids' ∧ RenumberedAll fs gs children children'
  | _, _ => False

def RenumberedAll (fs gs : List Value) : List Node → List Node → Prop
  | [], [] => True
  | n :: ns, n' :: ns' => Renumbered fs gs n n' ∧ RenumberedAll fs gs ns ns'
  | _, _ => False

end

mutual

theorem Similar.length_eq {s t : Sketch} (h : Similar s t) :
    (Sketch.pushedOf s).length = (Sketch.pushedOf t).length := by
  cases s with
  | text s =>
    cases t with
    | text t => rfl
    | element => exact (h : False).elim
  | element tag attributes own children =>
    cases t with
    | text t => exact (h : False).elim
    | element tag' attributes' own' children' =>
      obtain ⟨-, ⟨hp, -⟩, hchildren⟩ := h
      have hown : (pushed own').length = (pushed own).length := (hp.filterMap _).length_eq
      simp [Sketch.pushedOf, hown, hchildren.length_eq]

theorem SimilarAll.length_eq {ss ts : List Sketch} (h : SimilarAll ss ts) :
    (Sketch.pushedAll ss).length = (Sketch.pushedAll ts).length := by
  cases ss with
  | nil =>
    cases ts with
    | nil => rfl
    | cons => exact (h : False).elim
  | cons s ss =>
    cases ts with
    | nil => exact (h : False).elim
    | cons t ts => simp [Sketch.pushedAll, h.1.length_eq, h.2.length_eq]

end

mutual

/-- The ids go on behind the same number of functions, and others follow. -/
theorem Similar.renumbered {s t : Sketch} (h : Similar s t) (before before' : List Value)
    (hlength : before.length = before'.length) (rest rest' : List Value) :
    Renumbered (before ++ (Sketch.pushedOf s ++ rest)) (before' ++ (Sketch.pushedOf t ++ rest'))
      (Sketch.read before.length s) (Sketch.read before'.length t) := by
  cases s with
  | text s =>
    cases t with
    | text t => exact h
    | element => exact (h : False).elim
  | element tag attributes own children =>
    cases t with
    | text t => exact (h : False).elim
    | element tag' attributes' own' children' =>
      obtain ⟨hhead, ⟨hp, hhandlers⟩, hchildren⟩ := h
      have hown : (pushed own').length = (pushed own).length := (hp.filterMap _).length_eq
      refine ⟨hhead, ?_, ?_⟩
      · simpa [Sketch.pushedOf] using sameEvents_perm hp hhandlers hlength (Sketch.pushedAll children ++ rest)
          (Sketch.pushedAll children' ++ rest')
      · have hall := hchildren.renumbered (before ++ (pushed own).map (·.2))
          (before' ++ (pushed own').map (·.2)) (by simp [hlength, hown]) rest rest'
        simpa [Sketch.pushedOf] using hall

theorem SimilarAll.renumbered {ss ts : List Sketch} (h : SimilarAll ss ts) (before before' : List Value)
    (hlength : before.length = before'.length) (rest rest' : List Value) :
    RenumberedAll (before ++ (Sketch.pushedAll ss ++ rest)) (before' ++ (Sketch.pushedAll ts ++ rest'))
      (Sketch.readAll before.length ss) (Sketch.readAll before'.length ts) := by
  cases ss with
  | nil =>
    cases ts with
    | nil => trivial
    | cons => exact (h : False).elim
  | cons s ss =>
    cases ts with
    | nil => exact (h : False).elim
    | cons t ts =>
      have hfirst := h.1.renumbered before before' hlength (Sketch.pushedAll ss ++ rest) (Sketch.pushedAll ts ++ rest')
      have hall := h.2.renumbered (before ++ Sketch.pushedOf s) (before' ++ Sketch.pushedOf t)
        (by simp [hlength, h.1.length_eq]) rest rest'
      constructor
      · simpa [Sketch.pushedAll] using hfirst
      · simpa [Sketch.pushedAll] using hall

end

theorem RenumberedAll.isEmpty_eq {fs gs : List Value} {ns ns' : List Node} (h : RenumberedAll fs gs ns ns') :
    ns.isEmpty = ns'.isEmpty := by
  cases ns <;> cases ns' <;> first | rfl | exact (h : False).elim

mutual

/-- No id is seen in the markup. -/
theorem Renumbered.markup_eq {fs gs : List Value} {n n' : Node} (h : Renumbered fs gs n n') : n.markup = n'.markup := by
  cases n with
  | text s =>
    cases n' with
    | text t => exact congrArg Node.escape h
    | element => exact (h : False).elim
  | element tag attributes ids children =>
    cases n' with
    | text t => exact (h : False).elim
    | element tag' attributes' ids' children' =>
      obtain ⟨⟨rfl, rfl⟩, -, hchildren⟩ := h
      simp only [Node.markup, hchildren.markupAll_eq, hchildren.isEmpty_eq]

theorem RenumberedAll.markupAll_eq {fs gs : List Value} {ns ns' : List Node} (h : RenumberedAll fs gs ns ns') :
    Node.markupAll ns = Node.markupAll ns' := by
  cases ns with
  | nil =>
    cases ns' with
    | nil => rfl
    | cons => exact (h : False).elim
  | cons n ns =>
    cases ns' with
    | nil => exact (h : False).elim
    | cons n' ns' => simp only [Node.markupAll, h.1.markup_eq, h.2.markupAll_eq]

end

mutual

theorem Sketch.markup_read (s : Sketch) (first first' : Nat) : (s.read first).markup = (s.number first').markup := by
  cases s with
  | text s => rfl
  | element tag attributes own children =>
    have hempty (first first' : Nat) :
        (Sketch.readAll first children).isEmpty = (Sketch.numberAll first' children).isEmpty := by
      cases children <;> rfl
    simp only [Sketch.read, Sketch.number, Node.markup]
    rw [Sketch.markupAll_readAll children _ (first' + (handlersOf own).length), hempty]

theorem Sketch.markupAll_readAll (ss : List Sketch) (first first' : Nat) :
    Node.markupAll (Sketch.readAll first ss) = Node.markupAll (Sketch.numberAll first' ss) := by
  cases ss with
  | nil => rfl
  | cons s ss =>
    simp only [Sketch.readAll, Sketch.numberAll, Node.markupAll]
    rw [Sketch.markup_read s first first', Sketch.markupAll_readAll ss _ (first' + (Sketch.callbacks s).length)]

end

/-- With the entries as they are kept, what is shown is what the surface shows. -/
theorem markupOf_listedPass_stored (invoke : Invoke) (render : Value) (props : Json) (m : Machine) :
    markupOf (listedPass .stored invoke render props m) = markupOf (renderPass invoke render props m) := by
  unfold listedPass
  rw [renderPass_eq, passUnder_stored]
  cases hd : drawPass invoke render props m with
  | ok ss n =>
    rw [bind_of_ok hd]
    exact congrArg (EStateM.Result.ok · n) (Sketch.markupAll_readAll ss 0 0)
  | error e n =>
    rw [bind_of_error hd]
    rfl

/-- As long as nothing falls together in what is read, the passes of two orders end alike, up to the ids within each
element. -/
theorem listedPass_alike (h : ReadsApart (passUnder listing invoke render props) m) :
    EndAlike (fun r r' => RenumberedAll r.2 r'.2 r.1 r'.1) (listedPass listing invoke render props m)
      (listedPass listing' invoke render props m) := by
  have hrun := (steady_passUnder listing listing' invoke render props).run m h
  unfold listedPass
  cases hp : (passUnder listing invoke render props).run m with
  | ok ss n =>
    cases hq : (passUnder listing' invoke render props).run m with
    | ok ts l =>
      rw [hp, hq] at hrun
      cases hrun with
      | ok hsimilar =>
        rw [bind_of_ok hp, bind_of_ok hq]
        have hall :
            RenumberedAll (Sketch.pushedAll ss) (Sketch.pushedAll ts) (Sketch.readAll 0 ss) (Sketch.readAll 0 ts) := by
          simpa using hsimilar.renumbered [] [] rfl [] []
        exact EndAlike.ok (a := (Sketch.readAll 0 ss, Sketch.pushedAll ss))
          (b := (Sketch.readAll 0 ts, Sketch.pushedAll ts)) hall n
    | error e l =>
      rw [hp, hq] at hrun
      cases hrun
  | error e n =>
    cases hq : (passUnder listing' invoke render props).run m with
    | ok ts l =>
      rw [hp, hq] at hrun
      cases hrun
    | error e' l =>
      rw [hp, hq] at hrun
      cases hrun
      rw [bind_of_error hp, bind_of_error hq]
      exact .error e n

theorem EndAlike.markupOf_eq {r r' : EStateM.Result RenderError Machine (List Node × List Value)}
    (h : EndAlike (fun r r' => RenumberedAll r.2 r'.2 r.1 r'.1) r r') : markupOf r = markupOf r' := by
  cases h with
  | ok h n => exact congrArg (EStateM.Result.ok · n) h.markupAll_eq
  | error e n => rfl

/-- **Where the order of tables shows.** What an element has of its properties is the same in every order just when
nothing falls together in them but what is the same. Where that is so in all that a pass reads, every order gives the
same nodes up to the ids within each element, and the markup is that of the surface. -/
theorem order_invisible (invoke : Invoke) (render : Value) (props : Json) (m : Machine) (listing listing' : Listing) :
    (∀ own, OrderBlind m own ↔ Apart m own) ∧
    (ReadsApart (passUnder listing invoke render props) m →
      EndAlike (fun r r' => RenumberedAll r.2 r'.2 r.1 r'.1) (listedPass listing invoke render props m)
          (listedPass listing' invoke render props m) ∧
        markupOf (listedPass listing' invoke render props m) = markupOf (renderPass invoke render props m)) := by
  refine ⟨orderBlind_iff m, fun h => ⟨listedPass_alike h, ?_⟩⟩
  calc markupOf (listedPass listing' invoke render props m)
      = markupOf (listedPass listing invoke render props m) := (listedPass_alike h).markupOf_eq.symm
    _ = markupOf (listedPass .stored invoke render props m) := (listedPass_alike h).markupOf_eq
    _ = markupOf (renderPass invoke render props m) := markupOf_listedPass_stored ..

/-! ### Names that are different -/

/-- The name of a property, as it is read. -/
def propertyName? (property : Value × Value) : Option String :=
  match property.1 with
  | .str s => some (Text.decodeLossy s)
  | _ => none

/-- The written name of a rule. -/
def ruleName? (entry : Value × Value) : Option String :=
  match styleRule entry with
  | .ok (some rule) => some rule.1
  | _ => none

/-- Properties have different names, and so have the rules of each style table, all of which can be read. -/
structure Distinct (m : Machine) (own : List (Value × Value)) : Prop where
  names : (own.filterMap propertyName?).Nodup
  rules : ∀ p ∈ own, (∀ e ∈ styleEntries m p, (styleRule e).isOk) ∧ ((styleEntries m p).filterMap ruleName?).Nodup

instance (m : Machine) (own : List (Value × Value)) : Decidable (Distinct m own) :=
  decidable_of_iff ((own.filterMap propertyName?).Nodup ∧ ∀ p ∈ own,
    (∀ e ∈ styleEntries m p, (styleRule e).isOk) ∧ ((styleEntries m p).filterMap ruleName?).Nodup)
    ⟨fun h => ⟨h.1, h.2⟩, fun h => ⟨h.names, h.rules⟩⟩

theorem eq_of_nodup_filterMap {f : α → Option β} {l : List α} (h : (l.filterMap f).Nodup) {x y : α} {b : β}
    (hx : x ∈ l) (hy : y ∈ l) (hfx : f x = some b) (hfy : f y = some b) : x = y := by
  by_contra hne
  have hsymm : Std.Symm fun a a' => ∀ b, f a = some b → ∀ b', f a' = some b' → b ≠ b' :=
    ⟨fun _ _ h b hb b' hb' => (h b' hb' b hb).symm⟩
  exact (List.pairwise_filterMap.1 h).forall hx hy hne b hfx b hfy rfl

theorem propertyName?_of_attributeOf {property : Value × Value} {name text : String}
    (h : attributeOf listing m property = .ok (some (name, text))) : propertyName? property = some name := by
  obtain ⟨key, v⟩ := property
  unfold attributeOf at h
  cases key
  case str s =>
    dsimp only at h
    cases hproperty : Property.of (Text.decodeLossy s) v with
    | style place =>
      rw [hproperty] at h
      dsimp only at h
      cases hrules : styleRules (listing.list m place) with
      | ok rules =>
        rw [hrules] at h
        cases h
        rfl
      | error fault =>
        rw [hrules] at h
        cases h
    | _ =>
      rw [hproperty] at h
      cases h
      try rfl
  all_goals cases h

theorem propertyName?_of_handlerName? {property : Value × Value} {name : String}
    (h : handlerName? property = some name) : propertyName? property = some name := by
  unfold handlerName? at h
  split at h
  case h_1 s v =>
    split at h
    · exact h
    · cases h
  case h_2 => cases h

/-- Where names are different, nothing falls together. -/
theorem Distinct.apart {own : List (Value × Value)} (h : Distinct m own) : Apart m own := by
  have hno : ∀ p ∈ own, ∀ a, ¬ Faults m p a := by
    rintro p hp a ⟨entry, hentry, he⟩
    have hok := (h.rules p hp).1 entry hentry
    rw [he] at hok
    cases hok
  refine ⟨fun p hp _ _ a _ ha _ => absurd ha (hno p hp a), .inr ⟨fun p hp e he f hf name a b ha hb => ?_,
    fun p hp q hq name a b ha hb => ?_, fun p hp q hq name hpname hqname => ?_⟩⟩
  · have hname : ruleName? e = some name := by rw [ruleName?, ha]
    have hname' : ruleName? f = some name := by rw [ruleName?, hb]
    obtain rfl := eq_of_nodup_filterMap (h.rules p hp).2 he hf hname hname'
    simpa using ha.symm.trans hb
  · obtain rfl := eq_of_nodup_filterMap h.names hp hq (propertyName?_of_attributeOf ha)
      (propertyName?_of_attributeOf hb)
    simpa using ha.symm.trans hb
  · obtain rfl := eq_of_nodup_filterMap h.names hp hq (propertyName?_of_handlerName? hpname)
      (propertyName?_of_handlerName? hqname)
    rfl

/-- Every table from its end. -/
def Listing.reversed : Listing :=
  ⟨fun m place => (m.tables.getD place {}).entries.reverse, fun _ _ => List.reverse_perm _⟩

/-- A component that is shown as one paragraph for each of some tables of properties. -/
@[irreducible] def paragraphs (tables : List String) : Component :=
  ((Component.attempt {} {} ("local h = React.createElement\nfunction Card()\n  return \x7b" ++
    ", ".intercalate (tables.map fun own => "h('p', \x7b" ++ own ++ "\x7d)") ++ "\x7d\nend") "Card").component?).getD
    default

/-- A paragraph with names that are different. -/
def plainCard : Component :=
  paragraphs ["style = \x7bcolor = 'red', paddingLeft = '2px'\x7d, className = 'note', " ++
    "onClick = function() end, onBlur = Card"]

/-- Two paragraphs with one style, which names one rule in two ways. -/
def twofoldCard : Component :=
  paragraphs ["style = \x7bpaddingLeft = '1px', ['padding-left'] = '2px'\x7d",
    "style = \x7b['padding-left'] = '2px', paddingLeft = '1px'\x7d"]

/-- What is shown after a pass of a component under an order, unless it fails. -/
def markupUnder (listing : Listing) (c : Component) : Option String :=
  match markupOf (listedPass listing Script.invoke c.render (.obj []) c.machine) with
  | .ok text _ => some (String.ofList text)
  | .error _ _ => none

set_option maxRecDepth 100000 in
theorem order_invisible_plainCard :
    (ReadsApart (passUnder .stored Script.invoke plainCard.render (.obj [])) plainCard.machine ∧
      EndAlike (fun r r' => RenumberedAll r.2 r'.2 r.1 r'.1)
        (listedPass .stored Script.invoke plainCard.render (.obj []) plainCard.machine)
        (listedPass .reversed Script.invoke plainCard.render (.obj []) plainCard.machine) ∧
      markupOf (listedPass .reversed Script.invoke plainCard.render (.obj []) plainCard.machine) =
        markupOf (renderPass Script.invoke plainCard.render (.obj []) plainCard.machine)) ∧
      markupUnder .reversed plainCard = some "<p class=\"note\" style=\"color: red; padding-left: 2px\"></p>" := by
  obtain ⟨hreads, hmarkup⟩ :
      (∀ r ∈ (passUnder .stored Script.invoke plainCard.render (.obj [])).reads plainCard.machine,
        Distinct r.1 (Listing.stored.list r.1 r.2)) ∧
      markupUnder .reversed plainCard = some "<p class=\"note\" style=\"color: red; padding-left: 2px\"></p>" := by
    decide +kernel
  have hapart : ReadsApart (passUnder .stored Script.invoke plainCard.render (.obj [])) plainCard.machine := fun r hr =>
    (hreads r hr).apart
  exact ⟨⟨hapart, (order_invisible _ _ _ _ .stored .reversed).2 hapart⟩, hmarkup⟩

set_option maxRecDepth 100000 in
/-- Where two names are written in one way, the order of a table is seen in the markup. -/
theorem twofold_rule_shows_order : ¬ ∀ (invoke : Invoke) (render : Value) (props : Json) (m : Machine)
    (listing listing' : Listing),
      markupOf (listedPass listing invoke render props m) = markupOf (listedPass listing' invoke render props m) := by
  intro h
  have hsame : markupUnder .stored twofoldCard = markupUnder .reversed twofoldCard := by
    unfold markupUnder
    rw [h Script.invoke twofoldCard.render (.obj []) twofoldCard.machine .stored .reversed]
  obtain ⟨hstored, hreversed⟩ : markupUnder .stored twofoldCard =
        some "<p style=\"padding-left: 2px\"></p><p style=\"padding-left: 1px\"></p>" ∧
      markupUnder .reversed twofoldCard =
        some "<p style=\"padding-left: 1px\"></p><p style=\"padding-left: 2px\"></p>" := by decide +kernel
  rw [hstored, hreversed] at hsame
  exact absurd hsame (by decide)

end LivePreview.Surface
