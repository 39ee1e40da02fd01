import LivePreview.Proofs.Surface.Keyed
import LivePreview.Proofs.Surface.Sketch

/-! **Children are rendered one by one, up to the first nil.**

A child that uses no hooks renders to the same wherever it stands and whatever is held for hooks: its component
functions may be called with the hook state out of reach (`HookFree`), and then neither places nor hook state are looked
at. So each child of an element renders among the others to what it renders to alone, and what an element shows is the
children one behind another, just as long as nothing that shows stands behind a nil. -/
namespace LivePreview.Surface
open Script Pass Hook
variable {ε α β : Type} {invoke : Invoke} {m n : Machine}

/-! ### Apart from hook state -/

/-- What a run comes to, apart from hook state. -/
def strip : EStateM.Result ε Machine α → EStateM.Result ε Machine α
  | .ok a n => .ok a { n with hooks := {} }
  | .error e n => .error e { n with hooks := {} }

theorem strip_eq_ok {r : EStateM.Result ε Machine α} {a : α} (h : strip r = strip (.ok a n)) :
    ∃ s, r = .ok a { n with hooks := s } := by
  cases r with
  | ok b l =>
    obtain ⟨rfl, h⟩ := EStateM.Result.ok.inj h
    refine ⟨l.hooks, ?_⟩
    cases l
    cases n
    cases h
    rfl
  | error e l => exact nomatch h

theorem strip_eq_error {r : EStateM.Result ε Machine α} {e : ε} (h : strip r = strip (.error e n)) :
    ∃ s, r = .error e { n with hooks := s } := by
  cases r with
  | error d l =>
    obtain ⟨rfl, h⟩ := EStateM.Result.error.inj h
    refine ⟨l.hooks, ?_⟩
    cases l
    cases n
    cases h
    rfl
  | ok a l => exact nomatch h

/-- Two runs come to the same from machines that differ in hook state alone. -/
structure Blind (r k : EStateM ε Machine α) : Prop where
  run : ∀ m s, strip (r m) = strip (k { m with hooks := s })

namespace Blind

theorem pure (a : α) : Blind (Pure.pure a : EStateM ε Machine α) (Pure.pure a) := ⟨fun _ _ => rfl⟩

theorem throw (e : ε) : Blind (MonadExcept.throw e : EStateM ε Machine α) (MonadExcept.throw e) := ⟨fun _ _ => rfl⟩

theorem bind {r r' : EStateM ε Machine α} {k k' : α → EStateM ε Machine β} (hr : Blind r r')
    (hk : ∀ a, Blind (k a) (k' a)) : Blind (r >>= k) (r' >>= k') := by
  refine ⟨fun m s => ?_⟩
  have h := hr.run m s
  cases hm : r m with
  | ok a n =>
    rw [hm] at h
    obtain ⟨t, ht⟩ := strip_eq_ok h.symm
    rw [bind_of_ok hm, bind_of_ok ht]
    exact (hk a).run n t
  | error e n =>
    rw [hm] at h
    obtain ⟨t, ht⟩ := strip_eq_error h.symm
    rw [bind_of_error hm, bind_of_error ht]
    rfl

end Blind

/-- Two parts of a pass come to the same from machines that differ in hook state alone. -/
structure BlindPass (p q : Pass α) : Prop where
  run : ∀ handlers, Blind (p handlers) (q handlers)

namespace BlindPass
variable {p q : Pass α}

theorem pure (a : α) : BlindPass (Pure.pure a) (Pure.pure a : Pass α) := ⟨fun handlers => .pure (a, handlers)⟩

theorem throw (e : RenderError) : BlindPass (MonadExcept.throw e) (MonadExcept.throw e : Pass α) := ⟨fun _ => .throw e⟩

theorem bind {k k' : α → Pass β} (hp : BlindPass p q) (hk : ∀ a, BlindPass (k a) (k' a)) :
    BlindPass (p >>= k) (q >>= k') := ⟨fun handlers => Blind.bind (hp.run handlers) fun r => (hk r.1).run r.2⟩

theorem ite {c : Prop} [Decidable c] {p' q' : Pass α} (hp : BlindPass p q) (hq : BlindPass p' q') :
    BlindPass (if c then p else p') (if c then q else q') := by
  split
  · exact hp
  · exact hq

theorem readTable (place : Nat) : BlindPass (ofRun (Run.readTable place)) (ofRun (Run.readTable place)) :=
  ⟨fun _ => ⟨fun _ _ => rfl⟩⟩

theorem ofExcept (r : Except HostFault α) : BlindPass (Pass.ofExcept r) (Pass.ofExcept r) := by
  cases r with
  | ok a => exact .pure a
  | error fault => exact .throw _

theorem props? (t : Table) : BlindPass (Pass.props? t) (Pass.props? t) := by
  unfold Pass.props?
  split
  · exact .pure none
  · exact .pure _
  · exact .throw _

theorem keyText? (child : Value) : BlindPass (Pass.keyText? child) (Pass.keyText? child) := by
  cases child
  case table place =>
    refine .bind (.readTable _) fun t => .ite (.pure none) (.bind (.props? t) fun place? => ?_)
    cases place? with
    | none => exact .pure none
    | some place => exact .bind (.readTable _) fun _ => .pure _
  all_goals exact .pure none

theorem readProps (own : List (Value × Value)) (attributes : List (String × String))
    (handlers : List (String × Value)) :
    BlindPass (Pass.readProps own attributes handlers) (Pass.readProps own attributes handlers) := by
  induction own generalizing attributes handlers with
  | nil => exact .pure _
  | cons e r ih =>
    obtain ⟨key, v⟩ := e
    cases key
    case str s =>
      unfold Pass.readProps
      dsimp only
      split
      · exact ih _ _
      · exact ih _ _
      · exact .bind (.readTable _) fun _ => .bind (.ofExcept _) fun _ => ih _ _
      · exact ih _ _
    all_goals exact ih _ _

theorem deal (handlers : List (String × Value)) : BlindPass (Pass.deal handlers) (Pass.deal handlers) :=
  ⟨fun _ => ⟨fun _ _ => rfl⟩⟩

theorem item? (place index : Nat) : BlindPass (Pass.item? place index) (Pass.item? place index) :=
  .bind (.readTable place) fun _ => .pure _

theorem reach (t : Table) : BlindPass (Pass.reach t) (Pass.reach t) := ⟨fun _ => ⟨fun _ _ => rfl⟩⟩

theorem each {value value' : Value → String → Pass (List Node)} {path path' : String}
    (hv : ∀ v path path', BlindPass (value v path) (value' v path')) (place more index : Nat) :
    BlindPass (Pass.each value place path more index) (Pass.each value' place path' more index) := by
  unfold Pass.each
  induction more generalizing index with
  | zero =>
    refine .bind (.item? place index) fun child? => ?_
    cases child? with
    | none => exact .pure []
    | some child => exact .throw _
  | succ more ih =>
    refine .bind (.item? place index) fun child? => ?_
    cases child? with
    | none => exact .pure []
    | some child =>
      exact .bind (.bind (.keyText? child) fun _ => hv ..) fun _ => .bind (ih (index + 1)) fun _ => .pure _

end BlindPass

/-! ### Calls without hooks -/

/-- Calls values with the hook state out of reach: nothing is held there, and what a call does to it is undone. -/
def unhooked (invoke : Invoke) : Invoke := fun trail f args m =>
  match invoke trail f args { m with hooks := {} } with
  | .ok vs n => .ok vs { n with hooks := m.hooks }
  | .error e n => .error e { n with hooks := m.hooks }

/-- A body that finds no hook state gives the same for every instance. -/
theorem callBody_blind (key key' : Hook.Key) (place : Nat) (props : Value) :
    BlindPass (callBody (unhooked invoke) key place props) (callBody (unhooked invoke) key' place props) := by
  refine ⟨fun handlers => ⟨fun m s => ?_⟩⟩
  unfold callBody
  cases hi : invoke Trail.host (.func place) [props] { m with hooks := {} } with
  | ok vs n =>
    have hu (t : Store Value) : Run.first (unhooked invoke Trail.host (.func place) [props]) { m with hooks := t } =
        .ok (vs.headD .nil) { n with hooks := t } := by
      simp only [Run.first, Bind.bind, EStateM.bind, Run.across, unhooked, hi]
      rfl
    dsimp only
    rw [hu, hu]
    rfl
  | error e n =>
    have hu (t : Store Value) : Run.first (unhooked invoke Trail.host (.func place) [props]) { m with hooks := t } =
        .error (.raised (.failure (Run.hostFault e))) { n with hooks := t } := by
      simp only [Run.first, Bind.bind, EStateM.bind, Run.across, unhooked, hi]
    dsimp only
    rw [hu, hu]
    dsimp only
    split <;> rfl

theorem elementBy_blind {component component' : Nat → Value → String → Pass (List Node)}
    {value value' : Value → String → Pass (List Node)} {path path' : String}
    (hc : ∀ place props, BlindPass (component place props path) (component' place props path'))
    (hv : ∀ v, BlindPass (value v path) (value' v path')) (t : Table) :
    BlindPass (elementBy component value t path) (elementBy component' value' t path') := by
  refine .bind (.props? t) fun own? => ?_
  generalize t.getName "type" = kind
  cases kind
  case str s =>
    have hk (own : Table) : BlindPass (tagged value (Text.decodeLossy s) path own)
        (tagged value' (Text.decodeLossy s) path' own) :=
      .ite (hv _) <| .bind (.readProps ..) fun r => .bind (.deal _) fun _ => .bind (hv _) fun _ => .pure _
    cases own? with
    | none => exact .bind (.pure _) hk
    | some place => exact .bind (.readTable place) hk
  case func place => exact hc ..
  all_goals exact .throw _

/-- **Without hooks, places and hook state are not looked at.** -/
theorem component_value_blind (invoke : Invoke) (left : Nat) :
    (∀ place props path path', BlindPass (component (unhooked invoke) left place props path)
        (component (unhooked invoke) left place props path')) ∧
      ∀ v path path', BlindPass (value (unhooked invoke) left v path) (value (unhooked invoke) left v path') := by
  induction left with
  | zero => exact ⟨fun _ _ _ _ => .throw _, fun _ _ _ => .throw _⟩
  | succ left ih =>
    obtain ⟨hc, hv⟩ := ih
    refine ⟨fun place props path path' => .bind (callBody_blind ..) fun v => hv .., fun v path path' => ?_⟩
    unfold Pass.value
    cases v
    case nil | bool | null => exact .pure []
    case table place =>
      refine .bind (.readTable place) fun t => .ite (elementBy_blind (fun _ _ => hc ..) (fun _ => hv ..) t) <|
        .ite (.throw _) <| .bind (.reach t) fun more => .each hv place more 0
    all_goals
      dsimp only
      generalize plainText? _ = text?
      cases text? with
      | some text => exact .pure _
      | none => exact .throw _

/-! ### Children on their own -/

section Alone
variable {left : Nat} {v : Value} {vs : List Value} {path : String} {handlers : Array Value} {s : Store Value}
  {ms : List Machine} {out : List Node × Array Value} {outs : List (List Node × Array Value)}

/-- A value is rendered without hooks: wherever it stands and whatever is held for hooks, its component functions may
as well be called with the hook state out of reach. -/
def HookFree (invoke : Invoke) (left : Nat) (v : Value) (m : Machine) : Prop :=
  ∀ path handlers s, strip (value invoke left v path handlers { m with hooks := s }) =
    strip (value (unhooked invoke) left v path handlers { m with hooks := s })

/-- Nodes that are a sketch with ids, together with handlers of which its own are the last. -/
def IsNumbered (out : List Node × Array Value) (ss : List Sketch) : Prop :=
  ∃ before : Array Value, out = (Sketch.numberAll before.size ss, before ++ (Sketch.callbacksAll ss).toArray)

/-- **Without hooks a value renders everywhere to one sketch.** -/
theorem HookFree.drawn (hf : HookFree invoke left v m)
    (h : value invoke left v path handlers { m with hooks := s } = .ok out n) :
    ∃ ss, IsNumbered out ss ∧ ∀ path handlers s, ∃ t, value invoke left v path handlers { m with hooks := s } =
      .ok (Sketch.numberAll handlers.size ss, handlers ++ (Sketch.callbacksAll ss).toArray) { n with hooks := t } := by
  have hn (path : String) (handlers : Array Value) :=
    ((numbers_component_value (unhooked invoke) left).2 v path).run handlers
  have hu := hf path handlers s
  rw [h] at hu
  obtain ⟨t, ht⟩ := strip_eq_ok hu.symm
  rw [hn] at ht
  cases hd : drawValue (unhooked invoke) left v path { m with hooks := s } with
  | error e l =>
    rw [hd] at ht
    exact nomatch ht
  | ok ss l =>
    rw [hd] at ht
    obtain ⟨rfl, rfl⟩ := EStateM.Result.ok.inj ht
    refine ⟨ss, ⟨handlers, rfl⟩, fun path' handlers' s' => ?_⟩
    -- from any place with any hook state, without hooks, to the place and the hook state of the drawing
    have hb := (((component_value_blind invoke left).2 v path' path).run handlers').run { m with hooks := s' } s
    rw [← hf, hn path handlers', hd] at hb
    exact strip_eq_ok hb

/-- Values are rendered each on its own, wherever and with whatever hook state: without hooks and without an error,
each from where the one before it has left off. The machines are those between them, with the first and the last. -/
inductive Separately (invoke : Invoke) (left : Nat) :
    List Value → Machine → List Machine → List (List Node × Array Value) → Prop
  | nil (m : Machine) : Separately invoke left [] m [m] []
  | cons {v : Value} {vs : List Value} {m n : Machine} {ms : List Machine} {path : String} {handlers : Array Value}
      {s : Store Value} {out : List Node × Array Value} {outs : List (List Node × Array Value)}
      (free : HookFree invoke left v m) (alone : value invoke left v path handlers { m with hooks := s } = .ok out n)
      (rest : Separately invoke left vs n ms outs) : Separately invoke left (v :: vs) m (m :: ms) (out :: outs)

theorem Separately.take (h : Separately invoke left vs m ms outs) (k : Nat) :
    Separately invoke left (vs.take k) m (ms.take (k + 1)) (outs.take k) := by
  induction h generalizing k with
  | nil m =>
    rw [List.take_nil, List.take_nil, List.take_succ_cons, List.take_nil]
    exact .nil m
  | cons free alone rest ih =>
    cases k with
    | zero => exact .nil _
    | succ k => exact .cons free alone (ih k)

theorem left_pos (h : value invoke left v path handlers m = .ok out n) : 0 < left := by
  cases left with
  | zero => exact nomatch h
  | succ left => exact Nat.succ_pos left

theorem Separately.left_pos (h : Separately invoke left vs m ms outs) (hv : vs ≠ []) : 0 < left := by
  cases h with
  | nil => exact absurd rfl hv
  | cons free alone rest => exact Surface.left_pos alone

/-- A nil shows nothing. -/
theorem shown_nil (h : value invoke left .nil path handlers m = .ok out n) : out.1 = [] := by
  obtain ⟨left, rfl⟩ := Nat.exists_eq_succ_of_ne_zero (Nat.ne_of_gt (left_pos h))
  cases h
  rfl

/-- The key of a value that renders can be read. -/
theorem keyText?_of_ok (h : value invoke left v path handlers m = .ok out n) :
    ∃ key?, keyText? v handlers m = .ok (key?, handlers) m := by
  cases left with
  | zero => exact nomatch h
  | succ left =>
    cases v
    case table place =>
      have hr : ofRun (Run.readTable place) handlers m = .ok (m.tables.getD place {}, handlers) m := rfl
      unfold Pass.value at h
      dsimp only at h
      rw [run_after hr] at h
      unfold keyText?
      dsimp only
      rw [run_after hr]
      cases he : Element.isElement (m.tables.getD place {}) with
      | false => exact ⟨none, rfl⟩
      | true =>
        rw [he, if_pos rfl] at h
        obtain ⟨⟨own?, given⟩, l, ho, -⟩ := bind_ok h
        obtain ⟨rfl, rfl⟩ := props?_ok ho
        rw [Bool.not_true, if_neg Bool.false_ne_true, run_after ho]
        cases own? with
        | none => exact ⟨none, rfl⟩
        | some own => exact ⟨_, rfl⟩
    all_goals exact ⟨none, rfl⟩

/-- A walk along a table comes to these values from an index on, each at the machine of its turn, and then to the
end. -/
def Yields (place index : Nat) (vs : List Value) (ms : List Machine) : Prop :=
  ∀ (i : Nat) (l : Machine), ms[i]? = some l → (l.tables.getD place {}).item? (index + i) = vs[i]?

/-- Values that render on their own render in a list to the same, one behind another. -/
theorem Separately.each (h : Separately invoke left vs m ms outs) : ∃ sss : List (List Sketch),
    List.Forall₂ IsNumbered outs sss ∧ ∀ place path index more handlers s, Yields place index vs ms → ∃ t,
      each (value invoke left) place path (vs.length + more) index handlers { m with hooks := s } =
        .ok (Sketch.numberAll handlers.size sss.flatten, handlers ++ (Sketch.callbacksAll sss.flatten).toArray) t := by
  induction h with
  | nil m =>
    refine ⟨[], .nil, fun place path index more handlers s hm => ⟨{ m with hooks := s }, ?_⟩⟩
    have hend : (m.tables.getD place {}).item? index = none := hm 0 m rfl
    rw [each_none (m := { m with hooks := s }) hend]
    simp [Sketch.numberAll, Sketch.callbacksAll]
  | @cons v vs m n ms _ _ _ _ _ free alone rest ih =>
    obtain ⟨ss, hout, hv⟩ := free.drawn alone
    obtain ⟨sss, houts, hrow⟩ := ih
    refine ⟨ss :: sss, .cons hout houts, fun place path index more handlers s hm => ?_⟩
    obtain ⟨t, ht⟩ := hv (childPath path index none) handlers s
    obtain ⟨key?, hk⟩ := keyText?_of_ok ht
    obtain ⟨t, ht⟩ := hv (childPath path index key?) handlers s
    have hrest : Yields place (index + 1) vs ms := fun i l hl => by
      rw [Nat.add_assoc, Nat.add_comm 1]
      exact hm (i + 1) l hl
    obtain ⟨u, hr⟩ := hrow place path (index + 1) more (handlers ++ (Sketch.callbacksAll ss).toArray) t hrest
    refine ⟨u, ?_⟩
    have hc : (m.tables.getD place {}).item? index = some v := hm 0 m rfl
    rw [List.length_cons, Nat.add_right_comm, each_some (m := { m with hooks := s }) hc]
    refine (run_after ((run_after hk).trans ht : inPlace (value invoke left) path index v handlers _ = _)).trans ?_
    refine (run_after hr).trans ?_
    simp [pure_pass, Sketch.numberAll_append, Sketch.callbacksAll_append]

end Alone

/-! ### Children of an element -/

/-- How the properties of an element hold its children: not at all, as the only one, or several in a table. -/
inductive Bears (m : Machine) : Value → List Value → Prop
  | none : Bears m .nil []
  | kept {what : Value} {children : List Value} (kept : Kept m what children) : Bears m what children

/-- Properties without children of their own stay without when no child comes. -/
theorem properties_none {given : Table} (h : ∀ e ∈ given.entries, e.1 ≠ .ofString "children") (list? : Option Value) :
    (Element.properties given [] list?).getName "children" = .nil := by
  unfold Element.properties
  dsimp only
  have hfold (t : Table) (ht : t.getName "children" = .nil) :
      (given.entries.foldl (fun t e => t.set e.1 e.2) t).getName "children" = .nil := by
    generalize given.entries = es at h
    induction es generalizing t with
    | nil => exact ht
    | cons e es ih =>
      exact ih _ ((Table.getName_set_of_ne (h e List.mem_cons_self) ..).trans ht)
        fun e he => h e (List.mem_cons_of_mem _ he)
  exact hfold {} rfl

/-- Given properties that have no children of their own. -/
def Childless (m : Machine) (given : Value) : Prop :=
  ∀ place, given = .table place → ∀ e ∈ (m.tables.getD place {}).entries, e.1 ≠ .ofString "children"

/-- **What `createElement` makes is an element that holds the children it was given.** -/
theorem create_bears {kind given : Value} {children vs : List Value}
    (h : Element.create (kind :: given :: children) m = .ok vs n) (bare : children = [] → Childless m given) :
    ∃ v own, vs = [v] ∧ element? n v = some (kind, some own) ∧
      Bears n ((tableAt n (some own)).getName "children") children := by
  cases children with
  | cons child children =>
    obtain ⟨v, own, hv, he, hk⟩ := create_kept (List.cons_ne_nil child children) h
    exact ⟨v, own, hv, he, .kept hk⟩
  | nil =>
    unfold Element.create at h
    obtain ⟨place?, l, hp, h⟩ := bind_ok h
    obtain ⟨props, hprops, h⟩ : ∃ props : Table, (∀ e ∈ props.entries, e.1 ≠ .ofString "children") ∧ (do
        let place ← Run.newTable (Element.properties props [] none)
        return [← Run.newTable (elementTable kind place)]) l = .ok vs n := by
      cases place? with
      | none => exact ⟨{}, ⟨fun e he => absurd he List.not_mem_nil, h⟩⟩
      | some place =>
        have hgiven : given = .table place ∧ l = m := by
          cases given <;> cases hp
          exact ⟨rfl, rfl⟩
        obtain ⟨rfl, rfl⟩ := hgiven
        exact ⟨_, bare rfl place rfl, h⟩
    obtain ⟨v, own, rfl, he, ho, -⟩ := element?_made h
    refine ⟨v, own, rfl, he, ?_⟩
    rw [ho, properties_none hprops]
    exact .none

/-- The levels that are left where each of the children is rendered, of those for what holds them: a table is one. -/
def leftInside (children : List Value) (left : Nat) : Nat := if children.length ≤ 1 then left else left - 1

/-- How many children stand before the first nil. -/
def reached (children : List Value) : Nat := (children.takeWhile fun v => !v.isNil).length

/-- A table of several children stays as it is while those before the first nil are rendered. -/
def LeftAlone (m : Machine) (what : Value) (children : List Value) (ms : List Machine) : Prop :=
  2 ≤ children.length → ∀ place, what = .table place →
    ∀ l ∈ ms.take (reached children + 1), l.tables.getD place {} = m.tables.getD place {}

/-- No child that shows something stands behind a nil, and the table of the children is not taken for an object. -/
structure Unbroken (children : List Value) (outs : List (List Node × Array Value)) : Prop where
  behind : ∀ out ∈ outs.drop (reached children), out.1 = []
  list : (Table.ofSequence children).length = 0 → ∀ v ∈ children, v.isNil = true

/-- An output shows what these outputs show, one behind another, with other ids for the same handlers. -/
def Joins (outs : List (List Node × Array Value)) (out : List Node × Array Value) : Prop :=
  ∃ sss : List (List Sketch), List.Forall₂ IsNumbered outs sss ∧ IsNumbered out sss.flatten

section Children
variable {left place : Nat} {what : Value} {children : List Value} {path : String} {handlers : Array Value}
  {ms : List Machine} {outs : List (List Node × Array Value)}

theorem length_numberAll (first : Nat) (ss : List Sketch) : (Sketch.numberAll first ss).length = ss.length := by
  induction ss generalizing first with
  | nil => rfl
  | cons s ss ih => exact congrArg Nat.succ (ih _)

theorem IsNumbered.length {out : List Node × Array Value} {ss : List Sketch} (h : IsNumbered out ss) :
    out.1.length = ss.length := by
  obtain ⟨before, rfl⟩ := h
  exact length_numberAll ..

/-- Outputs of nothing add nothing. -/
theorem flatten_of_silent {sss : List (List Sketch)} (h : List.Forall₂ IsNumbered outs sss)
    (hs : ∀ out ∈ outs, out.1 = []) : sss.flatten = [] := by
  induction h with
  | nil => rfl
  | cons ho _ ih =>
    have hl := ho.length
    rw [hs _ List.mem_cons_self] at hl
    rw [List.flatten_cons, ih fun out hout => hs out (List.mem_cons_of_mem _ hout),
      List.eq_nil_of_length_eq_zero hl.symm]
    rfl

theorem silent_of_flatten {sss : List (List Sketch)} (h : List.Forall₂ IsNumbered outs sss)
    (hs : sss.flatten = []) : ∀ out ∈ outs, out.1 = [] := by
  induction h with
  | nil => exact fun out hout => absurd hout List.not_mem_nil
  | cons ho _ ih =>
    rw [List.flatten_cons, List.append_eq_nil_iff] at hs
    intro out hout
    rcases List.mem_cons.1 hout with rfl | hout
    · exact List.eq_nil_of_length_eq_zero (ho.length.trans (by rw [hs.1]; rfl))
    · exact ih hs.2 out hout

/-- A table of children has an entry unless all are nil. -/
theorem isEmpty_entries_ofSequence (children : List Value) :
    (Table.ofSequence children).entries.isEmpty = true ↔ ∀ v ∈ children, v.isNil = true := by
  unfold Table.entries Table.ofSequence
  rw [List.isEmpty_iff, List.append_eq_nil_iff, List.filterMap_eq_nil_iff]
  constructor
  · rintro ⟨h, -⟩ v hv
    obtain ⟨i, hi⟩ := List.mem_iff_getElem?.1 hv
    have hn := h (v, i) (List.mk_mem_zipIdx_iff_getElem?.2 hi)
    dsimp only at hn
    split at hn
    · assumption
    · exact nomatch hn
  · intro h
    refine ⟨fun e he => ?_, rfl⟩
    obtain ⟨v, i⟩ := e
    exact if_pos (h v (List.mem_of_getElem? (List.mk_mem_zipIdx_iff_getElem?.1 he)))

theorem value_several (path : String) (handlers : Array Value)
    (stored : m.tables.getD place {} = Table.ofSequence children)
    (hl : (Table.ofSequence children).length = 0 → ∀ v ∈ children, v.isNil = true) :
    ∃ more, value invoke (left + 1) (.table place) path handlers m =
      each (value invoke left) place path ((children.take (reached children)).length + more) 0 handlers m := by
  have hc : ((Table.ofSequence children).length == 0 && !(Table.ofSequence children).entries.isEmpty) = false := by
    rw [Bool.and_eq_false_iff, beq_eq_false_iff_ne, Bool.not_eq_false']
    exact (em _).symm.imp id fun h => (isEmpty_entries_ofSequence children).2 (hl h)
  have hlist : list? m (.table place) = some place := by
    unfold list?
    dsimp only
    rw [stored, hc, Element.isElement, Table.getName_ofSequence]
    rfl
  have hspan : (children.take (reached children)).length ≤ span m place := by
    rw [span, stored]
    exact Nat.le_trans (List.length_take_le' ..) (by simp [Table.ofSequence])
  obtain ⟨more, hm⟩ := Nat.exists_eq_add_of_le hspan
  exact ⟨more, hm ▸ value_list hlist⟩

/-- A walk along children that stay comes to those before the first nil. -/
theorem LeftAlone.meets (h : LeftAlone m (.table place) children ms) (many : 2 ≤ children.length)
    (stored : m.tables.getD place {} = Table.ofSequence children) :
    Yields place 0 (children.take (reached children)) (ms.take (reached children + 1)) := by
  intro i l hl
  have hi : i ≤ (children.takeWhile fun v => !v.isNil).length :=
    Nat.le_of_lt_succ (Nat.lt_of_lt_of_le (List.getElem?_eq_some_iff.1 hl).1 (List.length_take_le ..))
  have ht : children.take (reached children) = children.takeWhile fun v => !v.isNil :=
    (List.prefix_iff_eq_take.1 (List.takeWhile_prefix _)).symm
  rw [h many place rfl l (List.mem_of_getElem? hl), stored, ht, Nat.zero_add]
  exact Table.item?_of_le hi

theorem value_object (stored : m.tables.getD place {} = Table.ofSequence children)
    (hl : (Table.ofSequence children).length = 0) (hn : ¬ ∀ v ∈ children, v.isNil = true) :
    value invoke (left + 1) (.table place) path handlers m = .error (.invalidChild "object") m := by
  have hr : ofRun (Run.readTable place) handlers m = .ok (Table.ofSequence children, handlers) m :=
    stored ▸ rfl
  have hc : ((Table.ofSequence children).length == 0 && !(Table.ofSequence children).entries.isEmpty) = true := by
    rw [Bool.and_eq_true, beq_iff_eq, Bool.not_eq_true', Bool.eq_false_iff]
    exact ⟨hl, fun h => hn ((isEmpty_entries_ofSequence children).1 h)⟩
  unfold Pass.value
  dsimp only
  rw [run_after hr, hc, Element.isElement, Table.getName_ofSequence]
  rfl

theorem length_flatten {sss : List (List Sketch)} (h : List.Forall₂ IsNumbered outs sss) :
    sss.flatten.length = (outs.flatMap (·.1)).length := by
  induction h with
  | nil => rfl
  | cons ho _ ih => rw [List.flatten_cons, List.length_append, ih, ← ho.length, List.flatMap_cons, List.length_append]

theorem several_iff (many : 2 ≤ children.length) (stored : m.tables.getD place {} = Table.ofSequence children)
    (alone : Separately invoke left children m ms outs) (stays : LeftAlone m (.table place) children ms) :
    (∃ out n, value invoke (left + 1) (.table place) path handlers m = .ok out n ∧ Joins outs out) ↔
      Unbroken children outs := by
  obtain ⟨sss, hs, -⟩ := alone.each
  obtain ⟨first, hf, heach⟩ := (alone.take (reached children)).each
  have hv (hl : (Table.ofSequence children).length = 0 → ∀ v ∈ children, v.isNil = true) :
      ∃ t, value invoke (left + 1) (.table place) path handlers m =
        .ok (Sketch.numberAll handlers.size first.flatten,
          handlers ++ (Sketch.callbacksAll first.flatten).toArray) t := by
    obtain ⟨more, hv⟩ := value_several path handlers stored hl
    rw [hv]
    exact heach place path 0 more handlers m.hooks (stays.meets many stored)
  constructor
  · rintro ⟨out, n, ho, rest, houts, hout⟩
    have hl : (Table.ofSequence children).length = 0 → ∀ v ∈ children, v.isNil = true := by
      intro hl
      by_contra hn
      rw [value_object stored hl hn] at ho
      exact nomatch ho
    obtain ⟨t, hv⟩ := hv hl
    rw [hv] at ho
    obtain ⟨rfl, rfl⟩ := EStateM.Result.ok.inj ho
    refine ⟨?_, hl⟩
    -- what is shown is as long as the children before the nil, and as long as all
    have hlen := hout.length
    rw [length_numberAll, length_flatten hf, ← length_flatten (List.forall₂_take (reached children) houts),
      ← List.take_append_drop (reached children) rest, List.flatten_append, List.length_append,
      List.take_append_drop] at hlen
    exact silent_of_flatten (List.forall₂_drop _ houts) (List.eq_nil_of_length_eq_zero (Nat.left_eq_add.1 hlen))
  · intro h
    obtain ⟨t, hv⟩ := hv h.list
    refine ⟨_, t, hv, first ++ sss.drop (reached children), ?_, ?_⟩
    · have ha : List.Forall₂ IsNumbered (outs.take (reached children) ++ outs.drop (reached children))
          (first ++ sss.drop (reached children)) := List.rel_append hf (List.forall₂_drop _ hs)
      rwa [List.take_append_drop] at ha
    · rw [List.flatten_append, flatten_of_silent (List.forall₂_drop (reached children) hs) h.behind, List.append_nil]
      exact ⟨handlers, rfl⟩

theorem single_iff (alone : Separately invoke left [what] m ms outs) :
    (∃ out n, value invoke left what path handlers m = .ok out n ∧ Joins outs out) ↔ Unbroken [what] outs := by
  cases alone with
  | cons free alone rest =>
    cases rest
    obtain ⟨ss, ho, hv⟩ := free.drawn alone
    obtain ⟨t, ht⟩ := hv path handlers m.hooks
    refine iff_of_true ⟨_, _, ht, [ss], .cons ho .nil, handlers, by simp⟩ ⟨fun out hout => ?_, fun hl v hv => ?_⟩
    · cases hw : what.isNil with
      | true =>
        obtain rfl : what = .nil := by cases what <;> first | rfl | exact nomatch hw
        cases List.mem_singleton.1 hout
        exact shown_nil alone
      | false => simp [reached, hw] at hout
    · cases List.mem_singleton.1 hv
      by_contra hn
      exact absurd hl (Nat.ne_of_gt (Table.length_ofSequence_pos (Bool.eq_false_iff.2 hn) []))

/-- **What holds the children of an element renders to them, one behind another, just when nothing that shows stands
behind a nil.** -/
theorem bears_iff (path : String) (handlers : Array Value) (held : Bears m what children)
    (deep : children = [] → 0 < left)
    (alone : Separately invoke (leftInside children left) children m ms outs) (stays : LeftAlone m what children ms) :
    (∃ out n, value invoke left what path handlers m = .ok out n ∧ Joins outs out) ↔ Unbroken children outs := by
  cases held with
  | none =>
    obtain ⟨left, rfl⟩ := Nat.exists_eq_succ_of_ne_zero (Nat.ne_of_gt (deep rfl))
    cases alone
    exact iff_of_true ⟨([], handlers), m, rfl, [], .nil, handlers, by simp [Sketch.numberAll, Sketch.callbacksAll]⟩
      ⟨fun out hout => absurd hout (by simp), fun _ v hv => absurd hv List.not_mem_nil⟩
  | kept kept =>
    cases kept with
    | one => exact single_iff alone
    | several many stored =>
      rw [leftInside, if_neg (by omega)] at alone
      obtain ⟨left, rfl⟩ := Nat.exists_eq_succ_of_ne_zero (n := left) (by
        have := alone.left_pos (List.ne_nil_of_length_pos (by omega))
        omega)
      exact several_iff many stored alone stays

/-- What an element shows around the nodes of its children: a fragment nothing, a tag itself. -/
inductive Wraps (tag : String) (nodes : List Node) : List Node → Prop
  | fragment (named : tag = Element.fragment) : Wraps tag nodes nodes
  | tag {attributes : List (String × String)} {ids : List (String × Nat)} (named : tag ≠ Element.fragment) :
    Wraps tag nodes [.element tag attributes ids nodes]

/-- **An element shows its children one behind another just when nothing that shows stands behind a nil.** -/
theorem named_iff {v : Value} {tag : ByteArray} {own? : Option Nat} (element : element? m v = some (.str tag, own?))
    (held : Bears m ((tableAt m own?).getName "children") children) (deep : children = [] → 0 < left)
    (readable : Text.decodeLossy tag ≠ Element.fragment →
      ∃ r, readProps (tableAt m own?).entries [] [] handlers m = .ok (r, handlers) m)
    (alone : Separately invoke (leftInside children left) children m ms outs)
    (stays : LeftAlone m ((tableAt m own?).getName "children") children ms) :
    (∃ shown nodes given n, value invoke (left + 1) v path handlers m = .ok (shown, given) n ∧
      Wraps (Text.decodeLossy tag) nodes shown ∧ Joins outs (nodes, given)) ↔ Unbroken children outs := by
  rw [value_named _ _ _ _ element, tagged]
  by_cases hf : Text.decodeLossy tag = Element.fragment
  · rw [if_pos (beq_iff_eq.2 hf), ← bears_iff path handlers held deep alone stays]
    constructor
    · rintro ⟨shown, nodes, given, n, ho, hs, hj⟩
      cases hs with
      | fragment => exact ⟨_, n, ho, hj⟩
      | tag named => exact absurd hf named
    · rintro ⟨⟨nodes, given⟩, n, ho, hj⟩
      exact ⟨nodes, nodes, given, n, ho, .fragment hf, hj⟩
  · obtain ⟨⟨attributes, dealt⟩, hr⟩ := readable hf
    have hd : deal dealt handlers m = .ok ((dealt.zipIdx handlers.size).map fun e => (e.1.1, e.2),
      handlers ++ (dealt.map (·.2)).toArray) m := rfl
    rw [if_neg (by rwa [beq_iff_eq]), run_after hr, run_after hd,
      ← bears_iff path (handlers ++ (dealt.map (·.2)).toArray) held deep alone stays]
    constructor
    · rintro ⟨shown, nodes, given, n, ho, hs, hj⟩
      obtain ⟨⟨inner, late⟩, l, hv, ho⟩ := bind_ok ho
      cases ho
      cases hs with
      | fragment named => exact absurd named hf
      | tag => exact ⟨_, _, hv, hj⟩
    · rintro ⟨⟨nodes, given⟩, n, ho, hj⟩
      exact ⟨_, nodes, given, n, run_after ho, .tag hf, hj⟩

theorem Separately.silent (h : Separately invoke left children m ms outs) (hn : ∀ v ∈ children, v.isNil = true) :
    ∀ out ∈ outs, out.1 = [] := by
  induction h with
  | nil => exact fun out hout => absurd hout List.not_mem_nil
  | @cons v vs _ _ _ _ _ _ _ _ _ alone _ ih =>
    intro out hout
    rcases List.mem_cons.1 hout with rfl | hout
    · have hv := hn v List.mem_cons_self
      obtain rfl : v = .nil := by cases v <;> first | rfl | exact nomatch hv
      exact shown_nil alone
    · exact ih (fun v hv => hn v (List.mem_cons_of_mem _ hv)) out hout

theorem Separately.drop (h : Separately invoke left children m ms outs) (k : Nat) :
    ∃ n ns, Separately invoke left (children.drop k) n ns (outs.drop k) := by
  induction h generalizing k with
  | nil m =>
    rw [List.drop_nil, List.drop_nil]
    exact ⟨m, [m], .nil m⟩
  | cons free alone rest ih =>
    cases k with
    | zero => exact ⟨_, _, .cons free alone rest⟩
    | succ k => exact ih k

/-- Nothing is lost where all nils are behind the other children, whatever booleans are among these. -/
theorem Separately.unbroken {before after : List Value}
    (h : Separately invoke left (before ++ after) m ms outs) (solid : ∀ v ∈ before, v.isNil = false)
    (holes : ∀ v ∈ after, v.isNil = true) : Unbroken (before ++ after) outs := by
  have hr : reached (before ++ after) = before.length := by
    have ha : (after.takeWhile fun v => !v.isNil) = [] := by
      cases after with
      | nil => rfl
      | cons v after => exact List.takeWhile_cons_of_neg (by simp [holes v List.mem_cons_self])
    rw [reached, List.takeWhile_append_of_pos fun v hv => by simp [solid v hv], ha, List.append_nil]
  refine ⟨?_, fun hl => ?_⟩
  · obtain ⟨n, ns, hd⟩ := h.drop before.length
    rw [List.drop_left] at hd
    exact hr ▸ hd.silent holes
  · cases before with
    | nil => exact holes
    | cons v before =>
      exact absurd hl (Nat.ne_of_gt (Table.length_ofSequence_pos (solid v List.mem_cons_self) (before ++ after)))

end Children

/-! ### Children one by one -/

/-- **Children are rendered one by one, up to the first nil.** The element that `createElement` makes holds all that it
was given; where each of them renders on its own and without hooks, the element shows what they show, one behind
another, just when nothing that shows stands behind a nil. Several children are in a table, which the components among
them must leave as it is. -/
theorem children_shown (invoke : Invoke) :
    (∀ (kind given : Value) (children vs : List Value) (m n : Machine),
      Element.create (kind :: given :: children) m = .ok vs n → (children = [] → Childless m given) →
      ∃ v own, vs = [v] ∧ element? n v = some (kind, some own) ∧
        Bears n ((tableAt n (some own)).getName "children") children) ∧
    ∀ (m : Machine) (v : Value) (tag : ByteArray) (own? : Option Nat) (children : List Value) (left : Nat)
      (path : String) (handlers : Array Value) (ms : List Machine) (outs : List (List Node × Array Value)),
      element? m v = some (.str tag, own?) → Bears m ((tableAt m own?).getName "children") children →
      (children = [] → 0 < left) →
      (Text.decodeLossy tag ≠ Element.fragment →
        ∃ r, readProps (tableAt m own?).entries [] [] handlers m = .ok (r, handlers) m) →
      Separately invoke (leftInside children left) children m ms outs →
      LeftAlone m ((tableAt m own?).getName "children") children ms →
      ((∃ shown nodes given n, value invoke (left + 1) v path handlers m = .ok (shown, given) n ∧
        Wraps (Text.decodeLossy tag) nodes shown ∧ Joins outs (nodes, given)) ↔ Unbroken children outs) ∧
      ∀ before after, children = before ++ after → (∀ v ∈ before, v.isNil = false) → (∀ v ∈ after, v.isNil = true) →
        Unbroken children outs := by
  refine ⟨fun kind given children vs m n h bare => create_bears h bare, ?_⟩
  intro m v tag own? children left path handlers ms outs element held deep readable alone stays
  refine ⟨named_iff element held deep readable alone stays, ?_⟩
  rintro before after rfl solid holes
  exact alone.unbroken solid holes

/-- The machine on which a paragraph with these children has been made. -/
def paragraph (children : List Value) : Machine :=
  Run.last (Element.create (.ofString "p" :: .nil :: children)) {}

theorem readProps_children (what : Value) (handlers : Array Value) :
    readProps [(.ofString "children", what)] [] [] handlers m = .ok (([], []), handlers) m := by
  have hn : Text.decodeLossy "children".toUTF8 = "children" := by decide +kernel
  have hi : Property.of "children" what = .ignored := if_pos (by decide)
  unfold readProps Value.ofString
  dsimp only
  rw [hn, hi]
  rfl

/-- A text shows itself, without hooks. -/
theorem Separately.text {left : Nat} {vs : List Value} {ms : List Machine} {outs : List (List Node × Array Value)}
    (s : String)
    (hs : Text.decodeLossy s.toUTF8 = s) (rest : Separately invoke (left + 1) vs m ms outs) :
    Separately invoke (left + 1) (.ofString s :: vs) m (m :: ms) (([.text s], #[]) :: outs) := by
  have alone : value invoke (left + 1) (.ofString s) "" #[] { m with hooks := m.hooks } = .ok ([.text s], #[]) m :=
    congrArg (fun text => EStateM.Result.ok ([Node.text text], #[]) m) hs
  exact .cons (fun _ _ _ => rfl) alone rest

/-- What is nothing shows nothing, without hooks. -/
theorem Separately.nothing {left : Nat} {vs : List Value} {ms : List Machine} {outs : List (List Node × Array Value)}
    {v : Value} (hv : v = .nil ∨ ∃ b, v = .bool b) (rest : Separately invoke (left + 1) vs m ms outs) :
    Separately invoke (left + 1) (v :: vs) m (m :: ms) (([], #[]) :: outs) := by
  have alone : value invoke (left + 1) v "" #[] { m with hooks := m.hooks } = .ok ([], #[]) m := by
    obtain rfl | ⟨b, rfl⟩ := hv <;> rfl
  refine .cons (fun _ _ _ => ?_) alone rest
  obtain rfl | ⟨b, rfl⟩ := hv <;> rfl

/-- Two texts with something between them. -/
def around (v : Value) : List Value := [.ofString "a", v, .ofString "b"]

theorem create_around (v : Value) : Element.create (.ofString "p" :: .nil :: around v) {} =
    .ok [.table 2] (paragraph (around v)) := rfl

/-- Texts and nothing leave the table in which they are. -/
theorem stays_around (v what : Value) (m : Machine) : LeftAlone m what (around v) [m, m, m, m] := by
  intro _ place _ l hl
  obtain rfl : l = m := by simpa using List.mem_of_mem_take hl
  rfl

/-- The three children on their own, when the one in the middle is nothing. -/
theorem separately_around {v : Value} (hv : v = .nil ∨ ∃ b, v = .bool b) (m : Machine) :
    Separately Script.invoke 198 (around v) m [m, m, m, m] [([.text "a"], #[]), ([], #[]), ([.text "b"], #[])] :=
  .text "a" (by decide +kernel) (.nothing hv (.text "b" (by decide +kernel) (.nil m)))

theorem children_shown_mixed :
    Element.create (.ofString "p" :: .nil :: around (.bool false)) {} =
      .ok [.table 2] (paragraph (around (.bool false))) ∧
    ∃ shown nodes given n, value Script.invoke 200 (.table 2) "root" #[] (paragraph (around (.bool false))) =
      .ok (shown, given) n ∧ Wraps "p" nodes shown ∧
      Joins [([.text "a"], #[]), ([], #[]), ([.text "b"], #[])] (nodes, given) := by
  obtain ⟨hmade, hshown⟩ := children_shown Script.invoke
  refine ⟨create_around _, ?_⟩
  obtain ⟨v, own, hv, he, hc⟩ := hmade _ _ _ _ _ _ (create_around (.bool false)) nofun
  obtain rfl := List.singleton_inj.1 hv
  obtain rfl : own = 1 := Option.some.inj (congrArg Prod.snd (Option.some.inj he)).symm
  have hp : Text.decodeLossy "p".toUTF8 = "p" := by decide +kernel
  obtain ⟨hiff, hsolid⟩ := hshown _ _ _ _ _ 199 "root" #[] _ _ he hc nofun
    (fun _ => ⟨_, readProps_children (.table 0) #[]⟩) (separately_around (.inr ⟨false, rfl⟩) _) (stays_around _ _ _)
  have hu := hsolid _ [] (List.append_nil _).symm (by decide) nofun
  exact hp ▸ hiff.2 hu

/-- It is not so that an element always shows what its children show: the second text stands behind a nil. -/
theorem child_behind_nil_lost : ¬ ∀ (v : Value) (m : Machine) (tag : ByteArray) (own? : Option Nat)
    (children : List Value) (ms : List Machine) (outs : List (List Node × Array Value)),
    Element.create (.str tag :: .nil :: children) {} = .ok [v] m → element? m v = some (.str tag, own?) →
    Separately Script.invoke (leftInside children 199) children m ms outs →
    LeftAlone m ((tableAt m own?).getName "children") children ms →
    ∃ shown nodes given n, value Script.invoke 200 v "root" #[] m = .ok (shown, given) n ∧
      Wraps (Text.decodeLossy tag) nodes shown ∧ Joins outs (nodes, given) := by
  intro h
  obtain ⟨v, own, hv, he, hc⟩ := create_bears (create_around .nil) nofun
  obtain rfl := List.singleton_inj.1 hv
  obtain rfl : own = 1 := Option.some.inj (congrArg Prod.snd (Option.some.inj he)).symm
  have alone := separately_around (.inl rfl) (paragraph (around .nil))
  have stays := stays_around .nil ((tableAt (paragraph (around .nil)) (some 1)).getName "children")
    (paragraph (around .nil))
  have hshown := h _ _ _ _ _ _ _ (create_around .nil) he alone stays
  have hu := (named_iff he hc nofun (fun _ => ⟨_, readProps_children (.table 0) #[]⟩) alone stays).1 hshown
  have hb : ([.text "b"], #[]) ∈ [([], #[]), ([Node.text "b"], (#[] : Array Value))] := by simp
  exact nomatch hu.behind _ hb

end LivePreview.Surface
