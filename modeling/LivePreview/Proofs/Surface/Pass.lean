import LivePreview.Proofs.Script.Stable
import LivePreview.Surface.Render

/-! What a render pass does to the hook store.

A pass calls component functions and reads tables. It draws: what calls of the script keep and starts and ends of
bodies, the pass keeps, and where it gives nodes no body is left open. A panic of the host leaves the body open in
which it arose. -/
namespace LivePreview.Surface
open Script

/-- What comes before a run that leaves the store alone is what comes after it. -/
theorem hooks_last {r : Run α} (h : ∀ P, Stable P r) (m : Machine) : (Run.last r m).hooks = m.hooks :=
  (h (· = m.hooks)).keep m rfl

namespace Pass
variable {α β : Type} {P : Hook.Store Value → Prop}

/-- A pass keeps what holds of the store, and one that gives a result leaves no body open that was not open before. -/
structure Draws (P : Hook.Store Value → Prop) (p : Pass α) : Prop where
  keep : ∀ handlers, Stable P (p handlers)
  closes : ∀ handlers m a n, p handlers m = .ok a n → m.hooks.frame = none → n.hooks.frame = none

/-- What calls keep, and starts and ends of bodies. -/
structure Carried (invoke : Invoke) (P : Hook.Store Value → Prop) : Prop where
  call : ∀ trail v args, Stable P (invoke trail v args)
  enter : ∀ s key, P s → P (s.enter key)
  exit : ∀ s, P s → P s.exit

theorem last_ok {p : Pass α} {handlers : Array Value} {m n : Machine} {a} (h : p handlers m = .ok a n) :
    Run.last (p handlers) m = n := by
  rw [Run.last, h]

namespace Draws

theorem pure (a : α) : Draws P (Pure.pure a : Pass α) where
  keep handlers := .pure (a, handlers)
  closes _ _ _ _ h hm := by
    cases h
    exact hm

theorem throw (e : RenderError) : Draws P (MonadExcept.throw e : Pass α) where
  keep _ := .throw e
  closes _ _ _ _ h _ := nomatch h

theorem bind {p : Pass α} {k : α → Pass β} (hp : Draws P p) (hk : ∀ a, Draws P (k a)) : Draws P (p >>= k) where
  keep handlers := Keeps.bind (hp.keep handlers) fun a => (hk a.1).keep a.2
  closes handlers m b n h hm := by
    obtain ⟨a, l, ha, hb⟩ := bind_ok h
    exact (hk a.1).closes a.2 l b n hb (hp.closes handlers m a l ha hm)

theorem ite {c : Prop} [Decidable c] {p q : Pass α} (hp : Draws P p) (hq : Draws P q) :
    Draws P (if c then p else q) := by
  split
  · exact hp
  · exact hq

theorem along {look : Nat → Pass (Option Value)} {visit : Nat → Value → Pass (List α)} {tooLong : Pass (List α)}
    (hl : ∀ i, Draws P (look i)) (hv : ∀ i v, Draws P (visit i v)) (ht : Draws P tooLong) (more index : Nat) :
    Draws P (Pass.along look visit tooLong more index) := by
  induction more generalizing index with
  | zero =>
    refine .bind (hl index) fun child? => ?_
    cases child? with
    | none => exact .pure []
    | some child => exact ht
  | succ more ih =>
    refine .bind (hl index) fun child? => ?_
    cases child? with
    | none => exact .pure []
    | some child => exact .bind (hv index child) fun _ => .bind (ih (index + 1)) fun _ => .pure _

theorem get : Draws P (MonadState.get : Pass (Array Value)) where
  keep handlers := .pure (handlers, handlers)
  closes _ _ _ _ h hm := by
    cases h
    exact hm

theorem modify (f : Array Value → Array Value) : Draws P (modify f : Pass Unit) where
  keep handlers := .pure ((), f handlers)
  closes _ _ _ _ h hm := by
    cases h
    exact hm

/-- A run that leaves the store alone draws nothing. -/
theorem ofRun {r : Run α} (hr : ∀ P, Stable P r) : Draws P (Pass.ofRun r) := by
  have hh (handlers m) : (Run.last (Pass.ofRun r handlers) m).hooks = m.hooks := by
    rw [← hooks_last hr m]
    unfold Run.last Pass.ofRun
    cases r m <;> rfl
  constructor
  · refine fun handlers => ⟨fun m hm => ?_⟩
    show P _
    rwa [hh]
  · intro handlers m a n h hm
    rw [← last_ok h, hh]
    exact hm

theorem ofExcept (r : Except HostFault α) : Draws P (Pass.ofExcept r) := by
  cases r with
  | ok a => exact .pure a
  | error fault => exact .throw _

end Draws

/-! ### Elements -/

theorem readTable_draws (place : Nat) : Draws P (ofRun (Run.readTable place)) :=
  .ofRun fun _ => readTable_stable place

theorem item?_draws (place index : Nat) : Draws P (item? place index) :=
  .bind (readTable_draws place) fun _ => .pure _

theorem reach_draws (t : Table) : Draws P (reach t) := .bind (.ofRun fun _ => .get) fun _ => .pure _

theorem props?_draws (element : Table) : Draws P (props? element) := by
  unfold props?
  split
  · exact .pure none
  · exact .pure _
  · exact .throw _

theorem readProps_draws (entries : List (Value × Value)) (attributes : List (String × String))
    (handlers : List (String × Value)) : Draws P (readProps entries attributes handlers) := by
  induction entries generalizing attributes handlers with
  | nil => exact .pure _
  | cons e r ih =>
    obtain ⟨key, v⟩ := e
    cases key
    case str s =>
      unfold readProps
      dsimp only
      split
      · exact ih ..
      · exact ih ..
      · exact .bind (readTable_draws _) fun _ => .bind (.ofExcept _) fun _ => ih ..
      · exact ih ..
    all_goals exact ih ..

theorem deal_draws (handlers : List (String × Value)) : Draws P (deal handlers) :=
  .bind .get fun _ => .bind (.modify _) fun _ => .pure _

theorem keyText?_draws (child : Value) : Draws P (keyText? child) := by
  cases child
  case table place =>
    refine .bind (readTable_draws place) fun t => .ite (.pure none) (.bind (props?_draws t) fun place? => ?_)
    cases place? with
    | none => exact .pure none
    | some place => exact .bind (readTable_draws place) fun _ => .pure _
  all_goals exact .pure none

/-! ### Instances -/

/-- The body of an instance is opened and closed around the call; only a panic leaves it open. -/
theorem callBody_draws {invoke : Invoke} (hc : Carried invoke P) (key : Hook.Key) (place : Nat) (props : Value) :
    Draws P (callBody invoke key place props) := by
  have hf (m : Machine) (hm : P m.hooks) := (first_stable (hc.call Trail.host (.func place) [props])).keep
    { m with hooks := m.hooks.enter key } (hc.enter _ key hm)
  constructor
  · refine fun handlers => ⟨fun m hm => ?_⟩
    have h := hf m hm
    unfold Run.last at h ⊢
    unfold callBody
    cases hr : Run.first (invoke Trail.host (.func place) [props]) { m with hooks := m.hooks.enter key } with
    | ok v n =>
      rw [hr] at h
      exact hc.exit _ h
    | error e n =>
      rw [hr] at h
      dsimp only
      split
      · exact h
      · exact hc.exit _ h
  · intro handlers m a n h _
    unfold callBody at h
    split at h
    · cases h
      rfl
    · exact nomatch h

/-- An element with a name and properties of its own: a tag around its children, and for a fragment these alone. -/
def tagged (value : Value → String → Pass (List Node)) (tag path : String) (own : Table) : Pass (List Node) :=
  if tag == Element.fragment then value (own.getName "children") path
  else do
    let r ← readProps own.entries [] []
    let handlers ← deal r.2
    return [.element tag r.1 handlers (← value (own.getName "children") path)]

/-- An element draws as its instance and its children do. -/
theorem elementBy_draws {component : Nat → Value → String → Pass (List Node)}
    {value : Value → String → Pass (List Node)}
    (hc : ∀ place props path, Draws P (component place props path)) (hv : ∀ v path, Draws P (value v path)) (t : Table)
    (path : String) : Draws P (elementBy component value t path) := by
  refine .bind (props?_draws t) fun own? => ?_
  split
  · rename_i s _
    have hk (own : Table) : Draws P (tagged value (Text.decodeLossy s) path own) :=
      .ite (hv ..) <| .bind (readProps_draws own.entries [] []) fun r => .bind (deal_draws r.2) fun _ =>
        .bind (hv ..) fun _ => .pure _
    cases own? with
    | none => exact .bind (.pure _) hk
    | some place => exact .bind (readTable_draws place) hk
  · exact hc ..
  · exact .throw _

/-- The items of a list draw as each of them does. -/
theorem each_draws {value : Value → String → Pass (List Node)} (hv : ∀ v path, Draws P (value v path)) (place : Nat)
    (path : String) (more index : Nat) : Draws P (each value place path more index) :=
  .along (item?_draws place) (fun _ child => .bind (keyText?_draws child) fun _ => hv ..) (.throw _) more index

/-- **Components and values draw**, however deep they nest. -/
theorem component_value_draws {invoke : Invoke} (hi : Carried invoke P) (left : Nat) :
    (∀ place props path, Draws P (component invoke left place props path)) ∧
      ∀ v path, Draws P (value invoke left v path) := by
  induction left with
  | zero => exact ⟨fun _ _ _ => .throw _, fun _ _ => .throw _⟩
  | succ left ih =>
    obtain ⟨hc, hv⟩ := ih
    refine ⟨fun place props path => .bind (callBody_draws hi ..) fun v => hv .., fun v path => ?_⟩
    unfold Pass.value
    split
    · exact .pure []
    · exact .pure []
    · exact .pure []
    · refine .bind (readTable_draws _) fun t => .ite (elementBy_draws hc hv t path) (.ite (.throw _) ?_)
      exact .bind (reach_draws t) fun more => each_draws hv _ path more 0
    · split
      · exact .pure _
      · exact .throw _

theorem root_draws {invoke : Invoke} (hi : Carried invoke P) (render props : Value) :
    Draws P (root invoke render props) := by
  cases render
  case func place => exact (component_value_draws hi _).1 ..
  all_goals exact .throw _

end Pass
end LivePreview.Surface
