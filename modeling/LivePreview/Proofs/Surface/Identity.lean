import LivePreview.Proofs.Surface.Chart
import LivePreview.Proofs.Surface.Place

/-! **Which instances a pass tells apart.**

An instance is found again by its key, so two instances with the same key have the same state. All instances of a
pass have different keys as long as no child has a key that extends the key of one of its siblings
(`instances_apart`); the store then has each of them (`rendered_perm_keys`). That the keys of siblings differ is not
enough (`siblings_share_key`), unless they are plain (`plain_instances_apart`). -/
namespace LivePreview.Surface
open Script Pass
variable {α β : Type} {path : String} {index place : Nat} {key? : Option String} {c d : Chart}

/-- Neither key extends the other. -/
def Clear (key other : String) : Prop := ¬ Extends key other ∧ ¬ Extends other key

/-- Different keys without the marks at which steps begin. -/
def Plainly (key other : String) : Prop :=
  key ≠ other ∧ ∀ text ∈ [key, other], '.' ∉ text.toList ∧ '@' ∉ text.toList

instance : DecidableRel Plainly := fun key other =>
  inferInstanceAs (Decidable (key ≠ other ∧ ∀ text ∈ [key, other], '.' ∉ text.toList ∧ '@' ∉ text.toList))

theorem not_extends {key other : String} (hne : key ≠ other) (hd : '.' ∉ other.toList) (ha : '@' ∉ other.toList) :
    ¬ Extends key other := by
  rintro ⟨route, rfl⟩
  match route with
  | [] => exact hne (by simp [Route.text])
  | .child _ none :: _ => exact hd (by simp [Route.text, Step.text])
  | .child _ (some _) :: _ => exact hd (by simp [Route.text, Step.text])
  | .inner _ :: _ => exact ha (by simp [Route.text, Step.text])

theorem Plainly.clear {key other : String} (h : Plainly key other) : Clear key other := by
  obtain ⟨hne, hp⟩ := h
  obtain ⟨hk, ho⟩ : _ ∧ _ := ⟨hp key (by simp), hp other (by simp)⟩
  exact ⟨not_extends hne ho.1 ho.2, not_extends hne.symm hk.1 hk.2⟩

theorem Chart.Siblings.imp {R S : String → String → Prop} (hc : c.Siblings R) (h : ∀ k l, R k l → S k l) :
    c.Siblings S := by
  induction c with
  | nil => exact hc
  | body _ inner rest hi hr => exact ⟨hi hc.1, hr hc.2⟩
  | child _ key? inner rest hi hr => exact ⟨fun k hk l hl => h k l (hc.1 k hk l hl), hi hc.2.1, hr hc.2.2⟩

/-! ### Keys below a place -/

/-- A chart of what is at a place: its instances have the keys of places from there on, and they are told apart if
siblings are. -/
structure Sited (path : String) (c : Chart) : Prop where
  below : ∀ key ∈ c.keys, ∃ (route : Route) (place : Nat), key = route.key path place
  apart : c.Siblings Clear → c.keys.Nodup

/-- A chart of children side by side at a place, from an index on. -/
structure Row (path : String) (index : Nat) (c : Chart) : Prop where
  below : ∀ key ∈ c.keys, ∃ (i : Nat) (key? : Option String) (route : Route) (place : Nat),
    index ≤ i ∧ (∀ k ∈ key?, k ∈ c.given) ∧ key = Route.key (.child i key? :: route) path place
  apart : c.Siblings Clear → c.keys.Nodup

theorem Sited.nil : Sited path .nil := ⟨nofun, fun _ => List.nodup_nil⟩

theorem Row.nil : Row path index .nil := ⟨nofun, fun _ => List.nodup_nil⟩

theorem Row.sited (h : Row path index c) : Sited path c where
  below key hk := by
    obtain ⟨i, key?, route, place, -, -, rfl⟩ := h.below key hk
    exact ⟨_, place, rfl⟩
  apart := h.apart

theorem Row.sooner (h : Row path (index + 1) c) : Row path index c where
  below key hk := by
    obtain ⟨i, key?, route, place, hi, hg, rfl⟩ := h.below key hk
    exact ⟨i, key?, route, place, by omega, hg, rfl⟩
  apart := h.apart

/-- What an instance renders has longer keys than the instance. -/
theorem ne_inner_key (key : Hook.Key) (route : Route) (place : Nat) : key ≠ route.key (innerPath key) place := by
  intro h
  have := congrArg String.toList h
  simp [Route.key, innerPath, instanceKey] at this

theorem Sited.body (h : Sited (innerPath (instanceKey path place)) c) :
    Sited path (.body (instanceKey path place) c .nil) where
  below key hk := by
    simp only [Chart.keys, List.append_nil, List.mem_cons] at hk
    obtain rfl | hk := hk
    · exact ⟨[], place, Route.key_nil.symm⟩
    · obtain ⟨route, q, rfl⟩ := h.below key hk
      exact ⟨.inner place :: route, q, Route.key_inner.symm⟩
  apart hs := by
    simp only [Chart.keys, List.append_nil, List.nodup_cons]
    refine ⟨fun hk => ?_, h.apart hs.1⟩
    obtain ⟨route, q, he⟩ := h.below _ hk
    exact ne_inner_key _ route q he

theorem Row.child (h : Sited (childPath path index key?) c) (hr : Row path (index + 1) d) :
    Row path index (.child index key? c d) where
  below key hk := by
    rcases List.mem_append.1 hk with hk | hk
    · obtain ⟨route, place, rfl⟩ := h.below key hk
      exact ⟨index, key?, route, place, Nat.le_refl _, fun k hk => List.mem_append_left _ (by simpa using hk),
        Route.key_child.symm⟩
    · obtain ⟨i, other?, route, place, hi, ho, rfl⟩ := hr.below key hk
      exact ⟨i, other?, route, place, by omega, fun k hk => List.mem_append_right _ (ho k hk), rfl⟩
  apart hs := by
    obtain ⟨hk, hc, hd⟩ := hs
    refine List.nodup_append.2 ⟨h.apart hc, hr.apart hd, fun a ha b hb he => ?_⟩
    obtain ⟨r, p, rfl⟩ := h.below a ha
    obtain ⟨j, other?, s, q, hj, ho, rfl⟩ := hr.below b hb
    have hmeet : Route.Meet (.child index key?) (.child j other?) := ⟨path, r, s, p, q, Route.key_child.trans he⟩
    obtain ⟨k, l, rfl, rfl, hx⟩ := (Route.siblings_meet_iff (by omega)).1 hmeet
    have hclear := hk k (by simp) l (ho l rfl)
    exact hx.elim hclear.1 hclear.2

/-! ### Charts of a pass -/

namespace Charted

/-- However a part of a pass goes, its chart is as stated. -/
structure Shows (S : Chart → Prop) (t : Charted α) : Prop where
  chart : ∀ handlers m, S (t.chart handlers m)

namespace Shows
variable {S T : Chart → Prop}

theorem quiet (h : S .nil) (p : Pass α) : Shows S (Charted.quiet p) := ⟨fun _ _ => h⟩

theorem bind {U : Chart → Prop} {t : Charted α} {k : α → Charted β} (ht : Shows S t) (hk : ∀ a, Shows T (k a))
    (hn : T .nil) (h : ∀ c d, S c → T d → U (c.append d)) : Shows U (t >>= k) := by
  refine ⟨fun handlers m => h _ _ (ht.chart handlers m) ?_⟩
  cases t.run handlers m with
  | ok r n => exact (hk r.1).chart r.2 n
  | error e n => exact hn

theorem after {p : Pass α} {k : α → Charted β} (hn : S .nil) (hk : ∀ a, Shows S (k a)) :
    Shows S (Charted.quiet p >>= k) :=
  bind (S := (· = .nil)) ⟨fun _ _ => rfl⟩ hk hn fun _ _ hc hd => hc ▸ hd

theorem before {t : Charted α} {f : α → β} (ht : Shows S t) : Shows S (t >>= fun a => pure (f a)) :=
  bind (T := (· = .nil)) ht (fun _ => ⟨fun _ _ => rfl⟩) rfl fun c _ hc hd => by
    rw [hd, Chart.append_nil]
    exact hc

theorem ite {p : Prop} [Decidable p] {t k : Charted α} (ht : Shows S t) (hk : Shows S k) :
    Shows S (if p then t else k) := by
  split
  · exact ht
  · exact hk

end Shows
end Charted

section Parts
open Charted (Shows)
variable {component : Nat → Value → String → Charted (List Node)}
  {value : Value → String → Charted (List Node)}

theorem chartElement_sited (hc : ∀ place props path, Shows (Sited path) (component place props path))
    (hv : ∀ v path, Shows (Sited path) (value v path)) (t : Table) (path : String) :
    Shows (Sited path) (chartElement component value t path) := by
  refine .after .nil fun own? => ?_
  split
  · rename_i s _
    have hk (own : Table) : Shows (Sited path) (chartTagged value (Text.decodeLossy s) path own) :=
      .ite (hv ..) <| .after .nil fun r => .after .nil fun _ => .before (hv ..)
    cases own? with
    | none => exact .after .nil hk
    | some place => exact .after .nil hk
  · exact hc ..
  · exact .quiet .nil _

theorem chartInPlace_child (hv : ∀ v path, Shows (Sited path) (value v path)) (path : String) (index : Nat)
    (v : Value) : Shows (fun c => ∀ rest, Row path (index + 1) rest → Row path index (c.append rest))
      (chartInPlace value path index v) := by
  refine .after (fun rest hr => hr.sooner) fun key? => ⟨fun handlers m rest hr => ?_⟩
  exact .child ((hv v _).chart handlers m) hr

/-- The children of a list stand side by side, also where one of them changes what is behind it. -/
theorem chartEach_row (hv : ∀ v path, Shows (Sited path) (value v path)) (place : Nat) (path : String)
    (more index : Nat) : Shows (Row path index) (chartEach value place path more index) := by
  induction more generalizing index with
  | zero =>
    refine .after .nil fun child? => ?_
    cases child? <;> exact .quiet .nil _
  | succ more ih =>
    refine .after .nil fun child? => ?_
    cases child? with
    | none => exact .quiet .nil _
    | some child =>
      exact .bind (chartInPlace_child hv path index child) (fun nodes => .before (ih (index + 1))) .nil
        fun _ rest hc hr => hc rest hr

theorem chartComponent_chartValue_sited (invoke : Invoke) (left : Nat) :
    (∀ place props path, Shows (Sited path) (chartComponent invoke left place props path)) ∧
      ∀ v path, Shows (Sited path) (chartValue invoke left v path) := by
  induction left with
  | zero => exact ⟨fun _ _ _ => .quiet .nil _, fun _ _ => .quiet .nil _⟩
  | succ left ih =>
    obtain ⟨hc, hv⟩ := ih
    constructor
    · refine fun place props path => ⟨fun handlers m => .body ?_⟩
      exact (Shows.after .nil fun v => hv v _).chart handlers m
    · intro v path
      cases v
      case table place =>
        exact .after .nil fun t => .ite (chartElement_sited hc hv t path) <| .ite (.quiet .nil _) <|
          .after .nil fun more => ⟨fun handlers m => ((chartEach_row hv place path more 0).chart handlers m).sited⟩
      all_goals exact .quiet .nil _

theorem chartRoot_sited (invoke : Invoke) (render props : Value) :
    Shows (Sited "root") (chartRoot invoke render props) := by
  cases render
  case func place => exact (chartComponent_chartValue_sited invoke _).1 ..
  all_goals exact .quiet .nil _

end Parts

/-! ### All instances of a pass -/

/-- The chart of a pass that renders a component. -/
def chartOf (c : Component) : Chart := (chartRoot Script.invoke c.render .nil).chart #[] c.machine

/-- **The instances of a pass have different keys**, as long as no child has a key that extends the key of one of its
siblings. Children without keys need nothing. -/
theorem instances_apart (invoke : Invoke) (render props : Value) (handlers : Array Value) (m : Machine)
    (h : ((chartRoot invoke render props).chart handlers m).Siblings Clear) :
    ((chartRoot invoke render props).chart handlers m).keys.Nodup :=
  ((chartRoot_sited invoke render props).chart handlers m).apart h

/-- Plain keys need only be different. -/
theorem plain_instances_apart (invoke : Invoke) (render props : Value) (handlers : Array Value) (m : Machine)
    (h : ((chartRoot invoke render props).chart handlers m).Siblings Plainly) :
    ((chartRoot invoke render props).chart handlers m).keys.Nodup :=
  ((chartRoot_sited invoke render props).chart handlers m).apart (h.imp fun _ _ => Plainly.clear)

/-- An instance is rendered once in the store, however often it is entered. -/
theorem carried_nodup {invoke : Invoke} (hi : Scripted invoke) : Carried invoke fun s => s.rendered.Nodup where
  call := hi.stable fun _ _ _ ha hs => ha.rendered ▸ hs
  enter s key hs := by
    unfold Hook.Store.enter
    dsimp only
    split
    · exact hs
    · rename_i h
      exact List.nodup_cons.2 ⟨fun hm => h (List.contains_iff_mem.2 hm), hs⟩
  exit _ hs := hs

/-- Where siblings are told apart, the store has as many instances in the end as were rendered. -/
theorem rendered_perm_keys {invoke : Invoke} (hi : Scripted invoke) (render props : Value) (handlers : Array Value)
    {m : Machine} (hm : m.hooks.rendered = [])
    (h : ((chartRoot invoke render props).chart handlers m).Siblings Clear) :
    (Run.last (root invoke render props handlers) m).hooks.rendered.Perm
      ((chartRoot invoke render props).chart handlers m).keys := by
  have hstart : m.hooks.rendered.Nodup := hm ▸ List.nodup_nil
  have hn := ((root_draws (carried_nodup hi) render props).keep handlers).keep m hstart
  have hk := ((chartRoot_sited invoke render props).chart handlers m).apart h
  refine (List.perm_ext_iff_of_nodup hn hk).2 fun key => ?_
  rw [mem_rendered_root hi, hm]
  simp

/-- A component that renders two cells, one of them in a paragraph next to the other, with these keys. -/
@[irreducible] def board (cell paragraph : String) : Component :=
  ((Component.attempt { instruments := true } {} ("local h = React.createElement\n" ++
    "function Cell(props) return React.useState(props.start) end\n" ++
    "function Board()\n" ++
    "  return h('div', nil, h(Cell, \x7bkey = '" ++ cell ++ "', start = 'one'\x7d), " ++
    "h('p', \x7bkey = '" ++ paragraph ++ "'\x7d, h(Cell, \x7bstart = 'two'\x7d), h('i')))\n" ++
    "end") "Board").component?).getD default

/-- The chart of a board. -/
def boardChart (cell paragraph : String) : Chart :=
  .body "root@35" (.child 0 (some cell) (.body ("root@35>.#" ++ cell ++ "@34") .nil .nil)
    (.child 1 (some paragraph) (.child 0 none (.body ("root@35>.#" ++ paragraph ++ ".0@34") .nil .nil)
      (.child 1 none .nil .nil)) .nil)) .nil

theorem instances_apart_board : chartOf (board "a" "b") = boardChart "a" "b" ∧
    (chartOf (board "a" "b")).Siblings Clear ∧ (chartOf (board "a" "b")).keys.Nodup := by
  have apart (c : Component) : (chartOf c).Siblings Clear → (chartOf c).keys.Nodup :=
    instances_apart Script.invoke c.render .nil #[] c.machine
  have hc : chartOf (board "a" "b") = boardChart "a" "b" := by decide +kernel
  have hp : (boardChart "a" "b").Siblings Plainly := by decide +kernel
  have hs : (chartOf (board "a" "b")).Siblings Clear := by
    rw [hc]
    exact hp.imp fun _ _ => Plainly.clear
  exact ⟨hc, hs, apart _ hs⟩

/-- Siblings with different keys can give their instances one key. -/
theorem siblings_share_key : ¬ ∀ (invoke : Invoke) (render props : Value) (handlers : Array Value) (m : Machine),
    ((chartRoot invoke render props).chart handlers m).Siblings (· ≠ ·) →
      ((chartRoot invoke render props).chart handlers m).keys.Nodup := by
  intro h
  have apart (c : Component) : (chartOf c).Siblings (· ≠ ·) → (chartOf c).keys.Nodup :=
    h Script.invoke c.render .nil #[] c.machine
  have hc : chartOf (board "a.0" "a") = boardChart "a.0" "a" := by decide +kernel
  have ha := apart (board "a.0" "a")
  rw [hc] at ha
  exact absurd (ha (by decide +kernel)) (by decide +kernel)

end LivePreview.Surface
