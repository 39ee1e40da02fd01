import LivePreview.Proofs.Surface.Log

/-! **Setters of instances that are gone.**

A setter knows its instance by a key, which is a place in the tree and a function. At each moment of a run an instance
under the key has been entered and not been forgotten since (`Lives`), or nothing is held for it (`Absent`). In the
second case its setters and dispatchers do nothing (`Ignored`). Nothing more can be said: once another instance is
rendered under the same key, a setter of the one before sets the state of the new one (`old_setter_sets`). -/
namespace LivePreview.Surface
open Script Hook
variable {invoke : Invoke} {start s t : Store Value} {log rest : List Moment} {d : Deed} {key : Key}

/-! ### Instances that are held -/

/-- The deed forgets what is held under the key. -/
def Drops (key : Key) (u : Store Value) : Deed → Prop
  | .finishPass => key ∉ u.rendered
  | .reset => True
  | _ => False

/-- An instance has been rendered under the key and has not been forgotten since. -/
def Lives (key : Key) (log : List Moment) : Prop :=
  ∃ before u rest, log = before ++ (u, .enter key) :: rest ∧ ∀ e ∈ rest, ¬ Drops key e.1 e.2

theorem slot?_of_drops (hd : Drops key s d) (index : Nat) : (d.apply s).slot? key index = none := by
  cases d with
  | finishPass =>
    have hk : s.rendered.contains key = false := eq_false_of_ne_true fun hk => hd (List.contains_iff_mem.1 hk)
    rw [Deed.apply, Store.slot?_finishPass, hk]
    rfl
  | reset => rfl
  | _ => exact hd.elim

/-- Nothing is held under the key, and no body runs under it. -/
structure Absent (key : Key) (s : Store Value) : Prop where
  slots : ∀ index, s.slot? key index = none
  idle : ∀ count, s.frame ≠ some (key, count)

theorem Lives.snoc (h : Lives key log) {e : Moment} (he : ¬ Drops key e.1 e.2) : Lives key (log ++ [e]) := by
  obtain ⟨before, u, rest, rfl, hr⟩ := h
  refine ⟨before, u, rest ++ [e], by simp, fun d hd => ?_⟩
  rcases List.mem_append.1 hd with hd | hd
  · exact hr d hd
  · exact List.mem_singleton.1 hd ▸ he

/-- What was forgotten does not live until an instance is rendered under the key again. -/
theorem not_lives {u : Store Value} (hd : Drops key u d) (hr : ∀ e ∈ rest, e.2 ≠ .enter key) :
    ¬ Lives key (log ++ (u, d) :: rest) := by
  rintro ⟨before, w, mid, he, hm⟩
  rcases append_eq_cons he with ⟨after, -, rfl⟩ | ⟨after, -, hs⟩
  · exact hm (u, d) (List.mem_append_right _ List.mem_cons_self) hd
  · cases after with
    | nil =>
      obtain ⟨hw, -⟩ := List.cons.inj hs
      cases hw
      exact hd
    | cons e after =>
      have he : rest = after ++ (w, .enter key) :: mid := (List.cons.inj hs).2
      exact hr (w, .enter key) (he ▸ List.mem_append_right _ List.mem_cons_self) rfl

namespace Absent

/-- A store keeps slots for the instance whose body runs. -/
theorem keep (h : Absent key s) {k : Key} {index : Nat} (hc : s.IsCalling k index) (slot : Hook.Slot Value) :
    Absent key (s.keep k index slot) where
  slots i := by
    obtain ⟨count, hf, -⟩ := hc
    have hk : (key == k) = false := beq_false_of_ne fun he => h.idle count (he ▸ hf)
    rw [Store.slot?, Store.slotsOf_keep, hk]
    exact h.slots i
  idle := h.idle

theorem update_eq (h : Absent key s) (index : Nat) (next : Value) : s.update Value.equals key index next = s := by
  rw [Store.update, h.slots index]

theorem update (h : Absent key s) (k : Key) (index : Nat) (next : Value) :
    Absent key (s.update Value.equals k index next) where
  slots i := by
    rw [Store.slot?_update, h.slots i]
    exact ite_self _
  idle count := by
    rw [Store.frame_update]
    exact h.idle count

/-- What is absent stays so until it is entered. -/
theorem apply (h : Absent key s) (hl : Life start log s) (hf : Fits log s d) (hd : d ≠ .enter key) :
    Absent key (d.apply s) := by
  cases d with
  | call hook =>
    obtain ⟨⟨k, count⟩, hs⟩ := hf
    refine ⟨fun i => (s.slot?_counted key i).trans (h.slots i), fun n hn => ?_⟩
    cases (Store.frame_counted hs).symm.trans hn
    exact h.idle count hs
  | keep k index slot => exact h.keep (hl.keeps hf) slot
  | effect k index deps callback =>
    have hk := h.keep (hl.queues hf) (.effect deps)
    exact ⟨hk.slots, hk.idle⟩
  | update k index next => exact h.update k index next
  | enter k =>
    refine ⟨h.slots, fun n hn => ?_⟩
    cases hn
    exact hd rfl
  | finishPass =>
    refine ⟨fun i => ?_, h.idle⟩
    rw [Deed.apply, Store.slot?_finishPass, h.slots i]
    exact ite_self _
  | exit | beginPass => exact ⟨h.slots, fun _ hn => by cases hn⟩
  | reset => exact ⟨fun _ => rfl, fun _ hn => by cases hn⟩
  | takeEffects | takeCleanup | setCleanup | endEffects => exact ⟨h.slots, h.idle⟩

/-- What is forgotten is absent. -/
theorem of_drops (hf : Fits log s d) (hd : Drops key s d) : Absent key (d.apply s) := by
  refine ⟨slot?_of_drops hd, fun n hn => ?_⟩
  cases d with
  | finishPass => cases (show s.frame = none from hf).symm.trans hn
  | reset => cases hn
  | _ => exact hd.elim

theorem empty : Absent key {} := ⟨fun _ => rfl, fun _ hn => by cases hn⟩

theorem of_isEmpty (hs : s.slots.isEmpty = true) (hf : s.frame.isNone = true) : Absent key s where
  slots index := by
    rw [Store.slot?, Store.slotsOf, List.isEmpty_iff.1 hs]
    rfl
  idle count h := by cases (Option.isNone_iff_eq_none.1 hf).symm.trans h

theorem of_life (h : Absent key s) (hs : Life start log s) (ht : Life start (log ++ rest) t)
    (hr : ∀ e ∈ rest, e.2 ≠ .enter key) : Absent key t := by
  induction rest using List.reverseRecOn generalizing t with
  | nil =>
    rw [List.append_nil] at ht
    exact hs.unique ht ▸ h
  | append_singleton rest e ih =>
    rw [← List.append_assoc] at ht
    obtain ⟨hl, hf, he⟩ := ht.last
    rw [he]
    exact (ih hl fun d hd => hr d (List.mem_append_left _ hd)).apply hl hf (hr e (by simp))

end Absent

/-- **At each moment an instance lives, or nothing is held for it.** -/
theorem lives_or_absent (key : Key) (h : Life {} log s) : Lives key log ∨ Absent key s := by
  induction h with
  | nil => exact .inr .empty
  | @snoc log s h d hf ih =>
    by_cases hd : Drops key s d
    · exact .inr (.of_drops hf hd)
    rcases ih with hl | ha
    · exact .inl (hl.snoc hd)
    · by_cases he : d = .enter key
      · exact .inl ⟨log, s, [], he ▸ rfl, fun _ he => by cases he⟩
      · exact .inr (ha.apply h hf he)

/-! ### Setters and dispatchers -/

/-- Setters and dispatchers of the instance do nothing with this store. A function that a setter is given is called
with nothing, and what it does is all that is done. -/
structure Ignored (invoke : Invoke) (key : Key) (s : Store Value) : Prop where
  update : ∀ index next, s.update Value.equals key index next = s
  setter : ∀ trail index args m, m.hooks = s → (∀ place, Run.argument args 1 ≠ .func place) →
    setState invoke trail key index args m = .ok [] m
  updater : ∀ trail index args m place, m.hooks = s → Run.argument args 1 = .func place →
    Run.last (setState invoke trail key index args) m = Run.last (callScript invoke trail (.func place) [.nil]) m
  dispatcher : ∀ trail index args m, m.hooks = s → Hook.dispatch invoke trail key index args m = .ok [] m

/-- No call of a script enters a body. -/
theorem Absent.callScript (hi : Recorded invoke) {m : Machine} (h : Absent key m.hooks) (trail : Trail) (v : Value)
    (args : List Value) : Absent key (Run.last (callScript invoke trail v args) m).hooks := by
  have hc : Stable (Grown Deed.Scripted m.hooks []) _ := callScript_recorded hi trail v args
  obtain ⟨rest, hr, ht⟩ := hc.keep m (.refl .nil)
  refine h.of_life .nil ht fun e he hk => ?_
  have := hr e he
  rw [hk] at this
  exact this

/-- What changes nothing in the end can be left out. -/
theorem last_bind {ε α β : Type} {r : EStateM ε Machine α} {k : α → EStateM ε Machine β} {m : Machine}
    (h : ∀ a n, r m = .ok a n → Run.last (k a) n = n) : Run.last (r >>= k) m = Run.last r m := by
  cases hr : r m with
  | ok a n => rw [Run.last, bind_of_ok hr, ← Run.last, h a n hr, last_of_ok hr]
  | error e n => rw [last_of_error (bind_of_error hr), last_of_error hr]

theorem Absent.modify {m : Machine} (h : Absent key m.hooks) (index : Nat) (next : Value) :
    (do
      Run.modifyHooks fun s => s.update Value.equals key index next
      return [] : Run (List Value)) m = .ok [] m := by
  show EStateM.Result.ok [] { m with hooks := m.hooks.update Value.equals key index next } = .ok [] m
  rw [h.update_eq]

theorem Absent.ignored (hi : Recorded invoke) (h : Absent key s) : Ignored invoke key s where
  update := h.update_eq
  setter trail index args m hm hn := by
    subst hm
    unfold setState
    cases hv : Run.argument args 1
    case func place => exact absurd hv (hn place)
    all_goals exact h.modify index _
  updater trail index args m place hm hp := by
    subst hm
    have hk := h.callScript hi trail (.func place) [.nil]
    unfold setState
    rw [hp]
    dsimp only
    rw [Run.last, hooks_bind, ← Run.last, h.slots index]
    refine last_bind fun next n hn => ?_
    rw [last_of_ok hn] at hk
    exact last_of_ok (hk.modify index next)
  dispatcher trail index args m hm := by
    rw [Hook.dispatch, hooks_bind, hm, h.slots index]
    rfl

/-! ### Runs of operations -/

/-- What setters and dispatchers of a key can do at the end of a log: nothing where no instance lives, and otherwise
what changes the value that the hook call holds now. -/
structure Reach (invoke : Invoke) (key : Key) (log : List Moment) (s : Store Value) : Prop where
  ignored : ¬ Lives key log → Ignored invoke key s
  unchanged : ∀ index next, s.changes Value.equals key index next = false → s.update Value.equals key index next = s
  changes : ∀ index next, s.changes Value.equals key index next = true →
    Lives key log ∧ (s.update Value.equals key index next).dirty = true

theorem reach (hi : Recorded invoke) (key : Key) (h : Life {} log s) : Reach invoke key log s where
  ignored hn := ((lives_or_absent key h).resolve_left hn).ignored hi
  unchanged index next hc := by
    rcases Store.update_eq Value.equals s key index next with ⟨-, hu⟩ | ⟨hc', -⟩
    · exact hu
    · cases hc.symm.trans hc'
  changes index next hc := by
    refine ⟨(lives_or_absent key h).resolve_right fun ha => ?_, ?_⟩
    · rw [Store.changes, ha.slots index] at hc
      cases hc
    · rw [(Store.Act.update key index next).dirty, hc, Bool.or_true]

/-- Where nothing is mounted, and under an error, nothing is held. -/
theorem store_empty {w : Watched} (hw : Sound invoke w) (h : w.surface.mounted = none ∨ w.surface.isCaptured = true) :
    store w.surface = {} := by
  rcases h with hm | hc
  · rw [store, hm]
  · unfold isCaptured at hc
    split at hc
    · obtain ⟨mounted, hm, hh, -⟩ := hw.captured _ ‹_›
      rw [store_some hm, hh]
    · cases hc

/-- **Setters and dispatchers of instances that are gone do nothing**: from the moment of every run at which an instance
is forgotten, for as long as no instance is rendered under the same key. -/
theorem removed_ignored (hi : Recorded invoke) (limit : Nat) (order : Order) (ops : List Op) :
    ∃ log, Logged invoke limit order ops log ∧
      (∀ before rest s, log = before ++ rest → Life {} before s → ∀ key, Reach invoke key before s) ∧
      (∀ before u d gap rest s key, log = before ++ (u, d) :: gap ++ rest → Life {} (before ++ (u, d) :: gap) s →
        Drops key u d → (∀ e ∈ gap, e.2 ≠ .enter key) → Ignored invoke key s) ∧
      ((ops.foldl (act invoke) (fresh limit order)).mounted = none ∨
          (ops.foldl (act invoke) (fresh limit order)).isCaptured = true →
        ∀ key, Ignored invoke key (store (ops.foldl (act invoke) (fresh limit order)))) := by
  obtain ⟨log, hl⟩ := (Logged.nil : Logged invoke limit order [] []).exists_append hi ops
  refine ⟨log, hl, fun before rest s _ h key => reach hi key h, ?_, fun hs key => ?_⟩
  · rintro before u d gap rest s key - h hd hg
    exact (reach hi key h).ignored (not_lives hd hg)
  have hw : ((Watched.fresh limit order).run invoke ops).surface = ops.foldl (act invoke) (fresh limit order) :=
    surface_run _ ops
  rw [← hw] at hs ⊢
  rw [store_empty (sound_run hi.scripted limit order ops) hs]
  exact Absent.empty.ignored hi

/-- A panel that has a cell in it while it is open. The cell gives its setter to the host. -/
def panel : Component :=
  ((Component.attempt { instruments := true } {} ("local h = React.createElement\n" ++
    "function Cell()\n" ++
    "  local word, set = React.useState('new')\n" ++
    "  React.stash('set', set)\n" ++
    "  return word\nend\n" ++
    "function Panel(props)\n" ++
    "  if props.open then return h(Cell) end\n" ++
    "  return 'shut'\nend") "Panel").component?).getD default

def cellKey : Key := "root@35>@34"

def opened : List Op := [.mount panel (.obj [("open", .bool true)])]

def shut : List Op := [.update (.obj [])]

def reopened : List Op := [.update (.obj [("open", .bool true)])]

theorem mounted_foldl_unmount (invoke : Invoke) (s : Surface) (ops : List Op) :
    ((ops ++ [Op.unmount]).foldl (act invoke) s).mounted = none := by
  rw [List.foldl_append]
  exact mounted_unmount _

set_option maxRecDepth 100000 in
/-- The cell of the panel that is opened again lives, and another word would change its state. When the panel has been
taken down nothing is left to change. -/
theorem removed_ignored_panel : Recorded Script.invoke ∧
    (∃ log, Logged Script.invoke 25 {} (opened ++ shut ++ reopened) log ∧ Lives cellKey log) ∧
    ∀ key, Ignored Script.invoke key
      (store ((opened ++ [Op.unmount]).foldl (act Script.invoke) (fresh 25 {}))) := by
  refine ⟨recorded_invoke, ?_, ?_⟩
  · obtain ⟨log, hl, hr, -⟩ := removed_ignored recorded_invoke 25 {} (opened ++ shut ++ reopened)
    have hc : (store ((opened ++ shut ++ reopened).foldl (act Script.invoke) (fresh 25 {}))).changes Value.equals
        cellKey 0 (.str "old".toUTF8) = true := by decide +kernel
    exact ⟨log, hl, ((hr log [] _ (List.append_nil log).symm hl.span.1 cellKey).changes 0 _ hc).1⟩
  · obtain ⟨_, -, -, -, hu⟩ := removed_ignored recorded_invoke 25 {} (opened ++ [Op.unmount])
    exact hu (.inl (mounted_foldl_unmount Script.invoke (fresh 25 {}) opened))

/-- The hook call that a function of what is mounted sets the state of. -/
def setter? (s : Surface) (place : Nat) : Option (Key × Nat) :=
  match s.mounted with
  | none => none
  | some mounted =>
    match mounted.component.machine.funcs[place]? with
    | some (.setter key index) => some (key, index)
    | _ => none

set_option maxRecDepth 100000 in
/-- It is not so that the setter of an instance that has been removed never marks the store. -/
theorem old_setter_sets : ¬ ∀ (before gap after : List Op) (key : Key) (index place : Nat) (v : Value),
    setter? (before.foldl (act Script.invoke) (fresh 25 {})) place = some (key, index) →
    Absent key (store ((before ++ gap).foldl (act Script.invoke) (fresh 25 {}))) →
      (store ((before ++ gap ++ after ++ [Op.call (.func place) [v]]).foldl (act Script.invoke) (fresh 25 {}))).dirty =
        (store ((before ++ gap ++ after).foldl (act Script.invoke) (fresh 25 {}))).dirty := by
  intro hall
  have h : setter? (opened.foldl (act Script.invoke) (fresh 25 {})) 36 = some (cellKey, 0) ∧
      (store ((opened ++ shut).foldl (act Script.invoke) (fresh 25 {}))).slots.isEmpty = true ∧
      (store ((opened ++ shut).foldl (act Script.invoke) (fresh 25 {}))).frame.isNone = true ∧
      ¬ (store ((opened ++ shut ++ reopened ++ [Op.call (.func 36) [.str "old".toUTF8]]).foldl (act Script.invoke)
        (fresh 25 {}))).dirty =
          (store ((opened ++ shut ++ reopened).foldl (act Script.invoke) (fresh 25 {}))).dirty := by
    decide +kernel
  exact h.2.2.2 (hall opened shut reopened cellKey 0 36 (.str "old".toUTF8) h.1 (.of_isEmpty h.2.1 h.2.2.1))

end LivePreview.Surface
