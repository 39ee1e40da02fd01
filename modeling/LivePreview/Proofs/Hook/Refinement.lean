import LivePreview.Proofs.Hook.Cells
import LivePreview.Script.Invoke

/-! The hook store refines the cells of its log.

What one hook call and one update do to a slot is what they do to the cell (`Call.filled`, `Update.fills`). Every
event of a run keeps the agreement between store and log (`Refines.step`), and so does the run: wherever passes end,
are discarded or are interrupted by updates, a hook gives what its cell holds. -/
namespace LivePreview.Hook
open Script

variable {invoke : Invoke} {plan : Key → Nat → HookCall} {log : List Event} {s t : Store Value} {e : Event}

/-! ### One call, one update -/

/-- A hook call whose slot is of its kind, or still to be made, fills the slot with what the cell becomes, and gives
that. -/
theorem Call.filled (c : Call) (hf : c.machine.hooks.frame = some (c.key, c.index))
    (hi : c.index ≤ (c.machine.hooks.slotsOf c.key).length)
    (hkind : ∀ slot, c.machine.hooks.slot? c.key c.index = some slot → slot.Of c.hook)
    (hr : Hook.call (sealed invoke) c.trail c.args c.hook c.machine = .ok c.given c.last) :
    ∃ slot, Store.Filled c.machine.hooks c.last.hooks c.key c.index slot ∧ slot.Of c.hook ∧
      slot.cell? = c.fill invoke ((c.machine.hooks.slot? c.key c.index).bind Slot.cell?) ∧ c.Gives slot.cell? := by
  obtain ⟨key, index, hook, trail, args, m, given, n⟩ := c
  dsimp only at hf hi hkind hr ⊢
  have hnone (hno : ∀ slot, m.hooks.slot? key index = some slot → slot.Of hook → False) :
      m.hooks.slot? key index = none :=
    Option.eq_none_iff_forall_ne_some.mpr fun slot hslot => hno slot hslot (hkind slot hslot)
  have hcell (hh : hook = .memo ∨ hook = .callback ∨ hook = .effect) :
      (m.hooks.slot? key index).bind Slot.cell? = none := by
    cases hslot : m.hooks.slot? key index with
    | none => rfl
    | some slot => exact (hkind slot hslot).cell? hh
  cases hook with
  | state =>
    obtain ⟨v, place, hgiven, hplace, hfilled, hv⟩ := useState_ok hf hi hr
    refine ⟨.state v, hfilled, trivial, ?_, v, place, rfl, hgiven, hplace⟩
    obtain hv | ⟨hno, hv⟩ := hv
    · simp [hv, Slot.cell?, Call.fill]
    · have hslot := hnone fun slot hs hof => by
        obtain ⟨w, rfl⟩ := hof.state
        exact hno w hs
      simp [hslot, Slot.cell?, Call.fill, hv]
  | reducer =>
    obtain ⟨v, place, hgiven, hplace, hfilled, hv⟩ := useReducer_ok hf hi hr
    refine ⟨.reducer v (Run.argument args 1), hfilled, trivial, ?_, v, place, rfl, hgiven, hplace⟩
    obtain ⟨rule, hv⟩ | ⟨hno, hv⟩ := hv
    · simp [hv, Slot.cell?, Call.fill]
    · have hslot := hnone fun slot hs hof => by
        obtain ⟨w, rule, rfl⟩ := hof.reducer
        exact hno w rule hs
      simp [hslot, Slot.cell?, Call.fill, hv]
  | ref =>
    obtain ⟨t, hgiven, hfilled, ht⟩ := useRef_ok hf hi hr
    refine ⟨.ref t, hfilled, trivial, ?_, t, rfl, hgiven⟩
    obtain ht | ⟨hno, rfl⟩ := ht
    · simp [ht, Slot.cell?, Call.fill]
    · have hslot := hnone fun slot hs hof => by
        obtain ⟨w, rfl⟩ := hof.ref
        exact hno w hs
      simp [hslot, Slot.cell?, Call.fill]
  | memo =>
    obtain ⟨v, deps, hfilled⟩ := useMemo_ok hf hi hr
    exact ⟨.memo v deps, hfilled, trivial, by rw [hcell (.inl rfl)]; rfl, trivial⟩
  | callback =>
    obtain ⟨v, deps, hfilled⟩ := useCallback_ok hf hi hr
    exact ⟨.memo v deps, hfilled, trivial, by rw [hcell (.inr (.inl rfl))]; rfl, trivial⟩
  | effect =>
    obtain ⟨deps, hfilled⟩ := useEffect_ok hf hi hr
    exact ⟨.effect deps, hfilled, trivial, by rw [hcell (.inr (.inr rfl))]; rfl, trivial⟩

/-- What `settle` keeps is what the store keeps. -/
theorem Slot.put_cell? (next : Value) (slot : Slot Value) :
    (slot.put Value.equals next).cell? = slot.cell?.map fun cell => cell.set (settle cell.value next) := by
  cases slot with
  | state v =>
    cases hv : v.equals next <;> simp [Slot.put, Slot.cell?, settle, Cell.set, Cell.value, hv]
  | reducer v rule =>
    cases hv : v.equals next <;> simp [Slot.put, Slot.cell?, settle, Cell.set, Cell.value, hv]
  | _ => rfl

theorem Slot.Of.put {slot : Slot Value} {hook : HookCall} (h : slot.Of hook) (same : Value → Value → Bool)
    (next : Value) : (slot.put same next).Of hook := by
  cases slot with
  | state v | reducer v rule =>
    cases hsame : same v next <;> cases hook <;> first | exact h.elim | simp [Slot.put, hsame, Of]
  | _ => exact h

/-- An update is a change where the cell's value and the next one differ. -/
theorem Update.changes_eq (u : Update) {slot : Slot Value} {cell : Cell} {next : Value} {s : Store Value}
    (hslot : s.slot? u.key u.index = some slot) (hcell : slot.cell? = some cell)
    (hnext : u.next? invoke cell = some next) :
    s.changes Value.equals u.key u.index next = !cell.value.equals next := by
  unfold Store.changes
  rw [hslot]
  cases slot with
  | state v | reducer v rule =>
    cases hcell
    rfl
  | ref t =>
    cases hcell
    exact nomatch hnext
  | memo _ _ | effect _ => exact nomatch hcell

/-- An update through the hook's own setter or dispatcher does to the store what `settled` does with the value that
the hook's cell is to get. -/
theorem Update.after_eq (u : Update) {slot : Slot Value} (hslot : u.machine.hooks.slot? u.key u.index = some slot)
    (hkind : slot.Of u.handle.hook) (hr : u.run (sealed invoke) u.machine = u.run invoke u.machine) :
    ∃ cell, slot.cell? = some cell ∧
      u.after invoke = settled u.machine.hooks u.key u.index (u.next? invoke cell) := by
  have hsealed : u.after invoke = (Run.last (u.run (sealed invoke)) u.machine).hooks := by
    rw [after, Run.last, Run.last, hr]
  rw [hsealed]
  obtain ⟨key, index, handle, trail, args, m⟩ := u
  cases handle with
  | setter =>
    obtain ⟨v, rfl⟩ := hkind.state
    exact ⟨.state v, rfl, setState_sealed hslot⟩
  | dispatcher =>
    obtain ⟨v, rule, rfl⟩ := hkind.reducer
    exact ⟨.reducer v rule, rfl, dispatch_sealed hslot⟩

/-- What an update leaves: the slot of its hook is `slot`, which has the cell that comes of `cell`, and every other
slot is as it was. -/
structure Update.Fills (invoke : Invoke) (u : Update) (cell : Cell) (slot : Slot Value) : Prop where
  slot? : ∀ key index, (u.after invoke).slot? key index =
    if key = u.key ∧ index = u.index then some slot else u.machine.hooks.slot? key index
  kind : slot.Of u.handle.hook
  cell? : slot.cell? = some (u.apply settle invoke cell)
  frame : (u.after invoke).frame = u.machine.hooks.frame
  rendered : (u.after invoke).rendered = u.machine.hooks.rendered
  dirty : (u.after invoke).dirty = true ↔ u.machine.hooks.dirty = true ∨ u.Changes invoke (some cell)

theorem Update.fills (u : Update) {slot : Slot Value} (hslot : u.machine.hooks.slot? u.key u.index = some slot)
    (hkind : slot.Of u.handle.hook) (hr : u.run (sealed invoke) u.machine = u.run invoke u.machine) :
    ∃ cell slot', slot.cell? = some cell ∧ u.Fills invoke cell slot' := by
  obtain ⟨cell, hcell, hafter⟩ := u.after_eq hslot hkind hr
  cases hnext : u.next? invoke cell with
  | none =>
    rw [hnext] at hafter
    have hsame : u.after invoke = u.machine.hooks := hafter
    refine ⟨cell, slot, hcell, ?_, hkind, ?_, by rw [hsame], by rw [hsame], ?_⟩
    · intro key index
      rw [hsame]
      by_cases hki : key = u.key ∧ index = u.index
      · rw [if_pos hki, hki.1, hki.2, hslot]
      · rw [if_neg hki]
    · rw [hcell, Update.apply, hnext]
    · have hchanges : ¬ u.Changes invoke (some cell) := by
        rintro ⟨_, next, ⟨⟩, hn, -⟩
        cases hnext.symm.trans hn
      rw [hsame, or_iff_left hchanges]
  | some next =>
    rw [hnext] at hafter
    have hupdate : u.after invoke = u.machine.hooks.update Value.equals u.key u.index next := hafter
    refine ⟨cell, slot.put Value.equals next, hcell, ?_, hkind.put Value.equals next, ?_, ?_, ?_, ?_⟩
    · intro key index
      rw [hupdate, Store.slot?_update]
      by_cases hki : key = u.key ∧ index = u.index
      · rw [if_pos hki, if_pos hki, hki.1, hki.2, hslot]
        rfl
      · rw [if_neg hki, if_neg hki]
    · rw [Slot.put_cell?, hcell, Update.apply, hnext]
      rfl
    · rw [hupdate, Store.frame_update]
    · rw [hupdate, Store.rendered_update]
    · have hchanges : u.Changes invoke (some cell) ↔ cell.value.equals next = false := by
        constructor
        · rintro ⟨_, next', ⟨⟩, hn, he⟩
          cases hnext.symm.trans hn
          exact he
        · exact fun he => ⟨cell, next, rfl, hnext, he⟩
      rw [hupdate, (Store.Act.update u.key u.index next).dirty, u.changes_eq hslot hcell hnext, hchanges]
      simp

/-! ### The store refines the cells -/

/-- The store agrees with the log: with the body that runs, the instances of the pass and every cell. Slots are of
the kind that is planned for them, they belong to instances that have made calls, and each call has its slot. -/
structure Refines (invoke : Invoke) (plan : Key → Nat → HookCall) (log : List Event) (s : Store Value) : Prop where
  cursor : s.frame = cursor log
  drawn : ∀ key ∈ drawn log, key ∈ s.rendered
  cells : ∀ key index, (s.slot? key index).bind Slot.cell? = cell settle invoke key index log
  planned : ∀ key index slot, s.slot? key index = some slot → slot.Of (plan key index)
  filled : ∀ key count, s.frame = some (key, count) → ∀ i < count, ∃ slot, s.slot? key i = some slot
  called : ∀ key index slot, s.slot? key index = some slot → ∃ c, .call c ∈ log ∧ c.key = key
  made : ∀ c, .call c ∈ log → c.hook = plan c.key c.index ∧ ∃ slot, s.slot? c.key c.index = some slot
  dirty : s.dirty = true ↔ Dirtied invoke log

namespace Refines

theorem nil : Refines invoke plan [] {} where
  cursor := rfl
  drawn _ h := nomatch h
  cells _ _ := rfl
  planned _ _ _ h := nomatch h
  filled _ _ h := nomatch h
  called _ _ _ h := nomatch h
  made _ h := nomatch h
  dirty := ⟨fun h => (Bool.noConfusion h), fun ⟨_, _, _, h, _⟩ => nomatch (List.append_eq_nil_iff.1 h.symm).2⟩

/-- The body that runs has a slot for each hook call it has made, so that its next one is at most the first beyond
those there are. -/
theorem count_le (h : Refines invoke plan log s) {key : Key} {count : Nat} (hf : s.frame = some (key, count)) :
    count ≤ (s.slotsOf key).length := by
  by_contra hlt
  obtain ⟨slot, hslot⟩ := h.filled key count hf (s.slotsOf key).length (by omega)
  exact Nat.lt_irrefl _ (Store.length_of_slot? hslot)

/-- A change that leaves all slots in place, at an event that is no call or update. -/
theorem quiet (h : Refines invoke plan log s) (hslots : ∀ key index, t.slot? key index = s.slot? key index)
    (hcall : ∀ c, e ≠ .call c) (hupdate : ∀ u, e ≠ .update u) (hcursor : t.frame = Hook.cursor (log ++ [e]))
    (hdrawn : ∀ key ∈ Hook.drawn (log ++ [e]), key ∈ t.rendered)
    (hfilled : ∀ key count, t.frame = some (key, count) → ∀ i < count, ∃ slot, t.slot? key i = some slot)
    (hdirty : t.dirty = true ↔ e ≠ .beginPass ∧ s.dirty = true) : Refines invoke plan (log ++ [e]) t where
  cursor := hcursor
  drawn := hdrawn
  cells key index := by
    rw [cell_snoc, hslots, h.cells]
    cases e with
    | call c => exact absurd rfl (hcall c)
    | update u => exact absurd rfl (hupdate u)
    | _ => rfl
  planned key index slot hslot := h.planned key index slot (by rwa [← hslots])
  filled := hfilled
  called key index slot hslot := by
    obtain ⟨c, hc, hkey⟩ := h.called key index slot (by rwa [← hslots])
    exact ⟨c, List.mem_append_left _ hc, hkey⟩
  made c hc := by
    have hlog : .call c ∈ log := by simpa [(hcall c).symm] using hc
    obtain ⟨hplan, slot, hslot⟩ := h.made c hlog
    exact ⟨hplan, slot, by rw [hslots, hslot]⟩
  dirty := by
    have hno : ¬ ∃ u, e = .update u ∧ u.Changes invoke (cell settle invoke u.key u.index log) :=
      fun ⟨u, hu, _⟩ => hupdate u hu
    rw [hdirty, h.dirty, dirtied_snoc, or_iff_left hno]

/-- A change that fills one slot, at an event of the hook call that the slot belongs to. -/
theorem fill (h : Refines invoke plan log s) {key : Key} {index : Nat} {slot : Slot Value}
    (hslots : ∀ k i, t.slot? k i = if k = key ∧ i = index then some slot else s.slot? k i)
    (hof : slot.Of (plan key index)) (hcell : slot.cell? = cell settle invoke key index (log ++ [e]))
    (hothers : ∀ k i cell?, ¬ (k = key ∧ i = index) → e.apply settle invoke k i cell? = cell?)
    (hcalled : ∃ c, .call c ∈ log ++ [e] ∧ c.key = key)
    (hcall : ∀ c, e = .call c → c.key = key ∧ c.index = index ∧ c.hook = plan key index)
    (hcursor : t.frame = Hook.cursor (log ++ [e])) (hdrawn : Hook.drawn (log ++ [e]) = Hook.drawn log)
    (hrendered : t.rendered = s.rendered)
    (hfilled : ∀ k count, t.frame = some (k, count) → ∀ i < count, k = key ∧ i = index ∨
      ∃ slot, s.slot? k i = some slot)
    (hdirty : t.dirty = true ↔ Dirtied invoke (log ++ [e])) : Refines invoke plan (log ++ [e]) t where
  cursor := hcursor
  drawn k hk := by
    rw [hrendered]
    exact h.drawn k (hdrawn ▸ hk)
  cells k i := by
    rw [hslots]
    by_cases hki : k = key ∧ i = index
    · obtain ⟨rfl, rfl⟩ := hki
      rw [if_pos ⟨rfl, rfl⟩, ← hcell]
      rfl
    · rw [if_neg hki, h.cells, cell_snoc, hothers k i _ hki]
  planned k i other hother := by
    rw [hslots] at hother
    by_cases hki : k = key ∧ i = index
    · rw [if_pos hki] at hother
      cases hother
      rw [hki.1, hki.2]
      exact hof
    · rw [if_neg hki] at hother
      exact h.planned k i other hother
  filled k count hframe i hi := by
    rw [hslots]
    rcases hfilled k count hframe i hi with hki | hold
    · exact ⟨slot, if_pos hki⟩
    · by_cases hki : k = key ∧ i = index
      · exact ⟨slot, if_pos hki⟩
      · rwa [if_neg hki]
  called k i other hother := by
    rw [hslots] at hother
    by_cases hki : k = key ∧ i = index
    · obtain ⟨c, hc, hkey⟩ := hcalled
      exact ⟨c, hc, hkey.trans hki.1.symm⟩
    · rw [if_neg hki] at hother
      obtain ⟨c, hc, hkey⟩ := h.called k i other hother
      exact ⟨c, List.mem_append_left _ hc, hkey⟩
  made c hc := by
    rw [hslots]
    rcases List.mem_append.1 hc with hc | hc
    · obtain ⟨hplan, other, hother⟩ := h.made c hc
      by_cases hki : c.key = key ∧ c.index = index
      · exact ⟨hplan, slot, if_pos hki⟩
      · exact ⟨hplan, other, by rw [if_neg hki, hother]⟩
    · obtain ⟨hkey, hindex, hhook⟩ := hcall c (List.mem_singleton.1 hc).symm
      refine ⟨?_, slot, if_pos ⟨hkey, hindex⟩⟩
      rw [hhook, hkey, hindex]
  dirty := hdirty

/-- A hook call gives what its cell holds after it. -/
theorem call (h : Refines invoke plan log s) {c : Call} (ha : Allowed invoke plan log (.call c))
    (hm : c.machine.hooks = s) (hr : Hook.call invoke c.trail c.args c.hook c.machine = .ok c.given c.last) :
    Refines invoke plan (log ++ [.call c]) c.last.hooks ∧
      c.Gives (cell settle invoke c.key c.index (log ++ [.call c])) := by
  subst hm
  obtain ⟨hat, hplan, hsealed⟩ := ha
  have hf : c.machine.hooks.frame = some (c.key, c.index) := h.cursor.trans hat
  obtain ⟨slot, hfilled, hof, hcell, hgives⟩ := c.filled hf (h.count_le hf)
    (fun slot hslot => hplan ▸ h.planned c.key c.index slot hslot) (hsealed.trans hr)
  have hafter : slot.cell? = cell settle invoke c.key c.index (log ++ [.call c]) := by
    rw [cell_snoc, hcell, h.cells]
    simp [Event.apply]
  refine ⟨h.fill hfilled.slot? (hplan ▸ hof) hafter ?_ ⟨c, by simp, rfl⟩ ?_ ?_ ?_ hfilled.rendered ?_ ?_,
    hafter ▸ hgives⟩
  · intro key index cell? hki
    exact if_neg hki
  · rintro d hd
    cases hd
    exact ⟨rfl, rfl, hplan⟩
  · rw [hfilled.frame]
    simp only [Hook.cursor] at hat
    simp [Hook.cursor, hat]
  · simp [Hook.drawn]
  · intro key count hframe i hi
    rw [hfilled.frame] at hframe
    cases hframe
    by_cases hlast : i = c.index
    · exact .inl ⟨rfl, hlast⟩
    · exact .inr (h.filled c.key c.index hf i (by omega))
  · rw [hfilled.dirty, h.dirty, dirtied_snoc]
    simp

/-- An update through a hook's own function changes the cell of that hook alone. -/
theorem update (h : Refines invoke plan log s) {u : Update} (ha : Allowed invoke plan log (.update u))
    (hm : u.machine.hooks = s) :
    Refines invoke plan (log ++ [.update u]) (u.after invoke) ∧
      ∀ key index, ¬ (key = u.key ∧ index = u.index) → (u.after invoke).slot? key index = s.slot? key index := by
  subst hm
  obtain ⟨⟨c, hc, hkey, hindex, hhook⟩, hsealed⟩ := ha
  obtain ⟨hplan, slot, hslot⟩ := h.made c hc
  rw [hkey, hindex] at hplan hslot
  have hkind : u.handle.hook = plan u.key u.index := hhook.symm.trans hplan
  obtain ⟨cell, slot', hcell, hfills⟩ := u.fills hslot (hkind ▸ h.planned u.key u.index slot hslot) hsealed
  have hbefore : Hook.cell settle invoke u.key u.index log = some cell := by
    rw [← h.cells, hslot]
    exact hcell
  refine ⟨h.fill hfills.slot? (hkind ▸ hfills.kind) ?_ ?_ ⟨c, List.mem_append_left _ hc, hkey⟩
    (fun _ hd => nomatch hd) ?_ ?_ hfills.rendered ?_ ?_, fun key index hki => by rw [hfills.slot?, if_neg hki]⟩
  · rw [hfills.cell?, cell_snoc, hbefore]
    simp [Event.apply]
  · intro key index cell? hki
    exact if_neg hki
  · rw [hfills.frame, h.cursor]
    simp [Hook.cursor]
  · simp [Hook.drawn]
  · intro key count hat i hi
    exact .inr (h.filled key count (hfills.frame ▸ hat) i hi)
  · rw [hfills.dirty, h.dirty, dirtied_snoc, ← hbefore]
    simp

/-- A move of the surface that leaves the pass and the body as they are. -/
theorem aside (h : Refines invoke plan log s) (hslots : ∀ key index, t.slot? key index = s.slot? key index)
    (he : e = .finishPass ∨ e = .takeEffects ∨ (∃ key index, e = .takeCleanup key index) ∨
      ∃ key index v, e = .setCleanup key index v)
    (hframe : t.frame = s.frame) (hrendered : t.rendered = s.rendered) (hdirty : t.dirty = s.dirty) :
    Refines invoke plan (log ++ [e]) t := by
  have hcursor : Hook.cursor (log ++ [e]) = Hook.cursor log := by
    obtain rfl | rfl | ⟨_, _, rfl⟩ | ⟨_, _, _, rfl⟩ := he <;> simp [Hook.cursor]
  have hdrawn : Hook.drawn (log ++ [e]) = Hook.drawn log := by
    obtain rfl | rfl | ⟨_, _, rfl⟩ | ⟨_, _, _, rfl⟩ := he <;> simp [Hook.drawn]
  refine h.quiet hslots (by rintro c rfl; simp at he) (by rintro u rfl; simp at he) ?_ ?_ ?_ ?_
  · rw [hframe, hcursor, h.cursor]
  · rw [hdrawn, hrendered]
    exact h.drawn
  · intro key count hat i hi
    rw [hslots]
    exact h.filled key count (hframe ▸ hat) i hi
  · have hno : e ≠ .beginPass := by
      rintro rfl
      simp at he
    rw [hdirty, and_iff_right hno]

theorem beginPass (h : Refines invoke plan log s) : Refines invoke plan (log ++ [.beginPass]) s.beginPass := by
  refine h.quiet (fun _ _ => rfl) (fun _ h => nomatch h) (fun _ h => nomatch h) ?_ ?_ (fun _ _ h => nomatch h) ?_
  · simp [Hook.cursor, Store.beginPass]
  · simp [Hook.drawn]
  · simp [Store.beginPass]

/-- A body that starts has made no hook call yet. -/
theorem enter (h : Refines invoke plan log s) (key : Key) :
    Refines invoke plan (log ++ [.enter key]) (s.enter key) := by
  refine h.quiet (fun _ _ => rfl) (fun _ h => nomatch h) (fun _ h => nomatch h) ?_ ?_ ?_ ?_
  · simp [Hook.cursor, Store.enter]
  · intro k hk
    have hmem : k = key ∨ k ∈ Hook.drawn log := by simpa [Hook.drawn] using hk
    have hrendered : k = key ∨ k ∈ s.rendered := hmem.imp_right (h.drawn k)
    unfold Store.enter
    by_cases hin : s.rendered.contains key
    · rw [if_pos hin]
      rcases hrendered with rfl | hk
      · exact List.contains_iff_mem.1 hin
      · exact hk
    · rw [if_neg hin]
      exact List.mem_cons.2 hrendered
  · intro k count hat i hi
    cases hat
    exact absurd hi (Nat.not_lt_zero i)
  · simp [Store.enter]

theorem exit (h : Refines invoke plan log s) : Refines invoke plan (log ++ [.exit]) s.exit := by
  refine h.quiet (fun _ _ => rfl) (fun _ h => nomatch h) (fun _ h => nomatch h) ?_ ?_ (fun _ _ h => nomatch h) ?_
  · simp [Hook.cursor, Store.exit]
  · intro key hkey
    exact h.drawn key (by simpa [Hook.drawn] using hkey)
  · simp [Store.exit]

/-- A pass that has rendered every instance forgets none of them. -/
theorem finishPass (h : Refines invoke plan log s) (ha : Allowed invoke plan log .finishPass) :
    Refines invoke plan (log ++ [.finishPass]) s.finishPass.2 := by
  refine h.aside ?_ (.inl rfl) rfl rfl rfl
  intro key index
  rw [Store.slot?_finishPass]
  cases hslot : s.slot? key index with
  | none => simp
  | some slot =>
    obtain ⟨c, hc, rfl⟩ := h.called key index slot hslot
    exact if_pos (List.contains_iff_mem.2 (h.drawn c.key (ha c hc)))

/-- **Each event of a run leads from a store that refines the cells to one that does.** -/
theorem step (h : Refines invoke plan log s) (ha : Allowed invoke plan log e) (hp : Plays invoke s e t) :
    Refines invoke plan (log ++ [e]) t := by
  cases hp with
  | beginPass => exact h.beginPass
  | enter key => exact h.enter key
  | exit => exact h.exit
  | finishPass => exact h.finishPass ha
  | takeEffects => exact h.aside (fun _ _ => rfl) (.inr (.inl rfl)) rfl rfl rfl
  | takeCleanup key index => exact h.aside (fun _ _ => rfl) (.inr (.inr (.inl ⟨key, index, rfl⟩))) rfl rfl rfl
  | setCleanup key index v => exact h.aside (fun _ _ => rfl) (.inr (.inr (.inr ⟨key, index, v, rfl⟩))) rfl rfl rfl
  | call c hm hr => exact (h.call ha hm hr).1
  | update u hm => exact (h.update ha hm).1

end Refines

theorem Runs.refines (h : Runs invoke plan log s) : Refines invoke plan log s := by
  induction h with
  | nil => exact .nil
  | snoc _ ha hp ih => exact ih.step ha hp

/-- Before any event of a run stands a run that leads to it. -/
theorem Runs.at {before after : List Event} (h : Runs invoke plan log s) (hlog : log = before ++ e :: after) :
    ∃ s t, Runs invoke plan before s ∧ Allowed invoke plan before e ∧ Plays invoke s e t := by
  induction h generalizing after with
  | nil => exact nomatch (List.append_eq_nil_iff.1 hlog.symm).2
  | @snoc log s last t h ha hp ih =>
    obtain rfl | ⟨rest, final, rfl⟩ := List.eq_nil_or_concat after
    · obtain ⟨rfl, he⟩ := List.append_inj' hlog rfl
      obtain ⟨rfl, -⟩ := List.cons.inj he
      exact ⟨s, t, h, ha, hp⟩
    · rw [List.concat_eq_append, ← List.cons_append, ← List.append_assoc] at hlog
      obtain ⟨hlog, -⟩ := List.append_inj' hlog rfl
      exact ih hlog

/-- **The hook store is one cell for each hook call.** -/
theorem store_refines_cells (h : Runs invoke plan log s) :
    (∀ key index, (s.slot? key index).bind Slot.cell? = cell settle invoke key index log) ∧
      (∀ before c after, log = before ++ .call c :: after →
        c.Gives (cell settle invoke c.key c.index (before ++ [.call c]))) ∧
      (∀ c d, .call c ∈ log → .call d ∈ log → c.key = d.key → c.index = d.index → c.hook = .ref →
        c.given = d.given) ∧
      (∀ before u after, log = before ++ .update u :: after → ∀ key index, ¬ (key = u.key ∧ index = u.index) →
        (u.after invoke).slot? key index = u.machine.hooks.slot? key index) ∧
      (s.dirty = true ↔ Dirtied invoke log) := by
  have hgives (before : List Event) (c : Call) (after : List Event) (hlog : log = before ++ .call c :: after) :
      c.Gives (cell settle invoke c.key c.index (before ++ [.call c])) := by
    obtain ⟨s', t, hbefore, ha, hp⟩ := h.at hlog
    cases hp with
    | call c hm hr => exact (hbefore.refines.call ha hm hr).2
  have href (c : Call) (hc : .call c ∈ log) (hhook : c.hook = .ref) :
      ∃ t, cell settle invoke c.key c.index log = some (.ref t) ∧ c.given = [t] := by
    obtain ⟨before, after, hlog⟩ := List.append_of_mem hc
    have hg := hgives before c after hlog
    rw [Call.Gives, hhook] at hg
    obtain ⟨t, hcell, hgiven⟩ := hg
    refine ⟨t, ?_, hgiven⟩
    rw [hlog, List.append_cons]
    exact cell_ref settle after hcell
  refine ⟨h.refines.cells, hgives, ?_, ?_, h.refines.dirty⟩
  · intro c d hc hd hkey hindex hhook
    have hsame : c.hook = d.hook := by
      rw [(h.refines.made c hc).1, (h.refines.made d hd).1, hkey, hindex]
    obtain ⟨t, hcell, hgiven⟩ := href c hc hhook
    obtain ⟨t', hcell', hgiven'⟩ := href d hd (hsame ▸ hhook)
    rw [hkey, hindex, hcell'] at hcell
    cases hcell
    rw [hgiven, hgiven']
  · intro before u after hlog key index hki
    obtain ⟨s', t, hbefore, ha, hp⟩ := h.at hlog
    cases hp with
    | update u hm => exact hm ▸ (hbefore.refines.update ha hm).2 key index hki

/-! ### A tally -/

/-- A machine with one function, `math.max`. -/
def tallyMachine (s : Store Value) : Machine := { funcs := #[.builtin .max], hooks := s }

/-- The first hook call of an instance in its first pass. -/
def tallyCall (hook : HookCall) (args : List Value) : Call :=
  let m := tallyMachine ((Store.beginPass {}).enter "Tally")
  { key := "Tally", index := 0, hook := hook, trail := [], args := args, machine := m
    given := (value? (Hook.call Script.invoke [] args hook) m).getD []
    last := Run.last (Hook.call Script.invoke [] args hook) m }

/-- A call of the function that this hook call has given, when the pass is finished. -/
def tallyUpdate (handle : Handle) (args : List Value) (c : Call) : Update where
  key := "Tally"
  index := 0
  handle := handle
  trail := []
  args := args
  machine := tallyMachine c.last.hooks.exit.finishPass.2

/-- A pass with one hook call, and an update after it. -/
def tallyLog (c : Call) (u : Update) : List Event :=
  [.beginPass, .enter "Tally", .call c, .exit, .finishPass, .update u]

theorem runs_tally (handle : Handle) (args next : List Value) {c : Call} {u : Update}
    (hc : c = tallyCall handle.hook args) (hu : u = tallyUpdate handle next c)
    (hr : Hook.call Script.invoke c.trail c.args c.hook c.machine = .ok c.given c.last)
    (hsealed : Hook.call (sealed Script.invoke) c.trail c.args c.hook c.machine =
      Hook.call Script.invoke c.trail c.args c.hook c.machine)
    (hsealed' : u.run (sealed Script.invoke) u.machine = u.run Script.invoke u.machine) :
    Runs Script.invoke (fun _ _ => handle.hook) (tallyLog c u) (u.after Script.invoke) := by
  subst hc hu
  have h₀ : Runs Script.invoke (fun _ _ => handle.hook) [] {} := .nil
  have h₁ := h₀.snoc (e := .beginPass) trivial .beginPass
  have h₂ := h₁.snoc (e := .enter "Tally") trivial (.enter "Tally")
  have h₃ := h₂.snoc (e := .call (tallyCall handle.hook args)) ⟨rfl, rfl, hsealed⟩ (.call _ rfl hr)
  have h₄ := h₃.snoc (e := .exit) trivial .exit
  have h₅ := h₄.snoc (e := .finishPass) (by simp [Allowed, drawn, tallyCall]) .finishPass
  exact h₅.snoc (e := .update (tallyUpdate handle next (tallyCall handle.hook args)))
    ⟨⟨tallyCall handle.hook args, by simp, rfl, rfl, rfl⟩, hsealed'⟩ (.update _ rfl)

/-- A bid of three. -/
def bid : Call := tallyCall .reducer [.func 0, .num 3]

/-- A bid of five, where the highest is kept. -/
def raised : Update := tallyUpdate .dispatcher [.num 5] bid

/-- The highest bid is five in the end. -/
theorem store_refines_cells_bid :
    Runs Script.invoke (fun _ _ => .reducer) (tallyLog bid raised) (raised.after Script.invoke) ∧
      ((raised.after Script.invoke).slot? "Tally" 0).bind Slot.cell? = some (.reducer (.num 5) (.func 0)) := by
  have hrun : Runs Script.invoke (fun _ _ => .reducer) (tallyLog bid raised) (raised.after Script.invoke) :=
    runs_tally .dispatcher [.func 0, .num 3] [.num 5] rfl rfl rfl rfl rfl
  refine ⟨hrun, ?_⟩
  rw [(store_refines_cells hrun).1 "Tally" 0]
  rfl

/-- A state of zero. -/
def zero : Call := tallyCall .state [.num 0]

/-- Zero with the other sign. -/
def negated : Update := tallyUpdate .setter [.num (-0.0)] zero

theorem zero_ne_negated : (Value.num 0) ≠ .num (-0.0) := by
  intro h
  injection h with h
  have hlt : (1 / (0 : Float) < 0) ↔ (1 / (-0.0 : Float) < 0) := by rw [← h]
  revert hlt
  decide +kernel

/-- An update to an equal value is dropped: the cell would hold `-0` if every update counted, and the store keeps the
zero that it has. -/
theorem equal_value_dropped :
    Runs Script.invoke (fun _ _ => .state) (tallyLog zero negated) (negated.after Script.invoke) ∧
      ((negated.after Script.invoke).slot? "Tally" 0).bind Slot.cell? ≠
        cell (fun _ next => next) Script.invoke "Tally" 0 (tallyLog zero negated) := by
  have hrun : Runs Script.invoke (fun _ _ => .state) (tallyLog zero negated) (negated.after Script.invoke) :=
    runs_tally .setter [.num 0] [.num (-0.0)] rfl rfl rfl rfl rfl
  have hkept : ((negated.after Script.invoke).slot? "Tally" 0).bind Slot.cell? = some (.state (.num 0)) := rfl
  have hlast : cell (fun _ next => next) Script.invoke "Tally" 0 (tallyLog zero negated) =
      some (.state (.num (-0.0))) := rfl
  refine ⟨hrun, ?_⟩
  rw [hkept, hlast]
  intro h
  injection h with h
  injection h with h
  exact zero_ne_negated h

end LivePreview.Hook
