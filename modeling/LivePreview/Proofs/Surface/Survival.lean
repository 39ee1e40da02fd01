import LivePreview.Proofs.Hook.Cells
import LivePreview.Proofs.Surface.Removal

/-! **What survives from one pass to another.**

Every pass is finished, also one that is discarded, and then forgets the instances that it has not rendered. As long as
an instance is rendered in each pass that is finished, its states change by its own updates alone and its effects run
again only when it has passed other dependencies itself (`Spared`), whatever else these passes do. As soon as one of
them leaves it out everything is gone, and it starts anew (`Gone`). -/
namespace LivePreview.Surface
open Script Hook
variable {invoke : Invoke} {start s t : Store Value} {log rest : List Moment} {d : Deed} {key : Key} {index : Nat}
  {hook : HookCall} {v : Value} {slot kept : Hook.Slot Value}

/-! ### Values of a hook call -/

/-- A state, reducer or ref hook holds the value in this slot. -/
def Holds (hook : HookCall) (v : Value) : Hook.Slot Value → Prop
  | .state w => hook = .state ∧ w = v
  | .reducer w _ => hook = .reducer ∧ w = v
  | .ref w => hook = .ref ∧ w = v
  | _ => False

/-- The value that a hook call holds after a deed: updates for it set states and reducers. -/
def revalue (hook : HookCall) (key : Key) (index : Nat) (v : Value) : Deed → Value
  | .update k i next => if (k = key ∧ i = index) ∧ hook ≠ .ref then settle v next else v
  | _ => v

/-- The value that a hook call holds after what is in a log. -/
def worth (hook : HookCall) (key : Key) (index : Nat) (v : Value) (rest : List Moment) : Value :=
  rest.foldl (fun v e => revalue hook key index v e.2) v

/-- The instance is forgotten nowhere on the way. -/
def Stays (key : Key) (rest : List Moment) : Prop := ∀ e ∈ rest, ¬ Drops key e.1 e.2

/-- Whenever the hook call is made on the way, it is of this hook. -/
def Only (hook : HookCall) (key : Key) (index : Nat) (rest : List Moment) : Prop :=
  ∀ u other, (u, .call other) ∈ rest → u.frame = some (key, index) → other = hook

/-- Whenever the hook call of an effect is made on the way, its dependencies agree with those that are kept. -/
def Unchanged (key : Key) (index : Nat) (rest : List Moment) : Prop :=
  ∀ u deps callback, (u, .effect key index deps callback) ∉ rest

theorem slot?_keep_of_some (h : s.slot? key index = some slot) (k : Key) (i : Nat) (kept : Hook.Slot Value) :
    (s.keep k i kept).slot? key index = if k = key ∧ i = index then some kept else some slot := by
  have hlt := Store.length_of_slot? h
  unfold Store.slot? at h ⊢
  rw [Store.slotsOf_keep]
  by_cases hk : k = key
  · subst hk
    rw [beq_self_eq_true, if_pos rfl]
    by_cases hi : i < (s.slotsOf k).length
    · rw [if_pos hi, List.getElem?_set, h]
      by_cases he : i = index
      · subst he
        simp [hi]
      · simp [he]
    · have he : i ≠ index := fun he => hi (he ▸ hlt)
      rw [if_neg hi, List.getElem?_append_left hlt, h]
      simp [he]
  · have hn : (key == k) = false := beq_false_of_ne (Ne.symm hk)
    rw [hn, if_neg Bool.false_ne_true, h]
    simp [hk]

theorem Holds.put (h : Holds hook v slot) (next : Value) :
    Holds hook (if hook ≠ .ref then settle v next else v) (slot.put Value.equals next) := by
  cases slot with
  | state w =>
    obtain ⟨rfl, rfl⟩ := h
    cases hs : w.equals next <;> simp [Holds, Slot.put, settle, hs]
  | reducer w rule =>
    obtain ⟨rfl, rfl⟩ := h
    cases hs : w.equals next <;> simp [Holds, Slot.put, settle, hs]
  | ref w =>
    obtain ⟨rfl, rfl⟩ := h
    exact ⟨rfl, rfl⟩
  | memo | effect => exact h.elim

/-- A hook call keeps the value that it has found. -/
theorem Holds.suits {found : Hook.Slot Value} {w : Value} (hf : Holds hook w found) (h : Holds hook v slot)
    (hs : Suits hook (some found) (some slot) kept) : Holds hook v kept := by
  cases kept with
  | state value =>
    obtain ⟨rfl, hn⟩ := hs
    cases found with
    | state w => exact absurd rfl (hn w)
    | reducer | ref => cases hf.1
    | memo | effect => exact hf.elim
  | reducer value rule =>
    obtain ⟨rfl, hn⟩ := hs
    refine ⟨rfl, ?_⟩
    rcases hn with hn | ⟨rule, hr⟩
    · cases found with
      | reducer w rule => exact absurd rfl (hn w rule)
      | state | ref => cases hf.1
      | memo | effect => exact hf.elim
    · cases hr
      exact h.2
  | ref cell =>
    obtain ⟨rfl, hn⟩ := hs
    cases found with
    | ref w => exact absurd rfl (hn w)
    | state | reducer => cases hf.1
    | memo | effect => exact hf.elim
  | memo =>
    cases slot with
    | state | reducer | ref =>
      obtain ⟨rfl, -⟩ := h
      rcases hs with hs | hs <;> cases hs
    | memo | effect => exact h.elim
  | effect => exact hs.elim

/-- One deed that does not forget the instance, nor keeps another value for the hook call. -/
theorem Holds.apply (h : Holds hook v slot) (hv : s.slot? key index = some slot) (hd : ¬ Drops key s d)
    (hk : ∀ kept, d = .keep key index kept → Holds hook v kept)
    (he : ∀ deps callback, d ≠ .effect key index deps callback) :
    ∃ slot, (d.apply s).slot? key index = some slot ∧ Holds hook (revalue hook key index v d) slot := by
  cases d with
  | call other => exact ⟨slot, (s.slot?_counted key index).trans hv, h⟩
  | keep k i kept =>
    refine ⟨_, slot?_keep_of_some hv k i kept |>.trans (apply_ite some _ kept slot).symm, ?_⟩
    split
    · rename_i hki
      exact hk kept (by rw [hki.1, hki.2])
    · exact h
  | effect k i deps callback =>
    have hn : ¬ (k = key ∧ i = index) := fun hki => he deps callback (by rw [hki.1, hki.2])
    exact ⟨slot, (slot?_keep_of_some hv k i _).trans (if_neg hn), h⟩
  | update k i next =>
    refine ⟨if key = k ∧ index = i then slot.put Value.equals next else slot, ?_, ?_⟩
    · rw [Deed.apply, Store.slot?_update, hv]
      split <;> rfl
    · by_cases hki : key = k ∧ index = i
      · obtain ⟨rfl, rfl⟩ := hki
        have hp := h.put next
        by_cases hr : hook = .ref <;> simpa [revalue, hr] using hp
      · have hn : ¬ (k = key ∧ i = index) := fun h => hki ⟨h.1.symm, h.2.symm⟩
        rw [if_neg hki]
        simpa [revalue, hn] using h
  | finishPass =>
    have hr : s.rendered.contains key = true := by
      rw [List.contains_iff_mem]
      exact not_not.1 hd
    refine ⟨slot, ?_, h⟩
    rw [Deed.apply, Store.slot?_finishPass, hr, if_pos rfl, hv]
  | reset => exact absurd trivial hd
  | enter | exit | beginPass | takeEffects | takeCleanup | setCleanup | endEffects => exact ⟨slot, hv, h⟩

/-! ### Calls since a moment at which no body of the instance runs -/

section Since
variable (hs : Life start log s) (hn : ∀ count, s.frame ≠ some (key, count))
include hs hn

theorem kept_since (hf : Fits (log ++ rest) t (.keep key index kept)) : ∃ u other, (u, .call other) ∈ rest ∧
    u.frame = some (key, index) ∧ Suits other (u.slot? key index) (t.slot? key index) kept := by
  obtain ⟨before, u, other, after, he, hu, hr, hsuits⟩ := hf
  rcases append_eq_cons he with ⟨mid, rfl, rfl⟩ | ⟨mid, -, rfl⟩
  · obtain ⟨count, hc, -⟩ := hs.isCalling hu fun e he => hr e (List.mem_append_left _ he)
    exact absurd hc (hn count)
  · exact ⟨u, other, by simp, hu, hsuits⟩

theorem queued_since {deps : Option (List Value)} {callback : Value}
    (hf : Fits (log ++ rest) t (.effect key index deps callback)) : ∃ u, (u, .call .effect) ∈ rest ∧
      u.frame = some (key, index) ∧ EffectCall.agrees (u.slot? key index) deps = false := by
  obtain ⟨before, u, he, hu, ha⟩ := hf
  rcases append_eq_cons he with ⟨mid, rfl, hm⟩ | ⟨mid, -, rfl⟩
  · obtain ⟨rfl, rfl⟩ := List.append_eq_nil_iff.1 hm.symm
    obtain ⟨count, hc, -⟩ := hs.isCalling hu fun _ he => by cases he
    exact absurd hc (hn count)
  · exact ⟨u, by simp, hu, ha⟩

/-- **As long as an instance stays, its hooks hold what its own updates have made of their values.** -/
theorem holds_since (ht : Life start (log ++ rest) t) (hr : Stays key rest) (ho : Only hook key index rest)
    (hv : s.slot? key index = some slot) (hh : Holds hook v slot) :
    (∃ slot, t.slot? key index = some slot ∧ Holds hook (worth hook key index v rest) slot) ∧
      ∀ e ∈ rest, ∃ slot w, e.1.slot? key index = some slot ∧ Holds hook w slot := by
  induction rest using List.reverseRecOn generalizing t with
  | nil =>
    rw [List.append_nil] at ht
    obtain rfl := hs.unique ht
    exact ⟨⟨slot, hv, hh⟩, fun _ he => by cases he⟩
  | append_singleton rest e ih =>
    rw [← List.append_assoc] at ht
    obtain ⟨hl, hf, he⟩ := ht.last
    obtain ⟨⟨now, hnow, hw⟩, hbefore⟩ := ih hl (fun d hd => hr d (List.mem_append_left _ hd))
      fun u other hu => ho u other (List.mem_append_left _ hu)
    obtain ⟨u, d⟩ := e
    refine ⟨?_, fun e he => ?_⟩
    · rw [he, worth, List.foldl_append]
      refine hw.apply hnow (hr (u, d) (by simp)) ?_ ?_
      · rintro kept rfl
        obtain ⟨w, other, hm, hc, hsuits⟩ := kept_since hs hn hf
        obtain rfl := ho w other (List.mem_append_left _ hm) hc
        obtain ⟨found, x, hfound, hx⟩ := hbefore _ hm
        rw [hfound, hnow] at hsuits
        exact hx.suits hw hsuits
      · rintro deps callback rfl
        obtain ⟨w, hm, hc, -⟩ := queued_since hs hn hf
        obtain rfl := ho w _ (List.mem_append_left _ hm) hc
        cases now <;> first | cases hw.1 | exact hw.elim
    · rcases List.mem_append.1 he with he | he
      · exact hbefore e he
      · rw [List.mem_singleton.1 he]
        exact ⟨now, _, hnow, hw⟩

end Since
/-! ### Effects -/

/-- An effect belongs to the hook call. -/
def IsFor (key : Key) (index : Nat) (e : Effect Value) : Prop := e.key = key ∧ e.index = index

theorem lookup_cleanups (hd : ¬ Drops key s d) (ht : d ≠ .takeCleanup key index)
    (hk : ∀ cleanup, d ≠ .setCleanup key index cleanup) :
    (d.apply s).cleanups.lookup (key, index) = s.cleanups.lookup (key, index) := by
  cases d with
  | call other =>
    unfold Deed.apply Store.counted
    dsimp only
    split <;> rfl
  | update k i next => rw [Deed.apply, (Store.Act.update k i next).cleanups]
  | finishPass =>
    have hr : s.rendered.contains key = true := by
      rw [List.contains_iff_mem]
      exact not_not.1 hd
    exact (Assoc.lookup_filter (fun c : Key × Nat => s.rendered.contains c.1) _ s.cleanups).trans (if_pos hr)
  | takeCleanup k i =>
    refine (Assoc.lookup_filter (fun c : Key × Nat => !(c == (k, i))) _ s.cleanups).trans (if_pos ?_)
    rw [Bool.not_eq_true', beq_eq_false_iff_ne]
    rintro ⟨⟩
    exact ht rfl
  | setCleanup k i cleanup =>
    have hn : ((key, index) == (k, i)) = false := by
      rw [beq_eq_false_iff_ne]
      rintro ⟨⟩
      exact hk cleanup rfl
    exact (Assoc.lookup_insert (k, i) cleanup s.cleanups (key, index)).trans (by rw [hn]; rfl)
  | reset => exact absurd trivial hd
  | keep | effect | enter | exit | beginPass | takeEffects | endEffects => rfl

theorem pending_apply {e : Effect Value} (hq : ∀ deps callback, d ≠ .effect key index deps callback)
    (he : e ∈ (d.apply s).pending) (hk : IsFor key index e) : e ∈ s.pending := by
  cases d with
  | call other => rwa [Deed.apply, Store.pending_counted] at he
  | effect k i deps callback =>
    rcases mem_queue he with rfl | ⟨hm, -⟩
    · exact absurd rfl (hk.1 ▸ hk.2 ▸ hq deps callback)
    · exact hm
  | update k i next => rwa [Deed.apply, Store.update_pending] at he
  | finishPass => exact (List.mem_filter.1 he).1
  | takeEffects | reset => cases he
  | keep | enter | exit | beginPass | takeCleanup | setCleanup | endEffects => exact he

/-- **As long as an instance stays and its dependencies do, its effect does not run again**, and its cleanup is kept. -/
theorem effects_since (hs : Life start log s) (hu : ¬ Underway log key index)
    (hp : ∀ e ∈ s.pending, ¬ IsFor key index e) (hr : Stays key rest) (hq : Unchanged key index rest)
    (ht : Life start (log ++ rest) t) :
    t.cleanups.lookup (key, index) = s.cleanups.lookup (key, index) ∧ (∀ u, (u, .takeCleanup key index) ∉ rest) ∧
      (∀ e ∈ t.pending, ¬ IsFor key index e) ∧ ∀ d ∈ rest, ∀ e ∈ d.1.pending, ¬ IsFor key index e := by
  induction rest using List.reverseRecOn generalizing t with
  | nil =>
    rw [List.append_nil] at ht
    obtain rfl := hs.unique ht
    exact ⟨rfl, (fun _ he => by cases he), hp, fun _ he => by cases he⟩
  | append_singleton rest e ih =>
    rw [← List.append_assoc] at ht
    obtain ⟨hl, hf, he⟩ := ht.last
    obtain ⟨hc, htake, hnow, hbefore⟩ := ih (fun d hd => hr d (List.mem_append_left _ hd))
      (fun u deps callback hd => hq u deps callback (List.mem_append_left _ hd)) hl
    obtain ⟨u, d⟩ := e
    have hn : ¬ Underway (log ++ rest) key index := by
      intro hm
      rcases hm.of_append with hm | ⟨w, hw, e, he, hk⟩
      · exact hu hm
      · exact hbefore _ hw e he hk
    have hd : ∀ deps callback, d ≠ .effect key index deps callback := by
      rintro deps callback rfl
      exact hq u deps callback (by simp)
    refine ⟨?_, fun w hw => ?_, fun e hm hk => ?_, fun d hm => ?_⟩
    · rw [he, ← hc]
      refine lookup_cleanups (hr (u, d) (by simp)) ?_ ?_
      · rintro rfl
        exact hn hf
      · rintro cleanup rfl
        exact hn hf
    · rcases List.mem_append.1 hw with hw | hw
      · exact htake w hw
      · cases List.mem_singleton.1 hw
        exact hn hf
    · exact hnow e (pending_apply hd (he ▸ hm) hk) hk
    · rcases List.mem_append.1 hm with hm | hm
      · exact hbefore d hm
      · exact List.mem_singleton.1 hm ▸ hnow

/-! ### Passes that are discarded -/

/-- What is left of an instance at a later moment when it has been forgotten nowhere on the way. Its hooks hold the
values that they held before, with their own updates. An effect of which no call has passed other dependencies has
not run again, and its cleanup is kept. -/
structure Spared (key : Key) (s : Store Value) (rest : List Moment) (t : Store Value) : Prop where
  holds : ∀ hook index v slot, s.slot? key index = some slot → Holds hook v slot → Only hook key index rest →
    ∃ slot, t.slot? key index = some slot ∧ Holds hook (worth hook key index v rest) slot
  effects : ∀ index, (∀ e ∈ s.pending, ¬ IsFor key index e) → Unchanged key index rest →
    t.cleanups.lookup (key, index) = s.cleanups.lookup (key, index) ∧ ∀ u, (u, .takeCleanup key index) ∉ rest
  queued : ∀ u index deps callback, (u, .effect key index deps callback) ∈ rest → ∃ w, (w, .call .effect) ∈ rest ∧
    w.frame = some (key, index) ∧ EffectCall.agrees (w.slot? key index) deps = false

/-- Nothing is left of an instance. -/
structure Gone (key : Key) (s : Store Value) : Prop where
  slots : ∀ index, s.slot? key index = none
  cleanups : ∀ c ∈ s.cleanups, c.1.1 ≠ key
  pending : ∀ e ∈ s.pending, e.key ≠ key

theorem spared (hs : Life start log s) (hc : Calm log s) (ht : Life start (log ++ rest) t) (hr : Stays key rest) :
    Spared key s rest t where
  holds hook index v slot hv hh ho :=
    (holds_since hs (fun _ hf => by cases hc.1.symm.trans hf) ht hr ho hv hh).1
  effects index hp hq := by
    obtain ⟨hl, htake, -⟩ := effects_since hs (hc.2 key index) hp hr hq ht
    exact ⟨hl, htake⟩
  queued u index deps callback hm := by
    obtain ⟨before, after, rfl⟩ := List.append_of_mem hm
    rw [← List.append_assoc] at ht
    obtain ⟨w, hw, hf, ha⟩ := queued_since hs (fun _ hf => by cases hc.1.symm.trans hf) ht.before.2
    exact ⟨w, List.mem_append_left _ hw, hf, ha⟩

theorem gone (hd : Drops key s d) : Gone key (d.apply s) where
  slots := slot?_of_drops hd
  cleanups c hc hk := by
    cases d with
    | finishPass =>
      subst hk
      exact hd (List.contains_iff_mem.1 (List.mem_filter.1 hc).2)
    | reset => cases hc
    | _ => exact hd.elim
  pending e he hk := by
    cases d with
    | finishPass =>
      subst hk
      exact hd (List.contains_iff_mem.1 (List.mem_filter.1 he).2)
    | reset => cases he
    | _ => exact hd.elim

/-- After output has come no effect is pending. -/
theorem pending_of_rendered (hi : Scripted invoke) (limit : Nat) (order : Order) (ops : List Op)
    (h : isRendered (ops.foldl (act invoke) (fresh limit order)) = true) :
    (store (ops.foldl (act invoke) (fresh limit order))).pending = [] := by
  have hw : ((Watched.fresh limit order).run invoke ops).surface = ops.foldl (act invoke) (fresh limit order) :=
    surface_run _ ops
  obtain ⟨nodes, hn⟩ := exists_of_isRendered h
  obtain ⟨mounted, before, after, hs⟩ := (sound_run hi limit order ops).rendered nodes (hw ▸ hn)
  rw [← hw, store_some hs.mounts]
  exact hs.settled

/-- **What passes do, discarded or not, an instance survives unharmed just when each of them has rendered it**: from
the end of a run to each moment of a longer one. -/
theorem discarded_passes_spare (hi : Recorded invoke) (limit : Nat) (order : Order) (ops more : List Op) :
    ∃ log rest, Logged invoke limit order ops log ∧ Logged invoke limit order (ops ++ more) (log ++ rest) ∧
      (isRendered (ops.foldl (act invoke) (fresh limit order)) = true →
        (store (ops.foldl (act invoke) (fresh limit order))).pending = []) ∧
      ∀ part tail t, rest = part ++ tail → Life {} (log ++ part) t → ∀ key,
        (Stays key part → Spared key (store (ops.foldl (act invoke) (fresh limit order))) part t) ∧
        ∀ before u d after, part = before ++ (u, d) :: after → Drops key u d → Gone key (d.apply u) := by
  obtain ⟨log, hl⟩ := (Logged.nil : Logged invoke limit order [] []).exists_append hi ops
  obtain ⟨rest, hr⟩ := hl.exists_append hi more
  refine ⟨log, rest, hl, hr, pending_of_rendered hi.scripted limit order ops, fun part tail t _ ht key =>
    ⟨fun hk => spared hl.span.1 hl.span.2 ht hk, ?_⟩⟩
  rintro before u d after rfl hd
  exact gone hd

/-- A component that shows its cell once it has seen the last tick. A pass in which it sees a tick is discarded. -/
def waiting : Component :=
  ((Component.attempt { instruments := true } {} ("local h = React.createElement\n" ++
    "function Cell()\n" ++
    "  local word, set = React.useState('old')\n" ++
    "  return h('b', \x7bonClick = function() set('kept') end\x7d, word)\nend\n" ++
    "function Waiting(props)\n" ++
    "  local seen, see = React.useState(props.tick)\n" ++
    "  if seen ~= props.tick then see(props.tick) return 'wait' end\n" ++
    "  return h(Cell)\nend") "Waiting").component?).getD default

/-- The cell is clicked. -/
def clicked : List Op := [.mount waiting (.obj [("tick", .int 1)]), .dispatch 0 .null]

def nextTick : Op := .update (.obj [("tick", .int 2)])

set_option maxRecDepth 100000 in
theorem discarded_passes_spare_waiting : Recorded Script.invoke ∧ ∃ log rest,
    Logged Script.invoke 25 {} clicked log ∧ Logged Script.invoke 25 {} (clicked ++ [nextTick]) (log ++ rest) ∧
      (store (clicked.foldl (act Script.invoke) (fresh 25 {}))).pending = [] ∧
      ∀ key, Stays key rest → Spared key (store (clicked.foldl (act Script.invoke) (fresh 25 {}))) rest
        (store ((clicked ++ [nextTick]).foldl (act Script.invoke) (fresh 25 {}))) := by
  obtain ⟨log, rest, hl, hr, hp, hs⟩ := discarded_passes_spare recorded_invoke 25 {} clicked [nextTick]
  exact ⟨recorded_invoke, log, rest, hl, hr, hp (by decide +kernel), fun key =>
    (hs rest [] _ (List.append_nil rest).symm hr.span.1 key).1⟩

set_option maxRecDepth 100000 in
/-- It is not so that an instance which was rendered in a committed pass and is rendered in the next one still has its
hooks when this one begins. -/
theorem discarded_pass_forgets : ¬ ∀ (ops : List Op) (op : Op) (key : Key) (index : Nat) (start : Machine),
    isRendered (ops.foldl (act Script.invoke) (fresh 25 {})) = true →
    (store (ops.foldl (act Script.invoke) (fresh 25 {}))).rendered.contains key = true →
    ((store (ops.foldl (act Script.invoke) (fresh 25 {}))).slot? key index).isSome = true →
    isRendered ((ops ++ [op]).foldl (act Script.invoke) (fresh 25 {})) = true →
    (store ((ops ++ [op]).foldl (act Script.invoke) (fresh 25 {}))).rendered.contains key = true →
    (Beat.passes (beats Script.invoke (ops.foldl (act Script.invoke) (fresh 25 {})) op)).getLast? = some start →
      (start.hooks.slot? key index).isSome = true := by
  intro hall
  have h : isRendered (clicked.foldl (act Script.invoke) (fresh 25 {})) = true ∧
      (store (clicked.foldl (act Script.invoke) (fresh 25 {}))).rendered.contains cellKey = true ∧
      ((store (clicked.foldl (act Script.invoke) (fresh 25 {}))).slot? cellKey 0).isSome = true ∧
      isRendered ((clicked ++ [nextTick]).foldl (act Script.invoke) (fresh 25 {})) = true ∧
      (store ((clicked ++ [nextTick]).foldl (act Script.invoke) (fresh 25 {}))).rendered.contains cellKey = true ∧
      (Beat.passes (beats Script.invoke (clicked.foldl (act Script.invoke) (fresh 25 {})) nextTick)).getLast?.map
        (fun start => (start.hooks.slot? cellKey 0).isSome) = some false := by
    decide +kernel
  obtain ⟨h₁, h₂, h₃, h₄, h₅, h₆⟩ := h
  obtain ⟨start, hs, hn⟩ := Option.map_eq_some_iff.1 h₆
  rw [hall clicked nextTick cellKey 0 start h₁ h₂ h₃ h₄ h₅ hs] at hn
  cases hn

end LivePreview.Surface
