import LivePreview.Hook.Store
import LivePreview.Proofs.Assoc
import Mathlib.Logic.Relation

/-! What happens to a store, one change at a time.

A script reaches its store by hook calls and by setters and dispatchers alone. Its changes are acts, and they leave
the cleanups, the instances of the pass and the instance whose body runs as they are. The surface makes the other
moves of a pass. Each change carries a flag for whether it gave a state a new value, and the flags of a path are
what `dirty` counts. -/
namespace LivePreview.Hook.Store
variable {V : Type}

/-- Whether an update gives the hook another value than the one it has. -/
def changes (same : V → V → Bool) (s : Store V) (key : Key) (index : Nat) (next : V) : Bool :=
  match s.slot? key index with
  | some (.state value) => !same value next
  | some (.reducer value _) => !same value next
  | _ => false

/-- A body runs, and the hook call with this key and number is one that it has made. -/
def IsCalling (s : Store V) (key : Key) (index : Nat) : Prop := ∃ count, s.frame = some (key, count) ∧ index < count

/-- One change by a script: a hook call is counted, a hook call that was counted keeps a slot or queues an effect,
or a setter or dispatcher updates a slot. -/
inductive Act (same : V → V → Bool) : Bool → Store V → Store V → Prop
  | next {s t slot} (h : s.nextSlot? = some (slot, t)) : Act same false s t
  | keep {s key index} (slot : Slot V) (h : s.IsCalling key index) : Act same false s (s.keep key index slot)
  | queue {s e} (h : s.IsCalling e.key e.index) : Act same false s (s.queue e)
  | update {s} (key index next) : Act same (s.changes same key index next) s (s.update same key index next)

/-- A store that a script can make of another. -/
def Acted (same : V → V → Bool) : Store V → Store V → Prop :=
  Relation.ReflTransGen fun s t => ∃ b, Act same b s t

/-- A property that no act of a script can end. -/
def Closed (same : V → V → Bool) (P : Store V → Prop) : Prop := ∀ b s t, Act same b s t → P s → P t

/-- A store that a render pass can make of another: scripts act, and bodies start and end. -/
inductive Drawn (same : V → V → Bool) (s : Store V) : Store V → Prop
  | refl : Drawn same s s
  | act {b t u} (h : Drawn same s t) (a : Act same b t u) : Drawn same s u
  | enter {t} (h : Drawn same s t) (key : Key) : Drawn same s (t.enter key)
  | exit {t} (h : Drawn same s t) : Drawn same s t.exit

/-- One change within a pass and its effects, by the script or by the surface. -/
inductive Move (same : V → V → Bool) : Bool → Store V → Store V → Prop
  | act {b s t} (h : Act same b s t) : Move same b s t
  | enter (s key) : Move same false s (s.enter key)
  | exit (s) : Move same false s s.exit
  | finishPass (s) : Move same false s s.finishPass.2
  | takeEffects (s) : Move same false s s.takeEffects.2
  | takeCleanup (s key index) : Move same false s (s.takeCleanup key index).2
  | setCleanup (s key index v) : Move same false s (s.setCleanup key index v)

/-- Changes one after another, with their flags. None of them begins a pass or forgets everything. -/
inductive Path (same : V → V → Bool) : List Bool → Store V → Store V → Prop
  | refl (s) : Path same [] s s
  | snoc {bs b s t u} (h : Path same bs s t) (m : Move same b t u) : Path same (bs ++ [b]) s u

variable {same : V → V → Bool} {s t u : Store V} {b : Bool} {bs : List Bool} {key : Key} {index : Nat}

/-! ### What an act leaves alone -/

/-- An update is nothing at all, or it keeps a slot in the place of one there is. -/
theorem update_eq (same : V → V → Bool) (s : Store V) (key : Key) (index : Nat) (next : V) :
    (s.changes same key index next = false ∧ s.update same key index next = s) ∨
      (s.changes same key index next = true ∧ index < (s.slotsOf key).length ∧
        ∃ slot, s.update same key index next = { s.keep key index slot with dirty := true }) := by
  have hb {slot : Slot V} (h : s.slot? key index = some slot) : index < (s.slotsOf key).length :=
    (List.getElem?_eq_some_iff.1 h).1
  unfold changes update
  cases h : s.slot? key index with
  | none => exact .inl ⟨rfl, rfl⟩
  | some slot =>
    cases slot with
    | state value =>
      cases hs : same value next with
      | true => exact .inl ⟨congrArg not hs, if_pos hs⟩
      | false => exact .inr ⟨congrArg not hs, hb h, _, if_neg (ne_true_of_eq_false hs)⟩
    | reducer value reducer =>
      cases hs : same value next with
      | true => exact .inl ⟨congrArg not hs, if_pos hs⟩
      | false => exact .inr ⟨congrArg not hs, hb h, _, if_neg (ne_true_of_eq_false hs)⟩
    | ref _ | memo _ _ | effect _ => exact .inl ⟨rfl, rfl⟩

theorem update_pending (s : Store V) (same : V → V → Bool) (key : Key) (index : Nat) (next : V) :
    (s.update same key index next).pending = s.pending := by
  rcases update_eq same s key index next with ⟨-, hu⟩ | ⟨-, -, slot, hu⟩
  · rw [hu]
  · rw [hu]
    rfl

theorem nextSlot?_eq {slot : Key × Nat} (h : s.nextSlot? = some (slot, t)) :
    s.frame = some slot ∧ t = { s with frame := some (slot.1, slot.2 + 1) } := by
  obtain ⟨⟨key, index⟩, hf, he⟩ := Option.map_eq_some_iff.1 h
  cases he
  exact ⟨hf, rfl⟩

theorem Act.dirty (h : Act same b s t) : t.dirty = (s.dirty || b) := by
  cases h with
  | next h => rw [(nextSlot?_eq h).2, Bool.or_false]
  | keep slot h | queue h => exact (Bool.or_false _).symm
  | update key index next =>
    rcases update_eq same s key index next with ⟨hc, hu⟩ | ⟨hc, -, slot, hu⟩
    · rw [hc, hu, Bool.or_false]
    · rw [hc, hu, Bool.or_true]

theorem Act.cleanups (h : Act same b s t) : t.cleanups = s.cleanups := by
  cases h with
  | next h => rw [(nextSlot?_eq h).2]
  | keep slot h | queue h => rfl
  | update key index next =>
    rcases update_eq same s key index next with ⟨-, hu⟩ | ⟨-, -, slot, hu⟩
    · rw [hu]
    · rw [hu]
      rfl

theorem Act.rendered (h : Act same b s t) : t.rendered = s.rendered := by
  cases h with
  | next h => rw [(nextSlot?_eq h).2]
  | keep slot h | queue h => rfl
  | update key index next =>
    rcases update_eq same s key index next with ⟨-, hu⟩ | ⟨-, -, slot, hu⟩
    · rw [hu]
    · rw [hu]
      rfl

/-- A body that runs goes on, and its calls only grow in number; where none runs, none starts. -/
theorem Act.frame (h : Act same b s t) : t.frame = s.frame ∨
    ∃ key count, s.frame = some (key, count) ∧ t.frame = some (key, count + 1) := by
  cases h with
  | next h =>
    obtain ⟨hf, rfl⟩ := nextSlot?_eq h
    exact .inr ⟨_, _, hf, rfl⟩
  | keep slot h | queue h => exact .inl rfl
  | update key index next =>
    rcases update_eq same s key index next with ⟨-, hu⟩ | ⟨-, -, slot, hu⟩ <;> rw [hu] <;> exact .inl rfl

theorem Act.isCalling (h : Act same b s t) (hs : s.IsCalling key index) : t.IsCalling key index := by
  obtain ⟨count, hf, hi⟩ := hs
  rcases h.frame with ht | ⟨k, n, hs, ht⟩
  · exact ⟨count, ht.trans hf, hi⟩
  · rw [hf] at hs
    cases hs
    exact ⟨count + 1, ht, Nat.lt_succ_of_lt hi⟩

theorem Act.frame_none (h : Act same b s t) (hs : s.frame = none) : t.frame = none := by
  rcases h.frame with ht | ⟨_, _, hf, _⟩
  · exact ht.trans hs
  · exact nomatch hs.symm.trans hf

/-- Outside a body a script can only update. -/
theorem Act.update_of_frame (h : Act same b s t) (hs : s.frame = none) :
    ∃ key index next, t = s.update same key index next := by
  cases h with
  | next h => exact nomatch hs.symm.trans (nextSlot?_eq h).1
  | keep slot h | queue h =>
    obtain ⟨_, hf, _⟩ := h
    exact nomatch hs.symm.trans hf
  | update key index next => exact ⟨key, index, next, rfl⟩

/-- No state is set in an empty store, so that it stays as it is. -/
theorem Act.empty (h : Act same b {} t) : t = {} := by
  obtain ⟨key, index, next, rfl⟩ := h.update_of_frame rfl
  rfl

/-! ### Slots -/

theorem mem_slots_keep {slot : Slot V} {e : Key × List (Slot V)} (h : e ∈ (s.keep key index slot).slots) :
    e.1 = key ∨ e ∈ s.slots := by
  rcases Assoc.mem_insert h with rfl | h
  · exact .inl rfl
  · exact .inr h

theorem lookup_slots_of_lt (h : index < (s.slotsOf key).length) : ∃ e ∈ s.slots, e.1 = key := by
  by_contra hn
  have : s.slots.lookup key = none :=
    List.lookup_eq_none_iff.2 fun e he => bne_iff_ne.2 fun hk => hn ⟨e, he, hk.symm⟩
  rw [slotsOf, this] at h
  exact absurd h (Nat.not_lt_zero _)

/-- An act makes slots for no instance but the one whose body runs. -/
theorem Act.slots (h : Act same b s t) {e : Key × List (Slot V)} (he : e ∈ t.slots) :
    (∃ d ∈ s.slots, d.1 = e.1) ∨ ∃ count, s.frame = some (e.1, count) := by
  cases h with
  | next h =>
    rw [(nextSlot?_eq h).2] at he
    exact .inl ⟨e, he, rfl⟩
  | keep slot h =>
    rcases mem_slots_keep he with hk | he
    · obtain ⟨count, hf, -⟩ := h
      exact .inr ⟨count, hk ▸ hf⟩
    · exact .inl ⟨e, he, rfl⟩
  | queue h => exact .inl ⟨e, he, rfl⟩
  | update key index next =>
    rcases update_eq same s key index next with ⟨-, hu⟩ | ⟨-, hi, slot, hu⟩ <;> rw [hu] at he
    · exact .inl ⟨e, he, rfl⟩
    · rcases mem_slots_keep he with hk | he
      · exact .inl (hk ▸ lookup_slots_of_lt hi)
      · exact .inl ⟨e, he, rfl⟩

/-- An act queues effects for no instance but the one whose body runs. -/
theorem Act.pending (h : Act same b s t) {e : Effect V} (he : e ∈ t.pending) :
    e ∈ s.pending ∨ ∃ count, s.frame = some (e.key, count) := by
  cases h with
  | next h =>
    rw [(nextSlot?_eq h).2] at he
    exact .inl he
  | keep slot h => exact .inl he
  | queue h =>
    rcases List.mem_append.1 he with he | he
    · exact .inl (List.mem_of_mem_filter he)
    · obtain ⟨count, hf, -⟩ := h
      exact .inr ⟨count, List.mem_singleton.1 he ▸ hf⟩
  | update key index next =>
    rcases update_eq same s key index next with ⟨-, hu⟩ | ⟨-, -, slot, hu⟩ <;> rw [hu] at he <;> exact .inl he

/-! ### Many acts -/

/-- A hook call that was counted stays so while the script goes on. -/
theorem Closed.and_isCalling {P : Store V → Prop} (hP : Closed same P) (key : Key) (index : Nat) :
    Closed same fun s => P s ∧ s.IsCalling key index :=
  fun b s t ha hs => ⟨hP b s t ha hs.1, ha.isCalling hs.2⟩

/-- What every act keeps, a script keeps. -/
theorem Acted.keeps {P : Store V → Prop} (hP : Closed same P) (h : Acted same s t) (hs : P s) : P t := by
  induction h with
  | refl => exact hs
  | tail _ ht ih =>
    obtain ⟨b, ht⟩ := ht
    exact hP b _ _ ht ih

theorem Acted.cleanups (h : Acted same s t) : t.cleanups = s.cleanups :=
  h.keeps (P := fun u => u.cleanups = s.cleanups) (fun _ _ _ ha hs => ha.cleanups.trans hs) rfl

theorem Acted.rendered (h : Acted same s t) : t.rendered = s.rendered :=
  h.keeps (P := fun u => u.rendered = s.rendered) (fun _ _ _ ha hs => ha.rendered.trans hs) rfl

theorem Acted.empty (h : Acted same {} t) : t = {} :=
  h.keeps (P := (· = {})) (fun _ _ _ ha hs => (hs ▸ ha).empty) rfl

/-! ### Paths -/

theorem Move.dirty (h : Move same b s t) : t.dirty = (s.dirty || b) := by
  cases h with
  | act h => exact h.dirty
  | _ => exact (Bool.or_false _).symm

/-- **A store is dirty just when it was or a change on the way has set state.** -/
theorem Path.dirty (h : Path same bs s t) : t.dirty = (s.dirty || bs.any id) := by
  induction h with
  | refl => exact (Bool.or_false _).symm
  | snoc _ m ih =>
    rw [m.dirty, ih, List.any_append, List.any_cons, List.any_nil, Bool.or_false, Bool.or_assoc]
    rfl

theorem Path.trans {cs : List Bool} (h : Path same bs s t) (k : Path same cs t u) : Path same (bs ++ cs) s u := by
  induction k with
  | refl => rwa [List.append_nil]
  | snoc _ m ih =>
    rw [← List.append_assoc]
    exact (ih h).snoc m

theorem Acted.path (h : Acted same s t) : ∃ bs, Path same bs s t := by
  induction h with
  | refl => exact ⟨[], .refl s⟩
  | tail _ ht ih =>
    obtain ⟨bs, hp⟩ := ih
    obtain ⟨b, ha⟩ := ht
    exact ⟨bs ++ [b], hp.snoc (.act ha)⟩

/-! ### Passes -/

theorem Drawn.cleanups (h : Drawn same s t) : t.cleanups = s.cleanups := by
  induction h with
  | refl => rfl
  | act _ a ih => exact a.cleanups.trans ih
  | enter _ key ih => exact ih
  | exit _ ih => exact ih

theorem Drawn.path (h : Drawn same s t) : ∃ bs, Path same bs s t := by
  induction h with
  | refl => exact ⟨[], .refl s⟩
  | act _ a ih =>
    obtain ⟨bs, hp⟩ := ih
    exact ⟨_, hp.snoc (.act a)⟩
  | enter _ key ih =>
    obtain ⟨bs, hp⟩ := ih
    exact ⟨_, hp.snoc (.enter _ key)⟩
  | exit _ ih =>
    obtain ⟨bs, hp⟩ := ih
    exact ⟨_, hp.snoc (.exit _)⟩

/-! ### Instances of the pass -/

/-- No body runs, and whatever the store holds belongs to instances of the pass. -/
structure Confined (s : Store V) : Prop where
  idle : s.frame = none
  slots : ∀ e ∈ s.slots, e.1 ∈ s.rendered
  cleanups : ∀ c ∈ s.cleanups, c.1.1 ∈ s.rendered
  pending : ∀ e ∈ s.pending, e.key ∈ s.rendered

/-- What the pass has left out is gone when it is finished. -/
theorem confined_finishPass (h : s.frame = none) : Confined s.finishPass.2 where
  idle := h
  slots _ he := List.contains_iff_mem.1 (List.mem_filter.1 he).2
  cleanups _ hc := List.contains_iff_mem.1 (List.mem_filter.1 hc).2
  pending _ he := List.contains_iff_mem.1 (List.mem_filter.1 he).2

theorem Act.confined (h : Act same b s t) (hs : Confined s) : Confined t where
  idle := h.frame_none hs.idle
  slots e he := by
    rw [h.rendered]
    rcases h.slots he with ⟨d, hd, hk⟩ | ⟨count, hf⟩
    · exact hk ▸ hs.slots d hd
    · exact nomatch hs.idle.symm.trans hf
  cleanups c hc := by
    rw [h.rendered]
    exact hs.cleanups c (h.cleanups ▸ hc)
  pending e he := by
    rw [h.rendered]
    rcases h.pending he with he | ⟨count, hf⟩
    · exact hs.pending e he
    · exact nomatch hs.idle.symm.trans hf

/-- Where no body runs no effect is queued. -/
theorem Act.pending_nil (h : Act same b s t) (hs : Confined s) (hp : s.pending = []) : t.pending = [] := by
  refine List.eq_nil_iff_forall_not_mem.2 fun e he => ?_
  rcases h.pending he with he | ⟨count, hf⟩
  · exact List.not_mem_nil (hp ▸ he)
  · exact nomatch hs.idle.symm.trans hf

theorem Confined.takeCleanup (hs : Confined s) (key : Key) (index : Nat) : Confined (s.takeCleanup key index).2 :=
  { hs with cleanups := fun c hc => hs.cleanups c (List.mem_of_mem_filter hc) }

theorem Confined.setCleanup (hs : Confined s) (hk : key ∈ s.rendered) (index : Nat) (v : V) :
    Confined (s.setCleanup key index v) := by
  refine { hs with cleanups := fun c hc => ?_ }
  rcases Assoc.mem_insert hc with rfl | hc
  · exact hk
  · exact hs.cleanups c hc

end LivePreview.Hook.Store
