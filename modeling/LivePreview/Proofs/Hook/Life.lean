import LivePreview.Proofs.Hook.Queue
import Mathlib.Data.List.Induction

/-! The life of a store, deed by deed.

A log has every change of a store, each with the store in which it was made. What scripts do is in it hook call by
hook call: a slot is kept by a call that was counted before, a state, a reducer or a ref only where the call found
none, and an effect is queued where the dependencies that are kept do not agree (`Fits`). What the surface does is in
it step by step. A log says what the store is at each moment, so that what holds from one moment to another is shown
by looking at one deed after another. -/
namespace LivePreview.Hook
open Script

/-- One change of a store. -/
inductive Deed where
  /-- A hook call of the body that runs is counted. -/
  | call (hook : HookCall)
  /-- A hook call keeps a slot. -/
  | keep (key : Key) (index : Nat) (slot : Slot Value)
  /-- A call of `useEffect` keeps its dependencies and queues its function. -/
  | effect (key : Key) (index : Nat) (deps : Option (List Value)) (callback : Value)
  /-- A setter or dispatcher sets a state. -/
  | update (key : Key) (index : Nat) (next : Value)
  | enter (key : Key)
  | exit
  | beginPass
  | finishPass
  /-- Effects are taken out, and one after another is run. -/
  | takeEffects
  /-- An effect is about to run: the cleanup of its run before is taken out. -/
  | takeCleanup (key : Key) (index : Nat)
  /-- An effect has run and has given a cleanup. -/
  | setCleanup (key : Key) (index : Nat) (cleanup : Value)
  /-- All effects that were taken out have run. -/
  | endEffects
  | reset

namespace Deed

def apply (s : Store Value) : Deed → Store Value
  | call _ => s.counted
  | keep key index slot => s.keep key index slot
  | effect key index deps callback => (s.keep key index (.effect deps)).queue ⟨key, index, callback⟩
  | update key index next => s.update Value.equals key index next
  | enter key => s.enter key
  | exit => s.exit
  | beginPass => s.beginPass
  | finishPass => s.finishPass.2
  | takeEffects => s.takeEffects.2
  | takeCleanup key index => (s.takeCleanup key index).2
  | setCleanup key index cleanup => s.setCleanup key index cleanup
  | endEffects => s
  | reset => s.reset.2

/-- What a script does by itself. -/
def Scripted : Deed → Prop
  | call _ | keep _ _ _ | effect _ _ _ _ | update _ _ _ => True
  | _ => False

/-- What happens between the start of a pass and its end. -/
def Drawing : Deed → Prop
  | enter _ | exit => True
  | d => d.Scripted

/-- What happens while effects run. -/
def Settling : Deed → Prop
  | takeCleanup _ _ | setCleanup _ _ _ => True
  | d => d.Scripted

theorem Scripted.drawing {d : Deed} (h : d.Scripted) : d.Drawing := by
  cases d <;> trivial

theorem Scripted.settling {d : Deed} (h : d.Scripted) : d.Settling := by
  cases d <;> trivial

end Deed

/-- A change with the store that it was made in. -/
abbrev Moment := Store Value × Deed

/-- Whether a hook call may keep a slot, by what it has found and what there is now. State that is found stays, also
in a reducer that is kept anew. -/
def Suits (hook : HookCall) (found now : Option (Slot Value)) : Slot Value → Prop
  | .state _ => hook = .state ∧ ∀ v, found ≠ some (.state v)
  | .reducer v _ => hook = .reducer ∧
      ((∀ v rule, found ≠ some (.reducer v rule)) ∨ ∃ rule, now = some (.reducer v rule))
  | .ref _ => hook = .ref ∧ ∀ cell, found ≠ some (.ref cell)
  | .memo _ _ => hook = .memo ∨ hook = .callback
  | .effect _ => False

/-- Effects have been taken out and not all have run, and one of this hook call was among them. -/
def Underway (log : List Moment) (key : Key) (index : Nat) : Prop :=
  ∃ before u rest, log = before ++ (u, .takeEffects) :: rest ∧ (∀ e ∈ rest, e.2.Settling) ∧
    ∃ e ∈ u.pending, e.key = key ∧ e.index = index

/-- What may be done to a store after what has been done. -/
def Fits (log : List Moment) (s : Store Value) : Deed → Prop
  | .call _ => ∃ slot, s.frame = some slot
  | .keep key index slot => ∃ before u hook rest, log = before ++ (u, .call hook) :: rest ∧
      u.frame = some (key, index) ∧ (∀ e ∈ rest, e.2.Scripted) ∧
        Suits hook (u.slot? key index) (s.slot? key index) slot
  | .effect key index deps _ => ∃ before u, log = before ++ [(u, .call .effect)] ∧ u.frame = some (key, index) ∧
      EffectCall.agrees (u.slot? key index) deps = false
  | .takeCleanup key index | .setCleanup key index _ => Underway log key index
  | .finishPass => s.frame = none
  | _ => True

/-- A log from a store on, with the store that it leads to. -/
inductive Life (start : Store Value) : List Moment → Store Value → Prop
  | nil : Life start [] start
  | snoc {log s} (h : Life start log s) (d : Deed) (hf : Fits log s d) : Life start (log ++ [(s, d)]) (d.apply s)

variable {start s t : Store Value} {log rest : List Moment} {e : Moment} {d : Deed} {key : Key} {index : Nat}

/-! ### Parts of a life -/

theorem Life.last (h : Life start (log ++ [e]) t) : Life start log e.1 ∧ Fits log e.1 e.2 ∧ t = e.2.apply e.1 := by
  generalize hl : log ++ [e] = whole at h
  cases h with
  | nil => exact absurd hl (by simp)
  | snoc h d hf =>
    obtain ⟨rfl, he⟩ := List.append_inj' hl rfl
    cases he
    exact ⟨h, hf, rfl⟩

/-- Where one entry stands in a log there is the life before it. -/
theorem Life.before (h : Life start (log ++ e :: rest) t) : Life start log e.1 ∧ Fits log e.1 e.2 := by
  induction rest using List.reverseRecOn generalizing t with
  | nil => exact ⟨h.last.1, h.last.2.1⟩
  | append_singleton rest last ih =>
    rw [← List.cons_append, ← List.append_assoc] at h
    exact ih h.last.1

/-- A life goes through the store at each of its moments. -/
theorem Life.split (h : Life start (log ++ rest) t) : ∃ s, Life start log s := by
  cases rest with
  | nil => exact ⟨t, by rwa [List.append_nil] at h⟩
  | cons e rest => exact ⟨e.1, h.before.1⟩

theorem Life.of_nil (h : Life start [] t) : t = start := by
  generalize hl : ([] : List Moment) = log at h
  cases h with
  | nil => rfl
  | snoc => exact absurd hl (by simp)

/-- A log has one life. -/
theorem Life.unique (h : Life start log s) (h' : Life start log t) : s = t := by
  induction log using List.reverseRecOn generalizing s t with
  | nil => rw [h.of_nil, h'.of_nil]
  | append_singleton log e ih => rw [h.last.2.2, h'.last.2.2]

/-- An entry of a log that is in two parts stands in one of them. -/
theorem append_eq_cons {before after : List Moment} (h : log ++ rest = before ++ e :: after) :
    (∃ mid, log = before ++ e :: mid ∧ after = mid ++ rest) ∨
      ∃ mid, before = log ++ mid ∧ rest = mid ++ e :: after := by
  rcases List.append_eq_append_iff.1 h with ⟨mid, hb, hr⟩ | ⟨mid, hl, ha⟩
  · exact .inr ⟨mid, hb, hr⟩
  · cases mid with
    | nil => exact .inr ⟨[], by rw [hl, List.append_nil, List.append_nil], ha.symm⟩
    | cons d mid =>
      obtain ⟨rfl, rfl⟩ := List.cons.inj ha
      exact .inl ⟨mid, hl, rfl⟩

/-! ### The body that runs -/

/-- A hook call stays one that was counted while the script goes on. -/
theorem Deed.Scripted.isCalling (hd : d.Scripted) (h : s.IsCalling key index) : (d.apply s).IsCalling key index := by
  obtain ⟨count, hf, hi⟩ := h
  cases d with
  | call hook => exact ⟨count + 1, Store.frame_counted hf, Nat.lt_succ_of_lt hi⟩
  | keep | effect => exact ⟨count, hf, hi⟩
  | update k i next => exact ⟨count, (Store.frame_update ..).trans hf, hi⟩
  | _ => exact hd.elim

theorem Life.isCalling {hook : HookCall} {u : Store Value} (h : Life start (log ++ (u, .call hook) :: rest) t)
    (hf : u.frame = some (key, index)) (hr : ∀ e ∈ rest, e.2.Scripted) : t.IsCalling key index := by
  induction rest using List.reverseRecOn generalizing t with
  | nil =>
    rw [h.last.2.2]
    exact ⟨index + 1, Store.frame_counted hf, Nat.lt_succ_self index⟩
  | append_singleton rest e ih =>
    rw [← List.cons_append, ← List.append_assoc] at h
    rw [h.last.2.2]
    exact (hr e (by simp)).isCalling (ih h.last.1 fun d hd => hr d (List.mem_append_left _ hd))

/-- A slot is kept while the body of its instance runs. -/
theorem Life.keeps {slot : Slot Value} (h : Life start log s) (hf : Fits log s (.keep key index slot)) :
    s.IsCalling key index := by
  obtain ⟨before, u, hook, rest, rfl, hu, hr, -⟩ := hf
  exact h.isCalling hu hr

theorem Life.queues {deps : Option (List Value)} {callback : Value} (h : Life start log s)
    (hf : Fits log s (.effect key index deps callback)) : s.IsCalling key index := by
  obtain ⟨before, u, rfl, hu, -⟩ := hf
  exact h.isCalling hu fun _ he => by cases he

/-! ### What is under way -/

theorem Underway.of_append (h : Underway (log ++ rest) key index) : Underway log key index ∨
    ∃ u, (u, .takeEffects) ∈ rest ∧ ∃ e ∈ u.pending, e.key = key ∧ e.index = index := by
  obtain ⟨before, u, after, he, hs, hu⟩ := h
  rcases append_eq_cons he with ⟨mid, rfl, rfl⟩ | ⟨mid, -, rfl⟩
  · exact .inl ⟨before, u, mid, rfl, fun e he => hs e (List.mem_append_left _ he), hu⟩
  · exact .inr ⟨u, by simp, hu⟩

/-- After what no effect does none is under way. -/
theorem not_underway (hd : ¬ d.Settling) (hn : d ≠ .takeEffects) (s : Store Value) (key : Key)
    (index : Nat) : ¬ Underway (log ++ [(s, d)]) key index := by
  rintro ⟨before, u, after, he, hs, -⟩
  rcases append_eq_cons he with ⟨mid, -, rfl⟩ | ⟨mid, -, hr⟩
  · exact hd (hs (s, d) (List.mem_append_right _ (List.mem_singleton_self _)))
  · cases mid with
    | nil => exact hn (congrArg Prod.snd (List.cons.inj hr).1)
    | cons e mid => exact absurd (congrArg List.length hr) (by simp)

/-! ### Growing logs -/

/-- The log of a store has grown by deeds of one sort. -/
def Grown (Q : Deed → Prop) (start : Store Value) (log : List Moment) (t : Store Value) : Prop :=
  ∃ rest, (∀ e ∈ rest, Q e.2) ∧ Life start (log ++ rest) t

namespace Grown
variable {Q R : Deed → Prop}

theorem refl (h : Life start log s) : Grown Q start log s := ⟨[], (fun _ he => by cases he), by rwa [List.append_nil]⟩

theorem after (hr : ∀ e ∈ rest, Q e.2) (h : Grown Q start (log ++ rest) t) : Grown Q start log t := by
  obtain ⟨more, hm, h⟩ := h
  refine ⟨rest ++ more, fun e he => ?_, by rwa [← List.append_assoc]⟩
  exact (List.mem_append.1 he).elim (hr e) (hm e)

theorem imp (hQ : ∀ d, R d → Q d) (h : Grown R start log t) : Grown Q start log t := by
  obtain ⟨rest, hr, h⟩ := h
  exact ⟨rest, fun e he => hQ e.2 (hr e he), h⟩

/-- A deed that fits whatever of this sort was done before it. -/
theorem snoc (h : Grown Q start log s) (hd : Q d)
    (hf : ∀ rest, (∀ e ∈ rest, Q e.2) → Life start (log ++ rest) s → Fits (log ++ rest) s d) :
    Grown Q start log (d.apply s) := by
  obtain ⟨rest, hr, h⟩ := h
  refine ⟨rest ++ [(s, d)], fun e he => ?_, ?_⟩
  · rcases List.mem_append.1 he with he | he
    · exact hr e he
    · exact List.mem_singleton.1 he ▸ hd
  · rw [← List.append_assoc]
    exact h.snoc d (hf rest hr h)

end Grown
end LivePreview.Hook
