import LivePreview.Proofs.Surface.Alternation
import Mathlib.Data.List.Perm.Subperm

/-! **What becomes of the cleanups of effects.**

After the last unmount nothing is held, so that what has come in has been taken out. Only a cleanup that was taken out
and not called can have been lost, and this happens where a call of another one that was taken out with it has
failed. -/
namespace LivePreview.Surface
open Script Hook
variable {invoke : Invoke} {log : List Beat}

/-- A call has failed, and others that were taken out with it are not called. -/
def Interrupted (invoke : Invoke) (taken : List Entry) (calls : List Call) : Prop :=
  (∃ call ∈ calls, call.Raises invoke) ∧ calls.length < taken.length

/-- Every beat calls what it takes out, and nothing twice. -/
theorem called_subperm (h : ∀ taken calls, .swept taken calls ∈ log → Made invoke taken calls) :
    (called log).Subperm ((taken log).map (·.2)) := by
  induction log with
  | nil => exact .refl []
  | cons beat log ih =>
    have hl := ih fun taken calls hm => h taken calls (List.mem_cons_of_mem beat hm)
    show (beat.functions ++ called log).Subperm ((beat.exits ++ taken log).map (·.2))
    rw [List.map_append]
    refine .append ?_ hl
    cases beat
    case swept taken calls => exact (h taken calls List.mem_cons_self).1
    all_goals exact .refl []

/-- Less is called than is taken out just when this is so of one beat. -/
theorem called_lt_iff (h : ∀ taken calls, .swept taken calls ∈ log → Made invoke taken calls) :
    (called log).length < (taken log).length ↔
      ∃ taken calls, .swept taken calls ∈ log ∧ calls.length < taken.length := by
  induction log with
  | nil => exact ⟨nofun, fun ⟨_, _, hm, _⟩ => nomatch hm⟩
  | cons beat log ih =>
    have hrest : ∀ taken calls, .swept taken calls ∈ log → Made invoke taken calls :=
      fun taken calls hm => h taken calls (List.mem_cons_of_mem beat hm)
    have hl := (called_subperm hrest).length_le
    rw [List.length_map] at hl
    have hc : (called (beat :: log)).length = beat.functions.length + (called log).length := List.length_append
    have ht : (taken (beat :: log)).length = beat.exits.length + (taken log).length := List.length_append
    rw [hc, ht]
    cases beat
    case swept out calls =>
      have hm := (h out calls List.mem_cons_self).1.length_le
      rw [List.length_map, List.length_map] at hm
      show (calls.map Call.function).length + _ < out.length + _ ↔ _
      rw [List.length_map]
      constructor
      · intro hlt
        by_cases hout : calls.length < out.length
        · exact ⟨out, calls, List.mem_cons_self, hout⟩
        · obtain ⟨taken, calls, hmem, hlt⟩ := (ih hrest).1 (by omega)
          exact ⟨taken, calls, List.mem_cons_of_mem _ hmem, hlt⟩
      · rintro ⟨taken, calls', hmem, hlt⟩
        obtain he | hmem := List.mem_cons.1 hmem
        · cases he
          omega
        · have := (ih hrest).2 ⟨taken, calls', hmem, hlt⟩
          omega
    all_goals
      show 0 + _ < 0 + _ ↔ _
      rw [Nat.zero_add, Nat.zero_add, ih hrest]
      simp only [List.mem_cons, reduceCtorEq, false_or]

/-- **Every registered cleanup has been called by the end of a run, as often as it was registered, just when no
cleanup that failed had others that were taken out with it and are not called for that.** This is for every set of
cleanups, every order in which they are called, and whatever else fails on the way. The story is of the calls that the
operations make: told with it they come to the surface that they come to by themselves. -/
theorem cleanups_called_iff (hi : Scripted invoke) (limit : Nat) (order : Order) (ops : List Op) :
    (tellActs invoke (fresh limit order) (ops ++ [.unmount])).outcome =
        List.foldl (act invoke) (fresh limit order) (ops ++ [.unmount]) ∧
      (((entered (tellActs invoke (fresh limit order) (ops ++ [.unmount])).story).map (·.2)).Subperm
          (called (tellActs invoke (fresh limit order) (ops ++ [.unmount])).story) ↔
        ∀ taken calls, .swept taken calls ∈ (tellActs invoke (fresh limit order) (ops ++ [.unmount])).story →
          ¬ Interrupted invoke taken calls) := by
  refine ⟨tellActs_outcome .., ?_⟩
  have hb := booked_chronicle hi limit order (ops ++ [.unmount])
  have hs : store (List.foldl (act invoke) (fresh limit order) (ops ++ [.unmount])) = {} := by
    rw [List.foldl_append]
    exact store_unmount _
  rw [hs, chronicle] at hb
  generalize (tellActs invoke (fresh limit order) (ops ++ [.unmount])).story = log at hb ⊢
  have hm : ∀ taken calls, .swept taken calls ∈ log → Made invoke taken calls := by
    intro taken calls hm
    obtain ⟨before, rest, he⟩ := List.append_of_mem hm
    exact (hb.fair before _ rest he).2
  have hp : ((entered log).map (·.2)).Perm ((taken log).map (·.2)) := by
    have hbal := hb.balance
    rw [List.append_nil] at hbal
    exact hbal.map _
  have hn := hp.length_eq
  rw [List.length_map, List.length_map] at hn
  constructor
  · intro h out calls hout hi
    -- What is not called has come in once more than it is called.
    have hlt := (called_lt_iff hm).2 ⟨out, calls, hout, hi.2⟩
    have hle := h.length_le
    rw [List.length_map] at hle
    omega
  · intro h
    have hall : ¬ (called log).length < (taken log).length := by
      rw [called_lt_iff hm]
      rintro ⟨out, calls, hout, hlt⟩
      exact h out calls hout ⟨(hm out calls hout).2 hlt, hlt⟩
    have hc := (called_subperm hm).perm_of_length_le (by rw [List.length_map]; omega)
    exact (hp.trans hc.symm).subperm

/-- No sweep ends before all that it takes out is called. -/
def Beat.isWhole : Beat → Bool
  | .swept taken calls => calls.length == taken.length
  | _ => true

/-- A lamp is mounted. -/
def lit : List Op := [.mount lamp (.obj [])]

set_option maxRecDepth 100000 in
/-- The one cleanup of a lamp is called when the lamp is taken down. -/
theorem cleanups_called_lamp : Scripted Script.invoke ∧
    (entered (tellActs Script.invoke (fresh 25 {}) (lit ++ [.unmount])).story).length = 1 ∧
    ((entered (tellActs Script.invoke (fresh 25 {}) (lit ++ [.unmount])).story).map (·.2)).Subperm
      (called (tellActs Script.invoke (fresh 25 {}) (lit ++ [.unmount])).story) := by
  have hc : (entered (tellActs Script.invoke (fresh 25 {}) (lit ++ [.unmount])).story).length = 1 ∧
      (tellActs Script.invoke (fresh 25 {}) (lit ++ [.unmount])).story.all Beat.isWhole = true := by decide +kernel
  refine ⟨scripted_invoke, hc.1, (cleanups_called_iff scripted_invoke 25 {} lit).2.2 fun taken calls hm hi => ?_⟩
  have hlen : calls.length = taken.length := beq_iff_eq.1 (List.all_eq_true.1 hc.2 _ hm)
  exact absurd hlen (Nat.ne_of_lt hi.2)

/-- A component with two effects whose cleanups fail. -/
def fuses : Component :=
  ((Component.attempt { instruments := true } {} ("function Fuses()\n" ++
    "  React.useEffect(function() return function() React.log('~blown') error('short') end end, {})\n" ++
    "  React.useEffect(function() return function() React.log('~blown') error('short') end end, {})\n" ++
    "  return nil\nend") "Fuses").component?).getD default

set_option maxRecDepth 100000 in
/-- Of two cleanups that fail, the one behind the other is lost. -/
theorem failed_cleanup_loses : ¬ ∀ (order : Order) (ops : List Op),
    ((entered (tellActs Script.invoke (fresh 25 order) (ops ++ [.unmount])).story).map (·.2)).Subperm
      (called (tellActs Script.invoke (fresh 25 order) (ops ++ [.unmount])).story) := by
  intro h
  have hl := (h {} [.mount fuses (.obj [])]).length_le
  rw [List.length_map] at hl
  have hc : (called (tellActs Script.invoke (fresh 25 {})
      ([.mount fuses (.obj [])] ++ [.unmount])).story).length <
      (entered (tellActs Script.invoke (fresh 25 {})
        ([.mount fuses (.obj [])] ++ [.unmount])).story).length := by decide +kernel
  omega

end LivePreview.Surface
