import LivePreview.Proofs.Surface.Storage

/-! What operations keep up.

Most of what is known of a surface is known of the chronicle so far and of the store of what is mounted. It is enough
to look at updates, at acts of scripts and at what is placed and released: a condition that these keep, with a weaker
one for after a failure, holds of the chronicle of every run (`Upkeep.always`). -/
namespace LivePreview.Surface
open Script Hook
variable {invoke : Invoke} {P Q : List Beat → Store Value → Prop} {log : List Beat} {s : Surface}
  {mounted : Mounted} {n : Machine}

/-- `P` is kept up as long as no error is captured, and `Q` always. -/
structure Upkeep (invoke : Invoke) (P Q : List Beat → Store Value → Prop) : Prop where
  weaken : ∀ {log s}, P log s → Q log s
  cycle : ∀ order render props limit passes, (tellCycle invoke order render props limit passes).Leads
    (fun log m => P log m.hooks) (fun _ log m => P log m.hooks) (fun log m => Q log m.hooks)
  acted : ∀ {log s t}, Store.Acted Value.equals s t → P log s → P log t
  acted_weak : ∀ {log s t}, Store.Acted Value.equals s t → Q log s → Q log t
  outside : ∀ {log s beat}, beat.Outside → P log s → P (log ++ [beat]) s
  outside_weak : ∀ {log s beat}, beat.Outside → Q log s → Q (log ++ [beat]) s
  release : ∀ {log} {c : Component} (order : Order), Q log c.machine.hooks →
    Q (log ++ (tellRelease invoke order c).story) {}
  place : ∀ {log} (order : Order) (c : Component), Q log {} →
    P (log ++ [.placed c.machine.hooks.cleanups] ++ (tellRelease invoke order c).story) {}

/-- `Q` holds of a surface, and `P` until an error is captured. -/
structure Tended (P Q : List Beat → Store Value → Prop) (log : List Beat) (s : Surface) : Prop where
  always : Q log (store s)
  mounted : ∀ mounted, s.mounted = some mounted → s.isCaptured = false → P log mounted.component.machine.hooks

theorem Tended.of_none (hm : s.mounted = none) (h : Q log {}) : Tended P Q log s := by
  refine ⟨?_, fun mounted h => nomatch hm.symm.trans h⟩
  rw [store, hm]
  exact h

namespace Upkeep
variable (hu : Upkeep invoke P Q)
include hu

theorem of_some (hm : s.mounted = some mounted) (h : P log mounted.component.machine.hooks) :
    Tended P Q log s := by
  refine ⟨?_, fun _ hm' _ => ?_⟩
  · rw [store, hm]
    exact hu.weaken h
  · cases hm.symm.trans hm'
    exact h

theorem unmount (h : Q log (store s)) : Q (log ++ (tellUnmount invoke s).story) {} := by
  unfold store at h
  cases hm : s.mounted with
  | none =>
    rw [hm] at h
    rw [story_tellUnmount_none hm, List.append_nil]
    exact h
  | some mounted =>
    rw [hm] at h
    rw [story_tellUnmount_some hm]
    exact hu.release s.order h

/-- What is told besides updates changes nothing of what is known. -/
theorem tell (h : Tended P Q log s) {rest : List Beat} (hr : ∀ beat ∈ rest, beat.Outside) :
    Tended P Q (log ++ rest) s := by
  induction rest generalizing log with
  | nil => exact (List.append_nil log).symm ▸ h
  | cons beat rest ih =>
    obtain ⟨hb, hr⟩ := List.forall_mem_cons.1 hr
    have ht : Tended P Q (log ++ [beat]) s :=
      ⟨hu.outside_weak hb h.always, fun mounted hm hc => hu.outside hb (h.mounted mounted hm hc)⟩
    exact (List.append_assoc log [beat] rest) ▸ ih ht hr

/-- So do acts of scripts. -/
theorem on (h : Tended P Q log s) (hm : s.mounted = some mounted)
    (ha : Store.Acted Value.equals mounted.component.machine.hooks n.hooks) :
    Tended P Q log { s with mounted := some (mounted.on n) } := by
  refine ⟨?_, fun _ hm' hc => ?_⟩
  · have hs := h.always
    rw [store, hm] at hs
    exact hu.acted_weak ha hs
  · cases hm'
    exact hu.acted ha (h.mounted mounted hm hc)

variable (hi : Scripted invoke)
include hi

theorem render (phase : Phase) (hm : s.mounted = some mounted) (h : P log mounted.component.machine.hooks) :
    Tended P Q (log ++ (tellRender invoke phase s).story) (Surface.render invoke phase s) := by
  have hl := hu.cycle s.order mounted.component.render mounted.props s.maxRerenders (s.maxRerenders + 1)
  have hr : (tellCycle invoke s.order mounted.component.render mounted.props s.maxRerenders (s.maxRerenders + 1)).run =
      Surface.cycle invoke s.order s.maxRerenders mounted.component.render mounted.props (s.maxRerenders + 1) :=
    tellCycle_run ..
  rw [story_tellRender phase hm]
  cases hc : Surface.cycle invoke s.order s.maxRerenders mounted.component.render mounted.props (s.maxRerenders + 1)
      mounted.component.machine with
  | ok output n =>
    rw [(render_ok phase hm hc).1, List.append_nil]
    exact hu.of_some rfl (hl.ends h (hr ▸ hc))
  | error e n =>
    obtain ⟨hs, hn⟩ := render_error phase hm hc
    have hb := hu.release (c := { mounted.component with machine := n }) s.order (hl.stops h (hr ▸ hc))
    refine ⟨?_, fun mounted' _ hcap => ?_⟩
    · rw [store, hn, ← List.append_assoc]
      show Q _ (Surface.release invoke s.order { mounted.component with machine := n }).1.machine.hooks
      rwa [release_hooks hi]
    · rw [isCaptured, hs] at hcap
      cases hcap

theorem flush (h : Tended P Q log s) :
    Tended P Q (log ++ (tellFlush invoke s).story) (Surface.flush invoke s) := by
  unfold Surface.flush tellFlush
  cases hm : s.mounted with
  | none => exact (List.append_nil log).symm ▸ h
  | some mounted =>
    dsimp only
    split
    · rename_i hd
      rw [Bool.and_eq_true, Bool.not_eq_true'] at hd
      exact hu.render hi .update hm (h.mounted mounted hm hd.2)
    · exact (List.append_nil log).symm ▸ h

/-- **Every operation keeps up both.** -/
theorem act (h : Tended P Q log s) (op : Op) :
    Tended P Q (log ++ beats invoke s op) (Surface.act invoke s op) := by
  cases op with
  | mount c props =>
    obtain ⟨mounted, hm, hh⟩ := place_mounted hi c props (s.unmount invoke).1
    have hp := hu.place (s.unmount invoke).1.order c (hu.unmount h.always)
    have hr := hu.render hi .mount hm (hh.symm ▸ hp)
    simpa only [beats_mount, story_tellPlace, Surface.act, mount, List.append_assoc, List.cons_append,
      List.nil_append] using hr
  | update props =>
    show Tended P Q (log ++ (tellUpdate invoke props s).story) (s.update invoke props)
    unfold tellUpdate update
    split
    · exact (List.append_nil log).symm ▸ h
    · rename_i hc
      cases hm : s.mounted with
      | none => exact (List.append_nil log).symm ▸ h
      | some mounted =>
        exact hu.render hi .update (s := { s with mounted := some { mounted with props } }) rfl
          (h.mounted mounted hm (eq_false_of_ne_true hc))
  | flush => exact hu.flush hi h
  | dispatch id event =>
    cases hh : s.handler? id with
    | error e =>
      rw [beats_dispatch_error event hh, Surface.act, dispatch, hh, List.append_nil]
      exact h
    | ok r =>
      obtain ⟨mounted, callback⟩ := r
      obtain ⟨n, hn, ha⟩ := handle_acted hi callback event mounted
      have ht := hu.tell h (@outside_tellHandle invoke callback event mounted)
      rw [beats_dispatch event hh, Surface.act, dispatch, hh, ← List.append_assoc]
      dsimp only
      rw [hn]
      exact hu.flush hi (hu.on ht (handler?_ok hh).1 ha)
  | unmount =>
    have hs : beats invoke s .unmount = (tellUnmount invoke s).story := List.append_nil _
    rw [hs]
    exact .of_none (mounted_unmount s) (hu.unmount h.always)
  | call f args =>
    have ht := hu.tell h (@outside_call invoke f args s)
    cases hm : s.mounted with
    | none =>
      have hc : Surface.act invoke s (.call f args) = s := by
        show (s.call invoke f args).1 = s
        rw [call, hm]
      rwa [hc]
    | some mounted =>
      obtain ⟨n, hn, ha⟩ := call_acted hi f args hm
      have hc : Surface.act invoke s (.call f args) = { s with mounted := some (mounted.on n) } := hn
      rw [hc]
      exact hu.on ht hm ha

theorem chronicle (h : Tended P Q log s) (ops : List Op) :
    Tended P Q (log ++ Surface.chronicle invoke s ops) (ops.foldl (Surface.act invoke) s) := by
  induction ops generalizing log s with
  | nil => exact (List.append_nil log).symm ▸ h
  | cons op ops ih =>
    rw [chronicle_cons, ← List.append_assoc]
    exact ih (hu.act hi h op)

/-- **What is kept up always holds of the chronicle of every run** with the store that the run leaves. -/
theorem always (limit : Nat) (order : Order) (h : Q [] {}) (ops : List Op) :
    Q (Surface.chronicle invoke (fresh limit order) ops)
      (store (ops.foldl (Surface.act invoke) (fresh limit order))) :=
  (hu.chronicle hi (.of_none (s := fresh limit order) rfl h) ops).always

end Upkeep
end LivePreview.Surface
