import LivePreview.Proofs.Surface.Chronicle
import LivePreview.Proofs.Surface.Storage

/-! **A captured error is reported once and stays.**

An operation shows one thing after another, and an error is captured where it is shown after something that is no
error. The observer is given just the reports of these errors, in their order. From then on nothing but mounting and
unmounting changes what is shown or held: other operations do not even begin, and what the host itself calls finds an
empty store. -/
namespace LivePreview
open Script Hook

/-- The error that is shown, if one is. -/
def Shown.report? : Shown → Option Report
  | .captured report => some report
  | _ => none

namespace Surface
variable {invoke : Invoke} {s t : Surface} {mounted : Mounted} {n : Machine} {op : Op}

/-! ### What is shown and what is reported -/

/-- The reports among events: those that the observer has been given. -/
def reports (events : Array SurfaceEvent) : List Report := events.toList.filterMap fun
  | .captured report => some report
  | _ => none

/-- What an operation shows, one thing after another. Mounting first takes down what is mounted. -/
def showings (invoke : Invoke) (s : Surface) (op : Op) : List Shown :=
  match op with
  | .mount _ _ => [(s.unmount invoke).1.shown, (act invoke s op).shown]
  | _ => [(act invoke s op).shown]

/-- What a run of operations shows, one thing after another. -/
def shownAlong (invoke : Invoke) (s : Surface) : List Op → List Shown
  | [] => []
  | op :: ops => showings invoke s op ++ shownAlong invoke (act invoke s op) ops

/-- The errors that are captured on the way from what is shown first: those that are shown after something that is
no error. -/
def captures : Shown → List Shown → List Report
  | _, [] => []
  | before, now :: rest => (if before.report?.isSome then none else now.report?).toList ++ captures now rest

theorem reports_append (a b : Array SurfaceEvent) : reports (a ++ b) = reports a ++ reports b := by
  simp [reports]

theorem reports_push (a : Array SurfaceEvent) (report : Report) :
    reports (a.push (.captured report)) = reports a ++ [report] := by
  simp [reports]

theorem captures_append (before : Shown) (a b : List Shown) :
    captures before (a ++ b) = captures before a ++ captures (a.getLastD before) b := by
  induction a generalizing before with
  | nil => rfl
  | cons now rest ih =>
    rw [List.cons_append, captures, ih now, captures, List.append_assoc, List.getLastD_cons]

theorem isCaptured_eq (s : Surface) : s.isCaptured = s.shown.report?.isSome := by
  unfold isCaptured Shown.report?
  cases s.shown <;> rfl

/-- Where nothing new is shown nothing is captured. -/
theorem captures_self (now : Shown) : captures now [now] = [] := by
  cases now <;> rfl

theorem captures_empty (before : Shown) : captures before [.empty] = [] := by
  cases before <;> rfl

/-! ### Each operation reports what it captures -/

/-- What cleanups do when they fail is not reported. -/
theorem reports_release (order : Order) (c : Component) : reports (release invoke order c).2 = [] := by
  unfold release
  dsimp only
  split
  · rfl
  · split <;> rfl

theorem reports_unmount (invoke : Invoke) (s : Surface) :
    reports (s.unmount invoke).1.events = reports s.events ∧ (s.unmount invoke).1.shown = .empty := by
  unfold unmount
  split
  · exact ⟨rfl, rfl⟩
  · refine ⟨?_, rfl⟩
    rw [reports_append, reports_release, List.append_nil]
    simp [reports]

theorem reports_place (invoke : Invoke) (c : Component) (props : Json) (s : Surface) :
    reports (s.place invoke c props).events = reports s.events ∧ (s.place invoke c props).shown = s.shown := by
  refine ⟨?_, rfl⟩
  have h : reports (s.events ++ (release invoke s.order c).2) = reports s.events := by
    rw [reports_append, reports_release, List.append_nil]
  rw [← h]
  simp [place, reports]

/-- A render reports the error that it comes to show. -/
theorem reports_render (phase : Phase) (hm : s.mounted = some mounted) (hs : s.isCaptured = false) :
    reports (render invoke phase s).events =
      reports s.events ++ captures s.shown [(render invoke phase s).shown] := by
  rw [isCaptured_eq] at hs
  unfold render
  rw [hm]
  dsimp only
  split
  · rw [captures, hs]
    exact (List.append_nil _).symm
  · rw [reports_append, reports_push, reports_release, List.append_nil, captures, hs]
    rfl

theorem reports_flush (s : Surface) :
    reports (flush invoke s).events = reports s.events ++ captures s.shown [(flush invoke s).shown] := by
  unfold flush
  cases hm : s.mounted with
  | none => rw [captures_self, List.append_nil]
  | some mounted =>
    dsimp only
    split
    · rename_i hd
      rw [Bool.and_eq_true, Bool.not_eq_true'] at hd
      exact reports_render .update hm hd.2
    · rw [captures_self, List.append_nil]

theorem reports_act (s : Surface) (op : Op) :
    reports (act invoke s op).events = reports s.events ++ captures s.shown (showings invoke s op) := by
  have hsame {t : Surface} (he : t.events = s.events) (hs : t.shown = s.shown) :
      reports t.events = reports s.events ++ captures s.shown [t.shown] := by
    rw [he, hs, captures_self, List.append_nil]
  cases op with
  | mount c props =>
    obtain ⟨hu, he⟩ := reports_unmount invoke s
    obtain ⟨hp, hs⟩ := reports_place invoke c props (s.unmount invoke).1
    have hc : ((s.unmount invoke).1.place invoke c props).isCaptured = false := by rw [isCaptured, hs, he]
    have hr : reports (render invoke .mount ((s.unmount invoke).1.place invoke c props)).events = _ :=
      reports_render .mount rfl hc
    rw [hp, hu, hs, he] at hr
    show reports (render invoke .mount _).events =
      reports s.events ++ captures s.shown ([(s.unmount invoke).1.shown] ++ [(render invoke .mount _).shown])
    rw [he, captures_append, captures_empty]
    exact hr
  | update props =>
    show reports (s.update invoke props).events = reports s.events ++ captures s.shown [(s.update invoke props).shown]
    unfold update
    split
    · exact hsame rfl rfl
    · rename_i hc
      cases hm : s.mounted with
      | none => exact hsame rfl rfl
      | some mounted =>
        exact reports_render (s := { s with mounted := some { mounted with props } }) .update rfl
          (eq_false_of_ne_true hc)
  | flush => exact reports_flush s
  | dispatch id event =>
    show reports (s.dispatch invoke id event).1.events =
      reports s.events ++ captures s.shown [(s.dispatch invoke id event).1.shown]
    unfold dispatch
    cases s.handler? id with
    | error e => exact hsame rfl rfl
    | ok r => exact reports_flush { s with mounted := some (handle invoke r.2 event r.1).1 }
  | unmount =>
    obtain ⟨hu, he⟩ := reports_unmount invoke s
    show reports (s.unmount invoke).1.events = reports s.events ++ captures s.shown [(s.unmount invoke).1.shown]
    rw [hu, he, captures_empty, List.append_nil]
  | call f args =>
    show reports (s.call invoke f args).1.events =
      reports s.events ++ captures s.shown [(s.call invoke f args).1.shown]
    unfold call
    cases hm : s.mounted with
    | none => exact hsame rfl rfl
    | some mounted =>
      dsimp only
      split <;> exact hsame rfl rfl

/-- What is shown last is what is shown then. -/
theorem getLastD_showings (s : Surface) (op : Op) (before : Shown) :
    (showings invoke s op).getLastD before = (act invoke s op).shown := by
  cases op <;> rfl

/-- **The observer is given one report for each error that is captured**, in every run of operations. -/
theorem reports_run (s : Surface) (ops : List Op) :
    reports (ops.foldl (act invoke) s).events = reports s.events ++ captures s.shown (shownAlong invoke s ops) := by
  induction ops generalizing s with
  | nil => exact (List.append_nil _).symm
  | cons op ops ih =>
    rw [List.foldl_cons, ih, reports_act, shownAlong, captures_append, getLastD_showings, List.append_assoc]

/-! ### Under an error -/

/-- Whether an operation is one with which the owner puts an error away. -/
def Op.Clears : Op → Prop
  | .mount _ _ | .unmount => True
  | _ => False

/-- Whether the surface itself does the operation, with what is mounted. -/
def Op.Renders : Op → Prop
  | .update _ | .flush | .dispatch _ _ => True
  | _ => False

/-- **Under an error no operation with what is mounted begins**: nothing is run, and the surface is as it was. -/
theorem act_captured (hs : s.isCaptured = true) (ho : op.Renders) : act invoke s op = s := by
  cases op with
  | update props => exact if_pos hs
  | flush =>
    show flush invoke s = s
    unfold flush
    cases hm : s.mounted with
    | none => rfl
    | some mounted =>
      dsimp only
      rw [hs, Bool.not_true, Bool.and_false]
      exact if_neg Bool.false_ne_true
  | dispatch id event =>
    show (dispatch invoke id event s).1 = s
    rw [dispatch, handler?, if_pos hs]
  | mount | unmount | call => exact ho.elim

theorem dispatch_captured (hs : s.isCaptured = true) (id : Nat) (event : Json) :
    (s.dispatch invoke id event).2 = .error .captured := by
  rw [dispatch, handler?, if_pos hs]

/-- Calls by the host leave an empty store empty, and change nothing else of the surface. -/
theorem act_keeps_empty (hi : Scripted invoke) (hs : s.isCaptured = true) (hm : s.mounted = some mounted)
    (he : mounted.component.machine.hooks = {}) (ho : ¬ op.Clears) :
    ∃ n, n.hooks = {} ∧ act invoke s op = { s with mounted := some (mounted.on n) } := by
  have hsame (h : op.Renders) : ∃ n, n.hooks = {} ∧ act invoke s op = { s with mounted := some (mounted.on n) } := by
    refine ⟨mounted.component.machine, he, (act_captured hs h).trans ?_⟩
    show s = { s with mounted := some mounted }
    rw [← hm]
  cases op with
  | mount | unmount => exact absurd trivial ho
  | update | flush | dispatch => exact hsame trivial
  | call f args =>
    obtain ⟨n, hn, ha⟩ := call_acted hi f args hm
    exact ⟨n, (he ▸ ha).empty, hn⟩

theorem run_keeps_empty (hi : Scripted invoke) (hs : s.isCaptured = true) (hm : s.mounted = some mounted)
    (he : mounted.component.machine.hooks = {}) (ops : List Op) (ho : ∀ op ∈ ops, ¬ op.Clears) :
    ∃ n, n.hooks = {} ∧ ops.foldl (act invoke) s = { s with mounted := some (mounted.on n) } := by
  induction ops generalizing s mounted with
  | nil =>
    refine ⟨mounted.component.machine, he, ?_⟩
    show s = { s with mounted := some mounted }
    rw [← hm]
  | cons op ops ih =>
    obtain ⟨n, hn, ha⟩ := act_keeps_empty hi hs hm he (ho op List.mem_cons_self)
    rw [List.foldl_cons, ha]
    have hn' : ({ s with mounted := some (mounted.on n) } : Surface).mounted = some (mounted.on n) := rfl
    have hrun := ih (show isCaptured { s with mounted := some (mounted.on n) } = true from hs) hn' hn
      fun op h => ho op (List.mem_cons_of_mem _ h)
    exact hrun

/-- What an error leaves is left alone. Of the surface `s` with the error nothing has changed but the machine of what
is mounted, and of this not the hooks. No operation with what is mounted does anything, whatever scripts would do. -/
structure Absorbed (report : Report) (s t : Surface) : Prop where
  shown : t.shown = .captured report
  held : ∃ mounted n, s.mounted = some mounted ∧ n.hooks = mounted.component.machine.hooks ∧
    t = { s with mounted := some (mounted.on n) }
  idle : ∀ (other : Invoke) (op : Op), op.Renders → act other t op = t
  rejects : ∀ (other : Invoke) (id : Nat) (event : Json), (t.dispatch other id event).2 = .error .captured

theorem surface_run (w : Watched) (ops : List Op) : (w.run invoke ops).surface = ops.foldl (act invoke) w.surface := by
  induction ops generalizing w with
  | nil => rfl
  | cons op ops ih => exact ih (w.step invoke op)

/-- **Errors are reported once each, and absorb everything until the owner clears them.** -/
theorem captured_absorbs (hi : Scripted invoke) (limit : Nat) (order : Order) (ops : List Op) :
    reports (ops.foldl (act invoke) (fresh limit order)).events =
        captures .empty (shownAlong invoke (fresh limit order) ops) ∧
      ∀ report, (ops.foldl (act invoke) (fresh limit order)).shown = .captured report →
        ∀ more : List Op, (∀ op ∈ more, ¬ op.Clears) →
          Absorbed report (ops.foldl (act invoke) (fresh limit order))
            ((ops ++ more).foldl (act invoke) (fresh limit order)) := by
  refine ⟨reports_run (fresh limit order) ops, fun report hr more hm => ?_⟩
  have hw := (sound_run hi limit order ops).captured report
  rw [surface_run] at hw
  obtain ⟨mounted, hmounted, hh, -⟩ := hw hr
  have hc : isCaptured (ops.foldl (act invoke) (fresh limit order)) = true := by rw [isCaptured, hr]
  obtain ⟨n, hn, ht⟩ := run_keeps_empty hi hc hmounted hh more hm
  rw [List.foldl_append, ht]
  exact ⟨hr, ⟨mounted, n, hmounted, hn.trans hh.symm, rfl⟩, fun _ _ ho => act_captured (by exact hc) ho,
    fun _ id event => dispatch_captured (by exact hc) id event⟩

/-- A component that fails once its state is set, and gives the setter to the host. -/
def fuse : Component :=
  ((Component.attempt { instruments := true } {} ("function Fuse()\n" ++
    "  local blown, set = React.useState(false)\n" ++
    "  React.stash('set', set)\n" ++
    "  if blown then error('blown') end\n" ++
    "  return 'whole'\nend") "Fuse").component?).getD default

/-- The setter of a fuse that has been mounted once. -/
def fuseSetter : Value := .func 35

/-- The fuse blows when its state has been set from outside. -/
def blow : List Op := [.mount fuse (.obj []), .call fuseSetter [.bool true], .flush]

/-- It is set back, rendered and clicked. -/
def mend : List Op := [.call fuseSetter [.bool false], .flush, .update (.obj []), .dispatch 0 .null]

theorem exists_of_report? (now : Shown) (h : now.report?.isSome = true) : ∃ report, now = .captured report := by
  cases now with
  | captured report => exact ⟨report, rfl⟩
  | empty | rendered => cases h

set_option maxRecDepth 100000 in
theorem captured_absorbs_fuse : Scripted Script.invoke ∧ (∀ op ∈ mend, ¬ op.Clears) ∧ ∃ report,
    (blow.foldl (act Script.invoke) (fresh 25 {})).shown = .captured report ∧
      (captures .empty (shownAlong Script.invoke (fresh 25 {}) blow)).length = 1 ∧
      reports (blow.foldl (act Script.invoke) (fresh 25 {})).events =
        captures .empty (shownAlong Script.invoke (fresh 25 {}) blow) ∧
      Absorbed report (blow.foldl (act Script.invoke) (fresh 25 {}))
        ((blow ++ mend).foldl (act Script.invoke) (fresh 25 {})) := by
  obtain ⟨hreports, habsorbs⟩ := captured_absorbs scripted_invoke 25 {} blow
  obtain ⟨report, hr⟩ := exists_of_report? (blow.foldl (act Script.invoke) (fresh 25 {})).shown (by decide +kernel)
  have hm : ∀ op ∈ mend, ¬ op.Clears := by simp [mend, Op.Clears]
  exact ⟨scripted_invoke, hm, report, hr, by decide +kernel, hreports, habsorbs report hr mend hm⟩

end Surface
end LivePreview
