import LivePreview.Proofs.Surface.Storage

/-! **No change of state is left unrendered.**

State may be set while a body runs, in an effect, in a cleanup, in a handler or by the host between operations. When
an operation that renders where it must has come back with output, then the output and the handlers are those of one
pass, and no move since the beginning of that pass has given a state another value. An event for a handler that is
not there is turned away before anything is looked at, and state that the host has set stays for the next flush. -/
namespace LivePreview.Surface
open Script Hook
variable {invoke : Invoke} {s : Surface} {nodes : List Node}

/-- What is shown and what is handled come from the last pass that began, and nothing has changed since it began. -/
structure Current (invoke : Invoke) (w : Watched) (nodes : List Node) (mounted : Mounted) (before after : Machine) :
    Prop where
  mounts : w.surface.mounted = some mounted
  last : (Beat.passes w.record).getLast? = some before
  pass : renderPass invoke mounted.component.render mounted.props before = .ok (nodes, mounted.handlers) after
  clean : mounted.component.machine.hooks.dirty = false
  moves : ∃ bs, Store.Path Value.equals bs before.hooks.beginPass mounted.component.machine.hooks
  unchanged : ∀ bs, Store.Path Value.equals bs before.hooks.beginPass mounted.component.machine.hooks → true ∉ bs

/-- Whether an operation brings the output up to date: a mount, an update or a flush does, and an event that finds
its handler. -/
def Op.Renews (s : Surface) : Op → Prop
  | .mount _ _ | .update _ | .flush => True
  | .dispatch id _ => ∃ r, s.handler? id = .ok r
  | .unmount | .call _ _ => False

/-- A path that begins and ends without a change to render has none on the way. -/
theorem unchanged_of_clean {V : Type} {same : V → V → Bool} {s t : Store V} {bs : List Bool}
    (h : Store.Path same bs s t) (ht : t.dirty = false) : true ∉ bs := by
  intro hb
  rw [h.dirty, Bool.or_eq_false_iff] at ht
  exact absurd (List.any_eq_true.2 ⟨true, hb, rfl⟩) (ne_true_of_eq_false ht.2)

/-- An operation that renews the output leaves nothing to render under it. -/
theorem clean_act (hi : Scripted invoke) {w : Watched} (hs : Sound invoke w) {op : Op} (ho : op.Renews w.surface) :
    Clean (act invoke w.surface op) := by
  obtain ⟨s, record⟩ := w
  cases op with
  | mount c props =>
    obtain ⟨mounted, hm, -⟩ := place_mounted hi c props (s.unmount invoke).1
    exact (render_sound hi .mount hm record).2
  | update props =>
    unfold act update
    dsimp only
    split
    · rename_i hc
      intro nodes mounted hn
      exact absurd (isCaptured_of_rendered hn) (ne_false_of_eq_true hc)
    · cases hm : s.mounted with
      | none => exact fun nodes mounted _ h => nomatch hm.symm.trans h
      | some mounted => exact (render_sound hi .update rfl record).2
  | flush => exact (flush_sound hi hs).2
  | dispatch id event =>
    obtain ⟨⟨mounted, callback⟩, hh⟩ := ho
    obtain ⟨n, hn, ha⟩ := handle_acted hi callback event mounted
    unfold act dispatch
    dsimp only at hh ⊢
    rw [hh]
    dsimp only
    rw [hn]
    exact (flush_sound hi (hs.on (handler?_ok hh).1 ha)).2
  | unmount => exact ho.elim
  | call f args => exact ho.elim

/-- **After every run that ends with an operation which renews the output, whatever output is shown is current.** -/
theorem nothing_unrendered (hi : Scripted invoke) (limit : Nat) (order : Order) (ops : List Op) (op : Op)
    (ho : op.Renews ((Watched.fresh limit order).run invoke ops).surface)
    (hn : ((Watched.fresh limit order).run invoke (ops ++ [op])).surface.shown = .rendered nodes) :
    ∃ mounted before after,
      Current invoke ((Watched.fresh limit order).run invoke (ops ++ [op])) nodes mounted before after := by
  rw [Watched.run_append] at hn ⊢
  have hs := sound_run hi limit order ops
  obtain ⟨mounted, before, after, h⟩ := (hs.step hi op).rendered nodes hn
  have hc := clean_act hi hs ho nodes mounted hn h.mounts
  exact ⟨mounted, before, after, h.mounts, h.last, h.pass, hc, h.path, fun bs hp => unchanged_of_clean hp hc⟩

/-- The host sets the state of a lamp, and a flush shows it. -/
def switched : List Op := [.mount lamp (.obj []), .call lampSetter [.bool true]]

set_option maxRecDepth 100000 in
theorem nothing_unrendered_lamp : Scripted Script.invoke ∧
    Op.Renews ((Watched.fresh 25 {}).run Script.invoke switched).surface .flush ∧
    ∃ nodes mounted before after,
      ((Watched.fresh 25 {}).run Script.invoke (switched ++ [.flush])).surface.shown = .rendered nodes ∧
      Current Script.invoke ((Watched.fresh 25 {}).run Script.invoke (switched ++ [.flush])) nodes mounted before
        after := by
  obtain ⟨nodes, hn⟩ := exists_of_isRendered (s := ((Watched.fresh 25 {}).run Script.invoke
    (switched ++ [.flush])).surface) (by decide +kernel)
  obtain ⟨mounted, before, after, h⟩ := nothing_unrendered scripted_invoke 25 {} switched .flush trivial hn
  exact ⟨scripted_invoke, trivial, nodes, mounted, before, after, hn, h⟩

/-- An event for a handler that is not there leaves the state that the host has set unrendered. -/
theorem unknown_handler_unrendered : ¬ ∀ (ops : List Op) (id : Nat) (event : Json) (nodes : List Node),
    ((Watched.fresh 25 {}).run Script.invoke (ops ++ [.dispatch id event])).surface.shown = .rendered nodes →
      ∃ mounted,
        ((Watched.fresh 25 {}).run Script.invoke (ops ++ [.dispatch id event])).surface.mounted = some mounted ∧
          mounted.component.machine.hooks.dirty = false := by
  intro h
  have hs : isRendered ((Watched.fresh 25 {}).run Script.invoke (switched ++ [.dispatch 99 .null])).surface = true ∧
      ((Watched.fresh 25 {}).run Script.invoke (switched ++ [.dispatch 99 .null])).surface.mounted.map
        (·.component.machine.hooks.dirty) = some true := by decide +kernel
  obtain ⟨nodes, hn⟩ := exists_of_isRendered hs.1
  obtain ⟨mounted, hm, hd⟩ := h switched 99 .null nodes hn
  have ht := hs.2
  rw [hm] at ht
  exact Bool.noConfusion (hd.symm.trans (Option.some.inj ht))

end LivePreview.Surface
