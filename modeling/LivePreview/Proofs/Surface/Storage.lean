import LivePreview.Proofs.Script.Scripted
import LivePreview.Proofs.Surface.Chronicle

/-! **Hook storage agrees with what a surface shows.**

The invariant says for each of the three things a surface can show what the mounted component holds: nothing at all
under an error, and under output only what belongs to instances of the pass that made it. It speaks of the last pass
on record as well, so that what is shown is known to come from there. Acts of scripts keep the invariant, and so do
calls by the host; a render makes it anew from any state. -/
namespace LivePreview.Surface
open Script Hook
variable {invoke : Invoke} {s : Surface} {record : List Beat} {mounted : Mounted} {nodes : List Node} {m n : Machine}

/-- The store of what is mounted, empty when nothing is. -/
def store (s : Surface) : Store Value :=
  match s.mounted with
  | none => {}
  | some mounted => mounted.component.machine.hooks

theorem store_some (hm : s.mounted = some mounted) : store s = mounted.component.machine.hooks := by
  rw [store, hm]

theorem mounted_unmount (s : Surface) : (s.unmount invoke).1.mounted = none := by
  unfold unmount
  split
  · assumption
  · rfl

theorem store_unmount (s : Surface) : store (s.unmount invoke).1 = {} := by rw [store, mounted_unmount]

/-- What is shown is the output of the last pass that began. Since then the store has made moves of this pass and its
effects and acts of scripts alone, no body runs, no effect is pending and nothing is held for other instances. -/
structure Shows (invoke : Invoke) (w : Watched) (nodes : List Node) (mounted : Mounted) (before after : Machine) :
    Prop where
  mounts : w.surface.mounted = some mounted
  last : (Beat.passes w.record).getLast? = some before
  pass : renderPass invoke mounted.component.render mounted.props before = .ok (nodes, mounted.handlers) after
  path : ∃ bs, Store.Path Value.equals bs before.hooks.beginPass mounted.component.machine.hooks
  rendered : mounted.component.machine.hooks.rendered = after.hooks.rendered
  confined : mounted.component.machine.hooks.Confined
  settled : mounted.component.machine.hooks.pending = []

structure Sound (invoke : Invoke) (w : Watched) : Prop where
  empty : w.surface.shown = .empty ↔ w.surface.mounted = none
  captured : ∀ report, w.surface.shown = .captured report →
    ∃ mounted, w.surface.mounted = some mounted ∧ mounted.component.machine.hooks = {} ∧ mounted.handlers = #[]
  rendered : ∀ nodes, w.surface.shown = .rendered nodes →
    ∃ mounted before after, Shows invoke w nodes mounted before after

/-- Output is shown only while no state has changed. -/
def Clean (s : Surface) : Prop :=
  ∀ nodes mounted, s.shown = .rendered nodes → s.mounted = some mounted →
    mounted.component.machine.hooks.dirty = false

/-! ### A round that gives its output -/

section Settles
variable {order : Order} {render : Value} {props : Json} {before after swept : Machine}
  {output : List Node × Array Value}

/-- The moves of a whole round. -/
theorem Settles.path (hi : Scripted invoke) (h : Settles invoke order render props before after swept output n) :
    ∃ bs, Store.Path Value.equals bs before.hooks.beginPass n.hooks := by
  have hd := renderPass_drawn hi render props before
  rw [last_of_ok h.pass] at hd
  obtain ⟨bs, hp⟩ := hd.path
  have ha := dropStale_acted hi order after
  rw [last_of_ok h.drop] at ha
  obtain ⟨cs, hc⟩ := ha.path
  have hk := settleEffects_keeps (m := swept)
    (P := fun s => ∃ bs, Store.Path Value.equals bs before.hooks.beginPass s)
    (hi.stable fun _ _ _ ha ⟨_, hs⟩ => ⟨_, hs.snoc (.act ha)⟩)
    (fun e _ _ ⟨_, hs⟩ => ⟨_, hs.snoc (.takeCleanup _ e.key e.index)⟩)
    (fun e _ _ v ⟨_, hs⟩ => ⟨_, hs.snoc (.setCleanup _ e.key e.index v)⟩)
    ⟨_, ((hp.snoc (.finishPass _)).trans hc).snoc (.takeEffects _)⟩
  rwa [last_of_ok h.effects] at hk

/-- After a whole round the store is confined to the instances of its pass, and its effects are gone. -/
theorem Settles.confined (hi : Scripted invoke) (h : Settles invoke order render props before after swept output n) :
    n.hooks.Confined ∧ n.hooks.pending = [] ∧ n.hooks.rendered = after.hooks.rendered := by
  have ha := dropStale_acted hi order after
  rw [last_of_ok h.drop] at ha
  have hw : swept.hooks.Confined := ha.keeps (fun _ _ _ ha hs => ha.confined hs)
    (Store.confined_finishPass (renderPass_closes h.pass))
  have hr : swept.hooks.rendered = after.hooks.rendered := ha.rendered
  have hk := settleEffects_keeps (m := swept)
    (P := fun s => s.Confined ∧ s.pending = [] ∧ s.rendered = after.hooks.rendered)
    (hi.stable fun _ _ _ ha hs => ⟨ha.confined hs.1, ha.pending_nil hs.1 hs.2.1, ha.rendered.trans hs.2.2⟩)
    (fun e _ _ hs => ⟨hs.1.takeCleanup e.key e.index, hs.2⟩)
    (fun e he _ v hs => ⟨hs.1.setCleanup (hs.2.2 ▸ hr ▸ hw.pending e he) e.index v, hs.2⟩)
    ⟨{ hw with pending := fun e he => nomatch he }, rfl, hr⟩
  rwa [last_of_ok h.effects] at hk

end Settles

/-! ### Rendering -/

theorem render_ok (phase : Phase) {output} (hm : s.mounted = some mounted)
    (hc : cycle invoke s.order s.maxRerenders mounted.component.render mounted.props (s.maxRerenders + 1)
      mounted.component.machine = .ok output n) :
    render invoke phase s =
        { s with mounted := some { mounted.on n with handlers := output.2 }, shown := .rendered output.1 } ∧
      (tellRender invoke phase s).story = (tellCycle invoke s.order mounted.component.render mounted.props
        s.maxRerenders (s.maxRerenders + 1)).story mounted.component.machine := by
  rw [story_tellRender phase hm]
  unfold render
  rw [hm]
  dsimp only
  rw [hc]
  exact ⟨rfl, List.append_nil _⟩

theorem render_error (phase : Phase) {e : RenderError} (hm : s.mounted = some mounted)
    (hc : cycle invoke s.order s.maxRerenders mounted.component.render mounted.props (s.maxRerenders + 1)
      mounted.component.machine = .error e n) :
    (render invoke phase s).shown = .captured ⟨e, mounted.component.name, phase⟩ ∧
      (render invoke phase s).mounted = some { mounted with
        component := (release invoke s.order { mounted.component with machine := n }).1, handlers := #[] } := by
  unfold render
  rw [hm]
  dsimp only
  rw [hc]
  exact ⟨rfl, rfl⟩

/-- **A render makes storage agree with what it shows**, whatever was there before it. -/
theorem render_sound (hi : Scripted invoke) (phase : Phase) (hm : s.mounted = some mounted) (record : List Beat) :
    Sound invoke ⟨render invoke phase s, record ++ (tellRender invoke phase s).story⟩ ∧
      Clean (render invoke phase s) := by
  cases hc : cycle invoke s.order s.maxRerenders mounted.component.render mounted.props (s.maxRerenders + 1)
      mounted.component.machine with
  | ok output n =>
    obtain ⟨hr, hk⟩ := render_ok phase hm hc
    obtain ⟨before, after, swept, hl, hs⟩ := cycle_ok hc
    obtain ⟨hf, hp, hd⟩ := hs.confined hi
    rw [hr, hk]
    refine ⟨⟨⟨nofun, nofun⟩, nofun, fun nodes hn => ?_⟩, fun nodes _ hn hm => ?_⟩
    · cases hn
      refine ⟨_, before, after, rfl, ?_, hs.pass, hs.path hi, hd, hf, hp⟩
      rw [passes_append, List.getLast?_append, hl]
      rfl
    · cases hm
      exact hs.clean
  | error e n =>
    obtain ⟨hs, hr⟩ := render_error phase hm hc
    refine ⟨⟨⟨fun h => ?_, fun h => ?_⟩, fun report h => ⟨_, hr, release_hooks hi .., rfl⟩, fun nodes h => ?_⟩,
      fun nodes _ h _ => ?_⟩
    · exact nomatch hs.symm.trans h
    · exact nomatch hr.symm.trans h
    · exact nomatch hs.symm.trans h
    · exact nomatch hs.symm.trans h

/-! ### Calls from outside -/

/-- What is told besides passes changes nothing of what is known. -/
theorem Sound.tell (hs : Sound invoke ⟨s, record⟩) {log : List Beat} (hl : Beat.passes log = []) :
    Sound invoke ⟨s, record ++ log⟩ := by
  refine ⟨hs.empty, hs.captured, fun nodes h => ?_⟩
  obtain ⟨mounted, before, after, h⟩ := hs.rendered nodes h
  refine ⟨mounted, before, after, { h with last := ?_ }⟩
  rw [passes_append, hl, List.append_nil]
  exact h.last

/-- Acts of scripts between passes change nothing of what is known. -/
theorem Sound.on (hs : Sound invoke ⟨s, record⟩) (hm : s.mounted = some mounted)
    (ha : Store.Acted Value.equals mounted.component.machine.hooks n.hooks) :
    Sound invoke ⟨{ s with mounted := some (mounted.on n) }, record⟩ := by
  refine ⟨⟨fun h => ?_, nofun⟩, fun report h => ?_, fun nodes h => ?_⟩
  · exact nomatch hm.symm.trans (hs.empty.1 h)
  · obtain ⟨mounted', hm', he, hh⟩ := hs.captured report h
    cases hm.symm.trans hm'
    exact ⟨_, rfl, (he ▸ ha).empty, hh⟩
  · obtain ⟨mounted', before, after, hm', hl, hp, ⟨bs, hpath⟩, hr, hc, he⟩ := hs.rendered nodes h
    cases hm.symm.trans hm'
    obtain ⟨cs, hcs⟩ := ha.path
    have hk := ha.keeps (P := fun s => s.Confined ∧ s.pending = [])
      (fun _ _ _ ha hs => ⟨ha.confined hs.1, ha.pending_nil hs.1 hs.2⟩) ⟨hc, he⟩
    exact ⟨_, before, after, rfl, hl, hp, ⟨_, hpath.trans hcs⟩, ha.rendered.trans hr, hk.1, hk.2⟩

section Keeps
variable {P : Store Value → Prop}

/-- A handler keeps what calls keep, on the machine of what is mounted, also when it fails. -/
theorem handle_keeps (hc : ∀ trail v args, Stable P (invoke trail v args)) (callback : Value) (event : Json)
    (mounted : Mounted) (h : P mounted.component.machine.hooks) :
    ∃ n, (handle invoke callback event mounted).1 = mounted.on n ∧ P n.hooks := by
  have hk : Stable P (Run.forHost (do
      let v ← event.toValue
      let _ ← invoke Trail.host callback [v])) :=
    budgeted_stable _ (across_stable (.bind (toValue_stable event) fun v => .bind (hc ..) fun _ => .pure ()))
  have hn := hk.keep mounted.component.machine h
  unfold handle
  dsimp only
  split
  · rename_i he
    rw [last_of_ok he] at hn
    exact ⟨_, rfl, hn⟩
  · rename_i he
    rw [last_of_error he] at hn
    exact ⟨_, rfl, hn⟩

theorem call_keeps (hc : ∀ trail v args, Stable P (invoke trail v args)) (f : Value) (args : List Value)
    (hm : s.mounted = some mounted) (h : P mounted.component.machine.hooks) :
    ∃ n, (s.call invoke f args).1 = { s with mounted := some (mounted.on n) } ∧ P n.hooks := by
  have hn := (across_stable (hc Trail.host f args)).keep mounted.component.machine h
  unfold call
  rw [hm]
  dsimp only
  split
  · rename_i he
    rw [last_of_ok he] at hn
    exact ⟨_, rfl, hn⟩
  · rename_i he
    rw [last_of_error he] at hn
    exact ⟨_, rfl, hn⟩

end Keeps

/-- A handler acts on the machine of what is mounted, also when it fails. -/
theorem handle_acted (hi : Scripted invoke) (callback : Value) (event : Json) (mounted : Mounted) :
    ∃ n, (handle invoke callback event mounted).1 = mounted.on n ∧
      Store.Acted Value.equals mounted.component.machine.hooks n.hooks :=
  handle_keeps (hi.stable fun _ _ _ ha hs => hs.tail ⟨_, ha⟩) callback event mounted .refl

theorem call_acted (hi : Scripted invoke) (f : Value) (args : List Value) (hm : s.mounted = some mounted) :
    ∃ n, (s.call invoke f args).1 = { s with mounted := some (mounted.on n) } ∧
      Store.Acted Value.equals mounted.component.machine.hooks n.hooks :=
  call_keeps (hi.stable fun _ _ _ ha hs => hs.tail ⟨_, ha⟩) f args hm .refl

theorem handler?_ok {id : Nat} {callback : Value} (h : s.handler? id = .ok (mounted, callback)) :
    s.mounted = some mounted ∧ mounted.handlers[id]? = some callback := by
  unfold handler? at h
  split at h
  · exact nomatch h
  · split at h
    · exact nomatch h
    · split at h
      · exact nomatch h
      · cases h
        exact ⟨‹_›, ‹_›⟩

/-! ### Operations -/

theorem isCaptured_of_rendered (h : s.shown = .rendered nodes) : s.isCaptured = false := by
  rw [isCaptured, h]

/-- A flush renders, or there was nothing to render. -/
theorem flush_sound (hi : Scripted invoke) (hs : Sound invoke ⟨s, record⟩) :
    Sound invoke ⟨flush invoke s, record ++ (tellFlush invoke s).story⟩ ∧ Clean (flush invoke s) := by
  unfold flush tellFlush
  cases hm : s.mounted with
  | none => exact ⟨(List.append_nil record).symm ▸ hs, fun nodes mounted _ h => nomatch hm.symm.trans h⟩
  | some mounted =>
    dsimp only
    split
    · exact render_sound hi _ hm record
    · rename_i hd
      refine ⟨(List.append_nil record).symm ▸ hs, fun nodes mounted' hn hm' => ?_⟩
      cases hm.symm.trans hm'
      rw [isCaptured_of_rendered hn, Bool.not_false, Bool.and_true] at hd
      exact eq_false_of_ne_true hd

theorem unmount_sound (invoke : Invoke) (s : Surface) (record : List Beat) :
    Sound invoke ⟨(s.unmount invoke).1, record⟩ := by
  have h : (s.unmount invoke).1.shown = .empty ∧ (s.unmount invoke).1.mounted = none := by
    refine ⟨?_, mounted_unmount s⟩
    unfold unmount
    split <;> rfl
  exact ⟨⟨fun _ => h.2, fun _ => h.1⟩, fun report hr => (nomatch h.1.symm.trans hr),
    fun nodes hn => (nomatch h.1.symm.trans hn)⟩

/-- Whatever has happened to the surface and to the component, it starts with an empty store. -/
theorem place_mounted (hi : Scripted invoke) (c : Component) (props : Json) (s : Surface) :
    ∃ mounted, (s.place invoke c props).mounted = some mounted ∧ mounted.component.machine.hooks = {} :=
  ⟨_, rfl, release_hooks hi s.order c⟩

/-- **Every operation keeps storage and what is shown in agreement.** -/
theorem Sound.step (hi : Scripted invoke) {w : Watched} (hs : Sound invoke w) (op : Op) :
    Sound invoke (w.step invoke op) := by
  obtain ⟨s, record⟩ := w
  cases op with
  | mount c props =>
    obtain ⟨mounted, hm, -⟩ := place_mounted hi c props (s.unmount invoke).1
    have h := (render_sound hi .mount hm (record ++ ((tellUnmount invoke s).story ++
      (tellPlace invoke c props (s.unmount invoke).1).story))).1
    simpa only [Watched.step, act, beats_mount, mount, List.append_assoc] using h
  | update props =>
    show Sound invoke ⟨s.update invoke props, record ++ (tellUpdate invoke props s).story⟩
    unfold update tellUpdate
    split
    · exact (List.append_nil record).symm ▸ hs
    · cases hm : s.mounted with
      | none => exact (List.append_nil record).symm ▸ hs
      | some mounted => exact (render_sound hi .update rfl record).1
  | flush => exact (flush_sound hi hs).1
  | dispatch id event =>
    cases hh : s.handler? id with
    | error e =>
      rw [Watched.step, beats_dispatch_error event hh, act, dispatch, hh, List.append_nil]
      exact hs
    | ok r =>
      obtain ⟨mounted, callback⟩ := r
      obtain ⟨n, hn, ha⟩ := handle_acted hi callback event mounted
      have ht := hs.tell (passes_of_outside (@outside_tellHandle invoke callback event mounted))
      rw [Watched.step, beats_dispatch event hh, act, dispatch, hh, ← List.append_assoc]
      dsimp only
      rw [hn]
      exact (flush_sound hi (ht.on (handler?_ok hh).1 ha)).1
  | unmount => exact unmount_sound invoke s _
  | call f args =>
    have ht := hs.tell (passes_of_outside (@outside_call invoke f args s))
    cases hm : s.mounted with
    | none =>
      have hc : act invoke s (.call f args) = s := by
        show (s.call invoke f args).1 = s
        rw [call, hm]
      rw [Watched.step, hc]
      exact ht
    | some mounted =>
      obtain ⟨n, hn, ha⟩ := call_acted hi f args hm
      have hc : act invoke s (.call f args) = { s with mounted := some (mounted.on n) } := hn
      rw [Watched.step, hc]
      exact ht.on hm ha

theorem sound_fresh (invoke : Invoke) (limit : Nat) (order : Order) : Sound invoke (Watched.fresh limit order) where
  empty := ⟨fun _ => rfl, fun _ => rfl⟩
  captured _ h := nomatch h
  rendered _ h := nomatch h

theorem sound_run (hi : Scripted invoke) (limit : Nat) (order : Order) (ops : List Op) :
    Sound invoke ((Watched.fresh limit order).run invoke ops) :=
  Watched.run_keeps (fun _ op hw => hw.step hi op) _ ops (sound_fresh invoke limit order)

/-! ### Agreement -/

/-- What is held agrees with what is shown, also when the component is next given back or another one is mounted. -/
structure Agrees (invoke : Invoke) (w : Watched) : Prop where
  empty : w.surface.shown = .empty ↔ w.surface.mounted = none
  captured : ∀ report, w.surface.shown = .captured report →
    ∃ mounted, w.surface.mounted = some mounted ∧ mounted.component.machine.hooks = {} ∧ mounted.handlers = #[]
  rendered : ∀ nodes, w.surface.shown = .rendered nodes → ∃ mounted before after,
    w.surface.mounted = some mounted ∧ (Beat.passes w.record).getLast? = some before ∧
      renderPass invoke mounted.component.render mounted.props before = .ok (nodes, mounted.handlers) after ∧
      (∀ e ∈ mounted.component.machine.hooks.slots, e.1 ∈ after.hooks.rendered) ∧
      (∀ c ∈ mounted.component.machine.hooks.cleanups, c.1.1 ∈ after.hooks.rendered) ∧
      mounted.component.machine.hooks.pending = []
  released : ∀ c, (w.surface.unmount invoke).2 = some c → c.machine.hooks = {}
  mounts : ∀ c props, ∃ start,
    (Beat.passes (beats invoke w.surface (.mount c props))).head? = some start ∧ start.hooks = {}

theorem unmount_hooks (hi : Scripted invoke) {c : Component} (h : (s.unmount invoke).2 = some c) :
    c.machine.hooks = {} := by
  unfold unmount at h
  split at h
  · exact nomatch h
  · cases h
    exact release_hooks hi ..

/-- The first pass of a render begins with the store as it is. -/
theorem head_passes_tellRender (phase : Phase) (hm : s.mounted = some mounted) :
    (Beat.passes (tellRender invoke phase s).story).head? = some mounted.component.machine := by
  rw [story_tellRender phase hm, passes_append, tellCycle, passes_bind, passes_tellRound]
  rfl

/-- Passes begin in a mount when the component has been put in its place. -/
theorem passes_mount (c : Component) (props : Json) (s : Surface) :
    Beat.passes (beats invoke s (.mount c props)) =
      Beat.passes (tellRender invoke .mount ((s.unmount invoke).1.place invoke c props)).story := by
  rw [beats_mount, passes_append, passes_append, passes_tellUnmount, passes_tellPlace]
  rfl

theorem head_passes_mount (hi : Scripted invoke) (c : Component) (props : Json) (s : Surface) :
    ∃ start, (Beat.passes (beats invoke s (.mount c props))).head? = some start ∧ start.hooks = {} := by
  obtain ⟨mounted, hm, hh⟩ := place_mounted hi c props (s.unmount invoke).1
  refine ⟨mounted.component.machine, ?_, hh⟩
  rw [passes_mount]
  exact head_passes_tellRender .mount hm

/-- **After every run of operations, hook storage agrees with what the surface shows.** -/
theorem storage_agrees (hi : Scripted invoke) (limit : Nat) (order : Order) (ops : List Op) :
    Agrees invoke ((Watched.fresh limit order).run invoke ops) := by
  have hs := sound_run hi limit order ops
  refine ⟨hs.empty, hs.captured, fun nodes hn => ?_, fun c hc => unmount_hooks hi hc,
    fun c props => head_passes_mount hi c props _⟩
  obtain ⟨mounted, before, after, h⟩ := hs.rendered nodes hn
  refine ⟨mounted, before, after, h.mounts, h.last, h.pass, fun e he => ?_, fun c hc => ?_, h.settled⟩
  · exact h.rendered ▸ h.confined.slots e he
  · exact h.rendered ▸ h.confined.cleanups c hc

/-- A component with a state and an effect, which gives its setter to the host. -/
def lamp : Component :=
  ((Component.attempt { instruments := true } {} ("function Lamp()\n" ++
    "  local lit, set = React.useState(false)\n" ++
    "  React.useEffect(function() return function() end end, {})\n" ++
    "  React.stash('set', set)\n" ++
    "  return lit and 'on' or 'off'\nend") "Lamp").component?).getD default

/-- The setter of a lamp that has been mounted once. -/
def lampSetter : Value := .func 35

def isRendered (s : Surface) : Bool :=
  match s.shown with
  | .rendered _ => true
  | _ => false

theorem exists_of_isRendered (h : isRendered s = true) : ∃ nodes, s.shown = .rendered nodes := by
  unfold isRendered at h
  split at h
  · exact ⟨_, ‹_›⟩
  · exact nomatch h

set_option maxRecDepth 100000 in
theorem storage_agrees_lamp : Scripted Script.invoke ∧ ∃ nodes mounted before after,
    let w := (Watched.fresh 25 {}).run Script.invoke [.mount lamp (.obj []), .call lampSetter [.bool true], .flush]
    w.surface.shown = .rendered nodes ∧ w.surface.mounted = some mounted ∧
      (Beat.passes w.record).getLast? = some before ∧
      renderPass Script.invoke mounted.component.render mounted.props before = .ok (nodes, mounted.handlers) after ∧
      (∀ e ∈ mounted.component.machine.hooks.slots, e.1 ∈ after.hooks.rendered) ∧
      (∀ c ∈ mounted.component.machine.hooks.cleanups, c.1.1 ∈ after.hooks.rendered) ∧
      mounted.component.machine.hooks.pending = [] := by
  have hw := storage_agrees scripted_invoke 25 {} [.mount lamp (.obj []), .call lampSetter [.bool true], .flush]
  obtain ⟨nodes, hn⟩ := exists_of_isRendered (s := ((Watched.fresh 25 {}).run Script.invoke
    [.mount lamp (.obj []), .call lampSetter [.bool true], .flush]).surface) (by decide +kernel)
  obtain ⟨mounted, before, after, h⟩ := hw.rendered nodes hn
  exact ⟨scripted_invoke, nodes, mounted, before, after, hn, h⟩

end LivePreview.Surface
