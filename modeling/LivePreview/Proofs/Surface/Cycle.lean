import LivePreview.Proofs.Surface.Pass
import LivePreview.Surface.Basic

/-! What the parts of an update do to the hook store: a pass, the cleanups of what it has left out, the effects, and
the release of everything. Each part is described once, for every way in which it can end. -/
namespace LivePreview.Surface
open Script Hook
variable {ε α β : Type} {P : Store Value → Prop} {m n : Machine}

/-! ### Runs on a machine as parts of an update -/

theorem last_ofRun (r : Run α) (m : Machine) : Run.last (Cycle.ofRun r) m = Run.last r m := by
  unfold Run.last Cycle.ofRun
  cases r m <;> rfl

theorem ofRun_stable {r : Run α} (h : Stable P r) : Stable P (Cycle.ofRun r) := by
  refine ⟨fun m hm => ?_⟩
  rw [last_ofRun]
  exact h.keep m hm

/-- An allowance is not about hook state. -/
theorem hooks_budgeted (panics : ε → Bool) (r : EStateM ε Machine α) (m : Machine) :
    (Run.last (budgeted panics r) m).hooks =
      (Run.last r { m with steps := some m.allowance, taken := 0 }).hooks := by
  unfold Run.last budgeted
  cases r { m with steps := some m.allowance, taken := 0 } with
  | ok a n => rfl
  | error e n =>
    dsimp only
    split <;> rfl

theorem budgeted_stable (panics : ε → Bool) {r : EStateM ε Machine α} (h : Stable P r) :
    Stable P (budgeted panics r) := by
  refine ⟨fun m hm => ?_⟩
  show P _
  rw [hooks_budgeted]
  exact h.keep { m with steps := some m.allowance, taken := 0 } hm

theorem budgeted_ok {panics : ε → Bool} {r : EStateM ε Machine α} {a : α} (h : budgeted panics r m = .ok a n) :
    ∃ l, r { m with steps := some m.allowance, taken := 0 } = .ok a l ∧ n = { l with steps := none } := by
  unfold budgeted at h
  split at h
  · cases h
    exact ⟨_, ‹_›, rfl⟩
  · exact nomatch h

theorem ofRun_ok {r : Run α} {a : α} (h : Cycle.ofRun r m = .ok a n) : r m = .ok a n := by
  unfold Cycle.ofRun at h
  split at h
  · cases h
    assumption
  · exact nomatch h

/-! ### A pass -/

mutual

theorem toValue_stable (j : Json) : Stable P j.toValue := by
  match j with
  | .null | .bool _ | .int _ | .num _ => exact .pure _
  | .str s => exact newString_stable _
  | .arr items => exact .bind (toValues_stable items) fun _ => newTable_stable _
  | .obj members => exact .bind (toTable_stable {} members) fun _ => newTable_stable _

theorem toValues_stable (js : List Json) : Stable P (Json.toValues js) := by
  match js with
  | [] => exact .pure []
  | j :: js => exact .bind (toValue_stable j) fun _ => .bind (toValues_stable js) fun _ => .pure _

theorem toTable_stable (t : Table) (members : List (String × Json)) : Stable P (Json.toTable t members) := by
  match members with
  | [] => exact .pure t
  | (name, j) :: r => exact .bind (toValue_stable j) fun v => toTable_stable _ r

end

theorem toProps_stable (props : Json) : Stable P props.toProps := by
  cases props
  case obj members => exact toValue_stable _
  all_goals exact newTable_stable {}

/-- A pass keeps what holds of the store from which everything of the pass before has gone. -/
theorem renderPass_keeps {invoke : Invoke} (hc : Pass.Carried invoke P) (render : Value) (props : Json)
    (hm : P m.hooks.beginPass) : P (Run.last (renderPass invoke render props) m).hooks := by
  have hs : Stable P (budgeted RenderError.isPanic (do
      let v ← Cycle.ofRun props.toProps
      (Pass.root invoke render v).run #[])) :=
    budgeted_stable _ (.bind (ofRun_stable (toProps_stable props)) fun v => (Pass.root_draws hc render v).keep #[])
  exact hs.keep { m with hooks := m.hooks.beginPass } hm

theorem renderPass_drawn {invoke : Invoke} (hi : Scripted invoke) (render : Value) (props : Json) (m : Machine) :
    Store.Drawn Value.equals m.hooks.beginPass (Run.last (renderPass invoke render props) m).hooks := by
  refine renderPass_keeps (P := Store.Drawn Value.equals m.hooks.beginPass) ⟨?_, ?_, ?_⟩ render props .refl
  · exact hi.stable fun _ _ _ ha hs => hs.act ha
  · exact fun _ key hs => hs.enter key
  · exact fun _ hs => hs.exit

/-- A pass that gives nodes leaves no body open. -/
theorem renderPass_closes {invoke : Invoke} {render : Value} {props : Json} {out}
    (h : renderPass invoke render props m = .ok out n) : n.hooks.frame = none := by
  obtain ⟨l, hl, rfl⟩ := budgeted_ok (m := { m with hooks := m.hooks.beginPass }) h
  obtain ⟨v, k, hv, hr⟩ := bind_ok hl
  have hc : Pass.Carried invoke fun _ => True := ⟨fun _ _ _ => ⟨fun _ _ => trivial⟩, fun _ _ _ => trivial,
    fun _ _ => trivial⟩
  refine (Pass.root_draws hc render v).closes #[] k out l hr ?_
  rw [← last_of_ok hv]
  exact (ofRun_stable (toProps_stable props)).keep (P := .onHooks fun s => s.frame = none) _ rfl

/-! ### Cleanups and effects -/

section Calls
variable {invoke : Invoke} (hc : ∀ trail v args, Stable P (invoke trail v args))
include hc

theorem callAll_stable (fs : List Value) : Stable P (callAll invoke fs) := by
  induction fs with
  | nil => exact .pure ()
  | cons f fs ih => exact .bind (first_stable (hc ..)) fun _ => ih

/-- The cleanups of left out instances are called when these are forgotten. -/
theorem dropStale_keeps (order : Order) (hm : P m.hooks.finishPass.2) :
    P (Run.last (dropStale invoke order) m).hooks := by
  have hs := budgeted_stable RenderError.isPanic
    (ofRun_stable (callAll_stable hc (order.arrange m m.hooks.finishPass.1)))
  exact hs.keep { m with hooks := m.hooks.finishPass.2 } hm

theorem cleanBefore_stable {e : Effect Value} (ht : ∀ s, P s → P (s.takeCleanup e.key e.index).2) :
    Stable P (cleanBefore invoke e) := by
  refine .bind ⟨fun m hm => ht m.hooks hm⟩ fun cleanup? => ?_
  cases cleanup? with
  | none => exact .pure ()
  | some cleanup => exact .bind (first_stable (hc ..)) fun _ => .pure ()

omit hc in
theorem register_stable {e : Effect Value} (hs : ∀ s v, P s → P (s.setCleanup e.key e.index v)) (given : Value) :
    Stable P (register e given) := by
  cases given
  case func place => exact ⟨fun m hm => hs m.hooks _ hm⟩
  all_goals exact .pure ()

/-- Effects keep what calls keep and what the two moves that are made for each of them keep. -/
theorem runEffects_stable (effects : List (Effect Value))
    (ht : ∀ e ∈ effects, ∀ s, P s → P (s.takeCleanup e.key e.index).2)
    (hs : ∀ e ∈ effects, ∀ s v, P s → P (s.setCleanup e.key e.index v)) : Stable P (runEffects invoke effects) := by
  induction effects with
  | nil => exact .pure ()
  | cons e es ih =>
    have he := List.mem_cons_self (a := e) (l := es)
    refine .bind (cleanBefore_stable hc (ht e he)) fun _ => .bind (first_stable (hc ..)) fun v => ?_
    refine .bind (register_stable (hs e he) v) fun _ => ih (fun d hd => ht d (List.mem_cons_of_mem e hd)) ?_
    exact fun d hd => hs d (List.mem_cons_of_mem e hd)

theorem settleEffects_keeps (ht : ∀ e ∈ m.hooks.pending, ∀ s, P s → P (s.takeCleanup e.key e.index).2)
    (hs : ∀ e ∈ m.hooks.pending, ∀ s v, P s → P (s.setCleanup e.key e.index v)) (hm : P m.hooks.takeEffects.2) :
    P (Run.last (settleEffects invoke) m).hooks := by
  have hb := budgeted_stable RenderError.isPanic (ofRun_stable (runEffects_stable hc _ ht hs))
  exact hb.keep { m with hooks := m.hooks.takeEffects.2 } hm

/-- Cleanups of a released component begin with an empty store. -/
theorem release_keeps (order : Order) (c : Component) (h : P {}) : P (release invoke order c).1.machine.hooks := by
  have hs (fs : List Value) : Stable P (Run.forHost (callAll invoke fs)) :=
    budgeted_stable _ (across_stable (callAll_stable hc fs))
  unfold release
  dsimp only
  split
  · exact h
  · have hk := (hs (order.arrange c.machine c.machine.hooks.reset.1)).keep
      { c.machine with hooks := c.machine.hooks.reset.2 } h
    split
    · rename_i he
      rwa [last_of_ok he] at hk
    · rename_i he
      rwa [last_of_error he] at hk

end Calls

/-- What the cleanups of left out instances do follows on forgetting these. -/
theorem dropStale_acted {invoke : Invoke} (hi : Scripted invoke) (order : Order) (m : Machine) :
    Store.Acted Value.equals m.hooks.finishPass.2 (Run.last (dropStale invoke order) m).hooks :=
  dropStale_keeps (hi.stable fun _ _ _ ha hs => hs.tail ⟨_, ha⟩) order .refl

/-- **A released component has an empty store**, whatever its cleanups do. -/
theorem release_hooks {invoke : Invoke} (hi : Scripted invoke) (order : Order) (c : Component) :
    (release invoke order c).1.machine.hooks = {} :=
  release_keeps (P := (· = {})) (hi.stable fun _ _ _ ha hs => (hs ▸ ha).empty) order c rfl

/-! ### Rounds -/

/-- A round that gives its output has gone through a pass, the cleanups of what it has left out and its effects, and
none of them has left the store dirty. -/
structure Settles (invoke : Invoke) (order : Order) (render : Value) (props : Json) (before after swept : Machine)
    (output : List Node × Array Value) (n : Machine) : Prop where
  pass : renderPass invoke render props before = .ok output after
  drop : dropStale invoke order after = .ok () swept
  effects : settleEffects invoke swept = .ok () n
  clean : n.hooks.dirty = false

theorem round_some {invoke : Invoke} {order : Order} {render : Value} {props : Json} {output}
    (h : round invoke order render props m = .ok (some output) n) :
    ∃ after swept, Settles invoke order render props m after swept output n := by
  obtain ⟨out, after, hp, h⟩ := bind_ok h
  obtain ⟨_, swept, hd, h⟩ := bind_ok h
  obtain ⟨dirty, l, hg, h⟩ := bind_ok h
  cases hg
  split at h
  · exact nomatch h
  · obtain ⟨_, k, he, h⟩ := bind_ok h
    obtain ⟨dirty, l, hg, h⟩ := bind_ok h
    cases hg
    split at h
    · exact nomatch h
    · cases h
      exact ⟨after, swept, hp, hd, he, eq_false_of_ne_true ‹_›⟩

end LivePreview.Surface
