import LivePreview.Proofs.Script.Recorded
import LivePreview.Proofs.Surface.Capture

/-! The log of a surface: what its operations do to the store of what is mounted.

One log goes through all operations (`Logged`). Passes in it begin with the very stores with which the passes on record
begin. What is taken down leaves an empty store, and so does what is captured; what is mounted starts with one. At the
end of an operation no body runs, and no effects are under way (`Calm`). -/
namespace LivePreview.Surface
open Script Hook
variable {ε α β : Type} {invoke : Invoke} {m : Machine}
  {start s t : Store Value} {log rest : List Moment} {key : Key} {index : Nat}

/-- The stores in which passes begin. -/
def begun (log : List Moment) : List (Store Value) := log.filterMap fun e =>
  match e.2 with
  | .beginPass => some e.1
  | _ => none

/-- No body runs, and no effects are under way. -/
def Calm (log : List Moment) (s : Store Value) : Prop := s.frame = none ∧ ∀ key index, ¬ Underway log key index

theorem begun_append (a b : List Moment) : begun (a ++ b) = begun a ++ begun b := List.filterMap_append ..

/-- No pass begins in what is done without one. -/
theorem begun_of {Q : Deed → Prop} (hQ : ¬ Q .beginPass) (h : ∀ e ∈ rest, Q e.2) : begun rest = [] := by
  refine List.filterMap_eq_nil_iff.2 fun e he => ?_
  split
  · rename_i hd
    exact absurd (hd ▸ h e he) hQ
  · rfl

/-! ### Parts of an update -/

/-- From a log with `P` the run goes on in the log without a new pass, also when it stops, and where it ends it leaves
one with `Q`. -/
def Goes (P : List Moment → Store Value → Prop) (r : EStateM ε Machine α) (Q : List Moment → Store Value → Prop) :
    Prop :=
  ∀ start log m, Life start log m.hooks → P log m.hooks → ∃ rest, begun rest = [] ∧
    Life start (log ++ rest) (Run.last r m).hooks ∧ ∀ a n, r m = .ok a n → Q (log ++ rest) n.hooks

namespace Goes
variable {P Q R : List Moment → Store Value → Prop}

theorem pure (a : α) : Goes P (Pure.pure a : EStateM ε Machine α) P := by
  refine fun start log m h hp => ⟨[], rfl, ?_, fun b n hb => ?_⟩
  · rwa [List.append_nil]
  · cases hb
    rwa [List.append_nil]

theorem imp {P' : List Moment → Store Value → Prop} {r : EStateM ε Machine α} (hr : Goes P r Q)
    (h : ∀ {log s}, P' log s → P log s) : Goes P' r Q :=
  fun start log m hl hp => hr start log m hl (h hp)

theorem bind {r : EStateM ε Machine α} {k : α → EStateM ε Machine β} (hr : Goes P r Q) (hk : ∀ a, Goes Q (k a) R) :
    Goes P (r >>= k) R := by
  intro start log m h hp
  obtain ⟨rest, hb, hl, hq⟩ := hr start log m h hp
  cases hres : r m with
  | ok a n =>
    rw [last_of_ok hres] at hl
    obtain ⟨more, hc, hl, hr⟩ := hk a start (log ++ rest) n hl (hq a n hres)
    have he : (r >>= k) m = k a n := bind_of_ok hres
    refine ⟨rest ++ more, ?_, ?_, fun b l hb => ?_⟩
    · rw [begun_append, hb, hc]
      rfl
    · rwa [Run.last, he, ← Run.last, ← List.append_assoc]
    · rw [← List.append_assoc]
      exact hr b l (he ▸ hb)
  | error e n =>
    have he : (r >>= k) m = .error e n := bind_of_error hres
    refine ⟨rest, hb, ?_, fun b l hb => by cases he.symm.trans hb⟩
    rw [last_of_error he]
    rwa [last_of_error hres] at hl

theorem ite {c : Prop} [Decidable c] {r k : EStateM ε Machine α} (hr : Goes P r Q) (hk : Goes P k Q) :
    Goes P (if c then r else k) Q := by
  split
  · exact hr
  · exact hk

end Goes

theorem isDirty_goes {P : List Moment → Store Value → Prop} : Goes P isDirty P := by
  refine fun start log m h hp => ⟨[], rfl, ?_, fun b n hb => ?_⟩
  · rwa [List.append_nil]
  · cases hb
    rwa [List.append_nil]

/-! ### Calm -/

/-- Scripts leave the calm of a log as it is. -/
theorem Calm.scripted (h : Calm log s) (hl : Life start log s) (ht : Life start (log ++ rest) t)
    (hr : ∀ e ∈ rest, e.2.Scripted) : Calm (log ++ rest) t := by
  refine ⟨?_, fun key index hu => ?_⟩
  · exact (acted_of_life hl ht hr).keeps (P := fun s => s.frame = none) (fun _ _ _ ha hs => ha.frame_none hs) h.1
  · rcases hu.of_append with hu | ⟨u, hu, -⟩
    · exact h.2 key index hu
    · exact hr _ hu

/-! ### Rounds -/

section Rounds
variable (hi : Recorded invoke)
include hi

theorem renderPass_logged (render : Value) (props : Json) (h : Life start log m.hooks) :
    Grown Deed.Drawing start (log ++ [(m.hooks, .beginPass)]) (Run.last (renderPass invoke render props) m).hooks := by
  have hc : Pass.Carried invoke (Grown Deed.Drawing start (log ++ [(m.hooks, .beginPass)])) :=
    ⟨hi.stable fun _ => Deed.Scripted.drawing,
      fun s key hs => hs.snoc (d := .enter key) trivial fun _ _ _ => trivial,
      fun s hs => hs.snoc (d := .exit) trivial fun _ _ _ => trivial⟩
  exact renderPass_keeps hc render props (.refl (h.snoc .beginPass trivial))

theorem dropStale_goes (order : Order) : Goes (fun _ s => s.frame = none) (dropStale invoke order) Calm := by
  intro start log m h hf
  have hl := h.snoc .finishPass hf
  obtain ⟨rest, hr, ht⟩ := dropStale_keeps (m := m) (hi start (log ++ [(m.hooks, .finishPass)])) order (.refl hl)
  have hc : Calm (log ++ [(m.hooks, .finishPass)]) m.hooks.finishPass.2 :=
    ⟨hf, not_underway id Deed.noConfusion m.hooks⟩
  refine ⟨[(m.hooks, .finishPass)] ++ rest, ?_, ?_, fun a n hn => ?_⟩
  · rw [begun_append, begun_of (Q := Deed.Scripted) id hr]
    rfl
  · rwa [← List.append_assoc]
  · rw [last_of_ok hn] at ht
    rw [← List.append_assoc]
    exact hc.scripted hl ht hr

theorem settleEffects_goes : Goes (fun _ s => s.frame = none) (settleEffects invoke) Calm := by
  intro start log m h hf
  obtain ⟨rest, hr, ht⟩ := settleEffects_keeps (m := m)
    (P := Grown Deed.Settling start (log ++ [(m.hooks, .takeEffects)])) (hi.stable fun _ => Deed.Scripted.settling)
    (fun e he s hs => hs.snoc (d := .takeCleanup e.key e.index) trivial fun rest hr _ =>
      ⟨log, m.hooks, rest, by simp, hr, e, he, rfl, rfl⟩)
    (fun e he s v hs => hs.snoc (d := .setCleanup e.key e.index v) trivial fun rest hr _ =>
      ⟨log, m.hooks, rest, by simp, hr, e, he, rfl, rfl⟩)
    (.refl (h.snoc .takeEffects trivial))
  have hb : begun ([(m.hooks, .takeEffects)] ++ rest) = [] := by
    rw [begun_append, begun_of (Q := Deed.Settling) id hr]
    rfl
  cases hn : settleEffects invoke m with
  | error e n =>
    refine ⟨[(m.hooks, .takeEffects)] ++ rest, hb, ?_, fun _ _ h => by cases h⟩
    rwa [← List.append_assoc]
  | ok a n =>
    have hi' := settleEffects_keeps (m := m) (P := fun s => s.frame = none)
      (hi.scripted.stable fun _ _ _ ha hs => ha.frame_none hs) (fun _ _ _ hs => hs) (fun _ _ _ _ hs => hs) hf
    rw [last_of_ok hn] at ht hi'
    refine ⟨[(m.hooks, .takeEffects)] ++ rest ++ [(n.hooks, .endEffects)], ?_, ?_, fun b l hl => ?_⟩
    · rw [begun_append, hb]
      rfl
    · rw [← List.append_assoc, ← List.append_assoc, last_of_ok hn]
      exact ht.snoc .endEffects trivial
    · cases hl
      rw [← List.append_assoc]
      exact ⟨hi', not_underway id Deed.noConfusion n.hooks⟩

/-- **A round is in the log**, with one pass. -/
theorem round_logged (order : Order) (render : Value) (props : Json) (h : Life start log m.hooks) :
    ∃ rest, begun rest = [m.hooks] ∧ Life start (log ++ rest) (Run.last (round invoke order render props) m).hooks ∧
      ∀ a n, round invoke order render props m = .ok a n → Calm (log ++ rest) n.hooks := by
  obtain ⟨drawn, hd, hl⟩ := renderPass_logged hi render props h
  have hb : begun ([(m.hooks, .beginPass)] ++ drawn) = [m.hooks] := by
    rw [begun_append, begun_of (Q := Deed.Drawing) id hd]
    rfl
  rw [List.append_assoc] at hl
  cases hp : renderPass invoke render props m with
  | error e n =>
    have he : round invoke order render props m = .error e n := bind_of_error hp
    refine ⟨_, hb, ?_, fun _ _ h => by cases he.symm.trans h⟩
    rwa [last_of_error he, ← last_of_error hp]
  | ok output n =>
    have hg (output : List Node × Array Value) : Goes (fun _ s => s.frame = none) (do
        dropStale invoke order
        if ← isDirty then return none
        else
          settleEffects invoke
          if ← isDirty then return none else return some output) Calm :=
      .bind (dropStale_goes hi order) fun _ => .bind isDirty_goes fun _ => .ite (.pure _) (.bind
        ((settleEffects_goes hi).imp fun h => h.1) fun _ => .bind isDirty_goes fun _ => .ite (.pure _) (.pure _))
    rw [last_of_ok hp] at hl
    obtain ⟨rest, hc, hl, hq⟩ := hg output start _ n hl (renderPass_closes hp)
    have he : round invoke order render props m = _ := bind_of_ok hp
    refine ⟨[(m.hooks, .beginPass)] ++ drawn ++ rest, ?_, ?_, fun a l ha => ?_⟩
    · rw [begun_append, hb, hc]
      rfl
    · rw [← List.append_assoc, Run.last, he]
      exact hl
    · rw [← List.append_assoc]
      exact hq a l (he ▸ ha)

/-- **An update is in the log, with all its passes.** -/
theorem cycle_logged (order : Order) (render : Value) (props : Json) (limit passes : Nat)
    (h : Life start log m.hooks) :
    ∃ rest, begun rest =
        (Beat.passes ((tellCycle invoke order render props limit passes).story m)).map (·.hooks) ∧
      Life start (log ++ rest) (Run.last (cycle invoke order limit render props passes) m).hooks ∧
      ∀ a n, cycle invoke order limit render props passes m = .ok a n → Calm (log ++ rest) n.hooks := by
  induction passes generalizing log m with
  | zero => exact ⟨[], rfl, by rwa [List.append_nil], fun _ _ h => by cases h⟩
  | succ passes ih =>
    obtain ⟨rest, hb, hl, hq⟩ := round_logged hi order render props h
    cases hr : round invoke order render props m with
    | error e n =>
      rw [passes_tellCycle_error limit hr]
      have he : cycle invoke order limit render props (passes + 1) m = .error e n := bind_of_error hr
      refine ⟨rest, hb, ?_, fun _ _ h => by cases he.symm.trans h⟩
      rwa [last_of_error he, ← last_of_error hr]
    | ok output? n =>
      rw [last_of_ok hr] at hl
      cases output? with
      | some output =>
        rw [passes_tellCycle_some limit hr]
        have he : cycle invoke order limit render props (passes + 1) m = .ok output n := bind_of_ok hr
        refine ⟨rest, hb, ?_, fun a l ha => ?_⟩
        · rwa [last_of_ok he]
        · cases he.symm.trans ha
          exact hq _ _ hr
      | none =>
        have he : cycle invoke order limit render props (passes + 1) m =
          cycle invoke order limit render props passes n := bind_of_ok hr
        rw [passes_tellCycle_none limit hr]
        obtain ⟨more, hc, hl, hq⟩ := ih hl
        refine ⟨rest ++ more, ?_, ?_, fun a l ha => ?_⟩
        · rw [begun_append, hb, hc]
          rfl
        · rw [← List.append_assoc, Run.last, he]
          exact hl
        · rw [← List.append_assoc]
          exact hq a l (he ▸ ha)

end Rounds

/-! ### Operations -/

/-- The log goes on from one moment without a body that runs to another. -/
structure Span (log rest : List Moment) (t : Store Value) (passes : List Machine) : Prop where
  life : Life {} (log ++ rest) t
  calm : Calm (log ++ rest) t
  begun : begun rest = passes.map (·.hooks)

theorem Span.trans {more : List Moment} {passes others : List Machine} (h : Span log rest s passes)
    (h' : Span (log ++ rest) more t others) : Span log (rest ++ more) t (passes ++ others) where
  life := List.append_assoc .. ▸ h'.life
  calm := List.append_assoc .. ▸ h'.calm
  begun := by rw [begun_append, h.begun, h'.begun, List.map_append]

theorem Span.refl (h : Life {} log s) (hc : Calm log s) : Span log [] s [] :=
  ⟨by rwa [List.append_nil], by rwa [List.append_nil], rfl⟩

/-- Everything is forgotten on the way. -/
def Torn (rest : List Moment) : Prop := ∃ u, (u, .reset) ∈ rest

/-- Something is put on the surface, taken down or captured. -/
def Tears (invoke : Invoke) (s : Surface) : Op → Prop
  | .mount _ _ => True
  | .unmount => s.mounted.isSome = true
  | op => s.isCaptured = false ∧ (act invoke s op).isCaptured = true

/-- What an operation does is in the log, from the store before it to the store after it. -/
structure Noted (invoke : Invoke) (s : Surface) (op : Op) (log rest : List Moment) : Prop
    extends Span log rest (store (act invoke s op)) (Beat.passes (beats invoke s op)) where
  tears : Tears invoke s op → Torn rest

section Operations
variable {s : Surface} {mounted : Mounted} {u : Store Value} (hi : Recorded invoke)
include hi

omit hi in
theorem scripts_span (h : Life {} log u) (hc : Calm log u) (ht : Grown Deed.Scripted {} log t) :
    ∃ rest, Span log rest t [] := by
  obtain ⟨rest, hr, ht⟩ := ht
  exact ⟨rest, ht, hc.scripted h ht hr, begun_of (Q := Deed.Scripted) id hr⟩

/-- Whatever is released, all that was known is forgotten. -/
theorem release_span (h : Life {} log u) (order : Order) (c : Component) :
    ∃ rest, Span log rest (release invoke order c).1.machine.hooks [] ∧ Torn rest := by
  have hl := h.snoc .reset trivial
  have hc : Calm (log ++ [(u, .reset)]) {} := ⟨rfl, not_underway id Deed.noConfusion u⟩
  obtain ⟨rest, hs⟩ := scripts_span hl hc (release_keeps (hi {} (log ++ [(u, .reset)])) order c (.refl hl))
  have hr : Span log [(u, .reset)] {} [] := ⟨hl, hc, rfl⟩
  exact ⟨[(u, .reset)] ++ rest, hr.trans hs, u, List.mem_cons_self⟩

theorem render_span (phase : Phase) (hm : s.mounted = some mounted) (h : Life {} log (store s)) :
    ∃ rest, Span log rest (store (render invoke phase s)) (Beat.passes (tellRender invoke phase s).story) ∧
      ((render invoke phase s).isCaptured = true → Torn rest) := by
  rw [store_some hm] at h
  obtain ⟨rest, hb, hl, hq⟩ := cycle_logged hi s.order mounted.component.render mounted.props s.maxRerenders
    (s.maxRerenders + 1) h
  cases hc : cycle invoke s.order s.maxRerenders mounted.component.render mounted.props (s.maxRerenders + 1)
      mounted.component.machine with
  | ok output n =>
    rw [last_of_ok hc] at hl
    rw [(render_ok phase hm hc).1, passes_tellRender phase hm]
    exact ⟨rest, ⟨hl, hq _ _ hc, hb⟩, fun h => by cases h⟩
  | error e n =>
    obtain ⟨-, hr⟩ := render_error phase hm hc
    rw [last_of_error hc] at hl
    obtain ⟨more, hs, u, hu⟩ := release_span hi hl s.order { mounted.component with machine := n }
    refine ⟨rest ++ more, ⟨?_, ?_, ?_⟩, fun _ => ⟨u, List.mem_append_right _ hu⟩⟩
    · rw [store_some hr, ← List.append_assoc]
      exact hs.life
    · rw [store_some hr, ← List.append_assoc]
      exact hs.calm
    · rw [begun_append, hs.begun, hb, passes_tellRender phase hm]
      exact List.append_nil _

theorem flush_span (h : Life {} log (store s)) (hc : Calm log (store s)) :
    ∃ rest, Span log rest (store (flush invoke s)) (Beat.passes (tellFlush invoke s).story) ∧
      (s.isCaptured = false → (flush invoke s).isCaptured = true → Torn rest) := by
  unfold flush tellFlush
  cases hm : s.mounted with
  | none => exact ⟨[], .refl h hc, fun h h' => by cases h.symm.trans h'⟩
  | some mounted =>
    dsimp only
    split
    · obtain ⟨rest, hs, ht⟩ := render_span hi .update hm h
      exact ⟨rest, hs, fun _ => ht⟩
    · exact ⟨[], .refl h hc, fun h h' => by cases h.symm.trans h'⟩

/-- What is mounted is taken down, and its store is gone. -/
theorem unmount_span (h : Life {} log (store s)) (hc : Calm log (store s)) :
    ∃ rest, Span log rest {} [] ∧ (s.mounted.isSome = true → Torn rest) := by
  cases hm : s.mounted with
  | none =>
    rw [store, hm] at h hc
    exact ⟨[], .refl h hc, fun h => by cases h⟩
  | some mounted =>
    obtain ⟨rest, hs, ht⟩ := release_span hi h s.order mounted.component
    rw [release_hooks hi.scripted] at hs
    exact ⟨rest, hs, fun _ => ht⟩

omit hi in
theorem Tears.captures {op : Op} (ht : Tears invoke s op) (hn : ¬ op.Clears) :
    s.isCaptured = false ∧ (act invoke s op).isCaptured = true := by
  cases op with
  | mount | unmount => exact absurd trivial hn
  | _ => exact ht

omit hi in
/-- An operation that does nothing. -/
theorem noted_idle {op : Op} (h : Life {} log (store s)) (hc : Calm log (store s)) (ho : act invoke s op = s)
    (hp : beats invoke s op = []) (hn : ¬ op.Clears) : Noted invoke s op log [] := by
  refine ⟨?_, fun ht => ?_⟩
  · rw [ho, hp]
    exact .refl h hc
  · obtain ⟨hs, ha⟩ := ht.captures hn
    rw [ho, hs] at ha
    cases ha

theorem noted_mount (h : Life {} log (store s)) (hc : Calm log (store s)) (c : Component) (props : Json) :
    ∃ rest, Noted invoke s (.mount c props) log rest := by
  obtain ⟨before, hu, -⟩ := unmount_span hi h hc
  obtain ⟨rest, hr, u, ht⟩ := release_span hi hu.life (s.unmount invoke).1.order c
  have hp := (hu.trans hr).life
  obtain ⟨more, hm, -⟩ := render_span hi (s := (s.unmount invoke).1.place invoke c props) .mount rfl hp
  have hs := (hu.trans hr).trans hm
  rw [List.nil_append, List.nil_append, ← passes_mount] at hs
  exact ⟨before ++ rest ++ more, hs, fun _ => ⟨u, by simp [ht]⟩⟩

theorem noted_update (h : Life {} log (store s)) (hc : Calm log (store s)) (props : Json) :
    ∃ rest, Noted invoke s (.update props) log rest := by
  by_cases hcap : s.isCaptured = true
  · exact ⟨[], noted_idle h hc (if_pos hcap) (by rw [beats, tellAct, tellUpdate, if_pos hcap]; rfl) id⟩
  cases hm : s.mounted with
  | none =>
    refine ⟨[], noted_idle h hc ?_ ?_ id⟩
    · show s.update invoke props = s
      rw [update, if_neg hcap, hm]
    · rw [beats, tellAct, tellUpdate, if_neg hcap, hm]
      rfl
  | some mounted =>
    have ha : act invoke s (.update props) =
        render invoke .update { s with mounted := some { mounted with props } } := by
      show s.update invoke props = _
      rw [update, if_neg hcap, hm]
    have hk : beats invoke s (.update props) =
        (tellRender invoke .update { s with mounted := some { mounted with props } }).story := by
      rw [beats, tellAct, tellUpdate, if_neg hcap, hm]
    rw [store_some hm] at h
    obtain ⟨rest, hr, ht⟩ := render_span hi .update (s := { s with mounted := some { mounted with props } }) rfl h
    refine ⟨rest, ?_, fun h => ht (ha ▸ h.2)⟩
    rwa [ha, hk]

theorem noted_dispatch (h : Life {} log (store s)) (hc : Calm log (store s)) (id : Nat) (event : Json) :
    ∃ rest, Noted invoke s (.dispatch id event) log rest := by
  cases hh : s.handler? id with
  | error e =>
    refine ⟨[], noted_idle h hc ?_ (beats_dispatch_error event hh) fun h => h⟩
    show (s.dispatch invoke id event).1 = s
    rw [dispatch, hh]
  | ok r =>
    obtain ⟨mounted, callback⟩ := r
    have hm := (handler?_ok hh).1
    rw [store_some hm] at h hc
    obtain ⟨n, hn, hg⟩ := handle_keeps (hi {} log) callback event mounted (.refl h)
    obtain ⟨rest, hs⟩ := scripts_span h hc hg
    obtain ⟨more, hf, ht⟩ := flush_span hi (s := { s with mounted := some (mounted.on n) }) hs.life hs.calm
    have ha : act invoke s (.dispatch id event) = flush invoke { s with mounted := some (mounted.on n) } := by
      show (s.dispatch invoke id event).1 = _
      rw [dispatch, hh]
      exact congrArg (fun mounted => flush invoke { s with mounted := some mounted }) hn
    have hk : Beat.passes (beats invoke s (.dispatch id event)) =
        Beat.passes (tellFlush invoke { s with mounted := some (mounted.on n) }).story := by
      rw [beats_dispatch event hh, passes_append, passes_of_outside (outside_tellHandle callback event mounted), ← hn]
      rfl
    refine ⟨rest ++ more, ?_, fun h => ?_⟩
    · rw [ha, hk]
      exact hs.trans hf
    · obtain ⟨u, hu⟩ := ht h.1 (ha ▸ h.2)
      exact ⟨u, List.mem_append_right _ hu⟩

theorem noted_unmount (h : Life {} log (store s)) (hc : Calm log (store s)) :
    ∃ rest, Noted invoke s .unmount log rest := by
  obtain ⟨rest, hs, ht⟩ := unmount_span hi h hc
  refine ⟨rest, ?_, ht⟩
  have hb : Beat.passes (beats invoke s .unmount) = [] :=
    (congrArg Beat.passes (List.append_nil _)).trans (passes_tellUnmount s)
  rw [hb, act, store_unmount]
  exact hs

theorem noted_call (h : Life {} log (store s)) (hc : Calm log (store s)) (f : Value) (args : List Value) :
    ∃ rest, Noted invoke s (.call f args) log rest := by
  cases hm : s.mounted with
  | none =>
    refine ⟨[], noted_idle h hc ?_ ?_ id⟩
    · show (s.call invoke f args).1 = s
      rw [call, hm]
    · rw [beats, tellAct, tellCall, hm]
      rfl
  | some mounted =>
    rw [store_some hm] at h hc
    obtain ⟨n, hn, hg⟩ := call_keeps (hi {} log) f args hm (.refl h)
    obtain ⟨rest, hs⟩ := scripts_span h hc hg
    have ha : act invoke s (.call f args) = { s with mounted := some (mounted.on n) } := hn
    refine ⟨rest, ?_, fun ht => ?_⟩
    · rw [ha, passes_of_outside (outside_call f args s)]
      exact hs
    · obtain ⟨hs, hn⟩ := ht
      rw [ha] at hn
      cases hs.symm.trans hn

/-- **Every operation is noted.** -/
theorem noted (h : Life {} log (store s)) (hc : Calm log (store s)) (op : Op) :
    ∃ rest, Noted invoke s op log rest := by
  cases op with
  | mount c props => exact noted_mount hi h hc c props
  | update props => exact noted_update hi h hc props
  | flush =>
    obtain ⟨rest, hs, ht⟩ := flush_span hi h hc
    exact ⟨rest, hs, fun h => ht h.1 h.2⟩
  | dispatch id event => exact noted_dispatch hi h hc id event
  | unmount => exact noted_unmount hi h hc
  | call f args => exact noted_call hi h hc f args

end Operations

/-! ### Runs of operations -/

/-- The log of a run of operations on a new surface: what each of them has noted, one after another. -/
inductive Logged (invoke : Invoke) (limit : Nat) (order : Order) : List Op → List Moment → Prop
  | nil : Logged invoke limit order [] []
  | snoc {ops log op rest} (h : Logged invoke limit order ops log)
      (hn : Noted invoke (ops.foldl (act invoke) (fresh limit order)) op log rest) :
      Logged invoke limit order (ops ++ [op]) (log ++ rest)

variable {limit : Nat} {order : Order} {ops : List Op}

theorem Logged.span (h : Logged invoke limit order ops log) :
    Life {} log (store (ops.foldl (act invoke) (fresh limit order))) ∧
      Calm log (store (ops.foldl (act invoke) (fresh limit order))) := by
  cases h with
  | nil =>
    refine ⟨.nil, rfl, fun key index ⟨before, u, rest, he, _⟩ => ?_⟩
    exact absurd he (by simp)
  | snoc h hn =>
    rw [List.foldl_append]
    exact ⟨hn.life, hn.calm⟩

/-- **Every run has a log, and it goes on in every longer run.** -/
theorem Logged.exists_append (hi : Recorded invoke) (h : Logged invoke limit order ops log) (more : List Op) :
    ∃ rest, Logged invoke limit order (ops ++ more) (log ++ rest) := by
  induction more using List.reverseRecOn with
  | nil => exact ⟨[], by rwa [List.append_nil, List.append_nil]⟩
  | append_singleton more op ih =>
    obtain ⟨rest, hl⟩ := ih
    obtain ⟨last, hn⟩ := noted hi hl.span.1 hl.span.2 op
    refine ⟨rest ++ last, ?_⟩
    rw [← List.append_assoc, ← List.append_assoc]
    exact hl.snoc hn

end LivePreview.Surface
