import LivePreview.Proofs.Hook.Queue
import LivePreview.Proofs.Surface.Upkeep

/-! **Which effects run after a pass.**

A pass may be discarded because state was set while it ran. Its effects stay queued, and its dependencies stay kept.
So an effect that runs after a pass was queued by a call of `useEffect` in this pass, or it is left over from a pass
that was discarded: then every call of its hook in this pass has failed or found its dependencies unchanged
(`effects_accounted`). Which of the two it is can be read off the calls of the pass. -/
namespace LivePreview.Surface
open Script Hook
variable {α : Type} {invoke : Invoke} {order : Order} {m n : Machine} {log before : List Beat} {s t : Store Value}
  {start stop : Machine} {e : Effect Value}

/-! ### Calls of a pass -/

/-- What is known of the calls of `useEffect` in a pass. -/
def Calls (start stop : Machine) (calls : List EffectCall) : Prop := Traced start.hooks.beginPass calls stop.hooks

theorem calls_of_renderPass (hi : Faithful invoke) {render : Value} {props : Json} {output}
    (h : renderPass invoke render props start = .ok output stop) : ∃ calls, Calls start stop calls := by
  have hc : Pass.Carried invoke fun s => ∃ calls, Traced start.hooks.beginPass calls s :=
    ⟨hi _ (traced_kept _), fun _ key ⟨calls, h⟩ => ⟨calls, h.enter key⟩, fun _ ⟨calls, h⟩ => ⟨calls, h.exit⟩⟩
  have hk := renderPass_keeps hc render props (m := start) ⟨[], .refl⟩
  rwa [last_of_ok h] at hk

/-- The pass has queued the effect, whichever its calls are taken to be. -/
def QueuedIn (start stop : Machine) (e : Effect Value) : Prop :=
  (∃ calls, Calls start stop calls) ∧ ∀ calls, Calls start stop calls → ∃ c ∈ calls, c.Queues e

/-- The effect was queued by a pass that was discarded, and since then no effect has run and no component has been
placed. -/
def LeftBy (log : List Beat) (e : Effect Value) : Prop :=
  ∃ before start stop out made rest,
    log = before ++ .passed start stop :: .swept out made :: .discarded :: rest ∧
      (∀ d m, .ran d m ∉ rest) ∧ (∀ brought, .placed brought ∉ rest) ∧ QueuedIn start stop e

theorem LeftBy.append (h : LeftBy log e) {beats : List Beat} (hr : ∀ d m, .ran d m ∉ beats)
    (hp : ∀ brought, .placed brought ∉ beats) : LeftBy (log ++ beats) e := by
  obtain ⟨before, start, stop, out, made, rest, rfl, hnr, hnp, hq⟩ := h
  refine ⟨before, start, stop, out, made, rest ++ beats, ?_, fun d m hm => ?_, fun b hm => ?_, hq⟩
  · simp only [List.append_assoc, List.cons_append]
  · exact (List.mem_append.1 hm).elim (hnr d m) (hr d m)
  · exact (List.mem_append.1 hm).elim (hnp b) (hp b)

/-! ### Effects that run -/

/-- What is known of an effect that runs: the pass before it, since which only cleanups and effects have run, its
instance was rendered there, and it was queued in this pass or is left over from one that was discarded. -/
def Accounted (older : List Beat) (e : Effect Value) : Prop :=
  ∃ before start stop out made rest,
    older = before ++ .passed start stop :: .swept out made :: rest ∧ (∀ beat ∈ rest, beat.Settling) ∧
      e.key ∈ stop.hooks.rendered ∧ (∃ calls, Calls start stop calls) ∧
      ∀ calls, Calls start stop calls →
        ((∃ c ∈ calls, c.Queues e) ↔ ¬ LeftOver start.hooks.beginPass calls e) ∧
          (LeftOver start.hooks.beginPass calls e → LeftBy before e)

/-- An effect may run when it is accounted for. -/
def Runs (older : List Beat) : Beat → Prop
  | .ran e _ => Accounted older e
  | _ => True

/-- Whatever is pending in a store is left over. -/
structure Carries (log : List Beat) (s : Store Value) : Prop where
  fair : Fair Runs log
  idle : s.frame = none
  left : ∀ e ∈ s.pending, LeftBy log e

/-- A beat that runs no effect and places nothing leaves what is left over as it is. -/
theorem Carries.snoc {beat : Beat} (h : Carries log s) (hr : ∀ d m, beat ≠ .ran d m)
    (hp : ∀ brought, beat ≠ .placed brought) : Carries (log ++ [beat]) s := by
  refine ⟨h.fair.snoc ?_, h.idle, fun e he => (h.left e he).append (fun d m hm => ?_) fun brought hm => ?_⟩
  · cases beat
    case ran d m => exact absurd rfl (hr d m)
    all_goals exact trivial
  · exact hr d m (List.mem_singleton.1 hm).symm
  · exact hp brought (List.mem_singleton.1 hm).symm

/-- A pass has given its output from a machine in which everything pending was left over. -/
structure Passed (before : List Beat) (start stop : Machine) : Prop where
  calls : ∃ calls, Calls start stop calls
  left : ∀ e ∈ start.hooks.pending, LeftBy before e

/-- The pass has been swept, and nothing but its effects has happened since. -/
structure Since (before : List Beat) (start stop : Machine) (log : List Beat) (s : Store Value) : Prop where
  shape : ∃ out made rest, log = before ++ .passed start stop :: .swept out made :: rest ∧
    ∀ beat ∈ rest, beat.Settling
  fair : Fair Runs log
  idle : s.frame = none

/-- An effect that a swept pass has left pending. -/
def Due (stop : Machine) (e : Effect Value) : Prop := e ∈ stop.hooks.pending ∧ e.key ∈ stop.hooks.rendered

theorem Passed.accounts (h : Passed before start stop) {older : List Beat} (hs : Since before start stop older s)
    (he : Due stop e) : Accounted older e := by
  obtain ⟨out, made, rest, rfl, hr⟩ := hs.shape
  refine ⟨before, start, stop, out, made, rest, rfl, hr, he.2, h.calls, fun calls hc => ⟨?_, fun hl => ?_⟩⟩
  · exact hc.queued_iff he.1
  · exact h.left e hl.pending

/-- What is pending after a pass was queued there, or it is left over from before. -/
theorem Passed.queued_or (h : Passed before start stop) (he : e ∈ stop.hooks.pending) :
    QueuedIn start stop e ∨ LeftBy before e := by
  by_cases hq : ∀ calls, Calls start stop calls → ∃ c ∈ calls, c.Queues e
  · exact .inl ⟨h.calls, hq⟩
  · push Not at hq
    obtain ⟨calls, hc, hn⟩ := hq
    have hl := (hc.pending he).resolve_left fun ⟨c, hm, hq⟩ => hn c hm hq
    exact .inr (h.left e hl.pending)

theorem Since.snoc {beat : Beat} (h : Since before start stop log s) (hr : Runs log beat) (hb : beat.Settling) :
    Since before start stop (log ++ [beat]) s := by
  obtain ⟨out, made, rest, rfl, hs⟩ := h.shape
  refine ⟨⟨out, made, rest ++ [beat], ?_, fun b hm => ?_⟩, h.fair.snoc hr, h.idle⟩
  · simp only [List.append_assoc, List.cons_append]
  · rcases List.mem_append.1 hm with hm | hm
    · exact hs b hm
    · exact List.mem_singleton.1 hm ▸ hb

/-! ### Rounds -/

section Rounds
variable (hi : Faithful invoke)
include hi

omit hi in
/-- Outside of bodies nothing new comes to be pending. -/
theorem closed_pending (D : Effect Value → Prop) :
    Store.Closed Value.equals fun s => s.frame = none ∧ ∀ e ∈ s.pending, D e := by
  refine fun b s t ha hs => ⟨ha.frame_none hs.1, fun e he => ?_⟩
  rcases ha.pending he with he | ⟨count, hf⟩
  · exact hs.2 e he
  · exact nomatch hs.1.symm.trans hf

omit hi in
theorem closed_idle : Store.Closed Value.equals fun s : Store Value => s.frame = none ∧ s.pending = [] := by
  intro b s t ha hs
  obtain ⟨hf, hn⟩ := closed_pending (fun _ => False) b s t ha ⟨hs.1, fun e he => nomatch hs.2 ▸ he⟩
  exact ⟨hf, List.eq_nil_iff_forall_not_mem.2 hn⟩

theorem tellPass_passes (render : Value) (props : Json) :
    (tellPass invoke render props).Leads (fun log m => Carries log m.hooks)
      (fun _ log m => Fair Runs log ∧ ∃ before start, log = before ++ [.passed start m] ∧ Passed before start m ∧
        m.hooks.frame = none) (fun log _ => Fair Runs log) := by
  refine .bind (.tell (Q := fun log m => Carries log m.hooks) fun h => h.snoc nofun nofun) fun _ => ?_
  refine .bind (Q := fun start log m => Carries log start.hooks ∧ m = start) (.quiet (fun hp h => ?_)
    fun _ h => nomatch h) fun start => ?_
  · cases h
    exact ⟨hp, rfl⟩
  refine .bind (Q := fun _ log m => Carries log start.hooks ∧ (∃ calls, Calls start m calls) ∧ m.hooks.frame = none)
    (.quiet (fun {log m output n} hp h => ?_) fun hp _ => hp.1.fair) fun output => ?_
  · obtain ⟨hc, rfl⟩ := hp
    exact ⟨hc, calls_of_renderPass hi h, renderPass_closes h⟩
  refine .bind (.tell (Q := fun log m => Fair Runs log ∧ ∃ before start, log = before ++ [.passed start m] ∧
    Passed before start m ∧ m.hooks.frame = none) fun h => ?_) fun _ => .pure fun h => h
  exact ⟨h.1.fair.snoc trivial, _, start, rfl, ⟨h.2.1, h.1.left⟩, h.2.2⟩

omit hi in
theorem tellStale_story (order : Order) (m : Machine) : ∃ calls, (tellStale invoke order).story m =
    [.swept (stale m.hooks) calls] := ⟨_, rfl⟩

/-- What a pass has left pending and not left out is due. -/
theorem due_of_dropStale (hf : m.hooks.frame = none) (order : Order) :
    (Run.last (dropStale invoke order) m).hooks.frame = none ∧
      ∀ e ∈ (Run.last (dropStale invoke order) m).hooks.pending, Due m e := by
  refine (dropStale_acted hi.scripted order m).keeps (closed_pending (Due m)) ⟨hf, fun e he => ?_⟩
  obtain ⟨hp, hr⟩ := List.mem_filter.1 he
  exact ⟨hp, List.contains_iff_mem.1 hr⟩

theorem tellStale_since (order : Order) :
    (tellStale invoke order).Leads
      (fun log m => Fair Runs log ∧ ∃ before start, log = before ++ [.passed start m] ∧ Passed before start m ∧
        m.hooks.frame = none)
      (fun _ log m => ∃ before start stop out made,
        log = before ++ [.passed start stop, .swept out made] ∧ Passed before start stop ∧
          Since before start stop log m.hooks ∧ ∀ e ∈ m.hooks.pending, Due stop e)
      (fun log _ => Fair Runs log) := by
  constructor
  · rintro log m ⟨⟩ n ⟨hfair, before, start, rfl, hp, hf⟩ he
    rw [tellStale_run] at he
    have hd := last_of_ok he ▸ due_of_dropStale hi hf order
    obtain ⟨calls, ht⟩ := @tellStale_story invoke order m
    have hs : Fair Runs (before ++ [.passed start m] ++ [.swept (stale m.hooks) calls]) := hfair.snoc trivial
    rw [ht, List.append_assoc]
    rw [List.append_assoc] at hs
    refine ⟨before, start, m, _, _, rfl, hp, ⟨⟨_, _, [], rfl, fun _ he => nomatch he⟩, hs, hd.1⟩, hd.2⟩
  · rintro log m e n ⟨hfair, -⟩ he
    exact hfair.snoc trivial

omit hi in
/-- Where state was set before the effects, what is pending is left over. -/
theorem Since.discarded {out : List Entry} {made : List Call} (hp : Passed before start stop)
    (hs : Since before start stop (before ++ [.passed start stop, .swept out made]) s)
    (hd : ∀ e ∈ s.pending, Due stop e) :
    Carries (before ++ [.passed start stop, .swept out made] ++ [.discarded]) s := by
  refine ⟨hs.fair.snoc trivial, hs.idle, fun e he => ?_⟩
  rcases hp.queued_or (hd e he).1 with hq | hl
  · exact ⟨before, start, stop, out, made, [], by simp, by simp, by simp, hq⟩
  · rw [List.append_assoc]
    exact hl.append (by simp) (by simp)

omit hi in
theorem quiet_since {r : Run α} (hr : Stable (fun s => s.frame = none ∧ s.pending = []) r) :
    (Told.quiet r).Leads (fun log m => Since before start stop log m.hooks ∧ m.hooks.pending = [])
      (fun _ log m => Since before start stop log m.hooks ∧ m.hooks.pending = []) (fun log _ => Fair Runs log) := by
  refine .quiet (fun {log m a n} hp h => ?_) fun hp _ => hp.1.fair
  have hn := last_of_ok h ▸ hr.keep m ⟨hp.1.idle, hp.2⟩
  exact ⟨⟨hp.1.shape, hp.1.fair, hn.1⟩, hn.2⟩

omit hi in
/-- Calls that are told in one beat. -/
theorem as_since {t : Told Call Fault α} {taken : List Entry}
    (hr : Stable (fun s => s.frame = none ∧ s.pending = []) t.run) : (t.as (.swept taken)).Leads
      (fun log m => Since before start stop log m.hooks ∧ m.hooks.pending = [])
      (fun _ log m => Since before start stop log m.hooks ∧ m.hooks.pending = []) (fun log _ => Fair Runs log) where
  ends {log m a n} hp h := by
    have hn := last_of_ok h ▸ hr.keep m ⟨hp.1.idle, hp.2⟩
    have hs : Since before start stop (log ++ [.swept taken (t.story m)]) m.hooks := hp.1.snoc trivial trivial
    exact ⟨⟨hs.shape, hs.fair, hn.1⟩, hn.2⟩
  stops hp _ := hp.1.fair.snoc trivial

omit hi in
theorem tell_since {beat : Machine → Beat}
    (hr : ∀ {log m}, Since before start stop log m.hooks → Runs log (beat m)) (hb : ∀ m, (beat m).Settling) :
    (Told.tell beat : Told Beat Fault Unit).Leads
      (fun log m => Since before start stop log m.hooks ∧ m.hooks.pending = [])
      (fun _ log m => Since before start stop log m.hooks ∧ m.hooks.pending = []) (fun log _ => Fair Runs log) :=
  .tell fun h => ⟨h.1.snoc (hr h.1) (hb _), h.2⟩

theorem tellClean_since (e : Effect Value) :
    (tellClean invoke e).Leads (fun log m => Since before start stop log m.hooks ∧ m.hooks.pending = [])
      (fun _ log m => Since before start stop log m.hooks ∧ m.hooks.pending = []) (fun log _ => Fair Runs log) := by
  refine .bind (quiet_since ⟨fun m hm => hm⟩) fun cleanup? => ?_
  cases cleanup? with
  | none => exact .pure fun h => h
  | some cleanup => exact as_since (tellCalls_run [cleanup] ▸ callAll_stable (hi.scripted.stable closed_idle) [cleanup])

omit hi in
theorem tellKept_since (e : Effect Value) (given : Value) :
    (tellKept e given).Leads (fun log m => Since before start stop log m.hooks ∧ m.hooks.pending = [])
      (fun _ log m => Since before start stop log m.hooks ∧ m.hooks.pending = []) (fun log _ => Fair Runs log) := by
  cases given
  case func place =>
    exact .bind (quiet_since ⟨fun m hm => hm⟩) fun _ => tell_since (fun _ => trivial) fun _ => trivial
  all_goals exact .pure fun h => h

/-- The effects of a pass that has been swept run one after another, and nothing comes to be pending. -/
theorem tellEffects_since (hp : Passed before start stop) {effects : List (Effect Value)}
    (hd : ∀ e ∈ effects, Due stop e) :
    (tellEffects invoke effects).Leads
      (fun log m => Since before start stop log m.hooks ∧ m.hooks.pending = [])
      (fun _ log m => Since before start stop log m.hooks ∧ m.hooks.pending = []) (fun log _ => Fair Runs log) := by
  induction effects with
  | nil => exact .pure fun h => h
  | cons e es ih =>
    have he := hd e (List.mem_cons_self ..)
    refine .bind (tellClean_since hi e) fun _ => ?_
    refine .bind (tell_since (fun hs => hp.accounts hs he) fun _ => trivial) fun _ => ?_
    refine .bind (quiet_since (first_stable (hi.scripted.stable closed_idle ..))) fun given => ?_
    exact .bind (tellKept_since e given) fun _ => ih fun d hm => hd d (List.mem_cons_of_mem e hm)

theorem tellSettle_since (hp : Passed before start stop) :
    (tellSettle invoke).Leads
      (fun log m => Since before start stop log m.hooks ∧ ∀ e ∈ m.hooks.pending, Due stop e)
      (fun _ log m => Carries log m.hooks) (fun log _ => Fair Runs log) := by
  refine .bind (Q := fun effects log m => (∀ e ∈ effects, Due stop e) ∧
    Since before start stop log m.hooks ∧ m.hooks.pending = []) (.quiet (fun hs h => ?_) fun _ h => nomatch h)
      fun effects => .of_and fun hd => ?_
  · cases h
    exact ⟨hs.2, ⟨hs.1.shape, hs.1.fair, hs.1.idle⟩, rfl⟩
  · have h : ((tellEffects invoke effects).ofRun.budgeted RenderError.isPanic).Leads
        (fun log m => Since before start stop log m.hooks ∧ m.hooks.pending = [])
        (fun _ log m => Since before start stop log m.hooks ∧ m.hooks.pending = []) (fun log _ => Fair Runs log) :=
      (tellEffects_since hi hp hd).ofRun.budgeted
        (P := fun log s => Since before start stop log s ∧ s.pending = [])
        (Q := fun _ log s => Since before start stop log s ∧ s.pending = []) (E := fun log _ => Fair Runs log)
    refine ⟨fun hm he => ?_, fun hm he => h.stops hm he⟩
    obtain ⟨hs, hn⟩ := h.ends hm he
    exact ⟨hs.fair, hs.idle, fun e he => nomatch hn ▸ he⟩

theorem tellRound_carries (order : Order) (render : Value) (props : Json) :
    (tellRound invoke order render props).Leads (fun log m => Carries log m.hooks)
      (fun _ log m => Carries log m.hooks) (fun log _ => Fair Runs log) := by
  refine .bind (tellPass_passes hi render props) fun output => .bind (tellStale_since hi order) fun _ => ?_
  refine .of_exists fun before => .of_exists fun start => .of_exists fun stop => .of_exists fun out =>
    .of_exists fun made => ?_
  refine .bind isDirty_leads fun dirty => .ite ?_ ?_
  · refine .bind (.tell (Q := fun log m => Carries log m.hooks) fun h => ?_) fun _ => .pure fun h => h
    obtain ⟨rfl, hp, hs, hd⟩ := h
    exact hs.discarded hp hd
  · refine .bind (Q := fun _ log m => Carries log m.hooks) ?_ fun _ => .bind isDirty_leads fun _ =>
      .ite (.pure fun h => h) (.pure fun h => h)
    exact .imp (.of_and fun hp => tellSettle_since hi hp) fun h => ⟨h.2.1, h.2.2⟩

theorem tellCycle_carries (order : Order) (render : Value) (props : Json) (limit passes : Nat) :
    (tellCycle invoke order render props limit passes).Leads (fun log m => Carries log m.hooks)
      (fun _ log m => Carries log m.hooks) (fun log _ => Fair Runs log) :=
  tellCycle_leads_of_round (tellRound_carries hi order render props) (fun h => h.fair) limit passes

omit hi in
theorem fair_release (h : Fair Runs log) (order : Order) (c : Component) :
    Fair Runs (log ++ (tellRelease invoke order c).story) := by
  obtain ⟨-, hs⟩ | ⟨start, hs⟩ := @story_tellRelease invoke order c
  · rwa [hs, List.append_nil]
  · rw [hs]
    exact h.snoc trivial

theorem carries_upkeep : Upkeep invoke Carries (fun log _ => Fair Runs log) where
  weaken h := h.fair
  cycle := tellCycle_carries hi
  acted ha h := by
    obtain ⟨hf, hl⟩ := ha.keeps (closed_pending (LeftBy _)) ⟨h.idle, h.left⟩
    exact ⟨h.fair, hf, hl⟩
  acted_weak _ h := h
  outside {log s beat} hb h := by
    refine h.snoc (fun d m he => ?_) fun brought he => ?_ <;>
    · subst he
      exact hb
  outside_weak {log s beat} hb h := by
    refine h.snoc ?_
    cases beat
    case ran => exact hb.elim
    all_goals exact trivial
  release order h := fair_release h order _
  place {log} order c h :=
    have hp : Fair Runs (log ++ [.placed c.machine.hooks.cleanups]) := h.snoc trivial
    ⟨fair_release hp order c, rfl, fun _ he => nomatch he⟩

end Rounds

/-- **Every effect that runs is accounted for**: it was queued by a call of `useEffect` in the pass before it, or it is
left over from a pass that was discarded, and which of the two can be read off the calls of the pass. -/
theorem effects_accounted (hi : Faithful invoke) (limit : Nat) (order : Order) (ops : List Op) {older rest : List Beat}
    (h : chronicle invoke (fresh limit order) ops = older ++ .ran e m :: rest) : Accounted older e :=
  (carries_upkeep hi).always hi.scripted limit order .nil ops older _ rest h

/-- A component that sets its state in its first pass, and whose effect tells the state that its render has seen. -/
def reader : Component :=
  ((Component.attempt { instruments := true } {} ("function Reader()\n" ++
    "  local word, set = React.useState('old')\n" ++
    "  if word == 'old' then set('new') end\n" ++
    "  React.useEffect(function() React.log(word) end, \x7b\x7d)\n" ++
    "  return word\nend") "Reader").component?).getD default

/-- What happens when a reader is mounted. -/
def reading : List Beat := chronicle Script.invoke (fresh 25 {}) [.mount reader (.obj [])]

/-- The first pass of two is discarded, and an effect runs after the second that was pending before it began. -/
def runsLeftOver : List Beat → Bool
  | [.placed _, .begun _, .passed _ _, .swept _ _, .discarded, .begun _, .passed start _, .swept _ _, .ran e _] =>
    start.hooks.pending.any fun d => match d, e with
      | ⟨key, index, .func place⟩, ⟨key', index', .func place'⟩ => key == key' && index == index' && place == place'
      | _, _ => false
  | _ => false

theorem exists_of_runsLeftOver {log : List Beat} (h : runsLeftOver log = true) :
    ∃ (before : List Beat) (start stop : Machine) (mid : List Beat) (e : Effect Value) (m : Machine),
      log = (before ++ .passed start stop :: mid) ++ .ran e m :: [] ∧ (∀ a b, .passed a b ∉ mid) ∧
        e ∈ start.hooks.pending := by
  unfold runsLeftOver at h
  split at h
  · rename_i start stop out made e m
    obtain ⟨d, hd, he⟩ := List.any_eq_true.1 h
    refine ⟨_ :: _ :: _ :: _ :: _ :: _ :: [], start, stop, [.swept out made], e, m, rfl, by simp, ?_⟩
    split at he
    · simp only [Bool.and_eq_true, beq_iff_eq] at he
      obtain ⟨⟨rfl, rfl⟩, rfl⟩ := he
      exact hd
    · exact nomatch he
  · exact nomatch h

set_option maxRecDepth 100000 in
theorem runsLeftOver_reading : runsLeftOver reading = true := by decide +kernel

theorem effects_accounted_reader : Faithful Script.invoke ∧ ∃ older e m rest, reading = older ++ .ran e m :: rest ∧
    Accounted older e := by
  obtain ⟨before, start, stop, mid, e, m, h, -⟩ := exists_of_runsLeftOver runsLeftOver_reading
  exact ⟨faithful_invoke, _, e, m, _, h, effects_accounted faithful_invoke 25 {} _ h⟩

/-- The effect of a discarded pass runs. -/
theorem discarded_effect_runs : ¬ ∀ (ops : List Op) (older : List Beat) (e : Effect Value) (m : Machine)
    (rest before : List Beat) (start stop : Machine) (mid : List Beat),
    chronicle Script.invoke (fresh 25 {}) ops = older ++ .ran e m :: rest →
      older = before ++ .passed start stop :: mid → (∀ a b, .passed a b ∉ mid) → e ∉ start.hooks.pending := by
  intro hall
  obtain ⟨before, start, stop, mid, e, m, h, hp, he⟩ := exists_of_runsLeftOver runsLeftOver_reading
  exact hall _ _ e m _ before start stop mid h rfl hp he

end LivePreview.Surface
