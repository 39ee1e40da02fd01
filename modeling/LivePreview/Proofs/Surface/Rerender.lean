import LivePreview.Proofs.Surface.Storage

/-! **The cap on passes is exact.**

A pass is clean when no state changes in its render, in the cleanups of what it has left out or in its effects, and
dirty when some state does. What has changed is read off the moves of the store, not off its flag; that the flag of
the loop says the same is the first lemma here. An operation that renders makes one pass after another up to the first
clean one, or one more than its limit allows. -/
namespace LivePreview.Surface
open Script Hook
variable {invoke : Invoke} {order : Order} {render : Value} {props : Json} {m n start stop swept : Machine}
  {output : List Node × Array Value} {s : Surface} {mounted : Mounted} {limit : Nat}

/-- On the way from one store to another some state was given another value. -/
def Changed (s t : Store Value) : Prop := ∃ bs, Store.Path Value.equals bs s t ∧ true ∈ bs

theorem changed_iff {s t : Store Value} (h : ∃ bs, Store.Path Value.equals bs s t) (hs : s.dirty = false) :
    Changed s t ↔ t.dirty = true := by
  have hd {bs} (hp : Store.Path Value.equals bs s t) : t.dirty = true ↔ true ∈ bs := by
    rw [hp.dirty, hs, Bool.false_or, List.any_eq_true]
    exact ⟨fun ⟨b, hb, ht⟩ => ht ▸ hb, fun hb => ⟨true, hb, rfl⟩⟩
  constructor
  · rintro ⟨bs, hp, hb⟩
    exact (hd hp).2 hb
  · intro ht
    obtain ⟨bs, hp⟩ := h
    exact ⟨bs, hp, (hd hp).1 ht⟩

/-! ### Passes -/

section Passes
variable (invoke order render props)

/-- A pass gives its output, and the cleanups of what it has left out come to their end. -/
def Presents (start : Machine) (output : List Node × Array Value) (swept : Machine) : Prop :=
  ∃ drawn, renderPass invoke render props start = .ok output drawn ∧ dropStale invoke order drawn = .ok () swept

/-- A pass in which no state changes, its cleanups and effects included. -/
inductive CleanPass (start : Machine) (output : List Node × Array Value) (stop : Machine) : Prop
  | intro {swept : Machine} (presents : Presents invoke order render props start output swept)
      (still : ¬ Changed start.hooks.beginPass swept.hooks) (effects : settleEffects invoke swept = .ok () stop)
      (clean : ¬ Changed start.hooks.beginPass stop.hooks)

/-- A pass in which state changes. A change in the render or in the cleanups ends the pass before its effects. -/
inductive DirtyPass (start stop : Machine) : Prop
  | early {output : List Node × Array Value} (presents : Presents invoke order render props start output stop)
      (changed : Changed start.hooks.beginPass stop.hooks)
  | late {output : List Node × Array Value} {swept : Machine}
      (presents : Presents invoke order render props start output swept)
      (still : ¬ Changed start.hooks.beginPass swept.hooks) (effects : settleEffects invoke swept = .ok () stop)
      (changed : Changed start.hooks.beginPass stop.hooks)

/-- A pass in which the render, a cleanup or an effect raises an error. -/
inductive RaisingPass (start : Machine) : Prop
  | pass {e : RenderError} {stop : Machine} (pass : renderPass invoke render props start = .error e stop)
  | cleanup {output : List Node × Array Value} {drawn : Machine} {e : RenderError} {stop : Machine}
      (pass : renderPass invoke render props start = .ok output drawn)
      (drop : dropStale invoke order drawn = .error e stop)
  | effect {output : List Node × Array Value} {swept : Machine} {e : RenderError} {stop : Machine}
      (presents : Presents invoke order render props start output swept)
      (still : ¬ Changed start.hooks.beginPass swept.hooks) (effects : settleEffects invoke swept = .error e stop)

/-- Dirty passes one after another, with the machines from which they begin. -/
inductive DirtyPasses : List Machine → Machine → Machine → Prop
  | nil (m : Machine) : DirtyPasses [] m m
  | cons {start next stop : Machine} {starts : List Machine} (pass : DirtyPass invoke order render props start next)
      (rest : DirtyPasses starts next stop) : DirtyPasses (start :: starts) start stop

end Passes

/-! ### What a pass changes -/

theorem Presents.path (hi : Scripted invoke) (h : Presents invoke order render props start output swept) :
    ∃ bs, Store.Path Value.equals bs start.hooks.beginPass swept.hooks := by
  obtain ⟨drawn, hp, hd⟩ := h
  have hr := renderPass_drawn hi render props start
  rw [last_of_ok hp] at hr
  obtain ⟨bs, hb⟩ := hr.path
  have ha := dropStale_acted hi order drawn
  rw [last_of_ok hd] at ha
  obtain ⟨cs, hc⟩ := ha.path
  exact ⟨_, (hb.snoc (.finishPass _)).trans hc⟩

/-- Effects go on with the moves of their pass. -/
theorem path_settleEffects (hi : Scripted invoke) {s : Store Value}
    (hs : ∃ bs, Store.Path Value.equals bs s swept.hooks) (h : settleEffects invoke swept = .ok () stop) :
    ∃ bs, Store.Path Value.equals bs s stop.hooks := by
  obtain ⟨bs, hb⟩ := hs
  have hk := settleEffects_keeps (m := swept) (P := fun t => ∃ bs, Store.Path Value.equals bs s t)
    (hi.stable fun _ _ _ ha ⟨_, hs⟩ => ⟨_, hs.snoc (.act ha)⟩)
    (fun e _ _ ⟨_, hs⟩ => ⟨_, hs.snoc (.takeCleanup _ e.key e.index)⟩)
    (fun e _ _ v ⟨_, hs⟩ => ⟨_, hs.snoc (.setCleanup _ e.key e.index v)⟩)
    ⟨_, hb.snoc (.takeEffects _)⟩
  rwa [last_of_ok h] at hk

theorem Presents.changed_iff (hi : Scripted invoke) (h : Presents invoke order render props start output swept) :
    Changed start.hooks.beginPass swept.hooks ↔ swept.hooks.dirty = true :=
  Surface.changed_iff (h.path hi) rfl

theorem Presents.settled_iff (hi : Scripted invoke) (h : Presents invoke order render props start output swept)
    (he : settleEffects invoke swept = .ok () stop) :
    Changed start.hooks.beginPass stop.hooks ↔ stop.hooks.dirty = true :=
  Surface.changed_iff (path_settleEffects hi (h.path hi) he) rfl

/-! ### A round of the loop -/

theorem Presents.round_eq (h : Presents invoke order render props start output swept) :
    round invoke order render props start =
      if swept.hooks.dirty then .ok none swept
      else (do
        settleEffects invoke
        if ← isDirty then return none else return some output : Cycle _) swept := by
  obtain ⟨drawn, hp, hd⟩ := h
  unfold round
  rw [bind_of_ok hp, bind_of_ok hd, bind_of_ok (rfl : isDirty swept = .ok swept.hooks.dirty swept)]
  split <;> rfl

theorem Presents.round_early (h : Presents invoke order render props start output swept)
    (hd : swept.hooks.dirty = true) : round invoke order render props start = .ok none swept := by
  rw [h.round_eq, if_pos hd]

theorem Presents.round_late (h : Presents invoke order render props start output swept)
    (hd : ¬ swept.hooks.dirty = true) (he : settleEffects invoke swept = .ok () stop) :
    round invoke order render props start = .ok (if stop.hooks.dirty then none else some output) stop := by
  rw [h.round_eq, if_neg hd, bind_of_ok he, bind_of_ok (rfl : isDirty stop = .ok stop.hooks.dirty stop)]
  split <;> rfl

/-- **A pass is clean, dirty or raises an error**, just as the round that it is ends. -/
theorem pass_cases (order : Order) (render : Value) (props : Json) (hi : Scripted invoke) (start : Machine) :
    (∃ output stop, round invoke order render props start = .ok (some output) stop ∧
        CleanPass invoke order render props start output stop) ∨
      (∃ stop, round invoke order render props start = .ok none stop ∧
        DirtyPass invoke order render props start stop) ∨
      (∃ e stop, round invoke order render props start = .error e stop ∧
        RaisingPass invoke order render props start) := by
  cases hp : renderPass invoke render props start with
  | error e stop => exact .inr (.inr ⟨e, stop, bind_of_error hp, .pass hp⟩)
  | ok output drawn =>
    cases hd : dropStale invoke order drawn with
    | error e stop => exact .inr (.inr ⟨e, stop, (bind_of_ok hp).trans (bind_of_error hd), .cleanup hp hd⟩)
    | ok _ swept =>
      have hs : Presents invoke order render props start output swept := ⟨drawn, hp, hd⟩
      by_cases hc : swept.hooks.dirty = true
      · exact .inr (.inl ⟨swept, hs.round_early hc, .early hs ((hs.changed_iff hi).2 hc)⟩)
      · have hn := mt (hs.changed_iff hi).1 hc
        cases he : settleEffects invoke swept with
        | error e stop =>
          refine .inr (.inr ⟨e, stop, ?_, .effect hs hn he⟩)
          rw [hs.round_eq, if_neg hc, bind_of_error he]
        | ok _ stop =>
          have hr := hs.round_late hc he
          by_cases ht : stop.hooks.dirty = true
          · rw [if_pos ht] at hr
            exact .inr (.inl ⟨stop, hr, .late hs hn he ((hs.settled_iff hi he).2 ht)⟩)
          · rw [if_neg ht] at hr
            exact .inl ⟨output, stop, hr, .intro hs hn he (mt (hs.settled_iff hi he).1 ht)⟩

theorem CleanPass.round_eq (hi : Scripted invoke) (h : CleanPass invoke order render props start output stop) :
    round invoke order render props start = .ok (some output) stop := by
  obtain ⟨hs, hn, he, hc⟩ := h
  rw [hs.round_late (mt (hs.changed_iff hi).2 hn) he, if_neg (mt (hs.settled_iff hi he).2 hc)]

theorem DirtyPass.round_eq (hi : Scripted invoke) (h : DirtyPass invoke order render props start stop) :
    round invoke order render props start = .ok none stop := by
  cases h with
  | early hs hc => exact hs.round_early ((hs.changed_iff hi).1 hc)
  | late hs hn he hc =>
    rw [hs.round_late (mt (hs.changed_iff hi).2 hn) he, if_pos ((hs.settled_iff hi he).1 hc)]

/-! ### Passes in a row -/

section Cycles
variable {starts : List Machine}

/-- Dirty passes leave the loop with as many passes fewer. -/
theorem DirtyPasses.cycle_eq (limit : Nat) (hi : Scripted invoke)
    (h : DirtyPasses invoke order render props starts m n) (passes : Nat) :
    cycle invoke order limit render props (starts.length + passes) m =
        cycle invoke order limit render props passes n ∧
      Beat.passes ((tellCycle invoke order render props limit (starts.length + passes)).story m) =
        starts ++ Beat.passes ((tellCycle invoke order render props limit passes).story n) := by
  induction h with
  | nil m => exact ⟨by rw [List.length_nil, Nat.zero_add], by rw [List.length_nil, Nat.zero_add, List.nil_append]⟩
  | cons pass rest ih =>
    have hr := pass.round_eq hi
    rw [List.length_cons, Nat.add_right_comm, List.cons_append, ← ih.2, ← ih.1, cycle, bind_of_ok hr]
    exact ⟨rfl, passes_tellCycle_none limit hr⟩

/-- The loop comes to a clean pass, uses up its passes or comes to a pass that raises an error. -/
theorem cycle_cases (order : Order) (render : Value) (props : Json) (hi : Scripted invoke) (passes : Nat)
    (m : Machine) :
    (∃ starts last output stop, starts.length < passes ∧ DirtyPasses invoke order render props starts m last ∧
        CleanPass invoke order render props last output stop) ∨
      (∃ starts stop, starts.length = passes ∧ DirtyPasses invoke order render props starts m stop) ∨
      (∃ starts last, starts.length < passes ∧ DirtyPasses invoke order render props starts m last ∧
        RaisingPass invoke order render props last) := by
  induction passes generalizing m with
  | zero => exact .inr (.inl ⟨[], m, rfl, .nil m⟩)
  | succ passes ih =>
    obtain ⟨output, stop, -, hc⟩ | ⟨next, -, hd⟩ | ⟨e, stop, -, hr⟩ := pass_cases _ _ _ hi m
    · exact .inl ⟨[], m, output, stop, passes.succ_pos, .nil m, hc⟩
    · obtain ⟨starts, last, output, stop, hl, hs, hc⟩ | ⟨starts, stop, hl, hs⟩ | ⟨starts, last, hl, hs, hr⟩ := ih next
      · exact .inl ⟨m :: starts, last, output, stop, Nat.succ_lt_succ hl, .cons hd hs, hc⟩
      · exact .inr (.inl ⟨m :: starts, stop, congrArg Nat.succ hl, .cons hd hs⟩)
      · exact .inr (.inr ⟨m :: starts, last, Nat.succ_lt_succ hl, .cons hd hs, hr⟩)
    · exact .inr (.inr ⟨[], m, passes.succ_pos, .nil m, hr⟩)

/-- The loop ends with a clean pass that it comes to. -/
theorem DirtyPasses.cycle_settled (limit : Nat) (hi : Scripted invoke)
    (h : DirtyPasses invoke order render props starts m n)
    (hc : CleanPass invoke order render props n output stop) {passes : Nat} (hl : starts.length < passes) :
    cycle invoke order limit render props passes m = .ok output stop ∧
      Beat.passes ((tellCycle invoke order render props limit passes).story m) = starts ++ [n] := by
  obtain ⟨rest, rfl⟩ := Nat.exists_eq_add_of_lt hl
  obtain ⟨he, hp⟩ := h.cycle_eq limit hi (rest + 1)
  have hr := hc.round_eq hi
  rw [Nat.add_assoc, he, hp, cycle, bind_of_ok hr, passes_tellCycle_some limit hr]
  exact ⟨rfl, rfl⟩

/-- The loop fails when all its passes are dirty. -/
theorem DirtyPasses.cycle_exceeded (limit : Nat) (hi : Scripted invoke)
    (h : DirtyPasses invoke order render props starts m n) :
    cycle invoke order limit render props starts.length m = .error (.tooManyRerenders limit) n ∧
      Beat.passes ((tellCycle invoke order render props limit starts.length).story m) = starts := by
  obtain ⟨he, hp⟩ := h.cycle_eq limit hi 0
  exact ⟨he, hp.trans (List.append_nil starts)⟩

/-- The loop never begins more passes than it may. -/
theorem length_passes_tellCycle_le (limit passes : Nat) (m : Machine) :
    (Beat.passes ((tellCycle invoke order render props limit passes).story m)).length ≤ passes := by
  induction passes generalizing m with
  | zero => exact Nat.le_refl 0
  | succ passes ih =>
    cases hr : round invoke order render props m with
    | ok output? n =>
      cases output? with
      | none =>
        rw [passes_tellCycle_none limit hr]
        exact Nat.succ_le_succ (ih n)
      | some output =>
        rw [passes_tellCycle_some limit hr]
        exact Nat.succ_le_succ passes.zero_le
    | error e n =>
      rw [passes_tellCycle_error limit hr]
      exact Nat.succ_le_succ passes.zero_le

end Cycles

/-! ### Effects -/

section Effects
variable {ε α β : Type} {e : Effect Value}

theorem mem_story_bind {beat : Beat} {t : Told Beat ε α} {k : α → Told Beat ε β} (h : beat ∈ (t >>= k).story m) :
    beat ∈ t.story m ∨ ∃ a l, t.run m = .ok a l ∧ beat ∈ (k a).story l := by
  cases hr : t.run m with
  | ok a l =>
    rw [Told.story_bind_ok hr] at h
    exact (List.mem_append.1 h).imp_right fun h => ⟨a, l, rfl, h⟩
  | error e l => exact .inl (Told.story_bind_error hr ▸ h)

/-- **Effects of a pass run only while no state has changed in its render and its cleanups.** -/
theorem ran_tellRound (hi : Scripted invoke) (h : .ran e n ∈ (tellRound invoke order render props).story start) :
    ∃ output swept, Presents invoke order render props start output swept ∧
      ¬ Changed start.hooks.beginPass swept.hooks ∧ e ∈ swept.hooks.pending := by
  have hpass : (tellPass invoke render props).Tells (· ≠ .ran e n) :=
    .bind (.tell fun _ => nofun) fun _ => .bind (.quiet _) fun _ => .bind (.quiet _) fun _ =>
      .bind (.tell fun _ => nofun) fun _ => .pure _
  have hstale : (tellStale invoke order).Tells (· ≠ .ran e n) := tellStale_tells fun _ _ => nofun
  obtain h | ⟨output, drawn, hp, h⟩ := mem_story_bind h
  · exact absurd rfl (hpass.all _ _ h)
  obtain h | ⟨_, swept, hd, h⟩ := mem_story_bind h
  · exact absurd rfl (hstale.all _ _ h)
  rw [tellPass_run] at hp
  rw [tellStale_run] at hd
  have hs : Presents invoke order render props start output swept := ⟨drawn, hp, hd⟩
  refine ⟨output, swept, hs, ?_⟩
  rw [hs.changed_iff hi]
  obtain h | ⟨dirty, _, hg, h⟩ := mem_story_bind h
  · exact absurd h List.not_mem_nil
  cases hg
  split at h
  · exact nomatch List.mem_singleton.1 h
  · refine ⟨‹_›, ?_⟩
    obtain h | ⟨_, _, -, h⟩ := mem_story_bind h
    · obtain h | ⟨effects, _, ht, h⟩ := mem_story_bind h
      · exact absurd h List.not_mem_nil
      · cases ht
        exact ((tellEffects_tells _).ofRun.budgeted.all _ _ h).2 e n rfl
    · obtain h | ⟨_, _, -, h⟩ := mem_story_bind h
      · exact absurd h List.not_mem_nil
      · split at h <;> exact absurd h List.not_mem_nil

theorem ran_tellCycle (hi : Scripted invoke) (passes : Nat)
    (h : .ran e n ∈ (tellCycle invoke order render props limit passes).story m) :
    ∃ starts last output swept, starts.length < passes ∧ DirtyPasses invoke order render props starts m last ∧
      Presents invoke order render props last output swept ∧ ¬ Changed last.hooks.beginPass swept.hooks ∧
      e ∈ swept.hooks.pending := by
  induction passes generalizing m with
  | zero => exact absurd h List.not_mem_nil
  | succ passes ih =>
    obtain h | ⟨output?, next, hr, h⟩ := mem_story_bind h
    · obtain ⟨output, swept, hs, hn, he⟩ := ran_tellRound hi h
      exact ⟨[], m, output, swept, passes.succ_pos, .nil m, hs, hn, he⟩
    · cases output? with
      | some output => exact absurd h List.not_mem_nil
      | none =>
        rw [tellRound_run] at hr
        obtain ⟨starts, last, output, swept, hl, hd, hs⟩ := ih h
        refine ⟨m :: starts, last, output, swept, Nat.succ_lt_succ hl, .cons ?_ hd, hs⟩
        obtain ⟨_, _, hc, -⟩ | ⟨_, hc, hd⟩ | ⟨_, _, hc, -⟩ := pass_cases order render
          props hi m
        · exact nomatch hr.symm.trans hc
        · cases hr.symm.trans hc
          exact hd
        · exact nomatch hr.symm.trans hc

end Effects

/-! ### Operations -/

/-- What a flush renders: what is mounted, when its state has changed and no error is shown. -/
def flushing? (s : Surface) : Option Mounted :=
  s.mounted.filter fun mounted => mounted.component.machine.hooks.dirty && !s.isCaptured

/-- What an operation renders, if it renders. -/
def rendering? (invoke : Invoke) (s : Surface) : Op → Option Mounted
  | .mount c props => ((s.unmount invoke).1.place invoke c props).mounted
  | .update props => if s.isCaptured then none else s.mounted.map fun mounted => { mounted with props }
  | .flush => flushing? s
  | .dispatch id event =>
    match s.handler? id with
    | .error _ => none
    | .ok (mounted, callback) => flushing? { s with mounted := some (handle invoke callback event mounted).1 }
  | .unmount | .call _ _ => none

def Op.phase : Op → Phase
  | .mount _ _ => .mount
  | _ => .update

theorem flushing?_some (invoke : Invoke) (h : flushing? s = some mounted) : s.mounted = some mounted ∧
    tellFlush invoke s = tellRender invoke .update s := by
  obtain ⟨hm, hd⟩ := Option.filter_eq_some_iff.1 h
  refine ⟨hm, ?_⟩
  unfold tellFlush
  rw [hm]
  exact if_pos hd

/-- No pass begins here, and no effect runs. -/
def Beat.Aside : Beat → Prop
  | .begun _ | .ran _ _ => False
  | _ => True

theorem Beat.Outside.aside {beat : Beat} (h : beat.Outside) : beat.Aside := by
  cases beat
  case handled | called => exact trivial
  all_goals exact h.elim

theorem aside_tellRelease (order : Order) (c : Component) :
    ∀ beat ∈ (tellRelease invoke order c).story, beat.Aside := by
  obtain ⟨-, h⟩ | ⟨start, h⟩ := @story_tellRelease invoke order c <;> rw [h]
  · exact List.forall_mem_nil _
  · exact List.forall_mem_singleton.2 trivial

theorem aside_tellUnmount (s : Surface) : ∀ beat ∈ (tellUnmount invoke s).story, beat.Aside := by
  cases hm : s.mounted with
  | none =>
    rw [story_tellUnmount_none hm]
    exact List.forall_mem_nil _
  | some mounted =>
    rw [story_tellUnmount_some hm]
    exact aside_tellRelease _ _

theorem aside_tellPlace (c : Component) (props : Json) (s : Surface) :
    ∀ beat ∈ (tellPlace invoke c props s).story, beat.Aside := by
  rw [story_tellPlace]
  exact List.forall_mem_cons.2 ⟨trivial, aside_tellRelease _ c⟩

/-- An operation that renders is a render of a surface with the same order and limit, and its passes and effects are
those of this render. -/
theorem act_rendering {op : Op} (h : rendering? invoke s op = some mounted) :
    ∃ t before, t.mounted = some mounted ∧ t.order = s.order ∧ t.maxRerenders = s.maxRerenders ∧
      act invoke s op = Surface.render invoke op.phase t ∧ (∀ beat ∈ before, beat.Aside) ∧
      (tellAct invoke s op).story = before ++ (tellRender invoke op.phase t).story := by
  cases op with
  | mount c props =>
    have hu : (s.unmount invoke).1.order = s.order ∧ (s.unmount invoke).1.maxRerenders = s.maxRerenders := by
      unfold unmount
      split <;> exact ⟨rfl, rfl⟩
    exact ⟨(s.unmount invoke).1.place invoke c props, _, h, hu.1, hu.2, rfl,
      List.forall_mem_append.2 ⟨aside_tellUnmount s, aside_tellPlace c props _⟩,
      (beats_mount c props s).trans (List.append_assoc ..).symm⟩
  | update props =>
    rw [rendering?] at h
    split at h
    · cases h
    · rename_i hc
      obtain ⟨before, hm, rfl⟩ := Option.map_eq_some_iff.1 h
      refine ⟨{ s with mounted := some { before with props } }, [], rfl, rfl, rfl, ?_⟩
      rw [act, update, tellAct, tellUpdate, if_neg hc, if_neg hc, hm]
      exact ⟨rfl, List.forall_mem_nil _, rfl⟩
  | flush =>
    obtain ⟨hm, ht⟩ := flushing?_some invoke h
    refine ⟨s, [], hm, rfl, rfl, ?_, List.forall_mem_nil _, congrArg Tale.story ht⟩
    have hp : Op.flush.phase = .update := rfl
    rw [← tellRender_outcome, hp, ← ht, tellFlush_outcome]
    rfl
  | dispatch id event =>
    rw [rendering?] at h
    cases hh : s.handler? id with
    | error e =>
      rw [hh] at h
      cases h
    | ok r =>
      rw [hh] at h
      obtain ⟨hm, ht⟩ := flushing?_some invoke h
      refine ⟨_, _, hm, rfl, rfl, ?_, fun beat hb => (outside_tellHandle r.2 event r.1 beat hb).aside,
        (beats_dispatch event hh).trans (congrArg (fun t => _ ++ Tale.story t) ht)⟩
      have hp : (Op.dispatch id event).phase = .update := rfl
      rw [← tellRender_outcome, hp, ← ht, tellFlush_outcome, act, dispatch, hh]
  | unmount | call => cases h

/-! ### The cap -/

section Cap
variable (invoke : Invoke) (s : Surface) (op : Op) (mounted : Mounted)

/-- What is mounted makes dirty passes in a row, from where it stands. -/
def Spins (order : Order) (starts : List Machine) (last : Machine) : Prop :=
  DirtyPasses invoke order mounted.component.render mounted.props starts mounted.component.machine last

/-- The first clean pass comes after these dirty ones, with this output. -/
def Concluded (order : Order) (starts : List Machine) (last : Machine) (nodes : List Node) : Prop :=
  Spins invoke mounted order starts last ∧ ∃ handlers stop,
    CleanPass invoke order mounted.component.render mounted.props last (nodes, handlers) stop

/-- What an operation that renders `mounted` does with the passes that it may make. -/
structure Capped : Prop where
  /-- The passes are told with the operation itself. -/
  told : (tellAct invoke s op).outcome = act invoke s op
  /-- With a first clean pass after no more dirty ones than the limit, this is the last, and its output is shown. -/
  settles : ∀ starts last nodes, starts.length ≤ s.maxRerenders → Concluded invoke mounted s.order starts last nodes →
    Beat.passes (tellAct invoke s op).story = starts ++ [last] ∧ (act invoke s op).shown = .rendered nodes
  /-- With one dirty pass more than the limit, this is the last, and an error is captured. -/
  exceeds : ∀ starts stop, starts.length = s.maxRerenders + 1 → Spins invoke mounted s.order starts stop →
    Beat.passes (tellAct invoke s op).story = starts ∧ (act invoke s op).shown =
      .captured ⟨.tooManyRerenders s.maxRerenders, mounted.component.name, op.phase⟩
  /-- When no pass that it comes to raises an error, one of the two is the case. -/
  decided : (∀ starts last, starts.length ≤ s.maxRerenders → Spins invoke mounted s.order starts last →
      ¬ RaisingPass invoke s.order mounted.component.render mounted.props last) →
    (∃ starts last nodes, starts.length ≤ s.maxRerenders ∧ Concluded invoke mounted s.order starts last nodes) ∨
      ∃ starts stop, starts.length = s.maxRerenders + 1 ∧ Spins invoke mounted s.order starts stop
  bounded : (Beat.passes (tellAct invoke s op).story).length ≤ s.maxRerenders + 1
  /-- An effect that runs is one of a pass that has changed no state in its render and its cleanups. -/
  effects : ∀ e m, .ran e m ∈ (tellAct invoke s op).story → ∃ starts last output swept, starts.length ≤ s.maxRerenders ∧
    Spins invoke mounted s.order starts last ∧
    Presents invoke s.order mounted.component.render mounted.props last output swept ∧
    ¬ Changed last.hooks.beginPass swept.hooks ∧ e ∈ swept.hooks.pending

end Cap

/-- What is told of an operation that renders: its passes and the effects that run are those of the update. -/
theorem story_rendering {op : Op} (h : rendering? invoke s op = some mounted) :
    Beat.passes (tellAct invoke s op).story = Beat.passes ((tellCycle invoke s.order mounted.component.render
        mounted.props s.maxRerenders (s.maxRerenders + 1)).story mounted.component.machine) ∧
      ∀ e m, .ran e m ∈ (tellAct invoke s op).story → .ran e m ∈ (tellCycle invoke s.order mounted.component.render
        mounted.props s.maxRerenders (s.maxRerenders + 1)).story mounted.component.machine := by
  obtain ⟨t, before, hm, ho, hl, -, hb, hs⟩ := act_rendering h
  rw [hs, ← ho, ← hl]
  constructor
  · have hn : Beat.passes before = [] := passes_eq_nil fun beat hbm start => by
      rintro rfl
      exact hb _ hbm
    rw [passes_append, hn, List.nil_append, passes_tellRender op.phase hm]
  · intro e m he
    have hr := (List.mem_append.1 he).resolve_left fun he => hb _ he
    rw [story_tellRender op.phase hm] at hr
    refine (List.mem_append.1 hr).resolve_right fun hr => ?_
    split at hr
    · exact absurd hr List.not_mem_nil
    · exact aside_tellRelease _ _ _ hr

/-- **The cap on passes is exact**, for every component, every operation that renders and every limit: an operation
ends with the first clean pass where this comes after no more dirty ones than the limit, and with one dirty pass more
than the limit otherwise. -/
theorem rerenders_capped (hi : Scripted invoke) (s : Surface) (op : Op) (mounted : Mounted)
    (h : rendering? invoke s op = some mounted) : Capped invoke s op mounted := by
  obtain ⟨t, -, hm, ho, hl, ha, -⟩ := act_rendering h
  obtain ⟨hp, hb⟩ := story_rendering h
  refine ⟨tellAct_outcome s op, fun starts last nodes hs ⟨hd, handlers, stop, hc⟩ => ?_, fun starts stop hs hd => ?_,
    fun hr => ?_, hp ▸ length_passes_tellCycle_le .., fun e m he => ?_⟩
  · obtain ⟨hn, hd⟩ := hd.cycle_settled s.maxRerenders hi hc (Nat.lt_succ_of_le hs)
    refine ⟨hp.trans hd, ?_⟩
    rw [← ho, ← hl] at hn
    rw [ha, (render_ok op.phase hm hn).1]
  · obtain ⟨hn, hd⟩ := DirtyPasses.cycle_exceeded s.maxRerenders hi hd
    rw [hs] at hn hd
    refine ⟨hp.trans hd, ?_⟩
    rw [← ho, ← hl] at hn
    rw [ha, ← hl]
    exact (render_error op.phase hm hn).1
  · obtain ⟨starts, last, output, stop, hs, hd, hc⟩ | ⟨starts, stop, hs, hd⟩ | ⟨starts, last, hs, hd, hc⟩ :=
      cycle_cases s.order mounted.component.render mounted.props hi
        (s.maxRerenders + 1) mounted.component.machine
    · exact .inl ⟨starts, last, output.1, Nat.le_of_lt_succ hs, hd, output.2, stop, hc⟩
    · exact .inr ⟨starts, stop, hs, hd⟩
    · exact absurd hc (hr starts last (Nat.le_of_lt_succ hs) hd)
  · obtain ⟨starts, last, output, swept, hs, hd⟩ := ran_tellCycle hi _ (hb e m he)
    exact ⟨starts, last, output, swept, Nat.le_of_lt_succ hs, hd⟩

/-- A component that counts up to a goal in its render. -/
def riser : Component :=
  ((Component.attempt { instruments := true } {} ("function Riser(props)\n" ++
    "  local n, set = React.useState(0)\n" ++
    "  if n < props.goal then set(n + 1) end\n" ++
    "  return n < props.goal and 'rising' or 'risen'\nend") "Riser").component?).getD default

/-- The text that is shown, if it is nothing but one. -/
def shownText? (s : Surface) : Option String :=
  match s.shown with
  | .rendered [.text t] => some t
  | _ => none

set_option maxRecDepth 100000 in
/-- A goal at the limit is reached in the last pass that the limit allows, and it is shown. -/
theorem rerenders_capped_riser : Scripted Script.invoke ∧ ∃ mounted,
    rendering? Script.invoke (fresh 2 {}) (.mount riser (.obj [("goal", .int 2)])) = some mounted ∧
      Capped Script.invoke (fresh 2 {}) (.mount riser (.obj [("goal", .int 2)])) mounted ∧
      (Beat.passes (tellAct Script.invoke (fresh 2 {}) (.mount riser (.obj [("goal", .int 2)]))).story).length = 3 ∧
      shownText? (act Script.invoke (fresh 2 {}) (.mount riser (.obj [("goal", .int 2)]))) = some "risen" := by
  obtain ⟨mounted, hm, -⟩ := place_mounted scripted_invoke riser (.obj [("goal", .int 2)])
    ((fresh 2 {}).unmount Script.invoke).1
  refine ⟨scripted_invoke, mounted, hm, rerenders_capped scripted_invoke _ _ mounted hm, ?_⟩
  decide +kernel

set_option maxRecDepth 100000 in
/-- A goal beyond the limit is not reached, and no pass more is made for it. -/
example : (act Script.invoke (fresh 2 {}) (.mount riser (.obj [("goal", .int 3)]))).isCaptured = true ∧
    (Beat.passes (tellAct Script.invoke (fresh 2 {}) (.mount riser (.obj [("goal", .int 3)]))).story).length = 3 := by
  decide +kernel

end LivePreview.Surface
