import LivePreview.Proofs.Surface.Upkeep

/-! **Effects and their cleanups alternate.**

The chronicle of a run says which cleanups have come in, with the hook calls that they are kept for, and which ones
have been taken out to be called. A beat is admitted where it keeps the order of these: nothing is taken out that has
not come in, and no effect runs while a cleanup of its hook call is open. What a chronicle says and what the store
holds agree at all times, and as long as no run has failed no open cleanup is missing from the store (`Ledger`). -/
namespace LivePreview.Surface
open Script Hook
variable {invoke : Invoke} {order : Order} {m n : Machine} {log before : List Beat} {s t : Store Value}

/-! ### Hook calls with cleanups -/

/-- No hook call holds two cleanups. -/
def Unique (s : Store Value) : Prop := (s.cleanups.map (·.1)).Nodup

/-- No hook call holds two cleanups, and one of them holds none. -/
def Vacant (e : Effect Value) (s : Store Value) : Prop := Unique s ∧ (e.key, e.index) ∉ s.cleanups.map (·.1)

theorem Unique.of_cleanups (h : t.cleanups = s.cleanups) (hs : Unique s) : Unique t := by
  unfold Unique
  rwa [h]

theorem Vacant.of_cleanups {e : Effect Value} (h : t.cleanups = s.cleanups) (hs : Vacant e s) : Vacant e t := by
  unfold Vacant Unique
  rwa [h]

/-! ### Coming in and going out -/

namespace Beat

/-- The cleanups that come in. -/
def entries : Beat → List Entry
  | .placed brought => brought
  | .kept call cleanup => [(call, cleanup)]
  | _ => []

/-- The cleanups that are taken out. -/
def exits : Beat → List Entry
  | .swept taken _ => taken
  | _ => []

/-- The cleanups that are called. -/
def functions : Beat → List Value
  | .swept _ calls => calls.map (·.function)
  | _ => []

end Beat

def entered (log : List Beat) : List Entry := log.flatMap Beat.entries

def taken (log : List Beat) : List Entry := log.flatMap Beat.exits

def called (log : List Beat) : List Value := log.flatMap Beat.functions

/-- An effect has given this cleanup for this hook call under the component that is placed now, and no sweep has taken
it out since and called all that it took. -/
def Open (log : List Beat) (call : Key × Nat) (cleanup : Value) : Prop :=
  ∃ before mid, log = before ++ .kept call cleanup :: mid ∧ (∀ brought, .placed brought ∉ mid) ∧
    ∀ taken calls, .swept taken calls ∈ mid → (call, cleanup) ∈ taken →
      ¬ (calls.map (·.function)).Perm (taken.map (·.2))

/-- What may happen after what has happened before. A cleanup that is kept is what the effect has given that was
called just before; what is taken out has come in and has not been taken out since, and of it everything is called once
unless a call fails; an effect is called when nothing is open for its hook call. -/
def Admits (invoke : Invoke) (before : List Beat) : Beat → Prop
  | .kept call cleanup => ∃ older e start stop, before = older ++ [.ran e start] ∧ call = (e.key, e.index) ∧
      Run.first (invoke Trail.host e.callback []) start = .ok cleanup stop
  | .swept out calls => (taken before ++ out).Subperm (entered before) ∧ Made invoke out calls
  | .ran e _ => ∀ cleanup, ¬ Open before (e.key, e.index) cleanup
  | _ => True

/-- What is open after a beat was open before it, or has just been kept. -/
theorem Open.of_snoc {beat : Beat} {call : Key × Nat} {cleanup : Value} (h : Open (log ++ [beat]) call cleanup) :
    beat = .kept call cleanup ∨ (Open log call cleanup ∧ (∀ brought, beat ≠ .placed brought) ∧
      ∀ taken calls, beat = .swept taken calls → (call, cleanup) ∈ taken →
        ¬ (calls.map (·.function)).Perm (taken.map (·.2))) := by
  obtain ⟨before, mid, he, hp, hs⟩ := h
  obtain rfl | ⟨mid, last, rfl⟩ := List.eq_nil_or_concat mid
  · obtain ⟨-, hb⟩ := List.append_inj' he rfl
    cases hb
    exact .inl rfl
  · rw [List.concat_eq_append] at he hp hs
    rw [← List.cons_append, ← List.append_assoc] at he
    obtain ⟨rfl, hb⟩ := List.append_inj' he rfl
    cases hb
    refine .inr ⟨⟨before, mid, rfl, fun b hb => hp b (List.mem_append_left _ hb),
      fun taken calls hm => hs taken calls (List.mem_append_left _ hm)⟩, ?_, ?_⟩
    · rintro b rfl
      exact hp b (List.mem_append_right _ (List.mem_singleton_self _))
    · rintro taken calls rfl
      exact hs taken calls (List.mem_append_right _ (List.mem_singleton_self _))

/-- Nothing is open when a component has just been placed. -/
theorem not_open_placed (log : List Beat) (brought : List Entry) {call : Key × Nat} {cleanup : Value} :
    ¬ Open (log ++ [.placed brought]) call cleanup := by
  intro h
  rcases h.of_snoc with he | ⟨-, hn, -⟩
  · exact nomatch he
  · exact hn brought rfl

/-! ### The ledger -/

/-- The chronicle is fair, and the store holds what has come in and has not been taken out. -/
structure Booked (invoke : Invoke) (log : List Beat) (s : Store Value) : Prop where
  fair : Fair (Admits invoke) log
  unique : Unique s
  balance : (entered log).Perm (taken log ++ s.cleanups)

/-- Besides, whatever is open is still in the store. -/
structure Ledger (invoke : Invoke) (log : List Beat) (s : Store Value) : Prop extends Booked invoke log s where
  holds : ∀ call cleanup, Open log call cleanup → (call, cleanup) ∈ s.cleanups

theorem entered_snoc (log : List Beat) (beat : Beat) : entered (log ++ [beat]) = entered log ++ beat.entries := by
  unfold entered
  rw [List.flatMap_append, List.flatMap_singleton]

theorem taken_snoc (log : List Beat) (beat : Beat) : taken (log ++ [beat]) = taken log ++ beat.exits := by
  unfold taken
  rw [List.flatMap_append, List.flatMap_singleton]

namespace Booked

theorem of_perm (h : Booked invoke log s) (hc : s.cleanups.Perm t.cleanups) : Booked invoke log t :=
  ⟨h.fair, (hc.map _).nodup h.unique, h.balance.trans (hc.append_left _)⟩

theorem of_cleanups (h : Booked invoke log s) (hc : t.cleanups = s.cleanups) : Booked invoke log t :=
  h.of_perm (.of_eq hc.symm)

/-- A sweep takes out what the store then no longer holds. -/
theorem swept {out : List Entry} {calls : List Call} (h : Booked invoke log s)
    (ho : s.cleanups.Perm (out ++ t.cleanups)) (hc : Made invoke out calls) :
    Booked invoke (log ++ [.swept out calls]) t := by
  have hb : (entered log).Perm (taken log ++ out ++ t.cleanups) := by
    rw [List.append_assoc]
    exact h.balance.trans (ho.append_left _)
  have hu := (ho.map Prod.fst).nodup_iff.1 h.unique
  refine ⟨h.fair.snoc ⟨?_, hc⟩, ?_, ?_⟩
  · exact ((List.sublist_append_left _ _).subperm).trans hb.symm.subperm
  · rw [List.map_append] at hu
    exact (List.nodup_append.1 hu).2.1
  · rw [entered_snoc, taken_snoc]
    show (entered log ++ []).Perm _
    rwa [List.append_nil]

/-- A beat with which nothing comes in or goes out. -/
theorem plain {beat : Beat} (h : Booked invoke log s) (ha : Admits invoke log beat) (hi : beat.entries = [])
    (ho : beat.exits = []) : Booked invoke (log ++ [beat]) s := by
  refine ⟨h.fair.snoc ha, h.unique, ?_⟩
  rw [entered_snoc, taken_snoc, hi, ho, List.append_nil, List.append_nil]
  exact h.balance

theorem outside {beat : Beat} (h : Booked invoke log s) (hb : beat.Outside) : Booked invoke (log ++ [beat]) s := by
  cases beat
  case handled | called => exact h.plain trivial rfl rfl
  all_goals exact hb.elim

end Booked

namespace Ledger

theorem of_perm (h : Ledger invoke log s) (hc : s.cleanups.Perm t.cleanups) : Ledger invoke log t :=
  ⟨h.toBooked.of_perm hc, fun call cleanup ho => hc.mem_iff.1 (h.holds call cleanup ho)⟩

theorem of_cleanups (h : Ledger invoke log s) (hc : t.cleanups = s.cleanups) : Ledger invoke log t :=
  h.of_perm (.of_eq hc.symm)

/-- After a sweep that has called all that it took the ledger is right again. -/
theorem swept {out : List Entry} {calls : List Call} (h : Ledger invoke log s)
    (ho : s.cleanups.Perm (out ++ t.cleanups)) (hc : Made invoke out calls)
    (hall : (calls.map (·.function)).Perm (out.map (·.2))) : Ledger invoke (log ++ [.swept out calls]) t := by
  refine ⟨h.toBooked.swept ho hc, fun call cleanup hm => ?_⟩
  rcases hm.of_snoc with he | ⟨hm, -, hs⟩
  · exact nomatch he
  · rcases List.mem_append.1 (ho.mem_iff.1 (h.holds call cleanup hm)) with hm | hm
    · exact absurd hall (hs out calls rfl hm)
    · exact hm

theorem plain {beat : Beat} (h : Ledger invoke log s) (ha : Admits invoke log beat) (hi : beat.entries = [])
    (ho : beat.exits = []) : Ledger invoke (log ++ [beat]) s := by
  refine ⟨h.toBooked.plain ha hi ho, fun call cleanup hm => ?_⟩
  rcases hm.of_snoc with rfl | ⟨hm, -⟩
  · exact nomatch hi
  · exact h.holds call cleanup hm

theorem outside {beat : Beat} (h : Ledger invoke log s) (hb : beat.Outside) : Ledger invoke (log ++ [beat]) s := by
  cases beat
  case handled | called => exact h.plain trivial rfl rfl
  all_goals exact hb.elim

/-- An effect may be called when its hook call holds no cleanup. -/
theorem ran {e : Effect Value} (h : Ledger invoke log s) (hv : Vacant e s) (start : Machine) :
    Ledger invoke (log ++ [.ran e start]) s :=
  h.plain (fun cleanup ho => hv.2 (List.mem_map.2 ⟨_, h.holds _ cleanup ho, rfl⟩)) rfl rfl

theorem kept {e : Effect Value} {cleanup : Value} (h : Ledger invoke log s) (hv : Vacant e s)
    (ha : Admits invoke log (.kept (e.key, e.index) cleanup)) :
    Ledger invoke (log ++ [.kept (e.key, e.index) cleanup]) (s.setCleanup e.key e.index cleanup) := by
  have hc : (s.setCleanup e.key e.index cleanup).cleanups = s.cleanups ++ [((e.key, e.index), cleanup)] :=
    Assoc.insert_of_notMem hv.2
  refine ⟨⟨h.fair.snoc ha, ?_, ?_⟩, fun call other hm => ?_⟩
  · unfold Unique
    rw [hc, List.map_append, List.nodup_append]
    refine ⟨hv.1, List.pairwise_singleton .., fun a ha b hb hab => hv.2 ?_⟩
    have hb : b = (e.key, e.index) := List.mem_singleton.1 hb
    exact hb ▸ hab ▸ ha
  · rw [entered_snoc, taken_snoc, hc, ← List.append_assoc]
    show (entered log ++ [((e.key, e.index), cleanup)]).Perm (taken log ++ [] ++ s.cleanups ++ _)
    rw [List.append_nil]
    exact h.balance.append_right _
  · rw [hc]
    rcases hm.of_snoc with he | ⟨hm, -⟩
    · cases he
      exact List.mem_append_right _ (List.mem_singleton_self _)
    · exact List.mem_append_left _ (h.holds call other hm)

/-- A component may be placed that brings nothing. -/
theorem placed (h : Booked invoke log {}) : Ledger invoke (log ++ [.placed []]) {} := by
  refine ⟨⟨h.fair.snoc trivial, List.nodup_nil, ?_⟩, fun call cleanup hm => absurd hm (not_open_placed log [])⟩
  rw [entered_snoc, taken_snoc]
  show (entered log ++ []).Perm (taken log ++ [] ++ [])
  rw [List.append_nil, List.append_nil]
  exact h.balance

/-- What a component brings is swept when it is placed. -/
theorem placed_swept {brought : List Entry} {calls : List Call} (h : Booked invoke log {})
    (hc : Made invoke brought calls) : Ledger invoke (log ++ [.placed brought] ++ [.swept brought calls]) {} := by
  have hb : (entered log).Perm (taken log) := by
    have hb := h.balance
    rwa [List.append_nil] at hb
  have hin : entered (log ++ [.placed brought]) = entered log ++ brought := entered_snoc ..
  have hout : taken (log ++ [.placed brought]) = taken log := (taken_snoc ..).trans (List.append_nil _)
  have hp : (taken log ++ brought).Perm (entered log ++ brought) := (hb.append_right _).symm
  have hf : Fair (Admits invoke) (log ++ [.placed brought]) := h.fair.snoc trivial
  refine ⟨⟨hf.snoc ⟨?_, hc⟩, List.nodup_nil, ?_⟩, fun call cleanup hm => ?_⟩
  · rw [hin, hout]
    exact hp.subperm
  · rw [entered_snoc, taken_snoc, hin, hout]
    show (entered log ++ brought ++ []).Perm (taken log ++ brought ++ [])
    rw [List.append_nil, List.append_nil]
    exact hp.symm
  · rcases hm.of_snoc with he | ⟨hm, -⟩
    · exact nomatch he
    · exact absurd hm (not_open_placed log brought)

end Ledger

/-! ### Effects -/

section Calls
variable (hi : Scripted invoke)
include hi

/-- A call by the host leaves the cleanups alone. -/
theorem first_cleanups (f : Value) (args : List Value) (c : List Entry) :
    Stable (fun t => t.cleanups = c) (Run.first (invoke Trail.host f args)) :=
  first_stable (hi.stable (fun _ _ _ ha hs => ha.cleanups.trans hs) ..)

/-- A sweep whose store no longer holds what it takes out leaves the ledger right if no call fails. -/
theorem tellCalls_leads {out : List Entry} {fs : List Value} (hf : fs.Perm (out.map (·.2)))
    {R : Store Value → Prop} (hR : ∀ {s t}, t.cleanups = s.cleanups → R s → R t) :
    ((tellCalls invoke fs).as (.swept out)).Leads
      (fun log m => (∃ s, Ledger invoke log s ∧ s.cleanups.Perm (out ++ m.hooks.cleanups)) ∧ R m.hooks)
      (fun _ log m => Ledger invoke log m.hooks ∧ R m.hooks) (fun log m => Booked invoke log m.hooks) := by
  have hc (m : Machine) : (Run.last (callAll invoke fs) m).hooks.cleanups = m.hooks.cleanups :=
    (callAll_stable (P := fun s => s.cleanups = m.hooks.cleanups)
      (hi.stable fun _ _ _ ha hs => ha.cleanups.trans hs) fs).keep m rfl
  constructor
  · rintro log m ⟨⟩ n ⟨⟨s, hs, ho⟩, hr⟩ he
    have he : callAll invoke fs m = .ok () n := tellCalls_run fs ▸ he
    have hn := last_of_ok he ▸ hc m
    refine ⟨hs.swept (hn ▸ ho) (made_tellCalls hf m) ?_, hR hn hr⟩
    rw [tellCalls_of_ok he]
    exact hf
  · rintro log m e n ⟨⟨s, hs, ho⟩, -⟩ he
    have he : callAll invoke fs m = .error e n := tellCalls_run fs ▸ he
    have hn := last_of_error he ▸ hc m
    exact hs.toBooked.swept (hn ▸ ho) (made_tellCalls hf m)

/-- Before an effect is called the cleanup of its run before is taken out and called. -/
theorem tellClean_leads (e : Effect Value) :
    (tellClean invoke e).Leads (fun log m => Ledger invoke log m.hooks)
      (fun _ log m => Ledger invoke log m.hooks ∧ Vacant e m.hooks) (fun log m => Booked invoke log m.hooks) := by
  -- The store holds no more what has been taken out, of which the chronicle says nothing yet.
  let behind (cleanup? : Option Value) (log : List Beat) (m : Machine) : Prop :=
    (∃ s, Ledger invoke log s ∧ s.cleanups.Perm
      ((cleanup?.map fun cleanup => ((e.key, e.index), cleanup)).toList ++ m.hooks.cleanups)) ∧ Vacant e m.hooks
  refine .bind (Q := behind) (.quiet (fun {log m cleanup? n} hl h => ?_) fun _ h => nomatch h) fun cleanup? => ?_
  · cases h
    refine ⟨⟨m.hooks, hl, ?_⟩, hl.unique.sublist (List.filter_sublist.map _), Assoc.notMem_erase _ _⟩
    show m.hooks.cleanups.Perm (((m.hooks.cleanups.lookup (e.key, e.index)).map _).toList ++ _)
    cases hc : m.hooks.cleanups.lookup (e.key, e.index) with
    | none => exact .of_eq (Assoc.erase_of_notMem (Assoc.notMem_of_lookup hc)).symm
    | some cleanup => exact Assoc.perm_of_lookup hl.unique hc
  · cases cleanup? with
    | none => exact .pure fun ⟨⟨s, hs, hp⟩, hv⟩ => ⟨hs.of_perm hp, hv⟩
    | some cleanup => exact tellCalls_leads hi (.refl _) fun hc hv => hv.of_cleanups hc

omit hi in
theorem tellKept_leads (e : Effect Value) (given : Value) :
    (tellKept e given).Leads
      (fun log m => Ledger invoke log m.hooks ∧ Vacant e m.hooks ∧ Admits invoke log (.kept (e.key, e.index) given))
      (fun _ log m => Ledger invoke log m.hooks) (fun log m => Booked invoke log m.hooks) := by
  cases given
  case func place =>
    refine .bind (Q := fun _ log m => Ledger invoke (log ++ [.kept (e.key, e.index) (.func place)]) m.hooks)
      (.quiet (fun hp h => ?_) fun _ h => nomatch h) fun _ => .tell fun h => h
    cases h
    exact hp.1.kept hp.2.1 hp.2.2
  all_goals exact .pure fun h => h.1

/-- **Effects keep the ledger**, one after another, and where one stops the books still balance. -/
theorem tellEffects_leads (effects : List (Effect Value)) :
    (tellEffects invoke effects).Leads (fun log m => Ledger invoke log m.hooks)
      (fun _ log m => Ledger invoke log m.hooks) (fun log m => Booked invoke log m.hooks) := by
  induction effects with
  | nil => exact .pure fun h => h
  | cons e es ih =>
    -- The effect has been called from `start`, and the chronicle ends with this.
    let called (log : List Beat) (m start : Machine) : Prop :=
      Ledger invoke log m.hooks ∧ Vacant e m.hooks ∧ ∃ older, log = older ++ [.ran e start]
    refine .bind (tellClean_leads hi e) fun _ => ?_
    refine .bind (.tell (Q := fun log m => called log m m) fun h => ⟨h.1.ran h.2 _, h.2, _, rfl⟩) fun _ => ?_
    refine .bind (Q := fun given log m => Ledger invoke log m.hooks ∧ Vacant e m.hooks ∧
      Admits invoke log (.kept (e.key, e.index) given)) (.quiet (fun {log m given n} hp h => ?_)
        fun {log m d n} hp h => ?_) fun given => .bind (tellKept_leads e given) fun _ => ih
    · have hc := last_of_ok h ▸ (first_cleanups hi e.callback [] m.hooks.cleanups).keep m rfl
      obtain ⟨hl, hv, older, rfl⟩ := hp
      exact ⟨hl.of_cleanups hc, hv.of_cleanups hc, older, e, m, n, rfl, rfl, h⟩
    · have hc := last_of_error h ▸ (first_cleanups hi e.callback [] m.hooks.cleanups).keep m rfl
      exact hp.1.toBooked.of_cleanups hc

theorem tellSettle_leads : (tellSettle invoke).Leads (fun log m => Ledger invoke log m.hooks)
    (fun _ log m => Ledger invoke log m.hooks) (fun log m => Booked invoke log m.hooks) := by
  refine .bind (.quiet (fun hp h => ?_) fun _ h => nomatch h) fun effects =>
    .budgeted (tellEffects_leads hi effects).ofRun
  cases h
  exact hp.of_cleanups rfl

/-! ### Rounds -/

omit hi in
theorem perm_stale (s : Store Value) : s.cleanups.Perm (stale s ++ s.finishPass.2.cleanups) := by
  have h := List.filter_append_perm (fun c : Entry => !s.rendered.contains c.1.1) s.cleanups
  simp only [Bool.not_not] at h
  exact h.symm

theorem tellSweep_leads {out : List Entry} {fs : List Value} (hf : fs.Perm (out.map (·.2))) :
    (tellSweep invoke out fs).Leads
      (fun log m => ∃ s, Ledger invoke log s ∧ s.cleanups.Perm (out ++ m.hooks.cleanups))
      (fun _ log m => Ledger invoke log m.hooks) (fun log m => Booked invoke log m.hooks) := by
  have ht := Told.Leads.budgeted (f := RenderError.isPanic) (E := Booked invoke)
    (P := fun log s => (∃ r, Ledger invoke log r ∧ r.cleanups.Perm (out ++ s.cleanups)) ∧ True)
    (Q := fun _ log s => Ledger invoke log s ∧ True) (tellCalls_leads hi hf (R := fun _ => True) fun _ h => h).ofRun
  exact ⟨fun hm he => (ht.ends ⟨hm, trivial⟩ he).1, fun hm he => ht.stops ⟨hm, trivial⟩ he⟩

theorem tellStale_leads (order : Order) :
    (tellStale invoke order).Leads (fun log m => Ledger invoke log m.hooks)
      (fun _ log m => Ledger invoke log m.hooks) (fun log m => Booked invoke log m.hooks) := by
  refine .bind (Q := fun before log m => Ledger invoke log before.hooks ∧ m = before)
    (.quiet (fun hp h => ?_) fun _ h => nomatch h) fun before => ?_
  · cases h
    exact ⟨hp, rfl⟩
  refine .bind (Q := fun removed log m => removed = before.hooks.finishPass.1 ∧
    ∃ s, Ledger invoke log s ∧ s.cleanups.Perm (stale before.hooks ++ m.hooks.cleanups))
    (.quiet (fun hp h => ?_) fun _ h => nomatch h) fun removed => .of_and fun hr => ?_
  · obtain ⟨hl, rfl⟩ := hp
    cases h
    exact ⟨rfl, _, hl, perm_stale _⟩
  exact tellSweep_leads hi (hr ▸ order.perm before _)

theorem tellPass_leads (render : Value) (props : Json) :
    (tellPass invoke render props).Leads (fun log m => Ledger invoke log m.hooks)
      (fun _ log m => Ledger invoke log m.hooks) (fun log m => Booked invoke log m.hooks) := by
  have hc (m : Machine) := (renderPass_drawn hi render props m).cleanups
  refine .bind (.tell (Q := fun log m => Ledger invoke log m.hooks) fun h => h.plain trivial rfl rfl) fun _ => ?_
  refine .bind (Q := fun _ log m => Ledger invoke log m.hooks)
    (.quiet (fun hp h => ?_) fun _ h => nomatch h) fun start => ?_
  · cases h
    exact hp
  refine .bind (Q := fun _ log m => Ledger invoke log m.hooks) (.quiet (fun {log m a n} hp h => ?_)
    fun {log m e n} hp h => ?_) fun output => .bind (.tell fun h => ?_) fun _ => .pure fun h => h
  · exact hp.of_cleanups (last_of_ok h ▸ hc m)
  · exact hp.toBooked.of_cleanups (last_of_error h ▸ hc m)
  · exact h.plain trivial rfl rfl

theorem tellRound_leads (order : Order) (render : Value) (props : Json) :
    (tellRound invoke order render props).Leads (fun log m => Ledger invoke log m.hooks)
      (fun _ log m => Ledger invoke log m.hooks) (fun log m => Booked invoke log m.hooks) := by
  refine .bind (tellPass_leads hi render props) fun output => .bind (tellStale_leads hi order) fun _ => ?_
  refine .bind isDirty_leads fun _ => .ite (.bind (.tell fun h => ?_) fun _ => .pure fun h => h)
    (.bind (tellSettle_leads hi) fun _ => .bind isDirty_leads fun _ => .ite (.pure fun h => h) (.pure fun h => h))
  exact h.plain trivial rfl rfl

/-- **An update keeps the ledger where it settles**, and where it fails the books still balance. -/
theorem tellCycle_leads (order : Order) (render : Value) (props : Json) (limit passes : Nat) :
    (tellCycle invoke order render props limit passes).Leads (fun log m => Ledger invoke log m.hooks)
      (fun _ log m => Ledger invoke log m.hooks) (fun log m => Booked invoke log m.hooks) :=
  tellCycle_leads_of_round (tellRound_leads hi order render props) (fun h => h.toBooked) limit passes

/-! ### Operations -/

omit hi in
theorem made_release (order : Order) (c : Component) (start : Machine) :
    Made invoke c.machine.hooks.cleanups
      ((tellCalls invoke (order.arrange c.machine (c.machine.hooks.cleanups.map (·.2)))).story start) :=
  made_tellCalls (order.perm c.machine _) start

/-- Operations keep the ledger of what is mounted, and the books in any case. -/
theorem ledger_upkeep : Upkeep invoke (Ledger invoke) (Booked invoke) where
  weaken h := h.toBooked
  cycle := tellCycle_leads hi
  acted ha h := h.of_cleanups ha.cleanups
  acted_weak ha h := h.of_cleanups ha.cleanups
  outside hb h := h.outside hb
  outside_weak hb h := h.outside hb
  release {log c} order h := by
    obtain ⟨hn, hs⟩ | ⟨start, hs⟩ := @story_tellRelease invoke order c
    · rw [hs, List.append_nil]
      exact h.of_cleanups hn.symm
    · rw [hs]
      exact h.swept (.of_eq (List.append_nil _).symm) (made_release order c start)
  place {log} order c h := by
    obtain ⟨hn, hs⟩ | ⟨start, hs⟩ := @story_tellRelease invoke order c
    · rw [hs, hn, List.append_nil]
      exact .placed h
    · rw [hs]
      exact .placed_swept h (made_release order c start)

end Calls

/-! ### Alternation -/

/-- In a chronicle effects and cleanups alternate. -/
structure Alternates (invoke : Invoke) (log : List Beat) : Prop where
  /-- A cleanup that is kept is what the effect has given that was called just before. -/
  given : ∀ before call cleanup rest, log = before ++ .kept call cleanup :: rest →
    ∃ older e start stop, before = older ++ [.ran e start] ∧ call = (e.key, e.index) ∧
      Run.first (invoke Trail.host e.callback []) start = .ok cleanup stop
  /-- A cleanup is taken out as often as it has come in before. Of what is taken out together each is called at most
  once, and all of it is called unless one of these calls fails. -/
  once : ∀ before out calls rest, log = before ++ .swept out calls :: rest →
    (taken before ++ out).Subperm (entered before) ∧ Made invoke out calls
  /-- Between two calls of an effect at one hook call the cleanup that the first has given is taken out, and all that
  is taken out with it is called, unless a component is placed in between. -/
  between : ∀ before call cleanup mid e start rest,
    log = before ++ .kept call cleanup :: mid ++ .ran e start :: rest → (e.key, e.index) = call →
      (∀ brought, .placed brought ∉ mid) →
        ∃ out calls, .swept out calls ∈ mid ∧ (call, cleanup) ∈ out ∧
          (calls.map (·.function)).Perm (out.map (·.2))

theorem alternates_of_fair (h : Fair (Admits invoke) log) : Alternates invoke log where
  given before call cleanup rest he := h before _ rest he
  once before out calls rest he := h before _ rest he
  between before call cleanup mid e start rest he hc hp := by
    by_contra hn
    refine h _ _ rest he cleanup ⟨before, mid, hc ▸ rfl, hp, fun out calls hm ho hk => hn ?_⟩
    exact ⟨out, calls, hm, hc ▸ ho, hk⟩

/-- The chronicle of a run is fair, and the store holds what has come in and has not been taken out. -/
theorem booked_chronicle (hi : Scripted invoke) (limit : Nat) (order : Order) (ops : List Op) :
    Booked invoke (chronicle invoke (fresh limit order) ops)
      (store (ops.foldl (act invoke) (fresh limit order))) :=
  (ledger_upkeep hi).always hi limit order ⟨.nil, List.nodup_nil, .refl _⟩ ops

/-- **In every run of operations effects and cleanups alternate**, whatever fails and whatever the hook calls are, and
what has come in and has not been taken out is held in the end. The story is of the calls that the operations make:
told with it they come to the surface that they come to by themselves. -/
theorem effects_alternate (hi : Scripted invoke) (limit : Nat) (order : Order) (ops : List Op) :
    (tellActs invoke (fresh limit order) ops).outcome = ops.foldl (act invoke) (fresh limit order) ∧
      Alternates invoke (tellActs invoke (fresh limit order) ops).story ∧
      (entered (tellActs invoke (fresh limit order) ops).story).Perm
        (taken (tellActs invoke (fresh limit order) ops).story ++
          (store (ops.foldl (act invoke) (fresh limit order))).cleanups) :=
  have h := booked_chronicle hi limit order ops
  ⟨tellActs_outcome .., alternates_of_fair h.fair, h.balance⟩

/-- A component whose effect runs after every pass. -/
def ticker : Component :=
  ((Component.attempt { instruments := true } {} ("function Ticker()\n" ++
    "  React.useEffect(function() return function() end end)\n" ++
    "  return nil\nend") "Ticker").component?).getD default

/-- A ticker is mounted, rendered once more and taken down. -/
def ticked : List Op := [.mount ticker (.obj []), .update (.obj []), .unmount]

set_option maxRecDepth 100000 in
/-- The two effects of a ticker that is rendered twice give two cleanups, both are taken out, and both are called. -/
theorem effects_alternate_ticker : Scripted Script.invoke ∧
    (entered (chronicle Script.invoke (fresh 25 {}) ticked)).length = 2 ∧
    (taken (chronicle Script.invoke (fresh 25 {}) ticked)).length = 2 ∧
    (called (chronicle Script.invoke (fresh 25 {}) ticked)).length = 2 ∧
    Alternates Script.invoke (chronicle Script.invoke (fresh 25 {}) ticked) := by
  have hc : (entered (chronicle Script.invoke (fresh 25 {}) ticked)).length = 2 ∧
      (taken (chronicle Script.invoke (fresh 25 {}) ticked)).length = 2 ∧
      (called (chronicle Script.invoke (fresh 25 {}) ticked)).length = 2 := by decide +kernel
  exact ⟨scripted_invoke, hc.1, hc.2.1, hc.2.2, (effects_alternate scripted_invoke 25 {} ticked).2.1⟩

end LivePreview.Surface
