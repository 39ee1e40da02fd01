import LivePreview.Proofs.Hook.Action
import LivePreview.Script.Argument
import LivePreview.Script.Library

/-! Runs that keep what holds of a machine.

A run keeps a property when this holds afterwards wherever it held before, also when the run stops. What the heap and
the library do keeps every property of the hook state and of the steps that may have been spent (`Loose`), since they
leave the store alone. -/
namespace LivePreview.Script
open Hook

/-- The machine after a run, whether it has ended or stopped. -/
def Run.last {ε α : Type} (r : EStateM ε Machine α) (m : Machine) : Machine :=
  match r m with
  | .ok _ m => m
  | .error _ m => m

/-- No steps are left that were not left before. -/
def Spent (m n : Machine) : Prop := ∀ k, m.steps = some k → ∃ j ≤ k, n.steps = some j

theorem Spent.of_eq {m n : Machine} (h : n.steps = m.steps) : Spent m n := fun k hk => ⟨k, Nat.le_refl k, h.trans hk⟩

theorem Spent.trans {l m n : Machine} (h : Spent l m) (h' : Spent m n) : Spent l n := by
  intro k hk
  obtain ⟨j, hj, hm⟩ := h k hk
  obtain ⟨i, hi, hn⟩ := h' j hm
  exact ⟨i, Nat.le_trans hi hj, hn⟩

/-- A property of a machine that looks at the hook state alone, and at the steps that are left only so that these may
be spent. -/
structure Loose where
  holds : Machine → Prop
  spend : ∀ m n, n.hooks = m.hooks → Spent m n → holds m → holds n

/-- A property of the hook state. -/
def Loose.onHooks (P : Store Value → Prop) : Loose := ⟨fun m => P m.hooks, fun _ _ h _ hm => Eq.mpr (congrArg P h) hm⟩

/-- No more steps are left than at the start. -/
def Loose.since (start : Machine) : Loose := ⟨Spent start, fun _ _ _ h hm => hm.trans h⟩

structure Keeps {ε α : Type} (P : Loose) (r : EStateM ε Machine α) : Prop where
  keep : ∀ m, P.holds m → P.holds (Run.last r m)

/-- A run keeps what holds of the hook state. -/
abbrev Stable {ε α : Type} (P : Store Value → Prop) (r : EStateM ε Machine α) : Prop := Keeps (.onHooks P) r

/-- Whatever value is called, the store changes by acts alone. -/
def Scripted (invoke : Invoke) : Prop :=
  ∀ trail v args m, Store.Acted Value.equals m.hooks (Run.last (invoke trail v args) m).hooks

namespace Keeps
variable {ε α β : Type} {P : Loose}

@[grind ←]
theorem pure (a : α) : Keeps P (Pure.pure a : EStateM ε Machine α) := ⟨fun _ h => h⟩

@[grind ←]
theorem throw (e : ε) : Keeps P (MonadExcept.throw e : EStateM ε Machine α) := ⟨fun _ h => h⟩

@[grind ←]
theorem get : Keeps P (MonadState.get : EStateM ε Machine Machine) := ⟨fun _ h => h⟩

@[grind ←]
theorem bind {r : EStateM ε Machine α} {k : α → EStateM ε Machine β} (hr : Keeps P r) (hk : ∀ a, Keeps P (k a)) :
    Keeps P (r >>= k) := by
  refine ⟨fun m hm => ?_⟩
  have h := hr.keep m hm
  simp only [Run.last, Bind.bind, EStateM.bind] at h ⊢
  cases hres : r m with
  | ok a m =>
    rw [hres] at h
    exact (hk a).keep m h
  | error e m =>
    rw [hres] at h
    exact h

@[grind ←]
theorem map {r : EStateM ε Machine α} (f : α → β) (hr : Keeps P r) : Keeps P (f <$> r) := by
  rw [map_eq_pure_bind]
  exact .bind hr fun a => .pure (f a)

theorem ite {c : Prop} [Decidable c] {r k : EStateM ε Machine α} (hr : Keeps P r) (hk : Keeps P k) :
    Keeps P (if c then r else k) := by
  split
  · exact hr
  · exact hk

theorem modify {f : Machine → Machine} (hf : ∀ m, (f m).hooks = m.hooks ∧ (f m).steps = m.steps) :
    Keeps P (modify f : EStateM ε Machine Unit) :=
  ⟨fun m hm => P.spend m (f m) (hf m).1 (.of_eq (hf m).2) hm⟩

@[grind ←]
theorem mapM {f : α → EStateM ε Machine β} (hf : ∀ a, Keeps P (f a)) (l : List α) : Keeps P (l.mapM f) := by
  induction l with
  | nil => exact .pure []
  | cons a r ih =>
    rw [List.mapM_cons]
    exact .bind (hf a) fun b => .bind ih fun bs => .pure (b :: bs)

theorem forIn {f : α → β → EStateM ε Machine (ForInStep β)} (hf : ∀ a b, Keeps P (f a b)) (l : List α) (b : β) :
    Keeps P (forIn l b f) := by
  induction l generalizing b with
  | nil => exact .pure b
  | cons a r ih =>
    rw [List.forIn_cons]
    refine .bind (hf a b) fun s => ?_
    cases s with
    | done b => exact .pure b
    | yield b => exact ih b

end Keeps

theorem Stable.and {ε α : Type} {P Q : Store Value → Prop} {r : EStateM ε Machine α} (hP : Stable P r)
    (hQ : Stable Q r) : Stable (fun s => P s ∧ Q s) r := ⟨fun m hm => ⟨hP.keep m hm.1, hQ.keep m hm.2⟩⟩

/-- Two runs that do the same wherever a property holds, and keep it. -/
structure Matches {ε α : Type} (P : Loose) (r k : EStateM ε Machine α) : Prop extends Keeps P r where
  same : ∀ m, P.holds m → r m = k m

/-- Two runs do the same wherever a property of the hook state holds, and keep it. -/
abbrev Agree {ε α : Type} (P : Store Value → Prop) (r k : EStateM ε Machine α) : Prop := Matches (.onHooks P) r k

namespace Matches
variable {ε α β : Type} {P : Loose} {r r' : EStateM ε Machine α}

theorem of_keeps (hr : Keeps P r) : Matches P r r := ⟨hr, fun _ _ => rfl⟩

theorem bind {k k' : α → EStateM ε Machine β} (hr : Matches P r r') (hk : ∀ a, Matches P (k a) (k' a)) :
    Matches P (r >>= k) (r' >>= k') := by
  refine ⟨.bind hr.toKeeps fun a => (hk a).toKeeps, fun m hm => ?_⟩
  have hkept := hr.keep m hm
  simp only [Run.last, Bind.bind, EStateM.bind, ← hr.same m hm] at hkept ⊢
  cases hres : r m with
  | ok a n =>
    rw [hres] at hkept
    exact (hk a).same n hkept
  | error e n => rfl

theorem ite {c : Prop} [Decidable c] {k k' : EStateM ε Machine α} (hr : Matches P r r') (hk : Matches P k k') :
    Matches P (if c then r else k) (if c then r' else k') := by
  split
  · exact hr
  · exact hk

end Matches

/-- What every act keeps is stable under every call. -/
theorem Scripted.stable {invoke : Invoke} (h : Scripted invoke) {P : Store Value → Prop}
    (hP : Store.Closed Value.equals P) (trail : Trail) (v : Value) (args : List Value) :
    Stable P (invoke trail v args) :=
  ⟨fun m hm => (h trail v args m).keeps hP hm⟩

/-- A run that keeps whatever acts keep goes through acts itself. -/
theorem Stable.acted {ε α : Type} {r : EStateM ε Machine α} (h : ∀ P, Store.Closed Value.equals P → Stable P r)
    (m : Machine) : Store.Acted Value.equals m.hooks (Run.last r m).hooks :=
  (h (Store.Acted Value.equals m.hooks) fun _ _ _ ha hs => hs.tail ⟨_, ha⟩).keep m .refl

/-! ### Runs that end -/

section Ends
variable {ε α β : Type} {m n : Machine}

theorem last_of_ok {r : EStateM ε Machine α} {a : α} (h : r m = .ok a n) : Run.last r m = n := by rw [Run.last, h]

theorem last_of_error {r : EStateM ε Machine α} {e : ε} (h : r m = .error e n) : Run.last r m = n := by
  rw [Run.last, h]

theorem bind_ok {r : EStateM ε Machine α} {k : α → EStateM ε Machine β} {b : β} (h : (r >>= k) m = .ok b n) :
    ∃ a l, r m = .ok a l ∧ k a l = .ok b n := by
  change EStateM.bind r k m = .ok b n at h
  unfold EStateM.bind at h
  cases hr : r m with
  | ok a l =>
    rw [hr] at h
    exact ⟨a, l, rfl, h⟩
  | error e l =>
    rw [hr] at h
    exact nomatch h

theorem bind_of_ok {r : EStateM ε Machine α} {k : α → EStateM ε Machine β} {a : α} (h : r m = .ok a n) :
    (r >>= k) m = k a n := by
  change EStateM.bind r k m = k a n
  unfold EStateM.bind
  rw [h]

theorem bind_of_error {r : EStateM ε Machine α} {k : α → EStateM ε Machine β} {e : ε} (h : r m = .error e n) :
    (r >>= k) m = .error e n := by
  change EStateM.bind r k m = .error e n
  unfold EStateM.bind
  rw [h]

/-- The store is read off the machine. -/
theorem hooks_bind (k : Store Value → Run α) (m : Machine) : (Run.hooks >>= k) m = k m.hooks m := rfl

end Ends

/-- A step is spent while one is left. -/
theorem tick_ok {m : Machine} {k : Nat} (h : m.steps = some (k + 1)) :
    Run.tick m = .ok () { m with steps := some k } := (bind_of_ok (r := get) rfl).trans (by rw [h]; rfl)

/-- Where none is left, the time is over. -/
theorem tick_error {m : Machine} (h : m.steps = some 0) :
    Run.tick m = .error (.raised (.failure Run.overtime)) m := (bind_of_ok (r := get) rfl).trans (by rw [h]; rfl)

variable {P : Loose} {α β : Type}

/-! ### The heap -/

@[grind ←]
theorem raise_stable (v : Value) : Keeps P (Run.raise v : Run α) := .throw _

@[grind ←]
theorem fault_stable (f : HostFault) : Keeps P (Run.fault f : Run α) := .throw _

@[grind ←]
theorem fail_stable (site : Option Site) (message : String) : Keeps P (Run.fail site message : Run α) := .throw _

@[grind ←]
theorem tick_stable : Keeps P Run.tick where
  keep m hm := by
    cases hs : m.steps with
    | none =>
      have ht : Run.tick m = .ok () m := (bind_of_ok (r := get) rfl).trans (by rw [hs]; rfl)
      rwa [last_of_ok ht]
    | some k =>
      cases k with
      | zero =>
        rwa [last_of_error (tick_error hs)]
      | succ k =>
        rw [last_of_ok (tick_ok hs)]
        refine P.spend m _ rfl (fun i hi => ⟨k, ?_, rfl⟩) hm
        cases hs.symm.trans hi
        exact Nat.le_succ k

@[grind ←]
theorem charge_stable (bytes : Nat) : Keeps P (Run.charge bytes) := by
  unfold Run.charge
  refine .bind .get fun m => .ite (.bind (.throw _) fun _ => ?_) ?_
  · exact .modify fun _ => ⟨rfl, rfl⟩
  · exact .modify fun _ => ⟨rfl, rfl⟩

@[grind ←]
theorem newCell_stable (v : Value) : Keeps P (Run.newCell v) :=
  .bind .get fun _ => .bind (.modify fun _ => ⟨rfl, rfl⟩) fun _ => .pure _

@[grind ←]
theorem readCell_stable (place : Nat) : Keeps P (Run.readCell place) := .bind .get fun _ => .pure _

@[grind ←]
theorem writeCell_stable (place : Nat) (v : Value) : Keeps P (Run.writeCell place v) := .modify fun _ => ⟨rfl, rfl⟩

@[grind ←]
theorem newTable_stable (t : Table) : Keeps P (Run.newTable t) :=
  .bind (charge_stable _) fun _ => .bind .get fun _ => .bind (.modify fun _ => ⟨rfl, rfl⟩) fun _ => .pure _

@[grind ←]
theorem readTable_stable (place : Nat) : Keeps P (Run.readTable place) := .bind .get fun _ => .pure _

@[grind ←]
theorem writeTable_stable (place : Nat) (key v : Value) : Keeps P (Run.writeTable place key v) := by
  unfold Run.writeTable
  refine .bind .get fun m => .bind (.modify fun _ => ⟨rfl, rfl⟩) fun _ => .bind .get fun n => ?_
  exact .ite (charge_stable _) (.pure ())

@[grind ←]
theorem newFunc_stable (f : Func) : Keeps P (Run.newFunc f) :=
  .bind .get fun _ => .bind (.modify fun _ => ⟨rfl, rfl⟩) fun _ => .pure _

@[grind ←]
theorem newString_stable (s : ByteArray) : Keeps P (Run.newString s) :=
  .ite (.bind (charge_stable _) fun _ => .pure _) (.pure _)

theorem log_stable (line : String) : Keeps P (Run.log line) := .modify fun _ => ⟨rfl, rfl⟩

theorem stash_stable (name : String) (v : Value) : Keeps P (Run.stash name v) := .modify fun _ => ⟨rfl, rfl⟩

/-- What the host makes of a fault is about the fault alone. -/
theorem last_across (r : Run α) (m : Machine) : Run.last (Run.across r) m = Run.last r m := by
  unfold Run.last Run.across
  cases r m <;> rfl

@[grind ←]
theorem across_stable {r : Run α} (h : Keeps P r) : Keeps P (Run.across r) := by
  refine ⟨fun m hm => ?_⟩
  rw [last_across]
  exact h.keep m hm

theorem first_stable {r : Run (List Value)} (h : Keeps P r) : Keeps P (Run.first r) :=
  .bind (across_stable h) fun _ => .pure _

theorem across_agree {r r' : Run α} (h : Matches P r r') : Matches P (Run.across r) (Run.across r') :=
  ⟨across_stable h.toKeeps, fun m hm => by simp only [Run.across, h.same m hm]⟩

theorem first_agree {r r' : Run (List Value)} (h : Matches P r r') : Matches P (Run.first r) (Run.first r') :=
  .bind (across_agree h) fun _ => .of_keeps (.pure _)

/-! ### The library -/

namespace LibraryCall
variable (c : LibraryCall)

@[grind ←]
theorem fail_stable (message : String) : Keeps P (c.fail message : Run α) := .throw _

@[grind ←]
theorem wrong_stable (i : Nat) (why : String) : Keeps P (c.wrong i why : Run α) := .throw _

@[grind ←]
theorem wrongType_stable (i : Nat) (expected : String) : Keeps P (c.wrongType i expected : Run α) := by
  unfold wrongType
  split
  · exact wrong_stable c i _
  · exact fail_stable c _

@[grind ←]
theorem any_stable (i : Nat) : Keeps P (c.any i) := by
  unfold any
  split
  · exact .pure _
  · exact fail_stable c _

@[grind ←]
theorem table_stable (i : Nat) : Keeps P (c.table i) := by
  unfold table
  split
  · exact .pure _
  · exact wrongType_stable c i _

@[grind ←]
theorem number_stable (i : Nat) : Keeps P (c.number i) := by
  unfold number
  split
  · exact .pure _
  · exact wrongType_stable c i _

@[grind ←]
theorem whole_stable (i : Nat) : Keeps P (c.whole i) := .bind (number_stable c i) fun _ => .pure _

@[grind ←]
theorem wholeOr_stable (i : Nat) (other : Int) : Keeps P (c.wholeOr i other) :=
  .ite (.pure other) (whole_stable c i)

@[grind ←]
theorem bytes_stable (i : Nat) : Keeps P (c.bytes i) := by
  unfold bytes
  split
  · exact .pure _
  · exact wrongType_stable c i _

@[grind ←]
theorem directive_stable (d : Directive) (i : Nat) : Keeps P (c.directive d i) := by grind [directive]

@[grind ←]
theorem formatFrom_stable (i : Nat) (done : ByteArray) (fuel : Nat) (s : List Char) :
    Keeps P (c.formatFrom i done fuel s) := by
  induction fuel generalizing i done s with
  | zero => exact .pure done
  | succ fuel ih =>
    unfold formatFrom
    split
    · exact .pure done
    · exact ih ..
    · split
      · exact .throw _
      · split
        · exact ih ..
        · split
          · exact .throw _
          · exact .bind (directive_stable c _ i) fun _ => ih ..
    · exact ih ..

theorem concat_stable : Keeps P c.concat := by
  unfold concat
  refine .bind (table_stable c _) fun place => .bind (readTable_stable place) fun t => ?_
  split
  on_goal 1 => refine .bind (.pure _) fun separator => ?_
  on_goal 2 => refine .bind (bytes_stable c 2) fun separator => ?_
  all_goals
    refine .bind (wholeOr_stable c 3 1) fun i => .bind (wholeOr_stable c 4 _) fun e => ?_
    refine .bind (.mapM (fun k => ?_) _) fun parts => .bind (newString_stable _) fun v => .pure [v]
    dsimp only
    split
    · exact .pure _
    · exact fail_stable c _

theorem insert_stable : Keeps P c.insert := by
  unfold insert
  refine .bind (table_stable c _) fun place => .bind (readTable_stable place) fun t => ?_
  split
  · exact .bind (writeTable_stable ..) fun _ => .pure []
  · refine .bind (whole_stable c _) fun start => ?_
    have hw (v : Value) : Keeps P (Run.writeTable place (.num (Float.ofInt start)) v >>= fun _ =>
        (Pure.pure [] : Run (List Value))) := .bind (writeTable_stable ..) fun _ => .pure []
    refine .ite (.bind (.forIn (fun k _ => ?_) _ _) fun _ => hw _) (hw _)
    exact .bind (readTable_stable place) fun _ => .bind (writeTable_stable ..) fun _ => .pure _
  · exact .throw _

theorem greatest_stable : Keeps P c.greatest :=
  .bind (number_stable c _) fun _ => .bind (.mapM (fun _ => number_stable c _) _) fun _ => .pure _

/-- A library function does the same where the values that it calls do, and leaves the store alone apart from that. -/
theorem run_agree {invoke invoke' : Invoke}
    (hi : ∀ trail v args, Matches P (invoke trail v args) (invoke' trail v args)) :
    Matches P (c.run invoke) (c.run invoke') := by
  unfold run
  cases c.builtin
  case pcall =>
    refine .bind (.of_keeps (any_stable c 1)) fun f => ⟨⟨fun m hm => ?_⟩, fun m hm => ?_⟩
    · have h := (hi (none :: c.trail) f (c.args.drop 1)).keep m hm
      unfold Run.last at h ⊢
      cases hr : invoke (none :: c.trail) f (c.args.drop 1) m with
      | ok vs m =>
        simp only [hr] at h ⊢
        exact h
      | error e m =>
        cases e <;> (simp only [hr] at h ⊢; exact h)
    · rw [(hi (none :: c.trail) f (c.args.drop 1)).same m hm]
  all_goals refine .of_keeps ?_
  case insert => exact insert_stable c
  case concat => exact concat_stable c
  case max => exact greatest_stable c
  all_goals grind [assert, error, inext, next, select, tonumber, unpack, repeated, upper, byte, format, sub, char]

end LibraryCall
end LivePreview.Script
