import LivePreview.Preview.Session
import LivePreview.Proofs.Preview.Requests
import LivePreview.Proofs.Source.Identifier
import Mathlib.Logic.Relation

/-! Which runs end because a component's name cannot be returned.

A session is a board whose builds are done by the component factory. Whatever else happens to it, a run carries the
name that was found in its submission up to the build (`Carries`), and the factory refuses a name before it looks at
anything else. So a run ends with an invalid identifier exactly when the name it found has a dollar sign. -/
namespace LivePreview.Preview
open Compile Source

/-! ### What the factory answers -/

theorem attempt_of_not_isIdentifier {binding : Script.Binding} {limits : Script.Limits} {code name : String}
    (h : Component.isIdentifier name = false) :
    (Component.attempt binding limits code name).result = .error (.invalidIdentifier name) := by
  simp [Component.attempt, h]

/-- A name that a script can return is never refused for being none. -/
theorem attempt_of_isIdentifier {binding : Script.Binding} {limits : Script.Limits} {code name : String}
    (h : Component.isIdentifier name = true) (other : String) :
    (Component.attempt binding limits code name).result ≠ .error (.invalidIdentifier other) := by
  simp only [Component.attempt, h, Bool.not_true, Bool.false_eq_true, if_false]
  split
  · simp
  · split
    · simp
    · split <;> simp

theorem head?_toList_append {a : String} {c : Char} (h : a.toList.head? = some c) (b : String) :
    (a ++ b).toList.head? = some c := by
  rw [String.toList_append, List.head?_append, h, Option.some_or]

/-- Every other message begins with another letter. -/
theorem head?_message (e : BuildError) : (∃ name, e = .invalidIdentifier name) ∨ e.message.toList.head? = some 'C' := by
  have hfailed : "Component code failed to evaluate: ".toList.head? = some 'C' := by decide +kernel
  have hvalue : "Component '".toList.head? = some 'C' := by decide +kernel
  cases e with
  | invalidIdentifier name => exact .inl ⟨name, rfl⟩
  | malformed => exact .inr (by decide +kernel)
  | evaluation fault => exact .inr (head?_toList_append hfailed fault.message)
  | notCallable name found =>
    have hname := head?_toList_append hvalue name
    have hmiddle := head?_toList_append hname "' is not callable (found "
    have hfound := head?_toList_append hmiddle found
    exact .inr (head?_toList_append hfound ")")

/-- The message for a name that cannot be returned is the message of no other failure. -/
theorem message_eq_invalidIdentifier {e : BuildError} {name : String}
    (h : e.message = (BuildError.invalidIdentifier name).message) : ∃ other, e = .invalidIdentifier other := by
  have hinvalid : "Invalid component identifier: ".toList.head? = some 'I' := by decide +kernel
  refine (head?_message e).resolve_right fun hhead => ?_
  rw [h] at hhead
  exact absurd (hhead.symm.trans (head?_toList_append hinvalid name)) (by decide)

/-- What a run ends with whose component has a name that cannot be returned. -/
def State.invalidIdentifier {H : Type} (name : String) : State H :=
  .failed .instantiationFailed (BuildError.invalidIdentifier name).message

/-- Whether a run ends with what a build has given. -/
def State.isBuilt {H : Type} : State H → Bool
  | .ready _ | .failed .instantiationFailed _ => true
  | _ => false

/-! ### What happens to a session -/

/-- What a build gives, with the number that the component will have. -/
def buildResult (s : Session) (name code : String) : Except String Nat :=
  match (Component.attempt s.binding s.limits code name).result with
  | .ok _ => .ok s.stage.components.size
  | .error e => .error e.message

/-- One thing that happens to a session: a step of its board that is not the end of a build, the build that is due, or
anything on its stage. -/
inductive Session.Move : Session → Session → Prop
  | step {s : Session} {st : Step Nat} (hst : ∀ i r, st ≠ .built i r) : Move s { s with board := s.board.step st }
  | build (s : Session) (i : Nat) : Move s (s.build i)
  | stage (s : Session) (stage : Stage) : Move s { s with stage }

/-- Some things happen to a session, one after another. -/
def Session.Moves : Session → Session → Prop := Relation.ReflTransGen Session.Move

namespace Session
variable {s t : Session} {i : Nat}

theorem moves_run (s : Session) {steps : List (Step Nat)} (h : ∀ st ∈ steps, ∀ i r, st ≠ .built i r) :
    Moves s { s with board := s.board.run steps } := by
  induction steps generalizing s with
  | nil => exact .refl
  | cons st rest ih =>
    obtain ⟨hst, hrest⟩ := List.forall_mem_cons.1 h
    exact .head (.step hst) (ih { s with board := s.board.step st } hrest)

/-- What a host does to a session are such moves. -/
theorem moves_advance (s : Session) (i : Nat) : Moves s (s.advance i) := by
  have hsteps : ∀ st ∈ ([.start i, .verify i] : List (Step Nat)), ∀ j r, st ≠ .built j r := by simp
  refine (s.moves_run hsteps).trans ?_
  exact .head (.build _ i) (.single (.step (by simp)))

theorem moves_submit (s : Session) (submission : Submission) : Moves s (s.submit submission).1 :=
  s.moves_run (by simp)

theorem moves_reply (s : Session) (i : Nat) (reply : Reply) : Moves s (s.reply i reply) :=
  .head (.step (by simp)) (moves_advance _ i)

theorem moves_breakOff (s : Session) (i : Nat) : Moves s (s.breakOff i) := .single (.step (by simp))

theorem moves_unmount (s : Session) : Moves s s.unmount := s.moves_run (by simp)

theorem moves_render {invoke : Script.Invoke} {props : Json} (h : s.render invoke props = some t) : Moves s t := by
  unfold render at h
  split at h
  case h_1 =>
    obtain ⟨stage, -, rfl⟩ := Option.map_eq_some_iff.1 h
    exact .single (.stage s stage)
  case h_2 => contradiction

theorem progress?_build {g : Nat} {name code : String} (h : s.board.progress? i = some (.building g name code)) :
    (s.build i).board = s.board.step (.built i (buildResult s name code)) := by
  unfold build
  rw [h]
  rfl

theorem build_of_not_building (h : ∀ g name code, s.board.progress? i ≠ some (.building g name code)) :
    s.build i = s := by
  unfold build
  split
  case h_1 g name code hp => exact absurd hp (h g name code)
  case h_2 => rfl

/-! ### The name that a run carries -/

/-- A run carries the name that was found in its submission, and when it has been built, it ends with an invalid
identifier exactly when that name has a dollar sign. -/
def Carries (e : Submission) : Progress Nat → Prop
  | .asked _ name _ | .compiled _ name _ | .building _ name _ =>
    ∃ n, componentName? e.text.toList = some n ∧ name = String.ofList n.name
  | .finishing _ r => r.isBuilt = true →
    ∃ n, componentName? e.text.toList = some n ∧ ((∃ name, r = .invalidIdentifier name) ↔ '$' ∈ n.name)
  | _ => True

theorem carries_rule {b : Board Nat} {e : Submission} {h h' : Heard Nat} {st : Step Nat} {p q : Progress Nat}
    (hst : ∀ i r, st ≠ .built i r) (rule : Board.Rule b e i h st p q h') (hp : Carries e p) : Carries e q := by
  cases rule with
  | letIn | ignore | number | refuse | accept | breakOff | settle => trivial
  | nameless | overtaken => exact fun hbuilt => absurd hbuilt (by decide)
  | ask hn => exact ⟨_, hn, rfl⟩
  | reply r =>
    unfold Board.afterReply
    split
    · exact fun hbuilt => absurd hbuilt (by simp [State.isBuilt])
    · split
      · exact hp
      · exact fun hbuilt => absurd hbuilt (by simp [State.isBuilt])
  | proceed => exact hp
  | built r => exact absurd rfl (hst i r)

/-- What a build gives of a name that was found. -/
theorem carries_buildResult {e : Submission} {g : Nat} {name code : String}
    (h : Carries e (.building g name code)) :
    Carries e (.finishing g (.ofBuilt (buildResult s name code))) := by
  obtain ⟨n, hn, rfl⟩ := h
  refine fun _ => ⟨n, hn, ?_⟩
  have hidentifier := isIdentifier_iff (isName_componentName? hn)
  by_cases hdollar : '$' ∈ n.name
  · have hnone : Component.isIdentifier (String.ofList n.name) = false :=
      Bool.eq_false_iff.2 fun h => hidentifier.1 h hdollar
    refine iff_of_true ⟨String.ofList n.name, ?_⟩ hdollar
    rw [buildResult, attempt_of_not_isIdentifier hnone]
    rfl
  · refine iff_of_false ?_ hdollar
    rintro ⟨name, hname⟩
    unfold buildResult at hname
    split at hname
    case h_1 => cases hname
    case h_2 e he =>
      obtain ⟨other, rfl⟩ := message_eq_invalidIdentifier (State.failed.inj hname).2
      exact attempt_of_isIdentifier (hidentifier.2 hdollar) other he

/-- Every run carries its name. -/
def Sound (s : Session) : Prop :=
  ∀ (i : Nat) (e : Submission) (p : Progress Nat), s.board.entries[i]? = some ⟨e, p⟩ → Carries e p

/-- A step of the board keeps what holds of the runs, when its rules do. -/
theorem Sound.change (h : Sound s) {st : Step Nat} {b : Board Nat} (hb : b = s.board.step st)
    (hrule : ∀ (i : Nat) (e : Submission) (p q : Progress Nat) (old new : Heard Nat),
      s.board.entries[i]? = some ⟨e, p⟩ → Board.Rule s.board e i old st p q new → Carries e q) :
    Sound { s with board := b } := by
  intro i e q he
  subst hb
  have hchange := Board.entry_step s.board st i {}
  rw [he] at hchange
  generalize hold : s.board.entries[i]? = before at hchange
  generalize Board.hear i s.board st {} = new at hchange
  cases hchange with
  | same => exact h i e q hold
  | handedIn => trivial
  | moved rule => exact hrule i e _ q _ _ hold rule

theorem Sound.move (h : Sound s) (hmove : Move s t) : Sound t := by
  cases hmove with
  | step hst => exact h.change rfl fun i e p q _ _ he rule => carries_rule hst rule (h i e p he)
  | stage => exact h
  | build i =>
    by_cases hbuilding : ∃ g name code, s.board.progress? i = some (.building g name code)
    · obtain ⟨g, name, code, hp⟩ := hbuilding
      refine h.change (progress?_build hp) fun j e p q _ _ he rule => ?_
      cases rule with
      | built =>
        obtain ⟨rfl, rfl, rfl⟩ := Progress.building.inj (Option.some.inj ((Board.progress?_eq he).symm.trans hp))
        exact carries_buildResult (h i e _ he)
    · rwa [build_of_not_building fun g name code hp => hbuilding ⟨g, name, code, hp⟩]

theorem sound_moves {binding : Script.Binding} {limits : Script.Limits} (h : Moves { binding, limits } s) :
    Sound s := by
  induction h with
  | refl => exact fun i e p he => by simp at he
  | tail _ hmove ih => exact ih.move hmove

/-- **A name that is found can be returned unless it has a dollar sign, and a run ends with an invalid identifier
exactly when it was built for a name with one.** -/
theorem invalidIdentifier_iff (binding : Script.Binding) (limits : Script.Limits) :
    (∀ t n, componentName? t = some n →
        (Component.isIdentifier (String.ofList n.name) = true ↔ '$' ∉ n.name)) ∧
      ∀ s, Moves { binding, limits } s → ∀ (i : Nat) (e : Submission) (g : Nat) (r : State Nat),
        s.board.entries[i]? = some ⟨e, .finishing g r⟩ →
          ((∃ name, r = .invalidIdentifier name) ↔
            r.isBuilt = true ∧ ∃ n, componentName? e.text.toList = some n ∧ '$' ∈ n.name) := by
  refine ⟨fun _ _ hn => isIdentifier_iff (isName_componentName? hn), fun s h i e g r he => ?_⟩
  have hcarries := sound_moves h i e _ he
  constructor
  · rintro ⟨name, rfl⟩
    obtain ⟨n, hn, hiff⟩ := hcarries rfl
    exact ⟨rfl, n, hn, hiff.1 ⟨name, rfl⟩⟩
  · rintro ⟨hbuilt, m, hm, hdollar⟩
    obtain ⟨n, hn, hiff⟩ := hcarries hbuilt
    exact hiff.2 (Option.some.inj (hm.symm.trans hn) ▸ hdollar)

/-- A session in front of the build of a text that a compiler has made into code. -/
def answered (text code : String) : Session :=
  { board := ({} : Board Nat).run [.handIn ⟨text, .react⟩, .check 0, .number 0, .announce 0, .start 0,
      .reply 0 (.ok (.compiled code)), .verify 0] }

theorem moves_answered (text code : String) : Moves {} ((answered text code).build 0) :=
  (moves_run {} (by simp)).tail (.build _ 0)

/-- Code that is no script, for a name that could be returned. -/
theorem invalidIdentifier_iff_price :
    ((answered "const Price = () => <p/>;" ")").build 0).board.entries[0]? =
        some ⟨⟨"const Price = () => <p/>;", .react⟩,
          .finishing 1 (.failed .instantiationFailed BuildError.malformed.message)⟩ ∧
      ¬ ∃ name, (.failed .instantiationFailed BuildError.malformed.message : State Nat) = .invalidIdentifier name := by
  have hentry : ((answered "const Price = () => <p/>;" ")").build 0).board.entries[0]? =
      some ⟨⟨"const Price = () => <p/>;", .react⟩,
        .finishing 1 (.failed .instantiationFailed BuildError.malformed.message)⟩ := by decide +kernel
  have hname : componentName? "const Price = () => <p/>;".toList = some ⟨"Price".toList, .binding⟩ := by
    decide +kernel
  refine ⟨hentry, fun hinvalid => ?_⟩
  obtain ⟨-, n, hn, hdollar⟩ :=
    ((invalidIdentifier_iff {} {}).2 _ (moves_answered _ _) 0 _ _ _ hentry).1 hinvalid
  cases hname.symm.trans hn
  exact absurd hdollar (by decide)

/-- A name with a dollar sign is found but cannot be returned, whatever the code is. -/
theorem dollar_invalidIdentifier :
    componentName? "const Price$ = () => <p/>;".toList = some ⟨"Price$".toList, .binding⟩ ∧
      Component.isIdentifier "Price$" = false ∧
      ((answered "const Price$ = () => <p/>;" "local x = 1").build 0).board.progress? 0 =
        some (.finishing 1 (.invalidIdentifier "Price$")) := by
  decide +kernel

end Session
end LivePreview.Preview
