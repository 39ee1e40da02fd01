import LivePreview.Compile.Command
import LivePreview.Proofs.Json.Values
import LivePreview.Proofs.Source.Untyped

/-! Answers of compilers survive the wire.

What a text spells is told by the grammar of JSON and the three members of an answer, each of them written at most once
and `success` always. The reader of answers takes exactly the texts that spell one. So an answer that has been written
comes back from any command and through any white space, and everything else that a command writes is code or no
answer at all, by the way it has ended. -/
namespace LivePreview.Compile.Answer
open Json Source

variable {s r : List Char}

/-! ### What a text spells -/

inductive ErrorText : List Char → Option String → List Char → Prop
  | null {r : List Char} : ErrorText ("null".toList ++ r) none r
  | string {s r : List Char} {t : String} (h : StringText true s t r) : ErrorText s (some t) r

inductive TruthText : List Char → Bool → List Char → Prop
  | yes {r : List Char} : TruthText ("true".toList ++ r) true r
  | no {r : List Char} : TruthText ("false".toList ++ r) false r

/-- The value of a member, by the member's name. -/
inductive ValueText : String → List Char → Member → List Char → Prop
  | code {s r : List Char} {t : String} (h : StringText true s t r) : ValueText "code" s (.code t) r
  | error {s r : List Char} {e : Option String} (h : ErrorText s e r) : ValueText "error" s (.error e) r
  | success {s r : List Char} {b : Bool} (h : TruthText s b r) : ValueText "success" s (.success b) r
  | other {name : String} {s r : List Char} (hname : name ∉ ["code", "error", "success"]) (h : Skipped s r) :
    ValueText name s .other r

/-- A member of an answer: its name, a colon and its value. -/
def Part (s : List Char) (m : Member) (r : List Char) : Prop :=
  ∃ name t, NameText true s name t ∧ ValueText name t m r

def Member.code? : Member → Option String
  | .code s => some s
  | _ => none

def Member.error? : Member → Option (Option String)
  | .error e => some e
  | _ => none

def Member.success? : Member → Option Bool
  | .success b => some b
  | _ => none

/-- Members that make an answer. A member that is left out counts as empty. -/
structure Makes (members : List Member) (a : Answer) : Prop where
  code : members.filterMap Member.code? = [a.code] ∨ members.filterMap Member.code? = [] ∧ a.code = ""
  error : members.filterMap Member.error? = [a.error] ∨ members.filterMap Member.error? = [] ∧ a.error = none
  success : members.filterMap Member.success? = [a.success]

/-- A text that is an object whose members make an answer. -/
def Spells (text : List Char) (a : Answer) : Prop :=
  ∃ s r members, text = '{' :: s ∧ Bracketed '}' Part s members r ∧ Space r ∧ Makes members a

/-! ### Reading -/

theorem optionalText?_iff {e : Option String} : optionalText? s = some (e, r) ↔ ErrorText s e r := by
  constructor
  · intro h
    unfold optionalText? at h
    split at h
    · obtain ⟨t, ht, h⟩ := Option.map_eq_some_iff.1 h
      obtain ⟨rfl, rfl⟩ := Prod.mk.inj h
      exact word?_iff.1 ht ▸ .null
    · obtain ⟨⟨t, u⟩, ht, h⟩ := Option.map_eq_some_iff.1 h
      obtain ⟨rfl, rfl⟩ := Prod.mk.inj h
      exact .string (string?_iff.1 ht)
  · intro h
    cases h with
    | null =>
      show (word? "null" ("null".toList ++ r)).map _ = _
      rw [word?_iff.2 rfl]
      rfl
    | string h =>
      have hread := string?_iff.2 h
      obtain ⟨tail, rfl, -⟩ := h
      rw [optionalText?, hread]
      · rfl
      · simp

theorem truth?_iff {b : Bool} : truth? s = some (b, r) ↔ TruthText s b r := by
  unfold truth?
  constructor
  · intro h
    split at h
    · next t ht =>
      obtain ⟨rfl, rfl⟩ := Prod.mk.inj (Option.some.inj h)
      exact word?_iff.1 ht ▸ .yes
    · obtain ⟨t, ht, h⟩ := Option.map_eq_some_iff.1 h
      obtain ⟨rfl, rfl⟩ := Prod.mk.inj h
      exact word?_iff.1 ht ▸ .no
  · intro h
    cases h with
    | yes => rw [word?_iff.2 rfl]
    | no =>
      have hno : word? "true" ("false".toList ++ r) = none := rfl
      rw [hno, word?_iff.2 rfl]
      rfl

theorem valueText_of_memberValue? {name : String} {m : Member} (h : memberValue? name s = some (m, r)) :
    ValueText name s m r := by
  unfold memberValue? at h
  split at h
  · obtain ⟨⟨t, u⟩, ht, h⟩ := Option.map_eq_some_iff.1 h
    obtain ⟨rfl, rfl⟩ := Prod.mk.inj h
    exact .code (string?_iff.1 ht)
  · obtain ⟨⟨e, u⟩, he, h⟩ := Option.map_eq_some_iff.1 h
    obtain ⟨rfl, rfl⟩ := Prod.mk.inj h
    exact .error (optionalText?_iff.1 he)
  · obtain ⟨⟨b, u⟩, hb, h⟩ := Option.map_eq_some_iff.1 h
    obtain ⟨rfl, rfl⟩ := Prod.mk.inj h
    exact .success (truth?_iff.1 hb)
  · next hcode herror hsuccess =>
    obtain ⟨u, hu, h⟩ := Option.map_eq_some_iff.1 h
    obtain ⟨rfl, rfl⟩ := Prod.mk.inj h
    exact .other (by simp_all) (skipped_of_skipValue? hu)

theorem memberValue?_of_valueText {name : String} {m : Member} (h : ValueText name s m r) (hr : Delimited r) :
    memberValue? name s = some (m, r) := by
  cases h with
  | code h => simp [memberValue?, string?_iff.2 h]
  | error h => simp [memberValue?, optionalText?_iff.2 h]
  | success h => simp [memberValue?, truth?_iff.2 h]
  | other hname h =>
    have hread := skipValue?_of_skipped h hr
    unfold memberValue?
    split <;> simp_all

theorem ValueText.opens {name : String} {m : Member} (h : ValueText name s m r) :
    ∃ c t, s = c :: t ∧ isJsonSpace c = false := by
  cases h with
  | code h =>
    obtain ⟨tail, rfl, -⟩ := h
    exact ⟨_, _, rfl, by decide⟩
  | error h =>
    cases h with
    | null => exact ⟨_, _, rfl, by decide⟩
    | string h =>
      obtain ⟨tail, rfl, -⟩ := h
      exact ⟨_, _, rfl, by decide⟩
  | success h => cases h <;> exact ⟨_, _, rfl, by decide⟩
  | other _ h =>
    obtain ⟨depth, v, h⟩ := h
    exact h.starts

theorem ValueText.length_lt {name : String} {m : Member} (h : ValueText name s m r) : r.length < s.length := by
  cases h with
  | code h => exact h.length_lt
  | error h =>
    cases h with
    | null => simp; omega
    | string h => exact h.length_lt
  | success h => cases h <;> simp <;> omega
  | other _ h =>
    obtain ⟨depth, v, h⟩ := h
    exact (itemlike_nested depth).shorter h

theorem itemlike_part : Itemlike '}' Part where
  opens := fun ⟨_, _, hname, _⟩ => hname.opens
  shorter := fun ⟨_, _, hname, hvalue⟩ => Nat.lt_trans hvalue.length_lt hname.length_lt

theorem part_of_member? {m : Member} (h : Answer.member? s = some (m, r)) : Part s m r := by
  obtain ⟨⟨name, t⟩, hname, h⟩ := Option.bind_eq_some_iff.1 h
  simp only at h
  split at h
  · next u hu => exact ⟨name, _, nameText_of_string? hname hu, valueText_of_memberValue? h⟩
  · cases h

theorem member?_of_part {m : Member} (hr : Delimited r) (h : Part s m r) : Answer.member? s = some (m, r) := by
  obtain ⟨name, t, hname, ht⟩ := h
  have hread := memberValue?_of_valueText ht hr
  obtain ⟨u, v, hstring, hu, hv⟩ := hname.string? ht.opens
  simp [Answer.member?, hstring, hu, hv, hread]

/-- A draft holds what has been read so far, and takes no member twice. -/
theorem foldlM_add? {members : List Member} {d d' : Draft} : members.foldlM Draft.add? d = some d' ↔
    d.code.toList ++ members.filterMap Member.code? = d'.code.toList ∧
    d.error.toList ++ members.filterMap Member.error? = d'.error.toList ∧
    d.success.toList ++ members.filterMap Member.success? = d'.success.toList := by
  have hinj {α : Type} {o o' : Option α} : o.toList = o'.toList ↔ o = o' := by cases o <;> cases o' <;> simp
  have htwo {α : Type} {x y : α} {l : List α} {o : Option α} : x :: y :: l ≠ o.toList := by cases o <;> simp
  induction members generalizing d with
  | nil =>
    obtain ⟨code, error, success⟩ := d
    obtain ⟨code', error', success'⟩ := d'
    simp [hinj]
  | cons m members ih =>
    rw [List.foldlM_cons]
    obtain ⟨code, error, success⟩ := d
    simp only [List.filterMap_cons]
    cases m with
    | code t => cases code <;> simp [Draft.add?, ih, Member.code?, Member.error?, Member.success?, htwo]
    | error e => cases error <;> simp [Draft.add?, ih, Member.code?, Member.error?, Member.success?, htwo]
    | success b => cases success <;> simp [Draft.add?, ih, Member.code?, Member.error?, Member.success?, htwo]
    | other => simp [Draft.add?, ih, Member.code?, Member.error?, Member.success?]

/-- **Members are put together to the answer that they make**, and to none when they make none. -/
theorem answer?_iff {members : List Member} {a : Answer} :
    (members.foldlM Draft.add? {}).bind Draft.answer? = some a ↔ Makes members a := by
  constructor
  · intro h
    obtain ⟨⟨code, error, success⟩, hd, h⟩ := Option.bind_eq_some_iff.1 h
    obtain ⟨hcode, herror, hsuccess⟩ := foldlM_add?.1 hd
    obtain ⟨b, hb, rfl⟩ := Option.map_eq_some_iff.1 h
    simp only [Option.toList_none, List.nil_append] at hcode herror hsuccess hb
    refine ⟨?_, ?_, ?_⟩
    · cases code with
      | none => exact .inr ⟨hcode, rfl⟩
      | some t => exact .inl hcode
    · cases error with
      | none => exact .inr ⟨herror, rfl⟩
      | some e => exact .inl herror
    · rw [hsuccess, hb]
      rfl
  · intro ⟨hcode, herror, hsuccess⟩
    obtain ⟨code, hcode, hcode'⟩ :
        ∃ o : Option String, members.filterMap Member.code? = o.toList ∧ o.getD "" = a.code :=
      hcode.elim (fun h => ⟨some a.code, h, rfl⟩) fun h => ⟨none, h.1, h.2.symm⟩
    obtain ⟨error, herror, herror'⟩ :
        ∃ o : Option (Option String), members.filterMap Member.error? = o.toList ∧ o.getD none = a.error :=
      herror.elim (fun h => ⟨some a.error, h, rfl⟩) fun h => ⟨none, h.1, h.2.symm⟩
    have hfold : members.foldlM Draft.add? {} = some ⟨code, error, some a.success⟩ :=
      foldlM_add?.2 ⟨hcode, herror, hsuccess⟩
    rw [hfold]
    simp [Draft.answer?, hcode', herror']

/-- **The reader takes the objects that spell an answer**, and no others. -/
theorem parse?_iff (hs : s.head? = some '{') {a : Answer} : Answer.parse? s = some a ↔ Spells s a := by
  obtain ⟨s, rfl⟩ := List.head?_eq_some_iff.1 hs
  constructor
  · intro h
    obtain ⟨⟨members, t⟩, hmembers, h⟩ := Option.bind_eq_some_iff.1 h
    obtain ⟨d, hd, h⟩ := Option.bind_eq_some_iff.1 h
    obtain ⟨c, hc, h⟩ := Option.bind_eq_some_iff.1 h
    replace h : (if (skipSpace t).isEmpty then some c else none) = some a := h
    split at h
    · next hend =>
      obtain rfl := Option.some.inj h
      obtain ⟨w, hw, ht⟩ := exists_skipSpace t
      rw [List.isEmpty_iff.1 hend, List.append_nil] at ht
      exact ⟨s, t, members, rfl, bracketed_of_bracketed? part_of_member? hmembers, ht ▸ hw,
        answer?_iff.1 (Option.bind_eq_some_iff.2 ⟨d, hd, hc⟩)⟩
    · cases h
  · rintro ⟨s', r, members, hs', hmembers, hr, ha⟩
    obtain rfl := (List.cons.inj hs').2
    have hread := bracketed?_of_bracketed (by simp) itemlike_part (fun _ => member?_of_part) hmembers (Nat.le_refl _)
    obtain ⟨d, hd, ha⟩ := Option.bind_eq_some_iff.1 (answer?_iff.2 ha)
    have hend : skipSpace r = [] := List.dropWhile_eq_nil_iff.2 hr
    rw [Answer.parse?, skipSpace_cons (show isJsonSpace '{' = false from rfl)]
    simp [hread, hd, ha, hend]

/-! ### Writing -/

/-- A member as it is written. -/
def writtenPart (name : String) (value : List Char) : List Char := quote name.toList ++ ':' :: value

theorem wire_toList (a : Answer) : a.wire.toList = '{' :: (writtenPart "code" (quote a.code.toList) ++ ',' ::
    (writtenPart "error" (match a.error with | some e => quote e.toList | none => "null".toList) ++ ',' ::
      (writtenPart "success" (if a.success then "true".toList else "false".toList) ++ ['}']))) := by
  obtain ⟨code, error, success⟩ := a
  rw [wire, compact, String.toList_ofList]
  cases error <;> cases success <;>
    simp [toJson, render, renderMembers, bracket, writtenPart, List.intercalate, List.intersperse]

theorem part_writtenPart {name : String} {value : List Char} {m : Member} (h : ValueText name (value ++ r) m r) :
    Part (writtenPart name value ++ r) m r := by
  have hname := stringText_quote name (':' :: (value ++ r))
  exact ⟨name, value ++ r, ⟨[], [], by simp [Space], by simp [Space], by simpa [writtenPart] using hname⟩, h⟩

/-- **What is written for an answer spells it.** -/
theorem spells_wire (a : Answer) : Spells a.wire.toList a := by
  have hcode (r : List Char) : Part (writtenPart "code" (quote a.code.toList) ++ r) (.code a.code) r :=
    part_writtenPart (.code (stringText_quote a.code r))
  have herror (r : List Char) : Part (writtenPart "error" (match a.error with
      | some e => quote e.toList
      | none => "null".toList) ++ r) (.error a.error) r := by
    refine part_writtenPart (.error ?_)
    cases a.error with
    | none => exact .null
    | some e => exact .string (stringText_quote e r)
  have hsuccess (r : List Char) :
      Part (writtenPart "success" (if a.success then "true".toList else "false".toList) ++ r)
        (.success a.success) r := by
    refine part_writtenPart (.success ?_)
    cases a.success with
    | true => exact .yes
    | false => exact .no
  have hnone : Space [] := by simp [Space]
  refine ⟨_, [], [.code a.code, .error a.error, .success a.success], wire_toList a, .items ?_, hnone, ?_⟩
  · exact .more (w := []) hnone (hcode _) hnone (.more (w := []) hnone (herror _) hnone
      (.last (w := []) hnone (hsuccess _) hnone))
  · exact ⟨.inl rfl, .inl rfl, rfl⟩

theorem trim_wire (a : Answer) {before after : List Char} (hb : Blank before) (ha : Blank after) :
    Text.trim (before ++ (a.wire.toList ++ after)) = a.wire.toList := by
  have hlast : ∀ c ∈ a.wire.toList.getLast?, Text.isSpace c = false := by
    simp [wire_toList, List.getLast?_cons, List.getLast?_append, show Text.isSpace '\x7d' = false from rfl]
  have hstart : (a.wire.toList ++ after).dropWhile Text.isSpace = a.wire.toList ++ after := by
    rw [wire_toList]
    rfl
  rw [Text.trim, Text.trimStart, List.dropWhile_append_of_pos hb, hstart, trimEnd_append_blank hlast ha]

/-! ### Answers of commands -/

theorem ofText_of_spells {ending : Shell.Ending} {output errors : String} {a : Answer}
    (h : Spells (Text.trim output.toList) a) : ofText ending output errors = a := by
  have hs : (Text.trim output.toList).head? = some '{' := by
    obtain ⟨s, r, members, hs, -⟩ := h
    rw [hs]
    rfl
  rw [ofText, hs, (parse?_iff hs).2 h]
  rfl

/-- An output that spells no answer is taken by the way its command has ended. -/
theorem ofText_of_not_spells {ending : Shell.Ending} {output errors : String}
    (h : ∀ a, ¬ Spells (Text.trim output.toList) a) : ofText ending output errors =
      if ending.isSuccess then .compiled output
      else if (Text.trim errors.toList).isEmpty then .failed ("Compiler exited with " ++ ending.message)
      else .failed (String.ofList (Text.trim errors.toList)) := by
  have hnone : (if (Text.trim output.toList).head? == some '{' then Answer.parse? (Text.trim output.toList)
      else none) = none := by
    split
    · next hs =>
      exact Option.eq_none_iff_forall_ne_some.2 fun a ha => h a ((parse?_iff (eq_of_beq hs)).1 ha)
    · rfl
  rw [ofText, hnone]

theorem outcome_failed {message : String} (h : Text.isBlankText message.toList = false) :
    (failed message).outcome = .rejected message := by
  simp [outcome, failed, h]

/-- A text between white space is not blank. -/
theorem not_blank_trim {s : List Char} (h : Text.trim s ≠ []) : Text.isBlankText (Text.trim s) = false := by
  obtain ⟨c, hc⟩ := Option.isSome_iff_exists.1 (List.getLast?_isSome.2 h)
  have hspace := last_trimEnd (Text.trimStart s) c hc
  exact List.all_eq_false.2 ⟨c, List.mem_of_getLast? hc, by simp [hspace]⟩

theorem not_blank_ending (ending : Shell.Ending) :
    Text.isBlankText ("Compiler exited with " ++ ending.message).toList = false := by
  rw [String.toList_append]
  rfl

/-- **Answers survive the wire, and nothing else is taken for one.** What is written for an answer is read as that
answer, however the command ends, whatever it complains about and whatever white space stands around it. Output that
spells no answer is code as it stands when the command succeeds, and when it fails there is a reason that is not
blank. -/
theorem ofText_wire (ending : Shell.Ending) (errors : String) :
    (∀ (a : Answer) (before after : List Char), Blank before → Blank after →
      ofText ending (String.ofList (before ++ (a.wire.toList ++ after))) errors = a) ∧
    ∀ output : String, (∀ a, ¬ Spells (Text.trim output.toList) a) →
      if ending.isSuccess then
        ofText ending output errors = .compiled output ∧ (ofText ending output errors).outcome = .compiled output
      else ∃ message : String, ofText ending output errors = .failed message ∧
        (ofText ending output errors).outcome = .rejected message ∧ Text.isBlankText message.toList = false := by
  refine ⟨fun a before after hb ha => ofText_of_spells ?_, fun output h => ?_⟩
  · rw [String.toList_ofList, trim_wire a hb ha]
    exact spells_wire a
  · rw [ofText_of_not_spells h]
    by_cases hs : ending.isSuccess = true
    · simp [hs, outcome, compiled]
    · rw [if_neg hs, if_neg hs]
      split
      · exact ⟨_, rfl, outcome_failed (not_blank_ending ending), not_blank_ending ending⟩
      · next hne =>
        have hblank : Text.isBlankText (String.ofList (Text.trim errors.toList)).toList = false := by
          rw [String.toList_ofList]
          exact not_blank_trim (by simpa using hne)
        exact ⟨_, rfl, outcome_failed hblank, hblank⟩

/-- A refusal that comes through a command that succeeds, and an object that is code since it is no answer. -/
theorem ofText_wire_object :
    ofText (.exit 0) (String.ofList ("\n".toList ++ ((failed "\x7b").wire.toList ++ " ".toList))) "" = failed "\x7b" ∧
    ofText (.exit 0) "\x7b\x7d" "" = .compiled "\x7b\x7d" := by
  obtain ⟨hwire, hother⟩ := ofText_wire (.exit 0) ""
  have hparse : Answer.parse? (Text.trim "\x7b\x7d".toList) = none := by decide +kernel
  have hno (a : Answer) : ¬ Spells (Text.trim "\x7b\x7d".toList) a := fun h =>
    nomatch hparse.symm.trans ((parse?_iff rfl).2 h)
  exact ⟨hwire (failed "\x7b") _ _ (by simp [Blank, Text.isSpace]) (by simp [Blank, Text.isSpace]),
    (hother "\x7b\x7d" hno).1⟩

end LivePreview.Compile.Answer
