import LivePreview.Proofs.Json.Numbers
import LivePreview.Proofs.Json.Strings

/-! The grammar of JSON text, and the reader that passes over values.

A derivation relates a text to the value at its start and to the rest of the text. Lists between brackets are told for
any kind of item, so that what holds of a reader of items holds of the reader of their list: when the one finds nothing
but derivations, so does the other, and when the one finds them all in front of what ends an item, so does the other.
Values nest, and the grammar of values is built in layers, one for each level of nesting. -/
namespace LivePreview.Json

variable {α : Type} {careful : Bool} {close : Char} {s r w : List Char}

/-! ### Lists between brackets -/

/-- Items with commas between them up to `close`. -/
inductive Series (close : Char) (Item : List Char → α → List Char → Prop) : List Char → List α → List Char → Prop
  | last {w w' s r : List Char} {a : α} (hw : Space w) (h : Item s a (w' ++ close :: r)) (hw' : Space w') :
    Series close Item (w ++ s) [a] r
  | more {w w' s t r : List Char} {a : α} {as : List α} (hw : Space w) (h : Item s a (w' ++ ',' :: t))
    (hw' : Space w') (hs : Series close Item t as r) : Series close Item (w ++ s) (a :: as) r

/-- Items between brackets, after the opening one. -/
inductive Bracketed (close : Char) (Item : List Char → α → List Char → Prop) : List Char → List α → List Char → Prop
  | empty {w r : List Char} (hw : Space w) : Bracketed close Item (w ++ close :: r) [] r
  | items {s r : List Char} {as : List α} (h : Series close Item s as r) : Bracketed close Item s as r

/-- What the items of a list have to be like: they begin with something that is neither white space nor the end of the
list. -/
structure Itemlike (close : Char) (Item : List Char → α → List Char → Prop) : Prop where
  opens {s r : List Char} {a : α} (h : Item s a r) : ∃ c t, s = c :: t ∧ isJsonSpace c = false ∧ c ≠ close
  shorter {s r : List Char} {a : α} (h : Item s a r) : r.length < s.length

section Lists
variable {Item : List Char → α → List Char → Prop} {item : List Char → Option (α × List Char)} {as : List α}

theorem Series.pad (hw : Space w) (h : Series close Item s as r) : Series close Item (w ++ s) as r := by
  have hpad {v : List Char} (hv : Space v) : Space (w ++ v) := fun c hc =>
    (List.mem_append.1 hc).elim (hw c) (hv c)
  cases h with
  | last hv h hw' => exact List.append_assoc .. ▸ .last (hpad hv) h hw'
  | more hv h hw' hs => exact List.append_assoc .. ▸ .more (hpad hv) h hw' hs

/-- **What is read as items is a derivation of them**, when that holds of each of them. -/
theorem series_of_series? (hitem : ∀ {s a r}, item s = some (a, r) → Item s a r) {fuel : Nat}
    (h : series? close item fuel s = some (as, r)) : Series close Item s as r := by
  induction fuel generalizing s as with
  | zero => cases h
  | succ fuel ih =>
    rw [series?] at h
    obtain ⟨⟨a, t⟩, ha, h⟩ := Option.bind_eq_some_iff.1 h
    obtain ⟨w, hw, hs⟩ := exists_skipSpace s
    obtain ⟨w', hw', ht⟩ := exists_skipSpace t
    rw [hs]
    simp only at h
    split at h
    · next u hu =>
      obtain ⟨⟨bs, v⟩, hbs, h⟩ := Option.bind_eq_some_iff.1 h
      obtain ⟨rfl, rfl⟩ := Prod.mk.inj (Option.some.inj h)
      exact .more hw (hu ▸ ht ▸ hitem ha) hw' (ih hbs)
    · next c u hc hu =>
      split at h
      · next hclose =>
        obtain ⟨rfl, rfl⟩ := Prod.mk.inj (Option.some.inj h)
        obtain rfl := eq_of_beq hclose
        exact .last hw (hu ▸ ht ▸ hitem ha) hw'
      · cases h
    · cases h

theorem bracketed_of_bracketed? (hitem : ∀ {s a r}, item s = some (a, r) → Item s a r)
    (h : bracketed? close item s = some (as, r)) : Bracketed close Item s as r := by
  obtain ⟨w, hw, hs⟩ := exists_skipSpace s
  rw [bracketed?] at h
  rw [hs]
  split at h
  · next c t ht =>
    split at h
    · next hclose =>
      obtain ⟨rfl, rfl⟩ := Prod.mk.inj (Option.some.inj h)
      rw [ht, eq_of_beq hclose]
      exact .empty hw
    · exact .items (.pad hw (ht ▸ series_of_series? hitem h))
  · cases h

/-- A closing bracket is a delimiter, and no white space or comma. -/
theorem delimiter_close (hclose : close ∈ [']', '}']) :
    close ∈ delimiters ∧ isJsonSpace close = false ∧ close ≠ ',' := by
  simp only [List.mem_cons, List.not_mem_nil, or_false] at hclose
  rcases hclose with rfl | rfl <;> decide

/-- **Items are read as their derivation says**, when each of them is, in front of what ends it. -/
theorem series?_of_series (hclose : close ∈ [']', '}']) (hItem : Itemlike close Item) {bound : Nat}
    (hitem : ∀ {s a r}, s.length ≤ bound → Delimited r → Item s a r → item s = some (a, r))
    (h : Series close Item s as r) (hbound : s.length ≤ bound) {fuel : Nat} (hfuel : s.length ≤ fuel) :
    series? close item fuel s = some (as, r) := by
  obtain ⟨hdelimiter, hspace, hne⟩ := delimiter_close hclose
  induction h generalizing fuel with
  | @last w w' s r a hw h hw' =>
    obtain ⟨c, t, rfl, hc, -⟩ := hItem.opens h
    obtain ⟨fuel, rfl⟩ : ∃ m, fuel = m + 1 := ⟨fuel - 1, by simp at hfuel; omega⟩
    have hread := hitem (by simp at hbound ⊢; omega) (delimited_append hw' hdelimiter) h
    rw [series?, skipSpace_append hw, skipSpace_cons hc, hread]
    simp [skipSpace_append hw', skipSpace_cons hspace]
  | @more w w' s t r a as hw h hw' hs ih =>
    have hshort := hItem.shorter h
    obtain ⟨c, u, rfl, hc, -⟩ := hItem.opens h
    obtain ⟨fuel, rfl⟩ : ∃ m, fuel = m + 1 := ⟨fuel - 1, by simp at hfuel; omega⟩
    have hread := hitem (by simp at hbound ⊢; omega) (delimited_append hw' (by decide)) h
    simp only [List.length_append, List.length_cons] at hshort hbound hfuel
    rw [series?, skipSpace_append hw, skipSpace_cons hc, hread]
    simp [skipSpace_append hw', skipSpace_cons (show isJsonSpace ',' = false from rfl),
      ih (by omega) (show t.length ≤ fuel by omega)]

/-- The white space before a series can be left out. -/
theorem Series.skipSpace (hItem : Itemlike close Item) (h : Series close Item s as r) :
    Series close Item (skipSpace s) as r ∧ ∃ c t, Json.skipSpace s = c :: t ∧ c ≠ close := by
  cases h with
  | last hw h hw' =>
    obtain ⟨c, t, rfl, hc, hne⟩ := hItem.opens h
    rw [skipSpace_append hw, skipSpace_cons hc]
    exact ⟨.last (w := []) (by simp [Space]) h hw', c, t, rfl, hne⟩
  | more hw h hw' hs =>
    obtain ⟨c, t, rfl, hc, hne⟩ := hItem.opens h
    rw [skipSpace_append hw, skipSpace_cons hc]
    exact ⟨.more (w := []) (by simp [Space]) h hw' hs, c, t, rfl, hne⟩

theorem length_skipSpace_le (s : List Char) : (skipSpace s).length ≤ s.length := (List.dropWhile_sublist _).length_le

theorem bracketed?_of_bracketed (hclose : close ∈ [']', '}']) (hItem : Itemlike close Item) {bound : Nat}
    (hitem : ∀ {s a r}, s.length ≤ bound → Delimited r → Item s a r → item s = some (a, r))
    (h : Bracketed close Item s as r) (hbound : s.length ≤ bound) : bracketed? close item s = some (as, r) := by
  have hspace : isJsonSpace close = false := (delimiter_close hclose).2.1
  cases h with
  | empty hw =>
    rw [bracketed?, skipSpace_append hw, skipSpace_cons hspace]
    simp
  | items h =>
    obtain ⟨hseries, c, t, hs, hne⟩ := h.skipSpace hItem
    have hlength := length_skipSpace_le s
    rw [bracketed?, hs]
    simp only [beq_iff_eq, hne, ↓reduceIte]
    exact series?_of_series hclose hItem hitem (hs ▸ hseries) (hs ▸ hlength.trans hbound) (hs ▸ hlength)

theorem Series.length_lt (hItem : Itemlike close Item) (h : Series close Item s as r) : r.length < s.length := by
  induction h with
  | last hw h hw' =>
    have hshort := hItem.shorter h
    simp only [List.length_append, List.length_cons] at hshort ⊢
    omega
  | more hw h hw' hs ih =>
    have hshort := hItem.shorter h
    simp only [List.length_append, List.length_cons] at hshort ⊢
    omega

theorem Bracketed.length_lt (hItem : Itemlike close Item) (h : Bracketed close Item s as r) : r.length < s.length := by
  cases h with
  | empty hw => simp only [List.length_append, List.length_cons]; omega
  | items h => exact h.length_lt hItem

end Lists

/-! ### Members of objects -/

/-- A name with its colon, and white space behind each of them. -/
def NameText (careful : Bool) (s : List Char) (name : String) (t : List Char) : Prop :=
  ∃ w w', Space w ∧ Space w' ∧ StringText careful s name (w ++ ':' :: (w' ++ t))

theorem NameText.length_lt {name : String} {t : List Char} (h : NameText careful s name t) : t.length < s.length := by
  obtain ⟨w, w', -, -, h⟩ := h
  have hlength := h.length_lt
  simp only [List.length_append, List.length_cons] at hlength
  omega

theorem NameText.opens {name : String} {t : List Char} (h : NameText careful s name t) :
    ∃ c u, s = c :: u ∧ isJsonSpace c = false ∧ c ≠ '}' := by
  obtain ⟨w, w', -, -, u, hs, -⟩ := h
  exact ⟨'"', u, hs, by decide, by decide⟩

theorem nameText_of_string? {name : String} {t u : List Char} (hs : string? careful s = some (name, t))
    (ht : skipSpace t = ':' :: u) : NameText careful s name (skipSpace u) := by
  obtain ⟨w, hw, ht'⟩ := exists_skipSpace t
  obtain ⟨w', hw', hu⟩ := exists_skipSpace u
  exact ⟨w, w', hw, hw', hu ▸ ht ▸ ht' ▸ string?_iff.1 hs⟩

/-- A name is read up to what stands behind its colon. -/
theorem NameText.string? {name : String} {t : List Char} (h : NameText careful s name t)
    (ht : ∃ c v, t = c :: v ∧ isJsonSpace c = false) :
    ∃ u v, string? careful s = some (name, u) ∧ skipSpace u = ':' :: v ∧ skipSpace v = t := by
  obtain ⟨w, w', hw, hw', h⟩ := h
  obtain ⟨c, v, rfl, hc⟩ := ht
  exact ⟨_, w' ++ c :: v, string?_iff.2 h, by rw [skipSpace_append hw, skipSpace_cons (by decide)],
    by rw [skipSpace_append hw', skipSpace_cons hc]⟩

/-- A name, a colon and a value. -/
def MemberText (careful : Bool) (Value : List Char → α → List Char → Prop) (s : List Char) (m : String × α)
    (r : List Char) : Prop :=
  ∃ t, NameText careful s m.1 t ∧ Value t m.2 r

section Members
variable {Value : List Char → α → List Char → Prop} {value : List Char → Option (α × List Char)} {m : String × α}

theorem memberText_of_member? (hvalue : ∀ {s a r}, value s = some (a, r) → Value s a r)
    (h : member? careful value s = some (m, r)) : MemberText careful Value s m r := by
  obtain ⟨⟨name, t⟩, hname, h⟩ := Option.bind_eq_some_iff.1 h
  simp only at h
  split at h
  · next u hu =>
    obtain ⟨⟨a, v⟩, ha, h⟩ := Option.bind_eq_some_iff.1 h
    obtain ⟨rfl, rfl⟩ := Prod.mk.inj (Option.some.inj h)
    exact ⟨_, nameText_of_string? hname hu, hvalue ha⟩
  · cases h

theorem MemberText.length_lt (hshort : ∀ {s a r}, Value s a r → r.length < s.length)
    (h : MemberText careful Value s m r) : r.length < s.length := by
  obtain ⟨t, hname, hvalue⟩ := h
  exact Nat.lt_trans (hshort hvalue) hname.length_lt

theorem member?_of_memberText {bound : Nat}
    (hopens : ∀ {s a r}, Value s a r → ∃ c t, s = c :: t ∧ isJsonSpace c = false)
    (hvalue : ∀ {s a r}, s.length ≤ bound → Delimited r → Value s a r → value s = some (a, r))
    (hbound : s.length ≤ bound) (hr : Delimited r) (h : MemberText careful Value s m r) :
    member? careful value s = some (m, r) := by
  obtain ⟨t, hname, ht⟩ := h
  have hread := hvalue (hname.length_lt.le.trans hbound) hr ht
  obtain ⟨u, v, hstring, hu, hv⟩ := hname.string? (hopens ht)
  simp [member?, hstring, hu, hv, hread]

end Members

/-! ### Values -/

/-- A value whose parts are `Inner` ones, as it is read when nobody asks for it: a number is taken for nothing. -/
inductive Layer (Inner : List Char → Json → List Char → Prop) : List Char → Json → List Char → Prop
  | null {r : List Char} : Layer Inner ("null".toList ++ r) .null r
  | yes {r : List Char} : Layer Inner ("true".toList ++ r) (.bool true) r
  | no {r : List Char} : Layer Inner ("false".toList ++ r) (.bool false) r
  | number {s r : List Char} (h : NumberText s r) : Layer Inner s .null r
  | string {s r : List Char} {t : String} (h : StringText false s t r) : Layer Inner s (.str t) r
  | array {s r : List Char} {items : List Json} (h : Bracketed ']' Inner s items r) :
    Layer Inner ('[' :: s) (.arr items) r
  | object {s r : List Char} {members : List (String × Json)} (h : Bracketed '}' (MemberText false Inner) s members r) :
    Layer Inner ('{' :: s) (.obj members) r

/-- A value whose brackets nest less than `depth` levels. -/
def Nested : Nat → List Char → Json → List Char → Prop
  | 0 => fun _ _ _ => False
  | depth + 1 => Layer (Nested depth)

/-- A value of any kind, and the text after it. -/
def Skipped (s r : List Char) : Prop := ∃ depth v, Nested depth s v r

theorem Layer.opens {Inner : List Char → Json → List Char → Prop} {v : Json} (h : Layer Inner s v r) :
    ∃ c t, s = c :: t ∧ isJsonSpace c = false ∧ c ≠ ']' := by
  cases h with
  | null | yes | no | array | object => exact ⟨_, _, rfl, by decide, by decide⟩
  | string h =>
    obtain ⟨tail, rfl, -⟩ := h
    exact ⟨_, _, rfl, by decide, by decide⟩
  | number h =>
    obtain ⟨c, t, rfl, hspace, hc⟩ := h.exists_cons
    exact ⟨c, t, rfl, hspace, fun h => hc (by simp [h])⟩

theorem itemlike_member {Value : List Char → α → List Char → Prop}
    (hshort : ∀ {s a r}, Value s a r → r.length < s.length) : Itemlike '}' (MemberText careful Value) where
  opens := fun ⟨_, hname, _⟩ => hname.opens
  shorter := MemberText.length_lt hshort

theorem itemlike_nested (depth : Nat) : Itemlike ']' (Nested depth) := by
  induction depth with
  | zero => exact ⟨fun h => h.elim, fun h => h.elim⟩
  | succ depth ih =>
    refine ⟨fun h => Layer.opens h, fun h => ?_⟩
    cases h with
    | null | yes | no => simp; omega
    | number h => exact h.length_lt
    | string h => exact h.length_lt
    | array h => exact Nat.lt_succ_of_lt (h.length_lt ih)
    | object h => exact Nat.lt_succ_of_lt (h.length_lt (itemlike_member ih.shorter))

theorem Nested.starts {depth : Nat} {v : Json} (h : Nested depth s v r) :
    ∃ c t, s = c :: t ∧ isJsonSpace c = false := by
  obtain ⟨c, t, hs, hc, -⟩ := (itemlike_nested depth).opens h
  exact ⟨c, t, hs, hc⟩

/-- **What is passed over is a value.** -/
theorem nested_of_value? {depth : Nat} {v : Json} (h : value? false depth s = some (v, r)) : Nested depth s v r := by
  induction depth generalizing s v r with
  | zero => cases h
  | succ depth ih =>
    rw [value?.eq_def] at h
    simp only at h
    split at h
    · split at h
      · cases h
      · obtain ⟨⟨items, t⟩, hitems, h⟩ := Option.map_eq_some_iff.1 h
        obtain ⟨rfl, rfl⟩ := Prod.mk.inj h
        exact .array (bracketed_of_bracketed? ih hitems)
    · split at h
      · cases h
      · obtain ⟨⟨members, t⟩, hmembers, h⟩ := Option.map_eq_some_iff.1 h
        obtain ⟨rfl, rfl⟩ := Prod.mk.inj h
        exact .object (bracketed_of_bracketed? (memberText_of_member? ih) hmembers)
    · obtain ⟨⟨t, u⟩, ht, h⟩ := Option.map_eq_some_iff.1 h
      obtain ⟨rfl, rfl⟩ := Prod.mk.inj h
      exact .string (string?_iff.1 ht)
    · obtain ⟨t, ht, h⟩ := Option.map_eq_some_iff.1 h
      obtain ⟨rfl, rfl⟩ := Prod.mk.inj h
      exact word?_iff.1 ht ▸ .null
    · obtain ⟨t, ht, h⟩ := Option.map_eq_some_iff.1 h
      obtain ⟨rfl, rfl⟩ := Prod.mk.inj h
      exact word?_iff.1 ht ▸ .yes
    · obtain ⟨t, ht, h⟩ := Option.map_eq_some_iff.1 h
      obtain ⟨rfl, rfl⟩ := Prod.mk.inj h
      exact word?_iff.1 ht ▸ .no
    · obtain ⟨t, ht, h⟩ := Option.map_eq_some_iff.1 h
      obtain ⟨rfl, rfl⟩ := Prod.mk.inj h
      exact .number (numberText_of_skipNumber? ht)

/-- **A value is passed over as a whole**, however deep it nests, in front of what ends it. -/
theorem value?_of_nested {depth fuel : Nat} {v : Json} (h : Nested depth s v r) (hr : Delimited r)
    (hfuel : s.length + 2 ≤ fuel) : value? false fuel s = some (v, r) := by
  induction depth generalizing s v r fuel with
  | zero => exact h.elim
  | succ depth ih =>
    obtain ⟨fuel, rfl⟩ : ∃ m, fuel = m + 1 := ⟨fuel - 1, by omega⟩
    cases h with
    | null =>
      show (word? "null" ("null".toList ++ r)).map _ = _
      rw [word?_iff.2 rfl]
      rfl
    | yes =>
      show (word? "true" ("true".toList ++ r)).map _ = _
      rw [word?_iff.2 rfl]
      rfl
    | no =>
      show (word? "false" ("false".toList ++ r)).map _ = _
      rw [word?_iff.2 rfl]
      rfl
    | number h =>
      have hread := skipNumber?_of_numberText h hr
      obtain ⟨c, t, rfl, -, hc⟩ := h.exists_cons
      simp only [List.mem_cons, List.not_mem_nil, or_false, not_or] at hc
      rw [value?.eq_def]
      simp only [hread]
      split <;> simp_all
    | string h =>
      have hread := string?_iff.2 h
      obtain ⟨tail, rfl, -⟩ := h
      rw [value?, hread]
      rfl
    | @array s r items h =>
      simp only [List.length_cons] at hfuel
      have hitem {t r : List Char} {v : Json} (hlength : t.length ≤ s.length) (hr : Delimited r)
          (h : Nested depth t v r) : value? false fuel t = some (v, r) := ih h hr (by omega)
      have hread := bracketed?_of_bracketed (by simp) (itemlike_nested depth) hitem h (Nat.le_refl _)
      rw [value?, if_neg (by simpa using (by omega : fuel ≠ 0)), hread]
      rfl
    | @object s r members h =>
      simp only [List.length_cons] at hfuel
      have hvalue {t r : List Char} {v : Json} (hlength : t.length ≤ s.length) (hr : Delimited r)
          (h : Nested depth t v r) : value? false fuel t = some (v, r) := ih h hr (by omega)
      have hread := bracketed?_of_bracketed (by simp) (itemlike_member (itemlike_nested depth).shorter)
        (member?_of_memberText Nested.starts hvalue) h (Nat.le_refl _)
      rw [value?, if_neg (by simpa using (by omega : fuel ≠ 0)), hread]
      rfl

theorem skipValue?_of_skipped (h : Skipped s r) (hr : Delimited r) : skipValue? s = some r := by
  obtain ⟨depth, v, h⟩ := h
  rw [skipValue?, value?_of_nested h hr (Nat.le_refl _)]
  rfl

theorem skipped_of_skipValue? (h : skipValue? s = some r) : Skipped s r := by
  obtain ⟨⟨v, t⟩, hv, rfl⟩ := Option.map_eq_some_iff.1 h
  exact ⟨_, v, nested_of_value? hv⟩

end LivePreview.Json
