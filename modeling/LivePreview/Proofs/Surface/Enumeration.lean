import LivePreview.Proofs.Surface.Gather
import Mathlib.Data.List.Induction

/-! Tables that are read in any order.

A table is enumerated in an order that the machine does not promise. What an element has of its properties is gathered
under names, so that the order would not show; but different names may be one when they are read, and then the entry
that comes last stays. -/
namespace LivePreview.Surface
open Script Pass

/-! ### Reading in an order -/

/-- The order in which tables are enumerated, for every place of every machine. -/
structure Listing where
  list : Machine → Nat → List (Value × Value)
  perm : ∀ m place, (list m place).Perm (m.tables.getD place {}).entries

/-- The order in which the entries are kept. -/
def Listing.stored : Listing := ⟨fun m place => (m.tables.getD place {}).entries, fun _ _ => .refl _⟩

/-- The rule that an entry of a style table gives under its written name. -/
def styleRule : Giving HostFault (Value × Value) String := fun entry =>
  match entry.1.hostText with
  | .error why => .error (.conversion why)
  | .ok name => .ok ((plainText? entry.2).map (kebabCase name, ·))

theorem styleRules_eq (entries : List (Value × Value)) : styleRules entries = gather styleRule entries := by
  cases entries with
  | nil => rfl
  | cons entry entries =>
    unfold styleRules gather
    refine congrArg (List.foldlM · [] (entry :: entries)) (funext fun rules => funext fun (key, v) => ?_)
    unfold put styleRule
    dsimp only
    cases hkey : key.hostText with
    | error why => rfl
    | ok name => cases hv : plainText? v <;> simp [Except.map]

/-- The attribute that a property gives. -/
def attributeOf (listing : Listing) (m : Machine) : Giving HostFault (Value × Value) String := fun property =>
  match property with
  | (.str s, v) =>
    match Property.of (Text.decodeLossy s) v with
    | .attribute text => .ok (some (Text.decodeLossy s, text))
    | .style place =>
      (styleRules (listing.list m place)).map fun rules => some (Text.decodeLossy s, styleText rules)
    | .handler | .ignored => .ok none
  | _ => .ok none

/-- The handlers among properties, in the order in which they are read. -/
def pushed (own : List (Value × Value)) : List (String × Value) :=
  own.filterMap fun property => (handlerName? property).map (·, property.2)

/-- The ids under names, where the handlers have ids from `first` on; the last one of a name stays. -/
def idsFrom (first : Nat) (handlers : List (String × Value)) : List (String × Nat) :=
  (handlers.zipIdx first).foldl (fun ids e => Node.insertEntry e.1.1 e.2 ids) []

/-- What an element has of its properties: attributes, the ids of the handlers under their events, and all functions so
far, which stand at their ids. -/
def furnish (listing : Listing) (m : Machine) (before : List Value) (own : List (Value × Value)) :
    Except HostFault (List (String × String) × List (String × Nat) × List Value) := do
  let attributes ← gather (attributeOf listing m) own
  return (attributes, idsFrom before.length (pushed own), before ++ (pushed own).map (·.2))

/-! ### Ids -/

variable {own own' : List (Value × Value)} {m : Machine} {listing listing' : Listing} {first : Nat}

theorem idsFrom_snoc (first : Nat) (handlers : List (String × Value)) (e : String × Value) :
    idsFrom first (handlers ++ [e]) = Node.insertEntry e.1 (first + handlers.length) (idsFrom first handlers) := by
  simp [idsFrom, List.zipIdx_append]

/-- An id stands for a handler of its name. -/
theorem lookup_idsFrom {handlers : List (String × Value)} {event : String} {id : Nat}
    (h : (idsFrom first handlers).lookup event = some id) :
    first ≤ id ∧ ∃ f, handlers[id - first]? = some (event, f) := by
  induction handlers using List.reverseRecOn with
  | nil => cases h
  | append_singleton handlers e ih =>
    rw [idsFrom_snoc, lookup_insertEntry] at h
    split at h
    case isTrue hname =>
      cases h
      exact ⟨Nat.le_add_right .., e.2, by simp [hname]⟩
    case isFalse =>
      obtain ⟨hle, f, hf⟩ := ih h
      obtain ⟨hlt, -⟩ := List.getElem?_eq_some_iff.1 hf
      exact ⟨hle, f, by rw [List.getElem?_append_left hlt, hf]⟩

theorem sorted_idsFrom (first : Nat) (handlers : List (String × Value)) :
    ((idsFrom first handlers).map (·.1)).Pairwise (· < ·) := by
  induction handlers using List.reverseRecOn with
  | nil => exact .nil
  | append_singleton handlers e ih =>
    rw [idsFrom_snoc]
    exact Sketch.sorted_insertEntry _ _ ih

theorem map_insertEntry {α β : Type} (g : α → β) (name : String) (v : α) (l : List (String × α)) :
    (Node.insertEntry name v l).map (fun e => (e.1, g e.2)) =
      Node.insertEntry name (g v) (l.map fun e => (e.1, g e.2)) := by
  induction l with
  | nil => rfl
  | cons e l ih =>
    unfold Node.insertEntry
    by_cases hname : e.1 = name
    · simp [hname]
    · by_cases hlt : name < e.1
      · simp [hname, hlt]
      · simp [hname, hlt, ih]

/-- The events have no more of the ids in them than that there are some. -/
theorem events_idsFrom (first : Nat) (handlers : List (String × Value)) :
    (idsFrom first handlers).map (fun e => (e.1, ())) =
      handlers.foldl (fun events e => Node.insertEntry e.1 () events) [] := by
  induction handlers using List.reverseRecOn with
  | nil => rfl
  | append_singleton handlers e ih => rw [idsFrom_snoc, map_insertEntry (fun _ => ()), ih, List.foldl_append]; rfl

theorem events_perm {handlers handlers' : List (String × Value)} (hp : handlers'.Perm handlers) (first first' : Nat) :
    (idsFrom first' handlers').map (·.1) = (idsFrom first handlers).map (·.1) := by
  have hfold := hp.foldl_eq' (f := fun events e => Node.insertEntry e.1 () events)
    (fun _ _ _ _ _ => insertEntry_comm fun _ => rfl) []
  rw [← events_idsFrom first', ← events_idsFrom first] at hfold
  simpa [List.map_map, Function.comp_def] using congrArg (List.map Prod.fst) hfold

/-- The same events, with ids out of one range in which the same functions stand, in some order; and under each event
the same function. -/
structure SameEvents (fs gs : List Value) (ids ids' : List (String × Nat)) : Prop where
  names : ids.map (·.1) = ids'.map (·.1)
  functions : ∀ b ∈ ids, ∀ b' ∈ ids', b.1 = b'.1 → ∃ f, fs[b.2]? = some f ∧ gs[b'.2]? = some f
  range : ∃ first count, (∀ b ∈ ids ++ ids', first ≤ b.2 ∧ b.2 < first + count) ∧
    ((fs.drop first).take count).Perm ((gs.drop first).take count)

/-- Handlers with one name are one function. -/
def HandlersApart (own : List (Value × Value)) : Prop :=
  ∀ p ∈ own, ∀ q ∈ own, ∀ name, handlerName? p = some name → handlerName? q = some name → p.2 = q.2

theorem exists_of_mem_idsFrom {own : List (Value × Value)} {b : String × Nat} (h : b ∈ idsFrom first (pushed own)) :
    first ≤ b.2 ∧ b.2 < first + (pushed own).length ∧ ∃ p ∈ own, handlerName? p = some b.1 ∧
      ((pushed own).map (·.2))[b.2 - first]? = some p.2 := by
  obtain ⟨hle, f, hf⟩ := lookup_idsFrom (Sketch.lookup_of_mem (sorted_idsFrom _ _) h)
  obtain ⟨hlt, -⟩ := List.getElem?_eq_some_iff.1 hf
  obtain ⟨p, hp, he⟩ := List.mem_filterMap.1 (List.mem_of_getElem? hf)
  obtain ⟨name, hname, he⟩ := Option.map_eq_some_iff.1 he
  obtain ⟨rfl, rfl⟩ := Prod.mk.inj he
  exact ⟨hle, by omega, p, hp, hname, by simp [hf]⟩

/-- Handlers in another order have other ids, and that is all. -/
theorem sameEvents_perm (hp : own'.Perm own) (h : HandlersApart own) {before before' : List Value}
    (hlength : before.length = before'.length) (rest rest' : List Value) :
    SameEvents (before ++ ((pushed own).map (·.2) ++ rest)) (before' ++ ((pushed own').map (·.2) ++ rest'))
      (idsFrom before.length (pushed own)) (idsFrom before'.length (pushed own')) := by
  have hpushed : (pushed own').Perm (pushed own) := hp.filterMap _
  have hfind {before rest : List Value} {own : List (Value × Value)} {b : String × Nat} {f : Value}
      (hle : before.length ≤ b.2) (hf : ((pushed own).map (·.2))[b.2 - before.length]? = some f) :
      (before ++ ((pushed own).map (·.2) ++ rest))[b.2]? = some f := by
    obtain ⟨hlt, -⟩ := List.getElem?_eq_some_iff.1 hf
    rw [List.getElem?_append_right hle, List.getElem?_append_left hlt, hf]
  refine ⟨(events_perm hpushed _ _).symm, fun b hb b' hb' hname => ?_, before.length, (pushed own).length, ?_, ?_⟩
  · obtain ⟨hle, -, p, hp', hpname, hf⟩ := exists_of_mem_idsFrom hb
    obtain ⟨hle', -, q, hq, hqname, hf'⟩ := exists_of_mem_idsFrom hb'
    have heq : p.2 = q.2 := h p hp' q (hp.mem_iff.1 hq) b.1 hpname (by rw [hname]; exact hqname)
    exact ⟨p.2, hfind hle hf, heq ▸ hfind hle' hf'⟩
  · intro b hb
    rcases List.mem_append.1 hb with hb | hb
    · obtain ⟨hle, hlt, -⟩ := exists_of_mem_idsFrom hb
      exact ⟨hle, hlt⟩
    · obtain ⟨hle, hlt, -⟩ := exists_of_mem_idsFrom hb
      rw [hpushed.length_eq] at hlt
      exact ⟨hlength ▸ hle, hlength ▸ hlt⟩
  · rw [List.drop_left, hlength, List.drop_left]
    have htake {own : List (Value × Value)} {rest : List Value} {n : Nat} (hn : (pushed own).length = n) :
        ((pushed own).map (·.2) ++ rest).take n = (pushed own).map (·.2) := by
      rw [← hn, ← List.length_map (f := fun e : String × Value => e.2), List.take_left]
    rw [htake rfl, htake hpushed.length_eq]
    exact (hpushed.map _).symm

/-! ### Style texts -/

theorem exists_intercalate {α : Type} (sep : List α) (u v : List (List α)) :
    ∃ a b, ∀ x, sep.intercalate (u ++ x :: v) = a ++ x ++ b := by
  induction u with
  | nil =>
    cases v with
    | nil => exact ⟨[], [], fun x => by simp⟩
    | cons y v => exact ⟨[], sep ++ sep.intercalate (y :: v), fun x => by simp [List.intercalate_cons_cons]⟩
  | cons y u ih =>
    obtain ⟨a, b, h⟩ := ih
    refine ⟨y ++ sep ++ a, b, fun x => ?_⟩
    rw [List.cons_append, List.intercalate_cons_of_ne_nil (by simp), h]
    simp

/-- Different values of one rule make different texts. -/
theorem styleText_insertEntry_inj {name a b : String} {rules : List (String × String)}
    (h : styleText (Node.insertEntry name a rules) = styleText (Node.insertEntry name b rules)) : a = b := by
  obtain ⟨u, v, hrules⟩ := exists_insertEntry name rules
  obtain ⟨front, back, htext⟩ := exists_intercalate "; ".toList (u.map fun e => (e.1 ++ ": " ++ e.2).toList)
    (v.map fun e => (e.1 ++ ": " ++ e.2).toList)
  have hlist (a : String) : (styleText (Node.insertEntry name a rules)).toList =
      front ++ (name ++ ": " ++ a).toList ++ back := by
    rw [hrules, styleText, String.toList_intercalate, ← htext]
    simp [Function.comp_def]
  have heq := congrArg String.toList h
  rw [hlist, hlist] at heq
  exact String.toList_inj.1 (by simpa using heq)

/-! ### Names that stay apart -/

/-- The entries of the style table that a property is, if it is one. -/
def styleEntries (m : Machine) (property : Value × Value) : List (Value × Value) :=
  match property with
  | (.str s, v) =>
    match Property.of (Text.decodeLossy s) v with
    | .style place => Listing.stored.list m place
    | _ => []
  | _ => []

/-- A key of the style table that the property is cannot be read. -/
def Faults (m : Machine) (property : Value × Value) (fault : HostFault) : Prop :=
  ∃ entry ∈ styleEntries m property, styleRule entry = .error fault

/-- Rules of one written name have one text. -/
def RulesApart (m : Machine) (property : Value × Value) : Prop :=
  ∀ e ∈ styleEntries m property, ∀ f ∈ styleEntries m property, ∀ name a b,
    styleRule e = .ok (some (name, a)) → styleRule f = .ok (some (name, b)) → a = b

/-- Attributes of one name have one text. -/
def AttributesApart (m : Machine) (own : List (Value × Value)) : Prop :=
  ∀ p ∈ own, ∀ q ∈ own, ∀ name a b,
    attributeOf .stored m p = .ok (some (name, a)) → attributeOf .stored m q = .ok (some (name, b)) → a = b

/-- Nothing falls together in properties but what is the same: all keys of style tables that cannot be read give one
error, and if there is none, then rules, attributes and handlers with one name are one. -/
structure Apart (m : Machine) (own : List (Value × Value)) : Prop where
  faults : ∀ p ∈ own, ∀ q ∈ own, ∀ a b, Faults m p a → Faults m q b → a = b
  names : (∃ p ∈ own, ∃ a, Faults m p a) ∨
    (∀ p ∈ own, RulesApart m p) ∧ AttributesApart m own ∧ HandlersApart own

inductive SameFurnishing : Except HostFault (List (String × String) × List (String × Nat) × List Value) →
    Except HostFault (List (String × String) × List (String × Nat) × List Value) → Prop
  | error (fault : HostFault) : SameFurnishing (.error fault) (.error fault)
  | ok {attributes : List (String × String)} {ids ids' : List (String × Nat)} {fs gs : List Value}
      (events : SameEvents fs gs ids ids') : SameFurnishing (.ok (attributes, ids, fs)) (.ok (attributes, ids', gs))

variable {property : Value × Value} {fault : HostFault}

/-- A property gives the text of a style table, or what it gives is no matter of order. -/
theorem attributeOf_cases (m : Machine) (property : Value × Value) :
    (∃ place name, styleEntries m property = Listing.stored.list m place ∧ ∀ listing : Listing,
        attributeOf listing m property =
          (gather styleRule (listing.list m place)).map fun rules => some (name, styleText rules)) ∨
      styleEntries m property = [] ∧ ∃ found?, ∀ listing : Listing, attributeOf listing m property = .ok found? := by
  obtain ⟨key, v⟩ := property
  unfold styleEntries attributeOf
  cases key
  case str s =>
    dsimp only
    cases Property.of (Text.decodeLossy s) v with
    | style place =>
      refine .inl ⟨place, Text.decodeLossy s, rfl, fun listing => ?_⟩
      dsimp only
      rw [styleRules_eq]
    | _ => exact .inr ⟨rfl, _, fun _ => rfl⟩
  all_goals exact .inr ⟨rfl, _, fun _ => rfl⟩

theorem faults_of_attributeOf (h : attributeOf listing m property = .error fault) : Faults m property fault := by
  rcases attributeOf_cases m property with ⟨place, name, hentries, hread⟩ | ⟨-, found?, hread⟩
  · rw [hread] at h
    cases hg : gather styleRule (listing.list m place) with
    | ok rules =>
      rw [hg] at h
      cases h
    | error fault' =>
      rw [hg] at h
      cases h
      obtain ⟨entry, hentry, he⟩ := exists_of_gather hg
      exact ⟨entry, by rw [hentries]; exact (listing.perm m place).mem_iff.1 hentry, he⟩
  · rw [hread] at h
    cases h

theorem attributeOf_error_of_faults (listing : Listing) (h : Faults m property fault) :
    ∃ fault', attributeOf listing m property = .error fault' := by
  obtain ⟨entry, hentry, he⟩ := h
  rcases attributeOf_cases m property with ⟨place, name, hentries, hread⟩ | ⟨hentries, -⟩
  · rw [hentries] at hentry
    obtain ⟨fault', hg⟩ := exists_gather_error ((listing.perm m place).mem_iff.2 hentry) he
    exact ⟨fault', by rw [hread, hg]; rfl⟩
  · rw [hentries] at hentry
    cases hentry

/-- A style table whose rules stay apart has one text. -/
theorem attributeOf_stored (listing : Listing) (hrules : RulesApart m property)
    (hno : ∀ fault, ¬ Faults m property fault) :
    attributeOf listing m property = attributeOf .stored m property := by
  rcases attributeOf_cases m property with ⟨place, name, hentries, hread⟩ | ⟨-, found?, hread⟩
  · have huniform : Uniform styleRule (Listing.stored.list m place) := by
      rw [← hentries]
      exact ⟨fun x hx _ _ e _ he => absurd ⟨x, hx, he⟩ (hno e), .inr hrules⟩
    rw [hread, hread, gather_perm huniform (listing.perm m place)]
  · rw [hread, hread]

/-! ### The order does not show -/

theorem uniform_attributeOf (listing : Listing) (h : Apart m own) : Uniform (attributeOf listing m) own := by
  refine ⟨fun p hp q hq a b ha hb => ?_, ?_⟩
  · exact h.faults p hp q hq a b (faults_of_attributeOf ha) (faults_of_attributeOf hb)
  · by_cases hfaults : ∃ p ∈ own, ∃ a, Faults m p a
    · obtain ⟨p, hp, a, ha⟩ := hfaults
      exact .inl ⟨p, hp, attributeOf_error_of_faults listing ha⟩
    · obtain ⟨hrules, hattributes, -⟩ := h.names.resolve_left hfaults
      have hstored : ∀ p ∈ own, attributeOf listing m p = attributeOf .stored m p := fun p hp =>
        attributeOf_stored listing (hrules p hp) fun a ha => hfaults ⟨p, hp, a, ha⟩
      refine .inr fun p hp q hq name a b ha hb => hattributes p hp q hq name a b ?_ ?_
      · rwa [← hstored p hp]
      · rwa [← hstored q hq]

/-- What is gathered of properties that stay apart is the same in every order. -/
theorem gather_attributeOf (h : Apart m own) (hp : own'.Perm own) (listing listing' : Listing) :
    gather (attributeOf listing' m) own' = gather (attributeOf listing m) own := by
  rw [gather_perm (uniform_attributeOf listing' h) hp]
  by_cases hfaults : ∃ p ∈ own, ∃ a, Faults m p a
  · -- All errors are the same, so it is no matter which comes first.
    obtain ⟨p, hp, a, ha⟩ := hfaults
    have hone (listing : Listing) : gather (attributeOf listing m) own = .error a := by
      obtain ⟨a', ha'⟩ := attributeOf_error_of_faults listing ha
      obtain rfl := h.faults p hp p hp a' a (faults_of_attributeOf ha') ha
      exact gather_error hp ha' fun q hq b hb => h.faults q hq p hp b a' (faults_of_attributeOf hb) ha
    rw [hone, hone]
  · obtain ⟨hrules, -, -⟩ := h.names.resolve_left hfaults
    have hstored (listing : Listing) : ∀ p ∈ own, attributeOf listing m p = attributeOf .stored m p := fun p hp =>
      attributeOf_stored listing (hrules p hp) fun a ha => hfaults ⟨p, hp, a, ha⟩
    exact gather_congr fun p hp => (hstored listing' p hp).trans (hstored listing p hp).symm

theorem no_fault_of_gather {attributes : List (String × String)}
    (h : gather (attributeOf listing m) own = .ok attributes) : ¬ ∃ p ∈ own, ∃ a, Faults m p a := by
  rintro ⟨p, hp, a, ha⟩
  obtain ⟨a', ha'⟩ := attributeOf_error_of_faults listing ha
  obtain ⟨e, he⟩ := exists_gather_error hp ha'
  rw [h] at he
  cases he

theorem sameFurnishing_of_apart (h : Apart m own) (hp : own'.Perm own) (listing listing' : Listing)
    (before : List Value) :
    SameFurnishing (furnish listing m before own) (furnish listing' m before own') := by
  have hsame := gather_attributeOf h hp listing listing'
  unfold furnish
  rw [hsame]
  cases hg : gather (attributeOf listing m) own with
  | error fault => exact .error fault
  | ok attributes =>
    obtain ⟨-, -, hhandlers⟩ := h.names.resolve_left (no_fault_of_gather hg)
    refine .ok ?_
    simpa using sameEvents_perm hp hhandlers rfl [] []

/-! ### Where the order shows -/

/-- Whatever the orders, an element has the same of its properties. -/
def OrderBlind (m : Machine) (own : List (Value × Value)) : Prop :=
  ∀ (listing listing' : Listing) (before : List Value) (own' : List (Value × Value)), own'.Perm own →
    SameFurnishing (furnish listing m before own) (furnish listing' m before own')

theorem furnish_error (before : List Value) (h : gather (attributeOf listing m) own = .error fault) :
    furnish listing m before own = .error fault := by
  rw [furnish, h]
  rfl

theorem furnish_ok (before : List Value) {attributes : List (String × String)}
    (h : gather (attributeOf listing m) own = .ok attributes) : furnish listing m before own =
      .ok (attributes, idsFrom before.length (pushed own), before ++ (pushed own).map (·.2)) := by
  rw [furnish, h]
  rfl

/-- In some order of a style table one of its entries is the first. -/
theorem exists_listing (m : Machine) (place : Nat) {entries : List (Value × Value)}
    (h : entries.Perm (Listing.stored.list m place)) : ∃ listing : Listing, listing.list m place = entries := by
  classical
  refine ⟨⟨fun n p => if n = m ∧ p = place then entries else Listing.stored.list n p, fun n p => ?_⟩, if_pos ⟨rfl, rfl⟩⟩
  split
  case isTrue hplace =>
    obtain ⟨rfl, rfl⟩ := hplace
    exact h
  case isFalse => exact .refl _

theorem OrderBlind.fault_unique (h : OrderBlind m own) {p : Value × Value} (hp : p ∈ own) (hfault : Faults m p fault) :
    furnish .stored m [] own = .error fault := by
  obtain ⟨entry, hentry, he⟩ := hfault
  rcases attributeOf_cases m p with ⟨place, name, hentries, hread⟩ | ⟨hentries, -⟩
  · rw [hentries] at hentry
    obtain ⟨w, hw⟩ := exists_perm_cons hentry
    obtain ⟨listing, hlisting⟩ := exists_listing m place hw
    obtain ⟨v, hv⟩ := exists_perm_cons hp
    have hfirst : attributeOf listing m p = .error fault := by
      rw [hread, hlisting, gather_cons_error he]
      rfl
    have hsame := h .stored listing [] _ hv
    rw [furnish_error [] (gather_cons_error hfirst v)] at hsame
    generalize furnish .stored m [] own = outcome at hsame ⊢
    cases hsame
    rfl
  · rw [hentries] at hentry
    cases hentry

/-- With a property at the end, the element has what it gives. -/
theorem OrderBlind.attribute_unique (h : OrderBlind m own) (hno : ¬ ∃ p ∈ own, ∃ a, Faults m p a) {p : Value × Value}
    (hp : p ∈ own) {listing : Listing} {name a : String} (ha : attributeOf listing m p = .ok (some (name, a))) :
    ∃ attributes ids fs, furnish .stored m [] own = .ok (attributes, ids, fs) ∧ attributes.lookup name = some a := by
  obtain ⟨w, hw⟩ := exists_perm_snoc hp
  have hok : ∀ q ∈ w, ∀ e, attributeOf listing m q ≠ .error e := fun q hq e he =>
    hno ⟨q, hw.mem_iff.1 (List.mem_append_left [p] hq), e, faults_of_attributeOf he⟩
  have hsame := h .stored listing [] _ hw
  rw [furnish_ok [] (gather_snoc hok ha)] at hsame
  generalize furnish .stored m [] own = outcome at hsame ⊢
  cases hsame
  exact ⟨_, _, _, rfl, by simp [lookup_insertEntry]⟩

theorem OrderBlind.handler_unique (h : OrderBlind m own) (hno : ¬ ∃ p ∈ own, ∃ a, Faults m p a) {p : Value × Value}
    (hp : p ∈ own) {name : String} (hname : handlerName? p = some name) :
    ∃ attributes ids fs id, furnish .stored m [] own = .ok (attributes, ids, fs) ∧ ids.lookup name = some id ∧
      fs[id]? = some p.2 := by
  obtain ⟨w, hw⟩ := exists_perm_snoc hp
  have hok : ∀ q ∈ w ++ [p], ∀ e, attributeOf .stored m q ≠ .error e := fun q hq e he =>
    hno ⟨q, hw.mem_iff.1 hq, e, faults_of_attributeOf he⟩
  have hsame := h .stored .stored [] _ hw
  rw [furnish_ok [] (gather_ok hok)] at hsame
  have hpushed : pushed (w ++ [p]) = pushed w ++ [(name, p.2)] := by simp [pushed, hname]
  generalize furnish .stored m [] own = outcome at hsame ⊢
  cases hsame
  case ok ids fs events =>
    rw [hpushed, idsFrom_snoc] at events
    -- The event of the last handler has an entry on this side, too, and the same function stands there.
    obtain ⟨u, v, hinsert⟩ := exists_insertEntry name (idsFrom 0 (pushed w))
    have hlast : (name, 0 + (pushed w).length) ∈
        Node.insertEntry name (0 + (pushed w).length) (idsFrom 0 (pushed w)) := by
      rw [hinsert]
      simp
    have hmem : name ∈ ids.map (·.1) := by
      rw [events.names]
      exact List.mem_map_of_mem hlast
    obtain ⟨b, hb, rfl⟩ := List.mem_map.1 hmem
    obtain ⟨f, hf, hg⟩ := events.functions b hb _ hlast rfl
    have hsorted : (ids.map (·.1)).Pairwise (· < ·) := by
      have hsnoc := sorted_idsFrom 0 (pushed w ++ [(b.1, p.2)])
      rw [idsFrom_snoc] at hsnoc
      rw [events.names]
      exact hsnoc
    refine ⟨_, ids, fs, b.2, rfl, Sketch.lookup_of_mem hsorted hb, ?_⟩
    rw [hf, ← hg]
    simp

theorem exists_perm_two {x y : Value × Value} {items : List (Value × Value)} (hx : x ∈ items) (hy : y ∈ items)
    (hne : x ≠ y) : ∃ w, (w ++ [x] ++ [y]).Perm items := by
  obtain ⟨v, hv⟩ := exists_perm_snoc hy
  have hxv : x ∈ v := by
    rcases List.mem_append.1 (hv.mem_iff.2 hx) with h | h
    · exact h
    · exact absurd (List.mem_singleton.1 h) hne
  obtain ⟨w, hw⟩ := exists_perm_snoc hxv
  exact ⟨w, (hw.append_right [y]).trans hv⟩

/-- With two rules of one name at the end, a style has the text of the later one. -/
theorem exists_styleText {w : List (Value × Value)} {x y : Value × Value} {name a b : String}
    (hno : ∀ e ∈ w ++ [x], ∀ fault, styleRule e ≠ .error fault) (hx : styleRule x = .ok (some (name, a)))
    (hy : styleRule y = .ok (some (name, b))) :
    gather styleRule (w ++ [x] ++ [y]) = .ok (Node.insertEntry name b (putAll styleRule [] w)) := by
  rw [gather_snoc hno hy, putAll, List.foldl_append]
  simp only [List.foldl_cons, List.foldl_nil, put, hx, Except.map, Except.toOption, Option.getD_some, Option.elim_some]
  rw [insertEntry_insertEntry, putAll]
  rfl

theorem OrderBlind.rulesApart (h : OrderBlind m own) (hno : ¬ ∃ p ∈ own, ∃ a, Faults m p a) {p : Value × Value}
    (hp : p ∈ own) : RulesApart m p := by
  intro x hx y hy rule a b ha hb
  by_cases hne : x = y
  · subst hne
    simpa using ha.symm.trans hb
  · rcases attributeOf_cases m p with ⟨place, name, hentries, hread⟩ | ⟨hentries, -⟩
    · rw [hentries] at hx hy
      have hok : ∀ e ∈ Listing.stored.list m place, ∀ fault, styleRule e ≠ .error fault := fun e he fault hfault =>
        hno ⟨p, hp, fault, e, by rw [hentries]; exact he, hfault⟩
      -- The two rules at the end, in one order and in the other.
      obtain ⟨w, hw⟩ := exists_perm_two hx hy hne
      have hw' : (w ++ [y] ++ [x]).Perm (Listing.stored.list m place) := by
        refine .trans ?_ hw
        rw [List.append_assoc, List.append_assoc]
        exact (List.Perm.swap x y []).append_left w
      obtain ⟨listing, hlisting⟩ := exists_listing m place hw
      obtain ⟨listing', hlisting'⟩ := exists_listing m place hw'
      have htext : attributeOf listing m p =
          .ok (some (name, styleText (Node.insertEntry rule b (putAll styleRule [] w)))) := by
        rw [hread, hlisting, exists_styleText (fun e he => hok e (hw.mem_iff.1 (List.mem_append_left _ he))) ha hb]
        rfl
      have htext' : attributeOf listing' m p =
          .ok (some (name, styleText (Node.insertEntry rule a (putAll styleRule [] w)))) := by
        rw [hread, hlisting', exists_styleText (fun e he => hok e (hw'.mem_iff.1 (List.mem_append_left _ he))) hb ha]
        rfl
      obtain ⟨attributes, ids, fs, hfurnish, hlookup⟩ := h.attribute_unique hno hp htext
      obtain ⟨attributes', ids', fs', hfurnish', hlookup'⟩ := h.attribute_unique hno hp htext'
      rw [hfurnish] at hfurnish'
      cases hfurnish'
      exact (styleText_insertEntry_inj (Option.some.inj (hlookup.symm.trans hlookup'))).symm
    · rw [hentries] at hx
      cases hx

/-- **The order of a table does not show just when nothing falls together in it but what is the same.** -/
theorem orderBlind_iff (m : Machine) (own : List (Value × Value)) : OrderBlind m own ↔ Apart m own := by
  refine ⟨fun h => ?_, fun h listing listing' before own' hp => sameFurnishing_of_apart h hp listing listing' before⟩
  refine ⟨fun p hp q hq a b ha hb => ?_, Classical.or_iff_not_imp_left.2 fun hno =>
    ⟨fun p hp => h.rulesApart hno hp, fun p hp q hq name a b ha hb => ?_, fun p hp q hq name hpname hqname => ?_⟩⟩
  · exact Except.error.inj ((h.fault_unique hp ha).symm.trans (h.fault_unique hq hb))
  · obtain ⟨attributes, ids, fs, hfurnish, hlookup⟩ := h.attribute_unique hno hp ha
    obtain ⟨attributes', ids', fs', hfurnish', hlookup'⟩ := h.attribute_unique hno hq hb
    rw [hfurnish] at hfurnish'
    cases hfurnish'
    exact Option.some.inj (hlookup.symm.trans hlookup')
  · obtain ⟨attributes, ids, fs, id, hfurnish, hlookup, hf⟩ := h.handler_unique hno hp hpname
    obtain ⟨attributes', ids', fs', id', hfurnish', hlookup', hf'⟩ := h.handler_unique hno hq hqname
    rw [hfurnish] at hfurnish'
    cases hfurnish'
    obtain rfl := Option.some.inj (hlookup.symm.trans hlookup')
    exact Option.some.inj (hf.symm.trans hf')

end LivePreview.Surface
