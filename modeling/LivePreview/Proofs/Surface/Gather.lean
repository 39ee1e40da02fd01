import LivePreview.Proofs.Surface.Wiring

/-! Entries gathered under their names.

Attributes, handlers and the rules of a style are gathered into entries in the order of their names, from tables that
are read in any order. Of several with one name the last stays, and the first error ends it all; so the order shows
unless entries with one name are the same, or every error there can be is one error. -/
namespace LivePreview.Surface
open Script

variable {ε α β : Type} {name other : String} {a b : α} {l : List (String × α)}

/-! ### One entry more -/

theorem insertEntry_comm_of_lt (h : name < other) : Node.insertEntry name a (Node.insertEntry other b l) =
    Node.insertEntry other b (Node.insertEntry name a l) := by
  have hne : name ≠ other := String.ne_of_lt h
  have hge : ¬ other < name := String.lt_asymm h
  induction l with
  | nil => simp [Node.insertEntry, hne, hne.symm, h, hge]
  | cons e l ih =>
    by_cases hother : e.1 = other
    · simp [Node.insertEntry, hother, hne, hne.symm, h, hge]
    · by_cases hlt : other < e.1
      · have hname : name < e.1 := String.lt_trans h hlt
        simp [Node.insertEntry, hother, hne, hne.symm, h, hge, hlt, hname, (String.ne_of_lt hname).symm]
      · by_cases hname : e.1 = name
        · simp [Node.insertEntry, hname, hne, hge]
        · by_cases hbefore : name < e.1
          · simp [Node.insertEntry, hother, hlt, hname, hbefore, hne, hge]
          · simp [Node.insertEntry, hother, hlt, hname, hbefore, ih]

/-- Two entries come in any order, unless they are different ones with one name. -/
theorem insertEntry_comm (h : name = other → a = b) : Node.insertEntry name a (Node.insertEntry other b l) =
    Node.insertEntry other b (Node.insertEntry name a l) := by
  by_cases heq : name = other
  · obtain rfl := h heq
    rw [heq]
  · rcases Decidable.em (name < other) with hlt | hge
    · exact insertEntry_comm_of_lt hlt
    · have hlt : other < name := Decidable.byContradiction fun hno =>
        heq (String.le_antisymm (String.not_lt.1 hno) (String.not_lt.1 hge))
      exact (insertEntry_comm_of_lt hlt).symm

/-- Where an entry goes does not depend on what stands in it. -/
theorem exists_insertEntry (name : String) (l : List (String × α)) :
    ∃ u v, ∀ a, Node.insertEntry name a l = u ++ (name, a) :: v := by
  induction l with
  | nil => exact ⟨[], [], fun _ => rfl⟩
  | cons e l ih =>
    obtain ⟨u, v, h⟩ := ih
    by_cases hname : e.1 = name
    · exact ⟨[], l, fun a => by simp [Node.insertEntry, hname]⟩
    · by_cases hlt : name < e.1
      · exact ⟨[], e :: l, fun a => by simp [Node.insertEntry, hname, hlt]⟩
      · exact ⟨e :: u, v, fun a => by simp [Node.insertEntry, hname, hlt, h]⟩

theorem insertEntry_insertEntry (name : String) (a b : α) (l : List (String × α)) :
    Node.insertEntry name b (Node.insertEntry name a l) = Node.insertEntry name b l := by
  induction l with
  | nil => simp [Node.insertEntry]
  | cons e l ih =>
    by_cases hname : e.1 = name
    · simp [Node.insertEntry, hname]
    · by_cases hlt : name < e.1
      · simp [Node.insertEntry, hname, hlt]
      · simp [Node.insertEntry, hname, hlt, ih]

/-! ### Gathering -/

/-- What one item adds to the entries: one entry, nothing, or an error that ends it. -/
abbrev Giving (ε β α : Type) := β → Except ε (Option (String × α))

/-- The entries with what one more item gives. -/
def put (give : Giving ε β α) (l : List (String × α)) (x : β) : Except ε (List (String × α)) :=
  (give x).map fun found? => found?.elim l fun e => Node.insertEntry e.1 e.2 l

/-- The entries that items give, one after another. -/
def gather (give : Giving ε β α) (items : List β) : Except ε (List (String × α)) := items.foldlM (put give) []

/-- The entries of the items that give one, whatever the others do. -/
def putAll (give : Giving ε β α) (l : List (String × α)) (items : List β) : List (String × α) :=
  items.foldl (fun l x => (put give l x).toOption.getD l) l

variable {give : Giving ε β α} {items others : List β} {x y : β} {e : ε}

theorem foldlM_put_ok (h : ∀ x ∈ items, ∀ e, give x ≠ .error e) (l : List (String × α)) :
    items.foldlM (put give) l = .ok (putAll give l items) := by
  induction items generalizing l with
  | nil => rfl
  | cons x items ih =>
    obtain ⟨hx, hitems⟩ := List.forall_mem_cons.1 h
    rw [List.foldlM_cons, putAll, List.foldl_cons]
    cases hg : give x with
    | error e => exact absurd hg (hx e)
    | ok found? =>
      have hput : put give l x = .ok (found?.elim l fun e => Node.insertEntry e.1 e.2 l) := by rw [put, hg]; rfl
      rw [hput]
      exact ih hitems _

theorem gather_ok (h : ∀ x ∈ items, ∀ e, give x ≠ .error e) : gather give items = .ok (putAll give [] items) :=
  foldlM_put_ok h []

theorem exists_of_foldlM_put {l : List (String × α)} (h : items.foldlM (put give) l = .error e) :
    ∃ x ∈ items, give x = .error e := by
  induction items generalizing l with
  | nil => cases h
  | cons y items ih =>
    rw [List.foldlM_cons] at h
    cases hgy : give y with
    | error e' =>
      rw [put, hgy] at h
      cases h
      exact ⟨y, List.mem_cons_self, hgy⟩
    | ok found? =>
      rw [put, hgy] at h
      obtain ⟨x, hx, he⟩ := ih h
      exact ⟨x, List.mem_cons_of_mem y hx, he⟩

theorem exists_of_gather (h : gather give items = .error e) : ∃ x ∈ items, give x = .error e := exists_of_foldlM_put h

/-- An error somewhere ends it with an error. -/
theorem exists_gather_error (hx : x ∈ items) (hg : give x = .error e) : ∃ e', gather give items = .error e' := by
  have hfold (l : List (String × α)) : ∃ e', items.foldlM (put give) l = .error e' := by
    induction items generalizing l with
    | nil => cases hx
    | cons y items ih =>
      rw [List.foldlM_cons]
      cases hgy : give y with
      | error e' => exact ⟨e', by rw [put, hgy]; rfl⟩
      | ok found? =>
        have hx : x ∈ items := by
          rcases List.mem_cons.1 hx with rfl | hx
          · exact nomatch hg.symm.trans hgy
          · exact hx
        rw [put, hgy]
        exact ih hx _
  exact hfold []

/-- An error that is the only one there is ends it, wherever it stands. -/
theorem gather_error (hx : x ∈ items) (hg : give x = .error e)
    (h : ∀ y ∈ items, ∀ e', give y = .error e' → e' = e) : gather give items = .error e := by
  obtain ⟨e', he'⟩ := exists_gather_error hx hg
  obtain ⟨y, hy, hgy⟩ := exists_of_gather he'
  rw [he', h y hy e' hgy]

theorem gather_congr {give' : Giving ε β α} (h : ∀ x ∈ items, give x = give' x) :
    gather give items = gather give' items := by
  have hfold (l : List (String × α)) : items.foldlM (put give) l = items.foldlM (put give') l := by
    induction items generalizing l with
    | nil => rfl
    | cons x items ih =>
      obtain ⟨hx, hitems⟩ := List.forall_mem_cons.1 h
      have hput : put give l x = put give' l x := by rw [put, put, hx]
      rw [List.foldlM_cons, List.foldlM_cons, hput]
      exact bind_congr (ih hitems)
  exact hfold []

theorem gather_cons_error (hg : give x = .error e) (items : List β) : gather give (x :: items) = .error e := by
  rw [gather, List.foldlM_cons, put, hg]
  rfl

/-- The last item has its entry. -/
theorem gather_snoc (h : ∀ x ∈ items, ∀ e, give x ≠ .error e) (hx : give x = .ok (some (name, a))) :
    gather give (items ++ [x]) = .ok (Node.insertEntry name a (putAll give [] items)) := by
  have hall : ∀ y ∈ items ++ [x], ∀ e, give y ≠ .error e := by
    intro y hy e he
    rcases List.mem_append.1 hy with hy | hy
    · exact h y hy e he
    · rw [List.mem_singleton.1 hy, hx] at he
      cases he
  rw [gather_ok hall, putAll, List.foldl_append, List.foldl_cons, List.foldl_nil, put, hx]
  rfl

/-- The order of the items does not show: there is one error at most, and if there is none, then no two different
entries with one name. -/
structure Uniform (give : Giving ε β α) (items : List β) : Prop where
  errors : ∀ x ∈ items, ∀ y ∈ items, ∀ e e', give x = .error e → give y = .error e' → e = e'
  entries : (∃ x ∈ items, ∃ e, give x = .error e) ∨
    ∀ x ∈ items, ∀ y ∈ items, ∀ name a b, give x = .ok (some (name, a)) → give y = .ok (some (name, b)) → a = b

theorem gather_perm (h : Uniform give items) (hp : others.Perm items) : gather give others = gather give items := by
  by_cases herror : ∃ x ∈ items, ∃ e, give x = .error e
  · obtain ⟨x, hx, e, he⟩ := herror
    have hone : ∀ y ∈ items, ∀ e', give y = .error e' → e' = e := fun y hy e' he' => h.errors y hy x hx e' e he' he
    rw [gather_error hx he hone, gather_error (hp.mem_iff.2 hx) he fun y hy => hone y (hp.mem_iff.1 hy)]
  · have hno : ∀ x ∈ items, ∀ e, give x ≠ .error e := fun x hx e he => herror ⟨x, hx, e, he⟩
    have hentries := h.entries.resolve_left herror
    rw [gather_ok hno, gather_ok fun x hx => hno x (hp.mem_iff.1 hx), putAll, putAll]
    refine congrArg _ (hp.foldl_eq' (fun x hx y hy l => ?_) [])
    cases hgx : give x with
    | error e => exact absurd hgx (hno x (hp.mem_iff.1 hx) e)
    | ok found? =>
      cases hgy : give y with
      | error e => exact absurd hgy (hno y (hp.mem_iff.1 hy) e)
      | ok found'? =>
        cases found? <;> cases found'?
        case some.some e e' =>
          simp only [put, hgx, hgy, Except.map, Except.toOption, Option.getD_some, Option.elim_some]
          refine insertEntry_comm fun hname => ?_
          exact (hentries x (hp.mem_iff.1 hx) y (hp.mem_iff.1 hy) e.1 e.2 e'.2 hgx (by rw [hgy, ← hname])).symm
        all_goals simp [put, hgx, hgy, Except.map, Except.toOption]

theorem exists_perm_snoc (h : x ∈ items) : ∃ w, (w ++ [x]).Perm items := by
  obtain ⟨u, v, rfl⟩ := List.append_of_mem h
  exact ⟨u ++ v, (List.perm_append_singleton x (u ++ v)).trans List.perm_middle.symm⟩

theorem exists_perm_cons (h : x ∈ items) : ∃ w, (x :: w).Perm items := by
  obtain ⟨u, v, rfl⟩ := List.append_of_mem h
  exact ⟨u ++ v, List.perm_middle.symm⟩

end LivePreview.Surface
