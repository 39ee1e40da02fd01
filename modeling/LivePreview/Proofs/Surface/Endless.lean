import LivePreview.Proofs.Surface.Depth
import LivePreview.Proofs.Surface.Keyed
import Mathlib.Logic.Relation

/-! **A pass that goes round in a circle fails.**

From an element or a list a pass comes to what is in it. Where it comes to values that always lead to one another, it
goes on until the levels are used up, unless it fails before (`fails_of_bound`): then what it came from fails too, up to
the root. A cycle of the heap is such values as long as it stays. A component that is called on the way may cut it, and
then the pass can end well. -/
namespace LivePreview.Surface
open Script Pass Relation
variable {invoke : Invoke} {s t : Stop} {K : Set Value}

/-! ### Failing along the way -/

/-- What is rendered from there. -/
def Stop.render (invoke : Invoke) (s : Stop) : EStateM.Result RenderError Machine (List Node × Array Value) :=
  value invoke s.left s.what s.path s.handlers s.machine

def Fails (invoke : Invoke) (s : Stop) : Prop := ∃ e n, s.render invoke = .error e n

section Along
variable {left place index : Nat} {what : Value} {path : String} {handlers given : Array Value} {m n : Machine}

/-- Where a list fails behind its first items, it fails. -/
theorem fails_behind (more : Nat) (list : list? m what = some place)
    (behind : behind? (value invoke left) place path handlers m index = some (given, n))
    (count : index + more = span m place)
    (h : ∃ e l, each (value invoke left) place path more index given n = .error e l) :
    Fails invoke ⟨left + 1, what, path, handlers, m⟩ := by
  obtain ⟨e, l, h⟩ := h
  obtain ⟨nodes, hn⟩ := each_behind behind
  refine ⟨e, l, (value_list list).trans ?_⟩
  rw [← count, hn]
  exact bind_of_error h

/-- Where items are, a list is gone along or fails. -/
theorem fails_or_behind (list : list? m what = some place)
    (stays : ∀ i < index, i ≤ span m place → ∀ given n,
      behind? (value invoke left) place path handlers m i = some (given, n) →
        ∃ child, (n.tables.getD place {}).item? i = some child) :
    Fails invoke ⟨left + 1, what, path, handlers, m⟩ ∨ index ≤ span m place ∧
      ∃ given n, behind? (value invoke left) place path handlers m index = some (given, n) := by
  induction index with
  | zero => exact .inr ⟨Nat.zero_le _, handlers, m, rfl⟩
  | succ index ih =>
    rcases ih fun i hi => stays i (Nat.lt_succ_of_lt hi) with h | ⟨hspan, given, n, behind⟩
    · exact .inl h
    · obtain ⟨child, there⟩ := stays index (Nat.lt_succ_self index) hspan given n behind
      rcases Nat.lt_or_eq_of_le hspan with hlt | heq
      · obtain ⟨more, hm⟩ := Nat.exists_eq_add_of_lt hlt
        cases hr : inPlace (value invoke left) path index child given n with
        | ok r l => exact .inr ⟨hlt, r.2, l, behind?_succ.2 ⟨given, n, child, r.1, behind, there, hr⟩⟩
        | error e l =>
          refine .inl <| fails_behind (more + 1) list behind (by omega) ⟨e, l, ?_⟩
          rw [each_some there]
          exact bind_of_error hr
      · exact .inl <| fails_behind 0 list behind heq ⟨_, n, each_over there⟩

end Along

/-- What a pass comes to next fails only with what it comes from. -/
theorem fails_next (next : Next invoke s t) (h : Fails invoke t) : Fails invoke s := by
  obtain ⟨e, l, h⟩ := h
  unfold Stop.render at h
  unfold Fails Stop.render
  cases next with
  | fragment element named =>
    dsimp only at h ⊢
    rw [value_named _ _ _ _ element, tagged, if_pos (by rw [named]; rfl)]
    exact ⟨e, l, h⟩
  | tag element named opened =>
    dsimp only at h ⊢
    obtain ⟨⟨r, given⟩, k, hr, hd⟩ := bind_ok opened
    rw [value_named _ _ _ _ element, tagged, if_neg (by simpa using named), run_after hr, run_after hd]
    exact ⟨e, l, bind_of_error h⟩
  | body element called =>
    dsimp only at h ⊢
    rw [value_component element, Pass.component]
    exact ⟨e, l, (run_after called).trans h⟩
  | item list within behind there key =>
    obtain ⟨more, hm⟩ := Nat.exists_eq_add_of_lt within
    refine fails_behind (more + 1) list behind (by omega) ?_
    rw [each_some there]
    exact ⟨e, l, bind_of_error ((run_after key).trans h)⟩

theorem fails_of_left (h : s.left = 0) : Fails invoke s := by
  unfold Fails Stop.render
  rw [h]
  exact ⟨_, _, rfl⟩

/-! ### Values that lead to one another -/

/-- What a pass comes to next is among these values: the children of an element, one of the items of a list when its
turn comes, whatever the instance of a component gives. -/
inductive Bound (invoke : Invoke) (K : Set Value) (s : Stop) : Prop
  | children {tag : ByteArray} {own? : Option Nat} (element : element? s.machine s.what = some (.str tag, own?))
      (inside : (tableAt s.machine own?).getName "children" ∈ K)
  | item {place index : Nat} (list : list? s.machine s.what = some place)
      (stays : ∀ i ≤ index, i ≤ span s.machine place → ∀ given n,
        behind? (value invoke (s.left - 1)) place s.path s.handlers s.machine i = some (given, n) →
          ∃ v, (n.tables.getD place {}).item? i = some v ∧ (i = index → v ∈ K))
  | body {f : Nat} {own? : Option Nat} (element : element? s.machine s.what = some (.func f, own?))
      (inside : ∀ v given n, callBody invoke (instanceKey s.path f) f (own?.elim .nil .table) s.handlers s.machine =
        .ok (v, given) n → v ∈ K)

/-- The pass fails there or comes to one of the values. -/
theorem fails_or_next (h : Bound invoke K s) :
    Fails invoke s ∨ ∃ t, Next invoke s t ∧ t.what ∈ K ∧ t.left < s.left := by
  obtain ⟨left, what, path, handlers, m⟩ := s
  cases left with
  | zero => exact .inl (fails_of_left rfl)
  | succ left =>
    cases h with
    | @children tag own? element inside =>
      by_cases named : Text.decodeLossy tag = Element.fragment
      · exact .inr ⟨_, .fragment element named, inside, Nat.lt_succ_self left⟩
      · cases hr : readProps (tableAt m own?).entries [] [] handlers m with
        | ok r n => exact .inr ⟨_, .tag element named (run_after hr), inside, Nat.lt_succ_self left⟩
        | error e n =>
          have hv := value_named invoke left path handlers element
          rw [tagged, if_neg (by simpa using named)] at hv
          exact .inl ⟨e, n, hv.trans (bind_of_error hr)⟩
    | @item place index list stays =>
      dsimp only [Nat.add_sub_cancel] at list stays
      rcases fails_or_behind list fun i hi hspan given n behind =>
        (stays i (Nat.le_of_lt hi) hspan given n behind).imp fun _ => And.left with h | ⟨hspan, given, n, behind⟩
      · exact .inl h
      · obtain ⟨v, there, hv⟩ := stays index (Nat.le_refl _) hspan given n behind
        rcases Nat.lt_or_eq_of_le hspan with hlt | heq
        · cases key : keyText? v given n with
          | ok k l =>
            obtain ⟨hg, hl⟩ := keyText?_ok key
            have key : keyText? v given n = .ok (k.1, given) n := by rw [key, ← hg, hl]
            exact .inr ⟨_, .item list hlt behind there key, hv rfl, Nat.lt_succ_self left⟩
          | error e l =>
            obtain ⟨more, hm⟩ := Nat.exists_eq_add_of_lt hlt
            refine .inl <| fails_behind (more + 1) list behind (by omega) ⟨e, l, ?_⟩
            rw [each_some there]
            exact bind_of_error (bind_of_error key)
        · exact .inl <| fails_behind 0 list behind heq ⟨_, n, each_over there⟩
    | @body f own? element inside =>
      cases left with
      | zero => exact .inl ⟨_, m, (value_component element).trans rfl⟩
      | succ left =>
        cases called : callBody invoke (instanceKey path f) f (own?.elim .nil .table) handlers m with
        | ok r n => exact .inr ⟨_, .body element called, inside _ _ _ called, Nat.lt_add_of_pos_right Nat.two_pos⟩
        | error e n => exact .inl ⟨e, n, (value_component element).trans (bind_of_error called)⟩

/-- **A pass that only comes from these values to these values fails.** -/
theorem fails_of_bound (inside : s.what ∈ K)
    (bound : ∀ t, ReflTransGen (Next invoke) s t → t.what ∈ K → Bound invoke K t) : Fails invoke s := by
  induction hl : s.left using Nat.strongRecOn generalizing s with
  | ind left ih =>
    rcases fails_or_next (bound s .refl inside) with h | ⟨t, next, ht, hlt⟩
    · exact h
    · exact fails_next next (ih t.left (hl ▸ hlt) ht (fun u hu => bound u (.head next hu)) rfl)

section Root
variable {render props : Value} {handlers : Array Value} {m : Machine}

/-- Only a function is rendered as a component. -/
theorem func_of_comes (comes : Comes invoke render props handlers m s) : ∃ f, render = .func f := by
  induction comes with
  | first root => exact ⟨_, root⟩
  | next _ _ ih => exact ih

/-- **A pass fails wherever it comes to something that fails.** -/
theorem root_fails (comes : Comes invoke render props handlers m s) (h : Fails invoke s) :
    ∃ e n, root invoke render props handlers m = .error e n := by
  induction comes with
  | first root called =>
    obtain ⟨e, n, h⟩ := h
    subst root
    exact ⟨e, n, (run_after called).trans h⟩
  | next _ next ih => exact ih (fails_next next h)

end Root

/-! ### Where a pass leaves off -/

section Along
variable {left place index more : Nat} {what : Value} {path : String} {handlers given : Array Value} {m n : Machine}
  {nodes : List Node}

/-- A list that ends well is gone along to some index. -/
theorem behind_of_each (behind : behind? (value invoke left) place path handlers m index = some (given, n))
    {after : Array Value} {l : Machine}
    (h : each (value invoke left) place path more index given n = .ok (nodes, after) l) :
    ∃ last ≤ index + more, behind? (value invoke left) place path handlers m last = some (after, l) := by
  induction more generalizing index given n nodes with
  | zero =>
    cases hc : (n.tables.getD place {}).item? index with
    | none =>
      cases (each_none hc).symm.trans h
      exact ⟨index, Nat.le_refl _, behind⟩
    | some child => exact nomatch (each_over hc).symm.trans h
  | succ more ih =>
    cases hc : (n.tables.getD place {}).item? index with
    | none =>
      cases (each_none hc).symm.trans h
      exact ⟨index, Nat.le_add_right .., behind⟩
    | some child =>
      obtain ⟨⟨first, _⟩, k, hf, h⟩ := bind_ok ((each_some hc).symm.trans h)
      obtain ⟨⟨rest, _⟩, _, hr, h⟩ := bind_ok h
      cases h
      obtain ⟨last, hl, hb⟩ := ih (behind?_succ.2 ⟨given, n, child, first, behind, hc, hf⟩) hr
      exact ⟨last, by omega, hb⟩

/-- When the first items of a list are rendered, things stand as at some value that the pass has come to, if that is so
of what is below. -/
theorem left_off_behind
    (hv : ∀ {child path g k nodes after l}, value invoke left child path g k = .ok (nodes, after) l →
      ∃ t, ReflTransGen (Next invoke) ⟨left, child, path, g, k⟩ t ∧ t.machine = l)
    (list : list? m what = some place) (hspan : index ≤ span m place)
    (behind : behind? (value invoke left) place path handlers m index = some (given, n)) :
    ∃ t, ReflTransGen (Next invoke) ⟨left + 1, what, path, handlers, m⟩ t ∧ t.machine = n := by
  cases index with
  | zero =>
    cases behind
    exact ⟨_, .refl, rfl⟩
  | succ index =>
    obtain ⟨g, k, child, nodes, hb, hc, hr⟩ := behind?_succ.1 behind
    obtain ⟨⟨key?, _⟩, _, hk, hvalue⟩ := bind_ok hr
    obtain ⟨rfl, rfl⟩ := keyText?_ok hk
    obtain ⟨t, ht, hm⟩ := hv hvalue
    exact ⟨t, .head (.item list hspan hb hc hk) ht, hm⟩

/-- A value that is neither an element nor a list leaves things as they are. -/
theorem still_of_leaf (element : element? m what = none) (list : list? m what = none)
    (h : value invoke (left + 1) what path handlers m = .ok (nodes, given) n) : n = m := by
  rw [value_succ] at h
  unfold valueBy at h
  cases what
  case nil | bool | null =>
    cases h
    rfl
  case table place =>
    dsimp only at h
    rw [run_after (p := ofRun (Run.readTable place)) rfl] at h
    cases hm : Element.isElement (m.tables.getD place {}) with
    | true =>
      rw [hm, if_pos rfl] at h
      obtain ⟨⟨own?, _⟩, _, ho, -⟩ := bind_ok h
      rw [element?_of_props? hm ho] at element
      exact nomatch element
    | false =>
      have hc : ((m.tables.getD place {}).length == 0 && !(m.tables.getD place {}).entries.isEmpty) = true := by
        unfold list? at list
        dsimp only at list
        rw [hm, Bool.false_or] at list
        split at list
        · assumption
        · exact nomatch list
      rw [hm, if_neg Bool.false_ne_true, if_pos hc] at h
      exact nomatch h
  all_goals
    dsimp only at h
    generalize plainText? _ = text? at h
    cases text? with
    | some text =>
      cases h
      rfl
    | none => exact nomatch h

/-- **Where a pass leaves off, things stand as at some value that it has come to.** -/
theorem left_off {s : Stop} (h : s.render invoke = .ok (nodes, given) n) :
    ∃ t, ReflTransGen (Next invoke) s t ∧ t.machine = n := by
  obtain ⟨left, what, path, handlers, m⟩ := s
  unfold Stop.render at h
  dsimp only at h
  induction left using Nat.strongRecOn generalizing what path handlers m nodes given n with
  | ind left ih =>
    cases left with
    | zero => exact nomatch h
    | succ left =>
      have below {child path g k nodes after l} (h : value invoke left child path g k = .ok (nodes, after) l) :=
        ih left (Nat.lt_succ_self left) _ _ _ _ h
      cases element : element? m what with
      | none =>
        cases list : list? m what with
        | none => exact ⟨_, .refl, (still_of_leaf element list h).symm⟩
        | some place =>
          obtain ⟨last, hl, hb⟩ := behind_of_each behind?_zero ((value_list list).symm.trans h)
          exact left_off_behind below list (by omega) hb
      | some r =>
        obtain ⟨kind, own?⟩ := r
        cases kind
        case str tag =>
          rw [value_named _ _ _ _ element, tagged] at h
          by_cases named : Text.decodeLossy tag = Element.fragment
          · rw [if_pos (by rw [named]; rfl)] at h
            obtain ⟨t, ht, hm⟩ := below h
            exact ⟨t, .head (.fragment element named) ht, hm⟩
          · rw [if_neg (by simpa using named)] at h
            obtain ⟨r, given, k, hr, h⟩ := of_run_bind h
            obtain ⟨ids, given, l, hd, h⟩ := of_run_bind h
            obtain ⟨inner, _, _, hv, h⟩ := of_run_bind h
            cases h
            obtain ⟨t, ht, hm⟩ := below hv
            exact ⟨t, .head (.tag element named ((run_after hr).trans hd)) ht, hm⟩
        case func f =>
          rw [value_component element] at h
          cases left with
          | zero => exact nomatch h
          | succ left =>
            obtain ⟨⟨v, given⟩, k, called, h⟩ := bind_ok h
            obtain ⟨t, ht, hm⟩ := ih left (by omega) _ _ _ _ h
            exact ⟨t, .head (.body element called) ht, hm⟩
        all_goals
          obtain ⟨t, hk, hp, hv⟩ := value_element element
          rw [hv] at h
          unfold elementBy at h
          rw [run_after hp, hk] at h
          exact nomatch h

theorem left_off_here (list : list? s.machine s.what = some place) (hspan : index ≤ span s.machine place)
    (behind : behind? (value invoke (s.left - 1)) place s.path s.handlers s.machine index = some (given, n)) :
    ∃ t, ReflTransGen (Next invoke) s t ∧ t.machine = n := by
  obtain ⟨left, what, path, handlers, m⟩ := s
  cases left with
  | succ left => exact left_off_behind (fun h => left_off (s := ⟨left, _, _, _, _⟩) h) list hspan behind
  | zero =>
    cases index with
    | zero =>
      cases behind
      exact ⟨_, .refl, rfl⟩
    | succ index =>
      obtain ⟨g, k, child, nodes, -, -, hr⟩ := behind?_succ.1 behind
      obtain ⟨_, _, -, hr⟩ := bind_ok hr
      exact nomatch hr

end Along

/-! ### Cycles of the heap -/

/-- In the heap one value leads to another: an element to its children, a list to what is at an index of it. -/
inductive Edge (m : Machine) (v : Value) : Option Nat → Value → Prop
  | children {tag : ByteArray} {own? : Option Nat} (element : element? m v = some (.str tag, own?)) :
    Edge m v none ((tableAt m own?).getName "children")
  | item {place index : Nat} {w : Value} (list : list? m v = some place)
    (there : (m.tables.getD place {}).sequence[index]? = some w) : Edge m v (some index) w

/-- In the heap one value leads to another somehow. -/
def Leads (m : Machine) (v w : Value) : Prop := ∃ place?, Edge m v place? w

/-- The values on the cycles through a value, itself among them. -/
def circle (m : Machine) (v : Value) : Set Value := {w | ReflTransGen (Leads m) v w ∧ ReflTransGen (Leads m) w v}

/-- From there on, wherever the pass comes to, the cycles through the value are as they were. -/
def Uncut (invoke : Invoke) (s : Stop) : Prop :=
  ∀ t, ReflTransGen (Next invoke) s t → ∀ v ∈ circle s.machine s.what, ∀ w ∈ circle s.machine s.what, ∀ place?,
    Edge s.machine v place? w → Edge t.machine v place? w

theorem bound_of_edge {w : Value} {place? : Option Nat}
    (stays : ∀ u, ReflTransGen (Next invoke) t u → Edge u.machine t.what place? w) (hw : w ∈ K) : Bound invoke K t := by
  have edge := stays t .refl
  cases edge with
  | children element => exact .children element hw
  | @item place index w list there =>
    have at_place {u : Stop} (h : ReflTransGen (Next invoke) t u) :
        (u.machine.tables.getD place {}).sequence[index]? = some w := by
      cases stays u h with
      | item list' there' =>
        obtain rfl : _ = place := Value.table.inj ((of_list? list').1.symm.trans (of_list? list).1)
        exact there'
    refine .item list fun i (hi : i ≤ index) hspan given n behind => ?_
    obtain ⟨u, hu, hm⟩ := left_off_here list hspan behind
    obtain ⟨v, hv, hw'⟩ := Table.item?_of_sequence (at_place hu) hi
    exact ⟨v, hm ▸ hv, fun he => hw' he ▸ hw⟩

/-- **A cycle that stays is not got through.** -/
theorem fails_of_cycle (cycle : TransGen (Leads s.machine) s.what s.what) (uncut : Uncut invoke s) :
    Fails invoke s := by
  refine fails_of_bound (K := circle s.machine s.what) ⟨.refl, .refl⟩ fun t ht hmem => ?_
  -- some edge of the cycles leaves the value that the pass has come to
  obtain ⟨w, ⟨place?, edge⟩, back⟩ := TransGen.head'_iff.1 (cycle.trans_right hmem.2)
  have hw : w ∈ circle s.machine s.what := ⟨hmem.1.tail ⟨place?, edge⟩, back⟩
  exact bound_of_edge (fun u hu => uncut u (ht.trans hu) _ hmem w hw place? edge) hw

/-! ### A pass ends -/

/-- **Every pass ends.** Within an allowance its recursion, which nothing bounds but the depth, is settled when it has
been unfolded often enough, whatever stands for the calls beyond, and the pass gives the same unless its time is over.
The recursion never goes deeper than it may, and nodes have no more levels than that. Where a pass comes to values that
lead to one another, or to a cycle that stays, it fails. -/
theorem pass_ends (invoke : Invoke) :
    (Paid invoke → ∀ f props handlers m, m.steps.isSome → ∃ result,
      Unfolds invoke (fun r => r.component 0 f props "root") handlers m result ∧
      (root invoke (.func f) props handlers m = result ∨ Late (root invoke (.func f) props handlers m)) ∧
      ∀ nodes given n, result = .ok (nodes, given) n → levelsAll nodes ≤ maxDepth) ∧
    (∀ r s count, Recursion.Agree r s →
      Recursion.Agree ((Recursion.step invoke)^[count] r) ((Recursion.step invoke)^[count] s)) ∧
    (∀ render props handlers m nodes given n,
      root invoke render props handlers m = .ok (nodes, given) n → levelsAll nodes ≤ maxDepth) ∧
    ∀ render props handlers m s, Comes invoke render props handlers m s →
      ((∃ K, s.what ∈ K ∧ ∀ t, ReflTransGen (Next invoke) s t → t.what ∈ K → Bound invoke K t) ∨
        TransGen (Leads s.machine) s.what s.what ∧ Uncut invoke s) →
      ∃ e n, root invoke render props handlers m = .error e n := by
  refine ⟨fun paid f props handlers m hm => ?_, fun r s count h => h.iterate count, ?_, ?_⟩
  · obtain ⟨result, h⟩ := (ends_root paid f props).result handlers m hm
    exact ⟨result, h.unfolds, h.same, fun nodes given n hr => within_of_unfolds (hr ▸ h.unfolds)⟩
  · intro render props handlers m nodes given n h
    cases render
    case func f => exact ((within_component_value invoke (maxDepth + 1)).1 f props "root").result h
    all_goals exact nomatch h
  · intro render props handlers m s comes h
    refine root_fails comes ?_
    rcases h with ⟨K, inside, bound⟩ | ⟨cycle, uncut⟩
    · exact fails_of_bound inside bound
    · exact fails_of_cycle cycle uncut

/-! ### A list in itself -/

/-- Whether these are the same table. -/
def sameTable : Value → Value → Bool
  | .table i, .table j => i == j
  | _, _ => false

theorem eq_of_sameTable {v w : Value} (h : sameTable v w = true) : v = w := by
  cases v <;> cases w <;> first | exact congrArg Value.table (beq_iff_eq.1 h) | cases h

section Loop
variable {left place : Nat} {what : Value} {path : String} {handlers given : Array Value} {m : Machine}

/-- A list that is its first item is not got through. -/
theorem loop_fails (list : list? m what = some place) (first : (m.tables.getD place {}).item? 0 = some what) :
    Fails invoke ⟨left, what, path, handlers, m⟩ := by
  induction left generalizing path with
  | zero => exact fails_of_left rfl
  | succ left ih =>
    refine fails_behind _ list behind?_zero (Nat.zero_add _) ?_
    obtain ⟨more, hm⟩ : ∃ more, span m place = more + 1 :=
      Nat.exists_eq_add_one.2 (Nat.lt_of_lt_of_le (Table.lt_of_item? first) (Nat.le_add_right ..))
    rw [hm, each_some first]
    cases key : keyText? what handlers m with
    | error e l => exact ⟨e, l, bind_of_error (bind_of_error key)⟩
    | ok r l =>
      obtain ⟨hg, hl⟩ := keyText?_ok key
      obtain ⟨e, k, h⟩ := @ih (childPath path 0 r.1)
      exact ⟨e, k, bind_of_error ((run_after (key.trans (by rw [← hg, hl]))).trans h)⟩

/-- Where something stands before the next item, the first one has been rendered. -/
theorem first_of_behind {value : Value → String → Pass (List Node)} {index : Nat} {n : Machine}
    (behind : behind? value place path handlers m (index + 1) = some (given, n)) :
    ∃ child r l, (m.tables.getD place {}).item? 0 = some child ∧ inPlace value path 0 child handlers m = .ok r l := by
  induction index generalizing given n with
  | zero =>
    obtain ⟨g, k, child, nodes, hb, hc, hr⟩ := behind?_succ.1 behind
    cases hb
    exact ⟨child, _, n, hc, hr⟩
  | succ index ih =>
    obtain ⟨g, k, child, nodes, hb, -, -⟩ := behind?_succ.1 behind
    exact ih hb

/-- A list that is its first item is come to again and again, and nothing happens. -/
theorem stays_of_first_item (list : list? s.machine s.what = some place)
    (first : (s.machine.tables.getD place {}).item? 0 = some s.what) (h : ReflTransGen (Next invoke) s t) :
    t.what = s.what ∧ t.machine = s.machine := by
  have named {kind : Value} {own? : Option Nat} : element? s.machine s.what ≠ some (kind, own?) := by
    intro he
    obtain ⟨place, hw, hm, -⟩ := of_element? he
    obtain ⟨hw', hm', -⟩ := of_list? list
    cases hw.symm.trans hw'
    exact Bool.false_ne_true (hm'.symm.trans hm)
  induction h with
  | refl => exact ⟨rfl, rfl⟩
  | tail _ next ih =>
    obtain ⟨hw, hm⟩ := ih
    rw [← hw, ← hm] at list first named
    cases next with
    | fragment element => exact absurd element named
    | tag element => exact absurd element named
    | body element => exact absurd element named
    | @item _ _ _ _ _ index _ _ _ _ _ list' _ behind there _ =>
      obtain ⟨hw', -, -⟩ := of_list? list
      obtain ⟨hw'', -, -⟩ := of_list? list'
      obtain rfl := Value.table.inj (hw'.symm.trans hw'')
      cases index with
      | zero =>
        cases behind
        cases first.symm.trans there
        exact ⟨hw, hm⟩
      | succ index =>
        obtain ⟨child, r, l, hc, hr⟩ := first_of_behind behind
        cases first.symm.trans hc
        obtain ⟨⟨key?, _⟩, _, hk, hvalue⟩ := bind_ok hr
        obtain ⟨rfl, rfl⟩ := keyText?_ok hk
        obtain ⟨e, k, he⟩ := loop_fails list first
        exact nomatch he.symm.trans hvalue

end Loop

/-- A component that gives a paragraph with a list in itself. -/
def loopRow : Component :=
  ((Component.attempt { instruments := true } {} ("function Row()\n  local list = \x7b\x7d\n  list[1] = list\n" ++
    "  return React.createElement('p', nil, list)\nend") "Row").component?).getD default

/-- Whether a list is its first item. -/
def loops (s : Stop) : Bool :=
  match list? s.machine s.what with
  | some place => ((s.machine.tables.getD place {}).sequence[0]?).any (sameTable s.what)
  | none => false

/-- A component of which a run is under way. -/
def underWay (c : Component) : Component := { c with machine := { c.machine with steps := some c.machine.allowance } }

theorem comes_underWay {c : Component} {j : Json} {props : Value} {m : Machine}
    (h : row? (underWay c) j = some (props, m, s)) : Comes Script.invoke c.render props #[] m s :=
  comes_of_row? (c := underWay c) h

set_option maxRecDepth 100000 in
theorem loops_loopRow : (row? (underWay loopRow) (.obj [])).any (fun r =>
    loops r.2.2 && r.2.1.steps.isSome) = true := by decide +kernel

theorem pass_ends_loop : ∃ f props m s, loopRow.render = .func f ∧ m.steps.isSome ∧
    (∃ result, Unfolds Script.invoke (fun r => r.component 0 f props "root") #[] m result ∧
      (root Script.invoke (.func f) props #[] m = result ∨ Late (root Script.invoke (.func f) props #[] m))) ∧
    Comes Script.invoke loopRow.render props #[] m s ∧
    TransGen (Leads s.machine) s.what s.what ∧ Uncut Script.invoke s ∧
    ∃ e n, root Script.invoke loopRow.render props #[] m = .error e n := by
  obtain ⟨⟨props, m, s⟩, hr, h⟩ := (Option.any_eq_true ..).1 loops_loopRow
  obtain ⟨hs, hm⟩ := (Bool.and_eq_true_iff).1 h
  have comes : Comes Script.invoke loopRow.render props #[] m s := comes_underWay hr
  obtain ⟨f, hf⟩ := func_of_comes comes
  obtain ⟨place, list, there⟩ : ∃ place, list? s.machine s.what = some place ∧
      (s.machine.tables.getD place {}).sequence[0]? = some s.what := by
    unfold loops at hs
    dsimp only at hs
    split at hs
    · rename_i place hl
      obtain ⟨v, hv, hsame⟩ := (Option.any_eq_true ..).1 hs
      exact ⟨place, hl, eq_of_sameTable hsame ▸ hv⟩
    · exact nomatch hs
  obtain ⟨_, first, hv⟩ := Table.item?_of_sequence there (Nat.le_refl 0)
  cases hv rfl
  have cycle : TransGen (Leads s.machine) s.what s.what := .single ⟨some 0, .item list there⟩
  have uncut : Uncut Script.invoke s := fun t ht v _ w _ place? edge =>
    (stays_of_first_item list first ht).2 ▸ edge
  obtain ⟨ends, -, -, fails⟩ := pass_ends Script.invoke
  obtain ⟨result, unfolds, same, -⟩ := ends paid_invoke f props #[] m hm
  exact ⟨f, props, m, s, hf, hm, ⟨result, unfolds, same⟩, comes, cycle, uncut,
    fails _ _ _ _ _ comes (.inr ⟨cycle, uncut⟩)⟩

/-! ### A cycle that is cut -/

/-- A component whose children are a component and an element with the same children. When the component is called for
the second time it takes them from the element. -/
def cutRow : Component :=
  ((Component.attempt { instruments := true } {} ("local h = React.createElement\nlocal inner\nlocal calls = 0\n" ++
    "function Cut()\n  calls = calls + 1\n  if calls == 2 then inner.props.children = nil end\n  return 'c'\nend\n" ++
    "function Row()\n  local row = h('div', nil, h(Cut), h('i'))\n  inner = row.props.children[2]\n" ++
    "  inner.props.children = row.props.children\n  return row\nend") "Row").component?).getD default

/-- Whether an item of a list is an element that has the list as its children. -/
def circles (s : Stop) : Bool :=
  match list? s.machine s.what with
  | some place => (s.machine.tables.getD place {}).sequence.any fun v =>
    match element? s.machine v with
    | some (.str _, own?) => sameTable ((tableAt s.machine own?).getName "children") s.what
    | _ => false
  | none => false

theorem cycle_of_circles (h : circles s = true) : TransGen (Leads s.machine) s.what s.what := by
  unfold circles at h
  split at h
  · rename_i place list
    obtain ⟨v, hv, he⟩ := List.any_eq_true.1 h
    obtain ⟨index, hi⟩ := List.mem_iff_getElem?.1 hv
    split at he
    · rename_i tag own? element
      have back : Edge s.machine v none s.what := eq_of_sameTable he ▸ .children element
      exact .tail (.single ⟨_, .item list hi⟩) ⟨_, back⟩
    · exact nomatch he
  · exact nomatch h

/-- Whether a part of a pass ends well. -/
def endsWell : EStateM.Result RenderError Machine (List Node × Array Value) → Bool
  | .ok _ _ => true
  | .error _ _ => false

set_option maxRecDepth 100000 in
theorem circles_cutRow : (row? (underWay cutRow) (.obj [])).any (fun r =>
    circles r.2.2 && endsWell (root Script.invoke cutRow.render r.1 #[] r.2.1)) = true := by decide +kernel

/-- It is not so that a pass always fails when it comes to a cycle: a component that it calls may cut it. -/
theorem cut_cycle_rendered : ¬ ∀ (render props : Value) (handlers : Array Value) (m : Machine) (s : Stop),
    Comes Script.invoke render props handlers m s → TransGen (Leads s.machine) s.what s.what →
    ∃ e n, root Script.invoke render props handlers m = .error e n := by
  intro h
  obtain ⟨⟨props, m, s⟩, hr, hs⟩ := (Option.any_eq_true ..).1 circles_cutRow
  obtain ⟨hc, hw⟩ := (Bool.and_eq_true_iff).1 hs
  obtain ⟨e, n, he⟩ := h _ _ _ _ _ (comes_underWay hr) (cycle_of_circles hc)
  dsimp only at hw
  rw [he] at hw
  exact nomatch hw

end LivePreview.Surface
