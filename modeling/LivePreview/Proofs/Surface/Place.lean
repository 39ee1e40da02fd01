import LivePreview.Proofs.Text.Digits
import LivePreview.Surface.Render

/-! The names of places.

A place in the tree is reached by steps: to a child, by its index or its key, and to what an instance renders. Its
name is the texts of the steps one after another, and the key of an instance is the name of its place with its
function. Nothing marks where the key of a child ends. So a key that goes on as a name does (`Extends`) names a place
inside of its sibling, and that is the only way in which two siblings come to give instances the same key
(`siblings_meet_iff`). -/
namespace LivePreview.Surface
open Pass Text

/-- A step down the tree. -/
inductive Step where
  | child (index : Nat) (key? : Option String)
  | inner (place : Nat)

def Step.text : Step → String
  | child index none => "." ++ toString index
  | child _ (some key) => ".#" ++ key
  | inner place => "@" ++ toString place ++ ">"

/-- The steps from a place to one below it. -/
abbrev Route := List Step

def Route.text : Route → String
  | [] => ""
  | step :: route => step.text ++ text route

/-- The second key is the first with steps after it. -/
def Extends (key longer : String) : Prop := ∃ route : Route, longer = key ++ route.text

/-- The key of the instance that a function renders at the end of a route. -/
def Route.key (route : Route) (path : String) (place : Nat) : Hook.Key := instanceKey (path ++ route.text) place

namespace Route
variable {path : String} {i j p q place : Nat} {key? other? : Option String} {route r s : Route} {u t : List Char}

theorem key_nil : key [] path place = instanceKey path place := by simp [key, text]

theorem key_child : key (.child i key? :: route) path place = key route (childPath path i key?) place := by
  cases key? <;> simp [key, text, Step.text, childPath, String.append_assoc]

theorem key_inner : key (.inner p :: route) path place = key route (innerPath (instanceKey path p)) place := by
  simp [key, text, Step.text, innerPath, instanceKey, String.append_assoc]

/-! ### Where names can be cut -/

/-- What stands behind a place in the key of an instance below it. -/
def rest (route : Route) (place : Nat) : List Char := (key route "" place).toList

theorem key_toList : (key route path place).toList = path.toList ++ rest route place := by
  simp [rest, key, instanceKey]

/-- Steps begin with a dot or an at sign, and so does the function of an instance. -/
def Parts (s : List Char) : Prop := ∃ c r, s = c :: r ∧ (c = '.' ∨ c = '@')

theorem Parts.head {c : Char} (h : Parts (c :: t)) : c = '.' ∨ c = '@' := by
  obtain ⟨_, _, ht, hc⟩ := h
  cases ht
  exact hc

theorem Parts.stops (h : Parts t) : Stops t := by
  obtain ⟨c, r, rfl, rfl | rfl⟩ := h <;> exact ⟨_, r, rfl, by decide⟩

theorem rest_nil : rest [] place = '@' :: (toString place).toList := by
  simp [rest, key, text, instanceKey]

theorem rest_index : rest (.child i none :: route) place = '.' :: ((toString i).toList ++ rest route place) := by
  simp [rest, key, text, Step.text, instanceKey]

theorem rest_key {key : String} :
    rest (.child i (some key) :: route) place = '.' :: '#' :: (key.toList ++ rest route place) := by
  simp [rest, Route.key, text, Step.text, instanceKey]

theorem rest_inner :
    rest (.inner p :: route) place = '@' :: ((toString p).toList ++ '>' :: rest route place) := by
  simp [rest, key, text, Step.text, instanceKey]

theorem rest_parts : Parts (rest route place) := by
  match route with
  | [] => exact ⟨_, _, rest_nil, .inr rfl⟩
  | .child _ none :: _ => exact ⟨_, _, rest_index, .inl rfl⟩
  | .child _ (some _) :: _ => exact ⟨_, _, rest_key, .inl rfl⟩
  | .inner _ :: _ => exact ⟨_, _, rest_inner, .inr rfl⟩

/-- **A key that is cut where steps may begin is cut behind steps.** -/
theorem rest_cut (h : rest route place = u ++ t) (ht : Parts t) : ∃ r : Route, u = r.text.toList := by
  induction route generalizing u with
  | nil =>
    cases u with
    | nil => exact ⟨[], rfl⟩
    | cons c u =>
      -- What is left are digits, and none of them is a mark.
      rw [rest_nil, List.cons_append, List.cons.injEq] at h
      cases t with
      | nil => exact nomatch ht
      | cons d t => exact absurd (h.2 ▸ List.mem_append_right u List.mem_cons_self) ht.stops.not_mem
  | cons step route ih =>
    cases u with
    | nil => exact ⟨[], rfl⟩
    | cons c u =>
      match step with
      | .child i none =>
        rw [rest_index, List.cons_append, List.cons.injEq] at h
        obtain ⟨rfl, h⟩ := h
        obtain ⟨v, rfl, hv⟩ := toString_cut h ht.stops
        obtain ⟨r, rfl⟩ := ih hv
        exact ⟨.child i none :: r, by simp [text, Step.text]⟩
      | .child i (some key) =>
        rw [rest_key, List.cons_append, List.cons.injEq] at h
        obtain ⟨rfl, h⟩ := h
        cases u with
        | nil => exact absurd (Parts.head (h.trans (List.nil_append t) ▸ ht)) (by decide)
        | cons d u =>
          -- Behind the mark of a key everything is a key.
          obtain rfl : '#' = d := by simpa using congrArg List.head? h
          exact ⟨[.child i (some (String.ofList u))], by simp [text, Step.text]⟩
      | .inner p =>
        rw [rest_inner, List.cons_append, List.cons.injEq] at h
        obtain ⟨rfl, h⟩ := h
        obtain ⟨v, rfl, hv⟩ := toString_cut h ht.stops
        cases v with
        | nil => exact absurd (Parts.head (hv.trans (List.nil_append t) ▸ ht)) (by decide)
        | cons d v =>
          rw [List.cons_append, List.cons.injEq] at hv
          obtain ⟨rfl, hv⟩ := hv
          obtain ⟨r, rfl⟩ := ih hv
          exact ⟨.inner p :: r, by simp [text, Step.text]⟩

/-! ### Siblings -/

theorem extends_of_append {key longer : String}
    (h : key.toList ++ rest r p = longer.toList ++ rest s q) : Extends key longer ∨ Extends longer key := by
  rcases List.append_eq_append_iff.1 h with ⟨v, hl, hr⟩ | ⟨v, hk, hs⟩
  · obtain ⟨route, rfl⟩ := rest_cut hr rest_parts
    exact .inl ⟨route, String.toList_inj.1 (by simpa using hl)⟩
  · obtain ⟨route, rfl⟩ := rest_cut hs rest_parts
    exact .inr ⟨route, String.toList_inj.1 (by simpa using hk)⟩

/-- Two siblings can give instances below them one key. -/
def Meet (a b : Step) : Prop := ∃ (path : String) (r s : Route) (p q : Nat), key (a :: r) path p = key (b :: s) path q

/-- **Siblings meet when they have keys of which one extends the other**, and only then. -/
theorem siblings_meet_iff (hij : i ≠ j) :
    Meet (.child i key?) (.child j other?) ↔
      ∃ k l, key? = some k ∧ other? = some l ∧ (Extends k l ∨ Extends l k) := by
  constructor
  · rintro ⟨path, r, s, p, q, h⟩
    have h := congrArg String.toList h
    rw [key_toList, key_toList, List.append_cancel_left_eq] at h
    match key?, other? with
    | none, none =>
      rw [rest_index, rest_index, List.cons.injEq] at h
      exact absurd (toString_append_inj h.2 rest_parts.stops rest_parts.stops).1 hij
    | none, some l =>
      rw [rest_index, rest_key, List.cons.injEq] at h
      exact absurd ⟨_, _, h.2, by decide⟩ not_stops
    | some k, none =>
      rw [rest_key, rest_index, List.cons.injEq] at h
      exact absurd ⟨_, _, h.2.symm, by decide⟩ not_stops
    | some k, some l =>
      rw [rest_key, rest_key, List.cons.injEq, List.cons.injEq] at h
      exact ⟨k, l, rfl, rfl, extends_of_append h.2.2⟩
  · rintro ⟨k, l, rfl, rfl, ⟨route, rfl⟩ | ⟨route, rfl⟩⟩
    · exact ⟨"", route, [], 0, 0, by simp [key, text, Step.text, String.append_assoc]⟩
    · exact ⟨"", [], route, 0, 0, by simp [key, text, Step.text, String.append_assoc]⟩

end Route
end LivePreview.Surface
