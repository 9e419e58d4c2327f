import PropertyAccess.Graph.Table

/-! The heap: what objects and containers hold now. Locations are numbered in
the order of creation and are never given up. An object has a slot for each of
its fields, by name and in the order of its class; where two slots have one
name the later is the one that the name means.

Whatever reads or changes the graph is a function of the heap that also says
what went wrong; a failure keeps the changes made before it. -/

namespace PropertyAccess

inductive Cell
  | slots (fields : List (String × Value))
  | items (values : List Value)
  | entries (pairs : List (Value × Value))
  deriving DecidableEq

structure Heap where
  cells : Array Cell
  deriving DecidableEq

namespace Heap

def empty : Heap := ⟨#[]⟩

def size (h : Heap) : Nat := h.cells.size

def cell? (h : Heap) (l : Loc) : Option Cell := h.cells[l]?

def alloc (h : Heap) (c : Cell) : Loc × Heap := (h.size, ⟨h.cells.push c⟩)

def put (h : Heap) (l : Loc) (c : Cell) : Heap := ⟨h.cells.setIfInBounds l c⟩

theorem cell?_alloc (h : Heap) (c : Cell) : (h.alloc c).2.cell? (h.alloc c).1 = some c := by
  simp [alloc, cell?, size]

theorem cell?_alloc_of_lt {h : Heap} {l : Loc} (c : Cell) (hl : l < h.size) :
    (h.alloc c).2.cell? l = h.cell? l := by
  simp only [alloc, cell?, Array.getElem?_push]
  exact if_neg (Nat.ne_of_lt hl)

theorem cell?_put {h : Heap} {l m : Loc} {c : Cell} :
    (h.put l c).cell? m = if l = m then (h.cell? m).map fun _ => c else h.cell? m := by
  simp only [put, cell?, Array.getElem?_setIfInBounds]
  split
  · rename_i heq
    subst heq
    split
    · rename_i hs
      simp [Array.getElem?_eq_getElem hs]
    · rename_i hs
      simp [Array.getElem?_eq_none (Nat.le_of_not_lt hs)]
  · rfl

def slots (h : Heap) (l : Loc) : List (String × Value) :=
  match h.cell? l with
  | some (.slots fields) => fields
  | _ => []

def items (h : Heap) (l : Loc) : List Value :=
  match h.cell? l with
  | some (.items values) => values
  | _ => []

def entries (h : Heap) (l : Loc) : List (Value × Value) :=
  match h.cell? l with
  | some (.entries pairs) => pairs
  | _ => []

/-- The place of the last slot of that name. -/
def slotOf? (fields : List (String × Value)) (name : String) : Option Nat :=
  (fields.reverse.findIdx? (·.1 = name)).map fun i => fields.length - 1 - i

def slot? (h : Heap) (l : Loc) (index : Nat) : Option Value :=
  ((h.slots l)[index]?).map (·.2)

def setSlot? (h : Heap) (l : Loc) (index : Nat) (v : Value) : Option Heap :=
  match (h.slots l)[index]? with
  | some (name, _) => some (h.put l (.slots ((h.slots l).set index (name, v))))
  | none => none

def field? (h : Heap) (l : Loc) (name : String) : Option Value :=
  (slotOf? (h.slots l) name).bind (h.slot? l)

def setField? (h : Heap) (l : Loc) (name : String) (v : Value) : Option Heap :=
  (slotOf? (h.slots l) name).bind fun index => h.setSlot? l index v

/-- Replaces the element of an array or list, where there is one. -/
def setItem? (h : Heap) (l : Loc) (index : Nat) (v : Value) : Option Heap :=
  if index < (h.items l).length then some (h.put l (.items ((h.items l).set index v)))
  else none

/-- Changes the elements of an array, a list or a set, where there is one. -/
def editItems (h : Heap) (l : Loc) (f : List Value → List Value) : Heap :=
  match h.cell? l with
  | some (.items values) => h.put l (.items (f values))
  | _ => h

def editEntries (h : Heap) (l : Loc) (f : List (Value × Value) → List (Value × Value)) : Heap :=
  match h.cell? l with
  | some (.entries pairs) => h.put l (.entries (f pairs))
  | _ => h

def appendItems (h : Heap) (l : Loc) (vs : List Value) : Heap := h.editItems l (· ++ vs)

def insertItem (h : Heap) (shape : TableShape) (l : Loc) (v : Value) : Heap :=
  h.editItems l (SetItems.insert shape · v)

def insertEntry (h : Heap) (shape : TableShape) (l : Loc) (key value : Value) : Heap :=
  h.editEntries l (MapEntries.insert shape · key value)

def elements? (h : Heap) : Value → Option (List Value)
  | .array _ l | .list _ l | .set _ l => some (h.items l)
  | _ => none

end Heap

/-- An operation on the graph that yields an `α` or fails with an `ε`. -/
abbrev Run (ε α : Type) := ExceptT ε (StateM Heap) α

namespace Run

variable {ε δ α : Type}

def on (r : Run ε α) (h : Heap) : Except ε α × Heap := (ExceptT.run r).run h

def heap : Run ε Heap := fun h => (.ok h, h)

def lookup (f : Heap → α) : Run ε α := fun h => (.ok (f h), h)

/-- A look at the heap that may end in a failure. -/
def inspect (f : Heap → Except ε α) : Run ε α := fun h => (f h, h)

def update (f : Heap → Heap) : Run ε Unit := fun h => (.ok (), f h)

/-- The outcome itself as the result; only what comes after can fail. -/
def outcome (r : Run ε α) : Run δ (Except ε α) := fun h =>
  let (result, h') := r.on h
  (.ok result, h')

def mapError (f : ε → δ) (r : Run ε α) : Run δ α := fun h =>
  match r.on h with
  | (.ok a, h') => (.ok a, h')
  | (.error e, h') => (.error (f e), h')

def alloc (c : Cell) : Run ε Loc := fun h => (.ok (h.alloc c).1, (h.alloc c).2)

def newArray (elem : Ty) (vs : List Value) : Run ε Value := do
  return .array elem (← alloc (.items vs))

def newList (shape : ListShape) (vs : List Value) : Run ε Value := do
  return .list shape.definite (← alloc (.items vs))

def newSet (shape : TableShape) (vs : List Value) : Run ε Value := do
  return .set shape.definite (← alloc (.items (SetItems.ofList shape.definite vs)))

def newMap (shape : TableShape) (es : List (Value × Value)) : Run ε Value := do
  return .map shape.definite (← alloc (.entries (MapEntries.ofList shape.definite es)))

end Run

end PropertyAccess
