import PropertyAccess.Graph.Value

/-! The contents of sets and maps as lists. A set holds no two equal members
and a map no two equal keys. Hashed and linked shapes keep the order of first
insertion; a sorted shape inserts before the first member that is not less. -/

namespace PropertyAccess

/-- Halves the `size` positions from `base` until one is left, towards the
first that is not `before`. -/
def bisectFrom {α : Type} (before : α → Bool) (xs : Array α) (base size : Nat) : Nat :=
  if size ≤ 1 then
    match xs[base]? with
    | some x => if before x then base + 1 else base
    | none => base
  else
    let middle := base + size / 2
    match xs[middle]? with
    | some x =>
      bisectFrom before xs (if before x then middle else base) (size - size / 2)
    | none => base
termination_by size
decreasing_by omega

/-- The number of members `before` the place looked for, in a list that has these first. -/
def bisect {α : Type} (before : α → Bool) (xs : List α) : Nat :=
  bisectFrom before xs.toArray 0 xs.length

namespace SetItems

def contains (items : List Value) (v : Value) : Bool := items.any (·.same v)

def insert (shape : TableShape) (items : List Value) (v : Value) : List Value :=
  if contains items v then items
  else if shape = .sorted then
    items.insertIdx (bisect (fun x => x.order v == .lt) items) v
  else items ++ [v]

def put (shape : TableShape) (items : List Value) (v : Value) : Bool × List Value :=
  (!contains items v, insert shape items v)

def ofList (shape : TableShape) (vs : List Value) : List Value :=
  vs.foldl (insert shape) []

theorem insert_of_contains {shape : TableShape} {items : List Value} {v : Value}
    (h : contains items v = true) : insert shape items v = items := by
  simp [insert, h]

end SetItems

namespace MapEntries

def get? (entries : List (Value × Value)) (key : Value) : Option Value :=
  (entries.find? (·.1.same key)).map (·.2)

def contains (entries : List (Value × Value)) (key : Value) : Bool :=
  entries.any (·.1.same key)

/-- Puts a value in the place of the first one whose key is equal. -/
def replace (key value : Value) : List (Value × Value) → List (Value × Value)
  | [] => []
  | e :: r => if e.1.same key then (e.1, value) :: r else e :: replace key value r

def insert (shape : TableShape) (entries : List (Value × Value)) (key value : Value) :
    List (Value × Value) :=
  if contains entries key then replace key value entries
  else if shape = .sorted then
    entries.insertIdx (bisect (fun e => e.1.order key == .lt) entries) (key, value)
  else entries ++ [(key, value)]

/-- Inserts an entry, together with the value that it replaces. -/
def put (shape : TableShape) (entries : List (Value × Value)) (key value : Value) :
    Option Value × List (Value × Value) :=
  (get? entries key, insert shape entries key value)

def ofList (shape : TableShape) (es : List (Value × Value)) : List (Value × Value) :=
  es.foldl (fun entries e => insert shape entries e.1 e.2) []

theorem map_fst_replace (key value : Value) (entries : List (Value × Value)) :
    (replace key value entries).map (·.1) = entries.map (·.1) := by
  induction entries with
  | nil => rfl
  | cons e r ih =>
    rw [replace]
    split
    · rfl
    · simp [ih]

end MapEntries

end PropertyAccess
