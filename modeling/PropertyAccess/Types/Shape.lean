/-! Shapes of containers. A declared type may leave the shape open; a container
always has a definite one. Sets and maps have the same choice of shapes. -/

namespace PropertyAccess

inductive ListShape
  | any | vector | linked
  deriving DecidableEq

namespace ListShape

def definite : ListShape → ListShape
  | .any => .vector
  | s => s

/-- A list of shape `other` may stand where this shape is declared. -/
def admits (s other : ListShape) : Bool := s == .any || s == other

def name : ListShape → String
  | .any => "List"
  | .vector => "Vec"
  | .linked => "LinkedList"

def all : List ListShape := [.any, .vector, .linked]

theorem admits_definite (s : ListShape) : s.admits s.definite = true := by
  cases s <;> rfl

end ListShape

inductive TableShape
  | any | hashed | linked | sorted
  deriving DecidableEq

namespace TableShape

def definite : TableShape → TableShape
  | .any => .linked
  | s => s

def admits (s other : TableShape) : Bool := s == .any || s == other

def setName : TableShape → String
  | .any => "Set"
  | .hashed => "HashSet"
  | .linked => "LinkedHashSet"
  | .sorted => "SortedSet"

def mapName : TableShape → String
  | .any => "Map"
  | .hashed => "HashMap"
  | .linked => "LinkedHashMap"
  | .sorted => "SortedMap"

def all : List TableShape := [.any, .hashed, .linked, .sorted]

theorem admits_definite (s : TableShape) : s.admits s.definite = true := by
  cases s <;> rfl

end TableShape

end PropertyAccess
