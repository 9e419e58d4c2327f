import PropertyAccess.Path.Segment

/-! Paths with keys left out, under which a converter registered for a whole
collection is found from one of its elements, and the test whether a
registered path addresses a collection or one of its elements. -/

namespace PropertyAccess

/-- The ways to keep or drop `n` keys so that at least one is dropped. The
first key is dropped first, alone and then with every choice for the rest. -/
def droppings : Nat → List (List Bool)
  | 0 => []
  | n + 1 =>
    (false :: List.replicate n true) ::
      ((droppings n).map (false :: ·) ++ (droppings n).map (true :: ·))

namespace Segment

def keepKeys : List Bool → List String → List String
  | keep :: marks, key :: keys =>
    if keep then key :: keepKeys marks keys else keepKeys marks keys
  | _, _ => []

/-- Drops keys of successive segments, one mark a key. -/
def keepAll : List Bool → List Segment → List Segment
  | _, [] => []
  | marks, s :: r =>
    { s with keys := keepKeys (marks.take s.keys.length) s.keys } ::
      keepAll (marks.drop s.keys.length) r

end Segment

namespace Path

def keyCount (p : Path) : Nat := p.segments.foldr (fun s count => s.keys.length + count) 0

/-- The canonical texts of the path with one or more keys left out. -/
def stripped (p : Path) : List String :=
  (droppings p.keyCount).map fun marks => joined (Segment.keepAll marks p.segments)

/-- `registered` is `path` itself or `path` with one more key. -/
def addresses (registered path : String) : Bool :=
  path.toList.isPrefixOf registered.toList &&
    match registered.toList.drop path.toList.length with
    | [] => true
    | c :: r => c = '[' && (c :: r).dropWhile (· ≠ ']') = [']']

end Path

end PropertyAccess
