/-! Property paths as data. A path is a list of segments; a segment is a
property name followed by the keys that select an element of its value, from
the outermost container inwards. The canonical text of a path puts a backslash
before the four characters of a name that would end it, and puts quotes around
a key only where its own brackets would not show where it ends. -/

namespace PropertyAccess

structure Segment where
  name : String
  keys : List String
  deriving DecidableEq

namespace Segment

/-- The characters of a name that are written with a backslash in front. -/
def special (c : Char) : Bool :=
  c = '.' || c = '[' || c = ']' || c = '\\'

def escape : List Char → List Char
  | [] => []
  | c :: r => if special c then '\\' :: c :: escape r else c :: escape r

/-- Every bracket of the text is matched, given `depth` brackets open before it. -/
def balanced : Nat → List Char → Bool
  | depth, [] => depth == 0
  | depth, c :: r =>
    if c = '[' then balanced (depth + 1) r
    else if c = ']' then depth != 0 && balanced (depth - 1) r
    else balanced depth r

def isQuote (c : Char) : Bool := c = '\x27' || c = '\x22'

def startsQuoted : List Char → Bool
  | [] => false
  | c :: _ => isQuote c

/-- The two characters stand next to each other somewhere in the text. -/
def adjacent (a b : Char) : List Char → Bool
  | c :: d :: r => (c = a && d = b) || adjacent a b (d :: r)
  | _ => false

/-- A key that plain brackets would not read back. -/
def needsQuotes (key : List Char) : Bool := startsQuoted key || !balanced 0 key

def quoteFor (key : List Char) : Char :=
  if adjacent '\x27' ']' key then '\x22' else '\x27'

def bracketed (key : List Char) : List Char :=
  if needsQuotes key then
    '[' :: quoteFor key :: (key ++ [quoteFor key, ']'])
  else '[' :: (key ++ [']'])

def canonicalChars (s : Segment) : List Char :=
  escape s.name.toList ++ s.keys.flatMap fun key => bracketed key.toList

def canonical (s : Segment) : String := String.ofList s.canonicalChars

def canonicalName (s : Segment) : String := String.ofList (escape s.name.toList)

def isIndexed (s : Segment) : Bool := !s.keys.isEmpty

def withKeys (s : Segment) (n : Nat) : Segment := { s with keys := s.keys.take n }

theorem canonicalName_eq (s : Segment) : s.canonicalName = (s.withKeys 0).canonical := by
  simp [canonicalName, canonical, canonicalChars, withKeys]

end Segment

def joinedChars : List Segment → List Char
  | [] => []
  | [s] => s.canonicalChars
  | s :: r => s.canonicalChars ++ '.' :: joinedChars r

def joined (segments : List Segment) : String := String.ofList (joinedChars segments)

structure Path where
  segments : List Segment
  deriving DecidableEq

namespace Path

def canonical (p : Path) : String := joined p.segments

def isSimple (p : Path) : Bool :=
  match p.segments with
  | [s] => !s.isIndexed
  | _ => false

end Path

end PropertyAccess
