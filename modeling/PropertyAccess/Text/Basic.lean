/-! Text as a list of characters: its length in bytes, its pieces between
separators, and its form in small letters. -/

namespace PropertyAccess.Text

def utf8Length : List Char → Nat
  | [] => 0
  | c :: r => c.utf8Size + utf8Length r

/-- The pieces between occurrences of `sep`; a text without it is one piece. -/
def splitAt (sep : Char) : List Char → List (List Char)
  | [] => [[]]
  | c :: r =>
    if c = sep then [] :: splitAt sep r
    else
      match splitAt sep r with
      | [] => [[c]]
      | piece :: pieces => (c :: piece) :: pieces

def lowered (cs : List Char) : List Char := cs.map Char.toLower

end PropertyAccess.Text
