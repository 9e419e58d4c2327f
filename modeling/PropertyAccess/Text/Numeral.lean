/-! Numerals in positional notation. Only ASCII digits and letters are digits;
a numeral has at least one digit and no limit on their number. -/

namespace PropertyAccess.Text

def digit? (radix : Nat) (c : Char) : Option Nat :=
  let value :=
    if '0' ≤ c ∧ c ≤ '9' then some (c.toNat - '0'.toNat)
    else if 'a' ≤ c ∧ c ≤ 'z' then some (c.toNat - 'a'.toNat + 10)
    else if 'A' ≤ c ∧ c ≤ 'Z' then some (c.toNat - 'A'.toNat + 10)
    else none
  value.filter (· < radix)

theorem digit?_lt {radix : Nat} {c : Char} {d : Nat} (h : digit? radix c = some d) :
    d < radix := by
  simpa using (Option.filter_eq_some_iff.1 h).2

def isDigit (radix : Nat) (c : Char) : Bool := (digit? radix c).isSome

def appendDigits (radix acc : Nat) : List Char → Option Nat
  | [] => some acc
  | c :: r =>
    match digit? radix c with
    | some d => appendDigits radix (acc * radix + d) r
    | none => none

theorem appendDigits_append (radix acc : Nat) (a b : List Char) :
    appendDigits radix acc (a ++ b) =
      (appendDigits radix acc a).bind fun n => appendDigits radix n b := by
  induction a generalizing acc with
  | nil => rfl
  | cons c r ih =>
    rw [List.cons_append, appendDigits, appendDigits]
    split
    · exact ih _
    · rfl

theorem isSome_appendDigits (radix acc : Nat) (cs : List Char) :
    (appendDigits radix acc cs).isSome = cs.all (isDigit radix) := by
  induction cs generalizing acc with
  | nil => rfl
  | cons c r ih =>
    rw [appendDigits, List.all_cons, isDigit]
    split
    · rename_i d hd
      rw [ih, hd]
      rfl
    · rename_i hd
      rw [hd]
      rfl

def natural? (radix : Nat) (cs : List Char) : Option Nat :=
  if cs.isEmpty then none else appendDigits radix 0 cs

/-- A numeral that may start with a plus sign and stays below `bound`. -/
def unsigned? (radix bound : Nat) (cs : List Char) : Option Nat :=
  let digits := match cs with
    | '+' :: r => r
    | _ => cs
  (natural? radix digits).filter (· < bound)

/-- An array or list position written as a key: below `2 ^ 64`. -/
def index? (key : String) : Option Nat := unsigned? 10 (Nat.pow 2 64) key.toList

end PropertyAccess.Text
