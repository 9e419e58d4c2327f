import PropertyAccess.Floating.Rounding
import PropertyAccess.Text.Basic
import PropertyAccess.Text.Blank
import PropertyAccess.Text.Numeral

/-! Reading decimal text as the nearest datum of a format: an optional sign,
then digits with at most one point among or around them and an optional
exponent, or one of the words `inf`, `infinity` and `nan` in any case. -/

namespace PropertyAccess.Floating

open Text

/-- Digits without their point: `digits * 10 ^ exponent`. -/
structure Decimal where
  digits : Nat
  exponent : Int
  deriving DecidableEq

namespace Decimal

/-- The exponent at the end of a text: nothing, or `e`, a sign and digits. -/
def exponent? : List Char → Option Int
  | [] => some 0
  | e :: r =>
    if e = 'e' ∨ e = 'E' then
      match r with
      | '-' :: ds => (natural? 10 ds).map fun n => -(n : Int)
      | '+' :: ds => (natural? 10 ds).map fun n => (n : Int)
      | ds => (natural? 10 ds).map fun n => (n : Int)
    else none

def read? (cs : List Char) : Option Decimal :=
  let whole := cs.takeWhile (isDigit 10)
  let afterWhole := cs.dropWhile (isDigit 10)
  let fraction := match afterWhole with
    | '.' :: r => r.takeWhile (isDigit 10)
    | _ => []
  let rest := match afterWhole with
    | '.' :: r => r.dropWhile (isDigit 10)
    | r => r
  match natural? 10 (whole ++ fraction), exponent? rest with
  | some digits, some e => some ⟨digits, e - fraction.length⟩
  | _, _ => none

/-- Powers of ten from this one on are infinite in every format in use, and
their inverses are zero. -/
def horizon : Int := 400

/-- The count of decimal digits, at least one. -/
def digitCount (n : Nat) : Nat := (Nat.toDigits 10 n).length

def toBinary {F : Format} (negative : Bool) (d : Decimal) : Binary F :=
  let size := d.exponent + digitCount d.digits
  if d.digits = 0 ∨ size < -horizon then { Binary.zero with negative }
  else if horizon < size then .infinity negative
  else if 0 ≤ d.exponent then .ofQuotient negative (d.digits * Nat.pow 10 d.exponent.toNat) 1
  else .ofQuotient negative d.digits (Nat.pow 10 (-d.exponent).toNat)

end Decimal

namespace Binary

def word? {F : Format} (negative : Bool) (cs : List Char) : Option (Binary F) :=
  let w := String.ofList (lowered cs)
  if w = "inf" ∨ w = "infinity" then some (infinity negative)
  else if w = "nan" then some (nan negative)
  else none

def ofText? {F : Format} (cs : List Char) : Option (Binary F) :=
  let negative := cs.head? == some '-'
  let magnitude := match cs with
    | '-' :: r => r
    | '+' :: r => r
    | r => r
  match Decimal.read? magnitude with
  | some d => some (d.toBinary negative)
  | none => word? negative magnitude

end Binary

end PropertyAccess.Floating
