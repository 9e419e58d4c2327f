import PropertyAccess.Floating.Format

/-! Rounding to nearest. A quotient of whole numbers goes to the nearest datum
of a format, of two equally near ones to the one of even rank, and beyond the
last finite one to infinity. Every other operation that has to round is this
one applied to an exact quotient. -/

namespace PropertyAccess.Floating

/-- The quotient to the nearest whole number, a half to the even one. -/
def roundQuotient (num den : Nat) : Nat :=
  let q := num / den
  let r := num % den
  if 2 * r < den then q
  else if 2 * r = den then q + q % 2
  else q + 1

namespace Format

def nearest (F : Format) (num den : Nat) : Nat :=
  let shift := Nat.log2 (num / den) - F.fractionBits
  min (shift * F.stride + roundQuotient num (den * Nat.pow 2 shift)) F.top

theorem nearest_le (F : Format) (num den : Nat) : F.nearest num den ≤ F.top :=
  Nat.min_le_right _ _

end Format

namespace Binary

variable {F G : Format}

/-- The datum nearest to `num / den`, with the sign given. -/
def ofQuotient (negative : Bool) (num den : Nat) : Binary F :=
  ⟨negative, F.nearest (num * F.one) den,
    Nat.le_succ_of_le (F.nearest_le _ _)⟩

def ofInt (z : Int) : Binary F := ofQuotient (z < 0) z.natAbs 1

def convert (x : Binary F) : Binary G :=
  if x.isNaN then nan x.negative
  else if x.isInfinite then infinity x.negative
  else ofQuotient x.negative x.units F.one

end Binary

end PropertyAccess.Floating
