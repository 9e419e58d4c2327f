/-! Binary floating-point data. A format has a number of fraction bits and of
exponent bits. A datum is a sign and a rank: the representable magnitudes are
numbered in order from zero, infinity comes after the last finite one, and the
rank after it is that of a datum that is not a number. All finite magnitudes of
a format are whole multiples of its least positive one, its unit. -/

namespace PropertyAccess.Floating

structure Format where
  fractionBits : Nat
  exponentBits : Nat
  deriving DecidableEq

namespace Format

def single : Format := ⟨23, 8⟩
def double : Format := ⟨52, 11⟩

def stride (F : Format) : Nat := Nat.pow 2 F.fractionBits

def top (F : Format) : Nat := (Nat.pow 2 F.exponentBits - 1) * F.stride

/-- The unit is `2 ^ -unitBits`. -/
def unitBits (F : Format) : Nat := Nat.pow 2 (F.exponentBits - 1) - 2 + F.fractionBits

def one (F : Format) : Nat := Nat.pow 2 F.unitBits

/-- The magnitude of a rank, in units. -/
def units (F : Format) (rank : Nat) : Nat :=
  let octave := rank / F.stride
  let fraction := rank % F.stride
  if octave = 0 then fraction else (F.stride + fraction) * Nat.pow 2 (octave - 1)

end Format

structure Binary (F : Format) where
  negative : Bool
  rank : Nat
  rank_le : rank ≤ F.top + 1
  deriving DecidableEq

namespace Binary

variable {F : Format}

def isNaN (x : Binary F) : Bool := x.rank == F.top + 1

def isInfinite (x : Binary F) : Bool := x.rank == F.top

def isFinite (x : Binary F) : Bool := x.rank < F.top

def units (x : Binary F) : Nat := F.units x.rank

def zero : Binary F := ⟨false, 0, Nat.zero_le _⟩

def infinity (negative : Bool) : Binary F := ⟨negative, F.top, Nat.le_succ _⟩

def nan (negative : Bool) : Binary F := ⟨negative, F.top + 1, Nat.le_refl _⟩

/-- Equality of numbers: the two zeros are equal and what is not a number equals nothing. -/
def same (x y : Binary F) : Bool :=
  !x.isNaN && !y.isNaN && x.rank == y.rank &&
    (x.negative == y.negative || x.rank == 0)

/-- A place in the order of all data, negative zero before zero. -/
def place (x : Binary F) : Int :=
  if x.negative then -(x.rank : Int) - 1 else x.rank

def compareTotal (x y : Binary F) : Ordering := compare x.place y.place

theorem place_injective {x y : Binary F} (h : x.place = y.place) : x = y := by
  obtain ⟨sx, rx, hx⟩ := x
  obtain ⟨sy, ry, hy⟩ := y
  cases sx <;> cases sy <;> simp only [place, Bool.false_eq_true, ↓reduceIte] at h <;>
    first
    | (obtain rfl : rx = ry := by omega
       rfl)
    | omega

/-- The whole number towards zero, of a finite datum. -/
def truncated (x : Binary F) : Int :=
  let magnitude : Int := (x.units / F.one : Nat)
  if x.negative then -magnitude else magnitude

end Binary

end PropertyAccess.Floating
