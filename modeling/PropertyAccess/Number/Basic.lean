import PropertyAccess.Floating.Shortest

/-! Numbers of ten kinds: signed and unsigned integers of four widths and two
floating-point formats. An integer carries the proof that it is in the range of
its kind. -/

namespace PropertyAccess

open Floating

inductive IntKind
  | i8 | i16 | i32 | i64 | u8 | u16 | u32 | u64
  deriving DecidableEq

namespace IntKind

def width : IntKind → Nat
  | .i8 | .u8 => 8
  | .i16 | .u16 => 16
  | .i32 | .u32 => 32
  | .i64 | .u64 => 64

def isSigned : IntKind → Bool
  | .i8 | .i16 | .i32 | .i64 => true
  | .u8 | .u16 | .u32 | .u64 => false

/-- The number of values from zero up. -/
def span (k : IntKind) : Nat := Nat.pow 2 (if k.isSigned then k.width - 1 else k.width)

def least (k : IntKind) : Int := if k.isSigned then -(k.span : Int) else 0

def greatest (k : IntKind) : Int := k.span - 1

def Holds (k : IntKind) (z : Int) : Prop := k.least ≤ z ∧ z ≤ k.greatest

instance (k : IntKind) (z : Int) : Decidable (k.Holds z) :=
  inferInstanceAs (Decidable (_ ∧ _))

theorem holds_zero (k : IntKind) : k.Holds 0 := by
  cases k <;> decide

def name : IntKind → String
  | .i8 => "i8" | .i16 => "i16" | .i32 => "i32" | .i64 => "i64"
  | .u8 => "u8" | .u16 => "u16" | .u32 => "u32" | .u64 => "u64"

def all : List IntKind := [.i8, .i16, .i32, .i64, .u8, .u16, .u32, .u64]

end IntKind

inductive FloatKind
  | f32 | f64
  deriving DecidableEq

def FloatKind.format : FloatKind → Format
  | .f32 => .single
  | .f64 => .double

def FloatKind.name : FloatKind → String
  | .f32 => "f32"
  | .f64 => "f64"

inductive NumberKind
  | int (k : IntKind)
  | float (k : FloatKind)
  deriving DecidableEq

namespace NumberKind

def name : NumberKind → String
  | .int k => k.name
  | .float k => k.name

def all : List NumberKind := IntKind.all.map int ++ [float .f32, float .f64]

def ofName? (s : String) : Option NumberKind := all.find? (·.name = s)

end NumberKind

inductive Number
  | int (k : IntKind) (z : Int) (inRange : k.Holds z)
  | float (k : FloatKind) (x : Binary k.format)
  deriving DecidableEq

namespace Number

def kind : Number → NumberKind
  | .int k _ _ => .int k
  | .float k _ => .float k

def zero : NumberKind → Number
  | .int k => .int k 0 k.holds_zero
  | .float k => .float k .zero

@[simp] theorem kind_zero (k : NumberKind) : (zero k).kind = k := by
  cases k <;> rfl

def int? (k : IntKind) (z : Int) : Option Number :=
  if h : k.Holds z then some (.int k z h) else none

def toDouble : Number → Binary .double
  | .int _ z _ => .ofInt z
  | .float .f32 x => x.convert
  | .float .f64 x => x

/-- Equality of kind and number; floats as numbers. -/
def same : Number → Number → Bool
  | .int k a _, .int l b _ => k == l && a == b
  | .float .f32 x, .float .f32 y => x.same y
  | .float .f64 x, .float .f64 y => x.same y
  | _, _ => false

/-- Integers compare exactly, any other pair in double format. -/
def compareTotal (a b : Number) : Ordering :=
  match a, b with
  | .int _ x _, .int _ y _ => compare x y
  | a, b => a.toDouble.compareTotal b.toDouble

def toText : Number → String
  | .int _ z _ => toString z
  | .float _ x => x.toText

end Number

end PropertyAccess
