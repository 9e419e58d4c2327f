import PropertyAccess.Number.Basic

/-! Reading numbers and changing their kind. A number that is well formed but
out of the range of the kind overflows, which is told apart from text that is
no number. -/

namespace PropertyAccess

open Floating Text

structure Overflow where
  value : String
  target : NumberKind
  deriving DecidableEq

def Overflow.message (e : Overflow) : String :=
  "Numeric value `" ++ e.value ++ "` does not fit into `" ++ e.target.name ++ "`"

namespace Number

/-- Changes the kind. Floats lose their fraction to become integers; between
the two formats only a finite number that would become infinite is refused. -/
def convert (n : Number) (target : NumberKind) : Except Overflow Number :=
  if n.kind = target then .ok n
  else
    let fit (k : IntKind) (z : Int) : Except Overflow Number :=
      match int? k z with
      | some m => .ok m
      | none => .error ⟨n.toText, target⟩
    match target, n with
    | .float .f64, n => .ok (.float .f64 n.toDouble)
    | .float .f32, n =>
      let narrowed : Binary .single := n.toDouble.convert
      if n.toDouble.isFinite && narrowed.isInfinite then .error ⟨n.toText, target⟩
      else .ok (.float .f32 narrowed)
    | .int k, .int _ z _ => fit k z
    | .int k, .float _ x =>
      if x.isFinite then fit k x.truncated else .error ⟨n.toText, target⟩

theorem convert_self (n : Number) : n.convert n.kind = .ok n := by
  simp [convert]

inductive Refusal
  | malformed
  | overflow (e : Overflow)
  deriving DecidableEq

def takeSign : List Char → Bool × List Char
  | '-' :: r => (true, r)
  | '+' :: r => (false, r)
  | r => (false, r)

/-- The radix that a text announces, and the text behind the announcement. -/
def takeRadix : List Char → Nat × List Char
  | '0' :: 'x' :: r => (16, r)
  | '0' :: 'X' :: r => (16, r)
  | '#' :: r => (16, r)
  | r => (10, r)

/-- The integer that a text without blanks denotes. -/
def integerOf? (cs : List Char) : Option Int :=
  let (negative, unsigned) := takeSign cs
  let (radix, digits) := takeRadix unsigned
  (natural? radix digits).map fun n => if negative then -(n : Int) else n

/-- Blanks do not count, wherever they stand. -/
def parse (text : String) (target : NumberKind) : Except Refusal Number :=
  let bare := compact text.toList
  match target with
  | .int k =>
    match integerOf? bare with
    | none => .error .malformed
    | some z =>
      match int? k z with
      | some n => .ok n
      | none => .error (.overflow ⟨String.ofList bare, target⟩)
  | .float k =>
    match Binary.ofText? bare with
    | some x => .ok (.float k x)
    | none => .error .malformed

end Number

end PropertyAccess
