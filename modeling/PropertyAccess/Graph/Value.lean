import PropertyAccess.Types.Ty

/-! Values of an object graph. Scalars are values by themselves; objects and
containers are references to a location of the heap. A reference carries what
never changes about its target: the class of an object, the component type of
an array, the shape of a container. So the type of a value is known without the
heap, and two references are the same value when they have the same location. -/

namespace PropertyAccess

abbrev Loc := Nat

structure ObjectRef where
  cls : ClassId
  loc : Loc
  deriving DecidableEq

inductive Value
  | null
  | bool (b : Bool)
  | char (c : Char)
  | number (n : Number)
  | text (s : String)
  | enum (e : EnumId) (index : Nat)
  | object (o : ObjectRef)
  | array (elem : Ty) (loc : Loc)
  | list (shape : ListShape) (loc : Loc)
  | set (shape : TableShape) (loc : Loc)
  | map (shape : TableShape) (loc : Loc)
  deriving DecidableEq

namespace Value

def isNull : Value → Bool
  | .null => true
  | _ => false

def isPrimitive : Value → Bool
  | .bool _ | .char _ | .number _ => true
  | _ => false

def isText : Value → Bool
  | .text _ => true
  | _ => false

def loc? : Value → Option Loc
  | .object o => some o.loc
  | .array _ l | .list _ l | .set _ l | .map _ l => some l
  | _ => none

/-- Equality of scalars and identity of references. -/
def same : Value → Value → Bool
  | .null, .null => true
  | .bool a, .bool b => a == b
  | .char a, .char b => a == b
  | .number a, .number b => a.same b
  | .text a, .text b => a == b
  | .enum e i, .enum f j => e == f && i == j
  | .object a, .object b => a.loc == b.loc
  | .array _ a, .array _ b => a == b
  | .list _ a, .list _ b => a == b
  | .set _ a, .set _ b => a == b
  | .map _ a, .map _ b => a == b
  | _, _ => false

/-- The type of a value; what lists, sets and maps hold is not known. -/
def runtimeType : Value → Ty
  | .null => .any
  | .bool _ => .bool
  | .char _ => .char
  | .number n => .number n.kind
  | .text _ => .text
  | .enum e _ => .enum e
  | .object o => .object o.cls
  | .array elem _ => .array elem
  | .list s _ => .list s .any
  | .set s _ => .set s .any
  | .map s _ => .map s .any .any

/-- The place of each sort of value in the order of values. -/
def rank : Value → Nat
  | .null => 0
  | .bool _ => 1
  | .char _ => 2
  | .number _ => 3
  | .text _ => 4
  | .enum _ _ => 5
  | .object _ => 6
  | .array _ _ => 7
  | .list _ _ => 8
  | .set _ _ => 9
  | .map _ _ => 10

/-- The order of sorted sets and maps: by sort of value and within a sort by
value. That references are ordered by location is an assumption: the addresses
that order them can be any, as long as no two are the same. -/
def order (a b : Value) : Ordering :=
  match a, b with
  | .bool x, .bool y => compare x y
  | .char x, .char y => compare x.toNat y.toNat
  | .number x, .number y => x.compareTotal y
  | .text x, .text y => List.compareLex compare (x.toList.map Char.toNat) (y.toList.map Char.toNat)
  | .enum e i, .enum f j => (compare e f).then (compare i j)
  | a, b => (compare a.rank b.rank).then (compare (a.loc?.getD 0) (b.loc?.getD 0))

end Value

/-- The value of a fresh slot: zero for a primitive type, null for any other. -/
def Ty.zeroValue : Ty → Value
  | .bool => .bool false
  | .char => .char '\x00'
  | .number k => .number (.zero k)
  | _ => .null

end PropertyAccess
