import PropertyAccess.Number.Basic
import PropertyAccess.Types.Shape

/-! Types of properties and values. Booleans, characters and numbers are
primitive and never null; the nullable form of a type wraps it. Enumerations
and classes are named by their place in a schema. A parameter stands for a
type argument of the class that declares it, and the self type for that class. -/

namespace PropertyAccess

abbrev EnumId := Nat

abbrev ClassId := Nat

inductive Ty
  | any
  | bool
  | char
  | text
  | number (k : NumberKind)
  | nullable (t : Ty)
  | enum (e : EnumId)
  | object (c : ClassId)
  | array (elem : Ty)
  | list (shape : ListShape) (elem : Ty)
  | set (shape : TableShape) (elem : Ty)
  | map (shape : TableShape) (key value : Ty)
  | param (name : String)
  | self
  deriving DecidableEq

namespace Ty

def isPrimitive : Ty → Bool
  | .bool | .char | .number _ => true
  | _ => false

/-- Nothing is known of the values of this type. -/
def isUnknown : Ty → Bool
  | .any | .param _ | .self => true
  | _ => false

def unwrapped : Ty → Ty
  | .nullable t => t
  | t => t

def bare : Ty → Ty
  | .nullable t => t.bare
  | t => t

def isArray (t : Ty) : Bool :=
  match t.unwrapped with
  | .array _ => true
  | _ => false

def isCollection (t : Ty) : Bool :=
  match t.unwrapped with
  | .list _ _ | .set _ _ => true
  | _ => false

def isMap (t : Ty) : Bool :=
  match t.unwrapped with
  | .map _ _ _ => true
  | _ => false

def isEnum (t : Ty) : Bool :=
  match t.unwrapped with
  | .enum _ => true
  | _ => false

/-- The type of the elements, for a map that of its values. -/
def element? (t : Ty) : Option Ty :=
  match t.unwrapped with
  | .array e | .list _ e | .set _ e | .map _ _ e => some e
  | _ => none

def key? (t : Ty) : Option Ty :=
  match t.unwrapped with
  | .map _ k _ => some k
  | _ => none

/-- The type of the elements `depth` steps inwards; unknown where there is none. -/
def inner : Nat → Ty → Ty
  | 0, t => t
  | depth + 1, t =>
    match t.element? with
    | some e => inner depth e
    | none => .any

@[simp] theorem inner_zero (t : Ty) : inner 0 t = t := rfl

theorem inner_any (depth : Nat) : inner depth .any = .any := by
  cases depth <;> rfl

theorem inner_add (m n : Nat) (t : Ty) : inner (m + n) t = inner n (inner m t) := by
  induction m generalizing t with
  | zero => simp
  | succ m ih =>
    rw [Nat.succ_add, inner, inner]
    split
    · exact ih _
    · rw [inner_any]

def keyAt (depth : Nat) (t : Ty) : Ty := ((inner depth t).key?).getD .any

/-- Forgets the element types of lists, sets and maps; what is unknown becomes
any type. Converters are filed under erased types. -/
def erased : Ty → Ty
  | .param _ | .self => .any
  | .nullable t => .nullable t.erased
  | .array e => .array e.erased
  | .list s _ => .list s .any
  | .set s _ => .set s .any
  | .map s _ _ => .map s .any .any
  | t => t

@[simp] theorem erased_erased (t : Ty) : t.erased.erased = t.erased := by
  induction t <;> simp_all [erased]

/-- Puts types for the parameters that have one, and for the self type if given. -/
def substitute (bindings : List (String × Ty)) (this : Option ClassId) : Ty → Ty
  | .param name => (bindings.lookup name).getD (.param name)
  | .self => (this.map Ty.object).getD .self
  | .nullable t => .nullable (t.substitute bindings this)
  | .array e => .array (e.substitute bindings this)
  | .list s e => .list s (e.substitute bindings this)
  | .set s e => .set s (e.substitute bindings this)
  | .map s k v => .map s (k.substitute bindings this) (v.substitute bindings this)
  | t => t

end Ty

end PropertyAccess
