import PropertyAccess.Schema.Hierarchy

/-! Making new values: instances of classes, default values of types, and the
fillers of an array that grows. -/

namespace PropertyAccess

inductive InstanceFault
  | abstractClass
  | concealedConstructor
  | noConstructor
  | unsupported
  deriving DecidableEq

def InstanceFault.message : InstanceFault → String
  | .abstractClass => "the type is abstract"
  | .concealedConstructor => "auto-growing is not allowed with a private constructor"
  | .noConstructor => "the type has no default constructor"
  | .unsupported => "the type has no constructible default value"

namespace Schema

/-- A new object with the zero value of its type in each slot. -/
def blank (σ : Schema) (c : ClassId) : Run InstanceFault ObjectRef := do
  let fields := (σ.layout c).map fun s => (s.name, s.type.zeroValue)
  return ⟨c, ← Run.alloc (.slots fields)⟩

def instantiate (σ : Schema) (c : ClassId) : Run InstanceFault ObjectRef :=
  match σ.class? c with
  | none => throw .unsupported
  | some d =>
    if d.isAbstract then throw .abstractClass
    else
      match d.construction with
      | .concealed => throw .concealedConstructor
      | .missing => throw .noConstructor
      | .plain => σ.blank c
      | .initialized run => do
        let o ← σ.blank c
        Run.update (run o)
        return o

def fromText? (σ : Schema) (c : ClassId) (text : String) : Option (Run String Value) :=
  ((σ.class? c).bind (·.fromText)).map fun make => make c text

def isAbstract (σ : Schema) (c : ClassId) : Bool :=
  ((σ.class? c).map (·.isAbstract)).getD false

/-- The value that stands in for a missing one: containers are empty, except
that an array of arrays holds one empty array; a class has a new instance. -/
def defaultValue (σ : Schema) : Ty → Run InstanceFault Value
  | .array (.array elem) => do
    let row ← Run.newArray elem []
    Run.newArray (.array elem) [row]
  | .array elem => Run.newArray elem []
  | .list s _ => Run.newList s []
  | .set s _ => Run.newSet s []
  | .map s _ _ => Run.newMap s []
  | .object c => return .object (← σ.instantiate c)
  | .text => return .text ""
  | .bool => return Ty.bool.zeroValue
  | .char => return Ty.char.zeroValue
  | .number k => return (Ty.number k).zeroValue
  | _ => throw .unsupported

/-- An element for a new position of an array. Where the type has no default
value this is its zero value. -/
def filler (σ : Schema) (elem : Ty) : Run InstanceFault Value := do
  match ← Run.outcome (σ.defaultValue elem) with
  | .ok v => return v
  | .error .unsupported => return elem.zeroValue
  | .error e => throw e

def repeated {ε : Type} (make : Run ε Value) : Nat → Run ε (List Value)
  | 0 => return []
  | n + 1 => do
    let v ← make
    let vs ← repeated make n
    return v :: vs

/-- A new array that starts with the elements of one at `l` and has at least `length`. -/
def grownArray (σ : Schema) (elem : Ty) (l : Loc) (length : Nat) : Run InstanceFault Value := do
  let old ← Run.lookup (·.items l)
  let new ← repeated (σ.filler elem) (length - old.length)
  Run.newArray elem (old ++ new)

/-- Appends default elements to a list until it has `length`, as far as they can be made. -/
def growList (σ : Schema) (elem : Ty) (l : Loc) : Nat → Run InstanceFault Unit
  | 0 => return ()
  | missing + 1 => do
    let v ← σ.defaultValue elem
    Run.update (·.appendItems l [v])
    σ.growList elem l missing

end Schema

end PropertyAccess
