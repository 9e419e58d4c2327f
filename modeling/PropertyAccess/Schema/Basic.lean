import PropertyAccess.Graph.Heap

/-! Declarations of enumerations and classes. A class has type parameters, at
most one parent with arguments for the parent's parameters, fields, properties
given by a getter and a setter, and a rule for making instances. A schema is
the list of all declarations; a class may only refer to those declared before
it, so the chain of parents always ends. -/

namespace PropertyAccess

structure Enumeration where
  path : String
  constants : List String
  deriving DecidableEq

/-- What a field shows of itself as a property. -/
inductive Exposure
  | readWrite | readOnly | writeOnly | hidden
  deriving DecidableEq

namespace Exposure

def isReadable : Exposure → Bool
  | .readWrite | .readOnly => true
  | .writeOnly | .hidden => false

def isWritable : Exposure → Bool
  | .readWrite | .writeOnly => true
  | .readOnly | .hidden => false

end Exposure

structure Field where
  name : String
  type : Ty
  exposure : Exposure
  deriving DecidableEq

inductive PropertyFault
  | typeClash (found : String)
  | failed (message : String)
  deriving DecidableEq

def PropertyFault.message : PropertyFault → String
  | .typeClash found => "value of type `" ++ found ++ "` is not accepted"
  | .failed message => message

abbrev Getter := ObjectRef → Run PropertyFault Value

abbrev Setter := ObjectRef → Value → Run PropertyFault Unit

structure PropertyDecl where
  name : String
  type : Ty
  getter : Option Getter
  setter : Option Setter

/-- How instances come into being without arguments. -/
inductive Construction
  | plain
  | initialized (run : ObjectRef → Heap → Heap)
  | concealed
  | missing

structure ClassDecl where
  path : String
  params : List String
  parent : Option (ClassId × List Ty)
  fields : List Field
  properties : List PropertyDecl
  isAbstract : Bool
  construction : Construction
  /-- Makes an instance of the class from a text; a failure is a message. -/
  fromText : Option (ClassId → String → Run String Value)

structure Schema where
  enums : List Enumeration
  /-- The class declared last comes first. -/
  classes : List ClassDecl

namespace Schema

def empty : Schema := ⟨[], []⟩

def declareEnum (σ : Schema) (e : Enumeration) : Schema := { σ with enums := σ.enums ++ [e] }

def nextClass (σ : Schema) : ClassId := σ.classes.length

def declareClass (σ : Schema) (c : ClassDecl) : Schema := { σ with classes := c :: σ.classes }

def enum? (σ : Schema) (e : EnumId) : Option Enumeration := σ.enums[e]?

/-- The declaration in place `c` and those before it. -/
def since : List ClassDecl → ClassId → Option (ClassDecl × List ClassDecl)
  | [], _ => none
  | d :: earlier, c => if c = earlier.length then some (d, earlier) else since earlier c

theorem length_of_since {ds : List ClassDecl} {c : ClassId} {d : ClassDecl}
    {earlier : List ClassDecl} (h : since ds c = some (d, earlier)) : earlier.length = c := by
  induction ds with
  | nil => simp [since] at h
  | cons x xs ih =>
    rw [since] at h
    split at h
    · simp_all
    · exact ih h

def class? (σ : Schema) (c : ClassId) : Option ClassDecl := (since σ.classes c).map (·.1)

theorem class?_declareClass (σ : Schema) (d : ClassDecl) :
    (σ.declareClass d).class? σ.nextClass = some d := by
  simp [declareClass, class?, since, nextClass]

def enumPath (σ : Schema) (e : EnumId) : String := ((σ.enum? e).map (·.path)).getD ""

def classPath (σ : Schema) (c : ClassId) : String := ((σ.class? c).map (·.path)).getD ""

def constants (σ : Schema) (e : EnumId) : List String :=
  ((σ.enum? e).map (·.constants)).getD []

end Schema

/-- The text behind the last dot. -/
def simpleName (path : String) : String :=
  String.ofList (path.toList.reverse.takeWhile (· ≠ '.')).reverse

namespace Enumeration

def indexOf? (e : Enumeration) (name : String) : Option Nat := e.constants.idxOf? name

/-- The constant named behind the last dot of a text that starts with the path
or the simple name of the enumeration. -/
def qualified? (e : Enumeration) (text : String) : Option Nat :=
  let behind := text.toList.reverse.takeWhile (· ≠ '.')
  match text.toList.reverse.drop behind.length with
  | [] => none
  | _ :: owner =>
    let owner := String.ofList owner.reverse
    if owner = e.path ∨ owner = simpleName e.path then
      e.indexOf? (String.ofList behind.reverse)
    else none

end Enumeration

end PropertyAccess
