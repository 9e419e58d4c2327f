import PropertyAccess.Conversion.Converter
import PropertyAccess.Path.Parser
import PropertyAccess.Path.Variants
import PropertyAccess.Schema.Assignability

/-! Converters registered for a type, for a property path, or for both. A later
registration for the same takes the place of the earlier one. A converter found
by path goes before one found by type; the path itself goes before the path
with keys left out. -/

namespace PropertyAccess

inductive RegistrationFault
  | missingScope
  | malformedPath (e : MalformedPath)
  deriving DecidableEq

def RegistrationFault.message : RegistrationFault → String
  | .missingScope => "either a required type or a property path must be given"
  | .malformedPath e => e.message

/-- Puts a value in the place of the one with the same key, or at the end. -/
def upsert {α β : Type} [DecidableEq α] (key : α) (value : β) : List (α × β) → List (α × β)
  | [] => [(key, value)]
  | (k, v) :: r => if k = key then (k, value) :: r else (k, v) :: upsert key value r

theorem lookup_upsert_self {α β : Type} [DecidableEq α] (key : α) (value : β)
    (l : List (α × β)) : (upsert key value l).lookup key = some value := by
  induction l with
  | nil => simp [upsert]
  | cons e r ih =>
    obtain ⟨k, v⟩ := e
    rw [upsert]
    split
    · simp [*]
    · rename_i h
      simp [List.lookup_cons, beq_false_of_ne (Ne.symm h), ih]

theorem lookup_upsert_of_ne {α β : Type} [DecidableEq α] {key other : α} (value : β)
    (l : List (α × β)) (h : other ≠ key) : (upsert key value l).lookup other = l.lookup other := by
  induction l with
  | nil => simp [upsert, List.lookup_cons, beq_false_of_ne h]
  | cons e r ih =>
    obtain ⟨k, v⟩ := e
    rw [upsert]
    split
    · rename_i hk
      subst hk
      simp [List.lookup_cons, beq_false_of_ne h]
    · simp only [List.lookup_cons, ih]

structure PathScope where
  path : Path
  entries : List (Option Ty × Converter)

/-- A converter registered for a type serves a conversion to `required`. Where
that is not known, as for an element, one for a whole collection does not. -/
def serves (σ : Schema) (registered : Option Ty) (required : Ty) : Bool :=
  match registered with
  | none => true
  | some t =>
    if required.isUnknown then !t.isCollection && !t.isArray
    else σ.assignable t required || σ.assignable required t

namespace PathScope

def register (scope : PathScope) (type : Option Ty) (c : Converter) : PathScope :=
  { scope with entries := upsert (type.map Ty.erased) c scope.entries }

def registerAll (scope : PathScope) (entries : List (Option Ty × Converter)) : PathScope :=
  entries.foldl (fun scope e => scope.register e.1 e.2) scope

def find? (σ : Schema) (scope : PathScope) (required : Ty) : Option Converter :=
  (scope.entries.find? fun e => serves σ e.1 required).map (·.2)

end PathScope

structure Registrations where
  byType : List (Ty × Converter)
  byPath : List PathScope

namespace Registrations

def empty : Registrations := ⟨[], []⟩

def isEmpty (rs : Registrations) : Bool := rs.byType.isEmpty && rs.byPath.isEmpty

/-- Changes the scope of a path, which is new if there is none. -/
def atPath (path : Path) (change : PathScope → PathScope) : List PathScope → List PathScope
  | [] => [change ⟨path, []⟩]
  | s :: r =>
    if s.path.canonical = path.canonical then change s :: r else s :: atPath path change r

def register (rs : Registrations) (type : Option Ty) (path : Option String) (c : Converter) :
    Except RegistrationFault Registrations :=
  match type, path with
  | none, none => .error .missingScope
  | some t, none => .ok { rs with byType := upsert t.erased c rs.byType }
  | type, some text =>
    match Path.parse text with
    | .error e => .error (.malformedPath e)
    | .ok p => .ok { rs with byPath := atPath p (·.register type c) rs.byPath }

/-- The converter registered for exactly this canonical text of a path. -/
def findAt? (σ : Schema) (rs : Registrations) (text : String) (required : Ty) : Option Converter :=
  (rs.byPath.find? (·.path.canonical = text)).bind (·.find? σ required)

def findByType? (σ : Schema) (rs : Registrations) (required : Ty) : Option Converter :=
  if required.isUnknown then none
  else
    match rs.byType.lookup required.erased with
    | some c => some c
    | none => (rs.byType.find? fun e => σ.assignable e.1 required).map (·.2)

def findByPath? (σ : Schema) (rs : Registrations) (text : String) (required : Ty) :
    Option Converter :=
  match rs.findAt? σ text required with
  | some c => some c
  | none =>
    match Path.parse text with
    | .ok p => p.stripped.findSome? fun s => rs.findAt? σ s required
    | .error _ => none

/-- The converter for a conversion to a type, of a property if a path is given. -/
def find? (σ : Schema) (rs : Registrations) (required : Ty) (path : Option String) :
    Option Converter :=
  match path.bind fun text => rs.findByPath? σ text required with
  | some c => some c
  | none => rs.findByType? σ required

/-- The elements of the collection at a path have a converter of their own. -/
def hasElementConverter (σ : Schema) (rs : Registrations) (elem : Option Ty)
    (path : Option String) : Bool :=
  let required := elem.getD .any
  let byPath := match path with
    | some text => rs.byPath.any fun s =>
        Path.addresses s.path.canonical text && (s.find? σ required).isSome
    | none => false
  let byType := match elem with
    | some e => rs.byType.any fun r => r.1 = e.erased
    | none => false
  byPath || byType

/-- Files the converters of a path under a path that may have some already. -/
def merge (path : Path) (entries : List (Option Ty × Converter)) (scopes : List PathScope) :
    List PathScope :=
  atPath path (·.registerAll entries) scopes

/-- Takes over a scope whose path starts with the segment, with its keys or
without any. The path loses this first segment. -/
def takeOver (s : Segment) (scopes : List PathScope) (scope : PathScope) : List PathScope :=
  match scope.path.segments with
  | head :: next :: rest =>
    if head.canonical = s.canonical ∨ head.canonical = s.canonicalName then
      merge ⟨next :: rest⟩ scope.entries scopes
    else scopes
  | _ => scopes

/-- What the registrations are for the value of a property: those by type stay,
and those by path are taken over. -/
def below (rs : Registrations) (s : Segment) : Registrations :=
  { rs with byPath := rs.byPath.foldl (takeOver s) [] }

theorem byType_below (rs : Registrations) (s : Segment) : (rs.below s).byType = rs.byType := rfl

end Registrations

end PropertyAccess
