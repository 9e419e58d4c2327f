import PropertyAccess.Schema.Assignability
import PropertyAccess.Schema.Text

/-! The properties of a class. A handle is the way to read and to write one
named property: through a getter and a setter, or straight to a slot. The
handles of a class are listed by name; of several declarations of one name the
last counts and stands in the place of the first. Fields come before pairs of
accessors, ancestors before descendants. -/

namespace PropertyAccess

/-- Which members of a class are its properties. -/
inductive AccessMode
  /-- Pairs of accessors, and fields as far as they are exposed. -/
  | properties
  /-- All fields, to read and to write, and nothing else. -/
  | fields
  deriving DecidableEq

inductive Access
  | accessors (getter : Option Getter) (setter : Option Setter)
  | slot (index : Nat) (readable writable : Bool)

structure Handle where
  name : String
  type : Ty
  access : Access

namespace Handle

def isReadable (h : Handle) : Bool :=
  match h.access with
  | .accessors getter _ => getter.isSome
  | .slot _ readable _ => readable

def isWritable (h : Handle) : Bool :=
  match h.access with
  | .accessors _ setter => setter.isSome
  | .slot _ _ writable => writable

def outOfRange (index : Nat) : PropertyFault :=
  .failed ("slot " ++ toString index ++ " is out of range")

def get (h : Handle) (o : ObjectRef) : Run PropertyFault Value :=
  match h.access with
  | .accessors (some getter) _ => getter o
  | .slot index true _ => do
    match ← Run.lookup (·.slot? o.loc index) with
    | some v => return v
    | none => throw (outOfRange index)
  | _ => throw (.failed "property is not readable")

/-- Only an instance of the declared type is written. -/
def set (σ : Schema) (h : Handle) (o : ObjectRef) (v : Value) : Run PropertyFault Unit :=
  if σ.accepts h.type v then
    match h.access with
    | .accessors _ (some setter) => setter o v
    | .slot index _ true => do
      match ← Run.lookup (·.setSlot? o.loc index v) with
      | some after => Run.update fun _ => after
      | none => throw (outOfRange index)
    | _ => throw (.failed "property is not writable")
  else throw (.typeClash (σ.typeName v))

/-- Puts a handle in the place of the one of its name, or at the end. -/
def upsert (hs : List Handle) (h : Handle) : List Handle :=
  match hs with
  | [] => [h]
  | x :: r => if x.name = h.name then h :: r else x :: upsert r h

end Handle

/-- The handles of a class, and the place among them that a name leads to. -/
structure HandleTable where
  handles : List Handle
  index : List (String × Nat)

namespace HandleTable

/-- A name that comes again leads to the later place. -/
def ofHandles (hs : List Handle) : HandleTable :=
  ⟨hs, (hs.zipIdx.map fun (h, place) => (h.name, place)).reverse⟩

def get? (t : HandleTable) (name : String) : Option Handle :=
  (t.index.lookup name).bind (t.handles[·]?)

end HandleTable

namespace Schema

/-- The handle of a slot, none for a field that is hidden. -/
def slotHandle? (mode : AccessMode) (index : Nat) (s : Slot) : Option Handle :=
  let type := s.type.substitute [] (some s.owner)
  match mode, s.field.exposure with
  | .fields, _ => some ⟨s.name, type, .slot index true true⟩
  | .properties, .hidden => none
  | .properties, e => some ⟨s.name, type, .slot index e.isReadable e.isWritable⟩

def slotHandles (σ : Schema) (c : ClassId) (mode : AccessMode) : List Handle :=
  (σ.layout c).zipIdx.filterMap fun (s, index) => slotHandle? mode index s

def accessorHandles (l : Level) : List Handle :=
  l.decl.properties.map fun p =>
    ⟨p.name, p.type.substitute l.bindings (some l.cls), .accessors p.getter p.setter⟩

/-- All declarations that count, in the order in which later ones prevail. -/
def declaredHandles (σ : Schema) (c : ClassId) (mode : AccessMode) : List Handle :=
  match mode with
  | .fields => σ.slotHandles c mode
  | .properties => σ.slotHandles c mode ++ (σ.levels c).reverse.flatMap accessorHandles

def handles (σ : Schema) (c : ClassId) (mode : AccessMode) : List Handle :=
  (σ.declaredHandles c mode).foldl Handle.upsert []

def handleTable (σ : Schema) (c : ClassId) (mode : AccessMode) : HandleTable :=
  .ofHandles (σ.handles c mode)

def handle? (σ : Schema) (c : ClassId) (mode : AccessMode) (name : String) : Option Handle :=
  (σ.handleTable c mode).get? name

end Schema

end PropertyAccess
