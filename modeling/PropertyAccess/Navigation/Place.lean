import PropertyAccess.Navigation.Error
import PropertyAccess.Property.Handle

/-! Reading and writing one place of an object. A place is a property, or an
element of a place. To read an element its holder is read first; to write one
its holder is read, grown if it has to be, and written back if it is an array
that had to grow. A missing value may be made on the way. Each step goes to the
holder, so all of this is recursion on the place. -/

namespace PropertyAccess

inductive Place
  | property (name : String)
  | element (holder : Place) (key : String)
  deriving DecidableEq

namespace Place

def ofSegment (s : Segment) : Place := s.keys.foldl element (property s.name)

def root : Place → String
  | .property name => name
  | .element holder _ => holder.root

def depth : Place → Nat
  | .property _ => 0
  | .element holder _ => holder.depth + 1

def keys : Place → List String
  | .property _ => []
  | .element holder key => holder.keys ++ [key]

def segment (p : Place) : Segment := ⟨p.root, p.keys⟩

def canonical (p : Place) : String := p.segment.canonical

theorem length_keys (p : Place) : p.keys.length = p.depth := by
  induction p with
  | property => rfl
  | element holder key ih => simp [keys, depth, ih]

theorem segment_foldl_element (p : Place) (ks : List String) :
    (ks.foldl element p).segment = ⟨p.root, p.keys ++ ks⟩ := by
  induction ks generalizing p with
  | nil => simp [segment]
  | cons k ks ih => simp [ih, root, keys]

@[simp] theorem segment_ofSegment (s : Segment) : (ofSegment s).segment = s := by
  simp [ofSegment, segment_foldl_element, root, keys]

end Place

structure AccessConfig where
  /-- Missing values on the way are made, and containers grow when read. -/
  growing : Bool
  /-- Containers never grow to this position. -/
  limit : Nat
  mode : AccessMode
  deriving DecidableEq

namespace AccessConfig

def standard : AccessConfig := ⟨false, 256, .properties⟩

def autoGrowing : AccessConfig := { standard with growing := true }

def direct : AccessConfig := { standard with mode := .fields }

end AccessConfig

/-- An object to be read and written, with the way to it from the root of its graph. -/
structure Node where
  wrapped : ObjectRef
  root : ObjectRef
  /-- The path from the root, with a dot at the end unless it is empty. -/
  nestedPath : String
  config : AccessConfig
  strategies : Strategies

namespace Node

variable (σ : Schema) (n : Node)

def rootName : String := σ.classPath n.root.cls

def fullPath (path : String) : String := n.nestedPath ++ path

def handle? (name : String) : Option Handle := σ.handle? n.wrapped.cls n.config.mode name

/-- The type of what is `depth` keys inside a property. -/
def innerType (name : String) (depth : Nat) : Ty :=
  ((n.handle? σ name).map fun h => h.type.inner depth).getD .any

def innerKeyType (name : String) (depth : Nat) : Ty :=
  ((n.handle? σ name).map fun h => h.type.keyAt depth).getD .any

def nullAt (path : String) : PathError := .nullIntermediate (n.rootName σ) (n.fullPath path)

def unreadableAt (path : String) : PathError := .notReadable (n.rootName σ) (n.fullPath path)

def unwritableAt (path reason : String) : PathError :=
  .notWritable (n.rootName σ) (n.fullPath path) reason

def badIndexAt (path reason : String) : PathError :=
  .invalidIndex (n.rootName σ) (n.fullPath path) reason

def noContainerAt (path : String) (found : Value) : PathError :=
  .invalidTargetType (n.rootName σ) (n.fullPath path) (σ.typeName found)

def faultAt (path : String) (required : Ty) : PropertyFault → PathError
  | .typeClash found => .typeClash (n.fullPath path) required found
  | .failed message => .access (n.rootName σ) (n.fullPath path) message

def uninstantiableAt (path : String) (type : Ty) (fault : InstanceFault) : PathError :=
  .uninstantiable (n.fullPath path) type fault

/-- A failed conversion is reported with the full path. -/
def conversionAt (path : String) : ConvertError → PathError
  | .conversion e => .conversion { e with path := some (n.fullPath path) }
  | .overflow e => .numericOverflow e
  | .endless => .endless

def indexOf (path key : String) : Run PathError Nat :=
  match Text.index? key with
  | some i => return i
  | none => throw (n.badIndexAt σ path ("`" ++ key ++ "` is not a valid index"))

/-- Converts a value for the property at a path below the wrapped object. -/
def convertFor (path : String) (raw : Value) (required : Ty) : Run PathError Value :=
  Run.mapError (n.conversionAt path) (n.strategies.convert σ required (some path) raw)

/-- A key as a key of the map `depth` keys inside a property. -/
def convertKey (name : String) (depth : Nat) (key : String) : Run ConvertError Value :=
  n.strategies.convert σ (n.innerKeyType σ name depth) none (.text key)

def readProperty (shown name : String) : Run PathError Value :=
  match n.handle? σ name with
  | some h =>
    if h.isReadable then Run.mapError (n.faultAt σ shown h.type) (h.get n.wrapped)
    else throw (n.unreadableAt σ shown)
  | none => throw (n.unreadableAt σ shown)

def writeProperty (name : String) (raw : Value) : Run PathError Unit :=
  let path := (Place.property name).canonical
  match n.handle? σ name with
  | some h =>
    if h.isWritable then do
      let v ← n.convertFor σ path raw h.type
      Run.mapError (n.faultAt σ path h.type) (h.set σ n.wrapped v)
    else throw (n.unwritableAt σ path "the property has no setter")
  | none => throw (n.unwritableAt σ path "the property does not exist")

/-- Puts the default value at a place that has none and reads it back. -/
def vivify (p : Place) (read : Run PathError Value) (write : Value → Run PathError Unit) :
    Run PathError Value := do
  let type := n.innerType σ p.root p.depth
  if type.isUnknown then throw (n.nullAt σ p.canonical)
  else
    let fresh ← Run.mapError (n.uninstantiableAt p.canonical type) (σ.defaultValue type)
    write fresh
    let v ← read
    if v.isNull then throw (n.nullAt σ p.canonical) else return v

/-- What was found at a place, or else what is made there. -/
def present (p : Place) (shown : String) (found : Value) (read : Run PathError Value)
    (write : Value → Run PathError Unit) : Run PathError Value :=
  if !found.isNull then return found
  else if n.config.growing then n.vivify σ p read write
  else throw (n.nullAt σ shown)

/-- Where an array is that has position `index`, if it has it or may grow to it. An
array that grows is copied, and the copy is stored by `write`. -/
def lengthened (may : Bool) (shown : String) (elem : Ty) (l : Loc) (index : Nat)
    (write : Value → Run PathError Unit) : Run PathError Loc := do
  let length := (← Run.lookup (·.items l)).length
  if may && length ≤ index && index < n.config.limit then
    let grown ← Run.mapError (n.uninstantiableAt shown elem) (σ.grownArray elem l (index + 1))
    write grown
    return grown.loc?.getD l
  else return l

/-- Makes a list at `p` have position `index`, if it may grow and its elements are known. -/
def growListForRead (p : Place) (elem : Ty) (l : Loc) (index : Nat) : Run PathError Unit := do
  let length := (← Run.lookup (·.items l)).length
  if n.config.growing && !elem.isUnknown && length ≤ index && index < n.config.limit then
    Run.mapError (n.uninstantiableAt p.canonical elem) (σ.growList elem l (index + 1 - length))
  else return ()

def itemAt (shown : String) (l : Loc) (index : Nat) : Run PathError Value := do
  match (← Run.lookup (·.items l))[index]? with
  | some v => return v
  | none => throw (n.badIndexAt σ shown "index out of bounds")

def readArray (shown : String) (holder : Place) (key : String) (elem : Ty) (l : Loc)
    (write : Value → Run PathError Unit) : Run PathError Value := do
  let index ← n.indexOf σ shown key
  let target ← n.lengthened σ n.config.growing holder.canonical elem l index write
  n.itemAt σ shown target index

def readList (shown : String) (holder : Place) (key : String) (l : Loc) :
    Run PathError Value := do
  let index ← n.indexOf σ shown key
  n.growListForRead σ holder (n.innerType σ holder.root (holder.depth + 1)) l index
  n.itemAt σ shown l index

def readSet (shown key : String) (l : Loc) : Run PathError Value := do
  let index ← n.indexOf σ shown key
  let items ← Run.lookup (·.items l)
  match items[index]? with
  | some v => return v
  | none => throw (n.badIndexAt σ shown
      ("cannot get element with index " ++ toString index ++ " from set of size " ++
        toString items.length))

def readMap (shown : String) (holder : Place) (key : String) (l : Loc) :
    Run PathError Value := do
  match ← Run.outcome (n.convertKey σ holder.root holder.depth key) with
  | .error e =>
    match e.message σ (← Run.heap) with
    | some message => throw (n.badIndexAt σ shown message)
    | none => throw .endless
  | .ok k =>
    match MapEntries.get? (← Run.lookup (·.entries l)) k with
    | some v => return v
    | none =>
      if n.config.growing then return .null
      else throw (n.badIndexAt σ shown ("map has no entry for key `" ++ key ++ "`"))

/-- The element for a key of a container at `holder`, which `write` writes.
Errors show the path that is being read. -/
def readElement (shown : String) (holder : Place) (key : String) (container : Value)
    (write : Value → Run PathError Unit) : Run PathError Value :=
  match container with
  | .null => throw (n.nullAt σ shown)
  | .array elem l => n.readArray σ shown holder key elem l write
  | .list _ l => n.readList σ shown holder key l
  | .set _ l => n.readSet σ shown key l
  | .map _ l => n.readMap σ shown holder key l
  | other => throw (n.noContainerAt σ shown other)

def putItem (l : Loc) (index : Nat) (v : Value) (missing : PathError) : Run PathError Unit := do
  match ← Run.lookup (·.setItem? l index v) with
  | some after => Run.update fun _ => after
  | none => throw missing

def writeArray (whole : Place) (elem : Ty) (l : Loc) (key : String) (raw : Value)
    (writeHolder : Value → Run PathError Unit) : Run PathError Unit := do
  let path := whole.canonical
  let v ← n.convertFor σ path raw elem
  let index ← n.indexOf σ path key
  let target ← n.lengthened σ true path elem l index writeHolder
  putItem target index v (n.badIndexAt σ path "array index out of bounds")

/-- Positions between the end of a list and a new one hold null. -/
def writeList (whole : Place) (l : Loc) (key : String) (raw : Value) : Run PathError Unit := do
  let path := whole.canonical
  let v ← n.convertFor σ path raw (n.innerType σ whole.root whole.depth)
  let index ← n.indexOf σ path key
  let length := (← Run.lookup (·.items l)).length
  if length ≤ index && index < n.config.limit then
    Run.update (·.appendItems l (List.replicate (index - length) .null ++ [v]))
  else putItem l index v (n.badIndexAt σ path "list index out of bounds")

def writeMap (whole holder : Place) (shape : TableShape) (l : Loc) (key : String)
    (raw : Value) : Run PathError Unit := do
  let path := whole.canonical
  let k ← Run.mapError (n.conversionAt path) (n.convertKey σ holder.root holder.depth key)
  let v ← n.convertFor σ path raw (n.innerType σ whole.root whole.depth)
  Run.update (·.insertEntry shape l k v)

def writeElement (whole holder : Place) (key : String) (raw container : Value)
    (writeHolder : Value → Run PathError Unit) : Run PathError Unit :=
  match container with
  | .array elem l => n.writeArray σ whole elem l key raw writeHolder
  | .list _ l => n.writeList σ whole l key raw
  | .map s l => n.writeMap σ whole holder s l key raw
  | other => throw (n.noContainerAt σ whole.canonical other)

/-- The failure to read the container of an element that is to be written. -/
def holderError (path : String) : PathError → PathError
  | .notReadable _ _ => n.unwritableAt σ path
      ("cannot access the container referenced in indexed path `" ++ path ++ "`")
  | e => e

/-- A property as the container of elements, made if there is none. -/
def readContainer (shown name : String) : Run PathError Value := do
  let p := Place.property name
  let found ← n.readProperty σ shown name
  n.present σ p shown found (n.readProperty σ p.canonical name) (n.writeProperty σ name)

mutual

/-- Errors show `shown`, the place that the reader asked for. -/
def read (shown : String) : Place → Run PathError Value
  | .property name => n.readProperty σ shown name
  | .element holder key => do
    let container ← (match holder with
      | .property name => n.readContainer σ shown name
      | .element _ _ => read shown holder)
    n.readElement σ shown holder key container (write holder)

def write : Place → Value → Run PathError Unit
  | .property name, raw => n.writeProperty σ name raw
  | .element holder key, raw => do
    let whole := Place.element holder key
    let found ← Run.mapError (n.holderError σ whole.canonical) (read holder.canonical holder)
    let container ← n.present σ holder whole.canonical found (read holder.canonical holder)
      (write holder)
    n.writeElement σ whole holder key raw container (write holder)

end

/-- The object at a place, to go on from there. -/
def enter (p : Place) : Run PathError ObjectRef := do
  let found ← n.read σ p.canonical p
  match ← n.present σ p p.canonical found (n.read σ p.canonical p) (n.write σ p) with
  | .object o => return o
  | _ => throw (n.unreadableAt σ p.canonical)

def child (s : Segment) (o : ObjectRef) : Node :=
  { n with
    wrapped := o
    nestedPath := n.fullPath s.canonical ++ "."
    strategies := { n.strategies with registered := n.strategies.registered.below s } }

end Node

end PropertyAccess
