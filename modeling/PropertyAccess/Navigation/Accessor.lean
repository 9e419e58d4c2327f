import PropertyAccess.Navigation.Place

/-! Following a path. Each segment but the last leads from one object to the
next. The node of an object met on the way is kept under the canonical segments
that lead to it, and used again as long as the same object stands there;
otherwise it is made anew, and all nodes kept below it are given up with it.
So the registrations that a node took over from its parent stay the ones it
was made with. -/

namespace PropertyAccess

structure Accessor where
  node : Node
  /-- The nodes met so far, by the segments that lead to them. -/
  children : List (List String × Node)

/-- An operation that may also keep new nodes. -/
abbrev Walk (α : Type) := ExceptT PathError (StateT Accessor (StateM Heap)) α

namespace Accessor

def rooted (strategies : Strategies) (config : AccessConfig) (root : ObjectRef) : Accessor :=
  ⟨⟨root, root, "", config, strategies⟩, []⟩

/-- An accessor with the builtin converters and those given by name. -/
def new (conventions : Conventions) (config : AccessConfig) (root : ObjectRef) : Accessor :=
  rooted ⟨.empty, DefaultTable.standard.withConventions conventions, none⟩ config root

def on {α : Type} (w : Walk α) (a : Accessor) (h : Heap) :
    (Except PathError α × Accessor) × Heap := ((ExceptT.run w).run a).run h

def lift {α : Type} (r : Run PathError α) : Walk α := fun a h =>
  ((r.on h).1, a) |> fun outcome => (outcome, (r.on h).2)

def outcome {α : Type} (w : Walk α) : Walk (Except PathError α) := fun a h =>
  let ((result, a'), h') := on w a h
  ((.ok result, a'), h')

/-- The kept node, if the object is still the one that it wraps, or else a new one. -/
def keep (at_ : List String) (fresh : Node) (children : List (List String × Node)) :
    Node × List (List String × Node) :=
  match children.lookup at_ with
  | some kept =>
    if kept.wrapped = fresh.wrapped then (kept, children)
    else (fresh, (at_, fresh) :: children.filter fun c => !at_.isPrefixOf c.1)
  | none => (fresh, (at_, fresh) :: children)

def enter (σ : Schema) (at_ : List String) (n : Node) (s : Segment) : Walk Node := do
  let o ← lift (n.enter σ (Place.ofSegment s))
  let a ← get
  let (child, children) := keep at_ (n.child s o) a.children
  set { a with children }
  return child

/-- The node that holds the last of the segments, with that one. -/
def reach (σ : Schema) (at_ : List String) (n : Node) : List Segment → Walk (Node × Place)
  | [] => throw (.notReadable (n.rootName σ) n.nestedPath)
  | [s] => return (n, Place.ofSegment s)
  | s :: next :: rest => do
    let here := at_ ++ [s.canonical]
    let child ← enter σ here n s
    reach σ here child (next :: rest)

def follow (σ : Schema) (p : Path) : Walk (Node × Place) := do
  reach σ [] (← get).node p.segments

def parsed (path : String) : Walk Path :=
  match Path.parse path with
  | .ok p => return p
  | .error e => throw (.malformedPath e)

def resolve (σ : Schema) (path : String) : Walk Value := do
  let (n, place) ← follow σ (← parsed path)
  lift (n.read σ place.canonical place)

/-- Converts a raw value to the type at a path and writes it. -/
def apply (σ : Schema) (path : String) (raw : Value) : Walk Unit := do
  let p ← parsed path
  let top := (← get).node
  match ← outcome (follow σ p) with
  | .ok (n, place) => lift (n.write σ place raw)
  | .error e => throw (e.whileWriting (top.rootName σ) (top.fullPath p.canonical))

/-- What an operation gives, if it comes back with something. -/
def attempt {α : Type} (w : Walk α) : Walk (Option α) := do
  match ← outcome w with
  | .ok x => return some x
  | .error .endless => throw .endless
  | .error _ => return none

/-- The path can be read. Values may be made on the way, as in reading. -/
def isReadable (σ : Schema) (path : String) : Walk Bool := do
  match ← attempt (do follow σ (← parsed path)) with
  | none => return false
  | some (n, .property name) => return ((n.handle? σ name).map Handle.isReadable).getD false
  | some (n, place) => return (← attempt (lift (n.read σ place.canonical place))).isSome

/-- The path can be written; an element can if its container is there or would be made. -/
def isWritable (σ : Schema) (path : String) : Walk Bool := do
  match ← attempt (do follow σ (← parsed path)) with
  | none => return false
  | some (n, .property name) => return ((n.handle? σ name).map Handle.isWritable).getD false
  | some (n, .element holder _) =>
    match ← attempt (lift (n.read σ holder.canonical holder)) with
    | some v => return n.config.growing || !v.isNull
    | none => return false

def typeAt? (σ : Schema) (path : String) : Walk (Option Ty) := do
  match ← attempt (do follow σ (← parsed path)) with
  | none => return none
  | some (n, place) => return (n.handle? σ place.root).map fun h => h.type.inner place.depth

def convert (σ : Schema) (v : Value) (required : Ty) : Walk Value := do
  let n := (← get).node
  lift (Run.mapError PathError.ofConvert (n.strategies.convert σ required none v))

def child? (a : Accessor) (path : String) : Option Node :=
  match Path.parse path with
  | .ok p => a.children.lookup (p.segments.map Segment.canonical)
  | .error _ => none

/-- Converters reach the nodes that are made from now on. -/
def register (a : Accessor) (type : Option Ty) (path : Option String) (c : Converter) :
    Except RegistrationFault Accessor :=
  (a.node.strategies.registered.register type path c).map fun registered =>
    { a with node := { a.node with strategies := { a.node.strategies with registered } } }

def withService (a : Accessor) (service : Option ConversionService) : Accessor :=
  { a with node := { a.node with strategies := { a.node.strategies with service } } }

def withGrowing (a : Accessor) (growing : Bool) (limit : Nat) : Accessor :=
  let set (n : Node) : Node := { n with config := { n.config with growing, limit } }
  ⟨set a.node, a.children.map fun c => (c.1, set c.2)⟩

end Accessor

end PropertyAccess
