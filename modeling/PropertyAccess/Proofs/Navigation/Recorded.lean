import PropertyAccess.Proofs.Navigation.History
import PropertyAccess.Proofs.Navigation.Place

/-! Calls with a record of the arrays that growing makes. Each function here does what the
one of its name does; where the copy of an array has been made that is to have one more
position, its location is put down. Only what leads to such a copy is spelled out again, the
rest is taken over as it is. With the record left out, a recorded call is the call. -/

namespace PropertyAccess

structure Recording where
  accessor : Accessor
  heap : Heap
  /-- The arrays that growing has made, in the order in which they were made. -/
  grown : List Loc

abbrev Recorded (α : Type) := ExceptT PathError (StateM Recording) α

namespace Recorded

variable {α β : Type}

def on (w : Recorded α) (s : Recording) : Except PathError α × Recording :=
  (ExceptT.run w).run s

/-- A walk in which no array grows. -/
def walk (w : Walk α) : Recorded α := fun s =>
  let ((result, accessor), heap) := Accessor.on w s.accessor s.heap
  (result, { s with accessor, heap })

def run (r : Run PathError α) : Recorded α := walk (Accessor.lift r)

def putDown (l : Loc) : Recorded Unit := fun s => (.ok (), { s with grown := s.grown ++ [l] })

def mapError (f : PathError → PathError) (w : Recorded α) : Recorded α := fun s =>
  ((w.on s).1.mapError f, (w.on s).2)

def outcome (w : Recorded α) : Recorded (Except PathError α) := fun s =>
  (.ok (w.on s).1, (w.on s).2)

def attempt (w : Recorded α) : Recorded (Option α) := do
  match ← outcome w with
  | .ok x => return some x
  | .error .endless => throw .endless
  | .error _ => return none

section Places

variable (σ : Schema) (n : Node)

def vivify (p : Place) (read : Recorded Value) (write : Value → Recorded Unit) :
    Recorded Value := do
  let type := n.innerType σ p.root p.depth
  if type.isUnknown then throw (n.nullAt σ p.canonical)
  else
    let fresh ← run (Run.mapError (n.uninstantiableAt p.canonical type) (σ.defaultValue type))
    write fresh
    let v ← read
    if v.isNull then throw (n.nullAt σ p.canonical) else return v

def present (p : Place) (shown : String) (found : Value) (read : Recorded Value)
    (write : Value → Recorded Unit) : Recorded Value :=
  if !found.isNull then return found
  else if n.config.growing then vivify σ n p read write
  else throw (n.nullAt σ shown)

/-- The one place where an array is made because another one has to grow. -/
def grownArray (shown : String) (elem : Ty) (l : Loc) (length : Nat) : Recorded Value := do
  let grown ← run (Run.mapError (n.uninstantiableAt shown elem) (σ.grownArray elem l length))
  putDown (grown.loc?.getD l)
  return grown

def lengthened (may : Bool) (shown : String) (elem : Ty) (l : Loc) (index : Nat)
    (write : Value → Recorded Unit) : Recorded Loc := do
  let length := (← run (Run.lookup (·.items l))).length
  if may && length ≤ index && index < n.config.limit then
    let grown ← grownArray σ n shown elem l (index + 1)
    write grown
    return grown.loc?.getD l
  else return l

def readArray (shown : String) (holder : Place) (key : String) (elem : Ty) (l : Loc)
    (write : Value → Recorded Unit) : Recorded Value := do
  let index ← run (n.indexOf σ shown key)
  let target ← lengthened σ n n.config.growing holder.canonical elem l index write
  run (n.itemAt σ shown target index)

def readElement (shown : String) (holder : Place) (key : String) (container : Value)
    (write : Value → Recorded Unit) : Recorded Value :=
  match container with
  | .null => throw (n.nullAt σ shown)
  | .array elem l => readArray σ n shown holder key elem l write
  | .list _ l => run (n.readList σ shown holder key l)
  | .set _ l => run (n.readSet σ shown key l)
  | .map _ l => run (n.readMap σ shown holder key l)
  | other => throw (n.noContainerAt σ shown other)

def writeArray (whole : Place) (elem : Ty) (l : Loc) (key : String) (raw : Value)
    (writeHolder : Value → Recorded Unit) : Recorded Unit := do
  let path := whole.canonical
  let v ← run (n.convertFor σ path raw elem)
  let index ← run (n.indexOf σ path key)
  let target ← lengthened σ n true path elem l index writeHolder
  run (Node.putItem target index v (n.badIndexAt σ path "array index out of bounds"))

def writeElement (whole holder : Place) (key : String) (raw container : Value)
    (writeHolder : Value → Recorded Unit) : Recorded Unit :=
  match container with
  | .array elem l => writeArray σ n whole elem l key raw writeHolder
  | .list _ l => run (n.writeList σ whole l key raw)
  | .map s l => run (n.writeMap σ whole holder s l key raw)
  | other => throw (n.noContainerAt σ whole.canonical other)

mutual

def read (shown : String) : Place → Recorded Value
  | .property name => run (n.readProperty σ shown name)
  | .element holder key => do
    let container ← (match holder with
      | .property name => run (n.readContainer σ shown name)
      | .element _ _ => read shown holder)
    readElement σ n shown holder key container (write holder)

def write : Place → Value → Recorded Unit
  | .property name, raw => run (n.writeProperty σ name raw)
  | .element holder key, raw => do
    let whole := Place.element holder key
    let found ← mapError (n.holderError σ whole.canonical) (read holder.canonical holder)
    let container ← present σ n holder whole.canonical found (read holder.canonical holder)
      (write holder)
    writeElement σ n whole holder key raw container (write holder)

end

def enter (p : Place) : Recorded ObjectRef := do
  let found ← read σ n p.canonical p
  match ← present σ n p p.canonical found (read σ n p.canonical p) (write σ n p) with
  | .object o => return o
  | _ => throw (n.unreadableAt σ p.canonical)

end Places

section Paths

variable (σ : Schema)

def advance (at_ : List String) (n : Node) (s : Segment) : Recorded Node := do
  let o ← enter σ n (Place.ofSegment s)
  walk do
    let a ← get
    let (child, children) := Accessor.keep at_ (n.child s o) a.children
    set { a with children }
    return child

def reach (at_ : List String) (n : Node) : List Segment → Recorded (Node × Place)
  | [] => throw (.notReadable (n.rootName σ) n.nestedPath)
  | [s] => return (n, Place.ofSegment s)
  | s :: next :: rest => do
    let here := at_ ++ [s.canonical]
    let child ← advance σ here n s
    reach here child (next :: rest)

def follow (p : Path) : Recorded (Node × Place) := do
  reach σ [] (← walk get).node p.segments

def resolve (path : String) : Recorded Value := do
  let (n, place) ← follow σ (← walk (Accessor.parsed path))
  read σ n place.canonical place

def apply (path : String) (raw : Value) : Recorded Unit := do
  let p ← walk (Accessor.parsed path)
  let top := (← walk get).node
  match ← outcome (follow σ p) with
  | .ok (n, place) => write σ n place raw
  | .error e => throw (e.whileWriting (top.rootName σ) (top.fullPath p.canonical))

def isReadable (path : String) : Recorded Bool := do
  match ← attempt (do follow σ (← walk (Accessor.parsed path))) with
  | none => return false
  | some (n, .property name) => return ((n.handle? σ name).map Handle.isReadable).getD false
  | some (n, place) => return (← attempt (read σ n place.canonical place)).isSome

def isWritable (path : String) : Recorded Bool := do
  match ← attempt (do follow σ (← walk (Accessor.parsed path))) with
  | none => return false
  | some (n, .property name) => return ((n.handle? σ name).map Handle.isWritable).getD false
  | some (n, .element holder _) =>
    match ← attempt (read σ n holder.canonical holder) with
    | some v => return n.config.growing || !v.isNull
    | none => return false

def typeAt? (path : String) : Recorded (Option Ty) := do
  match ← attempt (do follow σ (← walk (Accessor.parsed path))) with
  | none => return none
  | some (n, place) => return (n.handle? σ place.root).map fun h => h.type.inner place.depth

def convert (v : Value) (required : Ty) : Recorded Value := do
  let n := (← walk get).node
  run (Run.mapError PathError.ofConvert (n.strategies.convert σ required none v))

def applyAll (o : BatchOptions) :
    Batch → List (String × PathError) → Recorded (Option BatchError)
  | [], [] => return none
  | [], failures => return some (.collected failures)
  | v :: vs, failures => do
    match ← outcome (apply σ v.path v.value) with
    | .ok _ => applyAll o vs failures
    | .error e =>
      match o.verdict v.optional e with
      | .skip => applyAll o vs failures
      | .collect => applyAll o vs (failures ++ [(v.path, e)])
      | .stop => return some (.stopped e)

end Paths

end Recorded

def Call.recorded (σ : Schema) : Call → Recorded Answer
  | .resolve path => do return .value (← Recorded.resolve σ path)
  | .apply path raw => do
    Recorded.apply σ path raw
    return .written
  | .applyBatch options batch => do return .batch (← Recorded.applyAll σ options batch [])
  | .isReadable path => do return .flag (← Recorded.isReadable σ path)
  | .isWritable path => do return .flag (← Recorded.isWritable σ path)
  | .typeAt path => do return .type (← Recorded.typeAt? σ path)
  | .convert v required => do return .value (← Recorded.convert σ v required)

/-! With the record left out. -/

namespace Recorded

variable {α β : Type}

def Tells (w : Recorded α) (u : Walk α) : Prop :=
  ∀ s, ∃ grown, w.on s = ((Accessor.on u s.accessor s.heap).1.1,
    ⟨(Accessor.on u s.accessor s.heap).1.2, (Accessor.on u s.accessor s.heap).2, grown⟩)

theorem on_bind (w : Recorded α) (f : α → Recorded β) (s : Recording) :
    (w >>= f).on s =
      match w.on s with
      | (.ok x, t) => (f x).on t
      | (.error e, t) => (.error e, t) := by
  have unfolded : (w >>= f).on s = (ExceptT.bindCont f (w.on s).1).run (w.on s).2 := rfl
  rw [unfolded]
  rcases w.on s with ⟨result, t⟩
  cases result <;> rfl

namespace Tells

theorem pure (x : α) : Tells (Pure.pure x) (Pure.pure x) := fun s => ⟨s.grown, rfl⟩

theorem throw (e : PathError) : Tells (MonadExcept.throw e : Recorded α) (MonadExcept.throw e) :=
  fun s => ⟨s.grown, rfl⟩

theorem walk (u : Walk α) : Tells (Recorded.walk u) u := fun s => ⟨s.grown, rfl⟩

theorem run (r : Run PathError α) : Tells (Recorded.run r) (Accessor.lift r) := .walk _

theorem putDown (l : Loc) : Tells (Recorded.putDown l) (Pure.pure ()) :=
  fun s => ⟨s.grown ++ [l], rfl⟩

variable {w : Recorded α} {u : Walk α} {r : Run PathError α}

theorem bind {f : α → Recorded β} {g : α → Walk β} (hw : Tells w u) (hf : ∀ x, Tells (f x) (g x)) :
    Tells (w >>= f) (u >>= g) := by
  intro s
  obtain ⟨grown, first⟩ := hw s
  rw [on_bind, first, Walk.on_bind]
  rcases Accessor.on u s.accessor s.heap with ⟨⟨result, a⟩, h⟩
  cases result with
  | error e => exact ⟨grown, rfl⟩
  | ok x => exact hf x ⟨a, h, grown⟩

theorem andThen {f : α → Recorded β} {g : α → Run PathError β} (hw : Tells w (Accessor.lift r))
    (hf : ∀ x, Tells (f x) (Accessor.lift (g x))) :
    Tells (w >>= f) (Accessor.lift (r >>= g)) := by
  have stepwise : Accessor.lift (r >>= g) = Accessor.lift r >>= fun x => Accessor.lift (g x) := by
    refine funext fun a => funext fun h => ?_
    change Accessor.on (Accessor.lift (r >>= g)) a h = Accessor.on (Accessor.lift r >>= _) a h
    rw [Walk.on_lift, Run.on_bind, Walk.on_bind, Walk.on_lift]
    rcases r.on h with ⟨result, h'⟩
    cases result <;> rfl
  rw [stepwise]
  exact hw.bind hf

theorem mapError (f : PathError → PathError) (hw : Tells w (Accessor.lift r)) :
    Tells (Recorded.mapError f w) (Accessor.lift (Run.mapError f r)) := by
  intro s
  obtain ⟨grown, same⟩ := hw s
  have unfolded : (Recorded.mapError f w).on s = ((w.on s).1.mapError f, (w.on s).2) := rfl
  rw [unfolded, same, Walk.on_lift, Walk.on_lift, Run.on_mapError]
  exact ⟨grown, rfl⟩

theorem outcome (hw : Tells w u) : Tells (Recorded.outcome w) (Accessor.outcome u) := by
  intro s
  obtain ⟨grown, same⟩ := hw s
  have unfolded : (Recorded.outcome w).on s = (.ok (w.on s).1, (w.on s).2) := rfl
  rw [unfolded, same, Walk.on_outcome]
  exact ⟨grown, rfl⟩

theorem attempt (hw : Tells w u) : Tells (Recorded.attempt w) (Accessor.attempt u) := by
  refine hw.outcome.bind fun result => ?_
  rcases result with e | x
  · cases e with
    | endless => exact .throw _
    | _ => exact .pure _
  · exact .pure _

end Tells

section Places

variable {σ : Schema} {n : Node} {reads : Recorded Value} {read : Run PathError Value}
  {writes : Value → Recorded Unit} {write : Value → Run PathError Unit}

theorem tells_present (hr : Tells reads (Accessor.lift read))
    (hw : ∀ v, Tells (writes v) (Accessor.lift (write v))) (p : Place) (shown : String)
    (found : Value) :
    Tells (present σ n p shown found reads writes)
      (Accessor.lift (n.present σ p shown found read write)) := by
  have made : Tells (vivify σ n p reads writes) (Accessor.lift (n.vivify σ p read write)) := by
    unfold vivify Node.vivify
    dsimp only
    split
    · exact .throw _
    · refine Tells.andThen (.run _) fun fresh => (hw fresh).andThen fun _ => hr.andThen fun v => ?_
      split
      · exact .throw _
      · exact .pure _
  unfold present Node.present
  split
  · exact .pure _
  · split
    · exact made
    · exact .throw _

theorem tells_grownArray (shown : String) (elem : Ty) (l : Loc) (length : Nat) :
    Tells (grownArray σ n shown elem l length)
      (Accessor.lift (Run.mapError (n.uninstantiableAt shown elem)
        (σ.grownArray elem l length))) := by
  have added (grown : Value) : Tells (do putDown (grown.loc?.getD l); return grown)
      (Accessor.lift (pure grown)) := (Tells.putDown _).bind fun _ => .pure grown
  have told := (Tells.run (Run.mapError (n.uninstantiableAt shown elem)
    (σ.grownArray elem l length))).andThen added
  rwa [bind_pure] at told

theorem tells_lengthened (hw : ∀ v, Tells (writes v) (Accessor.lift (write v))) (may : Bool)
    (shown : String) (elem : Ty) (l : Loc) (index : Nat) :
    Tells (lengthened σ n may shown elem l index writes)
      (Accessor.lift (n.lengthened σ may shown elem l index write)) := by
  refine Tells.andThen (.run _) fun items => ?_
  dsimp only
  split
  · exact (tells_grownArray _ _ _ _).andThen fun grown => (hw grown).andThen fun _ => .pure _
  · exact .pure _

theorem tells_readElement (hw : ∀ v, Tells (writes v) (Accessor.lift (write v)))
    (shown : String) (holder : Place) (key : String) (container : Value) :
    Tells (readElement σ n shown holder key container writes)
      (Accessor.lift (n.readElement σ shown holder key container write)) := by
  cases container with
  | array elem l =>
    exact Tells.andThen (.run _) fun index =>
      (tells_lengthened hw _ _ _ _ _).andThen fun target => .run _
  | list | set | map => exact .run _
  | _ => exact .throw _

theorem tells_writeElement (hw : ∀ v, Tells (writes v) (Accessor.lift (write v)))
    (whole holder : Place) (key : String) (raw container : Value) :
    Tells (writeElement σ n whole holder key raw container writes)
      (Accessor.lift (n.writeElement σ whole holder key raw container write)) := by
  cases container with
  | array elem l =>
    exact Tells.andThen (.run _) fun v => Tells.andThen (.run _) fun index =>
      (tells_lengthened hw _ _ _ _ _).andThen fun target => .run _
  | list | map => exact .run _
  | _ => exact .throw _

theorem tells_read_write (σ : Schema) (n : Node) (p : Place) :
    (∀ shown, Tells (Recorded.read σ n shown p) (Accessor.lift (n.read σ shown p))) ∧
      ∀ raw, Tells (Recorded.write σ n p raw) (Accessor.lift (n.write σ p raw)) := by
  -- A place is read and written by way of its holder.
  induction p with
  | property name =>
    refine ⟨fun shown => ?_, fun raw => ?_⟩
    · rw [Recorded.read, Node.read]
      exact .run _
    · rw [Recorded.write, Node.write]
      exact .run _
  | element holder key ih =>
    obtain ⟨reads, writes⟩ := ih
    refine ⟨fun shown => ?_, fun raw => ?_⟩
    · rw [Node.read_element]
      cases holder with
      | property name =>
        rw [Recorded.read]
        exact Tells.andThen (.run _) fun c => tells_readElement writes _ _ _ c
      | element =>
        rw [Recorded.read]
        exact (reads shown).andThen fun c => tells_readElement writes _ _ _ c
    · rw [Recorded.write, Node.write]
      refine ((reads _).mapError _).andThen fun found => ?_
      exact (tells_present (reads _) writes _ _ _).andThen fun c =>
        tells_writeElement writes _ _ _ _ c

theorem tells_enter (σ : Schema) (n : Node) (p : Place) :
    Tells (enter σ n p) (Accessor.lift (n.enter σ p)) := by
  obtain ⟨reads, writes⟩ := tells_read_write σ n p
  refine (reads _).andThen fun found => (tells_present (reads _) writes _ _ _).andThen fun v => ?_
  cases v with
  | object => exact .pure _
  | _ => exact .throw _

end Places

section Paths

variable {σ : Schema}

theorem tells_reach (at_ : List String) (n : Node) (segments : List Segment) :
    Tells (reach σ at_ n segments) (Accessor.reach σ at_ n segments) := by
  induction segments generalizing at_ n with
  | nil => exact .throw _
  | cons s rest ih =>
    cases rest with
    | nil => exact .pure _
    | cons next rest =>
      exact ((tells_enter σ n _).bind fun o => .walk _).bind fun child => ih _ _

theorem tells_follow (p : Path) : Tells (follow σ p) (Accessor.follow σ p) :=
  (Tells.walk get).bind fun a => tells_reach [] a.node p.segments

theorem tells_follow_parsed (path : String) :
    Tells (do follow σ (← walk (Accessor.parsed path)))
      (do Accessor.follow σ (← Accessor.parsed path)) :=
  (Tells.walk _).bind tells_follow

theorem tells_resolve (path : String) : Tells (resolve σ path) (Accessor.resolve σ path) :=
  (Tells.walk _).bind fun p => (tells_follow p).bind fun r => (tells_read_write σ r.1 r.2).1 _

theorem tells_apply (path : String) (raw : Value) :
    Tells (apply σ path raw) (Accessor.apply σ path raw) := by
  refine (Tells.walk _).bind fun p => (Tells.walk get).bind fun a => ?_
  refine (tells_follow p).outcome.bind fun found => ?_
  cases found with
  | ok r => exact (tells_read_write σ r.1 r.2).2 raw
  | error => exact .throw _

theorem tells_isReadable (path : String) :
    Tells (isReadable σ path) (Accessor.isReadable σ path) := by
  refine (tells_follow_parsed path).attempt.bind fun found => ?_
  rcases found with _ | ⟨n, name | ⟨holder, key⟩⟩
  · exact .pure _
  · exact .pure _
  · exact ((tells_read_write σ n _).1 _).attempt.bind fun _ => .pure _

theorem tells_isWritable (path : String) :
    Tells (isWritable σ path) (Accessor.isWritable σ path) := by
  refine (tells_follow_parsed path).attempt.bind fun found => ?_
  rcases found with _ | ⟨n, name | ⟨holder, key⟩⟩
  · exact .pure _
  · exact .pure _
  · refine ((tells_read_write σ n _).1 _).attempt.bind fun container => ?_
    cases container <;> exact .pure _

theorem tells_typeAt? (path : String) : Tells (typeAt? σ path) (Accessor.typeAt? σ path) := by
  refine (tells_follow_parsed path).attempt.bind fun found => ?_
  cases found <;> exact .pure _

theorem tells_convert (v : Value) (required : Ty) :
    Tells (convert σ v required) (Accessor.convert σ v required) :=
  (Tells.walk get).bind fun _ => .run _

theorem tells_applyAll (o : BatchOptions) (b : Batch) (failures : List (String × PathError)) :
    Tells (applyAll σ o b failures) (Accessor.applyAll σ o b failures) := by
  induction b generalizing failures with
  | nil => cases failures <;> exact .pure _
  | cons v vs ih =>
    refine (tells_apply v.path v.value).outcome.bind fun written => ?_
    cases written with
    | ok => exact ih failures
    | error e =>
      dsimp only
      cases o.verdict v.optional e with
      | skip => exact ih failures
      | collect => exact ih _
      | stop => exact .pure _

/-- A recorded call answers as the call does and leaves the accessor and the graph as it does. -/
theorem tells_call (call : Call) : Tells (call.recorded σ) (call.walk σ) := by
  cases call with
  | resolve path => exact (tells_resolve path).bind fun _ => .pure _
  | apply path raw => exact (tells_apply path raw).bind fun _ => .pure _
  | applyBatch options batch => exact (tells_applyAll options batch []).bind fun _ => .pure _
  | isReadable path => exact (tells_isReadable path).bind fun _ => .pure _
  | isWritable path => exact (tells_isWritable path).bind fun _ => .pure _
  | typeAt path => exact (tells_typeAt? path).bind fun _ => .pure _
  | convert v required => exact (tells_convert v required).bind fun _ => .pure _

end Paths

end Recorded

end PropertyAccess
