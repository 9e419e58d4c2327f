import PropertyAccess.Proofs.Navigation.Unwritable

/-! A node as it is met from a root further up. The node reads and writes its places and leads
on to other nodes as before, since only its reports look at the root and at the way from there:
they name the other root, and their paths have the way from it in front. -/

namespace PropertyAccess

namespace PathError

def path? : PathError → Option String
  | .malformedPath _ | .numericOverflow _ | .endless => none
  | .nullIntermediate _ path | .invalidIndex _ path _ | .invalidTargetType _ path _
  | .notReadable _ path | .notWritable _ path _ | .access _ path _ | .typeClash path _ _
  | .uninstantiable path _ _ => some path
  | .conversion e => e.path

/-- The failure as it is reported from a root further up, from where `front` leads to the
node at which it was found. -/
def rebased (root front : String) : PathError → PathError
  | .malformedPath e => .malformedPath e
  | .nullIntermediate _ path => .nullIntermediate root (front ++ path)
  | .invalidIndex _ path reason => .invalidIndex root (front ++ path) reason
  | .invalidTargetType _ path found => .invalidTargetType root (front ++ path) found
  | .notReadable _ path => .notReadable root (front ++ path)
  | .notWritable _ path reason => .notWritable root (front ++ path) reason
  | .access _ path message => .access root (front ++ path) message
  | .typeClash path required found => .typeClash (front ++ path) required found
  | .conversion e => .conversion { e with path := e.path.map (front ++ ·) }
  | .numericOverflow e => .numericOverflow e
  | .uninstantiable path type fault => .uninstantiable (front ++ path) type fault
  | .endless => .endless

theorem kind_rebased (root front : String) (e : PathError) :
    (e.rebased root front).kind = e.kind := by
  cases e <;> rfl

theorem path?_rebased (root front : String) (e : PathError) :
    (e.rebased root front).path? = e.path?.map (front ++ ·) := by
  cases e <;> rfl

end PathError

namespace Node

def rebased (n : Node) (root : ObjectRef) (front : String) : Node :=
  { n with root := root, nestedPath := front ++ n.nestedPath }

def report (σ : Schema) (root : ObjectRef) (front : String) (e : PathError) : PathError :=
  e.rebased (σ.classPath root.cls) front

variable {σ : Schema} {n : Node} {root : ObjectRef} {front : String}

theorem config_rebased : (n.rebased root front).config = n.config := rfl

theorem handle?_rebased (name : String) :
    (n.rebased root front).handle? σ name = n.handle? σ name := rfl

theorem innerType_rebased (name : String) (depth : Nat) :
    (n.rebased root front).innerType σ name depth = n.innerType σ name depth := rfl

theorem fullPath_rebased (path : String) :
    (n.rebased root front).fullPath path = front ++ n.fullPath path := String.append_assoc

theorem child_rebased (s : Segment) (o : ObjectRef) :
    (n.rebased root front).child s o = (n.child s o).rebased root front := by
  simp [child, rebased, fullPath, String.append_assoc]

theorem report_nullAt (path : String) :
    report σ root front (n.nullAt σ path) = (n.rebased root front).nullAt σ path :=
  congrArg (PathError.nullIntermediate _) (fullPath_rebased path).symm

theorem report_unreadableAt (path : String) :
    report σ root front (n.unreadableAt σ path) = (n.rebased root front).unreadableAt σ path :=
  congrArg (PathError.notReadable _) (fullPath_rebased path).symm

theorem report_unwritableAt (path reason : String) :
    report σ root front (n.unwritableAt σ path reason) =
      (n.rebased root front).unwritableAt σ path reason :=
  congrArg (PathError.notWritable _ · reason) (fullPath_rebased path).symm

theorem report_badIndexAt (path reason : String) :
    report σ root front (n.badIndexAt σ path reason) =
      (n.rebased root front).badIndexAt σ path reason :=
  congrArg (PathError.invalidIndex _ · reason) (fullPath_rebased path).symm

theorem report_noContainerAt (path : String) (found : Value) :
    report σ root front (n.noContainerAt σ path found) =
      (n.rebased root front).noContainerAt σ path found :=
  congrArg (PathError.invalidTargetType _ · _) (fullPath_rebased path).symm

theorem report_faultAt (path : String) (required : Ty) (fault : PropertyFault) :
    report σ root front (n.faultAt σ path required fault) =
      (n.rebased root front).faultAt σ path required fault := by
  cases fault with
  | typeClash found => exact congrArg (PathError.typeClash · _ _) (fullPath_rebased path).symm
  | failed message => exact congrArg (PathError.access _ · _) (fullPath_rebased path).symm

theorem report_uninstantiableAt (path : String) (type : Ty) (fault : InstanceFault) :
    report σ root front (n.uninstantiableAt path type fault) =
      (n.rebased root front).uninstantiableAt path type fault :=
  congrArg (PathError.uninstantiable · _ _) (fullPath_rebased path).symm

theorem report_conversionAt (path : String) (e : ConvertError) :
    report σ root front (n.conversionAt path e) = (n.rebased root front).conversionAt path e := by
  cases e with
  | conversion e =>
    refine congrArg (fun full => PathError.conversion { e with path := some full }) ?_
    exact (fullPath_rebased path).symm
  | overflow e => rfl
  | endless => rfl

theorem report_holderError (path : String) (e : PathError) :
    report σ root front (n.holderError σ path e) =
      (n.rebased root front).holderError σ path (report σ root front e) := by
  cases e with
  | notReadable => exact report_unwritableAt path _
  | _ => rfl

theorem indexOf_rebased (path key : String) :
    (n.rebased root front).indexOf σ path key =
      Run.mapError (report σ root front) (n.indexOf σ path key) := by
  rw [indexOf, indexOf]
  split
  · rfl
  · rw [Run.mapError_throw, report_badIndexAt]

theorem convertFor_rebased (path : String) (raw : Value) (required : Ty) :
    (n.rebased root front).convertFor σ path raw required =
      Run.mapError (report σ root front) (n.convertFor σ path raw required) := by
  simp only [convertFor, Run.mapError_mapError, report_conversionAt]
  rfl

theorem convertKey_rebased (name : String) (depth : Nat) (key : String) :
    (n.rebased root front).convertKey σ name depth key = n.convertKey σ name depth key := rfl

theorem readProperty_rebased (shown name : String) :
    (n.rebased root front).readProperty σ shown name =
      Run.mapError (report σ root front) (n.readProperty σ shown name) := by
  rw [readProperty, readProperty, handle?_rebased]
  split
  · split
    · simp only [Run.mapError_mapError, report_faultAt]
      rfl
    · rw [Run.mapError_throw, report_unreadableAt]
  · rw [Run.mapError_throw, report_unreadableAt]

theorem writeProperty_rebased (name : String) (raw : Value) :
    (n.rebased root front).writeProperty σ name raw =
      Run.mapError (report σ root front) (n.writeProperty σ name raw) := by
  rw [writeProperty, writeProperty, handle?_rebased]
  split
  · split
    · simp only [Run.mapError_bind, Run.mapError_mapError, report_faultAt, convertFor_rebased]
      rfl
    · rw [Run.mapError_throw, report_unwritableAt]
  · rw [Run.mapError_throw, report_unwritableAt]

section Steps

variable {read : Run PathError Value} {write : Value → Run PathError Unit}

theorem vivify_rebased (p : Place) :
    (n.rebased root front).vivify σ p (Run.mapError (report σ root front) read)
        (fun v => Run.mapError (report σ root front) (write v)) =
      Run.mapError (report σ root front) (n.vivify σ p read write) := by
  rw [vivify, vivify, innerType_rebased]
  split
  · rw [Run.mapError_throw, report_nullAt]
  · simp only [Run.mapError_bind, Run.mapError_mapError, report_uninstantiableAt]
    refine bind_congr fun fresh => bind_congr fun _ => bind_congr fun v => ?_
    split
    · rw [Run.mapError_throw, report_nullAt]
    · rfl

theorem present_rebased (p : Place) (shown : String) (found : Value) :
    (n.rebased root front).present σ p shown found (Run.mapError (report σ root front) read)
        (fun v => Run.mapError (report σ root front) (write v)) =
      Run.mapError (report σ root front) (n.present σ p shown found read write) := by
  rw [present, present, config_rebased]
  split
  · rfl
  · split
    · exact vivify_rebased p
    · rw [Run.mapError_throw, report_nullAt]

theorem lengthened_rebased (may : Bool) (shown : String) (elem : Ty) (l : Loc) (index : Nat) :
    (n.rebased root front).lengthened σ may shown elem l index
        (fun v => Run.mapError (report σ root front) (write v)) =
      Run.mapError (report σ root front) (n.lengthened σ may shown elem l index write) := by
  simp only [lengthened, Run.mapError_bind, Run.mapError_lookup]
  refine bind_congr fun items => ?_
  rw [config_rebased]
  split
  · simp only [Run.mapError_bind, Run.mapError_mapError, report_uninstantiableAt, Run.mapError_pure]
  · rfl

theorem growListForRead_rebased (p : Place) (elem : Ty) (l : Loc) (index : Nat) :
    (n.rebased root front).growListForRead σ p elem l index =
      Run.mapError (report σ root front) (n.growListForRead σ p elem l index) := by
  simp only [growListForRead, Run.mapError_bind, Run.mapError_lookup]
  refine bind_congr fun items => ?_
  rw [config_rebased]
  split
  · simp only [Run.mapError_mapError, report_uninstantiableAt]
  · rfl

theorem itemAt_rebased (shown : String) (l : Loc) (index : Nat) :
    (n.rebased root front).itemAt σ shown l index =
      Run.mapError (report σ root front) (n.itemAt σ shown l index) := by
  simp only [itemAt, Run.mapError_bind, Run.mapError_lookup]
  refine bind_congr fun items => ?_
  split
  · rfl
  · rw [Run.mapError_throw, report_badIndexAt]

theorem readSet_rebased (shown key : String) (l : Loc) :
    (n.rebased root front).readSet σ shown key l =
      Run.mapError (report σ root front) (n.readSet σ shown key l) := by
  simp only [readSet, Run.mapError_bind, Run.mapError_lookup, indexOf_rebased]
  refine bind_congr fun index => bind_congr fun items => ?_
  split
  · rfl
  · rw [Run.mapError_throw, report_badIndexAt]

theorem readMap_rebased (shown : String) (holder : Place) (key : String) (l : Loc) :
    (n.rebased root front).readMap σ shown holder key l =
      Run.mapError (report σ root front) (n.readMap σ shown holder key l) := by
  simp only [readMap, Run.mapError_bind, Run.mapError_outcome, convertKey_rebased]
  refine bind_congr fun converted => ?_
  cases converted with
  | error e =>
    simp only [Run.mapError_bind, Run.mapError_heap]
    refine bind_congr fun heap => ?_
    cases e.message σ heap with
    | some message => exact congrArg throw (report_badIndexAt shown message).symm
    | none => rfl
  | ok k =>
    simp only [Run.mapError_bind, Run.mapError_lookup]
    refine bind_congr fun entries => ?_
    rw [config_rebased]
    split
    · rfl
    · split
      · rfl
      · rw [Run.mapError_throw, report_badIndexAt]

theorem readElement_rebased (shown : String) (holder : Place) (key : String) (container : Value) :
    (n.rebased root front).readElement σ shown holder key container
        (fun v => Run.mapError (report σ root front) (write v)) =
      Run.mapError (report σ root front) (n.readElement σ shown holder key container write) := by
  cases container with
  | null => rw [readElement, readElement, Run.mapError_throw, report_nullAt]
  | array elem l =>
    simp only [readElement, readArray, Run.mapError_bind, indexOf_rebased, lengthened_rebased,
      config_rebased, itemAt_rebased]
  | list s l =>
    simp only [readElement, readList, Run.mapError_bind, indexOf_rebased, innerType_rebased,
      growListForRead_rebased, itemAt_rebased]
  | set s l => exact readSet_rebased shown key l
  | map s l => exact readMap_rebased shown holder key l
  | _ => exact congrArg throw (report_noContainerAt shown _).symm

theorem putItem_rebased (l : Loc) (index : Nat) (v : Value) (path reason : String) :
    putItem l index v ((n.rebased root front).badIndexAt σ path reason) =
      Run.mapError (report σ root front) (putItem l index v (n.badIndexAt σ path reason)) := by
  simp only [putItem, Run.mapError_bind, Run.mapError_lookup]
  refine bind_congr fun after => ?_
  cases after with
  | some after => rfl
  | none => rw [Run.mapError_throw, report_badIndexAt]

theorem writeElement_rebased (whole holder : Place) (key : String) (raw container : Value) :
    (n.rebased root front).writeElement σ whole holder key raw container
        (fun v => Run.mapError (report σ root front) (write v)) =
      Run.mapError (report σ root front)
        (n.writeElement σ whole holder key raw container write) := by
  cases container with
  | array elem l =>
    simp only [writeElement, writeArray, Run.mapError_bind, convertFor_rebased, indexOf_rebased,
      lengthened_rebased, putItem_rebased]
  | list s l =>
    simp only [writeElement, writeList, Run.mapError_bind, innerType_rebased, convertFor_rebased,
      indexOf_rebased, Run.mapError_lookup, putItem_rebased]
    refine bind_congr fun v => bind_congr fun index => bind_congr fun items => ?_
    rw [config_rebased]
    split <;> rfl
  | map s l =>
    simp only [writeElement, writeMap, Run.mapError_bind, Run.mapError_mapError, innerType_rebased,
      convertFor_rebased, convertKey_rebased, report_conversionAt, Run.mapError_update]
  | _ => exact congrArg throw (report_noContainerAt whole.canonical _).symm

end Steps

theorem readContainer_rebased (shown name : String) :
    (n.rebased root front).readContainer σ shown name =
      Run.mapError (report σ root front) (n.readContainer σ shown name) := by
  have written : (n.rebased root front).writeProperty σ name =
      fun v => Run.mapError (report σ root front) (n.writeProperty σ name v) :=
    funext (writeProperty_rebased name)
  simp only [readContainer, Run.mapError_bind, readProperty_rebased, written, present_rebased]

/-- From further up, a place is read and written as before, and failures are reported so. -/
theorem read_write_rebased (p : Place) :
    (∀ shown, (n.rebased root front).read σ shown p =
      Run.mapError (report σ root front) (n.read σ shown p)) ∧
    ∀ raw, (n.rebased root front).write σ p raw =
      Run.mapError (report σ root front) (n.write σ p raw) := by
  induction p with
  | property name =>
    refine ⟨fun shown => ?_, fun raw => ?_⟩
    · rw [read, read, readProperty_rebased]
    · rw [write, write, writeProperty_rebased]
  | element holder key ih =>
    have written : (n.rebased root front).write σ holder =
        fun v => Run.mapError (report σ root front) (n.write σ holder v) := funext ih.2
    refine ⟨fun shown => ?_, fun raw => ?_⟩
    · have held : (n.rebased root front).readHolder σ shown holder =
          Run.mapError (report σ root front) (n.readHolder σ shown holder) := by
        cases holder with
        | property name => exact readContainer_rebased shown name
        | element inner key => exact ih.1 shown
      rw [read_element, read_element, held, written, Run.mapError_bind]
      exact bind_congr fun container => readElement_rebased shown holder key container
    · rw [write, write, written]
      simp only [Run.mapError_bind, Run.mapError_mapError, ih.1, present_rebased,
        writeElement_rebased, report_holderError]

theorem enter_rebased (p : Place) :
    (n.rebased root front).enter σ p = Run.mapError (report σ root front) (n.enter σ p) := by
  have written : (n.rebased root front).write σ p =
      fun v => Run.mapError (report σ root front) (n.write σ p v) :=
    funext (read_write_rebased p).2
  simp only [enter, Run.mapError_bind, (read_write_rebased p).1, written, present_rebased]
  refine bind_congr fun found => bind_congr fun v => ?_
  cases v with
  | object o => rfl
  | _ => exact congrArg throw (report_unreadableAt _).symm

theorem seek_rebased (segments : List Segment) :
    (n.rebased root front).seek σ segments = Run.mapError (report σ root front) (do
      let found ← n.seek σ segments
      return (found.1.rebased root front, found.2)) := by
  induction segments generalizing n with
  | nil => rfl
  | cons s rest ih =>
    cases rest with
    | nil => rfl
    | cons next rest =>
      simp only [seek, enter_rebased, child_rebased, ih, Run.mapError_bind, bind_assoc]

end Node

end PropertyAccess
