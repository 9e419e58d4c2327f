import PropertyAccess.Proofs.Conversion.ElementPaths
import PropertyAccess.Proofs.Navigation.Batches
import PropertyAccess.Proofs.Navigation.Conduct

/-! Writes that cannot get to their place. Whether a property can be read depends on the class
of the object alone, so a place whose property was read once never turns out to be unreadable
later. Where the property is missing or cannot be read, or a segment leads to something that
is no object, a write says that the whole path is not writable, and a batch can pass it by. -/

namespace PropertyAccess

theorem joined_cons (s : Segment) {rest : List Segment} (hr : rest ≠ []) :
    joined (s :: rest) = s.canonical ++ "." ++ joined rest := by
  cases rest with
  | nil => exact absurd rfl hr
  | cons t rest =>
    apply String.toList_inj.1
    simp [joined, joinedChars, Segment.canonical]

def PathError.Told (e : PathError) : Prop := e.kind ≠ .notReadable

theorem PathError.told_whileWriting (root path : String) (e : PathError) :
    (e.whileWriting root path).Told := by
  cases e <;> simp [whileWriting, Told, kind]

theorem Place.exists_element {s : Segment} (keyed : s.keys ≠ []) :
    ∃ holder key, Place.ofSegment s = .element holder key := by
  obtain ⟨name, keys⟩ := s
  rcases keys.eq_nil_or_concat with rfl | ⟨before, key, rfl⟩
  · exact absurd rfl keyed
  · rw [List.concat_eq_append]
    exact ⟨_, key, Place.ofSegment_append ⟨name, before⟩ key⟩

namespace Node

variable {σ : Schema} {n : Node} {h g : Heap} {p : Place} {v : Value}

def readable (σ : Schema) (n : Node) (name : String) : Bool :=
  ((n.handle? σ name).map Handle.isReadable).getD false

theorem readProperty_of_unreadable {name : String} (no : n.readable σ name = false)
    (shown : String) : n.readProperty σ shown name = throw (n.unreadableAt σ shown) := by
  rw [readable] at no
  rw [readProperty]
  cases found : n.handle? σ name with
  | none => rfl
  | some hd =>
    rw [found] at no
    have unreadable : ¬ hd.isReadable = true := Bool.eq_false_iff.1 no
    exact if_neg unreadable

theorem read_of_unreadable (no : n.readable σ p.root = false) (shown : String) :
    n.read σ shown p = throw (n.unreadableAt σ shown) := by
  induction p with
  | property name =>
    rw [read]
    exact readProperty_of_unreadable no shown
  | element holder key ih =>
    have first : n.readHolder σ shown holder = throw (n.unreadableAt σ shown) := by
      cases holder with
      | property name =>
        have own : n.readProperty σ shown name = throw (n.unreadableAt σ shown) :=
          readProperty_of_unreadable no shown
        rw [readHolder, readContainer, own]
        rfl
      | element => exact ih no
    rw [read_element, first]
    rfl

theorem told_conversionAt (path : String) (e : ConvertError) : (n.conversionAt path e).Told := by
  cases e <;> simp [conversionAt, PathError.Told, PathError.kind]

theorem told_faultAt (path : String) (required : Ty) (e : PropertyFault) :
    (n.faultAt σ path required e).Told := by
  cases e <;> simp [faultAt, PathError.Told, PathError.kind]

theorem told_uninstantiableAt (path : String) (type : Ty) (fault : InstanceFault) :
    (n.uninstantiableAt path type fault).Told := by
  simp [uninstantiableAt, PathError.Told, PathError.kind]

theorem told_nullAt (path : String) : (n.nullAt σ path).Told := by
  simp [nullAt, PathError.Told, PathError.kind]

theorem told_badIndexAt (path reason : String) : (n.badIndexAt σ path reason).Told := by
  simp [badIndexAt, PathError.Told, PathError.kind]

theorem told_unwritableAt (path reason : String) : (n.unwritableAt σ path reason).Told := by
  simp [unwritableAt, PathError.Told, PathError.kind]

theorem told_noContainerAt (path : String) (found : Value) :
    (n.noContainerAt σ path found).Told := by
  simp [noContainerAt, PathError.Told, PathError.kind]

theorem told_holderError (path : String) (e : PathError) : (n.holderError σ path e).Told := by
  cases e <;> simp [holderError, unwritableAt, PathError.Told, PathError.kind]

theorem told_convertFor (path : String) (raw : Value) (required : Ty) :
    (n.convertFor σ path raw required).FailsAs PathError.Told :=
  .mapError _ (told_conversionAt path)

theorem told_indexOf (path key : String) : (n.indexOf σ path key).FailsAs PathError.Told := by
  unfold indexOf
  split
  · exact .pure _
  · exact .throw (told_badIndexAt _ _)

theorem told_readProperty {name : String} (yes : n.readable σ name = true) (shown : String) :
    (n.readProperty σ shown name).FailsAs PathError.Told := by
  rw [readable] at yes
  unfold readProperty
  split
  · rename_i hd found
    rw [found] at yes
    have readable : hd.isReadable = true := yes
    rw [if_pos readable]
    exact .mapError _ (told_faultAt _ _)
  · rename_i missing
    rw [missing] at yes
    cases yes

theorem told_writeProperty (name : String) (raw : Value) :
    (n.writeProperty σ name raw).FailsAs PathError.Told := by
  unfold writeProperty
  split
  · refine .ite ((told_convertFor _ _ _).bind fun v => .mapError _ (told_faultAt _ _)) ?_
    exact .throw (told_unwritableAt _ _)
  · exact .throw (told_unwritableAt _ _)

section Containers

variable {read : Run PathError Value} {write : Value → Run PathError Unit}

theorem told_present (hr : read.FailsAs PathError.Told)
    (hw : ∀ v, (write v).FailsAs PathError.Told) (p : Place) (shown : String) (found : Value) :
    (n.present σ p shown found read write).FailsAs PathError.Told := by
  refine .ite (.pure _) (.ite ?_ (.throw (told_nullAt _)))
  refine .ite (.throw (told_nullAt _)) ?_
  refine Run.FailsAs.bind (.mapError _ (told_uninstantiableAt _ _)) fun fresh => ?_
  exact (hw fresh).bind fun _ => hr.bind fun v => .ite (.throw (told_nullAt _)) (.pure _)

theorem told_lengthened (hw : ∀ v, (write v).FailsAs PathError.Told) (may : Bool) (shown : String)
    (elem : Ty) (l : Loc) (index : Nat) :
    (n.lengthened σ may shown elem l index write).FailsAs PathError.Told := by
  refine (Run.FailsAs.lookup _).bind fun items => .ite ?_ (.pure _)
  refine Run.FailsAs.bind (.mapError _ (told_uninstantiableAt _ _)) fun grown => ?_
  exact (hw grown).bind fun _ => .pure _

theorem told_itemAt (shown : String) (l : Loc) (index : Nat) :
    (n.itemAt σ shown l index).FailsAs PathError.Told := by
  refine (Run.FailsAs.lookup _).bind fun items => ?_
  split
  · exact .pure _
  · exact .throw (told_badIndexAt _ _)

theorem told_readElement (hw : ∀ v, (write v).FailsAs PathError.Told) (shown : String)
    (holder : Place) (key : String) (container : Value) :
    (n.readElement σ shown holder key container write).FailsAs PathError.Told := by
  unfold readElement
  split
  · exact .throw (told_nullAt _)
  · exact (told_indexOf _ _).bind fun index =>
      (told_lengthened hw _ _ _ _ _).bind fun target => told_itemAt _ _ _
  · refine (told_indexOf _ _).bind fun index => Run.FailsAs.bind ?_ fun _ => told_itemAt _ _ _
    exact (Run.FailsAs.lookup _).bind fun items =>
      .ite (.mapError _ (told_uninstantiableAt _ _)) (.pure _)
  · refine (told_indexOf _ _).bind fun index => (Run.FailsAs.lookup _).bind fun items => ?_
    split
    · exact .pure _
    · exact .throw (told_badIndexAt _ _)
  · refine (Run.FailsAs.outcome _).bind fun converted => ?_
    split
    · refine Run.FailsAs.heap.bind fun _ => ?_
      split
      · exact .throw (told_badIndexAt _ _)
      · exact .throw nofun
    · refine (Run.FailsAs.lookup _).bind fun entries => ?_
      split
      · exact .pure _
      · exact .ite (.pure _) (.throw (told_badIndexAt _ _))
  · exact .throw (told_noContainerAt _ _)

theorem told_putItem (l : Loc) (index : Nat) (v : Value) {missing : PathError}
    (told : missing.Told) : (putItem l index v missing).FailsAs PathError.Told := by
  refine (Run.FailsAs.lookup _).bind fun after => ?_
  split
  · exact fun _ => trivial
  · exact .throw told

theorem told_writeElement (hw : ∀ v, (write v).FailsAs PathError.Told) (whole holder : Place)
    (key : String) (raw container : Value) :
    (n.writeElement σ whole holder key raw container write).FailsAs PathError.Told := by
  unfold writeElement
  split
  · refine (told_convertFor _ _ _).bind fun v => (told_indexOf _ _).bind fun index => ?_
    exact (told_lengthened hw _ _ _ _ _).bind fun target =>
      told_putItem _ _ _ (told_badIndexAt _ _)
  · refine (told_convertFor _ _ _).bind fun v => (told_indexOf _ _).bind fun index => ?_
    refine (Run.FailsAs.lookup _).bind fun items => .ite (fun _ => trivial) ?_
    exact told_putItem _ _ _ (told_badIndexAt _ _)
  · refine Run.FailsAs.bind (.mapError _ (told_conversionAt _)) fun k => ?_
    exact (told_convertFor _ _ _).bind fun v _ => trivial
  · exact .throw (told_noContainerAt _ _)

end Containers

theorem told_of_readable (yes : n.readable σ p.root = true) :
    (∀ shown, (n.read σ shown p).FailsAs PathError.Told) ∧
      ∀ raw, (n.write σ p raw).FailsAs PathError.Told := by
  induction p with
  | property name =>
    refine ⟨fun shown => ?_, fun raw => ?_⟩
    · rw [read]
      exact told_readProperty yes shown
    · rw [write]
      exact told_writeProperty name raw
  | element holder key ih =>
    obtain ⟨reads, writes⟩ := ih yes
    refine ⟨fun shown => ?_, fun raw => ?_⟩
    · rw [read_element]
      refine Run.FailsAs.bind ?_ fun container => told_readElement writes shown holder key container
      cases holder with
      | property name =>
        exact (told_readProperty yes shown).bind fun found =>
          told_present (told_readProperty yes _) (told_writeProperty name) _ _ _
      | element => exact reads shown
    · rw [write]
      have found : (Run.mapError (n.holderError σ (Place.element holder key).canonical)
          (n.read σ holder.canonical holder)).FailsAs PathError.Told :=
        .mapError _ (told_holderError _)
      exact found.bind fun v => (told_present (reads _) writes _ _ _).bind fun container =>
        told_writeElement writes _ _ _ _ _

theorem write_of_unreadable (holder : Place) (key : String)
    (no : n.readable σ holder.root = false) (raw : Value) :
    n.write σ (.element holder key) raw =
      throw (n.unwritableAt σ (Place.element holder key).canonical
        ("cannot access the container referenced in indexed path `" ++
          (Place.element holder key).canonical ++ "`")) := by
  rw [write, read_of_unreadable no]
  rfl

theorem told_write (p : Place) (raw : Value) : (n.write σ p raw).FailsAs PathError.Told := by
  cases readable : n.readable σ p.root with
  | true => exact (told_of_readable readable).2 raw
  | false =>
    cases p with
    | property name =>
      rw [write]
      exact told_writeProperty name raw
    | element holder key =>
      rw [write_of_unreadable holder key readable]
      exact .throw (told_unwritableAt _ _)

/-- The value of a segment on the way, made if it is missing and may be. -/
def onward (σ : Schema) (n : Node) (p : Place) : Run PathError Value := do
  let found ← n.read σ p.canonical p
  n.present σ p p.canonical found (n.read σ p.canonical p) (n.write σ p)

theorem enter_eq (p : Place) : n.enter σ p = (do
    match ← n.onward σ p with
    | .object o => return o
    | _ => throw (n.unreadableAt σ p.canonical)) := by
  rw [enter, onward]
  exact (bind_assoc _ _ _).symm

theorem on_enter_of_unreadable (no : n.readable σ p.root = false) (h : Heap) :
    (n.enter σ p).on h = (.error (n.unreadableAt σ p.canonical), h) := by
  rw [enter, read_of_unreadable no]
  rfl

theorem on_enter_of_no_object (found : (n.onward σ p).on h = (.ok v, g))
    (other : ∀ o, v ≠ .object o) :
    (n.enter σ p).on h = (.error (n.unreadableAt σ p.canonical), g) := by
  rw [enter_eq, Run.on_bind_of_ok found]
  cases v with
  | object o => exact absurd rfl (other o)
  | _ => rfl

/-! Where a node is met: under a root, with the segments on the way in its path. -/

structure Placed (top : Node) (at_ : List String) (n : Node) : Prop where
  root : n.root = top.root
  path : n.nestedPath = at_.foldl (fun path s => path ++ s ++ ".") top.nestedPath

theorem Placed.child {top : Node} {at_ : List String} (hn : top.Placed at_ n) (s : Segment)
    (o : ObjectRef) : top.Placed (at_ ++ [s.canonical]) (n.child s o) where
  root := hn.root
  path := by rw [List.foldl_append, ← hn.path]; rfl

theorem Placed.node {top : Node} {at_ : List String} (hn : top.Placed at_ n) (i : Incident) :
    top.Placed at_ (i.node n) := by
  obtain ⟨_, same⟩ := i.exists_node_eq n
  rw [same]
  exact ⟨hn.root, hn.path⟩

theorem Placed.rootName {top : Node} {at_ : List String} (hn : top.Placed at_ n) :
    n.rootName σ = top.rootName σ := congrArg (fun r : ObjectRef => σ.classPath r.cls) hn.root

theorem foldl_canonical (path : String) (outer : List Segment) (s : Segment) :
    (outer.map Segment.canonical).foldl (fun path s => path ++ s ++ ".") path ++ s.canonical =
      path ++ joined (outer ++ [s]) := by
  induction outer generalizing path with
  | nil => rfl
  | cons t outer ih =>
    rw [List.map_cons, List.foldl_cons, ih, List.cons_append, joined_cons t (by simp)]
    simp only [String.append_assoc]

end Node

namespace Accessor

variable {σ : Schema} {n : Node} {a b : Accessor} {h g g' : Heap} {at_ : List String}
  {place : Place} {outer rest : List Segment} {s : Segment} {e : PathError} {raw : Value}
  {text : String}

/-! Following stops where entering a node does. -/

theorem reach_append (at_ : List String) (n : Node) (outer : List Segment) (s : Segment)
    (rest : List Segment) :
    reach σ at_ n (outer ++ s :: rest) = (do
      let found ← reach σ at_ n (outer ++ [s])
      reach σ (at_ ++ outer.map Segment.canonical) found.1 (s :: rest)) := by
  induction outer generalizing at_ n with
  | nil => simp [reach]
  | cons t outer ih =>
    rw [List.cons_append, List.cons_append, Walk.reach_cons _ _ t (by simp),
      Walk.reach_cons _ _ t (by simp), bind_assoc]
    refine bind_congr fun child => ?_
    rw [ih, List.map_cons, List.append_assoc, List.singleton_append]

theorem ends_reach_place (at_ : List String) (n : Node) (outer : List Segment) (s : Segment)
    (a : Accessor) (h : Heap) :
    Walk.Ends (reach σ at_ n (outer ++ [s])) a h (fun r _ _ => r.2 = Place.ofSegment s)
      fun _ _ _ => True := by
  induction outer generalizing at_ n a h with
  | nil => exact rfl
  | cons t outer ih =>
    rw [List.cons_append, Walk.reach_cons _ _ t (by simp), Walk.ends_bind]
    exact (Walk.ends_on _ a h).mono (fun child a' h' _ => ih _ child a' h') fun _ _ _ _ => trivial

theorem on_apply_of_stop (read : Path.parse text = .ok ⟨outer ++ s :: rest⟩) (further : rest ≠ [])
    (followed : on (follow σ ⟨outer ++ [s]⟩) a h = ((.ok (n, place), b), g))
    (stops : (n.enter σ (Place.ofSegment s)).on g = (.error e, g')) (raw : Value) :
    on (apply σ text raw) a h = ((.error (e.whileWriting (a.node.rootName σ)
      (a.node.fullPath (Path.canonical ⟨outer ++ s :: rest⟩))), b), g') := by
  have came : on (reach σ [] a.node (outer ++ [s])) a h = ((.ok (n, place), b), g) := followed
  have entered := (Walk.ends_enter σ (outer.map Segment.canonical ++ [s.canonical]) n s).1
    (Walk.ends_on (enter σ _ n s) b g)
  have stopped : on (follow σ ⟨outer ++ s :: rest⟩) a h = ((.error e, b), g') := by
    change on (reach σ [] a.node (outer ++ s :: rest)) a h = _
    rw [reach_append, Walk.on_bind, came]
    dsimp only
    rw [List.nil_append, Walk.reach_cons _ _ s further, Walk.on_bind, entered.of_error stops]
  rw [on_apply read, stopped]

theorem on_apply_last (read : Path.parse text = .ok ⟨outer ++ [s]⟩)
    (followed : on (follow σ ⟨outer ++ [s]⟩) a h = ((.ok (n, place), b), g))
    (writes : (n.write σ place raw).on g = (.error e, g')) :
    on (apply σ text raw) a h = ((.error e, b), g') := by
  rw [on_apply read, followed]
  dsimp only
  rw [Walk.on_lift, writes]

/-- Nothing is written: the path is not writable, and a batch that leaves out what is not
writable goes on with its next entry. -/
def PassedBy (σ : Schema) (root full text : String) (raw : Value) (s : Accessor × Heap) : Prop :=
  ∃ (reason : String) (t : Accessor × Heap), on (apply σ text raw) s.1 s.2 =
      ((.error (.notWritable root full reason), t.1), t.2) ∧
    ∀ (o : BatchOptions) (optional : Bool) (vs : Batch) (failures : List (String × PathError)),
      o.ignoreUnknown = true →
        on (applyAll σ o (⟨text, raw, optional⟩ :: vs) failures) s.1 s.2 =
          on (applyAll σ o vs failures) t.1 t.2

theorem passedBy_of_apply {root full text reason : String} {raw : Value} {s t : Accessor × Heap}
    (ran : on (apply σ text raw) s.1 s.2 = ((.error (.notWritable root full reason), t.1), t.2)) :
    PassedBy σ root full text raw s := by
  refine ⟨reason, t, ran, fun o optional vs failures ignores => ?_⟩
  have skips : o.verdict optional (.notWritable root full reason) = .skip := by
    simp [BatchOptions.verdict, PathError.kind, ignores]
  rw [applyAll, Walk.on_bind, Walk.on_outcome, ran]
  dsimp only
  rw [skips]

theorem told_apply (text : String) (raw : Value) {e : PathError}
    (failed : on (apply σ text raw) a h = ((.error e, b), g)) : e.Told := by
  cases read : Path.parse text with
  | error fault =>
    have malformed : on (apply σ text raw) a h = ((.error (.malformedPath fault), a), h) := by
      rw [apply, parsed, read]
      rfl
    rw [malformed] at failed
    cases failed
    simp [PathError.Told, PathError.kind]
  | ok p =>
    rw [on_apply read] at failed
    split at failed
    · rename_i n place a' h' _
      have told : Walk.Ends (lift (n.write σ place raw)) a' h' (fun _ _ _ => True)
          fun e _ _ => e.Told := (Walk.ends_lift _).2 (Node.told_write place raw h')
      exact told.of_error failed
    · cases failed
      exact PathError.told_whileWriting _ _ _

section Root

variable {top : Node} (plain : top.nestedPath = "")
include plain

/-- Where the walk would go on, and cannot. -/
theorem passedBy_of_stop (placed : a.Throughout top.Placed)
    (read : Path.parse text = .ok ⟨outer ++ s :: rest⟩) (further : rest ≠ [])
    (followed : on (follow σ ⟨outer ++ [s]⟩) a h = ((.ok (n, place), b), g))
    (stops : (n.enter σ (Place.ofSegment s)).on g =
      (.error (n.unreadableAt σ (Place.ofSegment s).canonical), g')) (raw : Value) :
    PassedBy σ (top.rootName σ) (Path.canonical ⟨outer ++ s :: rest⟩) text raw (a, h) := by
  have stopped := on_apply_of_stop read further followed stops raw
  have whole (path : String) : a.node.fullPath path = path := by
    rw [Node.fullPath, placed.node.path, List.foldl_nil, plain]
    exact String.empty_append
  rw [placed.node.rootName, whole] at stopped
  exact passedBy_of_apply (t := (b, g')) stopped

/-- Where the last key would go into a property that cannot be read. -/
theorem passedBy_of_unreadable (placed : top.Placed (outer.map Segment.canonical) n)
    (read : Path.parse text = .ok ⟨outer ++ [s]⟩) (keyed : s.keys ≠ [])
    (followed : on (follow σ ⟨outer ++ [s]⟩) a h = ((.ok (n, Place.ofSegment s), b), g))
    (unreadable : n.readable σ (Place.ofSegment s).root = false) (raw : Value) :
    PassedBy σ (top.rootName σ) (Path.canonical ⟨outer ++ [s]⟩) text raw (a, h) := by
  obtain ⟨holder, key, element⟩ := Place.exists_element keyed
  rw [element] at unreadable
  have own : (Place.element holder key).canonical = s.canonical := by
    rw [← element, Place.canonical, Place.segment_ofSegment]
  have full : n.fullPath s.canonical = joined (outer ++ [s]) := by
    rw [Node.fullPath, placed.path, Node.foldl_canonical, plain]
    exact String.empty_append
  have written := Node.write_of_unreadable holder key unreadable raw
  rw [Node.unwritableAt, placed.rootName, own, full, ← element] at written
  exact passedBy_of_apply (t := (b, g)) (on_apply_last read followed (by rw [written]; rfl))

end Root

/-- At any time, whatever was set and done before and in whatever order, a write never fails
because something cannot be read. Where the walk has come to a segment with a property that is
missing or cannot be read, and would go on from it or into it, the whole path is not writable;
so it is where the walk would go on from a value that is no object. -/
theorem write_unwritable (σ : Schema) (S : Strategies) (config : AccessConfig) (root : ObjectRef)
    (incidents : List Incident) (h : Heap) (text : String) (raw : Value) :
    let used := incidents.foldl (Incident.on σ) (rooted S config root, h)
    (∀ e b g, on (apply σ text raw) used.1 used.2 = ((.error e, b), g) → e.kind ≠ .notReadable) ∧
    ∀ outer s rest, Path.parse text = .ok ⟨outer ++ s :: rest⟩ →
      ∀ n place b g, on (follow σ ⟨outer ++ [s]⟩) used.1 used.2 = ((.ok (n, place), b), g) →
        (n.readable σ s.name = false → rest ≠ [] ∨ s.keys ≠ [] →
          PassedBy σ (σ.classPath root.cls) (Path.canonical ⟨outer ++ s :: rest⟩) text raw used) ∧
        ∀ v g', rest ≠ [] → (n.onward σ place).on g = (.ok v, g') → (∀ o, v ≠ .object o) →
          PassedBy σ (σ.classPath root.cls) (Path.canonical ⟨outer ++ s :: rest⟩) text raw used := by
  intro used
  let top : Node := (rooted S config root).node
  have placed : used.1.Throughout top.Placed :=
    Throughout.incidents (N := fun _ => top.Placed) (A := fun _ => True) (c := config)
      (fun hn s o => hn.child s o) (fun _ hn => hn.node _) incidents (fun _ _ => trivial)
      ⟨⟨rfl, rfl⟩, by simp [rooted]⟩ h
  refine ⟨fun e b g failed => told_apply text raw failed,
    fun outer s rest read n place b g followed => ?_⟩
  obtain rfl : place = Place.ofSegment s :=
    (ends_reach_place [] used.1.node outer s used.1 used.2).of_ok followed
  have there : top.Placed (outer.map Segment.canonical) n := by
    simpa using placed.follow (fun hm s o => hm.child s o) followed
  refine ⟨fun no further => ?_, fun v g' further found other =>
    passedBy_of_stop rfl placed read further followed (Node.on_enter_of_no_object found other) raw⟩
  have unreadable : n.readable σ (Place.ofSegment s).root = false := by
    rwa [Place.root_ofSegment]
  -- What comes last is read only if it has keys.
  by_cases last : rest = []
  · subst last
    exact passedBy_of_unreadable rfl there read (further.resolve_left (absurd rfl)) followed
      unreadable raw
  · exact passedBy_of_stop rfl placed read last followed
      (Node.on_enter_of_unreadable unreadable g) raw

end Accessor

/-! A shelf with a label that can be read and titles that can only be written. -/

namespace Shelf

def decl : ClassDecl :=
  ⟨"demo.Shelf", [], none, [⟨"label", .text, .readWrite⟩, ⟨"titles", .array .text, .writeOnly⟩],
    [], false, .plain, none⟩

def schema : Schema := Schema.empty.declareClass decl

def heap : Heap := ⟨#[.slots [("label", .text "A"), ("titles", .array .text 1)], .items []]⟩

def strategies : Strategies := ⟨.empty, .standard, none⟩

def accessor : Accessor := .rooted strategies .standard ⟨0, 0⟩

def incidents : List Incident := [.event (.growing true 8), .setting (.service none)]

def used : Accessor × Heap := incidents.foldl (Incident.on schema) (accessor, heap)

end Shelf

namespace Accessor

theorem write_unwritable_shelf :
    PassedBy Shelf.schema "demo.Shelf" "label.size" "label.size" (.text "1") Shelf.used ∧
      PassedBy Shelf.schema "demo.Shelf" "titles[0]" "titles[0]" (.text "Dune") Shelf.used := by
  have label : Path.parse "label.size" = .ok ⟨[] ++ ⟨"label", []⟩ :: [⟨"size", []⟩]⟩ := by cbv
  have titles : Path.parse "titles[0]" = .ok ⟨[] ++ ⟨"titles", ["0"]⟩ :: []⟩ := by cbv
  refine ⟨?_, ?_⟩
  · refine ((write_unwritable Shelf.schema Shelf.strategies .standard ⟨0, 0⟩ Shelf.incidents
      Shelf.heap "label.size" (.text "1")).2 [] _ _ label Shelf.used.1.node (.property "label")
      Shelf.used.1 Shelf.heap rfl).2 (.text "A") Shelf.heap (by simp) ?_ (by simp)
    rfl
  · exact ((write_unwritable Shelf.schema Shelf.strategies .standard ⟨0, 0⟩ Shelf.incidents
      Shelf.heap "titles[0]" (.text "Dune")).2 [] _ _ titles Shelf.used.1.node
      (.element (.property "titles") "0") Shelf.used.1 Shelf.heap rfl).1 (by decide +kernel)
      (.inr (by simp))

/-- A key for something that is no container is another failure, and stops a batch. -/
theorem write_not_passed_by :
    (on (resolve Shelf.schema "label") Shelf.accessor Shelf.heap).1.1 = .ok (.text "A") ∧
      (on (apply Shelf.schema "label[0].size" (.text "1")) Shelf.accessor Shelf.heap).1.1 =
        .error (.invalidTargetType "demo.Shelf" "label[0]" "String") ∧
      (on (applyBatch Shelf.schema ⟨true, false⟩ [⟨"label[0].size", .text "1", false⟩])
        Shelf.accessor Shelf.heap).1.1 =
        .ok (some (.stopped (.invalidTargetType "demo.Shelf" "label[0]" "String"))) := by
  refine ⟨?_, ?_, ?_⟩ <;> decide +kernel

end Accessor

end PropertyAccess
