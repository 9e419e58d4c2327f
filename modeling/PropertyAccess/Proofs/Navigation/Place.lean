import PropertyAccess.Navigation.Place
import PropertyAccess.Proofs.Conversion.Harmless
import PropertyAccess.Proofs.Property.Handle

/-! Places of an object that is read and written without growing. A read only
makes new cells. A write fails before it changes anything: an array that has to
grow is stored in its holder first, and from then on it has the position that
is written, since nothing that stores it makes it shorter. -/

namespace PropertyAccess

theorem Place.root_foldl_element (p : Place) (ks : List String) :
    (ks.foldl Place.element p).root = p.root := by
  induction ks generalizing p with
  | nil => rfl
  | cons k ks ih => exact ih _

@[simp] theorem Place.root_ofSegment (s : Segment) : (Place.ofSegment s).root = s.name :=
  Place.root_foldl_element _ _

theorem Place.ofSegment_append (s : Segment) (key : String) :
    Place.ofSegment { s with keys := s.keys ++ [key] } = .element (Place.ofSegment s) key := by
  simp [Place.ofSegment]

structure Node.Calm (σ : Schema) (n : Node) : Prop where
  growing : n.config.growing = false
  strategies : n.strategies.Harmless σ

theorem Ty.isUnknown_element? {t : Ty} (ht : t.isUnknown = true) :
    (t.element?.getD .any).isUnknown = true := by
  cases t <;> first | rfl | cases ht

namespace Node

variable {σ : Schema} {n : Node}

/-- What a place holds when one of its elements is asked for. -/
def readHolder (σ : Schema) (n : Node) (shown : String) : Place → Run PathError Value
  | .property name => n.readContainer σ shown name
  | .element holder key => n.read σ shown (.element holder key)

theorem read_element (shown : String) (holder : Place) (key : String) :
    n.read σ shown (.element holder key) = (do
      let container ← n.readHolder σ shown holder
      n.readElement σ shown holder key container (n.write σ holder)) := by
  cases holder with
  | property name => rw [read, readHolder]
  | element holder inner => rw [read, readHolder]

theorem read_property (shown name : String) :
    n.read σ shown (.property name) = n.readProperty σ shown name := by
  rw [Node.read]

theorem write_property (name : String) :
    n.write σ (.property name) = n.writeProperty σ name := by
  funext raw
  rw [write]

theorem innerType_succ (name : String) (depth : Nat) :
    n.innerType σ name (depth + 1) = ((n.innerType σ name depth).element?).getD .any := by
  unfold innerType
  cases n.handle? σ name with
  | none => rfl
  | some hd =>
    simp only [Option.map_some, Option.getD_some]
    rw [Ty.inner_add, Ty.inner]
    cases (hd.type.inner depth).element? <;> rfl

theorem innerType_elements {name : String} {depth : Nat} {t : Ty}
    (known : n.innerType σ name depth = t ∨ (n.innerType σ name depth).isUnknown = true) :
    n.innerType σ name (depth + 1) = t.element?.getD .any ∨
      (n.innerType σ name (depth + 1)).isUnknown = true := by
  rw [innerType_succ]
  exact known.imp (fun same => by rw [same]) Ty.isUnknown_element?

theorem harmless_indexOf (path key : String) : (n.indexOf σ path key).Harmless := by
  unfold indexOf
  split
  · exact .pure _
  · exact .throw _

theorem harmless_convertFor (hσ : σ.MakesNew) (hn : n.strategies.Harmless σ) (path : String)
    (raw : Value) (required : Ty) : (n.convertFor σ path raw required).Harmless :=
  (Strategies.harmless_convert hσ hn required _ _).mapError _

theorem harmless_convertKey (hσ : σ.MakesNew) (hn : n.strategies.Harmless σ) (name : String)
    (depth : Nat) (key : String) : (n.convertKey σ name depth key).Harmless :=
  Strategies.harmless_convert hσ hn _ _ _

def Quiet (σ : Schema) (n : Node) (name : String) : Prop :=
  ∀ hd, n.handle? σ name = some hd → (hd.get n.wrapped).Harmless

theorem quiet (hσ : σ.Harmless) (name : String) : n.Quiet σ name :=
  fun _ found => Schema.harmless_get hσ found _

def IsField (σ : Schema) (n : Node) (name : String) : Prop :=
  ∀ hd, n.handle? σ name = some hd →
    ∃ i readable writable, hd.access = .slot i readable writable

theorem IsField.quiet {name : String} (hf : n.IsField σ name) : n.Quiet σ name := by
  intro hd found
  obtain ⟨i, readable, writable, access⟩ := hf hd found
  rw [Handle.get, access]
  cases readable with
  | false => exact .throw _
  | true =>
    refine (Run.Harmless.lookup _).bind fun value => ?_
    split
    · exact .pure _
    · exact .throw _

theorem isField (fields : ∀ d ∈ σ.classes, d.properties = []) (name : String) :
    n.IsField σ name := by
  intro hd found
  obtain ⟨i, readable, writable, -, -, -, access⟩ := Schema.slot_of_handle? fields found
  exact ⟨i, readable, writable, access⟩

theorem harmless_readProperty {name : String} (hq : n.Quiet σ name) (shown : String) :
    (n.readProperty σ shown name).Harmless := by
  unfold readProperty
  split
  · rename_i hd hh
    exact .ite ((hq hd hh).mapError _) (.throw _)
  · exact .throw _

theorem harmless_present (hg : n.config.growing = false) (p : Place) (shown : String)
    (found : Value) (read : Run PathError Value) (write : Value → Run PathError Unit) :
    (n.present σ p shown found read write).Harmless := by
  unfold present
  rw [if_neg (by simp [hg] : ¬ n.config.growing = true)]
  exact .ite (.pure _) (.throw _)

theorem harmless_lengthened (shown : String) (elem : Ty) (l : Loc) (index : Nat)
    (write : Value → Run PathError Unit) :
    (n.lengthened σ false shown elem l index write).Harmless :=
  (Run.Harmless.lookup _).bind fun _ => .pure _

theorem harmless_growListForRead (hg : n.config.growing = false) (p : Place) (elem : Ty)
    (l : Loc) (index : Nat) : (n.growListForRead σ p elem l index).Harmless := by
  refine (Run.Harmless.lookup _).bind fun items => ?_
  rw [if_neg (by simp [hg])]
  exact .pure _

theorem harmless_itemAt (shown : String) (l : Loc) (index : Nat) :
    (n.itemAt σ shown l index).Harmless := by
  refine (Run.Harmless.lookup _).bind fun items => ?_
  split
  · exact .pure _
  · exact .throw _

theorem harmless_readMap (hσ : σ.MakesNew) (hn : n.Calm σ) (shown : String) (holder : Place)
    (key : String) (l : Loc) : (n.readMap σ shown holder key l).Harmless := by
  refine (harmless_convertKey hσ hn.strategies _ _ _).outcome.bind fun converted => ?_
  split
  · refine Run.Harmless.heap.bind fun _ => ?_
    split
    · exact .throw _
    · exact .throw _
  · refine (Run.Harmless.lookup _).bind fun entries => ?_
    split
    · exact .pure _
    · rw [if_neg (by simp [hn.growing])]
      exact .throw _

theorem harmless_readElement (hσ : σ.MakesNew) (hn : n.Calm σ) (shown : String) (holder : Place)
    (key : String) (container : Value) (write : Value → Run PathError Unit) :
    (n.readElement σ shown holder key container write).Harmless := by
  unfold readElement
  split
  · exact .throw _
  · refine (harmless_indexOf _ _).bind fun index => ?_
    rw [hn.growing]
    exact (harmless_lengthened _ _ _ _ _).bind fun _ => harmless_itemAt _ _ _
  · refine (harmless_indexOf _ _).bind fun index => ?_
    exact (harmless_growListForRead hn.growing _ _ _ _).bind fun _ => harmless_itemAt _ _ _
  · refine (harmless_indexOf _ _).bind fun index => (Run.Harmless.lookup _).bind fun items => ?_
    split
    · exact .pure _
    · exact .throw _
  · exact harmless_readMap hσ hn _ _ _ _
  · exact .throw _

theorem harmless_readContainer (hn : n.Calm σ) {name : String} (hq : n.Quiet σ name)
    (shown : String) : (n.readContainer σ shown name).Harmless :=
  (harmless_readProperty hq _).bind fun _ => harmless_present hn.growing _ _ _ _ _

theorem harmless_read (hσ : σ.MakesNew) (hn : n.Calm σ) (shown : String) {p : Place}
    (hq : n.Quiet σ p.root) : (n.read σ shown p).Harmless := by
  induction p with
  | property name => exact harmless_readProperty hq shown
  | element holder key ih =>
    rw [read_element]
    refine Run.Harmless.bind ?_ fun _ => harmless_readElement hσ hn _ _ _ _ _
    cases holder with
    | property name => exact harmless_readContainer hn hq shown
    | element holder key => exact ih hq

theorem Calm.harmless_read (hn : n.Calm σ) (hσ : σ.Harmless) (shown : String) (p : Place) :
    (n.read σ shown p).Harmless := Node.harmless_read hσ.makesNew hn shown (quiet hσ p.root)

theorem harmless_enter (hσ : σ.MakesNew) (hn : n.Calm σ) {p : Place} (hq : n.Quiet σ p.root) :
    (n.enter σ p).Harmless := by
  refine (harmless_read hσ hn _ hq).bind fun found => ?_
  refine (harmless_present hn.growing _ _ _ _ _).bind fun v => ?_
  split
  · exact .pure _
  · exact .throw _

theorem harmless_child (hn : n.strategies.Harmless σ) (s : Segment) (o : ObjectRef) :
    (n.child s o).strategies.Harmless σ :=
  ⟨fun c hc => hn.registered c (Registrations.mem_of_mem_below hc), hn.defaults, hn.service⟩

theorem calm_child (hn : n.Calm σ) (s : Segment) (o : ObjectRef) : (n.child s o).Calm σ :=
  ⟨hn.growing, harmless_child hn.strategies s o⟩

theorem allOrNothing_writeProperty (hσ : σ.MakesNew) (hs : σ.Careful)
    (hn : n.strategies.Harmless σ) (name : String) (raw : Value) :
    (n.writeProperty σ name raw).AllOrNothing := by
  unfold writeProperty
  split
  · rename_i hd hh
    dsimp only
    split
    · refine (harmless_convertFor hσ hn _ _ _).then fun v => ?_
      exact Run.AllOrNothing.mapError (fun h => Schema.ends_set hs hh _ _ h) _
    · exact (Run.Harmless.throw _).allOrNothing
  · exact (Run.Harmless.throw _).allOrNothing

theorem ends_lengthened_iff {may : Bool} {shown : String} {elem : Ty} {l : Loc} {index : Nat}
    {write : Value → Run PathError Unit} {h : Heap} {Q : Loc → Heap → Prop}
    {E : PathError → Heap → Prop} :
    (n.lengthened σ may shown elem l index write).Ends h Q E ↔
      if may = true ∧ (h.items l).length ≤ index ∧ index < n.config.limit then
        (σ.grownArray elem l (index + 1)).Ends h
          (fun copy g => (write copy).Ends g (fun _ g' => Q (copy.loc?.getD l) g') E)
          (fun e g => E (n.uninstantiableAt shown elem e) g)
      else Q l h := by
  simp only [lengthened, Run.ends_bind, Run.ends_lookup, Bool.and_eq_true, decide_eq_true_eq,
    and_assoc]
  split
  · simp only [Run.ends_bind, Run.ends_mapError, Run.ends_pure]
  · exact Iff.rfl

theorem ends_growListForRead_iff {p : Place} {elem : Ty} {l : Loc} {index : Nat} {h : Heap}
    {Q : Unit → Heap → Prop} {E : PathError → Heap → Prop} :
    (n.growListForRead σ p elem l index).Ends h Q E ↔
      if n.config.growing = true ∧ elem.isUnknown = false ∧ (h.items l).length ≤ index ∧
          index < n.config.limit then
        (σ.growList elem l (index + 1 - (h.items l).length)).Ends h Q
          (fun e g => E (n.uninstantiableAt p.canonical elem e) g)
      else Q () h := by
  simp only [growListForRead, Run.ends_bind, Run.ends_lookup, Bool.and_eq_true,
    Bool.not_eq_true', decide_eq_true_eq, and_assoc]
  split
  · exact Run.ends_mapError _ _
  · exact Iff.rfl

section Reading

/-! Each reader is described once: by what it finds, and by what is left where it fails. -/

variable {shown key : String} {holder : Place} {elem : Ty} {l : Loc} {h : Heap}
  {Q : Value → Heap → Prop} {E : PathError → Heap → Prop}

theorem ends_readProperty_of {name : String} (hf : n.IsField σ name)
    (slot : ∀ hd i writable v, n.handle? σ name = some hd →
      hd.access = .slot i true writable → h.slot? n.wrapped.loc i = some v → Q v h)
    (failed : ∀ e, E e h) : (n.readProperty σ shown name).Ends h Q E := by
  unfold readProperty
  split
  · rename_i hd found
    obtain ⟨i, readable, writable, access⟩ := hf hd found
    split
    · rw [Run.ends_mapError, Handle.get, access]
      cases readable with
      | false => exact failed _
      | true =>
        simp only [Run.ends_bind, Run.ends_lookup]
        split
        · exact slot hd i writable _ found access ‹_›
        · exact failed _
    · exact failed _
  · exact failed _

theorem ends_itemAt_of {index : Nat} (item : ∀ v, (h.items l)[index]? = some v → Q v h)
    (failed : ∀ e, E e h) : (n.itemAt σ shown l index).Ends h Q E := by
  simp only [itemAt, Run.ends_bind, Run.ends_lookup]
  split
  · exact item _ ‹_›
  · exact failed _

theorem ends_indexOf_of {Q : Nat → Heap → Prop} (index : ∀ i, Text.index? key = some i → Q i h)
    (failed : ∀ e, E e h) : (n.indexOf σ shown key).Ends h Q E := by
  unfold indexOf
  split
  · exact index _ ‹_›
  · exact failed _

theorem ends_readArray_of {write : Value → Run PathError Unit}
    (target : ∀ i, Text.index? key = some i →
      (n.lengthened σ n.config.growing holder.canonical elem l i write).Ends h
        (fun m g => (∀ v, (g.items m)[i]? = some v → Q v g) ∧ ∀ e, E e g) E)
    (failed : ∀ e, E e h) : (n.readArray σ shown holder key elem l write).Ends h Q E := by
  rw [readArray, Run.ends_bind]
  refine ends_indexOf_of (fun i index => ?_) failed
  rw [Run.ends_bind]
  exact (target i index).mono (fun m g found => ends_itemAt_of found.1 found.2) fun _ _ => id

theorem ends_readList_of
    (grown : ∀ i, Text.index? key = some i →
      (n.growListForRead σ holder (n.innerType σ holder.root (holder.depth + 1)) l i).Ends h
        (fun _ g => (∀ v, (g.items l)[i]? = some v → Q v g) ∧ ∀ e, E e g) E)
    (failed : ∀ e, E e h) : (n.readList σ shown holder key l).Ends h Q E := by
  rw [readList, Run.ends_bind]
  refine ends_indexOf_of (fun i index => ?_) failed
  rw [Run.ends_bind]
  exact (grown i index).mono (fun _ g found => ends_itemAt_of found.1 found.2) fun _ _ => id

theorem ends_readSet_of
    (item : ∀ i v, Text.index? key = some i → (h.items l)[i]? = some v → Q v h)
    (failed : ∀ e, E e h) : (n.readSet σ shown key l).Ends h Q E := by
  rw [readSet, Run.ends_bind]
  refine ends_indexOf_of (fun i index => ?_) failed
  rw [Run.ends_bind, Run.ends_lookup]
  split
  · exact item _ _ index ‹_›
  · exact failed _

theorem ends_readHolder_of {P : Value → Heap → Prop} (read : (n.read σ shown holder).Ends h P E)
    (element : ∀ v g, P v g → Q v g)
    (present : ∀ v g, P v g →
      (n.present σ holder shown v (n.read σ holder.canonical holder) (n.write σ holder)).Ends g Q E) :
    (n.readHolder σ shown holder).Ends h Q E := by
  cases holder with
  | element => exact read.mono element fun _ _ => id
  | property name =>
    rw [read_property] at read
    rw [readHolder, readContainer, Run.ends_bind]
    refine read.mono (fun v g hv => ?_) fun _ _ => id
    rw [← read_property, ← write_property]
    exact present v g hv

theorem ends_readMap (hσ : σ.MakesNew) (hn : n.strategies.Harmless σ) :
    (n.readMap σ shown holder key l).Ends h
      (fun v h' => ∃ k, (n.convertKey σ holder.root holder.depth key).on h = (.ok k, h') ∧
        h.Extends h' ∧ (MapEntries.get? (h'.entries l) k = some v ∨
          MapEntries.get? (h'.entries l) k = none ∧ n.config.growing = true ∧ v = .null))
      (fun _ h' => h.Extends h') := by
  simp only [readMap, Run.ends_bind, Run.ends_outcome]
  have harmless := (harmless_convertKey hσ hn holder.root holder.depth key).ends h
  refine ((Run.ends_on _ h).and harmless).mono (fun k h₁ hk => ?_) fun e h₁ he => ?_
  · rw [Run.ends_lookup]
    split
    · exact ⟨k, hk.1, hk.2, .inl ‹_›⟩
    · split
      · exact ⟨k, hk.1, hk.2, .inr ⟨‹_›, ‹_›, rfl⟩⟩
      · exact hk.2
  · rw [Run.ends_heap]
    split
    · exact he.2
    · exact he.2

end Reading

theorem ends_lengthened (hσ : σ.MakesNew) {write : Value → Run PathError Unit}
    (hw : ∀ v, (write v).AllOrNothing) (may : Bool) (shown : String) (elem : Ty) (l : Loc)
    (index : Nat) (h : Heap) :
    (n.lengthened σ may shown elem l index write).Ends h
      (fun target h' => h.Grows h' ∧ (h' = h ∧ target = l ∨ index < (h'.items target).length))
      (fun _ h' => h.Extends h') := by
  rw [ends_lengthened_iff]
  split
  · refine (Schema.ends_grownArray hσ elem l (index + 1) h).mono (fun v h₁ hx => ?_)
      fun _ _ hx => hx
    obtain ⟨hext, g, news, rfl, -, hcell, hlen, -⟩ := hx
    refine (hw (.array elem g) h₁).mono (fun _ h₂ hgrow => ?_) fun _ _ hy => hext.trans hy
    obtain ⟨ws, hcell', hle⟩ := hgrow g _ hcell
    refine ⟨hext.grows.trans hgrow, .inr ?_⟩
    have items : h₂.items g = ws := by simp [Heap.items, hcell']
    simp only [Value.loc?, Option.getD_some, items]
    rw [List.length_append] at hle
    omega
  · exact ⟨.refl h, .inl ⟨rfl, rfl⟩⟩

theorem ends_putItem (l : Loc) (index : Nat) (v : Value) (missing : PathError) (h : Heap) :
    (putItem l index v missing).Ends h (fun _ h' => h.Grows h')
      (fun _ h' => h' = h ∧ (h.items l).length ≤ index) := by
  simp only [putItem, Run.ends_bind, Run.ends_lookup]
  split
  · rename_i after hs
    exact Heap.grows_setItem? hs
  · rename_i hs
    refine ⟨rfl, ?_⟩
    unfold Heap.setItem? at hs
    split at hs
    · cases hs
    · omega

theorem allOrNothing_writeArray (hσ : σ.MakesNew) (hn : n.strategies.Harmless σ)
    {writeHolder : Value → Run PathError Unit} (hw : ∀ v, (writeHolder v).AllOrNothing)
    (whole : Place) (elem : Ty) (l : Loc) (key : String) (raw : Value) :
    (n.writeArray σ whole elem l key raw writeHolder).AllOrNothing := by
  refine (harmless_convertFor hσ hn _ _ _).then fun v => ?_
  refine (harmless_indexOf _ _).then fun index h => ?_
  rw [Run.ends_bind]
  refine (ends_lengthened hσ hw true _ elem l index h).mono (fun target h₁ hx => ?_)
    fun _ _ hx => hx
  refine (ends_putItem target index v _ h₁).mono (fun _ _ hy => hx.1.trans hy) fun _ h₂ hy => ?_
  -- A position that is missing even now was missing before, and no longer array was stored.
  rcases hx.2 with ⟨rfl, rfl⟩ | hlt
  · exact hy.1 ▸ .refl _
  · exact absurd hlt (Nat.not_lt.2 hy.2)

theorem allOrNothing_writeList (hσ : σ.MakesNew) (hn : n.strategies.Harmless σ) (whole : Place)
    (l : Loc) (key : String) (raw : Value) :
    (n.writeList σ whole l key raw).AllOrNothing := by
  refine (harmless_convertFor hσ hn _ _ _).then fun v => ?_
  refine (harmless_indexOf _ _).then fun index h => ?_
  simp only [Run.ends_bind, Run.ends_lookup]
  split
  · exact Heap.grows_appendItems _
  · exact (ends_putItem l index v _ h).mono (fun _ _ hx => hx) fun _ _ hx => hx.1 ▸ .refl _

theorem allOrNothing_writeMap (hσ : σ.MakesNew) (hn : n.strategies.Harmless σ)
    (whole holder : Place) (shape : TableShape) (l : Loc) (key : String) (raw : Value) :
    (n.writeMap σ whole holder shape l key raw).AllOrNothing := by
  refine ((harmless_convertKey hσ hn _ _ _).mapError _).then fun k => ?_
  refine (harmless_convertFor hσ hn _ _ _).then fun v h => ?_
  exact Heap.grows_insertEntry _ _ _

theorem allOrNothing_writeElement (hσ : σ.MakesNew) (hn : n.strategies.Harmless σ)
    {writeHolder : Value → Run PathError Unit} (hw : ∀ v, (writeHolder v).AllOrNothing)
    (whole holder : Place) (key : String) (raw container : Value) :
    (n.writeElement σ whole holder key raw container writeHolder).AllOrNothing := by
  unfold writeElement
  split
  · exact allOrNothing_writeArray hσ hn hw _ _ _ _ _
  · exact allOrNothing_writeList hσ hn _ _ _ _
  · exact allOrNothing_writeMap hσ hn _ _ _ _ _ _
  · exact (Run.Harmless.throw _).allOrNothing

theorem allOrNothing_write (hσ : σ.Harmless) (hs : σ.Careful) (hn : n.Calm σ) (p : Place)
    (raw : Value) : (n.write σ p raw).AllOrNothing := by
  -- An element is written by writing its holder.
  induction p generalizing raw with
  | property name => exact allOrNothing_writeProperty hσ.makesNew hs hn.strategies name raw
  | element holder key ih =>
    rw [write]
    refine ((harmless_read hσ.makesNew hn _ (quiet hσ _)).mapError _).then fun found => ?_
    refine (harmless_present hn.growing _ _ _ _ _).then fun container => ?_
    exact allOrNothing_writeElement hσ.makesNew hn.strategies ih _ _ _ _ _

end Node

end PropertyAccess
