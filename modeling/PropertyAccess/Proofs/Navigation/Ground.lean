import PropertyAccess.Proofs.Conversion.Stays
import PropertyAccess.Proofs.Navigation.Place

/-! Places in a realm. Where what is read of a place belongs to a realm, and the place takes
what belongs to it, the same goes for the elements of the place: containers are changed
within the realm, what is made for a missing value belongs to it, and so does the longer
array that a holder is given. So what is known of the properties of an object is known of
all places below them. -/

namespace PropertyAccess

structure Realm.Editable {σ : Schema} (R : Realm σ) : Prop where
  array : ∀ {w h h' elem l i v}, R.Fits w h → R.Allows w (.array elem l) → R.Allows w v →
    (R.strict → σ.accepts elem v = true) → h.setItem? l i v = some h' → R.Fits w h'
  list : ∀ {w h h' s l i v}, R.Fits w h → R.Allows w (.list s l) → R.Allows w v →
    h.setItem? l i v = some h' → R.Fits w h'
  append : ∀ {w h s l vs}, R.Fits w h → R.Allows w (.list s l) → (∀ x ∈ vs, R.Allows w x) →
    R.Fits w (h.appendItems l vs)
  insert : ∀ {w h s l k v} (shape : TableShape), R.Fits w h → R.Allows w (.map s l) →
    R.Allows w k → R.Allows w v → R.Fits w (h.insertEntry shape l k v)

/-- What the object has in its slots belongs to the realm, now and later, and an instance of
the type of a field that belongs to it can be put in the slot. -/
structure Realm.Owns {σ : Schema} (R : Realm σ) (w : R.World) (o : ObjectRef) : Prop where
  get : ∀ {w' h i s v}, R.Later w w' → R.Fits w' h → (σ.layout o.cls)[i]? = some s →
    h.slot? o.loc i = some v → R.Allows w' v
  set : ∀ {w' h h' i s v}, R.Later w w' → R.Fits w' h → (σ.layout o.cls)[i]? = some s →
    σ.accepts s.memberType v = true → R.Allows w' v → h.setSlot? o.loc i v = some h' →
    R.Fits w' h'

/-- Where null has the property, anything has it, and where an array has it, so has a longer
one in its place. -/
structure Value.Lenient (P : Value → Prop) : Prop where
  null : P .null → ∀ v, P v
  array : ∀ {elem l} m, P (.array elem l) → P (.array elem m)

namespace Run

variable {σ : Schema} {ε : Type}

def Reads (R : Realm σ) (w : R.World) (P : Value → Prop) (read : Run ε Value) : Prop :=
  ∀ w', R.Later w w' → read.Stays R w' fun u v => R.Allows u v ∧ P v

def Writes (R : Realm σ) (w : R.World) (P : Value → Prop) (write : Value → Run ε Unit) : Prop :=
  ∀ w', R.Later w w' → ∀ v, R.Allows w' v → P v → (write v).Stays R w' fun _ _ => True

variable {R : Realm σ} {w w' : R.World} {P : Value → Prop} {read : Run ε Value}
  {write : Value → Run ε Unit}

theorem Reads.later (hr : read.Reads R w P) (later : R.Later w w') : read.Reads R w' P :=
  fun u hu => hr u (R.trans later hu)

theorem Writes.later (hw : Run.Writes R w P write) (later : R.Later w w') :
    Run.Writes R w' P write := fun u hu => hw u (R.trans later hu)

end Run

namespace Node

structure Ground {σ : Schema} (n : Node) (R : Realm σ) (w : R.World) (p : Place)
    (P : Value → Prop) : Prop where
  reads : ∀ shown, (n.read σ shown p).Reads R w P
  writes : Run.Writes R w P (n.write σ p)
  lenient : Value.Lenient P

variable {σ : Schema} {n : Node} {R : Realm σ} {w w' : R.World} {P : Value → Prop} {p : Place}

theorem Ground.later (hp : n.Ground R w p P) (later : R.Later w w') : n.Ground R w' p P :=
  ⟨fun shown => (hp.reads shown).later later, hp.writes.later later, hp.lenient⟩

theorem stays_indexOf (path key : String) :
    (n.indexOf σ path key).Stays R w fun _ _ => True := by
  unfold indexOf
  split
  · exact .pure trivial
  · exact .throw _

theorem stays_itemAt (shown : String) {v : Value} {l : Loc} (hv : R.Allows w v)
    (hl : ∀ h : Heap, h.elements? v = some (h.items l)) (index : Nat) :
    (n.itemAt σ shown l index).Stays R w R.Allows := by
  refine (stays_items hv hl).bind fun w₁ items _ hitems => ?_
  split
  · rename_i x found
    exact .pure (hitems x (List.mem_of_getElem? found))
  · exact .throw _

section Conversions

variable (hσ : σ.Stays R) (hn : n.strategies.Stays R)
include hσ hn

theorem stays_convertFor (path : String) {raw : Value} (hv : R.Allows w raw) (required : Ty) :
    (n.convertFor σ path raw required).Stays R w fun w' v =>
      R.Allows w' v ∧ (R.strict → σ.accepts required v = true) := by
  refine Run.Stays.mapError _ ?_
  have stays := Strategies.stays_convert hσ hn required (some path) hv
  by_cases strict : R.strict
  · have gives := Strategies.gives_step (hσ.instances strict) (hn.instances strict) required
      (n.strategies.contents σ required) (some path) raw
    exact (stays.and_gives gives).mono fun _ _ _ hw => ⟨hw.1, fun _ => hw.2⟩
  · exact stays.mono fun _ _ _ hw => ⟨hw, fun hs => absurd hs strict⟩

theorem stays_convertKey (name : String) (depth : Nat) (key : String) :
    (n.convertKey σ name depth key).Stays R w R.Allows :=
  Strategies.stays_convert hσ hn _ none (R.scalar rfl)

theorem stays_readMap (shown : String) (holder : Place) (key : String) {s : TableShape} {l : Loc}
    (hm : R.Allows w (.map s l)) : (n.readMap σ shown holder key l).Stays R w R.Allows := by
  refine ((stays_convertKey hσ hn _ _ key).outcome).bind fun w₁ k later _ => ?_
  split
  · refine Run.Stays.bind (P := fun _ _ => True) (.heap fun _ _ => trivial) fun _ _ _ _ => ?_
    split
    · exact .throw _
    · exact .throw _
  · have hm := R.mono later hm
    refine Run.Stays.bind (P := fun w' es => ∀ e ∈ es, R.Allows w' e.2)
      (.lookup fun h fits e he => (R.entries fits hm e he).2) fun w₂ es _ hes => ?_
    split
    · rename_i v found
      obtain ⟨e, he, rfl⟩ := Option.map_eq_some_iff.1 found
      exact .pure (hes e (List.mem_of_find?_eq_some he))
    · exact .ite (fun _ => .pure (R.scalar rfl)) fun _ => .throw _

end Conversions

section Growing

variable (hσ : σ.Stays R) {read : Run PathError Value} {write : Value → Run PathError Unit}
include hσ

theorem stays_vivify (p : Place) (hr : read.Reads R w P) (hw : Run.Writes R w P write)
    (all : ∀ v, P v) : (n.vivify σ p read write).Stays R w fun w' v => R.Allows w' v ∧ P v := by
  refine .ite (fun _ => .throw _) fun _ => ?_
  refine ((hσ.defaultValue w _).mapError _).bind fun w₁ fresh later₁ hfresh => ?_
  refine (hw w₁ later₁ fresh hfresh (all fresh)).bind fun w₂ _ later₂ _ => ?_
  refine (hr w₂ (R.trans later₁ later₂)).bind fun w₃ v _ hv => ?_
  exact .ite (fun _ => .throw _) fun _ => .pure hv

theorem stays_present (p : Place) (shown : String) {found : Value} (lenient : Value.Lenient P)
    (hv : R.Allows w found ∧ P found) (hr : read.Reads R w P) (hw : Run.Writes R w P write) :
    (n.present σ p shown found read write).Stays R w fun w' v => R.Allows w' v ∧ P v := by
  refine .ite (fun _ => .pure hv) fun null => .ite (fun _ => ?_) fun _ => .throw _
  have missing : found = .null := by
    cases found with
    | null => rfl
    | _ => exact absurd rfl null
  exact stays_vivify hσ p hr hw (lenient.null (missing ▸ hv.2))

theorem stays_lengthened (may : Bool) (shown : String) {elem : Ty} {l : Loc}
    (lenient : Value.Lenient P) (ha : R.Allows w (.array elem l) ∧ P (.array elem l)) (index : Nat)
    (hw : Run.Writes R w P write) :
    (n.lengthened σ may shown elem l index write).Stays R w fun w' target =>
      R.Allows w' (.array elem target) := by
  refine Run.Stays.bind (P := fun w' _ => R.Later w w') (.lookup fun _ _ => R.refl w) ?_
  intro w₁ old _ later₁
  refine .ite (fun _ => ?_) fun _ => .pure (R.mono later₁ ha.1)
  have array : (σ.grownArray elem l (index + 1)).Gives fun v => ∃ m, v = .array elem m :=
    .after fun _ => .after fun _ => .after fun m => .pure ⟨m, rfl⟩
  have grown := (hσ.grownArray (R.mono later₁ ha.1) (index + 1)).and_gives array
  refine (grown.mapError _).bind fun w₂ v later₂ hv => ?_
  obtain ⟨hv, m, rfl⟩ := hv
  refine (hw w₂ (R.trans later₁ later₂) _ hv (lenient.array m ha.2)).bind fun w₃ _ later₃ _ => ?_
  exact .pure (R.mono later₃ hv)

variable (hR : R.Editable)
include hR

theorem stays_growList (elem : Ty) {s : ListShape} {l : Loc} (hl : R.Allows w (.list s l))
    (missing : Nat) : (σ.growList elem l missing).Stays R w fun _ _ => True := by
  induction missing generalizing w with
  | zero => exact .pure trivial
  | succ missing ih =>
    refine (hσ.defaultValue w elem).bind fun w₁ v later hv => ?_
    have hl := R.mono later hl
    refine Run.Stays.bind (P := fun w' _ => R.Later w₁ w') (fun h fits => ?_) fun w₂ _ _ later₂ =>
      ih (R.mono later₂ hl)
    exact ⟨w₁, R.refl w₁, hR.append fits hl (List.forall_mem_singleton.2 hv), R.refl w₁⟩

theorem stays_growListForRead (p : Place) (elem : Ty) {s : ListShape} {l : Loc}
    (hl : R.Allows w (.list s l)) (index : Nat) :
    (n.growListForRead σ p elem l index).Stays R w fun _ _ => True := by
  refine Run.Stays.bind (P := fun w' _ => R.Later w w') (.lookup fun _ _ => R.refl w) ?_
  intro w₁ old _ later
  exact .ite (fun _ => (stays_growList hσ hR elem (R.mono later hl) _).mapError _) fun _ =>
    .pure trivial

variable (hn : n.strategies.Stays R)
include hn

theorem stays_readElement (shown : String) (holder : Place) (key : String) {container : Value}
    (lenient : Value.Lenient P) (hc : R.Allows w container ∧ P container)
    (hw : Run.Writes R w P write) :
    (n.readElement σ shown holder key container write).Stays R w R.Allows := by
  unfold readElement
  split
  · exact .throw _
  · refine (stays_indexOf _ _).bind fun w₁ index later _ => ?_
    refine (stays_lengthened hσ _ _ lenient ⟨R.mono later hc.1, hc.2⟩ index (hw.later later)).bind
      fun w₂ target _ ht => ?_
    exact stays_itemAt shown ht (fun _ => rfl) index
  · refine (stays_indexOf _ _).bind fun w₁ index later _ => ?_
    refine (stays_growListForRead hσ hR _ _ (R.mono later hc.1) index).bind fun w₂ _ later₂ _ => ?_
    exact stays_itemAt shown (R.mono (R.trans later later₂) hc.1) (fun _ => rfl) index
  · refine (stays_indexOf _ _).bind fun w₁ index later _ => ?_
    have hc := R.mono later hc.1
    refine (stays_items hc fun _ => rfl).bind fun w₂ items _ hitems => ?_
    split
    · rename_i x found
      exact .pure (hitems x (List.mem_of_getElem? found))
    · exact .throw _
  · exact stays_readMap hσ hn shown holder key hc.1
  · exact .throw _

omit hσ hn in
theorem stays_putItem_array {elem : Ty} {l : Loc} {v : Value} (ha : R.Allows w (.array elem l))
    (hv : R.Allows w v ∧ (R.strict → σ.accepts elem v = true)) (index : Nat)
    (missing : PathError) : (putItem l index v missing).Stays R w fun _ _ => True := by
  intro h fits
  simp only [putItem, Run.ends_bind, Run.ends_lookup]
  split
  · rename_i after stored
    exact ⟨w, R.refl w, hR.array fits ha hv.1 hv.2 stored, trivial⟩
  · exact ⟨w, R.refl w, fits⟩

omit hσ hn in
theorem stays_putItem_list {s : ListShape} {l : Loc} {v : Value} (hl : R.Allows w (.list s l))
    (hv : R.Allows w v) (index : Nat) (missing : PathError) :
    (putItem l index v missing).Stays R w fun _ _ => True := by
  intro h fits
  simp only [putItem, Run.ends_bind, Run.ends_lookup]
  split
  · rename_i after stored
    exact ⟨w, R.refl w, hR.list fits hl hv stored, trivial⟩
  · exact ⟨w, R.refl w, fits⟩

theorem stays_writeArray (whole : Place) {elem : Ty} {l : Loc} (lenient : Value.Lenient P)
    (ha : R.Allows w (.array elem l) ∧ P (.array elem l)) (key : String) {raw : Value}
    (hv : R.Allows w raw) (hw : Run.Writes R w P write) :
    (n.writeArray σ whole elem l key raw write).Stays R w fun _ _ => True := by
  refine (stays_convertFor hσ hn _ hv _).bind fun w₁ v later₁ hv => ?_
  refine (stays_indexOf _ _).bind fun w₂ index later₂ _ => ?_
  have later := R.trans later₁ later₂
  refine (stays_lengthened hσ _ _ lenient ⟨R.mono later ha.1, ha.2⟩ index (hw.later later)).bind
    fun w₃ target later₃ ht => ?_
  exact stays_putItem_array hR ht ⟨R.mono (R.trans later₂ later₃) hv.1, hv.2⟩ index _

theorem stays_writeList (whole : Place) {s : ListShape} {l : Loc} (hl : R.Allows w (.list s l))
    (key : String) {raw : Value} (hv : R.Allows w raw) :
    (n.writeList σ whole l key raw).Stays R w fun _ _ => True := by
  refine (stays_convertFor hσ hn _ hv _).bind fun w₁ v later₁ hv => ?_
  refine (stays_indexOf _ _).bind fun w₂ index later₂ _ => ?_
  refine Run.Stays.bind (P := fun w' _ => R.Later w₂ w') (.lookup fun _ _ => R.refl w₂) ?_
  intro w₃ old _ later₃
  have hv := R.mono (R.trans later₂ later₃) hv.1
  have hl := R.mono (R.trans later₁ (R.trans later₂ later₃)) hl
  refine .ite (fun _ h fits => ?_) fun _ => stays_putItem_list hR hl hv _ _
  refine ⟨w₃, R.refl w₃, hR.append fits hl (fun x hx => ?_), trivial⟩
  rcases List.mem_append.1 hx with hx | hx
  · rw [List.eq_of_mem_replicate hx]
    exact R.scalar rfl
  · rw [List.mem_singleton.1 hx]
    exact hv

theorem stays_writeMap (whole holder : Place) {s : TableShape} (shape : TableShape) {l : Loc}
    (hm : R.Allows w (.map s l)) (key : String) {raw : Value} (hv : R.Allows w raw) :
    (n.writeMap σ whole holder shape l key raw).Stays R w fun _ _ => True := by
  refine ((stays_convertKey hσ hn _ _ key).mapError _).bind fun w₁ k later₁ hk => ?_
  refine (stays_convertFor hσ hn _ (R.mono later₁ hv) _).bind fun w₂ v later₂ hv => ?_
  exact fun h fits => ⟨w₂, R.refl w₂,
    hR.insert shape fits (R.mono (R.trans later₁ later₂) hm) (R.mono later₂ hk) hv.1, trivial⟩

theorem stays_writeElement (whole holder : Place) (key : String) {raw container : Value}
    (hv : R.Allows w raw) (lenient : Value.Lenient P) (hc : R.Allows w container ∧ P container)
    (hw : Run.Writes R w P write) :
    (n.writeElement σ whole holder key raw container write).Stays R w fun _ _ => True := by
  unfold writeElement
  split
  · exact stays_writeArray hσ hR hn whole lenient hc key hv hw
  · exact stays_writeList hσ hR hn whole hc.1 key hv
  · exact stays_writeMap hσ hR hn whole holder _ hc.1 key hv
  · exact .throw _

end Growing

namespace Ground

variable (hp : n.Ground R w p P) (hσ : σ.Stays R)
include hp hσ

theorem present (shown : String) {found : Value} (hv : R.Allows w found ∧ P found)
    (shown' : String) :
    (n.present σ p shown found (n.read σ shown' p) (n.write σ p)).Stays R w fun w' v =>
      R.Allows w' v ∧ P v :=
  stays_present hσ p shown hp.lenient hv (hp.reads shown') hp.writes

theorem readHolder (shown : String) :
    (n.readHolder σ shown p).Stays R w fun w' v => R.Allows w' v ∧ P v := by
  cases p with
  | property name =>
    have own : n.readContainer σ shown name = (do
        let found ← n.read σ shown (.property name)
        n.present σ (.property name) shown found (n.read σ (Place.property name).canonical
          (.property name)) (n.write σ (.property name))) := by
      have write : n.write σ (.property name) = n.writeProperty σ name := by
        funext raw
        rw [Node.write]
      rw [readContainer, Node.read, Node.read, write]
    rw [Node.readHolder, own]
    exact (hp.reads shown w (R.refl w)).bind fun w₁ found later hv =>
      (hp.later later).present hσ shown hv _
  | element => exact hp.reads shown w (R.refl w)

theorem enter : (n.enter σ p).Stays R w fun w' o => R.Allows w' (.object o) := by
  refine (hp.reads _ w (R.refl w)).bind fun w₁ found later hv => ?_
  refine ((hp.later later).present hσ _ hv _).bind fun w₂ v _ hv => ?_
  split
  · exact .pure hv.1
  · exact .throw _

variable (hR : R.Editable) (hn : n.strategies.Stays R)
include hR hn

theorem element (key : String) : n.Ground R w (.element p key) fun _ => True where
  reads shown w₁ later := by
    rw [read_element]
    refine ((hp.later later).readHolder hσ shown).bind fun w₂ c later₂ hc => ?_
    have hp := hp.later (R.trans later later₂)
    exact (stays_readElement hσ hR hn shown p key hp.lenient hc hp.writes).mono
      fun _ _ _ hv => ⟨hv, trivial⟩
  writes w₁ later raw hv _ := by
    rw [Node.write]
    refine ((hp.reads _ w₁ later).mapError _).bind fun w₂ found later₂ hfound => ?_
    have hp := hp.later (R.trans later later₂)
    refine (hp.present hσ _ hfound _).bind fun w₃ container later₃ hc => ?_
    exact stays_writeElement hσ hR hn _ p key (R.mono (R.trans later₂ later₃) hv) hp.lenient hc
      (hp.writes.later later₃)
  lenient := ⟨fun _ _ => trivial, fun _ _ => trivial⟩

end Ground

/-- Now and later, what the property is read as belongs to the realm, and what belongs to it
may be written to the property. -/
structure Accesses {σ : Schema} (n : Node) (R : Realm σ) (w : R.World) (name : String) : Prop where
  get : ∀ {w' hd}, R.Later w w' → n.handle? σ name = some hd →
    (hd.get n.wrapped).Stays R w' R.Allows
  set : ∀ {w' hd v}, R.Later w w' → n.handle? σ name = some hd → R.Allows w' v →
    (hd.set σ n.wrapped v).Stays R w' fun _ _ => True

namespace Accesses

variable {name : String}

theorem later (access : n.Accesses R w name) (later : R.Later w w') : n.Accesses R w' name :=
  ⟨fun next => access.get (R.trans later next), fun next => access.set (R.trans later next)⟩

theorem stays_readProperty (access : n.Accesses R w name) (shown : String) :
    (n.readProperty σ shown name).Stays R w R.Allows := by
  unfold readProperty
  split
  · rename_i hd found
    exact .ite (fun _ => (access.get (R.refl w) found).mapError _) fun _ => .throw _
  · exact .throw _

theorem stays_writeProperty (access : n.Accesses R w name) (hσ : σ.Stays R)
    (hn : n.strategies.Stays R) {raw : Value} (hv : R.Allows w raw) :
    (n.writeProperty σ name raw).Stays R w fun _ _ => True := by
  unfold writeProperty
  split
  · rename_i hd found
    refine .ite (fun _ => ?_) fun _ => .throw _
    exact (stays_convertFor hσ hn _ hv _).bind fun w₁ v later hv =>
      (access.set later found hv.1).mapError _
  · exact .throw _

end Accesses

/-- Where classes have only fields, all that is asked for is what is asked of slots. -/
theorem accesses_of_fields (fields : ∀ d ∈ σ.classes, d.properties = []) (own : R.Owns w n.wrapped)
    (name : String) : n.Accesses R w name where
  get := by
    intro w' hd later found h fits
    obtain ⟨i, readable, writable, s, slot, -, access⟩ := Schema.slot_of_handle? fields found
    cases readable with
    | false =>
      rw [Handle.get, access]
      exact ⟨w', R.refl w', fits⟩
    | true =>
      simp only [Handle.get, access, Run.ends_bind, Run.ends_lookup]
      split
      · rename_i v value
        exact ⟨w', R.refl w', fits, own.get later fits slot value⟩
      · exact ⟨w', R.refl w', fits⟩
  set := by
    intro w' hd v later found hv
    obtain ⟨i, readable, writable, s, slot, type, access⟩ := Schema.slot_of_handle? fields found
    rw [Handle.set, type]
    refine .ite (fun accepted => ?_) fun _ => .throw _
    rw [access]
    cases writable with
    | false => exact .throw _
    | true =>
      intro h fits
      simp only [Run.ends_bind, Run.ends_lookup]
      split
      · rename_i after stored
        exact ⟨w', R.refl w', own.set later fits slot accepted hv stored, trivial⟩
      · exact ⟨w', R.refl w', fits⟩

theorem ground_of_accesses (access : n.Accesses R w p.root) (hσ : σ.Stays R) (hR : R.Editable)
    (hn : n.strategies.Stays R) : n.Ground R w p fun _ => True := by
  induction p with
  | property name =>
    refine ⟨fun shown w₁ later => ?_, fun w₁ later raw hv _ => ?_, ⟨by simp, by simp⟩⟩
    · rw [Node.read]
      exact ((access.later later).stays_readProperty shown).mono fun _ _ _ hv => ⟨hv, trivial⟩
    · rw [Node.write]
      exact (access.later later).stays_writeProperty hσ hn hv
  | element holder key ih => exact (ih access).element hσ hR hn key

theorem ground (fields : ∀ d ∈ σ.classes, d.properties = []) (own : R.Owns w n.wrapped)
    (hσ : σ.Stays R) (hR : R.Editable) (hn : n.strategies.Stays R) (p : Place) :
    n.Ground R w p fun _ => True :=
  ground_of_accesses (accesses_of_fields fields own p.root) hσ hR hn

end Node

end PropertyAccess
