import PropertyAccess.Proofs.Graph.Spots
import PropertyAccess.Proofs.Navigation.Place
import PropertyAccess.Proofs.Schema.Sparing

/-! Places that are there. A place that is reached through slots, elements and entries
that exist is read without making anything, and what is written to it takes the
place of what it held. It still leads there afterwards, unless the way to it goes
through the very spot that was written. -/

namespace PropertyAccess

/-- Where the elements of an array, a list or a set are, and their type, which is known
of an array and otherwise `declared`. -/
def Value.sequence? (declared : Ty) : Value → Option (Loc × Ty)
  | .array elem l => some (l, elem)
  | .list _ l | .set _ l => some (l, declared)
  | _ => none

theorem Value.isNull_of_sequence? {declared : Ty} {c : Value} {found : Loc × Ty}
    (cell : c.sequence? declared = some found) : c.isNull = false := by
  cases c with
  | null => cases cell
  | _ => rfl

theorem Value.loc?_of_sequence? {declared : Ty} {c : Value} {l : Loc} {elem : Ty}
    (cell : c.sequence? declared = some (l, elem)) : c.loc? = some l := by
  cases c <;> simp_all [Value.sequence?, Value.loc?]

namespace Heap.Conserves

variable {h h' : Heap} {l : Loc} {i : Nat}

theorem items_of_item (later : h.Conserves h') {v : Value} (value : (h.items l)[i]? = some v) :
    h'.items l = h.items l := by
  have cell := later.items l _ (cell?_of_item value)
  rw [Heap.items, cell]

theorem entries_of_entry (later : h.Conserves h') {e : Value × Value}
    (value : (h.entries l)[i]? = some e) : h'.entries l = h.entries l := by
  have cell := later.entries l _ (cell?_of_entry value)
  rw [Heap.entries, cell]

end Heap.Conserves

namespace Node

/-- In `h`, the place holds the value, at a spot for values of the type, and the way
to it goes through the other spots. A key of a map becomes the same value every time. -/
inductive Holds (σ : Schema) (n : Node) (h : Heap) :
    Place → Value → Ty → Spot → List Spot → Prop
  | field {name : String} {hd : Handle} {i : Nat} {writable : Bool} {v : Value}
      (handle : n.handle? σ name = some hd) (access : hd.access = .slot i true writable)
      (value : h.slot? n.wrapped.loc i = some v) :
      Holds σ n h (.property name) v hd.type (n.wrapped.loc, i) []
  | item {holder : Place} {key : String} {container v : Value} {type elem : Ty} {l : Loc}
      {spot : Spot} {before : List Spot} {i : Nat}
      (inner : Holds σ n h holder container type spot before)
      (cell : container.sequence? (n.innerType σ holder.root (holder.depth + 1)) = some (l, elem))
      (index : Text.index? key = some i) (value : (h.items l)[i]? = some v) :
      Holds σ n h (.element holder key) v elem (l, i) (spot :: before)
  | entry {holder : Place} {key : String} {shape : TableShape} {k : Value} {e : Value × Value}
      {type : Ty} {l : Loc} {spot : Spot} {before : List Spot} {i : Nat}
      (inner : Holds σ n h holder (.map shape l) type spot before)
      (converts : ∀ g, ∃ g', (n.convertKey σ holder.root holder.depth key).on g = (.ok k, g'))
      (found : (h.entries l).findIdx? (·.1.same k) = some i) (value : (h.entries l)[i]? = some e) :
      Holds σ n h (.element holder key) e.2 (n.innerType σ holder.root (holder.depth + 1)) (l, i)
        (spot :: before)

def Converts (σ : Schema) (n : Node) (h : Heap) (path : String) (raw : Value) (type : Ty)
    (v : Value) (h' : Heap) : Prop :=
  ∃ g, h.Extends g ∧ (n.convertFor σ path raw type).on g = (.ok v, h')

variable {σ : Schema} {n : Node} {h h' : Heap} {p : Place} {v : Value} {type : Ty} {spot : Spot}
  {before : List Spot}

namespace Holds

theorem mono (hp : n.Holds σ h p v type spot before) (hx : h.Extends h') :
    n.Holds σ h' p v type spot before := by
  induction hp with
  | field handle access value =>
    have old := Heap.lt_size_of_cell? (Heap.cell?_of_slot? value)
    exact .field handle access (by rw [Heap.slot?, hx.slots_eq old]; exact value)
  | item _ cell index value ih =>
    have old := Heap.lt_size_of_cell? (Heap.cell?_of_item value)
    exact .item ih cell index (by rw [hx.items_eq old]; exact value)
  | entry _ converts found value ih =>
    have old := Heap.lt_size_of_cell? (Heap.cell?_of_entry value)
    exact .entry ih converts (by rw [hx.entries_eq old]; exact found)
      (by rw [hx.entries_eq old]; exact value)

theorem lt_size (hp : n.Holds σ h p v type spot before) :
    ∀ s ∈ spot :: before, s.1 < h.size := by
  induction hp with
  | field _ _ value =>
    have old := Heap.lt_size_of_cell? (Heap.cell?_of_slot? value)
    simpa using old
  | item _ _ _ value ih =>
    have old := Heap.lt_size_of_cell? (Heap.cell?_of_item value)
    exact List.forall_mem_cons.2 ⟨old, ih⟩
  | entry _ _ _ value ih =>
    have old := Heap.lt_size_of_cell? (Heap.cell?_of_entry value)
    exact List.forall_mem_cons.2 ⟨old, ih⟩

theorem at_spot (hp : n.Holds σ h p v type spot before) : h.at? spot = some v := by
  cases hp with
  | field _ _ value =>
    rw [Heap.at?, Heap.cell?_of_slot? value]
    exact value
  | item _ _ _ value =>
    rw [Heap.at?, Heap.cell?_of_item value]
    exact value
  | entry _ _ _ value =>
    rw [Heap.at?, Heap.cell?_of_entry value]
    simp [Cell.at?, value]

theorem store_of_not_mem (hp : n.Holds σ h p v type spot before) {s : Spot}
    (hs : s ∉ spot :: before) (w : Value) : n.Holds σ (h.store s w) p v type spot before := by
  induction hp with
  | field handle access value =>
    have apart := List.ne_of_not_mem_cons hs
    exact .field handle access (by rw [Heap.slot?_store_of_ne apart.symm, value])
  | item _ cell index value ih =>
    have apart := List.ne_of_not_mem_cons hs
    exact .item (ih (List.not_mem_of_not_mem_cons hs)) cell index
      (by rw [Heap.item_store_of_ne apart.symm, value])
  | entry _ converts found value ih =>
    have apart := List.ne_of_not_mem_cons hs
    exact .entry (ih (List.not_mem_of_not_mem_cons hs)) converts
      (by rw [Heap.findIdx?_store, found]) (by rw [Heap.entry_store_of_ne apart.symm, value])

theorem store_self (hp : n.Holds σ h p v type spot before) (hs : spot ∉ before) (w : Value) :
    n.Holds σ (h.store spot w) p w type spot before := by
  cases hp with
  | field handle access value => exact .field handle access (Heap.slot?_store_self value)
  | item inner cell index value =>
    exact .item (inner.store_of_not_mem hs w) cell index (Heap.item_store_self value)
  | @entry _ _ _ _ e _ _ _ _ _ inner converts found value =>
    exact .entry (e := (e.1, w)) (inner.store_of_not_mem hs w) converts
      (by rw [Heap.findIdx?_store, found]) (Heap.entry_store_self value)

end Holds

theorem indexOf_eq {key : String} {i : Nat} (index : Text.index? key = some i) (path : String) :
    n.indexOf σ path key = pure i := by
  rw [indexOf, index]

theorem ends_lengthened_of_lt {l : Loc} {i : Nat} (hi : i < (h.items l).length) (may : Bool)
    (shown : String) (elem : Ty) (write : Value → Run PathError Unit) :
    (n.lengthened σ may shown elem l i write).Ends h (fun m h' => m = l ∧ h' = h)
      (fun _ _ => False) := by
  rw [ends_lengthened_iff, if_neg fun grows => Nat.not_le.2 hi grows.2.1]
  exact ⟨rfl, rfl⟩

theorem ends_growListForRead_of_lt {l : Loc} {i : Nat} (hi : i < (h.items l).length) (p : Place)
    (elem : Ty) :
    (n.growListForRead σ p elem l i).Ends h (fun _ h' => h' = h) (fun _ _ => False) := by
  rw [ends_growListForRead_iff, if_neg fun grows => Nat.not_le.2 hi grows.2.2.1]

theorem ends_itemAt {l : Loc} {i : Nat} (value : (h.items l)[i]? = some v) (shown : String) :
    (n.itemAt σ shown l i).Ends h (fun u h' => u = v ∧ h' = h) (fun _ _ => False) := by
  simp only [itemAt, Run.ends_bind, Run.ends_lookup, value]
  exact ⟨rfl, rfl⟩

theorem readProperty_eq {name : String} {hd : Handle} {i : Nat} {writable : Bool}
    (handle : n.handle? σ name = some hd) (access : hd.access = .slot i true writable)
    (shown : String) :
    n.readProperty σ shown name = Run.mapError (n.faultAt σ shown hd.type) (hd.get n.wrapped) := by
  simp only [readProperty, handle, Handle.isReadable, access, if_true]

theorem ends_readElement_item {container : Value} {holder : Place} {key shown : String} {l : Loc}
    {elem : Ty} {i : Nat}
    (cell : container.sequence? (n.innerType σ holder.root (holder.depth + 1)) = some (l, elem))
    (index : Text.index? key = some i) (value : (h.items l)[i]? = some v)
    (write : Value → Run PathError Unit) :
    (n.readElement σ shown holder key container write).Ends h (fun u h' => u = v ∧ h' = h)
      (fun _ _ => False) := by
  have inside : i < (h.items l).length := (List.getElem?_eq_some_iff.1 value).1
  cases container with
  | array e m =>
    obtain ⟨rfl, rfl⟩ : m = l ∧ e = elem := by simpa [Value.sequence?] using cell
    simp only [readElement, readArray, indexOf_eq index, pure_bind, Run.ends_bind]
    refine (ends_lengthened_of_lt inside _ _ _ _).mono (fun m h' hm => ?_) fun _ _ => id
    obtain ⟨rfl, rfl⟩ := hm
    exact ends_itemAt value shown
  | list s m =>
    obtain ⟨rfl, -⟩ : m = l ∧ _ := by simpa [Value.sequence?] using cell
    simp only [readElement, readList, indexOf_eq index, pure_bind, Run.ends_bind]
    refine (ends_growListForRead_of_lt inside _ _).mono (fun _ h' hm => ?_) fun _ _ => id
    obtain rfl := hm
    exact ends_itemAt value shown
  | set s m =>
    obtain ⟨rfl, -⟩ : m = l ∧ _ := by simpa [Value.sequence?] using cell
    simp only [readElement, readSet, indexOf_eq index, pure_bind, Run.ends_bind, Run.ends_lookup,
      value]
    exact ⟨rfl, rfl⟩
  | _ => simp [Value.sequence?] at cell

theorem Calm.ends_readElement (hσ : σ.MakesNew) (hn : n.Calm σ) {c : Value} {holder : Place}
    {key shown : String} {Q : Value → Heap → Prop}
    (item : ∀ l elem i v,
      c.sequence? (n.innerType σ holder.root (holder.depth + 1)) = some (l, elem) →
      Text.index? key = some i → (h.items l)[i]? = some v → Q v h)
    (entry : ∀ s l k v g, c = .map s l →
      (n.convertKey σ holder.root holder.depth key).on h = (.ok k, g) → h.Extends g →
      MapEntries.get? (g.entries l) k = some v → Q v g)
    (write : Value → Run PathError Unit) :
    (n.readElement σ shown holder key c write).Ends h Q (fun _ _ => True) := by
  cases c with
  | array elem l =>
    refine ends_readArray_of (fun i index => ?_) fun _ => trivial
    rw [ends_lengthened_iff, if_neg (by simp [hn.growing])]
    exact ⟨fun v => item l elem i v rfl index, fun _ => trivial⟩
  | list s l =>
    refine ends_readList_of (fun i index => ?_) fun _ => trivial
    rw [ends_growListForRead_iff, if_neg (by simp [hn.growing])]
    exact ⟨fun v => item l _ i v rfl index, fun _ => trivial⟩
  | set s l => exact ends_readSet_of (fun i v => item l _ i v rfl) fun _ => trivial
  | map s l =>
    refine (ends_readMap hσ hn.strategies).mono (fun v g hv => ?_) fun _ _ _ => trivial
    obtain ⟨k, ran, hx, found | ⟨-, growing, -⟩⟩ := hv
    · exact entry s l k v g rfl ran hx found
    · rw [hn.growing] at growing
      cases growing
  | _ => trivial

/-- An order of heaps in which containers hold what they held, and in which the heap only goes
up when a key is converted. -/
structure Later (σ : Schema) (n : Node) (R : Heap → Heap → Prop) : Prop where
  refl : ∀ h, R h h
  trans : ∀ {h h' h''}, R h h' → R h' h'' → R h h''
  conserves : ∀ {h h'}, R h h' → h.Conserves h'
  keys : ∀ name depth key h, R h ((n.convertKey σ name depth key).on h).2

theorem later_extends (hσ : σ.MakesNew) (hn : n.strategies.Harmless σ) :
    n.Later σ Heap.Extends :=
  ⟨.refl, .trans, .of_extends, harmless_convertKey hσ hn⟩

theorem later_conserves (hσ : σ.Sparing) (hn : n.strategies.Sparing σ) :
    n.Later σ Heap.Conserves :=
  ⟨.refl, .trans, id, fun _ _ _ => hn.convert hσ _ _ _⟩

variable {R : Heap → Heap → Prop}

theorem Later.ends_convertKey (later : n.Later σ R) {name key : String} {depth : Nat} {k : Value}
    (converts : ∀ g, ∃ g', (n.convertKey σ name depth key).on g = (.ok k, g')) :
    (n.convertKey σ name depth key).Ends h (fun u h' => u = k ∧ R h h') (fun _ _ => False) := by
  obtain ⟨g, hg⟩ := converts h
  have hx : R h g := by
    have ran := later.keys name depth key h
    rwa [hg] at ran
  exact .intro hg ⟨rfl, hx⟩

theorem ends_readHolder {Q : Heap → Prop} {c : Value} (hc : c.isNull = false) {shown : String}
    {holder : Place}
    (read : (n.read σ shown holder).Ends h (fun u h' => u = c ∧ Q h') (fun _ _ => False)) :
    (n.readHolder σ shown holder).Ends h (fun u h' => u = c ∧ Q h') (fun _ _ => False) := by
  refine ends_readHolder_of read (fun _ _ => id) fun u h' hu => ?_
  rw [hu.1, present, hc]
  exact ⟨rfl, hu.2⟩

namespace Holds

theorem ends_read_later (later : n.Later σ R) (hp : n.Holds σ h p v type spot before)
    (shown : String) :
    (n.read σ shown p).Ends h (fun u h' => u = v ∧ R h h') (fun _ _ => False) := by
  induction hp with
  | field handle access value =>
    rw [Node.read, readProperty_eq handle access, Run.ends_mapError]
    simp only [Handle.get, access, Run.ends_bind, Run.ends_lookup, value]
    exact ⟨rfl, later.refl h⟩
  | @item holder key container v type elem l spot before i inner cell index value ih =>
    rw [read_element, Run.ends_bind]
    refine (ends_readHolder (Value.isNull_of_sequence? cell) ih).mono (fun c h' hc => ?_)
      fun _ _ => id
    obtain ⟨rfl, hx⟩ := hc
    rw [← (later.conserves hx).items_of_item value] at value
    refine (ends_readElement_item cell index value _).mono (fun u h'' hu => ?_) fun _ _ => id
    obtain ⟨rfl, rfl⟩ := hu
    exact ⟨rfl, hx⟩
  | @entry holder key shape k e type l spot before i inner converts found value ih =>
    rw [read_element, Run.ends_bind]
    refine (ends_readHolder rfl ih).mono (fun c h' hc => ?_) fun _ _ => id
    obtain ⟨rfl, hx⟩ := hc
    simp only [readElement, readMap, Run.ends_bind, Run.ends_outcome]
    refine (later.ends_convertKey converts).mono (fun u h'' hu => ?_) fun _ _ => False.elim
    obtain ⟨rfl, hy⟩ := hu
    have both := later.trans hx hy
    rw [← (later.conserves both).entries_of_entry value] at found value
    simp only [Run.ends_lookup, MapEntries.get?_of_findIdx? found value]
    exact ⟨rfl, both⟩

theorem ends_read (hσ : σ.MakesNew) (hn : n.strategies.Harmless σ)
    (hp : n.Holds σ h p v type spot before) (shown : String) :
    (n.read σ shown p).Ends h (fun u h' => u = v ∧ h.Extends h') (fun _ _ => False) :=
  hp.ends_read_later (later_extends hσ hn) shown

end Holds

theorem Converts.mono {path : String} {raw w : Value} {h₁ : Heap} (hx : h.Extends h')
    (hc : n.Converts σ h' path raw type w h₁) : n.Converts σ h path raw type w h₁ := by
  obtain ⟨g, hg, ran⟩ := hc
  exact ⟨g, hx.trans hg, ran⟩

theorem ends_convertFor (hσ : σ.MakesNew) (hn : n.strategies.Harmless σ) (path : String)
    (raw : Value) (type : Ty) :
    (n.convertFor σ path raw type).Ends h
      (fun w h₁ => n.Converts σ h path raw type w h₁ ∧ h.Extends h₁)
      (fun _ h₁ => h.Extends h₁) := by
  have ran := Run.ends_on (n.convertFor σ path raw type) h
  have harmless := (harmless_convertFor hσ hn path raw type).ends h
  exact (ran.and harmless).mono (fun w h₁ hw => ⟨⟨h, .refl h, hw.1⟩, hw.2⟩) fun _ _ he => he.2

theorem ends_putItem_of_some {l : Loc} {i : Nat} (value : (h.items l)[i]? = some v) (w : Value)
    (missing : PathError) :
    (putItem l i w missing).Ends h (fun _ h' => h' = h.store (l, i) w) (fun _ _ => False) := by
  simp only [putItem, Run.ends_bind, Run.ends_lookup, Heap.setItem?_of_some value]
  rfl

theorem present_eq (hv : v.isNull = false) (p : Place) (shown : String)
    (read : Run PathError Value) (write : Value → Run PathError Unit) :
    n.present σ p shown v read write = pure v := by
  rw [present, hv]
  rfl

theorem ends_writeProperty (hσ : σ.MakesNew) (hn : n.strategies.Harmless σ) {name : String}
    {hd : Handle} {i : Nat} {writable : Bool} (handle : n.handle? σ name = some hd)
    (access : hd.access = .slot i true writable) (value : h.slot? n.wrapped.loc i = some v)
    (raw : Value) :
    (n.writeProperty σ name raw).Ends h
      (fun _ h' => ∃ w h₁, n.Converts σ h (Place.property name).canonical raw hd.type w h₁ ∧
        h.Extends h₁ ∧ h' = h₁.store (n.wrapped.loc, i) w)
      (fun _ h' => h.Extends h') := by
  have old := Heap.lt_size_of_cell? (Heap.cell?_of_slot? value)
  simp only [writeProperty, handle]
  split
  · rw [Run.ends_bind]
    refine (ends_convertFor hσ hn _ raw hd.type).mono (fun w h₁ hw => ?_) fun _ _ => id
    have kept : h₁.slot? n.wrapped.loc i = some v := by
      rw [Heap.slot?, hw.2.slots_eq old]
      exact value
    rw [Run.ends_mapError, Handle.set]
    split
    · simp only [access]
      cases writable with
      | false => exact hw.2
      | true =>
        simp only [Run.ends_bind, Run.ends_lookup, Heap.setSlot?_of_some kept]
        exact ⟨w, h₁, hw.1, hw.2, rfl⟩
    · exact hw.2
  · exact .refl h

theorem ends_writeElement_item (hσ : σ.MakesNew) (hn : n.strategies.Harmless σ)
    {container : Value} {holder : Place} {key : String} {l : Loc} {elem : Ty} {i : Nat}
    (cell : container.sequence? (n.innerType σ holder.root (holder.depth + 1)) = some (l, elem))
    (index : Text.index? key = some i) (value : (h.items l)[i]? = some v) (raw : Value)
    (write : Value → Run PathError Unit) :
    (n.writeElement σ (.element holder key) holder key raw container write).Ends h
      (fun _ h' => ∃ w h₁, n.Converts σ h (Place.element holder key).canonical raw elem w h₁ ∧
        h.Extends h₁ ∧ h' = h₁.store (l, i) w)
      (fun _ h' => h.Extends h') := by
  have old := Heap.lt_size_of_cell? (Heap.cell?_of_item value)
  have kept : ∀ h₁, h.Extends h₁ → (h₁.items l)[i]? = some v := by
    intro h₁ hx
    rw [hx.items_eq old]
    exact value
  cases container with
  | array e m =>
    obtain ⟨rfl, rfl⟩ : m = l ∧ e = elem := by simpa [Value.sequence?] using cell
    simp only [writeElement, writeArray, indexOf_eq index, pure_bind, Run.ends_bind]
    refine (ends_convertFor hσ hn _ raw e).mono (fun w h₁ hw => ?_) fun _ _ => id
    have there := kept h₁ hw.2
    have inside := (List.getElem?_eq_some_iff.1 there).1
    refine (ends_lengthened_of_lt inside _ _ _ _).mono (fun _ _ hm => ?_) fun _ _ => False.elim
    obtain ⟨rfl, rfl⟩ := hm
    exact (ends_putItem_of_some there w _).mono (fun _ _ hs => ⟨w, _, hw.1, hw.2, hs⟩)
      fun _ _ => False.elim
  | list s m =>
    obtain ⟨rfl, rfl⟩ : m = l ∧ _ := by simpa [Value.sequence?] using cell
    simp only [writeElement, writeList, indexOf_eq index, pure_bind, Run.ends_bind, Run.ends_lookup]
    refine (ends_convertFor hσ hn _ raw _).mono (fun w h₁ hw => ?_) fun _ _ => id
    have there := kept h₁ hw.2
    have short : ¬ (h₁.items m).length ≤ i := by
      have inside := (List.getElem?_eq_some_iff.1 there).1
      omega
    rw [if_neg (by simp [short])]
    exact (ends_putItem_of_some there w _).mono (fun _ _ hs => ⟨w, _, hw.1, hw.2, hs⟩)
      fun _ _ => False.elim
  | set s m => exact .refl h
  | _ => simp [Value.sequence?] at cell

namespace Holds

theorem ends_write_element (hσ : σ.MakesNew) (hn : n.strategies.Harmless σ) {holder : Place}
    {c : Value} (inner : n.Holds σ h holder c type spot before) (hc : c.isNull = false)
    {key : String} {raw : Value} {Q E : Heap → Prop}
    (element : ∀ g, h.Extends g →
      (n.writeElement σ (.element holder key) holder key raw c (n.write σ holder)).Ends g
        (fun _ => Q) (fun _ => E)) :
    (n.write σ (.element holder key) raw).Ends h (fun _ => Q) (fun _ => E) := by
  rw [Node.write, Run.ends_bind, Run.ends_mapError]
  refine (inner.ends_read hσ hn _).mono (fun u g hu => ?_) fun _ _ => False.elim
  obtain ⟨rfl, hx⟩ := hu
  rw [present_eq hc, pure_bind]
  exact element g hx

/-- What is written to a place that is there is stored at its spot. -/
theorem ends_write (hσ : σ.MakesNew) (hn : n.strategies.Harmless σ)
    (hp : n.Holds σ h p v type spot before) (raw : Value) :
    (n.write σ p raw).Ends h
      (fun _ h' => ∃ w h₁, n.Converts σ h p.canonical raw type w h₁ ∧ h.Extends h₁ ∧
        h' = h₁.store spot w)
      (fun _ h' => h.Extends h') := by
  cases hp with
  | field handle access value =>
    rw [Node.write]
    exact ends_writeProperty hσ hn handle access value raw
  | item inner cell index value =>
    refine inner.ends_write_element hσ hn (Value.isNull_of_sequence? cell) fun g hx => ?_
    have old := Heap.lt_size_of_cell? (Heap.cell?_of_item value)
    rw [← hx.items_eq old] at value
    refine (ends_writeElement_item hσ hn cell index value raw _).mono (fun _ _ hw => ?_)
      fun _ _ => hx.trans
    obtain ⟨w, h₁, hw, hy, rfl⟩ := hw
    exact ⟨w, h₁, hw.mono hx, hx.trans hy, rfl⟩
  | @entry holder key shape k e type l spot before i inner converts found value =>
    refine inner.ends_write_element hσ hn rfl fun g hx => ?_
    simp only [writeElement, writeMap, Run.ends_bind, Run.ends_mapError]
    refine ((later_extends hσ hn).ends_convertKey converts).mono (fun u g₁ hu => ?_)
      fun _ _ => False.elim
    obtain ⟨rfl, hy⟩ := hu
    refine (ends_convertFor hσ hn _ raw _).mono (fun w h₁ hw => ?_)
      fun _ _ => (hx.trans hy).trans
    have hx₁ := (hx.trans hy).trans hw.2
    have old := Heap.lt_size_of_cell? (Heap.cell?_of_entry value)
    rw [← hx₁.entries_eq old] at found value
    rw [Run.ends_update]
    exact ⟨w, h₁, hw.1.mono (hx.trans hy), hx₁, Heap.insertEntry_of_findIdx? shape found value⟩

end Holds

end Node

end PropertyAccess
