import PropertyAccess.Proofs.Navigation.Frame
import PropertyAccess.Proofs.Navigation.Hanging
import PropertyAccess.Proofs.Schema.Since

/-! Reading and writing in a graph without cycles, growing or not. What is made on the way
is new, so the graph stays without cycles, and the way to a place does not go through what
is stored there. A place that was written then holds what the value was converted to. -/

namespace PropertyAccess

namespace Node

variable {σ : Schema} {n : Node} {C : Loc → Prop} {h h' h'' : Heap}

def HasField (σ : Schema) (n : Node) (name : String) : Prop :=
  ∀ hd, n.handle? σ name = some hd → ∃ i writable, hd.access = .slot i true writable

theorem HasField.isField {name : String} (hf : n.HasField σ name) : n.IsField σ name := by
  intro hd found
  obtain ⟨i, writable, access⟩ := hf hd found
  exact ⟨i, true, writable, access⟩

/-- Where the key becomes a scalar, it becomes that one every time. -/
def Settles (σ : Schema) (n : Node) (holder : Place) (key : String) : Prop :=
  ∀ g g' k, (n.convertKey σ holder.root holder.depth key).on g = (.ok k, g') → k.loc? = none →
    ∀ f, ∃ f', (n.convertKey σ holder.root holder.depth key).on f = (.ok k, f')

def Settled (σ : Schema) (n : Node) : Place → Prop
  | .property _ => True
  | .element holder key => Settled σ n holder ∧ n.Settles σ holder key

/-- Where the container is a map, the key becomes a scalar, and one that is found again. -/
def Addresses (σ : Schema) (n : Node) (holder : Place) (key : String) (container : Value) : Prop :=
  ∀ s l, container = .map s l →
    ∀ g g' k, (n.convertKey σ holder.root holder.depth key).on g = (.ok k, g') →
      k.loc? = none ∧ k.same k = true

structure HasContainer (σ : Schema) (n : Node) (h : Heap) (holder : Place) (key : String)
    (container : Value) : Prop where
  holds : ∃ type spot before, n.Holds σ h holder container type spot before
  notNull : container.isNull = false
  room : ∀ elem l i, container = .array elem l → Text.index? key = some i → i < (h.items l).length

def Open (σ : Schema) (n : Node) (h : Heap) : Place → Prop
  | .property _ => True
  | .element holder key => ∃ container, n.HasContainer σ h holder key container

structure Found (σ : Schema) (n : Node) (C : Loc → Prop) (h : Heap) (p : Place) (v : Value)
    (h' : Heap) : Prop where
  grafts : n.Grafts C h h'
  isOpen : n.Open σ h' p
  holds : v.isNull = false → ∃ type spot before, n.Holds σ h' p v type spot before

/-- What a writer comes to: a value was converted, and then no more was done than to put
it in. The place holds it if it lasts. -/
def Stores (σ : Schema) (n : Node) (C : Loc → Prop) (h : Heap) (p : Place) (raw : Value)
    (type : Ty) (lasts : Prop) (h' : Heap) : Prop :=
  n.Grafts C h h' ∧ n.Open σ h' p ∧
    ∃ g v g', (n.convertFor σ p.canonical raw type).on g = (.ok v, g') ∧ g'.Takes v h' ∧
      (lasts → ∃ type spot before, n.Holds σ h' p v type spot before)

theorem Stores.imp {p : Place} {raw : Value} {type : Ty} {lasts lasts' : Prop}
    (hs : n.Stores σ C h p raw type lasts h') (hl : lasts' → lasts) :
    n.Stores σ C h p raw type lasts' h' := by
  obtain ⟨grafts, isOpen, g, v, g', ran, takes, holds⟩ := hs
  exact ⟨grafts, isOpen, g, v, g', ran, takes, fun lasting => holds (hl lasting)⟩

section Steps

variable (hσ : σ.MakesTrees) (hn : n.strategies.MakesTrees σ)
include hσ

theorem ends_defaultValue_new (type : Ty) (h : Heap) :
    (σ.defaultValue type).Ends h (fun v h' => h.Extends h' ∧ h'.New h.size v)
      (fun _ _ => True) := by
  have made := (hσ.stays h.size).defaultValue h type h ⟨rfl, Nat.le_refl _⟩
  refine made.mono (fun v h' hv => ?_) fun _ _ _ => trivial
  obtain ⟨w, hx, ⟨rfl, -⟩, new⟩ := hv
  exact ⟨hx, new⟩

theorem ends_growList_receives (elem : Ty) {l : Loc} (missing : Nat) (hl : l < h.size) :
    (σ.growList elem l missing).Ends h (fun _ h' => h.Receives h' l) (fun _ _ => True) := by
  induction missing generalizing h with
  | zero => exact .of_extends (.refl h) l
  | succ missing ih =>
    simp only [Schema.growList, Run.ends_bind, Run.ends_update]
    refine (ends_defaultValue_new hσ elem h).mono (fun v g hv => ?_) fun _ _ => id
    obtain ⟨hx, new⟩ := hv
    have appended : h.Receives (g.appendItems l [v]) l := by
      refine .editItems hx hl fun vs x hx => ?_
      rcases List.mem_append.1 hx with hx | hx
      · exact .inl hx
      · exact .inr (List.mem_singleton.1 hx ▸ new)
    exact (ih (Nat.lt_of_lt_of_le hl appended.size_le)).mono (fun _ _ hr => appended.trans hr)
      fun _ _ => id

theorem ends_growListForRead_receives (p : Place) (elem : Ty) {l : Loc} (i : Nat)
    (hl : l < h.size) :
    (n.growListForRead σ p elem l i).Ends h (fun _ h' => h.Receives h' l) (fun _ _ => True) := by
  rw [ends_growListForRead_iff]
  split
  · exact ends_growList_receives hσ elem _ hl
  · exact .of_extends (.refl h) l

include hn

theorem ends_convertKey_new (name : String) (depth : Nat) (key : String) (h : Heap) :
    (n.convertKey σ name depth key).Ends h
      (fun k g => (n.convertKey σ name depth key).on h = (.ok k, g) ∧ h.Extends g ∧
        g.New h.size k)
      (fun _ g => h.Extends g) := by
  have stays := Strategies.stays_convert (hσ.stays h.size) (hn.stays h.size)
    (n.innerKeyType σ name depth) none (v := .text key) (w := h) (.scalar rfl) h
    ⟨rfl, Nat.le_refl _⟩
  refine ((Run.ends_on _ h).and stays).mono (fun k g hk => ?_) fun _ g hk => ?_
  · obtain ⟨ran, w, hx, ⟨rfl, -⟩, new⟩ := hk
    exact ⟨ran, hx, new⟩
  · obtain ⟨-, w, hx, rfl, -⟩ := hk
    exact hx

theorem Converts.new {path : String} {raw v : Value} {type : Ty} {k : Nat}
    (hc : n.Converts σ h path raw type v h') (hr : h.New k raw) (old : k ≤ h.size) :
    h'.New k v := by
  obtain ⟨g, hx, ran⟩ := hc
  have stays := Strategies.stays_convert (hσ.stays k) (hn.stays k) type (some path)
    (hr.mono hx : g.New k raw)
  obtain ⟨w, -, ⟨rfl, -⟩, new⟩ :=
    (stays.mapError (n.conversionAt path) g ⟨rfl, Nat.le_trans old hx.size_le⟩).of_ok ran
  exact new

variable {holder : Place} {key : String} {c : Value} (hh : n.Hangs C h)
include hh

omit hσ hn in
theorem scalar_of_found {k : Value} {g : Heap} {s : TableShape} {l : Loc} {type : Ty}
    {spot : Spot} {before : List Spot} (hp : n.Holds σ h holder (.map s l) type spot before)
    (new : g.New h.size k) {e : Value × Value} (he : e ∈ h.entries l) (same : e.1.same k = true) :
    k.loc? = none := by
  cases target : k.loc? with
  | none => rfl
  | some m =>
    have later := (new.cell target).1
    obtain ⟨-, c, cell, -⟩ := ((hp.avoids hh.free).entries e he).1.cell
      ((Value.loc?_of_same same).trans target)
    exact absurd (Heap.lt_size_of_cell? cell) later

omit hσ hn in
theorem HasContainer.found (hc : n.HasContainer σ h holder key c) {l : Loc} {elem : Ty} {i : Nat}
    {v : Value}
    (sequence : c.sequence? (n.innerType σ holder.root (holder.depth + 1)) = some (l, elem))
    (index : Text.index? key = some i) (value : (h.items l)[i]? = some v) :
    n.Found σ C h (.element holder key) v h := by
  obtain ⟨type, spot, before, holds⟩ := hc.holds
  exact ⟨.refl hh, ⟨c, hc⟩, fun _ => ⟨_, _, _, .item holds sequence index value⟩⟩

omit hσ hn in
theorem ends_readArray_found {elem : Ty} {l : Loc}
    (hc : n.HasContainer σ h holder key (.array elem l)) (shown : String)
    (write : Value → Run PathError Unit) :
    (n.readArray σ shown holder key elem l write).Ends h
      (fun v h' => n.Found σ C h (.element holder key) v h') (fun _ _ => True) := by
  refine ends_readArray_of (fun i index => ?_) fun _ => trivial
  have inside := hc.room elem l i rfl index
  refine (ends_lengthened_of_lt inside _ _ _ _).mono (fun m g hm => ?_) fun _ _ _ => trivial
  obtain ⟨rfl, rfl⟩ := hm
  exact ⟨fun v value => hc.found hh rfl index value, fun _ => trivial⟩

omit hn in
theorem ends_readList_found {s : ListShape} {l : Loc}
    (hc : n.HasContainer σ h holder key (.list s l)) (shown : String) :
    (n.readList σ shown holder key l).Ends h
      (fun v h' => n.Found σ C h (.element holder key) v h') (fun _ _ => True) := by
  obtain ⟨type, spot, before, holds⟩ := hc.holds
  obtain ⟨old, free, apart⟩ := holds.apart hh rfl
  refine ends_readList_of (fun i index => ?_) fun _ => trivial
  refine (ends_growListForRead_receives hσ _ _ i old).mono (fun _ g hr => ?_) fun _ _ => id
  have kept := holds.receives hr apart
  refine ⟨fun v value => ⟨.of_receives hh hr free, ?_, fun _ => ?_⟩, fun _ => trivial⟩
  · exact ⟨_, ⟨_, _, _, kept⟩, rfl, by simp⟩
  · exact ⟨_, _, _, .item kept rfl index value⟩

omit hσ hn in
theorem ends_readSet_found {s : TableShape} {l : Loc}
    (hc : n.HasContainer σ h holder key (.set s l)) (shown : String) :
    (n.readSet σ shown key l).Ends h
      (fun v h' => n.Found σ C h (.element holder key) v h') (fun _ _ => True) :=
  ends_readSet_of (fun _ _ index value => hc.found hh rfl index value) fun _ => trivial

theorem ends_readMap_found (settles : n.Settles σ holder key) {s : TableShape} {l : Loc}
    (hc : n.HasContainer σ h holder key (.map s l)) (shown : String) :
    (n.readMap σ shown holder key l).Ends h
      (fun v h' => n.Found σ C h (.element holder key) v h') (fun _ _ => True) := by
  obtain ⟨type, spot, before, holds⟩ := hc.holds
  obtain ⟨old, -, -⟩ := holds.apart hh rfl
  refine (ends_readMap hσ.makesNew hn.harmless).mono (fun v g hv => ?_) fun _ _ _ => trivial
  obtain ⟨k, ran, hx, found⟩ := hv
  have opened : n.Open σ g (.element holder key) := ⟨_, ⟨_, _, _, holds.mono hx⟩, rfl, by simp⟩
  rcases found with found | ⟨-, -, rfl⟩
  · refine ⟨.of_extends hh hx, opened, fun _ => ?_⟩
    obtain ⟨-, -, new⟩ := (ends_convertKey_new hσ hn _ _ key h).of_ok ran
    obtain ⟨i, e, first, value, rfl⟩ := MapEntries.findIdx?_of_get? found
    have there : e ∈ h.entries l := by
      rw [← hx.entries_eq old]
      exact List.mem_of_getElem? value
    obtain ⟨inside, same, -⟩ := List.findIdx?_eq_some_iff_getElem.1 first
    rw [(List.getElem?_eq_some_iff.1 value).2] at same
    have scalar := scalar_of_found hh holds new there same
    exact ⟨_, _, _, .entry (holds.mono hx) (settles h g k ran scalar) first value⟩
  · exact ⟨.of_extends hh hx, opened, fun absent => by cases absent⟩

theorem ends_readElement_found (settles : n.Settles σ holder key)
    (hc : n.HasContainer σ h holder key c) (shown : String)
    (write : Value → Run PathError Unit) :
    (n.readElement σ shown holder key c write).Ends h
      (fun v h' => n.Found σ C h (.element holder key) v h') (fun _ _ => True) := by
  unfold readElement
  split
  · trivial
  · exact ends_readArray_found hh hc shown write
  · exact ends_readList_found hσ hh hc shown
  · exact ends_readSet_found hh hc shown
  · exact ends_readMap_found hσ hn hh settles hc shown
  · trivial

omit hσ hn in
theorem ends_readProperty_found {name : String} (hf : n.HasField σ name) (shown : String) :
    (n.readProperty σ shown name).Ends h (fun v h' => n.Found σ C h (.property name) v h')
      (fun _ _ => True) := by
  refine ends_readProperty_of hf.isField (fun hd i writable v found access value => ?_)
    fun _ => trivial
  exact ⟨.refl hh, trivial, fun _ => ⟨_, _, _, .field found access value⟩⟩

theorem ends_read_open {p : Place} (hf : n.HasField σ p.root) (settled : n.Settled σ p)
    (hp : n.Open σ h p) (shown : String) :
    (n.read σ shown p).Ends h (fun v h' => n.Found σ C h p v h') (fun _ _ => True) := by
  cases p with
  | property name =>
    rw [Node.read]
    exact ends_readProperty_found hh hf shown
  | element holder key =>
    obtain ⟨c, hc⟩ := hp
    obtain ⟨type, spot, before, holds⟩ := hc.holds
    rw [read_element, Run.ends_bind]
    refine (ends_readHolder hc.notNull (holds.ends_read hσ.makesNew hn.harmless shown)).mono
      (fun u g hu => ?_) fun _ _ => False.elim
    obtain ⟨rfl, hx⟩ := hu
    have grafts : n.Grafts C h g := .of_extends hh hx
    have hc : n.HasContainer σ g holder key u := by
      refine ⟨⟨_, _, _, holds.mono hx⟩, hc.notNull, fun elem l i array index => ?_⟩
      subst array
      rw [hx.items_eq (holds.apart hh rfl).1]
      exact hc.room elem l i rfl index
    refine (ends_readElement_found hσ hn grafts.hangs settled.2 hc shown _).mono
      (fun v g' hv => ?_) fun _ _ => id
    exact ⟨grafts.trans hv.grafts, hv.isOpen, hv.holds⟩

end Steps

section Writes

variable {raw : Value} {h₀ : Heap} (hσ : σ.MakesTrees) (hn : n.strategies.MakesTrees σ)
  (hh : n.Hangs C h₀) (hx : h₀.Extends h) (new : h.New h₀.size raw)
include hσ hn hh hx new

theorem ends_writeProperty_stores {name : String} (hf : n.HasField σ name) :
    (n.writeProperty σ name raw).Ends h
      (fun _ h' => n.Stores σ C h₀ (.property name) raw (n.innerType σ name 0) True h')
      (fun _ _ => True) := by
  have write := ends_writeProperty_store hσ.makesNew hn.harmless hf.isField raw h
  refine write.mono (fun _ h' hw => ?_) fun _ _ => id
  obtain ⟨hd, i, readable, writable, v, g, w, found, access, value, hy, there, rfl⟩ := hw
  obtain ⟨free, c, cell, -⟩ := hh.free.cell rfl
  have stored := Heap.Receives.store (i := i) (hx.trans hy) (Heap.lt_size_of_cell? cell)
    (value.new hσ hn new hx.size_le)
  obtain ⟨g₁, -, ran⟩ := value
  have type : n.innerType σ name 0 = hd.type := by
    rw [innerType, found]
    rfl
  obtain ⟨i', writable', access'⟩ := hf hd found
  obtain ⟨rfl, rfl, rfl⟩ : i = i' ∧ readable = true ∧ writable = writable' := by
    simpa [access] using access'
  refine ⟨.of_receives hh stored free, trivial, g₁, v, g, type ▸ ran, .store _, fun _ => ?_⟩
  exact ⟨_, _, _, .field found access (Heap.slot?_store_self there)⟩

variable {holder : Place} {key : String}

/-- An array has the position, so it stays where it is. -/
theorem ends_writeArray_stores {elem : Ty} {l : Loc}
    (hc : n.HasContainer σ h₀ holder key (.array elem l)) (write : Value → Run PathError Unit) :
    (n.writeArray σ (.element holder key) elem l key raw write).Ends h
      (fun _ h' => n.Stores σ C h₀ (.element holder key) raw elem True h') (fun _ _ => True) := by
  obtain ⟨type, spot, before, holds⟩ := hc.holds
  obtain ⟨old, free, apart⟩ := holds.apart hh rfl
  cases index : Text.index? key with
  | none =>
    simp only [writeArray, Run.ends_bind, indexOf, index]
    exact (Run.ends_on _ h).mono (fun _ _ _ => trivial) fun _ _ _ => trivial
  | some i =>
    obtain ⟨w, value⟩ : ∃ w, (h₀.items l)[i]? = some w :=
      ⟨_, List.getElem?_eq_getElem (hc.room elem l i rfl index)⟩
    have value' := value
    rw [← hx.items_eq old] at value'
    have sequence : (Value.array elem l).sequence?
        (n.innerType σ holder.root (holder.depth + 1)) = some (l, elem) := rfl
    have item := ends_writeElement_item hσ.makesNew hn.harmless sequence index value' raw write
    refine item.mono (fun _ h' hw => ?_) fun _ _ _ => trivial
    obtain ⟨v, g, converts, hy, rfl⟩ := hw
    have stored := Heap.Receives.store (i := i) (hx.trans hy) old
      (converts.new hσ hn new hx.size_le)
    obtain ⟨g₁, -, ran⟩ := converts
    rw [← (hx.trans hy).items_eq old] at value
    have there := Heap.item_store_self (v := v) value
    have kept := holds.receives stored apart
    refine ⟨.of_receives hh stored free, ⟨_, ⟨_, _, _, kept⟩, rfl, ?_⟩, g₁, v, g, ran, .store _,
      fun _ => ⟨_, _, _, .item kept rfl index there⟩⟩
    intro e m j array position
    obtain ⟨rfl, rfl⟩ : elem = e ∧ l = m := by simpa using array
    obtain rfl := Option.some.inj (index.symm.trans position)
    exact (List.getElem?_eq_some_iff.1 there).1

theorem ends_writeList_stores {s : ListShape} {l : Loc}
    (hc : n.HasContainer σ h₀ holder key (.list s l)) :
    (n.writeList σ (.element holder key) l key raw).Ends h
      (fun _ h' => n.Stores σ C h₀ (.element holder key) raw
        (n.innerType σ holder.root (holder.depth + 1)) True h') (fun _ _ => True) := by
  obtain ⟨type, spot, before, holds⟩ := hc.holds
  obtain ⟨old, free, apart⟩ := holds.apart hh rfl
  obtain ⟨-, c, cell, sort, -⟩ := (holds.avoids hh.free).cell rfl
  have write := ends_writeList_edit hσ.makesNew hn.harmless (.element holder key) l key raw h
  refine write.mono (fun _ h' hw => ?_) fun _ _ => id
  obtain ⟨i, v, g, index, converts, hy, rfl⟩ := hw
  have fresh := converts.new hσ hn new hx.size_le
  have stored : h₀.Receives (g.editItems l (itemsPut i v)) l := by
    refine .editItems (hx.trans hy) old fun vs x hx => ?_
    rcases mem_of_mem_itemsPut hx with hx | rfl | rfl
    · exact .inl hx
    · exact .inr fresh
    · exact .inr (.scalar rfl)
  obtain ⟨g₁, -, ran⟩ := converts
  have kept := holds.receives stored apart
  have there : ((g.editItems l (itemsPut i v)).items l)[i]? = some v := by
    cases c with
    | items values =>
      rw [Heap.items_editItems ((hx.trans hy).cell? cell)]
      exact getElem?_itemsPut i v values
    | _ => exact sort.elim
  exact ⟨.of_receives hh stored free, ⟨_, ⟨_, _, _, kept⟩, rfl, by simp⟩, g₁, v, g, ran, .edit l i,
    fun _ => ⟨_, _, _, .item kept rfl index there⟩⟩

theorem ends_writeMap_stores (settles : n.Settles σ holder key) {s : TableShape} {l : Loc}
    (hc : n.HasContainer σ h₀ holder key (.map s l)) :
    (n.writeMap σ (.element holder key) holder s l key raw).Ends h
      (fun _ h' => n.Stores σ C h₀ (.element holder key) raw
        (n.innerType σ holder.root (holder.depth + 1)) (n.Addresses σ holder key (.map s l)) h')
      (fun _ _ => True) := by
  obtain ⟨type, spot, before, holds⟩ := hc.holds
  obtain ⟨old, free, apart⟩ := holds.apart hh rfl
  obtain ⟨-, c, cell, sort, -⟩ := (holds.avoids hh.free).cell rfl
  have write := ends_writeMap_insert hσ.makesNew hn.harmless (.element holder key) holder s l key
    raw h
  refine write.mono (fun _ h' hw => ?_) fun _ _ _ => trivial
  obtain ⟨k, g, v, g', keyed, hy, converts, hz, rfl⟩ := hw
  have key_new : g.New h₀.size k := by
    obtain ⟨-, -, made⟩ := (ends_convertKey_new hσ hn _ _ key h).of_ok keyed
    exact made.anti fun m hm => Nat.lt_of_lt_of_le hm hx.size_le
  have fresh := converts.new hσ hn (new.mono hy) (Nat.le_trans hx.size_le hy.size_le)
  have stored := Heap.Receives.insertEntry ((hx.trans hy).trans hz) old s (key_new.mono hz) fresh
  obtain ⟨g₁, -, ran⟩ := converts
  have kept := holds.receives stored apart
  refine ⟨.of_receives hh stored free, ⟨_, ⟨_, _, _, kept⟩, rfl, by simp⟩, g₁, v, g', ran,
    .insert s l k, fun addressed => ?_⟩
  obtain ⟨scalar, same⟩ := addressed s l rfl h g k keyed
  cases c with
  | entries pairs =>
    have entries := Heap.entries_insertEntry (s := s) (k := k) (v := v)
      (((hx.trans hy).trans hz).cell? cell)
    obtain ⟨i, e, first, value, rfl⟩ := (MapEntries.put_insert s pairs k v).findIdx? same
    rw [← entries] at first value
    exact ⟨_, _, _, .entry kept (settles h g k keyed scalar) first value⟩
  | _ => exact sort.elim

theorem ends_writeElement_stores (settles : n.Settles σ holder key) {c : Value}
    (hc : n.HasContainer σ h₀ holder key c) (write : Value → Run PathError Unit) :
    (n.writeElement σ (.element holder key) holder key raw c write).Ends h
      (fun _ h' => ∃ type, ((∀ elem l, c ≠ .array elem l) →
          type = n.innerType σ holder.root (holder.depth + 1)) ∧
        n.Stores σ C h₀ (.element holder key) raw type (n.Addresses σ holder key c) h')
      (fun _ _ => True) := by
  unfold writeElement
  split
  · rename_i elem l
    refine (ends_writeArray_stores hσ hn hh hx new hc write).mono (fun _ h' hs => ?_) fun _ _ => id
    exact ⟨elem, fun other => absurd rfl (other elem l), hs.imp fun _ => trivial⟩
  · refine (ends_writeList_stores hσ hn hh hx new hc).mono (fun _ h' hs => ?_) fun _ _ => id
    exact ⟨_, fun _ => rfl, hs.imp fun _ => trivial⟩
  · refine (ends_writeMap_stores hσ hn hh hx new settles hc).mono (fun _ h' hs => ?_) fun _ _ => id
    exact ⟨_, fun _ => rfl, hs⟩
  · trivial

theorem ends_write_open {p : Place} (hf : n.HasField σ p.root) (settled : n.Settled σ p)
    (hp : n.Open σ h₀ p) :
    (n.write σ p raw).Ends h (fun _ h' => n.Grafts C h₀ h' ∧ n.Open σ h' p) (fun _ _ => True) := by
  cases p with
  | property name =>
    rw [write]
    exact (ends_writeProperty_stores hσ hn hh hx new hf).mono (fun _ _ hs => ⟨hs.1, hs.2.1⟩)
      fun _ _ => id
  | element holder key =>
    obtain ⟨c, hc⟩ := hp
    obtain ⟨type, spot, before, holds⟩ := hc.holds
    refine (holds.mono hx).ends_write_element hσ.makesNew hn.harmless hc.notNull fun g hy => ?_
    refine (ends_writeElement_stores hσ hn hh (hx.trans hy) (new.mono hy) settled.2 hc _).mono
      (fun _ h' hs => ?_) fun _ _ => id
    obtain ⟨type, -, grafts, isOpen, -⟩ := hs
    exact ⟨grafts, isOpen⟩

end Writes

/-- No array on the way to the place has to grow. -/
def Roomy (σ : Schema) (n : Node) (h : Heap) : Place → Prop
  | .property _ => True
  | .element holder key =>
    Roomy σ n h holder ∧
      ∀ shown elem l i g, (n.readHolder σ shown holder).on h = (.ok (.array elem l), g) →
        Text.index? key = some i → i < (g.items l).length

section Ways

variable (hσ : σ.MakesTrees) (hn : n.strategies.MakesTrees σ) (hh : n.Hangs C h) {p : Place}
  (hf : n.HasField σ p.root) (settled : n.Settled σ p)
include hσ hn hh hf settled

/-- What is there, or else is made there. -/
theorem ends_present_open (hp : n.Open σ h p) {v : Value}
    (holds : v.isNull = false → ∃ type spot before, n.Holds σ h p v type spot before)
    (shown again : String) :
    (n.present σ p shown v (n.read σ again p) (n.write σ p)).Ends h
      (fun u h' => n.Grafts C h h' ∧ u.isNull = false ∧
        ∃ type spot before, n.Holds σ h' p u type spot before)
      (fun _ _ => True) := by
  unfold present
  split
  · rename_i there
    have there : v.isNull = false := by simpa using there
    exact ⟨.refl hh, there, holds there⟩
  · split
    · unfold vivify
      dsimp only
      split
      · trivial
      · simp only [Run.ends_bind, Run.ends_mapError]
        refine (ends_defaultValue_new hσ _ h).mono (fun fresh g hg => ?_) fun _ _ => id
        refine (ends_write_open hσ hn hh hg.1 hg.2 hf settled hp).mono (fun _ g₁ hw => ?_)
          fun _ _ => id
        refine (ends_read_open hσ hn hw.1.hangs hf settled hw.2 again).mono (fun u g₂ hu => ?_)
          fun _ _ => id
        split
        · trivial
        · rename_i notNull
          have notNull : u.isNull = false := by simpa using notNull
          exact ⟨hw.1.trans hu.grafts, notNull, hu.holds notNull⟩
    · trivial

end Ways

/-- Along a place with room for it, a reader makes what is missing and comes to what it
can also write. -/
theorem ends_read_roomy (hσ : σ.MakesTrees) (hn : n.strategies.MakesTrees σ) (hh : n.Hangs C h)
    {p : Place} (hf : n.HasField σ p.root) (settled : n.Settled σ p) (roomy : n.Roomy σ h p)
    (shown : String) :
    (n.read σ shown p).Ends h (fun v h' => n.Found σ C h p v h') (fun _ _ => True) := by
  induction p with
  | property name =>
    rw [Node.read]
    exact ends_readProperty_found hh hf shown
  | element holder key ih =>
    have field : n.HasField σ holder.root := hf
    have held : (n.readHolder σ shown holder).Ends h
        (fun c g => n.Grafts C h g ∧
          (c.isNull = false → ∃ type spot before, n.Holds σ g holder c type spot before))
        (fun _ _ => True) := by
      refine ends_readHolder_of (ih field settled.1 roomy.1)
        (fun c g hc => ⟨hc.grafts, hc.holds⟩) fun v g hv => ?_
      have made := ends_present_open hσ hn hv.grafts.hangs field settled.1 hv.isOpen hv.holds
        shown holder.canonical
      exact made.mono (fun u g' hu => ⟨hv.grafts.trans hu.1, fun _ => hu.2.2⟩) fun _ _ => id
    rw [read_element, Run.ends_bind]
    refine (held.and (Run.ends_on _ h)).mono (fun c g hc => ?_) fun _ _ _ => trivial
    obtain ⟨⟨grafts, holds⟩, ran⟩ := hc
    cases null : c.isNull with
    | true =>
      cases c with
      | null => trivial
      | _ => cases null
    | false =>
      have container : n.HasContainer σ g holder key c := by
        refine ⟨holds null, null, fun elem l i array index => ?_⟩
        subst array
        exact roomy.2 shown elem l i g ran index
      refine (ends_readElement_found hσ hn grafts.hangs settled.2 container shown _).mono
        (fun v g' hv => ?_) fun _ _ => id
      exact ⟨grafts.trans hv.grafts, hv.isOpen, hv.holds⟩

def container (σ : Schema) (n : Node) (holder : Place) (key : String) : Run PathError Value := do
  let whole := (Place.element holder key).canonical
  let found ← Run.mapError (n.holderError σ whole) (n.read σ holder.canonical holder)
  n.present σ holder whole found (n.read σ holder.canonical holder) (n.write σ holder)

theorem write_element (holder : Place) (key : String) (raw : Value) :
    n.write σ (.element holder key) raw = (do
      let c ← n.container σ holder key
      n.writeElement σ (.element holder key) holder key raw c (n.write σ holder)) := by
  rw [write, container, bind_assoc]

section Ways

variable (hσ : σ.MakesTrees) (hn : n.strategies.MakesTrees σ) (hh : n.Hangs C h) {p : Place}
  (hf : n.HasField σ p.root) (settled : n.Settled σ p) (roomy : n.Roomy σ h p)
include hσ hn hh hf settled roomy

theorem ends_container (key : String) :
    (n.container σ p key).Ends h
      (fun c h' => n.Grafts C h h' ∧ c.isNull = false ∧
        ∃ type spot before, n.Holds σ h' p c type spot before)
      (fun _ _ => True) := by
  simp only [container, Run.ends_bind, Run.ends_mapError]
  refine (ends_read_roomy hσ hn hh hf settled roomy _).mono (fun v g hv => ?_) fun _ _ => id
  refine (ends_present_open hσ hn hv.grafts.hangs hf settled hv.isOpen hv.holds _ _).mono
    (fun u h' hu => ?_) fun _ _ => id
  exact ⟨hv.grafts.trans hu.1, hu.2⟩

theorem ends_enter_roomy :
    (n.enter σ p).Ends h
      (fun o h' => n.Grafts C h h' ∧
        ∃ type spot before, n.Holds σ h' p (.object o) type spot before)
      (fun _ _ => True) := by
  simp only [enter, Run.ends_bind]
  refine (ends_read_roomy hσ hn hh hf settled roomy _).mono (fun v g hv => ?_) fun _ _ => id
  refine (ends_present_open hσ hn hv.grafts.hangs hf settled hv.isOpen hv.holds _ _).mono
    (fun u h' hu => ?_) fun _ _ => id
  split
  · exact ⟨hv.grafts.trans hu.1, hu.2.2⟩
  · trivial

end Ways

end Node

end PropertyAccess
