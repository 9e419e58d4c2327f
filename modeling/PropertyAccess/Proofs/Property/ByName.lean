import PropertyAccess.Proofs.Graph.Spots
import PropertyAccess.Proofs.Property.Prevailing
import PropertyAccess.Schema.Instance

/-! Fields by name and through handles. An object keeps its values in the order of the fields of
its class, and a name means the last field of that name; the handle of a name leads to the last
field that is shown. So both come to one slot unless a class declares the field again and hides
it. -/

namespace PropertyAccess

variable {σ : Schema} {c : ClassId} {mode : AccessMode} {name : String} {hd : Handle}
  {h h' : Heap} {o : ObjectRef} {i : Nat} {s : Schema.Slot} {v w : Value}
  {readable writable : Bool}

def Heap.HasSlots (σ : Schema) (h : Heap) (o : ObjectRef) : Prop :=
  (h.slots o.loc).map (·.1) = (σ.layout o.cls).map (·.name)

theorem Schema.hasSlots_of_blank (made : (σ.blank c).on h = (.ok o, h')) :
    o.cls = c ∧ h'.HasSlots σ o := by
  obtain ⟨result, rfl⟩ := Prod.mk.inj made
  obtain rfl := Except.ok.inj result
  refine ⟨rfl, ?_⟩
  let fields := (σ.layout c).map fun s => (s.name, s.type.zeroValue)
  have slots : (h.alloc (.slots fields)).2.slots (h.alloc (.slots fields)).1 = fields := by
    rw [Heap.slots, Heap.cell?_alloc]
  exact (congrArg (List.map (·.1)) slots).trans (List.map_map ..)

namespace Heap.HasSlots

theorem store (hs : h.HasSlots σ o) (s : Spot) (w : Value) : (h.store s w).HasSlots σ o := by
  rw [HasSlots, ← hs]
  by_cases own : o.loc = s.1
  · rw [own, slots_store_self]
    refine List.ext_getElem? fun j => ?_
    rw [List.getElem?_map, List.getElem?_map, List.getElem?_modify]
    split <;> cases (h.slots s.1)[j]? <;> rfl
  · rw [slots_store_of_ne own]

theorem exists_slot? (hs : h.HasSlots σ o) (there : (σ.layout o.cls)[i]? = some s) :
    ∃ w, h.slot? o.loc i = some w := by
  have named : ((h.slots o.loc).map (·.1))[i]? = some s.name := by
    rw [hs, List.getElem?_map, there]
    rfl
  rw [List.getElem?_map] at named
  obtain ⟨f, found, -⟩ := Option.map_eq_some_iff.1 named
  exact ⟨f.2, by rw [Heap.slot?, found]; rfl⟩

theorem slotOf?_eq (hs : h.HasSlots σ o) (name : String) :
    slotOf? (h.slots o.loc) name = σ.fieldIndex? o.cls name := by
  have inObject := lastIndex?_map (·.1) (fun n : String => n = name) (h.slots o.loc)
  have inLayout := lastIndex?_map (·.name) (fun n : String => n = name) (σ.layout o.cls)
  rw [hs] at inObject
  exact inObject.symm.trans inLayout

theorem field?_eq (hs : h.HasSlots σ o) (means : σ.fieldIndex? o.cls name = some i) :
    h.field? o.loc name = h.slot? o.loc i := by
  rw [field?, hs.slotOf?_eq, means]
  rfl

theorem setField?_eq (hs : h.HasSlots σ o) (means : σ.fieldIndex? o.cls name = some i) :
    h.setField? o.loc name v = h.setSlot? o.loc i v := by
  rw [setField?, hs.slotOf?_eq, means]
  rfl

end Heap.HasSlots

namespace Schema

theorem slotPrevails_of_handle? (found : σ.handle? c mode name = some hd)
    (access : hd.access = .slot i readable writable) :
    ∃ s, SlotPrevails σ c mode name i s ∧ hd = s.handle mode i := by
  have unpaired : mode = .properties → ∀ p, σ.HasProperty c p → p.name ≠ name := by
    rintro rfl p has rfl
    obtain ⟨l, q, prevails, same⟩ := exists_pairPrevails has
    rw [← same, handle?_of_pairPrevails prevails] at found
    obtain rfl := Option.some.inj found
    cases access
  obtain ⟨j, s, prevails, rfl⟩ := (handle?_eq_some_iff_slotPrevails unpaired).1 found
  obtain ⟨_, _, own⟩ := s.access_handle mode j
  rw [own] at access
  cases access
  exact ⟨s, prevails, rfl⟩

theorem SlotPrevails.exists_last (prevails : SlotPrevails σ c mode name i s) :
    ∃ j t, σ.fieldIndex? c name = some j ∧ (σ.layout c)[j]? = some t ∧
      (i = j ↔ t.Shown mode) := by
  obtain ⟨j, t, last⟩ := exists_lastAt (P := (·.name = name))
    (List.mem_of_getElem? prevails.there) prevails.holds.1
  refine ⟨j, t, fieldIndex?_eq_some_iff.2 ⟨t, last⟩, last.there, ?_, fun shown => ?_⟩
  · rintro rfl
    obtain rfl := Option.some.inj (prevails.there.symm.trans last.there)
    exact prevails.holds.2
  · have own : SlotPrevails σ c mode name j t :=
      ⟨last.there, ⟨last.holds, shown⟩, fun k u later there both =>
        last.after k u later there both.1⟩
    exact (LastAt.unique prevails own).1

/-- A handle that leads to a slot leads to the last field shown under its name. This is the slot
that the name means in the instances of the class, unless the last declaration of the name is
hidden. What is then written on one way is read on the other. -/
theorem slot_by_name (found : σ.handle? c mode name = some hd)
    (access : hd.access = .slot i readable writable) :
    ∃ s j t, SlotPrevails σ c mode name i s ∧ σ.fieldIndex? c name = some j ∧
      (σ.layout c)[j]? = some t ∧ (i = j ↔ t.Shown mode) ∧
      (t.Shown mode → ∀ h o v, o.cls = c → h.HasSlots σ o →
        (∀ h', (hd.set σ o v).on h = (.ok (), h') →
          h'.HasSlots σ o ∧ h'.field? o.loc name = some v) ∧
        (hd.isWritable = true → σ.accepts hd.type v = true →
          ∃ h', (hd.set σ o v).on h = (.ok (), h')) ∧
        ∃ h', h.setField? o.loc name v = some h' ∧ h'.HasSlots σ o ∧
          (hd.isReadable = true → (hd.get o).on h' = (.ok v, h'))) := by
  obtain ⟨s, prevails, -⟩ := slotPrevails_of_handle? found access
  obtain ⟨j, t, means, there, agree⟩ := prevails.exists_last
  refine ⟨s, j, t, prevails, means, there, agree, fun shown h o v own hs => ?_⟩
  -- from here the slot of the handle and that of the name are one
  obtain rfl := agree.2 shown
  subst own
  obtain ⟨w, held⟩ := hs.exists_slot? there
  have stored := Heap.setSlot?_of_some (v := v) held
  have kept := hs.store (o.loc, i) v
  have put := Heap.slot?_store_self (v := v) held
  refine ⟨fun h' set => ?_, fun may fits => ?_, _, (hs.setField?_eq means).trans stored, kept,
    fun may => ?_⟩
  · have same := ((hd.on_set_of_slot_iff access).1 set).2.2
    obtain rfl := Option.some.inj (stored.symm.trans same)
    exact ⟨kept, (kept.field?_eq means).trans put⟩
  · have may : writable = true := by simpa [Handle.isWritable, access] using may
    exact ⟨_, (hd.on_set_of_slot_iff access).2 ⟨fits, may, stored⟩⟩
  · obtain rfl : readable = true := by simpa [Handle.isReadable, access] using may
    exact hd.on_get_of_slot access put

end Schema

namespace Gauges

def plainHeap : Heap := ((schema.blank 0).on .empty).2

def sealedHeap : Heap := ((schema.blank 1).on .empty).2

end Gauges

theorem Schema.slot_by_name_gauge :
    ∃ hd, Gauges.schema.handle? 0 .properties "note" = some hd ∧
      hd.access = .slot 1 true true ∧
      ∃ h', (hd.set Gauges.schema ⟨0, 0⟩ (.text "low")).on Gauges.plainHeap = (.ok (), h') ∧
        h'.field? 0 "note" = some (.text "low") := by
  have found : Gauges.schema.handle? 0 .properties "note" =
      some ⟨"note", .text, .slot 1 true true⟩ := rfl
  obtain ⟨-, j, t, -, means, there, -, reach⟩ := Schema.slot_by_name found rfl
  obtain rfl : 1 = j := Option.some.inj means
  obtain rfl : (⟨0, ⟨"note", .text, .readWrite⟩, .text⟩ : Schema.Slot) = t := Option.some.inj there
  have slots : Gauges.plainHeap.HasSlots Gauges.schema ⟨0, 0⟩ :=
    (Schema.hasSlots_of_blank (c := 0) (h := .empty) rfl).2
  obtain ⟨written, accepted, -⟩ := reach (by decide) _ _ (.text "low") rfl slots
  obtain ⟨h', set⟩ := accepted rfl rfl
  exact ⟨_, found, rfl, h', set, (written h' set).2⟩

/-- The note that is shown of a sealed gauge is not the one that its name means: the one is
written and the other is still null. -/
theorem Schema.sealed_note_apart :
    ∃ hd, Gauges.schema.handle? 1 .properties "note" = some hd ∧
      hd.access = .slot 1 true true ∧ Gauges.schema.fieldIndex? 1 "note" = some 3 ∧
      Gauges.sealedHeap.HasSlots Gauges.schema ⟨1, 0⟩ ∧
      ∃ h', (hd.set Gauges.schema ⟨1, 0⟩ (.text "low")).on Gauges.sealedHeap = (.ok (), h') ∧
        h'.field? 0 "note" = some .null :=
  ⟨⟨"note", .text, .slot 1 true true⟩, rfl, rfl, rfl,
    (Schema.hasSlots_of_blank (c := 1) (h := .empty) rfl).2, _, rfl, rfl⟩

end PropertyAccess
