import PropertyAccess.Proofs.Property.Table
import PropertyAccess.Proofs.Schema.Harmless

/-! Reading and writing through a handle. A handle leads to a slot or to the
accessors of a declared property, so what is asked of the declared getters and
setters holds of every handle. -/

namespace PropertyAccess

/-- A failure changes no object that exists. Success makes no array, list or set
shorter: they have no operation that takes an element out. -/
def Setter.Careful (s : Setter) : Prop :=
  ∀ o v h, Run.Ends (s o v) h (fun _ h' => h.Grows h') (fun _ h' => h.Extends h')

def ClassDecl.Careful (d : ClassDecl) : Prop :=
  ∀ p ∈ d.properties, ∀ s, p.setter = some s → Setter.Careful s

def Schema.Careful (σ : Schema) : Prop := ∀ d ∈ σ.classes, d.Careful

namespace Handle

variable {hd : Handle} {o : ObjectRef} {h h' : Heap} {i : Nat} {v : Value}
  {readable writable : Bool}

theorem on_get_of_slot (access : hd.access = .slot i true writable)
    (there : h.slot? o.loc i = some v) : (hd.get o).on h = (.ok v, h) := by
  have found : (Run.lookup (·.slot? o.loc i) : Run PropertyFault _).on h = (.ok (some v), h) := by
    rw [← there]
    rfl
  rw [get, access]
  dsimp only
  rw [Run.on_bind_of_ok found]
  rfl

theorem on_set_of_slot_iff {σ : Schema} (access : hd.access = .slot i readable writable) :
    (hd.set σ o v).on h = (.ok (), h') ↔
      σ.accepts hd.type v = true ∧ writable = true ∧ h.setSlot? o.loc i v = some h' := by
  have looked : (Run.lookup (·.setSlot? o.loc i v) : Run PropertyFault _).on h =
      (.ok (h.setSlot? o.loc i v), h) := rfl
  rw [set, access]
  by_cases accepted : σ.accepts hd.type v = true
  · cases writable with
    | false =>
      rw [if_pos accepted]
      exact ⟨nofun, nofun⟩
    | true =>
      simp only [accepted, if_true, true_and]
      rw [Run.on_bind_of_ok looked]
      cases h.setSlot? o.loc i v with
      | none => exact ⟨nofun, nofun⟩
      | some after =>
        constructor
        · rintro ⟨⟩
          rfl
        · rintro ⟨⟩
          rfl
  · rw [if_neg accepted]
    exact ⟨nofun, fun stored => absurd stored.1 accepted⟩

end Handle

namespace Schema

/-- The type of the handle of a slot: type arguments and the self type are put in. -/
def Slot.memberType (s : Slot) : Ty := s.type.substitute [] (some s.owner)

def Slot.Shown (mode : AccessMode) (s : Slot) : Prop :=
  mode = .fields ∨ s.field.exposure ≠ .hidden

instance (mode : AccessMode) (s : Slot) : Decidable (s.Shown mode) :=
  inferInstanceAs (Decidable (_ ∨ _))

def Slot.handle (mode : AccessMode) (index : Nat) (s : Slot) : Handle :=
  match mode with
  | .fields => ⟨s.name, s.memberType, .slot index true true⟩
  | .properties =>
    ⟨s.name, s.memberType, .slot index s.field.exposure.isReadable s.field.exposure.isWritable⟩

variable {σ : Schema} {c : ClassId} {mode : AccessMode} {hd : Handle}

theorem Slot.name_handle (s : Slot) (mode : AccessMode) (i : Nat) :
    (s.handle mode i).name = s.name := by
  cases mode <;> rfl

theorem Slot.type_handle (s : Slot) (mode : AccessMode) (i : Nat) :
    (s.handle mode i).type = s.memberType := by
  cases mode <;> rfl

theorem Slot.access_handle (s : Slot) (mode : AccessMode) (i : Nat) :
    ∃ readable writable, (s.handle mode i).access = .slot i readable writable := by
  cases mode <;> exact ⟨_, _, rfl⟩

theorem slotHandle?_eq (mode : AccessMode) (i : Nat) (s : Slot) :
    slotHandle? mode i s = if s.Shown mode then some (s.handle mode i) else none := by
  cases mode with
  | fields => simp [slotHandle?, Slot.Shown, Slot.handle, Slot.memberType]
  | properties =>
    cases exposure : s.field.exposure <;>
      simp [slotHandle?, Slot.Shown, Slot.handle, Slot.memberType, exposure]

def IsSlot (σ : Schema) (c : ClassId) (hd : Handle) : Prop :=
  ∃ index readable writable s, (σ.layout c)[index]? = some s ∧ hd.type = s.memberType ∧
    hd.access = .slot index readable writable

theorem isSlot_of_mem_slotHandles (h : hd ∈ σ.slotHandles c mode) : IsSlot σ c hd := by
  obtain ⟨⟨s, index⟩, hs, own⟩ := List.mem_filterMap.1 h
  obtain ⟨-, same⟩ := Option.ite_none_right_eq_some.1 ((slotHandle?_eq mode index s).symm.trans own)
  obtain rfl := Option.some.inj same
  obtain ⟨readable, writable, access⟩ := s.access_handle mode index
  exact ⟨index, readable, writable, s, List.mem_zipIdx_iff_getElem?.1 hs,
    s.type_handle mode index, access⟩

theorem access_of_mem_accessorHandles {l : Level} (h : hd ∈ accessorHandles l) :
    ∃ p ∈ l.decl.properties, hd.access = .accessors p.getter p.setter := by
  obtain ⟨p, hp, rfl⟩ := List.mem_map.1 h
  exact ⟨p, hp, rfl⟩

/-- The class or one of its ancestors declares the property. -/
def HasProperty (σ : Schema) (c : ClassId) (p : PropertyDecl) : Prop :=
  ∃ l ∈ σ.levels c, p ∈ l.decl.properties

theorem HasProperty.declared {p : PropertyDecl} (hp : σ.HasProperty c p) :
    ∃ d ∈ σ.classes, p ∈ d.properties := by
  obtain ⟨l, hl, own⟩ := hp
  exact ⟨l.decl, mem_of_mem_levelsFrom hl, own⟩

theorem isSlot_or_accessors {name : String} (h : σ.handle? c mode name = some hd) :
    IsSlot σ c hd ∨
      ∃ p, σ.HasProperty c p ∧ hd.access = .accessors p.getter p.setter := by
  have declared : hd ∈ σ.declaredHandles c mode := by
    rw [handle?_eq] at h
    exact List.mem_reverse.1 (List.mem_of_find?_eq_some h)
  unfold declaredHandles at declared
  split at declared
  · exact .inl (isSlot_of_mem_slotHandles declared)
  · rcases List.mem_append.1 declared with hs | ha
    · exact .inl (isSlot_of_mem_slotHandles hs)
    · obtain ⟨l, hl, hp⟩ := List.mem_flatMap.1 ha
      obtain ⟨p, hp, hacc⟩ := access_of_mem_accessorHandles hp
      exact .inr ⟨p, ⟨l, List.mem_reverse.1 hl, hp⟩, hacc⟩

theorem access_of_handle? {name : String} (h : σ.handle? c mode name = some hd) :
    (∃ index readable writable, hd.access = .slot index readable writable) ∨
      ∃ d ∈ σ.classes, ∃ p ∈ d.properties, hd.access = .accessors p.getter p.setter := by
  rcases isSlot_or_accessors h with ⟨index, readable, writable, -, -, -, access⟩ | ⟨p, has, access⟩
  · exact .inl ⟨index, readable, writable, access⟩
  · obtain ⟨d, declared, own⟩ := has.declared
    exact .inr ⟨d, declared, p, own, access⟩

theorem slot_of_handle? (fields : ∀ d ∈ σ.classes, d.properties = []) {name : String}
    (h : σ.handle? c mode name = some hd) : IsSlot σ c hd := by
  refine (isSlot_or_accessors h).resolve_right fun ⟨p, has, _⟩ => ?_
  obtain ⟨d, declared, own⟩ := has.declared
  rw [fields d declared] at own
  cases own

theorem harmless_get (hσ : σ.Harmless) {name : String} (h : σ.handle? c mode name = some hd)
    (o : ObjectRef) : (hd.get o).Harmless := by
  unfold Handle.get
  split
  · rename_i getter setter hacc
    rcases access_of_handle? h with ⟨_, _, _, hs⟩ | ⟨d, hd, p, hp, ha⟩
    · rw [hacc] at hs
      cases hs
    · rw [hacc] at ha
      injection ha with hg
      exact (hσ d hd).getter p hp getter hg.symm o
  · refine (Run.Harmless.lookup _).bind fun found => ?_
    split
    · exact .pure _
    · exact .throw _
  · exact .throw _

theorem ends_set (hσ : σ.Careful) {name : String} (h : σ.handle? c mode name = some hd)
    (o : ObjectRef) (v : Value) (g : Heap) :
    (hd.set σ o v).Ends g (fun _ g' => g.Grows g') (fun _ g' => g.Extends g') := by
  unfold Handle.set
  split
  · split
    · rename_i getter setter hacc
      rcases access_of_handle? h with ⟨_, _, _, hs⟩ | ⟨d, hd, p, hp, ha⟩
      · rw [hacc] at hs
        cases hs
      · rw [hacc] at ha
        injection ha with _ hset
        exact hσ d hd p hp setter hset.symm o v g
    · simp only [Run.ends_bind, Run.ends_lookup]
      split
      · rename_i after hs
        exact Heap.grows_setSlot? hs
      · exact .refl g
    · exact .refl g
  · exact .refl g

end Schema

end PropertyAccess
