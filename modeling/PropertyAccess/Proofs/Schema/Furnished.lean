import PropertyAccess.Proofs.Graph.Tree
import PropertyAccess.Proofs.Property.Handle
import PropertyAccess.Proofs.Schema.Stays

/-! Objects with all of their slots. Objects are made by their classes alone, with a slot for
each field, and no slot is ever taken away. So whatever getters, setters, constructors and
converters do with the graph, an object that they come by has its slots; this is a realm. What
is in the slots does not matter, and neither does who may read it. -/

namespace PropertyAccess

def Value.Known (K : ObjectRef → Prop) (v : Value) : Prop := ∀ o, v = .object o → K o

/-- These objects have a slot for each field of their class, and no others are referred to. -/
structure Heap.Furnished (σ : Schema) (K : ObjectRef → Prop) (h : Heap) : Prop where
  slots : ∀ o, K o → ∃ fields, h.cell? o.loc = some (.slots fields) ∧
    fields.length = (σ.layout o.cls).length
  known : ∀ l c, h.cell? l = some c → ∀ v ∈ c.contents, v.Known K

variable {σ : Schema} {K K' : ObjectRef → Prop} {h h' : Heap} {l : Loc} {v : Value}

namespace Value.Known

theorem mono (hv : v.Known K) (later : ∀ o, K o → K' o) : v.Known K' :=
  fun o same => later o (hv o same)

theorem scalar (scalar : v.loc? = none) : v.Known K := by
  rintro o rfl
  cases scalar

end Value.Known

namespace Heap.Furnished

theorem mono (hh : h.Furnished σ K) (later : ∀ o, K o → K' o)
    (slots : ∀ o, K' o → K o ∨ ∃ fields, h.cell? o.loc = some (.slots fields) ∧
      fields.length = (σ.layout o.cls).length) : h.Furnished σ K' where
  slots o ho := (slots o ho).elim (hh.slots o) id
  known l c cell v hv := (hh.known l c cell v hv).mono later

theorem items (hh : h.Furnished σ K) : ∀ x ∈ h.items l, x.Known K :=
  fun x hx => hh.known l _ (cell?_of_mem_items hx) x hx

theorem elements (hh : h.Furnished σ K) {vs : List Value} (he : h.elements? v = some vs) :
    ∀ x ∈ vs, x.Known K := by
  cases v with
  | array _ m | list _ m | set _ m =>
    obtain rfl := Option.some.inj he
    exact hh.items
  | _ => cases he

theorem entries (hh : h.Furnished σ K) : ∀ e ∈ h.entries l, e.1.Known K ∧ e.2.Known K := by
  unfold Heap.entries
  split
  · rename_i pairs cell
    exact Cell.forall_contents_entries.1 (hh.known l _ cell)
  · simp

theorem slot? (hh : h.Furnished σ K) {o : ObjectRef} (ho : K o) {i : Nat}
    (inside : i < (σ.layout o.cls).length) : ∃ v, h.slot? o.loc i = some v ∧ v.Known K := by
  obtain ⟨fields, cell, length⟩ := hh.slots o ho
  have there : fields[i]? = some fields[i] := List.getElem?_eq_getElem (length ▸ inside)
  refine ⟨fields[i].2, ?_, hh.known _ _ cell _ (Cell.mem_contents_slots there)⟩
  simp [Heap.slot?, Heap.slots, cell, there]

theorem alloc (hh : h.Furnished σ K) {c : Cell} (new : ∀ v ∈ c.contents, v.Known K) :
    (h.alloc c).2.Furnished σ K where
  slots o ho := by
    obtain ⟨fields, cell, length⟩ := hh.slots o ho
    exact ⟨fields, by rw [cell?_alloc_of_lt c (lt_size_of_cell? cell), cell], length⟩
  known l d cell v hv := by
    by_cases old : l < h.size
    · rw [cell?_alloc_of_lt c old] at cell
      exact hh.known l d cell v hv
    · have inside : l < h.size + 1 := by simpa using lt_size_of_cell? cell
      obtain rfl : h.size = l := Nat.le_antisymm (Nat.le_of_not_lt old) (Nat.le_of_lt_succ inside)
      obtain rfl := Option.some.inj ((cell?_alloc h c).symm.trans cell)
      exact new v hv

theorem put (hh : h.Furnished σ K) {c d : Cell} (cell : h.cell? l = some c)
    (shape : ∀ fields, c = .slots fields → ∃ fields', d = .slots fields' ∧
      fields'.length = fields.length)
    (new : ∀ v ∈ d.contents, v.Known K) : (h.put l d).Furnished σ K where
  slots o ho := by
    obtain ⟨fields, own, length⟩ := hh.slots o ho
    by_cases same : o.loc = l
    · subst same
      obtain ⟨fields', rfl, length'⟩ := shape fields (Option.some.inj (cell.symm.trans own))
      exact ⟨fields', cell?_put_self (lt_size_of_cell? cell), length'.trans length⟩
    · exact ⟨fields, by rw [cell?_put_of_ne d same, own], length⟩
  known m e there v hv := by
    by_cases same : m = l
    · subst same
      obtain rfl := Option.some.inj ((cell?_put_self (lt_size_of_cell? cell)).symm.trans there)
      exact new v hv
    · rw [cell?_put_of_ne d same] at there
      exact hh.known m e there v hv

theorem setItem? (hh : h.Furnished σ K) {i : Nat} (hv : v.Known K)
    (set : h.setItem? l i v = some h') : h'.Furnished σ K := by
  unfold Heap.setItem? at set
  split at set
  · rename_i hi
    obtain rfl := Option.some.inj set
    refine hh.put (cell?_of_mem_items (List.getElem_mem hi)) (by simp) fun x hx => ?_
    rcases List.mem_or_eq_of_mem_set hx with hx | rfl
    · exact hh.items x hx
    · exact hv
  · cases set

theorem appendItems (hh : h.Furnished σ K) {vs : List Value} (new : ∀ x ∈ vs, x.Known K) :
    (h.appendItems l vs).Furnished σ K := by
  unfold Heap.appendItems editItems
  split
  · rename_i old cell
    exact hh.put cell (by simp) (List.forall_mem_append.2 ⟨hh.known l _ cell, new⟩)
  · exact hh

theorem insertEntry (hh : h.Furnished σ K) (shape : TableShape) {k : Value} (hk : k.Known K)
    (hv : v.Known K) : (h.insertEntry shape l k v).Furnished σ K := by
  unfold Heap.insertEntry editEntries
  split
  · rename_i old cell
    have before := Cell.forall_contents_entries.1 (hh.known l _ cell)
    exact hh.put cell (by simp)
      (Cell.forall_contents_entries.2 (MapEntries.forall_insert hk hv before))
  · exact hh

theorem setSlot? (hh : h.Furnished σ K) {i : Nat} (hv : v.Known K)
    (set : h.setSlot? l i v = some h') : h'.Furnished σ K := by
  unfold Heap.setSlot? at set
  split at set
  · rename_i name old there
    obtain rfl := Option.some.inj set
    have cell : h.cell? l = some (.slots (h.slots l)) := by
      unfold Heap.slots at there ⊢
      split at there
      · assumption
      · simp at there
    refine hh.put cell (fun fields same => ⟨_, rfl, ?_⟩) ?_
    · obtain rfl := Cell.slots.inj same
      exact List.length_set
    · refine List.forall_mem_map.2 fun f hf => ?_
      rcases List.mem_or_eq_of_mem_set hf with hf | rfl
      · exact hh.known l _ cell _ (List.mem_map_of_mem hf)
      · exact hv
  · cases set

end Heap.Furnished

namespace Schema

def furnishing (σ : Schema) : Realm σ where
  World := ObjectRef → Prop
  Later K K' := ∀ o, K o → K' o
  Fits K h := h.Furnished σ K
  Allows K v := v.Known K
  strict := False
  refl _ _ := id
  trans first second o ho := second o (first o ho)
  mono later hv := hv.mono later
  scalar := Value.Known.scalar
  items fits _ he := fits.elements he
  instances strict := strict.elim
  entries fits _ := fits.entries
  array _ fits hv _ := ⟨_, fun _ => id, fits.alloc hv, by simp [Value.Known]⟩
  list _ fits hv := ⟨_, fun _ => id, fits.alloc hv, by simp [Value.Known]⟩
  set _ fits hv := ⟨_, fun _ => id, fits.alloc hv, by simp [Value.Known]⟩
  map _ fits he := ⟨_, fun _ => id, fits.alloc (Cell.forall_contents_entries.2 he),
    by simp [Value.Known]⟩

/-- Initializers, constructors from text, getters and setters only come by objects that are
known by then, and leave all objects with their slots. -/
structure Honest (σ : Schema) : Prop where
  initializer : ∀ c d run, σ.class? c = some d → d.construction = .initialized run →
    ∀ l K h, h.Furnished σ K → K ⟨c, l⟩ →
      ∃ K', (∀ o, K o → K' o) ∧ (run ⟨c, l⟩ h).Furnished σ K'
  fromText : ∀ K c text make, σ.fromText? c text = some make →
    make.Stays σ.furnishing K σ.furnishing.Allows
  getter : ∀ o p g, σ.HasProperty o.cls p → p.getter = some g → ∀ K, K o →
    (g o).Stays σ.furnishing K σ.furnishing.Allows
  setter : ∀ o p s, σ.HasProperty o.cls p → p.setter = some s → ∀ K v, K o → v.Known K →
    (s o v).Stays σ.furnishing K fun _ _ => True

/-- No getter fails on an object of its class that has its slots. -/
def Answers (σ : Schema) : Prop :=
  ∀ o p g, σ.HasProperty o.cls p → p.getter = some g → ∀ K h, h.Furnished σ K → K o →
    ∃ v h', (g o).on h = (.ok v, h')

theorem stays_blank_furnished (K : ObjectRef → Prop) (c : ClassId) :
    (σ.blank c).Stays σ.furnishing K fun K' o => o.cls = c ∧ K' o := by
  intro h fits
  let fields := (σ.layout c).map fun s => (s.name, s.type.zeroValue)
  have zeros : ∀ v ∈ (Cell.slots fields).contents, v.Known K := by
    intro v hv
    simp only [Cell.contents, fields, List.map_map, List.mem_map] at hv
    obtain ⟨s, -, rfl⟩ := hv
    exact .scalar (loc?_zeroValue _)
  refine ⟨fun o => K o ∨ o = ⟨c, h.size⟩, fun _ => .inl, ?_, rfl, .inr rfl⟩
  refine (Heap.Furnished.alloc fits zeros).mono (fun _ => .inl) fun o ho => ho.imp_right ?_
  rintro rfl
  exact ⟨fields, Heap.cell?_alloc h _, List.length_map _⟩

theorem Honest.instantiate (hσ : σ.Honest) (K : ObjectRef → Prop) (c : ClassId) :
    (σ.instantiate c).Stays σ.furnishing K fun K' o => (Value.object o).Known K' := by
  have own {K' : ObjectRef → Prop} {o : ObjectRef} (ho : K' o) : (Value.object o).Known K' := by
    rintro _ ⟨⟩
    exact ho
  unfold Schema.instantiate
  split
  · exact .throw _
  · rename_i d declared
    refine .ite (fun _ => .throw _) fun _ => ?_
    split
    · exact .throw _
    · exact .throw _
    · exact (stays_blank_furnished K c).mono fun _ _ _ ho => own ho.2
    · rename_i run initialized
      refine (stays_blank_furnished K c).bind fun K' o _ ho h fits => ?_
      obtain ⟨rfl, known⟩ := ho
      obtain ⟨K'', later, fits'⟩ := hσ.initializer _ d run declared initialized _ K' h fits known
      exact ⟨K'', later, fits', own (later o known)⟩

theorem Honest.stays (hσ : σ.Honest) : σ.Stays σ.furnishing :=
  ⟨hσ.instantiate, hσ.fromText, fun strict => strict.elim⟩

end Schema

end PropertyAccess
