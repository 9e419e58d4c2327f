import PropertyAccess.Proofs.Graph.Extension
import PropertyAccess.Proofs.Graph.Table

/-! Spots of the heap. A slot of an object, an element of an array, a list or a set,
and the value of a map entry are each one spot of a cell. What replaces one of them
leaves all others as they are, and the keys of a map too. A change of one cell leaves all
other cells as they are. -/

namespace PropertyAccess

/-- A place in a cell, by location and position. -/
abbrev Spot := Loc × Nat

def Cell.at? : Cell → Nat → Option Value
  | .slots fields, i => (fields[i]?).map (·.2)
  | .items values, i => values[i]?
  | .entries pairs, i => (pairs[i]?).map (·.2)

def Cell.edit (i : Nat) (v : Value) : Cell → Cell
  | .slots fields => .slots (fields.modify i fun f => (f.1, v))
  | .items values => .items (values.set i v)
  | .entries pairs => .entries (pairs.modify i fun e => (e.1, v))

def Cell.mapItems (f : List Value → List Value) : Cell → Cell
  | .items values => .items (f values)
  | c => c

def Cell.mapEntries (f : List (Value × Value) → List (Value × Value)) : Cell → Cell
  | .entries pairs => .entries (f pairs)
  | c => c

/-- A list with a value at position `i`. Positions between its end and `i` hold null. -/
def itemsPut (i : Nat) (v : Value) (items : List Value) : List Value :=
  if i < items.length then items.set i v
  else items ++ (List.replicate (i - items.length) .null ++ [v])

theorem mem_of_mem_itemsPut {i : Nat} {v x : Value} {items : List Value}
    (hx : x ∈ itemsPut i v items) : x ∈ items ∨ x = v ∨ x = .null := by
  unfold itemsPut at hx
  split at hx
  · exact (List.mem_or_eq_of_mem_set hx).imp_right .inl
  · rcases List.mem_append.1 hx with hx | hx
    · exact .inl hx
    · rcases List.mem_append.1 hx with hx | hx
      · exact .inr (.inr (List.eq_of_mem_replicate hx))
      · exact .inr (.inl (List.mem_singleton.1 hx))

theorem getElem?_itemsPut (i : Nat) (v : Value) (items : List Value) :
    (itemsPut i v items)[i]? = some v := by
  unfold itemsPut
  split
  · rename_i inside
    exact List.getElem?_set_self inside
  · rename_i outside
    have long := Nat.le_of_not_lt outside
    rw [List.getElem?_append_right long, List.getElem?_append_right (by simp)]
    simp

namespace Heap

def at? (h : Heap) (s : Spot) : Option Value := (h.cell? s.1).bind (·.at? s.2)

def store (h : Heap) (s : Spot) (v : Value) : Heap :=
  match h.cell? s.1 with
  | some c => h.put s.1 (c.edit s.2 v)
  | none => h

variable {h h' : Heap} {s : Spot} {l : Loc} {i : Nat} {v w : Value}

@[simp] theorem size_store : (h.store s v).size = h.size := by
  unfold store
  split
  · exact size_put _
  · rfl

theorem cell?_store_of_ne (hl : l ≠ s.1) : (h.store s v).cell? l = h.cell? l := by
  unfold store
  split
  · exact cell?_put_of_ne _ hl
  · rfl

theorem cell?_store_self : (h.store s v).cell? s.1 = (h.cell? s.1).map (Cell.edit s.2 v) := by
  unfold store
  split
  · rename_i c hc
    rw [cell?_put_self (lt_size_of_cell? hc), hc]
    rfl
  · rename_i hc
    rw [hc]
    rfl

theorem slots_store_self :
    (h.store s v).slots s.1 = (h.slots s.1).modify s.2 fun f => (f.1, v) := by
  unfold slots
  rw [cell?_store_self]
  rcases h.cell? s.1 with _ | c
  · simp
  · cases c <;> simp [Cell.edit]

theorem items_store_self : (h.store s v).items s.1 = (h.items s.1).set s.2 v := by
  unfold items
  rw [cell?_store_self]
  rcases h.cell? s.1 with _ | c
  · simp
  · cases c <;> simp [Cell.edit]

theorem entries_store_self :
    (h.store s v).entries s.1 = (h.entries s.1).modify s.2 fun e => (e.1, v) := by
  unfold entries
  rw [cell?_store_self]
  rcases h.cell? s.1 with _ | c
  · simp
  · cases c <;> simp [Cell.edit]

theorem slots_store_of_ne (hl : l ≠ s.1) : (h.store s v).slots l = h.slots l := by
  rw [slots, slots, cell?_store_of_ne hl]

theorem items_store_of_ne (hl : l ≠ s.1) : (h.store s v).items l = h.items l := by
  rw [items, items, cell?_store_of_ne hl]

theorem entries_store_of_ne (hl : l ≠ s.1) : (h.store s v).entries l = h.entries l := by
  rw [entries, entries, cell?_store_of_ne hl]

theorem slot?_store_of_ne (hs : (l, i) ≠ s) : (h.store s v).slot? l i = h.slot? l i := by
  unfold slot?
  by_cases hl : l = s.1
  · have hi : s.2 ≠ i := fun hi => hs (Prod.ext hl hi.symm)
    rw [hl, slots_store_self, List.getElem?_modify_ne _ _ hi]
  · rw [slots_store_of_ne hl]

theorem slot?_store_self (hv : h.slot? l i = some w) : (h.store (l, i) v).slot? l i = some v := by
  unfold slot? at *
  have stored : (h.store (l, i) v).slots l = (h.slots l).modify i fun f => (f.1, v) :=
    slots_store_self
  obtain ⟨f, hf, -⟩ := Option.map_eq_some_iff.1 hv
  rw [stored, List.getElem?_modify_eq, hf]
  rfl

theorem item_store_of_ne (hs : (l, i) ≠ s) : ((h.store s v).items l)[i]? = (h.items l)[i]? := by
  by_cases hl : l = s.1
  · have hi : s.2 ≠ i := fun hi => hs (Prod.ext hl hi.symm)
    rw [hl, items_store_self, List.getElem?_set_ne hi]
  · rw [items_store_of_ne hl]

theorem item_store_self (hv : (h.items l)[i]? = some w) :
    ((h.store (l, i) v).items l)[i]? = some v := by
  have stored : (h.store (l, i) v).items l = (h.items l).set i v := items_store_self
  rw [stored, List.getElem?_set_self (List.getElem?_eq_some_iff.1 hv).1]

theorem entry_store_of_ne (hs : (l, i) ≠ s) :
    ((h.store s v).entries l)[i]? = (h.entries l)[i]? := by
  by_cases hl : l = s.1
  · have hi : s.2 ≠ i := fun hi => hs (Prod.ext hl hi.symm)
    rw [hl, entries_store_self, List.getElem?_modify_ne _ _ hi]
  · rw [entries_store_of_ne hl]

theorem entry_store_self {e : Value × Value} (he : (h.entries l)[i]? = some e) :
    ((h.store (l, i) v).entries l)[i]? = some (e.1, v) := by
  have stored : (h.store (l, i) v).entries l = (h.entries l).modify i fun e => (e.1, v) :=
    entries_store_self
  rw [stored, List.getElem?_modify_eq, he]
  rfl

theorem findIdx?_store (key : Value) :
    ((h.store s v).entries l).findIdx? (·.1.same key) =
      (h.entries l).findIdx? (·.1.same key) := by
  by_cases hl : l = s.1
  · rw [hl, entries_store_self, MapEntries.findIdx?_modify]
  · rw [entries_store_of_ne hl]

theorem cell?_of_slot? (hv : h.slot? l i = some w) : h.cell? l = some (.slots (h.slots l)) := by
  unfold slot? slots at *
  split at hv
  · rename_i hc
    simp only [hc]
  · simp at hv

theorem cell?_of_entry {e : Value × Value} (he : (h.entries l)[i]? = some e) :
    h.cell? l = some (.entries (h.entries l)) := by
  unfold entries at *
  split at he
  · rename_i hc
    simp only [hc]
  · simp at he

theorem cell?_of_item (hv : (h.items l)[i]? = some w) : h.cell? l = some (.items (h.items l)) :=
  cell?_of_mem_items (List.mem_of_getElem? hv)

theorem setSlot?_of_some (hv : h.slot? l i = some w) :
    h.setSlot? l i v = some (h.store (l, i) v) := by
  obtain ⟨f, hf, -⟩ := Option.map_eq_some_iff.1 hv
  have inside : i < (h.slots l).length := (List.getElem?_eq_some_iff.1 hf).1
  have cell := cell?_of_slot? hv
  have modified : (h.slots l).set i (f.1, v) = (h.slots l).modify i fun f => (f.1, v) := by
    refine List.ext_getElem? fun j => ?_
    by_cases hj : i = j
    · rw [← hj, List.getElem?_set_self inside, List.getElem?_modify_eq, hf]
      rfl
    · rw [List.getElem?_set_ne hj, List.getElem?_modify_ne _ _ hj]
  rw [setSlot?, hf]
  simp only [store, cell, Cell.edit]
  rw [modified]

theorem setItem?_of_some (hv : (h.items l)[i]? = some w) :
    h.setItem? l i v = some (h.store (l, i) v) := by
  have cell := cell?_of_item hv
  rw [setItem?, if_pos (List.getElem?_eq_some_iff.1 hv).1]
  simp only [store, cell, Cell.edit]

theorem insertEntry_of_findIdx? (shape : TableShape) {key : Value} {e : Value × Value}
    (found : (h.entries l).findIdx? (·.1.same key) = some i) (he : (h.entries l)[i]? = some e) :
    h.insertEntry shape l key v = h.store (l, i) v := by
  have cell := cell?_of_entry he
  simp only [insertEntry, editEntries, store, cell, Cell.edit]
  rw [MapEntries.insert, if_pos (MapEntries.contains_of_findIdx? found),
    MapEntries.replace_eq_modify v found]

theorem items_editItems {values : List Value} {f : List Value → List Value}
    (cell : h.cell? l = some (.items values)) : (h.editItems l f).items l = f values := by
  rw [editItems, cell]
  simp only [items, cell?_put_self (lt_size_of_cell? cell)]

theorem entries_insertEntry {s : TableShape} {k : Value} {pairs : List (Value × Value)}
    (cell : h.cell? l = some (.entries pairs)) :
    (h.insertEntry s l k v).entries l = MapEntries.insert s pairs k v := by
  rw [insertEntry, editEntries, cell]
  simp only [entries, cell?_put_self (lt_size_of_cell? cell)]

theorem eq_store_of_setSlot? (set : h.setSlot? l i v = some h') :
    ∃ w, h.slot? l i = some w ∧ h' = h.store (l, i) v := by
  cases found : h.slot? l i with
  | some w =>
    rw [setSlot?_of_some found] at set
    exact ⟨w, rfl, (Option.some.inj set).symm⟩
  | none =>
    rw [slot?, Option.map_eq_none_iff] at found
    simp [setSlot?, found] at set

theorem appendItems_eq (hi : (h.items l).length ≤ i) :
    h.appendItems l (List.replicate (i - (h.items l).length) .null ++ [v]) =
      h.editItems l (itemsPut i v) := by
  unfold appendItems editItems
  split
  · rename_i values cell
    have items : h.items l = values := by simp [Heap.items, cell]
    rw [items] at hi ⊢
    rw [itemsPut, if_neg (Nat.not_lt.2 hi)]
  · rfl

theorem store_eq_editItems (hi : i < (h.items l).length) :
    h.store (l, i) v = h.editItems l (itemsPut i v) := by
  have cell := cell?_of_mem_items (List.getElem_mem hi)
  simp only [store, editItems, cell, Cell.edit, itemsPut, if_pos hi]

theorem put_same {c : Cell} (cell : h.cell? l = some c) : h.put l c = h := by
  have cells : (h.put l c).cells = h.cells := by
    refine Array.ext_getElem? fun m => ?_
    have same : (h.put l c).cell? m = h.cell? m := by
      rw [cell?_put]
      split
      · rename_i here
        rw [← here, cell]
        rfl
      · rfl
    exact same
  cases h
  exact congrArg Heap.mk cells

/-- The heap takes a value in, in one of its cells. -/
inductive Takes (h : Heap) (v : Value) : Heap → Prop
  | store (s : Spot) : Takes h v (h.store s v)
  | edit (l : Loc) (i : Nat) : Takes h v (h.editItems l (itemsPut i v))
  | insert (s : TableShape) (l : Loc) (k : Value) : Takes h v (h.insertEntry s l k v)

/-- Of the cells of `h`, only the one at `l` has changed, and that by `f`. -/
structure ChangesOnly (h h' : Heap) (l : Loc) (f : Cell → Cell) : Prop where
  size_le : h.size ≤ h'.size
  cell?_eq : ∀ m, m < h.size → h'.cell? m = if m = l then (h.cell? m).map f else h.cell? m

namespace ChangesOnly

variable {g g' : Heap} {f : Cell → Cell}

theorem of_ne (hc : h.ChangesOnly h' l f) {m : Loc} (hm : m < h.size) (hne : m ≠ l) :
    h'.cell? m = h.cell? m := by
  rw [hc.cell?_eq m hm, if_neg hne]

theorem congr {f' : Cell → Cell} (hc : h.ChangesOnly h' l f)
    (same : ∀ c, h.cell? l = some c → f c = f' c) : h.ChangesOnly h' l f' := by
  refine ⟨hc.size_le, fun m hm => ?_⟩
  rw [hc.cell?_eq m hm]
  split
  · rename_i here
    subst here
    exact Option.map_congr fun c there => same c there
  · rfl

theorem mono (hx : h.Extends g) (hc : g.ChangesOnly g' l f) (hs : h.size ≤ h'.size)
    (hy : ∀ m, m < h.size → h'.cell? m = g'.cell? m) : h.ChangesOnly h' l f := by
  refine ⟨hs, fun m hm => ?_⟩
  rw [hy m hm, hc.cell?_eq m (Nat.lt_of_lt_of_le hm hx.size_le), hx.cell?_eq m hm]

theorem of_cells (hx : h.Extends g) (hs : g.size ≤ g'.size)
    (self : g'.cell? l = (g.cell? l).map f) (other : ∀ m, m ≠ l → g'.cell? m = g.cell? m) :
    h.ChangesOnly g' l f := by
  refine ⟨Nat.le_trans hx.size_le hs, fun m hm => ?_⟩
  split
  · rename_i same
    rw [same, self, ← same, hx.cell?_eq m hm]
  · rename_i elsewhere
    rw [other m elsewhere, hx.cell?_eq m hm]

theorem store (hx : h.Extends g) : h.ChangesOnly (g.store (l, i) v) l (Cell.edit i v) :=
  of_cells hx (Nat.le_of_eq size_store.symm) cell?_store_self fun _ hm => cell?_store_of_ne hm

theorem editItems (hx : h.Extends g) (f : List Value → List Value) :
    h.ChangesOnly (g.editItems l f) l (Cell.mapItems f) := by
  cases cell : g.cell? l with
  | none =>
    have same : g.editItems l f = g := by
      rw [Heap.editItems, cell]
    rw [same]
    exact of_cells hx (Nat.le_refl _) (by rw [cell]; rfl) fun _ _ => rfl
  | some c =>
    have put : g.editItems l f = g.put l (c.mapItems f) := by
      cases c <;> simp [Heap.editItems, cell, Cell.mapItems, put_same cell]
    rw [put]
    exact of_cells hx (by simp) (by rw [cell?_put_self (lt_size_of_cell? cell), cell]; rfl)
      fun _ hm => cell?_put_of_ne _ hm

theorem editEntries (hx : h.Extends g) (f : List (Value × Value) → List (Value × Value)) :
    h.ChangesOnly (g.editEntries l f) l (Cell.mapEntries f) := by
  cases cell : g.cell? l with
  | none =>
    have same : g.editEntries l f = g := by
      rw [Heap.editEntries, cell]
    rw [same]
    exact of_cells hx (Nat.le_refl _) (by rw [cell]; rfl) fun _ _ => rfl
  | some c =>
    have put : g.editEntries l f = g.put l (c.mapEntries f) := by
      cases c <;> simp [Heap.editEntries, cell, Cell.mapEntries, put_same cell]
    rw [put]
    exact of_cells hx (by simp) (by rw [cell?_put_self (lt_size_of_cell? cell), cell]; rfl)
      fun _ hm => cell?_put_of_ne _ hm

end ChangesOnly

end Heap

end PropertyAccess
