import PropertyAccess.Proofs.Graph.Ends

/-! How a heap may change. It is extended when nothing happens to it but the
making of new cells. It grows when no array, list or set gets shorter; every
write does that much. An operation is harmless when it extends every heap,
whether it succeeds or fails. -/

namespace PropertyAccess

namespace Heap

/-- All cells of `h` are as they were. -/
structure Extends (h h' : Heap) : Prop where
  size_le : h.size ≤ h'.size
  cell?_eq : ∀ l, l < h.size → h'.cell? l = h.cell? l

/-- No array, list or set of `h` has become shorter. -/
def Grows (h h' : Heap) : Prop :=
  ∀ l vs, h.cell? l = some (.items vs) →
    ∃ ws, h'.cell? l = some (.items ws) ∧ vs.length ≤ ws.length

variable {h h' h'' : Heap} {l : Loc}

theorem lt_size_of_cell? {c : Cell} (hc : h.cell? l = some c) : l < h.size := by
  by_cases hl : l < h.size
  · exact hl
  · have missing : h.cell? l = none := Array.getElem?_eq_none (Nat.le_of_not_lt hl)
    rw [missing] at hc
    cases hc

@[simp] theorem size_put (c : Cell) : (h.put l c).size = h.size := by
  simp [put, size]

@[simp] theorem size_alloc (c : Cell) : (h.alloc c).2.size = h.size + 1 := by
  simp [alloc, size]

theorem cell?_put_self {c : Cell} (hl : l < h.size) : (h.put l c).cell? l = some c := by
  rw [cell?_put, if_pos rfl, cell?, Array.getElem?_eq_getElem hl]
  rfl

theorem cell?_put_of_ne {m : Loc} (c : Cell) (hm : m ≠ l) : (h.put l c).cell? m = h.cell? m := by
  rw [cell?_put, if_neg (Ne.symm hm)]

namespace Extends

theorem refl (h : Heap) : h.Extends h := ⟨Nat.le_refl _, fun _ _ => rfl⟩

theorem trans (a : h.Extends h') (b : h'.Extends h'') : h.Extends h'' := by
  refine ⟨Nat.le_trans a.size_le b.size_le, fun l hl => ?_⟩
  rw [b.cell?_eq l (Nat.lt_of_lt_of_le hl a.size_le), a.cell?_eq l hl]

theorem alloc (h : Heap) (c : Cell) : h.Extends (h.alloc c).2 :=
  ⟨by simp, fun _ hl => cell?_alloc_of_lt c hl⟩

theorem cell? (a : h.Extends h') {c : Cell} (hc : h.cell? l = some c) : h'.cell? l = some c := by
  rw [a.cell?_eq l (lt_size_of_cell? hc), hc]

theorem grows (a : h.Extends h') : h.Grows h' := fun _ vs hc => ⟨vs, a.cell? hc, Nat.le_refl _⟩

theorem items_eq (a : h.Extends h') (hl : l < h.size) : h'.items l = h.items l := by
  simp only [items, a.cell?_eq l hl]

theorem entries_eq (a : h.Extends h') (hl : l < h.size) : h'.entries l = h.entries l := by
  simp only [entries, a.cell?_eq l hl]

theorem slots_eq (a : h.Extends h') (hl : l < h.size) : h'.slots l = h.slots l := by
  simp only [slots, a.cell?_eq l hl]

end Extends

theorem Grows.refl (h : Heap) : h.Grows h := fun _ vs hc => ⟨vs, hc, Nat.le_refl _⟩

theorem Grows.trans (a : h.Grows h') (b : h'.Grows h'') : h.Grows h'' := by
  intro l vs hc
  obtain ⟨ws, hw, hle⟩ := a l vs hc
  obtain ⟨xs, hx, hle'⟩ := b l ws hw
  exact ⟨xs, hx, Nat.le_trans hle hle'⟩

theorem cell?_of_mem_items {v : Value} (hv : v ∈ h.items l) :
    h.cell? l = some (.items (h.items l)) := by
  unfold items at *
  split at hv
  · rename_i hc
    simp [hc]
  · simp at hv

theorem grows_put_items {vs ws : List Value} (hc : h.cell? l = some (.items vs))
    (hle : vs.length ≤ ws.length) : h.Grows (h.put l (.items ws)) := by
  intro m us hm
  by_cases hml : m = l
  · subst hml
    obtain rfl : vs = us := by simpa [hc] using hm
    exact ⟨ws, cell?_put_self (lt_size_of_cell? hc), hle⟩
  · exact ⟨us, by rw [cell?_put_of_ne _ hml, hm], Nat.le_refl _⟩

theorem grows_put_of_ne {c d : Cell} (hc : h.cell? l = some d)
    (hd : ∀ vs, d ≠ .items vs) : h.Grows (h.put l c) := by
  intro m us hm
  have hml : m ≠ l := by
    rintro rfl
    exact hd us (Option.some.inj (hc.symm.trans hm))
  exact ⟨us, by rw [cell?_put_of_ne _ hml, hm], Nat.le_refl _⟩

theorem grows_setItem? {i : Nat} {v : Value} (hs : h.setItem? l i v = some h') : h.Grows h' := by
  unfold setItem? at hs
  split at hs
  · rename_i hi
    obtain rfl := Option.some.inj hs
    have hc := cell?_of_mem_items (List.getElem_mem hi)
    exact grows_put_items hc (by simp)
  · simp at hs

theorem grows_editItems {f : List Value → List Value} (hf : ∀ vs, vs.length ≤ (f vs).length) :
    h.Grows (h.editItems l f) := by
  unfold editItems
  split
  · rename_i hc
    exact grows_put_items hc (hf _)
  · exact .refl h

theorem grows_appendItems (vs : List Value) : h.Grows (h.appendItems l vs) :=
  grows_editItems (by simp)

theorem grows_insertEntry (shape : TableShape) (key value : Value) :
    h.Grows (h.insertEntry shape l key value) := by
  unfold insertEntry editEntries
  split
  · rename_i hc
    exact grows_put_of_ne hc (by simp)
  · exact .refl h

theorem grows_setSlot? {i : Nat} {v : Value} (hs : h.setSlot? l i v = some h') : h.Grows h' := by
  unfold setSlot? at hs
  split at hs
  · rename_i hi
    obtain rfl := Option.some.inj hs
    have hc : ∃ fields, h.cell? l = some (.slots fields) := by
      unfold slots at hi
      split at hi
      · exact ⟨_, by assumption⟩
      · simp at hi
    obtain ⟨fields, hc⟩ := hc
    exact grows_put_of_ne hc (by simp)
  · simp at hs

end Heap

namespace Run

variable {ε δ α β : Type}

/-- Only new cells are made, whatever the outcome. -/
def Harmless (r : Run ε α) : Prop := ∀ h : Heap, h.Extends (r.on h).2

theorem harmless_iff_ends {r : Run ε α} :
    r.Harmless ↔ ∀ h : Heap, r.Ends h (fun _ h' => h.Extends h') (fun _ h' => h.Extends h') := by
  refine forall_congr' fun h => ?_
  unfold Ends
  split <;> simp [*]

namespace Harmless

theorem ends {r : Run ε α} (hr : r.Harmless) (h : Heap) :
    r.Ends h (fun _ h' => h.Extends h') (fun _ h' => h.Extends h') := harmless_iff_ends.1 hr h

theorem ends_of {r : Run ε α} (hr : r.Harmless) {h : Heap} {Q : α → Heap → Prop}
    {E : ε → Heap → Prop} (hQ : ∀ a h', h.Extends h' → Q a h')
    (hE : ∀ e h', h.Extends h' → E e h') : r.Ends h Q E :=
  (hr.ends h).mono hQ hE

theorem pure (a : α) : Harmless (Pure.pure a : Run ε α) := fun h => .refl h

theorem throw (e : ε) : Harmless (MonadExcept.throw e : Run ε α) := fun h => .refl h

theorem bind {r : Run ε α} {f : α → Run ε β} (hr : r.Harmless) (hf : ∀ a, (f a).Harmless) :
    (r >>= f).Harmless := by
  rw [harmless_iff_ends]
  intro h
  rw [ends_bind]
  refine hr.ends_of (fun a h' hx => ?_) fun _ _ hx => hx
  exact (hf a).ends_of (fun _ _ hy => hx.trans hy) fun _ _ hy => hx.trans hy

theorem heap : Harmless (Run.heap : Run ε Heap) := fun h => .refl h

theorem lookup (f : Heap → α) : Harmless (Run.lookup f : Run ε α) := fun h => .refl h

theorem inspect (f : Heap → Except ε α) : Harmless (Run.inspect f) := fun h => .refl h

theorem alloc (c : Cell) : Harmless (Run.alloc c : Run ε Loc) := fun h => .alloc h c

theorem outcome {r : Run ε α} (hr : r.Harmless) : Harmless (Run.outcome r : Run δ _) := by
  rw [harmless_iff_ends] at *
  exact fun h => (ends_outcome r).2 (hr h)

theorem mapError {r : Run ε α} (f : ε → δ) (hr : r.Harmless) : Harmless (Run.mapError f r) := by
  rw [harmless_iff_ends] at *
  exact fun h => (ends_mapError f r).2 (hr h)

theorem ite {c : Prop} [Decidable c] {r s : Run ε α} (hr : r.Harmless) (hs : s.Harmless) :
    Harmless (if c then r else s) := by
  split
  · exact hr
  · exact hs

theorem newArray (elem : Ty) (vs : List Value) : Harmless (Run.newArray elem vs : Run ε Value) :=
  (alloc _).bind fun _ => .pure _

theorem newList (shape : ListShape) (vs : List Value) :
    Harmless (Run.newList shape vs : Run ε Value) :=
  (alloc _).bind fun _ => .pure _

theorem newSet (shape : TableShape) (vs : List Value) :
    Harmless (Run.newSet shape vs : Run ε Value) :=
  (alloc _).bind fun _ => .pure _

theorem newMap (shape : TableShape) (es : List (Value × Value)) :
    Harmless (Run.newMap shape es : Run ε Value) :=
  (alloc _).bind fun _ => .pure _

end Harmless

/-- A write that fails has changed nothing, and one that succeeds has made no
container shorter. -/
def AllOrNothing (r : Run ε α) : Prop :=
  ∀ h, r.Ends h (fun _ h' => h.Grows h') (fun _ h' => h.Extends h')

theorem Harmless.allOrNothing {r : Run ε α} (hr : r.Harmless) : r.AllOrNothing :=
  fun h => (hr.ends h).mono (fun _ _ hx => hx.grows) fun _ _ hx => hx

theorem AllOrNothing.mapError {r : Run ε α} (hr : r.AllOrNothing) (f : ε → δ) :
    (Run.mapError f r).AllOrNothing := fun h => (ends_mapError f r).2 (hr h)

theorem Harmless.then {r : Run ε α} {f : α → Run ε β} (hr : r.Harmless)
    (hf : ∀ a, (f a).AllOrNothing) : (r >>= f).AllOrNothing := by
  intro h
  rw [ends_bind]
  refine hr.ends_of (fun a h' hx => ?_) fun _ _ hx => hx
  exact (hf a h').mono (fun _ _ hy => hx.grows.trans hy) fun _ _ hy => hx.trans hy

end Run

end PropertyAccess
