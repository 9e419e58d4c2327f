import PropertyAccess.Proofs.Graph.Tree
import PropertyAccess.Proofs.Navigation.Held

/-! The graph of a node. It hangs below the cells that the way to its object goes through,
and leads to none of them. What a place holds hangs below what the way to the place goes
through, so changes further down leave the way as it is. -/

namespace PropertyAccess

namespace Node

variable {σ : Schema} {n : Node} {C : Loc → Prop} {h h' h'' : Heap}

structure Hangs (n : Node) (C : Loc → Prop) (h : Heap) : Prop where
  old : ∀ m, C m → m < h.size
  free : h.Avoids C (.object n.wrapped)

structure Grafts (n : Node) (C : Loc → Prop) (h h' : Heap) : Prop where
  size_le : h.size ≤ h'.size
  kept : ∀ m, C m → h'.cell? m = h.cell? m
  hangs : n.Hangs C h'

namespace Grafts

theorem refl (hh : n.Hangs C h) : n.Grafts C h h := ⟨Nat.le_refl _, fun _ _ => rfl, hh⟩

theorem trans (a : n.Grafts C h h') (b : n.Grafts C h' h'') : n.Grafts C h h'' :=
  ⟨Nat.le_trans a.size_le b.size_le, fun m hm => (b.kept m hm).trans (a.kept m hm), b.hangs⟩

theorem of_renews (hh : n.Hangs C h) {l : Loc} (hr : h.Renews h' l) (free : ¬ C l) :
    n.Grafts C h h' where
  size_le := hr.size_le
  kept m hm := hr.cell?_of_ne m (hh.old m hm) fun same => free (same ▸ hm)
  hangs := ⟨fun m hm => Nat.lt_of_lt_of_le (hh.old m hm) hr.size_le, hh.free.renews hh.old hr⟩

theorem of_receives (hh : n.Hangs C h) {l : Loc} (hr : h.Receives h' l) (free : ¬ C l) :
    n.Grafts C h h' := .of_renews hh (.of_receives hr) free

theorem of_extends (hh : n.Hangs C h) (hx : h.Extends h') : n.Grafts C h h' where
  size_le := hx.size_le
  kept m hm := hx.cell?_eq m (hh.old m hm)
  hangs := ⟨fun m hm => Nat.lt_of_lt_of_le (hh.old m hm) hx.size_le, hh.free.mono hx⟩

end Grafts

namespace Holds

variable {p : Place} {v : Value} {type : Ty} {spot : Spot} {before : List Spot}

/-- What a place holds leads to nothing that the way to it goes through. -/
theorem avoids (hp : n.Holds σ h p v type spot before) (ht : h.Avoids C (.object n.wrapped)) :
    h.Avoids (fun m => C m ∨ ∃ s ∈ spot :: before, s.1 = m) v := by
  induction hp with
  | field handle access value =>
    obtain ⟨-, c, cell, -, below⟩ := ht.cell rfl
    obtain rfl := Option.some.inj (cell.symm.trans (Heap.cell?_of_slot? value))
    obtain ⟨f, hf, rfl⟩ := Option.map_eq_some_iff.1 value
    refine (below _ (Cell.mem_contents_slots hf)).anti fun m hm => hm.imp_right ?_
    rintro ⟨s, hs, rfl⟩
    rw [List.mem_singleton.1 hs]
  | item inner sequence index value ih =>
    obtain ⟨-, c, cell, -, below⟩ := ih.cell (Value.loc?_of_sequence? sequence)
    obtain rfl := Option.some.inj (cell.symm.trans (Heap.cell?_of_item value))
    refine (below _ (List.mem_of_getElem? value)).anti fun m hm => ?_
    rcases hm with hm | ⟨s, hs, rfl⟩
    · exact .inl (.inl hm)
    · rcases List.mem_cons.1 hs with rfl | hs
      · exact .inr rfl
      · exact .inl (.inr ⟨s, hs, rfl⟩)
  | entry inner converts found value ih =>
    obtain ⟨-, c, cell, -, below⟩ := ih.cell rfl
    obtain rfl := Option.some.inj (cell.symm.trans (Heap.cell?_of_entry value))
    have inside := Cell.mem_contents_entries (List.mem_of_getElem? value)
    refine (below _ inside.2).anti fun m hm => ?_
    rcases hm with hm | ⟨s, hs, rfl⟩
    · exact .inl (.inl hm)
    · rcases List.mem_cons.1 hs with rfl | hs
      · exact .inr rfl
      · exact .inl (.inr ⟨s, hs, rfl⟩)

theorem apart (hp : n.Holds σ h p v type spot before) (hh : n.Hangs C h) {l : Loc}
    (target : v.loc? = some l) : l < h.size ∧ ¬ C l ∧ ∀ s ∈ spot :: before, s.1 ≠ l := by
  obtain ⟨free, c, cell, -⟩ := (hp.avoids hh.free).cell target
  exact ⟨Heap.lt_size_of_cell? cell, fun hl => free (.inl hl),
    fun s hs same => free (.inr ⟨s, hs, same⟩)⟩

theorem congr (hp : n.Holds σ h p v type spot before)
    (same : ∀ s ∈ spot :: before, h'.cell? s.1 = h.cell? s.1) :
    n.Holds σ h' p v type spot before := by
  induction hp with
  | @field _ _ i _ _ handle access value =>
    have cell : h'.cell? n.wrapped.loc = h.cell? n.wrapped.loc := same (_, i) List.mem_cons_self
    exact .field handle access (by rw [Heap.slot?, Heap.slots, cell]; exact value)
  | @item _ _ _ _ _ _ l _ _ i _ sequence index value ih =>
    have cell : h'.cell? l = h.cell? l := same (l, i) List.mem_cons_self
    exact .item (ih fun s hs => same s (List.mem_cons_of_mem _ hs)) sequence index
      (by rw [Heap.items, cell]; exact value)
  | @entry _ _ _ _ _ _ l _ _ i _ converts found value ih =>
    have cell : h'.cell? l = h.cell? l := same (l, i) List.mem_cons_self
    exact .entry (ih fun s hs => same s (List.mem_cons_of_mem _ hs)) converts
      (by rw [Heap.entries, cell]; exact found) (by rw [Heap.entries, cell]; exact value)

theorem receives (hp : n.Holds σ h p v type spot before) {l : Loc} (hr : h.Receives h' l)
    (apart : ∀ s ∈ spot :: before, s.1 ≠ l) : n.Holds σ h' p v type spot before :=
  hp.congr fun s hs => hr.cell?_of_ne s.1 (hp.lt_size s hs) (apart s hs)

end Holds

end Node

end PropertyAccess
