import PropertyAccess.Proofs.Graph.Tree

/-! Cells that get other contents. What is put into a cell may lead to things that were below
the cell before, as a copy of an array does that was there. As long as it keeps away from
whatever all the contents kept away from, the graph stays without cycles. -/

namespace PropertyAccess

theorem Cell.mem_contents_of_at? {c : Cell} {i : Nat} {v : Value} (hv : c.at? i = some v) :
    v ∈ c.contents := by
  cases c with
  | slots fields =>
    obtain ⟨f, hf, rfl⟩ := Option.map_eq_some_iff.1 hv
    exact mem_contents_slots hf
  | items values => exact List.mem_of_getElem? hv
  | entries pairs =>
    obtain ⟨e, he, rfl⟩ := Option.map_eq_some_iff.1 hv
    exact (mem_contents_entries (List.mem_of_getElem? he)).2

namespace Heap

variable {h h' g : Heap} {C : Loc → Prop} {v w : Value} {l : Loc}

def FreeAs (h g : Heap) (v w : Value) : Prop :=
  ∀ C : Loc → Prop, (∀ m, C m → m < h.size) → h.Avoids C v → g.Avoids C w

namespace Renews

theorem store {i : Nat} (hx : h.Extends g) (hv : h.at? (l, i) = some v) (free : h.FreeAs g v w) :
    h.Renews (g.store (l, i) w) l where
  size_le := by simpa using hx.size_le
  cell?_of_ne m hm hne := by rw [cell?_store_of_ne hne, hx.cell?_eq m hm]
  changed c cell := by
    have cell' : (g.store (l, i) w).cell? l = some (c.edit i w) := by
      have stored : (g.store (l, i) w).cell? l = (g.cell? l).map (Cell.edit i w) :=
        cell?_store_self
      rw [stored, hx.cell? cell]
      rfl
    rw [at?, cell] at hv
    refine ⟨_, cell', fun _ => Cell.isFor_edit, fun x hm C here old below => ?_⟩
    have kept {y : Value} (ha : g.Avoids C y) : (g.store (l, i) w).Avoids C y :=
      ha.congr fun m hm _ => cell?_store_of_ne fun same => hm (same ▸ here)
    exact Cell.forall_contents_edit (P := (g.store (l, i) w).Avoids C) i
      (fun y hy => kept ((below y hy).mono hx))
      (kept (free C old (below v (Cell.mem_contents_of_at? hv)))) x hm

end Renews

end Heap

end PropertyAccess
