import PropertyAccess.Proofs.Graph.Spots

/-! Graphs without cycles. What a value leads to is followed from cell to cell, and no
cell is met again on the way down. A change of one cell that puts only new things into it
leaves such a graph without cycles, and so the way down to that cell does not go through
the cell itself. -/

namespace PropertyAccess

theorem Value.loc?_of_same {a b : Value} (same : a.same b = true) : a.loc? = b.loc? := by
  cases a <;> cases b <;> simp_all [Value.same, Value.loc?]

namespace Cell

def contents : Cell → List Value
  | .slots fields => fields.map (·.2)
  | .items values => values
  | .entries pairs => pairs.flatMap fun e => [e.1, e.2]

/-- A reference like this one is to a cell of this sort. -/
def IsFor : Cell → Value → Prop
  | .slots _, .object _ => True
  | .items _, .array _ _ | .items _, .list _ _ | .items _, .set _ _ => True
  | .entries _, .map _ _ => True
  | _, _ => False

theorem mem_contents_slots {fields : List (String × Value)} {i : Nat} {f : String × Value}
    (hf : fields[i]? = some f) : f.2 ∈ (Cell.slots fields).contents :=
  List.mem_map_of_mem (List.mem_of_getElem? hf)

theorem mem_contents_entries {pairs : List (Value × Value)} {e : Value × Value}
    (he : e ∈ pairs) : e.1 ∈ (Cell.entries pairs).contents ∧ e.2 ∈ (Cell.entries pairs).contents :=
  ⟨List.mem_flatMap.2 ⟨e, he, by simp⟩, List.mem_flatMap.2 ⟨e, he, by simp⟩⟩

theorem forall_contents_entries {P : Value → Prop} {pairs : List (Value × Value)} :
    (∀ x ∈ (Cell.entries pairs).contents, P x) ↔ ∀ e ∈ pairs, P e.1 ∧ P e.2 := by
  simp only [contents, List.mem_flatMap, List.mem_cons, List.not_mem_nil, or_false]
  constructor
  · exact fun h e he => ⟨h _ ⟨e, he, .inl rfl⟩, h _ ⟨e, he, .inr rfl⟩⟩
  · rintro h x ⟨e, he, rfl | rfl⟩
    · exact (h e he).1
    · exact (h e he).2

theorem isFor_edit {i : Nat} {w : Value} {c : Cell} {v : Value} (hc : c.IsFor v) :
    (c.edit i w).IsFor v := by
  cases c <;> cases v <;> exact hc

theorem isFor_mapItems {f : List Value → List Value} {c : Cell} {v : Value} (hc : c.IsFor v) :
    (c.mapItems f).IsFor v := by
  cases c <;> cases v <;> exact hc

theorem isFor_mapEntries {f : List (Value × Value) → List (Value × Value)} {c : Cell} {v : Value}
    (hc : c.IsFor v) : (c.mapEntries f).IsFor v := by
  cases c <;> cases v <;> exact hc

theorem forall_modify {α : Type} {P : α → Prop} {f : α → α} {xs : List α} (i : Nat)
    (hx : ∀ x ∈ xs, P x) (hf : ∀ x ∈ xs, P (f x)) : ∀ x ∈ xs.modify i f, P x := by
  induction xs generalizing i with
  | nil => simp
  | cons x xs ih =>
    obtain ⟨hx, hxs⟩ := List.forall_mem_cons.1 hx
    obtain ⟨hf, hfs⟩ := List.forall_mem_cons.1 hf
    cases i with
    | zero => exact List.forall_mem_cons.2 ⟨hf, hxs⟩
    | succ i => exact List.forall_mem_cons.2 ⟨hx, ih i hxs hfs⟩

variable {P : Value → Prop} {c : Cell}

theorem forall_contents_edit (i : Nat) {w : Value} (hc : ∀ x ∈ c.contents, P x) (hw : P w) :
    ∀ x ∈ (c.edit i w).contents, P x := by
  cases c with
  | slots fields =>
    refine List.forall_mem_map.2 (forall_modify i ?_ fun _ _ => hw)
    exact fun f hf => hc f.2 (List.mem_map_of_mem hf)
  | items values =>
    intro x hx
    rcases List.mem_or_eq_of_mem_set hx with hx | rfl
    · exact hc x hx
    · exact hw
  | entries pairs =>
    have old := forall_contents_entries.1 hc
    exact forall_contents_entries.2 (forall_modify i old fun e he => ⟨(old e he).1, hw⟩)

end Cell

namespace Heap

/-- From cell to cell, the value leads to no cell of `C` and to none that it has come
through, and each reference is to a cell of its sort. -/
inductive Avoids (h : Heap) : (Loc → Prop) → Value → Prop
  | scalar {C : Loc → Prop} {v : Value} (scalar : v.loc? = none) : h.Avoids C v
  | ref {C : Loc → Prop} {v : Value} {l : Loc} {c : Cell} (target : v.loc? = some l)
      (free : ¬ C l) (cell : h.cell? l = some c) (sort : c.IsFor v)
      (below : ∀ x ∈ c.contents, h.Avoids (fun m => C m ∨ m = l) x) : h.Avoids C v

/-- The value leads only to cells made when there were `k` of them. -/
abbrev New (h : Heap) (k : Nat) (v : Value) : Prop := h.Avoids (· < k) v

/-- What the value leads to has no cycle. -/
abbrev Acyclic (h : Heap) (v : Value) : Prop := h.Avoids (fun _ => False) v

structure Receives (h h' : Heap) (l : Loc) : Prop where
  size_le : h.size ≤ h'.size
  cell?_of_ne : ∀ m, m < h.size → m ≠ l → h'.cell? m = h.cell? m
  changed : ∀ c, h.cell? l = some c → ∃ c', h'.cell? l = some c' ∧ (∀ v, c.IsFor v → c'.IsFor v) ∧
    ∀ x ∈ c'.contents, x ∈ c.contents ∨ h'.New h.size x

/-- Of the cells of `h`, only the one at `l` may have got other contents, and these keep away
from what all that was there kept away from, and from the cell. -/
structure Renews (h h' : Heap) (l : Loc) : Prop where
  size_le : h.size ≤ h'.size
  cell?_of_ne : ∀ m, m < h.size → m ≠ l → h'.cell? m = h.cell? m
  changed : ∀ c, h.cell? l = some c → ∃ c', h'.cell? l = some c' ∧ (∀ v, c.IsFor v → c'.IsFor v) ∧
    ∀ x ∈ c'.contents, ∀ C : Loc → Prop, C l → (∀ m, C m → m < h.size) →
      (∀ y ∈ c.contents, h.Avoids C y) → h'.Avoids C x

variable {h h' h'' : Heap} {C D : Loc → Prop} {v : Value} {l : Loc}

namespace Avoids

theorem anti (ha : h.Avoids C v) (hD : ∀ m, D m → C m) : h.Avoids D v := by
  induction ha generalizing D with
  | scalar scalar => exact .scalar scalar
  | ref target free cell sort _ ih =>
    refine .ref target (fun hl => free (hD _ hl)) cell sort fun x hx => ih x hx ?_
    rintro m (hm | hm)
    · exact .inl (hD m hm)
    · exact .inr hm

theorem none_later (ha : h.Avoids C v) : h.Avoids (fun m => C m ∨ h.size ≤ m) v := by
  induction ha with
  | scalar scalar => exact .scalar scalar
  | ref target free cell sort _ ih =>
    refine .ref target ?_ cell sort fun x hx => (ih x hx).anti ?_
    · rintro (hl | hl)
      · exact free hl
      · exact absurd (lt_size_of_cell? cell) (Nat.not_lt.2 hl)
    · rintro m ((hm | hm) | hm)
      · exact .inl (.inl hm)
      · exact .inr hm
      · exact .inl (.inr hm)

theorem congr (ha : h.Avoids C v) (same : ∀ m, ¬ C m → m < h.size → h'.cell? m = h.cell? m) :
    h'.Avoids C v := by
  induction ha with
  | scalar scalar => exact .scalar scalar
  | ref target free cell sort _ ih =>
    have kept := same _ free (lt_size_of_cell? cell)
    exact .ref target free (kept.trans cell) sort fun x hx =>
      ih x hx fun m hm => same m fun hc => hm (.inl hc)

theorem mono (ha : h.Avoids C v) (hx : h.Extends h') : h'.Avoids C v :=
  ha.congr fun m _ hm => hx.cell?_eq m hm

theorem cell (ha : h.Avoids C v) (target : v.loc? = some l) :
    ¬ C l ∧ ∃ c, h.cell? l = some c ∧ c.IsFor v ∧
      ∀ x ∈ c.contents, h.Avoids (fun m => C m ∨ m = l) x := by
  cases ha with
  | scalar scalar => rw [scalar] at target; cases target
  | ref found free cell sort below =>
    obtain rfl := Option.some.inj (found.symm.trans target)
    exact ⟨free, _, cell, sort, below⟩

theorem alloc {c : Cell} (target : v.loc? = some h.size) (free : ¬ C h.size) (sort : c.IsFor v)
    (below : ∀ x ∈ c.contents, h.Avoids C x) : (h.alloc c).2.Avoids C v := by
  refine .ref target free (cell?_alloc h c) sort fun x hx => ?_
  refine ((below x hx).none_later.anti ?_).mono (.alloc h c)
  rintro m (hm | rfl)
  · exact .inl hm
  · exact .inr (Nat.le_refl _)

theorem renews (ha : h.Avoids C v) (old : ∀ m, C m → m < h.size) (hr : h.Renews h' l) :
    h'.Avoids C v := by
  induction ha with
  | scalar scalar => exact .scalar scalar
  | @ref C v m c target free cell sort below ih =>
    have inside := lt_size_of_cell? cell
    have further : ∀ k, C k ∨ k = m → k < h.size := by
      rintro k (hk | rfl)
      · exact old k hk
      · exact inside
    by_cases same : m = l
    · subst same
      obtain ⟨c', cell', keeps, contents⟩ := hr.changed c cell
      exact .ref target free cell' (keeps v sort) fun x hx =>
        contents x hx _ (.inr rfl) further below
    · exact .ref target free ((hr.cell?_of_ne m inside same).trans cell) sort fun x hx =>
        ih x hx further

end Avoids

theorem Renews.of_receives (hr : h.Receives h' l) : h.Renews h' l where
  size_le := hr.size_le
  cell?_of_ne := hr.cell?_of_ne
  changed c cell := by
    obtain ⟨c', cell', keeps, contents⟩ := hr.changed c cell
    refine ⟨c', cell', keeps, fun x hx C here old below => ?_⟩
    rcases contents x hx with hx | hx
    · exact (below x hx).congr fun m hm inside =>
        hr.cell?_of_ne m inside fun same => hm (same ▸ here)
    · exact hx.anti old

theorem Avoids.receives (ha : h.Avoids C v) (old : ∀ m, C m → m < h.size)
    (hr : h.Receives h' l) : h'.Avoids C v := ha.renews old (.of_receives hr)

namespace Receives

theorem of_extends (hx : h.Extends h') (l : Loc) : h.Receives h' l where
  size_le := hx.size_le
  cell?_of_ne m hm _ := hx.cell?_eq m hm
  changed c cell := ⟨c, hx.cell? cell, fun _ => id, fun _ => .inl⟩

theorem trans (hr : h.Receives h' l) (hs : h'.Receives h'' l) : h.Receives h'' l where
  size_le := Nat.le_trans hr.size_le hs.size_le
  cell?_of_ne m hm hne := by
    rw [hs.cell?_of_ne m (Nat.lt_of_lt_of_le hm hr.size_le) hne, hr.cell?_of_ne m hm hne]
  changed c cell := by
    obtain ⟨d, cell', keeps, contents⟩ := hr.changed c cell
    obtain ⟨e, cell'', keeps', contents'⟩ := hs.changed d cell'
    refine ⟨e, cell'', fun v hv => keeps' v (keeps v hv), fun x hx => ?_⟩
    rcases contents' x hx with hx | hx
    · refine (contents x hx).imp_right fun hx => hx.receives (fun m hm => ?_) hs
      exact Nat.lt_of_lt_of_le hm hr.size_le
    · exact .inr (hx.anti fun m hm => Nat.lt_of_lt_of_le hm hr.size_le)

theorem of_edit {g : Heap} {f : Cell → Cell} (hx : h.Extends g) (hl : l < h.size)
    (hc : g.ChangesOnly h' l f) (sort : ∀ c v, c.IsFor v → (f c).IsFor v)
    (new : ∀ c (P : Value → Prop), (∀ x ∈ c.contents, P x) → (∀ x, g.New h.size x → P x) →
      ∀ x ∈ (f c).contents, P x) : h.Receives h' l where
  size_le := Nat.le_trans hx.size_le hc.size_le
  cell?_of_ne m hm hne := by
    rw [hc.of_ne (Nat.lt_of_lt_of_le hm hx.size_le) hne, hx.cell?_eq m hm]
  changed c cell := by
    have cell' : h'.cell? l = some (f c) := by
      rw [hc.cell?_eq l (Nat.lt_of_lt_of_le hl hx.size_le), if_pos rfl, hx.cell? cell]
      rfl
    refine ⟨f c, cell', sort c, new c _ (fun x => .inl) fun x hn => .inr ?_⟩
    refine hn.congr fun m hm inside => ?_
    exact hc.of_ne inside fun same => hm (same ▸ hl)

variable {g : Heap} {i : Nat} {w : Value} (hx : h.Extends g) (hl : l < h.size)
include hx hl

theorem store (hw : g.New h.size w) : h.Receives (g.store (l, i) w) l :=
  of_edit hx hl (.store (.refl g)) (fun _ _ => Cell.isFor_edit) fun _ _ hc hn =>
    Cell.forall_contents_edit i hc (hn w hw)

theorem editItems {f : List Value → List Value}
    (hf : ∀ vs, ∀ x ∈ f vs, x ∈ vs ∨ g.New h.size x) : h.Receives (g.editItems l f) l := by
  refine of_edit hx hl (.editItems (.refl g) f) (fun _ _ => Cell.isFor_mapItems)
    fun c P hc hn x hm => ?_
  cases c with
  | items values =>
    rcases hf values x hm with hm | hm
    · exact hc x hm
    · exact hn x hm
  | _ => exact hc x hm

theorem insertEntry (s : TableShape) {k : Value} (hk : g.New h.size k) (hw : g.New h.size w) :
    h.Receives (g.insertEntry s l k w) l := by
  refine of_edit hx hl (.editEntries (.refl g) _) (fun _ _ => Cell.isFor_mapEntries)
    fun c P hc hn => ?_
  cases c with
  | entries pairs =>
    have old := Cell.forall_contents_entries.1 hc
    exact Cell.forall_contents_entries.2 (MapEntries.forall_insert (hn k hk) (hn w hw) old)
  | _ => exact hc

end Receives

end Heap

end PropertyAccess
