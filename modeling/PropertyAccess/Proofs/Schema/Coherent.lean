import PropertyAccess.Proofs.Graph.Tree
import PropertyAccess.Proofs.Schema.Typing

/-! Coherent graphs. Every reference is to a location that was made for references of its
type, and so are the references held there. This says nothing of the types of slots and
elements, and it is what references have by their making. Of a later graph it is asked that
the arrays, lists, sets and maps of the earlier one hold the same as before; objects may
have changed. Then what a container holds, and what is held in that, stays the same. -/

namespace PropertyAccess

/-- The containers of `h` hold what they held. -/
structure Heap.Conserves (h h' : Heap) : Prop where
  size_le : h.size ≤ h'.size
  items : ∀ l vs, h.cell? l = some (.items vs) → h'.cell? l = some (.items vs)
  entries : ∀ l es, h.cell? l = some (.entries es) → h'.cell? l = some (.entries es)

/-- What may be at a location for references of a type, whatever the types of what is held. -/
def Cell.Suits (Θ : Labels) : Ty → Cell → Prop
  | .object _, .slots fields => ∀ f ∈ fields, f.2.Labelled Θ
  | .array _, .items vs | .list _ _, .items vs | .set _ _, .items vs => ∀ x ∈ vs, x.Labelled Θ
  | .map _ _ _, .entries es => ∀ e ∈ es, e.1.Labelled Θ ∧ e.2.Labelled Θ
  | _, _ => False

/-- All references are to locations of their types. -/
structure Heap.Coherent (Θ : Labels) (h : Heap) : Prop where
  length : Θ.length = h.size
  cell : ∀ l t, Θ[l]? = some t → ∃ c, h.cell? l = some c ∧ c.Suits Θ t

variable {σ : Schema} {Θ Θ' : Labels} {h h' h'' : Heap} {l : Loc} {v : Value}

namespace Heap.Conserves

theorem refl (h : Heap) : h.Conserves h := ⟨Nat.le_refl _, fun _ _ => id, fun _ _ => id⟩

theorem trans (a : h.Conserves h') (b : h'.Conserves h'') : h.Conserves h'' :=
  ⟨Nat.le_trans a.size_le b.size_le, fun l vs hc => b.items l vs (a.items l vs hc),
    fun l es hc => b.entries l es (a.entries l es hc)⟩

theorem of_extends (a : h.Extends h') : h.Conserves h' :=
  ⟨a.size_le, fun _ _ hc => a.cell? hc, fun _ _ hc => a.cell? hc⟩

end Heap.Conserves

theorem Cell.Suits.mono (later : Θ <+: Θ') {t : Ty} {c : Cell} (hc : c.Suits Θ t) :
    c.Suits Θ' t := by
  cases t <;> cases c <;> simp only [Cell.Suits] at hc ⊢
  · exact fun f hf => (hc f hf).mono later
  · exact fun x hx => (hc x hx).mono later
  · exact fun x hx => (hc x hx).mono later
  · exact fun x hx => (hc x hx).mono later
  · exact fun e he => ⟨(hc e he).1.mono later, (hc e he).2.mono later⟩

namespace Heap.Coherent

theorem alloc (hc : h.Coherent Θ) {t : Ty} {c : Cell} (suits : c.Suits (Θ ++ [t]) t) :
    (h.alloc c).2.Coherent (Θ ++ [t]) := by
  refine ⟨by simp [hc.length], fun l u hl => ?_⟩
  by_cases old : l < Θ.length
  · rw [List.getElem?_append_left old] at hl
    obtain ⟨d, hd, there⟩ := hc.cell l u hl
    refine ⟨d, ?_, there.mono (List.prefix_append _ _)⟩
    rw [cell?_alloc_of_lt c (hc.length ▸ old), hd]
  · have inside : l < Θ.length + 1 := by simpa using (List.getElem?_eq_some_iff.1 hl).1
    obtain rfl : Θ.length = l :=
      Nat.le_antisymm (Nat.le_of_not_lt old) (Nat.le_of_lt_succ inside)
    obtain rfl : t = u := by simpa using hl
    rw [hc.length]
    exact ⟨c, cell?_alloc h c, suits⟩

theorem lt_size (hc : h.Coherent Θ) (hv : v.Labelled Θ) (target : v.loc? = some l) :
    l < h.size := hc.length ▸ (List.getElem?_eq_some_iff.1 (hv l target)).1

theorem cell?_items (hc : h.Coherent Θ) (hv : v.Labelled Θ) {vs : List Value}
    (he : h.elements? v = some vs) :
    (∃ l, v.loc? = some l ∧ h.cell? l = some (.items vs)) ∧ ∀ x ∈ vs, x.Labelled Θ := by
  cases v with
  | array elem l | list s l | set s l =>
    obtain rfl := Option.some.inj he
    obtain ⟨c, cell, suits⟩ := hc.cell l _ (hv l rfl)
    cases c with
    | items vs =>
      have found : h.items l = vs := by simp [Heap.items, cell]
      rw [found]
      exact ⟨⟨l, rfl, cell⟩, suits⟩
    | _ => exact suits.elim
  | _ => cases he

theorem cell?_entries (hc : h.Coherent Θ) {s : TableShape} (hv : (Value.map s l).Labelled Θ) :
    h.cell? l = some (.entries (h.entries l)) ∧
      ∀ e ∈ h.entries l, e.1.Labelled Θ ∧ e.2.Labelled Θ := by
  obtain ⟨c, cell, suits⟩ := hc.cell l _ (hv l rfl)
  cases c with
  | entries es =>
    have found : h.entries l = es := by simp [Heap.entries, cell]
    rw [found]
    exact ⟨cell, suits⟩
  | _ => exact suits.elim

theorem elements (hc : h.Coherent Θ) (hv : v.Labelled Θ) {vs : List Value}
    (he : h.elements? v = some vs) : ∀ x ∈ vs, x.Labelled Θ :=
  (hc.cell?_items hv he).2

theorem elements?_later (hc : h.Coherent Θ) (later : h.Conserves h') (hv : v.Labelled Θ) :
    h'.elements? v = h.elements? v := by
  cases he : h.elements? v with
  | none => cases v <;> first | rfl | cases he
  | some vs =>
    obtain ⟨⟨l, hl, cell⟩, -⟩ := hc.cell?_items hv he
    have kept := later.items l vs cell
    cases v <;> cases hl <;> simp_all [Heap.elements?, Heap.items]

theorem entries_later (hc : h.Coherent Θ) (later : h.Conserves h') {s : TableShape}
    (hv : (Value.map s l).Labelled Θ) : h'.entries l = h.entries l := by
  have cell := (hc.cell?_entries hv).1
  have kept := later.entries l _ cell
  unfold Heap.entries at *
  rw [kept, cell]

end Heap.Coherent

theorem Value.Labelled.eq_of_same {a b : Value} (ha : a.Labelled Θ) (hb : b.Labelled Θ)
    (same : a.same b = true) (hl : a.loc? = some l) : a = b := by
  have target := (loc?_of_same same).symm.trans hl
  have types : a.runtimeType = b.runtimeType :=
    Option.some.inj ((ha l hl).symm.trans (hb l target))
  cases a with
  | object o =>
    cases b with
    | object p =>
      cases o
      cases p
      simp_all [Value.runtimeType, Value.loc?]
    | _ => cases same
  | array elem m | list s m | set s m | map s m =>
    cases b <;> simp_all [Value.runtimeType, Value.loc?]
  | _ => cases hl

/-- A coherent graph with the types of its references. -/
structure Snapshot where
  labels : Labels
  heap : Heap
  coherent : heap.Coherent labels

namespace Snapshot

/-- The references stay what they are, and the containers hold what they held. -/
structure Later (w w' : Snapshot) : Prop where
  labels : w.labels <+: w'.labels
  heap : w.heap.Conserves w'.heap

variable {w w' w'' : Snapshot}

theorem Later.refl (w : Snapshot) : w.Later w := ⟨List.prefix_refl _, .refl _⟩

theorem Later.trans (a : w.Later w') (b : w'.Later w'') : w.Later w'' :=
  ⟨a.labels.trans b.labels, a.heap.trans b.heap⟩

theorem made (w : Snapshot) {c : Cell} {v : Value} (hv : v.loc? = some w.heap.size)
    (suits : w.labels <+: w.labels ++ [v.runtimeType] →
      c.Suits (w.labels ++ [v.runtimeType]) v.runtimeType) :
    ∃ w' : Snapshot, w.Later w' ∧ (w.heap.alloc c).2 = w'.heap ∧ v.Labelled w'.labels := by
  have later : w.labels <+: w.labels ++ [v.runtimeType] := List.prefix_append _ _
  exact ⟨⟨_, _, w.coherent.alloc (suits later)⟩, ⟨later, .of_extends (.alloc _ _)⟩, rfl,
    .last (w.coherent.length ▸ hv)⟩

end Snapshot

/-- The realm of coherent graphs in which containers hold what they held. -/
def Realm.conserving (σ : Schema) : Realm σ where
  World := Snapshot
  Later := Snapshot.Later
  Fits w h := h = w.heap
  Allows w v := v.Labelled w.labels
  strict := False
  refl := .refl
  trans := .trans
  mono later hv := hv.mono later.labels
  scalar := Value.Labelled.scalar
  items fits hv he := (fits ▸ Snapshot.coherent _).elements hv he
  instances strict := strict.elim
  entries fits hv := ((fits ▸ Snapshot.coherent _).cell?_entries hv).2
  array _ fits hv _ :=
    fits ▸ Snapshot.made _ (fits ▸ rfl) fun later x hx => (hv x hx).mono later
  list _ fits hv := fits ▸ Snapshot.made _ (fits ▸ rfl) fun later x hx => (hv x hx).mono later
  set _ fits hv := fits ▸ Snapshot.made _ (fits ▸ rfl) fun later x hx => (hv x hx).mono later
  map _ fits he := fits ▸ Snapshot.made _ (fits ▸ rfl)
    fun later e hm => ⟨(he e hm).1.mono later, (he e hm).2.mono later⟩

end PropertyAccess
