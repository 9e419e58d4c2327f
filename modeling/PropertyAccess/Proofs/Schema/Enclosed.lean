import PropertyAccess.Proofs.Schema.Since

/-! Enclosed cells. A set of cells is closed if nothing in it refers to a cell outside. What
is made and changed on behalf of such a set stays in it, so the graph around it is seen to be
as it was. This is a realm for everything that may be asked of the graph around and that
changes within the set do not touch. -/

namespace PropertyAccess

/-- A reference like this one is to a cell of the set. -/
def Value.Within (S : Loc → Prop) (v : Value) : Prop := ∀ l, v.loc? = some l → S l

namespace Heap

/-- The cells of the set are there and refer only to such cells. -/
def Closed (h : Heap) (S : Loc → Prop) : Prop :=
  ∀ l, S l → ∃ c, h.cell? l = some c ∧ ∀ v ∈ c.contents, v.Within S

/-- The value leads only to cells made when there were `k` of them, whatever cycles it has. -/
def Own (h : Heap) (k : Nat) (v : Value) : Prop :=
  ∃ T, h.Closed T ∧ (∀ l, T l → k ≤ l) ∧ v.Within T

end Heap

variable {σ : Schema} {h h' : Heap} {S T : Loc → Prop} {l : Loc} {v : Value}

namespace Value.Within

theorem scalar (scalar : v.loc? = none) : v.Within S := by
  intro l target
  rw [scalar] at target
  cases target

theorem mono (hv : v.Within S) (later : ∀ l, S l → T l) : v.Within T :=
  fun l target => later l (hv l target)

end Value.Within

namespace Heap.Closed

theorem lt_size (hc : h.Closed S) (hl : S l) : l < h.size := by
  obtain ⟨c, cell, -⟩ := hc l hl
  exact lt_size_of_cell? cell

theorem mono (hc : h.Closed S) (hx : h.Extends h') : h'.Closed S := by
  intro l hl
  obtain ⟨c, cell, contents⟩ := hc l hl
  exact ⟨c, hx.cell? cell, contents⟩

theorem of_cells (hc : h.Closed S) (same : ∀ l, S l → h'.cell? l = h.cell? l) : h'.Closed S := by
  intro l hl
  rw [same l hl]
  exact hc l hl

theorem union (hS : h.Closed S) (hT : h.Closed T) : h.Closed fun l => S l ∨ T l := by
  rintro l (hl | hl)
  · obtain ⟨c, cell, contents⟩ := hS l hl
    exact ⟨c, cell, fun v hv => (contents v hv).mono fun _ => .inl⟩
  · obtain ⟨c, cell, contents⟩ := hT l hl
    exact ⟨c, cell, fun v hv => (contents v hv).mono fun _ => .inr⟩

theorem empty (h : Heap) : h.Closed fun _ => False := fun _ => False.elim

theorem alloc (hc : h.Closed S) {c : Cell} (contents : ∀ v ∈ c.contents, v.Within S) :
    (h.alloc c).2.Closed fun l => S l ∨ l = h.size := by
  rintro l (hl | rfl)
  · obtain ⟨d, cell, within⟩ := hc.mono (.alloc h c) l hl
    exact ⟨d, cell, fun v hv => (within v hv).mono fun _ => .inl⟩
  · exact ⟨c, cell?_alloc h c, fun v hv => (contents v hv).mono fun _ => .inl⟩

theorem change (hc : h.Closed S) {f : Cell → Cell} (changes : h.ChangesOnly h' l f)
    (contents : ∀ c, (∀ v ∈ c.contents, v.Within S) → ∀ v ∈ (f c).contents, v.Within S) :
    h'.Closed S := by
  intro m hm
  obtain ⟨c, cell, within⟩ := hc m hm
  have now := changes.cell?_eq m (lt_size_of_cell? cell)
  split at now
  · exact ⟨f c, by rw [now, cell]; rfl, contents c within⟩
  · exact ⟨c, by rw [now, cell], within⟩

variable (hc : h.Closed S)
include hc

theorem slot (hl : S l) {i : Nat} (there : h.slot? l i = some v) : v.Within S := by
  obtain ⟨c, cell, within⟩ := hc l hl
  obtain rfl := Option.some.inj (cell.symm.trans (cell?_of_slot? there))
  obtain ⟨f, hf, rfl⟩ := Option.map_eq_some_iff.1 there
  exact within f.2 (Cell.mem_contents_slots hf)

theorem items (hl : S l) : ∀ v ∈ h.items l, v.Within S := by
  intro v hv
  obtain ⟨c, cell, within⟩ := hc l hl
  obtain rfl := Option.some.inj (cell.symm.trans (cell?_of_mem_items hv))
  exact within v hv

theorem elements (hv : v.Within S) {vs : List Value} (found : h.elements? v = some vs) :
    ∀ x ∈ vs, x.Within S := by
  cases v with
  | array elem l | list s l | set s l =>
    obtain rfl := Option.some.inj found
    exact hc.items (hv l rfl)
  | _ => cases found

theorem entries (hl : S l) : ∀ e ∈ h.entries l, e.1.Within S ∧ e.2.Within S := by
  intro e he
  obtain ⟨i, hi⟩ := List.getElem?_of_mem he
  obtain ⟨c, cell, within⟩ := hc l hl
  obtain rfl := Option.some.inj (cell.symm.trans (cell?_of_entry hi))
  exact Cell.forall_contents_entries.1 within e he

end Heap.Closed

theorem Heap.Avoids.own {k : Nat} (hv : h.New k v) : h.Own k v := by
  refine ⟨fun l => ∃ x : Value, x.loc? = some l ∧ h.New k x, ?_, ?_,
    fun l target => ⟨v, target, hv⟩⟩
  · rintro l ⟨x, target, hx⟩
    obtain ⟨-, c, cell, -, below⟩ := hx.cell target
    exact ⟨c, cell, fun y hy m hm => ⟨y, hm, (below y hy).anti fun _ => .inl⟩⟩
  · rintro l ⟨x, target, hx⟩
    exact Nat.le_of_not_lt (hx.cell target).1

/-- What is asked of the graph around a set of cells, and is not touched by changes within the
set, nor by new cells, in the set or outside. -/
structure Surroundings where
  Hold : (Loc → Prop) → Heap → Prop
  later : ∀ {S S' : Loc → Prop} {h h' : Heap}, Hold S h → h.size ≤ h'.size →
    (∀ l, l < h.size → ¬ S l → h'.cell? l = h.cell? l) → (∀ l, S l → S' l) →
    (∀ l, S' l → S l ∨ h.size ≤ l) → Hold S' h'

/-- The graph around a closed set of cells is as is asked. -/
structure Surroundings.Fit (A : Surroundings) (S : Loc → Prop) (h : Heap) : Prop where
  closed : h.Closed S
  hold : A.Hold S h

namespace Surroundings.Fit

variable {A : Surroundings} (fits : A.Fit S h)
include fits

theorem mono (hx : h.Extends h') : A.Fit S h' :=
  ⟨fits.closed.mono hx, A.later fits.hold hx.size_le (fun l hl _ => hx.cell?_eq l hl)
    (fun _ => id) fun _ => .inl⟩

theorem join (hx : h.Extends h') (hT : h'.Closed T) (new : ∀ l, T l → h.size ≤ l) :
    A.Fit (fun l => S l ∨ T l) h' :=
  ⟨(fits.closed.mono hx).union hT, A.later fits.hold hx.size_le (fun l hl _ => hx.cell?_eq l hl)
    (fun _ => .inl) fun l hl => hl.imp_right (new l)⟩

theorem own (hx : h.Extends h') (hv : h'.Own h.size v) :
    ∃ S', (∀ l, S l → S' l) ∧ A.Fit S' h' ∧ v.Within S' := by
  obtain ⟨T, hT, new, within⟩ := hv
  exact ⟨_, fun _ => .inl, fits.join hx hT new, within.mono fun _ => .inr⟩

theorem alloc (c : Cell) (contents : ∀ v ∈ c.contents, v.Within S) {x : Value}
    (target : x.loc? = some h.size) :
    ∃ S', (∀ l, S l → S' l) ∧ A.Fit S' (h.alloc c).2 ∧ x.Within S' := by
  have hx : h.Extends (h.alloc c).2 := .alloc h c
  refine ⟨fun l => S l ∨ l = h.size, fun _ => .inl, ⟨fits.closed.alloc contents, ?_⟩,
    fun l hl => .inr (Option.some.inj (hl.symm.trans target))⟩
  exact A.later fits.hold hx.size_le (fun l hl _ => hx.cell?_eq l hl) (fun _ => .inl)
    fun l hl => hl.imp_right (Nat.le_of_eq ·.symm)

theorem change (hl : S l) {f : Cell → Cell} (changes : h.ChangesOnly h' l f)
    (contents : ∀ c, (∀ v ∈ c.contents, v.Within S) → ∀ v ∈ (f c).contents, v.Within S) :
    A.Fit S h' := by
  refine ⟨fits.closed.change changes contents, A.later fits.hold changes.size_le
    (fun m hm out => ?_) (fun _ => id) fun _ => .inl⟩
  exact changes.of_ne hm fun same => out (same ▸ hl)

theorem store (hl : S l) (i : Nat) (hv : v.Within S) : A.Fit S (h.store (l, i) v) :=
  fits.change hl (.store (.refl h)) fun _ within => Cell.forall_contents_edit i within hv

theorem editItems (hl : S l) {f : List Value → List Value}
    (hf : ∀ vs, (∀ x ∈ vs, x.Within S) → ∀ x ∈ f vs, x.Within S) : A.Fit S (h.editItems l f) :=
  fits.change hl (.editItems (.refl h) f) fun c within => by
    cases c with
    | items values => exact hf values within
    | _ => exact within

theorem insertEntry (hl : S l) (s : TableShape) {k : Value} (hk : k.Within S) (hv : v.Within S) :
    A.Fit S (h.insertEntry s l k v) :=
  fits.change hl (.editEntries (.refl h) _) fun c within => by
    cases c with
    | entries pairs =>
      have old := Cell.forall_contents_entries.1 within
      exact Cell.forall_contents_entries.2 (MapEntries.forall_insert hk hv old)
    | _ => exact within

end Surroundings.Fit

def Surroundings.since (k : Nat) : Surroundings where
  Hold S h := k ≤ h.size ∧ ∀ l, S l → k ≤ l
  later older grown _ _ made :=
    ⟨Nat.le_trans older.1 grown, fun l hl => (made l hl).elim (older.2 l) (Nat.le_trans older.1)⟩

theorem Surroundings.fit_since {k : Nat} (older : k ≤ h.size) :
    (Surroundings.since k).Fit (fun _ => False) h :=
  ⟨.empty h, older, fun _ => False.elim⟩

/-- The realm of a closed set of cells, which takes in what is made on its behalf. -/
def Realm.enclosed (σ : Schema) (A : Surroundings) : Realm σ where
  World := Loc → Prop
  Later S S' := ∀ l, S l → S' l
  Fits := A.Fit
  Allows S v := v.Within S
  strict := False
  refl _ _ := id
  trans a b l hl := b l (a l hl)
  mono later hv := hv.mono later
  scalar := .scalar
  items fits hv := fits.closed.elements hv
  instances strict := strict.elim
  entries fits hv := fits.closed.entries (hv _ rfl)
  array _ fits hv _ := fits.alloc (.items _) hv rfl
  list _ fits hv := fits.alloc (.items _) hv rfl
  set _ fits hv := fits.alloc (.items _) hv rfl
  map _ fits he := fits.alloc (.entries _) (Cell.forall_contents_entries.2 he) rfl

namespace Schema

/-- Constructors only make new cells, and what they make leads only to these. -/
structure MakesOwn (σ : Schema) : Prop where
  makesNew : σ.MakesNew
  instantiate : ∀ c h, (σ.instantiate c).Ends h (fun o h' => h'.Own h.size (.object o))
    fun _ _ => True
  fromText : ∀ c text make, σ.fromText? c text = some make → ∀ h,
    make.Ends h (fun v h' => h'.Own h.size v) fun _ _ => True

theorem MakesTrees.makesOwn (hσ : σ.MakesTrees) : σ.MakesOwn where
  makesNew := hσ.makesNew
  instantiate c h := by
    refine ((hσ.stays h.size).instantiate h c h ⟨rfl, Nat.le_refl _⟩).mono (fun o h' ho => ?_)
      fun _ _ _ => trivial
    obtain ⟨w, -, ⟨rfl, -⟩, new⟩ := ho
    exact new.own
  fromText c text make made h := by
    refine ((hσ.stays h.size).fromText h c text make made h ⟨rfl, Nat.le_refl _⟩).mono
      (fun v h' hv => ?_) fun _ _ _ => trivial
    obtain ⟨w, -, ⟨rfl, -⟩, new⟩ := hv
    exact new.own

theorem MakesOwn.stays (hσ : σ.MakesOwn) (A : Surroundings) : σ.Stays (.enclosed σ A) where
  instantiate S c h fits := by
    refine ((hσ.instantiate c h).and ((harmless_instantiate hσ.makesNew.confined c).ends h)).mono
      (fun o h' ho => ?_) fun _ h' he => ?_
    · exact fits.own ho.2 ho.1
    · exact ⟨S, fun _ => id, fits.mono he.2⟩
  fromText S c text make made h fits := by
    refine ((hσ.fromText c text make made h).and
      ((harmless_fromText? hσ.makesNew made).ends h)).mono (fun o h' ho => ?_) fun _ h' he => ?_
    · exact fits.own ho.2 ho.1
    · exact ⟨S, fun _ => id, fits.mono he.2⟩
  instances strict := strict.elim

end Schema

end PropertyAccess
