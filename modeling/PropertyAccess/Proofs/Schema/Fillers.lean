import PropertyAccess.Proofs.Schema.Harmless
import PropertyAccess.Proofs.Schema.Stays

/-! What stands in for missing values. A default value is there and is an instance of its type,
down to the elements of a default array. What is made for one position of an array is not made
for another: each is made on the heap that those before have left, so the references among them
are to different things, all of them new. -/

namespace PropertyAccess

variable {h h' g : Heap} {v : Value}

namespace Value

def MadeIn (h h' : Heap) (v : Value) : Prop := ∀ l, v.loc? = some l → h.size ≤ l ∧ l < h'.size

theorem madeIn_scalar (scalar : v.loc? = none) : v.MadeIn h h' :=
  fun l here => by simp [scalar] at here

theorem madeIn_alloc (c : Cell) (here : v.loc? = some h.size) : v.MadeIn h (h.alloc c).2 := by
  intro l there
  obtain rfl : h.size = l := Option.some.inj (here.symm.trans there)
  exact ⟨Nat.le_refl _, by simp only [Heap.size_alloc, Nat.lt_succ_self]⟩

theorem MadeIn.later (made : v.MadeIn h h') (later : h'.size ≤ g.size) : v.MadeIn h g :=
  fun l there => ⟨(made l there).1, Nat.lt_of_lt_of_le (made l there).2 later⟩

theorem MadeIn.before (made : v.MadeIn h h') (earlier : g.size ≤ h.size) : v.MadeIn g h' :=
  fun l there => ⟨Nat.le_trans earlier (made l there).1, (made l there).2⟩

end Value

namespace Schema

variable {σ : Schema}

theorem ends_instantiate_madeIn (hσ : σ.Confined) (c : ClassId) (h : Heap) :
    (σ.instantiate c).Ends h (fun o h' => (Value.object o).MadeIn h h') fun _ _ => True := by
  have blank := Value.madeIn_alloc (h := h) (v := .object ⟨c, h.size⟩)
    (.slots ((σ.layout c).map fun s => (s.name, s.type.zeroValue))) rfl
  unfold instantiate
  split
  · trivial
  · rename_i d declared
    split
    · trivial
    · split
      · trivial
      · trivial
      · exact blank
      · rename_i run initialized
        have confined := hσ d (mem_of_class? declared) run initialized ⟨c, h.size⟩
        exact blank.later (confined _).1

theorem ends_defaultValue_madeIn (hσ : σ.Confined) (t : Ty) (h : Heap) :
    (σ.defaultValue t).Ends h (fun v h' => v.MadeIn h h') fun _ _ => True := by
  unfold defaultValue
  split
  · have row := Heap.Extends.alloc h (.items [])
    exact (Value.madeIn_alloc _ rfl).before row.size_le
  · exact Value.madeIn_alloc _ rfl
  · exact Value.madeIn_alloc _ rfl
  · exact Value.madeIn_alloc _ rfl
  · exact Value.madeIn_alloc _ rfl
  · rw [Run.ends_bind]
    exact ends_instantiate_madeIn hσ _ h
  · exact Value.madeIn_scalar rfl
  · exact Value.madeIn_scalar rfl
  · exact Value.madeIn_scalar rfl
  · exact Value.madeIn_scalar rfl
  · trivial

theorem ends_defaultValue_elements (t : Ty) (h : Heap) :
    (σ.defaultValue t).Ends h (fun v h' => ∀ elem l, v = .array elem l →
      ∃ vs, h'.cell? l = some (.items vs) ∧ ∀ u ∈ vs, σ.accepts elem u = true)
      fun _ _ => True := by
  unfold defaultValue
  split
  · rintro elem l ⟨⟩
    refine ⟨_, Heap.cell?_alloc _ _, fun u hu => ?_⟩
    obtain rfl := List.mem_singleton.1 hu
    exact σ.assignable_self _
  · rintro elem l ⟨⟩
    exact ⟨_, Heap.cell?_alloc _ _, by simp⟩
  · rintro elem l ⟨⟩
  · rintro elem l ⟨⟩
  · rintro elem l ⟨⟩
  · rw [Run.ends_bind]
    exact (Run.ends_on _ h).mono (fun _ _ _ => by rintro elem l ⟨⟩) fun _ _ _ => trivial
  · rintro elem l ⟨⟩
  · rintro elem l ⟨⟩
  · rintro elem l ⟨⟩
  · rintro elem l ⟨⟩
  · trivial

theorem ends_filler_madeIn (hσ : σ.Confined) (elem : Ty) (h : Heap) :
    (σ.filler elem).Ends h (fun v h' => v.MadeIn h h') fun _ _ => True := by
  simp only [filler, Run.ends_bind, Run.ends_outcome]
  refine (ends_defaultValue_madeIn hσ elem h).mono (fun v h' made => made) fun e h' _ => ?_
  split
  · rename_i same
    cases same
  · exact Value.madeIn_scalar (loc?_zeroValue elem)
  · trivial

theorem filterMap_cons_ascending {u : Value} {us : List Value} (first : u.MadeIn h h')
    (rest : ∀ w ∈ us, w.MadeIn h' g) (ascending : (us.filterMap Value.loc?).Pairwise (· < ·)) :
    ((u :: us).filterMap Value.loc?).Pairwise (· < ·) := by
  cases here : u.loc? with
  | none => rwa [List.filterMap_cons_none here]
  | some l =>
    rw [List.filterMap_cons_some here]
    refine List.pairwise_cons.2 ⟨fun m hm => ?_, ascending⟩
    obtain ⟨w, hw, there⟩ := List.mem_filterMap.1 hm
    exact Nat.lt_of_lt_of_le (first l here).2 (rest w hw m there).1

theorem ends_repeated_madeIn {ε : Type} {make : Run ε Value} (harmless : make.Harmless)
    (madeIn : ∀ h, make.Ends h (fun v h' => v.MadeIn h h') fun _ _ => True) (count : Nat)
    (h : Heap) :
    (repeated make count).Ends h
      (fun vs h' => (∀ v ∈ vs, v.MadeIn h h') ∧ (vs.filterMap Value.loc?).Pairwise (· < ·))
      fun _ _ => True := by
  induction count generalizing h with
  | zero => exact ⟨by simp, .nil⟩
  | succ count ih =>
    simp only [repeated, Run.ends_bind, Run.ends_pure]
    refine ((madeIn h).and (harmless.ends h)).mono (fun v h₁ hv => ?_) fun _ _ _ => trivial
    obtain ⟨first, onto⟩ := hv
    refine ((ih h₁).and ((harmless_repeated harmless count).ends h₁)).mono (fun vs h₂ hvs => ?_)
      fun _ _ _ => trivial
    obtain ⟨⟨rest, ascending⟩, later⟩ := hvs
    refine ⟨List.forall_mem_cons.2 ⟨first.later later.size_le, fun u hu => ?_⟩,
      filterMap_cons_ascending first rest ascending⟩
    exact (rest u hu).before onto.size_le

theorem gives_repeated {ε : Type} {make : Run ε Value} {P : Value → Prop} (gives : make.Gives P)
    (count : Nat) : (repeated make count).Gives fun vs => ∀ v ∈ vs, P v := by
  induction count with
  | zero => exact .pure (by simp)
  | succ count ih =>
    exact gives.bind fun v hv => ih.bind fun vs hvs => .pure (List.forall_mem_cons.2 ⟨hv, hvs⟩)

theorem ends_repeated_pos {ε : Type} (make : Run ε Value) (count : Nat) (h : Heap) :
    (repeated make count).Ends h (fun _ _ => True) fun _ _ => 0 < count := by
  cases count with
  | zero => trivial
  | succ count =>
    exact (Run.ends_on _ h).mono (fun _ _ _ => trivial) fun _ _ _ => Nat.succ_pos count

/-- The new array at `g` starts with the elements of the old one. Those that were added are new
and not shared, and all conform to the component type. -/
structure LongerCopy (σ : Schema) (elem : Ty) (old : List Value) (length : Nat) (h h' : Heap)
    (g : Loc) (added : List Value) : Prop where
  new : h.size ≤ g
  cell : h'.cell? g = some (.items (old ++ added))
  length_eq : (old ++ added).length = max length old.length
  accepted : ∀ u ∈ old ++ added, σ.accepts elem u = true
  fresh : ∀ m ∈ added.filterMap Value.loc?, h.size ≤ m ∧ m < g
  unshared : (added.filterMap Value.loc?).Nodup

/-- The value is there and is an instance of the type, down to the elements of an array. -/
structure Suits (σ : Schema) (t : Ty) (h : Heap) (v : Value) : Prop where
  present : v.isNull = false
  accepted : σ.accepts t v = true
  elements : ∀ elem l, v = .array elem l →
    ∃ vs, h.cell? l = some (.items vs) ∧ ∀ u ∈ vs, σ.accepts elem u = true

theorem ends_grownArray_longerCopy (hσ : σ.Confined) {elem : Ty} {l : Loc} {old : List Value}
    (cell : h.cell? l = some (.items old)) (conform : ∀ u ∈ old, σ.accepts elem u = true)
    (length : Nat) :
    (σ.grownArray elem l length).Ends h
      (fun v h' => h.Extends h' ∧
        ∃ g added, v = .array elem g ∧ σ.LongerCopy elem old length h h' g added)
      (fun _ h' => h.Extends h' ∧ old.length < length) := by
  have items : h.items l = old := by rw [Heap.items, cell]
  have harmless := harmless_filler hσ elem
  have extended := (harmless_repeated harmless (length - old.length)).ends h
  have madeIn := ends_repeated_madeIn harmless (ends_filler_madeIn hσ elem) (length - old.length) h
  have accepted := gives_repeated (gives_filler (σ := σ) elem) (length - old.length) h
  have counted := ends_repeated (σ.filler elem) (length - old.length) h
  have failing := ends_repeated_pos (σ.filler elem) (length - old.length) h
  rw [ends_grownArray_iff, items]
  refine (extended.and (madeIn.and (accepted.and (counted.and failing)))).mono
    (fun added h' ends => ?_) fun e h' ends => ?_
  · obtain ⟨onto, ⟨made, ascending⟩, accepted, ⟨long, -⟩, -⟩ := ends
    refine ⟨onto.trans (.alloc h' _), h'.size, added, rfl, onto.size_le, Heap.cell?_alloc h' _, ?_,
      List.forall_mem_append.2 ⟨conform, accepted⟩, fun m hm => ?_, ascending.imp Nat.ne_of_lt⟩
    · rw [List.length_append, long]
      omega
    · obtain ⟨u, hu, there⟩ := List.mem_filterMap.1 hm
      exact made u hu m there
  · obtain ⟨onto, -, -, -, positive⟩ := ends
    exact ⟨onto, by omega⟩

theorem ends_defaultValue_suits (t : Ty) (h : Heap) :
    (σ.defaultValue t).Ends h (fun v h' => σ.Suits t h' v) fun _ _ => True :=
  ((gives_defaultValue_made t h).and
    ((gives_defaultValue t h).and (ends_defaultValue_elements t h))).mono
    (fun _ _ hv => ⟨hv.1.1, hv.2.1, hv.2.2⟩) fun _ _ _ => trivial

/-- A grown array is a longer copy, and the old one stays as it is, as everything else does; it
cannot be made only if it is to be longer. A default value suits its type. -/
theorem grows_and_suits (σ : Schema) :
    (σ.Confined → ∀ elem l old h, h.cell? l = some (.items old) →
      (∀ u ∈ old, σ.accepts elem u = true) → ∀ length, (σ.grownArray elem l length).Ends h
        (fun v h' => h.Extends h' ∧
          ∃ g added, v = .array elem g ∧ σ.LongerCopy elem old length h h' g added)
        (fun _ h' => h.Extends h' ∧ old.length < length)) ∧
    ∀ t h, (σ.defaultValue t).Ends h (fun v h' => σ.Suits t h' v) fun _ _ => True := by
  constructor
  · intro hσ elem l old h cell conform length
    exact ends_grownArray_longerCopy hσ cell conform length
  · intro t h
    exact ends_defaultValue_suits t h

end Schema

/-! A box of pencils, which are sharp when they are new. -/

namespace Pencils

def sharpen (o : ObjectRef) (h : Heap) : Heap := h.put o.loc (.slots [("sharp", .bool true)])

def pencil : ClassDecl :=
  ⟨"demo.Pencil", [], none, [⟨"sharp", .bool, .readWrite⟩], [], false, .initialized sharpen, none⟩

def schema : Schema := Schema.empty.declareClass pencil

def heap : Heap := ⟨#[.slots [("sharp", .bool false)], .items [.object ⟨0, 0⟩]]⟩

theorem confined : schema.Confined := by
  intro d hd run initialized o h
  obtain rfl : d = pencil := List.mem_singleton.1 hd
  obtain rfl : sharpen = run := Construction.initialized.inj initialized
  exact ⟨Nat.le_of_eq (Heap.size_put _).symm, fun l _ other => Heap.cell?_put_of_ne _ other⟩

end Pencils

namespace Schema

open Pencils

theorem grows_and_suits_pencils :
    ((schema.grownArray (.object 0) 1 3).on heap).1 = .ok (.array (.object 0) 4) ∧
      schema.LongerCopy (.object 0) [.object ⟨0, 0⟩] 3 heap
        ((schema.grownArray (.object 0) 1 3).on heap).2 4 [.object ⟨0, 2⟩, .object ⟨0, 3⟩] ∧
      schema.Suits (.object 0) ((schema.defaultValue (.object 0)).on heap).2 (.object ⟨0, 2⟩) := by
  have grown := (grows_and_suits schema).1 confined (.object 0) 1 [.object ⟨0, 0⟩] heap rfl
    (by decide +kernel) 3
  have made : ((schema.grownArray (.object 0) 1 3).on heap).1 = .ok (.array (.object 0) 4) := rfl
  have cell : ((schema.grownArray (.object 0) 1 3).on heap).2.cell? 4 =
      some (.items [.object ⟨0, 0⟩, .object ⟨0, 2⟩, .object ⟨0, 3⟩]) := rfl
  obtain ⟨-, g, added, same, copy⟩ := grown.of_ok (Prod.ext made rfl)
  cases same
  obtain rfl : [.object ⟨0, 2⟩, .object ⟨0, 3⟩] = added := by
    simpa using cell.symm.trans copy.cell
  have new : ((schema.defaultValue (.object 0)).on heap).1 = .ok (.object ⟨0, 2⟩) := rfl
  exact ⟨made, copy, ((grows_and_suits schema).2 (.object 0) heap).of_ok (Prod.ext new rfl)⟩

end Schema

end PropertyAccess
