import PropertyAccess.Proofs.Graph.Additions
import PropertyAccess.Proofs.Property.Handle
import PropertyAccess.Proofs.Schema.Stays

/-! Graphs that keep to what is declared, down to the component types of arrays. A plan says
for a location what is declared of the cell there: the class of an object, or one type for
all elements of a container. A list does not know the type of its elements, so a location
has a plan only if all ways to it declare the same, as in a tree. In a graph that follows
its plan, an array is found only where nothing is declared, or where arrays of its very
component type are, which may be wrapped as nullable once. -/

namespace PropertyAccess

/-- What is declared of a cell. -/
inductive Mold
  | object (c : ClassId)
  | elements (t : Ty)

abbrev Plan := Loc → Option Mold

namespace Mold

def typeAt? (σ : Schema) : Mold → Nat → Option Ty
  | .object c, i => ((σ.layout c)[i]?).map (·.memberType)
  | .elements t, _ => some t

end Mold

namespace Plan

def typeAt? (σ : Schema) (Γ : Plan) (s : Spot) : Option Ty := (Γ s.1).bind (·.typeAt? σ s.2)

/-- Nothing is planned anew, but there may be more. -/
def Later (Γ Γ' : Plan) : Prop := ∀ l m, Γ l = some m → Γ' l = some m

variable {Γ Γ' Γ'' : Plan}

theorem Later.refl (Γ : Plan) : Γ.Later Γ := fun _ _ => id

theorem Later.trans (a : Γ.Later Γ') (b : Γ'.Later Γ'') : Γ.Later Γ'' :=
  fun l m hm => b l m (a l m hm)

end Plan

/-- What is declared of the cell that a reference leads to, where the reference is declared
with a type. -/
def Value.mold (declared : Ty) : Value → Mold
  | .object o => .object o.cls
  | .array elem _ => .elements elem
  | _ => .elements (declared.element?.getD .any)

/-- The value may be where the type is declared. -/
structure Value.Sits (Γ : Plan) (declared : Ty) (v : Value) : Prop where
  exact : ∀ elem l, v = .array elem l →
    declared.isUnknown = true ∨ declared.unwrapped = .array elem
  planned : ∀ l, v.loc? = some l → Γ l = some (v.mold declared)

/-- What is in the graph sits where it is. -/
structure Heap.Follows (σ : Schema) (Γ : Plan) (h : Heap) : Prop where
  lt_size : ∀ l m, Γ l = some m → l < h.size
  sits : ∀ s t v, Γ.typeAt? σ s = some t → h.at? s = some v → v.Sits Γ t

variable {σ : Schema} {Γ Γ' : Plan} {h h' : Heap} {l : Loc} {v w : Value} {t : Ty}

namespace Value.Sits

theorem mono (later : Γ.Later Γ') (hv : v.Sits Γ t) : v.Sits Γ' t :=
  ⟨hv.exact, fun l hl => later l _ (hv.planned l hl)⟩

theorem scalar (hv : v.loc? = none) : v.Sits Γ t := by
  refine ⟨fun elem l array => ?_, fun l hl => ?_⟩
  · rw [array] at hv
    cases hv
  · rw [hv] at hl
    cases hl

end Value.Sits

namespace Cell

variable {c : Cell} {i j : Nat}

theorem at?_edit (hv : (c.edit i w).at? j = some v) : i = j ∧ v = w ∨ c.at? j = some v := by
  by_cases same : i = j
  · subst same
    refine .inl ⟨rfl, ?_⟩
    cases c with
    | slots fields | entries fields =>
      rw [edit, at?, List.getElem?_modify_eq] at hv
      obtain ⟨f, hf, rfl⟩ := Option.map_eq_some_iff.1 hv
      obtain ⟨old, -, rfl⟩ := Option.map_eq_some_iff.1 hf
      rfl
    | items values =>
      rw [edit, at?, List.getElem?_set] at hv
      simp_all
  · refine .inr ?_
    cases c with
    | slots fields | entries fields => rwa [edit, at?, List.getElem?_modify_ne _ _ same] at hv
    | items values => rwa [edit, at?, List.getElem?_set_ne same] at hv

theorem at?_append {vs : List Value} (hv : (c.mapItems (· ++ vs)).at? i = some v) :
    c.at? i = some v ∨ v ∈ vs := by
  cases c with
  | items values =>
    rw [mapItems, at?, List.getElem?_append] at hv
    split at hv
    · exact .inl hv
    · exact .inr (List.mem_of_getElem? hv)
  | _ => exact .inl hv

theorem at?_insert {s : TableShape} {k : Value}
    (hv : (c.mapEntries (MapEntries.insert s · k w)).at? i = some v) :
    (∃ j, c.at? j = some v) ∨ v = w := by
  cases c with
  | entries pairs =>
    obtain ⟨e, he, rfl⟩ := Option.map_eq_some_iff.1 hv
    have old : ∀ e ∈ pairs, ∃ j, (Cell.entries pairs).at? j = some e.2 := by
      intro e he
      obtain ⟨j, hj⟩ := List.getElem?_of_mem he
      exact ⟨j, by simp [at?, hj]⟩
    refine (MapEntries.forall_insert (P := fun _ => True)
      (Q := fun x => (∃ j, (Cell.entries pairs).at? j = some x) ∨ x = w) trivial (.inr rfl)
      (fun e he => ⟨trivial, .inl (old e he)⟩) e (List.mem_of_getElem? he)).2
  | _ => exact .inl ⟨i, hv⟩

end Cell

namespace Heap.Follows

theorem planned_at (hf : h.Follows σ Γ) {s : Spot} {t : Ty} (ht : Γ.typeAt? σ s = some t) :
    s.1 < h.size := by
  obtain ⟨m, hm, -⟩ := Option.bind_eq_some_iff.1 ht
  exact hf.lt_size s.1 m hm

theorem mono (hf : h.Follows σ Γ) (hx : h.Extends h') : h'.Follows σ Γ := by
  refine ⟨fun l m hm => Nat.lt_of_lt_of_le (hf.lt_size l m hm) hx.size_le, fun s t v ht hv => ?_⟩
  rw [at?, hx.cell?_eq s.1 (hf.planned_at ht)] at hv
  exact hf.sits s t v ht hv

theorem of_changesOnly (hf : h.Follows σ Γ) {f : Cell → Cell} (hc : h.ChangesOnly h' l f)
    (new : ∀ c i t v, h.cell? l = some c → Γ.typeAt? σ (l, i) = some t →
      (f c).at? i = some v → v.Sits Γ t) : h'.Follows σ Γ := by
  refine ⟨fun l m hm => Nat.lt_of_lt_of_le (hf.lt_size l m hm) hc.size_le, fun s t v ht hv => ?_⟩
  obtain ⟨m, i⟩ := s
  rw [at?, hc.cell?_eq m (hf.planned_at ht)] at hv
  split at hv
  · rename_i same
    subst same
    obtain ⟨d, hd, there⟩ := Option.bind_eq_some_iff.1 hv
    obtain ⟨c, cell, rfl⟩ := Option.map_eq_some_iff.1 hd
    exact new c i t v cell ht there
  · exact hf.sits _ t v ht hv

theorem store (hf : h.Follows σ Γ) {s : Spot} (ht : Γ.typeAt? σ s = some t) (hw : w.Sits Γ t) :
    (h.store s w).Follows σ Γ := by
  refine hf.of_changesOnly (.store (.refl h)) fun c i u v cell hu hv => ?_
  rcases Cell.at?_edit hv with ⟨rfl, rfl⟩ | old
  · obtain rfl := Option.some.inj (ht.symm.trans hu)
    exact hw
  · exact hf.sits _ u v hu (by rw [at?, cell]; exact old)

theorem elements (hf : h.Follows σ Γ) {elem : Ty} (hl : Γ l = some (.elements elem)) {c : Cell}
    (cell : h.cell? l = some c) {i : Nat} (hv : c.at? i = some v) : v.Sits Γ elem := by
  refine hf.sits (l, i) elem v ?_ ?_
  · rw [Plan.typeAt?, hl]
    rfl
  · rw [at?, cell]
    exact hv

theorem items (hf : h.Follows σ Γ) {elem : Ty} (hl : Γ l = some (.elements elem)) :
    ∀ x ∈ h.items l, x.Sits Γ elem := by
  intro x hx
  obtain ⟨i, hi⟩ := List.getElem?_of_mem hx
  exact hf.elements hl (cell?_of_mem_items hx) hi

theorem typeAt?_elements {elem : Ty} (hl : Γ l = some (.elements elem)) {i : Nat}
    (ht : Γ.typeAt? σ (l, i) = some t) : t = elem := by
  rw [Plan.typeAt?, hl] at ht
  exact (Option.some.inj ht).symm

theorem appendItems (hf : h.Follows σ Γ) {elem : Ty} (hl : Γ l = some (.elements elem))
    {vs : List Value} (hv : ∀ x ∈ vs, x.Sits Γ elem) : (h.appendItems l vs).Follows σ Γ := by
  refine hf.of_changesOnly (.editItems (.refl h) _) fun c i t v cell ht hx => ?_
  obtain rfl := typeAt?_elements hl ht
  rcases Cell.at?_append hx with old | new
  · exact hf.elements hl cell old
  · exact hv v new

theorem insertEntry (hf : h.Follows σ Γ) {elem : Ty} (hl : Γ l = some (.elements elem))
    (s : TableShape) (k : Value) (hv : v.Sits Γ elem) : (h.insertEntry s l k v).Follows σ Γ := by
  refine hf.of_changesOnly (.editEntries (.refl h) _) fun c i t x cell ht hx => ?_
  obtain rfl := typeAt?_elements hl ht
  rcases Cell.at?_insert hx with ⟨j, old⟩ | rfl
  · exact hf.elements hl cell old
  · exact hv

theorem alloc (hf : h.Follows σ Γ) (m : Mold) {c : Cell}
    (hc : ∀ i t v, m.typeAt? σ i = some t → c.at? i = some v → v.Sits Γ t) :
    ∃ Γ', Γ.Later Γ' ∧ (h.alloc c).2.Follows σ Γ' ∧ Γ' h.size = some m := by
  have fresh : Γ h.size = none :=
    Option.eq_none_iff_forall_not_mem.2 fun m hm => Nat.lt_irrefl _ (hf.lt_size _ m hm)
  have later : Γ.Later (Function.update Γ h.size (some m)) := by
    intro l n hn
    rw [Function.update_of_ne, hn]
    rintro rfl
    rw [fresh] at hn
    cases hn
  refine ⟨_, later, ⟨fun l n hn => ?_, fun s t v ht hv => ?_⟩, Function.update_self ..⟩
  · rw [size_alloc]
    by_cases new : l = h.size
    · exact new ▸ Nat.lt_succ_self _
    · rw [Function.update_of_ne new] at hn
      exact Nat.lt_succ_of_lt (hf.lt_size l n hn)
  · by_cases new : s.1 = h.size
    · rw [Plan.typeAt?, new, Function.update_self] at ht
      have cell : (h.alloc c).2.cell? s.1 = some c := new ▸ cell?_alloc h c
      rw [at?, cell] at hv
      exact (hc s.2 t v ht hv).mono later
    · rw [Plan.typeAt?, Function.update_of_ne new] at ht
      rw [at?, cell?_alloc_of_lt c (hf.planned_at ht)] at hv
      exact (hf.sits s t v ht hv).mono later

end Heap.Follows

def Schema.planning (σ : Schema) : Realm σ where
  World := Plan
  Later := Plan.Later
  Fits Γ h := h.Follows σ Γ
  Allows _ _ := True
  strict := False
  refl := .refl
  trans := .trans
  mono _ _ := trivial
  scalar _ := trivial
  items _ _ _ _ _ := trivial
  instances strict := strict.elim
  entries _ _ _ _ := ⟨trivial, trivial⟩
  array _ fits _ _ := ⟨_, .refl _, fits.mono (.alloc _ _), trivial⟩
  list _ fits _ := ⟨_, .refl _, fits.mono (.alloc _ _), trivial⟩
  set _ fits _ := ⟨_, .refl _, fits.mono (.alloc _ _), trivial⟩
  map _ fits _ := ⟨_, .refl _, fits.mono (.alloc _ _), trivial⟩

namespace Schema

/-- What constructors make has its plan. -/
def Plans (σ : Schema) : Prop :=
  ∀ Γ c, (σ.instantiate c).Stays σ.planning Γ fun Γ' o => (Value.object o).Sits Γ' (.object c)

theorem planned_alloc {ε : Type} {Γ : Plan} {elem : Ty} {c : Cell} {make : Loc → Value}
    (target : ∀ l, (make l).loc? = some l) (mold : ∀ l, (make l).mold t = .elements elem)
    (exact : ∀ l e m, make l = .array e m → t.isUnknown = true ∨ t.unwrapped = .array e)
    (hc : ∀ i v, c.at? i = some v → v.Sits Γ elem) :
    (Run.alloc c >>= fun l => pure (make l) : Run ε Value).Stays σ.planning Γ
      fun Γ' v => v.Sits Γ' t := by
  intro h (fits : h.Follows σ Γ)
  rw [Run.ends_bind, Run.ends_alloc, Run.ends_pure]
  obtain ⟨Γ', later, follows, planned⟩ := fits.alloc (.elements elem) fun i t v ht hv =>
    Option.some.inj ht ▸ hc i v hv
  refine ⟨Γ', later, follows, exact _, fun l hl => ?_⟩
  obtain rfl := Option.some.inj ((target _).symm.trans hl)
  rw [mold]
  exact planned

theorem planned_newArray {ε : Type} {Γ : Plan} {elem : Ty} {vs : List Value}
    (exact : t.isUnknown = true ∨ t.unwrapped = .array elem) (hv : ∀ x ∈ vs, x.Sits Γ elem) :
    (Run.newArray elem vs : Run ε Value).Stays σ.planning Γ fun Γ' v => v.Sits Γ' t := by
  refine planned_alloc (fun _ => rfl) (fun _ => rfl) (fun l e m same => ?_)
    fun i v there => hv v (List.mem_of_getElem? there)
  obtain ⟨rfl, -⟩ : elem = e ∧ l = m := by simpa using same
  exact exact

theorem planned_defaultValue (hσ : σ.Plans) (Γ : Plan) (t : Ty) :
    (σ.defaultValue t).Stays σ.planning Γ fun Γ' v => v.Sits Γ' t := by
  have scalar {v : Value} (hv : v.loc? = none) {t : Ty} :
      (pure v : Run InstanceFault Value).Stays σ.planning Γ fun Γ' v => v.Sits Γ' t :=
    .pure (.scalar hv)
  unfold defaultValue
  split
  · rename_i elem
    refine (planned_newArray (t := .array elem) (.inr rfl) (by simp)).bind fun Γ' row _ hrow => ?_
    exact planned_newArray (.inr rfl) (by simpa using hrow)
  · exact planned_newArray (.inr rfl) (by simp)
  · exact planned_alloc (fun _ => rfl) (fun _ => rfl) (by simp) (by simp [Cell.at?])
  · exact planned_alloc (fun _ => rfl) (fun _ => rfl) (by simp)
      (by simp [Cell.at?, SetItems.ofList])
  · exact planned_alloc (fun _ => rfl) (fun _ => rfl) (by simp)
      (by simp [Cell.at?, MapEntries.ofList])
  · exact (hσ Γ _).bind fun _ _ _ ho => .pure ho
  · exact scalar rfl
  · exact scalar rfl
  · exact scalar rfl
  · exact scalar rfl
  · exact .throw _

theorem planned_filler (hσ : σ.Plans) (Γ : Plan) (elem : Ty) :
    (σ.filler elem).Stays σ.planning Γ fun Γ' v => v.Sits Γ' elem := by
  refine (planned_defaultValue hσ Γ elem).outcome.bind fun Γ' made _ hmade => ?_
  split
  · exact .pure (hmade _ rfl)
  · exact .pure (.scalar (loc?_zeroValue elem))
  · exact .throw _

theorem planned_repeated (hσ : σ.Plans) (Γ : Plan) (elem : Ty) (count : Nat) :
    (repeated (σ.filler elem) count).Stays σ.planning Γ fun Γ' vs => ∀ x ∈ vs, x.Sits Γ' elem := by
  induction count generalizing Γ with
  | zero => exact .pure (by simp)
  | succ count ih =>
    refine (planned_filler hσ Γ elem).bind fun Γ₁ v _ hv => ?_
    refine (ih Γ₁).bind fun Γ₂ vs later hvs => .pure ?_
    exact List.forall_mem_cons.2 ⟨hv.mono later, hvs⟩

theorem planned_grownArray (hσ : σ.Plans) {Γ : Plan} {elem : Ty}
    (ha : (Value.array elem l).Sits Γ t) (length : Nat) :
    (σ.grownArray elem l length).Stays σ.planning Γ fun Γ' v => v.Sits Γ' t := by
  have planned := ha.planned l rfl
  refine Run.Stays.bind (P := fun Γ' old => ∀ x ∈ old, x.Sits Γ' elem)
    (.lookup fun h (fits : h.Follows σ Γ) => fits.items planned) fun Γ₁ old later hold => ?_
  refine (planned_repeated hσ Γ₁ elem _).bind fun Γ₂ new later' hnew => ?_
  refine planned_newArray (ha.exact elem l rfl) (List.forall_mem_append.2 ⟨fun x hx => ?_, hnew⟩)
  exact (hold x hx).mono later'

theorem plans_of_plain (plain : ∀ d ∈ σ.classes, ∀ run, d.construction ≠ .initialized run) :
    σ.Plans := by
  intro Γ c
  unfold instantiate
  split
  · exact .throw _
  · rename_i d declared
    refine .ite (fun _ => .throw _) fun _ => ?_
    split
    · exact .throw _
    · exact .throw _
    · intro h (fits : h.Follows σ Γ)
      obtain ⟨Γ', later, follows, planned⟩ := fits.alloc (.object c)
        (c := .slots ((σ.layout c).map fun s => (s.name, s.type.zeroValue))) fun i t v _ hv => by
          refine .scalar ?_
          obtain ⟨f, hf, rfl⟩ := Option.map_eq_some_iff.1 hv
          obtain ⟨s, -, rfl⟩ := List.mem_map.1 (List.mem_of_getElem? hf)
          exact loc?_zeroValue s.type
      refine ⟨Γ', later, follows, by simp, fun l hl => ?_⟩
      obtain rfl := Option.some.inj hl
      exact planned
    · rename_i run initialized
      exact absurd initialized (plain d (mem_of_class? declared) run)

end Schema

end PropertyAccess
