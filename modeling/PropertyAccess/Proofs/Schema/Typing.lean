import PropertyAccess.Proofs.Graph.Extension
import PropertyAccess.Proofs.Property.Handle
import PropertyAccess.Proofs.Schema.Stays

/-! Well-typed graphs. Every location is labelled with the type of the references to it:
the class of the object, the component type of the array or the shape of the container
that was made there. In a well-typed graph each slot of an object holds an instance of the
type of its field, with type arguments and the self type put in, and each element of an
array is an instance of the component type. Lists, sets and maps hold anything. -/

namespace PropertyAccess

/-- The types of the references to each location. -/
abbrev Labels := List Ty

/-- A reference is one to a location of its type. -/
def Value.Labelled (Θ : Labels) (v : Value) : Prop :=
  ∀ l, v.loc? = some l → Θ[l]? = some v.runtimeType

/-- What may be at a location for references of a type. -/
def Cell.Fits (σ : Schema) (Θ : Labels) : Ty → Cell → Prop
  | .object c, .slots fields =>
    fields.length = (σ.layout c).length ∧
      ∀ (i : Nat) (s : Schema.Slot) (f : String × Value),
        (σ.layout c)[i]? = some s → fields[i]? = some f →
          σ.accepts s.memberType f.2 = true ∧ f.2.Labelled Θ
  | .array elem, .items vs => ∀ v ∈ vs, σ.accepts elem v = true ∧ v.Labelled Θ
  | .list _ _, .items vs | .set _ _, .items vs => ∀ v ∈ vs, v.Labelled Θ
  | .map _ _ _, .entries es => ∀ e ∈ es, e.1.Labelled Θ ∧ e.2.Labelled Θ
  | _, _ => False

/-- The graph is well typed, with these types of references. -/
structure Heap.WellTyped (σ : Schema) (Θ : Labels) (h : Heap) : Prop where
  length : Θ.length = h.size
  cell : ∀ l t, Θ[l]? = some t → ∃ c, h.cell? l = some c ∧ c.Fits σ Θ t

variable {σ : Schema} {Θ Θ' : Labels} {h : Heap} {l : Loc}

theorem Labels.getElem?_of_prefix (later : Θ <+: Θ') {t : Ty} (ht : Θ[l]? = some t) :
    Θ'[l]? = some t := by
  obtain ⟨new, rfl⟩ := later
  rw [List.getElem?_append_left (List.getElem?_eq_some_iff.1 ht).1, ht]

namespace Value.Labelled

theorem mono (later : Θ <+: Θ') {v : Value} (hv : v.Labelled Θ) : v.Labelled Θ' :=
  fun l hl => Labels.getElem?_of_prefix later (hv l hl)

theorem scalar {v : Value} (hv : v.loc? = none) : v.Labelled Θ := by
  intro l hl
  rw [hv] at hl
  cases hl

theorem not_array {s : ListShape} (hv : (Value.list s l).Labelled Θ) (elem : Ty) :
    Θ[l]? ≠ some (.array elem) := by
  simp [hv l rfl, Value.runtimeType]

theorem last {v : Value} (hl : v.loc? = some Θ.length) : v.Labelled (Θ ++ [v.runtimeType]) := by
  intro l hm
  obtain rfl := Option.some.inj (hl.symm.trans hm)
  simp

end Value.Labelled

theorem Cell.Fits.mono (later : Θ <+: Θ') {t : Ty} {c : Cell} (hc : c.Fits σ Θ t) :
    c.Fits σ Θ' t := by
  cases t <;> cases c <;> simp only [Cell.Fits] at hc ⊢
  · exact ⟨hc.1, fun i s f hs hf => ⟨(hc.2 i s f hs hf).1, (hc.2 i s f hs hf).2.mono later⟩⟩
  · exact fun v hv => ⟨(hc v hv).1, (hc v hv).2.mono later⟩
  · exact fun v hv => (hc v hv).mono later
  · exact fun v hv => (hc v hv).mono later
  · exact fun e he => ⟨(hc e he).1.mono later, (hc e he).2.mono later⟩

namespace Heap.WellTyped

theorem lt_size (ht : h.WellTyped σ Θ) {t : Ty} (hl : Θ[l]? = some t) : l < h.size := by
  rw [← ht.length]
  exact (List.getElem?_eq_some_iff.1 hl).1

theorem label (ht : h.WellTyped σ Θ) (hl : l < h.size) : ∃ t, Θ[l]? = some t :=
  ⟨_, List.getElem?_eq_getElem (ht.length ▸ hl)⟩

theorem fits (ht : h.WellTyped σ Θ) {t : Ty} {c : Cell} (hl : Θ[l]? = some t)
    (hc : h.cell? l = some c) : c.Fits σ Θ t := by
  obtain ⟨d, hd, hfits⟩ := ht.cell l t hl
  obtain rfl := Option.some.inj (hd.symm.trans hc)
  exact hfits

theorem alloc (ht : h.WellTyped σ Θ) {t : Ty} {c : Cell} (hc : c.Fits σ (Θ ++ [t]) t) :
    (h.alloc c).2.WellTyped σ (Θ ++ [t]) := by
  refine ⟨by simp [ht.length], fun l u hl => ?_⟩
  by_cases old : l < Θ.length
  · rw [List.getElem?_append_left old] at hl
    obtain ⟨d, hd, hfits⟩ := ht.cell l u hl
    refine ⟨d, ?_, hfits.mono (List.prefix_append _ _)⟩
    rw [cell?_alloc_of_lt c (ht.length ▸ old), hd]
  · have inside : l < Θ.length + 1 := by simpa using (List.getElem?_eq_some_iff.1 hl).1
    obtain rfl : Θ.length = l :=
      Nat.le_antisymm (Nat.le_of_not_lt old) (Nat.le_of_lt_succ inside)
    obtain rfl : t = u := by simpa using hl
    rw [ht.length]
    exact ⟨c, cell?_alloc h c, hc⟩

theorem made (ht : h.WellTyped σ Θ) {c : Cell} {v : Value} (hv : v.loc? = some h.size)
    (hc : Θ <+: Θ ++ [v.runtimeType] → c.Fits σ (Θ ++ [v.runtimeType]) v.runtimeType) :
    ∃ Θ', Θ <+: Θ' ∧ (h.alloc c).2.WellTyped σ Θ' ∧ v.Labelled Θ' := by
  have later : Θ <+: Θ ++ [v.runtimeType] := List.prefix_append _ _
  exact ⟨_, later, ht.alloc (hc later), .last (ht.length ▸ hv)⟩

theorem put (ht : h.WellTyped σ Θ) {c : Cell} (hc : ∀ t, Θ[l]? = some t → c.Fits σ Θ t) :
    (h.put l c).WellTyped σ Θ := by
  refine ⟨by simp [ht.length], fun m t hm => ?_⟩
  by_cases same : m = l
  · subst same
    exact ⟨c, cell?_put_self (ht.lt_size hm), hc t hm⟩
  · obtain ⟨d, hd, hfits⟩ := ht.cell m t hm
    exact ⟨d, by rw [cell?_put_of_ne c same, hd], hfits⟩

theorem elements (ht : h.WellTyped σ Θ) {v : Value} (hv : v.Labelled Θ) {vs : List Value}
    (he : h.elements? v = some vs) : ∀ x ∈ vs, x.Labelled Θ := by
  intro x hx
  cases v with
  | array elem m | list s m | set s m =>
    obtain rfl := Option.some.inj he
    have fits := ht.fits (hv m rfl) (cell?_of_mem_items hx)
    simp only [Value.runtimeType, Cell.Fits] at fits
    first
      | exact (fits x hx).2
      | exact fits x hx
  | _ => cases he

theorem instances (ht : h.WellTyped σ Θ) {elem : Ty} (hv : (Value.array elem l).Labelled Θ) :
    ∀ x ∈ h.items l, σ.accepts elem x = true :=
  fun x hx => (ht.fits (hv l rfl) (cell?_of_mem_items hx) x hx).1

theorem entries (ht : h.WellTyped σ Θ) {s : TableShape} (hv : (Value.map s l).Labelled Θ) :
    ∀ e ∈ h.entries l, e.1.Labelled Θ ∧ e.2.Labelled Θ := by
  obtain ⟨c, hc, hfits⟩ := ht.cell l _ (hv l rfl)
  cases c with
  | entries es =>
    have found : h.entries l = es := by simp [Heap.entries, hc]
    rw [found]
    exact hfits
  | _ => exact hfits.elim

theorem slots (ht : h.WellTyped σ Θ) {o : ObjectRef} (ho : (Value.object o).Labelled Θ) :
    h.cell? o.loc = some (.slots (h.slots o.loc)) ∧
      (Cell.slots (h.slots o.loc)).Fits σ Θ (.object o.cls) := by
  obtain ⟨c, hc, hfits⟩ := ht.cell o.loc _ (ho o.loc rfl)
  cases c with
  | slots fields =>
    have found : h.slots o.loc = fields := by simp [Heap.slots, hc]
    rw [found]
    exact ⟨hc, hfits⟩
  | _ => exact hfits.elim

theorem put_items (ht : h.WellTyped σ Θ) {old vs : List Value}
    (cell : h.cell? l = some (.items old)) (new : ∀ x ∈ vs, x.Labelled Θ)
    (inst : ∀ elem, Θ[l]? = some (.array elem) → ∀ x ∈ vs, σ.accepts elem x = true) :
    (h.put l (.items vs)).WellTyped σ Θ := by
  refine ht.put fun t hl => ?_
  have fits := ht.fits hl cell
  cases t with
  | array elem => exact fun x hx => ⟨inst elem hl x hx, new x hx⟩
  | list | set => exact new
  | _ => exact fits.elim

theorem items_of_cell (ht : h.WellTyped σ Θ) {vs : List Value}
    (cell : h.cell? l = some (.items vs)) :
    (∀ x ∈ vs, x.Labelled Θ) ∧
      ∀ elem, Θ[l]? = some (.array elem) → ∀ x ∈ vs, σ.accepts elem x = true := by
  obtain ⟨t, hl⟩ := ht.label (lt_size_of_cell? cell)
  have fits := ht.fits hl cell
  refine ⟨fun x hx => ?_, fun elem he x hx => ?_⟩
  · cases t with
    | array elem => exact (fits x hx).2
    | list | set => exact fits x hx
    | _ => exact fits.elim
  · obtain rfl := Option.some.inj (hl.symm.trans he)
    exact (fits x hx).1

theorem setItem? (ht : h.WellTyped σ Θ) {i : Nat} {v : Value} (hv : v.Labelled Θ)
    (inst : ∀ elem, Θ[l]? = some (.array elem) → σ.accepts elem v = true) {h' : Heap}
    (set : h.setItem? l i v = some h') : h'.WellTyped σ Θ := by
  unfold Heap.setItem? at set
  split at set
  · rename_i hi
    obtain rfl := Option.some.inj set
    have cell := cell?_of_mem_items (List.getElem_mem hi)
    have old := ht.items_of_cell cell
    refine ht.put_items cell (fun x hx => ?_) fun elem he x hx => ?_
    · rcases List.mem_or_eq_of_mem_set hx with hx | rfl
      · exact old.1 x hx
      · exact hv
    · rcases List.mem_or_eq_of_mem_set hx with hx | rfl
      · exact old.2 elem he x hx
      · exact inst elem he
  · cases set

theorem appendItems (ht : h.WellTyped σ Θ) {s : ListShape} (hl : (Value.list s l).Labelled Θ)
    {vs : List Value} (hv : ∀ x ∈ vs, x.Labelled Θ) : (h.appendItems l vs).WellTyped σ Θ := by
  unfold Heap.appendItems editItems
  split
  · rename_i old cell
    refine ht.put_items cell ?_ fun elem he => absurd he (hl.not_array elem)
    exact List.forall_mem_append.2 ⟨(ht.items_of_cell cell).1, hv⟩
  · exact ht

theorem put_entries (ht : h.WellTyped σ Θ) {old es : List (Value × Value)}
    (cell : h.cell? l = some (.entries old)) (new : ∀ e ∈ es, e.1.Labelled Θ ∧ e.2.Labelled Θ) :
    (h.put l (.entries es)).WellTyped σ Θ := by
  refine ht.put fun t hl => ?_
  have fits := ht.fits hl cell
  cases t with
  | map => exact new
  | _ => exact fits.elim

theorem insertEntry (ht : h.WellTyped σ Θ) (shape : TableShape) {k v : Value}
    (hk : k.Labelled Θ) (hv : v.Labelled Θ) : (h.insertEntry shape l k v).WellTyped σ Θ := by
  unfold Heap.insertEntry editEntries
  split
  · rename_i old cell
    obtain ⟨t, hl⟩ := ht.label (lt_size_of_cell? cell)
    have fits := ht.fits hl cell
    refine ht.put_entries cell (MapEntries.forall_insert hk hv ?_)
    cases t with
    | map => exact fits
    | _ => exact fits.elim
  · exact ht

theorem slot? (ht : h.WellTyped σ Θ) {o : ObjectRef} (ho : (Value.object o).Labelled Θ) {i : Nat}
    {s : Schema.Slot} (hs : (σ.layout o.cls)[i]? = some s) :
    ∃ v, h.slot? o.loc i = some v ∧ σ.accepts s.memberType v = true ∧ v.Labelled Θ := by
  obtain ⟨-, length, values⟩ := ht.slots ho
  have inside : i < (h.slots o.loc).length := by
    rw [length]
    exact (List.getElem?_eq_some_iff.1 hs).1
  have there := List.getElem?_eq_getElem inside
  have value := values i s _ hs there
  exact ⟨((h.slots o.loc)[i]).2, by rw [Heap.slot?, there]; rfl, value⟩

theorem setSlot? (ht : h.WellTyped σ Θ) {o : ObjectRef} (ho : (Value.object o).Labelled Θ) {i : Nat}
    {s : Schema.Slot} (hs : (σ.layout o.cls)[i]? = some s) {v : Value}
    (accepted : σ.accepts s.memberType v = true) (hv : v.Labelled Θ) {h' : Heap}
    (set : h.setSlot? o.loc i v = some h') : h'.WellTyped σ Θ := by
  obtain ⟨-, length, values⟩ := ht.slots ho
  unfold Heap.setSlot? at set
  split at set
  · rename_i name old there
    obtain rfl := Option.some.inj set
    refine ht.put fun t hl => ?_
    obtain rfl := Option.some.inj ((ho o.loc rfl).symm.trans hl)
    refine ⟨by rw [List.length_set, length], fun j u f hu hf => ?_⟩
    by_cases same : i = j
    · subst same
      obtain rfl := Option.some.inj (hs.symm.trans hu)
      rw [List.getElem?_set_self (List.getElem?_eq_some_iff.1 there).1] at hf
      obtain rfl := Option.some.inj hf
      exact ⟨accepted, hv⟩
    · rw [List.getElem?_set_ne same] at hf
      exact values j u f hu hf
  · cases set

end Heap.WellTyped

def Schema.typing (σ : Schema) : Realm σ where
  World := Labels
  Later Θ Θ' := Θ <+: Θ'
  Fits Θ h := h.WellTyped σ Θ
  Allows Θ v := v.Labelled Θ
  strict := True
  refl _ := List.prefix_refl _
  trans := List.IsPrefix.trans
  mono later hv := hv.mono later
  scalar := Value.Labelled.scalar
  items fits hv he := fits.elements hv he
  instances _ fits hv := fits.instances hv
  entries fits hv := fits.entries hv
  array elem fits hv hi :=
    fits.made (v := .array elem _) rfl fun later x hx => ⟨hi trivial x hx, (hv x hx).mono later⟩
  list s fits hv := fits.made (v := .list s _) rfl fun later x hx => (hv x hx).mono later
  set s fits hv := fits.made (v := .set s _) rfl fun later x hx => (hv x hx).mono later
  map s fits he :=
    fits.made (v := .map s _) rfl fun later e hm => ⟨(he e hm).1.mono later, (he e hm).2.mono later⟩

namespace Schema

/-- Classes have only fields; initializers keep the graph well typed; and constructors from
text make well-typed instances of the class. -/
structure Typed (σ : Schema) : Prop where
  fields : ∀ d ∈ σ.classes, d.properties = []
  initializer : ∀ c d run, σ.class? c = some d → d.construction = .initialized run →
    ∀ l Θ h, h.WellTyped σ Θ → (Value.object ⟨c, l⟩).Labelled Θ →
      ∃ Θ', Θ <+: Θ' ∧ (run ⟨c, l⟩ h).WellTyped σ Θ'
  fromText : ∀ Θ c text make, σ.fromText? c text = some make →
    make.Stays σ.typing Θ σ.typing.Allows
  instances : σ.GivesInstances

theorem accepts_zeroValue_substitute (t : Ty) (this : Option ClassId) :
    σ.accepts (t.substitute [] this) t.zeroValue = true := by
  cases t with
  | self => cases this <;> rfl
  | number k => simp [Ty.substitute, Ty.zeroValue, accepts, Number.kind_zero]
  | _ => rfl

theorem stays_blank (Θ : Labels) (c : ClassId) :
    (σ.blank c).Stays σ.typing Θ fun Θ' o => o.cls = c ∧ (Value.object o).Labelled Θ' := by
  intro h fits
  let fields := (σ.layout c).map fun s => (s.name, s.type.zeroValue)
  have object : (Cell.slots fields).Fits σ (Θ ++ [.object c]) (.object c) := by
    refine ⟨by simp [fields], fun i s f hs hf => ?_⟩
    obtain rfl : (s.name, s.type.zeroValue) = f := by simpa [fields, hs] using hf
    exact ⟨accepts_zeroValue_substitute _ _, .scalar (loc?_zeroValue _)⟩
  obtain ⟨Θ', later, fits', labelled⟩ :=
    fits.made (v := .object ⟨c, h.size⟩) rfl fun _ => object
  exact ⟨Θ', later, fits', rfl, labelled⟩

theorem Typed.instantiate (hσ : σ.Typed) (Θ : Labels) (c : ClassId) :
    (σ.instantiate c).Stays σ.typing Θ fun Θ' o => (Value.object o).Labelled Θ' := by
  unfold Schema.instantiate
  split
  · exact .throw _
  · rename_i d declared
    refine .ite (fun _ => .throw _) fun _ => ?_
    split
    · exact .throw _
    · exact .throw _
    · exact (stays_blank Θ c).mono fun _ _ _ ho => ho.2
    · rename_i run initialized
      refine (stays_blank Θ c).bind fun Θ' o _ ho h fits => ?_
      obtain ⟨rfl, labelled⟩ := ho
      obtain ⟨Θ'', later, fits'⟩ := hσ.initializer _ d run declared initialized _ Θ' h fits labelled
      exact ⟨Θ'', later, fits', labelled.mono later⟩

theorem Typed.stays (hσ : σ.Typed) : σ.Stays σ.typing :=
  ⟨hσ.instantiate, hσ.fromText, fun _ => hσ.instances⟩

end Schema

end PropertyAccess
