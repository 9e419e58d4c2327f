import PropertyAccess.Proofs.Conversion.Arrays
import PropertyAccess.Proofs.Schema.Coherent
import PropertyAccess.Proofs.Schema.Text

/-! Values with all that they hold. `Heap.Conforms` says of a value that it is an instance of a
type and that what it holds, at any depth, is of the element and key types. `Ready` says what
a value is to be for a conversion to have such a result: the arrays in it are what they say
they are, and lists, sets and maps are not packed in arrays in place of themselves. Both are
of graphs that only grow, so that they stay true while a conversion goes on. -/

namespace PropertyAccess

/-- Only the type of something that holds nothing is made nullable. -/
def Ty.Plain : Ty → Prop
  | .nullable t => t.bare.element? = none
  | .array e | .list _ e | .set _ e => e.Plain
  | .map _ k e => k.Plain ∧ e.Plain
  | _ => True

theorem Ty.Plain.of_nullable {t : Ty} (plain : (Ty.nullable t).Plain) :
    (Ty.nullable t).element? = none ∧ (Ty.nullable t).key? = none := by
  cases t <;> simp_all [Plain, bare, element?, key?, unwrapped]

def Value.isCollection : Value → Bool
  | .list _ _ | .set _ _ | .map _ _ => true
  | _ => false

namespace Heap

/-- The elements, or else the keys and values, are instances where the type has such, and so
is what these hold in turn. -/
def ContentsConform (σ : Schema) (h : Heap) : Ty → Value → Prop
  | .nullable t, v => h.ContentsConform σ t v
  | .array e, v | .list _ e, v | .set _ e, v =>
    ∀ x ∈ (h.elements? v).getD [], σ.accepts e x = true ∧ h.ContentsConform σ e x
  | .map _ k e, v =>
    ∀ x ∈ h.pairs v, (σ.accepts k x.1 = true ∧ h.ContentsConform σ k x.1) ∧
      σ.accepts e x.2 = true ∧ h.ContentsConform σ e x.2
  | _, _ => True

/-- An instance of the type with all that it holds. -/
def Conforms (σ : Schema) (h : Heap) (t : Ty) (v : Value) : Prop :=
  σ.accepts t v = true ∧ h.ContentsConform σ t v

/-- The arrays in it hold only what conforms to their component types. -/
def Sound (σ : Schema) (h : Heap) (v : Value) : Prop :=
  ∀ elem l, h.Within v (.array elem l) → ∀ x ∈ h.items l, h.Conforms σ elem x

/-- A list, a set or a map is the only element of the array. -/
def Packs (h : Heap) (v : Value) : Prop :=
  ∃ elem l x, v = .array elem l ∧ h.items l = [x] ∧ x.isCollection = true

/-- Where a map is required there is none that is packed in an array, and the same for lists
and sets if a registered converter may apply to them, so that no array is made one. -/
def Unpacked (σ : Schema) (S : Strategies) (h : Heap) : Ty → Value → Prop
  | .nullable t, v => h.Unpacked σ S t v
  | .array e, v => ∀ x ∈ (h.elements? v).getD [v], h.Unpacked σ S e x
  | .list s e, v =>
    (∀ path, (S.custom? σ (.list s e) path).isSome = true → ¬h.Packs v) ∧
      ∀ x ∈ (h.elements? v).getD [v], h.Unpacked σ S e x
  | .set s e, v =>
    (∀ path, (S.custom? σ (.set s e) path).isSome = true → ¬h.Packs v) ∧
      ∀ x ∈ (h.elements? v).getD [v], h.Unpacked σ S e x
  | .map _ k e, v =>
    ¬h.Packs v ∧ ∀ x ∈ h.pairs v, h.Unpacked σ S k x.1 ∧ h.Unpacked σ S e x.2
  | _, _ => True

variable {σ : Schema} {S : Strategies} {h : Heap} {t : Ty} {v : Value}

theorem contentsConform_unwrapped :
    h.ContentsConform σ t v ↔ h.ContentsConform σ t.unwrapped v := by
  cases t <;> exact Iff.rfl

theorem unpacked_unwrapped : h.Unpacked σ S t v ↔ h.Unpacked σ S t.unwrapped v := by
  cases t <;> exact Iff.rfl

theorem contentsConform_of_bare (scalar : t.bare.element? = none) : h.ContentsConform σ t v := by
  induction t with
  | nullable t ih => exact ih scalar
  | array e | list s e | set s e | map s k e => cases scalar
  | _ => trivial

theorem contentsConform_of_plain (plain : t.Plain) (scalar : t.element? = none) :
    h.ContentsConform σ t v := by
  cases t with
  | nullable t => exact contentsConform_of_bare (t := t) plain
  | array e | list s e | set s e | map s k e => cases scalar
  | _ => trivial

theorem contentsConform_of_isUnknown (unknown : t.isUnknown = true) :
    h.ContentsConform σ t v := by
  cases t <;> trivial

theorem contentsConform_of_empty (elements : h.elements? v = none) (pairs : h.pairs v = []) :
    h.ContentsConform σ t v := by
  induction t with
  | nullable t ih => exact ih
  | array e | list s e | set s e => simp [ContentsConform, elements]
  | map s k e => simp [ContentsConform, pairs]
  | _ => trivial

theorem unpacked_of_empty (elements : h.elements? v = none) (pairs : h.pairs v = []) :
    h.Unpacked σ S t v := by
  have no_array : ¬h.Packs v := by
    rintro ⟨elem, l, x, rfl, -⟩
    cases elements
  induction t with
  | nullable t ih => exact ih
  | array e ih => simpa [Unpacked, elements] using ih
  | list s e ih | set s e ih => exact ⟨fun _ _ => no_array, by simpa [elements] using ih⟩
  | map s k e => exact ⟨no_array, by simp [pairs]⟩
  | _ => trivial

theorem sound_of_empty (elements : h.elements? v = none) (pairs : h.pairs v = []) :
    h.Sound σ v := by
  intro elem l within
  cases within with
  | self => cases elements
  | inside held _ => simp [contents, elements, pairs] at held

theorem Sound.held (sound : h.Sound σ v) {x : Value} (hx : x ∈ h.contents v) : h.Sound σ x :=
  fun elem l within => sound elem l (.inside hx within)

theorem sound_of_contents (own : ∀ elem l, v = .array elem l → ∀ x ∈ h.items l, h.Conforms σ elem x)
    (held : ∀ x ∈ h.contents v, h.Sound σ x) : h.Sound σ v := by
  intro elem l within
  cases within with
  | self => exact own elem l rfl
  | inside hx rest => exact held _ hx elem l rest

end Heap

namespace Snapshot

variable {σ : Schema} {S : Strategies} {w w' : Snapshot} {t : Ty} {v : Value}

theorem Later.elements? (later : w.Later w') (hv : v.Labelled w.labels) :
    w'.heap.elements? v = w.heap.elements? v :=
  w.coherent.elements?_later later.heap hv

theorem Later.pairs (later : w.Later w') (hv : v.Labelled w.labels) :
    w'.heap.pairs v = w.heap.pairs v := by
  cases v with
  | map s l => exact w.coherent.entries_later later.heap hv
  | _ => rfl

theorem Later.contents (later : w.Later w') (hv : v.Labelled w.labels) :
    w'.heap.contents v = w.heap.contents v := by
  rw [Heap.contents, Heap.contents, later.elements? hv, later.pairs hv]

theorem labelled_elements (w : Snapshot) (hv : v.Labelled w.labels) :
    ∀ x ∈ (w.heap.elements? v).getD [], x.Labelled w.labels := by
  intro x hx
  cases he : w.heap.elements? v with
  | none => simp [he] at hx
  | some vs =>
    rw [he] at hx
    exact w.coherent.elements hv he x hx

theorem labelled_pairs (w : Snapshot) (hv : v.Labelled w.labels) :
    ∀ e ∈ w.heap.pairs v, e.1.Labelled w.labels ∧ e.2.Labelled w.labels := by
  cases v with
  | map s l => exact (w.coherent.cell?_entries hv).2
  | _ => simp [Heap.pairs]

theorem labelled_contents (w : Snapshot) (hv : v.Labelled w.labels) :
    ∀ x ∈ w.heap.contents v, x.Labelled w.labels := by
  intro x hx
  rcases List.mem_append.1 hx with hx | hx
  · exact w.labelled_elements hv x hx
  · obtain ⟨e, he, hx⟩ := List.mem_flatMap.1 hx
    have own := w.labelled_pairs hv e he
    rcases List.mem_cons.1 hx with rfl | hx
    · exact own.1
    · exact List.mem_singleton.1 hx ▸ own.2

theorem labelled_elements_or_self (w : Snapshot) (hv : v.Labelled w.labels) :
    ∀ x ∈ (w.heap.elements? v).getD [v], x.Labelled w.labels := by
  intro x hx
  cases he : w.heap.elements? v with
  | none =>
    rw [he] at hx
    exact List.mem_singleton.1 hx ▸ hv
  | some vs =>
    rw [he] at hx
    exact w.coherent.elements hv he x hx

theorem Later.contentsConform (later : w.Later w') (hv : v.Labelled w.labels)
    (hc : w.heap.ContentsConform σ t v) : w'.heap.ContentsConform σ t v := by
  induction t generalizing v with
  | nullable t ih => exact ih hv hc
  | array e ih | list s e ih | set s e ih =>
    simp only [Heap.ContentsConform, later.elements? hv] at hc ⊢
    exact fun x hx => ⟨(hc x hx).1, ih (w.labelled_elements hv x hx) (hc x hx).2⟩
  | map s k e ihk ihe =>
    simp only [Heap.ContentsConform, later.pairs hv] at hc ⊢
    intro x hx
    have own := w.labelled_pairs hv x hx
    exact ⟨⟨(hc x hx).1.1, ihk own.1 (hc x hx).1.2⟩, (hc x hx).2.1, ihe own.2 (hc x hx).2.2⟩
  | _ => trivial

theorem Later.within (later : w.Later w') {y : Value} (hv : v.Labelled w.labels)
    (within : w'.heap.Within v y) : w.heap.Within v y ∧ y.Labelled w.labels := by
  induction within with
  | self v => exact ⟨.self v, hv⟩
  | inside held _ ih =>
    rw [later.contents hv] at held
    obtain ⟨rest, labelled⟩ := ih (w.labelled_contents hv _ held)
    exact ⟨.inside held rest, labelled⟩

theorem Later.sound (later : w.Later w') (hv : v.Labelled w.labels) (sound : w.heap.Sound σ v) :
    w'.heap.Sound σ v := by
  intro elem l within x hx
  obtain ⟨before, labelled⟩ := later.within hv within
  have same : w'.heap.items l = w.heap.items l := Option.some.inj (later.elements? labelled)
  rw [same] at hx
  have conforms := sound elem l before x hx
  have held : x.Labelled w.labels := w.labelled_elements labelled x hx
  exact ⟨conforms.1, later.contentsConform held conforms.2⟩

theorem Later.packs (later : w.Later w') (hv : v.Labelled w.labels) (packs : w'.heap.Packs v) :
    w.heap.Packs v := by
  obtain ⟨elem, l, x, rfl, only, sort⟩ := packs
  have same : w'.heap.items l = w.heap.items l := Option.some.inj (later.elements? hv)
  exact ⟨elem, l, x, rfl, same ▸ only, sort⟩

theorem Later.unpacked (later : w.Later w') (hv : v.Labelled w.labels)
    (hu : w.heap.Unpacked σ S t v) : w'.heap.Unpacked σ S t v := by
  induction t generalizing v with
  | nullable t ih => exact ih hv hu
  | array e ih =>
    simp only [Heap.Unpacked, later.elements? hv] at hu ⊢
    exact fun x hx => ih (w.labelled_elements_or_self hv x hx) (hu x hx)
  | list s e ih | set s e ih =>
    simp only [Heap.Unpacked, later.elements? hv] at hu ⊢
    exact ⟨fun path own packs => hu.1 path own (later.packs hv packs),
      fun x hx => ih (w.labelled_elements_or_self hv x hx) (hu.2 x hx)⟩
  | map s k e ihk ihe =>
    simp only [Heap.Unpacked, later.pairs hv] at hu ⊢
    refine ⟨fun packs => hu.1 (later.packs hv packs), fun x hx => ?_⟩
    have own := w.labelled_pairs hv x hx
    exact ⟨ihk own.1 (hu.2 x hx).1, ihe own.2 (hu.2 x hx).2⟩
  | _ => trivial

end Snapshot

/-- A value that may be converted to the type. -/
structure Ready (σ : Schema) (S : Strategies) (t : Ty) (w : Snapshot) (v : Value) : Prop where
  labelled : v.Labelled w.labels
  sound : w.heap.Sound σ v
  unpacked : w.heap.Unpacked σ S t v

structure Fitted (σ : Schema) (t : Ty) (w : Snapshot) (v : Value) : Prop where
  labelled : v.Labelled w.labels
  contents : σ.accepts t v = true → w.heap.ContentsConform σ t v

variable {σ : Schema} {S : Strategies} {w w' : Snapshot} {t e : Ty} {v x : Value}

namespace Ready

theorem mono (later : w.Later w') (hv : Ready σ S t w v) : Ready σ S t w' v :=
  ⟨hv.labelled.mono later.labels, later.sound hv.labelled hv.sound,
    later.unpacked hv.labelled hv.unpacked⟩

theorem scalar (hv : v.loc? = none) : Ready σ S t w v := by
  have empty : w.heap.elements? v = none ∧ w.heap.pairs v = [] := by
    cases v <;> first | exact ⟨rfl, rfl⟩ | cases hv
  exact ⟨.scalar hv, Heap.sound_of_empty empty.1 empty.2,
    Heap.unpacked_of_empty empty.1 empty.2⟩

theorem unwrapped : Ready σ S t w v ↔ Ready σ S t.unwrapped w v := by
  cases t with
  | nullable t => exact ⟨fun hv => ⟨hv.1, hv.2, hv.3⟩, fun hv => ⟨hv.1, hv.2, hv.3⟩⟩
  | _ => exact Iff.rfl

/-- The elements, or the value as the only one, may be converted to the type of elements. -/
theorem spread (hv : Ready σ S t w v) (he : t.element? = some e) (no_map : t.isMap = false) :
    ∀ x ∈ (w.heap.elements? v).getD [v], Ready σ S e w x := by
  have element : ∀ x ∈ (w.heap.elements? v).getD [v], w.heap.Unpacked σ S e x := by
    have unpacked := Heap.unpacked_unwrapped.1 hv.unpacked
    unfold Ty.element? at he
    unfold Ty.isMap at no_map
    split at he
    · rename_i array
      obtain rfl := Option.some.inj he
      exact (array ▸ unpacked :)
    · rename_i list
      obtain rfl := Option.some.inj he
      rw [list] at unpacked
      exact unpacked.2
    · rename_i set
      obtain rfl := Option.some.inj he
      rw [set] at unpacked
      exact unpacked.2
    · rename_i map
      rw [map] at no_map
      cases no_map
    · cases he
  intro x hx
  refine ⟨w.labelled_elements_or_self hv.labelled x hx, ?_, element x hx⟩
  cases he : w.heap.elements? v with
  | none =>
    rw [he] at hx
    exact List.mem_singleton.1 hx ▸ hv.sound
  | some vs =>
    rw [he] at hx
    exact hv.sound.held (List.mem_append_left _ (by simpa [he] using hx))

theorem entries {s : TableShape} {k : Ty} (hv : Ready σ S (.map s k e) w v) :
    ∀ x ∈ w.heap.pairs v, Ready σ S k w x.1 ∧ Ready σ S e w x.2 := by
  intro x hx
  have labelled := w.labelled_pairs hv.labelled x hx
  have unpacked := hv.unpacked.2 x hx
  have held : x.1 ∈ w.heap.contents v ∧ x.2 ∈ w.heap.contents v :=
    ⟨List.mem_append_right _ (List.mem_flatMap.2 ⟨x, hx, by simp⟩),
      List.mem_append_right _ (List.mem_flatMap.2 ⟨x, hx, by simp⟩)⟩
  exact ⟨⟨labelled.1, hv.sound.held held.1, unpacked.1⟩,
    ⟨labelled.2, hv.sound.held held.2, unpacked.2⟩⟩

end Ready

def Sequence (make : Loc → Value) : Prop :=
  ∀ l, (make l).loc? = some l ∧ ∀ h : Heap, h.elements? (make l) = some (h.items l)

theorem sequence_array (elem : Ty) : Sequence (.array elem) := fun _ => ⟨rfl, fun _ => rfl⟩

theorem sequence_list (s : ListShape) : Sequence (.list s) := fun _ => ⟨rfl, fun _ => rfl⟩

theorem sequence_set (s : TableShape) : Sequence (.set s) := fun _ => ⟨rfl, fun _ => rfl⟩

theorem stays_alloc_items {ε : Type} {make : Loc → Value} (sort : Sequence make) {vs : List Value}
    (hv : ∀ x ∈ vs, x.Labelled w.labels) :
    (do return make (← Run.alloc (.items vs)) : Run ε Value).Stays (.conserving σ) w fun w' v =>
      v.Labelled w'.labels ∧ w'.heap.elements? v = some vs ∧ ∃ l, v = make l := by
  rintro h rfl
  have suits {Θ : Labels} (labelled : ∀ x ∈ vs, x.Labelled Θ) :
      (Cell.items vs).Suits Θ (make w.heap.size).runtimeType := by
    have elements := (sort w.heap.size).2 w.heap
    generalize make w.heap.size = v at elements
    cases v <;> first | exact labelled | cases elements
  obtain ⟨w', later, heap, labelled⟩ := w.made (sort w.heap.size).1
    fun later => suits fun x hx => (hv x hx).mono later
  refine ⟨w', later, heap, labelled, ?_, _, rfl⟩
  have cell : w'.heap.cell? w.heap.size = some (.items vs) :=
    heap ▸ Heap.cell?_alloc w.heap (.items vs)
  change w'.heap.elements? (make w.heap.size) = _
  rw [(sort _).2, Heap.items, cell]

theorem stays_alloc_entries {ε : Type} (s : TableShape) {es : List (Value × Value)}
    (he : ∀ e ∈ es, e.1.Labelled w.labels ∧ e.2.Labelled w.labels) :
    (do return .map s (← Run.alloc (.entries es)) : Run ε Value).Stays (.conserving σ) w
      fun w' v => v.Labelled w'.labels ∧ w'.heap.pairs v = es ∧ ∃ l, v = .map s l := by
  rintro h rfl
  obtain ⟨w', later, heap, labelled⟩ := w.made (c := .entries es)
    (v := .map s w.heap.size) rfl fun later e hm => ⟨(he e hm).1.mono later, (he e hm).2.mono later⟩
  refine ⟨w', later, heap, labelled, ?_, _, rfl⟩
  have cell : w'.heap.cell? w.heap.size = some (.entries es) :=
    heap ▸ Heap.cell?_alloc w.heap (.entries es)
  change w'.heap.entries w.heap.size = es
  rw [Heap.entries, cell]

/-- A container with elements that are scalars. -/
theorem Ready.of_scalars {vs : List Value} (labelled : v.Labelled w.labels)
    (elements : w.heap.elements? v = some vs) (scalar : ∀ x ∈ vs, x.loc? = none)
    (instances : ∀ elem l, v = .array elem l → ∀ x ∈ vs, σ.accepts elem x = true) :
    Ready σ S t w v := by
  have none_held : w.heap.pairs v = [] := by
    cases v <;> first | rfl | cases elements
  have empty : ∀ x ∈ vs, w.heap.elements? x = none ∧ w.heap.pairs x = [] := by
    intro x hx
    have own := scalar x hx
    cases x <;> first | exact ⟨rfl, rfl⟩ | cases own
  refine ⟨labelled, Heap.sound_of_contents (fun elem l array x hx => ?_) fun x hx => ?_, ?_⟩
  · obtain rfl : w.heap.items l = vs := by
      rw [array] at elements
      exact Option.some.inj elements
    exact ⟨instances elem l array x hx,
      Heap.contentsConform_of_empty (empty x hx).1 (empty x hx).2⟩
  · have hx : x ∈ vs := by simpa [Heap.contents, elements, none_held] using hx
    exact Heap.sound_of_empty (empty x hx).1 (empty x hx).2
  · have packs : ¬w.heap.Packs v := by
      rintro ⟨elem, l, x, rfl, only, sort⟩
      obtain rfl : w.heap.items l = vs := Option.some.inj elements
      have own := scalar x (by simp [only])
      cases x <;> simp [Value.isCollection, Value.loc?] at sort own
    have element (t : Ty) : ∀ x ∈ vs, w.heap.Unpacked σ S t x := fun x hx =>
      Heap.unpacked_of_empty (empty x hx).1 (empty x hx).2
    induction t with
    | nullable t ih => exact ih
    | array e => simpa [Heap.Unpacked, elements] using element e
    | list s e | set s e => exact ⟨fun _ _ => packs, by simpa [elements] using element e⟩
    | map s k e => exact ⟨packs, by simp [none_held]⟩
    | _ => trivial

theorem Ready.gathered {vs : List Value}
    (sort : (∃ s, t.unwrapped = .list s e) ∨ ∃ s, t.unwrapped = .set s e)
    (labelled : v.Labelled w.labels) (elements : w.heap.elements? v = some vs)
    (no_array : ∀ elem l, v ≠ .array elem l) (hv : ∀ x ∈ vs, Ready σ S e w x) :
    Ready σ S t w v := by
  have none_held : w.heap.pairs v = [] := by
    cases v <;> first | rfl | cases elements
  have packs : ¬w.heap.Packs v := by
    rintro ⟨elem, l, x, rfl, -⟩
    exact no_array elem l rfl
  have element : ∀ x ∈ (w.heap.elements? v).getD [v], w.heap.Unpacked σ S e x := by
    rw [elements]
    exact fun x hx => (hv x hx).unpacked
  refine ⟨labelled, Heap.sound_of_contents (fun elem l array => (no_array elem l array).elim)
    fun x hx => ?_, Heap.unpacked_unwrapped.2 ?_⟩
  · exact (hv x (by simpa [Heap.contents, elements, none_held] using hx)).sound
  · rcases sort with ⟨s, sort⟩ | ⟨s, sort⟩
    · rw [sort]
      exact ⟨fun _ _ => packs, element⟩
    · rw [sort]
      exact ⟨fun _ _ => packs, element⟩

theorem ready_newArray {ε : Type} {elem : Ty} {vs : List Value} (scalar : ∀ x ∈ vs, x.loc? = none)
    (instances : ∀ x ∈ vs, σ.accepts elem x = true) :
    (Run.newArray elem vs : Run ε Value).Stays (.conserving σ) w (Ready σ S t) := by
  refine (stays_alloc_items (sequence_array elem)
    fun x hx => .scalar (scalar x hx)).mono fun w' v _ made => ?_
  obtain ⟨labelled, elements, l, rfl⟩ := made
  refine .of_scalars labelled elements scalar ?_
  rintro _ _ ⟨⟩
  exact instances

theorem ready_newList {ε : Type} {s : ListShape} {vs : List Value}
    (sort : (∃ s, t.unwrapped = .list s e) ∨ ∃ s, t.unwrapped = .set s e)
    (hv : ∀ x ∈ vs, Ready σ S e w x) :
    (Run.newList s vs : Run ε Value).Stays (.conserving σ) w (Ready σ S t) := by
  refine (stays_alloc_items (sequence_list s.definite)
    fun x hx => (hv x hx).labelled).mono fun w' v later made => ?_
  obtain ⟨labelled, elements, l, rfl⟩ := made
  exact .gathered sort labelled elements (by simp) fun x hx => (hv x hx).mono later

theorem ready_newSet {ε : Type} {s : TableShape} {vs : List Value}
    (sort : (∃ s, t.unwrapped = .list s e) ∨ ∃ s, t.unwrapped = .set s e)
    (hv : ∀ x ∈ vs, Ready σ S e w x) :
    (Run.newSet s vs : Run ε Value).Stays (.conserving σ) w (Ready σ S t) := by
  have kept : ∀ x ∈ SetItems.ofList s.definite vs, Ready σ S e w x :=
    fun x hx => hv x (SetItems.mem_of_mem_ofList hx)
  refine (stays_alloc_items (sequence_set s.definite)
    fun x hx => (kept x hx).labelled).mono fun w' v later made => ?_
  obtain ⟨labelled, elements, l, rfl⟩ := made
  exact .gathered sort labelled elements (by simp) fun x hx => (kept x hx).mono later

theorem ready_newMap {ε : Type} {s r : TableShape} {k : Ty} {es : List (Value × Value)}
    (sort : t.unwrapped = .map r k e) (he : ∀ x ∈ es, Ready σ S k w x.1 ∧ Ready σ S e w x.2) :
    (Run.newMap s es : Run ε Value).Stays (.conserving σ) w (Ready σ S t) := by
  have kept : ∀ x ∈ MapEntries.ofList s.definite es, Ready σ S k w x.1 ∧ Ready σ S e w x.2 :=
    MapEntries.forall_ofList he
  refine (stays_alloc_entries s.definite fun x hx =>
    ⟨(kept x hx).1.labelled, (kept x hx).2.labelled⟩).mono fun w' v later made => ?_
  obtain ⟨labelled, pairs, l, rfl⟩ := made
  have held : ∀ x ∈ w'.heap.pairs (.map s.definite l), Ready σ S k w' x.1 ∧ Ready σ S e w' x.2 := by
    rw [pairs]
    exact fun x hx => ⟨(kept x hx).1.mono later, (kept x hx).2.mono later⟩
  refine ⟨labelled, Heap.sound_of_contents (by simp) fun x hx => ?_, Heap.unpacked_unwrapped.2 ?_⟩
  · obtain ⟨f, hf, hx⟩ : ∃ f ∈ w'.heap.pairs (.map s.definite l), x = f.1 ∨ x = f.2 := by
      simpa [Heap.contents, Heap.elements?] using hx
    rcases hx with rfl | rfl
    · exact (held f hf).1.sound
    · exact (held f hf).2.sound
  · rw [sort]
    exact ⟨by simp [Heap.Packs], fun x hx => ⟨(held x hx).1.unpacked, (held x hx).2.unpacked⟩⟩

end PropertyAccess
