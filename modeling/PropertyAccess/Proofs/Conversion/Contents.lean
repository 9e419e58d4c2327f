import PropertyAccess.Proofs.Conversion.Instances
import PropertyAccess.Proofs.Conversion.Readied

/-! What converted containers hold. The check at the end of a conversion does not look into
lists, sets and maps, so that their contents are instances rests on their being converted
one by one, wherever the container comes from. By induction on the required type: what a
rule leaves is, if it is an instance at all, one with all that it holds.

A list, a set or a map that is the only element of an array is the exception. It is taken
out of the array after the contents are converted, and is then not looked into any more. So
it is asked of the value that none is packed in an array where a map is required, nor where
a list or a set is, unless the builtin converter is the one that makes the array a list or a
set. -/

namespace PropertyAccess

variable {σ : Schema} {S : Strategies} {w w' : Snapshot} {t required e : Ty} {v x : Value}

structure Conforming (σ : Schema) (t : Ty) (w : Snapshot) (v : Value) : Prop where
  labelled : v.Labelled w.labels
  conforms : w.heap.Conforms σ t v

theorem Number.kind_of_same {a b : Number} (same : a.same b = true) : a.kind = b.kind := by
  cases a with
  | int k x hx => cases b with
    | int l y hy =>
      simp only [Number.same, Bool.and_eq_true, beq_iff_eq] at same
      rw [Number.kind, Number.kind, same.1]
    | float l y => cases same
  | float k x => cases b with
    | int l y hy => cases k <;> cases same
    | float l y => cases k <;> cases l <;> first | rfl | cases same

theorem Schema.accepts_of_same {a b : Value} (scalar : a.loc? = none) (same : a.same b = true) :
    σ.accepts t a = σ.accepts t b := by
  cases a with
  | null => cases b <;> first | rfl | cases same
  | bool x => cases b with
    | bool y => induction t <;> first | rfl | assumption
    | _ => cases same
  | char x => cases b with
    | char y => induction t <;> first | rfl | assumption
    | _ => cases same
  | text x => cases b with
    | text y => induction t <;> first | rfl | assumption
    | _ => cases same
  | number m => cases b with
    | number n =>
      have kinds := Number.kind_of_same same
      induction t <;> simp_all [accepts]
    | _ => cases same
  | enum e i => cases b with
    | enum f j =>
      simp only [Value.same, Bool.and_eq_true, beq_iff_eq] at same
      induction t <;> simp_all [accepts]
    | _ => cases same
  | _ => cases scalar
namespace Conforming

theorem mono (later : w.Later w') (hv : Conforming σ t w v) : Conforming σ t w' v :=
  ⟨hv.labelled.mono later.labels, hv.conforms.1,
    later.contentsConform hv.labelled hv.conforms.2⟩

theorem of_same (hx : Conforming σ t w x) (hv : v.Labelled w.labels) (same : x.same v = true) :
    Conforming σ t w v := by
  cases hl : x.loc? with
  | some l => exact hx.labelled.eq_of_same hv same hl ▸ hx
  | none =>
    have scalar : v.loc? = none := (Value.loc?_of_same same).symm.trans hl
    have empty : w.heap.elements? v = none ∧ w.heap.pairs v = [] := by
      cases v <;> first | exact ⟨rfl, rfl⟩ | cases scalar
    exact ⟨hv, (Schema.accepts_of_same hl same).symm.trans hx.conforms.1,
      Heap.contentsConform_of_empty empty.1 empty.2⟩

theorem of_sameItems {vs xs : List Value} (length : xs.length = vs.length)
    (same : sameItems vs xs = true) (hv : ∀ v ∈ vs, v.Labelled w.labels)
    (hx : ∀ x ∈ xs, Conforming σ t w x) : ∀ v ∈ vs, Conforming σ t w v := by
  induction vs generalizing xs with
  | nil => simp
  | cons v vs ih =>
    cases xs with
    | nil => cases length
    | cons x xs =>
      simp only [sameItems, Bool.and_eq_true] at same
      obtain ⟨hv, hvs⟩ := List.forall_mem_cons.1 hv
      obtain ⟨hx, hxs⟩ := List.forall_mem_cons.1 hx
      exact List.forall_mem_cons.2
        ⟨hx.of_same hv same.1, ih (Nat.succ.inj length) same.2 hvs hxs⟩

theorem of_sameEntries {k : Ty} {es fs : List (Value × Value)} (length : fs.length = es.length)
    (same : sameEntries es fs = true)
    (he : ∀ x ∈ es, x.1.Labelled w.labels ∧ x.2.Labelled w.labels)
    (hf : ∀ x ∈ fs, Conforming σ k w x.1 ∧ Conforming σ t w x.2) :
    ∀ x ∈ es, Conforming σ k w x.1 ∧ Conforming σ t w x.2 := by
  induction es generalizing fs with
  | nil => simp
  | cons e es ih =>
    cases fs with
    | nil => cases length
    | cons f fs =>
      simp only [sameEntries, Bool.and_eq_true] at same
      obtain ⟨he, hes⟩ := List.forall_mem_cons.1 he
      obtain ⟨hf, hfs⟩ := List.forall_mem_cons.1 hf
      exact List.forall_mem_cons.2 ⟨⟨hf.1.of_same he.1 same.1.1, hf.2.of_same he.2 same.1.2⟩,
        ih (Nat.succ.inj length) same.2 hes hfs⟩

end Conforming

def Conversion.Conforms (σ : Schema) (S : Strategies) (t : Ty) (convert : Conversion) : Prop :=
  ∀ w path v, Ready σ S t w v → (convert path v).Stays (.conserving σ) w (Conforming σ t)

theorem conforming_convertItems {element : Conversion} (he : element.Conforms σ S e)
    (path : Option String) (index : Nat) {vs : List Value} (hv : ∀ v ∈ vs, Ready σ S e w v) :
    (convertItems element path index vs).Stays (.conserving σ) w fun w' xs =>
      xs.length = vs.length ∧ ∀ x ∈ xs, Conforming σ e w' x := by
  induction vs generalizing w index with
  | nil => exact .pure ⟨rfl, by simp⟩
  | cons v vs ih =>
    obtain ⟨hv, hvs⟩ := List.forall_mem_cons.1 hv
    refine (he w _ v hv).bind fun w₁ x later hx => ?_
    refine (ih (index + 1) fun u hu => (hvs u hu).mono later).bind fun w₂ xs later hxs => ?_
    exact .pure ⟨congrArg Nat.succ hxs.1, List.forall_mem_cons.2 ⟨hx.mono later, hxs.2⟩⟩

theorem conforming_convertEntries {k : Ty} {contents : ContentConversions}
    (hk : contents.key.Conforms σ S k) (he : contents.element.Conforms σ S e)
    (path : Option String) {es : List (Value × Value)}
    (hes : ∀ x ∈ es, Ready σ S k w x.1 ∧ Ready σ S e w x.2) :
    (convertEntries σ contents path es).Stays (.conserving σ) w fun w' fs =>
      fs.length = es.length ∧ ∀ f ∈ fs, Conforming σ k w' f.1 ∧ Conforming σ e w' f.2 := by
  induction es generalizing w with
  | nil => exact .pure ⟨rfl, by simp⟩
  | cons x es ih =>
    obtain ⟨hx, hes⟩ := List.forall_mem_cons.1 hes
    refine (stays_pathOfEntry path x.1).bind fun w₁ here later₁ _ => ?_
    refine (hk w₁ _ _ (hx.1.mono later₁)).bind fun w₂ key later₂ hkey => ?_
    refine (he w₂ _ _ (hx.2.mono (later₁.trans later₂))).bind fun w₃ value later₃ hvalue => ?_
    have later := later₁.trans (later₂.trans later₃)
    have rest : ∀ x ∈ es, Ready σ S k w₃ x.1 ∧ Ready σ S e w₃ x.2 :=
      fun x hx => ⟨(hes x hx).1.mono later, (hes x hx).2.mono later⟩
    refine (ih rest).bind fun w₄ fs later₄ hfs => .pure ⟨congrArg Nat.succ hfs.1, ?_⟩
    exact List.forall_mem_cons.2
      ⟨⟨hkey.mono (later₃.trans later₄), hvalue.mono later₄⟩, hfs.2⟩

structure ContentConversions.Conform (σ : Schema) (S : Strategies) (t : Ty)
    (contents : ContentConversions) : Prop where
  element : ∀ e, t.element? = some e → contents.element.Conforms σ S e
  key : ∀ k, t.key? = some k → contents.key.Conforms σ S k

namespace Fitted

theorem scalar (hv : v.loc? = none) : Fitted σ t w v := by
  have empty : w.heap.elements? v = none ∧ w.heap.pairs v = [] := by
    cases v <;> first | exact ⟨rfl, rfl⟩ | cases hv
  exact ⟨.scalar hv, fun _ => Heap.contentsConform_of_empty empty.1 empty.2⟩

theorem of_not_isCollection (labelled : v.Labelled w.labels) (plain : t.Plain)
    (no_array : ∀ elem, t.unwrapped ≠ .array elem)
    (single : t.element?.isSome = true → v.isCollection = false) : Fitted σ t w v := by
  refine ⟨labelled, fun accepted => ?_⟩
  cases t with
  | nullable t => exact Heap.contentsConform_of_bare (t := t) plain
  | array elem => exact (no_array elem rfl).elim
  | list | set | map =>
    cases v with
    | array => cases accepted
    | list | set | map => cases single rfl
    | _ => exact Heap.contentsConform_of_empty rfl rfl
  | _ => trivial

theorem of_elements {vs : List Value} (labelled : v.Labelled w.labels)
    (elements : w.heap.elements? v = some vs) (he : t.element? = some e)
    (no_map : t.isMap = false) (hv : ∀ x ∈ vs, Conforming σ e w x) : Fitted σ t w v := by
  refine ⟨labelled, fun _ => Heap.contentsConform_unwrapped.2 ?_⟩
  unfold Ty.element? at he
  unfold Ty.isMap at no_map
  have held : ∀ x ∈ (w.heap.elements? v).getD [], w.heap.Conforms σ e x := by
    rw [elements]
    exact fun x hx => (hv x hx).conforms
  split at he
  · rename_i unwrapped
    obtain rfl := Option.some.inj he
    exact unwrapped ▸ held
  · rename_i unwrapped
    obtain rfl := Option.some.inj he
    exact unwrapped ▸ held
  · rename_i unwrapped
    obtain rfl := Option.some.inj he
    exact unwrapped ▸ held
  · rename_i unwrapped
    rw [unwrapped] at no_map
    cases no_map
  · cases he

theorem of_pairs {s : TableShape} {k : Ty} (map : t.unwrapped = .map s k e)
    (labelled : v.Labelled w.labels)
    (hv : ∀ x ∈ w.heap.pairs v, Conforming σ k w x.1 ∧ Conforming σ e w x.2) :
    Fitted σ t w v := by
  refine ⟨labelled, fun _ => Heap.contentsConform_unwrapped.2 ?_⟩
  rw [map]
  exact fun x hx => ⟨(hv x hx).1.conforms, (hv x hx).2.conforms⟩

end Fitted

namespace Strategies

variable {path : Option String} {contents : ContentConversions}

theorem fitted_newConverted (hc : contents.Conform σ S required) {elem : Ty}
    (array : required.unwrapped = .array elem) {items : List Value}
    (hi : ∀ x ∈ items, Ready σ S elem w x) :
    (newConverted elem contents path items).Stays (.conserving σ) w (Fitted σ required) := by
  have element : required.element? = some elem := by rw [Ty.element?, array]
  have no_map : required.isMap = false := by rw [Ty.isMap, array]
  refine (conforming_convertItems (hc.element _ element) path 0 hi).bind fun w₁ xs _ hxs => ?_
  refine (stays_alloc_items (sequence_array elem)
    fun x hx => (hxs.2 x hx).labelled).mono fun w₂ v later made => ?_
  exact .of_elements made.1 made.2.1 element no_map fun x hx => (hxs.2 x hx).mono later

theorem fitted_toArray (hc : contents.Conform σ S required) {elem : Ty}
    (array : required.unwrapped = .array elem) (hv : Ready σ S required w v) :
    (S.toArray σ elem contents path v).Stays (.conserving σ) w (Fitted σ required) := by
  have element : required.element? = some elem := by rw [Ty.element?, array]
  have no_map : required.isMap = false := by rw [Ty.isMap, array]
  have spread := hv.spread element no_map
  have items {l : Loc} (hl : ∀ h : Heap, h.elements? v = some (h.items l)) :
      (do newConverted elem contents path (← Run.lookup (·.items l)) :
        Run ConvertError Value).Stays (.conserving σ) w (Fitted σ required) := by
    refine Run.Stays.bind (P := fun w' xs => ∀ x ∈ xs, Ready σ S elem w' x) (.lookup ?_)
      fun w' xs _ hxs => fitted_newConverted hc array hxs
    rintro h rfl
    rw [hl] at spread
    exact spread
  unfold toArray
  split
  · rename_i e l
    refine .ite (fun same => .pure ?_) fun _ => items fun _ => rfl
    simp only [Bool.and_eq_true, decide_eq_true_eq] at same
    obtain rfl := same.1
    refine .of_elements hv.labelled rfl element no_map fun x hx => ⟨?_, ?_⟩
    · exact w.labelled_elements hv.labelled x hx
    · exact hv.sound e l (.self _) x hx
  · exact items fun _ => rfl
  · exact items fun _ => rfl
  · rename_i no_array no_list no_set
    have alone : w.heap.elements? v = none := by
      cases v with
      | array e l => exact (no_array e l rfl).elim
      | list s l => exact (no_list s l rfl).elim
      | set s l => exact (no_set s l rfl).elim
      | _ => rfl
    rw [alone] at spread
    exact fitted_newConverted hc array spread

structure Gathered (σ : Schema) (t : Ty) (w : Snapshot) (v : Value) : Prop where
  fitted : Fitted σ t w v
  no_array : ∀ elem l, v ≠ .array elem l

theorem gathered_newCollection (given : Value) (he : required.element? = some e)
    (no_map : required.isMap = false) {items : List Value}
    (hi : ∀ x ∈ items, Conforming σ e w x) :
    (newCollection required given items).Stays (.conserving σ) w (Gathered σ required) := by
  have list (s : ListShape) :
      (Run.newList s items : Run ConvertError Value).Stays (.conserving σ) w
        (Gathered σ required) := by
    refine (stays_alloc_items (sequence_list s.definite)
      fun x hx => (hi x hx).labelled).mono fun w' v later made => ?_
    obtain ⟨labelled, elements, l, rfl⟩ := made
    exact ⟨.of_elements labelled elements he no_map fun x hx => (hi x hx).mono later, by simp⟩
  have set (s : TableShape) :
      (Run.newSet s items : Run ConvertError Value).Stays (.conserving σ) w
        (Gathered σ required) := by
    have kept : ∀ x ∈ SetItems.ofList s.definite items, Conforming σ e w x :=
      fun x hx => hi x (SetItems.mem_of_mem_ofList hx)
    refine (stays_alloc_items (sequence_set s.definite)
      fun x hx => (kept x hx).labelled).mono fun w' v later made => ?_
    obtain ⟨labelled, elements, l, rfl⟩ := made
    exact ⟨.of_elements labelled elements he no_map fun x hx => (kept x hx).mono later, by simp⟩
  unfold newCollection
  split
  · exact list _
  · exact set _
  · exact set _
  · exact list _
  · exact list _

theorem gathered_toCollection (hc : contents.Conform σ S required) (plain : required.Plain)
    (hv : Ready σ S required w v) (sort : (∃ s l, v = .list s l) ∨ ∃ s l, v = .set s l) :
    (S.toCollection σ required contents path v).Stays (.conserving σ) w
      (Gathered σ required) := by
  have no_array : ∀ elem l, v ≠ .array elem l := by
    rcases sort with ⟨s, l, rfl⟩ | ⟨s, l, rfl⟩ <;> simp
  obtain ⟨vs, elements⟩ : ∃ vs, w.heap.elements? v = some vs := by
    rcases sort with ⟨s, l, rfl⟩ | ⟨s, l, rfl⟩ <;> exact ⟨_, rfl⟩
  unfold toCollection
  split
  · rename_i scalar
    exact .pure ⟨⟨hv.labelled, fun _ => Heap.contentsConform_of_plain plain scalar⟩, no_array⟩
  · rename_i elem element
    refine .ite (fun kept => .pure ⟨⟨hv.labelled, fun accepted => ?_⟩, no_array⟩) fun converts => ?_
    · cases required with
      | nullable t => exact Heap.contentsConform_of_bare (t := t) plain
      | array | map => rcases sort with ⟨s, l, rfl⟩ | ⟨s, l, rfl⟩ <;> cases accepted
      | list s e | set s e =>
        obtain rfl : e = elem := Option.some.inj element
        have unknown : e.isUnknown = true := by
          by_contra known
          simp [known, Ty.isCollection, Ty.unwrapped] at kept
        exact fun x _ => ⟨σ.accepts_of_isUnknown unknown x,
          Heap.contentsConform_of_isUnknown unknown⟩
      | _ => cases element
    · have collection : required.isCollection = true := by
        by_contra other
        simp [other] at converts
      have no_map : required.isMap = false := by
        unfold Ty.isCollection at collection
        unfold Ty.isMap
        grind
      have ready : ∀ x ∈ vs, Ready σ S elem w x := by
        have spread := hv.spread element no_map
        rwa [elements] at spread
      refine Run.Stays.bind (P := fun w' items => w.Later w' ∧ items = vs) (.lookup ?_)
        fun w₁ items _ hitems => ?_
      · rintro h rfl
        exact ⟨.refl w, by rw [elements]; rfl⟩
      · obtain ⟨later₁, rfl⟩ := hitems
        refine (conforming_convertItems (hc.element _ element) path 0
          fun x hx => (ready x hx).mono later₁).bind fun w₂ xs later₂ hxs => ?_
        have later := later₁.trans later₂
        refine .ite (fun same => .pure ⟨?_, no_array⟩) fun _ =>
          gathered_newCollection v element no_map hxs.2
        rw [Bool.and_eq_true] at same
        refine .of_elements (hv.labelled.mono later.labels)
          ((later.elements? hv.labelled).trans elements) element no_map ?_
        exact .of_sameItems hxs.1 same.2
          (fun x hx => (ready x hx).labelled.mono later.labels) hxs.2

theorem gathered_newMap (shape : TableShape) {s : TableShape} {k : Ty}
    (map : required.unwrapped = .map s k e) {es : List (Value × Value)}
    (he : ∀ x ∈ es, Conforming σ k w x.1 ∧ Conforming σ e w x.2) :
    (Run.newMap shape es : Run ConvertError Value).Stays (.conserving σ) w
      (Gathered σ required) := by
  have kept : ∀ x ∈ MapEntries.ofList shape.definite es,
      Conforming σ k w x.1 ∧ Conforming σ e w x.2 :=
    MapEntries.forall_ofList he
  refine (stays_alloc_entries shape.definite fun x hx =>
    ⟨(kept x hx).1.labelled, (kept x hx).2.labelled⟩).mono fun w' v later made => ?_
  obtain ⟨labelled, pairs, l, rfl⟩ := made
  refine ⟨.of_pairs map labelled ?_, by simp⟩
  rw [pairs]
  exact fun x hx => ⟨(kept x hx).1.mono later, (kept x hx).2.mono later⟩

theorem gathered_toMap (hc : contents.Conform σ S required) (plain : required.Plain)
    {s : TableShape} {l : Loc} (hv : Ready σ S required w (.map s l)) :
    (S.toMap σ required contents path (.map s l)).Stays (.conserving σ) w
      (Gathered σ required) := by
  unfold toMap
  split
  · rename_i shape k e s l map given
    obtain ⟨rfl, rfl⟩ : _ = s ∧ _ = l := by simpa using given
    have ready := (map ▸ Ready.unwrapped.1 hv : Ready σ S (.map shape k e) w _).entries
    have element : required.element? = some e := by rw [Ty.element?, map]
    have key : required.key? = some k := by rw [Ty.key?, map]
    refine .ite (fun kept => .pure ⟨.of_pairs map hv.labelled fun x hx => ?_, by simp⟩) fun _ => ?_
    · simp only [Bool.and_eq_true] at kept
      exact ⟨⟨(ready x hx).1.labelled, σ.accepts_of_isUnknown kept.1.1.1 _,
          Heap.contentsConform_of_isUnknown kept.1.1.1⟩,
        ⟨(ready x hx).2.labelled, σ.accepts_of_isUnknown kept.1.1.2 _,
          Heap.contentsConform_of_isUnknown kept.1.1.2⟩⟩
    · refine Run.Stays.bind (P := fun w' es => w.Later w' ∧ es = w.heap.pairs (.map s l))
        (.lookup ?_)
        fun w₁ es _ hes => ?_
      · rintro h rfl
        exact ⟨.refl w, rfl⟩
      · obtain ⟨later₁, rfl⟩ := hes
        refine (conforming_convertEntries (hc.key _ key) (hc.element _ element) path
          fun x hx => ⟨(ready x hx).1.mono later₁, (ready x hx).2.mono later₁⟩).bind
            fun w₂ fs later₂ hfs => ?_
        have later := later₁.trans later₂
        refine .ite (fun same => .pure ⟨.of_pairs map (hv.labelled.mono later.labels) ?_, by simp⟩)
          fun _ => ?_
        · rw [Bool.and_eq_true] at same
          rw [later.pairs hv.labelled]
          exact Conforming.of_sameEntries hfs.1 same.2 (fun x hx =>
            ⟨(ready x hx).1.labelled.mono later.labels,
              (ready x hx).2.labelled.mono later.labels⟩) hfs.2
        · exact gathered_newMap _ map hfs.2
  · rename_i no_map
    refine .pure ⟨⟨hv.labelled, fun accepted => ?_⟩, by simp⟩
    cases required with
    | nullable t => exact Heap.contentsConform_of_bare (t := t) plain
    | array | list | set => cases accepted
    | map s k e => exact (no_map s k e _ _ rfl rfl).elim
    | _ => trivial

theorem gathered_ruleContainer (hc : contents.Conform σ S required) (plain : required.Plain)
    (hv : Ready σ S required w v) :
    (S.ruleContainer σ required contents path v).Stays (.conserving σ) w fun w' r =>
      Gathered σ required w' r.1 ∨ r.1 = v ∧ v.isCollection = false ∧ w.Later w' := by
  unfold ruleContainer
  split
  · exact (gathered_toCollection hc plain hv (.inl ⟨_, _, rfl⟩)).bind
      fun _ _ _ hx => .pure (.inl hx)
  · exact (gathered_toCollection hc plain hv (.inr ⟨_, _, rfl⟩)).bind
      fun _ _ _ hx => .pure (.inl hx)
  · exact (gathered_toMap hc plain hv).bind fun _ _ _ hx => .pure (.inl hx)
  · rename_i no_list no_set no_map
    refine .pure (.inr ⟨rfl, ?_, .refl w⟩)
    cases v with
    | list s l => exact (no_list s l rfl).elim
    | set s l => exact (no_set s l rfl).elim
    | map s l => exact (no_map s l rfl).elim
    | _ => rfl

theorem fitted_soleElement (plain : required.Plain)
    (no_array : ∀ elem, required.unwrapped ≠ .array elem) (labelled : v.Labelled w.labels)
    (single : v.isCollection = false)
    (packs : required.element?.isSome = true → ¬w.heap.Packs v) (standard : Bool) :
    (soleElement v standard).Stays (.conserving σ) w fun w' r => Fitted σ required w' r.1 := by
  unfold soleElement
  split
  · rename_i elem l
    refine Run.Stays.bind (P := fun (w' : Snapshot) items =>
      w.Later w' ∧ items = w.heap.items l) (.lookup ?_) fun w' items _ hitems => ?_
    · rintro h rfl
      exact ⟨.refl w, rfl⟩
    · obtain ⟨later, only⟩ := hitems
      split
      · rename_i x
        have held : x.Labelled w.labels := w.labelled_elements labelled x
          (by simp [Heap.elements?, ← only])
        refine .pure (.of_not_isCollection (held.mono later.labels) plain no_array
          fun container => ?_)
        by_contra packed
        refine packs container ⟨elem, l, x, rfl, only.symm, ?_⟩
        simpa using packed
      · exact .pure (.of_not_isCollection (labelled.mono later.labels) plain no_array
          fun _ => single)
  · exact .pure (.of_not_isCollection labelled plain no_array fun _ => single)

theorem fitted_container (path : Option String) (hc : contents.Conform σ S required)
    (plain : required.Plain) (no_array : ∀ elem, required.unwrapped ≠ .array elem)
    (hv : Ready σ S required w v)
    (packs : required.element?.isSome = true → ¬w.heap.Packs v) :
    (do
      let (v, standard) ← S.ruleContainer σ required contents path v
      soleElement v standard).Stays (.conserving σ) w fun w' r => Fitted σ required w' r.1 := by
  refine (gathered_ruleContainer hc plain hv).bind fun w' r _ hr => ?_
  obtain ⟨u, standard⟩ := r
  change (soleElement u standard).Stays (.conserving σ) w' fun w'' r => Fitted σ required w'' r.1
  rcases hr with gathered | ⟨same, single, later⟩
  · unfold soleElement
    split
    · rename_i elem l
      exact (gathered.no_array elem l rfl).elim
    · exact .pure gathered.fitted
  · obtain rfl : u = v := same
    exact fitted_soleElement plain no_array (hv.labelled.mono later.labels) single
      (fun container packed => packs container (later.packs hv.labelled packed)) standard

theorem fitted_checked (service : S.service = none) (given : Value)
    (converter : Option Converter) (hv : Fitted σ required w v) (standard : Bool) :
    (S.checked σ required path given converter none v standard).Stays (.conserving σ) w
      (Fitted σ required) := by
  refine .ite (fun _ => .pure hv) fun _ => ?_
  rw [serve, service]
  exact .throw _

variable (hσ : ∀ w c text make, σ.fromText? c text = some make →
  make.Stays (.conserving σ) w (Realm.conserving σ).Allows)

include hσ

theorem fitted_ruleText (w : Snapshot) (text : String) (deferred : Bool) :
    (ruleText σ required text deferred).Stays (.conserving σ) w fun w' r =>
      Fitted σ required w' r.value := by
  have constructed : (construct? σ required text deferred).Stays (.conserving σ) w fun w' r =>
      ∀ x, r = some x → Fitted σ required w' x := by
    cases required with
    | object c =>
      exact (stays_construct? hσ w text deferred).mono fun w' r _ hr x hx =>
        ⟨hr x hx, fun _ => trivial⟩
    | _ => exact .pure (by simp)
  refine constructed.bind fun w' made _ hmade => ?_
  split
  · exact .pure (hmade _ rfl)
  · split
    · dsimp only
      split
      · exact .pure (.scalar rfl)
      · split
        · exact .pure (.scalar rfl)
        · exact .pure (.scalar rfl)
    · exact .pure (.scalar rfl)

theorem fitted_ruleScalar (deferred : Bool) (hv : Fitted σ required w v) (standard : Bool) :
    (ruleScalar σ required deferred v standard).Stays (.conserving σ) w fun w' r =>
      Fitted σ required w' r.value := by
  refine .ite (fun _ => ?_) fun _ => ?_
  · exact (stays_written v).bind fun _ _ _ _ => .pure (.scalar rfl)
  · split
    · exact .ite (fun _ => .pure hv) fun _ => fitted_ruleText hσ w _ _
    · split
      · split
        · exact .pure (.scalar rfl)
        · exact .throw _
      · exact .pure hv
    · exact .pure hv

theorem fitted_rules (hc : contents.Conform σ S required) (plain : required.Plain)
    (deferred : Bool) (hv : Ready σ S required w v)
    (packs : required.isArray = false → required.element?.isSome = true → ¬w.heap.Packs v) :
    (S.rules σ required contents path deferred v).Stays (.conserving σ) w fun w' r =>
      Fitted σ required w' r.value := by
  refine .ite (fun null => .pure ?_) fun _ => .ite (fun unknown => .pure ?_) fun _ => ?_
  · cases v <;> first | exact .scalar rfl | cases null
  · exact ⟨hv.labelled, fun _ => Heap.contentsConform_of_isUnknown unknown⟩
  · split
    · rename_i elem array
      refine (ready_splitIf _ hv).bind fun w₁ given _ hgiven => ?_
      exact (fitted_toArray hc array hgiven).bind fun _ _ _ hx => .pure hx
    · rename_i no_array
      have other : required.isArray = false := by
        unfold Ty.isArray
        split
        · rename_i elem array
          exact (no_array elem array).elim
        · rfl
      have container := (fitted_container path hc plain no_array hv (packs other)).bind
        fun w' r _ hr => fitted_ruleScalar hσ deferred hr r.2
      simpa only [bind_assoc] using container

theorem fitted_step (hS : S.Readies σ) (hc : contents.Conform σ S required)
    (plain : required.Plain) (hv : Ready σ S required w v) :
    (S.step σ required contents path v).Stays (.conserving σ) w (Fitted σ required) := by
  rw [step_of_service_eq_none hS.service]
  refine (packs_applied hS plain hv).bind fun w₁ applied _ happlied => ?_
  refine (fitted_rules hσ hc plain _ happlied.1 happlied.2).bind fun w₂ ruled _ hruled => ?_
  split
  · exact .pure hruled
  · exact fitted_checked hS.service _ _ hruled _

variable (instances : σ.GivesInstances)

include instances

theorem conforms_step (hS : S.Readies σ) (hc : contents.Conform σ S required)
    (plain : required.Plain) : (S.step σ required contents).Conforms σ S required := by
  intro w path v hv
  have gives := gives_step (S := S) instances (by simp [GivesInstances, hS.service]) required
    contents path v
  exact ((fitted_step hσ hS hc plain hv).and_gives gives).mono fun w' x _ hx =>
    ⟨hx.1.labelled, hx.2, hx.1.contents hx.2⟩

theorem conform_contents (hS : S.Readies σ) (plain : required.Plain) :
    (S.contents σ required).Conform σ S required := by
  induction required with
  | array e ih | list s e ih | set s e ih =>
    have element := conforms_step hσ instances hS (ih plain) plain
    refine ⟨fun t ht => ?_, nofun⟩
    obtain rfl := Option.some.inj ht
    exact element
  | map s k e ihk ihe =>
    have key := conforms_step hσ instances hS (ihk plain.1) plain.1
    have element := conforms_step hσ instances hS (ihe plain.2) plain.2
    refine ⟨fun t ht => ?_, fun t ht => ?_⟩
    · obtain rfl := Option.some.inj ht
      exact element
    · obtain rfl := Option.some.inj ht
      exact key
  | nullable t =>
    refine ⟨fun e he => ?_, fun k hk => ?_⟩
    · rw [plain.of_nullable.1] at he
      cases he
    · rw [plain.of_nullable.2] at hk
      cases hk
  | _ => exact ⟨nofun, nofun⟩

/-- What a conversion gives is an instance with all that it holds. -/
theorem conforms_of_convert (hS : S.Readies σ) (plain : required.Plain) {Θ : Labels} {h h' : Heap}
    (coherent : h.Coherent Θ) {path : Option String} {v x : Value} (labelled : v.Labelled Θ)
    (sound : h.Sound σ v) (unpacked : h.Unpacked σ S required v)
    (ok : (S.convert σ required path v).on h = (.ok x, h')) : h'.Conforms σ required x := by
  have converted := conforms_step hσ instances hS (conform_contents hσ instances hS plain) plain
    ⟨Θ, h, coherent⟩ path v ⟨labelled, sound, unpacked⟩ h rfl
  obtain ⟨w', -, fits, conforming⟩ := converted.of_ok ok
  exact fits ▸ conforming.conforms

end Strategies

/-! Cards are made from a text that a registered converter gives for their names. -/

namespace Deck

def unserved : Strategies := { strategies with service := none }

def packHeap : Heap := ⟨#[.items [.text "ace", .text "king"], .items [.array .text 0]]⟩

def packLabels : Labels := [.array .text, .list .vector .any]

theorem stays_fromText (w : Snapshot) (c : ClassId) (text : String) (make : Run String Value)
    (hmake : schema.fromText? c text = some make) :
    make.Stays (.conserving schema) w (Realm.conserving schema).Allows := by
  rw [fromText?_eq hmake]
  rintro h rfl
  refine w.made (v := .object ⟨c, w.heap.size⟩) rfl fun _ f hf => .scalar ?_
  rw [List.mem_singleton.1 hf]
  rfl

theorem readies_unserved : unserved.Readies schema where
  registered := by
    intro c hc
    obtain rfl : c = joker := by simpa [unserved, strategies, Registrations.converters] using hc
    exact ⟨fun _ _ _ => .pure (.scalar rfl), fun _ _ _ _ => .pure (.scalar rfl)⟩
  defaults := rfl
  service := rfl

theorem coherent_packHeap : packHeap.Coherent packLabels := by
  refine ⟨rfl, fun l t ht => ?_⟩
  match l, ht with
  | 0, rfl =>
    refine ⟨.items [.text "ace", .text "king"], rfl, ?_⟩
    have scalar : ∀ x ∈ [Value.text "ace", .text "king"], x.loc? = none := by simp [Value.loc?]
    exact fun x hx => .scalar (scalar x hx)
  | 1, rfl =>
    refine ⟨.items [.array .text 0], rfl, fun x hx => ?_⟩
    obtain rfl := List.mem_singleton.1 hx
    rintro l ⟨⟩
    rfl

def pack : Snapshot := ⟨packLabels, packHeap, coherent_packHeap⟩

theorem ready_pack :
    Ready schema unserved (.list .vector (.array (.object 0))) pack (.list .vector 1) := by
  have elements : pack.heap.elements? (.list .vector 1) = some [.array .text 0] := rfl
  have names : pack.heap.elements? (.array .text 0) = some [.text "ace", .text "king"] := rfl
  refine .gathered (.inl ⟨.vector, rfl⟩) ?_ elements (by simp) fun x hx => ?_
  · rintro l ⟨⟩
    rfl
  · obtain rfl := List.mem_singleton.1 hx
    refine .of_scalars ?_ names (by simp [Value.loc?]) ?_
    · rintro l ⟨⟩
      rfl
    · rintro elem l ⟨⟩
      simp [Schema.accepts]

end Deck

theorem Strategies.conforms_of_convert_cards :
    ∃ x h', (Deck.unserved.convert Deck.schema (.list .vector (.array (.object 0))) none
        (.list .vector 1)).on Deck.packHeap = (.ok x, h') ∧
      h'.Conforms Deck.schema (.list .vector (.array (.object 0))) x := by
  have plain : (Ty.list .vector (.array (.object 0))).Plain := trivial
  have works : ((Deck.unserved.convert Deck.schema (.list .vector (.array (.object 0))) none
      (.list .vector 1)).on Deck.packHeap).1.toBool = true := by decide +kernel
  rcases ho : (Deck.unserved.convert Deck.schema (.list .vector (.array (.object 0))) none
    (.list .vector 1)).on Deck.packHeap with ⟨result, h'⟩
  rw [ho] at works
  cases result with
  | error e => cases works
  | ok x =>
    exact ⟨x, h', rfl, conforms_of_convert Deck.stays_fromText Deck.givesInstances_schema
      Deck.readies_unserved plain Deck.coherent_packHeap Deck.ready_pack.labelled
      Deck.ready_pack.sound Deck.ready_pack.unpacked ho⟩

/-- A map that is unpacked from an array is not looked into. -/
example :
    (((⟨.empty, .standard, none⟩ : Strategies).convert .empty
      (.map .linked .text (.number (.int .i32))) none (.array .any 0)).on
        ⟨#[.items [.map .linked 1], .entries [(.text "a", .text "5")]]⟩).1.toOption =
      some (.map .linked 1) := by
  decide +kernel

end PropertyAccess
