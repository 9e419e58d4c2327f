import PropertyAccess.Document.Tree
import PropertyAccess.Proofs.Graph.Inserted
import PropertyAccess.Proofs.Graph.Merged
import PropertyAccess.Proofs.Graph.Tree
import PropertyAccess.Proofs.Schema.Fillers

/-! What a document is as a raw value. The value has the structure of the document: what is a
sequence there is a list here, element by element, and what is a mapping there is a linked map of
the merged entries. Each part is made on the heap that those before it have left. So a sequence or
a mapping that is a key has a place of its own, and only scalars are ever equal as keys. -/

namespace PropertyAccess

theorem Floating.Binary.same_iff {F : Floating.Format} (x y : Floating.Binary F) :
    x.same y = true ↔
      x.isNaN = false ∧ y.isNaN = false ∧ (x = y ∨ x.rank = 0 ∧ y.rank = 0) := by
  obtain ⟨s, m, hm⟩ := x
  obtain ⟨t, n, hn⟩ := y
  simp only [same, Bool.and_eq_true, Bool.not_eq_true', Bool.or_eq_true, beq_iff_eq, mk.injEq,
    and_assoc]
  grind

theorem Number.same_float_iff (k : FloatKind) (x y : Floating.Binary k.format) :
    (Number.float k x).same (.float k y) = true ↔
      x.isNaN = false ∧ y.isNaN = false ∧ (x = y ∨ x.rank = 0 ∧ y.rank = 0) := by
  cases k <;> exact Floating.Binary.same_iff x y

theorem Number.float_kind_eq {k l : FloatKind} {x : Floating.Binary k.format}
    {y : Floating.Binary l.format} (same : (Number.float k x).same (.float l y) = true) :
    k = l := by
  cases k with
  | f32 =>
    cases l with
    | f32 => rfl
    | f64 => cases same
  | f64 =>
    cases l with
    | f32 => cases same
    | f64 => rfl

/-- One scalar of one kind. Of floats it is a number, and the two zeros of a format are one. -/
def Value.IsOneScalar (a b : Value) : Prop :=
  a.isExact = true ∧ a = b ∨
    ∃ k x y, a = .number (.float k x) ∧ b = .number (.float k y) ∧
      x.isNaN = false ∧ y.isNaN = false ∧ (x = y ∨ x.rank = 0 ∧ y.rank = 0)

theorem Value.same_iff_isOneScalar {a b : Value} (apart : ∀ l, a.loc? = some l → b.loc? ≠ some l) :
    a.same b = true ↔ a.IsOneScalar b := by
  constructor
  · intro same
    cases a with
    | number n =>
      cases n with
      | int => exact .inl ⟨rfl, (same_iff_of_isExact rfl).1 same⟩
      | float k x =>
        cases b with
        | number m =>
          cases m with
          | int => cases k <;> cases same
          | float l y =>
            cases Number.float_kind_eq same
            exact .inr ⟨k, x, y, rfl, rfl, (Number.same_float_iff k x y).1 same⟩
        | _ => cases same
    | object | array | list | set | map => exact absurd (loc?_of_same same).symm (apart _ rfl)
    | _ => exact .inl ⟨rfl, (same_iff_of_isExact rfl).1 same⟩
  · rintro (⟨exact, rfl⟩ | ⟨k, x, y, rfl, rfl, one⟩)
    · exact (same_iff_of_isExact exact).2 rfl
    · exact (Number.same_float_iff k x y).2 one

theorem Value.same_iff_of_madeIn {a b : Value} {h h₁ h₂ h₃ : Heap} (first : a.MadeIn h h₁)
    (onto : h₁.size ≤ h₂.size) (later : b.MadeIn h₂ h₃) : a.same b = true ↔ a.IsOneScalar b := by
  refine same_iff_isOneScalar fun l here there => ?_
  have below := Nat.lt_of_lt_of_le (first l here).2 onto
  exact absurd (later l there).1 (Nat.not_le.2 below)

namespace Document

/-- A tree of scalars, optional values, sequences and mappings. -/
inductive Plain : Document → Prop
  | absent : Plain .absent
  | unit : Plain .unit
  | bool (b : Bool) : Plain (.bool b)
  | number (n : Number) : Plain (.number n)
  | char (c : Char) : Plain (.char c)
  | text (s : String) : Plain (.text s)
  | present {d : Document} (inner : Plain d) : Plain (.present d)
  | sequence {ds : List Document} (items : ∀ d ∈ ds, Plain d) : Plain (.sequence ds)
  | mapping {es : List (Document × Document)} (keys : ∀ e ∈ es, Plain e.1)
      (values : ∀ e ∈ es, Plain e.2) : Plain (.mapping es)

/-- The value has the structure of the document. -/
inductive Depicts (h : Heap) : Document → Value → Prop
  | absent : Depicts h .absent .null
  | unit : Depicts h .unit .null
  | bool (b : Bool) : Depicts h (.bool b) (.bool b)
  | signed {k : IntKind} {z : Int} (inRange : k.Holds z) (fits : IntKind.i64.Holds z) :
      Depicts h (.number (.int k z inRange)) (.number (.int .i64 z fits))
  | unsigned {k : IntKind} {z : Int} (inRange : k.Holds z) (large : ¬ IntKind.i64.Holds z)
      (fits : IntKind.u64.Holds z) :
      Depicts h (.number (.int k z inRange)) (.number (.int .u64 z fits))
  | float (k : FloatKind) (x : Floating.Binary k.format) :
      Depicts h (.number (.float k x)) (.number (.float .f64 (Number.float k x).toDouble))
  | char (c : Char) : Depicts h (.char c) (.char c)
  | text (s : String) : Depicts h (.text s) (.text s)
  | present {d : Document} {v : Value} (inner : Depicts h d v) : Depicts h (.present d) v
  | sequence {ds : List Document} {vs : List Value} {l : Loc}
      (items : List.Forall₂ (Depicts h) ds vs) (cell : h.cell? l = some (.items vs)) :
      Depicts h (.sequence ds) (.list .vector l)
  | mapping {es : List (Document × Document)} {decoded : List (Value × Value)} {l : Loc}
      (keys : List.Forall₂ (Depicts h) (es.map (·.1)) (decoded.map (·.1)))
      (values : List.Forall₂ (Depicts h) (es.map (·.2)) (decoded.map (·.2)))
      (same_iff : decoded.Pairwise fun e f => e.1.same f.1 = true ↔ e.1.IsOneScalar f.1)
      (cell : h.cell? l = some (.entries (MapEntries.merged decoded))) :
      Depicts h (.mapping es) (.map .linked l)

theorem depicts_widened (h : Heap) (n : Number) : Depicts h (.number n) (.number n.widened) := by
  cases n with
  | float k x => exact .float k x
  | int k z inRange =>
    rw [Number.widened]
    split
    · rename_i fits
      exact .signed inRange fits
    · rename_i large
      exact .unsigned inRange large _

variable {d : Document} {ds : List Document} {es : List (Document × Document)} {v : Value}
  {h h' : Heap}

/-- From `h` to `h'` the document became the value, which depicts it from then on. What was there
before is unchanged, and what the value refers to is new. -/
structure Decoded (h h' : Heap) (d : Document) (v : Value) : Prop where
  extended : h.Extends h'
  madeIn : v.MadeIn h h'
  depicts : ∀ g, h'.Extends g → Depicts g d v

def Decodes (d : Document) : Prop :=
  ∀ h, d.toValue.Ends h (fun v h' => Decoded h h' d v) fun _ _ => False

theorem decoded_scalar (scalar : v.loc? = none) (depicts : ∀ g, Depicts g d v) : Decoded h h d v :=
  ⟨.refl h, Value.madeIn_scalar scalar, fun g _ => depicts g⟩

structure ItemsDecoded (h h' : Heap) (ds : List Document) (vs : List Value) : Prop where
  extended : h.Extends h'
  items : ∀ g, h'.Extends g → List.Forall₂ (Depicts g) ds vs

theorem ItemsDecoded.cons {h₁ : Heap} {vs : List Value} (first : Decoded h h₁ d v)
    (rest : ItemsDecoded h₁ h' ds vs) : ItemsDecoded h h' (d :: ds) (v :: vs) where
  extended := first.extended.trans rest.extended
  items g later := .cons (first.depicts g (rest.extended.trans later)) (rest.items g later)

theorem ends_toValues (all : ∀ d ∈ ds, Decodes d) (h : Heap) :
    (toValues ds).Ends h (fun vs h' => ItemsDecoded h h' ds vs) fun _ _ => False := by
  induction ds generalizing h with
  | nil => exact ⟨.refl h, fun _ _ => .nil⟩
  | cons d ds ih =>
    obtain ⟨own, all⟩ := List.forall_mem_cons.1 all
    simp only [toValues, Run.ends_bind, Run.ends_pure]
    refine (own h).mono (fun v h₁ first => ?_) fun _ _ => id
    exact (ih all h₁).mono (fun vs h₂ rest => .cons first rest) fun _ _ => id

structure EntriesDecoded (h h' : Heap) (es : List (Document × Document))
    (decoded : List (Value × Value)) : Prop where
  extended : h.Extends h'
  keysMadeIn : ∀ e ∈ decoded, e.1.MadeIn h h'
  same_iff : decoded.Pairwise fun e f => e.1.same f.1 = true ↔ e.1.IsOneScalar f.1
  keys : ∀ g, h'.Extends g → List.Forall₂ (Depicts g) (es.map (·.1)) (decoded.map (·.1))
  values : ∀ g, h'.Extends g → List.Forall₂ (Depicts g) (es.map (·.2)) (decoded.map (·.2))

theorem entriesDecoded_nil (h : Heap) : EntriesDecoded h h [] [] where
  extended := .refl h
  keysMadeIn := by simp
  same_iff := .nil
  keys _ _ := .nil
  values _ _ := .nil

theorem EntriesDecoded.cons {h₁ h₂ : Heap} {key value : Document} {k : Value}
    {decoded : List (Value × Value)} (first : Decoded h h₁ key k) (second : Decoded h₁ h₂ value v)
    (rest : EntriesDecoded h₂ h' es decoded) :
    EntriesDecoded h h' ((key, value) :: es) ((k, v) :: decoded) where
  extended := first.extended.trans (second.extended.trans rest.extended)
  keysMadeIn := by
    have onto := first.extended.trans second.extended
    refine List.forall_mem_cons.2 ⟨?_, fun e he => (rest.keysMadeIn e he).before onto.size_le⟩
    exact first.madeIn.later (second.extended.trans rest.extended).size_le
  same_iff := by
    refine List.pairwise_cons.2 ⟨fun e he => ?_, rest.same_iff⟩
    exact Value.same_iff_of_madeIn first.madeIn second.extended.size_le (rest.keysMadeIn e he)
  keys g later := by
    have after := second.extended.trans (rest.extended.trans later)
    exact .cons (first.depicts g after) (rest.keys g later)
  values g later := .cons (second.depicts g (rest.extended.trans later)) (rest.values g later)

theorem ends_toEntries (keys : ∀ e ∈ es, Decodes e.1) (values : ∀ e ∈ es, Decodes e.2) (h : Heap) :
    (toEntries es).Ends h (fun decoded h' => EntriesDecoded h h' es decoded)
      fun _ _ => False := by
  induction es generalizing h with
  | nil => exact entriesDecoded_nil h
  | cons e es ih =>
    obtain ⟨key, value⟩ := e
    obtain ⟨ownKey, keys⟩ := List.forall_mem_cons.1 keys
    obtain ⟨ownValue, values⟩ := List.forall_mem_cons.1 values
    simp only [toEntries, toEntry, Run.ends_bind, Run.ends_pure]
    refine (ownKey h).mono (fun k h₁ first => ?_) fun _ _ => id
    refine (ownValue h₁).mono (fun v h₂ second => ?_) fun _ _ => id
    exact (ih keys values h₂).mono (fun decoded h₃ rest => .cons first second rest) fun _ _ => id

theorem decodes_sequence (all : ∀ d ∈ ds, Decodes d) : Decodes (.sequence ds) := by
  intro h
  simp only [toValue, Run.newList, Run.ends_bind, Run.ends_pure, Run.ends_alloc]
  refine (ends_toValues all h).mono (fun vs h₁ decoded => ?_) fun _ _ => id
  have made := Heap.Extends.alloc h₁ (.items vs)
  have new : (Value.list .vector h₁.size).MadeIn h₁ (h₁.alloc (.items vs)).2 :=
    Value.madeIn_alloc _ rfl
  refine ⟨decoded.extended.trans made, new.before decoded.extended.size_le, fun g later => ?_⟩
  exact .sequence (decoded.items g (made.trans later)) (later.cell? (Heap.cell?_alloc h₁ _))

theorem decodes_mapping (keys : ∀ e ∈ es, Decodes e.1) (values : ∀ e ∈ es, Decodes e.2) :
    Decodes (.mapping es) := by
  intro h
  simp only [toValue, Run.newMap, Run.ends_bind, Run.ends_pure, Run.ends_alloc]
  refine (ends_toEntries keys values h).mono (fun decoded h₁ entries => ?_) fun _ _ => id
  have unsorted : TableShape.linked.definite ≠ .sorted := by decide
  rw [MapEntries.ofList_eq_merged unsorted]
  have made := Heap.Extends.alloc h₁ (.entries (MapEntries.merged decoded))
  have new : (Value.map .linked h₁.size).MadeIn h₁
      (h₁.alloc (.entries (MapEntries.merged decoded))).2 := Value.madeIn_alloc _ rfl
  refine ⟨entries.extended.trans made, new.before entries.extended.size_le, fun g later => ?_⟩
  have onto := made.trans later
  exact .mapping (entries.keys g onto) (entries.values g onto) entries.same_iff
    (later.cell? (Heap.cell?_alloc h₁ _))

theorem Plain.decodes (plain : Plain d) : Decodes d := by
  induction plain with
  | absent => exact fun h => decoded_scalar rfl fun g => .absent
  | unit => exact fun h => decoded_scalar rfl fun g => .unit
  | bool b => exact fun h => decoded_scalar rfl fun g => .bool b
  | number n => exact fun h => decoded_scalar rfl fun g => depicts_widened g n
  | char c => exact fun h => decoded_scalar rfl fun g => .char c
  | text s => exact fun h => decoded_scalar rfl fun g => .text s
  | present inner ih =>
    exact fun h => (ih h).mono
      (fun v h' own => ⟨own.extended, own.madeIn, fun g later => .present (own.depicts g later)⟩)
      fun _ _ => id
  | sequence items ih => exact decodes_sequence ih
  | mapping keys values ihKeys ihValues => exact decodes_mapping ihKeys ihValues

/-- A tree of scalars, sequences and mappings becomes a value of the same structure, and nothing
that was there is changed. -/
theorem depicts_of_plain (d : Document) (plain : Plain d) (h : Heap) :
    ∃ v h', d.toValue.on h = (.ok v, h') ∧ h.Extends h' ∧ Depicts h' d v := by
  have decodes := plain.decodes h
  rcases ran : d.toValue.on h with ⟨e | v, h'⟩
  · exact (decodes.of_error ran).elim
  · have decoded := decodes.of_ok ran
    exact ⟨v, h', rfl, decoded.extended, decoded.depicts h' (.refl h')⟩

def inventory : Document := .mapping
  [(.number (.int .u8 1 (by decide)), .text "old"),
    (.sequence [], .number (.int .u64 18446744073709551615 (by decide))),
    (.number (.int .i64 1 (by decide)), .present (.text "new")),
    (.number (.float .f64 (.nan false)), .bool true),
    (.sequence [], .absent),
    (.number (.float .f64 (.nan false)), .bool false)]

theorem plain_inventory : Plain inventory :=
  .mapping
    (by
      simp only [List.forall_mem_cons]
      exact ⟨.number _, .sequence (by simp), .number _, .number _, .sequence (by simp), .number _,
        by simp⟩)
    (by
      simp only [List.forall_mem_cons]
      exact ⟨.text _, .number _, .present (.text _), .bool _, .absent, .bool _, by simp⟩)

theorem depicts_of_plain_inventory :
    let one := Value.number (.int .i64 1 (by decide))
    let largest := Value.number (.int .u64 18446744073709551615 (by decide))
    let nan := Value.number (.float .f64 (.nan false))
    let heap : Heap := ⟨#[.items [], .items [], .entries
      [(one, .text "new"), (.list .vector 0, largest), (nan, .bool true), (.list .vector 1, .null),
        (nan, .bool false)]]⟩
    inventory.toValue.on .empty = (.ok (.map .linked 2), heap) ∧
      Depicts heap inventory (.map .linked 2) := by
  intro one largest nan heap
  have made : inventory.toValue.on .empty = (.ok (.map .linked 2), heap) := rfl
  obtain ⟨v, h', ran, -, depicts⟩ := depicts_of_plain inventory plain_inventory .empty
  cases made.symm.trans ran
  exact ⟨made, depicts⟩

end Document

end PropertyAccess
