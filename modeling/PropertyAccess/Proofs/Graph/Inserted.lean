import PropertyAccess.Proofs.Graph.Ordering
import PropertyAccess.Proofs.Graph.Sequence

/-! What was put into sets and maps, one after the other. Among scalars other than floats the
same means equal and the order is transitive, so a sorted set is in order whenever something is
put into it, and the place is found where it is looked for. Equal in the order is not the same:
an `i32` and an `i64` with one value are two members, of which the later is put first. The keys
of a map are the set of the keys that were put in. -/

namespace PropertyAccess

namespace Value

variable {a b c : Value}

/-- Scalars other than floats. -/
def isExact : Value → Bool
  | .null | .bool _ | .char _ | .number (.int _ _ _) | .text _ | .enum _ _ => true
  | _ => false

theorem same_iff_of_isExact (exact : a.isExact = true) : a.same b = true ↔ a = b := by
  cases a with
  | number n =>
    cases n with
    | float => cases exact
    | int k x =>
      cases b with
      | number m => cases m <;> simp [same, Number.same]
      | _ => simp [same]
  | object | array | list | set | map => cases exact
  | _ => cases b <;> simp [same]

theorem order_trans_of_isExact (exact : b.isExact = true) (first : a.order b ≠ .gt)
    (last : b.order c ≠ .gt) : a.order c ≠ .gt := by
  rw [Ne, order_eq_gt_iff first last]
  rintro ⟨l, m, n, -, rfl, -, k, x, hx, f, z, -, -, -, -, rfl, -⟩
  cases exact

theorem order_ne_gt_iff : a.order b ≠ .gt ↔ b.order a ≠ .lt := by
  rw [order_swap a b]
  cases a.order b <;> decide

end Value

namespace SetItems

variable {shape : TableShape} {items vs : List Value} {v x : Value}

theorem ofList_concat (shape : TableShape) (vs : List Value) (v : Value) :
    ofList shape (vs ++ [v]) = insert shape (ofList shape vs) v := by
  simp [ofList]

theorem contains_iff_mem (exact : ∀ x ∈ items, x.isExact = true) :
    contains items v = true ↔ v ∈ items := by
  rw [contains, List.any_eq_true]
  constructor
  · rintro ⟨x, hx, same⟩
    rwa [← (Value.same_iff_of_isExact (exact x hx)).1 same]
  · intro there
    exact ⟨v, there, (Value.same_iff_of_isExact (exact v there)).2 rfl⟩

theorem mem_insert (exact : ∀ x ∈ items, x.isExact = true) :
    x ∈ insert shape items v ↔ x ∈ items ++ [v] := by
  cases there : contains items v with
  | false => exact (perm_insert shape there).mem_iff
  | true =>
    have present : v ∈ items := (contains_iff_mem exact).1 there
    rw [insert_of_contains there, List.mem_append, List.mem_singleton]
    exact ⟨.inl, fun h => h.elim id fun eq => eq ▸ present⟩

/-- What has been put in, one after the other, and the members of the set. -/
structure Reflects (shape : TableShape) (vs items : List Value) : Prop where
  mem_iff : ∀ v, v ∈ items ↔ v ∈ vs
  contains_iff : ∀ v, contains items v = true ↔ v ∈ vs
  distinct : items.Pairwise fun a b => a.same b = false
  firsts : shape ≠ .sorted → items = vs.eraseDups
  sorted : shape = .sorted → items.Pairwise fun a b => a.order b ≠ .gt

theorem reflects_nil (shape : TableShape) : Reflects shape [] [] where
  mem_iff v := Iff.rfl
  contains_iff v := by simp [contains]
  distinct := .nil
  firsts _ := List.eraseDups_nil.symm
  sorted _ := .nil

namespace Reflects

theorem exact (reflects : Reflects shape vs items) (exact : ∀ x ∈ vs, x.isExact = true) :
    ∀ x ∈ items, x.isExact = true :=
  fun x hx => exact x ((reflects.mem_iff x).1 hx)

theorem nodup (reflects : Reflects shape vs items) (exact : ∀ x ∈ items, x.isExact = true) :
    items.Nodup := by
  refine reflects.distinct.imp_of_mem fun {a b} ha _ other => ?_
  rintro rfl
  rw [(Value.same_iff_of_isExact (exact a ha)).2 rfl] at other
  cases other

theorem sorted_insert (reflects : Reflects .sorted vs items) (exact : ∀ x ∈ vs, x.isExact = true)
    (v : Value) : (insert .sorted items v).Pairwise fun a b => a.order b ≠ .gt := by
  cases there : contains items v with
  | true =>
    rw [insert_of_contains there]
    exact reflects.sorted rfl
  | false =>
    rw [insert, if_neg (by rw [there]; exact Bool.false_ne_true), if_pos rfl]
    refine pairwise_insertIdx_bisect (reflects.sorted rfl) (fun a ha b _ le less => ?_)
      (fun a _ less => by simp [beq_iff_eq.1 less]) fun b _ late => ?_
    · by_contra late
      have first : v.order a ≠ .gt := Value.order_ne_gt_iff.2 (by simpa using late)
      have last : v.order b ≠ .gt :=
        Value.order_trans_of_isExact (reflects.exact exact a ha) first le
      exact Value.order_ne_gt_iff.1 last (beq_iff_eq.1 less)
    · exact Value.order_ne_gt_iff.2 (by simpa using late)

theorem insert (reflects : Reflects shape vs items) (exact : ∀ x ∈ vs ++ [v], x.isExact = true) :
    Reflects shape (vs ++ [v]) (insert shape items v) := by
  have exactVs (x : Value) (hx : x ∈ vs) : x.isExact = true := exact x (List.mem_append_left _ hx)
  have exactItems := reflects.exact exactVs
  have mem (x : Value) : x ∈ SetItems.insert shape items v ↔ x ∈ vs ++ [v] := by
    rw [mem_insert exactItems, List.mem_append, List.mem_append, reflects.mem_iff]
  refine ⟨mem, fun x => ?_, distinct_insert reflects.distinct shape v, fun unsorted => ?_, ?_⟩
  · rw [contains_iff_mem fun x hx => exact x ((mem x).1 hx), mem]
  · rw [eraseDups_concat, ← reflects.firsts unsorted, SetItems.insert, if_neg unsorted]
    simp only [reflects.contains_iff]
  · rintro rfl
    exact reflects.sorted_insert exactVs v

end Reflects

theorem reflects_ofList (shape : TableShape) (exact : ∀ x ∈ vs, x.isExact = true) :
    Reflects shape vs (ofList shape vs) := by
  induction vs using List.reverseRecOn with
  | nil => exact reflects_nil shape
  | append_singleton vs v ih =>
    rw [ofList_concat]
    exact (ih fun x hx => exact x (List.mem_append_left _ hx)).insert exact

inductive After (shape : TableShape) : List Value → List Value → Prop
  | made (vs : List Value) : After shape vs (ofList shape.definite vs)
  | put {vs items : List Value} (earlier : After shape vs items) (v : Value) :
      After shape (vs ++ [v]) (put shape.definite items v).2

theorem After.reflects (after : After shape vs items) (exact : ∀ x ∈ vs, x.isExact = true) :
    Reflects shape.definite vs items := by
  induction after with
  | made vs => exact reflects_ofList shape.definite exact
  | put earlier v ih =>
    exact (ih fun x hx => exact x (List.mem_append_left _ hx)).insert exact

theorem Reflects.put_eq_false_iff (reflects : Reflects shape vs items) (v : Value) :
    (put shape items v).1 = false ↔ v ∈ vs := by
  rw [← reflects.contains_iff, put, Bool.not_eq_false']

end SetItems

namespace MapEntries

variable {shape : TableShape} {es entries : List (Value × Value)} {key k v : Value}

theorem get?_eq_lookup (exact : ∀ e ∈ entries, e.1.isExact = true) (key : Value) :
    get? entries key = entries.lookup key := by
  induction entries with
  | nil => rfl
  | cons e r ih =>
    have own : e.1.same key = (key == e.1) := by
      rw [Bool.eq_iff_iff, Value.same_iff_of_isExact (exact e List.mem_cons_self), beq_iff_eq]
      exact eq_comm
    have later := ih fun f hf => exact f (List.mem_cons_of_mem _ hf)
    rw [get?, List.find?_cons, own, List.lookup_cons]
    cases key == e.1 with
    | true => rfl
    | false => exact later

theorem lookup_replace (exact : ∀ e ∈ entries, e.1.isExact = true)
    (there : contains entries k = true) (v key : Value) :
    (replace k v entries).lookup key = ((k, v) :: entries).lookup key := by
  induction entries with
  | nil => cases there
  | cons e r ih =>
    obtain ⟨l, w⟩ := e
    have own : l.same k = true ↔ l = k := Value.same_iff_of_isExact (exact _ List.mem_cons_self)
    rw [replace]
    by_cases same : l.same k = true
    · rw [if_pos same, ← own.1 same]
      cases here : key == l <;> simp [List.lookup_cons, here]
    · have apart : l ≠ k := fun eq => same (own.2 eq)
      have later : contains r k = true := by simpa [contains, same] using there
      rw [if_neg same, List.lookup_cons, ih (fun f hf => exact f (List.mem_cons_of_mem _ hf)) later]
      simp only [List.lookup_cons]
      grind

theorem lookup_insert (exact : ∀ e ∈ entries, e.1.isExact = true)
    (nodup : ((insert shape entries k v).map (·.1)).Nodup) (key : Value) :
    (insert shape entries k v).lookup key = ((k, v) :: entries).lookup key := by
  cases there : contains entries k with
  | true =>
    rw [insert, if_pos there]
    exact lookup_replace exact there v key
  | false =>
    have perm : (insert shape entries k v).Perm ((k, v) :: entries) :=
      (perm_insert shape there v).trans (List.perm_append_singleton _ _)
    exact (lookup_eq_of_perm perm nodup key).symm

/-- The keys of a map are the set of the keys that were put in, and its values the last ones. -/
structure Reflects (shape : TableShape) (es entries : List (Value × Value)) : Prop where
  keys : SetItems.Reflects shape (es.map (·.1)) (entries.map (·.1))
  contains_iff : ∀ key, contains entries key = true ↔ key ∈ es.map (·.1)
  get?_eq : ∀ key, get? entries key = es.reverse.lookup key

theorem reflects_nil (shape : TableShape) : Reflects shape [] [] where
  keys := SetItems.reflects_nil shape
  contains_iff key := by simp [contains]
  get?_eq key := rfl

theorem exact_keys :
    (∀ e ∈ es, e.1.isExact = true) ↔ ∀ x ∈ es.map (·.1), x.isExact = true := by
  rw [List.forall_mem_map]

theorem Reflects.insert {e : Value × Value} (reflects : Reflects shape es entries)
    (exact : ∀ f ∈ es ++ [e], f.1.isExact = true) :
    Reflects shape (es ++ [e]) (insert shape entries e.1 e.2) := by
  have exactEs (f : Value × Value) (hf : f ∈ es) : f.1.isExact = true :=
    exact f (List.mem_append_left _ hf)
  have exactEntries := exact_keys.2 (reflects.keys.exact (exact_keys.1 exactEs))
  have keys : SetItems.Reflects shape ((es ++ [e]).map (·.1))
      ((MapEntries.insert shape entries e.1 e.2).map (·.1)) := by
    have exactKeys := exact_keys.1 exact
    rw [map_fst_insert]
    rw [List.map_append] at exactKeys ⊢
    exact reflects.keys.insert exactKeys
  have exactAfter := keys.exact (exact_keys.1 exact)
  refine ⟨keys, fun key => ?_, fun key => ?_⟩
  · rw [← contains_map_fst, keys.contains_iff]
  · rw [get?_eq_lookup (exact_keys.2 exactAfter),
      lookup_insert exactEntries (keys.nodup exactAfter), List.reverse_append, List.reverse_singleton,
      List.singleton_append, List.lookup_cons, List.lookup_cons, ← reflects.get?_eq,
      get?_eq_lookup exactEntries]

theorem reflects_ofList (shape : TableShape) (exact : ∀ e ∈ es, e.1.isExact = true) :
    Reflects shape es (ofList shape es) := by
  induction es using List.reverseRecOn with
  | nil => exact reflects_nil shape
  | append_singleton es e ih =>
    rw [ofList_concat]
    exact (ih fun f hf => exact f (List.mem_append_left _ hf)).insert exact

inductive After (shape : TableShape) : List (Value × Value) → List (Value × Value) → Prop
  | made (es : List (Value × Value)) : After shape es (ofList shape.definite es)
  | put {es entries : List (Value × Value)} (earlier : After shape es entries) (key value : Value) :
      After shape (es ++ [(key, value)]) (put shape.definite entries key value).2

theorem After.reflects (after : After shape es entries) (exact : ∀ e ∈ es, e.1.isExact = true) :
    Reflects shape.definite es entries := by
  induction after with
  | made es => exact reflects_ofList shape.definite exact
  | put earlier key value ih =>
    exact (ih fun f hf => exact f (List.mem_append_left _ hf)).insert exact

end MapEntries

/-- Sets and maps have what was put in, each once, in the order of their shape, and say what was
there before. -/
theorem tables_reflect (shape : TableShape) :
    (∀ vs items, SetItems.After shape vs items → (∀ v ∈ vs, v.isExact = true) →
      SetItems.Reflects shape.definite vs items ∧
        ∀ v, (SetItems.put shape.definite items v).1 = false ↔ v ∈ vs) ∧
    ∀ es entries, MapEntries.After shape es entries → (∀ e ∈ es, e.1.isExact = true) →
      MapEntries.Reflects shape.definite es entries ∧
        ∀ key value,
          (MapEntries.put shape.definite entries key value).1 = es.reverse.lookup key := by
  constructor
  · intro vs items after exact
    have reflects := after.reflects exact
    exact ⟨reflects, reflects.put_eq_false_iff⟩
  · intro es entries after exact
    have reflects := after.reflects exact
    exact ⟨reflects, fun key _ => reflects.get?_eq key⟩

theorem tables_reflect_sorted :
    let one := Value.number (.int .i32 1 (by decide))
    let long := Value.number (.int .i64 1 (by decide))
    let three := Value.number (.int .i32 3 (by decide))
    SetItems.Reflects .sorted [three, one, long, three] [long, one, three] ∧
      MapEntries.Reflects .sorted [(three, .null), (one, .null), (long, .null), (three, one)]
        [(long, .null), (one, .null), (three, one)] := by
  intro one long three
  have items : (SetItems.put .sorted
      (SetItems.put .sorted (SetItems.ofList .sorted [three, one]) long).2 three).2 =
      [long, one, three] := by
    decide +kernel
  have entries : (MapEntries.put .sorted (MapEntries.put .sorted
      (MapEntries.ofList .sorted [(three, .null), (one, .null)]) long .null).2 three one).2 =
      [(long, .null), (one, .null), (three, one)] := by
    decide +kernel
  rw [← items, ← entries]
  have sets := (tables_reflect .sorted).1 _ _ (.put (.put (.made [three, one]) long) three)
  have maps := (tables_reflect .sorted).2 _ _
    (.put (.put (.made [(three, .null), (one, .null)]) long .null) three one)
  exact ⟨(sets (by decide)).1, (maps (by decide)).1⟩

end PropertyAccess
