import Mathlib.Data.List.Forall2
import PropertyAccess.Proofs.Schema.Coherent

/-! Additions to a graph. Nothing that a graph has is taken from it: null gives way to a
value, a list gets more elements, a map more entries, and an array may be replaced by a
longer one that begins with its elements. This compares two graphs from end to end, so it
does not matter what came in between. -/

namespace PropertyAccess

namespace MapEntries

variable {entries : List (Value × Value)} {key other : Value} {i j : Nat} {e : Value × Value}

theorem find?_insertIdx (value : Value) (apart : key.same other = false)
    (inside : j ≤ entries.length) :
    (entries.insertIdx j (key, value)).find? (·.1.same other) =
      entries.find? (·.1.same other) := by
  induction entries generalizing j with
  | nil =>
    obtain rfl : j = 0 := Nat.le_zero.1 inside
    simp [apart]
  | cons f r ih =>
    cases j with
    | zero => simp [apart]
    | succ j => simp [List.find?_cons, ih (Nat.le_of_succ_le_succ inside)]

theorem Put.findIdx?_of_found {value : Value} {after : List (Value × Value)}
    (hp : Put key value entries after) (absent : contains entries key = false)
    (found : entries.findIdx? (·.1.same other) = some i) (he : entries[i]? = some e) :
    ∃ k, after.findIdx? (·.1.same other) = some k ∧ after[k]? = some e := by
  have first : entries.find? (·.1.same other) = some e := by
    rw [List.find?_eq_bind_findIdx?_getElem?, found]
    exact he
  cases hp with
  | replaced there => rw [contains_of_findIdx? there] at absent; cases absent
  | @added j _ inside =>
    have apart : key.same other = false := by
      by_contra same
      have here : e.1.same other = true := by simpa using List.find?_some first
      have both := Value.same_of_same here (by simpa using same)
      rw [contains, List.any_eq_false] at absent
      exact absent e (List.mem_of_find?_eq_some first) both
    rw [← find?_insertIdx value apart inside,
      List.find?_eq_bind_findIdx?_getElem?] at first
    obtain ⟨k, hk, there⟩ := Option.bind_eq_some_iff.1 first
    exact ⟨k, hk, there⟩

/-- An entry that was put in is the one that is found, and may get another value. -/
theorem modify_insertIdx {v w : Value} (absent : contains entries key = false)
    (inside : i ≤ entries.length)
    (found : (entries.insertIdx i (key, w)).findIdx? (·.1.same key) = some j) :
    ((entries.insertIdx i (key, w)).modify j fun e => (e.1, v)) =
      entries.insertIdx i (key, v) := by
  induction entries generalizing i j with
  | nil =>
    obtain rfl : i = 0 := Nat.le_zero.1 inside
    rw [List.insertIdx_zero, List.findIdx?_cons] at found
    split at found
    · exact Option.some.inj found ▸ rfl
    · cases found
  | cons e r ih =>
    have none_found : (e :: r).findIdx? (·.1.same key) = none := by
      rwa [contains, ← List.findIdx?_isSome, Option.isSome_eq_false_iff, Option.isNone_iff_eq_none]
        at absent
    rw [contains, List.any_cons, Bool.or_eq_false_iff] at absent
    cases i with
    | zero =>
      rw [List.insertIdx_zero, List.findIdx?_cons] at found
      split at found
      · exact Option.some.inj found ▸ rfl
      · rw [none_found] at found
        cases found
    | succ i =>
      rw [List.insertIdx_succ_cons, List.findIdx?_cons, if_neg (by simp [absent.1])] at found
      obtain ⟨k, here, rfl⟩ := Option.map_eq_some_iff.1 found
      exact congrArg (e :: ·) (ih absent.2 (Nat.le_of_succ_le_succ inside) here)

theorem modify_insert {shape : TableShape} {v w : Value} (absent : contains entries key = false)
    (found : (insert shape entries key w).findIdx? (·.1.same key) = some j) :
    ((insert shape entries key w).modify j fun e => (e.1, v)) = insert shape entries key v := by
  simp only [insert, absent, Bool.false_eq_true, if_false] at found ⊢
  by_cases sorted : shape = .sorted
  · simp only [sorted, if_true] at found ⊢
    exact modify_insertIdx absent (bisect_le _ entries) found
  · simp only [sorted, if_false, ← List.insertIdx_length_self] at found ⊢
    exact modify_insertIdx absent (Nat.le_refl _) found

end MapEntries

namespace Heap

/-- What a value that is stored in `h` may have become in `h'`, where it was stored. -/
inductive Becomes (h h' : Heap) : Value → Value → Prop
  | same (v : Value) : Becomes h h' v v
  | made {v : Value} (there : v.isNull = false) : Becomes h h' .null v
  | grown {elem : Ty} {l t : Loc} {news : List Value} (new : h.size ≤ t) (longer : news ≠ [])
      (items : h'.items t = h.items l ++ news) : Becomes h h' (.array elem l) (.array elem t)

end Heap

/-- What a cell of `h` for references of a type may have become in `h'`. -/
inductive Cell.Gains (h h' : Heap) : Ty → Cell → Cell → Prop
  | slots {c : ClassId} {fields after : List (String × Value)}
      (each : List.Forall₂ (fun f g => f.1 = g.1 ∧ h.Becomes h' f.2 g.2) fields after) :
      Gains h h' (.object c) (.slots fields) (.slots after)
  | array {elem : Ty} {values after : List Value}
      (each : List.Forall₂ (h.Becomes h') values after) :
      Gains h h' (.array elem) (.items values) (.items after)
  | list {s : ListShape} {elem : Ty} {values after : List Value} (more : List Value)
      (each : List.Forall₂ (h.Becomes h') values after) :
      Gains h h' (.list s elem) (.items values) (.items (after ++ more))
  | set {s : TableShape} {elem : Ty} (values : List Value) :
      Gains h h' (.set s elem) (.items values) (.items values)
  | map {s : TableShape} {k v : Ty} {pairs after : List (Value × Value)}
      (each : List.SublistForall₂ (fun e f => e.1 = f.1 ∧ h.Becomes h' e.2 f.2) pairs after)
      (found : ∀ key x, MapEntries.get? pairs key = some x →
        ∃ y, MapEntries.get? after key = some y ∧ h.Becomes h' x y) :
      Gains h h' (.map s k v) (.entries pairs) (.entries after)

/-- Nothing has happened to the graph `h` but additions. -/
def Heap.Adds (Θ : Labels) (h h' : Heap) : Prop :=
  ∀ l t c, Θ[l]? = some t → h.cell? l = some c → ∃ c', h'.cell? l = some c' ∧ c.Gains h h' t c'

/-- A value that no addition replaces. -/
def Value.Lasting (v : Value) : Prop := v.isNull = false ∧ ∀ elem l, v ≠ .array elem l

/-- What is stored in `h` and is neither null nor an array is stored there in `h'`. -/
structure Heap.Keeps (h h' : Heap) : Prop where
  slot : ∀ l i (v : Value), v.Lasting → h.slot? l i = some v → h'.slot? l i = some v
  item : ∀ l (i : Nat) (v : Value), v.Lasting → (h.items l)[i]? = some v → (h'.items l)[i]? = some v
  entry : ∀ l k (v : Value), v.Lasting → MapEntries.get? (h.entries l) k = some v →
    MapEntries.get? (h'.entries l) k = some v

variable {h h' h'' : Heap} {Θ : Labels} {l : Loc} {t : Ty} {c : Cell}

namespace Cell

section Lists

variable {α : Type} {R : α → α → Prop} {xs ys : List α} {i : Nat}

theorem forall₂_modify (refl : ∀ x, R x x) {f : α → α} (change : ∀ x, xs[i]? = some x → R x (f x)) :
    List.Forall₂ R xs (xs.modify i f) := by
  induction xs generalizing i with
  | nil => simp
  | cons x xs ih =>
    cases i with
    | zero => exact .cons (change x rfl) (List.forall₂_same.2 fun y _ => refl y)
    | succ i => exact .cons (refl x) (ih fun y hy => change y hy)

theorem exists_of_forall₂ (each : List.Forall₂ R xs ys) {x : α} (hx : xs[i]? = some x) :
    ∃ y, ys[i]? = some y ∧ R x y := by
  obtain ⟨inside, rfl⟩ := List.getElem?_eq_some_iff.1 hx
  have inside' : i < ys.length := each.length_eq ▸ inside
  exact ⟨ys[i], List.getElem?_eq_getElem inside', each.get inside inside'⟩

end Lists

theorem Gains.refl (suits : c.Suits Θ t) : c.Gains h h' t c := by
  cases t <;> cases c <;> first | exact suits.elim | skip
  · exact .slots (List.forall₂_same.2 fun f _ => ⟨rfl, .same _⟩)
  · exact .array (List.forall₂_same.2 fun v _ => .same v)
  · rename_i values
    have each : List.Forall₂ (h.Becomes h') values values :=
      List.forall₂_same.2 fun v _ => .same v
    simpa using Gains.list [] each
  · exact .set _
  · exact .map (List.sublistForall₂_iff.2 ⟨_, List.forall₂_same.2 fun e _ => ⟨rfl, .same _⟩,
      .refl _⟩) fun _ x hx => ⟨x, hx, .same x⟩

/-- One value of the cell becomes another. -/
theorem Gains.edit (suits : c.Suits Θ t) (notSet : ∀ s elem, t ≠ .set s elem) {i : Nat} {w : Value}
    (becomes : ∀ v, c.at? i = some v → h.Becomes h' v w) : c.Gains h h' t (c.edit i w) := by
  cases c with
  | slots fields =>
    cases t <;> first | exact suits.elim | skip
    exact .slots (forall₂_modify (fun f => ⟨rfl, .same _⟩) fun f hf =>
      ⟨rfl, becomes f.2 (by simp [Cell.at?, hf])⟩)
  | items values =>
    have each : List.Forall₂ (h.Becomes h') values (values.set i w) := by
      rw [List.set_eq_modify]
      exact forall₂_modify .same fun v hv => becomes v hv
    cases t <;> first | exact suits.elim | skip
    · exact .array each
    · simpa [Cell.edit] using Gains.list [] each
    · exact absurd rfl (notSet _ _)
  | entries pairs =>
    cases t <;> first | exact suits.elim | skip
    have becomes {e : Value × Value} (he : pairs[i]? = some e) : h.Becomes h' e.2 w :=
      becomes e.2 (by simp [Cell.at?, he])
    have each : List.Forall₂ (fun e f => e.1 = f.1 ∧ h.Becomes h' e.2 f.2) pairs
        (pairs.modify i fun e => (e.1, w)) :=
      forall₂_modify (fun e => ⟨rfl, .same _⟩) fun e he => ⟨rfl, becomes he⟩
    refine .map (List.sublistForall₂_iff.2 ⟨_, each, .refl _⟩) fun key x hx => ?_
    obtain ⟨j, e, found, he, rfl⟩ := MapEntries.findIdx?_of_get? hx
    rw [← MapEntries.findIdx?_modify i w] at found
    by_cases same : i = j
    · subst same
      have there : (pairs.modify i fun e => (e.1, w))[i]? = some (e.1, w) := by
        rw [List.getElem?_modify_eq, he]
        rfl
      exact ⟨w, MapEntries.get?_of_findIdx? found there, becomes he⟩
    · have there : (pairs.modify i fun e => (e.1, w))[j]? = some e := by
        rw [List.getElem?_modify_ne _ _ same, he]
      exact ⟨e.2, MapEntries.get?_of_findIdx? found there, .same _⟩

theorem Gains.append {s : ListShape} {elem : Ty} (suits : c.Suits Θ (.list s elem))
    (news : List Value) : c.Gains h h' (.list s elem) (c.mapItems (· ++ news)) := by
  cases c with
  | items values => exact .list news (List.forall₂_same.2 fun v _ => .same v)
  | _ => exact suits.elim

theorem Gains.insert {s shape : TableShape} {k v : Ty} (suits : c.Suits Θ (.map s k v))
    {key value : Value} (absent : ∀ pairs, c = .entries pairs →
      MapEntries.contains pairs key = false) :
    c.Gains h h' (.map s k v) (c.mapEntries (MapEntries.insert shape · key value)) := by
  cases c with
  | entries pairs =>
    have absent := absent pairs rfl
    have put := MapEntries.put_insert shape pairs key value
    refine .map (List.sublistForall₂_iff.2 ⟨pairs,
      List.forall₂_same.2 fun e _ => ⟨rfl, .same _⟩, ?_⟩) fun other x hx => ?_
    · dsimp only
      generalize MapEntries.insert shape pairs key value = after at put
      cases put with
      | replaced there => rw [MapEntries.contains_of_findIdx? there] at absent; cases absent
      | added => exact List.sublist_insertIdx _ _ _
    · obtain ⟨j, e, found, he, rfl⟩ := MapEntries.findIdx?_of_get? hx
      obtain ⟨i, found, he⟩ := put.findIdx?_of_found absent found he
      exact ⟨e.2, MapEntries.get?_of_findIdx? found he, .same _⟩
  | _ => exact suits.elim

end Cell

namespace Heap

theorem Becomes.eq_of_lasting {v w : Value} (becomes : h.Becomes h' v w) (lasting : v.Lasting) :
    w = v := by
  cases becomes with
  | same => rfl
  | made => exact absurd lasting.1 (by simp [Value.isNull])
  | grown => exact absurd rfl (lasting.2 _ _)

namespace Adds

theorem of_changesOnly (hc : h.Coherent Θ) {f : Cell → Cell} (changes : h.ChangesOnly h' l f)
    (gains : ∀ t c, Θ[l]? = some t → h.cell? l = some c → c.Suits Θ t → c.Gains h h' t (f c)) :
    h.Adds Θ h' := by
  intro m t c label cell
  obtain ⟨d, hd, suits⟩ := hc.cell m t label
  obtain rfl := Option.some.inj (hd.symm.trans cell)
  have now := changes.cell?_eq m (lt_size_of_cell? cell)
  split at now
  · rename_i same
    subst same
    exact ⟨f d, by rw [now, cell]; rfl, gains t d label cell suits⟩
  · exact ⟨d, by rw [now, cell], .refl suits⟩

theorem of_extends (hc : h.Coherent Θ) (hx : h.Extends h') : h.Adds Θ h' := by
  intro m t c label cell
  obtain ⟨d, hd, suits⟩ := hc.cell m t label
  obtain rfl := Option.some.inj (hd.symm.trans cell)
  exact ⟨d, hx.cell? cell, .refl suits⟩

theorem edit (hc : h.Coherent Θ) {s : Spot} {v w : Value} (there : h.at? s = some v)
    (notSet : ∀ shape elem, Θ[s.1]? ≠ some (.set shape elem)) (becomes : h.Becomes h' v w)
    (changes : h.ChangesOnly h' s.1 (Cell.edit s.2 w)) : h.Adds Θ h' := by
  refine .of_changesOnly hc changes fun t c label cell suits => ?_
  refine .edit suits (fun shape elem same => notSet shape elem (same ▸ label)) fun x hx => ?_
  have here : h.at? s = some x := by
    rw [at?, cell]
    exact hx
  exact Option.some.inj (there.symm.trans here) ▸ becomes

theorem append (hc : h.Coherent Θ) {s : ListShape} (label : (Value.list s l).Labelled Θ)
    {news : List Value} (changes : h.ChangesOnly h' l (Cell.mapItems (· ++ news))) :
    h.Adds Θ h' := by
  refine .of_changesOnly hc changes fun t c there _ suits => ?_
  obtain rfl := Option.some.inj (there.symm.trans (label l rfl))
  exact .append suits news

theorem insert (hc : h.Coherent Θ) {s shape : TableShape} (label : (Value.map s l).Labelled Θ)
    {key value : Value} (absent : MapEntries.contains (h.entries l) key = false)
    (changes : h.ChangesOnly h' l (Cell.mapEntries (MapEntries.insert shape · key value))) :
    h.Adds Θ h' := by
  refine .of_changesOnly hc changes fun t c there cell suits => ?_
  obtain rfl := Option.some.inj (there.symm.trans (label l rfl))
  refine .insert suits fun pairs same => ?_
  subst same
  simpa [entries, cell] using absent

theorem trans_extends (adds : h.Adds Θ h') (hx : h'.Extends h'') : h.Adds Θ h'' := by
  have becomes {v w : Value} (hb : h.Becomes h' v w) : h.Becomes h'' v w := by
    cases hb with
    | same v => exact .same v
    | made there => exact .made there
    | @grown elem l t news new longer items =>
      have cell : t < h'.size := by
        obtain ⟨x, hx⟩ := List.exists_mem_of_ne_nil news longer
        exact lt_size_of_cell? (cell?_of_mem_items (items ▸ List.mem_append_right _ hx))
      exact .grown new longer (by rw [hx.items_eq cell, items])
  intro l t c label cell
  obtain ⟨c', cell', gains⟩ := adds l t c label cell
  refine ⟨c', hx.cell? cell', ?_⟩
  cases gains with
  | slots each => exact .slots (each.imp fun _ _ hf => ⟨hf.1, becomes hf.2⟩)
  | array each => exact .array (each.imp fun _ _ => becomes)
  | list more each => exact .list more (each.imp fun _ _ => becomes)
  | set values => exact .set values
  | map each found =>
    refine .map ?_ fun key x hx => ?_
    · obtain ⟨part, each, sub⟩ := List.sublistForall₂_iff.1 each
      exact List.sublistForall₂_iff.2 ⟨part, each.imp fun _ _ he => ⟨he.1, becomes he.2⟩, sub⟩
    · obtain ⟨y, hy, hb⟩ := found key x hx
      exact ⟨y, hy, becomes hb⟩

/-- Nothing but null and arrays is replaced. -/
theorem keeps (hc : h.Coherent Θ) (adds : h.Adds Θ h') : h.Keeps h' := by
  have gained {l : Loc} {c : Cell} (cell : h.cell? l = some c) :
      ∃ t c', h'.cell? l = some c' ∧ c.Gains h h' t c' := by
    have inside : l < Θ.length := hc.length ▸ lt_size_of_cell? cell
    obtain ⟨c', cell', gains⟩ := adds l _ c (List.getElem?_eq_getElem inside) cell
    exact ⟨_, c', cell', gains⟩
  refine ⟨fun l i v lasting there => ?_, fun l i v lasting there => ?_,
    fun l k v lasting there => ?_⟩
  · obtain ⟨t, c', cell', gains⟩ := gained (cell?_of_slot? there)
    obtain ⟨f, hf, rfl⟩ := Option.map_eq_some_iff.1 there
    generalize h.slots l = fields at gains hf
    cases gains with
    | slots each =>
      obtain ⟨g, hg, -, becomes⟩ := Cell.exists_of_forall₂ each hf
      simp [slot?, slots, cell', hg, becomes.eq_of_lasting lasting]
  · obtain ⟨t, c', cell', gains⟩ := gained (cell?_of_item there)
    generalize h.items l = values at gains there
    cases gains with
    | array each =>
      obtain ⟨w, hw, becomes⟩ := Cell.exists_of_forall₂ each there
      simp [items, cell', hw, becomes.eq_of_lasting lasting]
    | list more each =>
      obtain ⟨w, hw, becomes⟩ := Cell.exists_of_forall₂ each there
      have inside := (List.getElem?_eq_some_iff.1 hw).1
      simp [items, cell', List.getElem?_append_left inside, hw, becomes.eq_of_lasting lasting]
    | set => simp [items, cell', there]
  · obtain ⟨i, e, found, he, rfl⟩ := MapEntries.findIdx?_of_get? there
    obtain ⟨t, c', cell', gains⟩ := gained (cell?_of_entry he)
    generalize h.entries l = pairs at gains there
    cases gains with
    | map each kept =>
      obtain ⟨w, hw, becomes⟩ := kept k _ there
      simp [entries, cell', hw, becomes.eq_of_lasting lasting]

end Adds

end Heap

end PropertyAccess
