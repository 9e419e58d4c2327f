import Mathlib.Data.List.Forall2
import PropertyAccess.Proofs.Graph.Extension
import PropertyAccess.Proofs.Graph.Table

/-! Graphs that are alike up to the names of locations. One of them has a counterpart in the
other for each of its locations, in the order in which they were made; the other may have
more. Operations are alike if alike graphs stay so and what comes out is alike, with
counterparts for the locations that were made on the way. -/

namespace PropertyAccess

/-- For each location of one graph its counterpart in another. -/
abbrev Names := List Loc

/-- Data that may hold locations, and when it is alike. -/
class Likened (α : Type) where
  Like : Names → α → α → Prop
  mono : ∀ {N N' : Names} {x y : α}, N <+: N' → Like N x y → Like N' x y

export Likened (Like)

variable {α β : Type} {N N' : Names}

@[reducible] def Likened.plain (α : Type) : Likened α := ⟨fun _ x y => x = y, fun _ h => h⟩

instance : Likened Unit := .plain _
instance : Likened Bool := .plain _
instance : Likened Nat := .plain _
instance : Likened String := .plain _

instance [Likened α] : Likened (List α) :=
  ⟨fun N => List.Forall₂ (Like N), fun later h => h.imp fun _ _ => Likened.mono later⟩

instance [Likened α] [Likened β] : Likened (α × β) :=
  ⟨fun N x y => Like N x.1 y.1 ∧ Like N x.2 y.2,
    fun later h => ⟨Likened.mono later h.1, Likened.mono later h.2⟩⟩

instance [Likened α] : Likened (Option α) :=
  ⟨fun N => Option.Rel (Like N), fun later h => by
    cases h with
    | some h => exact .some (Likened.mono later h)
    | none => exact .none⟩

/-- Outcomes that are alike: both results, or both failures. -/
inductive Except.Alike [Likened α] [Likened β] (N : Names) : Except α β → Except α β → Prop
  | ok {x y : β} (h : Like N x y) : Alike N (.ok x) (.ok y)
  | error {x y : α} (h : Like N x y) : Alike N (.error x) (.error y)

instance [Likened α] [Likened β] : Likened (Except α β) :=
  ⟨Except.Alike, fun later h => by
    cases h with
    | ok h => exact .ok (Likened.mono later h)
    | error h => exact .error (Likened.mono later h)⟩

theorem Names.getElem?_of_prefix (later : N <+: N') {l m : Loc} (h : N[l]? = some m) :
    N'[l]? = some m := by
  obtain ⟨new, rfl⟩ := later
  rw [List.getElem?_append_left (List.getElem?_eq_some_iff.1 h).1, h]

/-- The same scalar, or references of one kind to a location and its counterpart. -/
inductive Value.Alike (N : Names) : Value → Value → Prop
  | scalar {v : Value} (h : v.loc? = none) : Alike N v v
  | object {l m : Loc} (c : ClassId) (h : N[l]? = some m) :
      Alike N (.object ⟨c, l⟩) (.object ⟨c, m⟩)
  | array {l m : Loc} (elem : Ty) (h : N[l]? = some m) : Alike N (.array elem l) (.array elem m)
  | list {l m : Loc} (s : ListShape) (h : N[l]? = some m) : Alike N (.list s l) (.list s m)
  | set {l m : Loc} (s : TableShape) (h : N[l]? = some m) : Alike N (.set s l) (.set s m)
  | map {l m : Loc} (s : TableShape) (h : N[l]? = some m) : Alike N (.map s l) (.map s m)

instance : Likened Value :=
  ⟨Value.Alike, fun later h => by
    cases h with
    | scalar h => exact .scalar h
    | object c h => exact .object c (Names.getElem?_of_prefix later h)
    | array elem h => exact .array elem (Names.getElem?_of_prefix later h)
    | list s h => exact .list s (Names.getElem?_of_prefix later h)
    | set s h => exact .set s (Names.getElem?_of_prefix later h)
    | map s h => exact .map s (Names.getElem?_of_prefix later h)⟩

inductive Cell.Alike (N : Names) : Cell → Cell → Prop
  | slots {fields fields' : List (String × Value)} (h : Like N fields fields') :
      Alike N (.slots fields) (.slots fields')
  | items {vs ws : List Value} (h : Like N vs ws) : Alike N (.items vs) (.items ws)
  | entries {es fs : List (Value × Value)} (h : Like N es fs) :
      Alike N (.entries es) (.entries fs)

instance : Likened Cell :=
  ⟨Cell.Alike, fun later h => by
    cases h with
    | slots h => exact .slots (Likened.mono later h)
    | items h => exact .items (Likened.mono later h)
    | entries h => exact .entries (Likened.mono later h)⟩

namespace Names

/-- Counterparts are in the order of the locations. -/
abbrev Ordered (N : Names) : Prop := N.Pairwise (· < ·)

variable {l l' m m' : Loc}

theorem Ordered.lt_iff (hN : N.Ordered) (h : N[l]? = some m) (h' : N[l']? = some m') :
    m < m' ↔ l < l' := by
  obtain ⟨hl, rfl⟩ := List.getElem?_eq_some_iff.1 h
  obtain ⟨hl', rfl⟩ := List.getElem?_eq_some_iff.1 h'
  constructor
  · intro lt
    rcases Nat.lt_trichotomy l l' with before | rfl | after
    · exact before
    · exact absurd lt (Nat.lt_irrefl _)
    · exact absurd (Nat.lt_trans lt (List.pairwise_iff_getElem.1 hN l' l hl' hl after))
        (Nat.lt_irrefl _)
  · exact List.pairwise_iff_getElem.1 hN l l' hl hl'

theorem Ordered.inj (hN : N.Ordered) (h : N[l]? = some m) (h' : N[l']? = some m') :
    m = m' ↔ l = l' := by
  have before := hN.lt_iff h h'
  have after := hN.lt_iff h' h
  constructor
  · rintro rfl
    exact Nat.le_antisymm (Nat.not_lt.1 fun lt => Nat.lt_irrefl _ (after.2 lt))
      (Nat.not_lt.1 fun lt => Nat.lt_irrefl _ (before.2 lt))
  · rintro rfl
    exact Option.some.inj (h.symm.trans h')

theorem Ordered.compare (hN : N.Ordered) (h : N[l]? = some m) (h' : N[l']? = some m') :
    compare m m' = compare l l' := by
  simp only [Nat.compare_eq_ite_lt, hN.lt_iff h h', hN.lt_iff h' h]

end Names

namespace Value.Alike

variable {a a' b b' : Value}

theorem loc? (h : a.Alike N a') :
    a.loc? = none ∧ a'.loc? = none ∨
      ∃ l m, a.loc? = some l ∧ a'.loc? = some m ∧ N[l]? = some m := by
  cases h with
  | scalar h => exact .inl ⟨h, h⟩
  | object _ h | array _ h | list _ h | set _ h | map _ h => exact .inr ⟨_, _, rfl, rfl, h⟩

theorem isNull (h : a.Alike N a') : a'.isNull = a.isNull := by cases h <;> rfl

theorem isText (h : a.Alike N a') : a'.isText = a.isText := by cases h <;> rfl

theorem isPrimitive (h : a.Alike N a') : a'.isPrimitive = a.isPrimitive := by cases h <;> rfl

theorem runtimeType (h : a.Alike N a') : a'.runtimeType = a.runtimeType := by cases h <;> rfl

theorem same (hN : N.Ordered) (ha : a.Alike N a') (hb : b.Alike N b') :
    a'.same b' = a.same b := by
  cases ha with
  | scalar ha =>
    cases hb with
    | scalar => rfl
    | _ => cases a <;> first | rfl | cases ha
  | object _ ha | array _ ha | list _ ha | set _ ha | map _ ha =>
    cases hb with
    | scalar hb => cases b <;> first | rfl | cases hb
    | object _ hb | array _ hb | list _ hb | set _ hb | map _ hb =>
      first
      | rfl
      | simp [Value.same, hN.inj ha hb]

theorem order (hN : N.Ordered) (ha : a.Alike N a') (hb : b.Alike N b') :
    a'.order b' = a.order b := by
  cases ha with
  | scalar ha =>
    cases hb with
    | scalar => rfl
    | _ => cases a <;> first | rfl | cases ha
  | object _ ha | array _ ha | list _ ha | set _ ha | map _ ha =>
    cases hb with
    | scalar hb => cases b <;> first | rfl | cases hb
    | object _ hb | array _ hb | list _ hb | set _ hb | map _ hb =>
      first
      | rfl
      | simp [Value.order, Value.rank, Value.loc?, hN.compare ha hb]

end Value.Alike

/-! Lists that are alike element by element. -/

namespace Likened

variable [Likened α] {xs ys : List α} {x y : α}

theorem getElem? (h : Like N xs ys) (i : Nat) : Like N xs[i]? ys[i]? := by
  induction h generalizing i with
  | nil => exact .none
  | cons h _ ih =>
    cases i with
    | zero => exact .some h
    | succ i => exact ih i

theorem length (h : Like N xs ys) : ys.length = xs.length := h.length_eq.symm

theorem append {xs' ys' : List α} (h : Like N xs ys) (h' : Like N xs' ys') :
    Like N (xs ++ xs') (ys ++ ys') := by
  induction h with
  | nil => exact h'
  | cons h _ ih => exact .cons h ih

theorem set (h : Like N xs ys) (hx : Like N x y) (i : Nat) : Like N (xs.set i x) (ys.set i y) := by
  induction h generalizing i with
  | nil => exact .nil
  | cons h hs ih =>
    cases i with
    | zero => exact .cons hx hs
    | succ i => exact .cons h (ih i)

theorem insertIdx (h : Like N xs ys) (hx : Like N x y) (i : Nat) :
    Like N (xs.insertIdx i x) (ys.insertIdx i y) := by
  induction h generalizing i with
  | nil =>
    cases i with
    | zero => exact .cons hx .nil
    | succ i => exact .nil
  | cons h hs ih =>
    cases i with
    | zero => exact .cons hx (.cons h hs)
    | succ i => exact .cons h (ih i)

theorem map_eq {f g : α → β} (h : Like N xs ys) (hf : ∀ x y, Like N x y → g y = f x) :
    ys.map g = xs.map f := by
  induction h with
  | nil => rfl
  | cons h _ ih => rw [List.map_cons, List.map_cons, hf _ _ h, ih]

theorem mapM_eq {f g : α → Option β} (h : Like N xs ys) (hf : ∀ x y, Like N x y → g y = f x) :
    ys.mapM g = xs.mapM f := by
  induction h with
  | nil => rfl
  | cons h _ ih => rw [List.mapM_cons, List.mapM_cons, hf _ _ h, ih]

theorem any_eq {f g : α → Bool} (h : Like N xs ys) (hf : ∀ x y, Like N x y → g y = f x) :
    ys.any g = xs.any f := by
  induction h with
  | nil => rfl
  | cons h _ ih => rw [List.any_cons, List.any_cons, hf _ _ h, ih]

theorem find? {f g : α → Bool} (h : Like N xs ys) (hf : ∀ x y, Like N x y → g y = f x) :
    Like N (xs.find? f) (ys.find? g) := by
  induction h with
  | nil => exact .none
  | cons h _ ih =>
    rw [List.find?_cons, List.find?_cons, hf _ _ h]
    split
    · exact .some h
    · exact ih

end Likened

theorem bisectFrom_map (before : α → Bool) (xs : Array α) (base size : Nat) :
    bisectFrom before xs base size = bisectFrom id (xs.map before) base size := by
  fun_induction bisectFrom before xs base size with
  | case1 base size short x found here => rw [bisectFrom]; simp [short, found, here]
  | case2 base size short x found here => rw [bisectFrom]; simp [short, found, here]
  | case3 base size short missing => rw [bisectFrom]; simp [short, missing]
  | case4 base size long middle x found ih =>
    simp only [dite_eq_ite] at ih
    rw [ih]
    conv => rhs; rw [bisectFrom]
    simp [long, found, middle]
  | case5 base size long middle missing =>
    rw [bisectFrom]
    simp [long, missing, middle]

theorem bisect_map (before : α → Bool) (xs : List α) :
    bisect before xs = bisect id (xs.map before) := by
  rw [bisect, bisectFrom_map, bisect, List.map_toArray, List.length_map]

theorem bisect_of_alike [Likened α] {xs ys : List α} {f g : α → Bool} (h : Like N xs ys)
    (hf : ∀ x y, Like N x y → g y = f x) : bisect g ys = bisect f xs := by
  rw [bisect_map, Likened.map_eq h hf, ← bisect_map]

namespace SetItems

variable {items items' : List Value} {v w : Value}

theorem contains_of_alike (hN : N.Ordered) (hi : Like N items items') (hv : Like N v w) :
    contains items' w = contains items v :=
  Likened.any_eq hi fun _ _ h => Value.Alike.same hN h hv

theorem alike_insert (hN : N.Ordered) (shape : TableShape) (hi : Like N items items')
    (hv : Like N v w) : Like N (insert shape items v) (insert shape items' w) := by
  rw [insert, insert, contains_of_alike hN hi hv]
  split
  · exact hi
  · split
    · rw [bisect_of_alike hi fun x y h => by rw [Value.Alike.order hN h hv]]
      exact Likened.insertIdx hi hv _
    · exact Likened.append hi (.cons hv .nil)

theorem alike_ofList (hN : N.Ordered) (shape : TableShape) {vs ws : List Value}
    (hv : Like N vs ws) : Like N (ofList shape vs) (ofList shape ws) := by
  have onto : ∀ {items items' : List Value}, Like N items items' →
      Like N (vs.foldl (insert shape) items) (ws.foldl (insert shape) items') := by
    induction hv with
    | nil => exact fun hi => hi
    | cons hv _ ih => exact fun hi => ih (alike_insert hN shape hi hv)
  exact onto .nil

end SetItems

namespace MapEntries

variable {es fs : List (Value × Value)} {k k' v w : Value}

theorem alike_get? (hN : N.Ordered) (he : Like N es fs) (hk : Like N k k') :
    Like N (get? es k) (get? fs k') := by
  have found := Likened.find? (f := fun e => e.1.same k) (g := fun e => e.1.same k') he
    fun _ _ h => Value.Alike.same hN h.1 hk
  rw [get?, get?]
  revert found
  cases es.find? fun e => e.1.same k <;> cases fs.find? fun e => e.1.same k'
  all_goals intro found; cases found
  · exact .none
  · rename_i h
    exact .some h.2

theorem alike_replace (hN : N.Ordered) (he : Like N es fs) (hk : Like N k k')
    (hv : Like N v w) : Like N (replace k v es) (replace k' w fs) := by
  induction he with
  | nil => exact .nil
  | cons h hr ih =>
    rw [replace, replace, Value.Alike.same hN h.1 hk]
    split
    · exact .cons ⟨h.1, hv⟩ hr
    · exact .cons h ih

theorem alike_insert (hN : N.Ordered) (shape : TableShape) (he : Like N es fs)
    (hk : Like N k k') (hv : Like N v w) : Like N (insert shape es k v) (insert shape fs k' w) := by
  have contained : contains fs k' = contains es k :=
    Likened.any_eq he fun _ _ h => Value.Alike.same hN h.1 hk
  rw [insert, insert, contained]
  split
  · exact alike_replace hN he hk hv
  · split
    · rw [bisect_of_alike he fun x y h => by rw [Value.Alike.order hN h.1 hk]]
      exact Likened.insertIdx he ⟨hk, hv⟩ _
    · exact Likened.append he (.cons ⟨hk, hv⟩ .nil)

theorem alike_ofList (hN : N.Ordered) (shape : TableShape) (he : Like N es fs) :
    Like N (ofList shape es) (ofList shape fs) := by
  have onto : ∀ {entries entries' : List (Value × Value)}, Like N entries entries' →
      Like N (es.foldl (fun entries e => insert shape entries e.1 e.2) entries)
        (fs.foldl (fun entries e => insert shape entries e.1 e.2) entries') := by
    induction he with
    | nil => exact fun hi => hi
    | cons h _ ih => exact fun hi => ih (alike_insert hN shape hi h.1 h.2)
  exact onto .nil

end MapEntries

/-- Each location of `h` has a counterpart in `g` with alike contents. -/
structure Heap.Alike (N : Names) (h g : Heap) : Prop where
  length : N.length = h.size
  ordered : N.Ordered
  bound : ∀ m ∈ N, m < g.size
  cell : ∀ l m, N[l]? = some m → Like N (h.cell? l) (g.cell? m)

namespace Heap.Alike

variable {h g : Heap} {l m : Loc}

theorem lt_size (a : h.Alike N g) (hl : N[l]? = some m) : l < h.size ∧ m < g.size := by
  obtain ⟨lt, rfl⟩ := List.getElem?_eq_some_iff.1 hl
  exact ⟨a.length ▸ lt, a.bound _ (List.getElem_mem lt)⟩

theorem size_le (a : h.Alike N g) : h.size ≤ g.size := by
  have distinct : N.Nodup := a.ordered.imp Nat.ne_of_lt
  have inside : N ⊆ List.range g.size := fun m hm => List.mem_range.2 (a.bound m hm)
  simpa [a.length] using List.Nodup.length_le_of_subset distinct inside

theorem more {g' : Heap} (a : h.Alike N g) (x : g.Extends g') : h.Alike N g' :=
  ⟨a.length, a.ordered, fun m hm => Nat.lt_of_lt_of_le (a.bound m hm) x.size_le,
    fun l m hl => x.cell?_eq m (a.lt_size hl).2 ▸ a.cell l m hl⟩

theorem alloc (a : h.Alike N g) {c d : Cell} (hc : Like N c d) :
    (h.alloc c).2.Alike (N ++ [g.size]) (g.alloc d).2 := by
  have later : N <+: N ++ [g.size] := List.prefix_append _ _
  refine ⟨?_, ?_, fun m hm => ?_, fun l m hl => ?_⟩
  · simp [a.length]
  · refine List.pairwise_append.2 ⟨a.ordered, List.pairwise_singleton _ _, fun m hm m' hm' => ?_⟩
    rw [List.mem_singleton.1 hm']
    exact a.bound m hm
  · rw [size_alloc]
    rcases List.mem_append.1 hm with hm | hm
    · exact Nat.lt_succ_of_lt (a.bound m hm)
    · rw [List.mem_singleton.1 hm]
      exact Nat.lt_succ_self _
  · by_cases old : l < N.length
    · rw [List.getElem?_append_left old] at hl
      obtain ⟨hl', hm'⟩ := a.lt_size hl
      rw [cell?_alloc_of_lt c hl', cell?_alloc_of_lt d hm']
      exact Likened.mono later (a.cell l m hl)
    · rw [List.getElem?_append_right (Nat.not_lt.1 old)] at hl
      obtain ⟨here, rfl⟩ := List.getElem?_eq_some_iff.1 hl
      obtain rfl : l = h.size := by
        have first : l - N.length = 0 := Nat.lt_one_iff.1 here
        exact (Nat.le_antisymm (Nat.le_of_sub_eq_zero first) (Nat.not_lt.1 old)).trans a.length
      simp only [List.getElem_singleton]
      rw [show h.size = (h.alloc c).1 from rfl, show g.size = (g.alloc d).1 from rfl, cell?_alloc,
        cell?_alloc]
      exact .some (Likened.mono later hc)

theorem put (a : h.Alike N g) (hl : N[l]? = some m) {c d : Cell} (hc : Like N c d) :
    (h.put l c).Alike N (g.put m d) := by
  refine ⟨by rw [size_put, a.length], a.ordered, fun m hm => by rw [size_put]; exact a.bound m hm,
    fun l' m' hl' => ?_⟩
  obtain ⟨lt, lt'⟩ := a.lt_size hl
  by_cases same : l = l'
  · subst same
    obtain rfl := Option.some.inj (hl.symm.trans hl')
    rw [cell?_put_self lt, cell?_put_self lt']
    exact .some hc
  · have other : m ≠ m' := fun eq => same ((a.ordered.inj hl hl').1 eq)
    rw [cell?_put_of_ne c (Ne.symm same), cell?_put_of_ne d (Ne.symm other)]
    exact a.cell l' m' hl'

theorem items (a : h.Alike N g) (hl : N[l]? = some m) : Like N (h.items l) (g.items m) := by
  have cells := a.cell l m hl
  rw [Heap.items, Heap.items]
  revert cells
  cases h.cell? l <;> cases g.cell? m <;> intro cells <;> cases cells
  · exact .nil
  · rename_i c
    cases c with
    | items c => exact c
    | _ => exact .nil

theorem entries (a : h.Alike N g) (hl : N[l]? = some m) :
    Like N (h.entries l) (g.entries m) := by
  have cells := a.cell l m hl
  rw [Heap.entries, Heap.entries]
  revert cells
  cases h.cell? l <;> cases g.cell? m <;> intro cells <;> cases cells
  · exact .nil
  · rename_i c
    cases c with
    | entries c => exact c
    | _ => exact .nil

theorem slots (a : h.Alike N g) (hl : N[l]? = some m) : Like N (h.slots l) (g.slots m) := by
  have cells := a.cell l m hl
  rw [Heap.slots, Heap.slots]
  revert cells
  cases h.cell? l <;> cases g.cell? m <;> intro cells <;> cases cells
  · exact .nil
  · rename_i c
    cases c with
    | slots c => exact c
    | _ => exact .nil

variable {v w : Value}

theorem elements? (a : h.Alike N g) (hv : Like N v w) : Like N (h.elements? v) (g.elements? w) := by
  cases hv with
  | scalar hv => cases v <;> first | exact .none | cases hv
  | object => exact .none
  | map => exact .none
  | array _ hl | list _ hl | set _ hl => exact .some (a.items hl)

theorem slot? (a : h.Alike N g) (hl : N[l]? = some m) (index : Nat) :
    Like N (h.slot? l index) (g.slot? m index) := by
  have found := Likened.getElem? (a.slots hl) index
  rw [Heap.slot?, Heap.slot?]
  revert found
  cases (h.slots l)[index]? <;> cases (g.slots m)[index]? <;> intro found <;> cases found
  · exact .none
  · rename_i found
    exact .some found.2

def Both (N : Names) (after after' : Option Heap) : Prop :=
  Option.Rel (fun h g => h.Alike N g) after after'

theorem setSlot? (a : h.Alike N g) (hl : N[l]? = some m) (index : Nat) (hv : Like N v w) :
    Both N (h.setSlot? l index v) (g.setSlot? m index w) := by
  have slots := a.slots hl
  have found := Likened.getElem? slots index
  rw [Heap.setSlot?, Heap.setSlot?]
  revert found
  cases (h.slots l)[index]? <;> cases (g.slots m)[index]? <;> intro found <;> cases found
  · exact .none
  · rename_i f f' found
    obtain ⟨name, old⟩ := f
    obtain ⟨name', old'⟩ := f'
    obtain rfl : name = name' := found.1
    have changed : Like N (name, v) (name, w) := ⟨rfl, hv⟩
    exact .some (a.put hl (.slots (Likened.set slots changed index)))

theorem setItem? (a : h.Alike N g) (hl : N[l]? = some m) (index : Nat) (hv : Like N v w) :
    Both N (h.setItem? l index v) (g.setItem? m index w) := by
  have items := a.items hl
  rw [Heap.setItem?, Heap.setItem?, Likened.length items]
  split
  · exact .some (a.put hl (.items (Likened.set items hv index)))
  · exact .none

theorem editItems (a : h.Alike N g) (hl : N[l]? = some m) {f f' : List Value → List Value}
    (hf : ∀ vs ws, Like N vs ws → Like N (f vs) (f' ws)) :
    (h.editItems l f).Alike N (g.editItems m f') := by
  have cells := a.cell l m hl
  rw [Heap.editItems, Heap.editItems]
  revert cells
  cases h.cell? l <;> cases g.cell? m <;> intro cells <;> cases cells
  · exact a
  · rename_i c
    cases c with
    | items c => exact a.put hl (.items (hf _ _ c))
    | _ => exact a

theorem editEntries (a : h.Alike N g) (hl : N[l]? = some m)
    {f f' : List (Value × Value) → List (Value × Value)}
    (hf : ∀ es fs, Like N es fs → Like N (f es) (f' fs)) :
    (h.editEntries l f).Alike N (g.editEntries m f') := by
  have cells := a.cell l m hl
  rw [Heap.editEntries, Heap.editEntries]
  revert cells
  cases h.cell? l <;> cases g.cell? m <;> intro cells <;> cases cells
  · exact a
  · rename_i c
    cases c with
    | entries c => exact a.put hl (.entries (hf _ _ c))
    | _ => exact a

end Heap.Alike

/-! Operations on alike graphs. -/

namespace Run

variable {ε δ : Type} [Likened ε] [Likened δ] [Likened α] [Likened β]

/-- On alike graphs the operations have alike outcomes and leave alike graphs. -/
def Alike (N : Names) (r s : Run ε α) : Prop :=
  ∀ h g : Heap, h.Alike N g → ∃ N', N <+: N' ∧ (r.on h).2.Alike N' (s.on g).2 ∧
    Like N' (r.on h).1 (s.on g).1

namespace Alike

variable {r s : Run ε α}

theorem pure {x y : α} (h : Like N x y) : Alike N (Pure.pure x : Run ε α) (Pure.pure y) :=
  fun _ _ a => ⟨N, List.prefix_rfl, a, .ok h⟩

theorem throw {x y : ε} (h : Like N x y) :
    Alike N (MonadExcept.throw x : Run ε α) (MonadExcept.throw y) :=
  fun _ _ a => ⟨N, List.prefix_rfl, a, .error h⟩

theorem bind_gives {P : α → Prop} {f g : α → Run ε β} (hr : r.Alike N s) (hg : r.Gives P)
    (hf : ∀ N' x y, N <+: N' → Like N' x y → P x → (f x).Alike N' (g y)) :
    (r >>= f).Alike N (s >>= g) := by
  intro h k a
  obtain ⟨N', later, a', outcome⟩ := hr h k a
  have given := hg h
  unfold Ends at given
  rw [on_bind, on_bind]
  revert a' outcome given
  rcases r.on h with ⟨x, h'⟩
  rcases s.on k with ⟨y, k'⟩
  intro a' outcome given
  cases outcome with
  | ok result =>
    obtain ⟨N'', later', rest⟩ := hf N' _ _ later result given h' k' a'
    exact ⟨N'', later.trans later', rest⟩
  | error failure => exact ⟨N', later, a', .error failure⟩

theorem bind {f g : α → Run ε β} (hr : r.Alike N s)
    (hf : ∀ N' x y, N <+: N' → Like N' x y → (f x).Alike N' (g y)) :
    (r >>= f).Alike N (s >>= g) :=
  hr.bind_gives (.any r) fun N' x y later hx _ => hf N' x y later hx

theorem lookup {f f' : Heap → α} (hf : ∀ h g : Heap, h.Alike N g → Like N (f h) (f' g)) :
    Alike N (Run.lookup f : Run ε α) (Run.lookup f') :=
  fun h g a => ⟨N, List.prefix_rfl, a, .ok (hf h g a)⟩

theorem inspect {f f' : Heap → Except ε α}
    (hf : ∀ h g : Heap, h.Alike N g → Like N (f h) (f' g)) :
    Alike N (Run.inspect f) (Run.inspect f') :=
  fun h g a => ⟨N, List.prefix_rfl, a, hf h g a⟩

theorem update {f f' : Heap → Heap} (hf : ∀ h g : Heap, h.Alike N g → (f h).Alike N (f' g)) :
    Alike N (Run.update f : Run ε Unit) (Run.update f') :=
  fun h g a => ⟨N, List.prefix_rfl, hf h g a, .ok rfl⟩

theorem heap_bind {f f' : Heap → Run ε α}
    (hf : ∀ h g : Heap, h.Alike N g → ∃ N', N <+: N' ∧ ((f h).on h).2.Alike N' ((f' g).on g).2 ∧
      Like N' ((f h).on h).1 ((f' g).on g).1) :
    Alike N (Run.heap >>= f) (Run.heap >>= f') := hf

theorem outcome (hr : r.Alike N s) :
    Alike N (Run.outcome r : Run δ (Except ε α)) (Run.outcome s) := by
  intro h g a
  obtain ⟨N', later, a', result⟩ := hr h g a
  exact ⟨N', later, a', .ok result⟩

theorem mapError {f f' : ε → δ} (hr : r.Alike N s)
    (hf : ∀ N' e e', N <+: N' → Like N' e e' → Like N' (f e) (f' e')) :
    (Run.mapError f r).Alike N (Run.mapError f' s) := by
  intro h g a
  obtain ⟨N', later, a', result⟩ := hr h g a
  refine ⟨N', later, ?_⟩
  rw [on_mapError, on_mapError]
  refine ⟨a', ?_⟩
  revert result
  generalize (r.on h).1 = x, (s.on g).1 = y
  intro result
  cases result with
  | ok result => exact .ok result
  | error failure => exact .error (hf N' _ _ later failure)

theorem changed {f f' : Heap → Option Heap}
    (hf : ∀ h g : Heap, h.Alike N g → Heap.Alike.Both N (f h) (f' g)) {e e' : ε}
    (he : Like N e e') :
    Alike N
      (Run.lookup f >>= fun found => match found with
        | some after => (Run.update fun _ => after : Run ε Unit)
        | none => MonadExcept.throw e)
      (Run.lookup f' >>= fun found => match found with
        | some after => Run.update fun _ => after
        | none => MonadExcept.throw e') := by
  intro h g a
  have both := hf h g a
  rw [on_bind, on_bind]
  dsimp only [on, Run.lookup, ExceptT.run, StateT.run]
  revert both
  cases f h <;> cases f' g <;> intro both <;> cases both
  · exact ⟨N, List.prefix_rfl, a, .error he⟩
  · rename_i after
    exact ⟨N, List.prefix_rfl, after, .ok rfl⟩

theorem ite {c : Prop} [Decidable c] {r' s' : Run ε α} (hr : c → r.Alike N s)
    (hs : ¬ c → r'.Alike N s') : (if c then r else r').Alike N (if c then s else s') := by
  split
  · exact hr ‹_›
  · exact hs ‹_›

variable {vs ws : List Value}

theorem alloc {c d : Cell} (hc : Like N c d) {f f' : Loc → α}
    (hf : ∀ N' l m, N <+: N' → N'[l]? = some m → Like N' (f l) (f' m)) :
    Alike N (do return f (← Run.alloc c) : Run ε α) (do return f' (← Run.alloc d)) := by
  intro h g a
  have later : N <+: N ++ [g.size] := List.prefix_append _ _
  have made : (N ++ [g.size])[h.size]? = some g.size := by
    rw [← a.length]
    simp
  exact ⟨N ++ [g.size], later, a.alloc hc, .ok (hf _ _ _ later made)⟩

theorem newArray (elem : Ty) (hv : Like N vs ws) :
    Alike N (Run.newArray elem vs : Run ε Value) (Run.newArray elem ws) :=
  alloc (.items hv) fun _ _ _ _ h => Value.Alike.array elem h

theorem newList (shape : ListShape) (hv : Like N vs ws) :
    Alike N (Run.newList shape vs : Run ε Value) (Run.newList shape ws) :=
  alloc (.items hv) fun _ _ _ _ h => Value.Alike.list _ h

theorem newSet (shape : TableShape) (hv : Like N vs ws) :
    Alike N (Run.newSet shape vs : Run ε Value) (Run.newSet shape ws) := fun h g a =>
  alloc (.items (SetItems.alike_ofList a.ordered _ hv)) (fun _ _ _ _ h => Value.Alike.set _ h) h g a

theorem newMap (shape : TableShape) {es fs : List (Value × Value)} (he : Like N es fs) :
    Alike N (Run.newMap shape es : Run ε Value) (Run.newMap shape fs) := fun h g a =>
  alloc (.entries (MapEntries.alike_ofList a.ordered _ he))
    (fun _ _ _ _ h => Value.Alike.map _ h) h g a

end Alike

end Run

end PropertyAccess
