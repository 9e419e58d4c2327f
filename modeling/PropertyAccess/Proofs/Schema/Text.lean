import PropertyAccess.Proofs.Graph.Extension
import PropertyAccess.Schema.Text

/-! Which values have a text. The text of a container is made of the texts of what it holds, so
there is one unless a container that is met on the way down holds itself. Along a way down
without such a container no location is met twice, and so the way is no longer than the heap
is large; at a greater depth the texts do not change. -/

namespace PropertyAccess

namespace Heap

def pairs (h : Heap) : Value → List (Value × Value)
  | .map _ l => h.entries l
  | _ => []

def contents (h : Heap) (v : Value) : List Value :=
  (h.elements? v).getD [] ++ (h.pairs v).flatMap fun e => [e.1, e.2]

/-- The second value is the first one, or is held somewhere in it. -/
inductive Within (h : Heap) : Value → Value → Prop
  | self (v : Value) : h.Within v v
  | inside {v x y : Value} (held : x ∈ h.contents v) (rest : h.Within x y) : h.Within v y

def HoldsItself (h : Heap) (v : Value) : Prop := ∃ x ∈ h.contents v, h.Within x v

def Nests (h : Heap) : Nat → Value → Prop
  | 0, _ => True
  | depth + 1, v => ∃ x ∈ h.contents v, h.Nests depth x

variable {h : Heap} {u v w x : Value} {l : Loc}

theorem Within.trans (inner : h.Within u v) (rest : h.Within v w) : h.Within u w := by
  induction inner with
  | self => exact rest
  | inside held _ ih => exact .inside held (ih rest)

theorem mem_contents_map {s : TableShape} :
    x ∈ h.contents (.map s l) ↔ ∃ e ∈ h.entries l, x = e.1 ∨ x = e.2 := by
  simp [contents, elements?, pairs]

theorem exists_of_mem_contents (hx : x ∈ h.contents v) : ∃ l < h.size, Schema.containerOf? v = some l := by
  have located {l : Loc} {c : Cell} (hc : h.cell? l = some c) : l < h.size := lt_size_of_cell? hc
  cases v with
  | array e l | list s l | set s l =>
    refine ⟨l, ?_, rfl⟩
    cases hc : h.cell? l with
    | none => simp [contents, elements?, items, pairs, hc] at hx
    | some c => exact located hc
  | map s l =>
    refine ⟨l, ?_, rfl⟩
    cases hc : h.cell? l with
    | none => simp [contents, elements?, entries, pairs, hc] at hx
    | some c => exact located hc
  | _ => simp [contents, elements?, pairs] at hx

theorem mem_contents_of_location (hu : Schema.containerOf? u = some l)
    (hv : Schema.containerOf? v = some l) {y : Value}
    (hx : x ∈ h.contents u) (hy : y ∈ h.contents v) : y ∈ h.contents u := by
  cases hc : h.cell? l with
  | none =>
    have small := exists_of_mem_contents hx
    rw [hu] at small
    obtain ⟨m, inside, same⟩ := small
    cases same
    rw [cell?, Array.getElem?_eq_none_iff] at hc
    exact absurd inside (Nat.not_lt.2 hc)
  | some c =>
    cases u <;> cases hu <;> cases v <;> cases hv <;> cases c <;>
      simp_all [contents, elements?, items, entries, pairs]

theorem nests_of_within (inside : h.Within v w) (itself : h.HoldsItself w) (depth : Nat) :
    h.Nests depth v := by
  induction depth generalizing v with
  | zero => trivial
  | succ depth ih =>
    cases inside with
    | self =>
      obtain ⟨x, held, back⟩ := itself
      exact ⟨x, held, ih back⟩
    | inside held rest => exact ⟨_, held, ih rest⟩

theorem Nests.add_length_le {depth : Nat} {around : List Loc} (deep : h.Nests depth v)
    (sound : ∀ w, h.Within v w → ¬ h.HoldsItself w) (distinct : around.Nodup)
    (inside : ∀ l ∈ around, l < h.size)
    (holds : ∀ l ∈ around, ∃ w, Schema.containerOf? w = some l ∧ ∃ x ∈ h.contents w, h.Within x v) :
    depth + around.length ≤ h.size := by
  induction depth generalizing v around with
  | zero =>
    simpa using List.Nodup.length_le_of_subset distinct fun l hl => List.mem_range.2 (inside l hl)
  | succ depth ih =>
    obtain ⟨x, held, deeper⟩ := deep
    obtain ⟨l, there, loc⟩ := exists_of_mem_contents held
    have anew : l ∉ around := by
      intro before
      obtain ⟨w, same, y, hy, back⟩ := holds l before
      exact sound v (.self v) ⟨y, mem_contents_of_location loc same held hy, back⟩
    have more := ih deeper (fun w below => sound w (.inside held below))
      (List.nodup_cons.2 ⟨anew, distinct⟩) (List.forall_mem_cons.2 ⟨there, inside⟩)
      (List.forall_mem_cons.2 ⟨⟨v, loc, x, held, .self x⟩, fun m hm => by
        obtain ⟨w, same, y, hy, back⟩ := holds m hm
        exact ⟨w, same, y, hy, back.trans (.inside held (.self x))⟩⟩)
    rw [List.length_cons] at more
    omega

theorem nests_iff {depth : Nat} (large : h.size < depth) :
    h.Nests depth v ↔ ∃ w, h.Within v w ∧ h.HoldsItself w := by
  constructor
  · intro deep
    refine Classical.byContradiction fun sound => ?_
    have short := deep.add_length_le (fun w below itself => sound ⟨w, below, itself⟩) .nil
      (by simp) (by simp)
    exact absurd short (Nat.not_le.2 large)
  · rintro ⟨w, below, itself⟩
    exact nests_of_within below itself depth

end Heap

namespace Schema

variable {σ : Schema} {h : Heap} {v : Value} {inner inner' : Value → Option String}

theorem mapM_eq_none_iff {α β : Type} {f : α → Option β} {l : List α} :
    l.mapM f = none ↔ ∃ x ∈ l, f x = none := by
  induction l with
  | nil => simp
  | cons x r ih =>
    rw [List.mapM_cons]
    simp only [List.mem_cons, exists_eq_or_imp, ← ih]
    cases f x <;> cases r.mapM f <;> simp

theorem mapM_congr {α β : Type} {f g : α → Option β} {l : List α} (same : ∀ x ∈ l, f x = g x) :
    l.mapM f = l.mapM g := by
  induction l with
  | nil => rfl
  | cons x r ih =>
    rw [List.forall_mem_cons] at same
    rw [List.mapM_cons, List.mapM_cons, same.1, ih same.2]

theorem entryText_eq_none_iff {e : Value × Value} :
    entryText inner e = none ↔ inner e.1 = none ∨ inner e.2 = none := by
  rw [entryText]
  cases inner e.1 <;> cases inner e.2 <;> simp

theorem textWith_eq_none_iff : σ.textWith h inner v = none ↔ ∃ x ∈ h.contents v, inner x = none := by
  cases v with
  | array e l | list s l | set s l =>
    rw [textWith, Option.map_eq_none_iff, mapM_eq_none_iff]
    simp [Heap.contents, Heap.elements?, Heap.pairs]
  | map s l =>
    rw [textWith, Option.map_eq_none_iff, mapM_eq_none_iff]
    simp only [entryText_eq_none_iff, Heap.mem_contents_map]
    constructor
    · rintro ⟨e, he, missing | missing⟩
      · exact ⟨_, ⟨e, he, .inl rfl⟩, missing⟩
      · exact ⟨_, ⟨e, he, .inr rfl⟩, missing⟩
    · rintro ⟨x, ⟨e, he, rfl | rfl⟩, missing⟩
      · exact ⟨e, he, .inl missing⟩
      · exact ⟨e, he, .inr missing⟩
  | _ => simp [textWith, Heap.contents, Heap.elements?, Heap.pairs]

theorem textWith_congr (same : ∀ x ∈ h.contents v, inner x = inner' x) :
    σ.textWith h inner v = σ.textWith h inner' v := by
  cases v with
  | array e l | list s l | set s l =>
    rw [textWith, textWith, mapM_congr fun x hx => same x ?_]
    simpa [Heap.contents, Heap.elements?, Heap.pairs] using hx
  | map s l =>
    have each : ∀ e ∈ h.entries l, entryText inner e = entryText inner' e := fun e he => by
      rw [entryText, entryText, same _ (Heap.mem_contents_map.2 ⟨e, he, .inl rfl⟩),
        same _ (Heap.mem_contents_map.2 ⟨e, he, .inr rfl⟩)]
    rw [textWith, textWith, mapM_congr each]
  | _ => rfl

theorem textWithin_eq_none_iff {depth : Nat} : σ.textWithin h depth v = none ↔ h.Nests depth v := by
  induction depth generalizing v with
  | zero => exact iff_of_true rfl trivial
  | succ depth ih =>
    rw [textWithin, textWith_eq_none_iff]
    simp only [ih, Heap.Nests]

theorem textWithin_of_le {depth depth' : Nat} (le : depth ≤ depth') {text : String}
    (known : σ.textWithin h depth v = some text) : σ.textWithin h depth' v = some text := by
  induction depth generalizing depth' v text with
  | zero => cases known
  | succ depth ih =>
    obtain ⟨more, rfl⟩ := Nat.exists_eq_add_of_le le
    rw [Nat.add_right_comm, textWithin, ← known, textWithin]
    refine textWith_congr fun x hx => ?_
    cases inside : σ.textWithin h depth x with
    | none =>
      rw [textWithin, textWith_eq_none_iff.2 ⟨x, hx, inside⟩] at known
      cases known
    | some t => exact ih (Nat.le_add_right depth more) inside

/-- A value has a text unless it holds a container that holds itself. -/
theorem valueText?_eq_none_iff :
    σ.valueText? h v = none ↔ ∃ w, h.Within v w ∧ h.HoldsItself w := by
  rw [valueText?, textWithin_eq_none_iff, Heap.nests_iff (Nat.lt_succ_self _)]

theorem textWithin_eq_valueText? {depth : Nat} (large : h.size < depth) :
    σ.textWithin h depth v = σ.valueText? h v := by
  cases known : σ.valueText? h v with
  | none => rwa [textWithin_eq_none_iff, Heap.nests_iff large, ← valueText?_eq_none_iff (σ := σ)]
  | some text => exact textWithin_of_le large known

/-- The text of a container is made of the texts of what it holds. -/
theorem valueText?_eq : σ.valueText? h v = σ.textWith h (σ.valueText? h) v := by
  rw [← textWithin_eq_valueText? (Nat.lt_succ_of_lt (Nat.lt_succ_self h.size)), textWithin]
  rfl

end Schema

end PropertyAccess
