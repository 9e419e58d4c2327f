import Mathlib.Data.List.Induction
import PropertyAccess.Schema.Hierarchy

/-! The last place of a list where something holds. Names are looked up this way in a layout
and in the slots of an object, so both lookups come to one place where the names agree. -/

namespace PropertyAccess

variable {α : Type} {P : α → Prop} {xs : List α} {x y : α} {i j : Nat}

/-- `x` stands in place `i`, and is the last of which `P` holds. -/
structure LastAt (P : α → Prop) (xs : List α) (i : Nat) (x : α) : Prop where
  there : xs[i]? = some x
  holds : P x
  after : ∀ j y, i < j → xs[j]? = some y → ¬ P y

theorem lastAt_nil : ¬ LastAt P [] i x := fun h => nomatch h.there

theorem lastAt_concat :
    LastAt P (xs ++ [y]) i x ↔ P y ∧ i = xs.length ∧ x = y ∨ ¬ P y ∧ LastAt P xs i x := by
  have final : (xs ++ [y])[xs.length]? = some y := by simp
  constructor
  · intro ⟨there, holds, after⟩
    have bound : i < xs.length + 1 := by simpa using (List.getElem?_eq_some_iff.1 there).1
    rcases Nat.lt_or_eq_of_le (Nat.le_of_lt_succ bound) with inner | rfl
    · refine .inr ⟨after _ y inner final, ⟨?_, holds, fun j z later found => ?_⟩⟩
      · rwa [List.getElem?_append_left inner] at there
      · refine after j z later ?_
        rwa [List.getElem?_append_left (List.getElem?_eq_some_iff.1 found).1]
    · obtain rfl := Option.some.inj (final.symm.trans there)
      exact .inl ⟨holds, rfl, rfl⟩
  · rintro (⟨holds, rfl, rfl⟩ | ⟨without, there, holds, after⟩)
    · refine ⟨final, holds, fun j z later found => ?_⟩
      have bound : j < xs.length + 1 := by simpa using (List.getElem?_eq_some_iff.1 found).1
      exact absurd later (Nat.not_lt.2 (Nat.le_of_lt_succ bound))
    · have inner : i < xs.length := (List.getElem?_eq_some_iff.1 there).1
      refine ⟨by rwa [List.getElem?_append_left inner], holds, fun j z later found => ?_⟩
      have bound : j < xs.length + 1 := by simpa using (List.getElem?_eq_some_iff.1 found).1
      rcases Nat.lt_or_eq_of_le (Nat.le_of_lt_succ bound) with inner | rfl
      · rw [List.getElem?_append_left inner] at found
        exact after j z later found
      · obtain rfl := Option.some.inj (final.symm.trans found)
        exact without

theorem LastAt.le (last : LastAt P xs i x) (there : xs[j]? = some y) (holds : P y) : j ≤ i :=
  Nat.not_lt.1 fun later => last.after j y later there holds

theorem LastAt.unique (first : LastAt P xs i x) (second : LastAt P xs j y) : i = j ∧ x = y := by
  obtain rfl := Nat.le_antisymm (second.le first.there first.holds)
    (first.le second.there second.holds)
  exact ⟨rfl, Option.some.inj (first.there.symm.trans second.there)⟩

theorem exists_lastAt (own : x ∈ xs) (holds : P x) : ∃ j y, LastAt P xs j y := by
  induction xs using List.reverseRecOn with
  | nil => cases own
  | append_singleton xs z ih =>
    simp only [lastAt_concat]
    by_cases final : P z
    · exact ⟨_, _, .inl ⟨final, rfl, rfl⟩⟩
    · rcases List.mem_append.1 own with inner | last
      · obtain ⟨j, y, last⟩ := ih inner
        exact ⟨j, y, .inr ⟨final, last⟩⟩
      · exact absurd (List.mem_singleton.1 last ▸ holds) final

theorem lastAt_iff :
    LastAt P xs i x ↔ xs[i]? = some x ∧ P x ∧ ∀ y ∈ xs.drop (i + 1), ¬ P y := by
  constructor
  · intro ⟨there, holds, after⟩
    refine ⟨there, holds, fun y behind => ?_⟩
    obtain ⟨k, found⟩ := List.mem_iff_getElem?.1 behind
    rw [List.getElem?_drop] at found
    exact after _ y (Nat.lt_add_right k (Nat.lt_succ_self i)) found
  · intro ⟨there, holds, behind⟩
    refine ⟨there, holds, fun j y later found => behind y (List.mem_iff_getElem?.2 ?_)⟩
    exact ⟨j - (i + 1), by rwa [List.getElem?_drop, Nat.add_sub_cancel' later]⟩

instance [DecidableEq α] [DecidablePred P] : Decidable (LastAt P xs i x) :=
  decidable_of_iff' _ lastAt_iff

theorem find?_reverse_eq_some_iff [DecidablePred P] :
    xs.reverse.find? (fun x => P x) = some x ↔ ∃ i, LastAt P xs i x := by
  induction xs using List.reverseRecOn with
  | nil => exact ⟨(nomatch ·), fun ⟨_, h⟩ => absurd h lastAt_nil⟩
  | append_singleton xs y ih =>
    simp only [List.reverse_concat, List.find?_cons, lastAt_concat]
    by_cases holds : P y
    · simp [holds, eq_comm]
    · simpa [holds] using ih

def lastIndex? (p : α → Bool) (xs : List α) : Option Nat :=
  (xs.reverse.findIdx? p).map fun i => xs.length - 1 - i

theorem lastIndex?_concat (p : α → Bool) (xs : List α) (x : α) :
    lastIndex? p (xs ++ [x]) = if p x then some xs.length else lastIndex? p xs := by
  rw [lastIndex?, List.reverse_concat, List.findIdx?_cons]
  split
  · simp
  · rw [lastIndex?, Option.map_map]
    refine congrArg (fun f => Option.map f _) (funext fun i => ?_)
    simp only [Function.comp_apply, List.length_append, List.length_singleton]
    omega

theorem lastIndex?_eq_some_iff [DecidablePred P] :
    lastIndex? (fun x => P x) xs = some i ↔ ∃ x, LastAt P xs i x := by
  induction xs using List.reverseRecOn with
  | nil => exact ⟨(nomatch ·), fun ⟨_, h⟩ => absurd h lastAt_nil⟩
  | append_singleton xs y ih =>
    simp only [lastIndex?_concat, lastAt_concat]
    by_cases holds : P y
    · simp [holds, eq_comm]
    · simpa [holds] using ih

theorem lastIndex?_map {β : Type} (f : α → β) (p : β → Bool) (xs : List α) :
    lastIndex? p (xs.map f) = lastIndex? (p ∘ f) xs := by
  rw [lastIndex?, lastIndex?, ← List.map_reverse, List.findIdx?_map, List.length_map]

theorem Schema.fieldIndex?_eq_some_iff {σ : Schema} {c : ClassId} {name : String} :
    σ.fieldIndex? c name = some i ↔ ∃ s, LastAt (fun s => s.name = name) (σ.layout c) i s :=
  lastIndex?_eq_some_iff

end PropertyAccess
