import Mathlib.Algebra.Group.Nat.Defs
import PropertyAccess.Proofs.Conversion.Scopes

/-! The paths with keys left out, by the positions of these keys. The keys of a path are
numbered from the left through all its segments. Each set of positions but the empty one
gives one of the paths, in the lexicographic order of the sets written in ascending order,
and the text of each of the paths reads back as that path. -/

namespace PropertyAccess

/-- The ascending lists of one or more of the `n` positions from `start` on, in
lexicographic order. -/
def removals (start : Nat) : Nat → List (List Nat)
  | 0 => []
  | n + 1 =>
    [start] :: ((removals (start + 1) n).map (start :: ·) ++ removals (start + 1) n)

theorem mem_removals {start n : Nat} {removed : List Nat} :
    removed ∈ removals start n ↔
      removed ≠ [] ∧ removed.Pairwise (· < ·) ∧ ∀ i ∈ removed, start ≤ i ∧ i < start + n := by
  induction n generalizing start removed with
  | zero =>
    simp only [removals, List.not_mem_nil, false_iff]
    rintro ⟨some_, -, bounds⟩
    obtain ⟨i, there⟩ := List.exists_mem_of_ne_nil _ some_
    have := bounds i there
    omega
  | succ n ih =>
    simp only [removals, List.mem_cons, List.mem_append, List.mem_map, ih]
    constructor
    · rintro (rfl | ⟨later, ⟨-, sorted, bounds⟩, rfl⟩ | ⟨some_, sorted, bounds⟩)
      · simp
      · refine ⟨by simp, List.pairwise_cons.2 ⟨fun i there => (bounds i there).1, sorted⟩, ?_⟩
        rw [List.forall_mem_cons]
        exact ⟨by omega, fun i there => by have := bounds i there; omega⟩
      · exact ⟨some_, sorted, fun i there => by have := bounds i there; omega⟩
    · rintro ⟨some_, sorted, bounds⟩
      cases removed with
      | nil => exact absurd rfl some_
      | cons first later =>
        obtain ⟨above, rest⟩ := List.pairwise_cons.1 sorted
        rw [List.forall_mem_cons] at bounds
        by_cases here : first = start
        · subst here
          cases later with
          | nil => exact .inl rfl
          | cons second later =>
            refine .inr (.inl ⟨_, ⟨by simp, rest, fun i there => ?_⟩, rfl⟩)
            have := above i there
            have := bounds.2 i there
            omega
        · refine .inr (.inr ⟨by simp, sorted, List.forall_mem_cons.2 ⟨by omega, fun i there => ?_⟩⟩)
          have := above i there
          have := bounds.2 i there
          omega

theorem length_removals (start n : Nat) : (removals start n).length = 2 ^ n - 1 := by
  induction n generalizing start with
  | zero => rfl
  | succ n ih =>
    have positive := Nat.one_le_two_pow (n := n)
    simp only [removals, List.length_cons, List.length_append, List.length_map, ih]
    omega

theorem ascending_removals (start n : Nat) : (removals start n).Pairwise (· < ·) := by
  induction n generalizing start with
  | zero => exact .nil
  | succ n ih =>
    have follows : ∀ removed ∈ removals (start + 1) n,
        [start] < start :: removed ∧ ∀ other : List Nat, start :: other < removed := by
      intro removed there
      obtain ⟨some_, -, bounds⟩ := mem_removals.1 there
      cases removed with
      | nil => exact absurd rfl some_
      | cons first later =>
        have := bounds first List.mem_cons_self
        refine ⟨List.cons_lt_cons_iff.2 (.inr ⟨rfl, List.nil_lt_cons _ _⟩), fun other => ?_⟩
        exact List.cons_lt_cons_iff.2 (.inl (by omega))
    rw [removals, List.pairwise_cons, List.pairwise_append, List.pairwise_map]
    refine ⟨fun removed there => ?_, ?_, ih (start + 1), fun removed there other further => ?_⟩
    · rcases List.mem_append.1 there with there | there
      · obtain ⟨later, inner, rfl⟩ := List.mem_map.1 there
        exact (follows later inner).1
      · exact (follows removed there).2 []
    · exact (ih (start + 1)).imp fun lt => List.cons_lt_cons_iff.2 (.inr ⟨rfl, lt⟩)
    · obtain ⟨later, -, rfl⟩ := List.mem_map.1 there
      exact (follows other further).2 later

def marksWithout (removed : List Nat) (start n : Nat) : List Bool :=
  (List.range' start n).map fun i => decide (i ∉ removed)

theorem marksWithout_succ (removed : List Nat) (start n : Nat) :
    marksWithout removed start (n + 1) =
      decide (start ∉ removed) :: marksWithout removed (start + 1) n := rfl

theorem marksWithout_cons_of_lt {first start n : Nat} (below : first < start)
    (removed : List Nat) :
    marksWithout (first :: removed) start n = marksWithout removed start n := by
  refine List.map_congr_left fun i there => ?_
  have other : i ≠ first := by
    have := (List.mem_range'_1.1 there).1
    omega
  simp [other]

theorem marksWithout_nil (start n : Nat) : marksWithout [] start n = List.replicate n true := by
  simp [marksWithout, List.map_const']

theorem droppings_eq (start n : Nat) :
    droppings n = (removals start n).map (marksWithout · start n) := by
  induction n generalizing start with
  | zero => rfl
  | succ n ih =>
    rw [droppings, removals, List.map_cons, List.map_append, List.map_map, ih (start + 1),
      List.map_map, List.map_map]
    congr 1
    · rw [marksWithout_succ, marksWithout_cons_of_lt (Nat.lt_succ_self start), marksWithout_nil]
      simp
    congr 1
    · refine List.map_congr_left fun removed _ => ?_
      simp [marksWithout_succ, marksWithout_cons_of_lt (Nat.lt_succ_self start)]
    · refine List.map_congr_left fun removed there => ?_
      have kept : start ∉ removed := fun here => by
        have := ((mem_removals.1 there).2.2 start here).1
        omega
      simp [marksWithout_succ, kept]

namespace Segment

/-- The keys, numbered from `start` on, but for those whose numbers are removed. -/
def keysWithout (removed : List Nat) (start : Nat) (keys : List String) : List String :=
  ((keys.zipIdx start).filter fun (_, i) => decide (i ∉ removed)).map (·.1)

theorem keysWithout_sublist (removed : List Nat) (start : Nat) (keys : List String) :
    (keysWithout removed start keys).Sublist keys := by
  have numbered := (List.filter_sublist (l := keys.zipIdx start)
    (p := fun (_, i) => decide (i ∉ removed))).map (·.1)
  rwa [List.zipIdx_map_fst] at numbered

theorem keepKeys_marksWithout (removed : List Nat) (start : Nat) (keys : List String) :
    keepKeys (marksWithout removed start keys.length) keys = keysWithout removed start keys := by
  induction keys generalizing start with
  | nil => rfl
  | cons key r ih =>
    rw [List.length_cons, marksWithout_succ, keepKeys, ih, keysWithout, keysWithout,
      List.zipIdx_cons, List.filter_cons]
    split <;> rfl

/-- The segments without the keys whose numbers are removed, where the first key has the
number `start`. -/
def without (removed : List Nat) (start : Nat) : List Segment → List Segment
  | [] => []
  | s :: r =>
    { s with keys := keysWithout removed start s.keys } ::
      without removed (start + s.keys.length) r

theorem keepAll_marksWithout (removed : List Nat) (start : Nat) (segments : List Segment) :
    keepAll (marksWithout removed start (Path.keyCount ⟨segments⟩)) segments =
      without removed start segments := by
  induction segments generalizing start with
  | nil => simp [keepAll, without]
  | cons s r ih =>
    have split_ : marksWithout removed start (Path.keyCount ⟨s :: r⟩) =
        marksWithout removed start s.keys.length ++
          marksWithout removed (start + s.keys.length) (Path.keyCount ⟨r⟩) := by
      rw [marksWithout, marksWithout, marksWithout, ← List.map_append, List.range'_append_1]
      rfl
    have length : (marksWithout removed start s.keys.length).length = s.keys.length := by
      simp [marksWithout]
    rw [split_, keepAll, without, List.take_left' length, List.drop_left' length, ih,
      keepKeys_marksWithout]

theorem readable_without (removed : List Nat) {start : Nat} {segments : List Segment}
    (h : ∀ s ∈ segments, s.Readable) : ∀ s ∈ without removed start segments, s.Readable := by
  induction segments generalizing start with
  | nil => simp [without]
  | cons s r ih =>
    rw [List.forall_mem_cons] at h
    rw [without, List.forall_mem_cons]
    refine ⟨⟨h.1.name, fun key there => h.1.keys key ?_⟩, ih h.2⟩
    exact (keysWithout_sublist removed start s.keys).subset there

end Segment

namespace Path

open Segment

def without (p : Path) (removed : List Nat) : Path := ⟨Segment.without removed 0 p.segments⟩

theorem parse_without {p : Path} (h : Readable p.segments) (removed : List Nat) :
    parse (p.without removed).canonical = .ok (p.without removed) := by
  refine Readable.parse_joined ⟨?_, readable_without removed h.2⟩
  obtain ⟨segments⟩ := p
  cases segments with
  | nil => exact absurd rfl h.1
  | cons s r => simp [without, Segment.without]

/-- Leaving out keys goes once through every set of their positions that is not empty, in
lexicographic order, and gives the text of the path without these keys, which reads back. -/
theorem stripped_eq_removals {text : String} {p : Path} (read : parse text = .ok p) :
    p.stripped = (removals 0 p.keyCount).map (fun removed => (p.without removed).canonical) ∧
      p.stripped.length = 2 ^ p.keyCount - 1 ∧
      (∀ removed, removed ∈ removals 0 p.keyCount ↔
        removed ≠ [] ∧ removed.Pairwise (· < ·) ∧ ∀ i ∈ removed, i < p.keyCount) ∧
      (removals 0 p.keyCount).Pairwise (· < ·) ∧
      ∀ removed ∈ removals 0 p.keyCount,
        parse (p.without removed).canonical = .ok (p.without removed) := by
  have listed : p.stripped =
      (removals 0 p.keyCount).map (fun removed => (p.without removed).canonical) := by
    rw [stripped, droppings_eq 0, List.map_map]
    exact List.map_congr_left fun removed _ =>
      congrArg joined (keepAll_marksWithout removed 0 p.segments)
  refine ⟨listed, ?_, fun removed => ?_, ascending_removals _ _, fun removed _ => ?_⟩
  · rw [listed, List.length_map, length_removals]
  · simp [mem_removals]
  · exact parse_without (readable_of_parse read) removed

theorem stripped_eq_removals_nested :
    parse "m[a]['0'].n[b]" = .ok ⟨[⟨"m", ["a", "0"]⟩, ⟨"n", ["b"]⟩]⟩ ∧
      removals 0 3 = [[0], [0, 1], [0, 1, 2], [0, 2], [1], [1, 2], [2]] ∧
      stripped ⟨[⟨"m", ["a", "0"]⟩, ⟨"n", ["b"]⟩]⟩ =
        ["m[0].n[b]", "m.n[b]", "m.n", "m[0].n", "m[a].n[b]", "m[a].n", "m[a][0].n"] := by
  have read : parse "m[a]['0'].n[b]" = .ok ⟨[⟨"m", ["a", "0"]⟩, ⟨"n", ["b"]⟩]⟩ := by cbv
  refine ⟨read, rfl, ?_⟩
  rw [(stripped_eq_removals read).1]
  cbv

end Path

end PropertyAccess
