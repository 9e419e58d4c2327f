import PropertyAccess.Path.Variants

/-! Variants of a path: the path itself, and then the paths with keys left out, in the order
in which they are looked up. The variants of a path are those of its first segments, each
followed by every variant of the rest; and what may become of the keys of one segment is any
part of them. In an outline of a path each segment has all of its keys or none. -/

namespace PropertyAccess

theorem mem_droppings {n : Nat} {kept : List Bool} :
    kept ∈ droppings n ↔ kept.length = n ∧ false ∈ kept := by
  induction n generalizing kept with
  | zero =>
    constructor
    · simp [droppings]
    · rintro ⟨length, dropped⟩
      rw [List.length_eq_zero_iff.1 length] at dropped
      simp at dropped
  | succ n ih =>
    simp only [droppings, List.mem_cons, List.mem_append, List.mem_map, ih]
    constructor
    · rintro (rfl | ⟨r, ⟨rfl, -⟩, rfl⟩ | ⟨r, ⟨rfl, dropped⟩, rfl⟩)
      · simp
      · simp
      · simp [dropped]
    · rintro ⟨length, dropped⟩
      cases kept with
      | nil => simp at dropped
      | cons b r =>
        have rest : r.length = n := Nat.succ.inj length
        cases b with
        | true => exact .inr (.inr ⟨r, ⟨rest, by simpa using dropped⟩, rfl⟩)
        | false =>
          by_cases further : false ∈ r
          · exact .inr (.inl ⟨r, ⟨rest, further⟩, rfl⟩)
          · refine .inl (congrArg _ (List.eq_replicate_iff.2 ⟨rest, fun b hb => ?_⟩))
            cases b with
            | true => rfl
            | false => exact absurd hb further

namespace Segment

theorem keepKeys_replicate (keys : List String) :
    keepKeys (List.replicate keys.length true) keys = keys := by
  induction keys with
  | nil => rfl
  | cons key r ih => simp [List.replicate_succ, keepKeys, ih]

theorem keepKeys_sublist (marks : List Bool) (keys : List String) :
    (keepKeys marks keys).Sublist keys := by
  induction keys generalizing marks with
  | nil => cases marks <;> exact .slnil
  | cons key r ih =>
    cases marks with
    | nil => exact List.nil_sublist _
    | cons keep marks =>
      rw [keepKeys]
      split
      · exact (ih marks).cons_cons key
      · exact (ih marks).cons key

theorem exists_keepKeys {part keys : List String} (hp : part.Sublist keys) :
    ∃ marks, marks.length = keys.length ∧ keepKeys marks keys = part := by
  induction hp with
  | slnil => exact ⟨[], rfl, rfl⟩
  | cons key _ ih =>
    obtain ⟨marks, length, kept⟩ := ih
    exact ⟨false :: marks, by simp [length], by simp [keepKeys, kept]⟩
  | cons_cons key _ ih =>
    obtain ⟨marks, length, kept⟩ := ih
    exact ⟨true :: marks, by simp [length], by simp [keepKeys, kept]⟩

theorem length_keepKeys {marks : List Bool} {keys : List String}
    (length : marks.length = keys.length) : (keepKeys marks keys).length = marks.count true := by
  induction keys generalizing marks with
  | nil =>
    obtain rfl : marks = [] := List.length_eq_zero_iff.1 length
    rfl
  | cons key r ih =>
    cases marks with
    | nil => cases length
    | cons keep marks =>
      have rest := ih (Nat.succ.inj length)
      cases keep <;> simp [keepKeys, rest]

/-- The segment as it is, or without its keys. -/
def Outlines (head s : Segment) : Prop := head = s ∨ head = s.withKeys 0

theorem keepAll_replicate (segments : List Segment) :
    keepAll (List.replicate (Path.keyCount ⟨segments⟩) true) segments = segments := by
  induction segments with
  | nil => simp [keepAll]
  | cons s r ih =>
    have count : Path.keyCount ⟨s :: r⟩ = s.keys.length + Path.keyCount ⟨r⟩ := rfl
    rw [count, keepAll, List.take_replicate, List.drop_replicate, Nat.add_sub_cancel_left,
      Nat.min_eq_left (Nat.le_add_right _ _), keepKeys_replicate, ih]

theorem keepAll_append {marks more : List Bool} (segments rest : List Segment)
    (length : marks.length = Path.keyCount ⟨segments⟩) :
    keepAll (marks ++ more) (segments ++ rest) = keepAll marks segments ++ keepAll more rest := by
  induction segments generalizing marks with
  | nil =>
    obtain rfl : marks = [] := List.length_eq_zero_iff.1 length
    simp [keepAll]
  | cons s r ih =>
    have count : marks.length = s.keys.length + Path.keyCount ⟨r⟩ := length
    have own : s.keys.length ≤ marks.length := by omega
    have others : (marks.drop s.keys.length).length = Path.keyCount ⟨r⟩ := by
      rw [List.length_drop, count, Nat.add_sub_cancel_left]
    rw [List.cons_append, keepAll, keepAll, List.take_append_of_le_length own,
      List.drop_append_of_le_length own, ih others, List.cons_append]

end Segment

namespace Path

open Segment

theorem keyCount_append (segments rest : List Segment) :
    keyCount ⟨segments ++ rest⟩ = keyCount ⟨segments⟩ + keyCount ⟨rest⟩ := by
  induction segments with
  | nil => simp [keyCount]
  | cons s r ih =>
    have count (segments : List Segment) :
        keyCount ⟨s :: segments⟩ = s.keys.length + keyCount ⟨segments⟩ := rfl
    rw [List.cons_append, count, count, ih, Nat.add_assoc]

def variants (segments : List Segment) : List (List Segment) :=
  segments :: (droppings (keyCount ⟨segments⟩)).map (keepAll · segments)

theorem variants_eq (segments : List Segment) :
    (variants segments).map joined = joined segments :: stripped ⟨segments⟩ := by
  simp [variants, stripped]

theorem mem_variants {v segments : List Segment} :
    v ∈ variants segments ↔
      ∃ marks, marks.length = keyCount ⟨segments⟩ ∧ v = keepAll marks segments := by
  simp only [variants, List.mem_cons, List.mem_map, mem_droppings]
  constructor
  · rintro (rfl | ⟨marks, ⟨length, -⟩, rfl⟩)
    · exact ⟨_, List.length_replicate, (keepAll_replicate _).symm⟩
    · exact ⟨marks, length, rfl⟩
  · rintro ⟨marks, length, rfl⟩
    by_cases dropped : false ∈ marks
    · exact .inr ⟨marks, ⟨length, dropped⟩, rfl⟩
    · have all : marks = List.replicate (keyCount ⟨segments⟩) true := by
        refine List.eq_replicate_iff.2 ⟨length, fun b hb => ?_⟩
        cases b with
        | true => rfl
        | false => exact absurd hb dropped
      exact .inl (all ▸ keepAll_replicate segments)

theorem mem_variants_append {v segments rest : List Segment} :
    v ∈ variants (segments ++ rest) ↔
      ∃ a ∈ variants segments, ∃ b ∈ variants rest, v = a ++ b := by
  simp only [mem_variants, keyCount_append]
  constructor
  · rintro ⟨marks, length, rfl⟩
    have first : (marks.take (keyCount ⟨segments⟩)).length = keyCount ⟨segments⟩ := by
      rw [List.length_take, length, Nat.min_eq_left (Nat.le_add_right _ _)]
    have second : (marks.drop (keyCount ⟨segments⟩)).length = keyCount ⟨rest⟩ := by
      rw [List.length_drop, length, Nat.add_sub_cancel_left]
    refine ⟨_, ⟨_, first, rfl⟩, _, ⟨_, second, rfl⟩, ?_⟩
    rw [← keepAll_append segments rest first, List.take_append_drop]
  · rintro ⟨a, ⟨marks, length, rfl⟩, b, ⟨more, length', rfl⟩, rfl⟩
    exact ⟨marks ++ more, by rw [List.length_append, length, length'],
      (keepAll_append segments rest length).symm⟩

theorem mem_variants_singleton {v : List Segment} {s : Segment} :
    v ∈ variants [s] ↔ ∃ part, part.Sublist s.keys ∧ v = [{ s with keys := part }] := by
  have own (marks : List Bool) (length : marks.length = s.keys.length) :
      keepAll marks [s] = [{ s with keys := keepKeys marks s.keys }] := by
    rw [keepAll, ← length, List.take_length, keepAll]
  rw [mem_variants]
  constructor
  · rintro ⟨marks, length, rfl⟩
    exact ⟨_, keepKeys_sublist marks s.keys, own marks length⟩
  · rintro ⟨part, sublist, rfl⟩
    obtain ⟨marks, length, rfl⟩ := exists_keepKeys sublist
    exact ⟨marks, length, (own marks length).symm⟩

theorem keyCount_keepAll {marks : List Bool} {segments : List Segment}
    (length : marks.length = keyCount ⟨segments⟩) :
    keyCount ⟨keepAll marks segments⟩ = marks.count true := by
  induction segments generalizing marks with
  | nil =>
    obtain rfl : marks = [] := List.length_eq_zero_iff.1 length
    rfl
  | cons s r ih =>
    have count : marks.length = s.keys.length + keyCount ⟨r⟩ := length
    have own : (marks.take s.keys.length).length = s.keys.length := by
      rw [List.length_take, count, Nat.min_eq_left (Nat.le_add_right _ _)]
    have others : (marks.drop s.keys.length).length = keyCount ⟨r⟩ := by
      rw [List.length_drop, count, Nat.add_sub_cancel_left]
    calc keyCount ⟨keepAll marks (s :: r)⟩
        = (keepKeys (marks.take s.keys.length) s.keys).length +
            keyCount ⟨keepAll (marks.drop s.keys.length) r⟩ := by rw [keepAll]; rfl
      _ = (marks.take s.keys.length).count true + (marks.drop s.keys.length).count true := by
          rw [length_keepKeys own, ih others]
      _ = marks.count true := by rw [← List.count_append, List.take_append_drop]

theorem keepAll_ne {marks : List Bool} {segments : List Segment}
    (h : marks ∈ droppings (keyCount ⟨segments⟩)) : keepAll marks segments ≠ segments := by
  obtain ⟨length, dropped⟩ := mem_droppings.1 h
  intro same
  have all : marks.count true = marks.length := by
    rw [← keyCount_keepAll length, same, length]
  have kept := List.count_eq_length.1 all false dropped
  cases kept

def outlines : List Segment → List (List Segment)
  | [] => [[]]
  | s :: r => (outlines r).flatMap fun o => [s :: o, s.withKeys 0 :: o]

theorem mem_outlines_cons {o : List Segment} {s : Segment} {r : List Segment} :
    o ∈ outlines (s :: r) ↔
      ∃ head tail, head.Outlines s ∧ tail ∈ outlines r ∧ o = head :: tail := by
  simp only [outlines, List.mem_flatMap, List.mem_cons, List.not_mem_nil, or_false,
    Segment.Outlines]
  constructor
  · rintro ⟨tail, there, rfl | rfl⟩
    · exact ⟨_, tail, .inl rfl, there, rfl⟩
    · exact ⟨_, tail, .inr rfl, there, rfl⟩
  · rintro ⟨head, tail, rfl | rfl, there, rfl⟩
    · exact ⟨tail, there, .inl rfl⟩
    · exact ⟨tail, there, .inr rfl⟩

theorem findSome?_outlines_cons {α : Type} {s : Segment} {r : List Segment}
    {f g : List Segment → Option α}
    (hg : ∀ o ∈ outlines r, g o = (f (s :: o)).or (f (s.withKeys 0 :: o))) :
    (outlines r).findSome? g = (outlines (s :: r)).findSome? f := by
  rw [outlines]
  generalize outlines r = tails at hg
  induction tails with
  | nil => rfl
  | cons o tails ih =>
    rw [List.forall_mem_cons] at hg
    rw [List.findSome?_cons, hg.1, ih hg.2, List.flatMap_cons, List.findSome?_append]
    cases whole : f (s :: o) <;> cases bare : f (s.withKeys 0 :: o) <;>
      simp [whole, bare]

theorem mem_variants_of_mem_outlines {o segments : List Segment} (ho : o ∈ outlines segments) :
    o ∈ variants segments := by
  induction segments generalizing o with
  | nil => simpa [outlines, variants, droppings, keyCount] using ho
  | cons s r ih =>
    obtain ⟨head, tail, outlined, there, rfl⟩ := mem_outlines_cons.1 ho
    refine mem_variants_append.2 ⟨[head], mem_variants_singleton.2 ?_, tail, ih there, rfl⟩
    rcases outlined with rfl | rfl
    · exact ⟨head.keys, .refl _, rfl⟩
    · exact ⟨[], List.nil_sublist _, rfl⟩

end Path

end PropertyAccess
