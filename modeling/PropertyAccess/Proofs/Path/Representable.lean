import Mathlib.Data.List.Forall2
import PropertyAccess.Proofs.Conversion.Scopes

/-! Which lists of segments have a text that reads back as them. A key stands between plain
brackets if it does not start with a quote and its own brackets match; any other key needs
one of the two quotes, and a quote serves only if the key nowhere closes it. Every list that
was read is of this kind, and stays so when leading segments or trailing keys are left out. -/

namespace PropertyAccess

namespace Segment

/-- No beginning of the text closes more brackets than it opens, and the whole closes them all. -/
structure BracketsMatch (cs : List Char) : Prop where
  beginnings : ∀ front, front <+: cs → front.count ']' ≤ front.count '['
  whole : cs.count ']' = cs.count '['

/-- The key can stand between plain brackets. -/
structure Plain (key : List Char) : Prop where
  unquoted : ∀ q r, key = q :: r → q ≠ '\x27' ∧ q ≠ '\x22'
  brackets : BracketsMatch key

/-- There is a way to write the key: plainly, or in a quote that it does not close. -/
def Writable (key : List Char) : Prop :=
  Plain key ∨ ¬ (['\x27', ']'] <:+: key ∧ ['\x22', ']'] <:+: key)

structure Representable (s : Segment) : Prop where
  named : s.name ≠ ""
  keys : ∀ key ∈ s.keys, Writable key.toList

theorem forall_beginning_cons {P : List Char → Prop} {c : Char} {r : List Char} :
    (∀ front, front <+: c :: r → P front) ↔ P [] ∧ ∀ front, front <+: r → P (c :: front) := by
  constructor
  · exact fun h => ⟨h [] List.nil_prefix,
      fun front there => h _ (List.cons_prefix_cons.2 ⟨rfl, there⟩)⟩
  · rintro ⟨start, later⟩ front there
    rcases List.prefix_cons_iff.1 there with rfl | ⟨shorter, rfl, inner⟩
    · exact start
    · exact later shorter inner

/-- Brackets that were open before may be closed too. -/
theorem balanced_iff {depth : Nat} {cs : List Char} :
    balanced depth cs = true ↔
      (∀ front, front <+: cs → front.count ']' ≤ depth + front.count '[') ∧
        cs.count ']' = depth + cs.count '[' := by
  induction cs generalizing depth with
  | nil =>
    simp only [balanced, beq_iff_eq, List.prefix_nil, forall_eq, List.count_nil, Nat.add_zero,
      Nat.zero_le, true_and]
    exact eq_comm
  | cons c r ih =>
    rw [forall_beginning_cons, balanced]
    simp only [List.count_nil, Nat.zero_le, true_and, List.count_cons, beq_iff_eq]
    split
    · rename_i opening
      subst opening
      simp only [ih, show ('[' : Char) ≠ ']' by decide, reduceIte, Nat.add_zero]
      refine and_congr (forall_congr' fun front => imp_congr_right fun _ => ?_) ?_ <;> omega
    · rename_i other
      split
      · rename_i closing
        subst closing
        simp only [Bool.and_eq_true, bne_iff_ne, ih, Nat.add_zero]
        -- The bracket itself closes one of those that were open before.
        constructor
        · rintro ⟨some_, later, all⟩
          exact ⟨fun front there => by have := later front there; omega, by omega⟩
        · rintro ⟨later, all⟩
          have first := later [] List.nil_prefix
          simp only [List.count_nil, Nat.add_zero] at first
          exact ⟨by omega, fun front there => by have := later front there; omega, by omega⟩
      · rename_i another
        simp only [ih, Nat.add_zero]

theorem adjacent_iff {a b : Char} {cs : List Char} : adjacent a b cs = true ↔ [a, b] <:+: cs := by
  induction cs with
  | nil => simp [adjacent]
  | cons c r ih =>
    cases r with
    | nil => simp [adjacent, List.infix_cons_iff, List.cons_prefix_cons]
    | cons d r =>
      have here : [a, b] <+: c :: d :: r ↔ c = a ∧ d = b := by
        rw [List.cons_prefix_cons, List.cons_prefix_cons]
        exact ⟨fun h => ⟨h.1.symm, h.2.1.symm⟩, fun h => ⟨h.1.symm, h.2.symm, List.nil_prefix⟩⟩
      rw [adjacent, Bool.or_eq_true, ih, List.infix_cons_iff (a := c), here, Bool.and_eq_true,
        decide_eq_true_eq, decide_eq_true_eq]

theorem plain_iff {key : List Char} : Plain key ↔ needsQuotes key = false := by
  have start : (∀ q r, key = q :: r → q ≠ '\x27' ∧ q ≠ '\x22') ↔ startsQuoted key = false := by
    cases key with
    | nil => simp [startsQuoted]
    | cons q r =>
      simp only [startsQuoted, isQuote, Bool.or_eq_false_iff, decide_eq_false_iff_not]
      constructor
      · exact fun h => h q r rfl
      · rintro h q r ⟨⟩
        exact h
  have brackets : BracketsMatch key ↔ balanced 0 key = true := by
    rw [balanced_iff, Nat.zero_add]
    simp only [Nat.zero_add]
    exact ⟨fun h => ⟨h.beginnings, h.whole⟩, fun h => ⟨h.1, h.2⟩⟩
  rw [needsQuotes, Bool.or_eq_false_iff, Bool.not_eq_false', ← start, ← brackets]
  exact ⟨fun h => ⟨h.unquoted, h.brackets⟩, fun h => ⟨h.1, h.2⟩⟩

theorem adjacent_quoteFor_iff {key : List Char} :
    adjacent (quoteFor key) ']' key = true ↔
      ['\x27', ']'] <:+: key ∧ ['\x22', ']'] <:+: key := by
  rw [← adjacent_iff, ← adjacent_iff, quoteFor]
  split
  · rename_i single
    exact ⟨fun h => ⟨single, h⟩, fun h => h.2⟩
  · rename_i single
    exact ⟨fun h => absurd h single, fun h => absurd h.1 single⟩

theorem writable_iff {key : List Char} : Writable key ↔ Legible key := by
  rw [Writable, plain_iff, ← adjacent_quoteFor_iff, Legible, Bool.not_eq_true]
  cases needsQuotes key <;> simp

theorem representable_iff {s : Segment} : s.Representable ↔ s.Readable := by
  have named : s.name ≠ "" ↔ s.name.toList ≠ [] := by simp
  constructor
  · exact fun h => ⟨named.1 h.named, fun key there => writable_iff.1 (h.keys key there)⟩
  · exact fun h => ⟨named.2 h.name, fun key there => writable_iff.2 (h.keys key there)⟩

end Segment

/-- Some of the segments are cut: of the keys of each, the first ones are left. -/
def CutFrom (cut segments : List Segment) : Prop :=
  List.Forall₂ (fun t s => ∃ n, t = s.withKeys n) cut segments

theorem Readable.of_suffix {segments rest : List Segment} (h : Readable segments)
    (tail : rest <:+ segments) (some_ : rest ≠ []) : Readable rest :=
  ⟨some_, fun s there => h.2 s (tail.subset there)⟩

theorem Readable.cut {segments cut : List Segment} (h : Readable segments)
    (cuts : CutFrom cut segments) : Readable cut := by
  refine ⟨?_, fun t there => ?_⟩
  · rintro rfl
    exact h.1 (List.forall₂_nil_left_iff.1 cuts)
  · have from_ : ∃ s ∈ segments, ∃ n, t = s.withKeys n := by
      clear h
      induction cuts with
      | nil => cases there
      | cons head _ ih =>
        rcases List.mem_cons.1 there with rfl | later
        · exact ⟨_, List.mem_cons_self, head⟩
        · obtain ⟨s, there, same⟩ := ih later
          exact ⟨s, List.mem_cons_of_mem _ there, same⟩
    obtain ⟨s, whole, n, rfl⟩ := from_
    exact (h.2 s whole).withKeys n

namespace Path

/-- A path has a segment, and its segments can be written. -/
structure Representable (segments : List Segment) : Prop where
  some_ : segments ≠ []
  each : ∀ s ∈ segments, s.Representable

theorem representable_iff {segments : List Segment} :
    Representable segments ↔ Readable segments := by
  constructor
  · exact fun h => ⟨h.some_, fun s there => Segment.representable_iff.1 (h.each s there)⟩
  · exact fun h => ⟨h.1, fun s there => Segment.representable_iff.2 (h.2 s there)⟩

/-- A list of segments is read back from its text exactly if it is representable, and reading
gives only representable lists, all of whose tails and cuts are representable too. -/
theorem reads_back_iff_representable :
    (∀ segments : List Segment,
      parse (Path.canonical ⟨segments⟩) = .ok ⟨segments⟩ ↔ Representable segments) ∧
    ∀ (text : String) (p : Path), parse text = .ok p →
      Representable p.segments ∧
      (∀ rest, rest <:+ p.segments → rest ≠ [] → Representable rest) ∧
      ∀ cut, CutFrom cut p.segments → Representable cut := by
  refine ⟨fun segments => ?_, fun text p read => ?_⟩
  · rw [representable_iff]
    constructor
    · exact fun read => readable_of_parse read
    · exact fun h => h.parse_joined
  · have h : Readable p.segments := readable_of_parse read
    refine ⟨representable_iff.2 h, fun rest tail some_ => ?_, fun cut cuts => ?_⟩
    · exact representable_iff.2 (h.of_suffix tail some_)
    · exact representable_iff.2 (h.cut cuts)

theorem reads_back_iff_representable_quoted :
    parse "m['a]b'][[x]].n[\"u']v\"]" = .ok ⟨[⟨"m", ["a]b", "[x]"]⟩, ⟨"n", ["u']v"]⟩]⟩ ∧
      Representable [⟨"n", ["u']v"]⟩] ∧
      Representable [⟨"m", ["a]b"]⟩, ⟨"n", []⟩] ∧
      parse (Path.canonical ⟨[⟨"n", ["u']v"]⟩]⟩) = .ok ⟨[⟨"n", ["u']v"]⟩]⟩ ∧
      parse (Path.canonical ⟨[⟨"n", ["a']b\"]"]⟩]⟩) ≠ .ok ⟨[⟨"n", ["a']b\"]"]⟩]⟩ := by
  have read : parse "m['a]b'][[x]].n[\"u']v\"]" =
      .ok ⟨[⟨"m", ["a]b", "[x]"]⟩, ⟨"n", ["u']v"]⟩]⟩ := by cbv
  obtain ⟨whole, tail, cut⟩ := reads_back_iff_representable.2 _ _ read
  have last : Representable [⟨"n", ["u']v"]⟩] := tail _ ⟨[_], rfl⟩ (by simp)
  refine ⟨read, last, cut _ (.cons ⟨1, rfl⟩ (.cons ⟨0, rfl⟩ .nil)),
    (reads_back_iff_representable.1 _).2 last, fun back => ?_⟩
  -- The key starts with no quote, but its first bracket closes one that was never opened.
  have h := (reads_back_iff_representable.1 _).1 back
  rcases (h.each _ List.mem_cons_self).keys _ List.mem_cons_self with plain | open_
  · have first := plain.brackets.beginnings ['a', '\x27', ']'] ⟨['b', '\x22', ']'], rfl⟩
    exact absurd first (by decide)
  · exact open_ ⟨⟨['a'], ['b', '\x22', ']'], rfl⟩, ⟨['a', '\x27', ']', 'b'], [], rfl⟩⟩

end Path

end PropertyAccess
