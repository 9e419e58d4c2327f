import PropertyAccess.Proofs.Conversion.Scopes

/-! Paths with one more key on their last segment, as the elements of a collection have them.
A key that needs no quotes stands between plain brackets behind the text of the path; an
index is such a key. A path that is registered for one element addresses the collection if
its key has no closing bracket. -/

namespace PropertyAccess

namespace Segment

def add (s : Segment) (key : String) : Segment := { s with keys := s.keys ++ [key] }

theorem canonicalChars_add (s : Segment) (key : String) :
    (s.add key).canonicalChars = s.canonicalChars ++ bracketed key.toList := by
  simp [canonicalChars, add]

theorem bracketed_of_plain {key : List Char} (plain : needsQuotes key = false) :
    bracketed key = '[' :: (key ++ [']']) := by
  simp [bracketed, plain]

theorem exists_bracketed {key : List Char} (closed : ']' ∉ key) :
    ∃ cs, ']' ∉ cs ∧ bracketed key = '[' :: (cs ++ [']']) := by
  have quote : quoteFor key ≠ ']' := ne_bracket_of_isQuote (isQuote_quoteFor key)
  unfold bracketed
  split
  · refine ⟨quoteFor key :: (key ++ [quoteFor key]), ?_, by simp⟩
    simp [closed, quote.symm]
  · exact ⟨key, closed, rfl⟩

theorem Readable.add {s : Segment} (hs : s.Readable) {key : String}
    (plain : needsQuotes key.toList = false) : (s.add key).Readable := by
  refine ⟨hs.name, fun k there => ?_⟩
  rcases List.mem_append.1 there with there | there
  · exact hs.keys k there
  · rw [List.mem_singleton.1 there]
    intro quoted
    rw [plain] at quoted
    cases quoted

theorem balanced_of_no_brackets {cs : List Char} (h : ∀ c ∈ cs, c ≠ '[' ∧ c ≠ ']') :
    balanced 0 cs = true := by
  induction cs with
  | nil => rfl
  | cons c r ih =>
    rw [List.forall_mem_cons] at h
    rw [balanced, if_neg h.1.1, if_neg h.1.2]
    exact ih h.2

theorem needsQuotes_eq_false {cs : List Char}
    (h : ∀ c ∈ cs, c ≠ '[' ∧ c ≠ ']' ∧ isQuote c = false) : needsQuotes cs = false := by
  have closed := balanced_of_no_brackets fun c there => ⟨(h c there).1, (h c there).2.1⟩
  rw [needsQuotes, closed]
  cases cs with
  | nil => rfl
  | cons c r => simp [startsQuoted, (h c List.mem_cons_self).2.2]

theorem plain_of_index (n : Nat) :
    ∀ c ∈ (toString n).toList, c ≠ '[' ∧ c ≠ ']' ∧ isQuote c = false := by
  intro c there
  rw [Nat.toString_eq_ofList_toDigits, String.toList_ofList] at there
  have digit := Nat.isDigit_of_mem_toDigits (by decide) (by decide) there
  refine ⟨?_, ?_, Bool.eq_false_iff.2 fun quote => ?_⟩
  · rintro rfl
    cases digit
  · rintro rfl
    cases digit
  · simp only [isQuote, Bool.or_eq_true, decide_eq_true_eq] at quote
    rcases quote with rfl | rfl <;> cases digit

end Segment

theorem joinedChars_concat (heads : List Segment) (s : Segment) :
    joinedChars (heads ++ [s]) =
      (heads.flatMap fun t => t.canonicalChars ++ ['.']) ++ s.canonicalChars := by
  induction heads with
  | nil => simp [joinedChars]
  | cons t r ih =>
    cases r with
    | nil => simp [joinedChars]
    | cons u r => simpa [joinedChars] using ih

namespace Path

def inside (key : String) : List Segment → List Segment
  | [] => []
  | [s] => [s.add key]
  | s :: t :: r => s :: inside key (t :: r)

theorem inside_concat (key : String) (heads : List Segment) (s : Segment) :
    inside key (heads ++ [s]) = heads ++ [s.add key] := by
  induction heads with
  | nil => rfl
  | cons t r ih =>
    cases r with
    | nil => rfl
    | cons u r => exact congrArg (t :: ·) ih

theorem exists_concat {segments : List Segment} (some_ : segments ≠ []) :
    ∃ heads last, segments = heads ++ [last] :=
  ⟨_, _, (List.dropLast_concat_getLast some_).symm⟩

theorem toList_joined_inside {segments : List Segment} (some_ : segments ≠ []) (key : String) :
    (joined (inside key segments)).toList =
      (joined segments).toList ++ Segment.bracketed key.toList := by
  obtain ⟨heads, last, rfl⟩ := exists_concat some_
  rw [inside_concat, joined, joined, String.toList_ofList, String.toList_ofList,
    joinedChars_concat, joinedChars_concat, Segment.canonicalChars_add, List.append_assoc]

theorem joined_inside {segments : List Segment} (some_ : segments ≠ []) {key : String}
    (plain : Segment.needsQuotes key.toList = false) :
    joined (inside key segments) = joined segments ++ "[" ++ key ++ "]" := by
  apply String.toList_inj.1
  rw [toList_joined_inside some_, Segment.bracketed_of_plain plain]
  simp

theorem readable_inside {segments : List Segment} (h : Readable segments) {key : String}
    (plain : Segment.needsQuotes key.toList = false) : Readable (inside key segments) := by
  obtain ⟨heads, last, rfl⟩ := exists_concat h.1
  rw [inside_concat]
  refine ⟨by simp, fun s there => ?_⟩
  rcases List.mem_append.1 there with there | there
  · exact h.2 s (List.mem_append_left _ there)
  · rw [List.mem_singleton.1 there]
    exact (h.2 last (List.mem_append_right _ List.mem_cons_self)).add plain

theorem mem_variants_inside {segments v : List Segment} (some_ : segments ≠ []) {key : String}
    (h : v ∈ variants (inside key segments)) :
    ∃ u ∈ variants segments, v = u ∨ v = inside key u := by
  obtain ⟨heads, last, rfl⟩ := exists_concat some_
  rw [inside_concat] at h
  obtain ⟨a, ha, b, hb, rfl⟩ := mem_variants_append.1 h
  obtain ⟨part, sublist, rfl⟩ := mem_variants_singleton.1 hb
  obtain ⟨kept, final, rfl, keptOf, finalOf⟩ := List.sublist_append_iff.1 sublist
  have there : a ++ [{ last with keys := kept }] ∈ variants (heads ++ [last]) :=
    mem_variants_append.2 ⟨a, ha, _, mem_variants_singleton.2 ⟨kept, keptOf, rfl⟩, rfl⟩
  refine ⟨_, there, ?_⟩
  cases finalOf with
  | cons _ none_ =>
    rw [List.sublist_nil.1 none_, List.append_nil]
    exact .inl rfl
  | cons_cons _ none_ =>
    rw [List.sublist_nil.1 none_, inside_concat]
    exact .inr rfl

theorem addresses_eq_true {registered path : String} :
    addresses registered path = true ↔
      registered = path ∨
        ∃ cs, ']' ∉ cs ∧ registered.toList = path.toList ++ '[' :: (cs ++ [']']) := by
  rw [addresses, Bool.and_eq_true, List.isPrefixOf_iff_prefix]
  constructor
  · rintro ⟨⟨rest, whole⟩, matched⟩
    rw [← whole, List.drop_left] at matched
    cases rest with
    | nil => exact .inl (String.toList_inj.1 (by simpa using whole.symm))
    | cons c r =>
      simp only [Bool.and_eq_true, decide_eq_true_eq] at matched
      obtain ⟨rfl, ends⟩ := matched
      rw [List.dropWhile_cons, if_pos (by decide)] at ends
      refine .inr ⟨r.takeWhile (· ≠ ']'), fun there => ?_, ?_⟩
      · simpa using List.all_eq_true.1 List.all_takeWhile _ there
      · rw [← whole, ← ends, List.takeWhile_append_dropWhile]
  · rintro (rfl | ⟨cs, closed, whole⟩)
    · exact ⟨List.prefix_rfl, by simp⟩
    · have before : ∀ c ∈ cs, decide (c ≠ ']') = true := fun c there =>
        decide_eq_true fun same => closed (same ▸ there)
      have ends : ('[' :: (cs ++ [']'])).dropWhile (fun c => decide (c ≠ ']')) = [']'] := by
        rw [List.dropWhile_cons, if_pos (by decide), List.dropWhile_append_of_pos before]
        rfl
      refine ⟨⟨_, whole.symm⟩, ?_⟩
      rw [whole, List.drop_left]
      simp only [ends, decide_true, Bool.and_self]

theorem addresses_self (path : String) : addresses path path = true :=
  addresses_eq_true.2 (.inl rfl)

theorem addresses_inside {segments : List Segment} (some_ : segments ≠ []) {key : String}
    (closed : ']' ∉ key.toList) :
    addresses (joined (inside key segments)) (joined segments) = true := by
  obtain ⟨cs, none_, shape⟩ := Segment.exists_bracketed closed
  exact addresses_eq_true.2 (.inr ⟨cs, none_, shape ▸ toList_joined_inside some_ key⟩)

end Path

end PropertyAccess
