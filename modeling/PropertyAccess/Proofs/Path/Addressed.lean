import PropertyAccess.Proofs.Conversion.ElementPaths

/-! Which registered paths address a property. The test is made on texts: the path stands in
front, and what follows is a group in brackets that ends with its first closing bracket. So
it finds the path itself and the path with one more key, but for a key that holds a closing
bracket: there the test takes the bracket in the key for the end of the group. -/

namespace PropertyAccess

namespace Path

open Segment

theorem scan_joinedChars_append {heads : List Segment} {last : Segment}
    (hs : ∀ s ∈ heads ++ [last], s.Readable) (rest : List Char) :
    scan [] [] (joinedChars (heads ++ [last]) ++ rest) =
      (scan last.name.toList last.keys rest).map (heads ++ ·) := by
  induction heads with
  | nil =>
    rw [List.nil_append, joinedChars, scan_canonicalChars (hs last List.mem_cons_self)]
    cases scan last.name.toList last.keys rest <;> rfl
  | cons s r ih =>
    have own := hs s List.mem_cons_self
    have more : joinedChars (s :: r ++ [last]) =
        s.canonicalChars ++ '.' :: joinedChars (r ++ [last]) := by
      cases r <;> rfl
    rw [more, List.append_assoc, List.cons_append, scan_canonicalChars own, scan_dot own,
      ih fun t there => hs t (List.mem_cons_of_mem _ there)]
    cases scan last.name.toList last.keys rest <;> rfl

/-- A group whose only closing bracket is its last character holds one key and nothing else. -/
theorem of_scanKey_closed {cs key rest : List Char} (closed : ']' ∉ cs)
    (h : scanKey (cs ++ [']']) = some (key, rest)) : rest = [] ∧ ']' ∉ key := by
  -- Wherever the key is followed by a bracket, this is the bracket at the end.
  have ends {front : List Char} (parts : cs ++ [']'] = front ++ ']' :: rest) :
      front = cs ∧ rest = [] := by
    rcases List.append_eq_append_iff.1 parts with ⟨more, rfl, later⟩ | ⟨more, rfl, later⟩
    · cases more with
      | nil => simpa using later
      | cons c more => simp at later
    · cases more with
      | nil => simpa using later.symm
      | cons c more =>
        obtain ⟨rfl, -⟩ := List.cons.inj later
        simp at closed
  have plain (h : scanPlain 0 (cs ++ [']']) = some (key, rest)) : rest = [] ∧ ']' ∉ key := by
    obtain ⟨rfl, none_⟩ := ends (of_scanPlain h).1
    exact ⟨none_, closed⟩
  cases whole : cs ++ [']'] with
  | nil => simp at whole
  | cons q r =>
    rw [whole] at h plain
    rw [scanKey] at h
    split at h
    · split at h
      · rename_i found hf
        obtain rfl := Option.some.inj h
        have parts := (of_scanQuoted hf).1
        have inner : cs ++ [']'] = (q :: (key ++ [q])) ++ ']' :: rest := by simp [whole, parts]
        obtain ⟨rfl, none_⟩ := ends inner
        simp only [List.mem_cons, List.mem_append, not_or] at closed
        exact ⟨none_, closed.2.1⟩
      · exact plain h
    · exact plain h

theorem scan_group {name : List Char} {keys : List String} {cs : List Char} (closed : ']' ∉ cs)
    {segments : List Segment} (h : scan name keys ('[' :: (cs ++ [']'])) = .ok segments) :
    ∃ key : String, ']' ∉ key.toList ∧ segments = [⟨String.ofList name, keys ++ [key]⟩] := by
  rw [scan.eq_def] at h
  simp only [show ('[' : Char) ≠ '.' by decide, if_false, if_true] at h
  split at h
  · cases h
  · rename_i named
    split at h
    · cases h
    · rename_i key rest found
      obtain ⟨rfl, clear_⟩ := of_scanKey_closed closed found
      rw [scan, if_neg named] at h
      refine ⟨String.ofList key, ?_, (Except.ok.inj h).symm⟩
      rwa [String.toList_ofList]

/-- A registered path addresses a property exactly if it is the path of the property, or this
path with one more key in which no bracket closes. -/
theorem addresses_iff {registered path : String} {r p : Path} (hr : parse registered = .ok r)
    (hp : parse path = .ok p) :
    addresses r.canonical p.canonical = true ↔
      r.segments = p.segments ∨
        ∃ key : String, ']' ∉ key.toList ∧ r.segments = inside key p.segments := by
  have readable : Readable p.segments := readable_of_parse hp
  constructor
  · intro found
    rcases addresses_eq_true.1 found with same | ⟨cs, closed, whole⟩
    · exact .inl ((canonical_inj hr hp).1 same)
    have read := parse_ok.1 (parse_canonical hr)
    obtain ⟨heads, last, split_⟩ := exists_concat readable.1
    rw [whole, Path.canonical, joined, String.toList_ofList, split_,
      scan_joinedChars_append (split_ ▸ readable.2)] at read
    cases group : scan last.name.toList last.keys ('[' :: (cs ++ [']'])) with
    | error e =>
      rw [group] at read
      cases read
    | ok segments =>
      obtain ⟨key, clear_, rfl⟩ := scan_group closed group
      rw [group, String.ofList_toList] at read
      refine .inr ⟨key, clear_, ?_⟩
      rw [split_, inside_concat]
      exact (Except.ok.inj read).symm
  · rintro (same | ⟨key, clear_, same⟩)
    · rw [Path.canonical, same]
      exact addresses_self _
    · rw [Path.canonical, same]
      exact addresses_inside readable.1 clear_

theorem addresses_iff_nested :
    parse "m[a[0]]" = .ok ⟨inside "a[0]" [⟨"m", []⟩]⟩ ∧ addresses "m[a[0]]" "m" = false ∧
      parse "m['x[y']" = .ok ⟨inside "x[y" [⟨"m", []⟩]⟩ ∧ addresses "m['x[y']" "m" = true := by
  have path : parse "m" = .ok ⟨[⟨"m", []⟩]⟩ := by cbv
  have nested : parse "m[a[0]]" = .ok ⟨inside "a[0]" [⟨"m", []⟩]⟩ := by cbv
  have open_ : parse "m['x[y']" = .ok ⟨inside "x[y" [⟨"m", []⟩]⟩ := by cbv
  refine ⟨nested, ?_, open_, (addresses_iff open_ path).2 (.inr ⟨"x[y", by decide, rfl⟩)⟩
  refine Bool.eq_false_iff.2 fun found => ?_
  have found : addresses (Path.canonical ⟨inside "a[0]" [⟨"m", []⟩]⟩)
      (Path.canonical ⟨[⟨"m", []⟩]⟩) = true := found
  rcases (addresses_iff nested path).1 found with same | ⟨key, clear_, same⟩
  · cases same
  · obtain rfl : "a[0]" = key := by simpa [inside, Segment.add] using same
    exact clear_ (by decide)

end Path

end PropertyAccess
