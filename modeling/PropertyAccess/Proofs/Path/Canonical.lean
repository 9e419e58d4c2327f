import PropertyAccess.Proofs.Path.Keys

/-! Canonical texts of paths. Every segment that was read has a name and legible
keys, and the canonical text of such segments reads back as the same segments.
So the canonical text says which path it is. -/

namespace PropertyAccess

structure Segment.Readable (s : Segment) : Prop where
  name : s.name.toList ≠ []
  keys : ∀ key ∈ s.keys, Segment.Legible key.toList

namespace Path

open Segment

theorem isEmpty_eq_false {α : Type} {l : List α} (h : l ≠ []) : l.isEmpty = false := by
  cases l with
  | nil => exact absurd rfl h
  | cons => rfl

theorem scan_plain (name : List Char) {c : Char} (hc : special c = false) (r : List Char) :
    scan name [] (c :: r) = scan (name ++ [c]) [] r := by
  simp only [special, Bool.or_eq_false_iff, decide_eq_false_iff_not] at hc
  obtain ⟨⟨⟨dot, opening⟩, closing⟩, slash⟩ := hc
  rw [scan.eq_def]
  simp [dot, opening, closing, slash]

theorem scan_slash (name : List Char) (c : Char) (r : List Char) :
    scan name [] ('\\' :: c :: r) = scan (name ++ [c]) [] r := by
  rw [scan.eq_def]
  simp

theorem scan_escape (name cs rest : List Char) :
    scan name [] (escape cs ++ rest) = scan (name ++ cs) [] rest := by
  induction cs generalizing name with
  | nil => simp [escape]
  | cons c r ih =>
    have step : scan name [] (escape (c :: r) ++ rest) =
        scan (name ++ [c]) [] (escape r ++ rest) := by
      rw [escape]
      split
      · rw [List.cons_append, List.cons_append, scan_slash]
      · rename_i plain
        rw [List.cons_append, scan_plain name (Bool.eq_false_iff.2 plain)]
    rw [step, ih, List.append_assoc, List.singleton_append]

theorem scan_bracketed {name : List Char} (hn : name ≠ []) {key : List Char} (hk : Legible key)
    (keys : List String) (rest : List Char) :
    scan name keys (bracketed key ++ rest) = scan name (keys ++ [String.ofList key]) rest := by
  obtain ⟨cs, hcs, read⟩ := scanKey_bracketed hk rest
  rw [hcs, scan.eq_def]
  simp only [isEmpty_eq_false hn, Bool.false_eq_true, if_false, if_true,
    show ('[' : Char) ≠ '.' by decide]
  split
  · rename_i unread
    rw [read] at unread
    cases unread
  · rename_i found
    rw [read] at found
    cases found
    rfl

theorem scan_keys {name : List Char} (hn : name ≠ []) {ks : List String}
    (hk : ∀ key ∈ ks, Legible key.toList) (keys : List String) (rest : List Char) :
    scan name keys ((ks.flatMap fun key => bracketed key.toList) ++ rest) =
      scan name (keys ++ ks) rest := by
  induction ks generalizing keys with
  | nil => simp
  | cons k r ih =>
    rw [List.flatMap_cons, List.append_assoc,
      scan_bracketed hn (hk k List.mem_cons_self),
      ih (fun key hm => hk key (List.mem_cons_of_mem _ hm)), String.ofList_toList,
      List.append_assoc, List.singleton_append]

theorem scan_canonicalChars {s : Segment} (hs : s.Readable) (rest : List Char) :
    scan [] [] (s.canonicalChars ++ rest) = scan s.name.toList s.keys rest := by
  rw [canonicalChars, List.append_assoc, scan_escape, List.nil_append, scan_keys hs.name hs.keys,
    List.nil_append]

theorem scan_end {s : Segment} (hs : s.Readable) : scan s.name.toList s.keys [] = .ok [s] := by
  rw [scan, isEmpty_eq_false hs.name, if_neg (by decide), String.ofList_toList]

theorem scan_dot {s : Segment} (hs : s.Readable) (rest : List Char) :
    scan s.name.toList s.keys ('.' :: rest) = (scan [] [] rest).map (s :: ·) := by
  rw [scan.eq_def]
  simp [isEmpty_eq_false hs.name]

/-- The canonical text of segments reads back as these segments. -/
theorem scan_joinedChars {segments : List Segment} (hne : segments ≠ [])
    (hs : ∀ s ∈ segments, s.Readable) :
    scan [] [] (joinedChars segments) = .ok segments := by
  induction segments with
  | nil => exact absurd rfl hne
  | cons s rest ih =>
    have head := hs s List.mem_cons_self
    cases rest with
    | nil =>
      have read := scan_canonicalChars head []
      rwa [List.append_nil, scan_end head] at read
    | cons next rest =>
      have tail := ih (by simp) fun t ht => hs t (List.mem_cons_of_mem _ ht)
      rw [joinedChars, scan_canonicalChars head, scan_dot head, tail]
      · rfl
      · simp

/-- What reading leaves: at least one segment, and only readable ones. -/
theorem readable_of_scan {name : List Char} {keys : List String} {cs : List Char}
    {segments : List Segment} (hk : ∀ key ∈ keys, Legible key.toList)
    (h : scan name keys cs = .ok segments) :
    segments ≠ [] ∧ ∀ s ∈ segments, s.Readable := by
  have begun : ∀ {name : List Char} {keys : List String}, ¬ name.isEmpty = true →
      (∀ key ∈ keys, Legible key.toList) → Readable ⟨String.ofList name, keys⟩ := by
    intro name keys hn hk
    refine ⟨?_, hk⟩
    rw [String.toList_ofList]
    rintro rfl
    exact hn rfl
  fun_induction scan name keys cs generalizing segments with
  | case2 name keys hn =>
    obtain rfl := Except.ok.inj h
    refine ⟨by simp, fun s hs => ?_⟩
    rw [List.mem_singleton.1 hs]
    exact begun hn hk
  | case4 name keys r hn ih =>
    cases read : scan [] [] r with
    | error e =>
      rw [read] at h
      cases h
    | ok rest =>
      rw [read] at h
      obtain rfl := Except.ok.inj h
      refine ⟨by simp, fun s hs => ?_⟩
      rcases List.mem_cons.1 hs with rfl | hs
      · exact begun hn hk
      · exact (ih (by simp) read).2 s hs
  | case7 name keys r hn key rest found _ _ ih =>
    refine ih (fun k hm => ?_) h
    rcases List.mem_append.1 hm with hm | hm
    · exact hk k hm
    · rw [List.mem_singleton.1 hm, String.toList_ofList]
      exact legible_of_scanKey found
  | case11 name keys _ c r _ _ _ ih => exact ih hk h
  | case12 name keys c r _ _ _ _ _ ih => exact ih hk h
  | _ => cases h

theorem parse_ok {text : String} {p : Path} :
    parse text = .ok p ↔ scan [] [] text.toList = .ok p.segments := by
  rw [parse]
  split
  · rename_i segments read
    rw [read, Except.ok.injEq, Except.ok.injEq]
    constructor
    · rintro rfl
      rfl
    · rintro rfl
      rfl
  · rename_i read
    rw [read]
    constructor <;> intro h <;> cases h

theorem readable_of_parse {text : String} {p : Path} (h : parse text = .ok p) :
    p.segments ≠ [] ∧ ∀ s ∈ p.segments, s.Readable :=
  readable_of_scan (by simp) (parse_ok.1 h)

theorem parse_canonical {text : String} {p : Path} (h : parse text = .ok p) :
    parse p.canonical = .ok p := by
  have read := readable_of_parse h
  rw [parse_ok, canonical, joined, String.toList_ofList]
  exact scan_joinedChars read.1 read.2

theorem canonical_inj {text text' : String} {p p' : Path} (h : parse text = .ok p)
    (h' : parse text' = .ok p') : p.canonical = p'.canonical ↔ p.segments = p'.segments := by
  constructor
  · intro same
    have read := parse_canonical h
    rw [same, parse_canonical h'] at read
    rw [Except.ok.inj read]
  · intro same
    rw [canonical, same, canonical]

end Path

theorem Segment.canonical_inj {s t : Segment} (hs : s.Readable) (ht : t.Readable) :
    s.canonical = t.canonical ↔ s = t := by
  constructor
  · intro same
    have chars : s.canonicalChars = t.canonicalChars := by
      simpa [canonical] using congrArg String.toList same
    have read := Path.scan_canonicalChars hs []
    rw [chars, Path.scan_canonicalChars ht, Path.scan_end ht, Path.scan_end hs] at read
    exact (List.cons.inj (Except.ok.inj read)).1.symm
  · intro same
    rw [same]

end PropertyAccess
