import PropertyAccess.Path.Parser

/-! Keys in brackets. A key that was read never holds both closings of the two
quotes, unless it is one that plain brackets show. So the quote that is chosen
for a key ends it where it is meant to end, and what is written for a key is
read back as that key. -/

namespace PropertyAccess

namespace Segment

/-- Where the key is written with quotes, the quote chosen does not end it early. -/
def Legible (key : List Char) : Prop :=
  needsQuotes key = true → adjacent (quoteFor key) ']' key = false

theorem isQuote_quoteFor (key : List Char) : isQuote (quoteFor key) = true := by
  unfold quoteFor
  split <;> rfl

theorem ne_bracket_of_isQuote {q : Char} (hq : isQuote q = true) : q ≠ ']' := by
  rintro rfl
  exact absurd hq (by decide)

theorem adjacent_quoteFor {q : Char} {key : List Char} (hq : isQuote q = true)
    (h : adjacent q ']' key = false) : adjacent (quoteFor key) ']' key = false := by
  unfold quoteFor
  split
  · rename_i single
    simp only [isQuote, Bool.or_eq_true, decide_eq_true_eq] at hq
    rcases hq with rfl | rfl
    · rw [h] at single
      cases single
    · exact h
  · rename_i single
    exact Bool.eq_false_iff.2 single

theorem adjacent_of_append {a b : Char} {cs ds : List Char}
    (h : adjacent a b (cs ++ ds) = false) : adjacent a b cs = false := by
  induction cs with
  | nil => rfl
  | cons c r ih =>
    cases r with
    | nil => rfl
    | cons d r =>
      simp only [List.cons_append, adjacent, Bool.or_eq_false_iff] at h ⊢
      exact ⟨h.1, ih h.2⟩

end Segment

namespace Path

open Segment

theorem scanQuoted_append {q : Char} {key : List Char} (hq : q ≠ ']')
    (h : adjacent q ']' key = false) (rest : List Char) :
    scanQuoted q (key ++ q :: ']' :: rest) = some (key, rest) := by
  induction key with
  | nil => simp [scanQuoted]
  | cons c r ih =>
    cases r with
    | nil => simp [scanQuoted, hq]
    | cons d r =>
      simp only [adjacent, Bool.or_eq_false_iff, Bool.and_eq_false_imp, decide_eq_true_eq,
        decide_eq_false_iff_not] at h
      have apart : ¬ (c = q ∧ d = ']') := fun both => h.1 both.1 both.2
      have read := ih h.2
      simp only [List.cons_append] at read
      simp only [List.cons_append, scanQuoted, if_neg apart, read, Option.map_some]

theorem of_scanQuoted {q : Char} {cs key rest : List Char}
    (h : scanQuoted q cs = some (key, rest)) :
    cs = key ++ q :: ']' :: rest ∧ adjacent q ']' key = false := by
  fun_induction scanQuoted q cs generalizing key rest with
  | case1 c d r hc =>
    obtain ⟨rfl, rfl⟩ := hc
    obtain ⟨rfl, rfl⟩ : [] = key ∧ r = rest := by simpa using h
    exact ⟨rfl, rfl⟩
  | case2 c d r hc ih =>
    obtain ⟨⟨k, s⟩, hs, he⟩ := Option.map_eq_some_iff.1 h
    obtain ⟨rfl, rfl⟩ := Prod.mk.inj he
    obtain ⟨parts, inner⟩ := ih hs
    refine ⟨by rw [parts, List.cons_append], ?_⟩
    cases k with
    | nil => rfl
    | cons e k =>
      obtain rfl : d = e := (List.cons.inj parts).1
      simp only [adjacent, inner, Bool.or_false, Bool.and_eq_false_imp, decide_eq_true_eq,
        decide_eq_false_iff_not]
      exact fun hcq hd => hc ⟨hcq, hd⟩
  | case3 => simp at h

theorem adjacent_of_scanQuoted_eq_none {q : Char} {cs : List Char}
    (h : scanQuoted q cs = none) : adjacent q ']' cs = false := by
  fun_induction scanQuoted q cs with
  | case1 => cases h
  | case2 c d r hc ih =>
    have inner := ih (Option.map_eq_none_iff.1 h)
    simp only [adjacent, inner, Bool.or_false, Bool.and_eq_false_imp, decide_eq_true_eq,
      decide_eq_false_iff_not]
    exact fun hcq hd => hc ⟨hcq, hd⟩
  | case3 cs hcs =>
    unfold adjacent
    split
    · rename_i c d r
      exact absurd rfl (hcs c d r)
    · rfl

theorem scanPlain_append {depth : Nat} {key : List Char} (h : balanced depth key = true)
    (rest : List Char) : scanPlain depth (key ++ ']' :: rest) = some (key, rest) := by
  induction key generalizing depth with
  | nil =>
    obtain rfl : depth = 0 := by simpa [balanced] using h
    simp [scanPlain]
  | cons c r ih =>
    rw [balanced] at h
    rw [List.cons_append, scanPlain]
    split at h
    · rename_i hc
      rw [if_pos hc, ih h, Option.map_some]
    · rename_i hc
      rw [if_neg hc]
      split at h
      · rename_i hd
        simp only [Bool.and_eq_true, bne_iff_ne] at h
        rw [if_pos hd, if_neg h.1, ih h.2, Option.map_some]
      · rename_i hd
        rw [if_neg hd, ih h, Option.map_some]

theorem of_scanPlain {depth : Nat} {cs key rest : List Char}
    (h : scanPlain depth cs = some (key, rest)) :
    cs = key ++ ']' :: rest ∧ balanced depth key = true := by
  induction cs generalizing depth key with
  | nil => simp [scanPlain] at h
  | cons c r ih =>
    have step : ∀ d, (scanPlain d r).map (fun p => (c :: p.1, p.2)) = some (key, rest) →
        ∃ k, key = c :: k ∧ r = k ++ ']' :: rest ∧ balanced d k = true := by
      intro d hd
      obtain ⟨⟨k, s⟩, hs, he⟩ := Option.map_eq_some_iff.1 hd
      obtain ⟨rfl, rfl⟩ := Prod.mk.inj he
      exact ⟨k, rfl, ih hs⟩
    rw [scanPlain] at h
    split at h
    · rename_i hc
      obtain ⟨k, rfl, rfl, hk⟩ := step _ h
      exact ⟨rfl, by rw [balanced, if_pos hc, hk]⟩
    · rename_i hc
      split at h
      · rename_i hd
        split at h
        · obtain ⟨rfl, rfl⟩ : [] = key ∧ r = rest := by simpa using h
          exact ⟨by rw [hd, List.nil_append], by simpa [balanced]⟩
        · rename_i hz
          obtain ⟨k, rfl, rfl, hk⟩ := step _ h
          exact ⟨rfl, by simp [balanced, hd, hz, hk]⟩
      · rename_i hd
        obtain ⟨k, rfl, rfl, hk⟩ := step _ h
        exact ⟨rfl, by rw [balanced, if_neg hc, if_neg hd, hk]⟩

theorem adjacent_of_scanPlain {q : Char} {r key rest : List Char} (hq : isQuote q = true)
    (unclosed : scanQuoted q r = none) (h : scanPlain 0 (q :: r) = some (key, rest)) :
    adjacent q ']' key = false := by
  obtain ⟨parts, paired⟩ := of_scanPlain h
  cases key with
  | nil => rfl
  | cons c k =>
    obtain ⟨rfl, rfl⟩ := List.cons.inj parts
    have inner := adjacent_of_append (adjacent_of_scanQuoted_eq_none unclosed)
    cases k with
    | nil => rfl
    | cons d k =>
      -- The bracket would have ended the key at once.
      have hd : d ≠ ']' := by
        rintro rfl
        have hopen : q ≠ '[' := by
          rintro rfl
          exact absurd hq (by decide)
        simp [balanced, hopen, ne_bracket_of_isQuote hq] at paired
      simp [adjacent, inner, hd]

theorem legible_of_scanKey {cs key rest : List Char} (h : scanKey cs = some (key, rest)) :
    Legible key := by
  cases cs with
  | nil => simp [scanKey] at h
  | cons q r =>
    rw [scanKey] at h
    split at h
    · rename_i hq
      split at h
      · rename_i found hf
        obtain rfl := Option.some.inj h
        exact fun _ => adjacent_quoteFor hq (of_scanQuoted hf).2
      · rename_i hopen
        exact fun _ => adjacent_quoteFor hq (adjacent_of_scanPlain hq hopen h)
    · rename_i hq
      intro needs
      obtain ⟨parts, paired⟩ := of_scanPlain h
      cases key with
      | nil => rfl
      | cons c k =>
        obtain rfl : q = c := (List.cons.inj parts).1
        simp [needsQuotes, startsQuoted, hq, paired] at needs

theorem scanKey_bracketed {key : List Char} (h : Legible key) (rest : List Char) :
    ∃ cs, bracketed key ++ rest = '[' :: cs ∧ scanKey cs = some (key, rest) := by
  unfold bracketed
  split
  · rename_i needs
    have hq := isQuote_quoteFor key
    refine ⟨quoteFor key :: (key ++ quoteFor key :: ']' :: rest), by simp, ?_⟩
    rw [scanKey, if_pos hq, scanQuoted_append (ne_bracket_of_isQuote hq) (h needs)]
  · rename_i needs
    refine ⟨key ++ ']' :: rest, by simp, ?_⟩
    simp only [needsQuotes, Bool.or_eq_true, Bool.not_eq_true', not_or, Bool.not_eq_true,
      Bool.not_eq_false] at needs
    have read := scanPlain_append needs.2 rest
    cases key with
    | nil => simp [scanKey, isQuote, scanPlain]
    | cons c k =>
      have plain : isQuote c = false := needs.1
      rw [List.cons_append, scanKey, plain]
      exact read

end Path

end PropertyAccess
