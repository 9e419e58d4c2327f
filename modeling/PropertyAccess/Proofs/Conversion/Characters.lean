import PropertyAccess.Conversion.Builtin
import PropertyAccess.Proofs.Number.Numeral

/-! The texts that are read as a character: a single character, or an escape, which is a
backslash, a `u` and four hexadecimal digits of the code of the character. A plus sign may
stand in for the first of the digits. Empty text is read as null where null is allowed, and
every other text is refused. -/

namespace PropertyAccess

namespace Text

variable {c : Char} {cs : List Char} {n : Nat}

theorem utf8Size_digitChar :
    ∀ d < 16, d.digitChar.utf8Size = 1 ∧ d.digitChar.toUpper.utf8Size = 1 := by
  decide

theorem utf8Size_of_isDigitOf {d : Nat} (digit : IsDigitOf 16 c d) : c.utf8Size = 1 := by
  obtain ⟨below, spelled⟩ := digit
  have one := utf8Size_digitChar d below
  rcases spelled with rfl | rfl
  · exact one.1
  · exact one.2

theorem IsNumeral.utf8Length_eq (numeral : IsNumeral 16 cs n) : utf8Length cs = cs.length := by
  obtain ⟨-, ds, spelled, -⟩ := numeral
  induction spelled with
  | nil => rfl
  | cons own _ ih =>
    rw [utf8Length, utf8Size_of_isDigitOf own, ih, List.length_cons]
    omega

theorem IsNumeral.lt_pow (numeral : IsNumeral 16 cs n) : n < 16 ^ cs.length := by
  obtain ⟨-, ds, spelled, rfl⟩ := numeral
  have below : ∀ d ∈ ds, d < 16 := by
    induction spelled with
    | nil => simp
    | cons own _ ih => exact List.forall_mem_cons.2 ⟨own.1, ih⟩
  rw [spelled.length_eq, ← List.length_reverse]
  exact Nat.ofDigits_lt_base_pow_length (by decide) fun d hd => below d (List.mem_reverse.1 hd)

theorem not_isNumeral_plus : ¬ IsNumeral 16 ('+' :: cs) n := by
  intro numeral
  have read := (natural?_eq_some_iff (by decide)).2 numeral
  cases read

theorem unsigned?_eq_some_iff_of_bytes (four : utf8Length cs = 4) :
    unsigned? 16 (Nat.pow 2 32) cs = some n ↔
      IsNumeral 16 cs n ∨ ∃ digits, cs = '+' :: digits ∧ IsNumeral 16 digits n := by
  have read (digits : List Char) (short : utf8Length digits ≤ 4) :
      (natural? 16 digits).filter (· < Nat.pow 2 32) = some n ↔ IsNumeral 16 digits n := by
    rw [Option.filter_eq_some_iff, natural?_eq_some_iff (by decide)]
    refine ⟨And.left, fun numeral => ⟨numeral, ?_⟩⟩
    have few : digits.length ≤ 4 := by rwa [← numeral.utf8Length_eq]
    have low : n < 16 ^ 4 := numeral.lt_pow.trans_le (Nat.pow_le_pow_right (by decide) few)
    have high : 16 ^ 4 < Nat.pow 2 32 := by decide
    simpa using low.trans high
  unfold unsigned?
  split
  · rename_i digits
    rw [utf8Length] at four
    rw [read digits (by omega)]
    simp [not_isNumeral_plus]
  · rename_i unmarked
    rw [read cs (by omega)]
    refine ⟨.inl, fun own => own.resolve_right ?_⟩
    rintro ⟨digits, marked, -⟩
    exact unmarked digits marked

end Text

namespace Converter

open Text

variable {cs : List Char} {c : Char} {text : String} {allowEmpty : Bool}

/-- Behind a backslash and a `u` stand four hexadecimal digits, which make the character. -/
def IsEscape (cs : List Char) (c : Char) : Prop :=
  ∃ digits, cs = '\\' :: 'u' :: digits ∧ digits.length = 4 ∧ IsNumeral 16 digits c.toNat

/-- The same with a plus sign and three digits. -/
def IsSignedEscape (cs : List Char) (c : Char) : Prop :=
  ∃ digits, cs = '\\' :: 'u' :: '+' :: digits ∧ digits.length = 3 ∧ IsNumeral 16 digits c.toNat

theorem charOfCode?_eq_some_iff {n : Nat} : charOfCode? n = some c ↔ n = c.toNat := by
  rw [charOfCode?]
  by_cases valid : n.isValidChar
  · rw [dif_pos valid, Option.some_inj]
    constructor
    · rintro rfl
      rfl
    · rintro rfl
      rfl
  · rw [dif_neg valid]
    refine iff_of_false (Option.some_ne_none c).symm fun same => valid ?_
    rw [same]
    exact c.valid

theorem escapeCode?_eq_some_iff {code : List Char} :
    escapeCode? cs = some code ↔ cs = '\\' :: 'u' :: code ∧ utf8Length code = 4 := by
  constructor
  · intro found
    unfold escapeCode? at found
    split at found
    · split at found
      · rename_i bytes
        obtain rfl := Option.some.inj found
        exact ⟨rfl, bytes⟩
      · cases found
    · cases found
  · rintro ⟨rfl, bytes⟩
    exact if_pos bytes

theorem read_escape_iff {code : List Char} (escape : escapeCode? cs = some code) :
    (unsigned? 16 (Nat.pow 2 32) code).bind charOfCode? = some c ↔
      IsEscape cs c ∨ IsSignedEscape cs c := by
  obtain ⟨rfl, bytes⟩ := escapeCode?_eq_some_iff.1 escape
  simp only [Option.bind_eq_some_iff, charOfCode?_eq_some_iff, unsigned?_eq_some_iff_of_bytes bytes,
    exists_eq_right]
  refine or_congr ?_ ?_
  · constructor
    · intro numeral
      exact ⟨code, rfl, by rw [← numeral.utf8Length_eq, bytes], numeral⟩
    · rintro ⟨digits, same, -, numeral⟩
      obtain rfl : code = digits := by simpa using same
      exact numeral
  · constructor
    · rintro ⟨digits, rfl, numeral⟩
      have plus : ('+').utf8Size = 1 := rfl
      rw [utf8Length, plus, numeral.utf8Length_eq] at bytes
      exact ⟨digits, rfl, by omega, numeral⟩
    · rintro ⟨digits, same, -, numeral⟩
      exact ⟨digits, by simpa using same, numeral⟩

theorem escapeCode?_of_isEscape (own : IsEscape cs c ∨ IsSignedEscape cs c) :
    ∃ code, escapeCode? cs = some code := by
  rcases own with ⟨digits, rfl, long, numeral⟩ | ⟨digits, rfl, long, numeral⟩
  · exact ⟨digits, escapeCode?_eq_some_iff.2 ⟨rfl, by rw [numeral.utf8Length_eq, long]⟩⟩
  · refine ⟨'+' :: digits, escapeCode?_eq_some_iff.2 ⟨rfl, ?_⟩⟩
    rw [utf8Length, numeral.utf8Length_eq, long]
    rfl

/-- What reading a text as a character comes to. -/
inductive ReadsChar (allowEmpty : Bool) (text : String) : Except ConvertFailure Value → Prop
  | sole {c : Char} (own : text.toList = [c]) : ReadsChar allowEmpty text (.ok (.char c))
  | escape {c : Char} (own : IsEscape text.toList c) : ReadsChar allowEmpty text (.ok (.char c))
  | signed {c : Char} (own : IsSignedEscape text.toList c) :
    ReadsChar allowEmpty text (.ok (.char c))
  | empty (own : text = "") (allowed : allowEmpty = true) : ReadsChar allowEmpty text (.ok .null)
  | malformed {code : List Char} (marked : text.toList = '\\' :: 'u' :: code)
    (bytes : utf8Length code = 4)
    (nothing : ∀ c, ¬ IsEscape text.toList c ∧ ¬ IsSignedEscape text.toList c) :
    ReadsChar allowEmpty text (.error (.invalid ("invalid unicode escape `" ++ text ++ "`")))
  | neither (unmarked : ∀ code, text.toList = '\\' :: 'u' :: code → utf8Length code ≠ 4)
    (several : ∀ c, text.toList ≠ [c]) (refused : text = "" → allowEmpty = false) :
    ReadsChar allowEmpty text (.error (.invalid
      ("`" ++ text ++ "` is neither a single character nor a unicode escape")))

theorem readsChar_charOf (allowEmpty : Bool) (text : String) :
    ReadsChar allowEmpty text (charOf allowEmpty text) := by
  unfold charOf
  dsimp only
  split
  · rename_i empty
    rw [Bool.and_eq_true, List.isEmpty_iff, String.toList_eq_nil_iff] at empty
    exact .empty empty.2 empty.1
  · rename_i filled
    split
    · rename_i code escape
      obtain ⟨marked, bytes⟩ := escapeCode?_eq_some_iff.1 escape
      split
      · rename_i c read
        rcases (read_escape_iff escape).1 read with own | own
        · exact .escape own
        · exact .signed own
      · rename_i unread
        refine .malformed marked bytes fun c => not_or.1 fun own => ?_
        rw [(read_escape_iff escape).2 own] at unread
        cases unread
    · rename_i plain
      have unmarked (code : List Char) (marked : text.toList = '\\' :: 'u' :: code) :
          utf8Length code ≠ 4 := by
        intro bytes
        rw [escapeCode?_eq_some_iff.2 ⟨marked, bytes⟩] at plain
        cases plain
      split
      · exact .sole ‹_›
      · rename_i several
        refine .neither unmarked several ?_
        rintro rfl
        simpa using filled

theorem charOf_of_escape {code : List Char} (escape : escapeCode? text.toList = some code) :
    charOf allowEmpty text = ((unsigned? 16 (Nat.pow 2 32) code).bind charOfCode?).elim
      (.error (.invalid ("invalid unicode escape `" ++ text ++ "`"))) fun c => .ok (.char c) := by
  have marked := (escapeCode?_eq_some_iff.1 escape).1
  have filled : (allowEmpty && text.toList.isEmpty) = false := by simp [marked]
  rw [charOf]
  simp only [filled, escape, Bool.false_eq_true, if_false]
  cases (unsigned? 16 (Nat.pow 2 32) code).bind charOfCode? <;> rfl

theorem charOf_of_readsChar {r : Except ConvertFailure Value} (reads : ReadsChar allowEmpty text r) :
    charOf allowEmpty text = r := by
  cases reads with
  | sole own =>
    simp [charOf, own, escapeCode?]
  | escape own =>
    obtain ⟨code, escape⟩ := escapeCode?_of_isEscape (.inl own)
    rw [charOf_of_escape escape, (read_escape_iff escape).2 (.inl own), Option.elim_some]
  | signed own =>
    obtain ⟨code, escape⟩ := escapeCode?_of_isEscape (.inr own)
    rw [charOf_of_escape escape, (read_escape_iff escape).2 (.inr own), Option.elim_some]
  | empty own allowed =>
    subst own allowed
    rfl
  | malformed marked bytes nothing =>
    have escape := escapeCode?_eq_some_iff.2 ⟨marked, bytes⟩
    have unread : (unsigned? 16 (Nat.pow 2 32) _).bind charOfCode? = none :=
      Option.eq_none_iff_forall_ne_some.2 fun c read =>
        (not_or.2 (nothing c)) ((read_escape_iff escape).1 read)
    rw [charOf_of_escape escape, unread, Option.elim_none]
  | neither unmarked several refused =>
    have filled : (allowEmpty && text.toList.isEmpty) = false := by
      rw [Bool.and_eq_false_iff]
      by_cases empty : text = ""
      · exact .inl (refused empty)
      · right
        simpa using empty
    have plain : escapeCode? text.toList = none :=
      Option.eq_none_iff_forall_ne_some.2 fun code found =>
        have own := escapeCode?_eq_some_iff.1 found
        unmarked code own.1 own.2
    rw [charOf]
    simp only [filled, plain, Bool.false_eq_true, if_false]

/-- A text is read as a character just if it is that character or an escape of it, where the
escape has four hexadecimal digits, or a plus sign and three. Empty text is null where that is
allowed, and any other text is refused. The graph is left as it is. -/
theorem fromText_char_iff_reads (allowEmpty : Bool) (σ : Schema) (text : String) (required : Ty)
    (h h' : Heap) (r : Except ConvertFailure Value) :
    ((char allowEmpty).fromText σ text required).on h = (r, h') ↔
      h' = h ∧ ReadsChar allowEmpty text r := by
  have ran : ((char allowEmpty).fromText σ text required).on h = (charOf allowEmpty text, h) := rfl
  rw [ran, Prod.mk.injEq, and_comm]
  refine and_congr eq_comm ⟨?_, charOf_of_readsChar⟩
  rintro rfl
  exact readsChar_charOf allowEmpty text

example : charOf false "\\u+041" = .ok (.char 'A') := by
  decide +kernel

end Converter

end PropertyAccess
