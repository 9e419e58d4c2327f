import Mathlib.Data.List.Forall2
import Mathlib.Data.List.TakeWhile
import Mathlib.Data.Nat.Digits.Defs
import PropertyAccess.Conversion.Converter

/-! The integers that a text can denote: at most one sign, at most one mark of radix sixteen,
then digits of the radix, any number of them. Reading accepts just these and gives the integer
they denote, or an overflow where it is out of the range of the kind. -/

namespace PropertyAccess

namespace Text

variable {radix acc d n : Nat} {c : Char} {cs : List Char} {ds : List Nat}

/-- The character is the digit `d`, small or capital. -/
def IsDigitOf (radix : Nat) (c : Char) (d : Nat) : Prop :=
  d < radix ∧ (c = d.digitChar ∨ c = d.digitChar.toUpper)

/-- The characters are digits, at least one, of which the last is the least significant. -/
def IsNumeral (radix : Nat) (cs : List Char) (n : Nat) : Prop :=
  cs ≠ [] ∧ ∃ ds, List.Forall₂ (IsDigitOf radix) cs ds ∧ n = Nat.ofDigits radix ds.reverse

theorem digit?_of_le (small : radix ≤ 16) (c : Char) :
    digit? radix c = (digit? 16 c).filter (· < radix) := by
  rw [digit?, digit?, Option.filter_filter]
  congr 1
  funext d
  simpa using fun below => Nat.lt_of_lt_of_le below small

theorem digit?_sixteen : ∀ d < 16,
    digit? 16 d.digitChar = some d ∧ digit? 16 d.digitChar.toUpper = some d := by
  decide

theorem toNat_digitChar_letter : ∀ d < 16, 10 ≤ d →
    d.digitChar.toNat = 87 + d ∧ d.digitChar.toUpper.toNat = 55 + d := by
  decide

theorem isDigitOf_sixteen (found : digit? 16 c = some d) : IsDigitOf 16 c d := by
  have below := digit?_lt found
  have value := (Option.filter_eq_some_iff.1 found).1
  have code : c.toNat = 48 + d ∧ d < 10 ∨ 10 ≤ d ∧ (c.toNat = 87 + d ∨ c.toNat = 55 + d) := by
    simp only [Char.le_def, UInt32.le_iff_toNat_le] at value
    have code : c.val.toNat = c.toNat := rfl
    simp only [code, Char.reduceVal, UInt32.reduceToNat, Char.reduceToNat] at value
    split_ifs at value <;> simp only [Option.some.injEq] at value <;> omega
  refine ⟨below, ?_⟩
  rcases code with ⟨code, decimal⟩ | ⟨letter, code | code⟩
  · exact .inl (Char.toNat_inj.1 (code.trans (Nat.toNat_digitChar_of_lt_ten decimal).symm))
  · exact .inl (Char.toNat_inj.1 (code.trans (toNat_digitChar_letter d below letter).1.symm))
  · exact .inr (Char.toNat_inj.1 (code.trans (toNat_digitChar_letter d below letter).2.symm))

theorem digit?_eq_some_iff (small : radix ≤ 16) :
    digit? radix c = some d ↔ IsDigitOf radix c d := by
  rw [digit?_of_le small, Option.filter_eq_some_iff, decide_eq_true_eq]
  constructor
  · rintro ⟨found, below⟩
    exact ⟨below, (isDigitOf_sixteen found).2⟩
  · rintro ⟨below, spelled⟩
    have found := digit?_sixteen d (Nat.lt_of_lt_of_le below small)
    rcases spelled with rfl | rfl
    · exact ⟨found.1, below⟩
    · exact ⟨found.2, below⟩

theorem appendDigits_eq_some_iff (small : radix ≤ 16) :
    appendDigits radix acc cs = some n ↔
      ∃ ds, List.Forall₂ (IsDigitOf radix) cs ds ∧
        n = acc * radix ^ ds.length + Nat.ofDigits radix ds.reverse := by
  induction cs generalizing acc with
  | nil => simp [appendDigits, List.forall₂_nil_left_iff, eq_comm]
  | cons c cs ih =>
    have next (d : Nat) (ds : List Nat) :
        acc * radix ^ (d :: ds).length + Nat.ofDigits radix (d :: ds).reverse =
          (acc * radix + d) * radix ^ ds.length + Nat.ofDigits radix ds.reverse := by
      rw [List.reverse_cons, Nat.ofDigits_append, Nat.ofDigits_singleton, List.length_reverse,
        List.length_cons]
      ring
    rw [appendDigits]
    split
    · rename_i d found
      rw [ih]
      constructor
      · rintro ⟨ds, spelled, rfl⟩
        exact ⟨d :: ds, .cons ((digit?_eq_some_iff small).1 found) spelled, (next d ds).symm⟩
      · rintro ⟨_, spelled, rfl⟩
        cases spelled with
        | cons own spelled =>
          obtain rfl := Option.some.inj (found.symm.trans ((digit?_eq_some_iff small).2 own))
          exact ⟨_, spelled, next d _⟩
    · rename_i missing
      refine ⟨fun none => (by cases none), ?_⟩
      rintro ⟨_, spelled, -⟩
      cases spelled with
      | cons own spelled =>
        rw [(digit?_eq_some_iff small).2 own] at missing
        cases missing

theorem natural?_eq_some_iff (small : radix ≤ 16) :
    natural? radix cs = some n ↔ IsNumeral radix cs n := by
  rw [natural?, IsNumeral]
  cases cs with
  | nil => simp
  | cons c cs =>
    rw [List.isEmpty_cons, if_neg Bool.false_ne_true, appendDigits_eq_some_iff small]
    simp

theorem isBlank_of_isDigit (digit : c.isDigit = true) : isBlank c = false := by
  simp only [Char.isDigit, Bool.and_eq_true, decide_eq_true_eq, UInt32.le_iff_toNat_le] at digit
  have code : c.val.toNat = c.toNat := rfl
  have first : '0'.val.toNat = 48 := rfl
  have last : '9'.val.toNat = 57 := rfl
  have clear : ∀ r ∈ blankRanges, ¬ (r.1 ≤ c.toNat ∧ c.toNat ≤ r.2) := by
    simp only [blankRanges, List.forall_mem_cons, List.not_mem_nil, false_implies, implies_true,
      and_true]
    omega
  simpa [isBlank] using clear

theorem natural?_toDigits (n : Nat) : natural? 10 (Nat.toDigits 10 n) = some n := by
  have read (n : Nat) : appendDigits 10 0 (Nat.toDigits 10 n) = some n := by
    induction n using Nat.strongRecOn with
    | ind n ih =>
      have single (acc d : Nat) (hd : d < 10) :
          appendDigits 10 acc [d.digitChar] = some (acc * 10 + d) := by
        have found := (digit?_eq_some_iff (by decide)).2 (⟨hd, .inl rfl⟩ : IsDigitOf 10 _ d)
        rw [appendDigits, found]
        rfl
      rw [Nat.toDigits_eq_if (by decide)]
      split
      · simpa using single 0 n ‹_›
      · rw [appendDigits_append, ih (n / 10) (by omega), Option.bind_some,
          single _ _ (Nat.mod_lt _ (by decide)), Nat.div_add_mod']
  rw [natural?, if_neg (by simp [Nat.toDigits_ne_nil]), read]

theorem compact_of_trim_eq_nil (blank : trim cs = []) : compact cs = [] := by
  have after : ∀ c ∈ trimStart cs, isBlank c = true := by
    have reversed : trimStart (trimStart cs).reverse = [] := List.reverse_eq_nil_iff.1 blank
    exact fun c hc => List.dropWhile_eq_nil_iff.1 reversed c (List.mem_reverse.2 hc)
  have start : cs.dropWhile isBlank = [] := by
    by_contra rest
    have head := List.head_dropWhile_not isBlank rest
    rw [after _ (List.head_mem rest)] at head
    cases head
  simpa [compact] using List.dropWhile_eq_nil_iff.1 start

end Text

namespace Number

open Text

variable {cs : List Char} {n : Nat} {z : Int} {k : IntKind}

/-- Signs, and what each multiplies by. -/
def signs : List (List Char × Int) := [([], 1), (['+'], 1), (['-'], -1)]

/-- Marks, and the radix of the digits behind each. -/
def marks : List (List Char × Nat) := [([], 10), (['0', 'x'], 16), (['0', 'X'], 16), (['#'], 16)]

def IsMagnitude (cs : List Char) (n : Nat) : Prop :=
  ∃ mark ∈ marks, ∃ digits, cs = mark.1 ++ digits ∧ IsNumeral mark.2 digits n

/-- The text is a sign, a mark and digits, and these make the integer. -/
def Denotes (cs : List Char) (z : Int) : Prop :=
  ∃ sign ∈ signs, ∃ magnitude n, cs = sign.1 ++ magnitude ∧ IsMagnitude magnitude n ∧
    z = sign.2 * n

theorem takeRadix_of_natural? (decimal : natural? 10 cs = some n) : takeRadix cs = (10, cs) := by
  have digits : cs.all (isDigit 10) = true := by
    rw [natural?] at decimal
    split at decimal
    · cases decimal
    · rw [← isSome_appendDigits 10 0, decimal]
      rfl
  have letter : isDigit 10 'x' = false ∧ isDigit 10 'X' = false ∧ isDigit 10 '#' = false := by
    decide
  unfold takeRadix
  split <;> simp_all

theorem natural?_takeRadix :
    natural? (takeRadix cs).1 (takeRadix cs).2 = some n ↔ IsMagnitude cs n := by
  constructor
  · intro read
    unfold takeRadix at read
    split at read
    · exact ⟨(['0', 'x'], 16), by decide, _, rfl, (natural?_eq_some_iff (by decide)).1 read⟩
    · exact ⟨(['0', 'X'], 16), by decide, _, rfl, (natural?_eq_some_iff (by decide)).1 read⟩
    · exact ⟨(['#'], 16), by decide, _, rfl, (natural?_eq_some_iff (by decide)).1 read⟩
    · exact ⟨([], 10), by decide, _, rfl, (natural?_eq_some_iff (by decide)).1 read⟩
  · rintro ⟨mark, there, digits, rfl, numeral⟩
    simp only [marks, List.mem_cons, List.not_mem_nil, or_false] at there
    obtain rfl | rfl | rfl | rfl := there
    · have decimal := (natural?_eq_some_iff (by decide)).2 numeral
      rw [List.nil_append, takeRadix_of_natural? decimal, decimal]
    all_goals exact (natural?_eq_some_iff (Nat.le_refl 16)).2 numeral

theorem takeSign_of_isMagnitude (own : IsMagnitude cs n) : takeSign cs = (false, cs) := by
  rw [← natural?_takeRadix] at own
  unfold takeSign
  split
  · cases own
  · cases own
  · rfl

theorem exists_sign (cs : List Char) : ∃ sign ∈ signs,
    cs = sign.1 ++ (takeSign cs).2 ∧ (if (takeSign cs).1 then -1 else 1) = sign.2 := by
  unfold takeSign
  split
  · exact ⟨(['-'], -1), by decide, rfl, rfl⟩
  · exact ⟨(['+'], 1), by decide, rfl, rfl⟩
  · exact ⟨([], 1), by decide, rfl, rfl⟩

theorem integerOf?_eq (cs : List Char) :
    integerOf? cs = (natural? (takeRadix (takeSign cs).2).1 (takeRadix (takeSign cs).2).2).map
      fun n : Nat => (if (takeSign cs).1 then -1 else 1) * (n : Int) := by
  have unfolded : integerOf? cs =
      (natural? (takeRadix (takeSign cs).2).1 (takeRadix (takeSign cs).2).2).bind
        fun n => some (if (takeSign cs).1 then -(n : Int) else n) := by
    simp [integerOf?]
  rw [unfolded]
  cases natural? (takeRadix (takeSign cs).2).1 (takeRadix (takeSign cs).2).2 with
  | none => rfl
  | some n => cases (takeSign cs).1 <;> simp

theorem integerOf?_eq_some_iff : integerOf? cs = some z ↔ Denotes cs z := by
  rw [integerOf?_eq, Option.map_eq_some_iff]
  simp only [natural?_takeRadix]
  constructor
  · rintro ⟨n, own, rfl⟩
    obtain ⟨sign, there, whole, factor⟩ := exists_sign cs
    exact ⟨sign, there, _, n, whole, own, by rw [factor]⟩
  · rintro ⟨sign, there, magnitude, n, rfl, own, rfl⟩
    simp only [signs, List.mem_cons, List.not_mem_nil, or_false] at there
    obtain rfl | rfl | rfl := there
    · exact ⟨n, by rwa [List.nil_append, takeSign_of_isMagnitude own], by
        rw [List.nil_append, takeSign_of_isMagnitude own]; rfl⟩
    · exact ⟨n, own, rfl⟩
    · exact ⟨n, own, rfl⟩

/-! Integers as they are written: in decimal digits, behind a minus sign where negative. -/

theorem isNumeral_toDigits (n : Nat) : IsNumeral 10 (Nat.toDigits 10 n) n :=
  (natural?_eq_some_iff (by decide)).1 (natural?_toDigits n)

theorem toList_toString (z : Int) :
    (toString z).toList = (if z < 0 then ['-'] else []) ++ Nat.toDigits 10 z.natAbs := by
  cases z with
  | ofNat n =>
    have written : toString (Int.ofNat n) = Nat.repr n := rfl
    have sign : ¬ Int.ofNat n < 0 := Int.not_lt.2 (Int.natCast_nonneg n)
    rw [written, Nat.toList_repr, if_neg sign]
    rfl
  | negSucc n =>
    have written : toString (Int.negSucc n) = "-" ++ Nat.repr (n + 1) := rfl
    rw [written, String.toList_append, Nat.toList_repr, if_pos (Int.negSucc_lt_zero n)]
    rfl

theorem denotes_toString (z : Int) : Denotes (toString z).toList z := by
  rw [toList_toString]
  have own : IsMagnitude (Nat.toDigits 10 z.natAbs) z.natAbs :=
    ⟨([], 10), by decide, _, rfl, isNumeral_toDigits _⟩
  split
  · exact ⟨(['-'], -1), by decide, _, _, rfl, own, by omega⟩
  · exact ⟨([], 1), by decide, _, _, rfl, own, by omega⟩

theorem compact_toString (z : Int) : compact (toString z).toList = (toString z).toList := by
  rw [compact, List.filter_eq_self, toList_toString]
  intro c hc
  rcases List.mem_append.1 hc with hc | hc
  · split at hc
    · obtain rfl := List.mem_singleton.1 hc
      rfl
    · cases hc
  · rw [isBlank_of_isDigit (Nat.isDigit_of_mem_toDigits (by decide) (by decide) hc)]
    rfl

end Number

open Text Number

variable {text : String} {z : Int} {k : IntKind}

theorem readNumber_of_denotes (hz : Denotes (compact text.toList) z) :
    readNumber text (.int k) =
      if fits : k.Holds z then .ok (.int k z fits)
      else .error (.overflow ⟨String.ofList (compact text.toList), .int k⟩) := by
  rw [readNumber, parse]
  simp only [integerOf?_eq_some_iff.2 hz, int?]
  by_cases fits : k.Holds z
  · simp only [fits, dite_true]
  · simp only [fits, dite_false]

theorem readNumber_of_not_denotes (nothing : ∀ z, ¬ Denotes (compact text.toList) z) :
    readNumber text (.int k) =
      .error (.invalid ("cannot parse `" ++ text ++ "` as `" ++ k.name ++ "`")) := by
  have unread : integerOf? (compact text.toList) = none :=
    Option.eq_none_iff_forall_ne_some.2 fun z read => nothing z (integerOf?_eq_some_iff.1 read)
  rw [readNumber, parse]
  simp only [unread]
  rfl

theorem readNumber_of_blank (blank : compact text.toList = []) (k : NumberKind) :
    ∃ message, readNumber text k = .error (.invalid message) := by
  have refused : Number.parse text k = .error .malformed := by
    unfold Number.parse
    rw [blank]
    cases k <;> rfl
  rw [readNumber, refused]
  exact ⟨_, rfl⟩

/-- What reading a text comes to, its blanks left out: an integer in the range of the kind,
one that is not, or none at all. -/
inductive Reads (text : String) (k : IntKind) : Except ConvertFailure Number → Prop
  | number {z : Int} (denotes : Denotes (compact text.toList) z) (fits : k.Holds z) :
    Reads text k (.ok (.int k z fits))
  | overflow {z : Int} (denotes : Denotes (compact text.toList) z) (exceeds : ¬ k.Holds z) :
    Reads text k (.error (.overflow ⟨String.ofList (compact text.toList), .int k⟩))
  | malformed (nothing : ∀ z, ¬ Denotes (compact text.toList) z) :
    Reads text k (.error (.invalid ("cannot parse `" ++ text ++ "` as `" ++ k.name ++ "`")))

/-- A text is read as the integer that it denotes if this is in the range of the kind. It
overflows if this is not, and is refused if it denotes none. -/
theorem readNumber_eq_iff_reads (text : String) (k : IntKind) (r : Except ConvertFailure Number) :
    readNumber text (.int k) = r ↔ Reads text k r := by
  constructor
  · rintro rfl
    by_cases denotes : ∃ z, Denotes (compact text.toList) z
    · obtain ⟨z, hz⟩ := denotes
      rw [readNumber_of_denotes hz]
      split
      · exact .number hz ‹_›
      · exact .overflow hz ‹_›
    · have nothing := not_exists.1 denotes
      rw [readNumber_of_not_denotes nothing]
      exact .malformed nothing
  · intro reads
    cases reads with
    | number denotes fits => rw [readNumber_of_denotes denotes, dif_pos fits]
    | overflow denotes exceeds => rw [readNumber_of_denotes denotes, dif_neg exceeds]
    | malformed nothing => exact readNumber_of_not_denotes nothing

example : readNumber "- 0x 80" (.int .i8) = .ok (.int .i8 (-128) (by decide)) := by
  decide +kernel

example : readNumber " +0128" (.int .i8) = .error (.overflow ⟨"+0128", .int .i8⟩) := by
  decide +kernel

end PropertyAccess
