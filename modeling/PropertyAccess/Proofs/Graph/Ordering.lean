import PropertyAccess.Graph.Value
import PropertyAccess.Proofs.Number.Ordering

/-! The order of sorted sets and maps. Values other than numbers are compared part by part: by
sort, then by what they are. So the order is total but for what numbers make of it: it is
reflexive, turning the values round turns the outcome round, and it is transitive unless two
integers are out of order around a float that does not tell them apart. -/

namespace PropertyAccess.Value

variable {a b c : Value}

def key : Value → List Nat
  | .bool b => [1, b.toNat]
  | .char c => [2, c.toNat]
  | .text s => 4 :: s.toList.map Char.toNat
  | .enum e i => [5, e, i]
  | v => [v.rank, v.loc?.getD 0]

def number? : Value → Option Number
  | .number n => some n
  | _ => none

/-- Unless both are numbers the order is that of the parts. -/
theorem order_eq_key (other : a.number? = none ∨ b.number? = none) :
    a.order b = List.compareLex compare a.key b.key := by
  have next (r : Nat) (ks ls : List Nat) :
      List.compareLex compare (r :: ks) (r :: ls) = List.compareLex compare ks ls := by
    simp [List.compareLex_cons_cons]
  have last (m n : Nat) : List.compareLex compare [m] [n] = compare m n := by
    rw [List.compareLex_cons_cons]
    cases compare m n <;> rfl
  cases a with
  | null => cases b <;> rfl
  | bool x =>
    cases b with
    | bool y => cases x <;> cases y <;> rfl
    | _ => rfl
  | number n =>
    cases b with
    | number m => simp [number?] at other
    | _ => rfl
  | text s =>
    cases b with
    | text t => exact (next 4 _ _).symm
    | _ => rfl
  | enum e i =>
    cases b with
    | enum f j =>
      rw [key, key, next, List.compareLex_cons_cons, last]
      rfl
    | _ => rfl
  | char | object | array | list | set | map =>
    cases b <;> first | rfl | exact ((next _ _ _).trans (last _ _)).symm

theorem key_number (n : Number) : (number n).key = [3, 0] := rfl

theorem exists_number_of_key (own : a.key = [3, 0]) : ∃ n, a = number n := by
  cases a with
  | number n => exact ⟨n, rfl⟩
  | _ => simp [key, rank] at own

theorem exists_number (own : a.number? ≠ none) : ∃ n, a = number n := by
  cases a with
  | number n => exact ⟨n, rfl⟩
  | _ => exact absurd rfl own

theorem order_self (a : Value) : a.order a = .eq := by
  by_cases other : a.number? = none
  · rw [order_eq_key (.inl other)]
    exact Std.ReflCmp.compare_self
  · obtain ⟨n, rfl⟩ := exists_number other
    exact Number.compareTotal_self n

theorem order_swap (a b : Value) : b.order a = (a.order b).swap := by
  by_cases other : a.number? = none ∨ b.number? = none
  · rw [order_eq_key other, order_eq_key other.symm]
    exact Std.OrientedCmp.eq_swap
  · obtain ⟨hm, hn⟩ := not_or.1 other
    obtain ⟨m, rfl⟩ := exists_number hm
    obtain ⟨n, rfl⟩ := exists_number hn
    exact Number.compareTotal_swap m n

theorem key_isLE_of_order (le : a.order b ≠ .gt) :
    (List.compareLex compare a.key b.key).isLE = true := by
  by_cases other : a.number? = none ∨ b.number? = none
  · rw [← order_eq_key other]
    exact Ordering.isLE_iff_ne_gt.2 le
  · obtain ⟨hm, hn⟩ := not_or.1 other
    obtain ⟨m, rfl⟩ := exists_number hm
    obtain ⟨n, rfl⟩ := exists_number hn
    rfl

/-- Integers out of order, with a float between them that does not tell them apart. -/
def Blurred (a b c : Value) : Prop :=
  ∃ l m n, a = number l ∧ b = number m ∧ c = number n ∧ Number.Blurred l m n

/-- The order is transitive but for such integers. -/
theorem order_eq_gt_iff (first : a.order b ≠ .gt) (last : b.order c ≠ .gt) :
    a.order c = .gt ↔ Blurred a b c := by
  have low := key_isLE_of_order first
  have high := key_isLE_of_order last
  have parts : (List.compareLex compare a.key c.key).isLE = true :=
    Std.TransCmp.isLE_trans low high
  by_cases other : a.number? = none ∨ c.number? = none
  · rw [order_eq_key other]
    refine iff_of_false (Ordering.isLE_iff_ne_gt.1 parts) ?_
    rintro ⟨l, m, n, rfl, -, rfl, -⟩
    simp [number?] at other
  · obtain ⟨hl, hn⟩ := not_or.1 other
    obtain ⟨l, rfl⟩ := exists_number hl
    obtain ⟨n, rfl⟩ := exists_number hn
    -- what lies between two numbers is a number
    obtain ⟨m, rfl⟩ : ∃ m, b = number m := by
      refine exists_number_of_key ?_
      rw [← key_number l]
      exact Std.LawfulEqCmp.eq_of_compare (Std.OrientedCmp.isLE_antisymm high low)
    have numbers : (number l).order (number n) = .gt ↔ Number.Blurred l m n :=
      Number.compareTotal_eq_gt_iff first last
    rw [numbers]
    constructor
    · intro blurred
      exact ⟨l, m, n, rfl, rfl, rfl, blurred⟩
    · rintro ⟨l', m', n', hl, hm, hn, blurred⟩
      cases hl
      cases hm
      cases hn
      exact blurred

/-- The order of values is reflexive and turns round with them. It is transitive, unless the
values are two integers out of order and a float whose double is that of both. -/
theorem order_laws (a b c : Value) :
    a.order a = .eq ∧ b.order a = (a.order b).swap ∧
      (a.order b ≠ .gt → b.order c ≠ .gt → (a.order c = .gt ↔ Blurred a b c)) :=
  ⟨order_self a, order_swap a b, order_eq_gt_iff⟩

theorem order_laws_blurred :
    let a := number (.int .i64 9007199254740993 (by decide))
    let b := number (.float .f64 (.ofInt 9007199254740992))
    let c := number (.int .i64 9007199254740992 (by decide))
    a.order b ≠ .gt ∧ b.order c ≠ .gt ∧ a.order c = .gt ∧ Blurred a b c := by
  dsimp only
  have first : (number (.int .i64 9007199254740993 (by decide))).order
      (number (.float .f64 (.ofInt 9007199254740992))) ≠ .gt := by decide +kernel
  have last : (number (.float .f64 (.ofInt 9007199254740992))).order
      (number (.int .i64 9007199254740992 (by decide))) ≠ .gt := by decide +kernel
  have turned : (number (.int .i64 9007199254740993 (by decide))).order
      (number (.int .i64 9007199254740992 (by decide))) = .gt := by decide +kernel
  exact ⟨first, last, turned, ((order_laws _ _ _).2.2 first last).1 turned⟩

end PropertyAccess.Value
