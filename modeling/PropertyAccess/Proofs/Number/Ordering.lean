import Mathlib.Data.Nat.Log
import Mathlib.Tactic.Ring
import PropertyAccess.Number.Basic

/-! The order of numbers. Integers compare exactly, and all else by the place of the nearest
double. Rounding never turns two integers round, so the order is one of doubles but for
integers of the same double. It is a total order save in one way: two integers that go to one
double are told apart by each other, but not by a float of that double. -/

namespace PropertyAccess

namespace Floating

variable {F : Format} {a b den : Nat}

theorem div_le_roundQuotient (num den : Nat) : num / den ≤ roundQuotient num den := by
  unfold roundQuotient
  dsimp only
  split_ifs <;> omega

theorem roundQuotient_le (num den : Nat) : roundQuotient num den ≤ num / den + 1 := by
  unfold roundQuotient
  dsimp only
  split_ifs <;> omega

theorem roundQuotient_mono (den : Nat) (le : a ≤ b) : roundQuotient a den ≤ roundQuotient b den := by
  have quotients : a / den ≤ b / den := Nat.div_le_div_right le
  rcases Nat.lt_or_eq_of_le quotients with less | same
  · have low := roundQuotient_le a den
    have high := div_le_roundQuotient b den
    omega
  · have divA := Nat.div_add_mod a den
    have divB := Nat.div_add_mod b den
    rw [← same] at divB
    unfold roundQuotient
    dsimp only
    rw [← same]
    split_ifs <;> omega

namespace Format

def shift (F : Format) (num den : Nat) : Nat := Nat.log2 (num / den) - F.fractionBits

theorem nearest_eq (F : Format) (num den : Nat) : F.nearest num den =
    min (F.shift num den * F.stride + roundQuotient num (den * 2 ^ F.shift num den)) F.top := rfl

theorem shift_mono (F : Format) (den : Nat) (le : a ≤ b) : F.shift a den ≤ F.shift b den := by
  have quotients : a / den ≤ b / den := Nat.div_le_div_right le
  have logs : Nat.log2 (a / den) ≤ Nat.log2 (b / den) := by
    rw [Nat.log2_eq_log_two, Nat.log2_eq_log_two]
    exact Nat.log_mono_right quotients
  unfold shift
  omega

theorem div_shift_lt (F : Format) (num den : Nat) :
    num / (den * 2 ^ F.shift num den) < 2 * F.stride := by
  rw [← Nat.div_div_eq_div_mul, Nat.div_lt_iff_lt_mul (Nat.two_pow_pos _)]
  have top : num / den < 2 ^ (Nat.log2 (num / den) + 1) := Nat.lt_log2_self
  have places : Nat.log2 (num / den) + 1 ≤ F.fractionBits + 1 + F.shift num den := by
    unfold shift
    omega
  calc num / den < 2 ^ (Nat.log2 (num / den) + 1) := top
    _ ≤ 2 ^ (F.fractionBits + 1 + F.shift num den) := Nat.pow_le_pow_right (by decide) places
    _ = 2 * F.stride * 2 ^ F.shift num den := by
      rw [stride, Nat.pow_eq, Nat.pow_add, Nat.pow_succ]
      ring

theorem stride_le_div_shift (lost : 0 < F.shift a den) :
    F.stride ≤ a / (den * 2 ^ F.shift a den) := by
  rw [← Nat.div_div_eq_div_mul, Nat.le_div_iff_mul_le (Nat.two_pow_pos _)]
  have places : Nat.log2 (a / den) = F.fractionBits + F.shift a den := by
    unfold shift at lost ⊢
    omega
  have some : a / den ≠ 0 := by
    intro none
    rw [none] at places
    have zero : Nat.log2 0 = 0 := rfl
    omega
  rw [stride, Nat.pow_eq, ← Nat.pow_add, ← places]
  exact Nat.log2_self_le some

theorem nearest_mono (F : Format) (den : Nat) (le : a ≤ b) : F.nearest a den ≤ F.nearest b den := by
  have shifts := F.shift_mono den le
  have ranks : F.shift a den * F.stride + roundQuotient a (den * 2 ^ F.shift a den) ≤
      F.shift b den * F.stride + roundQuotient b (den * 2 ^ F.shift b den) := by
    rcases Nat.lt_or_eq_of_le shifts with less | same
    · have low := roundQuotient_le a (den * 2 ^ F.shift a den)
      have small := F.div_shift_lt a den
      have lost : 0 < F.shift b den := by omega
      have large := stride_le_div_shift lost
      have high := div_le_roundQuotient b (den * 2 ^ F.shift b den)
      have octaves : (F.shift a den + 1) * F.stride ≤ F.shift b den * F.stride :=
        Nat.mul_le_mul_right _ less
      rw [Nat.add_mul] at octaves
      omega
    · rw [← same]
      exact Nat.add_le_add_left (roundQuotient_mono _ le) _
  rw [nearest_eq, nearest_eq]
  omega

end Format

namespace Binary

theorem place_ofInt_mono {z w : Int} (le : z ≤ w) :
    (ofInt z : Binary F).place ≤ (ofInt w : Binary F).place := by
  have nearest {m n : Nat} (le : m ≤ n) : F.nearest (m * F.one) 1 ≤ F.nearest (n * F.one) 1 :=
    F.nearest_mono 1 (Nat.mul_le_mul_right _ le)
  unfold place ofInt ofQuotient
  dsimp only
  by_cases hz : z < 0 <;> by_cases hw : w < 0
  · have ranks := nearest (m := w.natAbs) (n := z.natAbs) (by omega)
    simp only [hz, hw, decide_true, if_true]
    omega
  · simp only [hz, hw, decide_true, decide_false, if_true, Bool.false_eq_true, if_false]
    omega
  · omega
  · have ranks := nearest (m := z.natAbs) (n := w.natAbs) (by omega)
    simp only [hz, hw, decide_false, Bool.false_eq_true, if_false]
    omega

end Binary

end Floating

namespace Number

open Floating

variable {a b c : Number} {k l : IntKind} {x y : Int}

def place (n : Number) : Int := n.toDouble.place

theorem place_int_mono (hx : k.Holds x) (hy : l.Holds y) (le : x ≤ y) :
    (int k x hx).place ≤ (int l y hy).place :=
  Binary.place_ofInt_mono le

theorem compareTotal_float_left (f : FloatKind) (z : Binary f.format) (b : Number) :
    (float f z).compareTotal b = compare (float f z).place b.place := by
  cases b <;> rfl

theorem compareTotal_float_right (a : Number) (f : FloatKind) (z : Binary f.format) :
    a.compareTotal (float f z) = compare a.place (float f z).place := by
  cases a <;> rfl

theorem compareTotal_self (a : Number) : a.compareTotal a = .eq := by
  cases a with
  | int k x =>
    have self : compare x x = .eq := Std.ReflOrd.compare_self
    exact self
  | float f z =>
    rw [compareTotal_float_left]
    exact Std.ReflOrd.compare_self

theorem compareTotal_swap (a b : Number) : b.compareTotal a = (a.compareTotal b).swap := by
  cases a with
  | int k x =>
    cases b with
    | int l y =>
      have turned : compare y x = (compare x y).swap := Std.OrientedOrd.eq_swap
      exact turned
    | float f z =>
      rw [compareTotal_float_left, compareTotal_float_right]
      exact Std.OrientedOrd.eq_swap
  | float f z =>
    rw [compareTotal_float_left, compareTotal_float_right]
    exact Std.OrientedOrd.eq_swap

theorem place_le_of_compareTotal (le : a.compareTotal b ≠ .gt) : a.place ≤ b.place := by
  cases a with
  | int k x =>
    cases b with
    | int l y => exact place_int_mono _ _ (compare_le_iff_le.1 le)
    | float f z => exact compare_le_iff_le.1 le
  | float f z =>
    rw [compareTotal_float_left] at le
    exact compare_le_iff_le.1 le

def Blurred (a b c : Number) : Prop :=
  ∃ k x hx f z l y hy, a = int k x hx ∧ b = float f z ∧ c = int l y hy ∧ y < x ∧
    a.toDouble = b.toDouble ∧ b.toDouble = c.toDouble

/-- The order of numbers is transitive but for such integers. -/
theorem compareTotal_eq_gt_iff (first : a.compareTotal b ≠ .gt) (last : b.compareTotal c ≠ .gt) :
    a.compareTotal c = .gt ↔ Blurred a b c := by
  have low := place_le_of_compareTotal first
  have high := place_le_of_compareTotal last
  constructor
  · intro turned
    cases a with
    | float f z =>
      rw [compareTotal_float_left, Std.compare_eq_gt] at turned
      omega
    | int k x hx =>
      cases c with
      | float f z =>
        rw [compareTotal_float_right, Std.compare_eq_gt] at turned
        omega
      | int l y hy =>
        have above : y < x := Std.compare_eq_gt.1 turned
        cases b with
        | int m w =>
          have first : x ≤ w := compare_le_iff_le.1 first
          have last : w ≤ y := compare_le_iff_le.1 last
          omega
        | float f z =>
          have back := place_int_mono hy hx (Int.le_of_lt above)
          exact ⟨k, x, hx, f, z, l, y, hy, rfl, rfl, rfl, above,
            Binary.place_injective (by unfold place at *; omega),
            Binary.place_injective (by unfold place at *; omega)⟩
  · rintro ⟨k, x, hx, f, z, l, y, hy, rfl, rfl, rfl, above, -, -⟩
    exact Std.compare_eq_gt.2 above

end Number

end PropertyAccess
