import Mathlib.Data.Nat.Digits.Lemmas
import PropertyAccess.Hash.Passing

/-! The hash of few bytes as a number. Each byte moves what was there up by one place of base 256,
so after `j` bytes the hash is less than `256 ^ j`. Up to the eighth byte nothing is there that
the rotation could bring around or the addition could carry out of the word. -/

namespace PropertyAccess.PassingHash

variable {x : UInt64} {bytes xs ys : List UInt8}

theorem toNat_rotateByte (room : x.toNat < 2 ^ 56) : (rotateByte x).toNat = x.toNat * 256 := by
  have around : x >>> 56 = 0 := by
    rw [← UInt64.toNat_inj, UInt64.toNat_shiftRight]
    exact Nat.shiftRight_eq_zero _ _ room
  have inside : x.toNat * 256 < 2 ^ 64 := by omega
  rw [rotateByte, around, UInt64.or_zero, UInt64.toNat_shiftLeft]
  simpa [Nat.shiftLeft_eq] using Nat.mod_eq_of_lt inside

theorem toNat_rotateByte_add (room : x.toNat < 2 ^ 56) (b : UInt8) :
    (rotateByte x + b.toUInt64).toNat = b.toNat + 256 * x.toNat := by
  have byte : b.toNat < 256 := b.toNat_lt
  have inside : x.toNat * 256 + b.toNat < 2 ^ 64 := by omega
  rw [UInt64.toNat_add, toNat_rotateByte room, UInt8.toNat_toUInt64, Nat.mod_eq_of_lt inside]
  omega

def magnitude (bytes : List UInt8) : Nat := Nat.ofDigits 256 (bytes.map UInt8.toNat)

theorem lt_of_mem_digits (bytes : List UInt8) : ∀ d ∈ bytes.map UInt8.toNat, d < 256 :=
  List.forall_mem_map.2 fun b _ => b.toNat_lt

theorem magnitude_lt (bytes : List UInt8) : magnitude bytes < 256 ^ bytes.length := by
  simpa [magnitude] using Nat.ofDigits_lt_base_pow_length (by decide) (lt_of_mem_digits bytes)

theorem magnitude_eq_sum (bytes : List UInt8) :
    magnitude bytes = (bytes.mapIdx fun i b => b.toNat * 256 ^ i).sum := by
  rw [magnitude, Nat.ofDigits_eq_sum_mapIdx]
  exact congrArg List.sum (List.ext_getElem (by simp) (by simp))

theorem magnitude_inj (long : xs.length = ys.length) (same : magnitude xs = magnitude ys) :
    xs = ys := by
  have digits : xs.map UInt8.toNat = ys.map UInt8.toNat :=
    Nat.ofDigits_inj_of_len_eq (by decide) (by simpa using long) (lt_of_mem_digits xs)
      (lt_of_mem_digits ys) same
  exact List.map_injective_iff.2 (fun _ _ => UInt8.toNat_inj.1) digits

theorem finish_writeBytes (h : PassingHash) (bytes : List UInt8) :
    (h.writeBytes bytes).finish =
      bytes.foldr (fun b x => rotateByte x + b.toUInt64) h.state := by
  rw [finish, writeBytes, List.foldl_reverse]

theorem toNat_finish_start (short : bytes.length ≤ 8) :
    (start.writeBytes bytes).finish.toNat = magnitude bytes := by
  rw [finish_writeBytes]
  induction bytes with
  | nil => rfl
  | cons b bytes ih =>
    have before := ih (Nat.le_of_succ_le short)
    have below : magnitude bytes < 256 ^ 7 :=
      (magnitude_lt bytes).trans_le (Nat.pow_le_pow_right (by decide) (Nat.le_of_succ_le_succ short))
    rw [List.foldr_cons, toNat_rotateByte_add (by rw [before]; exact below), before]
    rfl

/-- What a hash is given. -/
inductive Write
  | bytes (bytes : List UInt8)
  | word (w : UInt64)

def write (h : PassingHash) : Write → PassingHash
  | .bytes bytes => h.writeBytes bytes
  | .word w => h.writeWord w

/-- Up to eight bytes are hashed to their little-endian number, so lists of one length that differ
have different hashes. A word is its own hash, whatever was written before. -/
theorem passes_through :
    (∀ bytes : List UInt8, bytes.length ≤ 8 →
      (start.writeBytes bytes).finish.toNat = (bytes.mapIdx fun i b => b.toNat * 256 ^ i).sum) ∧
    (∀ xs ys : List UInt8, xs.length = ys.length → ys.length ≤ 8 → xs ≠ ys →
      (start.writeBytes xs).finish ≠ (start.writeBytes ys).finish) ∧
    ∀ (earlier : List Write) (w : UInt64), ((earlier.foldl write start).writeWord w).finish = w := by
  refine ⟨fun bytes short => ?_, fun xs ys long short differ shared => differ ?_, fun earlier w => ?_⟩
  · rw [toNat_finish_start short, magnitude_eq_sum]
  · have same : magnitude xs = magnitude ys := by
      rw [← toNat_finish_start (long.trans_le short), shared, toNat_finish_start short]
    exact magnitude_inj long same
  · exact finish_writeWord _ w

theorem passes_through_eight :
    (start.writeBytes [1, 2, 0, 0, 0, 0, 0, 255]).finish = 0xff00000000000201 ∧
      (start.writeBytes [1, 2, 0, 0, 0, 0, 0, 255]).finish ≠
        (start.writeBytes [2, 1, 0, 0, 0, 0, 0, 255]).finish := by
  obtain ⟨number, apart, -⟩ := passes_through
  refine ⟨UInt64.toNat_inj.1 ?_, apart _ _ rfl (by decide) (by decide)⟩
  rw [number _ (by decide)]
  rfl

/-- The ninth byte comes around to the place of the first. -/
example : (start.writeBytes [0, 0, 0, 0, 0, 0, 0, 0, 1]).finish =
    (start.writeBytes [1, 0, 0, 0, 0, 0, 0, 0, 0]).finish := by
  decide

end PropertyAccess.PassingHash
