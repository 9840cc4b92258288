import Mathlib.Data.Nat.Bitwise
import Mathlib.Tactic

/-!
# Machine words as natural numbers

What the masks and shifts of C code compute on the numbers that the words stand for.
-/

namespace Skjegg.Lib

open BitVec

abbrev U64 := BitVec 64
abbrev U32 := BitVec 32

variable {w : Nat} {k : Nat}

theorem toNat_one_shiftLeft (hk : k < w) : (1#w <<< k).toNat = 2 ^ k := by
  have hpow : 2 ^ k < 2 ^ w := Nat.pow_lt_pow_right (by decide) hk
  have h1 : 1 < 2 ^ w := Nat.one_lt_two_pow (by omega)
  rw [toNat_shiftLeft, toNat_ofNat, Nat.mod_eq_of_lt h1, Nat.one_shiftLeft, Nat.mod_eq_of_lt hpow]

variable (x : BitVec w)

theorem toNat_and_lowMask (hk : k < w) : (x &&& ((1#w <<< k) - 1#w)).toNat = x.toNat % 2 ^ k := by
  have hpow : 2 ^ k < 2 ^ w := Nat.pow_lt_pow_right (by decide) hk
  have h1 : 1 < 2 ^ w := Nat.one_lt_two_pow (by omega)
  have hpos := Nat.two_pow_pos k
  have hmask : ((1#w <<< k) - 1#w).toNat = 2 ^ k - 1 := by
    rw [toNat_sub, toNat_one_shiftLeft hk, toNat_ofNat, Nat.mod_eq_of_lt h1,
      show 2 ^ w - 1 + 2 ^ k = 2 ^ k - 1 + 2 ^ w by omega, Nat.add_mod_right,
      Nat.mod_eq_of_lt (by omega)]
  rw [toNat_and, hmask, Nat.and_two_pow_sub_one_eq_mod]

theorem toNat_and_not_lowMask (hk : k < w) :
    (x &&& ~~~((1#w <<< k) - 1#w)).toNat = x.toNat / 2 ^ k * 2 ^ k := by
  have hlow := toNat_and_lowMask x hk
  generalize (1#w <<< k) - 1#w = m at hlow ⊢
  have hsum : (x &&& m) + (x &&& ~~~m) = x := by
    rw [add_eq_or_of_and_eq_zero]
    · ext i hi
      simp only [getElem_or, getElem_and, getElem_not]
      cases x[i] <;> cases m[i] <;> rfl
    · ext i hi
      simp only [getElem_and, getElem_not, getElem_zero]
      cases x[i] <;> cases m[i] <;> rfl
  have hhi : x &&& ~~~m = x - (x &&& m) := by
    rw [eq_comm, sub_eq_iff_eq_add, BitVec.add_comm, hsum]
  have hle : (x &&& m) ≤ x := by
    rw [le_def, hlow]
    exact Nat.mod_le _ _
  rw [hhi, toNat_sub_of_le hle, hlow]
  have := Nat.div_add_mod x.toNat (2 ^ k)
  rw [mul_comm] at this
  omega

theorem bne_zero_eq : (x != 0) = decide (x.toNat ≠ 0) := by
  rw [Bool.eq_iff_iff, bne_iff_ne, decide_eq_true_iff, ne_eq, ne_eq, ← toNat_inj]
  simp

theorem toNat_and_bit (hk : k < w) : (x &&& (1#w <<< k)).toNat = x.toNat / 2 ^ k % 2 * 2 ^ k := by
  rw [toNat_and, toNat_one_shiftLeft hk, Nat.and_two_pow, Nat.testBit_eq_decide_div_mod_eq]
  rcases Nat.mod_two_eq_zero_or_one (x.toNat / 2 ^ k) with h | h <;> simp [h]

theorem and_bit_bne_zero {x : BitVec w} (hk : k < w) (hx : x.toNat < 2 ^ (k + 1)) :
    (x &&& (1#w <<< k) != 0) = decide (2 ^ k ≤ x.toNat) := by
  rw [bne_zero_eq, toNat_and_bit x hk]
  have hdiv : x.toNat / 2 ^ k < 2 := by
    rw [Nat.div_lt_iff_lt_mul (Nat.two_pow_pos k), ← pow_succ']
    exact hx
  rw [Nat.mod_eq_of_lt hdiv, decide_eq_decide, mul_ne_zero_iff, ← Nat.pos_iff_ne_zero, Nat.div_pos_iff]
  simp

theorem toNat_or_of_lt {k a : Nat} {x y : BitVec w} (hx : x.toNat = a * 2 ^ k)
    (hy : y.toNat < 2 ^ k) : (x ||| y).toNat = x.toNat + y.toNat := by
  rw [toNat_or, hx, mul_comm, Nat.two_pow_add_eq_or_of_lt hy]

theorem toNat_shiftLeft_of_lt {x : BitVec w} (h : x.toNat * 2 ^ k < 2 ^ w) :
    (x <<< k).toNat = x.toNat * 2 ^ k := by
  rw [toNat_shiftLeft, Nat.shiftLeft_eq, Nat.mod_eq_of_lt h]

/-! ## Signs -/

theorem slt_zero_iff : x.slt 0 = true ↔ x.toInt < 0 := by
  rw [slt_iff_toInt_lt]
  show x.toInt < (0#w).toInt ↔ _
  rw [toInt_zero]

theorem toNat_ite_neg : (if x.slt 0 then -x else x).toNat = x.toInt.natAbs := by
  have htoInt := toInt_eq_toNat_cond x
  have hlt := x.isLt
  split
  · rename_i h
    rw [slt_zero_iff] at h
    rw [toNat_neg, Nat.mod_eq_of_lt (by split at htoInt <;> omega)]
    split at htoInt <;> omega
  · rename_i h
    rw [slt_zero_iff] at h
    split at htoInt <;> omega

theorem toInt_eq_natAbs : x.toInt = if x.slt 0 then -(x.toInt.natAbs : Int) else x.toInt.natAbs := by
  split
  · rename_i h
    rw [slt_zero_iff] at h
    omega
  · rename_i h
    rw [slt_zero_iff] at h
    omega

theorem eq_ofInt_of_toNat {x : BitVec w} {n : Nat} (h : x.toNat = n) : x = BitVec.ofInt w n := by
  apply eq_of_toNat_eq
  rw [ofInt_natCast, toNat_ofNat, ← h, Nat.mod_eq_of_lt x.isLt]

end Skjegg.Lib
