import Skjegg.Lib.Words

/-!
# 16.16 fixed-point arithmetic

`libpsx/fixed.c`.  The quotient is a 32-bit division and sixteen rounds of shift and subtract on the
magnitudes.  The negation of the least integer wraps as the target's instruction does.
-/

namespace Skjegg.Psx

open Skjegg.Lib BitVec

def psxFmul (a b : U32) : U32 := ((a.signExtend 64 * b.signExtend 64).sshiftRight 16).setWidth 32

structure Rounds where
  (rem frac : U32)

def round (nb : U32) (s : Rounds) : Rounds :=
  let rem := s.rem <<< 1
  let frac := s.frac <<< 1
  if nb ≤ rem then ⟨rem - nb, frac ||| 1⟩ else ⟨rem, frac⟩

def psxFdiv (a b : U32) : U32 :=
  let neg := false
  let (na, neg) := if a.slt 0 then (-a, !neg) else (a, neg)
  let (nb, neg) := if b.slt 0 then (-b, !neg) else (b, neg)
  if nb = 0 then if neg then 0x80000000#32 else 0x7FFFFFFF#32
  else
    let q := na / nb
    let s := (round nb)^[16] ⟨na % nb, 0⟩
    let r := (q <<< 16) ||| s.frac
    if neg then -r else r

variable {na nb : U32} {m : Nat}

/-- After `i` rounds the fraction is the quotient of `m * 2^i`, and the remainder is its own. -/
structure RoundsInv (m : Nat) (nb : U32) (i : Nat) (s : Rounds) : Prop where
  account : s.frac.toNat * nb.toNat + s.rem.toNat = m * 2 ^ i
  lt : s.rem.toNat < nb.toNat
  small : s.frac.toNat < 2 ^ i

theorem round_inv {i : Nat} {s : Rounds} (hnb : nb.toNat ≤ 2 ^ 31) (hi : i < 16)
    (h : RoundsInv m nb i s) : RoundsInv m nb (i + 1) (round nb s) := by
  obtain ⟨hacc, hlt, hsm⟩ := h
  have hpow : 2 ^ i ≤ 2 ^ 15 := Nat.pow_le_pow_right (by decide) (by omega)
  have hrem : (s.rem <<< 1).toNat = s.rem.toNat * 2 ^ 1 := toNat_shiftLeft_of_lt (by omega)
  have hfc : (s.frac <<< 1).toNat = s.frac.toNat * 2 ^ 1 := toNat_shiftLeft_of_lt (by omega)
  have hdbl : m * 2 ^ (i + 1) = 2 * (s.frac.toNat * nb.toNat) + 2 * s.rem.toNat := by
    rw [pow_succ, ← mul_assoc, ← hacc]
    omega
  unfold round
  by_cases hge : nb ≤ s.rem <<< 1
  · have hor : (s.frac <<< 1 ||| 1).toNat = 2 * s.frac.toNat + 1 := by
      rw [toNat_or_of_lt hfc (by decide), hfc, show (1 : U32).toNat = 1 from rfl]
      omega
    have hsub : (s.rem <<< 1 - nb).toNat = 2 * s.rem.toNat - nb.toNat := by
      rw [toNat_sub_of_le hge, hrem, mul_comm, pow_one]
    rw [le_def, hrem] at hge
    rw [if_pos (by rw [le_def, hrem]; exact hge)]
    refine ⟨?_, ?_, ?_⟩
    · rw [hor, hsub, hdbl, Nat.add_mul, mul_assoc]
      omega
    · rw [hsub]
      omega
    · rw [hor]
      omega
  · rw [if_neg hge]
    rw [le_def, hrem] at hge
    refine ⟨?_, ?_, ?_⟩
    · rw [hfc, hrem, hdbl, mul_right_comm]
      omega
    · rw [hrem]
      omega
    · rw [hfc]
      omega

theorem rounds_inv (hnb : nb.toNat ≤ 2 ^ 31) (hm : (na % nb).toNat < nb.toNat) {i : Nat} (hi : i ≤ 16) :
    RoundsInv (na % nb).toNat nb i ((round nb)^[i] ⟨na % nb, 0⟩) := by
  induction i with
  | zero => exact ⟨by simp, hm, zero_lt_one⟩
  | succ i ih =>
    rw [Function.iterate_succ_apply']
    exact round_inv hnb (by omega) (ih (by omega))

theorem quotient_toNat (hpos : 0 < nb.toNat) (hnb : nb.toNat ≤ 2 ^ 31)
    (hft : na.toNat * 2 ^ 16 / nb.toNat < 2 ^ 32) :
    ((na / nb) <<< 16 ||| ((round nb)^[16] ⟨na % nb, 0⟩).frac).toNat = na.toNat * 2 ^ 16 / nb.toNat := by
  have hmod : (na % nb).toNat = na.toNat % nb.toNat := toNat_umod
  have hdiv : (na / nb).toNat = na.toNat / nb.toNat := toNat_udiv
  have hm : (na % nb).toNat < nb.toNat := Nat.mod_lt _ hpos
  obtain ⟨hacc, hlt, hsm⟩ := rounds_inv hnb hm (le_refl 16)
  generalize (round nb)^[16] ⟨na % nb, 0⟩ = s at hacc hlt hsm
  have hquotient : na.toNat * 2 ^ 16 / nb.toNat = na.toNat / nb.toNat * 2 ^ 16 + s.frac.toNat := by
    have hspl := Nat.div_add_mod na.toNat nb.toNat
    have hsum : na.toNat * 2 ^ 16 = s.rem.toNat + (na.toNat / nb.toNat * 2 ^ 16 + s.frac.toNat) * nb.toNat := by
      rw [hmod] at hacc
      calc na.toNat * 2 ^ 16
          = nb.toNat * (na.toNat / nb.toNat) * 2 ^ 16 + na.toNat % nb.toNat * 2 ^ 16 := by
            rw [← Nat.add_mul, hspl]
        _ = s.rem.toNat + (na.toNat / nb.toNat * 2 ^ 16 + s.frac.toNat) * nb.toNat := by
            rw [← hacc]
            ring
    rw [hsum, Nat.add_mul_div_right _ _ hpos, Nat.div_eq_of_lt hlt, zero_add]
  have hsh : ((na / nb) <<< 16).toNat = na.toNat / nb.toNat * 2 ^ 16 := by
    rw [toNat_shiftLeft_of_lt (by rw [hdiv]; omega), hdiv]
  rw [toNat_or_of_lt hsh hsm, hsh, hquotient]

theorem psxFdiv_toInt {a b : U32} (hb : b ≠ 0) (hlo : -2 ^ 31 ≤ (a.toInt * 2 ^ 16).tdiv b.toInt)
    (hhi : (a.toInt * 2 ^ 16).tdiv b.toInt < 2 ^ 31) :
    (psxFdiv a b).toInt = (a.toInt * 2 ^ 16).tdiv b.toInt := by
  have hb0 : b.toInt ≠ 0 := fun h => hb (eq_of_toInt_eq (by rw [h]; rfl))
  have hna := toNat_ite_neg a
  have hnb := toNat_ite_neg b
  have hble : b.toInt.natAbs ≤ 2 ^ 31 := by
    have := le_toInt b
    have := toInt_lt (x := b)
    omega
  -- the magnitude of the quotient is the quotient of the magnitudes
  have habs : ((a.toInt * 2 ^ 16).tdiv b.toInt).natAbs = a.toInt.natAbs * 2 ^ 16 / b.toInt.natAbs := by
    rw [Int.natAbs_tdiv, Int.natAbs_mul]
    rfl
  have hr := quotient_toNat
    (by rw [hnb]; omega) (by rw [hnb]; exact hble) (by rw [hna, hnb, ← habs]; omega)
  rw [hna, hnb, ← habs] at hr
  have hne : (if b.slt 0 then -b else b) ≠ 0 := by
    intro h0
    rw [h0] at hnb
    exact hb0 (Int.natAbs_eq_zero.mp hnb.symm)
  have hsg : (a.toInt * 2 ^ 16).tdiv b.toInt =
      if a.slt 0 ^^ b.slt 0 then -(((a.toInt * 2 ^ 16).tdiv b.toInt).natAbs : Int)
      else ((a.toInt * 2 ^ 16).tdiv b.toInt).natAbs := by
    rw [habs]
    have ha' := toInt_eq_natAbs a
    have hb' := toInt_eq_natAbs b
    generalize a.toInt.natAbs = x at *
    generalize b.toInt.natAbs = y at *
    have htdiv : ((x * 2 ^ 16 / y : Nat) : Int) = ((x : Int) * 2 ^ 16).tdiv y := rfl
    rw [ha', hb', htdiv]
    cases a.slt 0 <;> cases b.slt 0 <;> simp [Int.neg_tdiv, Int.tdiv_neg]
  have heq : psxFdiv a b = BitVec.ofInt 32 ((a.toInt * 2 ^ 16).tdiv b.toInt) := by
    have hval := eq_ofInt_of_toNat hr
    rw [hsg]
    unfold psxFdiv
    revert hval hne
    cases a.slt 0 <;> cases b.slt 0 <;> intro hval hne <;>
      simp_all [ofInt_neg]
  rw [heq, toInt_ofInt]
  exact Int.bmod_eq_of_le (by omega) (by omega)

theorem psxFmul_toInt {a b : U32} (hlo : -2 ^ 31 ≤ a.toInt * b.toInt / 2 ^ 16)
    (hhi : a.toInt * b.toInt / 2 ^ 16 < 2 ^ 31) : (psxFmul a b).toInt = a.toInt * b.toInt / 2 ^ 16 := by
  have hbd : ∀ x : U32, |x.toInt| ≤ 2 ^ 31 := by
    intro x
    have := le_toInt x
    have := toInt_lt (x := x)
    rw [abs_le]
    omega
  have hprod : |a.toInt * b.toInt| ≤ 2 ^ 31 * 2 ^ 31 := by
    rw [abs_mul]
    exact mul_le_mul (hbd a) (hbd b) (abs_nonneg _) (by decide)
  have hwide : (a.signExtend 64 * b.signExtend 64).toInt = a.toInt * b.toInt := by
    rw [toInt_mul, toInt_signExtend_of_le (by decide), toInt_signExtend_of_le (by decide)]
    exact Int.bmod_eq_of_le (by omega) (by omega)
  rw [psxFmul, ← signExtend_eq_setWidth_of_le _ (by decide), toInt_signExtend, toInt_sshiftRight, hwide,
    Int.shiftRight_eq_div_pow]
  show Int.bmod _ (2 ^ 32) = _
  exact Int.bmod_eq_of_le (by omega) (by omega)

/-- The quotient is truncated toward zero and the product is rounded down, whenever they fit. -/
theorem fixed_exact (a b : U32) :
    (b ≠ 0 → -2 ^ 31 ≤ (a.toInt * 2 ^ 16).tdiv b.toInt → (a.toInt * 2 ^ 16).tdiv b.toInt < 2 ^ 31 →
      (psxFdiv a b).toInt = (a.toInt * 2 ^ 16).tdiv b.toInt) ∧
    (-2 ^ 31 ≤ a.toInt * b.toInt / 2 ^ 16 → a.toInt * b.toInt / 2 ^ 16 < 2 ^ 31 →
      (psxFmul a b).toInt = a.toInt * b.toInt / 2 ^ 16) :=
  ⟨psxFdiv_toInt, psxFmul_toInt⟩

/-- The least number divided by 2.0, and multiplied by 0.5. -/
theorem fixed_exact_least : (psxFdiv (intMin 32) 0x20000).toInt = -2 ^ 30 ∧
    (psxFmul (intMin 32) 0x8000).toInt = -2 ^ 30 :=
  ⟨(fixed_exact (intMin 32) 0x20000).1 (by decide) (by decide) (by decide),
    (fixed_exact (intMin 32) 0x8000).2 (by decide) (by decide)⟩

end Skjegg.Psx
