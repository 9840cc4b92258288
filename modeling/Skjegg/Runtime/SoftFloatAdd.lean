import Skjegg.Runtime.SoftFloatPack

/-!
# Sums and differences of magnitudes

The smaller operand is shifted right with a sticky bit, so the significand given to `round_pack`
agrees with the exact one on the multiples of four.
-/

namespace Skjegg.Runtime

open Skjegg.Lib

/-- The pattern `r` is the magnitude `X`, counted in units of the smallest double, rounded, with the
given sign. -/
def Rounds64 (neg : Bool) (X : ℚ) (r : U64) : Prop :=
  ∃ n, IsRne 52 X n ∧ r.toNat = binary64.pack neg (min n binary64.infCode)

theorem scale_self (q : ℚ) (e : Int) : q * 2 ^ (e - 1) * 2 ^ (4 - e) = q * 8 := by
  rw [mul_assoc, ← zpow_add₀ two_ne_zero, show e - 1 + (4 - e) = 3 by ring]
  norm_num

theorem scale_sub (X : ℚ) (e k : Int) : X * 2 ^ (4 - (e - k)) = X * 2 ^ (4 - e) * 2 ^ k := by
  rw [mul_assoc, ← zpow_add₀ two_ne_zero]
  congr 2
  ring

theorem toNat_alignSig {shift : Int} {b : U64} (hsh : 0 ≤ shift) (hb : b.toNat < 2 ^ 56) :
    (alignSig shift b).toNat = stickyDiv b.toNat (2 ^ shift.toNat) := by
  unfold alignSig
  split
  · rename_i h
    rw [h, Int.toNat_zero, pow_zero, stickyDiv_one]
  split
  · have hlt : b.toNat < 2 ^ shift.toNat := hb.trans_le (Nat.pow_le_pow_right (by decide) (by omega))
    rw [toNat_truth (by decide), bne_zero_eq, stickyDiv_of_lt hlt]
    by_cases h0 : b.toNat = 0 <;> simp [h0]
  · exact toNat_shiftRightJam b (by omega)

/-- Both operands of a sum or difference at the exponent of the larger one, with three guard bits. -/
structure Aligned (aExp : Int) (aSig : U64) (bExp : Int) (bSig : U64) : Prop where
  bExp_pos : 1 ≤ bExp
  exp_le : bExp ≤ aExp
  aSig_lt : aSig.toNat < 2 ^ 53
  bSig_lt : bSig.toNat < 2 ^ 53
  aSig_normal : aExp = 1 ∨ 2 ^ 52 ≤ aSig.toNat

namespace Aligned

variable {aExp bExp : Int} {aSig bSig : U64}

theorem toNat_shift3 {x : U64} (hx : x.toNat < 2 ^ 53) : (x <<< 3).toNat = x.toNat * 8 :=
  toNat_shiftLeft_of_lt (k := 3) (by omega)

theorem toNat_align (h : Aligned aExp aSig bExp bSig) : (alignSig (aExp - bExp) (bSig <<< 3)).toNat =
      stickyDiv (bSig.toNat * 8) (2 ^ (aExp - bExp).toNat) := by
  have hb := toNat_shift3 h.bSig_lt
  have hlt := h.bSig_lt
  rw [toNat_alignSig (by have := h.exp_le; omega) (by omega), hb]

theorem align_lt (h : Aligned aExp aSig bExp bSig) :
    stickyDiv (bSig.toNat * 8) (2 ^ (aExp - bExp).toNat) < 2 ^ 56 := by
  apply stickyDiv_lt
  have hlt := h.bSig_lt
  exact (Nat.div_le_self _ _).trans_lt (by omega)

theorem gridAgree_align (bSig : U64) (hle : bExp ≤ aExp) :
    GridAgree 2 (bSig.toNat * 2 ^ (bExp - 1) * 2 ^ (4 - aExp))
      (stickyDiv (bSig.toNat * 8) (2 ^ (aExp - bExp).toNat) : Nat) := by
  have h := gridAgree_stickyDiv (bSig.toNat * 8) (Nat.two_pow_pos (aExp - bExp).toNat)
  convert h using 1
  push_cast
  rw [← zpow_natCast, show ((aExp - bExp).toNat : Int) = aExp - bExp by omega,
    show (8 : ℚ) = 2 ^ (3 : Int) by norm_num, mul_div_assoc, mul_assoc, ← zpow_add₀ two_ne_zero,
    ← zpow_sub₀ two_ne_zero]
  congr 2
  ring

theorem gridAgree_sum (h : Aligned aExp aSig bExp bSig) :
    GridAgree 2 ((aSig.toNat * 2 ^ (aExp - 1) + bSig.toNat * 2 ^ (bExp - 1)) * 2 ^ (4 - aExp))
      (aSig.toNat * 8 + stickyDiv (bSig.toNat * 8) (2 ^ (aExp - bExp).toNat) : Nat) := by
  have hsum := (gridAgree_align bSig h.exp_le).const_add (aSig.toNat * 4)
  convert hsum using 1
  · rw [add_mul, scale_self]
    push_cast
    ring
  · push_cast
    ring

theorem gridAgree_diff (h : Aligned aExp aSig bExp bSig) :
    GridAgree 2 ((aSig.toNat * 2 ^ (aExp - 1) - bSig.toNat * 2 ^ (bExp - 1)) * 2 ^ (4 - aExp))
      (aSig.toNat * 8 - (stickyDiv (bSig.toNat * 8) (2 ^ (aExp - bExp).toNat) : Nat)) := by
  have hdiff := (gridAgree_align bSig h.exp_le).const_sub (aSig.toNat * 4)
  convert hdiff using 1
  · rw [sub_mul, scale_self]
    push_cast
    ring
  · push_cast
    ring

end Aligned

theorem addMagnitudes_spec {sign : U32} {aSig bSig : U64} (hsg : sign.toNat ≤ 1)
    (h : Aligned aExp aSig bExp bSig) :
    Rounds64 (decide (sign.toNat = 1)) (aSig.toNat * 2 ^ (aExp - 1) + bSig.toNat * 2 ^ (bExp - 1))
      (addMagnitudes sign aExp aSig bExp bSig) := by
  have hag := h.gridAgree_sum
  have ha := Aligned.toNat_shift3 h.aSig_lt
  have hb := h.toNat_align
  have hblt := h.align_lt
  have halt := h.aSig_lt
  have hsum : (aSig <<< 3 + alignSig (aExp - bExp) (bSig <<< 3)).toNat =
      aSig.toNat * 8 + stickyDiv (bSig.toNat * 8) (2 ^ (aExp - bExp).toNat) := by
    rw [BitVec.toNat_add, ha, hb]
    omega
  rw [← hsum] at hag
  unfold addMagnitudes
  simp only
  generalize aSig <<< 3 + alignSig _ _ = sum at *
  have hlt : sum.toNat < 2 ^ 57 := by omega
  have hlow : aExp = 1 ∨ 2 ^ 55 ≤ sum.toNat := h.aSig_normal.imp_right fun _ => by omega
  rw [show sigbits + 4 = 56 from rfl, and_bit_bne_zero (by decide) hlt]
  split
  · rename_i hca
    have hge : 2 ^ 56 ≤ sum.toNat := of_decide_eq_true hca
    have hjam : (sum >>> 1 ||| (sum &&& 1)).toNat = stickyDiv sum.toNat (2 ^ 1) := by
      rw [BitVec.toNat_or, BitVec.toNat_and, BitVec.toNat_ushiftRight, Nat.shiftRight_eq_div_pow,
        show (1 : U64).toNat = 1 from rfl, Nat.and_one_is_mod, stickyDiv]
      rcases Nat.mod_two_eq_zero_or_one sum.toNat with h0 | h0 <;> simp [h0]
    apply roundPack_isRne hsg
    · rw [hjam]
      exact stickyDiv_lt (by omega)
    · right
      rw [hjam]
      exact le_trans (by omega) (div_le_stickyDiv _ _)
    · rw [hjam]
      have hha := (hag.four.stickyShift le_rfl).four
      convert hha using 1
      rw [show aExp + 1 = aExp - -1 by ring, scale_sub, zpow_neg_one, pow_one, div_eq_mul_inv]
  · rename_i hca
    rw [decide_eq_true_iff] at hca
    exact roundPack_isRne hsg (not_le.mp hca) (hlow.imp_left le_of_eq) hag.four

theorem normalizeShift {d : U64} (hd : d.toNat ≠ 0) (hlt : d.toNat < 2 ^ 56) :
    ∃ lz : Nat, (clz64 d : Int) - (63 - (sigbits + 3 : Nat)) = lz ∧
      2 ^ 55 ≤ d.toNat * 2 ^ lz ∧ d.toNat * 2 ^ lz < 2 ^ 56 := by
  obtain ⟨hlo, hhi⟩ := clz64_spec hd
  have h8 : 8 ≤ clz64 d := by
    by_contra hclz
    have : 2 ^ clz64 d ≤ 2 ^ 7 := Nat.pow_le_pow_right (by decide) (by omega)
    have := Nat.mul_le_mul_left d.toNat this
    omega
  refine ⟨clz64 d - 8, by unfold sigbits; omega, ?_⟩
  rw [show clz64 d = clz64 d - 8 + 8 by omega, pow_add, ← mul_assoc] at hlo hhi
  omega

namespace Aligned

variable {aExp bExp : Int} {aSig bSig : U64}

theorem align_exact (h : Aligned aExp aSig bExp bSig) (hsh : aExp - bExp ≤ 3) :
    ((stickyDiv (bSig.toNat * 8) (2 ^ (aExp - bExp).toNat) : Nat) : ℚ) =
      bSig.toNat * 2 ^ (bExp - 1) * 2 ^ (4 - aExp) := by
  have hle := h.exp_le
  obtain ⟨j, hj⟩ : ∃ j : Nat, aExp - bExp = j := ⟨(aExp - bExp).toNat, by omega⟩
  have hdvd : bSig.toNat * 8 = bSig.toNat * 2 ^ (3 - j) * 2 ^ j := by
    rw [mul_assoc, ← pow_add, show 3 - j + j = 3 by omega]
    rfl
  rw [hj, Int.toNat_natCast, stickyDiv_eq, hdvd, Nat.mul_mod_left, if_pos rfl,
    Nat.mul_div_cancel _ (Nat.two_pow_pos j), mul_assoc, ← zpow_add₀ two_ne_zero]
  push_cast
  rw [← zpow_natCast, show bExp - 1 + (4 - aExp) = ((3 - j : Nat) : Int) by omega]

theorem align_le (h : Aligned aExp aSig bExp bSig) (hord : aExp = bExp → bSig.toNat ≤ aSig.toNat) :
    stickyDiv (bSig.toNat * 8) (2 ^ (aExp - bExp).toNat) ≤ aSig.toNat * 8 ∧
      (2 ≤ aExp - bExp → stickyDiv (bSig.toNat * 8) (2 ^ (aExp - bExp).toNat) < 2 ^ 54) := by
  have hpos := h.bExp_pos
  have hle := h.exp_le
  have hb := h.bSig_lt
  have hsm : ∀ j, j ≤ (aExp - bExp).toNat → j ≤ 55 →
      stickyDiv (bSig.toNat * 8) (2 ^ (aExp - bExp).toNat) < 2 ^ (55 - j + 1) := by
    intro j hj hj'
    apply stickyDiv_lt
    rw [Nat.div_lt_iff_lt_mul (Nat.two_pow_pos _), ← pow_add]
    calc bSig.toNat * 8 < 2 ^ 56 := by omega
      _ ≤ 2 ^ (55 - j + 1 + (aExp - bExp).toNat) := Nat.pow_le_pow_right (by decide) (by omega)
  constructor
  · rcases hle.eq_or_lt with heq | hlt
    · rw [heq, sub_self, Int.toNat_zero, pow_zero, stickyDiv_one]
      omega
    · have ha := h.aSig_normal.resolve_left (by omega)
      have := hsm 1 (by omega) (by omega)
      omega
  · intro h2
    exact hsm 2 (by omega) (by omega)

end Aligned

theorem subMagnitudes_spec {sign : U32} {aSig bSig : U64} (hsg : sign.toNat ≤ 1)
    (h : Aligned aExp aSig bExp bSig) (hord : aExp = bExp → bSig.toNat ≤ aSig.toNat) {X : ℚ}
    (hX : X = aSig.toNat * 2 ^ (aExp - 1) - bSig.toNat * 2 ^ (bExp - 1)) :
    (X = 0 ∧ subMagnitudes sign aExp aSig bExp bSig = 0) ∨
      (0 < X ∧ Rounds64 (decide (sign.toNat = 1)) X (subMagnitudes sign aExp aSig bExp bSig)) := by
  have hag := h.gridAgree_diff
  obtain ⟨hle, hsm⟩ := h.align_le hord
  have ha := Aligned.toNat_shift3 h.aSig_lt
  have hb := h.toNat_align
  have halt := h.aSig_lt
  have hdiff : (aSig <<< 3 - alignSig (aExp - bExp) (bSig <<< 3)).toNat =
      aSig.toNat * 8 - stickyDiv (bSig.toNat * 8) (2 ^ (aExp - bExp).toNat) := by
    rw [BitVec.toNat_sub, ha, hb]
    omega
  have hdiffq : ((aSig <<< 3 - alignSig (aExp - bExp) (bSig <<< 3)).toNat : ℚ) =
      aSig.toNat * 8 - (stickyDiv (bSig.toNat * 8) (2 ^ (aExp - bExp).toNat) : Nat) := by
    rw [hdiff, Nat.cast_sub hle]
    push_cast
    ring
  have hex : aExp - bExp ≤ 3 → X * (2 : ℚ) ^ (4 - aExp) =
      (aSig <<< 3 - alignSig (aExp - bExp) (bSig <<< 3)).toNat := by
    intro hsh
    rw [hdiffq, h.align_exact hsh, hX, sub_mul, scale_self]
  have hbig : 2 ≤ aExp - bExp → 2 ^ 54 < (aSig <<< 3 - alignSig (aExp - bExp) (bSig <<< 3)).toNat := by
    intro h2
    have hlow := h.aSig_normal.resolve_left (by have := h.bExp_pos; omega)
    omega
  rw [← hdiffq, ← hX] at hag
  unfold subMagnitudes
  simp only
  generalize aSig <<< 3 - alignSig _ _ = d at *
  have hsc : (0 : ℚ) < 2 ^ (4 - aExp) := by positivity
  split
  · -- exact cancellation
    rename_i hz
    left
    refine ⟨?_, rfl⟩
    have hX0 := (hag.eq_iff 0).mpr (by rw [hz]; simp)
    rw [Int.cast_zero, mul_zero] at hX0
    exact (mul_eq_zero.mp hX0).resolve_right hsc.ne'
  · rename_i hz
    have hd0 : d.toNat ≠ 0 := fun h0 => hz (BitVec.eq_of_toNat_eq (by simpa using h0))
    right
    constructor
    · have hpos := (hag 0).2.mpr (by
        exact_mod_cast pos_of_ne_zero hd0)
      rw [Int.cast_zero, mul_zero] at hpos
      exact (mul_pos_iff_of_pos_right hsc).mp hpos
    obtain ⟨lz, hlz, hlo, hhi⟩ := normalizeShift hd0 (by omega)
    rw [hlz]
    split
    · have hshl : (d <<< (lz : Int).toNat).toNat = d.toNat * 2 ^ lz := by
        rw [Int.toNat_natCast]
        exact toNat_shiftLeft_of_lt (by omega)
      apply roundPack_isRne hsg
      · rw [hshl]
        exact hhi
      · right
        rw [hshl]
        exact hlo
      -- only a shift by one can follow an inexact alignment
      rw [hshl, scale_sub, zpow_natCast]
      push_cast
      rcases le_or_gt (aExp - bExp) 1 with hnear | hfar
      · rw [hex (by omega)]
        exact GridAgree.refl _ _
      have hlz1 : lz = 1 := by
        by_contra hne
        have h4 : 2 ^ 2 ≤ 2 ^ lz := Nat.pow_le_pow_right (by decide) (by omega)
        have := Nat.mul_le_mul_left d.toNat h4
        omega
      subst hlz1
      have hdbl := hag.scale two_pos
      rw [show (2 : ℚ) * 2 = 4 by norm_num] at hdbl
      rwa [pow_one, mul_comm _ _, mul_comm _ (2 : ℚ)]
    · have h0 : lz = 0 := by omega
      subst h0
      rw [pow_zero, mul_one] at hlo hhi
      exact roundPack_isRne hsg hhi (Or.inr hlo) hag.four

end Skjegg.Runtime
