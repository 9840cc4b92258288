import Skjegg.Runtime.SoftFloat
import Skjegg.Lib.Ieee

/-!
# The word-level helpers of the software floating point

What the bit manipulation of `runtime/softfloat.c` computes, as arithmetic on natural numbers.
-/

namespace Skjegg.Runtime

open Skjegg.Lib BitVec

/-! ## Sticky shifts -/

section Words

variable {w : Nat}

theorem toNat_truth (hw : 0 < w) (b : Bool) : (truth b : BitVec w).toNat = if b then 1 else 0 := by
  have h1 : 1 < 2 ^ w := Nat.one_lt_two_pow hw.ne'
  cases b <;> simp [truth, Nat.mod_eq_of_lt h1]

theorem toNat_shiftRightJam {k : Nat} (x : BitVec w) (hk : k < w) :
    (shiftRightJam x k).toNat = stickyDiv x.toNat (2 ^ k) := by
  rw [shiftRightJam, toNat_or, toNat_ushiftRight, toNat_truth (by omega), stickyDiv,
    Nat.shiftRight_eq_div_pow, bne_zero_eq, toNat_and_lowMask x hk]
  by_cases h : x.toNat % 2 ^ k = 0 <;> simp [h]

end Words

/-! ## Leading zeros -/

theorem and_highMask_eq_zero {j : Nat} (hj : j ≤ 64) (x : U64) :
    x &&& (BitVec.allOnes 64 <<< j) = 0 ↔ x.toNat < 2 ^ j := by
  constructor
  · intro h
    apply Nat.lt_pow_two_of_testBit
    intro i hi
    by_cases hi64 : i < 64
    · have hbit := congrArg (fun y => y.getLsbD i) h
      simp only [getLsbD_and, getLsbD_shiftLeft, getLsbD_allOnes,
        hi64, show ¬ i < j by omega, show i - j < 64 by omega, decide_true,
        decide_false] at hbit
      rw [testBit_toNat]
      simpa using hbit
    · exact Nat.testBit_lt_two_pow (x.isLt.trans_le (Nat.pow_le_pow_right (by decide) (by omega)))
  · intro h
    apply eq_of_getLsbD_eq
    intro i hi
    by_cases hij : i < j
    · simp [hij]
    · have : x.toNat.testBit i = false :=
        Nat.testBit_lt_two_pow (h.trans_le (Nat.pow_le_pow_right (by decide) (by omega)))
      simp [getLsbD, this]

theorem clzStep_spec (k : Nat) (s : Nat × U64) (hk : 0 < k) (hk' : 2 * k ≤ 64)
    (hs : 2 ^ (64 - 2 * k) ≤ s.2.toNat) :
    ∃ c x, clzStep (BitVec.allOnes 64 <<< (64 - k)) k s = (s.1 + c, x) ∧
      x.toNat = s.2.toNat * 2 ^ c ∧ 2 ^ (64 - k) ≤ x.toNat := by
  unfold clzStep
  split
  · rename_i h
    rw [and_highMask_eq_zero (by omega)] at h
    have hfit : s.2.toNat * 2 ^ k < 2 ^ 64 := by
      calc s.2.toNat * 2 ^ k < 2 ^ (64 - k) * 2 ^ k :=
            mul_lt_mul_of_pos_right h (Nat.two_pow_pos k)
        _ = 2 ^ 64 := by rw [← pow_add, Nat.sub_add_cancel (by omega)]
    refine ⟨k, _, rfl, toNat_shiftLeft_of_lt hfit, ?_⟩
    rw [toNat_shiftLeft_of_lt hfit]
    calc 2 ^ (64 - k) = 2 ^ (64 - 2 * k) * 2 ^ k := by rw [← pow_add]; congr 1; omega
      _ ≤ s.2.toNat * 2 ^ k := Nat.mul_le_mul_right _ hs
  · rename_i h
    rw [and_highMask_eq_zero (by omega)] at h
    exact ⟨0, s.2, rfl, by simp, not_lt.mp h⟩

theorem clz64_spec {x : U64} (hx : x.toNat ≠ 0) :
    2 ^ 63 ≤ x.toNat * 2 ^ clz64 x ∧ x.toNat * 2 ^ clz64 x < 2 ^ 64 := by
  obtain ⟨c1, x1, h1, e1, b1⟩ := clzStep_spec 32 (0, x) (by decide) (by decide)
    (Nat.one_le_iff_ne_zero.mpr hx)
  obtain ⟨c2, x2, h2, e2, b2⟩ := clzStep_spec 16 (0 + c1, x1) (by decide) (by decide) b1
  obtain ⟨c3, x3, h3, e3, b3⟩ := clzStep_spec 8 (0 + c1 + c2, x2) (by decide) (by decide) b2
  obtain ⟨c4, x4, h4, e4, b4⟩ := clzStep_spec 4 (0 + c1 + c2 + c3, x3) (by decide) (by decide) b3
  obtain ⟨c5, x5, h5, e5, b5⟩ := clzStep_spec 2 (0 + c1 + c2 + c3 + c4, x4) (by decide) (by decide) b4
  have hx5 : x5.toNat = x.toNat * 2 ^ (0 + c1 + c2 + c3 + c4 + c5) := by
    rw [e5, e4, e3, e2, e1]
    ring
  have hclz : clz64 x = if x5 &&& (allOnes 64 <<< 63) = 0 then
      0 + c1 + c2 + c3 + c4 + c5 + 1 else 0 + c1 + c2 + c3 + c4 + c5 := by
    change (let s := clzStep (allOnes 64 <<< (64 - 2)) 2 (clzStep (allOnes 64 <<< (64 - 4)) 4
      (clzStep (allOnes 64 <<< (64 - 8)) 8 (clzStep (allOnes 64 <<< (64 - 16)) 16
      (clzStep (allOnes 64 <<< (64 - 32)) 32 (0, x)))))
      if s.2 &&& (allOnes 64 <<< 63) = 0 then s.1 + 1 else s.1) = _
    rw [h1, h2, h3, h4, h5]
  rw [hclz]
  split
  · rename_i h
    rw [and_highMask_eq_zero (by decide)] at h
    have hdbl : x.toNat * 2 ^ (0 + c1 + c2 + c3 + c4 + c5 + 1) = x5.toNat * 2 := by
      rw [hx5, pow_succ, mul_assoc]
    omega
  · rename_i h
    rw [and_highMask_eq_zero (by decide)] at h
    rw [← hx5]
    exact ⟨not_lt.mp h, x5.isLt⟩

/-! ## The double-width product -/

theorem umul64_spec (x y : U64) :
    (umul64 x y).1.toNat * 2 ^ 64 + (umul64 x y).2.toNat = x.toNat * y.toNat := by
  have hlow : ∀ z, (z &&& 0xffffffff#64).toNat = z.toNat % 2 ^ 32 := fun z =>
    toNat_and_lowMask z (k := 32) (by decide)
  have hhi : ∀ z : U64, (z >>> 32).toNat = z.toNat / 2 ^ 32 := fun z => by
    rw [toNat_ushiftRight, Nat.shiftRight_eq_div_pow]
  -- the partial products of two halves fit in a word
  have hprod : ∀ u v : U64, u.toNat < 2 ^ 32 → v.toNat < 2 ^ 32 →
      (u * v).toNat = u.toNat * v.toNat ∧ u.toNat * v.toNat ≤ (2 ^ 32 - 1) * (2 ^ 32 - 1) := by
    intro u v hu hv
    have hle : u.toNat * v.toNat ≤ (2 ^ 32 - 1) * (2 ^ 32 - 1) := Nat.mul_le_mul (by omega) (by omega)
    rw [toNat_mul, Nat.mod_eq_of_lt (by omega)]
    exact ⟨rfl, hle⟩
  have hx0 : (x &&& 0xffffffff#64).toNat < 2 ^ 32 := hlow x ▸ Nat.mod_lt _ (by decide)
  have hy0 : (y &&& 0xffffffff#64).toNat < 2 ^ 32 := hlow y ▸ Nat.mod_lt _ (by decide)
  have hx1 : (x >>> 32).toNat < 2 ^ 32 := by rw [hhi]; omega
  have hy1 : (y >>> 32).toNat < 2 ^ 32 := by rw [hhi]; omega
  have hspl : x.toNat * y.toNat = (x >>> 32).toNat * (y >>> 32).toNat * 2 ^ 64 +
      ((x &&& 0xffffffff#64).toNat * (y >>> 32).toNat +
        (x >>> 32).toNat * (y &&& 0xffffffff#64).toNat) * 2 ^ 32 +
      (x &&& 0xffffffff#64).toNat * (y &&& 0xffffffff#64).toNat := by
    have hx := Nat.div_add_mod x.toNat (2 ^ 32)
    have hy := Nat.div_add_mod y.toNat (2 ^ 32)
    rw [hlow, hlow, hhi, hhi]
    nth_rewrite 1 [← hx, ← hy]
    ring
  unfold umul64
  simp only
  generalize x &&& 0xffffffff#64 = x0 at *
  generalize x >>> 32 = x1 at *
  generalize y &&& 0xffffffff#64 = y0 at *
  generalize y >>> 32 = y1 at *
  obtain ⟨e00, -⟩ := hprod x0 y0 hx0 hy0
  obtain ⟨e01, -⟩ := hprod x0 y1 hx0 hy1
  obtain ⟨e10, b10⟩ := hprod x1 y0 hx1 hy0
  obtain ⟨e11, b11⟩ := hprod x1 y1 hx1 hy1
  generalize x0 * y0 = p00 at *
  generalize x0 * y1 = p01 at *
  generalize x1 * y0 = p10 at *
  have hmid : (p00 >>> 32 + (p01 &&& 0xffffffff#64) + (p10 &&& 0xffffffff#64)).toNat =
      p00.toNat / 2 ^ 32 + p01.toNat % 2 ^ 32 + p10.toNat % 2 ^ 32 := by
    rw [toNat_add, toNat_add, hhi, hlow, hlow]
    omega
  generalize p00 >>> 32 + (p01 &&& 0xffffffff#64) + (p10 &&& 0xffffffff#64) = mid at *
  have hlo : ((p00 &&& 0xffffffff#64) ||| mid <<< 32).toNat =
      mid.toNat % 2 ^ 32 * 2 ^ 32 + p00.toNat % 2 ^ 32 := by
    have hsh : (mid <<< 32).toNat = mid.toNat % 2 ^ 32 * 2 ^ 32 := by
      rw [toNat_shiftLeft, Nat.shiftLeft_eq]
      omega
    rw [BitVec.or_comm, toNat_or_of_lt hsh (hlow p00 ▸ Nat.mod_lt _ (by decide)), hsh, hlow]
  rw [hlo, toNat_add, toNat_add, toNat_add, hhi, hhi, hhi, hspl]
  omega

/-! ## Rounding and packing -/

theorem stickyDiv_cap {n j k : Nat} (hn : n < 2 ^ j) (hjk : j ≤ k) :
    stickyDiv n (2 ^ j) = stickyDiv n (2 ^ k) := by
  rw [stickyDiv_of_lt hn, stickyDiv_of_lt (hn.trans_le (Nat.pow_le_pow_right (by decide) hjk))]

theorem toNat_roundUp {w : Nat} (hw : 4 ≤ w) (sig : BitVec w) :
    (roundUp sig).toNat = roundOff3 sig.toNat := by
  have hpow : 2 ^ 4 ≤ 2 ^ w := Nat.pow_le_pow_right (by decide) hw
  have hlit : ∀ n < 2 ^ 4, (BitVec.ofNat w n).toNat = n := fun n hn => by
    rw [toNat_ofNat, Nat.mod_eq_of_lt (by omega)]
  have h7 : (sig &&& 7).toNat = sig.toNat % 8 := by
    rw [toNat_and, show (7 : BitVec w).toNat = 7 from hlit 7 (by decide)]
    exact Nat.and_two_pow_sub_one_eq_mod _ 3
  have hr : (sig >>> 3).toNat = sig.toNat / 8 := by
    rw [toNat_ushiftRight, Nat.shiftRight_eq_div_pow]
  have h1 : (1 : BitVec w).toNat = 1 := hlit 1 (by decide)
  have h4 : (4#w).toNat = 4 := hlit 4 (by decide)
  have hodd : (sig >>> 3 &&& 1 != 0) = decide (sig.toNat / 8 % 2 = 1) := by
    rw [bne_zero_eq, toNat_and, hr, h1, Nat.and_one_is_mod, decide_eq_decide]
    omega
  have hgt : (sig &&& 7 > 4#w) ↔ 4 < sig.toNat % 8 := by
    rw [gt_iff_lt, lt_def, h7, h4]
  have heq : (sig &&& 7 == 4#w) = decide (sig.toNat % 8 = 4) := by
    rw [Bool.eq_iff_iff, beq_iff_eq, ← toNat_inj, h7, h4, decide_eq_true_iff]
  have hinc : (sig >>> 3 + 1).toNat = sig.toNat / 8 + 1 := by
    rw [toNat_add, hr, h1, Nat.mod_eq_of_lt (by omega)]
  unfold roundUp
  simp only [heq, hodd, hgt, Bool.or_eq_true, Bool.and_eq_true, decide_eq_true_eq]
  unfold roundOff3
  split
  · exact hinc
  · exact hr

theorem toNat_sign {s : U32} (hs : s.toNat ≤ 1) : (s.setWidth 64 <<< 63).toNat = s.toNat * 2 ^ 63 := by
  have hset : (s.setWidth 64).toNat = s.toNat := by
    rw [toNat_setWidth, Nat.mod_eq_of_lt (by omega)]
  rw [toNat_shiftLeft_of_lt (by rw [hset]; omega), hset]

theorem toNat_and_sigmask (x : U64) : (x &&& sigmask).toNat = x.toNat % 2 ^ 52 :=
  toNat_and_lowMask x (by decide)

theorem and_implicitBit_bne_zero {r : U64} (hr : r.toNat < 2 ^ 53) :
    (r &&& implicitBit != 0) = decide (2 ^ 52 ≤ r.toNat) :=
  and_bit_bne_zero (by decide) hr

theorem toNat_sign_or {s c : U64} {n : Nat} (hs : s.toNat = n * 2 ^ 63) (hc : c.toNat < 2 ^ 63) :
    (s ||| c).toNat = n * 2 ^ 63 + c.toNat := by
  rw [toNat_or_of_lt hs hc, hs]

theorem toNat_exp_or {E : Nat} {f r : U64} (hf : f.toNat = E) (hE : E < 2 ^ 11) :
    (f <<< sigbits ||| (r &&& sigmask)).toNat = E * 2 ^ 52 + r.toNat % 2 ^ 52 := by
  have hsh : (f <<< sigbits).toNat = E * 2 ^ 52 := by
    rw [toNat_shiftLeft_of_lt (by rw [hf]; unfold sigbits; omega), hf]
    rfl
  have hfc : (r &&& sigmask).toNat < 2 ^ 52 := by
    rw [toNat_and_sigmask]
    exact Nat.mod_lt _ (by decide)
  rw [toNat_or_of_lt hsh hfc, hsh, toNat_and_sigmask]

theorem toNat_packBits {s : U64} {n : Nat} {e : Int} {r : U64} (hs : s.toNat = n * 2 ^ 63)
    (he : 0 ≤ e) (hr : r.toNat < 2 ^ 53) (hnr : e ≤ 1 ∨ 2 ^ 52 ≤ r.toNat) :
    (packBits s e r).toNat = n * 2 ^ 63 + min ((max e.toNat 1 - 1) * 2 ^ 52 + r.toNat) (2047 * 2 ^ 52) := by
  unfold packBits
  rw [and_implicitBit_bne_zero hr]
  split
  · rename_i hov
    unfold expmax at hov
    have hinf : infbits.toNat = 2047 * 2 ^ 52 := by decide
    rw [toNat_sign_or hs (by omega), hinf]
    omega
  · rename_i hov
    unfold expmax at hov
    split
    · rename_i hnrm
      have hrlow : 2 ^ 52 ≤ r.toNat := of_decide_eq_true hnrm
      have hexp : (BitVec.ofInt 64 (if e ≤ 0 then 1 else e)).toNat = max e.toNat 1 := by
        rw [toNat_ofInt]
        split <;> omega
      have hbd : 1 ≤ max e.toNat 1 ∧ max e.toNat 1 < 2047 := by omega
      have hco := toNat_exp_or (r := r) hexp (by omega)
      rw [BitVec.or_assoc, toNat_sign_or hs (by omega), hco]
      omega
    · rename_i hnrm
      rw [decide_eq_true_iff] at hnrm
      have hfc : (r &&& sigmask).toNat = r.toNat := by
        rw [toNat_and_sigmask, Nat.mod_eq_of_lt (by omega)]
      rw [toNat_sign_or hs (by omega), hfc]
      omega

/-- The exponent that `round_pack` works at, and the significand at that exponent. -/
def roundExp (exp : Int) : Nat := max exp.toNat 1

def roundSig (exp : Int) (sig : Nat) : Nat :=
  if exp ≤ 0 then stickyDiv sig (2 ^ (1 - exp).toNat) else sig

theorem roundSig_lt {exp : Int} {sig k : Nat} (hsig : sig < 2 ^ (k + 2)) :
    roundSig exp sig < 2 ^ (k + 2) ∧ (exp ≤ 0 → roundSig exp sig < 2 ^ (k + 1)) := by
  have hha : exp ≤ 0 → stickyDiv sig (2 ^ (1 - exp).toNat) < 2 ^ (k + 1) := by
    intro hexp
    obtain ⟨j, hj⟩ : ∃ j, (1 - exp).toNat = j + 1 := ⟨(1 - exp).toNat - 1, by omega⟩
    apply stickyDiv_lt
    rw [hj, Nat.div_lt_iff_lt_mul (Nat.two_pow_pos _), ← pow_add]
    exact hsig.trans_le (Nat.pow_le_pow_right (by decide) (by omega))
  have hpow : 2 ^ (k + 1) < 2 ^ (k + 2) := Nat.pow_lt_pow_right (by decide) (by omega)
  unfold roundSig
  split
  · rename_i hexp
    exact ⟨(hha hexp).trans hpow, fun _ => hha hexp⟩
  · rename_i hexp
    exact ⟨hsig, fun h => absurd h hexp⟩

theorem gridAgree_roundSig {X : ℚ} {exp : Int} {sig : Nat} (hag : GridAgree 4 (X * 2 ^ (4 - exp)) sig) :
    GridAgree 4 (X * 8 / 2 ^ (roundExp exp - 1)) (roundSig exp sig : Nat) := by
  unfold roundExp roundSig
  split
  · have hsh := (hag.stickyShift (k := (1 - exp).toNat) (by omega)).four
    rw [← zpow_natCast, mul_div_assoc, ← zpow_sub₀ two_ne_zero,
      show (4 - exp - ((1 - exp).toNat : Int)) = 3 by omega] at hsh
    rw [show max _ 1 - 1 = 0 by omega, pow_zero, div_one]
    exact hsh
  · rw [← zpow_natCast, show (8 : ℚ) = 2 ^ (3 : Int) by norm_num, mul_div_assoc,
      ← zpow_sub₀ two_ne_zero, show (3 - ((max _ 1 - 1 : Nat) : Int)) = 4 - exp by omega]
    exact hag

section AnyWidth

variable {w m : Nat} {exp e : Int} {sig j : BitVec w} {X : ℚ}

theorem denormalize_spec (cap : Nat) (hcap : cap < w) (hsig : sig.toNat < 2 ^ cap) :
    (if exp ≤ 0 then ((0 : Int), shiftRightJam sig (if 1 - exp > cap then cap else (1 - exp).toNat))
      else (exp, sig)) = (e, j) →
      e = (if exp ≤ 0 then 0 else exp) ∧ j.toNat = roundSig exp sig.toNat := by
  unfold roundSig
  split
  · rintro ⟨⟩
    refine ⟨rfl, ?_⟩
    split
    · rw [toNat_shiftRightJam sig hcap]
      exact stickyDiv_cap hsig (by omega)
    · exact toNat_shiftRightJam sig (by omega)
  · rintro ⟨⟩
    exact ⟨rfl, rfl⟩

/-- The end of `round_pack` and of `spack`: a code is right if the exponent is at most `c` or the
significand has its top bit. -/
theorem pack_isRne {pack : Int → BitVec w → BitVec w} {P : Nat → Nat} {c : Int} (hm : 0 < m)
    (hw : m + 4 ≤ w) (hc : c = 0 ∨ c = 1)
    (hpack : ∀ e r, 0 ≤ e → r.toNat < 2 ^ (m + 1) → e ≤ c ∨ 2 ^ m ≤ r.toNat →
      (pack e r).toNat = P ((max e.toNat 1 - 1) * 2 ^ m + r.toNat))
    (hd : e = (if exp ≤ 0 then 0 else exp) ∧ j.toNat = roundSig exp sig.toNat)
    (hsig : sig.toNat < 2 ^ (m + 4)) (hnr : exp ≤ c ∨ 2 ^ (m + 3) ≤ sig.toNat)
    (hag : GridAgree 4 (X * 2 ^ (4 - exp)) sig.toNat) :
    ∃ n, IsRne m X n ∧ (if roundUp j &&& (1#w <<< (m + 1)) != 0 then pack (e + 1) (roundUp j >>> 1)
      else pack e (roundUp j)).toNat = P n := by
  obtain ⟨hlt, hlt'⟩ : roundSig exp sig.toNat < 2 ^ (m + 4) ∧
      (exp ≤ 0 → roundSig exp sig.toNat < 2 ^ (m + 3)) := roundSig_lt hsig
  have hlow : c < exp → 2 ^ (m + 3) ≤ roundSig exp sig.toNat := by
    intro h
    rw [roundSig, if_neg (by omega)]
    exact hnr.resolve_left (by omega)
  have hnr' : roundExp exp = 1 ∨ 2 ^ (m + 3) ≤ roundSig exp sig.toNat := by
    rcases le_or_gt exp 1 with h | h
    · exact .inl (by unfold roundExp; omega)
    · exact .inr (hlow (by omega))
  refine ⟨_, isRne_of_gridAgree hm (le_max_right _ _) hlt hnr' (gridAgree_roundSig hag), ?_⟩
  have hr : (roundUp j).toNat = roundOff3 (roundSig exp sig.toNat) := by
    rw [toNat_roundUp (by omega), hd.2]
  have hrle := roundOff3_le hlt
  have hone := Nat.two_pow_pos m
  have he : e.toNat = exp.toNat ∧ 0 ≤ e ∧ (exp ≤ c → e ≤ c) := by
    rw [hd.1]
    split <;> omega
  rw [and_bit_bne_zero (by omega) (by rw [hr]; omega), hr]
  split
  · -- the carry can only come from a full significand
    rename_i hca
    have hfu : roundOff3 _ = 2 ^ (m + 1) :=
      le_antisymm hrle (of_decide_eq_true hca)
    have hpos : 1 ≤ exp := by
      by_contra hexp
      obtain ⟨k, rfl⟩ := Nat.exists_eq_succ_of_ne_zero hm.ne'
      have := roundOff3_le (hlt' (by omega))
      omega
    have hha : (roundUp j >>> 1).toNat = 2 ^ m := by
      rw [toNat_ushiftRight, Nat.shiftRight_eq_div_pow, hr, hfu]
      omega
    rw [hpack _ _ (by omega) (by omega) (.inr hha.ge), hha, hfu,
      show max (e + 1).toNat 1 - 1 = max exp.toNat 1 - 1 + 1 by omega]
    generalize max _ 1 - 1 = E
    rw [show (E + 1) * 2 ^ m + 2 ^ m = E * 2 ^ m + 2 ^ (m + 1) by ring]
  · rename_i hca
    rw [decide_eq_true_iff] at hca
    have hnrm : e ≤ c ∨ 2 ^ m ≤ (roundUp j).toNat := by
      rcases le_or_gt exp c with h | h
      · exact .inl (he.2.2 h)
      · exact .inr (hr ▸ le_roundOff3 (hlow h))
    rw [hpack _ _ he.2.1 (by omega) hnrm, hr, he.1]

end AnyWidth

theorem pack_sign (F : Format) {n : Nat} (hn : n ≤ 1) (c : Nat) :
    n * F.signBit + c = F.pack (decide (n = 1)) c := by
  rcases Nat.le_one_iff_eq_zero_or_eq_one.mp hn with h | h
  · rw [h, Format.pack]
    simp
  · rw [h, Format.pack]
    simp

theorem roundPack_isRne {sign : U32} {exp : Int} {sig : U64} {X : ℚ} (hsg : sign.toNat ≤ 1)
    (hsig : sig.toNat < 2 ^ 56) (hnr : exp ≤ 1 ∨ 2 ^ 55 ≤ sig.toNat)
    (hag : GridAgree 4 (X * 2 ^ (4 - exp)) sig.toNat) : ∃ n, IsRne 52 X n ∧ (roundPack sign exp sig).toNat =
      binary64.pack (decide (sign.toNat = 1)) (min n binary64.infCode) :=
  pack_isRne (c := 1) (by decide) (by decide) (.inr rfl)
    (fun _ _ he hr hn => (toNat_packBits (toNat_sign hsg) he hr hn).trans (pack_sign binary64 hsg _))
    (denormalize_spec 63 (by decide) (by omega) rfl) hsig hnr hag

end Skjegg.Runtime
