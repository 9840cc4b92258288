import Skjegg.Runtime.SoftFloatDouble

/-!
# Conversions between single and double

`extendsfdf2` gives the double of the same value, and `truncdfsf2` rounds a finite double to single:
its `spack` is `round_pack` in 32-bit words.
-/

namespace Skjegg.Runtime

open Skjegg.Lib BitVec

/-! ## Packing a single -/

theorem toNat_shiftLeft31 {s : U32} (hs : s.toNat ≤ 1) : (s <<< 31).toNat = s.toNat * 2 ^ 31 :=
  toNat_shiftLeft_of_lt (by omega)

theorem toNat_and_fracMask (x : U32) : (x &&& 0x7fffff#32).toNat = x.toNat % 2 ^ 23 :=
  toNat_and_lowMask x (k := 23) (by decide)

theorem toNat_fields32 {s f r : U32} {n E : Nat} (hs : s.toNat = n * 2 ^ 31) (hf : f.toNat = E)
    (hE : E < 2 ^ 8) :
    (s ||| (f <<< 23) ||| (r &&& 0x7fffff#32)).toNat = n * 2 ^ 31 + (E * 2 ^ 23 + r.toNat % 2 ^ 23) := by
  have hsh : (f <<< 23).toNat = E * 2 ^ 23 := by
    rw [toNat_shiftLeft_of_lt (by rw [hf]; omega), hf]
  have hfc := toNat_and_fracMask r
  have hlow : (f <<< 23 ||| (r &&& 0x7fffff#32)).toNat = E * 2 ^ 23 + r.toNat % 2 ^ 23 := by
    rw [toNat_or_of_lt hsh (by omega), hsh, hfc]
  rw [BitVec.or_assoc, toNat_or_of_lt hs (by omega), hs, hlow]

theorem toNat_spackBits {s : U32} {n : Nat} {e : Int} {r : U32} (hs : s.toNat = n * 2 ^ 31)
    (he : 0 ≤ e) (hr : r.toNat < 2 ^ 24) (hnr : e = 0 ∨ 2 ^ 23 ≤ r.toNat) :
    (spackBits s e r).toNat = n * 2 ^ 31 + min ((max e.toNat 1 - 1) * 2 ^ 23 + r.toNat) (255 * 2 ^ 23) := by
  unfold spackBits
  rw [and_bit_bne_zero (by decide) hr]
  split
  · have hinf : (0x7f800000#32).toNat = 255 * 2 ^ 23 := by decide
    rw [toNat_or_of_lt hs (by decide), hs, hinf]
    omega
  by_cases hbit : 2 ^ 23 ≤ r.toNat
  · -- a normal result, which carries the implicit bit
    have hfld : (if (decide (e = 0) && decide (2 ^ 23 ≤ r.toNat)) = true then 1 else e) =
        (max e.toNat 1 : Nat) := by
      rw [decide_eq_true hbit, Bool.and_true]
      split
      · rename_i h
        rw [of_decide_eq_true h]
        rfl
      · rename_i h
        rw [decide_eq_true_iff] at h
        omega
    have hbd : 1 ≤ max e.toNat 1 ∧ max e.toNat 1 < 255 := by omega
    generalize max _ 1 = E at *
    rw [toNat_fields32 (E := E) hs (by rw [toNat_ofInt]; omega) (by omega)]
    omega
  · have he0 := hnr.resolve_right hbit
    simp only [decide_eq_false hbit]
    rw [toNat_fields32 (E := 0) hs (by rw [he0]; decide) (by decide)]
    omega

theorem spack_isRne {sign : U32} {exp : Int} {sig : U32} {X : ℚ} (hsg : sign.toNat ≤ 1)
    (hsig : sig.toNat < 2 ^ 27) (hnr : 2 ^ 26 ≤ sig.toNat)
    (hag : GridAgree 4 (X * 2 ^ (4 - exp)) sig.toNat) : ∃ n, IsRne 23 X n ∧ (spack sign exp sig).toNat =
      binary32.pack (decide (sign.toNat = 1)) (min n binary32.infCode) :=
  pack_isRne (c := 0) (by decide) (by decide) (.inl rfl)
    (fun _ _ he hr hn => (toNat_spackBits (toNat_shiftLeft31 hsg) he hr
      (hn.imp_left fun h => le_antisymm h he)).trans (pack_sign binary32 hsg _))
    (denormalize_spec 31 (by decide) (by omega) rfl) hsig (.inr hnr) hag

/-! ## Narrowing -/

theorem toNat_narrowSig {sig : U64} (hsig : sig.toNat < 2 ^ 53) :
    ((sig >>> 26).setWidth 32 ||| truth (sig &&& ((1#64 <<< 26) - 1) != 0)).toNat =
      stickyDiv sig.toNat (2 ^ 26) := by
  have hlow : (sig &&& ((1#64 <<< 26) - 1)).toNat = sig.toNat % 2 ^ 26 := toNat_and_lowMask sig (by decide)
  rw [toNat_or, toNat_setWidth, toNat_ushiftRight, Nat.shiftRight_eq_div_pow,
    Nat.mod_eq_of_lt (by omega), toNat_truth (by decide), bne_zero_eq, hlow, stickyDiv]
  by_cases h : sig.toNat % 2 ^ 26 = 0
  · rw [decide_eq_false (not_not.mpr h), if_pos h]
    rfl
  · rw [decide_eq_true h, if_neg h]
    rfl

theorem ulp_ratio : binary64.ulp / binary32.ulp = 2 ^ (-925 : Int) := by
  rw [ulp_eq, show binary32.ulp = 2 ^ (-149 : Int) from rfl, ← zpow_sub₀ two_ne_zero]
  rfl

theorem toNat_sign32 (a : U64) : ((unpack a).sign <<< 31).toNat = binary32.pack (neg64 a) 0 := by
  rw [toNat_shiftLeft31 (unpack_sign_le a), (unpack_spec a).1]
  cases neg64 a <;> rfl

theorem truncdfsf2_isRne {a : U64} (hfin : code64 a < binary64.infCode) :
    ∃ j, IsRne 23 (codeMag 52 (code64 a) * 2 ^ (-925 : Int)) j ∧
      (truncdfsf2 a).toNat = binary32.pack (neg64 a) (min j binary32.infCode) := by
  obtain ⟨-, -, hs, hraw⟩ := unpack_spec a
  have hmag := unpack_mag a
  have hinf : binary64.infCode = 2047 * 2 ^ 52 := rfl
  unfold truncdfsf2
  simp only [hraw, expmax]
  rw [if_neg (by omega)]
  split
  · -- a subnormal double is below half the smallest single
    refine ⟨0, ⟨fun j hj => absurd hj (by omega), Or.inl ?_⟩, toNat_sign32 a⟩
    have hco : code64 a < 2 ^ 52 := by omega
    have hlt : (codeMag 52 (code64 a) : ℚ) < codeMag 52 (2 ^ 52) := by
      exact_mod_cast codeMag_strictMono 52 hco
    have hone : codeMag 52 (2 ^ 52) = 2 ^ 52 := by decide
    have hmid : codeMid 23 0 = 1 / 2 := by
      rw [codeMid, codeMag_zero, codeMag_succ, codeMag_zero]
      norm_num [codeExp]
    have hpow : (2 : ℚ) ^ (-925 : Int) ≤ 2 ^ (-53 : Int) := zpow_le_zpow_right₀ (by norm_num) (by norm_num)
    have hpos : (0 : ℚ) < 2 ^ (-925 : Int) := by positivity
    rw [hone] at hlt
    rw [hmid]
    calc (codeMag 52 (code64 a) : ℚ) * 2 ^ (-925 : Int)
        < (2 ^ 52 : Nat) * 2 ^ (-925 : Int) := mul_lt_mul_of_pos_right hlt hpos
      _ ≤ (2 ^ 52 : Nat) * 2 ^ (-53 : Int) := mul_le_mul_of_nonneg_left hpow (Nat.cast_nonneg _)
      _ = 1 / 2 := by norm_num
  have hlo : 2 ^ 52 ≤ (unpack a).sig.toNat := by
    rw [hs, codeSig, if_neg (by omega)]
    omega
  have hhi : (unpack a).sig.toNat < 2 ^ 53 := by
    rw [hs]
    exact codeSig_lt 52 _
  have hsig := toNat_narrowSig hhi
  rw [← unpack_sign_eq_one]
  apply spack_isRne (unpack_sign_le a)
  · rw [hsig]
    apply stickyDiv_lt
    omega
  · rw [hsig]
    exact le_trans (by omega) (div_le_stickyDiv _ _)
  have hsc : (codeMag 52 (code64 a) : ℚ) * 2 ^ (-925 : Int) *
      2 ^ (4 - ((unpack a).exp - bias + 127)) = (unpack a).sig.toNat / (2 ^ 26 : Nat) := by
    rw [← hmag, mul_assoc, mul_assoc, ← zpow_add₀ two_ne_zero, ← zpow_add₀ two_ne_zero,
      div_eq_mul_inv, Nat.cast_pow, Nat.cast_two, ← zpow_natCast, ← zpow_neg]
    congr 2
    unfold bias
    ring
  rw [hsc, hsig]
  exact (gridAgree_stickyDiv _ (Nat.two_pow_pos 26)).four

/-! ## Widening -/

variable {frac : U32}

theorem normalizeLoop_spec {fuel : Nat} (exp : Int) (hlt : frac.toNat < 2 ^ 24)
    (hfu : 2 ^ 23 ≤ frac.toNat * 2 ^ fuel) : ∃ z ≤ fuel, (normalizeLoop fuel exp frac).1 = exp - z ∧
      (normalizeLoop fuel exp frac).2.toNat = frac.toNat * 2 ^ z ∧
      2 ^ 23 ≤ frac.toNat * 2 ^ z ∧ frac.toNat * 2 ^ z < 2 ^ 24 := by
  induction fuel generalizing exp frac with
  | zero =>
    refine ⟨0, le_rfl, ?_, ?_, hfu, ?_⟩
    · simp [normalizeLoop]
    · simp [normalizeLoop]
    · omega
  | succ fuel ih =>
    have hbit := and_bit_bne_zero (by decide) hlt
    rw [normalizeLoop]
    split
    · rename_i hclr
      have hsm : ¬ 2 ^ 23 ≤ frac.toNat := by
        rw [show (frac &&& 1#32 <<< 23) = 0 from hclr] at hbit
        exact of_decide_eq_false hbit.symm
      have hshl : (frac <<< 1).toNat = frac.toNat * 2 ^ 1 := toNat_shiftLeft_of_lt (by omega)
      obtain ⟨z, hz, hexp, hfc, hlo, hhi⟩ := ih _ (show (frac <<< 1).toNat < 2 ^ 24 by omega)
        (by rw [hshl, mul_assoc, ← pow_add, add_comm]; exact hfu)
      rw [hshl, mul_assoc, ← pow_add, add_comm] at hfc hlo hhi
      refine ⟨z + 1, by omega, ?_, hfc, hlo, hhi⟩
      rw [hexp]
      push_cast
      ring
    · rename_i hset
      have hbig : 2 ^ 23 ≤ frac.toNat := by
        have htr : (frac &&& 1#32 <<< 23 != 0) = true := bne_iff_ne.mpr hset
        rw [htr] at hbit
        exact of_decide_eq_true hbit.symm
      exact ⟨0, Nat.zero_le _, by simp, by simp, by simpa using hbig, by simpa using hlt⟩

theorem toNat_fields64 {s f : U64} {n E : Nat} (hs : s.toNat = n * 2 ^ 63)
    (hf : f.toNat = E * 2 ^ 52) (hE : E < 2 ^ 11) (hfc : frac.toNat < 2 ^ 23) :
    (s ||| f ||| (frac.setWidth 64 <<< 29)).toNat = n * 2 ^ 63 + (E * 2 ^ 52 + frac.toNat * 2 ^ 29) := by
  have hset : (frac.setWidth 64).toNat = frac.toNat := by
    rw [toNat_setWidth, Nat.mod_eq_of_lt (by omega)]
  have hsh : (frac.setWidth 64 <<< 29).toNat = frac.toNat * 2 ^ 29 := by
    rw [toNat_shiftLeft_of_lt (by rw [hset]; omega), hset]
  have hlow : (f ||| (frac.setWidth 64 <<< 29)).toNat = E * 2 ^ 52 + frac.toNat * 2 ^ 29 := by
    rw [toNat_or_of_lt hf (by omega), hf, hsh]
  rw [BitVec.or_assoc, toNat_sign_or hs (by omega), hlow]

theorem codeMag_widen {e : Int} {sig : Nat} (he : -895 ≤ e) (hlo : 2 ^ 23 ≤ sig) (hhi : sig < 2 ^ 24) :
    (codeMag 52 ((e + 896).toNat * 2 ^ 52 + (sig - 2 ^ 23) * 2 ^ 29) : ℚ) * binary64.ulp =
      sig * 2 ^ (e - 1) * binary32.ulp := by
  obtain ⟨E, hE⟩ : ∃ E : Nat, e + 896 = E + 1 := ⟨(e + 895).toNat, by omega⟩
  have hco : (e + 896).toNat * 2 ^ 52 + (sig - 2 ^ 23) * 2 ^ 29 =
      (E + 1 - 1) * 2 ^ 52 + sig * 2 ^ 29 := by
    omega
  rw [hco, codeMag_mk (by omega) (by omega) (Or.inr (by omega)), ulp_eq,
    show binary32.ulp = 2 ^ (-149 : Int) from rfl, Nat.add_sub_cancel, Nat.cast_mul, Nat.cast_mul,
    Nat.cast_pow, Nat.cast_pow, Nat.cast_two, ← zpow_natCast, ← zpow_natCast, mul_assoc, mul_assoc,
    mul_assoc, ← zpow_add₀ two_ne_zero, ← zpow_add₀ two_ne_zero, ← zpow_add₀ two_ne_zero,
    show ((29 : Nat) : Int) + ((E : Int) + -1074) = e - 1 + -149 by omega]

theorem single_fields (a : U32) : ((a >>> 23) &&& 0xff#32).toNat = binary32.code a.toNat / 2 ^ 23 ∧
      (a &&& 0x7fffff#32).toNat = binary32.code a.toNat % 2 ^ 23 ∧
      (((a >>> 31) &&& 1).setWidth 64 <<< 63 : U64).toNat = signNat (binary32.neg a.toNat) * 2 ^ 63 := by
  have hco : binary32.code a.toNat = a.toNat % 2 ^ 31 := rfl
  have hsg : ((a >>> 31) &&& 1).toNat = signNat (binary32.neg a.toNat) := by
    have hbit : binary32.signBit = 2 ^ 31 := rfl
    rw [toNat_and, toNat_ushiftRight, Nat.shiftRight_eq_div_pow,
      show (1 : U32).toNat = 2 ^ 1 - 1 from rfl, Nat.and_two_pow_sub_one_eq_mod]
    unfold signNat Format.neg
    rw [hbit]
    by_cases h : 2 ^ 31 ≤ a.toNat
    · rw [decide_eq_true h, if_pos rfl]
      omega
    · rw [decide_eq_false h, if_neg (by decide)]
      omega
  refine ⟨?_, ?_, ?_⟩
  · rw [toNat_and, toNat_ushiftRight, Nat.shiftRight_eq_div_pow,
      show (0xff#32).toNat = 2 ^ 8 - 1 from rfl, Nat.and_two_pow_sub_one_eq_mod, hco]
    omega
  · rw [toNat_and_fracMask, hco]
    omega
  have hle : ((a >>> 31) &&& 1).toNat ≤ 1 := by
    rw [hsg]
    unfold signNat
    split <;> decide
  rw [toNat_sign hle, hsg]

theorem signNat_pack (neg : Bool) (c : Nat) : signNat neg * 2 ^ 63 + c = binary64.pack neg c := by
  cases neg <;> rfl

theorem decode_pack {neg : Bool} {c : Nat} (hc : c < 2 ^ 63) : binary64.decode (binary64.pack neg c) =
      if binary64.infCode < c then .nan
      else if c = binary64.infCode then .inf neg
      else .finite neg (codeMag 52 c * binary64.ulp) := by
  have hbit : c < binary64.signBit := hc
  unfold Format.decode
  rw [Format.code_pack hbit, Format.neg_pack hbit]
  rfl

theorem decode_widened {s : U64} {e : Int} {neg : Bool} {sig : Nat}
    (hs : s.toNat = signNat neg * 2 ^ 63) (he : -895 ≤ e) (he' : e ≤ 254) (hlo : 2 ^ 23 ≤ sig)
    (hhi : sig < 2 ^ 24) (hfc : frac.toNat = sig - 2 ^ 23) : binary64.decode
      (s ||| (BitVec.ofInt 64 (e - 127 + bias) <<< sigbits) ||| (frac.setWidth 64 <<< 29)).toNat =
        .finite neg (sig * 2 ^ (e - 1) * binary32.ulp) := by
  have hinf : binary64.infCode = 2047 * 2 ^ 52 := rfl
  have hexp : (BitVec.ofInt 64 (e - 127 + bias)).toNat = (e + 896).toNat := by
    rw [toNat_ofInt]
    unfold bias
    omega
  have hfld : (BitVec.ofInt 64 (e - 127 + bias) <<< sigbits).toNat = (e + 896).toNat * 2 ^ 52 := by
    rw [toNat_shiftLeft_of_lt (by rw [hexp]; unfold sigbits; omega), hexp]
    rfl
  have hmag := codeMag_widen he hlo hhi
  rw [toNat_fields64 hs hfld (by omega) (by omega), signNat_pack, hfc, decode_pack (by omega),
    if_neg (by omega), if_neg (by omega), hmag]

theorem decode_extendsfdf2 (a : U32) : binary64.decode (extendsfdf2 a).toNat = binary32.decode a.toNat := by
  obtain ⟨hexp, hfc, hs⟩ := single_fields a
  have hinf : binary64.infCode = 2047 * 2 ^ 52 := rfl
  have hinf' : binary32.infCode = 255 * 2 ^ 23 := rfl
  have hco : binary32.code a.toNat < 2 ^ 31 := Nat.mod_lt _ (by decide)
  have hmag := codeMag_eq_zpow 23 (binary32.code a.toNat)
  unfold extendsfdf2
  simp only
  rw [hexp]
  split
  · have hfld : infbits.toNat = 2047 * 2 ^ 52 := by decide
    rw [toNat_fields64 hs hfld (by decide) (by omega), signNat_pack, decode_pack (by omega), hfc]
    by_cases hz : binary32.code a.toNat % 2 ^ 23 = 0
    · rw [decode_of_inf (by omega), if_neg (by omega), if_pos (by omega)]
    · rw [decode_of_nan (by omega), if_pos (by omega)]
  have hdec : binary32.decode a.toNat =
      .finite (binary32.neg a.toNat) (codeMag 23 (binary32.code a.toNat) * binary32.ulp) :=
    decode_of_finite (by omega)
  rw [hdec, hmag]
  split
  · have hsub : binary32.code a.toNat / 2 ^ 23 = 0 := by omega
    have he1 : codeExp 23 (binary32.code a.toNat) = 1 := by rw [codeExp, if_pos hsub]
    have hsig : codeSig 23 (binary32.code a.toNat) = binary32.code a.toNat % 2 ^ 23 := by
      rw [codeSig, if_pos hsub]
    rw [he1, hsig, ← hfc]
    split
    · rename_i hz
      rw [hz, hs, ← add_zero (signNat _ * 2 ^ 63), signNat_pack,
        decode_pack (by decide), if_neg (by decide), if_neg (by decide), codeMag_zero]
      simp
    rename_i hz
    have hpos : (a &&& 0x7fffff#32).toNat ≠ 0 := fun h0 => hz (eq_of_toNat_eq (by simpa using h0))
    have hone : 2 ^ 23 ≤ (a &&& 0x7fffff#32).toNat * 2 ^ 23 := Nat.le_mul_of_pos_left _ (by omega)
    obtain ⟨z, hz23, hze, hzf, hlo, hhi⟩ := normalizeLoop_spec 1 (by omega) hone
    have hval : (((a &&& 0x7fffff#32).toNat * 2 ^ z : Nat) : ℚ) * 2 ^ ((1 : Int) - z - 1) =
        (a &&& 0x7fffff#32).toNat * 2 ^ (((1 : Nat) : Int) - 1) := by
      rw [Nat.cast_mul, Nat.cast_pow, Nat.cast_two, mul_assoc, ← zpow_natCast,
        ← zpow_add₀ two_ne_zero, show (z : Int) + (1 - z - 1) = ((1 : Nat) : Int) - 1 by omega]
    rw [decode_widened hs (by omega) (by omega) hlo hhi
      (by rw [toNat_and_fracMask, hzf]; omega), hze, hval]
  · have hne : binary32.code a.toNat / 2 ^ 23 ≠ 0 := by omega
    have he : codeExp 23 (binary32.code a.toNat) = binary32.code a.toNat / 2 ^ 23 := by
      rw [codeExp, if_neg hne]
    have hsig : codeSig 23 (binary32.code a.toNat) = 2 ^ 23 + binary32.code a.toNat % 2 ^ 23 := by
      rw [codeSig, if_neg hne]
    rw [he, hsig]
    exact decode_widened hs (by omega) (by omega) (by omega) (by omega) (by omega)

end Skjegg.Runtime
