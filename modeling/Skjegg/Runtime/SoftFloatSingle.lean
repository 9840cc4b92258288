import Skjegg.Lib.DoubleRounding
import Skjegg.Runtime.SoftFloatConvert

/-!
# The single operations round correctly

The operations on singles widen, operate in double and narrow, so a result is rounded twice. An exact
result is never close to a midpoint of two singles without being on it.
-/

namespace Skjegg.Runtime

open Skjegg.Lib

/-! ## No result is near a midpoint -/

theorem int_gap {A K : Int} (h : A < 2 ^ 49 ∨ K < 2 ^ 49) (hne : A ≠ K) : K ≤ 2 ^ 50 * |A - K| := by
  rcases abs_cases (A - K) with ⟨habs, hsg⟩ | ⟨habs, hsg⟩ <;> rw [habs] <;> omega

theorem ratio_gap {N d M : Nat} {p s : Int} (hN : N < 2 ^ 49) (hd : 0 < d) (hd' : d < 2 ^ 24)
    (hM : M < 2 ^ 25) (hne : (N : ℚ) * 2 ^ p / d ≠ M * 2 ^ s) :
    (M : ℚ) * 2 ^ s ≤ 2 ^ 50 * |(N : ℚ) * 2 ^ p / d - M * 2 ^ s| := by
  have hMd : M * d < 2 ^ 49 := (Nat.mul_le_mul_left M hd'.le).trans_lt (by omega)
  -- both sides over the common unit `2 ^ r / d`
  suffices h : ∃ (r : Int) (A K : Int), (N : ℚ) * 2 ^ p / d = A * (2 ^ r / d) ∧
      (M : ℚ) * 2 ^ s = K * (2 ^ r / d) ∧ (A < 2 ^ 49 ∨ K < 2 ^ 49) by
    obtain ⟨r, A, K, hA, hK, hsm⟩ := h
    have hun : (0 : ℚ) < 2 ^ r / d := by positivity
    have hAK : A ≠ K := by
      rintro rfl
      exact hne (hA.trans hK.symm)
    have hgap : (K : ℚ) ≤ 2 ^ 50 * |(A : ℚ) - K| := by exact_mod_cast int_gap hsm hAK
    rw [hA, hK, ← sub_mul, abs_mul, abs_of_pos hun, ← mul_assoc]
    exact mul_le_mul_of_nonneg_right hgap hun.le
  rcases le_total s p with hsp | hps
  · obtain ⟨t, rfl⟩ := Int.le.dest hsp
    refine ⟨s, N * 2 ^ t, M * d, ?_, ?_, Or.inr (by exact_mod_cast hMd)⟩
    · rw [zpow_add₀ two_ne_zero, zpow_natCast]
      push_cast
      ring
    · push_cast
      field_simp
  · obtain ⟨t, rfl⟩ := Int.le.dest hps
    refine ⟨p, N, M * d * 2 ^ t, ?_, ?_, Or.inl (by exact_mod_cast hN)⟩
    · push_cast
      ring
    · rw [zpow_add₀ two_ne_zero, zpow_natCast]
      push_cast
      field_simp

theorem sum_gap {α β : Int} {u v s M : Nat} (hα : |α| < 2 ^ 24) (hβ : |β| < 2 ^ 24) (hu : 1 ≤ u)
    (hv : 1 ≤ v) (hodd : M % 2 = 1) (hM : M < 2 ^ 25) (hnr : s = 0 ∨ 2 ^ 24 ≤ M)
    (hne : |α * 2 ^ u + β * 2 ^ v| ≠ M * 2 ^ s) :
    (M : Int) * 2 ^ s ≤ 2 ^ 50 * |(|α * 2 ^ u + β * 2 ^ v| - M * 2 ^ s)| := by
  wlog hvu : v ≤ u generalizing α β u v
  · rw [add_comm] at hne ⊢
    exact this hβ hα hv hu hne (by omega)
  wlog hsum : 0 ≤ α * 2 ^ u + β * 2 ^ v generalizing α β
  · have hneg : α * 2 ^ u + β * 2 ^ v = -(-α * 2 ^ u + -β * 2 ^ v) := by ring
    rw [hneg, abs_neg] at hne ⊢
    exact this (by rwa [abs_neg]) (by rwa [abs_neg]) hne (by linarith)
  rw [abs_of_nonneg hsum] at hne ⊢
  have hMs : (M : Int) < 2 ^ 25 := by exact_mod_cast hM
  rw [abs_lt] at hα hβ
  rcases lt_or_ge u s with hus | hsu
  · -- the midpoint is above every sum
    have hMlow : (2 : Int) ^ 24 ≤ M := by exact_mod_cast hnr.resolve_left (by omega)
    have hT : (0 : Int) < 2 ^ s := by positivity
    have huT : 2 * (2 : Int) ^ u ≤ 2 ^ s := by
      rw [← pow_succ']
      exact pow_le_pow_right₀ (by norm_num) hus
    have hvT : (2 : Int) ^ v ≤ 2 ^ u := pow_le_pow_right₀ (by norm_num) hvu
    have hv0 : (0 : Int) < 2 ^ v := by positivity
    have hA : α * 2 ^ u ≤ (2 ^ 24 - 1) * 2 ^ u := mul_le_mul_of_nonneg_right (by omega) (by positivity)
    have hB : β * 2 ^ v ≤ (2 ^ 24 - 1) * 2 ^ u :=
      (mul_le_mul_of_nonneg_right (by omega) hv0.le).trans (mul_le_mul_of_nonneg_left hvT (by norm_num))
    have hlow := mul_le_mul_of_nonneg_right hMlow hT.le
    rw [abs_of_nonpos (by omega)]
    omega
  obtain ⟨t, rfl⟩ := Nat.exists_eq_add_of_le hsu
  -- the larger operand is never on the midpoint
  have hW : α * 2 ^ t - M ≠ 0 := by
    intro h0
    cases t with
    | zero =>
      omega
    | succ t =>
      rw [pow_succ, ← mul_assoc] at h0
      omega
  have hpos : ∀ z : Int, z ≠ 0 → 1 ≤ |z| := fun z hz => Int.one_le_abs hz
  rcases lt_or_ge v s with hvs | hsv
  · obtain ⟨w, rfl⟩ := Nat.exists_eq_add_of_lt hvs
    have hfac : α * 2 ^ (v + w + 1 + t) + β * 2 ^ v - M * 2 ^ (v + w + 1) =
        ((α * 2 ^ t - M) * 2 ^ (w + 1) + β) * 2 ^ v := by ring
    have hun : (0 : Int) < 2 ^ v := by positivity
    have hne' : (α * 2 ^ t - M) * 2 ^ (w + 1) + β ≠ 0 := by
      intro h0
      rw [h0, zero_mul] at hfac
      exact hne (sub_eq_zero.mp hfac)
    rw [hfac, abs_mul, abs_of_pos hun, ← mul_assoc,
      show (M : Int) * 2 ^ (v + w + 1) = M * 2 ^ (w + 1) * 2 ^ v by ring]
    apply mul_le_mul_of_nonneg_right _ hun.le
    rcases lt_or_ge w 24 with hw | hw
    · have hpow : (2 : Int) ^ (w + 1) ≤ 2 ^ 24 := pow_le_pow_right₀ (by norm_num) (by omega)
      have hle : (M : Int) * 2 ^ (w + 1) ≤ 2 ^ 25 * 2 ^ 24 :=
        mul_le_mul hMs.le hpow (by positivity) (by norm_num)
      have := hpos _ hne'
      omega
    have hle : (M : Int) * 2 ^ (w + 1) ≤ 2 ^ 25 * 2 ^ (w + 1) :=
      mul_le_mul_of_nonneg_right hMs.le (by positivity)
    have hbig : 2 ^ (w + 1) ≤ |(α * 2 ^ t - M) * 2 ^ (w + 1)| := by
      rw [abs_mul, abs_of_pos (by positivity : (0 : Int) < 2 ^ (w + 1))]
      exact le_mul_of_one_le_left (by positivity) (hpos _ hW)
    generalize (α * 2 ^ t - M) * 2 ^ (w + 1) = Z at *
    rcases abs_cases Z with ⟨hz, hz'⟩ | ⟨hz, hz'⟩ <;>
      rcases abs_cases (Z + β) with ⟨hb, hb'⟩ | ⟨hb, hb'⟩ <;> omega
  · obtain ⟨w, rfl⟩ := Nat.exists_eq_add_of_le hsv
    have hfac : α * 2 ^ (s + t) + β * 2 ^ (s + w) - M * 2 ^ s =
        (α * 2 ^ t + β * 2 ^ w - M) * 2 ^ s := by ring
    have hun : (0 : Int) < 2 ^ s := by positivity
    have hne' : α * 2 ^ t + β * 2 ^ w - M ≠ 0 := by
      intro h0
      rw [h0, zero_mul] at hfac
      exact hne (sub_eq_zero.mp hfac)
    rw [hfac, abs_mul, abs_of_pos hun, ← mul_assoc]
    apply mul_le_mul_of_nonneg_right _ hun.le
    have := hpos _ hne'
    omega

theorem codeMid_form (m i : Nat) : ∃ M s : Nat, M % 2 = 1 ∧ M < 2 ^ (m + 2) ∧
    (s = 0 ∨ 2 ^ (m + 1) ≤ M) ∧ codeMid m i = M * 2 ^ s / 2 := by
  have hpos := codeExp_pos m i
  have hlt := codeSig_lt m i
  have hnr := codeSig_normal m i
  refine ⟨2 * codeSig m i + 1, codeExp m i - 1, by omega, ?_, ?_, ?_⟩
  · rw [pow_succ]
    omega
  · omega
  have h := codeMid_eq hpos hlt hnr
  rw [code_eq] at h
  rw [h]
  push_cast
  ring

/-- An exact result that survives a rounding to double: inside the range of the doubles, and on a
midpoint of the singles or far from it. -/
structure Innocuous (Y : ℚ) : Prop where
  lower : 2 ^ (-800 : Int) ≤ Y
  upper : Y ≤ 2 ^ (1000 : Int)
  gap : ∀ i, Y ≠ codeMid 23 i → codeMid 23 i ≤ 2 ^ 50 * |Y - codeMid 23 i|

theorem Innocuous.ratio {N d : Nat} {p : Int} (hN : 0 < N) (hN' : N < 2 ^ 48) (hd : 0 < d)
    (hd' : d < 2 ^ 24) (hp : -700 ≤ p) (hp' : p ≤ 900) : Innocuous ((N : ℚ) * 2 ^ p / d) := by
  have hdq : (0 : ℚ) < d := by exact_mod_cast hd
  have hpow : (0 : ℚ) < 2 ^ p := by positivity
  constructor
  · rw [le_div_iff₀ hdq]
    have hdle : (d : ℚ) ≤ 2 ^ (24 : Int) := by exact_mod_cast hd'.le
    calc (2 : ℚ) ^ (-800 : Int) * d ≤ 2 ^ (-800 : Int) * 2 ^ (24 : Int) :=
          mul_le_mul_of_nonneg_left hdle (by positivity)
      _ = 2 ^ (-776 : Int) := by rw [← zpow_add₀ two_ne_zero]; rfl
      _ ≤ 2 ^ p := zpow_le_zpow_right₀ (by norm_num) (by omega)
      _ ≤ N * 2 ^ p := le_mul_of_one_le_left hpow.le (by exact_mod_cast hN)
  · have hNle : (N : ℚ) ≤ 2 ^ (48 : Int) := by exact_mod_cast hN'.le
    calc (N : ℚ) * 2 ^ p / d ≤ N * 2 ^ p := div_le_self (by positivity) (by exact_mod_cast hd)
      _ ≤ 2 ^ (48 : Int) * 2 ^ p := mul_le_mul_of_nonneg_right hNle hpow.le
      _ = 2 ^ (48 + p) := by rw [← zpow_add₀ two_ne_zero]
      _ ≤ 2 ^ (1000 : Int) := zpow_le_zpow_right₀ (by norm_num) (by omega)
  · intro i hne
    obtain ⟨M, s, -, hM, -, hmid⟩ := codeMid_form 23 i
    have hform : codeMid 23 i = M * 2 ^ ((s : Int) - 1) := by
      rw [hmid, zpow_sub₀ two_ne_zero, zpow_natCast, zpow_one, mul_div_assoc]
    rw [hform] at hne ⊢
    exact ratio_gap (hN'.trans (by decide)) hd hd' hM hne

theorem codeExp_le {c : Nat} (hc : c < binary32.infCode) : codeExp 23 c ≤ 254 := by
  have hinf : binary32.infCode = 255 * 2 ^ 23 := rfl
  unfold codeExp
  split <;> omega

variable (neg : Bool)

def signedSig (c : Nat) : Int := if neg then -codeSig 23 c else codeSig 23 c

theorem abs_signedSig (c : Nat) : |signedSig neg c| < 2 ^ 24 := by
  have h : (codeSig 23 c : Int) < 2 ^ 24 := by exact_mod_cast codeSig_lt 23 c
  unfold signedSig
  split
  · rw [abs_neg, abs_of_nonneg (Int.natCast_nonneg _)]
    exact h
  · rw [abs_of_nonneg (Int.natCast_nonneg _)]
    exact h

theorem signed_codeMag (c : Nat) :
    signed neg (codeMag 23 c) = (signedSig neg c * 2 ^ codeExp 23 c : Int) / 2 := by
  obtain ⟨e, he⟩ : ∃ e, codeExp 23 c = e + 1 := ⟨codeExp 23 c - 1, by have := codeExp_pos 23 c; omega⟩
  unfold signed signedSig codeMag
  rw [he, Nat.add_sub_cancel, pow_succ]
  split <;> push_cast <;> ring

theorem abs_scaledSig_le {c : Nat} (hc : c < binary32.infCode) :
    |signedSig neg c * 2 ^ codeExp 23 c| ≤ 2 ^ 24 * 2 ^ 254 := by
  rw [abs_mul, abs_of_pos (by positivity : (0 : Int) < 2 ^ codeExp 23 c)]
  have hpow : (2 : Int) ^ codeExp 23 c ≤ 2 ^ 254 := pow_le_pow_right₀ (by norm_num) (codeExp_le hc)
  exact mul_le_mul (abs_signedSig neg c).le hpow (by positivity) (by positivity)

theorem Innocuous.sum (s t : Bool) {ca cb : Nat} (ha : ca < binary32.infCode) (hb : cb < binary32.infCode)
    (hne : signed s (codeMag 23 ca : ℚ) + signed t (codeMag 23 cb : ℚ) ≠ 0) :
    Innocuous |signed s (codeMag 23 ca : ℚ) + signed t (codeMag 23 cb : ℚ)| := by
  have htop := (abs_add_le _ _).trans (add_le_add (abs_scaledSig_le s ha) (abs_scaledSig_le t hb))
  have hgap {M e : Nat} := @sum_gap _ _ _ _ e M (abs_signedSig s ca) (abs_signedSig t cb) (codeExp_pos 23 ca)
    (codeExp_pos 23 cb)
  rw [signed_codeMag, signed_codeMag, ← add_div, ← Int.cast_add] at hne ⊢
  -- twice the sum is an integer
  generalize signedSig s ca * 2 ^ codeExp 23 ca + signedSig t cb * 2 ^ codeExp 23 cb = Z at *
  have hZ : (1 : ℚ) ≤ (|Z| : Int) := by
    exact_mod_cast Int.one_le_abs fun h0 => hne (by rw [h0, Int.cast_zero, zero_div])
  have hZtop : ((|Z| : Int) : ℚ) ≤ 2 ^ 24 * 2 ^ 254 + 2 ^ 24 * 2 ^ 254 := by exact_mod_cast htop
  rw [abs_div, abs_of_pos (by norm_num : (0 : ℚ) < 2), ← Int.cast_abs]
  constructor
  · have hpow : (2 : ℚ) ^ (-800 : Int) ≤ 2 ^ (-1 : Int) := zpow_le_zpow_right₀ (by norm_num) (by norm_num)
    rw [zpow_neg_one] at hpow
    linarith
  · have hpow : (2 : ℚ) ^ 24 * 2 ^ 254 ≤ 2 ^ (1000 : Int) := by
      rw [← pow_add, ← zpow_natCast]
      exact zpow_le_zpow_right₀ (by norm_num) (by norm_num)
    exact le_trans (by linarith) hpow
  · intro i hi
    obtain ⟨M, e, hodd, hM, hnr, hmid⟩ := codeMid_form 23 i
    rw [hmid] at hi ⊢
    have hne' : |Z| ≠ (M : Int) * 2 ^ e := by
      intro h0
      rw [h0] at hi
      exact hi (by push_cast; ring)
    have hq : (M : ℚ) * 2 ^ e ≤ 2 ^ 50 * |((|Z| : Int) : ℚ) - M * 2 ^ e| := by
      exact_mod_cast hgap hodd hM hnr hne'
    rw [← sub_div, abs_div, abs_of_pos (by norm_num : (0 : ℚ) < 2), ← mul_div_assoc]
    exact div_le_div_of_nonneg_right hq (by norm_num)

/-! ## The operations -/

theorem exists_double_eq_codeMid (i : Nat) : ∃ c, (codeMag 52 c : ℚ) * 2 ^ (-925 : Int) = codeMid 23 i := by
  obtain ⟨M, s, -, hM, -, hmid⟩ := codeMid_form 23 i
  obtain ⟨c, hc⟩ := exists_codeMag (m := 52) (p := s + 924) (hM.trans (by decide))
  refine ⟨c, ?_⟩
  rw [hc, hmid, Nat.cast_mul, Nat.cast_pow, Nat.cast_two, mul_assoc, ← zpow_natCast,
    ← zpow_add₀ two_ne_zero, mul_div_assoc, ← zpow_natCast 2 s,
    show ((s + 924 : Nat) : Int) + -925 = s - 1 by omega, zpow_sub_one₀ two_ne_zero, div_eq_mul_inv]

theorem lt_overflowAt {y : ℚ} (hy : y ≤ 2 ^ (1000 : Int)) : y * binary32.ulp < binary64.overflowAt := by
  have hulp : binary32.ulp = 2 ^ (-149 : Int) := rfl
  have hbias : binary64.bias = 1023 := rfl
  have hsig : binary64.sigBits = 52 := rfl
  calc y * 2 ^ (-149 : Int) ≤ 2 ^ (1000 : Int) * 2 ^ (-149 : Int) :=
        mul_le_mul_of_nonneg_right hy (by positivity)
    _ = 2 ^ (851 : Int) := by rw [← zpow_add₀ two_ne_zero]; rfl
    _ < 2 ^ ((1023 : Nat) : Int) := zpow_lt_zpow_right₀ (by norm_num) (by decide)
    _ ≤ 2 ^ ((1023 : Nat) : Int) * (2 - 1 / 2 ^ (52 + 1)) :=
        le_mul_of_one_le_right (by positivity) (by norm_num)

variable {x : ℚ}

theorem roundsTo_narrow {D : U64} (h : RoundsTo binary64 x D.toNat)
    (hin : Innocuous (|x| / binary32.ulp)) : RoundsTo binary32 x (truncdfsf2 D).toNat := by
  obtain ⟨n, hn, hD⟩ := h
  have hu32 := binary32.ulp_pos
  have hu64 := binary64.ulp_pos
  have hunits : |x| / binary64.ulp * 2 ^ (-925 : Int) = |x| / binary32.ulp := by
    rw [← ulp_ratio]
    field_simp
  have hfin : n < binary64.infCode := by
    by_contra hge
    have hmid := (hn.le_iff binary64.infCode_even (by decide)).mp (not_lt.mp hge)
    have hov := lt_overflowAt hin.upper
    rw [div_mul_cancel₀ _ hu32.ne', binary64.overflowAt_eq] at hov
    rw [le_div_iff₀ hu64] at hmid
    exact absurd hmid (not_le.mpr hov)
  rw [min_eq_left hfin.le] at hD
  have hsm : n < binary64.signBit := hfin.trans binary64.infCode_lt_signBit
  have hco : code64 D = n := by rw [code64, hD, Format.code_pack hsm]
  have hneg : neg64 D = decide (x < 0) := by rw [neg64, hD, Format.neg_pack hsm]
  obtain ⟨j, hj, hr⟩ := truncdfsf2_isRne (by rw [hco]; exact hfin)
  rw [hco] at hj
  rw [hneg] at hr
  refine ⟨j, ?_, hr⟩
  rw [← hunits] at hin ⊢
  have hwide : (0 : ℚ) < 2 ^ (-925 : Int) := by positivity
  have hnrm : (2 : ℚ) ^ 52 ≤ |x| / binary64.ulp := by
    have hlow : (2 : ℚ) ^ (52 : Nat) * 2 ^ (-925 : Int) ≤ 2 ^ (-800 : Int) := by
      rw [← zpow_natCast, ← zpow_add₀ two_ne_zero]
      exact zpow_le_zpow_right₀ (by norm_num) (by decide)
    exact le_of_mul_le_mul_right (hlow.trans hin.lower) hwide
  apply hn.rounding_twice hwide hnrm exists_double_eq_codeMid _ hj
  intro i hne
  have hgap := hin.gap i hne
  have hpos : 0 < |(|x| / binary64.ulp * 2 ^ (-925 : Int) - codeMid 23 i)| :=
    abs_pos.mpr (sub_ne_zero.mpr hne)
  linarith

theorem deliversCode_narrow {e : Exact} {D : U64} (h : DeliversCode binary64 e D.toNat)
    (hin : ∀ x z, e = .num x z → x ≠ 0 → Innocuous (|x| / binary32.ulp)) :
    DeliversCode binary32 e (truncdfsf2 D).toNat := by
  cases e with
  | nan =>
    have hD : D = qnanbits := BitVec.eq_of_toNat_eq (h.trans toNat_qnanbits.symm)
    rw [hD, DeliversCode]
    decide
  | inf s =>
    rw [DeliversCode]
    cases s
    · rw [show D = infbits from BitVec.eq_of_toNat_eq (h.trans (by decide))]
      decide
    · rw [show D = signbit ||| infbits from BitVec.eq_of_toNat_eq (h.trans (by decide))]
      decide
  | num x z =>
    by_cases hx : x = 0
    · simp only [DeliversCode, if_pos hx] at h ⊢
      cases z
      · rw [show D = 0 from BitVec.eq_of_toNat_eq (h.trans (by decide))]
        decide
      · rw [show D = signbit from BitVec.eq_of_toNat_eq (h.trans (by decide))]
        decide
    · simp only [DeliversCode, if_neg hx] at h ⊢
      exact roundsTo_narrow h (hin x z rfl hx)

def SingleDatum (d : Datum) : Prop :=
  ∀ s y, d = .finite s y → ∃ c < binary32.infCode, y = codeMag 23 c * binary32.ulp

theorem singleDatum_decode (a : U32) : SingleDatum (binary32.decode a.toNat) := by
  intro s y h
  unfold Format.decode at h
  split at h
  · cases h
  split at h
  · cases h
  · cases h
    exact ⟨_, by omega, rfl⟩

theorem SingleDatum.negate {d : Datum} (h : SingleDatum d) : SingleDatum d.negate := by
  intro s y hd
  cases d with
  | nan | inf => cases hd
  | finite t w =>
    cases hd
    exact h t y rfl

theorem signed_mul (q u : ℚ) : signed neg (q * u) = signed neg q * u := by
  unfold signed
  split <;> ring

variable {d₁ d₂ : Datum} {z : Bool}

theorem innocuous_add (h1 : SingleDatum d₁)
    (h2 : SingleDatum d₂) (h : exactAdd d₁ d₂ = .num x z) (hx : x ≠ 0) :
    Innocuous (|x| / binary32.ulp) := by
  have hu := binary32.ulp_pos
  rcases d₁ with _ | s | ⟨s, y⟩ <;> rcases d₂ with _ | t | ⟨t, w⟩
  case finite.finite =>
    obtain ⟨ca, hca, rfl⟩ := h1 _ _ rfl
    obtain ⟨cb, hcb, rfl⟩ := h2 _ _ rfl
    cases h
    rw [signed_mul, signed_mul, ← add_mul] at hx ⊢
    rw [abs_mul, abs_of_pos hu, mul_div_cancel_right₀ _ hu.ne']
    exact Innocuous.sum s t hca hcb (left_ne_zero_of_mul hx)
  case inf.inf =>
    rw [exactAdd] at h
    split at h <;> cases h
  all_goals cases h

theorem codeSig_pos {c : Nat} (h : (codeMag 23 c : ℚ) ≠ 0) : 0 < codeSig 23 c := by
  rw [pos_iff_ne_zero]
  intro h0
  rw [codeMag, h0, zero_mul, Nat.cast_zero] at h
  exact h rfl

theorem innocuous_mul (h1 : SingleDatum d₁)
    (h2 : SingleDatum d₂) (h : exactMul d₁ d₂ = .num x z) (hx : x ≠ 0) :
    Innocuous (|x| / binary32.ulp) := by
  have hu := binary32.ulp_pos
  rcases d₁ with _ | s | ⟨s, y⟩ <;> rcases d₂ with _ | t | ⟨t, w⟩
  case finite.finite =>
    obtain ⟨ca, hca, rfl⟩ := h1 _ _ rfl
    obtain ⟨cb, hcb, rfl⟩ := h2 _ _ rfl
    rw [exactMul, signed_mul_signed] at h
    cases h
    rw [Ne, signed_eq_zero, mul_eq_zero, mul_eq_zero, mul_eq_zero, or_iff_left hu.ne',
      or_iff_left hu.ne', not_or] at hx
    have hea := codeExp_le hca
    have heb := codeExp_le hcb
    have hN : codeSig 23 ca * codeSig 23 cb < 2 ^ 24 * 2 ^ 24 :=
      Nat.mul_lt_mul'' (codeSig_lt 23 ca) (codeSig_lt 23 cb)
    have hval : (codeMag 23 ca * binary32.ulp) * (codeMag 23 cb * binary32.ulp) / binary32.ulp =
        ((codeSig 23 ca * codeSig 23 cb : Nat) : ℚ) *
          2 ^ ((codeExp 23 ca : Int) + codeExp 23 cb - 151) / (1 : Nat) := by
      rw [← mul_assoc, mul_div_cancel_right₀ _ hu.ne', codeMag_eq_zpow, codeMag_eq_zpow,
        show binary32.ulp = 2 ^ (-149 : Int) from rfl, Nat.cast_one, div_one,
        show (codeExp 23 ca : Int) + codeExp 23 cb - 151 =
          (codeExp 23 ca - 1) + -149 + (codeExp 23 cb - 1) by omega,
        zpow_add₀ two_ne_zero, zpow_add₀ two_ne_zero, Nat.cast_mul]
      ring
    rw [abs_signed _ (by positivity), hval]
    exact Innocuous.ratio (mul_pos (codeSig_pos hx.1) (codeSig_pos hx.2)) hN one_pos
      (by decide) (by omega) (by omega)
  case inf.finite =>
    rw [exactMul] at h
    split at h <;> cases h
  case finite.inf =>
    rw [exactMul] at h
    split at h <;> cases h
  all_goals cases h

theorem innocuous_div (h1 : SingleDatum d₁)
    (h2 : SingleDatum d₂) (h : exactDiv d₁ d₂ = .num x z) (hx : x ≠ 0) :
    Innocuous (|x| / binary32.ulp) := by
  have hu := binary32.ulp_pos
  rcases d₁ with _ | s | ⟨s, y⟩ <;> rcases d₂ with _ | t | ⟨t, w⟩
  case finite.finite =>
    obtain ⟨ca, hca, rfl⟩ := h1 _ _ rfl
    obtain ⟨cb, hcb, rfl⟩ := h2 _ _ rfl
    rw [exactDiv, signed_div_signed, mul_div_mul_right _ _ hu.ne'] at h
    split at h
    · split at h <;> cases h
    cases h
    rw [Ne, signed_eq_zero, div_eq_zero_iff, not_or] at hx
    have hea := codeExp_le hca
    have heb := codeExp_le hcb
    have hval : (codeMag 23 ca : ℚ) / codeMag 23 cb / binary32.ulp =
        (codeSig 23 ca : ℚ) * 2 ^ ((codeExp 23 ca : Int) - codeExp 23 cb + 149) / codeSig 23 cb := by
      have hpow : (2 : ℚ) ^ ((codeExp 23 ca : Int) - codeExp 23 cb + 149) =
          2 ^ ((codeExp 23 ca : Int) - 1) * (2 ^ ((codeExp 23 cb : Int) - 1))⁻¹ * (2 ^ (-149 : Int))⁻¹ := by
        rw [← zpow_neg, ← zpow_neg, ← zpow_add₀ two_ne_zero, ← zpow_add₀ two_ne_zero]
        congr 1
        ring
      rw [codeMag_eq_zpow, codeMag_eq_zpow, show binary32.ulp = 2 ^ (-149 : Int) from rfl, hpow]
      ring
    have hpos : (0 : ℚ) ≤ codeMag 23 ca / codeMag 23 cb := by positivity
    rw [abs_signed _ hpos, hval]
    exact Innocuous.ratio (codeSig_pos hx.1) ((codeSig_lt 23 ca).trans (by decide))
      (codeSig_pos hx.2) (codeSig_lt 23 cb) (by omega) (by omega)
  case finite.inf =>
    cases h
    exact absurd rfl hx
  all_goals cases h

/-- The four operations on singles are the IEEE 754 binary32 operations, rounding to nearest with
ties to even, for every pair of patterns. -/
theorem singleOps_correctlyRounded (a b : U32) :
    Delivers binary32 (exactAdd (binary32.decode a.toNat) (binary32.decode b.toNat)) (fadd a b).toNat ∧
      Delivers binary32 (exactSub (binary32.decode a.toNat) (binary32.decode b.toNat)) (fsub a b).toNat ∧
      Delivers binary32 (exactMul (binary32.decode a.toNat) (binary32.decode b.toNat)) (fmul a b).toNat ∧
      Delivers binary32 (exactDiv (binary32.decode a.toNat) (binary32.decode b.toNat))
        (fdiv a b).toNat := by
  have ha := singleDatum_decode a
  have hb := singleDatum_decode b
  have hadd := dadd_delivers (extendsfdf2 a) (extendsfdf2 b)
  have hsub := dsub_delivers (extendsfdf2 a) (extendsfdf2 b)
  have hmul := dmul_delivers (extendsfdf2 a) (extendsfdf2 b)
  have hdiv := ddiv_delivers (extendsfdf2 a) (extendsfdf2 b)
  rw [decode_extendsfdf2, decode_extendsfdf2] at hadd hsub hmul hdiv
  exact ⟨(deliversCode_narrow hadd fun _ _ => innocuous_add ha hb).delivers,
    (deliversCode_narrow hsub fun _ _ => innocuous_add ha hb.negate).delivers,
    (deliversCode_narrow hmul fun _ _ => innocuous_mul ha hb).delivers,
    (deliversCode_narrow hdiv fun _ _ => innocuous_div ha hb).delivers⟩

theorem pack_neg_code (a : U32) : binary32.pack (binary32.neg a.toNat) (binary32.code a.toNat) = a.toNat := by
  have hsb : binary32.signBit = 2 ^ 31 := rfl
  have hlt := a.isLt
  simp only [Format.pack, Format.neg, Format.code, hsb, decide_eq_true_eq]
  split <;> omega

/-- Narrowing undoes widening: the double of a single that is no NaN goes back to the same pattern. -/
theorem truncdfsf2_extendsfdf2 {a : U32} (ha : binary32.decode a.toNat ≠ .nan) :
    truncdfsf2 (extendsfdf2 a) = a := by
  have hpk := pack_neg_code a
  have hwide := decode_extendsfdf2 a
  apply BitVec.eq_of_toNat_eq
  rcases lt_trichotomy (binary32.code a.toNat) binary32.infCode with hlt | heq | hgt
  · have hfin : code64 (extendsfdf2 a) < binary64.infCode := by
      rw [decode_of_finite hlt, Format.decode] at hwide
      split_ifs at hwide
      exact lt_of_le_of_ne (not_lt.mp ‹_›) ‹_›
    rw [decode_of_finite hlt, decode_of_finite hfin] at hwide
    injection hwide with hneg hmag
    obtain ⟨j, hj, hr⟩ := truncdfsf2_isRne hfin
    -- the double is a single, so it is its own rounding
    have hX : (codeMag 52 (code64 (extendsfdf2 a)) : ℚ) * 2 ^ (-925 : Int) =
        codeMag 23 (binary32.code a.toNat) := by
      rw [← ulp_ratio, ← mul_div_assoc, div_eq_iff binary32.ulp_pos.ne']
      exact hmag
    rw [hX] at hj
    obtain rfl := (codeMag_strictMono 23).injective hj.eq_of_codeMag
    rw [hr, min_eq_left hlt.le, neg64, hneg, hpk]
  · rw [heq] at hpk
    cases hn : binary32.neg a.toNat <;> rw [hn] at hpk
    · rw [show a = 0x7f800000 from BitVec.eq_of_toNat_eq hpk.symm]
      decide
    · rw [show a = 0xff800000 from BitVec.eq_of_toNat_eq hpk.symm]
      decide
  · exact absurd (decode_of_nan hgt) ha

theorem truncdfsf2_extendsfdf2_one : truncdfsf2 (extendsfdf2 1) = 1 := by
  refine truncdfsf2_extendsfdf2 ?_
  rw [decode_of_finite (by decide)]
  exact nofun

end Skjegg.Runtime
