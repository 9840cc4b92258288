import Skjegg.Runtime.SoftFloatAdd

/-!
# The double operations round correctly

Each operation on finite nonzero operands is brought to `roundPack` with a significand that agrees
with the exact result on the multiples of four.
-/

namespace Skjegg.Runtime

open Skjegg.Lib

/-! ## Patterns -/

abbrev code64 (a : U64) : Nat := binary64.code a.toNat

abbrev neg64 (a : U64) : Bool := binary64.neg a.toNat

variable (a : U64)

theorem toNat_abs : (a &&& absmask).toNat = code64 a := toNat_and_lowMask a (k := 63) (by decide)

theorem toNat_infbits : infbits.toNat = binary64.infCode := by decide

theorem toNat_qnanbits : qnanbits.toNat = binary64.qnan := by decide

theorem abs_gt_infbits : a &&& absmask > infbits ↔ binary64.infCode < code64 a := by
  rw [gt_iff_lt, BitVec.lt_def, toNat_abs, toNat_infbits]

theorem abs_eq_infbits : a &&& absmask = infbits ↔ code64 a = binary64.infCode := by
  rw [← BitVec.toNat_inj, toNat_abs, toNat_infbits]

theorem abs_eq_zero : a &&& absmask = 0 ↔ code64 a = 0 := by
  rw [← BitVec.toNat_inj, toNat_abs]
  rfl

theorem toNat_eq_pack : a.toNat = binary64.pack (neg64 a) (code64 a) := by
  have hbit : binary64.signBit = 2 ^ 63 := rfl
  unfold Format.pack neg64 code64 Format.neg Format.code
  rw [hbit]
  by_cases h : 2 ^ 63 ≤ a.toNat
  · rw [decide_eq_true h, if_pos rfl]
    omega
  · rw [decide_eq_false h, if_neg (by decide)]
    omega

def signNat (neg : Bool) : Nat := if neg then 1 else 0

theorem signNat_neg : signNat (neg64 a) = a.toNat / 2 ^ 63 := by
  have hbit : binary64.signBit = 2 ^ 63 := rfl
  unfold signNat neg64 Format.neg
  rw [hbit]
  by_cases h : 2 ^ 63 ≤ a.toNat
  · rw [decide_eq_true h, if_pos rfl]
    omega
  · rw [decide_eq_false h, if_neg (by decide)]
    omega

theorem toNat_topBit : ((a >>> 63).setWidth 32 &&& 1).toNat = a.toNat / 2 ^ 63 := by
  rw [BitVec.toNat_and, BitVec.toNat_setWidth, BitVec.toNat_ushiftRight, Nat.shiftRight_eq_div_pow,
    show (1 : U32).toNat = 2 ^ 1 - 1 from rfl, Nat.and_two_pow_sub_one_eq_mod]
  omega

theorem unpack_spec : (unpack a).sign.toNat = signNat (neg64 a) ∧ (unpack a).exp = codeExp 52 (code64 a) ∧
      (unpack a).sig.toNat = codeSig 52 (code64 a) ∧
      (unpack a).rawexp = (code64 a / 2 ^ 52 : Nat) := by
  have hco : code64 a = a.toNat % 2 ^ 63 := rfl
  have he : ((a >>> sigbits) &&& 0x7ff#64).toNat = a.toNat % 2 ^ 63 / 2 ^ 52 := by
    rw [BitVec.toNat_and, BitVec.toNat_ushiftRight, Nat.shiftRight_eq_div_pow,
      show (0x7ff#64).toNat = 2 ^ 11 - 1 from rfl, Nat.and_two_pow_sub_one_eq_mod]
    unfold sigbits
    omega
  have hfc : (a &&& sigmask).toNat = a.toNat % 2 ^ 63 % 2 ^ 52 := by
    rw [toNat_and_sigmask]
    omega
  have himp : ((a &&& sigmask) ||| implicitBit).toNat = 2 ^ 52 + a.toNat % 2 ^ 63 % 2 ^ 52 := by
    have himp : implicitBit.toNat = 1 * 2 ^ 52 := by decide
    rw [BitVec.or_comm, toNat_or_of_lt himp (by omega), himp, hfc]
    omega
  refine ⟨?_, ?_, ?_, ?_⟩
  · rw [signNat_neg]
    exact toNat_topBit a
  · unfold unpack codeExp
    simp only [he, hco]
    split
    · rw [if_pos (by omega)]
      rfl
    · rw [if_neg (by omega)]
  · unfold unpack codeSig
    simp only [he, hco]
    split
    · rw [if_pos (by omega), hfc]
    · rw [if_neg (by omega), himp]
  · unfold unpack
    simp [he, hco]

theorem codeMag_eq_zpow (m n : Nat) : (codeMag m n : ℚ) = codeSig m n * 2 ^ ((codeExp m n : Int) - 1) := by
  have h := codeExp_pos m n
  unfold codeMag
  push_cast
  rw [← zpow_natCast]
  congr 2
  omega

/-! ## Sums -/

theorem unpack_sign_le : (unpack a).sign.toNat ≤ 1 := by
  rw [(unpack_spec a).1]
  unfold signNat
  split <;> decide

theorem unpack_sign_eq_one : decide ((unpack a).sign.toNat = 1) = neg64 a := by
  rw [(unpack_spec a).1]
  cases neg64 a <;> rfl

theorem aligned_unpack {a b : U64} (hle : (unpack b).exp ≤ (unpack a).exp) :
    Aligned (unpack a).exp (unpack a).sig (unpack b).exp (unpack b).sig := by
  obtain ⟨-, hae, has, -⟩ := unpack_spec a
  obtain ⟨-, hbe, hbs, -⟩ := unpack_spec b
  have ha := codeSig_lt 52 (code64 a)
  have hb := codeSig_lt 52 (code64 b)
  have hn := codeSig_normal 52 (code64 a)
  have hpos := codeExp_pos 52 (code64 b)
  constructor
  · omega
  · exact hle
  · rwa [has]
  · rwa [hbs]
  · rw [has, hae]
    exact_mod_cast hn

theorem unpack_mag : ((unpack a).sig.toNat : ℚ) * 2 ^ ((unpack a).exp - 1) = codeMag 52 (code64 a) := by
  obtain ⟨-, he, hs, -⟩ := unpack_spec a
  rw [codeMag_eq_zpow, he, hs]

theorem Rounds64.deliversCode {neg : Bool} {X x : ℚ} {r : U64} {z : Bool} (h : Rounds64 neg X r)
    (hX : 0 < X) (hx : x = signed neg (X * binary64.ulp)) : DeliversCode binary64 (.num x z) r.toNat := by
  obtain ⟨n, hn, hr⟩ := h
  have hne : x ≠ 0 := by
    rw [hx, Ne, signed_eq_zero]
    exact (mul_pos hX binary64.ulp_pos).ne'
  rw [DeliversCode, if_neg hne, hx, hr]
  exact RoundsTo.of_isRne hX hn

theorem signed_add_signed (s : Bool) (x y u : ℚ) :
    signed s (x * u) + signed s (y * u) = signed s ((x + y) * u) := by
  unfold signed
  split <;> ring

theorem signed_add_opposite {s t : Bool} (h : s ≠ t) (x y u : ℚ) :
    signed s (x * u) + signed t (y * u) = signed s ((x - y) * u) := by
  cases s <;> cases t <;> simp_all [signed] <;> ring

theorem codeMag_pos {m c : Nat} (h : c ≠ 0) : (0 : ℚ) < codeMag m c := by
  have := codeMag_strictMono m (pos_of_ne_zero h)
  rw [codeMag_zero] at this
  exact_mod_cast this

variable (a b : U64)

theorem unpack_sign_eq_iff : (unpack a).sign = (unpack b).sign ↔ neg64 a = neg64 b := by
  rw [← BitVec.toNat_inj, (unpack_spec a).1, (unpack_spec b).1]
  cases neg64 a <;> cases neg64 b <;> decide

theorem subMagnitudes_unpack {a b : U64} {z : Bool} (hsg : neg64 a ≠ neg64 b)
    (hle : (unpack b).exp ≤ (unpack a).exp)
    (hord : (unpack a).exp = (unpack b).exp → (unpack b).sig.toNat ≤ (unpack a).sig.toNat)
    (hz : z = false) : DeliversCode binary64 (.num (signed (neg64 a) (binary64.magnitude (code64 a)) +
        signed (neg64 b) (binary64.magnitude (code64 b))) z)
      (subMagnitudes (unpack a).sign (unpack a).exp (unpack a).sig (unpack b).exp
        (unpack b).sig).toNat := by
  have hspec := subMagnitudes_spec (unpack_sign_le a) (aligned_unpack hle) hord rfl
  rw [unpack_mag, unpack_mag, unpack_sign_eq_one] at hspec
  unfold Format.magnitude
  rw [show binary64.sigBits = 52 from rfl, signed_add_opposite hsg]
  rcases hspec with ⟨hX, hr⟩ | ⟨hX, hr⟩
  · rw [hX, hr, zero_mul, DeliversCode, if_pos (signed_eq_zero.mpr rfl), hz]
    rfl
  · exact hr.deliversCode hX rfl

theorem addFinite_delivers {a b : U64} (ha : code64 a ≠ 0) : DeliversCode binary64
      (.num (signed (neg64 a) (binary64.magnitude (code64 a)) +
        signed (neg64 b) (binary64.magnitude (code64 b)))
        (neg64 a && neg64 b))
      (addFinite a b).toNat := by
  unfold addFinite
  simp only
  split
  · rename_i hsg
    rw [unpack_sign_eq_iff] at hsg
    have hpos : (0 : ℚ) < codeMag 52 (code64 a) + codeMag 52 (code64 b) :=
      add_pos_of_pos_of_nonneg (codeMag_pos ha) (Nat.cast_nonneg _)
    have hx : signed (neg64 a) (binary64.magnitude (code64 a)) +
        signed (neg64 b) (binary64.magnitude (code64 b)) =
        signed (neg64 a) ((codeMag 52 (code64 a) + codeMag 52 (code64 b)) * binary64.ulp) := by
      rw [← hsg]
      exact signed_add_signed _ _ _ _
    split
    · rename_i hle
      have hspec := addMagnitudes_spec (unpack_sign_le a) (aligned_unpack hle)
      rw [unpack_mag, unpack_mag, unpack_sign_eq_one] at hspec
      exact hspec.deliversCode hpos hx
    · rename_i hlt
      have hspec := addMagnitudes_spec (unpack_sign_le a) (aligned_unpack (not_le.mp hlt).le)
      rw [unpack_mag, unpack_mag, unpack_sign_eq_one, add_comm] at hspec
      exact hspec.deliversCode hpos hx
  · rename_i hsg
    rw [unpack_sign_eq_iff] at hsg
    have hz : (neg64 a && neg64 b) = false := by
      cases hs : neg64 a <;> cases ht : neg64 b <;> simp_all
    split
    · rename_i hord
      simp only [Bool.or_eq_true, Bool.and_eq_true, decide_eq_true_eq, ge_iff_le, BitVec.le_def] at hord
      exact subMagnitudes_unpack hsg (by omega) (by omega) hz
    · rename_i hord
      simp only [Bool.or_eq_true, Bool.and_eq_true, decide_eq_true_eq, ge_iff_le, BitVec.le_def] at hord
      rw [add_comm]
      exact subMagnitudes_unpack (Ne.symm hsg) (by omega) (by omega) hz

theorem toNat_signbit : signbit.toNat = 2 ^ 63 := by decide

theorem toNat_xor_div : (a ^^^ b).toNat / 2 ^ 63 = signNat (neg64 a ^^ neg64 b) := by
  rw [BitVec.toNat_xor, ← Nat.shiftRight_eq_div_pow, Nat.shiftRight_xor_distrib,
    Nat.shiftRight_eq_div_pow, Nat.shiftRight_eq_div_pow, ← signNat_neg, ← signNat_neg]
  cases neg64 a <;> cases neg64 b <;> decide

theorem xor_and_signbit : ((a ^^^ b) &&& signbit != 0) = (neg64 a ^^ neg64 b) := by
  have hlt := (a ^^^ b).isLt
  rw [show signbit = 1#64 <<< 63 from rfl, and_bit_bne_zero (by decide) hlt]
  have h := toNat_xor_div a b
  unfold signNat at h
  cases hx : neg64 a ^^ neg64 b
  · rw [hx, if_neg (by decide)] at h
    exact decide_eq_false (by omega)
  · rw [hx, if_pos rfl] at h
    exact decide_eq_true (by omega)

theorem toNat_and_zeros {a b : U64} (ha : code64 a = 0) (hb : code64 b = 0) :
    (a &&& b).toNat = binary64.pack (neg64 a && neg64 b) 0 := by
  rw [BitVec.toNat_and, toNat_eq_pack a, toNat_eq_pack b, ha, hb]
  cases neg64 a <;> cases neg64 b <;> decide

/-- An operation with a NaN delivers a NaN; without one, each operand is infinite or finite. -/
theorem deliversCode_split {op : Datum → Datum → Exact} {r : U64} (hlf : ∀ d, op .nan d = .nan)
    (hri : ∀ d, op d .nan = .nan)
    (h : code64 a ≤ binary64.infCode → code64 b ≤ binary64.infCode →
      DeliversCode binary64 (op (binary64.decode a.toNat) (binary64.decode b.toNat)) r.toNat) :
    DeliversCode binary64 (op (binary64.decode a.toNat) (binary64.decode b.toNat))
      (if binary64.infCode < code64 a ∨ binary64.infCode < code64 b then qnanbits else r).toNat := by
  split
  · next hnan =>
    rcases hnan with hnan | hnan
    · rw [decode_of_nan hnan, hlf]
      exact toNat_qnanbits
    · rw [decode_of_nan hnan, hri]
      exact toNat_qnanbits
  · next hnan =>
    rw [not_or, not_lt, not_lt] at hnan
    exact h hnan.1 hnan.2

theorem dadd_delivers : DeliversCode binary64 (exactAdd (binary64.decode a.toNat) (binary64.decode b.toNat))
      (dadd a b).toNat := by
  have ha := toNat_eq_pack a
  have hb := toNat_eq_pack b
  unfold dadd
  simp only [Bool.or_eq_true, Bool.and_eq_true, decide_eq_true_eq, abs_gt_infbits, abs_eq_infbits,
    abs_eq_zero, xor_and_signbit]
  refine deliversCode_split a b (fun _ => rfl) (fun d => by cases d <;> rfl) fun hac hbc => ?_
  rcases hac.lt_or_eq with hac | hac <;> rcases hbc.lt_or_eq with hbc | hbc
  · rw [if_neg (by omega), decode_of_finite hac, decode_of_finite hbc, exactAdd]
    split
    · -- both are zeros
      rename_i h0
      have hzero : signed (neg64 a) (binary64.magnitude (code64 a)) +
          signed (neg64 b) (binary64.magnitude (code64 b)) = 0 := by
        rw [signed_eq_zero.mpr (magnitude_eq_zero.mpr h0.1),
          signed_eq_zero.mpr (magnitude_eq_zero.mpr h0.2), add_zero]
      rw [DeliversCode, if_pos hzero]
      exact toNat_and_zeros h0.1 h0.2
    split
    · rename_i h0 ha0
      have hb0 : code64 b ≠ 0 := fun h => h0 ⟨ha0, h⟩
      rw [signed_eq_zero.mpr (magnitude_eq_zero.mpr ha0), zero_add, DeliversCode,
        if_neg (by rw [signed_eq_zero, magnitude_eq_zero]; exact hb0)]
      nth_rewrite 3 [hb]
      exact RoundsTo.of_finite hbc hb0
    split
    · rename_i ha0 hb0
      rw [signed_eq_zero.mpr (magnitude_eq_zero.mpr hb0), add_zero, DeliversCode,
        if_neg (by rw [signed_eq_zero, magnitude_eq_zero]; exact ha0)]
      nth_rewrite 3 [ha]
      exact RoundsTo.of_finite hac ha0
    · rename_i ha0 _
      exact addFinite_delivers ha0
  · rw [if_pos (.inr hbc), if_neg (by omega), if_neg (by omega), decode_of_finite hac, decode_of_inf hbc,
      exactAdd, DeliversCode, ← hbc]
    exact hb
  · rw [if_pos (.inl hac), if_neg (by omega), if_pos hac, decode_of_inf hac, decode_of_finite hbc, exactAdd,
      DeliversCode, ← hac]
    exact ha
  · rw [if_pos (.inl hac), if_pos ⟨hac, hbc⟩, decode_of_inf hac, decode_of_inf hbc, exactAdd]
    by_cases hs : neg64 a = neg64 b
    · rw [if_pos hs, if_neg (by rw [hs]; simp), DeliversCode, ← hac]
      exact ha
    · rw [if_neg hs, if_pos (by simpa using hs)]
      exact toNat_qnanbits

theorem decode_xor_signbit (b : U64) :
    binary64.decode (b ^^^ signbit).toNat = (binary64.decode b.toNat).negate := by
  have hneg : neg64 (b ^^^ signbit) = !neg64 b := by
    have h := toNat_xor_div b signbit
    rw [← signNat_neg, show neg64 signbit = true by decide] at h
    cases h1 : neg64 _ <;> cases h2 : neg64 b <;> simp_all [signNat]
  have hco : code64 (b ^^^ signbit) = code64 b := by
    unfold code64 Format.code
    rw [show binary64.signBit = 2 ^ 63 from rfl, BitVec.toNat_xor, Nat.xor_mod_two_pow,
      toNat_signbit, Nat.mod_self, Nat.xor_zero]
  unfold neg64 at hneg
  unfold code64 at hco
  unfold Format.decode
  rw [hneg, hco]
  split
  · rfl
  · split <;> rfl

theorem dsub_delivers : DeliversCode binary64 (exactSub (binary64.decode a.toNat) (binary64.decode b.toNat))
      (dsub a b).toNat := by
  unfold dsub exactSub
  rw [← decode_xor_signbit]
  exact dadd_delivers a _

/-! ## Products and quotients -/

theorem toNat_resultSign : (resultSign a b).toNat = signNat (neg64 a ^^ neg64 b) := by
  rw [← toNat_xor_div]
  exact toNat_topBit _

theorem resultSign_le : (resultSign a b).toNat ≤ 1 := by
  rw [toNat_resultSign]
  unfold signNat
  split <;> decide

theorem resultSign_eq_one : decide ((resultSign a b).toNat = 1) = (neg64 a ^^ neg64 b) := by
  rw [toNat_resultSign]
  cases neg64 a <;> cases neg64 b <;> rfl

theorem toNat_signedZero : ((resultSign a b).setWidth 64 <<< 63).toNat =
      binary64.pack (neg64 a ^^ neg64 b) 0 := by
  rw [toNat_sign (resultSign_le a b), toNat_resultSign]
  cases neg64 a <;> cases neg64 b <;> rfl

theorem toNat_signedInf : ((resultSign a b).setWidth 64 <<< 63 ||| infbits).toNat =
      binary64.pack (neg64 a ^^ neg64 b) binary64.infCode := by
  rw [toNat_sign_or (toNat_sign (resultSign_le a b)) (by decide), toNat_resultSign, toNat_infbits]
  cases neg64 a <;> cases neg64 b <;> rfl

theorem normalizeSig_spec {a : U64} (ha : code64 a ≠ 0) :
    ∃ e s, normalizeSig (unpack a) = (e, s) ∧ 2 ^ 52 ≤ s.toNat ∧ s.toNat < 2 ^ 53 ∧
      (s.toNat : ℚ) * 2 ^ (e - 1) = codeMag 52 (code64 a) := by
  obtain ⟨-, -, hs, hraw⟩ := unpack_spec a
  have hmag := unpack_mag a
  unfold normalizeSig
  split
  · rename_i hzero
    -- a subnormal: its significand is its code
    have hsub : code64 a / 2 ^ 52 = 0 := by omega
    have hsig : (unpack a).sig.toNat = code64 a := by
      rw [hs, codeSig, if_pos hsub]
      omega
    obtain ⟨hlo, hhi⟩ := clz64_spec (x := (unpack a).sig) (by omega)
    obtain ⟨s, hz⟩ : ∃ s, clz64 (unpack a).sig = s + 11 := by
      refine ⟨clz64 (unpack a).sig - 11, ?_⟩
      by_contra hne
      have hpow : 2 ^ clz64 (unpack a).sig ≤ 2 ^ 11 := Nat.pow_le_pow_right (by decide) (by omega)
      have := Nat.mul_le_mul_left (unpack a).sig.toNat hpow
      omega
    have hsh : ((clz64 (unpack a).sig : Int) - (63 - (sigbits : Int))) = s := by
      unfold sigbits
      omega
    rw [hz, pow_add, ← mul_assoc] at hlo hhi
    refine ⟨_, _, rfl, ?_⟩
    simp only [hsh, Int.toNat_natCast]
    rw [toNat_shiftLeft_of_lt (by omega)]
    refine ⟨by omega, by omega, ?_⟩
    rw [← hmag]
    push_cast
    rw [mul_assoc, ← zpow_natCast, ← zpow_add₀ two_ne_zero]
    congr 2
    ring
  · rename_i hzero
    refine ⟨_, _, rfl, ?_, ?_, hmag⟩
    · rw [hs, codeSig, if_neg (by omega)]
      omega
    · rw [hs]
      exact codeSig_lt 52 _

theorem toNat_wideJam {hi lo : U64} {k : Nat} (hk : k < 63) (hhi : hi.toNat < 2 ^ k) :
    ((hi <<< (64 - k)) ||| (lo >>> k) ||| truth (lo &&& ((1#64 <<< k) - 1) != 0)).toNat =
      stickyDiv (hi.toNat * 2 ^ 64 + lo.toNat) (2 ^ k) := by
  obtain ⟨j, hj⟩ : ∃ j, 64 - k = j + 1 := ⟨63 - k, by omega⟩
  have hwd : 2 ^ 64 = 2 ^ (j + 1) * 2 ^ k := by
    rw [← pow_add]
    congr 1
    omega
  have hft : hi.toNat * 2 ^ (j + 1) < 2 ^ 64 := by
    rw [hwd, mul_comm]
    exact mul_lt_mul_of_pos_left hhi (Nat.two_pow_pos _)
  have hlf : (hi <<< (j + 1)).toNat = hi.toNat * 2 ^ (j + 1) := toNat_shiftLeft_of_lt hft
  have hjam : (shiftRightJam lo k).toNat = stickyDiv lo.toNat (2 ^ k) := toNat_shiftRightJam lo (by omega)
  have hlow : (shiftRightJam lo k).toNat < 2 ^ (j + 1) := by
    rw [hjam]
    apply stickyDiv_lt
    rw [Nat.div_lt_iff_lt_mul (Nat.two_pow_pos k), ← hwd]
    exact lo.isLt
  rw [hj, BitVec.or_assoc]
  change (hi <<< (j + 1) ||| shiftRightJam lo k).toNat = _
  rw [toNat_or_of_lt hlf hlow, hlf, hjam,
    show hi.toNat * 2 ^ 64 = 2 * (hi.toNat * 2 ^ j) * 2 ^ k by rw [hwd, pow_succ]; ring,
    stickyDiv_mul_add _ _ (Nat.two_pow_pos k), pow_succ]
  ring

theorem ulp_eq : binary64.ulp = 2 ^ (-1074 : Int) := rfl

theorem roundPack_stickyDiv {sign : U32} {exp : Int} {sig : U64} {X : ℚ} {n d : Nat}
    (hsg : sign.toNat ≤ 1) (hsig : sig.toNat = stickyDiv n d) (hd : 0 < d)
    (hlo : 2 ^ 55 * d ≤ n) (hhi : n < 2 ^ 56 * d) (hX : X * 2 ^ (4 - exp) = n / d) :
    Rounds64 (decide (sign.toNat = 1)) X (roundPack sign exp sig) := by
  apply roundPack_isRne hsg
  · rw [hsig]
    apply stickyDiv_lt
    exact (Nat.div_lt_iff_lt_mul hd).mpr hhi
  · right
    rw [hsig]
    exact ((Nat.le_div_iff_mul_le hd).mpr hlo).trans (div_le_stickyDiv n d)
  · rw [hX, hsig]
    exact (gridAgree_stickyDiv n hd).four

theorem mulFinite_spec {a b : U64} (ha : code64 a ≠ 0) (hb : code64 b ≠ 0) : Rounds64 (neg64 a ^^ neg64 b)
      (codeMag 52 (code64 a) * codeMag 52 (code64 b) * binary64.ulp)
      (mulFinite (resultSign a b) a b) := by
  obtain ⟨ea, sa, hna, halo, hahi, hamag⟩ := normalizeSig_spec ha
  obtain ⟨eb, sb, hnb, hblo, hbhi, hbmag⟩ := normalizeSig_spec hb
  rw [← resultSign_eq_one, ← hamag, ← hbmag, ulp_eq]
  simp only [mulFinite, hna, hnb]
  have hprod := umul64_spec sa sb
  have hplo : 2 ^ 52 * 2 ^ 52 ≤ sa.toNat * sb.toNat := Nat.mul_le_mul halo hblo
  have hphi : sa.toNat * sb.toNat < 2 ^ 53 * 2 ^ 53 := Nat.mul_lt_mul'' hahi hbhi
  -- the product at the exponent it is packed with
  have hsc : ∀ k : Nat, (sa.toNat : ℚ) * 2 ^ (ea - 1) * (sb.toNat * 2 ^ (eb - 1)) *
      2 ^ (-1074 : Int) * 2 ^ (4 - (ea + eb - bias + k)) =
        ((sa.toNat * sb.toNat : Nat) : ℚ) / (2 ^ (49 + k) : Nat) := by
    intro k
    have hexp : ((2 ^ (49 + k) : Nat) : ℚ)⁻¹ = 2 ^ (ea - 1) * 2 ^ (eb - 1) *
        2 ^ (-1074 : Int) * 2 ^ (4 - (ea + eb - bias + k)) := by
      rw [← zpow_add₀ two_ne_zero, ← zpow_add₀ two_ne_zero, ← zpow_add₀ two_ne_zero, Nat.cast_pow,
        Nat.cast_two, ← zpow_natCast, ← zpow_neg]
      congr 1
      unfold bias
      push_cast
      ring
    rw [div_eq_mul_inv, hexp, Nat.cast_mul]
    ring
  generalize (umul64 sa sb).2 = lo at *
  rw [and_bit_bne_zero (by decide) (by omega)]
  split
  · rename_i hbig
    rw [decide_eq_true_iff] at hbig
    apply roundPack_stickyDiv (resultSign_le a b) (toNat_wideJam (by decide) (by omega))
      (Nat.two_pow_pos 50)
    · omega
    · omega
    · rw [hprod]
      exact hsc 1
  · rename_i hsm
    rw [decide_eq_true_iff] at hsm
    apply roundPack_stickyDiv (resultSign_le a b) (toNat_wideJam (by decide) (by omega))
      (Nat.two_pow_pos 49)
    · omega
    · omega
    have h := hsc 0
    rw [Nat.cast_zero, add_zero] at h
    rw [hprod]
    exact h

/-- The digits found so far and the doubled remainder account for the shifted dividend. -/
structure DivInv (a b i : Nat) (s : U64 × U64) : Prop where
  quotient_lt : s.1.toNat < 2 ^ i
  rem_lt : s.2.toNat < 2 * b
  account : a * 2 ^ i = s.1.toNat * (2 * b) + s.2.toNat

theorem divStep_inv {a i : Nat} {b : U64} {s : U64 × U64} (hb : b.toNat < 2 ^ 53) (hi : i < 56)
    (h : DivInv a b.toNat i s) : DivInv a b.toNat (i + 1) (divStep b s) := by
  obtain ⟨hq, hr, hacc⟩ := h
  have hpow : 2 ^ i ≤ 2 ^ 55 := Nat.pow_le_pow_right (by decide) (by omega)
  have hshl : (s.1 <<< 1).toNat = s.1.toNat * 2 ^ 1 := toNat_shiftLeft_of_lt (by omega)
  have hsucc : a * 2 ^ (i + 1) = 2 * (s.1.toNat * (2 * b.toNat)) + 2 * s.2.toNat := by
    rw [pow_succ, ← mul_assoc, hacc]
    ring
  unfold divStep
  split
  · rename_i hge
    rw [ge_iff_le, BitVec.le_def] at hge
    have hor : (s.1 <<< 1 ||| 1).toNat = s.1.toNat * 2 + 1 := by
      rw [toNat_or_of_lt hshl (by decide), hshl]
      rfl
    have hsub : (s.2 - b).toNat = s.2.toNat - b.toNat := BitVec.toNat_sub_of_le (by rwa [BitVec.le_def])
    have hrem : ((s.2 - b) <<< 1).toNat = (s.2.toNat - b.toNat) * 2 ^ 1 := by
      rw [toNat_shiftLeft_of_lt (by rw [hsub]; omega), hsub]
    constructor
    · rw [hor, pow_succ]
      omega
    · rw [hrem]
      omega
    · rw [hsucc, hor, hrem, add_mul, show s.1.toNat * 2 * (2 * b.toNat) =
        2 * (s.1.toNat * (2 * b.toNat)) by ring]
      omega
  · rename_i hlt
    rw [ge_iff_le, BitVec.le_def] at hlt
    have hrem : (s.2 <<< 1).toNat = s.2.toNat * 2 ^ 1 := toNat_shiftLeft_of_lt (by omega)
    constructor
    · rw [hshl, pow_succ]
      omega
    · rw [hrem]
      omega
    · rw [hsucc, hshl, hrem]
      ring

theorem divLoop_inv {a b : U64} (ha : a.toNat < 2 * b.toNat) (hb : b.toNat < 2 ^ 53) (i : Nat)
    (hi : i ≤ 56) : DivInv a.toNat b.toNat i ((divStep b)^[i] (0, a)) := by
  induction i with
  | zero => exact ⟨by simp, ha, by simp⟩
  | succ i ih =>
    rw [Function.iterate_succ_apply']
    exact divStep_inv hb (by omega) (ih (by omega))

theorem divLoop_spec {a b : U64} (ha : a.toNat < 2 * b.toNat) (hb : b.toNat < 2 ^ 53)
    (hb0 : 0 < b.toNat) {s : U64 × U64} (hs : (divStep b)^[sigbits + 4] (0, a) = s) :
    (s.1 ||| truth (s.2 != 0)).toNat = stickyDiv (a.toNat * 2 ^ 55) b.toNat := by
  obtain ⟨-, hr, hacc⟩ := divLoop_inv ha hb 56 le_rfl
  rw [show (56 : Nat) = sigbits + 4 from rfl, hs] at hr hacc
  have hacc' : a.toNat * 2 ^ 55 = s.1.toNat * b.toNat + s.2.toNat / 2 ∧ s.2.toNat % 2 = 0 := by
    rw [show s.1.toNat * (2 * b.toNat) = 2 * (s.1.toNat * b.toNat) by ring,
      show sigbits + 4 = 56 from rfl] at hacc
    omega
  have hlt : s.2.toNat / 2 < b.toNat := by omega
  have hdiv : a.toNat * 2 ^ 55 / b.toNat = s.1.toNat := by
    rw [hacc'.1, add_comm, Nat.add_mul_div_right _ _ hb0, Nat.div_eq_of_lt hlt, zero_add]
  have hmod : a.toNat * 2 ^ 55 % b.toNat = s.2.toNat / 2 := by
    rw [hacc'.1, add_comm, Nat.add_mul_mod_self_right, Nat.mod_eq_of_lt hlt]
  rw [BitVec.toNat_or, toNat_truth (by decide), bne_zero_eq, stickyDiv, hdiv, hmod]
  by_cases h0 : s.2.toNat = 0
  · rw [h0]
    rfl
  · rw [decide_eq_true h0, if_pos rfl, if_neg (by omega)]

theorem divFinite_spec {a b : U64} (ha : code64 a ≠ 0) (hb : code64 b ≠ 0) : Rounds64 (neg64 a ^^ neg64 b)
      (codeMag 52 (code64 a) / codeMag 52 (code64 b) / binary64.ulp)
      (divFinite (resultSign a b) a b) := by
  obtain ⟨ea, sa, hna, halo, hahi, hamag⟩ := normalizeSig_spec ha
  obtain ⟨eb, sb, hnb, hblo, hbhi, hbmag⟩ := normalizeSig_spec hb
  rw [← resultSign_eq_one, ← hamag, ← hbmag, ulp_eq]
  simp only [divFinite, hna, hnb]
  -- the quotient at the exponent it is packed with
  have hsc : ∀ k : Nat, (sa.toNat : ℚ) * 2 ^ (ea - 1) / (sb.toNat * 2 ^ (eb - 1)) /
      2 ^ (-1074 : Int) * 2 ^ (4 - (ea - eb + bias - k)) =
        ((sa.toNat * 2 ^ k * 2 ^ 55 : Nat) : ℚ) / sb.toNat := by
    intro k
    have hexp : ((2 : ℚ) ^ k * 2 ^ 55) = 2 ^ (ea - 1) * (2 ^ (eb - 1))⁻¹ *
        (2 ^ (-1074 : Int))⁻¹ * 2 ^ (4 - (ea - eb + bias - k)) := by
      rw [← zpow_neg, ← zpow_neg, ← zpow_add₀ two_ne_zero, ← zpow_add₀ two_ne_zero,
        ← zpow_add₀ two_ne_zero, ← zpow_natCast, ← zpow_natCast, ← zpow_add₀ two_ne_zero]
      congr 1
      unfold bias
      ring
    rw [Nat.cast_mul, Nat.cast_mul, Nat.cast_pow, Nat.cast_pow, Nat.cast_two, mul_assoc, hexp]
    ring
  by_cases hlt : sa < sb
  · have hlt' := hlt
    rw [BitVec.lt_def] at hlt'
    have hshl : (sa <<< 1).toNat = sa.toNat * 2 ^ 1 := toNat_shiftLeft_of_lt (by omega)
    simp only [if_pos hlt]
    apply roundPack_stickyDiv (resultSign_le a b) (divLoop_spec (by omega) hbhi (by omega) rfl) (by omega)
    · omega
    · omega
    · rw [hshl]
      exact hsc 1
  · have hge := hlt
    rw [BitVec.lt_def] at hge
    simp only [if_neg hlt]
    apply roundPack_stickyDiv (resultSign_le a b) (divLoop_spec (by omega) hbhi (by omega) rfl) (by omega)
    · omega
    · omega
    · have h := hsc 0
      rw [Nat.cast_zero, sub_zero, pow_zero, mul_one] at h
      exact h

theorem signed_mul_signed (s t : Bool) (x y : ℚ) : signed s x * signed t y = signed (s ^^ t) (x * y) := by
  cases s <;> cases t <;> simp [signed]

theorem signed_div_signed (s t : Bool) (x y : ℚ) : signed s x / signed t y = signed (s ^^ t) (x / y) := by
  cases s <;> cases t <;> simp [signed, neg_div, div_neg]

theorem dmul_delivers : DeliversCode binary64 (exactMul (binary64.decode a.toNat) (binary64.decode b.toNat))
      (dmul a b).toNat := by
  have hinf : binary64.infCode ≠ 0 := by decide
  unfold dmul
  simp only [Bool.or_eq_true, decide_eq_true_eq, abs_gt_infbits, abs_eq_infbits, abs_eq_zero]
  refine deliversCode_split a b (fun _ => rfl) (fun d => by cases d <;> rfl) fun hac hbc => ?_
  rcases hac.lt_or_eq with hac | hac <;> rcases hbc.lt_or_eq with hbc | hbc
  · rw [if_neg (by omega), decode_of_finite hac, decode_of_finite hbc, exactMul, signed_mul_signed]
    split
    · rename_i h0
      have hzero : binary64.magnitude (code64 a) * binary64.magnitude (code64 b) = 0 := by
        rw [mul_eq_zero, magnitude_eq_zero, magnitude_eq_zero]
        exact h0
      rw [DeliversCode, if_pos (signed_eq_zero.mpr hzero)]
      exact toNat_signedZero a b
    · rename_i h0
      have ha0 : code64 a ≠ 0 := fun h => h0 (.inl h)
      have hb0 : code64 b ≠ 0 := fun h => h0 (.inr h)
      apply (mulFinite_spec ha0 hb0).deliversCode
      · exact mul_pos (mul_pos (codeMag_pos ha0) (codeMag_pos hb0)) binary64.ulp_pos
      unfold Format.magnitude
      rw [show binary64.sigBits = 52 from rfl]
      congr 1
      ring
  · rw [if_pos (.inr hbc), decode_of_finite hac, decode_of_inf hbc, exactMul]
    by_cases ha0 : code64 a = 0
    · rw [if_pos (Or.inl ha0), if_pos (magnitude_eq_zero.mpr ha0)]
      exact toNat_qnanbits
    · rw [if_neg (mt magnitude_eq_zero.mp ha0), if_neg (by omega)]
      exact toNat_signedInf a b
  · rw [if_pos (.inl hac), decode_of_inf hac, decode_of_finite hbc, exactMul]
    by_cases hb0 : code64 b = 0
    · rw [if_pos (Or.inr hb0), if_pos (magnitude_eq_zero.mpr hb0)]
      exact toNat_qnanbits
    · rw [if_neg (mt magnitude_eq_zero.mp hb0), if_neg (by omega)]
      exact toNat_signedInf a b
  · rw [if_pos (.inl hac), if_neg (by omega), decode_of_inf hac, decode_of_inf hbc]
    exact toNat_signedInf a b

theorem ddiv_delivers : DeliversCode binary64 (exactDiv (binary64.decode a.toNat) (binary64.decode b.toNat))
      (ddiv a b).toNat := by
  unfold ddiv
  simp only [Bool.or_eq_true, decide_eq_true_eq, abs_gt_infbits, abs_eq_infbits, abs_eq_zero]
  refine deliversCode_split a b (fun _ => rfl) (fun d => by cases d <;> rfl) fun hac hbc => ?_
  rcases hac.lt_or_eq with hac | hac <;> rcases hbc.lt_or_eq with hbc | hbc
  · rw [if_neg hac.ne, if_neg hbc.ne, decode_of_finite hac, decode_of_finite hbc, exactDiv]
    by_cases hb0 : code64 b = 0
    · rw [if_pos hb0, if_pos (magnitude_eq_zero.mpr hb0)]
      by_cases ha0 : code64 a = 0
      · rw [if_pos ha0, if_pos (magnitude_eq_zero.mpr ha0)]
        exact toNat_qnanbits
      · rw [if_neg ha0, if_neg (mt magnitude_eq_zero.mp ha0)]
        exact toNat_signedInf a b
    rw [if_neg hb0, if_neg (mt magnitude_eq_zero.mp hb0), signed_div_signed]
    by_cases ha0 : code64 a = 0
    · rw [if_pos ha0, magnitude_eq_zero.mpr ha0, zero_div, DeliversCode,
        if_pos (signed_eq_zero.mpr rfl)]
      exact toNat_signedZero a b
    rw [if_neg ha0]
    have hu := binary64.ulp_pos
    apply (divFinite_spec ha0 hb0).deliversCode
    · exact div_pos (div_pos (codeMag_pos ha0) (codeMag_pos hb0)) hu
    · unfold Format.magnitude
      rw [show binary64.sigBits = 52 from rfl, mul_div_mul_right _ _ hu.ne', div_mul_cancel₀ _ hu.ne']
  · rw [if_neg hac.ne, if_pos hbc, decode_of_finite hac, decode_of_inf hbc, exactDiv, DeliversCode, if_pos rfl]
    exact toNat_signedZero a b
  · rw [if_pos hac, if_neg hbc.ne, decode_of_inf hac, decode_of_finite hbc]
    exact toNat_signedInf a b
  · rw [if_pos hac, if_pos hbc, decode_of_inf hac, decode_of_inf hbc]
    exact toNat_qnanbits

/-- The four operations of the soft-float library are the IEEE 754 binary64 operations, rounding to
nearest with ties to even, for every pair of patterns. -/
theorem doubleOps_correctlyRounded (a b : U64) :
    Delivers binary64 (exactAdd (binary64.decode a.toNat) (binary64.decode b.toNat)) (dadd a b).toNat ∧
      Delivers binary64 (exactSub (binary64.decode a.toNat) (binary64.decode b.toNat)) (dsub a b).toNat ∧
      Delivers binary64 (exactMul (binary64.decode a.toNat) (binary64.decode b.toNat)) (dmul a b).toNat ∧
      Delivers binary64 (exactDiv (binary64.decode a.toNat) (binary64.decode b.toNat)) (ddiv a b).toNat :=
  ⟨(dadd_delivers a b).delivers, (dsub_delivers a b).delivers, (dmul_delivers a b).delivers,
    (ddiv_delivers a b).delivers⟩

end Skjegg.Runtime
