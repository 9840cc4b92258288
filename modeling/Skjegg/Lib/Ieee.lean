import Skjegg.Lib.BinaryFloat

/-!
# IEEE 754 arithmetic on bit patterns

The patterns of a binary interchange format, the exact results of the four basic operations, and what
it is to be correctly rounded. `Delivers` is the contract of an implementation.
-/

namespace Skjegg.Lib

/-- A binary interchange format by the widths of its fields. -/
structure Format where
  (sigBits expBits : ℕ)
  sigBits_pos : 0 < sigBits
  two_le_expBits : 2 ≤ expBits

def binary64 : Format := ⟨52, 11, by decide, by decide⟩

def binary32 : Format := ⟨23, 8, by decide, by decide⟩

namespace Format

variable (F : Format)

def expMax : ℕ := 2 ^ F.expBits - 1

def bias : ℕ := 2 ^ (F.expBits - 1) - 1

def signBit : ℕ := 2 ^ (F.expBits + F.sigBits)

def infCode : ℕ := F.expMax * 2 ^ F.sigBits

def ulp : ℚ := 2 ^ (1 - (F.bias : ℤ) - F.sigBits)

def magnitude (code : ℕ) : ℚ := codeMag F.sigBits code * F.ulp

def code (bits : ℕ) : ℕ := bits % F.signBit

def neg (bits : ℕ) : Bool := decide (F.signBit ≤ bits)

def pack (neg : Bool) (code : ℕ) : ℕ := (if neg then F.signBit else 0) + code

def qnan : ℕ := F.infCode + 2 ^ (F.sigBits - 1)

/-- `2^emax * (2 - 2^-p)`: from here on a result rounds to infinity. -/
def overflowAt : ℚ := 2 ^ F.bias * (2 - 1 / 2 ^ (F.sigBits + 1))

end Format

inductive Datum where
  | nan
  | inf (neg : Bool)
  | finite (neg : Bool) (mag : ℚ)

def Format.decode (F : Format) (bits : ℕ) : Datum :=
  if F.infCode < F.code bits then .nan
  else if F.code bits = F.infCode then .inf (F.neg bits)
  else .finite (F.neg bits) (F.magnitude (F.code bits))

def signed (neg : Bool) (x : ℚ) : ℚ := if neg then -x else x

/-- The result of an operation before rounding; a zero `num x negZero` has the sign of `negZero`. -/
inductive Exact where
  | nan
  | inf (neg : Bool)
  | num (x : ℚ) (negZero : Bool)

def exactAdd : Datum → Datum → Exact
  | .nan, _ => .nan
  | _, .nan => .nan
  | .inf s, .inf t => if s = t then .inf s else .nan
  | .inf s, .finite _ _ => .inf s
  | .finite _ _, .inf t => .inf t
  | .finite s x, .finite t y => .num (signed s x + signed t y) (s && t)

def Datum.negate : Datum → Datum
  | .nan => .nan
  | .inf s => .inf (!s)
  | .finite s x => .finite (!s) x

def exactSub (a b : Datum) : Exact := exactAdd a b.negate

def exactMul : Datum → Datum → Exact
  | .nan, _ => .nan
  | _, .nan => .nan
  | .inf s, .inf t => .inf (s ^^ t)
  | .inf s, .finite t y => if y = 0 then .nan else .inf (s ^^ t)
  | .finite s x, .inf t => if x = 0 then .nan else .inf (s ^^ t)
  | .finite s x, .finite t y => .num (signed s x * signed t y) (s ^^ t)

def exactDiv : Datum → Datum → Exact
  | .nan, _ => .nan
  | _, .nan => .nan
  | .inf _, .inf _ => .nan
  | .inf s, .finite t _ => .inf (s ^^ t)
  | .finite s _, .inf t => .num 0 (s ^^ t)
  | .finite s x, .finite t y =>
    if y = 0 then if x = 0 then .nan else .inf (s ^^ t)
    else .num (signed s x / signed t y) (s ^^ t)

structure RoundsNearestEven (F : Format) (x : ℚ) (bits : ℕ) : Prop where
  sign : bits = F.pack (decide (x < 0)) (F.code bits)
  overflow : F.overflowAt ≤ |x| → F.code bits = F.infCode
  finite : |x| < F.overflowAt → F.code bits < F.infCode
  nearest : |x| < F.overflowAt → ∀ k < F.infCode,
    |(|x| - F.magnitude (F.code bits))| ≤ |(|x| - F.magnitude k)|
  tiesToEven : |x| < F.overflowAt → ∀ k < F.infCode, k ≠ F.code bits →
    |(|x| - F.magnitude k)| = |(|x| - F.magnitude (F.code bits))| → Even (F.code bits)

/-- The pattern an implementation has to return for an exact result. -/
def Delivers (F : Format) : Exact → ℕ → Prop
  | .nan, bits => bits = F.qnan
  | .inf s, bits => bits = F.pack s F.infCode
  | .num x negZero, bits => if x = 0 then bits = F.pack negZero 0 else RoundsNearestEven F x bits

/-! ## From codes to patterns -/

variable {s : Bool} {bits c n : ℕ} {X x : ℚ}

namespace Format

variable {F : Format}

theorem bias_eq (F : Format) : F.expMax = 2 * F.bias + 1 := by
  have h := F.two_le_expBits
  have hpow : 2 ^ F.expBits = 2 * 2 ^ (F.expBits - 1) := by
    rw [← pow_succ', Nat.sub_add_cancel (by omega)]
  have hpos := Nat.two_pow_pos (F.expBits - 1)
  unfold expMax bias
  omega

theorem one_le_bias (F : Format) : 1 ≤ F.bias := by
  have hpow : 2 ^ 1 ≤ 2 ^ (F.expBits - 1) :=
    Nat.pow_le_pow_right (by decide) (by have := F.two_le_expBits; omega)
  unfold bias
  omega

theorem infCode_lt_signBit (F : Format) : F.infCode < F.signBit := by
  unfold infCode signBit expMax
  rw [pow_add]
  exact mul_lt_mul_of_pos_right (by have := Nat.two_pow_pos F.expBits; omega) (Nat.two_pow_pos _)

theorem ulp_pos (F : Format) : 0 < F.ulp := by
  unfold ulp
  positivity

theorem code_pack (hc : c < F.signBit) : F.code (F.pack s c) = c := by
  unfold code pack
  split
  · rw [Nat.add_mod_left, Nat.mod_eq_of_lt hc]
  · rw [zero_add, Nat.mod_eq_of_lt hc]

theorem neg_pack (hc : c < F.signBit) : F.neg (F.pack s c) = s := by
  unfold neg pack
  cases s
  · simpa using hc
  · simp

theorem infCode_even (F : Format) : Even F.infCode :=
  (Nat.even_pow.mpr ⟨even_two, F.sigBits_pos.ne'⟩).mul_left _

theorem overflowAt_eq (F : Format) : F.overflowAt = codeMid F.sigBits (F.infCode - 1) * F.ulp := by
  have hbias := F.bias_eq
  have hone := F.one_le_bias
  have hpos := Nat.two_pow_pos F.sigBits
  obtain ⟨e, he⟩ : ∃ e, F.expMax = e + 3 := ⟨F.expMax - 3, by omega⟩
  have hco : F.infCode - 1 = (e + 2 - 1) * 2 ^ F.sigBits + (2 ^ (F.sigBits + 1) - 1) := by
    rw [infCode, he, show e + 2 - 1 = e + 1 from rfl, pow_succ,
      show (e + 3) * 2 ^ F.sigBits = (e + 1) * 2 ^ F.sigBits + 2 ^ F.sigBits * 2 by ring]
    omega
  have hls : 2 ^ F.sigBits ≤ 2 ^ (F.sigBits + 1) - 1 := by
    omega
  rw [hco, codeMid_eq (by omega) (by omega) (Or.inr hls), overflowAt, ulp,
    show e + 2 - 1 = e + 1 from rfl, Nat.cast_sub Nat.one_le_two_pow]
  have hexp : (1 - (F.bias : ℤ) - F.sigBits) = F.bias - (e + 1 : ℕ) - F.sigBits := by
    omega
  rw [hexp, zpow_sub₀ two_ne_zero, zpow_sub₀ two_ne_zero, zpow_natCast, zpow_natCast, zpow_natCast]
  push_cast
  field_simp
  ring

end Format

theorem codeMid_strictMono (m : ℕ) : StrictMono (codeMid m) := by
  apply strictMono_nat_of_lt_succ
  intro n
  have h1 : (codeMag m n : ℚ) < codeMag m (n + 1) := by exact_mod_cast codeMag_lt_succ m n
  have h2 : (codeMag m (n + 1) : ℚ) < codeMag m (n + 2) := by
    exact_mod_cast codeMag_lt_succ m _
  unfold codeMid
  linarith

theorem IsRne.le_iff {m k : ℕ} (h : IsRne m X n) (hk : Even k) (hpos : 0 < k) :
    k ≤ n ↔ codeMid m (k - 1) ≤ X := by
  constructor
  · intro hkn
    have hlow : codeMid m (k - 1) ≤ codeMid m (n - 1) := (codeMid_strictMono m).monotone (by omega)
    rcases h.above (n - 1) (by omega) with hlt | ⟨heq, -⟩
    · exact hlow.trans hlt.le
    · exact hlow.trans heq.le
  intro hX
  by_contra hnk
  have habv : codeMid m n ≤ codeMid m (k - 1) := (codeMid_strictMono m).monotone (by omega)
  rcases h.below with hlt | ⟨heq, heven⟩
  · exact absurd hX (not_le.mpr (hlt.trans_le habv))
  -- on the midpoint itself `n` would be the odd code below `k`
  have hn : n = k - 1 := (codeMid_strictMono m).injective (le_antisymm habv (hX.trans heq.le))
  rw [Nat.even_iff] at heven hk
  omega

theorem signed_abs (x : ℚ) : signed (decide (x < 0)) |x| = x := by
  unfold signed
  by_cases h : x < 0
  · rw [decide_eq_true h, if_pos rfl, abs_of_neg h, neg_neg]
  · rw [decide_eq_false h, if_neg (by decide), abs_of_nonneg (not_lt.mp h)]

theorem abs_signed (s : Bool) (hx : 0 ≤ x) : |signed s x| = x := by
  unfold signed
  split
  · rw [abs_neg, abs_of_nonneg hx]
  · exact abs_of_nonneg hx

theorem signed_neg_iff (s : Bool) (hx : 0 < x) : decide (signed s x < 0) = s := by
  unfold signed
  cases s
  · simpa using hx.le
  · simpa using hx

theorem signed_eq_zero : signed s x = 0 ↔ x = 0 := by
  unfold signed
  split <;> simp

theorem rounds_of_isRne {F : Format} (hX : 0 < X) (h : IsRne F.sigBits X n) :
    RoundsNearestEven F (signed s (X * F.ulp)) (F.pack s (min n F.infCode)) := by
  have hulp := F.ulp_pos
  have hmagpos : 0 < X * F.ulp := mul_pos hX hulp
  have habs : |signed s (X * F.ulp)| = X * F.ulp := abs_signed s hmagpos.le
  have hsg : decide (signed s (X * F.ulp) < 0) = s := signed_neg_iff s hmagpos
  have hinf : 0 < F.infCode := by
    have := F.bias_eq
    exact mul_pos (by omega) (Nat.two_pow_pos _)
  have hco : F.code (F.pack s (min n F.infCode)) = min n F.infCode :=
    Format.code_pack (lt_of_le_of_lt (min_le_right _ _) F.infCode_lt_signBit)
  have hov : F.overflowAt ≤ X * F.ulp ↔ F.infCode ≤ n := by
    rw [F.overflowAt_eq, mul_le_mul_iff_left₀ hulp, h.le_iff F.infCode_even hinf]
  have hfin : X * F.ulp < F.overflowAt → min n F.infCode = n := fun hlt => by
    rw [← not_le, hov] at hlt
    omega
  have hdist : ∀ k, |X * F.ulp - F.magnitude k| = |X - codeMag F.sigBits k| * F.ulp := fun k => by
    rw [Format.magnitude, ← sub_mul, abs_mul, abs_of_pos hulp]
  constructor
  · rw [hsg, hco]
  · rw [habs, hco, hov]
    omega
  · rw [habs, hco]
    intro hlt
    rw [hfin hlt]
    exact not_le.mp fun hle => absurd (hov.mpr hle) (not_le.mpr hlt)
  · rw [habs, hco]
    intro hlt k _
    rw [hfin hlt, hdist, hdist]
    exact mul_le_mul_of_nonneg_right (h.nearest k).1 hulp.le
  rw [habs, hco]
  intro hlt k _ hne
  rw [hfin hlt] at hne ⊢
  rw [hdist, hdist]
  exact fun heq => (h.nearest k).2 hne (mul_right_cancel₀ hulp.ne' heq)

/-! ## Results by their code -/

/-- The pattern of the code that `x` rounds to, cut off at infinity. -/
def RoundsTo (F : Format) (x : ℚ) (bits : ℕ) : Prop :=
  ∃ n, IsRne F.sigBits (|x| / F.ulp) n ∧ bits = F.pack (decide (x < 0)) (min n F.infCode)

def DeliversCode (F : Format) : Exact → ℕ → Prop
  | .nan, bits => bits = F.qnan
  | .inf s, bits => bits = F.pack s F.infCode
  | .num x negZero, bits => if x = 0 then bits = F.pack negZero 0 else RoundsTo F x bits

variable {F : Format}

theorem RoundsTo.of_isRne (hX : 0 < X) (h : IsRne F.sigBits X n) :
    RoundsTo F (signed s (X * F.ulp)) (F.pack s (min n F.infCode)) := by
  have hpos := mul_pos hX F.ulp_pos
  refine ⟨n, ?_, ?_⟩
  · rw [abs_signed s hpos.le, mul_div_cancel_right₀ _ F.ulp_pos.ne']
    exact h
  · rw [signed_neg_iff s hpos]

theorem RoundsTo.roundsNearestEven (hx : x ≠ 0) (h : RoundsTo F x bits) : RoundsNearestEven F x bits := by
  obtain ⟨n, hn, rfl⟩ := h
  have hX : 0 < |x| / F.ulp := div_pos (abs_pos.mpr hx) F.ulp_pos
  have hrounds := rounds_of_isRne (s := decide (x < 0)) hX hn
  rwa [div_mul_cancel₀ _ F.ulp_pos.ne', signed_abs] at hrounds

theorem DeliversCode.delivers {e : Exact} (h : DeliversCode F e bits) : Delivers F e bits := by
  cases e with
  | nan | inf => exact h
  | num x negZero =>
    by_cases hx : x = 0
    · simp only [DeliversCode, Delivers, if_pos hx] at h ⊢
      exact h
    · simp only [DeliversCode, Delivers, if_neg hx] at h ⊢
      exact h.roundsNearestEven hx

/-! ## Decoding -/

theorem decode_of_nan (h : F.infCode < F.code bits) : F.decode bits = .nan :=
  if_pos h

theorem decode_of_inf (h : F.code bits = F.infCode) : F.decode bits = .inf (F.neg bits) := by
  rw [Format.decode, if_neg h.le.not_gt, if_pos h]

theorem decode_of_finite (h : F.code bits < F.infCode) :
    F.decode bits = .finite (F.neg bits) (F.magnitude (F.code bits)) := by
  rw [Format.decode, if_neg h.le.not_gt, if_neg h.ne]

theorem magnitude_eq_zero : F.magnitude c = 0 ↔ c = 0 := by
  unfold Format.magnitude
  rw [mul_eq_zero, or_iff_left F.ulp_pos.ne', Nat.cast_eq_zero]
  constructor
  · intro h
    apply (codeMag_strictMono _).injective
    rw [h, codeMag_zero]
  · rintro rfl
    exact codeMag_zero _

theorem RoundsTo.of_finite (hc : c < F.infCode) (h0 : c ≠ 0) :
    RoundsTo F (signed s (F.magnitude c)) (F.pack s c) := by
  have hpos : (0 : ℚ) < codeMag F.sigBits c := by
    have := codeMag_strictMono F.sigBits (pos_of_ne_zero h0)
    rw [codeMag_zero] at this
    exact_mod_cast this
  have h := RoundsTo.of_isRne (s := s) hpos (isRne_codeMag _ c)
  rwa [min_eq_left hc.le] at h

end Skjegg.Lib
