import Skjegg.Lib.Sticky

/-!
# Rounding to a binary floating-point format

The magnitudes of a binary interchange format with `m` fraction bits, in units of the smallest one,
are the values `codeMag m n` of the codes `n` (exponent field above fraction field), without an upper
end. `IsRne m X n` says by comparison with midpoints that `X` rounds to `n`, ties to even.
-/

namespace Skjegg.Lib

variable {m : ℕ}

def codeExp (m n : ℕ) : ℕ := if n / 2 ^ m = 0 then 1 else n / 2 ^ m

def codeSig (m n : ℕ) : ℕ := if n / 2 ^ m = 0 then n % 2 ^ m else 2 ^ m + n % 2 ^ m

def codeMag (m n : ℕ) : ℕ := codeSig m n * 2 ^ (codeExp m n - 1)

theorem codeExp_pos (m n : ℕ) : 1 ≤ codeExp m n := by
  unfold codeExp
  split
  · exact le_rfl
  · rename_i h
    exact pos_of_ne_zero h

theorem codeSig_lt (m n : ℕ) : codeSig m n < 2 ^ (m + 1) := by
  unfold codeSig
  split <;> omega

theorem codeSig_normal (m n : ℕ) : codeExp m n = 1 ∨ 2 ^ m ≤ codeSig m n := by
  unfold codeExp codeSig
  split
  · exact .inl rfl
  · exact .inr (Nat.le_add_right _ _)

theorem code_eq (m n : ℕ) : (codeExp m n - 1) * 2 ^ m + codeSig m n = n := by
  have hdm := Nat.div_add_mod n (2 ^ m)
  unfold codeExp codeSig
  split
  · rename_i h
    rw [h, mul_zero, zero_add] at hdm
    rw [hdm, Nat.sub_self, zero_mul, zero_add]
  rename_i h
  obtain ⟨e, he⟩ := Nat.exists_eq_succ_of_ne_zero h
  rw [he, Nat.mul_succ] at hdm
  rw [he, Nat.succ_sub_one, ← add_assoc, mul_comm e]
  exact hdm

/-- The significand may also be one past its largest value. -/
theorem codeMag_mk {E r : ℕ} (hE : 1 ≤ E) (hr : r ≤ 2 ^ (m + 1)) (hnr : E = 1 ∨ 2 ^ m ≤ r) :
    codeMag m ((E - 1) * 2 ^ m + r) = r * 2 ^ (E - 1) := by
  have hpos := Nat.two_pow_pos m
  obtain ⟨e, rfl⟩ : ∃ e, E = e + 1 := ⟨E - 1, by omega⟩
  rw [Nat.add_sub_cancel]
  rcases lt_or_ge r (2 ^ m) with hsub | hge
  · have he : e = 0 := by
      rcases hnr with h | h
      · omega
      · omega
    subst he
    simp [codeMag, codeSig, codeExp, Nat.div_eq_of_lt hsub, Nat.mod_eq_of_lt hsub]
  obtain ⟨f, rfl⟩ := Nat.exists_eq_add_of_le hge
  have hco : e * 2 ^ m + (2 ^ m + f) = f + 2 ^ m * (e + 1) := by ring
  rcases lt_or_ge f _ with hf | hf
  · have hdiv : (f + 2 ^ m * (e + 1)) / 2 ^ m = e + 1 := by
      rw [Nat.add_mul_div_left _ _ hpos, Nat.div_eq_of_lt hf, zero_add]
    have hmod : (f + 2 ^ m * (e + 1)) % 2 ^ m = f := by
      rw [Nat.add_mul_mod_self_left, Nat.mod_eq_of_lt hf]
    rw [hco, codeMag, codeSig, codeExp, hdiv, hmod, if_neg e.succ_ne_zero,
      if_neg e.succ_ne_zero, Nat.add_sub_cancel]
  · -- a carry out of the significand
    obtain rfl : f = 2 ^ m := by omega
    have hca : 2 ^ m + 2 ^ m * (e + 1) = 2 ^ m * (e + 2) := by ring
    rw [hco, hca, codeMag, codeSig, codeExp, Nat.mul_div_cancel_left _ hpos,
      Nat.mul_mod_right, if_neg (by omega), if_neg (by omega)]
    rw [show e + 2 - 1 = e + 1 by omega, pow_succ]
    ring

theorem codeMag_succ (m n : ℕ) : codeMag m (n + 1) = codeMag m n + 2 ^ (codeExp m n - 1) := by
  have hlt := codeSig_lt m n
  have hmk := codeMag_mk (codeExp_pos m n) (r := codeSig m n + 1) hlt
    ((codeSig_normal m n).imp_right fun h => by omega)
  rw [← add_assoc, code_eq] at hmk
  rw [hmk, codeMag]
  ring

theorem codeMag_lt_succ (m n : ℕ) : codeMag m n < codeMag m (n + 1) := by
  rw [codeMag_succ]
  exact Nat.lt_add_of_pos_right (Nat.two_pow_pos _)

theorem codeMag_strictMono (m : ℕ) : StrictMono (codeMag m) := strictMono_nat_of_lt_succ (codeMag_lt_succ m)

@[simp] theorem codeMag_zero (m : ℕ) : codeMag m 0 = 0 := by
  simp [codeMag, codeSig]

/-! ## Rounding to nearest, ties to even -/

def codeMid (m n : ℕ) : ℚ := (codeMag m n + codeMag m (n + 1)) / 2

/-- `X` rounds to the code `n`: it lies between the midpoints on either side, and on one of them only
when `n` is even. -/
structure IsRne (m : ℕ) (X : ℚ) (n : ℕ) : Prop where
  above : ∀ j, n = j + 1 → codeMid m j < X ∨ (codeMid m j = X ∧ Even n)
  below : X < codeMid m n ∨ (X = codeMid m n ∧ Even n)

theorem codeMid_eq {E r : ℕ} (hE : 1 ≤ E) (hr : r < 2 ^ (m + 1)) (hnr : E = 1 ∨ 2 ^ m ≤ r) :
    codeMid m ((E - 1) * 2 ^ m + r) = (2 * r + 1) * 2 ^ (E - 1) / 2 := by
  have hnx := codeMag_mk hE hr (hnr.imp_right fun h => by omega)
  rw [codeMid, codeMag_mk hE hr.le hnr, add_assoc, hnx]
  push_cast
  ring

theorem IsRne.nearest {X : ℚ} {n : ℕ} (h : IsRne m X n) (k : ℕ) :
    |X - codeMag m n| ≤ |X - codeMag m k| ∧
      (k ≠ n → |X - codeMag m k| = |X - codeMag m n| → Even n) := by
  have hmono : ∀ {i j : ℕ}, i ≤ j → (codeMag m i : ℚ) ≤ codeMag m j := fun hij => by
    exact_mod_cast (codeMag_strictMono m).monotone hij
  rcases lt_trichotomy k n with hk | rfl | hk
  · obtain ⟨j, rfl⟩ : ∃ j, n = j + 1 := ⟨n - 1, by omega⟩
    have hkj := hmono (Nat.lt_succ_iff.mp hk)
    have hjn : (codeMag m j : ℚ) < codeMag m (j + 1) := by exact_mod_cast codeMag_lt_succ m j
    have habv : codeMid m j ≤ X ∧ (codeMid m j = X → Even (j + 1)) := by
      rcases h.above j rfl with hlt | ⟨heq, heven⟩
      · exact ⟨hlt.le, fun heq => absurd heq hlt.ne⟩
      · exact ⟨heq.le, fun _ => heven⟩
    rw [codeMid] at habv
    have hpos : |X - codeMag m k| = X - codeMag m k := abs_of_nonneg (by linarith [habv.1])
    constructor
    · rw [abs_le]
      constructor <;> linarith [habv.1]
    · intro _ heq
      apply habv.2
      rcases abs_cases (X - codeMag m _) with hc | hc <;> linarith [habv.1]
  · exact ⟨le_rfl, fun hne => absurd rfl hne⟩
  · have hkn := hmono (Nat.succ_le_iff.mpr hk)
    have hnn : (codeMag m n : ℚ) < codeMag m (n + 1) := by exact_mod_cast codeMag_lt_succ m n
    have hlow : X ≤ codeMid m n ∧ (X = codeMid m n → Even n) := by
      rcases h.below with hlt | ⟨heq, heven⟩
      · exact ⟨hlt.le, fun heq => absurd heq hlt.ne⟩
      · exact ⟨heq.le, fun _ => heven⟩
    rw [codeMid] at hlow
    have hneg : |X - codeMag m k| = codeMag m k - X := by
      rw [abs_of_nonpos (by linarith [hlow.1])]
      ring
    constructor
    · rw [abs_le]
      constructor <;> linarith [hlow.1]
    · intro _ heq
      apply hlow.2
      rcases abs_cases (X - codeMag m n) with hc | hc <;> linarith [hlow.1]

theorem isRne_codeMag (m n : ℕ) : IsRne m (codeMag m n) n := by
  have hlt : ∀ j, (codeMag m j : ℚ) < codeMag m (j + 1) := fun j => by
    exact_mod_cast codeMag_lt_succ m j
  constructor
  · rintro j rfl
    left
    rw [codeMid]
    linarith [hlt j]
  · left
    rw [codeMid]
    linarith [hlt n]

def roundOff3 (sig : ℕ) : ℕ :=
  if 4 < sig % 8 ∨ (sig % 8 = 4 ∧ sig / 8 % 2 = 1) then sig / 8 + 1 else sig / 8

theorem roundOff3_le {sig : ℕ} (hsig : sig < 2 ^ (m + 4)) : roundOff3 sig ≤ 2 ^ (m + 1) := by
  have hpow : 2 ^ (m + 4) = 8 * 2 ^ (m + 1) := by ring
  unfold roundOff3
  split <;> omega

theorem le_roundOff3 {sig : ℕ} (hsig : 2 ^ (m + 3) ≤ sig) : 2 ^ m ≤ roundOff3 sig := by
  have hpow : 2 ^ (m + 3) = 8 * 2 ^ m := by ring
  unfold roundOff3
  split <;> omega

section GuardBits

variable {E sig : ℕ} {X : ℚ}

section

variable (hag : GridAgree 4 (X * 8 / 2 ^ (E - 1)) sig)

include hag

/-- A significand with three guard bits compares with the midpoint above the significand `r` as `X`
does. -/
theorem gridAgree_codeMid (r : ℕ) : (X < (2 * r + 1) * 2 ^ (E - 1) / 2 ↔ sig < 4 * (2 * r + 1)) ∧
      ((2 * r + 1) * 2 ^ (E - 1) / 2 < X ↔ 4 * (2 * r + 1) < sig) ∧
      (X = (2 * r + 1) * 2 ^ (E - 1) / 2 ↔ sig = 4 * (2 * r + 1)) := by
  have hsc : (0 : ℚ) < 2 ^ (E - 1) := by positivity
  have hcast : ((4 * (2 * r + 1) : ℕ) : ℚ) = 4 * ((2 * r + 1 : ℤ) : ℚ) := by push_cast; ring
  have hlt : X < (2 * r + 1) * 2 ^ (E - 1) / 2 ↔ sig < 4 * (2 * r + 1) := by
    rw [← Nat.cast_lt (α := ℚ), hcast, ← (hag _).1, div_lt_iff₀ hsc]
    push_cast
    constructor <;> intro h <;> linarith
  have hgt : (2 * r + 1) * 2 ^ (E - 1) / 2 < X ↔ 4 * (2 * r + 1) < sig := by
    rw [← Nat.cast_lt (α := ℚ), hcast, ← (hag _).2, lt_div_iff₀ hsc]
    push_cast
    constructor <;> intro h <;> linarith
  rw [eq_iff_le_not_lt, ← not_lt, hlt, hgt]
  omega

theorem le_of_gridAgree (hsig : 2 ^ (m + 3) ≤ sig) : 2 ^ m * 2 ^ (E - 1) ≤ X := by
  have hsc : (0 : ℚ) < 2 ^ (E - 1) := by positivity
  have hq : (2 : ℚ) ^ (m + 3) ≤ sig := by exact_mod_cast hsig
  rw [pow_add] at hq
  have hk : 4 * ((2 ^ (m + 1) : ℤ) : ℚ) ≤ X * 8 / 2 ^ (E - 1) := by
    rw [hag.ge_iff]
    push_cast
    rw [pow_succ]
    linarith
  push_cast at hk
  rw [le_div_iff₀ hsc, pow_succ] at hk
  linarith

theorem lt_of_gridAgree (hsig : sig < 2 ^ (m + 4)) : X < 2 ^ (m + 1) * 2 ^ (E - 1) := by
  have hsc : (0 : ℚ) < 2 ^ (E - 1) := by positivity
  have hq : (sig : ℚ) < 2 ^ (m + 4) := by exact_mod_cast hsig
  rw [pow_add] at hq
  have hk : X * 8 / 2 ^ (E - 1) < 4 * ((2 ^ (m + 2) : ℤ) : ℚ) := by
    rw [(hag _).1]
    push_cast
    rw [pow_add]
    linarith
  push_cast at hk
  rw [div_lt_iff₀ hsc, pow_add] at hk
  rw [pow_succ]
  linarith

end

/-- Rounding off three guard bits rounds every value that the significand agrees with on the
multiples of four. -/
theorem isRne_of_gridAgree (hm : 0 < m) (hE : 1 ≤ E) (hsig : sig < 2 ^ (m + 4))
    (hnr : E = 1 ∨ 2 ^ (m + 3) ≤ sig) (hag : GridAgree 4 (X * 8 / 2 ^ (E - 1)) sig) :
    IsRne m X ((E - 1) * 2 ^ m + roundOff3 sig) := by
  have hrle := roundOff3_le hsig
  have hrn := hnr.imp_right le_roundOff3
  have hmag := codeMag_mk hE hrle hrn
  have hmagq : (codeMag m ((E - 1) * 2 ^ m + roundOff3 sig) : ℚ) = roundOff3 sig * 2 ^ (E - 1) := by
    rw [hmag]
    push_cast
    ring
  have hparity : Even (roundOff3 sig) → Even ((E - 1) * 2 ^ m + roundOff3 sig) := fun h =>
    ((Nat.even_pow.mpr ⟨even_two, hm.ne'⟩).mul_left _).add h
  constructor
  · intro j hj
    by_cases hbottom : E ≠ 1 ∧ roundOff3 sig = 2 ^ m
    · -- the neighbour below has a smaller exponent, but `X` is not below the magnitude itself
      have hge := le_of_gridAgree hag (hnr.resolve_left hbottom.1)
      have hlt : (codeMag m j : ℚ) < codeMag m (j + 1) := by exact_mod_cast codeMag_lt_succ m j
      rw [hj, hbottom.2] at hmagq
      push_cast at hmagq
      left
      rw [codeMid]
      linarith
    obtain ⟨r, hr⟩ : ∃ r, roundOff3 sig = r + 1 := by
      refine ⟨roundOff3 sig - 1, ?_⟩
      have hpos := Nat.two_pow_pos m
      rcases hrn with h | h
      · rw [h, Nat.sub_self, zero_mul] at hj
        omega
      · omega
    have hcd : E = 1 ∨ 2 ^ m ≤ r := by
      by_cases hE1 : E = 1
      · exact .inl hE1
      · omega
    obtain ⟨-, hgt, heq⟩ := gridAgree_codeMid hag r
    rw [show j = (E - 1) * 2 ^ m + r by omega, codeMid_eq hE (by omega) hcd, eq_comm, hgt, heq]
    have hcs : 4 * (2 * r + 1) < sig ∨ (sig = 4 * (2 * r + 1) ∧ Even (roundOff3 sig)) := by
      rw [Nat.even_iff, hr]
      unfold roundOff3 at hr
      split at hr <;> omega
    exact hcs.imp_right fun h => ⟨h.1, hparity h.2⟩
  · by_cases htop : roundOff3 sig = 2 ^ (m + 1)
    · -- a carry: `X` is below the power of two it rounds to
      have hlt := lt_of_gridAgree hag hsig
      have hnx : (codeMag m ((E - 1) * 2 ^ m + roundOff3 sig) : ℚ) <
          codeMag m ((E - 1) * 2 ^ m + roundOff3 sig + 1) := by exact_mod_cast codeMag_lt_succ m _
      rw [htop] at hmagq hnx ⊢
      push_cast at hmagq
      left
      rw [codeMid]
      linarith
    · obtain ⟨hlt, -, heq⟩ := gridAgree_codeMid hag _
      rw [codeMid_eq hE (by omega) hrn, hlt, heq]
      have hcs : sig < 4 * (2 * roundOff3 sig + 1) ∨
          (sig = 4 * (2 * roundOff3 sig + 1) ∧ Even (roundOff3 sig)) := by
        rw [Nat.even_iff]
        unfold roundOff3
        split <;> omega
      exact hcs.imp_right fun h => ⟨h.1, hparity h.2⟩

end GuardBits

end Skjegg.Lib
