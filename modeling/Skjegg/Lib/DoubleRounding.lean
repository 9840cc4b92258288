import Skjegg.Lib.BinaryFloat

/-!
# Rounding twice

Rounding to a wide format and then to a narrow one is the narrow rounding of the exact value when no
midpoint of the narrow format is within the wide rounding error of it.
-/

namespace Skjegg.Lib

variable {m k : ℕ}

theorem exists_codeMag {N p : ℕ} (hN : N < 2 ^ (m + 1)) : ∃ c, codeMag m c = N * 2 ^ p := by
  induction p generalizing N with
  | zero =>
    refine ⟨N, ?_⟩
    have h := codeMag_mk le_rfl hN.le (.inl rfl)
    rwa [Nat.sub_self, zero_mul, zero_add] at h
  | succ p ih =>
    rcases lt_or_ge N (2 ^ m) with hsub | hnrm
    · -- not normalized yet: move one factor of two into the significand
      obtain ⟨c, hc⟩ := ih (N := 2 * N) (by rw [pow_succ]; omega)
      refine ⟨c, ?_⟩
      rw [hc, pow_succ]
      ring
    · exact ⟨_, codeMag_mk (E := p + 2) (by omega) hN.le (.inr hnrm)⟩

theorem IsRne.eq_of_codeMag {n c : ℕ} (h : IsRne m (codeMag m c) n) : codeMag m n = codeMag m c := by
  have hnear := (h.nearest c).1
  rw [sub_self, abs_zero] at hnear
  have hz := abs_eq_zero.mp (le_antisymm hnear (abs_nonneg _))
  exact_mod_cast (sub_eq_zero.mp hz).symm

theorem gap_le {X : ℚ} {n : ℕ} (hX : 2 ^ m ≤ X) (hn : codeMag m n ≤ X) :
    (2 : ℚ) ^ (codeExp m n - 1) * 2 ^ m ≤ X := by
  rcases codeSig_normal m n with hsub | hnrm
  · rw [hsub, Nat.sub_self, pow_zero, one_mul]
    exact hX
  refine le_trans ?_ hn
  unfold codeMag
  push_cast
  rw [mul_comm]
  gcongr
  exact_mod_cast hnrm

theorem IsRne.rel_error {X : ℚ} {n : ℕ} (h : IsRne m X n) (hX : 2 ^ m ≤ X) :
    |codeMag m n - X| * 2 ^ (m + 1) ≤ X := by
  have hsucc : ∀ j, (codeMag m (j + 1) : ℚ) = codeMag m j + 2 ^ (codeExp m j - 1) := fun j => by
    exact_mod_cast codeMag_succ m j
  have hpow : (0 : ℚ) < 2 ^ m := by positivity
  rw [pow_succ]
  rcases le_total (codeMag m n : ℚ) X with hle | hge
  · -- rounded down: the value is below the midpoint above the code
    have hmid : X ≤ codeMid m n := h.below.elim le_of_lt fun h => h.1.le
    have hgap := gap_le hX hle
    rw [codeMid, hsucc] at hmid
    rw [abs_of_nonpos (by linarith)]
    nlinarith
  · cases n with
    | zero =>
      rw [codeMag_zero, Nat.cast_zero] at hge
      linarith
    | succ j =>
      -- rounded up: the value is above the midpoint below the code
      have hmid : codeMid m j ≤ X := (h.above j rfl).elim le_of_lt fun h => h.1.le
      have hst : (0 : ℚ) < 2 ^ (codeExp m j - 1) := by positivity
      rw [codeMid, hsucc] at hmid
      have hgap := gap_le (n := j) hX (by linarith)
      rw [abs_of_nonneg (by linarith), hsucc]
      nlinarith

theorem IsRne.of_sameSide {X Y : ℚ} {n : ℕ} (h : IsRne k Y n)
    (hlt : ∀ i, X < codeMid k i → Y < codeMid k i) (hgt : ∀ i, codeMid k i < X → codeMid k i < Y)
    (heq : ∀ i, X = codeMid k i → Y = codeMid k i) : IsRne k X n := by
  constructor
  · intro j hj
    have hY := h.above j hj
    rcases lt_trichotomy X _ with hX | hX | hX
    · have := hlt j hX
      rcases hY with hY | ⟨hY, -⟩ <;> linarith
    · rcases hY with hY | ⟨-, hY⟩
      · exact absurd (heq j hX) hY.ne'
      · exact .inr ⟨hX.symm, hY⟩
    · exact .inl hX
  · have hY := h.below
    rcases lt_trichotomy X _ with hX | hX | hX
    · exact .inl hX
    · rcases hY with hY | ⟨-, hY⟩
      · exact absurd (heq n hX) hY.ne
      · exact .inr ⟨hX, hY⟩
    · have := hgt n hX
      rcases hY with hY | ⟨hY, -⟩ <;> linarith

/-- Rounding `X` to the wide format `m` and the result to the narrow format `k` is rounding `X` to
the narrow one. -/
theorem IsRne.rounding_twice {X u : ℚ} {n j : ℕ} (hu : 0 < u) (hX : 2 ^ m ≤ X) (h : IsRne m X n)
    (hrep : ∀ i, ∃ c, (codeMag m c : ℚ) * u = codeMid k i)
    (hgap : ∀ i, X * u ≠ codeMid k i → 2 * codeMid k i < 2 ^ m * |X * u - codeMid k i|)
    (hj : IsRne k (codeMag m n * u) j) : IsRne k (X * u) j := by
  have herr := mul_le_mul_of_nonneg_right (h.rel_error hX) hu.le
  have hpow : (1 : ℚ) ≤ 2 ^ m := one_le_pow₀ (by norm_num)
  have habs : |codeMag m n - X| * u = |codeMag m n * u - X * u| := by
    rw [← sub_mul, abs_mul, abs_of_pos hu]
  rw [mul_right_comm, habs, pow_succ] at herr
  have hlow := neg_abs_le ((codeMag m n : ℚ) * u - X * u)
  have hhi := le_abs_self ((codeMag m n : ℚ) * u - X * u)
  refine hj.of_sameSide ?_ ?_ ?_
  · intro i hi
    have hg := hgap i hi.ne
    rw [abs_of_neg (by linarith)] at hg
    nlinarith
  · intro i hi
    have hg := hgap i hi.ne'
    rw [abs_of_pos (by linarith)] at hg
    nlinarith
  intro i hi
  obtain ⟨c, hc⟩ := hrep i
  have hXc : X = codeMag m c := mul_right_cancel₀ hu.ne' (hi.trans hc.symm)
  rw [hXc] at h
  rw [h.eq_of_codeMag, hc]

end Skjegg.Lib
