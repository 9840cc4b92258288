import Mathlib.Data.Int.CardIntervalMod
import Skjegg.Lib.Words

/-!
# The guest generator

splitmix32 as the seed expander, xoshiro128** and the draw below a bound of `runtime/rng.c`.
-/

namespace Skjegg.Runtime

open Skjegg.Lib BitVec Finset

def rotl32 (x : U32) (k : Nat) : U32 := (x <<< k) ||| (x >>> (32 - k))

/-- The number drawn, and the state after it. -/
def kpSplitmix32 (state : U32) : U32 × U32 :=
  let state := state + 0x9e3779b9#32
  let z := (state ^^^ (state >>> 16)) * 0x21f0aaad#32
  let z := (z ^^^ (z >>> 15)) * 0x735a2d97#32
  (z ^^^ (z >>> 15), state)

@[ext]
structure KpRng where
  (s0 s1 s2 s3 : U32)

def KpRng.zero : KpRng := ⟨0, 0, 0, 0⟩

def kpRngSeed (seed : U32) : KpRng :=
  let (s0, sm) := kpSplitmix32 seed
  let (s1, sm) := kpSplitmix32 sm
  let (s2, sm) := kpSplitmix32 sm
  let (s3, _) := kpSplitmix32 sm
  if s0 = 0 ∧ s1 = 0 ∧ s2 = 0 ∧ s3 = 0 then ⟨0x9e3779b9#32, s1, s2, s3⟩ else ⟨s0, s1, s2, s3⟩

def kpRngU32 (r : KpRng) : U32 × KpRng :=
  let result := rotl32 (r.s1 * 5) 7 * 9
  let t := r.s1 <<< 9
  let s2 := r.s2 ^^^ r.s0
  let s3 := r.s3 ^^^ r.s1
  let s1 := r.s1 ^^^ s2
  let s0 := r.s0 ^^^ s3
  (result, ⟨s0, s1, s2 ^^^ t, rotl32 s3 11⟩)

/-- One turn of the loop of `kp_rng_below`: what comes of a draw, `none` when it is discarded. -/
def belowTurn (bound x : U32) : Option U32 :=
  let lim := (0#32 - bound) % bound
  if x < lim then none else some (x % bound)

/-- At most `fuel` draws are made. -/
def kpRngBelow (bound : U32) : Nat → KpRng → Option (U32 × KpRng)
  | 0, _ => none
  | fuel + 1, r =>
    if bound = 0 then some (0, r)
    else
      let (x, r) := kpRngU32 r
      match belowTurn bound x with
      | none => kpRngBelow bound fuel r
      | some y => some (y, r)

/-! ## The state -/

theorem eq_zero_of_rotl32 {x : U32} (h : rotl32 x 11 = 0#32) : x = 0#32 := by
  obtain ⟨hlf, hri⟩ := or_eq_zero_iff.mp h
  have hl := congrArg BitVec.toNat hlf
  have hr := congrArg BitVec.toNat hri
  rw [toNat_shiftLeft, Nat.shiftLeft_eq] at hl
  rw [toNat_ushiftRight, Nat.shiftRight_eq_div_pow] at hr
  apply eq_of_toNat_eq
  simp only [toNat_ofNat] at hl hr ⊢
  omega

/-- The step is linear, and only the zero state goes to the zero state. -/
theorem kpRngU32_ne_zero {r : KpRng} (h : r ≠ .zero) : (kpRngU32 r).2 ≠ .zero := by
  intro hz
  obtain ⟨h0, h1, h2, h3⟩ := KpRng.ext_iff.mp hz
  have hs3 : r.s3 ^^^ r.s1 = 0#32 := eq_zero_of_rotl32 h3
  have hs0 : r.s0 = 0#32 := by
    have h0 : r.s0 ^^^ (r.s3 ^^^ r.s1) = 0#32 := h0
    rwa [hs3, xor_zero] at h0
  have hs1 : r.s1 = r.s2 := by
    have h1 : r.s1 ^^^ (r.s2 ^^^ r.s0) = 0#32 := h1
    rwa [hs0, xor_zero, xor_eq_zero_iff] at h1
  have hfix : r.s1 = r.s1 <<< 9 := by
    have h2 : r.s2 ^^^ r.s0 ^^^ r.s1 <<< 9 = 0#32 := h2
    rwa [hs0, xor_zero, xor_eq_zero_iff, ← hs1] at h2
  have hs1' : r.s1 = 0#32 := by
    have hnat := congrArg BitVec.toNat hfix
    rw [toNat_shiftLeft, Nat.shiftLeft_eq] at hnat
    apply eq_of_toNat_eq
    show r.s1.toNat = 0
    omega
  rw [hs1', xor_zero] at hs3
  exact h (KpRng.ext hs0 hs1' (hs1.symm.trans hs1') hs3)

theorem kpRngSeed_ne_zero (seed : U32) : kpRngSeed seed ≠ .zero := by
  intro hz
  unfold kpRngSeed at hz
  simp only at hz
  split at hz
  · have h0 : 0x9e3779b9#32 = 0#32 := congrArg KpRng.s0 hz
    exact absurd h0 (by decide)
  · next hso =>
    obtain ⟨h0, h1, h2, h3⟩ := KpRng.ext_iff.mp hz
    exact hso ⟨h0, h1, h2, h3⟩

/-- The state after `n` draws. -/
def drawn (n : Nat) (r : KpRng) : KpRng := (fun r => (kpRngU32 r).2)^[n] r

theorem drawn_ne_zero (seed : U32) (n : Nat) : drawn n (kpRngSeed seed) ≠ .zero := by
  induction n with
  | zero =>
    rw [drawn, Function.iterate_zero_apply]
    exact kpRngSeed_ne_zero _
  | succ n ih =>
    rw [drawn, Function.iterate_succ_apply']
    exact kpRngU32_ne_zero ih

/-! ## The draws that are taken -/

section Below

variable {bound x y : U32}

theorem toNat_lim (h : bound ≠ 0) : ((0#32 - bound) % bound).toNat = 2 ^ 32 % bound.toNat := by
  have hlt := bound.isLt
  have hpos : 0 < bound.toNat := pos_of_ne_zero fun h0 => h (eq_of_toNat_eq h0)
  have hneg : (0#32 - bound).toNat = 2 ^ 32 - bound.toNat := by
    rw [BitVec.zero_sub, toNat_neg, Nat.mod_eq_of_lt (by omega)]
  rw [toNat_umod, hneg, ← Nat.mod_eq_sub_mod hlt.le]

theorem belowTurn_eq_some_iff (h : bound ≠ 0) : belowTurn bound x = some y ↔
    2 ^ 32 % bound.toNat ≤ x.toNat ∧ x.toNat % bound.toNat = y.toNat := by
  have hlim := toNat_lim h
  unfold belowTurn
  simp only [lt_def, hlim]
  generalize 2 ^ 32 % bound.toNat = lim
  split
  · next hlt => simp [not_le.mpr hlt]
  · next hge =>
    rw [Option.some.injEq, ← toNat_inj, toNat_umod]
    simp [Nat.le_of_not_lt hge]

/-- The words of a set of numbers that are words. -/
theorem ncard_words {p : Nat → Prop} [DecidablePred p] :
    {x : U32 | p x.toNat}.ncard = ((range (2 ^ 32)).filter p).card := by
  rw [← Set.ncard_coe_finset, ← Set.ncard_image_of_injective _ (fun _ _ => eq_of_toNat_eq)]
  congr 1
  ext n
  simp only [Set.mem_image, Set.mem_ofPred_eq, coe_filter, mem_range]
  constructor
  · rintro ⟨x, hp, rfl⟩
    exact ⟨x.isLt, hp⟩
  · rintro ⟨hlt, hp⟩
    have hn : (BitVec.ofNat 32 n).toNat = n := by rw [toNat_ofNat, Nat.mod_eq_of_lt hlt]
    exact ⟨BitVec.ofNat 32 n, by rwa [hn], hn⟩

/-- Each result comes of as many draws as any other. -/
theorem ncard_belowTurn (h : bound ≠ 0) (hy : y < bound) :
    {x | belowTurn bound x = some y}.ncard = 2 ^ 32 / bound.toNat := by
  rw [lt_def] at hy
  simp only [belowTurn_eq_some_iff h]
  rw [ncard_words (p := fun n => 2 ^ 32 % bound.toNat ≤ n ∧ n % bound.toNat = y.toNat)]
  generalize bound.toNat = b at *
  generalize y.toNat = v at *
  have hmod := Nat.mod_lt (2 ^ 32) (show 0 < b by omega)
  have hle := Nat.mod_le (2 ^ 32) b
  -- below the limit lies what would be one too many
  have hall := Nat.count_modEq_card (b := 2 ^ 32) (r := b) (by omega) v
  have hlow := Nat.count_modEq_card (b := 2 ^ 32 % b) (r := b) (by omega) v
  rw [Nat.count_eq_card_filter_range] at hall hlow
  rw [Nat.mod_eq_of_lt hmod, Nat.div_eq_of_lt hmod] at hlow
  have hspl : (range (2 ^ 32)).filter (· ≡ v [MOD b]) =
      (range (2 ^ 32 % b)).filter (· ≡ v [MOD b]) ∪
        (range (2 ^ 32)).filter fun n => 2 ^ 32 % b ≤ n ∧ n % b = v := by
    ext n
    simp only [mem_union, mem_filter, mem_range, Nat.ModEq, Nat.mod_eq_of_lt hy]
    omega
  rw [hspl, card_union_of_disjoint] at hall
  · omega
  · rw [disjoint_left]
    intro n hn hn'
    rw [mem_filter, mem_range] at hn
    exact absurd (mem_filter.mp hn').2.1 (not_le.mpr hn.1)

theorem belowTurn_lt (h : bound ≠ 0) (hx : belowTurn bound x = some y) : y < bound := by
  rw [lt_def, ← ((belowTurn_eq_some_iff h).mp hx).2]
  exact Nat.mod_lt _ (pos_of_ne_zero fun h0 => h (eq_of_toNat_eq h0))

/-- A run returns what its first draw that is taken gives. -/
theorem kpRngBelow_eq_some_iff (h : bound ≠ 0) {fuel : Nat} {r r' : KpRng} :
    kpRngBelow bound fuel r = some (y, r') ↔ ∃ n < fuel,
      (∀ k < n, belowTurn bound (kpRngU32 (drawn k r)).1 = none) ∧
        belowTurn bound (kpRngU32 (drawn n r)).1 = some y ∧ r' = drawn (n + 1) r := by
  induction fuel generalizing r with
  | zero => exact ⟨nofun, fun ⟨_, hn, _⟩ => absurd hn (Nat.not_lt_zero _)⟩
  | succ fuel ih =>
    simp only [kpRngBelow, if_neg h]
    cases htn : belowTurn bound (kpRngU32 r).1 with
    | none =>
      -- the draw is discarded, and the others are those of the state behind it
      show kpRngBelow bound fuel _ = _ ↔ _
      rw [ih]
      constructor
      · rintro ⟨n, hn, hno, hy, hr⟩
        refine ⟨n + 1, by omega, fun k hk => ?_, hy, hr⟩
        cases k with
        | zero => exact htn
        | succ k => exact hno k (by omega)
      · rintro ⟨n, hn, hno, hy, hr⟩
        cases n with
        | zero => nomatch htn.symm.trans hy
        | succ n => exact ⟨n, by omega, fun k hk => hno (k + 1) (by omega), hy, hr⟩
    | some z =>
      constructor
      · intro hz
        cases hz
        exact ⟨0, by omega, fun _ hk => absurd hk (Nat.not_lt_zero _), htn, rfl⟩
      · rintro ⟨n, -, hno, hy, rfl⟩
        cases n with
        | zero => rw [show z = y from Option.some.inj (htn.symm.trans hy)]; rfl
        | succ n => nomatch htn.symm.trans (hno 0 (by omega))

theorem ncard_accepted (h : bound ≠ 0) :
    {x | (belowTurn bound x).isSome}.ncard = bound.toNat * (2 ^ 32 / bound.toNat) := by
  have hiff : ∀ x, (belowTurn bound x).isSome ↔ 2 ^ 32 % bound.toNat ≤ x.toNat := by
    intro x
    rw [Option.isSome_iff_exists]
    simp [belowTurn_eq_some_iff h, ← toNat_umod]
  have hsum := Nat.div_add_mod (2 ^ 32) bound.toNat
  simp only [hiff]
  rw [ncard_words]
  rw [range_eq_Ico, Finset.Ico_filter_le, Nat.card_Ico]
  omega

end Below

/-- Of the draws a multiple of the bound is taken, and every result below the bound comes of equally
many of them. A call returns the result of the first draw that is taken, whenever one is. The state is
not zero after any number of draws. -/
theorem rng_uniform (seed bound : U32) :
    (bound ≠ 0 → {x | (belowTurn bound x).isSome}.ncard = bound.toNat * (2 ^ 32 / bound.toNat) ∧
      (∀ x y, belowTurn bound x = some y → y < bound) ∧
      (∀ y < bound, {x | belowTurn bound x = some y}.ncard = 2 ^ 32 / bound.toNat) ∧
      ∀ fuel r y r', kpRngBelow bound fuel r = some (y, r') ↔ ∃ n < fuel,
        (∀ k < n, belowTurn bound (kpRngU32 (drawn k r)).1 = none) ∧
          belowTurn bound (kpRngU32 (drawn n r)).1 = some y ∧ r' = drawn (n + 1) r) ∧
    ∀ n, drawn n (kpRngSeed seed) ≠ .zero :=
  ⟨fun h => ⟨ncard_accepted h, fun _ _ => belowTurn_lt h, fun _ => ncard_belowTurn h,
    fun _ _ _ _ => kpRngBelow_eq_some_iff h⟩, drawn_ne_zero seed⟩

theorem rng_uniform_six : {x | (belowTurn 6 x).isSome}.ncard = 6 * 715827882 ∧
    {x | belowTurn 6 x = some 5}.ncard = 715827882 := by
  obtain ⟨haccepted, -, heach, -⟩ := (rng_uniform 1 6).1 (by decide)
  exact ⟨haccepted, heach 5 (by decide)⟩

end Skjegg.Runtime
