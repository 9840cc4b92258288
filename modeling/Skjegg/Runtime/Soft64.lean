import Skjegg.Lib.Words

/-!
# 64-bit arithmetic from 32-bit limbs

The multiply and divide helpers of `runtime/soft64.c`.  A signed argument or result is its pattern:
the conversions between `u64` and `s64` keep the bits, and the negation of the least integer wraps as the
targets' instructions do.
-/

namespace Skjegg.Runtime

open Skjegg.Lib BitVec

/-- The wide product of two words, from four products of 16-bit limbs. -/
def mul32x32 (a b : U32) : U64 :=
  let a0 := a &&& 0xFFFF#32
  let a1 := a >>> 16
  let b0 := b &&& 0xFFFF#32
  let b1 := b >>> 16
  let p00 := a0 * b0
  let p01 := a0 * b1
  let p10 := a1 * b0
  let p11 := a1 * b1
  let mid := p01 + p10
  let hi := p11 + (mid >>> 16)
  -- p01 + p10 carried out of 32 bits
  let hi := if mid < p01 then hi + 0x10000#32 else hi
  let lo := p00 + (mid <<< 16)
  let hi := if lo < p00 then hi + 1#32 else hi
  (hi.setWidth 64 <<< 32) ||| lo.setWidth 64

def muldi3 (a b : U64) : U64 :=
  let ah := (a >>> 32).setWidth 32
  let al := a.setWidth 32
  let bh := (b >>> 32).setWidth 32
  let bl := b.setWidth 32
  let r := mul32x32 al bl
  let hi := (r >>> 32).setWidth 32
  -- truncated cross products
  let hi := hi + (al * bh + ah * bl)
  (hi.setWidth 64 <<< 32) ||| (r.setWidth 32).setWidth 64

structure DivLoop where
  (n q r : U64)
  deriving DecidableEq, Repr

/-- One round: shift the next bit of the dividend into the remainder and subtract if it fits. -/
def udivStep (d : U64) (s : DivLoop) : DivLoop :=
  let r := (s.r <<< 1) ||| (s.n >>> 63)
  let n := s.n <<< 1
  let q := s.q <<< 1
  if r ≥ d then { n := n, q := q ||| 1, r := r - d } else { n := n, q := q, r := r }

def udivmod64 (n d : U64) : U64 × U64 :=
  if d = 0 then (0, 0)
  else
    let s := (udivStep d)^[64] { n := n, q := 0, r := 0 }
    (s.q, s.r)

def udivdi3 (n d : U64) : U64 := (udivmod64 n d).1

def umoddi3 (n d : U64) : U64 := (udivmod64 n d).2

def divdi3 (n d : U64) : U64 :=
  let neg := false
  let (un, neg) := if n.slt 0 then (-n, !neg) else (n, neg)
  let (ud, neg) := if d.slt 0 then (-d, !neg) else (d, neg)
  let (q, _) := udivmod64 un ud
  if neg then -q else q

/-- `__moddi3`: the sign follows the dividend. -/
def moddi3 (n d : U64) : U64 :=
  let (un, neg) := if n.slt 0 then (-n, true) else (n, false)
  let ud := if d.slt 0 then -d else d
  let (_, r) := udivmod64 un ud
  if neg then -r else r

/-! ## Multiplication -/

theorem toNat_mul_of_lt {w : Nat} {x y : BitVec w} (h : x.toNat * y.toNat < 2 ^ w) :
    (x * y).toNat = x.toNat * y.toNat := by
  rw [toNat_mul, Nat.mod_eq_of_lt h]

theorem toNat_concat (hi lo : U32) :
    ((hi.setWidth 64 <<< 32) ||| lo.setWidth 64).toNat = hi.toNat * 2 ^ 32 + lo.toNat := by
  have hhi : (hi.setWidth 64).toNat = hi.toNat := by
    rw [toNat_setWidth, Nat.mod_eq_of_lt (by omega)]
  have hlo : (lo.setWidth 64).toNat = lo.toNat := by
    rw [toNat_setWidth, Nat.mod_eq_of_lt (by omega)]
  have hsh : (hi.setWidth 64 <<< 32).toNat = hi.toNat * 2 ^ 32 := by
    rw [toNat_shiftLeft_of_lt (by rw [hhi]; omega), hhi]
  rw [toNat_or_of_lt hsh (by rw [hlo]; exact lo.isLt), hsh, hlo]

theorem mul32x32_carries {p00 p01 p10 p11 : U32} (h00 : p00.toNat ≤ 0xFFFF * 0xFFFF)
    (h01 : p01.toNat ≤ 0xFFFF * 0xFFFF) (h10 : p10.toNat ≤ 0xFFFF * 0xFFFF)
    (h11 : p11.toNat ≤ 0xFFFF * 0xFFFF) {mid hi hi' hi'' lo : U32} (hmid : mid = p01 + p10)
    (hhi : hi = p11 + (mid >>> 16)) (hhi' : hi' = if mid < p01 then hi + 0x10000#32 else hi)
    (hlo : lo = p00 + (mid <<< 16)) (hhi'' : hi'' = if lo < p00 then hi' + 1#32 else hi') :
    hi''.toNat * 2 ^ 32 + lo.toNat = p11.toNat * 2 ^ 32 + (p01.toNat + p10.toNat) * 2 ^ 16 + p00.toNat := by
  have hmid' : mid.toNat = (p01.toNat + p10.toNat) % 2 ^ 32 := by rw [hmid, toNat_add]
  have hhin : hi.toNat = p11.toNat + mid.toNat / 2 ^ 16 := by
    rw [hhi, toNat_add, toNat_ushiftRight, Nat.shiftRight_eq_div_pow, Nat.mod_eq_of_lt (by omega)]
  have hca : mid < p01 ↔ 2 ^ 32 ≤ p01.toNat + p10.toNat := by
    rw [lt_def]
    omega
  have hhin' : hi'.toNat = p11.toNat + (p01.toNat + p10.toNat) / 2 ^ 16 := by
    rw [hhi']
    split
    · rename_i h
      rw [hca] at h
      rw [toNat_add, show (0x10000#32).toNat = 2 ^ 16 from rfl, Nat.mod_eq_of_lt (by omega)]
      omega
    · rename_i h
      rw [hca] at h
      omega
  have hlon : lo.toNat = (p00.toNat + (p01.toNat + p10.toNat) % 2 ^ 16 * 2 ^ 16) % 2 ^ 32 := by
    rw [hlo, toNat_add, toNat_shiftLeft, Nat.shiftLeft_eq]
    omega
  have hca' : lo < p00 ↔ 2 ^ 32 ≤ p00.toNat + (p01.toNat + p10.toNat) % 2 ^ 16 * 2 ^ 16 := by
    rw [lt_def]
    omega
  rw [hhi'']
  split
  · rename_i h
    rw [hca'] at h
    rw [toNat_add, show (1#32).toNat = 1 from rfl, Nat.mod_eq_of_lt (by omega)]
    omega
  · rename_i h
    rw [hca'] at h
    omega

theorem mul32x32_spec (a b : U32) : (mul32x32 a b).toNat = a.toNat * b.toNat := by
  have hlow : ∀ x, (x &&& 0xFFFF#32).toNat = x.toNat % 2 ^ 16 := fun x =>
    toNat_and_lowMask x (k := 16) (by decide)
  have hhigh : ∀ x : U32, (x >>> 16).toNat = x.toNat / 2 ^ 16 := fun x => by
    rw [toNat_ushiftRight, Nat.shiftRight_eq_div_pow]
  have hlim : ∀ x y : U32, x.toNat ≤ 0xFFFF → y.toNat ≤ 0xFFFF →
      (x * y).toNat = x.toNat * y.toNat ∧ (x * y).toNat ≤ 0xFFFF * 0xFFFF := by
    intro x y hx hy
    have h := Nat.mul_le_mul hx hy
    rw [toNat_mul_of_lt (by omega)]
    exact ⟨rfl, h⟩
  have h00 := hlim (a &&& 0xFFFF#32) (b &&& 0xFFFF#32) (by rw [hlow]; omega) (by rw [hlow]; omega)
  have h01 := hlim (a &&& 0xFFFF#32) (b >>> 16) (by rw [hlow]; omega) (by rw [hhigh]; omega)
  have h10 := hlim (a >>> 16) (b &&& 0xFFFF#32) (by rw [hhigh]; omega) (by rw [hlow]; omega)
  have h11 := hlim (a >>> 16) (b >>> 16) (by rw [hhigh]; omega) (by rw [hhigh]; omega)
  unfold mul32x32
  rw [toNat_concat, mul32x32_carries h00.2 h01.2 h10.2 h11.2 rfl rfl rfl rfl rfl, h00.1, h01.1,
    h10.1, h11.1, hlow, hlow, hhigh, hhigh]
  nth_rewrite 5 [← Nat.div_add_mod a.toNat (2 ^ 16)]
  nth_rewrite 5 [← Nat.div_add_mod b.toNat (2 ^ 16)]
  ring

theorem muldi3_spec (a b : U64) : muldi3 a b = a * b := by
  apply eq_of_toNat_eq
  have hset : ∀ x : U64, (x.setWidth 32).toNat = x.toNat % 2 ^ 32 := fun x => toNat_setWidth 32 x
  have hhigh : ∀ x : U64, ((x >>> 32).setWidth 32).toNat = x.toNat / 2 ^ 32 := fun x => by
    rw [hset, toNat_ushiftRight, Nat.shiftRight_eq_div_pow, Nat.mod_eq_of_lt]
    omega
  have hr := mul32x32_spec (a.setWidth 32) (b.setWidth 32)
  unfold muldi3
  rw [toNat_concat, toNat_add, toNat_add, toNat_mul, toNat_mul, hhigh,
    hhigh, hhigh, hset, hset, hset, hr, hset, hset, toNat_mul]
  -- the product of the high halves is a multiple of 2^64
  have hspl : a.toNat * b.toNat = a.toNat / 2 ^ 32 * (b.toNat / 2 ^ 32) * 2 ^ 64 +
      (a.toNat % 2 ^ 32 * (b.toNat / 2 ^ 32) + a.toNat / 2 ^ 32 * (b.toNat % 2 ^ 32)) * 2 ^ 32 +
      a.toNat % 2 ^ 32 * (b.toNat % 2 ^ 32) := by
    nth_rewrite 1 [← Nat.div_add_mod a.toNat (2 ^ 32)]
    nth_rewrite 1 [← Nat.div_add_mod b.toNat (2 ^ 32)]
    ring
  rw [hspl]
  omega

/-! ## Division -/

/-- After `i` rounds: the quotient and remainder of the top `i` bits of the dividend, and the bits
left. -/
structure UDivInv (N d i : Nat) (s : DivLoop) : Prop where
  left : s.n.toNat = N * 2 ^ i % 2 ^ 64
  account : N / 2 ^ (64 - i) = s.q.toNat * d + s.r.toNat
  rem_lt : s.r.toNat < d

theorem UDivInv.bound {N d i : Nat} {s : DivLoop} (h : UDivInv N d i s) (hN : N < 2 ^ 64)
    (hi : i ≤ 64) : s.q.toNat < 2 ^ i ∧ s.r.toNat < 2 ^ i := by
  have htop : N / 2 ^ (64 - i) < 2 ^ i := by
    rw [Nat.div_lt_iff_lt_mul (Nat.two_pow_pos _), ← pow_add, show i + (64 - i) = 64 by omega]
    exact hN
  have hq : s.q.toNat ≤ s.q.toNat * d := Nat.le_mul_of_pos_right _ (by have := h.rem_lt; omega)
  have hacc := h.account
  omega

theorem udivStep_inv {N i : Nat} {d : U64} {s : DivLoop} (hN : N < 2 ^ 64) (hi : i < 64)
    (h : UDivInv N d.toNat i s) : UDivInv N d.toNat (i + 1) (udivStep d s) := by
  obtain ⟨hq, hr⟩ := h.bound hN hi.le
  have hpow : 2 ^ i ≤ 2 ^ 63 := Nat.pow_le_pow_right (by decide) (by omega)
  have hlf := h.left
  have hlt := h.rem_lt
  -- the bit shifted out of the dividend
  have hbit : (s.n >>> 63).toNat = N / 2 ^ (63 - i) % 2 := by
    have hN2 : N * 2 ^ i % 2 ^ 64 / 2 ^ 63 = N * 2 ^ i / 2 ^ 63 % 2 := by omega
    rw [toNat_ushiftRight, Nat.shiftRight_eq_div_pow, hlf, hN2,
      show 2 ^ 63 = 2 ^ (63 - i) * 2 ^ i by rw [← pow_add, Nat.sub_add_cancel (by omega)],
      Nat.mul_div_mul_right _ _ (Nat.two_pow_pos i)]
  have hnx : N / 2 ^ (63 - i) = 2 * (N / 2 ^ (64 - i)) + N / 2 ^ (63 - i) % 2 := by
    rw [show 64 - i = 63 - i + 1 by omega, pow_succ, ← Nat.div_div_eq_div_mul]
    omega
  have hshl : (s.r <<< 1).toNat = s.r.toNat * 2 ^ 1 := toNat_shiftLeft_of_lt (by omega)
  have hr' : (s.r <<< 1 ||| s.n >>> 63).toNat = 2 * s.r.toNat + N / 2 ^ (63 - i) % 2 := by
    rw [toNat_or_of_lt hshl (by rw [hbit]; omega), hshl, hbit]
    omega
  have hq' : (s.q <<< 1).toNat = s.q.toNat * 2 ^ 1 := toNat_shiftLeft_of_lt (by omega)
  have hn' : (s.n <<< 1).toNat = N * 2 ^ (i + 1) % 2 ^ 64 := by
    rw [toNat_shiftLeft, Nat.shiftLeft_eq, hlf, Nat.mod_mul_mod, mul_assoc, ← pow_add]
  have hacc : N / 2 ^ (64 - (i + 1)) =
      2 * (s.q.toNat * d.toNat) + (2 * s.r.toNat + N / 2 ^ (63 - i) % 2) := by
    rw [show 64 - (i + 1) = 63 - i by omega, hnx, h.account]
    omega
  unfold udivStep
  simp only
  split
  · rename_i hge
    rw [ge_iff_le, le_def, hr'] at hge
    have hsub : ((s.r <<< 1 ||| s.n >>> 63) - d).toNat =
        2 * s.r.toNat + N / 2 ^ (63 - i) % 2 - d.toNat := by
      rw [toNat_sub_of_le (by rw [le_def, hr']; exact hge), hr']
    have hor : (s.q <<< 1 ||| 1).toNat = 2 * s.q.toNat + 1 := by
      rw [toNat_or_of_lt hq' (by decide), hq', show (1 : U64).toNat = 1 from rfl]
      omega
    refine ⟨hn', ?_, ?_⟩
    · rw [hacc, hor, hsub, Nat.add_mul, mul_assoc]
      omega
    · rw [hsub]
      omega
  · rename_i hge
    rw [ge_iff_le, le_def, hr'] at hge
    refine ⟨hn', ?_, ?_⟩
    · rw [hacc, hq', hr']
      ring
    · rw [hr']
      omega

variable {n d : U64}

theorem udivLoop_inv (hd : 0 < d.toNat) (i : Nat) (hi : i ≤ 64) :
    UDivInv n.toNat d.toNat i ((udivStep d)^[i] { n := n, q := 0, r := 0 }) := by
  induction i with
  | zero =>
    refine ⟨?_, ?_, hd⟩
    · simp [Nat.mod_eq_of_lt n.isLt]
    · simp [Nat.div_eq_of_lt n.isLt]
  | succ i ih =>
    rw [Function.iterate_succ_apply']
    exact udivStep_inv n.isLt (by omega) (ih (by omega))

theorem udivmod64_spec (hd : d ≠ 0) :
    (udivmod64 n d).1.toNat = n.toNat / d.toNat ∧ (udivmod64 n d).2.toNat = n.toNat % d.toNat := by
  have hpos : 0 < d.toNat := pos_of_ne_zero fun h => hd (eq_of_toNat_eq (by simpa using h))
  obtain ⟨-, hacc, hlt⟩ := udivLoop_inv (n := n) hpos 64 le_rfl
  rw [Nat.sub_self, pow_zero, Nat.div_one] at hacc
  unfold udivmod64
  rw [if_neg hd]
  rw [hacc, add_comm, Nat.add_mul_div_right _ _ hpos, Nat.div_eq_of_lt hlt, zero_add,
    Nat.add_mul_mod_self_right, Nat.mod_eq_of_lt hlt]
  exact ⟨rfl, rfl⟩

/-! ## Signed division -/

def magnitude (x : U64) : U64 := if x.slt 0 then -x else x

theorem toNat_magnitude (x : U64) : (magnitude x).toNat = x.toInt.natAbs := toNat_ite_neg x

theorem magnitude_ne_zero {x : U64} (hx : x ≠ 0) : magnitude x ≠ 0 := by
  intro h
  have habs := toNat_magnitude x
  rw [h] at habs
  have hz : x.toInt = 0 := Int.natAbs_eq_zero.mp habs.symm
  exact hx (eq_of_toInt_eq (by rw [hz]; rfl))

theorem toInt_eq_magnitude (x : U64) :
    x.toInt = if x.slt 0 then -((magnitude x).toNat : Int) else (magnitude x).toNat := by
  rw [toNat_magnitude]
  exact toInt_eq_natAbs x

theorem divdi3_eq (n d : U64) :
    divdi3 n d = if n.slt 0 ^^ d.slt 0 then -(udivmod64 (magnitude n) (magnitude d)).1
      else (udivmod64 (magnitude n) (magnitude d)).1 := by
  unfold divdi3 magnitude
  cases n.slt 0 <;> cases d.slt 0 <;> rfl

theorem moddi3_eq (n d : U64) : moddi3 n d = if n.slt 0 then -(udivmod64 (magnitude n) (magnitude d)).2
      else (udivmod64 (magnitude n) (magnitude d)).2 := by
  unfold moddi3 magnitude
  cases n.slt 0 <;> cases d.slt 0 <;> rfl

theorem divdi3_spec (hd : d ≠ 0) : divdi3 n d = BitVec.ofInt 64 (n.toInt.tdiv d.toInt) := by
  have hq := eq_ofInt_of_toNat (udivmod64_spec (n := magnitude n) (magnitude_ne_zero hd)).1
  rw [divdi3_eq, toInt_eq_magnitude n, toInt_eq_magnitude d, hq, Int.ofNat_tdiv]
  -- truncation toward zero divides the magnitudes and multiplies the signs
  cases n.slt 0 <;> cases d.slt 0 <;> simp [Int.tdiv_neg, Int.neg_tdiv, ofInt_neg]

theorem moddi3_spec (hd : d ≠ 0) : moddi3 n d = BitVec.ofInt 64 (n.toInt.tmod d.toInt) := by
  have hr := eq_ofInt_of_toNat (udivmod64_spec (n := magnitude n) (magnitude_ne_zero hd)).2
  rw [moddi3_eq, toInt_eq_magnitude n, toInt_eq_magnitude d, hr, Int.ofNat_tmod]
  cases n.slt 0 <;> cases d.slt 0 <;> simp [Int.tmod_neg, Int.neg_tmod, ofInt_neg]

theorem toInt_moddi3 (hd : d ≠ 0) :
    (moddi3 n d).toInt = n.toInt.tmod d.toInt ∧ |(moddi3 n d).toInt| < |d.toInt| := by
  have hd0 : d.toInt ≠ 0 := fun h => hd (eq_of_toInt_eq (by rw [h]; rfl))
  have hlt : |n.toInt.tmod d.toInt| < |d.toInt| := by
    rw [Int.abs_eq_natAbs, Int.abs_eq_natAbs, Int.natAbs_tmod]
    exact_mod_cast Nat.mod_lt _ (Int.natAbs_pos.mpr hd0)
  have hlo := le_toInt d
  have hhi := toInt_lt (x := d)
  have heq : (moddi3 n d).toInt = n.toInt.tmod d.toInt := by
    rw [moddi3_spec hd, toInt_ofInt]
    rw [abs_lt] at hlt
    rcases abs_cases d.toInt with ⟨habs, -⟩ | ⟨habs, -⟩ <;> rw [habs] at hlt <;>
      exact Int.bmod_eq_of_le (by omega) (by omega)
  rw [heq]
  exact ⟨rfl, hlt⟩

/-- The 64-bit helpers compute the product modulo `2^64`, the unsigned quotient and remainder, zero
for a zero divisor, and the signed quotient toward zero and remainder, modulo `2^64`. -/
theorem soft64_correct (n d : U64) :
    (muldi3 n d).toNat = n.toNat * d.toNat % 2 ^ 64 ∧ (d ≠ 0 → (udivdi3 n d).toNat = n.toNat / d.toNat ∧
        (umoddi3 n d).toNat = n.toNat % d.toNat) ∧
      (d = 0 → udivdi3 n d = 0 ∧ umoddi3 n d = 0) ∧
      (d ≠ 0 → divdi3 n d = BitVec.ofInt 64 (n.toInt.tdiv d.toInt) ∧
        (moddi3 n d).toInt = n.toInt.tmod d.toInt ∧
        n = divdi3 n d * d + moddi3 n d ∧ |(moddi3 n d).toInt| < |d.toInt|) := by
  refine ⟨?_, udivmod64_spec, ?_, ?_⟩
  · rw [muldi3_spec, toNat_mul]
  · rintro rfl
    exact ⟨rfl, rfl⟩
  intro hd
  obtain ⟨hmod, hlt⟩ := toInt_moddi3 hd
  refine ⟨divdi3_spec hd, hmod, ?_, hlt⟩
  calc n = BitVec.ofInt 64 n.toInt := (ofInt_toInt).symm
    _ = BitVec.ofInt 64 (n.toInt.tdiv d.toInt * d.toInt + n.toInt.tmod d.toInt) := by
        rw [Int.tdiv_mul_add_tmod]
    _ = divdi3 n d * d + moddi3 n d := by
        rw [ofInt_add, ofInt_mul, ofInt_toInt, divdi3_spec hd, moddi3_spec hd]

theorem soft64_correct_least :
    (-1 : U64) ≠ 0 ∧ divdi3 (BitVec.intMin 64) (-1) = BitVec.ofInt 64 (2 ^ 63) := by
  have hd : (-1 : U64) ≠ 0 := by decide
  obtain ⟨hdiv, -⟩ := (soft64_correct _ _).2.2.2 hd
  exact ⟨hd, hdiv.trans (by decide)⟩

end Skjegg.Runtime
