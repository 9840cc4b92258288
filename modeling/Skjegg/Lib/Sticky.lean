import Mathlib.Tactic
import Mathlib.Data.Rat.Floor

/-!
# Sticky bits

`GridAgree g x y` says that `x` and `y` compare alike with every multiple of `g`, which is all that a
later rounding needs. Dividing with a sticky bit (`stickyDiv`) keeps the comparison with every even
number.
-/

namespace Skjegg.Lib

/-- `x` and `y` lie alike with respect to every multiple of `g`. -/
def GridAgree (g x y : ℚ) : Prop := ∀ k : ℤ, (x < g * k ↔ y < g * k) ∧ (g * k < x ↔ g * k < y)

namespace GridAgree

variable {g x y z : ℚ}

theorem refl (g x : ℚ) : GridAgree g x x := fun _ => ⟨Iff.rfl, Iff.rfl⟩

theorem trans (hxy : GridAgree g x y) (hyz : GridAgree g y z) : GridAgree g x z := fun k =>
  ⟨(hxy k).1.trans (hyz k).1, (hxy k).2.trans (hyz k).2⟩

variable (h : GridAgree g x y)

include h

theorem eq_iff (k : ℤ) : x = g * k ↔ y = g * k := by
  have hlt := (h k).1
  have hgt := (h k).2
  rw [eq_iff_le_not_lt, eq_iff_le_not_lt, ← not_lt, ← not_lt, hlt, hgt]

theorem ge_iff (k : ℤ) : g * k ≤ x ↔ g * k ≤ y := by
  rw [← not_lt, ← not_lt, (h k).1]

theorem coarsen (n : ℤ) : GridAgree (g * n) x y := fun k => by
  have hk := h (n * k)
  push_cast at hk
  rwa [← mul_assoc] at hk

theorem scale {c : ℚ} (hc : 0 < c) : GridAgree (c * g) (c * x) (c * y) :=
  fun k => by
  simp only [mul_assoc, mul_lt_mul_iff_right₀ hc]
  exact h k

theorem const_add (c : ℤ) : GridAgree g (g * c + x) (g * c + y) := fun k => by
  have hk := h (k - c)
  push_cast at hk
  rw [mul_sub] at hk
  constructor
  · rw [← lt_sub_iff_add_lt', ← lt_sub_iff_add_lt']
    exact hk.1
  · rw [← sub_lt_iff_lt_add', ← sub_lt_iff_lt_add']
    exact hk.2

theorem const_sub (c : ℤ) : GridAgree g (g * c - x) (g * c - y) :=
  fun k => by
  have hk := h (c - k)
  push_cast at hk
  rw [mul_sub] at hk
  constructor
  · rw [sub_lt_comm]
    exact hk.2.trans sub_lt_comm
  · rw [lt_sub_comm]
    exact hk.1.trans lt_sub_comm

end GridAgree

def stickyDiv (n d : ℕ) : ℕ := n / d ||| (if n % d = 0 then 0 else 1)

theorem or_one (n : ℕ) : n ||| 1 = n / 2 * 2 + 1 := by
  have hdiv : (n ||| 1) / 2 = n / 2 := by rw [Nat.or_div_two]; simp
  have hmod : (n ||| 1) % 2 = 1 := by rw [Nat.or_mod_two_eq_one]; simp
  omega

theorem stickyDiv_eq (n d : ℕ) : stickyDiv n d = if n % d = 0 then n / d else n / d / 2 * 2 + 1 := by
  unfold stickyDiv
  split
  · exact Nat.or_zero _
  · exact or_one _

theorem div_le_stickyDiv (n d : ℕ) : n / d ≤ stickyDiv n d := by
  rw [stickyDiv_eq]
  split <;> omega

theorem stickyDiv_lt {n d k : ℕ} (h : n / d < 2 ^ (k + 1)) : stickyDiv n d < 2 ^ (k + 1) := by
  rw [stickyDiv_eq]
  split <;> omega

theorem stickyDiv_one (n : ℕ) : stickyDiv n 1 = n := by
  simp [stickyDiv_eq, Nat.mod_one]

theorem stickyDiv_of_lt {n d : ℕ} (h : n < d) : stickyDiv n d = if n = 0 then 0 else 1 := by
  rw [stickyDiv_eq, Nat.div_eq_of_lt h, Nat.mod_eq_of_lt h]

theorem stickyDiv_mul_add (c n : ℕ) {d : ℕ} (hd : 0 < d) :
    stickyDiv (2 * c * d + n) d = 2 * c + stickyDiv n d := by
  have hdiv : (2 * c * d + n) / d = 2 * c + n / d := by
    rw [add_comm, Nat.add_mul_div_right _ _ hd, add_comm]
  rw [stickyDiv_eq, stickyDiv_eq, hdiv, Nat.mul_add_mod']
  split <;> omega

theorem gridAgree_stickyDiv (n : ℕ) {d : ℕ} (hd : 0 < d) :
    GridAgree 2 ((n : ℚ) / d) (stickyDiv n d : ℕ) := by
  intro k
  have hdq : (0 : ℚ) < d := by exact_mod_cast hd
  have hdiv : (n : ℤ) = d * (n / d : ℕ) + (n % d : ℕ) := by exact_mod_cast (Nat.div_add_mod n d).symm
  have hmod : (n % d : ℕ) < (d : ℤ) := by exact_mod_cast Nat.mod_lt n hd
  have hlt : (n : ℚ) / d < 2 * k ↔ (n : ℤ) < 2 * k * d := by
    rw [div_lt_iff₀ hdq]
    exact_mod_cast Iff.rfl
  have hgt : 2 * (k : ℚ) < (n : ℚ) / d ↔ 2 * k * d < (n : ℤ) := by
    rw [lt_div_iff₀ hdq]
    exact_mod_cast Iff.rfl
  rw [hlt, hgt, stickyDiv_eq]
  generalize n / d = q at *
  generalize n % d = r at *
  -- compare the quotients: the remainder decides only where the quotient is the even number
  have hlt' : (n : ℤ) < 2 * k * d ↔ (q : ℤ) < 2 * k := by
    constructor
    · intro h
      nlinarith
    · intro h
      nlinarith
  have hgt' : 2 * k * d < (n : ℤ) ↔ 2 * k < (q : ℤ) ∨ (2 * k = (q : ℤ) ∧ r ≠ 0) := by
    constructor
    · intro h
      by_contra hq
      rcases lt_trichotomy _ (q : ℤ) with hk | hk | hk
      · exact hq (Or.inl hk)
      · have hr : r = 0 := by
          by_contra hr
          exact hq (Or.inr ⟨hk, hr⟩)
        rw [hdiv, hk, hr, mul_comm] at h
        simp at h
      · nlinarith
    · rintro (h | ⟨h, hr⟩)
      · nlinarith
      · have hr : (0 : ℤ) < r := by exact_mod_cast pos_of_ne_zero hr
        rw [hdiv, h]
        linarith [mul_comm (q : ℤ) d]
  have hcast : ∀ j : ℕ, ((j : ℚ) < 2 * k ↔ (j : ℤ) < 2 * k) ∧
      (2 * (k : ℚ) < j ↔ 2 * k < (j : ℤ)) := fun j =>
    ⟨by exact_mod_cast Iff.rfl, by exact_mod_cast Iff.rfl⟩
  rw [(hcast _).1, (hcast _).2]
  split <;> omega

theorem GridAgree.stickyShift {x : ℚ} {n k : ℕ} (h : GridAgree 4 x n) (hk : 1 ≤ k) :
    GridAgree 2 (x / 2 ^ k) (stickyDiv n (2 ^ k) : ℕ) := by
  obtain ⟨j, rfl⟩ : ∃ j, k = j + 1 := ⟨k - 1, by omega⟩
  have hsc := (h.scale (c := 1 / 2 ^ (j + 1)) (by positivity)).coarsen (2 ^ j)
  rw [show 1 / 2 ^ (j + 1) * 4 * ((2 ^ j : ℤ) : ℚ) = 2 by push_cast; field_simp; ring,
    one_div_mul_eq_div, one_div_mul_eq_div] at hsc
  have hsticky := gridAgree_stickyDiv n (Nat.two_pow_pos (j + 1))
  push_cast at hsticky
  exact hsc.trans hsticky

theorem GridAgree.four {x y : ℚ} (h : GridAgree 2 x y) : GridAgree 4 x y := by
  have h4 := h.coarsen 2
  rwa [show (2 : ℚ) * ((2 : ℤ) : ℚ) = 4 by norm_num] at h4

end Skjegg.Lib
