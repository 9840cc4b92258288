import Mathlib.Data.List.Range
import Mathlib.Logic.Equiv.Basic
import Mathlib.Tactic

/-!
# Sorting and searching by a comparison function

A sequence is a function from positions to values. Here is what a sort by swaps and a search by
halves rest on.
-/

namespace Skjegg.Lib

open List

variable {α : Type}

/-- A comparison by the sign of an integer that orders its arguments: a total preorder. -/
structure TotalPreorder (cmp : α → α → Int) : Prop where
  swap_neg : ∀ x y, cmp x y < 0 ↔ 0 < cmp y x
  trans : ∀ x y z, cmp x y ≤ 0 → cmp y z ≤ 0 → cmp x z ≤ 0

namespace TotalPreorder

variable {cmp : α → α → Int} {x y z : α}

variable (h : TotalPreorder cmp)

include h

theorem le_of_gt (hgt : 0 < cmp x y) : cmp y x ≤ 0 := Int.le_of_lt ((h.swap_neg y x).mpr hgt)

theorem refl (x : α) : cmp x x ≤ 0 := by
  have := h.swap_neg x x
  omega

theorem lt_of_lt_of_le (hxy : cmp x y < 0) (hyz : cmp y z ≤ 0) : cmp x z < 0 := by
  by_contra hge
  have hzx : cmp z x ≤ 0 := by
    have := h.swap_neg x z
    omega
  have hyx := h.trans y z x hyz hzx
  have := (h.swap_neg x y).mp hxy
  omega

theorem gt_of_le_of_gt (hyz : cmp y z ≤ 0) (hxz : 0 < cmp x z) : 0 < cmp x y := by
  by_contra hle
  have := h.trans x y z (Int.not_lt.mp hle) hyz
  omega

end TotalPreorder

/-! ## Arrays as sequences -/

def firstN (n : Nat) (a : Nat → α) : List α := (range n).map a

theorem firstN_congr {n : Nat} {a a' : Nat → α} (h : ∀ k < n, a k = a' k) : firstN n a = firstN n a' :=
  map_congr_left fun k hk => h k (mem_range.mp hk)

theorem firstN_swap_perm {n i j : Nat} (a : Nat → α) (hi : i < n) (hj : j < n) :
    (firstN n fun k => a (Equiv.swap i j k)).Perm (firstN n a) := by
  have hlt : ∀ k, k < n → Equiv.swap i j k < n := by
    intro k hk
    rw [Equiv.swap_apply_def]
    split
    · exact hj
    · split <;> assumption
  have hpm : ((range n).map (Equiv.swap i j)).Perm (range n) := by
    apply (perm_ext_iff_of_nodup ?_ nodup_range).mpr
    · intro k
      simp only [mem_map, mem_range]
      constructor
      · rintro ⟨l, hl, rfl⟩
        exact hlt l hl
      · intro hk
        exact ⟨Equiv.swap i j k, hlt k hk, Equiv.swap_apply_self i j k⟩
    · exact (nodup_map_iff (Equiv.swap i j).injective).mpr nodup_range
  simpa only [firstN, map_map, Function.comp_def] using hpm.map a

section Order

variable (cmp : α → α → Int)

/-- The first `n` values stand in nondecreasing order. -/
def SortedBelow (a : Nat → α) (n : Nat) : Prop := ∀ p q, p < q → q < n → cmp (a p) (a q) ≤ 0

/-- The values up to `i` stand in order, but for the one at `j`, which may be less than values in
front of it. -/
def Sinking (a : Nat → α) (i j : Nat) : Prop := ∀ p q, p < q → q ≤ i → q ≠ j → cmp (a p) (a q) ≤ 0

variable {cmp} {a a' : Nat → α} {i j n : Nat}

theorem sortedBelow_iff_pairwise : SortedBelow cmp a n ↔ (firstN n a).Pairwise (cmp · · ≤ 0) := by
  unfold firstN
  rw [pairwise_map, pairwise_iff_getElem]
  simp only [length_range, getElem_range]
  constructor
  · intro h p q _ hq hpq
    exact h p q hpq hq
  · intro h p q hpq hq
    exact h p q (by omega) hq hpq

/-! ## Insertion by swaps -/

theorem Sinking.start (h : SortedBelow cmp a i) : Sinking cmp a i i :=
  fun p q hpq hq hne => h p q hpq (by omega)

theorem Sinking.step (hcmp : TotalPreorder cmp) (h : Sinking cmp a i (j + 1)) (hj : j < i)
    (hgt : 0 < cmp (a j) (a (j + 1))) : Sinking cmp (fun k => a (Equiv.swap j (j + 1) k)) i j := by
  intro p q hpq hq hne
  have hbk : Equiv.swap j _ (j + 1) = j := Equiv.swap_apply_right ..
  have hfro : Equiv.swap j (j + 1) j = j + 1 := Equiv.swap_apply_left ..
  have hrs : ∀ k, k ≠ j → k ≠ j + 1 → Equiv.swap j (j + 1) k = k := fun k =>
    Equiv.swap_apply_of_ne_of_ne
  show cmp (a (Equiv.swap j (j + 1) p)) (a (Equiv.swap j (j + 1) q)) ≤ 0
  -- the only new pair is the swapped one; every other pair with its later element at `q` is an old one
  by_cases hqj : q = j + 1
  · subst hqj
    rw [hbk]
    by_cases hpj : p = j
    · rw [hpj, hfro]
      exact hcmp.le_of_gt hgt
    · rw [hrs p hpj (by omega)]
      exact h p j (by omega) (by omega) (by omega)
  rw [hrs q hne hqj]
  by_cases hpj : p = j
  · rw [hpj, hfro]
    exact h _ q (by omega) hq hqj
  by_cases hpj' : p = j + 1
  · rw [hpj', hbk]
    exact h j q (by omega) hq hqj
  · rw [hrs p hpj hpj']
    exact h p q hpq hq hqj

theorem Sinking.stop_zero (h : Sinking cmp a i 0) : SortedBelow cmp a (i + 1) :=
  fun p q hpq hq => h p q hpq (by omega) (by omega)

variable (hcmp : TotalPreorder cmp)

include hcmp

theorem Sinking.stop_le (h : Sinking cmp a i (j + 1)) (hj : j < i)
    (hle : cmp (a j) (a (j + 1)) ≤ 0) : SortedBelow cmp a (i + 1) := by
  intro p q hpq hq
  by_cases hqj : q = j + 1
  · subst hqj
    by_cases hpj : p = j
    · rw [hpj]
      exact hle
    · exact hcmp.trans _ _ _ (h p j (by omega) (by omega) (by omega)) hle
  · exact h p q hpq (by omega) hqj

/-! ## Search by halves -/

theorem SortedBelow.le (h : SortedBelow cmp a n) {p q : Nat}
    (hpq : p ≤ q) (hq : q < n) : cmp (a p) (a q) ≤ 0 := by
  rcases Nat.eq_or_lt_of_le hpq with rfl | hlt
  · exact hcmp.refl _
  · exact h p q hlt hq

theorem SortedBelow.lt_above (h : SortedBelow cmp a n) {key : α}
    {p q : Nat} (hlt : cmp key (a p) < 0) (hpq : p ≤ q) (hq : q < n) : cmp key (a q) < 0 :=
  hcmp.lt_of_lt_of_le hlt (h.le hcmp hpq hq)

theorem SortedBelow.gt_below (h : SortedBelow cmp a n) {key : α}
    {p q : Nat} (hgt : 0 < cmp key (a q)) (hpq : p ≤ q) (hq : q < n) : 0 < cmp key (a p) :=
  hcmp.gt_of_le_of_gt (h.le hcmp hpq hq) hgt

end Order

end Skjegg.Lib
