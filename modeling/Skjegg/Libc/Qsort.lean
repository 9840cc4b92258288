import Skjegg.Lib.Memory
import Skjegg.Lib.Sorting

/-!
# `qsort` and `bsearch` of the C library

An array is `n` elements of `size` bytes from `b` on. `qsort` is a Shellsort with the gaps ..., 13,
4, 1; only the last pass has to leave the array in order. No address or index wraps: they stay below
the end of the array.
-/

namespace Skjegg.Libc

open Skjegg.Lib Function

/-- The comparison function, on the bytes of two elements. -/
abbrev Compare := List UInt8 → List UInt8 → Int

def element (m : Mem) (b size i : Nat) : List UInt8 := m.read (b + i * size) size

def swapBytes (m : Mem) (a b : Nat) : Nat → Mem
  | 0 => m
  | size + 1 =>
    let t := m a
    let m := update m a (m b)
    let m := update m b t
    swapBytes m (a + 1) (b + 1) size

section Loops

variable (cmp : Compare) (b n size : Nat)

/-- The inner loop: element `j` sinks towards the front in steps of the gap. -/
def sink (gap : Nat) (hgap : 0 < gap) (m : Mem) (j : Nat) : Mem :=
  if gap ≤ j ∧ 0 < cmp (element m b size (j - gap)) (element m b size j) then
    sink gap hgap (swapBytes m (b + (j - gap) * size) (b + j * size) size) (j - gap)
  else
    m
termination_by j

def gapPass (gap : Nat) (hgap : 0 < gap) (m : Mem) (i : Nat) : Mem :=
  if i < n then gapPass gap hgap (sink cmp b size gap hgap m i) (i + 1) else m
termination_by n - i

def gapPasses (m : Mem) (gap : Nat) : Mem :=
  if hgap : 0 < gap then gapPasses (gapPass cmp b n size gap hgap m gap) (gap / 3) else m
termination_by gap

def growGap (n gap : Nat) : Nat :=
  if gap < n / 3 then growGap n (gap * 3 + 1) else gap
termination_by n / 3 - gap

def qsort (m : Mem) : Mem :=
  if n < 2 ∨ size = 0 then m else gapPasses cmp b n size m (growGap n 1)

/-- `while (lo < hi)`: the address of an element equal to the key, or `NULL`. -/
def bsearchLoop (m : Mem) (key : Nat) (lo hi : Nat) : Option Nat :=
  if lo < hi then
    let mid := lo + (hi - lo) / 2
    let p := b + mid * size
    let c := cmp (m.read key size) (m.read p size)
    if c < 0 then bsearchLoop m key lo mid
    else if 0 < c then bsearchLoop m key (mid + 1) hi else some p
  else
    none
termination_by hi - lo

def bsearch (m : Mem) (key : Nat) : Option Nat := bsearchLoop cmp b size m key 0 n

end Loops

/-! ## Swapping two elements -/

variable {cmp : Compare} {m m' : Mem} {b n size gap : Nat}

theorem swapBytes_outside {a c x : Nat} (ha : x < a ∨ a + size ≤ x) (hc : x < c ∨ c + size ≤ x) :
    swapBytes m a c size x = m x := by
  induction size generalizing m a c with
  | zero => rfl
  | succ size ih =>
    rw [swapBytes, ih (by omega) (by omega), update_of_ne (by omega), update_of_ne (by omega)]

theorem swapBytes_inside {a c k : Nat} (hap : a + size ≤ c) (hk : k < size) :
    swapBytes m a c size (a + k) = m (c + k) ∧ swapBytes m a c size (c + k) = m (a + k) := by
  induction size generalizing m a c k with
  | zero => omega
  | succ size ih =>
    rw [swapBytes]
    cases k with
    | zero =>
      constructor
      · rw [swapBytes_outside (by omega) (by omega), update_of_ne (by omega)]
        exact update_self ..
      · rw [swapBytes_outside (by omega) (by omega)]
        exact update_self ..
    | succ k =>
      have hnx := @ih (update (update m a (m c)) c (m a)) (a + 1) (c + 1) k (by omega) (by omega)
      rw [show a + (k + 1) = a + 1 + k by omega, show c + (k + 1) = c + 1 + k by omega]
      rw [hnx.1, hnx.2, update_of_ne (by omega), update_of_ne (by omega),
        update_of_ne (by omega), update_of_ne (by omega)]
      exact ⟨rfl, rfl⟩

variable {i j : Nat}

theorem element_congr (h : ∀ k < size, m' (b + i * size + k) = m (b + j * size + k)) :
    element m' b size i = element m b size j := by
  apply List.map_congr_left
  intro k hk
  exact h k (List.mem_range.mp hk)

theorem element_end_le (b size : Nat) (h : i < j) : b + i * size + size ≤ b + j * size := by
  have : (i + 1) * size ≤ j * size := Nat.mul_le_mul_right _ h
  rw [Nat.succ_mul] at this
  omega

theorem element_swapBytes (h : i < j) (k : Nat) :
    element (swapBytes m (b + i * size) (b + j * size) size) b size k =
      element m b size (Equiv.swap i j k) := by
  have hap := element_end_le b size h
  rw [Equiv.swap_apply_def]
  apply element_congr
  intro x hx
  by_cases hki : k = i
  · rw [if_pos hki, hki]
    exact (swapBytes_inside hap hx).1
  rw [if_neg hki]
  by_cases hkj : k = j
  · rw [if_pos hkj, hkj]
    exact (swapBytes_inside hap hx).2
  rw [if_neg hkj]
  apply swapBytes_outside
  · rcases lt_or_gt_of_ne hki with hlt | hlt
    · have := element_end_le b size hlt
      omega
    · have := element_end_le b size hlt
      omega
  · rcases lt_or_gt_of_ne hkj with hlt | hlt
    · have := element_end_le b size hlt
      omega
    · have := element_end_le b size hlt
      omega

/-! ## Every pass rearranges the array -/

/-- `m'` holds the elements of `m` in another order, and the same bytes elsewhere. -/
structure Rearranged (b n size : Nat) (m m' : Mem) : Prop where
  perm : (firstN n (element m' b size)).Perm (firstN n (element m b size))
  outside : ∀ x, x < b ∨ b + n * size ≤ x → m' x = m x

namespace Rearranged

theorem refl (m : Mem) : Rearranged b n size m m := ⟨List.Perm.refl _, fun _ _ => rfl⟩

theorem trans {m'' : Mem} (h : Rearranged b n size m m') (h' : Rearranged b n size m' m'') :
    Rearranged b n size m m'' :=
  ⟨h'.perm.trans h.perm, fun x hx => (h'.outside x hx).trans (h.outside x hx)⟩

theorem swap (hij : i < j) (hj : j < n) :
    Rearranged b n size m (swapBytes m (b + i * size) (b + j * size) size) := by
  constructor
  · rw [firstN_congr fun k _ => element_swapBytes hij k]
    exact firstN_swap_perm _ (hij.trans hj) hj
  intro x hx
  have hend := element_end_le b size hj
  have hi := element_end_le b size hij
  apply swapBytes_outside <;> omega

theorem sink {hgap : 0 < gap} {j : Nat} (hj : j < n) :
    Rearranged b n size m (Libc.sink cmp b size gap hgap m j) := by
  induction j using Nat.strong_induction_on generalizing m with
  | _ j ih =>
    rw [Libc.sink]
    split
    next h => exact (swap (by omega) hj).trans (ih _ (by omega) (by omega))
    next => exact refl m

theorem gapPass {hgap : 0 < gap} (i : Nat) :
    Rearranged b n size m (Libc.gapPass cmp b n size gap hgap m i) := by
  induction hd : n - i generalizing m i with
  | zero =>
    rw [Libc.gapPass, if_neg (by omega)]
    exact refl m
  | succ d ih =>
    have hi : i < n := by omega
    rw [Libc.gapPass, if_pos hi]
    exact (sink hi).trans (ih _ (by omega))

end Rearranged

/-! ## The last pass sorts -/

inductive KnuthGap : Nat → Prop
  | one : KnuthGap 1
  | next {gap : Nat} : KnuthGap gap → KnuthGap (gap * 3 + 1)

theorem knuthGap_growGap (h : KnuthGap gap) : KnuthGap (growGap n gap) := by
  induction hd : n / 3 - gap using Nat.strong_induction_on generalizing gap with
  | _ d ih =>
    rw [growGap]
    split
    · exact ih _ (by omega) (.next h) rfl
    · exact h

section

variable (hcmp : TotalPreorder cmp)

include hcmp

theorem sortedBelow_sink (hj : j ≤ i) (h : Sinking cmp (element m b size) i j) :
    SortedBelow cmp (element (sink cmp b size 1 Nat.one_pos m j) b size) (i + 1) := by
  induction j generalizing m with
  | zero =>
    rw [sink, if_neg (by omega)]
    exact h.stop_zero
  | succ j ih =>
    rw [sink, Nat.add_sub_cancel]
    by_cases hgt : 0 < cmp (element m b size j) (element m b size (j + 1))
    · rw [if_pos ⟨by omega, hgt⟩]
      apply ih (by omega)
      rw [funext (element_swapBytes (Nat.lt_succ_self j))]
      exact h.step hcmp hj hgt
    · rw [if_neg fun hand => hgt hand.2]
      exact h.stop_le hcmp hj (not_lt.mp hgt)

theorem sortedBelow_gapPass {i : Nat} (hi : i ≤ n) (h : SortedBelow cmp (element m b size) i) :
    SortedBelow cmp (element (gapPass cmp b n size 1 Nat.one_pos m i) b size) n := by
  induction hd : n - i generalizing m i with
  | zero =>
    rw [gapPass, if_neg (by omega), show n = i by omega]
    exact h
  | succ d ih =>
    rw [gapPass, if_pos (by omega)]
    exact ih (by omega) (sortedBelow_sink hcmp (le_refl i) (.start h)) (by omega)

theorem gapPasses_spec (hn : 0 < n) (hgap : KnuthGap gap) :
    Rearranged b n size m (gapPasses cmp b n size m gap) ∧
      SortedBelow cmp (element (gapPasses cmp b n size m gap) b size) n := by
  induction hgap generalizing m with
  | one =>
    -- the next gap is 0, so this pass is the last
    rw [gapPasses, dif_pos one_pos, gapPasses, dif_neg (by decide)]
    exact ⟨.gapPass 1, sortedBelow_gapPass hcmp hn fun p q hpq hq => by omega⟩
  | @next gap _ ih =>
    rw [gapPasses, dif_pos (Nat.succ_pos _), show (gap * 3 + 1) / 3 = gap by omega]
    exact ⟨(Rearranged.gapPass _).trans ih.1, ih.2⟩

theorem qsort_spec : Rearranged b n size m (qsort cmp b n size m) ∧
      SortedBelow cmp (element (qsort cmp b n size m) b size) n := by
  unfold qsort
  split
  next h =>
    refine ⟨.refl m, fun p q hpq hq => ?_⟩
    -- two positions in order, so the elements have no bytes and are the same one
    have hsz : size = 0 := by omega
    subst hsz
    exact hcmp.refl _
  next h => exact gapPasses_spec hcmp (by omega) (knuthGap_growGap .one)

end

/-! ## The search -/

/-- What `bsearch` is to return: an element equal to the key, or nothing when there is none. -/
def Finds (cmp : Compare) (m : Mem) (b n size key : Nat) : Option Nat → Prop
  | some p => ∃ i < n, p = b + i * size ∧ cmp (m.read key size) (element m b size i) = 0
  | none => ∀ i < n, cmp (m.read key size) (element m b size i) ≠ 0

theorem bsearchLoop_spec (hcmp : TotalPreorder cmp) (hsrt : SortedBelow cmp (element m b size) n)
    {key lo hi : Nat} (hhi : hi ≤ n) (hlow : ∀ i < lo, 0 < cmp (m.read key size) (element m b size i))
    (habv : ∀ i < n, hi ≤ i → cmp (m.read key size) (element m b size i) < 0) :
    Finds cmp m b n size key (bsearchLoop cmp b size m key lo hi) := by
  induction hd : hi - lo using Nat.strong_induction_on generalizing lo hi with
  | _ d ih =>
    rw [bsearchLoop]
    by_cases hlt : lo < hi
    · rw [if_pos hlt]
      have hmid : lo + (hi - lo) / 2 < n := by omega
      show Finds cmp m b n size key
        (if cmp (m.read key size) (element m b size (lo + (hi - lo) / 2)) < 0 then _ else
          if 0 < cmp (m.read key size) (element m b size (lo + (hi - lo) / 2)) then _ else _)
      by_cases hneg : cmp (m.read key size) (element m b size (lo + (hi - lo) / 2)) < 0
      · rw [if_pos hneg]
        exact ih _ (by omega) (by omega) hlow (fun i hi' hge => hsrt.lt_above hcmp hneg hge hi') rfl
      rw [if_neg hneg]
      by_cases hpos : 0 < cmp (m.read key size) (element m b size (lo + (hi - lo) / 2))
      · rw [if_pos hpos]
        exact ih _ (by omega) hhi (fun i hi' => hsrt.gt_below hcmp hpos (by omega) hmid) habv rfl
      · rw [if_neg hpos]
        exact ⟨_, hmid, rfl, by omega⟩
    · rw [if_neg hlt]
      intro i hi'
      by_cases hil : i < lo
      · have := hlow i hil
        omega
      · have := habv i hi' (by omega)
        omega

/-- For a total preorder, `qsort` leaves the elements in nondecreasing order and every other byte as
it was; on a sorted array `bsearch` finds an element equal to the key, and `NULL` only when there is
none. -/
theorem qsort_bsearch_correct (cmp : Compare) (hcmp : TotalPreorder cmp) (m : Mem) (b n size : Nat) :
    (firstN n (element (qsort cmp b n size m) b size)).Perm (firstN n (element m b size)) ∧
      (firstN n (element (qsort cmp b n size m) b size)).Pairwise (cmp · · ≤ 0) ∧
      (∀ x, x < b ∨ b + n * size ≤ x → qsort cmp b n size m x = m x) ∧
      ∀ key, (firstN n (element m b size)).Pairwise (cmp · · ≤ 0) →
        Finds cmp m b n size key (bsearch cmp b n size m key) := by
  have hsc := @qsort_spec cmp m b n size hcmp
  refine ⟨hsc.1.perm, sortedBelow_iff_pairwise.mp hsc.2, hsc.1.outside, fun key hsrt => ?_⟩
  exact bsearchLoop_spec hcmp (sortedBelow_iff_pairwise.mpr hsrt) (le_refl n)
    (fun i hi => absurd hi (Nat.not_lt_zero i)) fun i hi hge => absurd hge (not_le.mpr hi)

def firstByte (x y : List UInt8) : Int := ((x.headD 0).toNat : Int) - ((y.headD 0).toNat : Int)

theorem totalPreorder_firstByte : TotalPreorder firstByte := by
  constructor
  · unfold firstByte
    omega
  · unfold firstByte at *
    omega

/-- Two elements of two bytes in order, and a key equal to the second by its first byte. -/
theorem qsort_bsearch_correct_two :
    let m : Mem := Mem.write (fun _ => 0) 16 [1, 7, 2, 9, 2, 0]
    (firstN 2 (element (qsort firstByte 16 2 2 m) 16 2)).Perm [[1, 7], [2, 9]] ∧
      Finds firstByte m 16 2 2 20 (bsearch firstByte 16 2 2 m 20) := by
  have h := qsort_bsearch_correct _ totalPreorder_firstByte
    (Mem.write (fun _ => 0) 16 [1, 7, 2, 9, 2, 0]) 16 2 2
  exact ⟨h.1, h.2.2.2 20 (by decide)⟩

end Skjegg.Libc
