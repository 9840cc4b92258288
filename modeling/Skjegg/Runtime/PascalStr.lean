import Mathlib.Tactic

/-!
# Strings of the Pascal runtime

The string functions do their index arithmetic in `int`.  A sum out of the range is undefined in C, and it
would be used as an index or a size, so it has no value here.
-/

namespace Skjegg.Runtime

open List

abbrev PStr := { s : List UInt8 // s.length < 2 ^ 31 }

/-- A value computed in `int`. -/
def inInt (z : Int) : Option Int := if -2 ^ 31 ≤ z ∧ z < 2 ^ 31 then some z else none

/-- The bytes that a loop from `i` to `j` loads. -/
def loaded (s : PStr) (i j : Int) : Option (List UInt8) :=
  if i < j ∧ (i < 0 ∨ s.1.length < j) then none else some ((s.1.drop i.toNat).take (j - i).toNat)

def strCopy (s : PStr) (index count : Int) : Option (List UInt8) :=
  let len : Int := s.1.length
  let index := max index 1
  let count := if count < 0 ∨ index > len then 0 else min count (len - (index - 1))
  loaded s (index - 1) (index - 1 + count)

def strDelete (s : PStr) (index count : Int) : Option (List UInt8) := do
  let len : Int := s.1.length
  let start ← inInt (index - 1)
  if start < 0 ∨ start ≥ len ∨ count ≤ 0 then return s.1
  let stop ← inInt (start + count)
  let count := if stop > len then len - start else count
  return (← loaded s 0 start) ++ (← loaded s (start + count) len)

def strConcat (a b : PStr) : Option (List UInt8) := do
  let _ ← inInt (a.1.length + b.1.length)
  return a.1 ++ b.1

def strInsert (src dst : PStr) (index : Int) : Option (List UInt8) := do
  let pos ← inInt (index - 1)
  let pos := min (max pos 0) dst.1.length
  let _ ← inInt (dst.1.length + src.1.length)
  return (← loaded dst 0 pos) ++ src.1 ++ (← loaded dst pos dst.1.length)

/-- `own` is the capacity of `s` when it has no other owner. -/
def strAppend (s e : PStr) (own : Option Int) : Option (List UInt8) := do
  if e.1.length = 0 then return s.1
  let n ← inInt (s.1.length + e.1.length)
  if own.any (n ≤ ·) then return s.1 ++ e.1
  let _ ← inInt (n + n / 2 + 16)
  return s.1 ++ e.1

/-- The loop from `i` on, with the haystack from there. -/
def posFrom (needle : List UInt8) : Nat → List UInt8 → Option Nat
  | i, [] => do
    let _ ← inInt (i + needle.length)
    return 0
  | i, c :: hay => do
    let _ ← inInt (i + needle.length)
    if needle.length ≤ (c :: hay).length then
      if needle.isPrefixOf (c :: hay) then return i + 1 else posFrom needle (i + 1) hay
    else return 0

def strPos (needle hay : PStr) : Option Nat :=
  if needle.1.length = 0 ∨ needle.1.length > hay.1.length then some 0 else posFrom needle.1 0 hay.1

def strCompare : List UInt8 → List UInt8 → Int
  | a :: as, b :: bs => if a ≠ b then a.toNat - b.toNat else strCompare as bs
  | as, bs => as.length - bs.length

def deleted (s : List UInt8) (index count : Int) : List UInt8 :=
  if 1 ≤ index ∧ index ≤ s.length then
    s.take (index - 1).toNat ++ s.drop ((index - 1).toNat + count.toNat)
  else s

/-- When the allocations succeed, the functions return what the operations on byte lists give; a
comparison is used by its sign. -/
structure StringsRight (s t : PStr) (index count : Int32) (own : Option Int) : Prop where
  copy : strCopy s index.toInt count.toInt =
    some ((s.1.drop (index.toInt - 1).toNat).take count.toInt.toNat)
  pos : strPos s t = some (if s.1 = [] then 0 else (t.1.tails.findIdx? s.1.isPrefixOf).elim 0 (· + 1))
  compare : compare (strCompare s.1 t.1) 0 = compare s.1 t.1
  delete : strDelete s index.toInt count.toInt = some (deleted s.1 index.toInt count.toInt)
  concat : strConcat s t = some (s.1 ++ t.1)
  insert : strInsert t s index.toInt =
    some (s.1.take (index.toInt - 1).toNat ++ t.1 ++ s.1.drop (index.toInt - 1).toNat)
  append : strAppend s t own = some (s.1 ++ t.1)

/-- No sum leaves the range of `int`. -/
structure StringsFit (s t : PStr) (index count : Int) (own : Option Int) : Prop where
  start : -2 ^ 31 < index
  stop : 1 ≤ index → index ≤ s.1.length → 0 < count → index + count ≤ 2 ^ 31
  total : s.1.length + t.1.length < 2 ^ 31
  cap : t.1.length = 0 ∨ own.any ((s.1.length + t.1.length : Int) ≤ ·) ∨
    s.1.length + t.1.length + (s.1.length + t.1.length) / 2 + 16 < 2 ^ 31

section

variable {s t : PStr} {i j index count : Int} {l : List UInt8}

theorem loaded_eq (hi : 0 ≤ i) (hj : i < j → j ≤ s.1.length) :
    loaded s i j = some ((s.1.drop i.toNat).take (j - i).toNat) := if_neg (by omega)

theorem loaded_zero (hj : j ≤ s.1.length) : loaded s 0 j = some (s.1.take j.toNat) := by
  rw [loaded_eq le_rfl fun _ => hj, Int.sub_zero]
  rfl

theorem loaded_len (hi : 0 ≤ i) : loaded s i s.1.length = some (s.1.drop i.toNat) := by
  rw [loaded_eq hi fun _ => le_rfl, take_of_length_le (by rw [length_drop]; omega)]

theorem inInt_bind {z : Int} {f : Int → Option (List UInt8)} :
    (inInt z >>= f) = some l ↔ (-2 ^ 31 ≤ z ∧ z < 2 ^ 31) ∧ f z = some l := by
  unfold inInt
  split
  next h => exact (and_iff_right h).symm
  next h => exact iff_of_false nofun fun h' => h h'.1

theorem strCopy_eq : strCopy s index count = some ((s.1.drop (index - 1).toNat).take count.toNat) := by
  have hk : (max index 1 - 1).toNat = (index - 1).toNat := by omega
  unfold strCopy
  dsimp only
  rw [loaded_eq (by omega) (by split_ifs <;> omega), hk, Option.some_inj, take_eq_take_iff, length_drop]
  split_ifs <;> omega

theorem strDelete_iff (hi : index < 2 ^ 31) : strDelete s index count = some (deleted s.1 index count) ↔
    -2 ^ 31 < index ∧ (1 ≤ index → index ≤ s.1.length → 0 < count → index + count ≤ 2 ^ 31) := by
  simp only [strDelete, inInt_bind]
  by_cases hin : 1 ≤ index ∧ index ≤ s.1.length ∧ 0 < count
  · have hdrop : s.1.drop (index - 1 + if index - 1 + count > s.1.length then s.1.length - (index - 1)
        else count).toNat = s.1.drop ((index - 1).toNat + count.toNat) := by
      rw [drop_eq_drop_iff]
      split_ifs <;> omega
    rw [if_neg (by omega), deleted, if_pos ⟨hin.1, hin.2.1⟩, inInt_bind, loaded_zero (by omega),
      loaded_len (by split_ifs <;> omega), hdrop]
    simp
    omega
  · have hsame : deleted s.1 index count = s.1 := by
      unfold deleted
      split_ifs
      · rw [show count.toNat = 0 by omega, Nat.add_zero, take_append_drop]
      · rfl
    rw [if_pos (by omega), hsame]
    simp
    omega

theorem strConcat_iff : strConcat s t = some (s.1 ++ t.1) ↔ s.1.length + t.1.length < 2 ^ 31 := by
  rw [strConcat, inInt_bind]
  simp
  omega

theorem strInsert_iff (hi : index < 2 ^ 31) : strInsert t s index =
      some (s.1.take (index - 1).toNat ++ t.1 ++ s.1.drop (index - 1).toNat) ↔
    -2 ^ 31 < index ∧ s.1.length + t.1.length < 2 ^ 31 := by
  have hk : (min (max (index - 1) 0) s.1.length).toNat = min (index - 1).toNat s.1.length := by omega
  simp only [strInsert, inInt_bind]
  rw [loaded_zero (by omega), loaded_len (by omega), hk, ← take_eq_take_min, ← drop_eq_drop_min]
  simp
  omega

theorem strAppend_iff {own : Option Int} (h : s.1.length + t.1.length < 2 ^ 31) :
    strAppend s t own = some (s.1 ++ t.1) ↔ t.1.length = 0 ∨
      own.any ((s.1.length + t.1.length : Int) ≤ ·) ∨
      s.1.length + t.1.length + (s.1.length + t.1.length) / 2 + 16 < 2 ^ 31 := by
  unfold strAppend
  split_ifs with hz
  · simp [length_eq_zero_iff.mp hz]
  rw [inInt_bind]
  split_ifs with hown
  · simp [hown]
    omega
  · rw [inInt_bind]
    simp [hz, hown]
    omega

end

theorem compare_strCompare (as bs : List UInt8) : compare (strCompare as bs) 0 = compare as bs := by
  induction as generalizing bs with
  | nil =>
    cases bs with
    | nil => rfl
    | cons b bs => exact Std.compare_eq_lt.mpr (by simp [strCompare]; omega)
  | cons a as ih =>
    cases bs with
    | nil => exact Std.compare_eq_gt.mpr (by simp [strCompare])
    | cons b bs =>
      have hlex : compare (a :: as) (b :: bs) = (compare a b).then (compare as bs) :=
        List.compareLex_cons_cons
      rw [hlex, strCompare]
      split_ifs with heq
      · rcases lt_or_gt_of_ne fun h => heq (UInt8.toNat_inj.mp h) with hlt | hgt
        · rw [Std.compare_eq_lt.mpr (UInt8.lt_iff_toNat_lt.mpr hlt)]
          exact Std.compare_eq_lt.mpr (by omega)
        · rw [Std.compare_eq_gt.mpr (UInt8.lt_iff_toNat_lt.mpr hgt)]
          exact Std.compare_eq_gt.mpr (by omega)
      · rw [ih, not_not.mp heq, Std.compare_self]
        rfl

variable {needle hay : List UInt8}

theorem findIdx?_tails_of_lt (h : hay.length < needle.length) :
    hay.tails.findIdx? needle.isPrefixOf = none := by
  rw [findIdx?_eq_none_iff]
  intro t ht
  rw [Bool.eq_false_iff, Ne, isPrefixOf_iff_prefix]
  intro hpre
  have hsuf := ((mem_tails t hay).mp ht).length_le
  exact absurd (hpre.length_le.trans hsuf) (by omega)

theorem posFrom_eq (hne : needle ≠ []) {i : Nat} (hi : i + needle.length < 2 ^ 31)
    (hlen : i + hay.length + 1 < 2 ^ 31) :
    posFrom needle i hay = some ((hay.tails.findIdx? needle.isPrefixOf).elim 0 (· + i + 1)) := by
  have hint : inInt (i + needle.length) = some (i + needle.length : Int) := if_pos (by omega)
  induction hay generalizing i with
  | nil => simp [posFrom, hint, findIdx?_cons, hne]
  | cons c hay ih =>
    rw [length_cons] at hlen
    rw [posFrom, hint]
    show (if _ then _ else _) = _
    split_ifs with hle hpre
    · simp [findIdx?_cons, hpre]
    · -- the search goes on while the needle fits, so the next sum is at most one past the haystack
      rw [length_cons] at hle
      rw [ih (by omega) (by omega) (if_pos (by omega)), tails_cons, findIdx?_cons, if_neg hpre]
      cases hay.tails.findIdx? needle.isPrefixOf with
      | none => rfl
      | some k => simp [Nat.add_assoc, Nat.add_comm i]
    · rw [findIdx?_tails_of_lt (Nat.lt_of_not_le hle)]
      rfl

theorem strPos_eq {s t : PStr} (h : s.1.length + t.1.length < 2 ^ 31) :
    strPos s t = some (if s.1 = [] then 0 else (t.1.tails.findIdx? s.1.isPrefixOf).elim 0 (· + 1)) := by
  unfold strPos
  by_cases hne : s.1 = []
  · simp [hne]
  have hpos := length_pos_iff.mpr hne
  rw [if_neg hne]
  split_ifs with hlt
  · rw [findIdx?_tails_of_lt (hlt.resolve_left (by simp [hne]))]
    rfl
  · exact posFrom_eq hne (by omega) (by omega)

/-- On every two strings and every index, count and capacity, the functions are right exactly when no
sum they make leaves the range of `int`. -/
theorem strings_right_iff (s t : PStr) (index count : Int32) (own : Option Int) :
    StringsRight s t index count own ↔ StringsFit s t index.toInt count.toInt own := by
  constructor
  · intro h
    have hcat := strConcat_iff.mp h.concat
    obtain ⟨hidx, hcnt⟩ := (strDelete_iff index.toInt_lt).mp h.delete
    exact ⟨hidx, hcnt, hcat, (strAppend_iff hcat).mp h.append⟩
  · intro h
    exact ⟨strCopy_eq, strPos_eq h.total, compare_strCompare s.1 t.1,
      (strDelete_iff index.toInt_lt).mpr ⟨h.start, h.stop⟩, strConcat_iff.mpr h.total,
      (strInsert_iff index.toInt_lt).mpr ⟨h.start, h.total⟩, (strAppend_iff h.total).mpr h.cap⟩

/-- `Delete('ab', 2, 2147483647)` is undefined, where one character is left. -/
theorem delete_overflows : ¬StringsRight ⟨[97, 98], by decide⟩ ⟨[], by decide⟩ 2 2147483647 none := by
  intro h
  exact absurd h.delete (by decide)

end Skjegg.Runtime
