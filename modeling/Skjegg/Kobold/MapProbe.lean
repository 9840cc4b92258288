import Skjegg.Kobold.Map
import Skjegg.Lib.Probing

/-!
# The key block of a map as a probing table

The key block of a map is a linear-probing table over the contents of its keys.  `TableOk` is the
invariant of a map; under it the probe loops end, and `map_find` finds what is stored.
-/

namespace Skjegg.Kobold

open Skjegg.Lib List

/-! ## Keys -/

theorem memcmp_eq_zero {a b : Bytes} (h : a.length = b.length) : memcmp a b = 0 ↔ a = b := by
  induction a generalizing b with
  | nil =>
    rw [length_nil, eq_comm, length_eq_zero_iff] at h
    simp [h, memcmp]
  | cons x a ih =>
    cases b with
    | nil => cases h
    | cons y b =>
      rw [memcmp, cons.injEq]
      by_cases hxy : x = y
      · rw [if_pos hxy, ih (by simpa using h)]
        simp [hxy]
      · rw [if_neg hxy]
        split <;> simp [hxy]

theorem strCmp_eq_zero (σ : Strings) (a b : Gptr) : strCmp σ a b = 0 ↔ σ.bytes a = σ.bytes b := by
  unfold strCmp
  simp only
  by_cases hlen : (σ.bytes a).length = (σ.bytes b).length
  · have hta : (σ.bytes a).take (min (σ.bytes a).length (σ.bytes b).length) = σ.bytes a ∧
        (σ.bytes b).take (min (σ.bytes a).length (σ.bytes b).length) = σ.bytes b := by
      rw [hlen, min_self]
      exact ⟨take_of_length_le hlen.le, take_length⟩
    rw [hta.1, hta.2, ← memcmp_eq_zero hlen]
    split
    · rename_i hne
      split <;> simp [hne]
    · rename_i heq
      simp [hlen, not_not.mp heq]
  · have hne : σ.bytes a ≠ σ.bytes b := fun h => hlen (by rw [h])
    split
    · split <;> simp [hne]
    · split <;> simp [hne]

theorem keyEq_iff (σ : Strings) (a b : Gptr) : keyEq σ a b = true ↔ σ.bytes a = σ.bytes b := by
  unfold keyEq
  rw [Bool.or_eq_true, beq_iff_eq, beq_iff_eq, strCmp_eq_zero]
  constructor
  · rintro (rfl | h)
    · rfl
    · exact h
  · exact .inr

/-! ## Slots -/

def isLive (k : Gptr) : Bool := k ≠ keyEmpty ∧ k ≠ keyTomb

def slotOf (σ : Strings) (k : Gptr) : Slot Bytes :=
  if k = keyEmpty then .empty else if k = keyTomb then .tomb else .live (σ.bytes k)

def slots (σ : Strings) (keys : List Gptr) (i : Nat) : Slot Bytes := slotOf σ (keys.getD i keyEmpty)

def home (cap : Nat) (c : Bytes) : Nat := (fnv1a c).toNat &&& (cap - 1)

variable {k : Gptr} {cap d fuel i : Nat} {σ : Strings}

theorem slotOf_eq_empty : slotOf σ k = .empty ↔ k = keyEmpty := by
  unfold slotOf
  split
  · simp [*]
  · rename_i h
    split <;> simp [h]

theorem slotOf_eq_live {c : Bytes} : slotOf σ k = .live c ↔ isLive k = true ∧ σ.bytes k = c := by
  unfold slotOf isLive
  split
  · simp [*]
  · split <;> simp [*]

theorem slotOf_of_live (h : isLive k = true) : slotOf σ k = .live (σ.bytes k) := slotOf_eq_live.mpr ⟨h, rfl⟩

theorem slots_set (σ : Strings) {keys : List Gptr} (hi : i < keys.length) (k : Gptr) :
    slots σ (keys.set i k) = Function.update (slots σ keys) i (slotOf σ k) := by
  funext j
  unfold slots
  by_cases hj : j = i
  · subst hj
    rw [Function.update_self, getD_eq_getElem?_getD, getElem?_set_self hi]
    rfl
  · rw [Function.update_of_ne hj, getD_eq_getElem?_getD, getElem?_set_ne (Ne.symm hj),
      ← getD_eq_getElem?_getD]

theorem key_cases (k : Gptr) : k = keyEmpty ∨ k = keyTomb ∨ isLive k = true := by
  unfold isLive
  by_cases h0 : k = keyEmpty
  · exact .inl h0
  · by_cases h1 : k = keyTomb
    · exact .inr (.inl h1)
    · exact .inr (.inr (by simp [h0, h1]))

theorem exists_empty_key (keys : List Gptr) (h : keys.countP isLive + keys.count keyTomb < keys.length) :
    ∃ i < keys.length, keys.getD i keyEmpty = keyEmpty := by
  induction keys with
  | nil => simp at h
  | cons k keys ih =>
    rcases key_cases k with hk | hk
    · exact ⟨0, by simp, by simpa using hk⟩
    have hone : 1 ≤ (if isLive k = true then 1 else 0) + (if k = keyTomb then 1 else 0) := by
      rcases hk with rfl | hk
      · simp [isLive, keyTomb]
      · simp [hk]
    rw [countP_cons, count_cons, length_cons] at h
    simp only [beq_iff_eq] at h
    obtain ⟨i, hi, hemp⟩ := ih (by omega)
    exact ⟨i + 1, by simpa using hi, by simpa using hemp⟩

/-! ## The invariant -/

/-- What holds of the object behind every map handle. -/
structure TableOk (σ : Strings) (m : KpMap) : Prop where
  cap_pow : ∃ k, m.cap = 2 ^ k ∧ 3 ≤ k
  keys_len : m.keys.length = m.cap
  vals_len : m.vals.length = m.cap
  probing : Probing (slots σ m.keys) m.cap (home m.cap)
  count_eq : m.count = m.keys.countP isLive
  tombs_eq : m.tombs = m.keys.count keyTomb
  load : (m.count + m.tombs) * 4 < m.cap * 3

def Stored (σ : Strings) (keys : List Gptr) (vals : List Bytes) (c v : Bytes) : Prop :=
  ∃ i < keys.length, slots σ keys i = .live c ∧ vals.getD i [] = v

theorem TableOk.eight_le_cap {m : KpMap} (h : TableOk σ m) : 8 ≤ m.cap := by
  obtain ⟨k, hk, h3⟩ := h.cap_pow
  rw [hk]
  exact Nat.pow_le_pow_right (n := 2) (by decide) h3

theorem and_mask (hpow : ∃ k, cap = 2 ^ k) (x : Nat) : x &&& (cap - 1) = x % cap := by
  obtain ⟨k, rfl⟩ := hpow
  exact Nat.and_two_pow_sub_one_eq_mod x k

theorem home_lt (hpow : ∃ k, cap = 2 ^ k) (c : Bytes) : home cap c < cap := by
  unfold home
  rw [and_mask hpow]
  obtain ⟨k, rfl⟩ := hpow
  exact Nat.mod_lt _ (Nat.two_pow_pos k)

/-! ## Probe loops -/

section Loops

variable {σ : Strings} {m : KpMap} (key : Gptr)

theorem stops_iff : Stops (slots σ m.keys) (σ.bytes key) i ↔
    keyAt m i = keyEmpty ∨ (isLive (keyAt m i) = true ∧ keyEq σ (keyAt m i) key = true) := by
  unfold Stops slots keyAt
  rw [slotOf_eq_empty, slotOf_eq_live, keyEq_iff]

theorem succ_mod_add {n : Nat} : ((i + 1) % n + d) % n = (i + (d + 1)) % n := by
  rw [Nat.mod_add_mod]
  congr 1
  omega

theorem mapFindLoop_spec (hpow : ∃ k, m.cap = 2 ^ k) (hi : i < m.cap)
    (hd : d < fuel) (hsp : Stops (slots σ m.keys) (σ.bytes key) ((i + d) % m.cap))
    (hbef : ∀ e < d, ¬ Stops (slots σ m.keys) (σ.bytes key) ((i + e) % m.cap)) :
    mapFindLoop σ m key (m.cap - 1) fuel i =
      some (if keyAt m ((i + d) % m.cap) = keyEmpty then none else some ((i + d) % m.cap)) := by
  induction d generalizing i fuel with
  | zero =>
    obtain _ | fuel := fuel
    · omega
    have hz : (i + 0) % m.cap = i := Nat.mod_eq_of_lt hi
    rw [hz, stops_iff] at hsp
    rw [hz, mapFindLoop]
    by_cases hemp : keyAt m i = keyEmpty
    · simp [if_pos hemp]
    obtain ⟨hlv, heq⟩ := hsp.resolve_left hemp
    have htb : keyAt m i ≠ keyTomb := by
      intro h
      rw [h] at hlv
      exact absurd hlv (by decide)
    simp [if_neg hemp, if_pos (And.intro htb heq)]
  | succ d ih =>
    obtain _ | fuel := fuel
    · omega
    have hno := hbef 0 (by omega)
    rw [add_zero, Nat.mod_eq_of_lt hi, stops_iff, not_or] at hno
    have hgo : ¬ (keyAt m i ≠ keyTomb ∧ keyEq σ (keyAt m i) key = true) := fun h =>
      hno.2 ⟨by simp [isLive, hno.1, h.1], h.2⟩
    rw [mapFindLoop]
    simp only [if_neg hno.1, if_neg hgo]
    rw [and_mask hpow, ← succ_mod_add (d := d)]
    rw [← succ_mod_add] at hsp
    apply ih (Nat.mod_lt _ (by omega)) (by omega) hsp
    intro e he
    rw [succ_mod_add]
    exact hbef _ (by omega)

theorem reserveLoop_present (tomb : Option Nat) (hpow : ∃ k, m.cap = 2 ^ k)
    (hi : i < m.cap) (hd : d < fuel) (hlv : slots σ m.keys ((i + d) % m.cap) = .live (σ.bytes key))
    (hbef : ∀ e < d, ¬ Stops (slots σ m.keys) (σ.bytes key) ((i + e) % m.cap)) :
    reserveLoop σ m key (m.cap - 1) fuel i tomb = some m := by
  induction d generalizing i fuel tomb with
  | zero =>
    obtain _ | fuel := fuel
    · omega
    rw [add_zero, Nat.mod_eq_of_lt hi] at hlv
    obtain ⟨hkey, hbs⟩ := slotOf_eq_live.mp hlv
    have hne : keyAt m i ≠ keyEmpty ∧ keyAt m i ≠ keyTomb := by
      have h : isLive (keyAt m i) = true := hkey
      simpa [isLive] using h
    have heq : keyEq σ (keyAt m i) key = true := (keyEq_iff _ _ _).mpr hbs
    rw [reserveLoop]
    simp [if_neg hne.1, if_neg hne.2, if_pos heq]
  | succ d ih =>
    obtain _ | fuel := fuel
    · omega
    have hno := hbef 0 (by omega)
    rw [add_zero, Nat.mod_eq_of_lt hi, stops_iff, not_or] at hno
    have hnx : ∀ tomb', reserveLoop σ m key (m.cap - 1) fuel ((i + 1) &&& (m.cap - 1)) tomb' =
        some m := by
      intro tomb'
      rw [and_mask hpow]
      rw [← succ_mod_add] at hlv
      apply ih _ (Nat.mod_lt _ (by omega)) (by omega) hlv
      intro e he
      rw [succ_mod_add]
      exact hbef _ (by omega)
    rw [reserveLoop]
    simp only [if_neg hno.1]
    split
    · exact hnx _
    rename_i htb
    have hgo : ¬ keyEq σ _ key = true := fun h =>
      hno.2 ⟨by simp [isLive, hno.1, htb], h⟩
    rw [if_neg hgo]
    exact hnx _

theorem reserveLoop_absent (tomb : Option Nat) (hpow : ∃ k, m.cap = 2 ^ k)
    (hi : i < m.cap) (hd : d < fuel) (hemp : keyAt m ((i + d) % m.cap) = keyEmpty)
    (hbef : ∀ e < d, ¬ Stops (slots σ m.keys) (σ.bytes key) ((i + e) % m.cap)) :
    ∃ tomb', reserveLoop σ m key (m.cap - 1) fuel i tomb = some (insertAt m key ((i + d) % m.cap) tomb') ∧
      (tomb' = tomb ∨ ∃ e < d, tomb' = some ((i + e) % m.cap) ∧ keyAt m ((i + e) % m.cap) = keyTomb) := by
  induction d generalizing i fuel tomb with
  | zero =>
    obtain _ | fuel := fuel
    · omega
    have hz : (i + 0) % m.cap = i := Nat.mod_eq_of_lt hi
    rw [hz] at hemp ⊢
    refine ⟨tomb, ?_, .inl rfl⟩
    rw [reserveLoop]
    simp [if_pos hemp]
  | succ d ih =>
    obtain _ | fuel := fuel
    · omega
    have hno := hbef 0 (by omega)
    have hz : (i + 0) % m.cap = i := Nat.mod_eq_of_lt hi
    rw [hz, stops_iff, not_or] at hno
    rw [← succ_mod_add] at hemp
    have hnx := fun tomb' =>
      ih tomb' (Nat.mod_lt _ (by omega)) (show d < fuel by omega) hemp fun e he => by
        rw [succ_mod_add]
        exact hbef _ (by omega)
    simp only [succ_mod_add] at hnx
    rw [reserveLoop]
    simp only [if_neg hno.1]
    rw [and_mask hpow]
    by_cases htb : keyAt m i = keyTomb
    · -- the first tombstone passed is remembered
      rw [if_pos htb]
      obtain ⟨tomb', hlp, hfm⟩ := hnx _
      refine ⟨tomb', hlp, ?_⟩
      rcases hfm with hsm | ⟨e, he, hpas⟩
      · by_cases hnone : tomb = none
        · rw [if_pos hnone] at hsm
          exact .inr ⟨0, by omega, by rw [hz]; exact hsm, by rw [hz]; exact htb⟩
        · rw [if_neg hnone] at hsm
          exact .inl hsm
      · exact .inr ⟨e + 1, by omega, hpas⟩
    · have hgo : ¬ keyEq σ (keyAt m i) key = true := fun h =>
        hno.2 ⟨by simp [isLive, hno.1, htb], h⟩
      rw [if_neg htb, if_neg hgo]
      obtain ⟨tomb', hlp, hfm⟩ := hnx _
      refine ⟨tomb', hlp, ?_⟩
      rcases hfm with hsm | ⟨e, he, hpas⟩
      · exact .inl hsm
      · exact .inr ⟨e + 1, by omega, hpas⟩

theorem emptySlotLoop_spec (keys : List Gptr) (hpow : ∃ k, cap = 2 ^ k)
    (hi : i < cap) (hd : d < fuel) (hemp : keys.getD ((i + d) % cap) keyEmpty = keyEmpty)
    (hbef : ∀ e < d, keys.getD ((i + e) % cap) keyEmpty ≠ keyEmpty) :
    emptySlotLoop keys (cap - 1) fuel i = some ((i + d) % cap) := by
  induction d generalizing i fuel with
  | zero =>
    obtain _ | fuel := fuel
    · omega
    have hz : (i + 0) % cap = i := Nat.mod_eq_of_lt hi
    rw [hz] at hemp ⊢
    rw [emptySlotLoop, if_neg (not_not.mpr hemp)]
  | succ d ih =>
    obtain _ | fuel := fuel
    · omega
    have hno := hbef 0 (by omega)
    rw [add_zero, Nat.mod_eq_of_lt hi] at hno
    rw [emptySlotLoop, if_pos hno, and_mask hpow, ← succ_mod_add (d := d)]
    rw [← succ_mod_add] at hemp
    apply ih (Nat.mod_lt _ (by omega)) (by omega) hemp
    intro e he
    rw [succ_mod_add]
    exact hbef _ (by omega)

end Loops

/-! ## Finding -/

theorem mapFind_spec {m : KpMap} (h : TableOk σ m) (key : Gptr) :
    (∃ i, mapFind σ m key = some (some i) ∧ i < m.cap ∧ slots σ m.keys i = .live (σ.bytes key)) ∨
    (mapFind σ m key = some none ∧ ∀ i < m.cap, slots σ m.keys i ≠ .live (σ.bytes key)) := by
  have hpow : ∃ k, m.cap = 2 ^ k := h.cap_pow.imp fun _ hk => hk.1
  have hhome := home_lt hpow (σ.bytes key)
  obtain ⟨i, hfst⟩ := h.probing.exists_stop hhome
  have hi := hfst.lt
  obtain ⟨d, hd, hid, hsp, hbef⟩ := hfst
  have hlp := mapFindLoop_spec key hpow hhome hd (hid ▸ hsp) hbef
  rw [← hid] at hlp
  have hfd : mapFind σ m key = some (if keyAt m i = keyEmpty then none else some i) := by
    unfold mapFind
    rw [if_neg (by have := h.eight_le_cap; omega)]
    exact hlp
  by_cases hemp : keyAt m i = keyEmpty
  · right
    rw [hfd, if_pos hemp]
    exact ⟨rfl, h.probing.absent_of_stop ⟨d, hd, hid, hsp, hbef⟩ (slotOf_eq_empty.mpr hemp)⟩
  left
  rw [hfd, if_neg hemp]
  refine ⟨i, rfl, hi, hsp.resolve_left ?_⟩
  intro hsl
  exact hemp (slotOf_eq_empty.mp hsl)

theorem kpMapTryget_spec {m : KpMap} (h : TableOk σ m) (key : Gptr) :
    ∃ r, kpMapTryget σ (some m) key = some r ∧
      ∀ v, r = some v ↔ Stored σ m.keys m.vals (σ.bytes key) v := by
  rcases mapFind_spec h key with ⟨i, hfd, hi, hlv⟩ | ⟨hfd, habs⟩
  · refine ⟨some (valAt m i), ?_, ?_⟩
    · rw [kpMapTryget, hfd]
      rfl
    intro v
    rw [Option.some.injEq]
    constructor
    · rintro rfl
      exact ⟨i, by rw [h.keys_len]; exact hi, hlv, rfl⟩
    rintro ⟨j, hj, hlv', hv⟩
    rw [h.keys_len] at hj
    rw [← h.probing.unique j hj i hi _ hlv' hlv]
    exact hv
  · refine ⟨none, ?_, ?_⟩
    · rw [kpMapTryget, hfd]
      rfl
    intro v
    constructor
    · intro hv
      cases hv
    · rintro ⟨j, hj, hlv, -⟩
      rw [h.keys_len] at hj
      exact absurd hlv (habs j hj)

end Skjegg.Kobold
