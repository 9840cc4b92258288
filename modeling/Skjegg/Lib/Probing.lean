import Mathlib.Data.Nat.Find
import Mathlib.Tactic

/-!
# Linear probing

A key is looked for from its home slot on, cyclically, up to the first empty slot. `Probing` is what
makes that right: every key is reachable from its home, none is stored twice, some slot is empty.
-/

namespace Skjegg.Lib

open Function

inductive Slot (κ : Type) where
  | empty
  | tomb
  | live (k : κ)
  deriving DecidableEq

section FirstStop

variable {n s : ℕ}

def FirstStop (stop : ℕ → Prop) (n s i : ℕ) : Prop :=
  ∃ d < n, i = (s + d) % n ∧ stop i ∧ ∀ e < d, ¬ stop ((s + e) % n)

theorem exists_offset (hs : s < n) {i : ℕ} (hi : i < n) : ∃ d < n, i = (s + d) % n := by
  rcases lt_or_ge i s with h | h
  · refine ⟨i + n - s, by omega, ?_⟩
    rw [show s + (i + n - s) = i + n by omega, Nat.add_mod_right, Nat.mod_eq_of_lt hi]
  · refine ⟨i - s, by omega, ?_⟩
    rw [show s + (i - s) = i by omega, Nat.mod_eq_of_lt hi]

theorem exists_firstStop {stop : ℕ → Prop} (hs : s < n) (h : ∃ i < n, stop i) :
    ∃ i, FirstStop stop n s i := by
  classical
  obtain ⟨i, hi, hsp⟩ := h
  obtain ⟨d, hd, hoff⟩ := exists_offset hs hi
  have hex : ∃ d, stop ((s + d) % n) := ⟨d, by rwa [← hoff]⟩
  refine ⟨(s + Nat.find hex) % n, Nat.find hex, ?_, rfl, Nat.find_spec hex, ?_⟩
  · exact (Nat.find_min' hex (by rwa [← hoff])).trans_lt hd
  · intro e he
    exact Nat.find_min hex he

theorem FirstStop.lt {stop : ℕ → Prop} {i : ℕ} (h : FirstStop stop n s i) : i < n := by
  obtain ⟨d, hd, rfl, -⟩ := h
  exact Nat.mod_lt _ (by omega)

end FirstStop

variable {κ : Type} {n : ℕ} {home : κ → ℕ} {t : ℕ → Slot κ}

def OnChain (t : ℕ → Slot κ) (n s i : ℕ) : Prop :=
  ∃ d < n, i = (s + d) % n ∧ ∀ e < d, t ((s + e) % n) ≠ .empty

structure Probing (t : ℕ → Slot κ) (n : ℕ) (home : κ → ℕ) : Prop where
  chain : ∀ i < n, ∀ k, t i = .live k → OnChain t n (home k) i
  unique : ∀ i < n, ∀ j < n, ∀ k, t i = .live k → t j = .live k → i = j
  hole : ∃ i < n, t i = .empty

theorem OnChain.update {s i j : ℕ} {x : Slot κ} (h : OnChain t n s i) (hx : x ≠ .empty) :
    OnChain (update t j x) n s i := by
  obtain ⟨d, hd, hi, hbef⟩ := h
  refine ⟨d, hd, hi, fun e he => ?_⟩
  by_cases hj : (s + e) % n = j
  · rw [hj, update_self]
    exact hx
  · rw [update_of_ne hj]
    exact hbef e he

def Stops (t : ℕ → Slot κ) (k : κ) (i : ℕ) : Prop := t i = .empty ∨ t i = .live k

variable {k : κ}

theorem FirstStop.onChain {s i : ℕ} (h : FirstStop (Stops t k) n s i) : OnChain t n s i := by
  obtain ⟨d, hd, hi, -, hbef⟩ := h
  exact ⟨d, hd, hi, fun e he hemp => hbef e he (.inl hemp)⟩

namespace Probing

theorem exists_stop (h : Probing t n home) (hk : home k < n) : ∃ i, FirstStop (Stops t k) n (home k) i := by
  obtain ⟨i, hi, hemp⟩ := h.hole
  exact exists_firstStop hk ⟨i, hi, .inl hemp⟩

theorem absent_of_stop (h : Probing t n home) {i : ℕ}
    (hi : FirstStop (Stops t k) n (home k) i) (hemp : t i = .empty) : ∀ j < n, t j ≠ .live k := by
  intro j hj hlv
  obtain ⟨d, -, hd, -, hbef⟩ := hi
  obtain ⟨e, -, he, hch⟩ := h.chain j hj k hlv
  -- the key's own slot also stops the search, so the empty slot comes before it on the chain
  rcases lt_trichotomy d e with hlt | heq | hlt
  · exact hch d hlt (hd ▸ hemp)
  · rw [he, ← heq, ← hd, hemp] at hlv
    cases hlv
  · exact hbef e hlt (.inr (he ▸ hlv))

theorem insert (h : Probing t n home) {s : ℕ} (hk : ∀ i < n, t i ≠ .live k)
    (hs : OnChain t n (home k) s) (hfr : ∀ k', t s ≠ .live k')
    (hhole : ∃ i < n, update t s (.live k) i = .empty) : Probing (update t s (.live k)) n home := by
  refine ⟨?_, ?_, hhole⟩
  · intro i hi k' hlv
    by_cases his : i = s
    · subst his
      rw [update_self] at hlv
      cases hlv
      exact hs.update (by simp)
    · rw [update_of_ne his] at hlv
      exact (h.chain i hi k' hlv).update (by simp)
  intro i hi j hj k' hi' hj'
  by_cases his : i = s <;> by_cases hjs : j = s
  · rw [his, hjs]
  · rw [his, update_self] at hi'
    rw [update_of_ne hjs] at hj'
    cases hi'
    exact absurd hj' (hk j hj)
  · rw [hjs, update_self] at hj'
    rw [update_of_ne his] at hi'
    cases hj'
    exact absurd hi' (hk i hi)
  · rw [update_of_ne his] at hi'
    rw [update_of_ne hjs] at hj'
    exact h.unique i hi j hj k' hi' hj'

theorem erase (h : Probing t n home) {s : ℕ} (hs : t s = .live k) : Probing (update t s .tomb) n home := by
  constructor
  · intro i hi k' hlv
    by_cases his : i = s
    · subst his
      rw [update_self] at hlv
      cases hlv
    · rw [update_of_ne his] at hlv
      exact (h.chain i hi k' hlv).update (by simp)
  · intro i hi j hj k' hi' hj'
    by_cases his : i = s
    · subst his
      rw [update_self] at hi'
      cases hi'
    by_cases hjs : j = s
    · subst hjs
      rw [update_self] at hj'
      cases hj'
    · rw [update_of_ne his] at hi'
      rw [update_of_ne hjs] at hj'
      exact h.unique i hi j hj k' hi' hj'
  · obtain ⟨i, hi, hemp⟩ := h.hole
    refine ⟨i, hi, ?_⟩
    rw [update_of_ne]
    · exact hemp
    · rintro rfl
      rw [hemp] at hs
      cases hs

theorem of_empty (hn : 0 < n) (ht : ∀ i < n, t i = .empty) : Probing t n home := by
  constructor
  · intro i hi k hlv
    rw [ht i hi] at hlv
    cases hlv
  · intro i hi j hj k hlv
    rw [ht i hi] at hlv
    cases hlv
  · exact ⟨0, hn, ht 0 hn⟩

end Probing

end Skjegg.Lib
