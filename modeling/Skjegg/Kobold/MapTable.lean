import Skjegg.Kobold.MapProbe

/-!
# Changing the table of a map

Every operation on a map keeps `TableOk` and changes the entries as on a finite map: reserving a key
into an empty slot or a tombstone, moving all entries to a larger table, and deleting a key.
-/

namespace Skjegg.Kobold

open Skjegg.Lib Function List

/-! ## Writing slots -/

variable {key : Gptr} {m : KpMap}

section Writing

variable {σ : Strings} {keys : List Gptr} {vals : List Bytes} {s : Nat}

theorem countP_set_add (p : Gptr → Bool) (hs : s < keys.length) (k : Gptr) :
    (keys.set s k).countP p + (if p (keys.getD s keyEmpty) = true then 1 else 0) =
      keys.countP p + (if p k = true then 1 else 0) := by
  rw [countP_set hs, getD_eq_getElem _ _ hs]
  by_cases h : p keys[s] = true
  · have hpos : 0 < keys.countP p := countP_pos_iff.mpr ⟨_, getElem_mem hs, h⟩
    rw [if_pos h]
    omega
  · rw [if_neg h]
    omega

theorem count_tomb_set (hs : s < keys.length) (k : Gptr) :
    (keys.set s k).count keyTomb + (if keys.getD s keyEmpty = keyTomb then 1 else 0) =
      keys.count keyTomb + (if k = keyTomb then 1 else 0) := by
  have h := countP_set_add (· == keyTomb) hs k
  simp only [beq_iff_eq] at h
  exact h

theorem getD_set_ne {i : Nat} (h : i ≠ s) (x : Bytes) : (vals.set s x).getD i [] = vals.getD i [] := by
  rw [getD_eq_getElem?_getD, getElem?_set_ne (Ne.symm h), getD_eq_getElem?_getD]

theorem getD_set_self (h : s < vals.length) (x : Bytes) : (vals.set s x).getD s [] = x := by
  rw [getD_eq_getElem?_getD, getElem?_set_self h]
  rfl

theorem stored_insert (hs : s < keys.length) (hvs : vals.length = keys.length)
    (hkey : isLive key = true) (hfr : ∀ c, slots σ keys s ≠ .live c) (x c v : Bytes) :
    Stored σ (keys.set s key) (vals.set s x) c v ↔ (c = σ.bytes key ∧ v = x) ∨ Stored σ keys vals c v := by
  unfold Stored
  rw [length_set, slots_set σ hs]
  constructor
  · rintro ⟨i, hi, hlv, hv⟩
    by_cases his : i = s
    · subst his
      rw [update_self, slotOf_of_live hkey] at hlv
      rw [getD_set_self (by omega)] at hv
      cases hlv
      exact .inl ⟨rfl, hv.symm⟩
    · rw [update_of_ne his] at hlv
      rw [getD_set_ne his] at hv
      exact .inr ⟨i, hi, hlv, hv⟩
  · rintro (⟨rfl, rfl⟩ | ⟨i, hi, hlv, hv⟩)
    · refine ⟨s, hs, ?_, getD_set_self (by omega) _⟩
      rw [update_self, slotOf_of_live hkey]
    have his : i ≠ s := by
      rintro rfl
      exact hfr c hlv
    refine ⟨i, hi, ?_, ?_⟩
    · rwa [update_of_ne his]
    · rwa [getD_set_ne his]

theorem stored_erase {n : Nat} {hm : Bytes → Nat} (hs : s < keys.length) (hn : keys.length = n)
    (hprb : Probing (slots σ keys) n hm) {c₀ : Bytes} (hlv0 : slots σ keys s = .live c₀)
    (c v : Bytes) : Stored σ (keys.set s keyTomb) vals c v ↔ c ≠ c₀ ∧ Stored σ keys vals c v := by
  unfold Stored
  rw [length_set, slots_set σ hs]
  constructor
  · rintro ⟨i, hi, hlv, hv⟩
    have his : i ≠ s := by
      rintro rfl
      rw [update_self] at hlv
      cases hlv
    rw [update_of_ne his] at hlv
    refine ⟨?_, i, hi, hlv, hv⟩
    rintro rfl
    exact his (hprb.unique i (by omega) s (by omega) _ hlv hlv0)
  · rintro ⟨hne, i, hi, hlv, hv⟩
    have his : i ≠ s := by
      rintro rfl
      rw [hlv0] at hlv
      cases hlv
      exact hne rfl
    exact ⟨i, hi, by rwa [update_of_ne his], hv⟩

theorem stored_write {n : Nat} {hm : Bytes → Nat} (hs : s < keys.length) (hn : keys.length = n)
    (hvs : vals.length = keys.length) (hprb : Probing (slots σ keys) n hm) {c₀ : Bytes}
    (hlv0 : slots σ keys s = .live c₀) (x c v : Bytes) :
    Stored σ keys (vals.set s x) c v ↔ (c = c₀ ∧ v = x) ∨ (c ≠ c₀ ∧ Stored σ keys vals c v) := by
  constructor
  · rintro ⟨i, hi, hlv, hv⟩
    by_cases his : i = s
    · subst his
      rw [getD_set_self (by omega)] at hv
      rw [hlv0] at hlv
      cases hlv
      exact .inl ⟨rfl, hv.symm⟩
    · rw [getD_set_ne his] at hv
      refine .inr ⟨?_, i, hi, hlv, hv⟩
      rintro rfl
      exact his (hprb.unique i (by omega) s (by omega) _ hlv hlv0)
  · rintro (⟨rfl, rfl⟩ | ⟨hne, i, hi, hlv, hv⟩)
    · exact ⟨s, hs, hlv0, getD_set_self (by omega) _⟩
    have his : i ≠ s := by
      rintro rfl
      rw [hlv0] at hlv
      cases hlv
      exact hne rfl
    exact ⟨i, hi, hlv, by rwa [getD_set_ne his]⟩

end Writing

variable {σ : Strings}

theorem probing_set {keys : List Gptr} {cap s : Nat} (h : Probing (slots σ keys) cap (home cap))
    (hlen : keys.length = cap) (hs : s < keys.length) (hkey : isLive key = true)
    (habs : ∀ j < cap, slots σ keys j ≠ .live (σ.bytes key))
    (hch : OnChain (slots σ keys) cap (home cap (σ.bytes key)) s) (hfr : ∀ c, slots σ keys s ≠ .live c)
    (hrm : (keys.set s key).countP isLive + (keys.set s key).count keyTomb < cap) :
    Probing (slots σ (keys.set s key)) cap (home cap) := by
  obtain ⟨j, hj, hemp⟩ := exists_empty_key _ (by rwa [length_set, hlen])
  have hhole : ∃ j < cap, slots σ (keys.set s key) j = .empty := by
    rw [length_set, hlen] at hj
    exact ⟨j, hj, slotOf_eq_empty.mpr hemp⟩
  rw [slots_set σ hs, slotOf_of_live hkey] at hhole ⊢
  exact h.insert habs hch hfr hhole

/-! ## Reserving -/

theorem insertAt_ok (h : TableOk σ m)
    (hlo : (m.count + m.tombs + 1) * 4 < m.cap * 3) (hkey : isLive key = true) {i : Nat}
    {tomb : Option Nat} (habs : ∀ j < m.cap, slots σ m.keys j ≠ .live (σ.bytes key))
    (hch : OnChain (slots σ m.keys) m.cap (home m.cap (σ.bytes key)) (tomb.getD i))
    (hslot : (tomb = none ∧ keyAt m i = keyEmpty) ∨
      ∃ s, tomb = some s ∧ keyAt m s = keyTomb) (hlt : tomb.getD i < m.cap) :
    TableOk σ (insertAt m key i tomb) ∧
      ∀ c v, Stored σ (insertAt m key i tomb).keys (insertAt m key i tomb).vals c v ↔
        (c = σ.bytes key ∧ v = replicate m.elemsize 0) ∨ Stored σ m.keys m.vals c v := by
  have hs : tomb.getD i < m.keys.length := by rwa [h.keys_len]
  have hlv := countP_set_add isLive hs key
  have htb := count_tomb_set hs key
  have hkt : key ≠ keyTomb := by
    rintro rfl
    exact absurd hkey (by decide)
  have hfr : ∀ c, slots σ m.keys (tomb.getD i) ≠ .live c := by
    intro c hc
    obtain ⟨hl, -⟩ := slotOf_eq_live.mp hc
    rcases hslot with ⟨rfl, hemp⟩ | ⟨s, rfl, htombstone⟩
    · rw [show m.keys.getD (none.getD i) _ = keyEmpty from hemp] at hl
      exact absurd hl (by decide)
    · rw [show m.keys.getD ((some s).getD i) _ = keyTomb from htombstone] at hl
      exact absurd hl (by decide)
  -- the counters follow the kind of the slot that was filled
  have hcn : (m.keys.set (tomb.getD i) key).countP isLive = m.count + 1 ∧
      (m.keys.set (tomb.getD i) key).count keyTomb =
        (if tomb = some (tomb.getD i) then m.tombs - 1 else m.tombs) := by
    rw [← h.count_eq, if_pos hkey] at hlv
    rw [← h.tombs_eq, if_neg hkt] at htb
    rcases hslot with ⟨rfl, hemp⟩ | ⟨s, rfl, htombstone⟩
    · rw [show m.keys.getD (none.getD i) _ = keyEmpty from hemp] at hlv htb
      rw [if_neg (by decide)] at hlv htb
      rw [if_neg (by simp)]
      omega
    rw [show m.keys.getD ((some s).getD i) _ = keyTomb from htombstone] at hlv htb
    rw [if_neg (by decide)] at hlv
    rw [if_pos rfl] at htb
    rw [if_pos (by simp)]
    omega
  have hlo' : (m.count + 1 + (if tomb = some (tomb.getD i) then m.tombs - 1 else m.tombs)) * 4 <
      m.cap * 3 := by
    split <;> omega
  constructor
  · refine ⟨h.cap_pow, ?_, ?_, ?_, hcn.1.symm, hcn.2.symm, hlo'⟩
    · exact (length_set ..).trans h.keys_len
    · exact (length_set ..).trans h.vals_len
    have hrm : m.count + 1 + (if tomb = some (tomb.getD i) then m.tombs - 1 else m.tombs) < m.cap := by
      omega
    rw [← hcn.1, ← hcn.2] at hrm
    exact probing_set h.probing h.keys_len hs hkey habs hch hfr hrm
  · intro c v
    exact stored_insert hs (by rw [h.vals_len, h.keys_len]) hkey hfr _ c v

structure Reserved (σ : Strings) (m m' : KpMap) (c₀ : Bytes) : Prop where
  ok : TableOk σ m'
  present : ∃ i < m'.cap, slots σ m'.keys i = .live c₀
  others : ∀ c v, c ≠ c₀ → (Stored σ m'.keys m'.vals c v ↔ Stored σ m.keys m.vals c v)

theorem reserveLoop_spec (h : TableOk σ m)
    (hlo : (m.count + m.tombs + 1) * 4 < m.cap * 3) (hkey : isLive key = true) :
    ∃ m', reserveLoop σ m key (m.cap - 1) m.cap ((hashKey σ key).toNat &&& (m.cap - 1)) none =
        some m' ∧ Reserved σ m m' (σ.bytes key) := by
  have hpow : ∃ k, m.cap = 2 ^ k := h.cap_pow.imp fun _ hk => hk.1
  have hhome := home_lt hpow (σ.bytes key)
  obtain ⟨i, hfst⟩ := h.probing.exists_stop hhome
  have hi := hfst.lt
  have hch := hfst.onChain
  have hfst' := hfst
  obtain ⟨d, hd, hid, hsp, hbef⟩ := hfst'
  rcases hsp with hemp | hlv
  · have habs := h.probing.absent_of_stop hfst hemp
    have hkemp : keyAt m i = keyEmpty := slotOf_eq_empty.mp hemp
    obtain ⟨tomb, hlp, hfm⟩ := reserveLoop_absent key none hpow hhome hd (hid ▸ hkemp) hbef
    rw [← hid] at hlp
    -- the slot that is filled lies on the search, whether empty or a tombstone
    have hslot : OnChain (slots σ m.keys) m.cap (home m.cap (σ.bytes key)) (tomb.getD i) ∧
        ((tomb = none ∧ keyAt m i = keyEmpty) ∨ ∃ s, tomb = some s ∧ keyAt m s = keyTomb) ∧
        tomb.getD i < m.cap := by
      rcases hfm with rfl | ⟨e, he, rfl, htb⟩
      · exact ⟨hch, .inl ⟨rfl, hkemp⟩, hi⟩
      · refine ⟨⟨e, by omega, rfl, ?_⟩, .inr ⟨_, rfl, htb⟩, Nat.mod_lt _ (by omega)⟩
        intro e' he' hemp'
        exact hbef e' (by omega) (.inl hemp')
    obtain ⟨hok, hsto⟩ := insertAt_ok h hlo hkey habs hslot.1 hslot.2.1 hslot.2.2
    refine ⟨_, hlp, hok, ?_, ?_⟩
    · obtain ⟨j, hj, hsl, -⟩ := (hsto _ _).mpr (.inl ⟨rfl, rfl⟩)
      exact ⟨j, by rwa [← hok.keys_len], hsl⟩
    · intro c v hc
      rw [hsto]
      exact or_iff_right fun hnew => hc hnew.1
  · have hlp := reserveLoop_present key none hpow hhome hd (hid ▸ hlv) hbef
    exact ⟨m, hlp, h, ⟨i, hi, hlv⟩, fun _ _ _ => Iff.rfl⟩

/-! ## Growing -/

/-- The new blocks of `map_grow` after the first `p` old slots. -/
structure GrowInv (σ : Strings) (m : KpMap) (newcap p : Nat) (b : List Gptr × List Bytes) : Prop where
  keys_len : b.1.length = newcap
  vals_len : b.2.length = newcap
  probing : Probing (slots σ b.1) newcap (home newcap)
  no_tombs : b.1.count keyTomb = 0
  live_eq : b.1.countP isLive = (m.keys.take p).countP isLive
  stored : ∀ c v, Stored σ b.1 b.2 c v ↔ ∃ i < p, slots σ m.keys i = .live c ∧ m.vals.getD i [] = v

theorem growStep_inv {newcap p : Nat} {b : List Gptr × List Bytes}
    (hprb : Probing (slots σ m.keys) m.cap (home m.cap)) (hlen : m.keys.length = m.cap)
    (hpow : ∃ k, newcap = 2 ^ k) (hrm : m.keys.countP isLive < newcap) (hp : p < m.cap)
    (h : GrowInv σ m newcap p b) :
    ∃ b', growStep σ m newcap b p = some b' ∧ GrowInv σ m newcap (p + 1) b' := by
  have hta : (m.keys.take (p + 1)).countP isLive =
      (m.keys.take p).countP isLive + (if isLive (keyAt m p) = true then 1 else 0) := by
    rw [take_add_one, countP_append, getElem?_eq_getElem (by omega)]
    unfold keyAt
    rw [getD_eq_getElem _ _ (by omega)]
    simp [countP_cons]
  have hspl : ∀ c v, (∃ i < p + 1, slots σ m.keys i = .live c ∧ m.vals.getD i [] = v) ↔
      (slots σ m.keys p = .live c ∧ m.vals.getD p [] = v) ∨
        ∃ i < p, slots σ m.keys i = .live c ∧ m.vals.getD i [] = v := by
    intro c v
    constructor
    · rintro ⟨i, hi, hlv⟩
      rcases Nat.lt_succ_iff_lt_or_eq.mp hi with hlt | rfl
      · exact .inr ⟨i, hlt, hlv⟩
      · exact .inl hlv
    · rintro (hlv | ⟨i, hi, hlv⟩)
      · exact ⟨p, by omega, hlv⟩
      · exact ⟨i, by omega, hlv⟩
  unfold growStep
  simp only
  split
  · -- nothing in this slot
    rename_i hdead
    have hnl : isLive (keyAt m p) = false := by
      rcases hdead with hd | hd <;> rw [hd] <;> rfl
    refine ⟨b, rfl, h.keys_len, h.vals_len, h.probing, h.no_tombs, ?_, ?_⟩
    · rw [hta, hnl, if_neg (by decide)]
      exact h.live_eq
    intro c v
    rw [h.stored, hspl]
    refine (or_iff_right fun hlv => ?_).symm
    have := (slotOf_eq_live.mp hlv.1).1
    rw [show m.keys.getD p _ = keyAt m p from rfl, hnl] at this
    cases this
  · rename_i hlv
    have hl : isLive (keyAt m p) = true := by
      rcases key_cases _ with h0 | h0 | h0
      · exact absurd (.inl h0) hlv
      · exact absurd (.inr h0) hlv
      · exact h0
    have hslot : slots σ m.keys p = .live (σ.bytes (keyAt m p)) := slotOf_of_live hl
    -- the key is not in the new table yet, because it is only once in the old one
    have habs : ∀ j < newcap, slots σ b.1 j ≠ .live (σ.bytes (keyAt m p)) := by
      intro j hj hj'
      obtain ⟨i, hi, hi', -⟩ := (h.stored _ _).mp ⟨j, by rw [h.keys_len]; exact hj, hj', rfl⟩
      have := hprb.unique i (by omega) p hp _ hi' hslot
      omega
    have hhome := home_lt hpow (σ.bytes (keyAt m p))
    obtain ⟨j, hfst⟩ := h.probing.exists_stop hhome
    have hj := hfst.lt
    have hch := hfst.onChain
    obtain ⟨d, hd, hjd, hsp, hbef⟩ := hfst
    have hemp := hsp.resolve_right (habs j hj)
    have hkemp : b.1.getD j keyEmpty = keyEmpty := slotOf_eq_empty.mp hemp
    have hlp := emptySlotLoop_spec b.1 hpow hhome hd (hjd ▸ hkemp)
      fun e he hcontra => hbef e he (.inl (slotOf_eq_empty.mpr hcontra))
    rw [← hjd] at hlp
    have hj' : j < b.1.length := by rwa [h.keys_len]
    have hfr : ∀ c, slots σ b.1 j ≠ .live c := by
      intro c hc
      rw [hemp] at hc
      cases hc
    have hcnt := countP_set_add isLive hj' (keyAt m p)
    have htombs := count_tomb_set hj' (keyAt m p)
    rw [hkemp, if_neg (by decide), if_pos hl, h.live_eq] at hcnt
    rw [hkemp, if_neg (by decide), h.no_tombs, if_neg fun hk => hlv (.inr hk)] at htombs
    have hle : (m.keys.take (p + 1)).countP isLive ≤ m.keys.countP isLive := (take_sublist _ _).countP_le
    rw [hta, if_pos hl] at hle
    refine ⟨(b.1.set j _, b.2.set j (valAt m p)), ?_, ?_, ?_, ?_, by omega, ?_, ?_⟩
    · rw [show (hashKey σ _).toNat &&& (newcap - 1) =
        home _ _ from rfl, hlp]
    · rw [length_set]
      exact h.keys_len
    · rw [length_set]
      exact h.vals_len
    · exact probing_set h.probing h.keys_len hj' hl habs hch hfr (by omega)
    · rw [hta, if_pos hl]
      omega
    · intro c v
      rw [stored_insert hj' (by rw [h.vals_len, h.keys_len]) hl hfr, hspl, h.stored, hslot]
      refine or_congr_left ?_
      constructor
      · rintro ⟨rfl, rfl⟩
        exact ⟨rfl, rfl⟩
      · rintro ⟨hc, hv⟩
        cases hc
        exact ⟨rfl, hv.symm⟩

theorem growInit_inv (σ : Strings) (m : KpMap) (newcap : Nat) (hpos : 0 < newcap) :
    GrowInv σ m newcap 0 (replicate newcap keyEmpty, replicate newcap []) := by
  have hemp : ∀ i, slots σ (replicate newcap keyEmpty) i = .empty := by
    intro i
    unfold slots
    rw [slotOf_eq_empty, getD_eq_getElem?_getD, getElem?_replicate]
    split <;> rfl
  refine ⟨length_replicate .., length_replicate .., ?_, ?_, ?_, ?_⟩
  · exact Probing.of_empty hpos fun i _ => hemp i
  · rw [count_replicate]
    rfl
  · rw [countP_replicate]
    rfl
  intro c v
  constructor
  · rintro ⟨i, -, hlv, -⟩
    rw [hemp] at hlv
    cases hlv
  · omega

theorem growLoop_inv (newcap : Nat)
    (hprb : Probing (slots σ m.keys) m.cap (home m.cap)) (hlen : m.keys.length = m.cap)
    (hpow : ∃ k, newcap = 2 ^ k) (hrm : m.keys.countP isLive < newcap) (p : Nat) (hp : p ≤ m.cap) :
    ∃ b, (List.range p).foldlM (growStep σ m newcap)
        (replicate newcap keyEmpty, replicate newcap []) = some b ∧
      GrowInv σ m newcap p b := by
  induction p with
  | zero => exact ⟨_, rfl, growInit_inv σ m _ (by omega)⟩
  | succ p ih =>
    obtain ⟨b, hfold, hinv⟩ := ih (by omega)
    obtain ⟨b', hst, hinv'⟩ := growStep_inv hprb hlen hpow hrm hp hinv
    refine ⟨b', ?_, hinv'⟩
    rw [range_succ, foldlM_append, hfold]
    simp [hst]

structure Roomy (σ : Strings) (m m' : KpMap) : Prop where
  ok : TableOk σ m'
  room : (m'.count + m'.tombs + 1) * 4 < m'.cap * 3
  same : ∀ c v, Stored σ m'.keys m'.vals c v ↔ Stored σ m.keys m.vals c v

theorem mapGrow_spec (h : TableOk σ m) : ∃ m', mapGrow σ m (m.cap * 2) = some m' ∧ Roomy σ m m' := by
  obtain ⟨k, hk, h3⟩ := h.cap_pow
  have hcap := h.eight_le_cap
  have hlo := h.load
  have hcnt := h.count_eq
  have hpow : m.cap * 2 = 2 ^ (k + 1) := by rw [hk, pow_succ]
  obtain ⟨b, hfold, hinv⟩ := growLoop_inv _ h.probing h.keys_len ⟨_, hpow⟩ (by omega) _ le_rfl
  have hlv := hinv.live_eq
  rw [take_of_length_le h.keys_len.le, ← h.count_eq] at hlv
  refine ⟨_, by rw [mapGrow, hfold], ?_, ?_, ?_⟩
  · exact ⟨⟨k + 1, hpow, by omega⟩, hinv.keys_len, hinv.vals_len, hinv.probing, hlv.symm,
      hinv.no_tombs.symm, by show (m.count + 0) * 4 < m.cap * 2 * 3; omega⟩
  · show (m.count + 0 + 1) * 4 < m.cap * 2 * 3
    omega
  intro c v
  have hsto := hinv.stored c v
  rw [← h.keys_len] at hsto
  exact hsto

theorem mapGrow_fresh (σ : Strings) (elemsize : Nat) :
    ∃ m', mapGrow σ (kpMapNew elemsize) mapInitCap = some m' ∧ Roomy σ (kpMapNew elemsize) m' := by
  have hinv := growInit_inv σ (kpMapNew elemsize) mapInitCap (by decide)
  refine ⟨_, rfl, ?_, by show (0 + 0 + 1) * 4 < 8 * 3; decide, ?_⟩
  · exact ⟨⟨3, rfl, le_rfl⟩, hinv.keys_len, hinv.vals_len, hinv.probing, hinv.live_eq.symm,
      hinv.no_tombs.symm, by show (0 + 0) * 4 < 8 * 3; decide⟩
  intro c v
  constructor
  · intro hs
    obtain ⟨i, hi, -⟩ := (hinv.stored c v).mp hs
    omega
  · rintro ⟨i, hi, -⟩
    exact absurd hi (Nat.not_lt_zero i)

theorem growForOne_spec (h : TableOk σ m) : ∃ m', growForOne σ m = some m' ∧ Roomy σ m m' := by
  unfold growForOne
  rw [if_neg (by have := h.eight_le_cap; omega)]
  split
  · exact mapGrow_spec h
  · exact ⟨m, rfl, h, by omega, fun _ _ => Iff.rfl⟩

theorem stored_kpMapNew {elemsize : Nat} {c v : Bytes} :
    ¬ Stored σ (kpMapNew elemsize).keys (kpMapNew elemsize).vals c v := by
  rintro ⟨i, hi, -⟩
  exact absurd hi (Nat.not_lt_zero i)

theorem Roomy.reserve {m' : KpMap} (h : Roomy σ m m') (hkey : isLive key = true) :
    ∃ m'', reserveLoop σ m' key (m'.cap - 1) m'.cap ((hashKey σ key).toNat &&& (m'.cap - 1)) none =
        some m'' ∧ Reserved σ m m'' (σ.bytes key) := by
  obtain ⟨m'', hlp, hok, hpre, hot⟩ := reserveLoop_spec h.ok h.room hkey
  exact ⟨m'', hlp, hok, hpre, fun c v hc => (hot c v hc).trans (h.same c v)⟩

theorem kpMapReserve_nil (σ : Strings) (elemsize : Nat) (hkey : isLive key = true) :
    ∃ m', kpMapReserve σ none key elemsize = some m' ∧ Reserved σ (kpMapNew elemsize) m' (σ.bytes key) := by
  obtain ⟨m1, hgr, hrmy⟩ := mapGrow_fresh σ _
  obtain ⟨m2, hlp, hres⟩ := hrmy.reserve hkey
  refine ⟨m2, ?_, hres⟩
  have hgr' : growForOne σ (kpMapNew elemsize) = some m1 := hgr
  rw [kpMapReserve]
  simp [hgr', hlp]

theorem kpMapReserve_spec (h : TableOk σ m) (elemsize : Nat) (hkey : isLive key = true) :
    ∃ m', kpMapReserve σ (some m) key elemsize = some m' ∧ Reserved σ m m' (σ.bytes key) := by
  -- the reference count is not part of the table
  have h' : TableOk σ { m with refcount := (m.refcount + 1) % 2 ^ 32 } := { h with }
  obtain ⟨m1, hgr, hrmy⟩ := growForOne_spec h'
  obtain ⟨m2, hlp, hok, hpre, hot⟩ := hrmy.reserve hkey
  refine ⟨m2, ?_, hok, hpre, hot⟩
  rw [kpMapReserve]
  simp only [hgr, hlp]

/-! ## Deleting -/

theorem kpMapDel_spec (h : TableOk σ m) (key : Gptr) : ∃ m', kpMapDel σ m key = some m' ∧ TableOk σ m' ∧
      ∀ c v, Stored σ m'.keys m'.vals c v ↔ c ≠ σ.bytes key ∧ Stored σ m.keys m.vals c v := by
  rcases mapFind_spec h key with ⟨i, hfd, hi, hlv⟩ | ⟨hfd, habs⟩
  · have hs : i < m.keys.length := by rwa [h.keys_len]
    obtain ⟨hkey, -⟩ := slotOf_eq_live.mp hlv
    have hcnt := countP_set_add isLive hs keyTomb
    have htb := count_tomb_set hs keyTomb
    have hne : m.keys.getD i keyEmpty ≠ keyTomb := by
      intro h0
      rw [h0] at hkey
      exact absurd hkey (by decide)
    rw [if_pos hkey, if_neg (by decide), ← h.count_eq] at hcnt
    rw [if_neg hne, if_pos rfl, ← h.tombs_eq] at htb
    have hlo := h.load
    refine ⟨_, by rw [kpMapDel, mapDelInplace, hfd], ?_, ?_⟩
    · refine ⟨h.cap_pow, (length_set ..).trans h.keys_len, h.vals_len, ?_, ?_, ?_, ?_⟩
      · have hprobing := h.probing.erase hlv
        rw [← show slotOf σ keyTomb = .tomb from rfl, ← slots_set σ hs] at hprobing
        exact hprobing
      · show m.count - 1 = (m.keys.set i keyTomb).countP isLive
        omega
      · show m.tombs + 1 = (m.keys.set i keyTomb).count keyTomb
        omega
      · show (m.count - 1 + (m.tombs + 1)) * 4 < m.cap * 3
        omega
    · intro c v
      exact stored_erase hs h.keys_len h.probing hlv c v
  · refine ⟨_, by rw [kpMapDel, mapDelInplace, hfd], ?_, ?_⟩
    · exact { h with }
    intro c v
    refine (and_iff_right_of_imp ?_).symm
    rintro ⟨i, hi, hlv, -⟩ rfl
    exact habs i (by rwa [← h.keys_len]) hlv

end Skjegg.Kobold
