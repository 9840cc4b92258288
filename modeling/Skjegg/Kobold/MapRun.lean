import Mathlib.Data.Set.Card
import Skjegg.Kobold.MapTable

/-!
# Maps behave as finite maps

A program that never stores under the nil string is followed by the same program on finite maps. A
key word of zero marks an empty slot, so a store under nil leaves a map that counts a key it lacks.
-/

namespace Skjegg.Kobold

open Skjegg.Lib Function List

/-! ## Finite maps -/

/-- The strings, and for each map the value under every key. -/
structure AbsWorld where
  strings : Strings
  maps : List (Bytes → Option Bytes)

def AbsWorld.deref (a : AbsWorld) : MapRef → Bytes → Option Bytes
  | none => fun _ => none
  | some i => a.maps.getD i fun _ => none

def AbsWorld.put (a : AbsWorld) (r : MapRef) (f : Bytes → Option Bytes) : AbsWorld × MapRef :=
  match r with
  | none => ({ a with maps := a.maps ++ [f] }, some a.maps.length)
  | some i => ({ a with maps := a.maps.set i f }, r)

def absStep (a : AbsWorld) : MapOp → AbsWorld × MapOut
  | .insert r key _ v =>
    let (a', r') := a.put r (update (a.deref r) (a.strings.bytes key) (some v))
    (a', .handle r')
  | .lookup r key => (a, .value (a.deref r (a.strings.bytes key)))
  | .delete none _ => (a, .handle none)
  | .delete (some i) key =>
    let (a', r') := a.put (some i)
      (update (a.deref (some i)) (a.strings.bytes key) none)
    (a', .handle r')
  | .clone none => (a, .handle none)
  | .clone (some i) =>
    let (a', r') := a.put none (a.deref (some i))
    (a', .handle r')
  | .strings σ => ({ a with strings := σ }, .done)

structure MapBehaves (σ : Strings) (m : KpMap) (f : Bytes → Option Bytes) : Prop where
  lookup : ∀ key, kpMapTryget σ (some m) key = some (f (σ.bytes key))
  count_eq : m.count = {c | f c ≠ none}.ncard
  distinct : ∀ i < m.cap, ∀ j < m.cap, isLive (keyAt m i) = true → isLive (keyAt m j) = true →
    σ.bytes (keyAt m i) = σ.bytes (keyAt m j) → i = j
  cap_pow : ∃ k, m.cap = 2 ^ k
  unused : ∃ i < m.cap, keyAt m i = keyEmpty

def FiniteMaps (w : World) (a : AbsWorld) : Prop :=
  a.strings = w.strings ∧ List.Forall₂ (MapBehaves w.strings) w.maps a.maps

/-! ## Programs -/

def ValidRef (w : World) (r : MapRef) : Prop := ∀ i, r = some i → i < w.maps.length

/-- The blocks a store may allocate, with key words of at most eight bytes: `map_grow` takes their
sizes as 32-bit products. -/
def GrowthFits (elemsize : Nat) : Option KpMap → Prop
  | none => mapInitCap * max 8 elemsize < 2 ^ 32
  | some m => m.cap * 2 * max 8 m.elemsize < 2 ^ 32

/-- Map handles are nil or name an object, a string handle is nil or an even address, a store has
room to grow, and a string that a map holds as a key does not change. -/
def MapOp.Ok (w : World) : MapOp → Prop
  | .insert r key elemsize _ => ValidRef w r ∧ key % 2 = 0 ∧ GrowthFits elemsize (w.deref r)
  | .lookup r _ => ValidRef w r
  | .delete r _ => ValidRef w r
  | .clone r => ValidRef w r
  | .strings σ => ∀ m ∈ w.maps, ∀ k ∈ m.keys, isLive k = true → σ.bytes k = w.strings.bytes k

/-- The operation does not store under the nil string. -/
def MapOp.NilFree : MapOp → Prop
  | .insert _ key _ _ => key ≠ 0
  | _ => True

/-- The run returns, with the results and the maps of the same run on finite maps. -/
def FollowsFiniteMaps (σ : Strings) (ops : List MapOp) : Prop :=
  ∃ w, runOps mapStep ⟨σ, []⟩ ops = some (w, (runAbstract absStep ⟨σ, []⟩ ops).2) ∧
    FiniteMaps w (runAbstract absStep ⟨σ, []⟩ ops).1

/-! ## The simulation -/

/-- The invariant of a map together with the finite map it stands for. -/
structure MapRel (σ : Strings) (m : KpMap) (f : Bytes → Option Bytes) : Prop where
  ok : TableOk σ m
  entries : ∀ c v, f c = some v ↔ Stored σ m.keys m.vals c v

def WorldRel (w : World) (a : AbsWorld) : Prop :=
  a.strings = w.strings ∧ List.Forall₂ (MapRel w.strings) w.maps a.maps

theorem forall₂_set {α β : Type} {R : α → β → Prop} {l : List α} {l' : List β} {x : α} {y : β}
    (h : List.Forall₂ R l l') (hxy : R x y) (i : Nat) : List.Forall₂ R (l.set i x) (l'.set i y) := by
  induction h generalizing i with
  | nil => exact .nil
  | cons hab _ ih =>
    cases i with
    | zero => exact .cons hxy ‹_›
    | succ i => exact .cons hab (ih i)

theorem forall₂_concat {α β : Type} {R : α → β → Prop} {l : List α} {l' : List β} {x : α} {y : β}
    (h : List.Forall₂ R l l') (hxy : R x y) : List.Forall₂ R (l ++ [x]) (l' ++ [y]) :=
  rel_append h (.cons hxy .nil)

variable {m : KpMap} {f : Bytes → Option Bytes} {σ : Strings}

namespace WorldRel

variable {w : World} {a : AbsWorld}

theorem put (h : WorldRel w a) (r : MapRef) (hm : MapRel w.strings m f) :
    WorldRel (w.put r m).1 (a.put r f).1 ∧ (w.put r m).2 = (a.put r f).2 := by
  obtain ⟨hσ, hmaps⟩ := h
  cases r with
  | none =>
    refine ⟨⟨hσ, forall₂_concat hmaps hm⟩, ?_⟩
    show some w.maps.length = some a.maps.length
    rw [hmaps.length_eq]
  | some i => exact ⟨⟨hσ, forall₂_set hmaps hm i⟩, rfl⟩

theorem deref (h : WorldRel w a) {i : Nat} (hi : i < w.maps.length) :
    ∃ m, w.deref (some i) = some m ∧ MapRel w.strings m (a.deref (some i)) := by
  obtain ⟨-, hmaps⟩ := h
  have hi' : i < a.maps.length := by rwa [← hmaps.length_eq]
  refine ⟨w.maps[i], getElem?_eq_getElem hi, ?_⟩
  show MapRel w.strings w.maps[i] (a.maps.getD i fun _ => none)
  rw [getD_eq_getElem _ _ hi']
  exact hmaps.get hi hi'

end WorldRel

theorem Reserved.write {m' : KpMap} {c0 : Bytes} (h : Reserved σ m m' c0) {i : Nat}
    (hi : i < m'.cap) (hlv : slots σ m'.keys i = .live c0) (v : Bytes)
    (hf : ∀ c x, f c = some x ↔ Stored σ m.keys m.vals c x) :
    MapRel σ { m' with vals := m'.vals.set i v } (update f c0 (some v)) := by
  have hok := h.ok
  have hi' : i < m'.keys.length := by rwa [hok.keys_len]
  constructor
  · exact { hok with vals_len := (length_set ..).trans hok.vals_len }
  intro c x
  show _ ↔ Stored σ _ _ c x
  rw [stored_write hi' hok.keys_len (by rw [hok.vals_len, hok.keys_len]) hok.probing hlv]
  by_cases hc : c = c0
  · subst hc
    simp [eq_comm]
  · rw [update_of_ne hc, hf, h.others c x hc]
    simp [hc]

theorem kpMapTryget_rel (h : MapRel σ m f)
    (key : Gptr) : kpMapTryget σ (some m) key = some (f (σ.bytes key)) := by
  obtain ⟨r, hget, hr⟩ := kpMapTryget_spec h.ok key
  rw [hget, Option.some.injEq]
  apply Option.ext
  intro v
  rw [hr, h.entries]

theorem isLive_of_even {key : Gptr} (heven : key % 2 = 0) (hne : key ≠ 0) : isLive key = true := by
  have htb : key ≠ 1 := by
    rintro rfl
    exact absurd heven (by decide)
  simp [isLive, keyEmpty, keyTomb, hne, htb]

theorem MapRel.strings {σ' : Strings} (h : MapRel σ m f)
    (hkp : ∀ k ∈ m.keys, isLive k = true → σ'.bytes k = σ.bytes k) : MapRel σ' m f := by
  have hsl : slots σ' m.keys = slots σ m.keys := by
    funext i
    unfold slots
    by_cases hi : i < m.keys.length
    · rw [getD_eq_getElem _ _ hi]
      unfold slotOf
      split
      · rfl
      split
      · rfl
      · rename_i h0 h1
        rw [hkp _ (getElem_mem hi) (by simp [isLive, h0, h1])]
    · rw [getD_eq_default _ _ (by omega)]
      rfl
  have hok := h.ok
  constructor
  · exact { hok with probing := by rw [hsl]; exact hok.probing }
  intro c v
  rw [h.entries]
  unfold Stored
  rw [hsl]

theorem mapStep_insert {w : World} {a : AbsWorld} (h : WorldRel w a) {r : MapRef} {key : Gptr}
    {elemsize : Nat} {v : Bytes} {m' : KpMap}
    (hres : kpMapReserve w.strings (w.deref r) key elemsize = some m')
    (hreserved : Reserved w.strings m m' (w.strings.bytes key))
    (hf : ∀ c x, a.deref r c = some x ↔ Stored w.strings m.keys m.vals c x) :
    ∃ w', mapStep w (.insert r key elemsize v) = some (w', (absStep a (.insert r key elemsize v)).2) ∧
      WorldRel w' (absStep a (.insert r key elemsize v)).1 := by
  rcases mapFind_spec hreserved.ok key with ⟨i, hfd, hi, hlv⟩ | ⟨-, habsent⟩
  · have hrel := hreserved.write hi hlv v hf
    obtain ⟨hput, hhnd⟩ := h.put r hrel
    refine ⟨(w.put r { m' with vals := m'.vals.set i v }).1, ?_, ?_⟩
    · simp only [mapStep, hres, kpMapGet, hfd, absStep, h.1]
      rw [hhnd]
    · simp only [absStep, h.1]
      exact hput
  · obtain ⟨i, hi, hlv⟩ := hreserved.present
    exact absurd hlv (habsent i hi)

/-- Every operation of a program that stores nothing under the nil string is followed by the finite
maps. -/
theorem mapStep_simulates (w : World) (a : AbsWorld) (op : MapOp) (h : WorldRel w a)
    (hop : op.Ok w ∧ op.NilFree) :
    ∃ w', mapStep w op = some (w', (absStep a op).2) ∧ WorldRel w' (absStep a op).1 := by
  obtain ⟨hok, hnil⟩ := hop
  cases op with
  | insert r key elemsize v =>
    have hkey := isLive_of_even hok.2.1 hnil
    cases r with
    | none =>
      obtain ⟨m', hres, hreserved⟩ := kpMapReserve_nil _ _ hkey
      refine mapStep_insert h hres hreserved fun c x => ?_
      exact iff_of_false (by simp [AbsWorld.deref]) stored_kpMapNew
    | some i =>
      obtain ⟨m, hm, hrel⟩ := h.deref (hok.1 i rfl)
      obtain ⟨m', hres, hreserved⟩ := kpMapReserve_spec hrel.ok _ hkey
      rw [← hm] at hres
      exact mapStep_insert h hres hreserved hrel.entries
  | lookup r key =>
    refine ⟨w, ?_, h⟩
    cases r with
    | none => rfl
    | some i =>
      obtain ⟨m, hm, hrel⟩ := h.deref (hok i rfl)
      simp [mapStep, hm, kpMapTryget_rel hrel, absStep, h.1]
  | delete r key =>
    cases r with
    | none => exact ⟨w, rfl, h⟩
    | some i =>
      obtain ⟨m, hm, hrel⟩ := h.deref (hok i rfl)
      obtain ⟨m', hdel, hok', hentries⟩ := kpMapDel_spec hrel.ok key
      have hrel' : MapRel w.strings m' (update (a.deref (some i)) (w.strings.bytes key) none) := by
        refine ⟨hok', fun c v => ?_⟩
        rw [hentries]
        by_cases hc : c = w.strings.bytes key
        · subst hc
          simp
        · rw [update_of_ne hc, hrel.entries]
          simp [hc]
      obtain ⟨hput, hhnd⟩ := h.put _ hrel'
      refine ⟨(w.put (some i) m').1, ?_, ?_⟩
      · simp only [mapStep, hm, hdel, absStep, h.1]
        rw [hhnd]
      · simp only [absStep, h.1]
        exact hput
  | clone r =>
    cases r with
    | none => exact ⟨w, rfl, h⟩
    | some i =>
      obtain ⟨m, hm, hrel⟩ := h.deref (hok i rfl)
      have hok' := hrel.ok
      have hclone : kpMapClone m = { kpMapNew m.elemsize with
          keys := m.keys, vals := m.vals, cap := m.cap, count := m.count, tombs := m.tombs } := by
        unfold kpMapClone
        rw [if_pos (by have := hok'.eight_le_cap; omega)]
      have hrel' : MapRel w.strings (kpMapClone m) (a.deref (some i)) := by
        rw [hclone]
        exact ⟨{ hok' with }, hrel.entries⟩
      obtain ⟨hput, hhnd⟩ := h.put _ hrel'
      refine ⟨(w.put none _).1, ?_, hput⟩
      simp only [mapStep, hm, absStep]
      rw [hhnd]
  | strings σ =>
    refine ⟨{ w with strings := σ }, rfl, rfl, ?_⟩
    have hmem : ∀ {l : List KpMap} {l' : List (Bytes → Option Bytes)},
        List.Forall₂ (MapRel w.strings) l l' →
        (∀ m ∈ l, ∀ k ∈ m.keys, isLive k = true → σ.bytes k = w.strings.bytes k) →
        List.Forall₂ (MapRel σ) l l' := by
      intro l l' hl hkp
      induction hl with
      | nil => exact .nil
      | cons hm _ ih =>
        exact .cons (hm.strings (hkp _ mem_cons_self)) (ih fun m' hm' => hkp m' (mem_cons_of_mem _ hm'))
    exact hmem h.2 hok

/-! ## Counting -/

theorem TableOk.nodup_contents (h : TableOk σ m) : ((m.keys.filter isLive).map σ.bytes).Nodup := by
  have hpr : m.keys.Pairwise fun k k' =>
      isLive k = true → isLive k' = true → σ.bytes k ≠ σ.bytes k' := by
    rw [pairwise_iff_getElem]
    intro i j hi hj hij hlv hlv' heq
    have hslot : ∀ n hn, isLive m.keys[n] = true →
        slots σ m.keys n = .live (σ.bytes m.keys[n]) := by
      intro n hn hl
      unfold slots
      rw [getD_eq_getElem _ _ hn, slotOf_of_live hl]
    have hsm := h.probing.unique i (by rwa [← h.keys_len]) j (by rwa [← h.keys_len]) _
      (hslot i hi hlv) (by rw [heq]; exact hslot j hj hlv')
    omega
  rw [List.Nodup, pairwise_map]
  refine (hpr.filter _).imp_of_mem ?_
  intro k k' hk hk' hne
  exact hne (mem_filter.mp hk).2 (mem_filter.mp hk').2

theorem MapRel.behaves (h : MapRel σ m f) : MapBehaves σ m f := by
  have hok := h.ok
  have hsl : ∀ i < m.cap, isLive (keyAt m i) = true →
      slots σ m.keys i = .live (σ.bytes (keyAt m i)) := fun i _ hl => slotOf_of_live hl
  constructor
  · exact kpMapTryget_rel h
  · have hdom : {c | f c ≠ none} = ((m.keys.filter isLive).map σ.bytes).toFinset := by
      ext c
      rw [Set.mem_ofPred_eq, Option.ne_none_iff_exists', coe_toFinset, Set.mem_ofPred_eq, mem_map]
      constructor
      · rintro ⟨v, hv⟩
        obtain ⟨i, hi, hlv, -⟩ := (h.entries c v).mp hv
        obtain ⟨hl, hbs⟩ := slotOf_eq_live.mp hlv
        rw [getD_eq_getElem _ _ hi] at hl hbs
        exact ⟨m.keys[i], mem_filter.mpr ⟨getElem_mem hi, hl⟩, hbs⟩
      · rintro ⟨k, hk, rfl⟩
        obtain ⟨hmem, hl⟩ := mem_filter.mp hk
        obtain ⟨i, hi, rfl⟩ := getElem_of_mem hmem
        refine ⟨m.vals.getD i [], (h.entries _ _).mpr ⟨i, hi, ?_, rfl⟩⟩
        unfold slots
        rw [getD_eq_getElem _ _ hi, slotOf_of_live hl]
    rw [hdom, Set.ncard_coe_finset, toFinset_card_of_nodup hok.nodup_contents, length_map,
      ← countP_eq_length_filter]
    exact hok.count_eq
  · intro i hi j hj hl hl' heq
    exact hok.probing.unique i hi j hj _ (hsl i hi hl) (by rw [heq]; exact hsl j hj hl')
  · exact hok.cap_pow.imp fun _ hk => hk.1
  · obtain ⟨i, hi, hemp⟩ := hok.probing.hole
    exact ⟨i, hi, slotOf_eq_empty.mp hemp⟩

/-- A program that never stores under the nil string runs as on finite maps. -/
theorem mapRun_followsFiniteMaps (σ : Strings) (ops : List MapOp)
    (hok : OpsMeet mapStep (fun w op => op.Ok w) ⟨σ, []⟩ ops) (hnil : ∀ op ∈ ops, op.NilFree) :
    FollowsFiniteMaps σ ops := by
  have hbeg : WorldRel ⟨σ, []⟩ ⟨σ, []⟩ := ⟨rfl, .nil⟩
  obtain ⟨w, hrun, hσ, hmaps⟩ := runOps_simulates mapStep_simulates hbeg (hok.and hnil)
  exact ⟨w, hrun, hσ, hmaps.imp fun _ _ hm => hm.behaves⟩

theorem growthFits_one : GrowthFits 1 none := by
  unfold GrowthFits mapInitCap
  decide

/-- One string besides the empty one. -/
def oneString : Strings := ⟨fun h => if h = 2 then [97] else [], rfl⟩

theorem mapRun_followsFiniteMaps_oneKey :
    FollowsFiniteMaps oneString [.insert none 2 1 [5], .lookup (some 0) 2] := by
  have hsz : (mapStep ⟨oneString, []⟩ (.insert none 2 1 [5])).map (·.1.maps.length) = some 1 := by
    decide
  apply mapRun_followsFiniteMaps
  · refine ⟨⟨fun i hi => absurd hi (by simp), rfl, growthFits_one⟩, fun w r hst => ⟨?_, fun _ _ _ => trivial⟩⟩
    rw [hst] at hsz
    intro i hi
    cases hi
    exact Nat.lt_of_lt_of_eq one_pos (Option.some.inj hsz).symm
  · intro op hop
    simp only [mem_cons, not_mem_nil, or_false] at hop
    rcases hop with rfl | rfl
    · exact (by decide : (2 : Gptr) ≠ 0)
    · trivial

/-- A store under the empty string traps instead: the key word of nil marks an empty slot. -/
theorem nilKey_not_followsFiniteMaps :
    ¬ ∀ (σ : Strings) (ops : List MapOp), OpsMeet mapStep (fun w op => op.Ok w) ⟨σ, []⟩ ops →
      FollowsFiniteMaps σ ops := by
  intro h
  obtain ⟨w, hrun, -⟩ := h _ [.insert none 0 1 [5]]
    ⟨⟨fun i hi => absurd hi (by simp), rfl, growthFits_one⟩, fun _ _ _ => trivial⟩
  have hout : (runOps mapStep ⟨oneString, []⟩ [.insert none 0 1 [5]]).map (·.2) = some [.trapKey] := by
    decide
  have habs : (runAbstract absStep ⟨oneString, []⟩ [.insert none 0 1 [5]]).2 ≠ [.trapKey] := by
    decide
  rw [hrun] at hout
  exact habs (Option.some.inj hout)

end Skjegg.Kobold
