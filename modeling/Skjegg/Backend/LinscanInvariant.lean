import Skjegg.Backend.Linscan

/-!
# The loop invariant of `linscan`

`ScanInv p` ties the free pool, the active list and the places given out after the first `p`
intervals. `scanStep_inv` keeps it through every branch of a round, and `linscan_valid` reads the
allocation off it.
-/

namespace Skjegg.Backend

open Function
open List

variable {ivs : List Interval} {C : Pool} {reserved : Nat → Bool}

def Pool.Allows (C : Pool) (reserved : Nat → Bool) (r : Int) : Prop :=
  ∃ k < C.numRegs, r = (k + C.firstReg : Nat) ∧ reserved k = false

/-- After `p` rounds.  `bound q` says how long ago an interval that still owns a register but is no
longer active has ended. -/
structure ScanInv (ivs : List Interval) (C : Pool) (reserved : Nat → Bool) (bound : Nat → Prop)
    (p : Nat) (s : ScanState) : Prop where
  activeLt : ∀ r ∈ s.active, r < p
  activeNodup : s.active.Nodup
  activeSorted : s.active.Pairwise fun a b => (ivAt ivs a).stop ≤ (ivAt ivs b).stop
  activeReg : ∀ r ∈ s.active, C.Allows reserved (s.reg r)
  activeTaken : ∀ r ∈ s.active, ∀ k, s.reg r = (k + C.firstReg : Nat) → s.pool k = false
  activeInj : ∀ r ∈ s.active, ∀ q ∈ s.active, s.reg r = s.reg q → r = q
  poolFree : ∀ k < C.numRegs, s.pool k = true → reserved k = false
  poolTaken : ∀ k < C.numRegs, s.pool k = false → reserved k = false →
    ∃ r ∈ s.active, s.reg r = (k + C.firstReg : Nat)
  done : ∀ q < p, (C.Allows reserved (s.reg q) ∧ s.spill q = -1) ∨
    (s.reg q = -1 ∧ ∃ j < s.nspills, s.spill q = (j * C.spillSize : Nat))
  fresh : ∀ q, p ≤ q → s.reg q = -1 ∧ s.spill q = -1
  idle : ∀ q < p, q ∉ s.active → 0 ≤ s.reg q → bound q
  disjoint : ∀ q r, q < r → r < p → 0 ≤ s.reg q → s.reg q = s.reg r → (ivAt ivs q).stop < (ivAt ivs r).start
  spillInj : ∀ q < p, ∀ r < p, q ≠ r → 0 ≤ s.spill q → s.spill q ≠ s.spill r

theorem Pool.Allows.nonneg {r : Int} (h : C.Allows reserved r) : 0 ≤ r := by
  obtain ⟨k, -, rfl, -⟩ := h
  exact Int.natCast_nonneg _

/-! ## The active list -/

variable {l : List Nat} {forceSpill : Nat → Bool} {qsort : List Interval → List Interval}

theorem insertActive_perm (p : Nat) (l : List Nat) : (insertActive ivs p l).Perm (p :: l) := by
  induction l with
  | nil => exact .refl _
  | cons r rest ih =>
    unfold insertActive
    split
    · exact .refl _
    · exact (ih.cons r).trans (.swap p r _)

theorem mem_insertActive {p q : Nat} : q ∈ insertActive ivs p l ↔ q = p ∨ q ∈ l :=
  (insertActive_perm p l).mem_iff.trans mem_cons

variable {p : Nat}

theorem insertActive_nodup (hl : l.Nodup) (hp : p ∉ l) : (insertActive ivs p l).Nodup :=
  (insertActive_perm p l).nodup_iff.mpr (nodup_cons.mpr ⟨hp, hl⟩)

theorem insertActive_sorted (hl : l.Pairwise fun a b => (ivAt ivs a).stop ≤ (ivAt ivs b).stop) :
    (insertActive ivs p l).Pairwise fun a b => (ivAt ivs a).stop ≤ (ivAt ivs b).stop := by
  induction l with
  | nil => simp [insertActive]
  | cons r rest ih =>
    rw [pairwise_cons] at hl
    simp only [insertActive]
    split
    · rename_i hgt
      refine pairwise_cons.mpr ⟨fun q hq => ?_, pairwise_cons.mpr hl⟩
      rcases mem_cons.mp hq with rfl | hq
      · exact le_of_lt hgt
      · exact le_trans (le_of_lt hgt) (hl.1 q hq)
    · rename_i hle
      refine pairwise_cons.mpr ⟨fun q hq => ?_, ih hl.2⟩
      rcases mem_insertActive.mp hq with rfl | hq
      · exact not_lt.mp hle
      · exact hl.1 q hq

/-! ## Expiry -/

theorem foldl_release {ended : Nat → Prop} [DecidablePred ended] (idx : Nat → Nat) (l : List Nat)
    (pool : Nat → Bool) (k : Nat) :
    (l.foldl (fun pool r => if ended r then update pool (idx r) true else pool) pool) k =
      true ↔ pool k = true ∨ ∃ r ∈ l, ended r ∧ idx r = k := by
  induction l generalizing pool with
  | nil => simp
  | cons r rest ih =>
    rw [foldl_cons, ih]
    by_cases hr : ended r
    · by_cases hk : idx r = k
      · simp [hr, hk]
      · simp [hr, hk, update_of_ne (Ne.symm hk)]
    · simp [hr]

theorem Pool.Allows.index {r : Int} (h : C.Allows reserved r) :
    (r - C.firstReg).toNat < C.numRegs ∧ r = ((r - C.firstReg).toNat + C.firstReg : Nat) ∧
      reserved (r - C.firstReg).toNat = false := by
  obtain ⟨k, hk, rfl, hres⟩ := h
  have hidx : (((k + C.firstReg : Nat) : Int) - C.firstReg).toNat = k := by omega
  rw [hidx]
  exact ⟨hk, rfl, hres⟩

variable {s : ScanState}

theorem expire_inv {bound : Nat → Prop} (h : ScanInv ivs C reserved bound p s)
    (hbd : ∀ q, bound q → (ivAt ivs q).stop < (ivAt ivs p).start) :
    ScanInv ivs C reserved (fun q => (ivAt ivs q).stop < (ivAt ivs p).start) p
      (expire ivs C.firstReg (ivAt ivs p).start s) := by
  have hmem : ∀ r, r ∈ (expire ivs C.firstReg (ivAt ivs p).start s).active ↔
      r ∈ s.active ∧ ¬ (ivAt ivs r).stop < (ivAt ivs p).start := by
    simp [expire]
  have hpool : ∀ k, (expire ivs C.firstReg (ivAt ivs p).start s).pool k = true ↔
      s.pool k = true ∨ ∃ r ∈ s.active, (ivAt ivs r).stop < (ivAt ivs p).start ∧
        (s.reg r - C.firstReg).toNat = k :=
    fun k => foldl_release (fun r => (s.reg r - C.firstReg).toNat) _ _ k
  refine ⟨fun r hr => h.activeLt r ((hmem r).mp hr).1, h.activeNodup.filter _,
    h.activeSorted.filter _, fun r hr => h.activeReg r ((hmem r).mp hr).1, ?_,
    fun r hr q hq => h.activeInj r ((hmem r).mp hr).1 q ((hmem q).mp hq).1, ?_, ?_, h.done,
    h.fresh, ?_, h.disjoint, h.spillInj⟩
  · -- a register still owned by an active interval was not among those released
    intro r hr k hk
    obtain ⟨hra, hlv⟩ := (hmem r).mp hr
    rw [← Bool.not_eq_true, hpool, not_or, Bool.not_eq_true]
    refine ⟨h.activeTaken r hra k hk, ?_⟩
    rintro ⟨q, hqa, hend, hidx⟩
    have hq := (h.activeReg q hqa).index.2.1
    rw [hidx] at hq
    exact hlv (h.activeInj r hra q hqa (hk.trans hq.symm) ▸ hend)
  · intro k hk htr
    rcases (hpool k).mp htr with hfr | ⟨r, hra, -, rfl⟩
    · exact h.poolFree k hk hfr
    · exact (h.activeReg r hra).index.2.2
  · intro k hk hff hres
    rw [← Bool.not_eq_true, hpool, not_or, Bool.not_eq_true] at hff
    obtain ⟨r, hra, hreg⟩ := h.poolTaken k hk hff.1 hres
    refine ⟨r, (hmem r).mpr ⟨hra, fun hend => hff.2 ⟨r, hra, hend, ?_⟩⟩, hreg⟩
    omega
  · intro q hq hqa hreg
    by_cases hact : q ∈ s.active
    · by_contra hlv
      exact hqa ((hmem q).mpr ⟨hact, hlv⟩)
    · exact hbd q (h.idle q hq hact hreg)

/-! ## The three ways a round ends -/

def EndedBefore (ivs : List Interval) (p q : Nat) : Prop :=
  ∃ p' < p, (ivAt ivs q).stop < (ivAt ivs p').start

section Branches

variable {p : Nat} {s : ScanState}
  (h : ScanInv ivs C reserved (fun q => (ivAt ivs q).stop < (ivAt ivs p).start) p s)

include h

theorem ScanInv.not_mem_active : p ∉ s.active := fun hp => lt_irrefl _ (h.activeLt p hp)

theorem ScanInv.spill_lt_next (hsz : 0 < C.spillSize) (q : Nat) (hq : q < p) :
    s.spill q < (s.nspills * C.spillSize : Nat) := by
  rcases h.done q hq with ⟨-, hsp⟩ | ⟨-, j, hj, hsp⟩
  · omega
  · rw [hsp, Int.ofNat_lt]
    exact mul_lt_mul_of_pos_right hj hsz

/-- The next spill slot is no interval's yet. -/
theorem ScanInv.spill_inj_next (hsz : 0 < C.spillSize) {n q r : Nat} {f : Nat → Int}
    (hnew : f n = (s.nspills * C.spillSize : Nat)) (hold : ∀ q, q ≠ n → f q = s.spill q)
    (hq : q < p ∨ q = n) (hr : r < p ∨ r = n) (hne : q ≠ r) (hpos : 0 ≤ f q) : f q ≠ f r := by
  by_cases hqn : q = n
  · have hrn : r ≠ n := fun hrn => hne (hqn.trans hrn.symm)
    rw [hqn, hnew, hold r hrn]
    exact (h.spill_lt_next hsz r (hr.resolve_right hrn)).ne'
  rw [hold q hqn] at hpos ⊢
  by_cases hrn : r = n
  · rw [hrn, hnew]
    exact (h.spill_lt_next hsz q (hq.resolve_right hqn)).ne
  · rw [hold r hrn]
    exact h.spillInj q (hq.resolve_right hqn) r (hr.resolve_right hrn) hne hpos

theorem spillTo_inv (hsz : 0 < C.spillSize) :
    ScanInv ivs C reserved (EndedBefore ivs (p + 1)) (p + 1) (spillTo C.spillSize p s) := by
  have hold : ∀ q, q ≠ p → (spillTo C.spillSize p s).spill q = s.spill q := fun q hq =>
    update_of_ne hq _ _
  have hnew : (spillTo C.spillSize p s).spill p = (s.nspills * C.spillSize : Nat) := update_self _ _ _
  refine { h with
    activeLt := fun r hr => Nat.lt_succ_of_lt (h.activeLt r hr)
    done := ?_, fresh := ?_, idle := ?_, disjoint := ?_
    spillInj := fun q hq r hr => h.spill_inj_next hsz hnew hold (by omega) (by omega) }
  · intro q hq
    rcases Nat.lt_succ_iff_lt_or_eq.mp hq with hq | rfl
    · rw [hold q hq.ne]
      rcases h.done q hq with hd | ⟨hr, j, hj, hsp⟩
      · exact .inl hd
      · exact .inr ⟨hr, j, Nat.lt_succ_of_lt hj, hsp⟩
    · exact .inr ⟨(h.fresh q le_rfl).1, s.nspills, Nat.lt_succ_self _, hnew⟩
  · intro q hq
    rw [hold q (by omega)]
    exact h.fresh q (by omega)
  · intro q hq hqa hreg
    rcases Nat.lt_succ_iff_lt_or_eq.mp hq with hq | rfl
    · exact ⟨p, Nat.lt_succ_self p, h.idle q hq hqa hreg⟩
    · have := (h.fresh q le_rfl).1
      change 0 ≤ s.reg q at hreg
      omega
  · intro q r hqr hr hreg heq
    rcases Nat.lt_succ_iff_lt_or_eq.mp hr with hr | rfl
    · exact h.disjoint q r hqr hr hreg heq
    have := (h.fresh r le_rfl).1
    change s.reg q = s.reg r at heq
    change 0 ≤ s.reg q at hreg
    omega

theorem take_inv {k : Nat} (hk : k < C.numRegs) (hfr : s.pool k = true) :
    ScanInv ivs C reserved (EndedBefore ivs (p + 1)) (p + 1)
      { s with
        reg := update s.reg p (k + C.firstReg : Nat)
        pool := update s.pool k false
        active := insertActive ivs p s.active } := by
  have hold : ∀ q, q ≠ p → update s.reg p (k + C.firstReg : Nat) q = s.reg q :=
    fun q hq => update_of_ne hq _ _
  have hne : ∀ r ∈ s.active, r ≠ p := fun r hr => (h.activeLt r hr).ne
  -- the register is free, so no active interval owns it
  have hown : ∀ r ∈ s.active, s.reg r ≠ (k + C.firstReg : Nat) := by
    intro r hr hreg
    rw [h.activeTaken r hr k hreg] at hfr
    exact Bool.noConfusion hfr
  have hallow : C.Allows reserved (k + C.firstReg : Nat) := ⟨k, hk, rfl, h.poolFree k hk hfr⟩
  refine ⟨?_, insertActive_nodup h.activeNodup h.not_mem_active,
    insertActive_sorted h.activeSorted, ?_, ?_, ?_, ?_, ?_, ?_, ?_, ?_, ?_, ?_⟩
  · intro r hr
    rcases mem_insertActive.mp hr with rfl | hr
    · exact Nat.lt_succ_self _
    · exact Nat.lt_succ_of_lt (h.activeLt r hr)
  · intro r hr
    rcases mem_insertActive.mp hr with rfl | hr
    · simpa using hallow
    · simpa only [hold r (hne r hr)] using h.activeReg r hr
  · intro r hr j hj
    by_cases hjk : j = k
    · subst hjk
      exact update_self _ _ _
    rcases mem_insertActive.mp hr with rfl | hr
    · simp only [update_self] at hj
      omega
    · simp only [hold r (hne r hr)] at hj
      simpa only [update_of_ne hjk] using h.activeTaken r hr j hj
  · intro r hr q hq heq
    rcases mem_insertActive.mp hr with hrp | hra <;> rcases mem_insertActive.mp hq with hqp | hqa
    · exact hrp.trans hqp.symm
    · simp only [hrp, update_self, hold q (hne q hqa)] at heq
      exact absurd heq.symm (hown q hqa)
    · simp only [hqp, update_self, hold r (hne r hra)] at heq
      exact absurd heq (hown r hra)
    · simp only [hold r (hne r hra), hold q (hne q hqa)] at heq
      exact h.activeInj r hra q hqa heq
  · intro j hj htr
    by_cases hjk : j = k
    · subst hjk
      exact h.poolFree j hj hfr
    · simp only [update_of_ne hjk] at htr
      exact h.poolFree j hj htr
  · intro j hj hff hres
    by_cases hjk : j = k
    · subst hjk
      exact ⟨p, mem_insertActive.mpr (.inl rfl), update_self _ _ _⟩
    · simp only [update_of_ne hjk] at hff
      obtain ⟨r, hr, hreg⟩ := h.poolTaken j hj hff hres
      exact ⟨r, mem_insertActive.mpr (.inr hr), (hold r (hne r hr)).trans hreg⟩
  · intro q hq
    rcases Nat.lt_succ_iff_lt_or_eq.mp hq with hq | rfl
    · simpa only [hold q hq.ne] using h.done q hq
    · exact .inl ⟨by simpa using hallow, (h.fresh q le_rfl).2⟩
  · intro q hq
    simpa only [hold q (by omega : q ≠ p)] using h.fresh q (by omega)
  · intro q hq hqa hreg
    rw [mem_insertActive, not_or] at hqa
    simp only [hold q hqa.1] at hreg
    exact ⟨p, Nat.lt_succ_self p, h.idle q (by omega) hqa.2 hreg⟩
  · intro q r hqr hr hreg heq
    simp only [hold q (by omega : q ≠ p)] at hreg heq
    rcases Nat.lt_succ_iff_lt_or_eq.mp hr with hr | rfl
    · simp only [hold r hr.ne] at heq
      exact h.disjoint q r hqr hr hreg heq
    · simp only [update_self] at heq
      exact h.idle q hqr (fun hqa => hown q hqa heq) hreg
  · intro q hq r hr hne' hpos
    rcases Nat.lt_succ_iff_lt_or_eq.mp hq with hq | rfl
    · rcases Nat.lt_succ_iff_lt_or_eq.mp hr with hr | rfl
      · exact h.spillInj q hq r hr hne' hpos
      · have := (h.fresh r le_rfl).2
        simp only at hpos ⊢
        omega
    · have := (h.fresh q le_rfl).2
      simp only at hpos
      omega

theorem evict_inv (hsz : 0 < C.spillSize) {sp k : Nat} {rest : List Nat}
    (hact : s.active = rest ++ [sp]) (hreg : s.reg sp = (k + C.firstReg : Nat)) :
    ScanInv ivs C reserved (fun q => (ivAt ivs q).stop < (ivAt ivs p).start) p
      { reg := update s.reg sp (-1)
        spill := update s.spill sp (s.nspills * C.spillSize : Nat)
        pool := update s.pool k true
        active := rest
        nspills := s.nspills + 1 } := by
  have hmem : sp ∈ s.active := by simp [hact]
  have hsub : ∀ r ∈ rest, r ∈ s.active := fun r hr => by simp [hact, hr]
  have hnd := h.activeNodup
  rw [hact, nodup_append] at hnd
  have hne : ∀ r ∈ rest, r ≠ sp := fun r hr => hnd.2.2 r hr sp (by simp)
  have hold : ∀ q, q ≠ sp → update s.reg sp (-1) q = s.reg q := fun q hq => update_of_ne hq _ _
  have hsl : ∀ q, q ≠ sp → update s.spill sp (s.nspills * C.spillSize : Nat) q =
      s.spill q := fun q hq => update_of_ne hq _ _
  have hsrt := h.activeSorted
  rw [hact, pairwise_append] at hsrt
  refine ⟨fun r hr => h.activeLt r (hsub r hr), hnd.1, hsrt.1, ?_, ?_, ?_, ?_, ?_, ?_, ?_, ?_, ?_,
    fun q hq r hr => h.spill_inj_next hsz (update_self ..) hsl (.inl hq) (.inl hr)⟩
  · intro r hr
    simpa only [hold r (hne r hr)] using h.activeReg r (hsub r hr)
  · intro r hr j hj
    simp only [hold r (hne r hr)] at hj
    have hjk : j ≠ k := by
      rintro rfl
      exact hne r hr (h.activeInj r (hsub r hr) sp hmem (hj.trans hreg.symm))
    simpa only [update_of_ne hjk] using h.activeTaken r (hsub r hr) j hj
  · intro r hr q hq heq
    simp only [hold r (hne r hr), hold q (hne q hq)] at heq
    exact h.activeInj r (hsub r hr) q (hsub q hq) heq
  · intro j hj htr
    by_cases hjk : j = k
    · obtain ⟨-, -, hres⟩ := (h.activeReg sp hmem).index
      rw [hreg, show (((k + C.firstReg : Nat) : Int) - C.firstReg).toNat = k by omega] at hres
      rwa [hjk]
    · simp only [update_of_ne hjk] at htr
      exact h.poolFree j hj htr
  · intro j hj hff hres
    have hjk : j ≠ k := by
      rintro rfl
      simp at hff
    simp only [update_of_ne hjk] at hff
    obtain ⟨r, hr, hrj⟩ := h.poolTaken j hj hff hres
    have hrsp : r ≠ sp := by
      rintro rfl
      omega
    rw [hact, mem_append, mem_singleton] at hr
    exact ⟨r, hr.resolve_right hrsp, (hold r hrsp).trans hrj⟩
  · intro q hq
    by_cases hqsp : q = sp
    · subst hqsp
      exact .inr ⟨update_self _ _ _, s.nspills, Nat.lt_succ_self _, update_self _ _ _⟩
    simp only [hold q hqsp, hsl q hqsp]
    rcases h.done q hq with hd | ⟨hr, j, hj, hs⟩
    · exact .inl hd
    · exact .inr ⟨hr, j, Nat.lt_succ_of_lt hj, hs⟩
  · intro q hq
    have hqsp : q ≠ sp := by
      have := h.activeLt sp hmem
      omega
    simpa only [hold q hqsp, hsl q hqsp] using h.fresh q hq
  · intro q hq hqa hpos
    have hqsp : q ≠ sp := by
      rintro rfl
      simp at hpos
    simp only [hold q hqsp] at hpos
    refine h.idle q hq (fun hmem' => ?_) hpos
    rw [hact, mem_append, mem_singleton] at hmem'
    exact hmem'.elim hqa hqsp
  · intro q r hqr hr hpos heq
    have hqsp : q ≠ sp := by
      rintro rfl
      simp at hpos
    simp only [hold q hqsp] at hpos heq
    have hrsp : r ≠ sp := by
      rintro rfl
      simp only [update_self] at heq
      omega
    simp only [hold r hrsp] at heq
    exact h.disjoint q r hqr hr hpos heq

end Branches

/-! ## A round and the whole loop -/

theorem scanStep_inv {s s' : ScanState} (hsz : 0 < C.spillSize)
    (hsrt : ∀ q < p, (ivAt ivs q).start ≤ (ivAt ivs p).start)
    (h : ScanInv ivs C reserved (EndedBefore ivs p) p s) (hst : scanStep ivs C forceSpill s p = some s') :
    ScanInv ivs C reserved (EndedBefore ivs (p + 1)) (p + 1) s' := by
  have hE := expire_inv h fun q ⟨p', hp', hlt⟩ => lt_of_lt_of_le hlt (hsrt p' hp')
  simp only [scanStep] at hst
  generalize expire ivs _ (ivAt ivs p).start s = e at hE hst
  split at hst
  · cases hst
    exact spillTo_inv hE hsz
  split at hst
  · rename_i k hfd
    cases hst
    have hk : k < C.numRegs := mem_range.mp (mem_of_find?_eq_some hfd)
    exact take_inv hE hk (find?_some hfd)
  split at hst
  · cases hst
  rename_i sp hls
  split at hst
  · cases hst
    have hact : e.active = e.active.dropLast ++ [sp] := (dropLast_append_getLast? sp hls).symm
    have hmem : sp ∈ e.active := mem_of_getLast? hls
    obtain ⟨k, hk, hreg, -⟩ := hE.activeReg sp hmem
    have htaken := hE.activeTaken sp hmem k hreg
    have hev := evict_inv hE hsz hact hreg
    have hta := take_inv hev hk (update_self _ _ _)
    have hpsp : p ≠ sp := (hE.activeLt sp hmem).ne'
    have hpool : update (update e.pool k true) k false = e.pool := by
      rw [update_idem, ← htaken, update_eq_self]
    simp only [hpool] at hta
    simpa only [spillTo, hreg, update_comm hpsp] using hta
  · cases hst
    exact spillTo_inv hE hsz

/-- With an unreserved register in the pool, that register is free or belongs to an active interval.
-/
theorem scanStep_some (forceSpill : Nat → Bool) (hres : ∃ k < C.numRegs, reserved k = false)
    (hsrt : ∀ q < p, (ivAt ivs q).start ≤ (ivAt ivs p).start)
    (h : ScanInv ivs C reserved (EndedBefore ivs p) p s) :
    ∃ s', scanStep ivs C forceSpill s p = some s' := by
  have hE := expire_inv h fun q ⟨p', hp', hlt⟩ => lt_of_lt_of_le hlt (hsrt p' hp')
  simp only [scanStep]
  generalize expire ivs _ (ivAt ivs p).start s = e at hE ⊢
  split
  · exact ⟨_, rfl⟩
  split
  · exact ⟨_, rfl⟩
  rename_i hfd
  obtain ⟨k, hk, hfr⟩ := hres
  have hbusy : e.pool k = false := by
    simpa using find?_eq_none.mp hfd k (mem_range.mpr hk)
  obtain ⟨r, hr, -⟩ := hE.poolTaken k hk hbusy hfr
  split
  · rename_i hls
    rw [getLast?_eq_none_iff.mp hls] at hr
    exact absurd hr not_mem_nil
  · split
    · exact ⟨_, rfl⟩
    · exact ⟨_, rfl⟩

theorem scanInit_inv : ScanInv ivs C reserved (EndedBefore ivs 0) 0 (scanInit reserved) := by
  constructor <;> simp [scanInit]

def StartsSorted (ivs : List Interval) : Prop :=
  ∀ q p, q < p → p < ivs.length → (ivAt ivs q).start ≤ (ivAt ivs p).start

theorem scanLoop_inv (hsz : 0 < C.spillSize) (hsrt : StartsSorted ivs) (n : Nat) (hn : n ≤ ivs.length)
    (hrun : (List.range n).foldlM (scanStep ivs C forceSpill) (scanInit reserved) = some s) :
    ScanInv ivs C reserved (EndedBefore ivs n) n s := by
  induction n generalizing s with
  | zero =>
    cases hrun
    exact scanInit_inv
  | succ n ih =>
    rw [range_succ, foldlM_append] at hrun
    obtain ⟨s1, hs1, hls⟩ := Option.bind_eq_some_iff.mp hrun
    exact scanStep_inv hsz (fun q hq => hsrt q n hq hn) (ih (by omega) hs1) (by simpa using hls)

theorem scanLoop_some (forceSpill : Nat → Bool) (hsz : 0 < C.spillSize)
    (hres : ∃ k < C.numRegs, reserved k = false) (hsrt : StartsSorted ivs)
    (n : Nat) (hn : n ≤ ivs.length) :
    ∃ s, (List.range n).foldlM (scanStep ivs C forceSpill) (scanInit reserved) = some s := by
  induction n with
  | zero => exact ⟨_, rfl⟩
  | succ n ih =>
    obtain ⟨s, hs⟩ := ih (by omega)
    obtain ⟨s', hs'⟩ := scanStep_some _ hres (fun q hq => hsrt q n hq hn)
      (scanLoop_inv hsz hsrt n (by omega) hs)
    refine ⟨s', ?_⟩
    rw [range_succ, foldlM_append, hs]
    simpa using hs'

/-! ## Reading the result -/

theorem ivAt_eq_getElem (hp : p < ivs.length) : ivAt ivs p = ivs[p] := by
  simp [ivAt, hp]

theorem writeBack_spec (hnd : (ivs.map Interval.temp).Nodup) (reg spill : Nat → Int) (al : Alloc) :
    (∀ p < ivs.length, (writeBack ivs reg spill al).tempReg (ivAt ivs p).temp = reg p ∧
      (writeBack ivs reg spill al).tempSpill (ivAt ivs p).temp = spill p) ∧
    ∀ t, (∀ p < ivs.length, (ivAt ivs p).temp ≠ t) → (writeBack ivs reg spill al).tempReg t = al.tempReg t ∧
        (writeBack ivs reg spill al).tempSpill t = al.tempSpill t := by
  have hinj : ∀ p q, p < ivs.length → q < ivs.length → (ivAt ivs p).temp = (ivAt ivs q).temp → p = q := by
    intro p q hp hq heq
    rw [ivAt_eq_getElem hp, ivAt_eq_getElem hq] at heq
    have hp' : p < (ivs.map Interval.temp).length := by simpa using hp
    have hq' : q < (ivs.map Interval.temp).length := by simpa using hq
    have heq' : (ivs.map Interval.temp)[p] = (ivs.map Interval.temp)[q] := by simpa using heq
    exact hnd.getElem_inj_iff.mp heq'
  -- the loop has run over the first `n` intervals
  have hlp : ∀ n ≤ ivs.length, ∀ w, w = (range n).foldl (fun al p =>
      ({ tempReg := update al.tempReg (ivAt ivs p).temp (reg p)
         tempSpill := update al.tempSpill (ivAt ivs p).temp (spill p) } : Alloc)) al →
      (∀ p < n, w.tempReg (ivAt ivs p).temp = reg p ∧ w.tempSpill (ivAt ivs p).temp = spill p) ∧
      ∀ t, (∀ p < n, (ivAt ivs p).temp ≠ t) →
        w.tempReg t = al.tempReg t ∧ w.tempSpill t = al.tempSpill t := by
    intro n
    induction n with
    | zero => rintro - w rfl; simp
    | succ n ih =>
      intro hn w hw
      rw [range_succ, foldl_append] at hw
      obtain ⟨hset, hkp⟩ := ih (by omega) _ rfl
      subst hw
      constructor
      · intro p hp
        rcases Nat.lt_succ_iff_lt_or_eq.mp hp with hp | rfl
        · have hne : (ivAt ivs p).temp ≠ (ivAt ivs n).temp := fun heq => by
            have := hinj p n (by omega) (by omega) heq
            omega
          simpa [update_of_ne hne] using hset p hp
        · simp
      · intro t ht
        have hne : t ≠ (ivAt ivs n).temp := fun heq => ht n (by omega) heq.symm
        simpa [update_of_ne hne] using hkp t fun p hp => ht p (by omega)
  exact hlp _ le_rfl _ rfl

def LiveTemp (ntemps : Nat) (firstDef : Nat → Int) (isClass : Nat → Bool) (t : Nat) : Prop :=
  t < ntemps ∧ isClass t = true ∧ 0 ≤ firstDef t

def liveInterval (firstDef lastUse : Nat → Int) (t : Nat) : Interval :=
  ⟨t, firstDef t, max (firstDef t) (lastUse t)⟩

/-- What an allocation of one class promises. -/
structure ValidAllocation (ntemps : Nat) (firstDef lastUse : Nat → Int) (isClass : Nat → Bool)
    (C : Pool) (reserved : Nat → Bool) (old new : Alloc) (nspills : Nat) : Prop where
  exactlyOne : ∀ t, LiveTemp ntemps firstDef isClass t →
    (0 ≤ new.tempReg t ∧ new.tempSpill t = -1) ∨ (new.tempReg t = -1 ∧ 0 ≤ new.tempSpill t)
  noShare : ∀ t u, LiveTemp ntemps firstDef isClass t → LiveTemp ntemps firstDef isClass u →
    t ≠ u → (liveInterval firstDef lastUse t).Meets (liveInterval firstDef lastUse u) →
    0 ≤ new.tempReg t → new.tempReg t ≠ new.tempReg u
  regAllowed : ∀ t, LiveTemp ntemps firstDef isClass t → 0 ≤ new.tempReg t →
    (C.firstReg : Int) ≤ new.tempReg t ∧ new.tempReg t < C.firstReg + C.numRegs ∧
      reserved (new.tempReg t - C.firstReg).toNat = false
  spillSlot : ∀ t, LiveTemp ntemps firstDef isClass t → 0 ≤ new.tempSpill t →
    ∃ j : Nat, new.tempSpill t = j * C.spillSize ∧ new.tempSpill t < nspills * C.spillSize
  spillDistinct : ∀ t u, LiveTemp ntemps firstDef isClass t → LiveTemp ntemps firstDef isClass u →
    t ≠ u → 0 ≤ new.tempSpill t → new.tempSpill t ≠ new.tempSpill u
  frame : ∀ t, ¬ LiveTemp ntemps firstDef isClass t →
    new.tempReg t = old.tempReg t ∧ new.tempSpill t = old.tempSpill t

section Result

variable {ntemps : Nat} {firstDef lastUse : Nat → Int} {isClass : Nat → Bool}

theorem mem_buildIntervals {iv : Interval} : iv ∈ buildIntervals ntemps firstDef lastUse isClass ↔
      LiveTemp ntemps firstDef isClass iv.temp ∧ iv = liveInterval firstDef lastUse iv.temp := by
  have hmax : ∀ t, (if lastUse t ≥ firstDef t then lastUse t else firstDef t) =
      max (firstDef t) (lastUse t) := fun t => by split <;> omega
  simp only [buildIntervals, mem_filterMap, mem_range, LiveTemp, liveInterval, hmax]
  constructor
  · rintro ⟨t, ht, hso⟩
    split at hso
    · exact absurd hso (by simp)
    rename_i hlv
    simp only [Bool.or_eq_true, Bool.not_eq_true', decide_eq_true_eq, not_or, not_lt,
      Bool.not_eq_false] at hlv
    simp only [Option.some.injEq] at hso
    subst hso
    exact ⟨⟨ht, hlv.1, hlv.2⟩, rfl⟩
  · rintro ⟨⟨ht, hcls, hdef⟩, hiv⟩
    refine ⟨iv.temp, ht, ?_⟩
    rw [if_neg (by simp [hcls, not_lt.mpr hdef]), Option.some.injEq]
    exact hiv.symm

theorem buildIntervals_temps_nodup :
    ((buildIntervals ntemps firstDef lastUse isClass).map Interval.temp).Nodup := by
  have hsub : ((buildIntervals ntemps firstDef lastUse isClass).map Interval.temp).Sublist
      (range ntemps) := by
    unfold buildIntervals
    induction range _ with
    | nil => simp
    | cons t rest ih =>
      rw [filterMap_cons]
      split
      · exact ih.cons t
      rename_i iv hiv
      have htemp : iv.temp = t := by
        split at hiv
        · exact absurd hiv (by simp)
        · simp only [Option.some.injEq] at hiv
          rw [← hiv]
      rw [map_cons, htemp]
      exact ih.cons_cons t
  exact nodup_range.sublist hsub

theorem valid_of_places (hpm : ivs.Perm (buildIntervals ntemps firstDef lastUse isClass))
    {reg spill : Nat → Int} {nspills : Nat} (al : Alloc)
    (hdn : ∀ q < ivs.length, (C.Allows reserved (reg q) ∧ spill q = -1) ∨
      (reg q = -1 ∧ ∃ j < nspills, spill q = (j * C.spillSize : Nat))) (hsz : 0 < C.spillSize)
    (hdisjoint : ∀ q r, q < r → r < ivs.length → 0 ≤ reg q → reg q = reg r →
      (ivAt ivs q).stop < (ivAt ivs r).start)
    (hspill : ∀ q < ivs.length, ∀ r < ivs.length, q ≠ r → 0 ≤ spill q → spill q ≠ spill r) :
    ValidAllocation ntemps firstDef lastUse isClass C reserved al (writeBack ivs reg spill al)
      nspills := by
  have hnd : (ivs.map Interval.temp).Nodup :=
    (hpm.map _).nodup_iff.mpr buildIntervals_temps_nodup
  obtain ⟨hset, hkp⟩ := writeBack_spec hnd reg _ al
  have hplc : ∀ t, LiveTemp ntemps firstDef isClass t →
      ∃ p < ivs.length, ivAt ivs p = liveInterval firstDef lastUse t := by
    intro t ht
    have hmem : liveInterval _ _ t ∈ ivs := hpm.mem_iff.mpr
      (mem_buildIntervals.mpr ⟨ht, rfl⟩)
    obtain ⟨p, hp, heq⟩ := getElem_of_mem hmem
    exact ⟨p, hp, (ivAt_eq_getElem hp).trans heq⟩
  have hrd : ∀ t p, p < ivs.length → ivAt ivs p = liveInterval firstDef lastUse t →
      (writeBack ivs reg spill al).tempReg t = reg p ∧
        (writeBack ivs reg spill al).tempSpill t = spill p := by
    intro t p hp heq
    simpa only [heq, liveInterval] using hset p hp
  constructor
  · intro t ht
    obtain ⟨p, hp, heq⟩ := hplc t ht
    rw [(hrd t p hp heq).1, (hrd t p hp heq).2]
    rcases hdn p hp with ⟨hreg, hsp⟩ | ⟨hreg, j, -, hsp⟩
    · exact .inl ⟨hreg.nonneg, hsp⟩
    · exact .inr ⟨hreg, hsp ▸ Int.natCast_nonneg _⟩
  · intro t u ht hu hne hmt
    obtain ⟨p, hp, hpt⟩ := hplc t ht
    obtain ⟨q, hq, hqu⟩ := hplc u hu
    rw [(hrd t p hp hpt).1, (hrd u q hq hqu).1]
    intro hpos heq
    have hpq : p ≠ q := by
      rintro rfl
      exact hne (congrArg Interval.temp (hpt.symm.trans hqu))
    rcases lt_or_gt_of_ne hpq with hlt | hlt
    · have := hdisjoint p q hlt hq hpos heq
      rw [hpt, hqu] at this
      exact absurd hmt.2 (not_le.mpr this)
    · have := hdisjoint q p hlt hp (heq ▸ hpos) heq.symm
      rw [hpt, hqu] at this
      exact absurd hmt.1 (not_le.mpr this)
  · intro t ht
    obtain ⟨p, hp, heq⟩ := hplc t ht
    rw [(hrd t p hp heq).1]
    intro hpos
    rcases hdn p hp with ⟨hreg, -⟩ | ⟨hreg, -⟩
    · obtain ⟨hlt, hrng, hres⟩ := hreg.index
      exact ⟨by omega, by omega, hres⟩
    · omega
  · intro t ht
    obtain ⟨p, hp, heq⟩ := hplc t ht
    rw [(hrd t p hp heq).2]
    intro hpos
    rcases hdn p hp with ⟨-, hsp⟩ | ⟨-, j, hj, hsp⟩
    · omega
    · refine ⟨j, by rw [hsp]; push_cast; rfl, ?_⟩
      rw [hsp]
      exact_mod_cast mul_lt_mul_of_pos_right hj hsz
  · intro t u ht hu hne
    obtain ⟨p, hp, hpt⟩ := hplc t ht
    obtain ⟨q, hq, hqu⟩ := hplc u hu
    rw [(hrd t p hp hpt).2, (hrd u q hq hqu).2]
    refine hspill p hp q hq ?_
    rintro rfl
    exact hne (congrArg Interval.temp (hpt.symm.trans hqu))
  · intro t ht
    refine hkp t fun p hp heq => ht ?_
    have hmem : ivAt ivs p ∈ ivs := by
      rw [ivAt_eq_getElem hp]
      exact getElem_mem hp
    exact heq ▸ (mem_buildIntervals.mp (hpm.mem_iff.mp hmem)).1

theorem sortByStart_le {a b : Interval} (h : sortByStart a b ≤ 0) : a.start ≤ b.start := by
  unfold sortByStart at h
  split at h <;> omega

theorem IsQsort.startsSorted
    (hqs : IsQsort sortByStart qsort) (l : List Interval) : StartsSorted (qsort l) := by
  intro q p hqp hp
  rw [ivAt_eq_getElem (hqp.trans hp), ivAt_eq_getElem hp]
  exact sortByStart_le (pairwise_iff_getElem.mp (hqs.sorted l) q p _ hp hqp)

/-- What `linscan` returns is a valid allocation of the class, whatever order `qsort` leaves equal
intervals in. -/
theorem linscan_valid
    {al new : Alloc} {nspills : Nat} (hqs : IsQsort sortByStart qsort) (hsz : 0 < C.spillSize)
    (hrun : linscan qsort ntemps firstDef lastUse isClass C forceSpill reserved al = some (new, nspills)) :
    ValidAllocation ntemps firstDef lastUse isClass C reserved al new nspills := by
  simp only [linscan] at hrun
  split at hrun
  · rename_i hnil
    cases hrun
    have hvalid : ValidAllocation ntemps firstDef lastUse isClass C reserved al
        (writeBack (buildIntervals ntemps firstDef lastUse isClass) (fun _ => -1) (fun _ => -1) al)
        0 := valid_of_places (List.Perm.refl _) al (by simp [hnil]) hsz (by simp [hnil])
      (by simp [hnil])
    rwa [writeBack, hnil] at hvalid
  split at hrun
  · cases hrun
    refine valid_of_places (List.Perm.refl _) al ?_ hsz ?_ ?_
    · exact fun q hq => .inr ⟨rfl, q, hq, rfl⟩
    · intro q r _ _ hpos
      exact absurd hpos (by simp)
    · intro q _ r _ hne _ heq
      exact hne (Nat.eq_of_mul_eq_mul_right hsz (Int.ofNat_inj.mp heq))
  · obtain ⟨s, hs, hpr⟩ := Option.map_eq_some_iff.mp hrun
    cases hpr
    have hinv := scanLoop_inv hsz (hqs.startsSorted _) _ le_rfl hs
    exact valid_of_places (hqs.perm _) al hinv.done hsz hinv.disjoint hinv.spillInj

theorem linscan_some (forceSpill : Nat → Bool)
    (hqs : IsQsort sortByStart qsort) (hsz : 0 < C.spillSize)
    (hres : C.numRegs = 0 ∨ ∃ k < C.numRegs, reserved k = false) (al : Alloc) :
    ∃ new nspills, linscan qsort ntemps firstDef lastUse isClass C forceSpill reserved al =
      some (new, nspills) := by
  simp only [linscan]
  split
  · exact ⟨_, _, rfl⟩
  split
  · exact ⟨_, _, rfl⟩
  rename_i hrg
  obtain ⟨s, hs⟩ := scanLoop_some _ hsz (hres.resolve_left hrg)
    (hqs.startsSorted _) _ le_rfl
  rw [hs]
  exact ⟨_, _, rfl⟩

end Result

end Skjegg.Backend
