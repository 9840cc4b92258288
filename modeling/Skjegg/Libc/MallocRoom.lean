import Skjegg.Libc.MallocCalls

/-!
# Room for a request

Which requests the libc allocator serves with enough room. The size of the block is not checked: when
it wraps, a smallest block is found, and when it is negative as a `long`, the seam is to shrink.
-/

namespace Skjegg.Libc

open Skjegg.Lib

variable {t : DataModel} {ρ : Type} {S : Seam ρ}

/-- A call that allocates returns, and its result is `NULL` or a payload of `nbytes` bytes below the
break. -/
def GivesRoom (t : DataModel) (S : Seam ρ) (nbytes : Nat) (result : Option (Nat × Arena ρ)) : Prop :=
  ∃ p h, result = some (p, h) ∧
    (p = 0 ∨ (nbytes + align + foot t ≤ h.bsize t (p - align) ∧ p + nbytes ≤ S.brk h.seam))

/-- `malloc(nbytes)` gives room from every heap, over every seam that grows in place or fails. -/
def MallocRoom (t : DataModel) (nbytes : BitVec (8 * t.ptr)) : Prop :=
  ∀ (ρ : Type) (S : Seam ρ), S.Growing t (2 ^ (8 * t.ptr - 1)) → ∀ h bs, ArenaOk t S h bs →
    GivesRoom t S nbytes.toNat (malloc t S h nbytes)

/-- `realloc(p, nbytes)` gives room, for `NULL` and for every payload in use. -/
def ReallocRoom (t : DataModel) (nbytes : BitVec (8 * t.ptr)) : Prop :=
  ∀ (ρ : Type) (S : Seam ρ), S.Growing t (2 ^ (8 * t.ptr - 1)) → ∀ h bs, ArenaOk t S h bs →
    ∀ p, (p = 0 ∨ ∃ b ∈ usedBlocks bs, p = b.start + align) →
      GivesRoom t S nbytes.toNat (realloc t S h p nbytes)

/-! ## Requests that fit -/

-- The block of a payload has room, and lies below the break.
theorem ArenaOk.givesRoom {h : Arena ρ} {bs : List HeapBlock} (hok : ArenaOk t S h bs) {b : HeapBlock}
    (hb : b ∈ usedBlocks bs) {nbytes : Nat} (hrm : nbytes + 16 + t.ptr ≤ b.size) :
    GivesRoom t S nbytes (some (b.start + 16, h)) := by
  obtain ⟨⟨lists, hr⟩, hset⟩ := hok
  have hmem := (mem_usedBlocks.mp hb).1
  have hbnd := hr.bounds hmem
  have hop := hr.opened
  refine ⟨_, _, rfl, .inr ⟨?_, ?_⟩⟩
  · unfold align foot
    rw [Nat.add_sub_cancel, (hr.tags_eq hmem (hset b hmem)).1]
    exact hrm
  · omega

theorem Allocates.givesRoom {h : Arena ρ} {bs : List HeapBlock} {need nbytes : Nat}
    {r : Nat × Arena ρ} (hr : Allocates t S h bs need r) (hn : nbytes + 16 + t.ptr ≤ need) :
    GivesRoom t S nbytes (some r) := by
  rcases hr with ⟨hnu, -⟩ | ⟨bs', b, hp, hok, hfit, hpm, -⟩
  · exact ⟨r.1, r.2, rfl, .inl hnu⟩
  · have hrm := hok.givesRoom (fresh_of_perm hok hpm).1 (hn.trans hfit)
    rwa [← hp] at hrm

/-- The largest positive `long` is half the addresses. -/
theorem half_cases (t : DataModel) :
    (t.ptr = 4 ∧ 2 ^ (8 * t.ptr - 1) = 2 ^ 31 ∧ t.addresses = 2 ^ 32 ∧ minblk t = 32) ∨
      (t.ptr = 8 ∧ 2 ^ (8 * t.ptr - 1) = 2 ^ 63 ∧ t.addresses = 2 ^ 64 ∧ minblk t = 48) := by
  rcases minblk_cases t with ⟨hptr, hmin, had⟩ | ⟨hptr, hmin, had⟩
  · exact .inl ⟨hptr, by rw [hptr], had, hmin⟩
  · exact .inr ⟨hptr, by rw [hptr], had, hmin⟩

variable {nbytes : BitVec (8 * t.ptr)}

/-- A request whose block is positive as a `long`. -/
theorem supplies_of_lt (hgr : S.Growing t (2 ^ (8 * t.ptr - 1)))
    (hft : nbytes.toNat + 31 + t.ptr < 2 ^ (8 * t.ptr - 1)) :
    Fits t nbytes.toNat ∧ Supplies t S (mallocNeed t nbytes) := by
  have hha := half_cases t
  have hfit : Fits t nbytes.toNat := by
    unfold Fits
    omega
  refine ⟨hfit, hgr, fun hge => ?_⟩
  rw [mallocNeed_eq, Nat.mod_eq_of_lt hfit] at hge
  omega

/-- The requests that are served: none, and those whose block is positive as a `long`. -/
def Served (t : DataModel) (nbytes : Nat) : Prop := nbytes = 0 ∨ nbytes + 31 + t.ptr < 2 ^ (8 * t.ptr - 1)

theorem mallocRoom_of_served (hsrv : Served t nbytes.toNat) : MallocRoom t nbytes := by
  intro ρ S hgr h bs hok
  rcases hsrv with hz | hlt
  · have hz' : nbytes = 0 := BitVec.eq_of_toNat_eq hz
    unfold malloc
    rw [if_pos hz']
    exact ⟨0, h, rfl, .inl rfl⟩
  · obtain ⟨hfit, hsrc⟩ := supplies_of_lt hgr hlt
    obtain ⟨r, hmal, hr⟩ := malloc_spec hsrc hok
    rw [hmal]
    exact hr.givesRoom ((mallocNeed_spec _).2.2.2.1 hfit)

theorem reallocRoom_of_served (hsrv : Served t nbytes.toNat) : ReallocRoom t nbytes := by
  intro ρ S hgr h bs hok p hp
  rcases hp with rfl | ⟨b, hb, rfl⟩
  · exact mallocRoom_of_served hsrv ρ S hgr h bs hok
  by_cases hz : nbytes = 0
  · unfold realloc
    rw [if_neg (by unfold align; omega), if_pos hz]
    exact ⟨0, _, rfl, .inl rfl⟩
  have hlt := hsrv.resolve_left fun h0 => hz (BitVec.eq_of_toNat_eq h0)
  obtain ⟨hfit, hsrc⟩ := supplies_of_lt hgr hlt
  obtain ⟨r, hre, hr⟩ := realloc_spec hsrc hok hb hz hfit
  rw [show b.start + align = b.start + 16 from rfl, hre]
  rcases hr with ⟨hnu, -⟩ | ⟨rfl, hrm⟩ | ⟨bs', d, hp, hok', hrm, hne, hpm, -⟩
  · exact ⟨r.1, r.2, rfl, .inl hnu⟩
  · exact hok.givesRoom hb hrm
  have hd : d ∈ usedBlocks bs' := (List.mem_cons.mp
    (hpm.mem_iff.mpr List.mem_cons_self)).resolve_left fun heq => hne (heq ▸ rfl)
  have hgiv := hok'.givesRoom hd hrm
  rwa [← hp] at hgiv

/-! ## Requests that do not -/

/-- A seam that says yes to a negative increment and leaves the break, as at its lowest address. -/
def stuckSeam (base cap : Nat) : Seam (Fin (cap + 1)) where
  sbrk r incr :=
    if incr < 0 then (some (base + r), r)
    else if h : r + incr.toNat ≤ cap then (some (base + r), ⟨r + incr.toNat, Nat.lt_succ_of_le h⟩)
    else (none, r)
  brk r := base + r

theorem stuckSeam_growing {base cap most : Nat} (hpos : 0 < base)
    (hft : base + cap < t.addresses - 1) : (stuckSeam base cap).Growing t most where
  pos r := Nat.add_pos_left hpos _
  below r := by
    show base + r.val < t.addresses - 1
    omega
  grow r n _ := by
    unfold Seam.Fails Seam.Extends
    simp only [stuckSeam, Int.toNat_natCast]
    by_cases hrm : r + n ≤ cap
    · rw [dif_pos hrm]
      exact .inr ⟨rfl, (add_assoc ..).symm⟩
    · rw [dif_neg hrm]
      exact .inl ⟨rfl, rfl⟩
  steady r incr _ := by
    generalize ((stuckSeam _ cap).sbrk r _).2 = r'
    simp only [stuckSeam]
    rw [if_neg (lt_irrefl _), dif_pos (by simp only [Int.toNat_zero]; omega)]
    exact Option.some_ne_none _

section Fresh

variable {h : Arena ρ} {base need : Nat}

def FootApart (t : DataModel) (base need : Nat) : Prop :=
  minus t (plus t base need) (foot t) + t.ptr ≤ base ∨
    base + align + 2 * t.ptr ≤ minus t (plus t base need) (foot t)

theorem bsize_setHdr (hmul : need % 16 = 0) (hlt : need < t.addresses) (hap : FootApart t base need)
    (used : Bool) : (setHdr t h base need used).bsize t base = need := by
  have hmin := minblk_cases t
  have hone : (if used then 1 else 0) ≤ 1 := by split <;> decide
  have hhd : Mem.load t.endian t.ptr (setHdr t h base need used).mem base =
      need + if used then 1 else 0 := by
    unfold setHdr
    rw [or_inUse hmul]
    refine (Mem.load_store_apart ?_).trans (Mem.load_store_self ?_)
    · unfold FootApart at hap
      omega
    · rw [← t.addresses_eq]
      omega
  unfold Arena.bsize align
  omega

/-- The only free block of a heap, in its list and with its size in the header. -/
structure Only (t : DataModel) (h : Arena ρ) (base need : Nat) : Prop where
  size : h.bsize t base = need
  fwd : h.fwd t base = 0
  bwd : h.bwd t base = 0
  head : ∀ k ≤ nbins, classHead h k = if k = sizeClass need then base else 0

theorem pushFree_only (hsz : h.bsize t base = need) (hhds : ∀ k, classHead h k = 0) :
    Only t (pushFree t h base) base need ∧ (pushFree t h base).seam = h.seam := by
  have hmin := minblk_cases t
  have hpush : pushFree t h base = setBinHead ((h.setFwd t base 0).setBwd t base 0) need base := by
    unfold pushFree
    simp [hsz, binHead_eq, hhds]
  have hmem : (pushFree t h base).mem = ((h.setFwd t base 0).setBwd t base 0).mem := by
    rw [hpush]
    unfold setBinHead
    split <;> rfl
  have hz : (0 : Nat) < 256 ^ t.ptr := by positivity
  refine ⟨⟨?_, ?_, ?_, ?_⟩, ?_⟩
  · rw [← hsz]
    unfold Arena.bsize
    rw [hmem]
    congr 2
    unfold Arena.setBwd Arena.setFwd Arena.setWord align
    exact (Mem.load_store_apart (by omega)).trans (Mem.load_store_apart (by omega))
  · unfold Arena.fwd
    rw [hmem]
    exact (Mem.load_store_apart (by omega)).trans (Mem.load_store_self hz)
  · unfold Arena.bwd
    rw [hmem]
    exact Mem.load_store_self hz
  · intro k hk
    rw [hpush, classHead_setBinHead _ _ _ hk]
    congr 1
    exact hhds k
  · rw [hpush]
    unfold setBinHead
    split <;> rfl

theorem takeFit_only (hol : Only t h base need) (hba : base ≠ 0) :
    takeFit t h need = some (base, setBinHead h need 0) := by
  have hunlink : unlinkFree t h base = setBinHead h need 0 := by
    unfold unlinkFree
    simp [hol.size, hol.fwd, hol.bwd]
  have hcls : sizeClass need = min (need / 16) nbins := rfl
  unfold takeFit align
  by_cases hidx : need / 16 < nbins
  · have hbin : h.bins (need / 16) = base := by
      have hhd := hol.head _ hidx.le
      rw [if_pos (by omega)] at hhd
      exact (if_pos hidx).symm.trans hhd
    rw [if_pos ⟨hidx, by rw [hbin]; exact hba⟩, hbin, hunlink]
  have hlg : h.large = base := by
    have hhd := hol.head _ le_rfl
    rw [if_pos (by omega)] at hhd
    exact (if_neg (lt_irrefl _)).symm.trans hhd
  obtain ⟨fuel, hfu⟩ : ∃ f, t.addresses = f + 1 := by
    have := minblk_cases t
    exact ⟨t.addresses - 1, by omega⟩
  rw [if_neg fun h0 => hidx h0.1, hfu, hlg, largeFit, if_neg hba, hol.size, if_pos le_rfl]
  simp only [hunlink]
  exact if_pos hba

def firstArena (t : DataModel) (mem : Mem) (r : ρ) (base need : Nat) : Arena ρ :=
  { arenaInit mem r with arenaLo := base, brkEnd := plus t base need }

theorem malloc_fresh (mem : Mem) {r r' : ρ}
    (hz : S.sbrk r 0 = (some base, r)) (hnd : S.sbrk r (t.toLong (mallocNeed t nbytes)) =
      (some base, r')) (hba : 0 < base ∧ base % 16 = 0 ∧ base + 16 < t.addresses)
    (hap : FootApart t base (mallocNeed t nbytes)) (hn : nbytes ≠ 0) :
    ∃ h, malloc t S (arenaInit mem r) nbytes = some (base + 16, h) ∧
      h.bsize t base = mallocNeed t nbytes ∧ h.seam = r' := by
  obtain ⟨hmin, hmul, hlt, -⟩ := mallocNeed_spec _
  generalize hgen : mallocNeed t _ = need at hnd hap hmin hmul hlt
  have hcs := minblk_cases t
  obtain ⟨fuel, hfu⟩ : ∃ f, t.addresses = f + 2 := ⟨t.addresses - 2, by omega⟩
  -- nothing to take, so the arena is opened and grows
  have hno : takeFit t (arenaInit mem r) need = some (0, arenaInit mem r) := by
    obtain ⟨lists, hr⟩ := (arenaInit_arenaOk (S := S) mem r).repr
    rcases takeFit_spec hr hmul with ⟨hno, -⟩ | ⟨b, hb, -⟩
    · exact hno
    · exact absurd hb List.not_mem_nil
  have hopen : openArena t S (arenaInit mem r) =
      (true, { arenaInit mem r with arenaLo := base, brkEnd := base }) := by
    unfold openArena sbrk align
    simp [arenaInit, hz, hba.2.1]
  have hhds : ∀ k, classHead (setHdr t (firstArena t mem r' base need) base need false) k = 0 := by
    intro k
    unfold classHead
    split <;> rfl
  obtain ⟨hol, hseam⟩ := pushFree_only (bsize_setHdr hmul hlt hap false) hhds
  have hgr : grow t S (arenaInit mem r) need =
      (true, pushFree t (setHdr t (firstArena t mem r' base need) base need false) base) := by
    unfold grow
    rw [if_pos (show (arenaInit mem r).arenaLo = 0 from rfl), hopen]
    unfold extendArena sbrk
    simp only [arenaInit, hnd]
    exact if_neg (lt_irrefl _)
  generalize pushFree t _ _ = h1
    at hol hseam hgr
  -- the second time the fresh block is found, and it is taken whole
  have hlp : mallocLoop t S need (fuel + 2) (arenaInit mem r) = some (base, setBinHead h1 need 0) := by
    rw [mallocLoop, hno]
    simp only [ne_eq, not_true, if_false, hgr]
    rw [mallocLoop, takeFit_only hol hba.1.ne']
    exact if_pos hba.1.ne'
  have hsz : (setBinHead h1 need 0).bsize t base = need := by
    rw [← hol.size]
    unfold Arena.bsize setBinHead
    split <;> rfl
  have hseam' : (setBinHead h1 need 0).seam = r' := by
    rw [← show h1.seam = r' from hseam]
    unfold setBinHead
    split <;> rfl
  obtain ⟨b, rfl⟩ : ∃ b, base = b + 1 := ⟨base - 1, by omega⟩
  unfold malloc
  rw [if_neg hn, hgen, hfu, hlp]
  refine ⟨_, congrArg some (Prod.ext ?_ rfl), ?_, ?_⟩
  · exact plus_of_lt hba.2.2
  · unfold mallocTake
    simp only [hsz]
    rw [if_neg (by rw [minus_of_le le_rfl hlt]; omega)]
    exact bsize_setHdr hmul hlt hap true
  · unfold mallocTake
    simp only [hsz]
    rw [if_neg (by rw [minus_of_le le_rfl hlt]; omega)]
    exact hseam'

end Fresh

-- The answers of the seam at its lowest break.
theorem stuckSeam_negative (base cap : Nat) {incr : Int} (hneg : incr < 0) :
    (stuckSeam base cap).sbrk 0 incr = (some base, 0) :=
  if_pos hneg

theorem stuckSeam_natCast (base : Nat) {cap n : Nat} (hn : n ≤ cap) :
    (stuckSeam base cap).sbrk 0 n = (some base, ⟨n, Nat.lt_succ_of_le hn⟩) := by
  simp [stuckSeam, hn]

theorem exists_not_givesRoom (hnot : ¬ Served t nbytes.toNat) :
    ∃ (ρ : Type) (S : Seam ρ), S.Growing t (2 ^ (8 * t.ptr - 1)) ∧ ∃ h, ArenaOk t S h [] ∧
      ¬ GivesRoom t S nbytes.toNat (malloc t S h nbytes) := by
  have hha := half_cases t
  have hsum : 2 ^ (8 * t.ptr - 1) ≤ nbytes.toNat + 31 + t.ptr := not_lt.mp fun h => hnot (.inr h)
  have hn : nbytes ≠ 0 := by
    rintro rfl
    exact hnot (.inl rfl)
  have hlt := (mallocNeed_spec nbytes).2.2.1
  have hnd := mallocNeed_eq nbytes
  by_cases hft : Fits t nbytes.toNat
  · -- the seam is asked to shrink
    rw [Nat.mod_eq_of_lt hft] at hnd
    have hge : 2 ^ (8 * t.ptr - 1) ≤ mallocNeed t nbytes := by
      omega
    generalize hba : 2 ^ (8 * t.ptr - 1) + 64 = base
    have hap : FootApart t base (mallocNeed t nbytes) := by
      have hplus : plus t base (mallocNeed t nbytes) = base + mallocNeed t nbytes - t.addresses := by
        unfold plus
        rw [Nat.mod_eq_sub_mod (by omega), Nat.mod_eq_of_lt (by omega)]
      left
      rw [hplus, minus_of_le (by unfold foot; omega) (by omega)]
      omega
    obtain ⟨h, hmal, -, hseam⟩ := malloc_fresh (fun _ => 0)
      (stuckSeam_natCast _ le_rfl) (stuckSeam_negative _ 0 (by
        rw [t.toLong_of_ge hge hlt]
        omega)) (by omega) hap hn
    refine ⟨_, stuckSeam base 0, stuckSeam_growing (by omega) (by omega), _,
      arenaInit_arenaOk (fun _ => 0) 0, ?_⟩
    rw [hmal]
    rintro ⟨p, h', hres, hrm⟩
    cases hres
    rw [hseam] at hrm
    have hbrk : (stuckSeam base 0).brk 0 = base := rfl
    omega
  · -- the size wraps
    have hsm := (mallocNeed_spec _).2.2.2.2 hft
    have hap : FootApart t 64 (mallocNeed t nbytes) := by
      right
      rw [hsm, plus_of_lt (by omega), minus_of_le (by unfold foot; omega) (by omega)]
      unfold foot align
      omega
    have hlo : t.toLong (mallocNeed t nbytes) = (minblk t : Int) := by
      rw [hsm]
      exact t.toLong_of_lt (by omega)
    obtain ⟨h, hmal, hsz, -⟩ := malloc_fresh (fun _ => 0)
      (stuckSeam_natCast 64 (Nat.zero_le _)) (by rw [hlo]; exact stuckSeam_natCast 64 le_rfl)
      (by omega) hap hn
    refine ⟨_, stuckSeam 64 (minblk t), stuckSeam_growing (by omega) (by omega), _,
      arenaInit_arenaOk (fun _ => 0) 0, ?_⟩
    rw [hmal]
    rintro ⟨p, h', hres, hrm⟩
    cases hres
    unfold align foot at hrm
    rw [Nat.add_sub_cancel, hsz, hsm] at hrm
    omega

theorem mallocRoom_iff (nbytes : BitVec (8 * t.ptr)) : MallocRoom t nbytes ↔ Served t nbytes.toNat := by
  refine ⟨fun hrm => ?_, mallocRoom_of_served⟩
  by_contra hnot
  obtain ⟨ρ, S, hgr, h, hok, hfls⟩ := exists_not_givesRoom hnot
  exact hfls (hrm ρ S hgr h [] hok)

theorem reallocRoom_iff (nbytes : BitVec (8 * t.ptr)) : ReallocRoom t nbytes ↔ Served t nbytes.toNat := by
  refine ⟨fun hrm => ?_, reallocRoom_of_served⟩
  by_contra hnot
  obtain ⟨ρ, S, hgr, h, hok, hfls⟩ := exists_not_givesRoom hnot
  -- `realloc(NULL, n)` is `malloc(n)`
  exact hfls (hrm ρ S hgr h [] hok 0 (.inl rfl))

end Skjegg.Libc
