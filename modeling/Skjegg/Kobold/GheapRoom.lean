import Skjegg.Kobold.GheapRun
import Skjegg.Libc.MallocRoom
import Skjegg.Libc.MallocRun

/-!
# Room for a request, in both allocators

Which requests the guest heap serves with enough room.  It has the same unchecked sum as the libc
allocator, in 32 bits.
-/

namespace Skjegg.Kobold

open Skjegg.Lib Skjegg.Libc

variable {t : DataModel} {ρ : Type} {S : Seam ρ} {base : Nat}

/-- A call that allocates returns, and its result is `NULL` or a payload of `nbytes` bytes below the
break. -/
def GhGivesRoom (t : DataModel) (S : Seam ρ) (nbytes : Nat) (result : Option (Nat × Gheap ρ)) : Prop :=
  ∃ p h, result = some (p, h) ∧
    (p = 0 ∨ (nbytes + (ghHdr t).toNat ≤ h.size t (ghBlockOf t p) ∧ p + nbytes ≤ S.brk h.region))

/-- `gh_alloc(nbytes)` gives room from every heap, over every source that extends the region in
place or fails. -/
def GhAllocRoom (t : DataModel) (nbytes : U32) : Prop :=
  ∀ (ρ : Type) (S : Seam ρ) (base : Nat), GhSource t S base → ∀ h bs, GhOk t S base h bs →
    GhGivesRoom t S nbytes.toNat (ghAlloc t S h nbytes)

/-- `gh_realloc(p, nbytes)` gives room, for `NULL` and for every payload. -/
def GhReallocRoom (t : DataModel) (nbytes : U32) : Prop :=
  ∀ (ρ : Type) (S : Seam ρ) (base : Nat), GhSource t S base → ∀ h bs, GhOk t S base h bs →
    ∀ p, (p = 0 ∨ ∃ b ∈ bs, p = b.start + (ghHdr t).toNat) →
      GhGivesRoom t S nbytes.toNat (ghRealloc t S h p nbytes)

def GhServed (t : DataModel) (nbytes : U32) : Prop := nbytes = 0 ∨ GhFits t nbytes

/-! ## Requests that fit -/

-- The block of a payload has room, and lies below the break.
theorem GhOk.givesRoom {h : Gheap ρ} {bs : List HeapBlock} (hok : GhOk t S base h bs) {b : HeapBlock}
    (hb : b ∈ bs) {nbytes : Nat} (hrm : nbytes + 16 ≤ b.size) :
    GhGivesRoom t S nbytes (some (b.start + 16, h)) := by
  obtain ⟨⟨lists, hr⟩, hset⟩ := hok
  have hbnd := hr.tiles.bounds hb
  refine ⟨_, _, rfl, .inr ⟨?_, ?_⟩⟩
  · unfold ghBlockOf
    rw [toNat_ghHdr, Nat.add_sub_cancel, hr.size_eq hb (hset b hb)]
    exact hrm
  · unfold HeapBlock.stop at hbnd
    omega

variable {nbytes : U32}

theorem ghAllocRoom_of_served (hsrv : GhServed t nbytes) : GhAllocRoom t nbytes := by
  intro ρ S base hsrc h bs hok
  rcases hsrv with hz | hft
  · unfold ghAlloc
    rw [if_pos hz]
    exact ⟨0, h, rfl, .inl rfl⟩
  obtain ⟨r, hal, hr⟩ := ghAlloc_spec hsrc hok hft
  rw [hal]
  rcases hr with ⟨hnu, -⟩ | ⟨bs', b, hp, hok', ha⟩
  · exact ⟨r.1, r.2, rfl, .inl hnu⟩
  · have hrm := hok'.givesRoom ha.mem ((le_ghNeed _).trans ha.room)
    rwa [← hp] at hrm

theorem ghReallocRoom_of_served (hsrv : GhServed t nbytes) : GhReallocRoom t nbytes := by
  intro ρ S base hsrc h bs hok p hp
  rw [toNat_ghHdr] at hp
  rcases hsrv with hz | hft
  · -- nothing is asked for: the call frees, or does nothing
    unfold ghRealloc ghAlloc
    by_cases hnu : p = 0
    · rw [if_pos hnu, if_pos hz]
      exact ⟨0, h, rfl, .inl rfl⟩
    · rw [if_neg hnu, if_pos hz]
      exact ⟨0, _, rfl, .inl rfl⟩
  · obtain ⟨r, bs', hre, hr⟩ := ghRealloc_spec hsrc hok hp hft
    rw [hre]
    by_cases hnu : r.1 = 0
    · exact ⟨r.1, r.2, rfl, .inl hnu⟩
    · obtain ⟨b, hb, hp', hrm⟩ := hr.room hnu
      have hgiv := hr.ok.givesRoom hb hrm
      rwa [← hp'] at hgiv

/-! ## Requests that do not -/

theorem stuckSeam_source {base cap : Nat} (hpos : 0 < base) (hft : base + cap < t.addresses - 1)
    (hcap : cap < 2 ^ 32) : GhSource t (stuckSeam base cap) base where
  base_pos := hpos
  growing := stuckSeam_growing hpos hft
  span r := by
    show base + r.val < base + 2 ^ 32
    omega

-- The block is carved when the heap has not been used.
theorem ghAlloc_fresh (mem : Mem) (r : ρ) (hn : nbytes ≠ 0) (hbrk : 0 < S.brk r) :
    ghAlloc t S (ghInit mem r) nbytes =
      some (ghCarve t S (ghInit mem r) (ghRoundUp (nbytes + ghHdr t) ghAlign).toNat) := by
  unfold ghAlloc
  rw [if_neg hn]
  obtain ⟨fuel, hfu⟩ : ∃ f, S.brk (ghInit mem r).region = f + 1 := ⟨S.brk r - 1, by
    show S.brk r = _
    omega⟩
  by_cases hidx : (ghRoundUp (nbytes + ghHdr t) ghAlign).toNat / ghAlign.toNat < ghNbins
  · simp only [if_pos hidx]
    exact if_neg (not_not.mpr rfl)
  · simp only [if_neg hidx]
    rw [hfu, ghFirstFit, if_pos (show (ghInit mem r).large = 0 from rfl)]

-- The block that is carved has the size asked for in its header, whatever the region did.
theorem ghCarve_some (h : Gheap ρ) (need : Nat) {raw : Nat} {r : ρ} (hlt : need < 2 ^ 32)
    (hsbrk : S.sbrk h.region (t.toLong need) = (some raw, r)) :
    ∃ h', ghCarve t S h need = (raw + 16, h') ∧ h'.size t raw = need ∧ h'.region = r := by
  unfold ghCarve
  rw [hsbrk]
  refine ⟨_, Prod.ext (ghPayload_eq raw) rfl, ?_, rfl⟩
  exact (size_setNext _).trans ((size_setIsFree _).trans (size_setSize _ hlt))

theorem exists_not_ghGivesRoom (hnot : ¬ GhServed t nbytes) :
    ∃ (ρ : Type) (S : Seam ρ) (base : Nat), GhSource t S base ∧ ∃ h, GhOk t S base h [] ∧
      ¬ GhGivesRoom t S nbytes.toNat (ghAlloc t S h nbytes) := by
  have hha := half_cases t
  have hn : nbytes ≠ 0 := fun h0 => hnot (.inl h0)
  have hsum : min (2 ^ 32) (2 ^ (8 * t.ptr - 1)) ≤ nbytes.toNat + 31 := not_lt.mp fun h => hnot (.inr h)
  have hnd : (ghRoundUp (nbytes + ghHdr t) ghAlign).toNat = (nbytes.toNat + 31) % 2 ^ 32 / 16 * 16 := by
    rw [toNat_ghRoundUp, BitVec.toNat_add, toNat_ghHdr]
    omega
  generalize hgen : (ghRoundUp _ _).toNat = need at hnd
  by_cases hwrap : 2 ^ 32 ≤ nbytes.toNat + 31
  · -- the size wraps to 0 or 16
    have hsource : GhSource t (stuckSeam 64 16) 64 := stuckSeam_source (by decide) (by omega) (by decide)
    refine ⟨_, stuckSeam 64 16, 64, hsource, _, ghInit_ok hsource (fun _ => 0) (r := 0) rfl, ?_⟩
    obtain ⟨h', hcrv, hsz, -⟩ := ghCarve_some (S := stuckSeam 64 16)
      (ghInit (fun _ => 0) 0) need (by omega) (by
        rw [t.toLong_of_lt (by omega)]
        exact stuckSeam_natCast 64 (show need ≤ 16 by omega))
    rw [ghAlloc_fresh _ _ hn (by decide), hgen, hcrv]
    rintro ⟨p, h'', hres, hrm⟩
    cases hres
    unfold ghBlockOf at hrm
    rw [toNat_ghHdr, Nat.add_sub_cancel, hsz] at hrm
    omega
  · -- the region is asked to shrink
    have hsource : GhSource t (stuckSeam 64 0) 64 := stuckSeam_source (by decide) (by omega) (by decide)
    refine ⟨_, stuckSeam 64 0, 64, hsource, _, ghInit_ok hsource (fun _ => 0) (r := 0) rfl, ?_⟩
    obtain ⟨h', hcrv, -, hreg⟩ := ghCarve_some
      (ghInit (fun _ => 0) 0) need (by omega) (stuckSeam_negative 64 0 (by
        rw [t.toLong_of_ge (by omega) (by omega)]
        omega))
    rw [ghAlloc_fresh _ _ hn (by decide), hgen, hcrv]
    rintro ⟨p, h'', hres, hrm⟩
    cases hres
    rw [hreg, show (stuckSeam 64 0).brk 0 = 64 from rfl] at hrm
    omega

theorem ghAllocRoom_iff (nbytes : U32) : GhAllocRoom t nbytes ↔ GhServed t nbytes := by
  refine ⟨fun hrm => ?_, ghAllocRoom_of_served⟩
  by_contra hnot
  obtain ⟨ρ, S, base, hsrc, h, hok, hfls⟩ := exists_not_ghGivesRoom hnot
  exact hfls (hrm ρ S _ hsrc h [] hok)

theorem ghReallocRoom_iff (nbytes : U32) : GhReallocRoom t nbytes ↔ GhServed t nbytes := by
  refine ⟨fun hrm => ?_, ghReallocRoom_of_served⟩
  by_contra hnot
  obtain ⟨ρ, S, base, hsrc, h, hok, hfls⟩ := exists_not_ghGivesRoom hnot
  exact hfls (hrm ρ S _ hsrc h [] hok 0 (.inl rfl))

/-! ## Both allocators -/

/-- Each of the four calls gives a payload of the size asked for or `NULL`, from every heap, exactly
when the request is for no bytes or the size of its block does not wrap and is positive where the
memory source takes it as a `long`. -/
theorem allocators_giveRoom_iff (t : DataModel) : (∀ nbytes : BitVec (8 * t.ptr), MallocRoom t nbytes ↔
      nbytes.toNat = 0 ∨ nbytes.toNat + 31 + t.ptr < 2 ^ (8 * t.ptr - 1)) ∧
    (∀ nbytes : BitVec (8 * t.ptr), ReallocRoom t nbytes ↔
      nbytes.toNat = 0 ∨ nbytes.toNat + 31 + t.ptr < 2 ^ (8 * t.ptr - 1)) ∧
    (∀ nbytes : U32, GhAllocRoom t nbytes ↔
      nbytes = 0 ∨ nbytes.toNat + 31 < min (2 ^ 32) (2 ^ (8 * t.ptr - 1))) ∧
    ∀ nbytes : U32, GhReallocRoom t nbytes ↔
      nbytes = 0 ∨ nbytes.toNat + 31 < min (2 ^ 32) (2 ^ (8 * t.ptr - 1)) :=
  ⟨mallocRoom_iff, reallocRoom_iff, ghAllocRoom_iff, ghReallocRoom_iff⟩

/-- On a 32-bit target `malloc(2^32 - 1)` returns a block of 32 bytes. -/
theorem wrappedMalloc_no_room :
    ¬ ∀ t : DataModel, (∀ nbytes, MallocRoom t nbytes) ∧ (∀ nbytes, ReallocRoom t nbytes) ∧
      (∀ nbytes, GhAllocRoom t nbytes) ∧ ∀ nbytes, GhReallocRoom t nbytes := by
  intro hall
  exact absurd ((mallocRoom_iff 0xFFFFFFFF).mp ((hall ilp32).1 _)) (by unfold Served; decide)

end Skjegg.Kobold
