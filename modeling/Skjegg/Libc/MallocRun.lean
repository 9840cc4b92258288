import Mathlib
import Skjegg.Lib.Run
import Skjegg.Libc.MallocCalls

/-!
# Runs of the libc allocator

What holds after any sequence of calls by a client that gives back only what it holds and writes only
to what it asked for.
-/

namespace Skjegg.Libc

open Skjegg.Lib Option MallocClient
open List hiding Disjoint

variable {t : DataModel} {ρ : Type} {S : Seam ρ}

/-- The heap under a client: blocks whose tags agree tile the arena, no two neighbours are free,
each free block is on the list of its class, once, the counter is the bytes in use, and the client
holds the payloads in use, aligned, with room for the bytes asked for, and disjoint. -/
structure ArenaSound (t : DataModel) (c : MallocClient ρ) (bs : List HeapBlock) : Prop where
  tiles : Tiles c.heap.arenaLo c.heap.brkEnd bs
  tags : ∀ b ∈ bs, (b.state = .filed ∧ TagsOk t c.heap.mem b 0) ∨
    (b.state = .used ∧ TagsOk t c.heap.mem b 1)
  separated : Separated bs
  lists : ∃ lists, (∀ k ≤ nbins, DLinked (c.heap.fwd t) (c.heap.bwd t) 0 (classHead c.heap k)
    (lists k)) ∧ Filed sizeClass bs lists
  live : c.heap.live = usedBytes bs
  owned : (c.owned.map Prod.fst).Perm ((usedBlocks bs).map fun b => b.start + 16)
  payloads : ∀ p ∈ c.owned, p.1 % 16 = 0 ∧
    ∃ b ∈ usedBlocks bs, p.1 = b.start + 16 ∧ p.1 + p.2 + t.ptr ≤ b.stop
  disjoint : c.owned.Pairwise fun p q =>
    Disjoint (Set.Ico p.1 (p.1 + p.2)) (Set.Ico q.1 (q.1 + q.2))

/-- The invariant of a run. -/
structure ClientOk (t : DataModel) (S : Seam ρ) (c : MallocClient ρ) (bs : List HeapBlock) :
    Prop where
  heap : ArenaOk t S c.heap bs
  owned : (c.owned.map Prod.fst).Perm ((usedBlocks bs).map fun b => b.start + 16)
  rooms : ∀ p ∈ c.owned, ∃ b ∈ usedBlocks bs, p.1 = b.start + 16 ∧ p.2 + 16 + t.ptr ≤ b.size

variable {n p : Nat} {q : Nat × Nat} {ops : List (MallocOp t)}

section Client

variable {c c' : MallocClient ρ} {bs bs' : List HeapBlock} {b : HeapBlock}

-- The addresses of the blocks in use are different.
theorem ArenaOk.starts_nodup {h : Arena ρ} (hok : ArenaOk t S h bs) :
    ((usedBlocks bs).map fun b => b.start + 16).Nodup := by
  obtain ⟨⟨lists, hr⟩, -⟩ := hok
  have hpr := hr.tiles.pairwise.filter fun b => b.state = .used
  refine pairwise_map.mpr (hpr.imp_of_mem fun {x y} hx hy hxy heq => ?_)
  have hpos := (hr.tiles.bounds (mem_usedBlocks.mp hx).1).2.2
  unfold HeapBlock.stop at hxy
  omega

theorem ClientOk.sound (hok : ClientOk t S c bs) : ArenaSound t c bs := by
  obtain ⟨⟨lists, hr⟩, hset⟩ := id hok.heap
  refine ⟨hr.tiles, ?_, hr.separated, ⟨lists, hr.linked, hr.filed⟩, hr.live, hok.owned, ?_, ?_⟩
  · intro b hb
    have htg := hr.tags b hb
    unfold BlockOk at htg
    cases hs : b.state with
    | loose => exact absurd hs (hset b hb)
    | filed => rw [hs] at htg; exact .inl ⟨rfl, htg⟩
    | used => rw [hs] at htg; exact .inr ⟨rfl, htg⟩
  · intro p hp
    obtain ⟨b, hb, hbeg, hrm⟩ := hok.rooms p hp
    have haln := hr.tiles.dvd_start (Nat.dvd_of_mod_eq_zero hr.aligned)
      (fun d hd => Nat.dvd_of_mod_eq_zero (hr.sizes d hd).2) (mem_usedBlocks.mp hb).1
    refine ⟨by omega, b, hb, hbeg, ?_⟩
    unfold HeapBlock.stop
    omega
  · -- pointers that differ point into blocks that lie apart
    have hnd : (c.owned.map Prod.fst).Nodup := hok.owned.nodup_iff.mpr hok.heap.starts_nodup
    refine (pairwise_map.mp hnd).imp_of_mem fun {p q} hp hq hne => ?_
    obtain ⟨b, hb, hpb, hproom⟩ := hok.rooms p hp
    obtain ⟨d, hd, hqd, hqroom⟩ := hok.rooms q hq
    have hap := hr.apart (mem_usedBlocks.mp hb).1 (mem_usedBlocks.mp hd).1 (by omega)
    unfold HeapBlock.stop at hap
    rw [Set.disjoint_left]
    intro x hx hx'
    obtain ⟨hx1, hx2⟩ := hx
    obtain ⟨hx3, hx4⟩ := hx'
    omega

/-! ## What the client holds -/

theorem map_release (owned : List (Nat × Nat)) (p : Nat) :
    (MallocClient.release owned p).map Prod.fst = (owned.map Prod.fst).erase p := by
  rw [erase_eq_eraseP', eraseP_map]
  rfl

-- What is left does not have the pointer any more.
theorem ClientOk.mem_release (hok : ClientOk t S c bs) :
    q ∈ MallocClient.release c.owned p ↔ q ∈ c.owned ∧ q.1 ≠ p := by
  have hnd : (c.owned.map Prod.fst).Nodup := hok.owned.nodup_iff.mpr hok.heap.starts_nodup
  refine ⟨fun hq => ⟨mem_of_mem_eraseP hq, ?_⟩, fun hq => ?_⟩
  · have hmem : q.1 ∈ (MallocClient.release c.owned p).map Prod.fst := mem_map_of_mem hq
    rw [map_release, hnd.mem_erase_iff] at hmem
    exact hmem.1
  · exact (mem_eraseP_of_neg (by simpa using hq.2)).mpr hq.1

def Untouched (c c' : MallocClient ρ) (p : Nat) : Prop :=
  ∀ q ∈ c.owned, q.1 ≠ p → q ∈ c'.owned ∧ ∀ i < q.2, c'.heap.mem (q.1 + i) = c.heap.mem (q.1 + i)

-- The bytes of a payload are bytes of its block.
theorem ClientOk.payload_same (hok : ClientOk t S c bs) (hq : q ∈ c.owned) {mem : Mem}
    (hsm : ∀ b ∈ usedBlocks bs, b.start + 16 = q.1 → SameBlock c.heap.mem mem b) :
    ∀ i < q.2, mem (q.1 + i) = c.heap.mem (q.1 + i) := by
  intro i hi
  obtain ⟨b, hb, hbeg, hrm⟩ := hok.rooms q hq
  exact hsm b hb hbeg.symm _ (by omega) (by unfold HeapBlock.stop; omega)

theorem ClientOk.receive (hok : ClientOk t S c bs) {need : Nat} {r : Nat × Arena ρ}
    (hr : Allocates t S c.heap bs need r) (hn : n + 16 + t.ptr ≤ need) :
    (∃ bs', ClientOk t S (c.receive n r).1 bs') ∧ Untouched c (c.receive n r).1 0 := by
  rcases hr with ⟨hnu, hmem, hok'⟩ | ⟨bs', b, hp, hok', hfit, hpm, hbs⟩
  · unfold MallocClient.receive
    rw [if_pos hnu]
    exact ⟨⟨bs, hok', hok.owned, hok.rooms⟩, fun q hq _ => ⟨hq, fun i _ => by rw [hmem]⟩⟩
  obtain ⟨hb, hot⟩ := fresh_of_perm hok' hpm
  unfold MallocClient.receive
  rw [if_neg (by omega)]
  refine ⟨⟨bs', hok', ?_, ?_⟩, fun q hq _ => ⟨mem_cons_of_mem _ hq, ?_⟩⟩
  · have hbegs := hpm.map fun b => b.start + 16
    rw [map_cons, hp]
    exact (hok.owned.cons _).trans hbegs.symm
  · refine forall_mem_cons.mpr ⟨⟨b, hb, hp, by show n + 16 + t.ptr ≤ b.size; omega⟩, ?_⟩
    intro q hq
    obtain ⟨d, hd, hrs⟩ := hok.rooms q hq
    exact ⟨d, (hot d hd).1, hrs⟩
  · exact hok.payload_same hq fun d hd _ => hbs d hd

-- The block of a pointer that the client holds.
theorem ClientOk.block (hok : ClientOk t S c bs) (hp : p ∈ c.owned.map Prod.fst) :
    ∃ b ∈ usedBlocks bs, p = b.start + 16 := by
  obtain ⟨b, hb, heq⟩ := mem_map.mp (hok.owned.mem_iff.mp hp)
  exact ⟨b, hb, heq.symm⟩

-- `NULL` is not among what the client holds.
theorem ClientOk.release_null (hok : ClientOk t S c bs) : MallocClient.release c.owned 0 = c.owned := by
  apply eraseP_of_forall_not
  intro q hq
  obtain ⟨b, -, hbeg, -⟩ := hok.rooms q hq
  simp only [decide_eq_true_eq]
  omega

-- A pointer that the client still holds is not the payload of the block given back.
theorem ClientOk.rooms_of_ne (hok : ClientOk t S c bs)
    (hq : q ∈ MallocClient.release c.owned (b.start + 16)) :
    ∃ d ∈ usedBlocks bs, d.start ≠ b.start ∧ q.1 = d.start + 16 ∧ q.2 + 16 + t.ptr ≤ d.size := by
  obtain ⟨hq, hne⟩ := hok.mem_release.mp hq
  obtain ⟨d, hd, hbeg, hrm⟩ := hok.rooms q hq
  exact ⟨d, hd, fun heq => hne (by omega), hbeg, hrm⟩

theorem ClientOk.release (hok : ClientOk t S c bs) {h' : Arena ρ} (hfr : Frees t S c.heap bs b h') :
    (∃ bs', ClientOk t S ⟨h', MallocClient.release c.owned (b.start + 16)⟩ bs') ∧
      Untouched c ⟨h', MallocClient.release c.owned (b.start + 16)⟩ (b.start + 16) := by
  obtain ⟨bs', hok', hpm, hbs⟩ := hfr
  have hstl : ∀ d ∈ usedBlocks bs, d.start ≠ b.start → d ∈ usedBlocks bs' := fun d hd hne =>
    (mem_cons.mp (hpm.mem_iff.mp hd)).resolve_left fun heq => hne (heq ▸ rfl)
  refine ⟨⟨bs', hok', ?_, fun q hq => ?_⟩, fun q hq hne => ⟨hok.mem_release.mpr ⟨hq, hne⟩, ?_⟩⟩
  · rw [map_release]
    have hera := (hok.owned.trans (hpm.map _)).erase (b.start + 16)
    rwa [map_cons, erase_cons_head] at hera
  · obtain ⟨d, hd, hne, hrs⟩ := hok.rooms_of_ne hq
    exact ⟨d, hstl d hd hne, hrs⟩
  · exact hok.payload_same hq fun d hd hbeg => hbs d (hstl d hd (by omega))

theorem ClientOk.move (hok : ClientOk t S c bs)
    {r : Nat × Arena ρ} (hmov : Moves t S c.heap bs b (n + 16 + t.ptr) r) :
    (∃ bs', ClientOk t S ⟨r.2, (r.1, n) :: MallocClient.release c.owned (b.start + 16)⟩ bs') ∧
      Untouched c ⟨r.2, (r.1, n) :: MallocClient.release c.owned (b.start + 16)⟩ (b.start + 16) := by
  obtain ⟨bs', d, hp, hok', hfit, hne, hpm, hot, -⟩ := hmov
  have hd : d ∈ usedBlocks bs' :=
    (mem_cons.mp (hpm.mem_iff.mpr mem_cons_self)).resolve_left fun heq => hne (heq ▸ rfl)
  have hstl : ∀ e ∈ usedBlocks bs, e.start ≠ b.start → e ∈ usedBlocks bs' := fun e he hne =>
    (mem_cons.mp (hpm.mem_iff.mpr (mem_cons_of_mem _ he))).resolve_left
      fun heq => hne (heq ▸ rfl)
  refine ⟨⟨bs', hok', ?_, ?_⟩, fun q hq hqne => ⟨?_, ?_⟩⟩
  · have hbegs := hpm.map fun e => e.start + 16
    rw [map_cons, map_cons] at hbegs
    have hera := (hbegs.trans (hok.owned.symm.cons _)).erase (b.start + 16)
    rw [erase_cons_head, erase_cons_tail (by simpa using hne), ← map_release] at hera
    rw [map_cons, hp]
    exact hera.symm
  · refine forall_mem_cons.mpr ⟨⟨d, hd, hp, hfit⟩, fun q hq => ?_⟩
    obtain ⟨e, he, hene, hrs⟩ := hok.rooms_of_ne hq
    exact ⟨e, hstl e he hene, hrs⟩
  · exact mem_cons_of_mem _ (hok.mem_release.mpr ⟨hq, hqne⟩)
  · exact hok.payload_same hq fun e he hbeg => hot e he (by omega)

theorem ClientOk.resize (hok : ClientOk t S c bs) (hb : b ∈ usedBlocks bs)
    (hhl : b.start + 16 ∈ c.owned.map Prod.fst) (hrm : n + 16 + t.ptr ≤ b.size) :
    ClientOk t S ⟨c.heap, (b.start + 16, n) :: MallocClient.release c.owned (b.start + 16)⟩ bs ∧
      Untouched c ⟨c.heap, (b.start + 16, n) :: MallocClient.release c.owned (b.start + 16)⟩
        (b.start + 16) := by
  refine ⟨⟨hok.heap, ?_, ?_⟩, fun q hq hne => ⟨?_, fun _ _ => rfl⟩⟩
  · rw [map_cons, map_release]
    exact (perm_cons_erase hhl).symm.trans hok.owned
  · refine forall_mem_cons.mpr ⟨⟨b, hb, rfl, hrm⟩, fun q hq => ?_⟩
    exact hok.rooms q (hok.mem_release.mp hq).1
  · exact mem_cons_of_mem _ (hok.mem_release.mpr ⟨hq, hne⟩)

end Client

/-! ## Steps -/

/-- One operation of a client: the heap is sound before and after, no call touches a payload it was
not given, `calloc` clears what it returns, and `realloc` keeps the bytes that fit both payloads. -/
def MallocStepOk (t : DataModel) (c : MallocClient ρ) (op : MallocOp t) (c' : MallocClient ρ)
    (r : Nat) : Prop :=
  (∃ bs, ArenaSound t c bs) ∧ (∃ bs, ArenaSound t c' bs) ∧
    match op with
    | .malloc _ => Untouched c c' 0
    | .calloc n size => Untouched c c' 0 ∧
        (r ≠ 0 → ∀ i < n.toNat * size.toNat, c'.heap.mem (r + i) = 0)
    | .realloc p nbytes => Untouched c c' p ∧
        (r ≠ 0 → ∀ old, (p, old) ∈ c.owned → ∀ i < min old nbytes.toNat,
          c'.heap.mem (r + i) = c.heap.mem (p + i))
    | .free p => Untouched c c' p
    | .store .. => True

/-- A client gives back only what it holds or `NULL`, and stores only to bytes that it asked for. -/
def MallocOp.Promised (c : MallocClient ρ) : MallocOp t → Prop
  | .free p => p = 0 ∨ p ∈ c.owned.map Prod.fst
  | .realloc p _ => p = 0 ∨ p ∈ c.owned.map Prod.fst
  | .store p offset _ => ∃ n, (p, n) ∈ c.owned ∧ offset < n
  | _ => True

/-- The size of each block that a client asks for fits a `size_t`. -/
def MallocOp.Fits : MallocOp t → Prop
  | .malloc nbytes => Libc.Fits t nbytes.toNat
  | .calloc n size => t.addresses ≤ n.toNat * size.toNat ∨ Libc.Fits t (n.toNat * size.toNat)
  | .realloc _ nbytes => Libc.Fits t nbytes.toNat
  | _ => True

/-- The seam gives the next bytes or fails when it is asked for a block of the size. -/
def MallocOp.Supplied (S : Seam ρ) : MallocOp t → Prop
  | .malloc nbytes => Supplies t S (mallocNeed t nbytes)
  | .calloc n size => Supplies t S (mallocNeed t (n * size))
  | .realloc _ nbytes => Supplies t S (mallocNeed t nbytes)
  | _ => True

section Steps

variable {c : MallocClient ρ} {bs : List HeapBlock} {nbytes : BitVec (8 * t.ptr)}

section

variable (hok : ClientOk t S c bs)

include hok

theorem mallocStep_malloc (hsrc : Supplies t S (mallocNeed t nbytes)) (hft : Libc.Fits t nbytes.toNat) :
    ∃ c' r, mallocStep t S c (.malloc nbytes) = some (c', r) ∧
      MallocStepOk t c (.malloc nbytes) c' r ∧ ∃ bs', ClientOk t S c' bs' := by
  obtain ⟨-, -, -, hneed, -⟩ := mallocNeed_spec _
  obtain ⟨r, hmal, hr⟩ := malloc_spec hsrc hok.heap
  obtain ⟨⟨bs', hok'⟩, hsm⟩ := hok.receive hr (hneed hft)
  exact ⟨_, _, by rw [mallocStep, hmal]; rfl, ⟨⟨bs, hok.sound⟩, ⟨bs', hok'.sound⟩, hsm⟩, bs', hok'⟩

theorem mallocStep_calloc {n size : BitVec (8 * t.ptr)}
    (hsrc : Supplies t S (mallocNeed t (n * size))) (hft : (MallocOp.calloc n size).Fits) :
    ∃ c' r, mallocStep t S c (.calloc n size) = some (c', r) ∧
      MallocStepOk t c (.calloc n size) c' r ∧ ∃ bs', ClientOk t S c' bs' := by
  obtain ⟨r, hcalloc, hr, hclr⟩ := calloc_spec hsrc hok.heap hft
  obtain ⟨⟨bs', hok'⟩, hsm⟩ := hok.receive hr le_rfl
  exact ⟨_, _, by rw [mallocStep, hcalloc]; rfl,
    ⟨⟨bs, hok.sound⟩, ⟨bs', hok'.sound⟩, hsm, hclr⟩, bs', hok'⟩

theorem mallocStep_free (hp : (MallocOp.free (t := t) p).Promised c) :
    ∃ c' r, mallocStep t S c (.free p) = some (c', r) ∧
      MallocStepOk t c (.free p) c' r ∧ ∃ bs', ClientOk t S c' bs' := by
  refine ⟨_, _, rfl, ?_⟩
  rcases hp with rfl | hhl
  · -- `free(NULL)` does nothing
    rw [hok.release_null, show Libc.free t _ 0 = c.heap from if_pos rfl]
    exact ⟨⟨⟨bs, hok.sound⟩, ⟨bs, hok.sound⟩, fun q hq _ => ⟨hq, fun _ _ => rfl⟩⟩, bs, hok⟩
  · obtain ⟨b, hb, rfl⟩ := hok.block hhl
    obtain ⟨⟨bs', hok'⟩, hsm⟩ := hok.release (free_spec hok.heap hb)
    exact ⟨⟨⟨bs, hok.sound⟩, ⟨bs', hok'.sound⟩, hsm⟩, bs', hok'⟩

-- What was asked for fits the block, so the bytes of the old request are all moved.
theorem ClientOk.held_le {b : HeapBlock} (hb : b ∈ usedBlocks bs)
    {old : Nat} (hhl : (b.start + 16, old) ∈ c.owned) : old + 16 + t.ptr ≤ b.size := by
  obtain ⟨d, hd, hbeg, hrm⟩ := hok.rooms _ hhl
  obtain ⟨⟨_, hr⟩, -⟩ := hok.heap
  have hdb : d = b := hr.tiles.eq_of_start (mem_usedBlocks.mp hd).1 (mem_usedBlocks.mp hb).1
    (by simp only at hbeg; omega)
  rwa [hdb] at hrm

-- `realloc(NULL, n)` is `malloc(n)`.
theorem ClientOk.exchange_null (n : Nat) (r : Nat × Arena ρ) : c.exchange 0 n r = c.receive n r := by
  unfold exchange
  rw [hok.release_null]
  split
  · rename_i hnu
    unfold MallocClient.receive
    rw [if_pos hnu.1, hnu.1]
  · rfl

theorem mallocStep_realloc
    (hsrc : Supplies t S (mallocNeed t nbytes)) (hp : (MallocOp.realloc p nbytes).Promised c)
    (hft : Libc.Fits t nbytes.toNat) : ∃ c' r, mallocStep t S c (.realloc p nbytes) = some (c', r) ∧
      MallocStepOk t c (.realloc p nbytes) c' r ∧ ∃ bs', ClientOk t S c' bs' := by
  obtain ⟨-, -, -, hneed, -⟩ := mallocNeed_spec nbytes
  rcases hp with rfl | hhl
  · obtain ⟨r, hmal, hr⟩ := malloc_spec hsrc hok.heap
    obtain ⟨⟨bs', hok'⟩, hsm⟩ := hok.receive hr (hneed hft)
    have hre : realloc t S c.heap 0 nbytes = some r := (if_pos rfl).trans hmal
    refine ⟨(c.receive _ r).1, r.1, ?_, ?_, bs', hok'⟩
    · rw [mallocStep, hre, map_some, hok.exchange_null]
      rfl
    refine ⟨⟨bs, hok.sound⟩, ⟨bs', hok'.sound⟩, hsm, fun _ old hold => ?_⟩
    obtain ⟨b, -, hbeg, -⟩ := hok.rooms _ hold
    omega
  obtain ⟨b, hb, rfl⟩ := hok.block hhl
  by_cases hz : nbytes = 0
  · -- a request for nothing frees
    have hre : realloc t S c.heap (b.start + 16) nbytes =
        some (0, Libc.free t c.heap (b.start + 16)) := by
      unfold realloc
      rw [if_neg (by omega), if_pos hz]
    obtain ⟨⟨bs', hok'⟩, hsm⟩ := hok.release (free_spec hok.heap hb)
    refine ⟨_, 0, ?_, ⟨⟨bs, hok.sound⟩, ⟨bs', hok'.sound⟩, hsm, ?_⟩, bs', hok'⟩
    · rw [mallocStep, hre, hz]
      rfl
    · exact fun hne => absurd rfl hne
  have hnz : nbytes.toNat ≠ 0 := fun h0 => hz (BitVec.eq_of_toNat_eq h0)
  obtain ⟨r, hre, hr⟩ := realloc_spec hsrc hok.heap hb hz hft
  rcases hr with ⟨hnu, hmem, hok'⟩ | ⟨rfl, hrm⟩ | hmov
  · -- out of memory: the client keeps the block
    refine ⟨⟨r.2, c.owned⟩, 0, ?_, ⟨⟨bs, hok.sound⟩, ⟨bs, ?_⟩, ?_, ?_⟩, bs, hok', hok.owned, hok.rooms⟩
    · rw [mallocStep, hre, map_some, exchange, if_pos ⟨hnu, hnz⟩]
    · exact ClientOk.sound ⟨hok', hok.owned, hok.rooms⟩
    · exact fun q hq _ => ⟨hq, fun i _ => congrFun hmem _⟩
    · exact fun hne => absurd rfl hne
  · -- the block has room
    obtain ⟨hok', hsm⟩ := hok.resize hb hhl hrm
    refine ⟨_, b.start + 16, ?_, ⟨⟨bs, hok.sound⟩, ⟨bs, hok'.sound⟩, hsm, ?_⟩, bs, hok'⟩
    · rw [mallocStep, hre, map_some, exchange, if_neg (by simp)]
      rfl
    · exact fun _ _ _ _ _ => rfl
  · obtain ⟨⟨bs', hok'⟩, hsm⟩ := hok.move hmov
    obtain ⟨-, d, hr, -, -, -, -, -, hbs⟩ := hmov
    refine ⟨_, r.1, ?_, ⟨⟨bs, hok.sound⟩, ⟨bs', hok'.sound⟩, hsm, ?_⟩, bs', hok'⟩
    · rw [mallocStep, hre, map_some, exchange, if_neg (by omega),
        MallocClient.receive, if_neg (by omega)]
    · intro _ old hold i hi
      have hle := hok.held_le hb hold
      exact hbs i (by omega)

theorem mallocStep_store {offset : Nat} {value : UInt8}
    (hp : (MallocOp.store (t := t) p offset value).Promised c) :
    ∃ c' r, mallocStep t S c (.store p offset value) = some (c', r) ∧
      MallocStepOk t c (.store p offset value) c' r ∧ ∃ bs', ClientOk t S c' bs' := by
  obtain ⟨n, hhl, hlt⟩ := hp
  obtain ⟨b, hb, hbeg, hrm⟩ := hok.rooms _ hhl
  have hok' : ClientOk t S
      ⟨{ c.heap with mem := Function.update c.heap.mem (p + offset) value }, c.owned⟩ bs := by
    refine ⟨hok.heap.withMem hb fun x hx => ?_, hok.owned, hok.rooms⟩
    apply Function.update_of_ne
    unfold HeapBlock.stop at hx
    omega
  exact ⟨_, _, rfl, ⟨⟨bs, hok.sound⟩, ⟨bs, hok'.sound⟩, trivial⟩, bs, hok'⟩

end

theorem mallocStep_ok (c : MallocClient ρ) (op : MallocOp t) (hinv : ∃ bs, ClientOk t S c bs)
    (hop : op.Promised c ∧ op.Supplied S ∧ op.Fits) :
    ∃ c' r, mallocStep t S c op = some (c', r) ∧ MallocStepOk t c op c' r ∧ ∃ bs', ClientOk t S c' bs' := by
  obtain ⟨bs, hok⟩ := hinv
  obtain ⟨hprm, hsrc, hft⟩ := hop
  cases op with
  | malloc nbytes => exact mallocStep_malloc hok hsrc hft
  | calloc n size => exact mallocStep_calloc hok hsrc hft
  | realloc p nbytes => exact mallocStep_realloc hok hsrc hprm hft
  | free p => exact mallocStep_free hok hprm
  | store p offset value => exact mallocStep_store hok hprm

end Steps

/-! ## Runs -/

theorem arenaInit_ok (mem : Mem) (r : ρ) : ClientOk t S ⟨arenaInit mem r, []⟩ [] :=
  ⟨arenaInit_arenaOk mem r, List.Perm.refl _, fun _ hp => absurd hp not_mem_nil⟩

theorem mallocRun_supplied (mem : Mem) (r : ρ)
    (hops : OpsMeet (mallocStep t S) MallocOp.Promised ⟨arenaInit mem r, []⟩ ops)
    (hsrc : ∀ op ∈ ops, op.Supplied S ∧ op.Fits) :
    RunAll (mallocStep t S) (MallocStepOk t) ⟨arenaInit mem r, []⟩ ops :=
  runAll_of_inv mallocStep_ok ⟨[], arenaInit_ok mem r⟩ (hops.and hsrc)

/-- A seam that only ever grows: it gives the next bytes or fails. -/
structure Seam.OnlyGrows (S : Seam ρ) (t : DataModel) : Prop where
  growing : S.Growing t (2 ^ (8 * t.ptr - 1))
  negative : ∀ r (incr : Int), incr < 0 → S.Fails r incr

theorem Seam.OnlyGrows.supplied (hsrc : S.OnlyGrows t) (op : MallocOp t) : op.Supplied S := by
  have hneed : ∀ nbytes, Supplies t S (mallocNeed t nbytes) := by
    intro nbytes
    refine ⟨hsrc.growing, fun hge r => ?_⟩
    have hlt := (mallocNeed_spec nbytes).2.2.1
    apply hsrc.negative
    rw [t.toLong_of_ge hge hlt]
    omega
  cases op with
  | malloc nbytes => exact hneed _
  | calloc n size => exact hneed _
  | realloc p nbytes => exact hneed _
  | free | store => trivial

/-- In every run of a client over a seam that only grows, from any memory, in which the size of
every block fits a `size_t`: every call returns, the heap stays sound, and every operation does what
it should. -/
theorem mallocRun_sound (t : DataModel) {ρ : Type} (S : Seam ρ) (hsrc : S.OnlyGrows t) (mem : Mem)
    (r : ρ) (ops : List (MallocOp t))
    (hops : OpsMeet (mallocStep t S) MallocOp.Promised ⟨arenaInit mem r, []⟩ ops)
    (hfits : ∀ op ∈ ops, op.Fits) : ArenaSound t ⟨arenaInit mem r, []⟩ [] ∧
      RunAll (mallocStep t S) (MallocStepOk t) ⟨arenaInit mem r, []⟩ ops :=
  ⟨(arenaInit_ok (S := S) mem r).sound,
    mallocRun_supplied mem r hops fun op hop => ⟨hsrc.supplied op, hfits op hop⟩⟩

/-- The number of bytes asked of the seam is positive as a `long`. -/
def MallocOp.Positive : MallocOp t → Prop
  | .malloc nbytes => mallocNeed t nbytes < 2 ^ (8 * t.ptr - 1)
  | .calloc n size => mallocNeed t (n * size) < 2 ^ (8 * t.ptr - 1)
  | .realloc _ nbytes => mallocNeed t nbytes < 2 ^ (8 * t.ptr - 1)
  | _ => True

theorem Seam.Growing.supplied (hgr : S.Growing t (2 ^ (8 * t.ptr - 1))) {op : MallocOp t}
    (hpos : op.Positive) : op.Supplied S := by
  cases op with
  | malloc | calloc | realloc => exact ⟨hgr, fun hge => absurd hge (not_le.mpr hpos)⟩
  | free | store => trivial

theorem mallocRun_sound_brk (ht : t.ptr = 4) (mem : Mem) (r : BrkHeap)
    (hops : OpsMeet (mallocStep t brkSeam) MallocOp.Promised ⟨arenaInit mem r, []⟩ ops)
    (hszs : ∀ op ∈ ops, op.Positive ∧ op.Fits) :
    RunAll (mallocStep t brkSeam) (MallocStepOk t) ⟨arenaInit mem r, []⟩ ops :=
  mallocRun_supplied mem r hops fun op hop =>
    ⟨(brkSeam_growing ht).supplied (hszs op hop).1, (hszs op hop).2⟩

theorem mallocRun_sound_static (ht : t.ptr = 8) (mem : Mem) (r : StaticHeap)
    (hops : OpsMeet (mallocStep t staticSeam) MallocOp.Promised ⟨arenaInit mem r, []⟩ ops)
    (hszs : ∀ op ∈ ops, op.Positive ∧ op.Fits) :
    RunAll (mallocStep t staticSeam) (MallocStepOk t) ⟨arenaInit mem r, []⟩ ops :=
  mallocRun_supplied mem r hops fun op hop =>
    ⟨(staticSeam_growing ht).supplied (hszs op hop).1, (hszs op hop).2⟩

/-- `cap` bytes from `base` on that are only ever handed out. -/
def bumpSeam (base cap : Nat) : Seam (Fin (cap + 1)) where
  sbrk r incr :=
    if h : 0 ≤ incr ∧ r + incr.toNat ≤ cap then
      (some (base + r), ⟨r + incr.toNat, Nat.lt_succ_of_le h.2⟩)
    else (none, r)
  brk r := base + r

theorem bumpSeam_onlyGrows {base cap : Nat} (hpos : 0 < base) (hft : base + cap < t.addresses - 1) :
    (bumpSeam base cap).OnlyGrows t where
  growing :=
    { pos := fun r => Nat.add_pos_left hpos _
      below := fun r => by
        show base + r.val < t.addresses - 1
        have := r.isLt
        omega
      grow := fun r n _ => by
        unfold Seam.Fails Seam.Extends
        simp only [bumpSeam, Int.toNat_natCast, Int.natCast_nonneg, true_and]
        by_cases hrm : r + n ≤ cap
        · rw [dif_pos hrm]
          exact .inr ⟨rfl, (Nat.add_assoc ..).symm⟩
        · rw [dif_neg hrm]
          exact .inl ⟨rfl, rfl⟩
      steady := fun r incr _ => by
        generalize ((bumpSeam base cap).sbrk r incr).2 = r'
        have := r'.isLt
        simp only [bumpSeam]
        rw [dif_pos ⟨le_rfl, by simp only [Int.toNat_zero]; omega⟩]
        exact some_ne_none _ }
  negative r incr hneg := by
    unfold Seam.Fails
    simp only [bumpSeam]
    rw [dif_neg (by omega)]
    exact ⟨rfl, rfl⟩

/-- A 32-bit little-endian target. -/
def ilp32 : DataModel := ⟨.little, 4, .inl rfl⟩

theorem mallocRun_sound_bump : RunAll (mallocStep ilp32 (bumpSeam 0x10000 0x1000)) (MallocStepOk ilp32)
      ⟨arenaInit (fun _ => 0) 0, []⟩ [.malloc 24, .store 0x10010 23 7, .free 0x10010] := by
  refine (mallocRun_sound _ _ ?_ (fun _ => 0) 0 _ ?_ ?_).2
  · exact bumpSeam_onlyGrows (by decide) (by decide)
  · have hrun : (mallocStep ilp32 (bumpSeam 0x10000 0x1000) ⟨arenaInit (fun _ => 0) 0, []⟩
        (.malloc 24)).map (fun s => s.1.owned) = some [(0x10010, 24)] := by
      decide +kernel
    refine ⟨trivial, fun c r hst => ?_⟩
    rw [hst] at hrun
    have hown : c.owned = [(0x10010, 24)] := some.inj hrun
    refine ⟨⟨24, by rw [hown]; decide, by decide⟩, fun c' r' hst' => ⟨.inr ?_, fun _ _ _ => trivial⟩⟩
    injection hst' with hst'
    injection hst' with hc' _
    rw [← hc', hown]
    decide
  · simp only [forall_mem_cons]
    exact ⟨show 24 + 31 + 4 < 2 ^ 32 by decide, trivial, trivial,
      fun _ hop => absurd hop not_mem_nil⟩

theorem mallocRun_sound_brk_16MiB : RunAll (mallocStep ilp32 brkSeam) (MallocStepOk ilp32)
    ⟨arenaInit (fun _ => 0) ⟨⟨0x10000, 0x1010000, 0x10000, by decide, by decide, by decide, by decide⟩,
      0, .inl rfl⟩, []⟩ [.malloc 24, .free 0] := by
  refine mallocRun_sound_brk rfl _ _ ⟨trivial, fun _ _ _ => ⟨.inl rfl, fun _ _ _ => trivial⟩⟩ ?_
  simp [MallocOp.Positive, MallocOp.Fits, Fits]
  decide

theorem mallocRun_sound_static_1MiB : RunAll (mallocStep ⟨.little, 8, .inr rfl⟩ staticSeam) (MallocStepOk _)
    ⟨arenaInit (fun _ => 0) ⟨0x10000, 0x110000, 0, by decide, by decide, by decide, .inl rfl⟩, []⟩
    [.malloc 24, .free 0] := by
  refine mallocRun_sound_static rfl _ _ ⟨trivial, fun _ _ _ => ⟨.inl rfl, fun _ _ _ => trivial⟩⟩ ?_
  simp [MallocOp.Positive, MallocOp.Fits, Fits]
  decide

/-- A block of 108 bytes is resized to 2^32 - 16: the size wraps, and the copy runs over the footer
of a block of 32 bytes. -/
theorem wrappedRealloc_not_sound :
    ¬ ∀ (t : DataModel) (ρ : Type) (S : Seam ρ), S.OnlyGrows t → ∀ (mem : Mem) (r : ρ)
      (ops : List (MallocOp t)), OpsMeet (mallocStep t S) MallocOp.Promised ⟨arenaInit mem r, []⟩ ops →
        RunAll (mallocStep t S) (MallocStepOk t) ⟨arenaInit mem r, []⟩ ops := by
  intro hall
  have hrun : (mallocStep ilp32 (bumpSeam 0x10000 _) ⟨arenaInit (fun _ => 0) 0, []⟩
      (.malloc 100)).bind (fun s => (mallocStep ilp32 (bumpSeam 0x10000 0x1000) s.1
        (.realloc 0x10010 0xFFFFFFF0)).map fun s' => (s.1.owned, s'.1.owned,
          Mem.load .little 4 s'.1.heap.mem 0x10080, Mem.load .little 4 s'.1.heap.mem 0x1009C)) =
      some ([(0x10010, 100)], [(0x10090, 0xFFFFFFF0)], 33, 0) := by
    decide +kernel
  have hmt : OpsMeet (mallocStep ilp32 (bumpSeam 0x10000 0x1000)) MallocOp.Promised
      ⟨arenaInit (fun _ => 0) 0, []⟩ [.malloc 100, .realloc 0x10010 0xFFFFFFF0] := by
    refine ⟨trivial, fun c r hst => ⟨.inr ?_, fun _ _ _ => trivial⟩⟩
    rw [hst, bind_some] at hrun
    obtain ⟨s', -, hs'⟩ := map_eq_some_iff.mp hrun
    have hown : c.owned = [(0x10010, 100)] := congrArg Prod.fst hs'
    rw [hown]
    decide
  obtain ⟨c, r, hst, -, c', r', hst', ⟨-, ⟨bs, hsnd⟩, -⟩, -⟩ := hall _ _
    (bumpSeam _ _) (bumpSeam_onlyGrows (by decide) (by decide)) (fun _ => 0) 0 _ hmt
  rw [hst, bind_some, hst', map_some, some.injEq] at hrun
  injection hrun with _ hrun
  injection hrun with hown hrun
  injection hrun with hhd hfo
  -- the block of the pointer has 32 bytes by its header, and another footer
  obtain ⟨-, b, hb, hbeg, -⟩ := hsnd.payloads (0x10090, 0xFFFFFFF0) (by rw [hown]; decide)
  have hbstart : b.start = 0x10080 := by
    omega
  obtain ⟨hmem, hus⟩ := mem_usedBlocks.mp hb
  rcases hsnd.tags b hmem with ⟨hfil, -⟩ | ⟨-, htg⟩
  · rw [hus] at hfil
    cases hfil
  obtain ⟨hhd', hfo'⟩ := htg
  rw [hbstart] at hhd'
  have hsz : b.size = 32 := by
    have heq : 33 = b.size + 1 := hhd.symm.trans hhd'
    omega
  rw [HeapBlock.stop, hbstart, hsz] at hfo'
  have heq : 0 = 32 := hfo.symm.trans hfo'
  omega

end Skjegg.Libc
