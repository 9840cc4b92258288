import Skjegg.Lib.Memory

/-!
# The memory seam

`libc/sbrk.c`. The ILP32 targets move the break of the process with `brk`, the LP64 targets a pointer
through a static array. Asked to grow, both extend the heap in place or leave it alone.
-/

namespace Skjegg.Libc

open Skjegg.Lib

/-- A source of memory: `sbrk` moves the break and returns the old one, or fails with `(void *)-1`.
-/
structure Seam (ρ : Type) where
  sbrk : ρ → Int → Option Nat × ρ
  brk : ρ → Nat

namespace Seam

variable {ρ : Type}

def Fails (S : Seam ρ) (r : ρ) (incr : Int) : Prop :=
  (S.sbrk r incr).1 = none ∧ S.brk (S.sbrk r incr).2 = S.brk r

def Extends (S : Seam ρ) (r : ρ) (n : Nat) : Prop :=
  (S.sbrk r n).1 = some (S.brk r) ∧ S.brk (S.sbrk r n).2 = S.brk r + n

/-- Asked for fewer than `most` bytes, the seam gives the next ones or fails. Its breaks are not
`NULL` or `(void *)-1`, and after a success the break can be asked for. -/
structure Growing (S : Seam ρ) (t : DataModel) (most : Nat) : Prop where
  pos : ∀ r, 0 < S.brk r
  below : ∀ r, S.brk r < t.addresses - 1
  grow : ∀ r (n : Nat), n < most → S.Fails r n ∨ S.Extends r n
  steady : ∀ r incr, (S.sbrk r incr).1 ≠ none → (S.sbrk (S.sbrk r incr).2 0).1 ≠ none

end Seam

/-! ## ILP32: the program break -/

/-- The break of the process as the kernel keeps it. -/
structure Kernel where
  (start limit brk : Nat)
  start_pos : 0 < start
  start_le : start ≤ brk
  le_limit : brk ≤ limit
  limit_lt : limit < 2 ^ 32 - 1

/-- `__sys_brk`: the new break, or the old one when the request cannot be met. -/
def sysBrk (k : Kernel) (addr : Nat) : Nat × Kernel :=
  if h : k.start ≤ addr ∧ addr ≤ k.limit then
    (addr, { k with brk := addr, start_le := h.1, le_limit := h.2 })
  else
    (k.brk, k)

theorem sysBrk_brk (k : Kernel) (addr : Nat) : (sysBrk k addr).1 = (sysBrk k addr).2.brk := by
  unfold sysBrk
  split <;> rfl

/-- The kernel, and `cur_brk`, which is 0 until the break is first asked for. -/
structure BrkHeap where
  kernel : Kernel
  curBrk : Nat
  known : curBrk = 0 ∨ curBrk = kernel.brk

def BrkHeap.ask (k : Kernel) (addr : Nat) : BrkHeap where
  kernel := (sysBrk k addr).2
  curBrk := (sysBrk k addr).1
  known := .inr (sysBrk_brk k addr)

theorem BrkHeap.ask_curBrk (k : Kernel) (addr : Nat) :
    (ask k addr).curBrk = if k.start ≤ addr ∧ addr ≤ k.limit then addr else k.brk := by
  show (sysBrk k addr).1 = _
  unfold sysBrk
  split <;> rfl

def BrkHeap.query (s : BrkHeap) : BrkHeap :=
  if s.curBrk = 0 then .ask s.kernel 0 else s

/-- `__libc_sbrk` on ILP32 targets. -/
def libcSbrkBrk (s : BrkHeap) (incr : Int) : Option Nat × BrkHeap :=
  let s := s.query
  if s.curBrk = 2 ^ 32 - 1 ∨ s.curBrk = 0 then (none, s)
  else
    let want := ((s.curBrk + incr) % 2 ^ 32).toNat
    -- the address wraps, on growing or on shrinking
    if 0 < incr ∧ want < s.curBrk then (none, s)
    else if incr < 0 ∧ s.curBrk < want then (none, s)
    else
      let got := BrkHeap.ask s.kernel want
      -- a refused request leaves the kernel as it was
      if 0 < incr ∧ got.curBrk < want then (none, s)
      else (some s.curBrk, got)

theorem BrkHeap.query_curBrk (s : BrkHeap) : s.query.kernel = s.kernel ∧ s.query.curBrk = s.kernel.brk := by
  have hz : sysBrk s.kernel 0 = (s.kernel.brk, s.kernel) := by
    unfold sysBrk
    rw [dif_neg fun h => by have := s.kernel.start_pos; omega]
  unfold query
  split
  · exact ⟨congrArg Prod.snd hz, congrArg Prod.fst hz⟩
  · exact ⟨rfl, s.known.resolve_left ‹_›⟩

def brkSeam : Seam BrkHeap where
  sbrk := libcSbrkBrk
  brk s := s.kernel.brk

theorem libcSbrkBrk_grow (s : BrkHeap) {n : Nat} (hn : n < 2 ^ 31) :
    (s.kernel.brk + n ≤ s.kernel.limit ∧ brkSeam.Extends s n) ∨
      (s.kernel.limit < s.kernel.brk + n ∧ brkSeam.Fails s n) := by
  obtain ⟨hker, hcur⟩ := s.query_curBrk
  have hpos := s.kernel.start_pos
  have hbeg := s.kernel.start_le
  have hlim := s.kernel.le_limit
  have hlt := s.kernel.limit_lt
  unfold Seam.Extends Seam.Fails
  simp only [brkSeam, libcSbrkBrk]
  rw [if_neg (by omega), hcur, hker]
  by_cases hft : s.kernel.brk + n ≤ s.kernel.limit
  · left
    have hwant : ((s.kernel.brk + (n : Int)) % 2 ^ 32).toNat = s.kernel.brk + n := by omega
    have hgot : (BrkHeap.ask s.kernel (s.kernel.brk + n)).curBrk = s.kernel.brk + n := by
      rw [BrkHeap.ask_curBrk, if_pos ⟨by omega, hft⟩]
    refine ⟨hft, ?_⟩
    rw [hwant, if_neg (by omega), if_neg (by omega), if_neg (by omega)]
    exact ⟨rfl, (sysBrk_brk _ _).symm.trans hgot⟩
  right
  refine ⟨by omega, ?_⟩
  by_cases hwrap : ((s.kernel.brk + (n : Int)) % 2 ^ 32).toNat < s.kernel.brk
  · rw [if_pos ⟨by omega, hwrap⟩]
    exact ⟨rfl, by rw [hker]⟩
  -- the request is an address, but above what the kernel grants
  have hgot : (BrkHeap.ask s.kernel ((s.kernel.brk + (n : Int)) % 2 ^ 32).toNat).curBrk =
      s.kernel.brk := by
    rw [BrkHeap.ask_curBrk, if_neg (by omega)]
  rw [if_neg (by omega), if_neg (by omega), if_pos (by omega)]
  exact ⟨rfl, by rw [hker]⟩

theorem brkSeam_growing {t : DataModel} (ht : t.ptr = 4) : brkSeam.Growing t (2 ^ (8 * t.ptr - 1)) where
  pos s := s.kernel.start_pos.trans_le s.kernel.start_le
  below s := by
    unfold DataModel.addresses
    rw [ht]
    exact s.kernel.le_limit.trans_lt s.kernel.limit_lt
  grow s n hn := by
    rw [ht] at hn
    exact (libcSbrkBrk_grow s hn).elim (fun h => .inr h.2) fun h => .inl h.2
  steady s incr _ := by
    rcases libcSbrkBrk_grow (libcSbrkBrk s _).2 (show 0 < 2 ^ 31 by decide) with h | h
    · exact fun hno => Option.some_ne_none _ (h.2.1.symm.trans hno)
    · exact absurd h.1 (by have := (libcSbrkBrk s incr).2.kernel.le_limit; omega)

/-! ## LP64: a static region -/

/-- The region of `heap_store` from its first multiple of 8, and `heap_brk`, which is 0 until the
first use. -/
structure StaticHeap where
  (base limit heapBrk : Nat)
  base_pos : 0 < base
  base_le : base ≤ limit
  limit_lt : limit < 2 ^ 63
  inside : heapBrk = 0 ∨ base ≤ heapBrk ∧ heapBrk ≤ limit

variable (s : StaticHeap)

def StaticHeap.top : Nat :=
  if s.heapBrk = 0 then s.base else s.heapBrk

theorem StaticHeap.top_eq {s : StaticHeap} (h : s.heapBrk ≠ 0) : s.top = s.heapBrk :=
  if_neg h

theorem StaticHeap.top_bounds : s.base ≤ s.top ∧ s.top ≤ s.limit := by
  unfold top
  split
  · exact ⟨le_rfl, s.base_le⟩
  · exact s.inside.resolve_left ‹_›

def libcSbrkStatic (incr : Int) : Option Nat × StaticHeap :=
  let next := ((s.top + incr) % 2 ^ 64).toNat
  if h : next < s.base ∨ s.limit < next then
    (none, { s with heapBrk := s.top, inside := .inr s.top_bounds })
  else
    (some s.top, { s with heapBrk := next, inside := .inr (by omega) })

def staticSeam : Seam StaticHeap where
  sbrk := libcSbrkStatic
  brk := StaticHeap.top

theorem libcSbrkStatic_grow {n : Nat} (hn : n < 2 ^ 63) :
    (s.top + n ≤ s.limit ∧ staticSeam.Extends s n) ∨ (s.limit < s.top + n ∧ staticSeam.Fails s n) := by
  have hbnd := s.top_bounds
  have hpos := s.base_pos
  have hlt := s.limit_lt
  have hnx : ((s.top + (n : Int)) % 2 ^ 64).toNat = s.top + n := by omega
  unfold Seam.Extends Seam.Fails
  simp only [staticSeam, libcSbrkStatic]
  by_cases hft : s.top + n ≤ s.limit
  · left
    refine ⟨hft, ?_⟩
    rw [dif_neg (by omega)]
    refine ⟨rfl, (StaticHeap.top_eq ?_).trans hnx⟩
    exact hnx.trans_ne (by omega)
  · right
    refine ⟨by omega, ?_⟩
    rw [dif_pos (by omega)]
    exact ⟨rfl, StaticHeap.top_eq (show s.top ≠ 0 by omega)⟩

theorem staticSeam_growing {t : DataModel} (ht : t.ptr = 8) :
    staticSeam.Growing t (2 ^ (8 * t.ptr - 1)) where
  pos s := s.base_pos.trans_le s.top_bounds.1
  below s := by
    show s.top < 2 ^ (8 * t.ptr) - 1
    rw [ht]
    have := s.limit_lt
    have := s.top_bounds
    omega
  grow s n hn := by
    rw [ht] at hn
    exact (libcSbrkStatic_grow s hn).elim (fun h => .inr h.2) fun h => .inl h.2
  steady s incr _ := by
    rcases libcSbrkStatic_grow (libcSbrkStatic s _).2 (show 0 < 2 ^ 63 by decide) with h | h
    · exact fun hno => Option.some_ne_none _ (h.2.1.symm.trans hno)
    · exact absurd h.1 (by have := (libcSbrkStatic s incr).2.top_bounds; omega)

end Skjegg.Libc
