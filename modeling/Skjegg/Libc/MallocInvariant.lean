import Skjegg.Lib.BlockHeap
import Skjegg.Lib.LinkedList
import Skjegg.Lib.Words
import Skjegg.Libc.Malloc

/-!
# The blocks of the libc heap

The blocks that the arena's memory stands for: boundary tags at both ends of a block, and the links
of the free lists in the payloads of free blocks.
-/

namespace Skjegg.Libc

open Skjegg.Lib Function List

variable {t : DataModel} {ρ : Type} {S : Seam ρ}

/-! ## Sizes and addresses -/

-- The two data models: words of 4 bytes and blocks of at least 32, or 8 and 48.
theorem minblk_cases (t : DataModel) : (t.ptr = 4 ∧ minblk t = 32 ∧ t.addresses = 2 ^ 32) ∨
      (t.ptr = 8 ∧ minblk t = 48 ∧ t.addresses = 2 ^ 64) := by
  unfold minblk foot DataModel.addresses
  rcases t.ptr_eq with h | h
  · rw [h]
    decide
  · rw [h]
    decide

variable {a used v : Nat} {B F : Nat → Nat}

theorem plus_of_lt {b : Nat} (h : a + b < t.addresses) : plus t a b = a + b := Nat.mod_eq_of_lt h

theorem minus_of_le {b : Nat} (h : b ≤ a) (ha : a < t.addresses) : minus t a b = a - b := by
  unfold minus
  rw [show a + t.addresses - b = a - b + t.addresses by omega, Nat.add_mod_right]
  exact Nat.mod_eq_of_lt (by omega)

def sizeClass (size : Nat) : Nat := min (size / 16) nbins

def classHead (h : Arena ρ) (k : Nat) : Nat :=
  if k < nbins then h.bins k else h.large

theorem sizeClass_le (size : Nat) : sizeClass size ≤ nbins := min_le_right _ _

theorem binHead_eq (h : Arena ρ) (size : Nat) : binHead h size = classHead h (sizeClass size) := by
  unfold binHead classHead sizeClass align
  by_cases hidx : size / 16 < nbins
  · rw [if_pos hidx, min_eq_left hidx.le, if_pos hidx]
  · rw [if_neg hidx, min_eq_right (by omega), if_neg (lt_irrefl _)]

theorem classHead_setBinHead (h : Arena ρ) (size v : Nat) {j : Nat} (hj : j ≤ nbins) :
    classHead (setBinHead h size v) j = if j = sizeClass size then v else classHead h j := by
  unfold setBinHead classHead sizeClass align
  by_cases hidx : size / 16 < nbins
  · rw [if_pos hidx, min_eq_left hidx.le]
    by_cases heq : j = size / 16
    · rw [if_pos heq, heq, if_pos hidx]
      exact update_self ..
    split
    · exact update_of_ne heq ..
    · rfl
  · rw [if_neg hidx, min_eq_right (by omega)]
    by_cases heq : j = nbins
    · rw [if_pos heq, heq, if_neg (lt_irrefl _)]
    · rw [if_neg heq, if_pos (by omega), if_pos (by omega)]

/-! ## Boundary tags -/

def TagsOk (t : DataModel) (mem : Mem) (b : HeapBlock) (used : Nat) : Prop :=
  Mem.load t.endian t.ptr mem b.start = b.size + used ∧
    Mem.load t.endian t.ptr mem (b.stop - t.ptr) = b.size

def BlockOk (t : DataModel) (mem : Mem) (b : HeapBlock) : Prop :=
  match b.state with
  | .used => TagsOk t mem b 1
  | .filed => TagsOk t mem b 0
  | .loose => True

def SameBlock (mem mem' : Mem) (b : HeapBlock) : Prop := ∀ x, b.start ≤ x → x < b.stop → mem' x = mem x

section Tags

variable {mem mem' : Mem} {b : HeapBlock}

theorem SameBlock.load (h : SameBlock mem mem' b) (hlo : b.start ≤ a) (hhi : a + t.ptr ≤ b.stop) :
    Mem.load t.endian t.ptr mem' a = Mem.load t.endian t.ptr mem a :=
  Mem.load_congr fun x hx hx' => h x (by omega) (by omega)

theorem TagsOk.bsize {h : Arena ρ} (hb : TagsOk t h.mem b used)
    (hsz : b.size % 16 = 0) (hus : used ≤ 1) : h.bsize t b.start = b.size := by
  unfold Arena.bsize align
  rw [hb.1]
  omega

theorem TagsOk.bused {h : Arena ρ} (hb : TagsOk t h.mem b used)
    (hsz : b.size % 16 = 0) (hus : used ≤ 1) : h.bused t b.start = decide (used = 1) := by
  unfold Arena.bused
  rw [hb.1]
  apply decide_eq_decide.mpr
  omega

theorem TagsOk.footBefore {h : Arena ρ} (hb : TagsOk t h.mem b used)
    (hlt : b.stop < t.addresses) (hsz : t.ptr ≤ b.size) : h.footBefore t b.stop = b.size := by
  unfold Arena.footBefore foot
  rw [minus_of_le (by unfold HeapBlock.stop; omega) hlt]
  exact hb.2

/-- The tags of a block of `minblk` bytes or more that are equal in two memories are as good in
both. -/
theorem BlockOk.congr (hb : BlockOk t mem b)
    (hhd : Mem.load t.endian t.ptr mem' b.start = Mem.load t.endian t.ptr mem b.start)
    (hfo : Mem.load t.endian t.ptr mem' (b.stop - t.ptr) =
      Mem.load t.endian t.ptr mem (b.stop - t.ptr)) : BlockOk t mem' b := by
  unfold BlockOk TagsOk at hb ⊢
  rw [hhd, hfo]
  exact hb

theorem SameBlock.blockOk (h : SameBlock mem mem' b) (hsz : minblk t ≤ b.size)
    (hb : BlockOk t mem b) : BlockOk t mem' b := by
  have hmin := minblk_cases t
  have hsp : b.stop = b.start + b.size := rfl
  exact hb.congr (h.load (by omega) (by omega)) (h.load (by omega) (by omega))

end Tags

/-! ## Representation -/

/-- The blocks and free lists that the allocator's variables and memory stand for. -/
structure ArenaRepr (t : DataModel) (S : Seam ρ) (h : Arena ρ) (bs : List HeapBlock)
    (lists : Nat → List Nat) : Prop where
  aligned : h.arenaLo % 16 = 0
  opened : (h.arenaLo = 0 ∧ h.brkEnd = 0) ∨ (0 < h.arenaLo ∧ h.brkEnd = S.brk h.seam)
  below : h.brkEnd < t.addresses
  tiles : Tiles h.arenaLo h.brkEnd bs
  sizes : ∀ b ∈ bs, minblk t ≤ b.size ∧ b.size % 16 = 0
  tags : ∀ b ∈ bs, BlockOk t h.mem b
  separated : Separated bs
  filed : Filed sizeClass bs lists
  linked : ∀ k ≤ nbins, DLinked (h.fwd t) (h.bwd t) 0 (classHead h k) (lists k)
  live : h.live = usedBytes bs

/-- Nothing but memory, list heads and counters differs. -/
structure SameExtent (h h' : Arena ρ) : Prop where
  arenaLo : h'.arenaLo = h.arenaLo
  brkEnd : h'.brkEnd = h.brkEnd
  seam : h'.seam = h.seam

theorem SameExtent.trans {h h' h'' : Arena ρ} (h1 : SameExtent h h') (h2 : SameExtent h' h'') :
    SameExtent h h'' :=
  ⟨h2.arenaLo.trans h1.arenaLo, h2.brkEnd.trans h1.brkEnd, h2.seam.trans h1.seam⟩

section Repr

variable {h h' : Arena ρ} {bs xs ys mid mid' : List HeapBlock} {b c : HeapBlock}
  {lists : Nat → List Nat}

theorem ArenaRepr.mem_list (hr : ArenaRepr t S h bs lists) {k x : Nat} (hx : x ∈ lists k) :
    ∃ c ∈ bs, c.start = x ∧ c.state = .filed ∧ sizeClass c.size = k :=
  ((hr.filed k).2 x).mp hx

theorem ArenaRepr.bounds (hr : ArenaRepr t S h bs lists) (hb : b ∈ bs) :
    0 < b.start ∧ h.arenaLo ≤ b.start ∧ b.stop ≤ h.brkEnd ∧ b.stop < t.addresses ∧
      minblk t ≤ b.size ∧ b.size % 16 = 0 ∧ b.stop = b.start + b.size := by
  have hbnd := hr.tiles.bounds hb
  have hsz := hr.sizes b hb
  have hlow := hr.below
  have hop := hr.opened
  have hsp : b.stop = b.start + b.size := rfl
  omega

theorem ArenaRepr.apart (hr : ArenaRepr t S h bs lists) (hb : b ∈ bs) (hc : c ∈ bs)
    (hne : c.start ≠ b.start) : c.stop ≤ b.start ∨ b.stop ≤ c.start := by
  obtain ⟨xs, ys, rfl⟩ := append_of_mem hb
  exact hr.tiles.apart ((mem_middle.mp hc).resolve_left fun heq => hne (heq ▸ rfl))

theorem ArenaRepr.link_lt (hr : ArenaRepr t S h bs lists) {k : Nat} {l : List Nat}
    (hl : Linked (h.fwd t) a l) (hsub : ∀ x ∈ l, x ∈ lists k) : a < t.addresses := by
  cases l with
  | nil =>
    rw [show a = 0 from hl]
    exact Nat.two_pow_pos _
  | cons x l =>
    obtain ⟨c, hc, hbeg, -⟩ := hr.mem_list (hsub x mem_cons_self)
    have hbnd := hr.bounds hc
    rw [hl.1]
    omega

theorem ArenaRepr.reshape (hr : ArenaRepr t S h (xs ++ mid ++ ys) lists)
    (hhd : classHead h' = classHead h) (hext : SameExtent h h')
    (hsm : ∀ c ∈ xs ++ ys, SameBlock h.mem h'.mem c)
    (hfil : ∀ c ∈ mid, c.state ≠ .filed) (hfil' : ∀ c ∈ mid', c.state ≠ .filed)
    (hne : mid' ≠ []) (htl : ∀ lo hi, Tiles lo hi mid → Tiles lo hi mid')
    (hszs : ∀ c ∈ mid', minblk t ≤ c.size ∧ c.size % 16 = 0) (htg : ∀ c ∈ mid', BlockOk t h'.mem c)
    (hlv : h'.live + usedBytes mid = h.live + usedBytes mid') :
    ArenaRepr t S h' (xs ++ mid' ++ ys) lists where
  aligned := hext.arenaLo ▸ hr.aligned
  opened := by
    rw [hext.arenaLo, hext.brkEnd, hext.seam]
    exact hr.opened
  below := hext.brkEnd ▸ hr.below
  tiles := by
    rw [hext.arenaLo, hext.brkEnd]
    exact hr.tiles.replace htl
  sizes c hc := by
    have hold := hr.sizes c
    simp only [mem_append] at hc hold
    rcases hc with (hc | hc) | hc
    · exact hold (.inl (.inl hc))
    · exact hszs c hc
    · exact hold (.inr hc)
  tags c hc := by
    have hold := hr.tags c
    have hkp := hsm c
    have hsz := hr.sizes c
    simp only [mem_append] at hc hold hkp hsz
    rcases hc with (hc | hc) | hc
    · exact (hkp (.inl hc)).blockOk (hsz (.inl (.inl hc))).1 (hold (.inl (.inl hc)))
    · exact htg c hc
    · exact (hkp (.inr hc)).blockOk (hsz (.inr hc)).1 (hold (.inr hc))
  separated := hr.separated.reshape hne hfil'
  filed := hr.filed.reshape hfil hfil'
  linked k hk := by
    rw [hhd]
    -- the links are in filed blocks, and those are the same
    have hno : ∀ x ∈ lists k, h'.fwd t x = h.fwd t x ∧ h'.bwd t x = h.bwd t x := by
      intro x hx
      obtain ⟨c, hc, rfl, hst, -⟩ := hr.mem_list hx
      have hbnd := hr.bounds hc
      have hmin := minblk_cases t
      have hc' : c ∈ xs ++ ys := by
        simp only [mem_append] at hc ⊢
        rcases hc with (hc | hc) | hc
        · exact .inl hc
        · exact absurd hst (hfil c hc)
        · exact .inr hc
      exact ⟨(hsm c hc').load (by omega) (by unfold align; omega),
        (hsm c hc').load (by omega) (by unfold align; omega)⟩
    exact (hr.linked k hk).congr (fun x hx => (hno x hx).1) fun x hx => (hno x hx).2
  live := by
    have hold := hr.live
    simp only [usedBytes_append] at hold ⊢
    omega

/-! ## Links -/

/-- Only links of free blocks differ, and they are now `F` and `B`. -/
structure Relinked (t : DataModel) (h h' : Arena ρ) (bs : List HeapBlock) (F B : Nat → Nat) :
    Prop where
  ext : SameExtent h h'
  live : h'.live = h.live
  tags : ∀ c ∈ bs, Mem.load t.endian t.ptr h'.mem c.start = Mem.load t.endian t.ptr h.mem c.start ∧
    Mem.load t.endian t.ptr h'.mem (c.stop - t.ptr) = Mem.load t.endian t.ptr h.mem (c.stop - t.ptr)
  used : ∀ c ∈ bs, c.state = .used → SameBlock h.mem h'.mem c
  fwd : ∀ c ∈ bs, h'.fwd t c.start = F c.start
  bwd : ∀ c ∈ bs, h'.bwd t c.start = B c.start

theorem Relinked.refl (h : Arena ρ) (bs : List HeapBlock) : Relinked t h h bs (h.fwd t) (h.bwd t) where
  ext := ⟨rfl, rfl, rfl⟩
  live := rfl
  tags _ _ := ⟨rfl, rfl⟩
  used _ _ _ _ _ _ := rfl
  fwd _ _ := rfl
  bwd _ _ := rfl

-- List heads have no part in it.
theorem Relinked.setBinHead (hl : Relinked t h h' bs F B) (size v : Nat) :
    Relinked t h (Libc.setBinHead h' size v) bs F B := by
  have hmem : (Libc.setBinHead h' size v).mem = h'.mem := by
    unfold Libc.setBinHead
    split <;> rfl
  have hrs : SameExtent h' (Libc.setBinHead h' size v) ∧ (Libc.setBinHead h' size v).live = h'.live := by
    unfold Libc.setBinHead
    split <;> exact ⟨⟨rfl, rfl, rfl⟩, rfl⟩
  refine ⟨hl.ext.trans hrs.1, hrs.2.trans hl.live, ?_, ?_, ?_, ?_⟩
  · rw [hmem]
    exact hl.tags
  · rw [hmem]
    exact hl.used
  · unfold Arena.fwd
    rw [hmem]
    exact hl.fwd
  · unfold Arena.bwd
    rw [hmem]
    exact hl.bwd

variable (hr : ArenaRepr t S h bs lists)

include hr

-- A word stored in the payload of `b` at a link's offset is not read as another word of a block.
theorem ArenaRepr.load_store_link (hb : b ∈ bs) (hc : c ∈ bs)
    {m : Mem} {off : Nat} (hoff : 16 ≤ off ∧ off + t.ptr ≤ 16 + 2 * t.ptr)
    (ha : a + t.ptr ≤ c.size) (hdiff : c.start = b.start → a + t.ptr ≤ off ∨ off + t.ptr ≤ a) :
    Mem.load t.endian t.ptr (Mem.store t.endian t.ptr m (b.start + off) v) (c.start + a) =
      Mem.load t.endian t.ptr m (c.start + a) := by
  have hbb := hr.bounds hb
  have hcb := hr.bounds hc
  have hmin := minblk_cases t
  apply Mem.load_store_apart
  by_cases heq : c.start = b.start
  · omega
  · have := hr.apart hb hc heq
    omega

-- A link is written to a block that is not in use.
theorem ArenaRepr.relink_store
    (hl : Relinked t h h' bs F B) (hb : b ∈ bs) (hst : b.state ≠ .used) {off : Nat}
    (hoff : 16 ≤ off ∧ off + t.ptr ≤ 16 + 2 * t.ptr) {F' B' : Nat → Nat}
    (hfwd : ∀ c ∈ bs, (h'.setWord t (b.start + off) v).fwd t c.start = F' c.start)
    (hbwd : ∀ c ∈ bs, (h'.setWord t (b.start + off) v).bwd t c.start = B' c.start) :
    Relinked t h (h'.setWord t (b.start + off) v) bs F' B' where
  ext := hl.ext.trans ⟨rfl, rfl, rfl⟩
  live := hl.live
  tags c hc := by
    have hcb := hr.bounds hc
    have hmin := minblk_cases t
    have hhd := hr.load_store_link hb hc (m := h'.mem) (v := v) hoff (a := 0) (by omega)
      fun _ => by omega
    have hfo := hr.load_store_link hb hc (m := h'.mem) (v := v) hoff (a := c.size - t.ptr)
      (by omega) fun _ => by omega
    rw [show c.start + (c.size - t.ptr) = c.stop - t.ptr by omega] at hfo
    exact ⟨hhd.trans (hl.tags c hc).1, hfo.trans (hl.tags c hc).2⟩
  used c hc hus x hx hx' := by
    have hbb := hr.bounds hb
    have hmin := minblk_cases t
    -- the block written to is another one
    have hne : c.start ≠ b.start := fun heq => hst (hr.tiles.eq_of_start hc hb heq ▸ hus)
    have hap := hr.apart hb hc hne
    rw [← hl.used c hc hus x hx hx']
    exact Mem.store_outside (by omega)
  fwd := hfwd
  bwd := hbwd

theorem ArenaRepr.relink_setFwd
    (hl : Relinked t h h' bs F B) (hb : b ∈ bs) (hst : b.state ≠ .used) (hv : v < t.addresses) :
    Relinked t h (h'.setFwd t b.start v) bs (update F b.start v) B := by
  have hmin := minblk_cases t
  refine hr.relink_store hl hb hst (by unfold align; omega) (fun c hc => ?_) fun c hc => ?_
  · have hcb := hr.bounds hc
    by_cases heq : c.start = b.start
    · rw [heq, update_self]
      exact Mem.load_store_self (by rwa [← t.addresses_eq])
    · rw [update_of_ne heq, ← hl.fwd c hc]
      exact hr.load_store_link hb hc (by unfold align; omega) (by unfold align; omega)
        fun h0 => absurd h0 heq
  · have hcb := hr.bounds hc
    rw [← hl.bwd c hc]
    unfold Arena.bwd
    rw [add_assoc]
    exact hr.load_store_link hb hc (by unfold align; omega) (by unfold align; omega)
      fun _ => by unfold align; omega

theorem ArenaRepr.relink_setBwd
    (hl : Relinked t h h' bs F B) (hb : b ∈ bs) (hst : b.state ≠ .used) (hv : v < t.addresses) :
    Relinked t h (h'.setBwd t b.start v) bs F (update B b.start v) := by
  have hmin := minblk_cases t
  unfold Arena.setBwd
  rw [add_assoc]
  refine hr.relink_store hl hb hst (by unfold align; omega) (fun c hc => ?_) fun c hc => ?_
  · have hcb := hr.bounds hc
    rw [← hl.fwd c hc]
    exact hr.load_store_link hb hc (by unfold align; omega) (by unfold align; omega)
      fun _ => by unfold align; omega
  have hcb := hr.bounds hc
  unfold Arena.bwd
  rw [add_assoc]
  by_cases heq : c.start = b.start
  · rw [heq, update_self]
    exact Mem.load_store_self (by rwa [← t.addresses_eq])
  rw [update_of_ne heq, ← hl.bwd c hc]
  unfold Arena.bwd
  rw [add_assoc]
  exact hr.load_store_link hb hc (by unfold align; omega) (by unfold align; omega)
    fun h0 => absurd h0 heq

end Repr

end Skjegg.Libc
