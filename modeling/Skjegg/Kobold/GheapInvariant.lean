import Skjegg.Kobold.Gheap
import Skjegg.Lib.BlockHeap
import Skjegg.Lib.LinkedList
import Mathlib.Data.BitVec

/-!
# The blocks of the guest heap

The blocks that the allocator's memory stands for, and what its small steps do to them. A block in
the allocator's hands (`loose`) may have any header.
-/

namespace Skjegg.Kobold

open Skjegg.Lib Skjegg.Libc Function List

variable {t : DataModel} {ρ : Type} {S : Seam ρ}

/-! ## Sizes -/

@[simp] theorem toNat_ghAlign : ghAlign.toNat = 16 := by
  decide

theorem toNat_ghRoundUp (n : U32) : (ghRoundUp n ghAlign).toNat = (n.toNat + 15) % 2 ^ 32 / 16 * 16 := by
  have hmask : ghRoundUp n ghAlign = (n + 15#32) &&& ~~~((1#32 <<< 4) - 1#32) := by
    have hsub : n + ghAlign - 1 = n + 15#32 := by
      unfold ghAlign
      bv_omega
    unfold ghRoundUp
    rw [hsub]
    rfl
  rw [hmask, toNat_and_not_lowMask _ (by decide), BitVec.toNat_add]
  rfl

@[simp] theorem toNat_ghHdr : (ghHdr t).toNat = 16 := by
  unfold ghHdr
  rcases t.ptr_eq with h | h <;> rw [h] <;> rfl

def ghNeed (nbytes : U32) : Nat := (nbytes.toNat + 31) / 16 * 16

/-- The block for the request has a size that fits its header, and that the memory source can be
asked for. -/
def GhFits (t : DataModel) (nbytes : U32) : Prop := nbytes.toNat + 31 < min (2 ^ 32) (2 ^ (8 * t.ptr - 1))

theorem toNat_ghNeed {nbytes : U32} (h : GhFits t nbytes) :
    (ghRoundUp (nbytes + ghHdr t) ghAlign).toNat = ghNeed nbytes := by
  unfold GhFits at h
  rw [toNat_ghRoundUp, BitVec.toNat_add, toNat_ghHdr]
  unfold ghNeed
  omega

/-! ## Header fields -/

section Fields

variable (h : Gheap ρ) {b v : Nat}

theorem ptr_le (t : DataModel) : t.ptr ≤ 8 := by
  rcases t.ptr_eq with h | h <;> omega

theorem size_setSize (hv : v < 2 ^ 32) : (h.setSize t b v).size t b = v := Mem.load_store_self hv

theorem isFree_setIsFree (hv : v < 2 ^ 32) : (h.setIsFree t b v).isFree t b = v := Mem.load_store_self hv

theorem next_setNext (hv : v < t.addresses) : (h.setNext t b v).next t b = v :=
  Mem.load_store_self (by rwa [← t.addresses_eq])

@[simp] theorem size_setIsFree : (h.setIsFree t b v).size t b = h.size t b :=
  Mem.load_store_apart (by omega)

@[simp] theorem size_setNext : (h.setNext t b v).size t b = h.size t b := Mem.load_store_apart (by omega)

@[simp] theorem isFree_setNext : (h.setNext t b v).isFree t b = h.isFree t b :=
  Mem.load_store_apart (by omega)

/-- Everything but the header at `b` is the same. -/
def HdrOnly (h h' : Gheap ρ) (b : Nat) : Prop := ∀ x, x < b ∨ b + 16 ≤ x → h'.mem x = h.mem x

theorem HdrOnly.trans {h h' h'' : Gheap ρ} (h1 : HdrOnly h h' b) (h2 : HdrOnly h' h'' b) :
    HdrOnly h h'' b := fun x hx => (h2 x hx).trans (h1 x hx)

theorem hdrOnly_setSize : HdrOnly h (h.setSize t b v) b := fun _ hx =>
  Mem.store_outside (by omega)

theorem hdrOnly_setIsFree : HdrOnly h (h.setIsFree t b v) b := fun _ hx =>
  Mem.store_outside (by omega)

theorem hdrOnly_setNext : HdrOnly h (h.setNext t b v) b := fun _ hx =>
  Mem.store_outside (by have := ptr_le t; omega)

/-- The header at `c` is the same in two heaps. -/
structure SameHdr (t : DataModel) (h h' : Gheap ρ) (c : Nat) : Prop where
  size : h'.size t c = h.size t c
  isFree : h'.isFree t c = h.isFree t c
  next : h'.next t c = h.next t c

theorem sameHdr_of_mem {h h' : Gheap ρ} {c : Nat}
    (hmem : ∀ x, c ≤ x → x < c + 16 → h'.mem x = h.mem x) : SameHdr t h h' c where
  size := Mem.load_congr fun x _ _ => hmem x (by omega) (by omega)
  isFree := Mem.load_congr fun x _ _ => hmem x (by omega) (by omega)
  next := Mem.load_congr fun x _ _ => hmem x (by omega) (by have := ptr_le t; omega)

theorem HdrOnly.sameHdr {h h' : Gheap ρ} {c : Nat} (hw : HdrOnly h h' b)
    (hc : c + 16 ≤ b ∨ b + 16 ≤ c) : SameHdr t h h' c :=
  sameHdr_of_mem fun x _ _ => hw x (by omega)

end Fields

/-! ## Representation -/

def ghClass (size : Nat) : Nat := min (size / 16) ghNbins

def ghHead (h : Gheap ρ) (k : Nat) : Nat :=
  if k < ghNbins then h.bins k else h.large

/-- What the header of a block says. -/
def HdrOk (t : DataModel) (h : Gheap ρ) (b : HeapBlock) : Prop :=
  match b.state with
  | .used => h.size t b.start = b.size ∧ h.isFree t b.start = 0
  | .filed => h.size t b.start = b.size ∧ h.isFree t b.start = 1
  | .loose => True

/-- The blocks and free lists of a heap. The carved part of the region is `[base, break)`. -/
structure GhRepr (t : DataModel) (S : Seam ρ) (base : Nat) (h : Gheap ρ) (bs : List HeapBlock)
    (lists : Nat → List Nat) : Prop where
  base_pos : 0 < base
  below : S.brk h.region < t.addresses
  span : S.brk h.region < base + 2 ^ 32
  tiles : Tiles base (S.brk h.region) bs
  sizes : ∀ b ∈ bs, 32 ≤ b.size ∧ b.size % 16 = 0
  hdr : ∀ b ∈ bs, HdrOk t h b
  filed : Filed ghClass bs lists
  linked : ∀ k ≤ ghNbins, Linked (h.next t) (ghHead h k) (lists k)
  live : h.liveBytes = BitVec.ofNat 32 (usedBytes bs)

theorem ghClass_le (size : Nat) : ghClass size ≤ ghNbins := min_le_right _ _

theorem SameHdr.hdrOk {h h' : Gheap ρ} {b : HeapBlock} (hs : SameHdr t h h' b.start)
    (hb : HdrOk t h b) : HdrOk t h' b := by
  unfold HdrOk at hb ⊢
  rw [hs.size, hs.isFree]
  exact hb

section Repr

variable {base : Nat} {h h' : Gheap ρ} {bs xs ys mid mid' : List HeapBlock} {b : HeapBlock}
  {lists : Nat → List Nat}

theorem GhRepr.mem_list (hr : GhRepr t S base h bs lists) {k x : Nat} (hx : x ∈ lists k) :
    ∃ c ∈ bs, c.start = x ∧ c.state = .filed ∧ ghClass c.size = k :=
  ((hr.filed k).2 x).mp hx

theorem GhRepr.reshape (hr : GhRepr t S base h (xs ++ mid ++ ys) lists)
    (hhd : ghHead h' = ghHead h) (hreg : h'.region = h.region)
    (hsm : ∀ c ∈ xs ++ ys, SameHdr t h h' c.start)
    (hfil : ∀ c ∈ mid, c.state ≠ .filed) (hfil' : ∀ c ∈ mid', c.state ≠ .filed)
    (htl : ∀ lo hi, Tiles lo hi mid → Tiles lo hi mid')
    (hszs : ∀ c ∈ mid', 32 ≤ c.size ∧ c.size % 16 = 0) (hhdr : ∀ c ∈ mid', HdrOk t h' c)
    (hlv : h'.liveBytes + BitVec.ofNat 32 (usedBytes mid) =
      h.liveBytes + BitVec.ofNat 32 (usedBytes mid')) : GhRepr t S base h' (xs ++ mid' ++ ys) lists where
  base_pos := hr.base_pos
  below := hreg ▸ hr.below
  span := hreg ▸ hr.span
  tiles := by
    rw [hreg]
    exact hr.tiles.replace htl
  sizes := by
    have hold := hr.sizes
    simp only [forall_mem_append] at hold ⊢
    exact ⟨⟨hold.1.1, hszs⟩, hold.2⟩
  hdr := by
    have hold := hr.hdr
    simp only [forall_mem_append] at hold hsm ⊢
    exact ⟨⟨fun c hc => (hsm.1 c hc).hdrOk (hold.1.1 c hc), hhdr⟩,
      fun c hc => (hsm.2 c hc).hdrOk (hold.2 c hc)⟩
  filed := hr.filed.reshape hfil hfil'
  linked k hk := by
    rw [hhd]
    apply (hr.linked k hk).congr
    intro x hx
    -- a block on the list is filed, so it is none of those reshaped
    obtain ⟨c, hc, rfl, hst, -⟩ := hr.mem_list hx
    rcases mem_append.mp hc with hc | hc
    · rcases mem_append.mp hc with hc | hc
      · exact (hsm c (mem_append_left _ hc)).next
      · exact absurd hst (hfil c hc)
    · exact (hsm c (mem_append_right _ hc)).next
  live := by
    have h0 := hr.live
    simp only [usedBytes_append, BitVec.ofNat_add] at h0 ⊢
    rw [h0] at hlv
    exact add_right_cancel (hlv.trans (by ring))

theorem GhRepr.size_eq (hr : GhRepr t S base h bs lists) (hb : b ∈ bs) (hst : b.state ≠ .loose) :
    h.size t b.start = b.size := by
  have hhdr := hr.hdr b hb
  unfold HdrOk at hhdr
  cases hs : b.state with
  | used | filed => rw [hs] at hhdr; exact hhdr.1
  | loose => exact absurd hs hst

theorem GhRepr.bounds (hr : GhRepr t S base h bs lists) (hb : b ∈ bs) :
    0 < b.start ∧ b.stop < t.addresses ∧ b.size < 2 ^ 32 := by
  have hbnd := hr.tiles.bounds hb
  have hpos := hr.base_pos
  have hlow := hr.below
  have hspan := hr.span
  unfold HeapBlock.stop at hbnd ⊢
  omega

theorem GhRepr.apart (hr : GhRepr t S base h (xs ++ b :: ys) lists) {c : HeapBlock}
    (hc : c ∈ xs ++ ys) : c.start + 16 ≤ b.start ∨ b.start + 16 ≤ c.start := by
  have hap := hr.tiles.apart hc
  have hb := hr.sizes b (mem_middle.mpr (.inl rfl))
  have hsz := hr.sizes c (mem_middle.mpr (.inr hc))
  unfold HeapBlock.stop at hap
  omega

theorem GhRepr.apart_of_ne (hr : GhRepr t S base h bs lists) {c : HeapBlock} (hc : c ∈ bs)
    (hb : b ∈ bs) (hne : c.start ≠ b.start) : c.start + 16 ≤ b.start ∨ b.start + 16 ≤ c.start := by
  obtain ⟨xs, ys, rfl⟩ := append_of_mem hb
  rcases mem_middle.mp hc with rfl | hc
  · exact absurd rfl hne
  · exact hr.apart hc

theorem GhRepr.link_lt (hr : GhRepr t S base h bs lists) {k a : Nat} {l : List Nat}
    (hl : Linked (h.next t) a l) (hsub : ∀ x ∈ l, x ∈ lists k) : a < t.addresses := by
  cases l with
  | nil =>
    rw [show a = 0 from hl]
    exact Nat.two_pow_pos _
  | cons x l =>
    obtain ⟨c, hc, hbeg, -⟩ := hr.mem_list (hsub x mem_cons_self)
    have hbnd := hr.bounds hc
    unfold HeapBlock.stop at hbnd
    rw [hl.1]
    omega

/-! ## Steps -/

theorem GhRepr.unlink (hr : GhRepr t S base h (xs ++ b :: ys) lists) (hb : b.state = .filed)
    {p1 p2 : List Nat} (hli : lists (ghClass b.size) = p1 ++ b.start :: p2)
    (hreg : h'.region = h.region) (hlv : h'.liveBytes = h.liveBytes)
    (hsm : ∀ c ∈ xs ++ b :: ys, h'.size t c.start = h.size t c.start ∧
      h'.isFree t c.start = h.isFree t c.start)
    (hnx : ∀ c ∈ xs ++ b :: ys, c.start ∉ p1 → h'.next t c.start = h.next t c.start)
    (hhd : ∀ j ≤ ghNbins, j ≠ ghClass b.size → ghHead h' j = ghHead h j)
    (hlnk : Linked (h'.next t) (ghHead h' (ghClass b.size)) (p1 ++ p2)) :
    GhRepr t S base h' (xs ++ { b with state := .loose } :: ys)
      (update lists (ghClass b.size) (p1 ++ p2)) where
  base_pos := hr.base_pos
  below := hreg ▸ hr.below
  span := hreg ▸ hr.span
  tiles := by
    rw [hreg]
    exact hr.tiles.restate _
  sizes := forall_mem_middle.mpr (forall_mem_middle.mp hr.sizes)
  hdr := by
    refine forall_mem_middle.mpr ⟨trivial, fun c hc => ?_⟩
    have hmem : c ∈ xs ++ b :: ys := mem_middle.mpr (.inr hc)
    have hold := hr.hdr c hmem
    unfold HdrOk at hold ⊢
    rw [(hsm c hmem).1, (hsm c hmem).2]
    exact hold
  filed := hr.filed.unlink hr.tiles hli (by decide)
  linked j hj := by
    by_cases hk : j = ghClass b.size
    · subst hk
      rw [update_self]
      exact hlnk
    rw [update_of_ne hk, hhd j hj hk]
    apply (hr.linked j hj).congr
    intro x hx
    obtain ⟨c, hc, rfl, -, hcls⟩ := hr.mem_list hx
    apply hnx c hc
    -- a node of this list is not on the list of `b`
    intro hp
    have hmem : c.start ∈ lists (ghClass b.size) := by
      rw [hli]
      exact mem_append_left _ hp
    obtain ⟨c', hc', hbeg, -, hcls'⟩ := hr.mem_list hmem
    have heq : c' = c := hr.tiles.eq_of_start hc' hc hbeg
    rw [heq] at hcls'
    exact hk (hcls.symm.trans hcls')
  live := by
    rw [hlv, hr.live]
    simp [hb]

/-- What `gh_push_free` does to the header of the block and to the list heads. -/
structure Pushed (t : DataModel) (h h' : Gheap ρ) (b : Nat) : Prop where
  region : h'.region = h.region
  live : h'.liveBytes = h.liveBytes
  others : HdrOnly h h' b
  size : h'.size t b = h.size t b
  isFree : h'.isFree t b = 1
  next : ghHead h (ghClass (h.size t b)) < t.addresses → h'.next t b = ghHead h (ghClass (h.size t b))
  head : ∀ j ≤ ghNbins, ghHead h' j = if j = ghClass (h.size t b) then b else ghHead h j

theorem ghPushFree_spec (t : DataModel) (h : Gheap ρ) (b : Nat) : Pushed t h (ghPushFree t h b) b := by
  have hwrs : ∀ v, HdrOnly h ((h.setIsFree t b 1).setNext t b v) b := fun v =>
    (hdrOnly_setIsFree h).trans (hdrOnly_setNext _)
  have hsz : ∀ v, ((h.setIsFree t b 1).setNext t b v).size t b = h.size t b := fun v =>
    (size_setNext _).trans (size_setIsFree h)
  have hfr : ∀ v, ((h.setIsFree t b 1).setNext t b v).isFree t b = 1 := fun v =>
    (isFree_setNext _).trans (isFree_setIsFree h (by decide))
  unfold ghPushFree
  simp only [toNat_ghAlign]
  by_cases hidx : h.size t b / 16 < ghNbins
  · have hcls : ghClass (h.size t b) = h.size t b / 16 := by
      unfold ghClass
      omega
    have hhd : ghHead h (ghClass (h.size t b)) = h.bins (h.size t b / 16) := by
      rw [hcls]
      exact if_pos hidx
    rw [if_pos hidx]
    refine ⟨rfl, rfl, hwrs _, hsz _, hfr _, fun hlt => ?_, fun j hj => ?_⟩
    · rw [hhd] at hlt ⊢
      exact next_setNext _ hlt
    rw [hcls]
    unfold ghHead
    by_cases heq : j = h.size t b / 16
    · rw [if_pos heq, heq, if_pos hidx]
      exact update_self ..
    split
    · exact update_of_ne heq ..
    · rfl
  · have hcls : ghClass (h.size t b) = ghNbins := by
      unfold ghClass
      omega
    have hhd : ghHead h (ghClass (h.size t b)) = h.large := by
      rw [hcls]
      exact if_neg (lt_irrefl _)
    rw [if_neg hidx]
    refine ⟨rfl, rfl, hwrs _, hsz _, hfr _, fun hlt => ?_, fun j hj => ?_⟩
    · rw [hhd] at hlt ⊢
      exact next_setNext _ hlt
    rw [hcls]
    unfold ghHead
    by_cases heq : j = ghNbins
    · rw [if_pos heq, heq, if_neg (lt_irrefl _)]
    · rw [if_neg heq, if_pos (by omega), if_pos (by omega)]
      rfl

theorem GhRepr.push (hr : GhRepr t S base h (xs ++ b :: ys) lists) (hb : b.state = .loose)
    (hsz : h.size t b.start = b.size) :
    GhRepr t S base (ghPushFree t h b.start) (xs ++ { b with state := .filed } :: ys)
      (update lists (ghClass b.size) (b.start :: lists (ghClass b.size))) := by
  have hp := ghPushFree_spec t h b.start
  have hhd := hp.head
  have hnx := hp.next
  rw [hsz] at hhd hnx
  generalize ghPushFree t h _ = h' at hp hhd hnx ⊢
  have hsm : ∀ c ∈ xs ++ ys, SameHdr t h h' c.start := fun c hc => hp.others.sameHdr (hr.apart hc)
  -- no node of a list is the block itself, which was not filed
  have hno : ∀ k, ∀ x ∈ lists k, h'.next t x = h.next t x := by
    intro k x hx
    obtain ⟨c, hc, rfl, hst, -⟩ := hr.mem_list hx
    rcases mem_middle.mp hc with rfl | hc
    · rw [hb] at hst
      cases hst
    · exact (hsm c hc).next
  have hlt := hr.link_lt (hr.linked _ (ghClass_le b.size)) fun _ hx => hx
  refine ⟨hr.base_pos, ?_, ?_, ?_, ?_, ?_, ?_, ?_, ?_⟩
  · rw [hp.region]
    exact hr.below
  · rw [hp.region]
    exact hr.span
  · rw [hp.region]
    exact hr.tiles.restate _
  · exact forall_mem_middle.mpr (forall_mem_middle.mp hr.sizes)
  · refine forall_mem_middle.mpr ⟨⟨hp.size.trans hsz, hp.isFree⟩, fun c hc => ?_⟩
    exact (hsm c hc).hdrOk (hr.hdr c (mem_middle.mpr (.inr hc)))
  · exact hr.filed.push hr.tiles (by rw [hb]; decide)
  · intro j hj
    rw [hhd j hj]
    by_cases hk : j = ghClass b.size
    · rw [if_pos hk, hk, update_self]
      have hpos := (hr.bounds (mem_middle.mpr (.inl rfl))).1
      exact (hr.linked _ (ghClass_le _)).push (by omega) (hnx hlt) (hno _)
    · rw [if_neg hk, update_of_ne hk]
      exact (hr.linked j hj).congr (hno j)
  · rw [hp.live, hr.live]
    simp [hb]

section

variable (hr : GhRepr t S base h (xs ++ b :: ys) lists)

include hr

theorem GhRepr.restate (state : BlockState) (hhd : ghHead h' = ghHead h) (hreg : h'.region = h.region)
    (hsm : ∀ c ∈ xs ++ ys, SameHdr t h h' c.start) (hb : b.state ≠ .filed) (hst : state ≠ .filed)
    (hhdr : HdrOk t h' { b with state := state })
    (hlv : h'.liveBytes + BitVec.ofNat 32 (usedBytes [b]) =
      h.liveBytes + BitVec.ofNat 32 (usedBytes [{ b with state := state }])) :
    GhRepr t S base h' (xs ++ { b with state := state } :: ys) lists := by
  have hsz := hr.sizes b (mem_middle.mpr (.inl rfl))
  rw [← singleton_append, ← append_assoc] at hr ⊢
  exact hr.reshape hhd hreg hsm (forall_mem_singleton.mpr hb) (forall_mem_singleton.mpr hst)
    (fun _ _ htl => htl) (forall_mem_singleton.mpr hsz) (forall_mem_singleton.mpr hhdr) hlv

theorem GhRepr.handOut (hb : b.state = .loose) (hsz : h.size t b.start = b.size) :
    GhRepr t S base (ghHandOut t h b.start).2 (xs ++ { b with state := .used } :: ys) lists := by
  have hwrs : HdrOnly h (ghHandOut t h b.start).2 b.start :=
    (hdrOnly_setIsFree h).trans (hdrOnly_setNext _)
  have hsz' : (ghHandOut t h b.start).2.size t b.start = b.size :=
    (size_setNext _).trans ((size_setIsFree h).trans hsz)
  refine hr.restate _ rfl rfl (fun c hc => hwrs.sameHdr (hr.apart hc)) (by rw [hb]; decide)
    BlockState.noConfusion ?_ ?_
  · exact ⟨hsz', (isFree_setNext _).trans (isFree_setIsFree _ (by decide))⟩
  · show h.liveBytes + BitVec.ofNat 32 ((ghHandOut t h b.start).2.size t b.start) + _ = _
    rw [hsz']
    simp [hb]

theorem GhRepr.stamp (hb : b.state = .loose) :
    GhRepr t S base (h.setSize t b.start b.size) (xs ++ b :: ys) lists := by
  have hne : b.state ≠ .filed := by rw [hb]; decide
  refine hr.restate _ rfl rfl (fun c hc => (hdrOnly_setSize h).sameHdr (hr.apart hc)) hne hne ?_ rfl
  unfold HdrOk
  simp [hb]

theorem GhRepr.retire (hb : b.state = .used) :
    GhRepr t S base { h with liveBytes := h.liveBytes - BitVec.ofNat 32 b.size }
      (xs ++ { b with state := .loose } :: ys) lists := by
  refine hr.restate _ rfl rfl (fun c hc => ⟨rfl, rfl, rfl⟩) (by rw [hb]; decide)
    BlockState.noConfusion trivial ?_
  simp [hb]

theorem GhRepr.split (hb : b.state = .loose)
    {need : Nat} (hnd : 32 ≤ need ∧ need % 16 = 0) (hrs : need + 32 ≤ b.size) :
    GhRepr t S base ((h.setSize t (b.start + need) (b.size - need)).setSize t b.start need)
      (xs ++ ⟨b.start, need, .loose⟩ :: ⟨b.start + need, b.size - need, .loose⟩ :: ys) lists := by
  have hbsize := hr.sizes b (mem_middle.mpr (.inl rfl))
  have hmid := hr
  rw [← singleton_append, ← append_assoc] at hmid
  rw [show ∀ x y, x :: y :: ys = [x, y] ++ ys from fun _ _ => rfl, ← append_assoc]
  refine hmid.reshape rfl rfl ?_ ?_ ?_ ?_ ?_ ?_ ?_
  · intro c hc
    have hap := hr.tiles.apart hc
    have hsz := hr.sizes c (mem_middle.mpr (.inr hc))
    unfold HeapBlock.stop at hap
    apply sameHdr_of_mem
    intro x hx hx'
    exact (hdrOnly_setSize _ x (by omega)).trans (hdrOnly_setSize _ x (by omega))
  · exact forall_mem_singleton.mpr (by rw [hb]; decide)
  · simp
  · rintro lo hi ⟨hbeg, -, hsp⟩
    refine ⟨hbeg, by show 0 < need; omega, rfl, by show 0 < b.size - need; omega, ?_⟩
    show b.start + need + (b.size - need) = hi
    have : b.start + b.size = hi := hsp
    omega
  · simp only [mem_cons, not_mem_nil, or_false, forall_eq_or_imp, forall_eq]
    omega
  · simp [HdrOk]
  · simp [hb, Gheap.setSize]

end

theorem GhRepr.extend (hr : GhRepr t S base h bs lists) {r : ρ} {need : Nat}
    (hbrk : S.brk r = S.brk h.region + need) (hnd : 32 ≤ need ∧ need % 16 = 0)
    (hlow : S.brk r < t.addresses) (hspan : S.brk r < base + 2 ^ 32) :
    GhRepr t S base { h with region := r } (bs ++ [⟨S.brk h.region, need, .loose⟩]) lists where
  base_pos := hr.base_pos
  below := hlow
  span := hspan
  tiles := tiles_append.mpr ⟨_, hr.tiles, rfl, by show 0 < need; omega, hbrk.symm⟩
  sizes := forall_mem_append.mpr ⟨hr.sizes, forall_mem_singleton.mpr hnd⟩
  hdr := forall_mem_append.mpr ⟨hr.hdr, forall_mem_singleton.mpr trivial⟩
  filed := by
    have hfil : Filed ghClass (bs ++ [] ++ []) lists := by simpa using hr.filed
    rw [← append_nil (bs ++ _)]
    exact hfil.reshape (by simp) (by simp)
  linked := hr.linked
  live := by
    rw [usedBytes_append]
    exact hr.live

end Repr

end Skjegg.Kobold
