import Skjegg.Libc.MallocInvariant

/-!
# Steps of the libc heap

What `unlink_free`, `push_free`, `set_hdr` and the growth of the arena do to the blocks. Blocks taken
off their lists are loose, are written over by `set_hdr`, and are filed or handed out again.
-/

namespace Skjegg.Libc

open Skjegg.Lib Function List ArenaRepr

variable {t : DataModel} {ρ : Type} {S : Seam ρ} {h h' h'' : Arena ρ}
  {bs bs' bs'' xs ys mid mid' : List HeapBlock} {b c : HeapBlock} {lists lists' : Nat → List Nat}

/-- The blocks in use are the same and have the same bytes. -/
structure Kept (h h' : Arena ρ) (bs bs' : List HeapBlock) : Prop where
  used : usedBlocks bs' = usedBlocks bs
  bytes : ∀ c ∈ usedBlocks bs, SameBlock h.mem h'.mem c

theorem Kept.trans (h1 : Kept h h' bs bs') (h2 : Kept h' h'' bs' bs'') : Kept h h'' bs bs'' where
  used := h2.used.trans h1.used
  bytes c hc x hx hx' := (h2.bytes c (h1.used ▸ hc) x hx hx').trans (h1.bytes c hc x hx hx')

-- A block that is not in use, before and after.
theorem usedBlocks_restate (hb : b.state ≠ .used) (hc : c.state ≠ .used) :
    usedBlocks (xs ++ c :: ys) = usedBlocks (xs ++ b :: ys) := by
  rw [usedBlocks_append, usedBlocks_append, usedBlocks_cons_of_ne hb, usedBlocks_cons_of_ne hc]

/-! ## The lists -/

-- Links of other addresses than those of blocks do not matter.
theorem Relinked.congr {F F' B B' : Nat → Nat} (hl : Relinked t h h' bs F B)
    (hF : ∀ c ∈ bs, F' c.start = F c.start) (hB : ∀ c ∈ bs, B' c.start = B c.start) :
    Relinked t h h' bs F' B' :=
  { hl with
    fwd := fun c hc => (hl.fwd c hc).trans (hF c hc).symm
    bwd := fun c hc => (hl.bwd c hc).trans (hB c hc).symm }

variable {F B : Nat → Nat}

theorem Relinked.tagsOk (hl : Relinked t h h' bs F B) (hb : b ∈ bs) {used : Nat}
    (htg : TagsOk t h.mem b used) : TagsOk t h'.mem b used :=
  ⟨(hl.tags b hb).1.trans htg.1, (hl.tags b hb).2.trans htg.2⟩

theorem Relinked.kept (hl : Relinked t h h' (xs ++ b :: ys) F B)
    (hb : b.state ≠ .used) (hc : c.state ≠ .used) : Kept h h' (xs ++ b :: ys) (xs ++ c :: ys) where
  used := usedBlocks_restate hb hc
  bytes c hc := hl.used c (mem_usedBlocks.mp hc).1 (mem_usedBlocks.mp hc).2

theorem ArenaRepr.relink_setBwd_of_ne_zero (hr : ArenaRepr t S h bs lists)
    (hl : Relinked t h h' bs F B) {x v : Nat}
    (hx : x ≠ 0 → ∃ c ∈ bs, c.start = x ∧ c.state ≠ .used) (hv : v < t.addresses) :
    Relinked t h (if x ≠ 0 then h'.setBwd t x v else h') bs F (update B x v) := by
  by_cases hz : x = 0
  · rw [if_neg (not_not.mpr hz)]
    refine hl.congr (fun _ _ => rfl) fun c hc => update_of_ne ?_ ..
    have := (hr.bounds hc).1
    omega
  · obtain ⟨c, hc, rfl, hst⟩ := hx hz
    rw [if_pos hz]
    exact hr.relink_setBwd hl hc hst hv

theorem ArenaRepr.relinked (hr : ArenaRepr t S h (xs ++ b :: ys) lists)
    (hl : Relinked t h h' (xs ++ b :: ys) F B) {s : BlockState} (hb : b.state ≠ .used)
    (hs : s ≠ .used) (htg : BlockOk t h'.mem { b with state := s })
    (hsep : Separated (xs ++ { b with state := s } :: ys))
    (hfil : Filed sizeClass (xs ++ { b with state := s } :: ys) lists')
    (hlnk : ∀ k ≤ nbins, DLinked F B 0 (classHead h' k) (lists' k)) :
    ArenaRepr t S h' (xs ++ { b with state := s } :: ys) lists' where
  aligned := hl.ext.arenaLo ▸ hr.aligned
  opened := by
    rw [hl.ext.arenaLo, hl.ext.brkEnd, hl.ext.seam]
    exact hr.opened
  below := hl.ext.brkEnd ▸ hr.below
  tiles := by
    rw [hl.ext.arenaLo, hl.ext.brkEnd]
    exact hr.tiles.restate s
  sizes := forall_mem_middle.mpr (forall_mem_middle.mp hr.sizes)
  tags := by
    refine forall_mem_middle.mpr ⟨htg, fun c hc => ?_⟩
    have hmem : c ∈ xs ++ b :: ys := mem_middle.mpr (.inr hc)
    exact (hr.tags c hmem).congr (hl.tags c hmem).1 (hl.tags c hmem).2
  separated := hsep
  filed := hfil
  linked k hk := by
    have hno : ∀ x ∈ lists' k, ∃ c ∈ xs ++ b :: ys, c.start = x := by
      intro x hx
      obtain ⟨c, hc, rfl, -⟩ := ((hfil k).2 x).mp hx
      rcases mem_middle.mp hc with rfl | hc
      · exact ⟨b, mem_middle.mpr (.inl rfl), rfl⟩
      · exact ⟨c, mem_middle.mpr (.inr hc), rfl⟩
    refine (hlnk k hk).congr (fun x hx => ?_) fun x hx => ?_
    · obtain ⟨c, hc, rfl⟩ := hno x hx
      exact hl.fwd c hc
    · obtain ⟨c, hc, rfl⟩ := hno x hx
      exact hl.bwd c hc
  live := by
    rw [hl.live, hr.live]
    simp [hb, hs]

theorem ArenaRepr.block_of_node (hr : ArenaRepr t S h bs lists) {k x : Nat} (hx : x ∈ lists k) :
    ∃ c ∈ bs, c.start = x ∧ c.state ≠ .used := by
  obtain ⟨c, hc, hbeg, hst, -⟩ := hr.mem_list hx
  exact ⟨c, hc, hbeg, by rw [hst]; decide⟩

-- The first node of a list, or null.
theorem ArenaRepr.head_mem {k a : Nat} {l : List Nat} (hl : Linked (h.fwd t) a l)
    (hsub : ∀ x ∈ l, x ∈ lists k) (ha : a ≠ 0) : a ∈ lists k := by
  cases l with
  | nil => exact absurd hl ha
  | cons x l => exact hsub a (hl.1 ▸ mem_cons_self)

theorem ArenaRepr.tagsOk_filed (hr : ArenaRepr t S h bs lists) (hb : b ∈ bs)
    (hst : b.state = .filed) : TagsOk t h.mem b 0 := by
  have htg := hr.tags b hb
  unfold BlockOk at htg
  rwa [hst] at htg

-- What `unlink_free` writes, when the links of the block are null or other blocks that are free.
theorem ArenaRepr.unlinkFree_relinked (hr : ArenaRepr t S h bs lists) {a p f size : Nat}
    (hsz : h.bsize t a = size) (hp : h.bwd t a = p) (hf : h.fwd t a = f)
    (hpblock : p ≠ 0 → ∃ c ∈ bs, c.start = p ∧ c.state ≠ .used)
    (hfblock : f ≠ 0 → ∃ c ∈ bs, c.start = f ∧ c.state ≠ .used)
    (hplt : p < t.addresses) (hflt : f < t.addresses) :
    Relinked t h (unlinkFree t h a) bs (update (h.fwd t) p f) (update (h.bwd t) f p) ∧
    ∀ j ≤ nbins, classHead (unlinkFree t h a) j =
      if j = sizeClass size ∧ p = 0 then f else classHead h j := by
  unfold unlinkFree
  rw [hsz, hp, hf]
  have hhds : ∀ h1 : Arena ρ, ∀ j,
      classHead (if f ≠ 0 then h1.setBwd t f p else h1) j = classHead h1 j := by
    intro h1 j
    split <;> rfl
  by_cases hz : p = 0
  · -- the block is the first of its list
    subst hz
    simp only [ne_eq, not_true, if_false] at hhds ⊢
    refine ⟨?_, fun j hj => ?_⟩
    · apply hr.relink_setBwd_of_ne_zero _ hfblock hplt
      refine ((Relinked.refl h bs).setBinHead _ f).congr (fun c hc => ?_) fun _ _ => rfl
      have hpos := (hr.bounds hc).1
      exact update_of_ne (by omega) ..
    · rw [hhds, classHead_setBinHead h _ f hj]
      simp
  · simp only [ne_eq, hz, not_false_eq_true, if_true] at hhds ⊢
    refine ⟨?_, fun j hj => ?_⟩
    · apply hr.relink_setBwd_of_ne_zero _ hfblock hplt
      obtain ⟨c, hc, rfl, hst⟩ := hpblock hz
      exact hr.relink_setFwd (Relinked.refl h bs) hc hst hflt
    · rw [hhds, if_neg fun h0 => h0.2]
      rfl

theorem ArenaRepr.unlink (hr : ArenaRepr t S h (xs ++ b :: ys) lists) (hb : b.state = .filed) :
    (∃ lists', ArenaRepr t S (unlinkFree t h b.start) (xs ++ { b with state := .loose } :: ys) lists') ∧
    TagsOk t (unlinkFree t h b.start).mem b 0 ∧
    Kept h (unlinkFree t h b.start) (xs ++ b :: ys) (xs ++ { b with state := .loose } :: ys) := by
  have hmem : b ∈ xs ++ b :: ys := mem_middle.mpr (.inl rfl)
  have hus : b.state ≠ .used := by rw [hb]; decide
  have htg := hr.tagsOk_filed hmem hb
  have hbnd := hr.bounds hmem
  have hsz : h.bsize t b.start = b.size := htg.bsize (by omega) (by omega)
  -- the block stands between `p1` and `p2` on its list
  obtain ⟨p1, p2, hli⟩ := append_of_mem (((hr.filed _).2 _).mpr ⟨b, hmem, rfl, hb, rfl⟩)
  have hlnk := hr.linked _ (sizeClass_le b.size)
  have hnd := (hr.filed (sizeClass b.size)).1
  have hin : ∀ x ∈ p1 ++ p2, x ∈ lists (sizeClass b.size) := by
    intro x hx
    rw [hli]
    exact perm_middle.mem_iff.mpr (mem_cons_of_mem _ hx)
  rw [hli] at hlnk hnd
  obtain ⟨-, hbk, hrs⟩ := hlnk.links
  have hf := hr.link_lt hrs.linked fun x hx => hin x (mem_append_right _ hx)
  have hfmem : h.fwd t b.start ≠ 0 → h.fwd t b.start ∈ lists (sizeClass b.size) :=
    head_mem hrs.linked fun x hx => hin x (mem_append_right _ hx)
  have hpmem : h.bwd t b.start ≠ 0 → h.bwd t b.start ∈ lists (sizeClass b.size) := by
    intro hne
    rcases eq_nil_or_concat' p1 with rfl | ⟨q, x, rfl⟩
    · exact absurd hbk hne
    · rw [hbk, getLastD_concat]
      exact hin x (by simp)
  have hplt : h.bwd t b.start < t.addresses := by
    by_cases hz : h.bwd t b.start = 0
    · rw [hz]
      exact Nat.two_pow_pos _
    · obtain ⟨c, hc, hbeg, -⟩ := hr.block_of_node (hpmem hz)
      have := hr.bounds hc
      omega
  obtain ⟨hl, hhd⟩ := hr.unlinkFree_relinked hsz rfl rfl
    (fun hne => hr.block_of_node (hpmem hne)) (fun hne => hr.block_of_node (hfmem hne)) hplt hf
  refine ⟨⟨update lists (sizeClass b.size) (p1 ++ p2), ?_⟩, hl.tagsOk hmem htg,
    hl.kept hus BlockState.noConfusion⟩
  refine hr.relinked hl hus BlockState.noConfusion trivial ?_ ?_ ?_
  · have hsep := hr.separated
    rw [← singleton_append, ← append_assoc] at hsep ⊢
    exact hsep.reshape (cons_ne_nil _ _) (forall_mem_singleton.mpr BlockState.noConfusion)
  · exact hr.filed.unlink hr.tiles hli BlockState.noConfusion
  intro j hj
  rw [hhd j hj]
  by_cases hk : j = sizeClass b.size
  · subst hk
    rw [update_self]
    simp only [true_and]
    exact hlnk.unlink_update hnd
  rw [update_of_ne hk, if_neg fun h0 => hk h0.1]
  -- nodes of another list are neither of the two blocks written to
  have hoth : ∀ x ∈ lists j, ∀ y, (y ≠ 0 → y ∈ lists (sizeClass b.size)) → x ≠ y := by
    rintro x hx y hy rfl
    obtain ⟨c, hc, rfl, -⟩ := hr.mem_list hx
    exact hk (hr.filed.list_unique hr.tiles hx (hy (hr.bounds hc).1.ne'))
  exact (hr.linked j hj).congr (fun x hx => update_of_ne (hoth x hx _ hpmem) ..)
    fun x hx => update_of_ne (hoth x hx _ hfmem) ..

-- What `push_free` writes.
theorem ArenaRepr.pushFree_relinked (hr : ArenaRepr t S h bs lists) (hb : b ∈ bs)
    (hst : b.state ≠ .used) {head : Nat} (hsz : h.bsize t b.start = b.size)
    (hhd : classHead h (sizeClass b.size) = head)
    (hblk : head ≠ 0 → ∃ c ∈ bs, c.start = head ∧ c.state ≠ .used) (hlt : head < t.addresses) :
    Relinked t h (pushFree t h b.start) bs (update (h.fwd t) b.start head)
      (update (update (h.bwd t) b.start 0) head b.start) ∧ ∀ j ≤ nbins, classHead (pushFree t h b.start) j =
      if j = sizeClass b.size then b.start else classHead h j := by
  have hbnd := hr.bounds hb
  unfold pushFree
  simp only [hsz, binHead_eq, hhd]
  have hlinks := hr.relink_setBwd (hr.relink_setFwd (Relinked.refl h bs) hb hst hlt) hb hst
    (Nat.two_pow_pos _)
  refine ⟨?_, fun j hj => ?_⟩
  · apply Relinked.setBinHead
    exact hr.relink_setBwd_of_ne_zero hlinks hblk (by omega)
  · rw [classHead_setBinHead _ _ _ hj]
    congr 1
    split <;> rfl

theorem ArenaRepr.push (hr : ArenaRepr t S h (xs ++ b :: ys) lists) (hb : b.state = .loose)
    (htg : TagsOk t h.mem b 0) (hlf : ∀ c ∈ xs.getLast?, c.state ≠ .filed)
    (hri : ∀ c ∈ ys.head?, c.state ≠ .filed) :
    (∃ lists', ArenaRepr t S (pushFree t h b.start) (xs ++ { b with state := .filed } :: ys) lists') ∧
    Kept h (pushFree t h b.start) (xs ++ b :: ys) (xs ++ { b with state := .filed } :: ys) := by
  have hmem : b ∈ xs ++ b :: ys := mem_middle.mpr (.inl rfl)
  have hus : b.state ≠ .used := by rw [hb]; decide
  have hbnd := hr.bounds hmem
  have hlnk := hr.linked _ (sizeClass_le b.size)
  have hnd := (hr.filed (sizeClass b.size)).1
  have hheadmem : classHead h (sizeClass b.size) ≠ 0 →
      classHead h (sizeClass b.size) ∈ lists (sizeClass b.size) :=
    head_mem hlnk.linked fun _ hx => hx
  -- the block is on no list yet
  have hnew : ∀ k, b.start ∉ lists k := by
    intro k hk
    obtain ⟨c, hc, hbeg, hst, -⟩ := hr.mem_list hk
    rw [hr.tiles.eq_of_start hc hmem hbeg, hb] at hst
    cases hst
  obtain ⟨hl, hhd⟩ := hr.pushFree_relinked hmem hus (htg.bsize (by omega) (by omega)) rfl
    (fun hne => hr.block_of_node (hheadmem hne)) (hr.link_lt hlnk.linked fun _ hx => hx)
  refine ⟨⟨update lists (sizeClass b.size) (b.start :: lists (sizeClass b.size)), ?_⟩,
    hl.kept hus BlockState.noConfusion⟩
  refine hr.relinked hl hus BlockState.noConfusion (hl.tagsOk hmem htg) ?_ ?_ ?_
  · exact hr.separated.push hlf hri
  · exact hr.filed.push hr.tiles (by rw [hb]; decide)
  intro j hj
  rw [hhd j hj]
  by_cases hk : j = sizeClass b.size
  · subst hk
    rw [if_pos rfl, update_self]
    exact hlnk.push_update hnd hbnd.1.ne' (hnew _)
  rw [if_neg hk, update_of_ne hk]
  -- the nodes of another list are neither the block nor the old head
  have hne : ∀ x ∈ lists j, x ≠ b.start ∧ x ≠ classHead h (sizeClass b.size) := by
    intro x hx
    refine ⟨fun heq => hnew j (heq ▸ hx), fun heq => ?_⟩
    obtain ⟨c, hc, hbeg, -⟩ := hr.mem_list hx
    have hpos := (hr.bounds hc).1
    exact hk (hr.filed.list_unique hr.tiles hx (heq ▸ hheadmem (by omega)))
  refine (hr.linked j hj).congr (fun x hx => ?_) fun x hx => ?_
  · exact update_of_ne (hne x hx).1 ..
  · rw [update_of_ne (hne x hx).2]
    exact update_of_ne (hne x hx).1 ..

/-! ## Tags -/

-- The in-use bit of a size that is a multiple of 16.
theorem or_inUse {size : Nat} (hmul : size % 16 = 0) (used : Bool) :
    (size ||| if used then 1 else 0) = size + if used then 1 else 0 := by
  have hor := Nat.two_pow_add_eq_or_of_lt (show (if used then 1 else 0) < 2 ^ 4 by split <;> decide)
    (size / 16)
  rwa [show 2 ^ 4 * (size / 16) = size by omega, eq_comm] at hor

theorem setHdr_spec (h : Arena ρ) (hsp : b.stop < t.addresses) (hsz : minblk t ≤ b.size)
    (hmul : b.size % 16 = 0) (used : Bool) :
    TagsOk t (setHdr t h b.start b.size used).mem b (if used then 1 else 0) ∧
      ∀ x, x < b.start ∨ b.stop ≤ x → (setHdr t h b.start b.size used).mem x = h.mem x := by
  have hmin := minblk_cases t
  have hend : b.stop = b.start + b.size := rfl
  have hfo : minus t (plus t b.start b.size) (foot t) = b.stop - t.ptr := by
    rw [plus_of_lt (by omega), minus_of_le (by unfold foot; omega) (by omega)]
    rfl
  have hone : (if used then 1 else 0) ≤ 1 := by split <;> decide
  have hlt : ∀ v, v ≤ b.size + 1 → v < 256 ^ t.ptr := by
    rw [← t.addresses_eq]
    omega
  unfold setHdr
  rw [or_inUse hmul, hfo]
  refine ⟨⟨?_, Mem.load_store_self (hlt _ (by omega))⟩, fun x hx => ?_⟩
  · exact (Mem.load_store_apart (by omega)).trans (Mem.load_store_self (hlt _ (by omega)))
  · exact (Mem.store_outside (by omega)).trans (Mem.store_outside (by omega))

section

variable (hr : ArenaRepr t S h (xs ++ b :: ys) lists)

include hr

-- Stores inside one block leave the others alone.
theorem ArenaRepr.others_same (hmem : ∀ x, x < b.start ∨ b.stop ≤ x → h'.mem x = h.mem x) :
    ∀ c ∈ xs ++ ys, SameBlock h.mem h'.mem c := by
  intro c hc x hx hx'
  have hap := hr.tiles.apart hc
  exact hmem x (by omega)

theorem ArenaRepr.restate (hb : b.state ≠ .filed)
    {s : BlockState} (hs : s ≠ .filed) (hhd : classHead h' = classHead h) (hext : SameExtent h h')
    (hmem : ∀ x, x < b.start ∨ b.stop ≤ x → h'.mem x = h.mem x)
    (htg : BlockOk t h'.mem { b with state := s })
    (hlv : h'.live + usedBytes [b] = h.live + usedBytes [{ b with state := s }]) :
    ArenaRepr t S h' (xs ++ { b with state := s } :: ys) lists := by
  have hmid := hr
  rw [← singleton_append, ← append_assoc] at hmid ⊢
  refine hmid.reshape hhd hext ?_ ?_ ?_ (cons_ne_nil _ _) ?_ ?_ ?_ hlv
  · exact hr.others_same hmem
  · exact forall_mem_singleton.mpr hb
  · exact forall_mem_singleton.mpr hs
  · exact fun lo hi htl => htl
  · exact forall_mem_singleton.mpr (hr.sizes b (mem_middle.mpr (.inl rfl)))
  · exact forall_mem_singleton.mpr htg

-- The other blocks in use, when one block is written to.
theorem ArenaRepr.kept_of_mem (hb : b.state ≠ .used)
    (hmem : ∀ x, x < b.start ∨ b.stop ≤ x → h'.mem x = h.mem x) :
    Kept h h' (xs ++ b :: ys) (xs ++ b :: ys) where
  used := rfl
  bytes c hc := by
    obtain ⟨hc, hst⟩ := mem_usedBlocks.mp hc
    refine hr.others_same hmem c ((mem_middle.mp hc).resolve_left ?_)
    rintro rfl
    exact hb hst

theorem ArenaRepr.stamp (hb : b.state = .loose) :
    ArenaRepr t S (setHdr t h b.start b.size false) (xs ++ b :: ys) lists ∧
    TagsOk t (setHdr t h b.start b.size false).mem b 0 ∧
    Kept h (setHdr t h b.start b.size false) (xs ++ b :: ys) (xs ++ b :: ys) := by
  have hbnd := hr.bounds (mem_middle.mpr (.inl rfl))
  obtain ⟨htg, hmem⟩ := setHdr_spec (t := t) h (b := b) (by omega) (by omega) (by omega) false
  refine ⟨?_, htg, hr.kept_of_mem (by rw [hb]; decide) hmem⟩
  have hsm : ({ b with state := .loose } : HeapBlock) = b := by rw [← hb]
  have hnew : ArenaRepr t S (setHdr t h b.start b.size false)
      (xs ++ { b with state := .loose } :: ys) lists :=
    hr.restate (by rw [hb]; decide) (by decide) rfl ⟨rfl, rfl, rfl⟩ hmem trivial
      (by simp [hb, setHdr, Arena.setWord])
  rwa [hsm] at hnew

theorem ArenaRepr.handOut (hb : b.state = .loose) (peak : Nat) :
    ArenaRepr t S { setHdr t h b.start b.size true with live := h.live + b.size, peak := peak }
      (xs ++ { b with state := .used } :: ys) lists ∧
    ∀ c ∈ usedBlocks (xs ++ b :: ys), SameBlock h.mem (setHdr t h b.start b.size true).mem c := by
  have hbnd := hr.bounds (mem_middle.mpr (.inl rfl))
  obtain ⟨htg, hmem⟩ := setHdr_spec (t := t) h (b := b) (by omega) (by omega) (by omega) true
  have hkp : Kept h (setHdr t h b.start b.size true) (xs ++ b :: ys) (xs ++ b :: ys) :=
    hr.kept_of_mem (by rw [hb]; decide) hmem
  refine ⟨?_, hkp.bytes⟩
  refine hr.restate (by rw [hb]; decide) (by decide) rfl ⟨rfl, rfl, rfl⟩ hmem htg ?_
  simp [hb]

theorem ArenaRepr.retire (hb : b.state = .used)
    (hh' : h' = { h.setWord t b.start (Mem.load t.endian t.ptr h.mem b.start / 2 * 2) with
      live := h.live - b.size }) :
    ArenaRepr t S h' (xs ++ { b with state := .loose } :: ys) lists ∧ TagsOk t h'.mem b 0 ∧
    ∀ c ∈ xs ++ ys, SameBlock h.mem h'.mem c := by
  have hbnd := hr.bounds (mem_middle.mpr (.inl rfl))
  have hmin := minblk_cases t
  have htg : TagsOk t h.mem b 1 := by
    have := hr.tags b (mem_middle.mpr (.inl rfl))
    unfold BlockOk at this
    rwa [hb] at this
  have hlv := hr.live
  rw [usedBytes_append, usedBytes_cons, if_pos hb] at hlv
  have hmem : ∀ x, x < b.start ∨ b.stop ≤ x → h'.mem x = h.mem x := by
    intro x hx
    rw [hh']
    exact Mem.store_outside (by omega)
  have htg' : TagsOk t h'.mem b 0 := by
    rw [hh']
    constructor
    · refine (Mem.load_store_self ?_).trans ?_
      · rw [← t.addresses_eq, htg.1]
        omega
      · rw [htg.1]
        omega
    · exact (Mem.load_store_apart (by omega)).trans htg.2
  refine ⟨?_, htg', hr.others_same hmem⟩
  refine hr.restate (by rw [hb]; decide) (by decide) (by rw [hh']; rfl)
    (by rw [hh']; exact ⟨rfl, rfl, rfl⟩) hmem trivial ?_
  rw [hh']
  simp only [usedBytes_cons, hb, usedBytes_nil, if_true, reduceCtorEq, if_false]
  omega

end

theorem ArenaRepr.recut (hr : ArenaRepr t S h (xs ++ mid ++ ys) lists)
    (hmid : ∀ c ∈ mid, c.state = .loose) (hmid' : ∀ c ∈ mid', c.state = .loose) (hne : mid' ≠ [])
    (htl : ∀ lo hi, Tiles lo hi mid → Tiles lo hi mid')
    (hszs : ∀ c ∈ mid', minblk t ≤ c.size ∧ c.size % 16 = 0) :
    ArenaRepr t S h (xs ++ mid' ++ ys) lists := by
  have hz : ∀ m, (∀ c ∈ m, c.state = .loose) → usedBytes m = 0 := by
    intro m hm
    apply sum_eq_zero
    simp only [mem_map, forall_exists_index, and_imp, forall_apply_eq_imp_iff₂]
    intro c hc
    rw [hm c hc]
    rfl
  refine hr.reshape rfl ⟨rfl, rfl, rfl⟩ (fun _ _ _ _ _ => rfl) ?_ ?_ hne htl hszs ?_ ?_
  · exact fun c hc => by rw [hmid c hc]; decide
  · exact fun c hc => by rw [hmid' c hc]; decide
  · intro c hc
    unfold BlockOk
    rw [hmid' c hc]
    trivial
  · rw [hz mid hmid, hz _ hmid']

theorem ArenaRepr.join (hr : ArenaRepr t S h (xs ++ b :: c :: ys) lists) (hb : b.state = .loose)
    (hc : c.state = .loose) : ArenaRepr t S h (xs ++ ⟨b.start, b.size + c.size, .loose⟩ :: ys) lists := by
  have hbsize := hr.sizes b (by simp)
  have hcsize := hr.sizes c (by simp)
  have hmid : ArenaRepr t S h (xs ++ [b, c] ++ ys) lists := by simpa using hr
  rw [← singleton_append, ← append_assoc]
  refine hmid.recut ?_ ?_ (cons_ne_nil _ _) ?_ ?_
  · simp [hb, hc]
  · simp
  · rintro lo hi ⟨hbeg, hpos, hnx, -, hsp⟩
    refine ⟨hbeg, Nat.add_pos_left hpos _, ?_⟩
    show b.start + (b.size + c.size) = hi
    have hcstop : c.start + c.size = hi := hsp
    have hbstop : c.start = b.start + b.size := hnx
    omega
  · refine forall_mem_singleton.mpr ⟨?_, ?_⟩
    · show minblk t ≤ b.size + c.size
      omega
    · show (b.size + c.size) % 16 = 0
      omega

theorem ArenaRepr.cut (hr : ArenaRepr t S h (xs ++ b :: ys) lists) (hb : b.state = .loose)
    {need : Nat} (hneed : minblk t ≤ need ∧ need % 16 = 0) (hrs : need + minblk t ≤ b.size) :
    ArenaRepr t S h
      (xs ++ ⟨b.start, need, .loose⟩ :: ⟨b.start + need, b.size - need, .loose⟩ :: ys) lists := by
  have hbsize := hr.sizes b (mem_middle.mpr (.inl rfl))
  have hmin := minblk_cases t
  have hmid := hr
  rw [← singleton_append, ← append_assoc] at hmid
  rw [show ∀ x y, x :: y :: ys = [x, y] ++ ys from fun _ _ => rfl, ← append_assoc]
  refine hmid.recut ?_ ?_ (cons_ne_nil _ _) ?_ ?_
  · exact forall_mem_singleton.mpr hb
  · simp
  · rintro lo hi ⟨hbeg, -, hsp⟩
    refine ⟨hbeg, by show 0 < need; omega, rfl, by show 0 < b.size - need; omega, ?_⟩
    show b.start + need + (b.size - need) = hi
    have hbstop : b.start + b.size = hi := hsp
    omega
  · simp only [mem_cons, not_mem_nil, or_false, forall_eq_or_imp, forall_eq]
    omega

theorem ArenaRepr.file (hr : ArenaRepr t S h (xs ++ b :: ys) lists) (hb : b.state = .loose)
    (hlf : ∀ c ∈ xs.getLast?, c.state ≠ .filed) (hri : ∀ c ∈ ys.head?, c.state ≠ .filed) :
    (∃ lists', ArenaRepr t S (pushFree t (setHdr t h b.start b.size false) b.start)
      (xs ++ { b with state := .filed } :: ys) lists') ∧
    Kept h (pushFree t (setHdr t h b.start b.size false) b.start) (xs ++ b :: ys)
      (xs ++ { b with state := .filed } :: ys) := by
  obtain ⟨hstm, htg, hkp⟩ := hr.stamp hb
  obtain ⟨hfil, hkp'⟩ := hstm.push hb htg hlf hri
  exact ⟨hfil, hkp.trans hkp'⟩

section

variable (hr : ArenaRepr t S h bs lists)

include hr

theorem ArenaRepr.tags_eq (hb : b ∈ bs) (hst : b.state ≠ .loose) :
    h.bsize t b.start = b.size ∧ h.bused t b.start = decide (b.state = .used) ∧
      h.footBefore t b.stop = b.size := by
  have hbnd := hr.bounds hb
  have hmin := minblk_cases t
  have htg := hr.tags b hb
  unfold BlockOk at htg
  cases hs : b.state with
  | loose => exact absurd hs hst
  | used =>
    rw [hs] at htg
    exact ⟨htg.bsize (by omega) le_rfl, htg.bused (by omega) le_rfl,
      htg.footBefore (by omega) (by omega)⟩
  | filed =>
    rw [hs] at htg
    exact ⟨htg.bsize (by omega) (by omega), htg.bused (by omega) (by omega),
      htg.footBefore (by omega) (by omega)⟩

/-! ## The seam -/

-- The seam has answered and its break is where it was.
theorem ArenaRepr.withSeam {r : ρ}
    (hbrk : S.brk r = S.brk h.seam) : ArenaRepr t S { h with seam := r } bs lists :=
  { hr with opened := hbrk ▸ hr.opened }

theorem ArenaRepr.extend (hopen : 0 < h.arenaLo) {r : ρ} {need : Nat}
    (hbrk : S.brk r = S.brk h.seam + need) (hneed : minblk t ≤ need ∧ need % 16 = 0)
    (hlow : S.brk r < t.addresses) :
    ArenaRepr t S { h with seam := r, brkEnd := h.brkEnd + need }
      (bs ++ [⟨h.brkEnd, need, .loose⟩]) lists := by
  have hend : h.brkEnd = S.brk h.seam := by
    rcases hr.opened with hcl | hop
    · omega
    · exact hop.2
  have hmin := minblk_cases t
  refine ⟨hr.aligned, .inr ⟨hopen, ?_⟩, ?_, ?_, ?_, ?_, ?_, ?_, hr.linked, ?_⟩
  · show h.brkEnd + need = S.brk r
    omega
  · show h.brkEnd + need < t.addresses
    omega
  · exact tiles_append.mpr ⟨_, hr.tiles, rfl, by show 0 < need; omega, rfl⟩
  · exact forall_mem_append.mpr ⟨hr.sizes, forall_mem_singleton.mpr hneed⟩
  · exact forall_mem_append.mpr ⟨hr.tags, forall_mem_singleton.mpr trivial⟩
  · have hsep : Separated (bs ++ [] ++ []) := by simpa using hr.separated
    rw [← append_nil (bs ++ _)]
    exact hsep.reshape (cons_ne_nil _ _) (forall_mem_singleton.mpr BlockState.noConfusion)
  · have hfil : Filed sizeClass (bs ++ [] ++ []) lists := by simpa using hr.filed
    rw [← append_nil (bs ++ _)]
    exact hfil.reshape (by simp) (forall_mem_singleton.mpr BlockState.noConfusion)
  · simp [hr.live]

-- Before the arena is open there are no blocks.
theorem ArenaRepr.nil_of_closed (hcl : h.arenaLo = 0) : bs = [] := by
  cases bs with
  | nil => rfl
  | cons b bs =>
    have hbnd := hr.bounds mem_cons_self
    rcases hr.opened with hz | hop
    · omega
    · omega

theorem ArenaRepr.open (hcl : h.arenaLo = 0) {r : ρ} {p : Nat}
    (hp : p = S.brk r) (hpos : 0 < p) (haln : p % 16 = 0) (hlow : p < t.addresses) :
    ArenaRepr t S { h with seam := r, arenaLo := p, brkEnd := p } bs lists := by
  have hnil := hr.nil_of_closed hcl
  subst hnil
  exact { hr with
    aligned := haln
    opened := .inr ⟨hpos, hp⟩
    below := hlow
    tiles := rfl }

end

end Skjegg.Libc
