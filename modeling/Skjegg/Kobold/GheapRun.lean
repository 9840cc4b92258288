import Mathlib
import Skjegg.Kobold.GheapInvariant

/-!
# Runs of the guest heap

What `gh_alloc`, `gh_free` and `gh_realloc` do to the blocks of the heap, and what holds after any
sequence of calls: the blocks tile the carved region, the free lists hold the free blocks, and
`gh_realloc` keeps the bytes.
-/

namespace Skjegg.Kobold

open Skjegg.Lib Skjegg.Libc Function
open List hiding Disjoint

variable {t : DataModel} {ρ : Type} {S : Seam ρ} {base : Nat} {h h' : Gheap ρ}
  {bs bs' xs ys : List HeapBlock} {b : HeapBlock} {lists : Nat → List Nat}

/-! ## The large list -/

theorem ghFirstFit_spec (need : Nat) {l : List Nat} {fuel a : Nat} (prev : Nat)
    (hl : Linked (h.next t) a l) (hfu : l.length < fuel) :
    (ghFirstFit t h need fuel prev a = some none ∧ ∀ x ∈ l, h.size t x < need) ∨
    ∃ p1 x p2, l = p1 ++ x :: p2 ∧ need ≤ h.size t x ∧
      ghFirstFit t h need fuel prev a = some (some (p1.getLastD prev, x)) := by
  induction l generalizing fuel prev a with
  | nil =>
    obtain _ | fuel := fuel
    · omega
    left
    rw [ghFirstFit, if_pos (show a = 0 from hl)]
    exact ⟨rfl, fun x hx => absurd hx not_mem_nil⟩
  | cons x l ih =>
    obtain _ | fuel := fuel
    · omega
    obtain ⟨rfl, hne, hrs⟩ := hl
    rw [ghFirstFit, if_neg hne]
    by_cases hsm : h.size t a < need
    · rw [if_pos hsm]
      rcases ih a hrs (Nat.lt_of_succ_lt_succ hfu) with ⟨hno, hall⟩ | ⟨p1, x, p2, rfl, hx, hfit⟩
      · exact .inl ⟨hno, forall_mem_cons.mpr ⟨hsm, hall⟩⟩
      · refine .inr ⟨a :: p1, x, p2, rfl, hx, hfit.trans ?_⟩
        cases p1 <;> rfl
    · rw [if_neg hsm]
      exact .inr ⟨[], a, l, rfl, by omega, rfl⟩

-- The break bounds the length of a list.
theorem GhRepr.list_length_lt (hr : GhRepr t S base h bs lists) (k : Nat) :
    (lists k).length < S.brk h.region := by
  have hlen := hr.filed.length_le hr.tiles k
  have hle := hr.tiles.le
  have hpos := hr.base_pos
  omega

def PayloadsSame (h h' : Gheap ρ) (bs : List HeapBlock) (a : Nat) : Prop :=
  ∀ c ∈ bs, c.start ≠ a → ∀ x, c.start + 16 ≤ x → x < c.stop → h'.mem x = h.mem x

theorem PayloadsSame.trans {h'' : Gheap ρ} {a : Nat} (h1 : PayloadsSame h h' bs a)
    (h2 : PayloadsSame h' h'' bs a) : PayloadsSame h h'' bs a := fun c hc hne x hx hx' =>
  (h2 c hc hne x hx hx').trans (h1 c hc hne x hx hx')

-- A write to the header of a block touches no payload.
theorem GhRepr.payloads_of_hdrOnly (hr : GhRepr t S base h bs lists) (hb : b ∈ bs)
    {h1 h2 : Gheap ρ} (hw : HdrOnly h1 h2 b.start) (a : Nat) : PayloadsSame h1 h2 bs a := by
  intro c hc _ x hx hx'
  apply hw
  obtain ⟨xs, ys, rfl⟩ := append_of_mem hb
  rcases mem_middle.mp hc with rfl | hc
  · exact .inr hx
  have hap := hr.tiles.apart hc
  unfold HeapBlock.stop at hap hx'
  omega

theorem GhRepr.unlinkHead (hr : GhRepr t S base h (xs ++ b :: ys) lists) (hb : b.state = .filed)
    {p : List Nat} (hli : lists (ghClass b.size) = b.start :: p) (hmem : h'.mem = h.mem)
    (hreg : h'.region = h.region) (hlv : h'.liveBytes = h.liveBytes)
    (hhd : ∀ j ≤ ghNbins, ghHead h' j = if j = ghClass b.size then h.next t b.start else ghHead h j) :
    GhRepr t S base h' (xs ++ { b with state := .loose } :: ys) (update lists (ghClass b.size) p) := by
  have hsame : ∀ a, SameHdr t h h' a := fun a => sameHdr_of_mem fun x _ _ => congrFun hmem x
  have hlnk := hr.linked _ (ghClass_le b.size)
  rw [hli] at hlnk
  have hli' : lists (ghClass b.size) = [] ++ b.start :: p := hli
  apply hr.unlink hb hli' hreg hlv
  · exact fun c _ => ⟨(hsame _).size, (hsame _).isFree⟩
  · exact fun c _ _ => (hsame _).next
  · intro j hj hne
    rw [hhd j hj, if_neg hne]
  · rw [hhd _ (ghClass_le _), if_pos rfl]
    exact hlnk.2.2.congr fun c _ => (hsame c).next

/-- `prev->next = b->next`, or `gh_large = b->next`: a block of the large list is taken off. -/
theorem GhRepr.takeLarge (hr : GhRepr t S base h (xs ++ b :: ys) lists) (hb : b.state = .filed)
    (hcls : ghClass b.size = ghNbins) {p1 p2 : List Nat}
    (hli : lists ghNbins = p1 ++ b.start :: p2)
    (hh' : h' = if p1.getLastD 0 ≠ 0 then h.setNext t (p1.getLastD 0) (h.next t b.start)
      else { h with large := h.next t b.start }) :
    GhRepr t S base h' (xs ++ { b with state := .loose } :: ys) (update lists ghNbins (p1 ++ p2)) ∧
    h'.size t b.start = b.size ∧ PayloadsSame h h' (xs ++ b :: ys) b.start := by
  have hsz := hr.size_eq (mem_middle.mpr (.inl rfl)) (by rw [hb]; decide)
  have hli' := hli
  rw [← hcls] at hli' ⊢
  rcases eq_nil_or_concat' p1 with rfl | ⟨p, q, rfl⟩
  · -- the block is the first one
    rw [if_neg (by simp)] at hh'
    subst hh'
    refine ⟨hr.unlinkHead hb hli' rfl rfl rfl fun j hj => ?_, hsz, fun _ _ _ _ _ _ => rfl⟩
    unfold ghHead
    split
    · rw [if_neg (by omega)]
    · rw [if_pos (by omega)]
  · -- the block follows `q`, whose link is led past it
    obtain ⟨c, hc, rfl, -⟩ := hr.mem_list (show q ∈ lists _ by rw [hli]; simp)
    have hpos := (hr.bounds hc).1
    rw [getLastD_concat, if_pos (by omega)] at hh'
    have hwrs : HdrOnly h h' c.start := hh' ▸ hdrOnly_setNext h
    have hoth : ∀ d ∈ xs ++ b :: ys, d.start ≠ c.start → SameHdr t h h' d.start :=
      fun d hd hne => hwrs.sameHdr (hr.apart_of_ne hd hc hne)
    have hsame : ∀ d ∈ xs ++ b :: ys, h'.size t d.start = h.size t d.start ∧
        h'.isFree t d.start = h.isFree t d.start := by
      intro d hd
      by_cases heq : d.start = c.start
      · rw [heq, hh']
        exact ⟨size_setNext h, isFree_setNext h⟩
      · exact ⟨(hoth d hd heq).size, (hoth d hd heq).isFree⟩
    have hnd := (hr.filed ghNbins).1
    have hlnk := hr.linked _ le_rfl
    rw [hli] at hnd hlnk
    have hlink : h'.next t c.start = h.next t b.start := by
      rw [hh']
      exact next_setNext h (hr.link_lt hlnk.drop.2 fun x hx => by rw [hli]; simp [hx])
    rw [append_assoc, singleton_append] at hnd hlnk
    refine ⟨?_, (hsame b (mem_middle.mpr (.inl rfl))).1.trans hsz, ?_⟩
    · apply hr.unlink hb hli' (by rw [hh']; rfl) (by rw [hh']; rfl) hsame
      · intro d hd hnot
        exact (hoth d hd fun heq => hnot (by simp [heq])).next
      · intro j _ _
        rw [hh']
        rfl
      rw [append_assoc, singleton_append, hcls,
        show ghHead h' ghNbins = ghHead h ghNbins by rw [hh']; rfl]
      apply hlnk.unlink hlink
      -- the other nodes are other blocks, since no node is on the list twice
      intro x hx
      have hmem : x ∈ lists ghNbins := by
        rw [hli]
        rcases mem_append.mp hx with hx | hx <;> simp [hx]
      obtain ⟨d, hd, rfl, -⟩ := hr.mem_list hmem
      refine (hoth d hd fun heq => ?_).next
      rw [heq] at hx
      have hpm : (p ++ c.start :: b.start :: p2).Perm (c.start :: b.start :: (p ++ p2)) := by
        refine perm_middle.trans (List.Perm.cons _ perm_middle)
      exact (nodup_cons.mp (hpm.nodup_iff.mp hnd)).1 (mem_cons_of_mem _ hx)
    · exact hr.payloads_of_hdrOnly hc hwrs _

/-! ## Allocation -/

/-- The blocks of a heap between calls, when none is in the allocator's hands. -/
structure GhOk (t : DataModel) (S : Seam ρ) (base : Nat) (h : Gheap ρ) (bs : List HeapBlock) :
    Prop where
  repr : ∃ lists, GhRepr t S base h bs lists
  settled : ∀ b ∈ bs, b.state ≠ .loose

/-- The block `b` was handed out for a request of `need` bytes with its header.  It was free or did
not exist before, and the other blocks are as they were. -/
structure Allocated (h h' : Gheap ρ) (bs bs' : List HeapBlock) (b : HeapBlock) (need : Nat) :
    Prop where
  mem : b ∈ bs'
  used : b.state = .used
  room : need ≤ b.size
  fresh : ∀ c ∈ bs, c.start = b.start → c.state = .filed ∧ need ≤ c.size
  kept : ∀ c ∈ bs, c.start ≠ b.start → c ∈ bs'
  payloads : PayloadsSame h h' bs b.start

def Delivers (t : DataModel) (S : Seam ρ) (base : Nat) (h : Gheap ρ) (bs : List HeapBlock)
    (need : Nat) (r : Nat × Gheap ρ) : Prop :=
  ∃ bs' b, r.1 = b.start + 16 ∧ GhOk t S base r.2 bs' ∧ Allocated h r.2 bs bs' b need

variable {need : Nat} {nbytes : U32} {c : GhClient ρ}

/-- The block handed out takes the place of a filed one; what a split leaves is in `ys'`. -/
theorem allocated_of_filed {lo hi : Nat} {b' : HeapBlock} {ys' : List HeapBlock}
    (ht : Tiles lo hi (xs ++ b :: ys)) (hb : b.state = .filed) (hneed : need ≤ b.size)
    (hbeg : b'.start = b.start) (hus : b'.state = .used) (hrm : need ≤ b'.size)
    (hsub : ∀ c ∈ ys, c ∈ ys') (hpay : PayloadsSame h h' (xs ++ b :: ys) b.start) :
    Allocated h h' (xs ++ b :: ys) (xs ++ b' :: ys') b' need where
  mem := mem_middle.mpr (.inl rfl)
  used := hus
  room := hrm
  fresh c hc heq := by
    rw [ht.eq_of_start hc (mem_middle.mpr (.inl rfl)) (heq.trans hbeg)]
    exact ⟨hb, hneed⟩
  kept c hc hne := by
    rcases mem_middle.mp hc with rfl | hc
    · exact absurd hbeg.symm hne
    · rcases mem_append.mp hc with hc | hc
      · exact mem_append_left _ hc
      · exact mem_append_right _ (mem_cons_of_mem _ (hsub c hc))
  payloads := hbeg ▸ hpay

theorem ghPayload_eq (a : Nat) : ghPayload t a = a + 16 := by
  unfold ghPayload
  rw [toNat_ghHdr]

theorem hdrOnly_ghHandOut (h : Gheap ρ) (a : Nat) : HdrOnly h (ghHandOut t h a).2 a :=
  (hdrOnly_setIsFree h).trans (hdrOnly_setNext _)

variable {lists₀ : Nat → List Nat}

theorem GhRepr.deliver {h0 : Gheap ρ} (hr0 : GhRepr t S base h0 (xs ++ b :: ys) lists₀)
    (hset : ∀ c ∈ xs ++ b :: ys, c.state ≠ .loose) (hb : b.state = .filed)
    (hneed : need ≤ b.size)
    (hr : GhRepr t S base h (xs ++ { b with state := .loose } :: ys) lists)
    (hsz : h.size t b.start = b.size) (hpay : PayloadsSame h0 h (xs ++ b :: ys) b.start) :
    Delivers t S base h0 (xs ++ b :: ys) need (ghHandOut t h b.start) := by
  have hmem : b ∈ xs ++ b :: ys := mem_middle.mpr (.inl rfl)
  refine ⟨xs ++ { b with state := .used } :: ys, { b with state := .used }, ?_, ?_, ?_⟩
  · exact ghPayload_eq _
  · refine ⟨⟨lists, hr.handOut rfl hsz⟩, forall_mem_middle.mpr ⟨BlockState.noConfusion, ?_⟩⟩
    exact fun c hc => hset c (mem_middle.mpr (.inr hc))
  · refine allocated_of_filed hr0.tiles hb hneed rfl rfl hneed (fun _ hc => hc) ?_
    exact hpay.trans (hr0.payloads_of_hdrOnly hmem (hdrOnly_ghHandOut h _) _)

theorem GhRepr.deliverSplit {h0 : Gheap ρ} (hr0 : GhRepr t S base h0 (xs ++ b :: ys) lists₀)
    (hset : ∀ c ∈ xs ++ b :: ys, c.state ≠ .loose) (hb : b.state = .filed)
    (hneed : 32 ≤ need ∧ need % 16 = 0) (hrs : need + 32 ≤ b.size)
    (hr : GhRepr t S base h (xs ++ { b with state := .loose } :: ys) lists)
    (hpay : PayloadsSame h0 h (xs ++ b :: ys) b.start)
    (hh' : h' = ghPushFree t
      ((h.setSize t (b.start + need) (b.size - need)).setSize t b.start need) (b.start + need)) :
    Delivers t S base h0 (xs ++ b :: ys) need (ghHandOut t h' b.start) := by
  have hmem : b ∈ xs ++ b :: ys := mem_middle.mpr (.inl rfl)
  have hlt := (hr0.bounds hmem).2.2
  have hspl := hr.split rfl hneed hrs
  generalize hmid : (h.setSize t (b.start + need) (b.size - need)).setSize t b.start _ = h1
    at hspl hh'
  have hsz : h1.size t b.start = need := by
    rw [← hmid]
    exact size_setSize _ (by omega)
  have hsizeRest : h1.size t (b.start + need) = b.size - need := by
    rw [← hmid]
    exact (hdrOnly_setSize _).sameHdr (.inr (by omega)) |>.size.trans (size_setSize h (by omega))
  -- the rest is filed
  rw [show ∀ x y, xs ++ x :: y :: ys = (xs ++ [x]) ++ y :: ys by simp] at hspl
  have hpsh := hspl.push rfl hsizeRest
  have hsc := ghPushFree_spec t h1 (b.start + need)
  rw [← hh'] at hpsh hsc
  have hsz' : h'.size t b.start = need := (hsc.others.sameHdr (.inl (by omega))).size.trans hsz
  rw [append_assoc, singleton_append] at hpsh
  refine ⟨_, ⟨b.start, need, .used⟩, ?_, ⟨⟨_, hpsh.handOut rfl hsz'⟩, ?_⟩, ?_⟩
  · exact ghPayload_eq _
  · refine forall_mem_middle.mpr ⟨BlockState.noConfusion, ?_⟩
    refine forall_mem_middle.mpr ⟨BlockState.noConfusion, fun c hc => ?_⟩
    exact hset c (mem_middle.mpr (.inr hc))
  refine allocated_of_filed hr0.tiles hb (by omega) rfl rfl le_rfl (fun _ hc => mem_cons_of_mem _ hc) ?_
  -- all the headers written lie in the block
  intro c hc hne x hx hx'
  have hside := hr0.tiles.apart ((mem_middle.mp hc).resolve_left fun heq => hne (heq ▸ rfl))
  unfold HeapBlock.stop at hside hx'
  rw [← hpay c hc hne x hx hx', hdrOnly_ghHandOut h' _ x (by omega),
    hsc.others x (by omega), ← hmid]
  exact (hdrOnly_setSize _ x (by omega)).trans (hdrOnly_setSize _ x (by omega))

/-- The memory source gives the next bytes of one region, of fewer than 2^32 bytes from `base`, or
fails. -/
structure GhSource (t : DataModel) (S : Seam ρ) (base : Nat) : Prop where
  base_pos : 0 < base
  growing : S.Growing t (min (2 ^ 32) (2 ^ (8 * t.ptr - 1)))
  span : ∀ r, S.brk r < base + 2 ^ 32

/-- A call returned `NULL` and left the blocks as they were, or it handed out a block. -/
def Allocates (t : DataModel) (S : Seam ρ) (base : Nat) (h : Gheap ρ) (bs : List HeapBlock)
    (need : Nat) (r : Nat × Gheap ρ) : Prop :=
  (r.1 = 0 ∧ r.2.mem = h.mem ∧ GhOk t S base r.2 bs) ∨ Delivers t S base h bs need r

theorem GhRepr.withRegion (hr : GhRepr t S base h bs lists) {r : ρ}
    (hbrk : S.brk r = S.brk h.region) : GhRepr t S base { h with region := r } bs lists where
  base_pos := hr.base_pos
  below := hbrk ▸ hr.below
  span := hbrk ▸ hr.span
  tiles := hbrk ▸ hr.tiles
  sizes := hr.sizes
  hdr := hr.hdr
  filed := hr.filed
  linked := hr.linked
  live := hr.live

theorem ghCarve_spec (hsrc : GhSource t S base) (hok : GhOk t S base h bs)
    (hneed : 32 ≤ need ∧ need % 16 = 0) (hlt : need < min (2 ^ 32) (2 ^ (8 * t.ptr - 1))) :
    Allocates t S base h bs need (ghCarve t S h need) := by
  obtain ⟨⟨lists, hr⟩, hset⟩ := hok
  unfold ghCarve
  rw [t.toLong_of_lt (by omega)]
  have hgr := hsrc.growing.grow h.region _ hlt
  have hlow := hsrc.growing.below (S.sbrk h.region need).2
  have hspan := hsrc.span (S.sbrk h.region need).2
  unfold Seam.Fails Seam.Extends at hgr
  generalize S.sbrk _ _ = answer at hgr hlow hspan
  obtain ⟨raw, r⟩ := answer
  rcases hgr with ⟨hno, hbrk⟩ | ⟨hso, hbrk⟩
  · -- the region cannot grow
    rw [show raw = none from hno]
    exact .inl ⟨rfl, rfl, ⟨_, hr.withRegion hbrk⟩, hset⟩
  rw [show raw = some _ from hso]
  right
  have hlow' : S.brk r < t.addresses := by
    have : S.brk r < t.addresses - 1 := hlow
    omega
  have hext := (hr.extend hbrk hneed hlow' hspan).stamp rfl
  have hus := hext.handOut rfl (size_setSize _ (show need < 2 ^ 32 by omega))
  refine ⟨_, ⟨S.brk h.region, need, .used⟩, ?_, ⟨⟨_, hus⟩, ?_⟩, ?_⟩
  · exact ghPayload_eq _
  · refine forall_mem_middle.mpr ⟨BlockState.noConfusion, ?_⟩
    rwa [append_nil]
  -- the blocks there were lie below the new one
  have hsp : ∀ c ∈ bs, c.stop ≤ S.brk h.region ∧ 0 < c.size := fun c hc => (hr.tiles.bounds hc).2
  refine ⟨mem_middle.mpr (.inl rfl), rfl, le_rfl, ?_, ?_, ?_⟩
  · intro c hc heq
    have := hsp c hc
    unfold HeapBlock.stop at this
    simp only at heq
    omega
  · exact fun c hc _ => mem_append_left _ hc
  · intro c hc _ x hx hx'
    have := (hsp c hc).1
    exact (hdrOnly_ghHandOut _ _ x (by omega)).trans (hdrOnly_setSize _ x (by omega))

theorem GhRepr.popBin (hr : GhRepr t S base h bs lists) (hset : ∀ c ∈ bs, c.state ≠ .loose)
    (hneed : 32 ≤ need ∧ need % 16 = 0) (hidx : need / 16 < ghNbins)
    (hbin : h.bins (need / 16) ≠ 0) :
    Delivers t S base h bs need (ghHandOut t { h with
      bins := update h.bins (need / 16) (h.next t (h.bins (need / 16))) }
      (h.bins (need / 16))) := by
  have hlnk := hr.linked _ hidx.le
  rw [show ghHead h _ = h.bins _ from if_pos hidx] at hlnk
  cases hli : lists _ with
  | nil =>
    rw [hli] at hlnk
    exact absurd hlnk hbin
  | cons x p =>
    rw [hli] at hlnk
    rw [hlnk.1]
    obtain ⟨c, hc, rfl, hfil, hcls⟩ := hr.mem_list (hli ▸ mem_cons_self : x ∈ lists _)
    obtain ⟨xs, ys, rfl⟩ := append_of_mem hc
    -- the class of a bin is one size
    have hex : c.size = need := by
      have hsz := hr.sizes c hc
      unfold ghClass at hcls
      omega
    have hsz := hr.size_eq hc (hset c hc)
    rw [← hcls] at hli
    have hr1 : GhRepr t S base
        { h with bins := update h.bins (need / 16) (h.next t c.start) }
        (xs ++ { c with state := .loose } :: ys) (update lists (ghClass c.size) p) := by
      refine hr.unlinkHead hfil hli rfl rfl rfl fun j hj => ?_
      rw [hcls]
      unfold ghHead
      split
      · exact update_apply ..
      · rw [if_neg (by omega)]
    exact hr.deliver hset hfil hex.ge hr1 hsz fun _ _ _ _ _ _ => rfl

theorem GhRepr.takeFit (hr : GhRepr t S base h bs lists) (hset : ∀ c ∈ bs, c.state ≠ .loose)
    (hneed : 32 ≤ need ∧ need % 16 = 0) {p1 p2 : List Nat} {x : Nat}
    (hli : lists ghNbins = p1 ++ x :: p2) (hx : need ≤ h.size t x) :
    Delivers t S base h bs need (ghTakeLarge t h need (p1.getLastD 0) x) := by
  obtain ⟨c, hc, rfl, hfil, hcls⟩ := hr.mem_list (show x ∈ lists _ by rw [hli]; simp)
  obtain ⟨xs, ys, rfl⟩ := append_of_mem hc
  have hsz := hr.size_eq hc (hset c hc)
  rw [hsz] at hx
  unfold ghTakeLarge
  generalize hta : (if p1.getLastD 0 ≠ 0 then h.setNext t _ _
    else { h with large := h.next t _ }) = h1
  obtain ⟨hr1, hsize1, hpay⟩ := hr.takeLarge hfil hcls hli hta.symm
  have hhdr : (ghHdr t + ghAlign).toNat = 32 := by
    rw [BitVec.toNat_add, toNat_ghHdr]
    rfl
  simp only [hsize1, hhdr]
  by_cases hrs : c.size - need ≥ 32
  · rw [if_pos hrs]
    exact hr.deliverSplit hset hfil hneed (by omega) hr1 hpay rfl
  · rw [if_neg hrs]
    exact hr.deliver hset hfil hx hr1 hsize1 hpay

theorem ghAlloc_spec (hsrc : GhSource t S base) (hok : GhOk t S base h bs) (hft : GhFits t nbytes) :
    ∃ r, ghAlloc t S h nbytes = some r ∧ Allocates t S base h bs (ghNeed nbytes) r := by
  unfold ghAlloc
  by_cases hz : nbytes = 0
  · rw [if_pos hz]
    exact ⟨_, rfl, .inl ⟨rfl, rfl, hok⟩⟩
  have hneed : 32 ≤ ghNeed nbytes ∧ ghNeed nbytes % 16 = 0 := by
    have hpos : nbytes.toNat ≠ 0 := fun h0 => hz (BitVec.eq_of_toNat_eq h0)
    unfold ghNeed
    omega
  have hlt : ghNeed nbytes < min (2 ^ 32) (2 ^ (8 * t.ptr - 1)) := by
    unfold GhFits at hft
    unfold ghNeed
    omega
  have hcrv := ghCarve_spec hsrc hok hneed hlt
  rw [if_neg hz, toNat_ghNeed hft]
  simp only [toNat_ghAlign]
  obtain ⟨⟨lists, hr⟩, hset⟩ := hok
  generalize ghNeed _ = need at hneed hlt hcrv ⊢
  by_cases hidx : need / 16 < ghNbins
  · rw [if_pos hidx]
    by_cases hbin : h.bins (need / 16) = 0
    · rw [if_neg (not_not.mpr hbin)]
      exact ⟨_, rfl, hcrv⟩
    · -- an exact-size block is popped
      rw [if_pos hbin]
      exact ⟨_, rfl, .inr (hr.popBin hset hneed hidx hbin)⟩
  rw [if_neg hidx]
  have hlnk := hr.linked _ le_rfl
  rw [show ghHead h _ = h.large from if_neg (lt_irrefl _)] at hlnk
  rcases ghFirstFit_spec _ 0 hlnk (hr.list_length_lt _) with
    ⟨hfit, -⟩ | ⟨p1, x, p2, hli, hx, hfit⟩
  · rw [hfit]
    exact ⟨_, rfl, hcrv⟩
  · rw [hfit]
    exact ⟨_, rfl, .inr (hr.takeFit hset hneed hli hx)⟩

/-! ## Freeing and resizing -/

theorem GhOk.withMem (hok : GhOk t S base h bs) (hb : b ∈ bs) {mem : Mem}
    (hmem : ∀ x, x < b.start + 16 ∨ b.stop ≤ x → mem x = h.mem x) :
    GhOk t S base { h with mem := mem } bs := by
  obtain ⟨⟨lists, hr⟩, hset⟩ := hok
  have hsame : ∀ c ∈ bs, SameHdr t h { h with mem := mem } c.start := by
    intro c hc
    apply sameHdr_of_mem
    intro x hx hx'
    apply hmem
    by_cases heq : c.start = b.start
    · exact .inl (heq ▸ hx')
    obtain ⟨xs, ys, rfl⟩ := append_of_mem hb
    have hside := hr.tiles.apart ((mem_middle.mp hc).resolve_left fun h0 => heq (h0 ▸ rfl))
    unfold HeapBlock.stop at hside ⊢
    omega
  refine ⟨⟨lists, ?_⟩, hset⟩
  exact { hr with
    hdr := fun c hc => (hsame c hc).hdrOk (hr.hdr c hc)
    linked := fun k hk => (hr.linked k hk).congr fun x hx => by
      obtain ⟨c, hc, rfl, -⟩ := hr.mem_list hx
      exact (hsame c hc).next }

structure Freed (t : DataModel) (S : Seam ρ) (base : Nat) (h h' : Gheap ρ) (bs bs' : List HeapBlock)
    (p : Nat) : Prop where
  ok : GhOk t S base h' bs'
  kept : ∀ c ∈ bs, c.start + 16 ≠ p → c ∈ bs'
  free : ∀ c ∈ bs', c.start + 16 = p → c.state = .filed
  starts : ∀ c ∈ bs, ∃ c' ∈ bs', c'.start = c.start
  payloads : ∀ a, PayloadsSame h h' bs a

theorem ghFree_spec (hok : GhOk t S base h bs) (hb : b ∈ bs) :
    ∃ bs', Freed t S base h (ghFree t h (b.start + 16)) bs bs' (b.start + 16) := by
  obtain ⟨⟨lists, hr⟩, hset⟩ := hok
  have hblk : ghBlockOf t (b.start + 16) = b.start := by
    unfold ghBlockOf
    rw [toNat_ghHdr, Nat.add_sub_cancel]
  have hsz := hr.size_eq hb (hset b hb)
  have hhdr := hr.hdr b hb
  unfold ghFree
  rw [if_neg (by omega), hblk]
  unfold HdrOk at hhdr
  cases hst : b.state with
  | loose => exact absurd hst (hset b hb)
  | filed =>
    -- a double free is ignored
    rw [hst] at hhdr
    rw [if_pos (by rw [hhdr.2]; decide)]
    refine ⟨bs, ⟨⟨lists, hr⟩, hset⟩, fun c hc _ => hc, ?_, fun c hc => ⟨c, hc, rfl⟩,
      fun a c _ _ x _ _ => rfl⟩
    intro c hc heq
    rw [hr.tiles.eq_of_start hc hb (by omega)]
    exact hst
  | used =>
    rw [hst] at hhdr
    rw [if_neg (by rw [hhdr.2]; decide), hsz]
    obtain ⟨xs, ys, rfl⟩ := append_of_mem hb
    have hpush := (hr.retire hst).push rfl hsz
    have hsc := ghPushFree_spec t { h with liveBytes := h.liveBytes - BitVec.ofNat 32 b.size } b.start
    refine ⟨_, ⟨⟨_, hpush⟩, ?_⟩, ?_, ?_, ?_, ?_⟩
    · refine forall_mem_middle.mpr ⟨BlockState.noConfusion, fun c hc => ?_⟩
      exact hset c (mem_middle.mpr (.inr hc))
    · intro c hc hne
      rcases mem_middle.mp hc with rfl | hc
      · exact absurd rfl hne
      · exact mem_middle.mpr (.inr hc)
    · intro c hc heq
      rcases mem_middle.mp hc with rfl | hc
      · rfl
      · exact absurd (by omega) (hr.tiles.start_ne hc)
    · exact forall_mem_middle.mpr ⟨⟨_, mem_middle.mpr (.inl rfl), rfl⟩, fun c hc =>
        ⟨c, mem_middle.mpr (.inr hc), rfl⟩⟩
    · exact hr.payloads_of_hdrOnly hb hsc.others

/-- What a call that returns a pointer leaves: the blocks there were, a pointer that is null or has
room for the request, and the `old` bytes of `p` at the pointer. -/
structure Resized (t : DataModel) (S : Seam ρ) (base : Nat) (h : Gheap ρ) (r : Nat × Gheap ρ)
    (bs bs' : List HeapBlock) (p nbytes : Nat) : Prop where
  ok : GhOk t S base r.2 bs'
  starts : ∀ c ∈ bs, ∃ c' ∈ bs', c'.start = c.start
  room : r.1 ≠ 0 → ∃ b ∈ bs', r.1 = b.start + 16 ∧ nbytes + 16 ≤ b.size
  bytes : r.1 ≠ 0 → ∀ c ∈ bs, p = c.start + 16 → ∀ i < min (c.size - 16) nbytes,
    r.2.mem (r.1 + i) = h.mem (p + i)

theorem Allocated.starts (ha : Allocated h h' bs bs' b need) :
    ∀ c ∈ bs, ∃ c' ∈ bs', c'.start = c.start := by
  intro c hc
  by_cases heq : c.start = b.start
  · exact ⟨b, ha.mem, heq.symm⟩
  · exact ⟨c, ha.kept c hc heq, rfl⟩

theorem le_ghNeed (nbytes : U32) : nbytes.toNat + 16 ≤ ghNeed nbytes := by
  unfold ghNeed
  omega

theorem Allocated.moved {n : Nat} (hok : GhOk t S base h bs) (hok' : GhOk t S base h' bs')
    {c : HeapBlock} (hc : c ∈ bs) (hsm : c.size < need) (hn : n + 16 ≤ need)
    (ha : Allocated h h' bs bs' b need) :
    ∃ bs'', Resized t S base h (b.start + 16,
      ghFree t { h' with mem := h'.mem.copy (b.start + 16) (c.start + 16) (min (c.size - 16) n) }
        (c.start + 16)) bs bs'' (c.start + 16) n := by
  obtain ⟨⟨lists, hr⟩, -⟩ := hok
  have hrm := ha.room
  -- the new block is another one, since it had room
  have hne : c.start ≠ b.start := by
    intro heq
    have := (ha.fresh c hc heq).2
    omega
  have hc' := ha.kept c hc hne
  have hcop : GhOk t S base
      { h' with mem := h'.mem.copy (b.start + 16) (c.start + 16) (min (c.size - 16) n) } bs' := by
    apply hok'.withMem ha.mem
    intro x hx
    apply Mem.copy_outside
    unfold HeapBlock.stop at hx
    omega
  obtain ⟨bs'', hfr⟩ := ghFree_spec hcop hc'
  refine ⟨bs'', hfr.ok, ?_, fun _ => ?_, fun _ d hd hdp i hi => ?_⟩
  · intro d hd
    obtain ⟨d', hd', hbeg⟩ := ha.starts d hd
    obtain ⟨d'', hd'', hbeg'⟩ := hfr.starts d' hd'
    exact ⟨d'', hd'', hbeg'.trans hbeg⟩
  · refine ⟨b, hfr.kept b ha.mem (by omega), rfl, by omega⟩
  have hdc : d = c := hr.tiles.eq_of_start hd hc (by omega)
  subst hdc
  have hkp := hfr.payloads 0 b ha.mem (by
    obtain ⟨⟨_, hr'⟩, -⟩ := hok'
    exact (hr'.bounds ha.mem).1.ne') (b.start + 16 + i) (by omega) (by
      unfold HeapBlock.stop
      omega)
  refine hkp.trans ((Mem.copy_inside hi).trans ?_)
  exact ha.payloads d hd hne _ (by omega) (by unfold HeapBlock.stop; omega)

theorem ghRealloc_spec (hsrc : GhSource t S base) (hok : GhOk t S base h bs) {p : Nat}
    (hp : p = 0 ∨ ∃ c ∈ bs, p = c.start + 16) (hft : GhFits t nbytes) :
    ∃ r bs', ghRealloc t S h p nbytes = some r ∧ Resized t S base h r bs bs' p nbytes.toNat := by
  obtain ⟨r, hal, hallocates⟩ := ghAlloc_spec hsrc hok hft
  have hneed := le_ghNeed nbytes
  unfold ghRealloc
  rcases hp with rfl | ⟨c, hc, rfl⟩
  · -- `NULL` is allocated
    rcases hallocates with ⟨hnu, -, hok'⟩ | ⟨bs', b, hr, hok', ha⟩
    · refine ⟨r, bs, hal, hok', fun c hc => ⟨c, hc, rfl⟩, ?_, ?_⟩
      · exact fun hne => absurd hnu hne
      · exact fun hne => absurd hnu hne
    · refine ⟨r, bs', hal, hok', ha.starts, fun _ => ⟨b, ha.mem, hr, ?_⟩, ?_⟩
      · exact hneed.trans ha.room
      · omega
  by_cases hz : nbytes = 0
  · -- a request for nothing frees
    obtain ⟨bs', hfr⟩ := ghFree_spec hok hc
    rw [if_pos hz]
    refine ⟨_, bs', rfl, hfr.ok, hfr.starts, ?_, ?_⟩
    · exact fun hne => absurd rfl hne
    · exact fun hne => absurd rfl hne
  have hok' := hok
  obtain ⟨⟨lists, hr⟩, hset⟩ := hok'
  have hblk : ghBlockOf t (c.start + 16) = c.start := by
    unfold ghBlockOf
    rw [toNat_ghHdr, Nat.add_sub_cancel]
  have hsz := hr.size_eq hc (hset c hc)
  rw [if_neg hz, toNat_ghNeed hft, hblk]
  simp only [hsz]
  by_cases hplc : ghNeed nbytes ≤ c.size
  · -- the block has room already
    rw [if_pos hplc]
    refine ⟨_, bs, rfl, hok, fun c hc => ⟨c, hc, rfl⟩, fun _ => ⟨c, hc, rfl, by omega⟩, ?_⟩
    exact fun _ d _ _ i _ => rfl
  rw [if_neg hplc, hal]
  have hbnd := hr.bounds hc
  have hcsize := hr.sizes c hc
  have hold : (BitVec.ofNat 32 c.size - ghHdr t).toNat = c.size - 16 := by
    rw [BitVec.toNat_sub, BitVec.toNat_ofNat, toNat_ghHdr, Nat.mod_eq_of_lt hbnd.2.2]
    omega
  rw [hold]
  obtain ⟨np, h'⟩ := r
  rcases hallocates with ⟨rfl, -, hok'⟩ | ⟨bs', b, rfl, hok', ha⟩
  · refine ⟨_, bs, rfl, hok', fun c hc => ⟨c, hc, rfl⟩, ?_, ?_⟩
    · exact fun hne => absurd rfl hne
    · exact fun hne => absurd rfl hne
  obtain ⟨bs'', hresized⟩ := ha.moved hok hok' hc (by omega) hneed
  refine ⟨_, bs'', rfl, ?_⟩
  rw [show (if c.size - 16 < nbytes.toNat then c.size - 16 else nbytes.toNat) =
    min (c.size - 16) nbytes.toNat by split <;> omega]
  exact hresized

/-! ## Runs -/

/-- The blocks tile the carved part of the region, a block is free exactly when it is on the free
list of its class, once, the payloads are disjoint, and the counter is the bytes in use. -/
structure GhSound (t : DataModel) (S : Seam ρ) (base : Nat) (h : Gheap ρ) (bs : List HeapBlock) :
    Prop where
  tiles : Tiles base (S.brk h.region) bs
  sizes : ∀ b ∈ bs, h.size t b.start = b.size
  marked : ∀ b ∈ bs, (b.state = .filed ∧ h.isFree t b.start = 1) ∨
    (b.state = .used ∧ h.isFree t b.start = 0)
  lists : ∃ lists, (∀ k ≤ ghNbins, Linked (h.next t) (ghHead h k) (lists k)) ∧ Filed ghClass bs lists
  payloads : bs.Pairwise fun b c => Disjoint (Set.Ico (b.start + 16) b.stop) (Set.Ico (c.start + 16) c.stop)
  live : h.liveBytes.toNat = usedBytes bs

theorem GhOk.sound (hok : GhOk t S base h bs) : GhSound t S base h bs := by
  obtain ⟨⟨lists, hr⟩, hset⟩ := hok
  refine ⟨hr.tiles, fun b hb => hr.size_eq hb (hset b hb), ?_, ⟨lists, hr.linked, hr.filed⟩, ?_, ?_⟩
  · intro b hb
    have hhdr := hr.hdr b hb
    unfold HdrOk at hhdr
    cases hst : b.state with
    | loose => exact absurd hst (hset b hb)
    | filed =>
      rw [hst] at hhdr
      exact .inl ⟨rfl, hhdr.2⟩
    | used =>
      rw [hst] at hhdr
      exact .inr ⟨rfl, hhdr.2⟩
  · refine hr.tiles.pairwise.imp fun {b c} hbc => ?_
    rw [Set.disjoint_left]
    intro x hx hx'
    have := hx.2
    have := hx'.1
    omega
  · have hus := hr.tiles.usedBytes_le
    have hspan := hr.span
    rw [hr.live, BitVec.toNat_ofNat]
    exact Nat.mod_eq_of_lt (by omega)

/-- One operation of a client: a pointer returned is the payload of a block with room for the
request that was not in use, and `gh_realloc` keeps the bytes that fit both payloads. -/
def GhStepOk (t : DataModel) (S : Seam ρ) (base : Nat) (c : GhClient ρ) (op : GhOp)
    (c' : GhClient ρ) (r : Nat) : Prop :=
  ∃ bs bs', GhSound t S base c.heap bs ∧ GhSound t S base c'.heap bs' ∧
    match op with
    | .alloc nbytes => r ≠ 0 → ∃ b ∈ bs', r = b.start + 16 ∧ nbytes.toNat + 16 ≤ b.size ∧
        b.state = .used ∧ ∀ b₀ ∈ bs, b₀.start = b.start → b₀.state = .filed
    | .realloc p nbytes => r ≠ 0 → (∃ b ∈ bs', r = b.start + 16 ∧ nbytes.toNat + 16 ≤ b.size) ∧
        ∀ b ∈ bs, c.addr p = b.start + 16 → ∀ i < min (b.size - 16) nbytes.toNat,
          c'.heap.mem (r + i) = c.heap.mem (c.addr p + i)
    | .free _ => True
    | .store .. => True

/-- A client stores only to payloads. -/
def GhOp.InPayload (t : DataModel) (c : GhClient ρ) : GhOp → Prop
  | .store p offset _ => c.addr p ≠ 0 ∧ offset + 16 < c.heap.size t (ghBlockOf t (c.addr p))
  | _ => True

/-- The sizes a client asks for make blocks. -/
def GhOp.Fits (t : DataModel) : GhOp → Prop
  | .alloc nbytes => GhFits t nbytes
  | .realloc _ nbytes => GhFits t nbytes
  | _ => True

def GhClientOk (t : DataModel) (S : Seam ρ) (base : Nat) (c : GhClient ρ) : Prop :=
  ∃ bs, GhOk t S base c.heap bs ∧ ∀ p ∈ c.results, p = 0 ∨ ∃ b ∈ bs, p = b.start + 16

theorem addr_cases (hres : ∀ p ∈ c.results, p = 0 ∨ ∃ b ∈ bs, p = b.start + 16)
    (p : GhPtr) : c.addr p = 0 ∨ ∃ b ∈ bs, c.addr p = b.start + 16 := by
  cases p with
  | null => exact .inl rfl
  | result i =>
    rw [show c.addr _ = c.results.getD i 0 from rfl]
    by_cases hi : i < c.results.length
    · rw [getD_eq_getElem _ _ hi]
      exact hres _ (getElem_mem hi)
    · exact .inl (getD_eq_default _ _ (by omega))

-- The blocks that the results point to are still blocks.
theorem results_starts {results : List Nat} (hres : ∀ p ∈ results, p = 0 ∨ ∃ b ∈ bs, p = b.start + 16)
    (hbegs : ∀ c ∈ bs, ∃ c' ∈ bs', c'.start = c.start) :
    ∀ p ∈ results, p = 0 ∨ ∃ b ∈ bs', p = b.start + 16 := by
  intro p hp
  rcases hres p hp with h0 | ⟨b, hb, rfl⟩
  · exact .inl h0
  · obtain ⟨b', hb', hbeg⟩ := hbegs b hb
    exact .inr ⟨b', hb', by rw [hbeg]⟩

theorem ghStep_alloc (hsrc : GhSource t S base) (hinv : GhClientOk t S base c) (hft : GhFits t nbytes) :
    ∃ c' r, ghStep t S c (.alloc nbytes) = some (c', r) ∧
      GhStepOk t S base c (.alloc nbytes) c' r ∧ GhClientOk t S base c' := by
  obtain ⟨bs, hok, hres⟩ := hinv
  obtain ⟨⟨r, h'⟩, hal, hr⟩ := ghAlloc_spec hsrc hok hft
  refine ⟨⟨h', c.results ++ [r]⟩, r, by rw [ghStep, hal]; rfl, ?_⟩
  rcases hr with ⟨rfl, -, hok'⟩ | ⟨bs', b, rfl, hok', ha⟩
  · refine ⟨⟨bs, bs, hok.sound, hok'.sound, fun hne => absurd rfl hne⟩, bs, hok', ?_⟩
    exact forall_mem_append.mpr ⟨hres, forall_mem_singleton.mpr (.inl rfl)⟩
  have hrm := (le_ghNeed _).trans ha.room
  refine ⟨⟨bs, bs', hok.sound, hok'.sound, fun _ => ?_⟩, bs', hok', ?_⟩
  · exact ⟨b, ha.mem, rfl, hrm, ha.used, fun b0 hb0 heq => (ha.fresh b0 hb0 heq).1⟩
  · exact forall_mem_append.mpr ⟨results_starts hres ha.starts,
      forall_mem_singleton.mpr (.inr ⟨b, ha.mem, rfl⟩)⟩

theorem ghStep_free (hinv : GhClientOk t S base c) (p : GhPtr) :
    ∃ c' r, ghStep t S c (.free p) = some (c', r) ∧
      GhStepOk t S base c (.free p) c' r ∧ GhClientOk t S base c' := by
  obtain ⟨bs, hok, hres⟩ := hinv
  refine ⟨_, _, rfl, ?_⟩
  rcases addr_cases hres p with hnu | ⟨b, hb, hp⟩
  · rw [hnu, show ghFree t _ 0 = c.heap from if_pos rfl]
    exact ⟨⟨bs, bs, hok.sound, hok.sound, trivial⟩, bs, hok, hres⟩
  obtain ⟨bs', hfr⟩ := ghFree_spec hok hb
  rw [hp]
  exact ⟨⟨bs, bs', hok.sound, hfr.ok.sound, trivial⟩, bs', hfr.ok,
    results_starts hres hfr.starts⟩

theorem ghStep_realloc (hsrc : GhSource t S base) (hinv : GhClientOk t S base c)
    (p : GhPtr) (hft : GhFits t nbytes) : ∃ c' r, ghStep t S c (.realloc p nbytes) = some (c', r) ∧
      GhStepOk t S base c (.realloc p nbytes) c' r ∧ GhClientOk t S base c' := by
  obtain ⟨bs, hok, hres⟩ := hinv
  obtain ⟨⟨r, h'⟩, bs', hre, hr⟩ := ghRealloc_spec hsrc hok (addr_cases hres p) hft
  refine ⟨⟨h', c.results ++ [r]⟩, r, by rw [ghStep, hre]; rfl, ?_, bs', hr.ok, ?_⟩
  · exact ⟨bs, bs', hok.sound, hr.ok.sound, fun hne => ⟨hr.room hne, hr.bytes hne⟩⟩
  refine forall_mem_append.mpr ⟨results_starts hres hr.starts, forall_mem_singleton.mpr ?_⟩
  by_cases hnu : r = 0
  · exact .inl hnu
  · obtain ⟨b, hb, heq, -⟩ := hr.room hnu
    exact .inr ⟨b, hb, heq⟩

theorem ghStep_store (hinv : GhClientOk t S base c) {p : GhPtr} {offset : Nat}
    {value : UInt8} (hin : (GhOp.store p offset value).InPayload t c) :
    ∃ c' r, ghStep t S c (.store p offset value) = some (c', r) ∧
      GhStepOk t S base c (.store p offset value) c' r ∧ GhClientOk t S base c' := by
  obtain ⟨bs, hok, hres⟩ := hinv
  obtain ⟨hne, hoff⟩ := hin
  obtain ⟨b, hb, hp⟩ := (addr_cases hres p).resolve_left hne
  have hsz := hok.sound.sizes b hb
  have hblk : ghBlockOf t (c.addr p) = b.start := by
    unfold ghBlockOf
    rw [hp, toNat_ghHdr, Nat.add_sub_cancel]
  rw [hblk, hsz] at hoff
  have hok' : GhOk t S base
      { c.heap with mem := update c.heap.mem (c.addr p + offset) value } bs := by
    apply hok.withMem hb
    intro x hx
    apply update_of_ne
    unfold HeapBlock.stop at hx
    omega
  exact ⟨_, _, rfl, ⟨bs, bs, hok.sound, hok'.sound, trivial⟩, bs, hok', hres⟩

theorem ghStep_ok (hsrc : GhSource t S base) (c : GhClient ρ) (op : GhOp)
    (hinv : GhClientOk t S base c) (hop : op.InPayload t c ∧ op.Fits t) :
    ∃ c' r, ghStep t S c op = some (c', r) ∧ GhStepOk t S base c op c' r ∧ GhClientOk t S base c' := by
  cases op with
  | alloc nbytes => exact ghStep_alloc hsrc hinv hop.2
  | free p => exact ghStep_free hinv p
  | realloc p nbytes => exact ghStep_realloc hsrc hinv p hop.2
  | store p offset value => exact ghStep_store hinv hop.1

theorem ghInit_ok (hsrc : GhSource t S base) (mem : Mem) {r : ρ} (hba : S.brk r = base) :
    GhOk t S base (ghInit mem r) [] := by
  have hlow := hsrc.growing.below r
  refine ⟨⟨fun _ => [], hsrc.base_pos, ?_, hsrc.span r, hba.symm, ?_, ?_, Filed.nil, ?_, rfl⟩, ?_⟩
  · show S.brk r < t.addresses
    omega
  · exact fun b hb => absurd hb not_mem_nil
  · exact fun b hb => absurd hb not_mem_nil
  · intro k _
    show ghHead _ k = 0
    unfold ghHead
    split <;> rfl
  · exact fun b hb => absurd hb not_mem_nil

/-- In every run of a client, on any memory source and from any memory, whose requests all make
blocks: every call returns, the heap stays sound, and every operation does what it should. -/
theorem ghRun_sound (t : DataModel) {ρ : Type} (S : Seam ρ) (r : ρ) (hsrc : GhSource t S (S.brk r))
    (mem : Mem) (ops : List GhOp) (hops : OpsMeet (ghStep t S) (GhOp.InPayload t) ⟨ghInit mem r, []⟩ ops)
    (hfits : ∀ op ∈ ops, op.Fits t) : GhSound t S (S.brk r) (ghInit mem r) [] ∧
      RunAll (ghStep t S) (GhStepOk t S (S.brk r)) ⟨ghInit mem r, []⟩ ops := by
  have hini := ghInit_ok hsrc mem rfl
  have hclient : GhClientOk t S (S.brk r) ⟨ghInit mem r, []⟩ :=
    ⟨[], hini, fun p hp => absurd hp not_mem_nil⟩
  exact ⟨hini.sound, runAll_of_inv (ghStep_ok hsrc) hclient (hops.and hfits)⟩

/-! ## The two memory sources -/

/-- The hosted runtime has a mapped region. -/
theorem hostSeam_source {base : Nat} (hpos : 0 < base) (hft : base + gheapCap < t.addresses - 1)
    (r0 : HostRegion) : GhSource t (hostSeam base) ((hostSeam base).brk r0) where
  base_pos := by
    show 0 < base + r0.brk
    omega
  growing :=
    { pos := fun r => by
        show 0 < base + r.brk
        omega
      below := fun r => by
        show base + r.brk < t.addresses - 1
        have := r.brk_le
        omega
      grow := fun r n hn => by
        have hmod : ((n : Int) % 2 ^ 32).toNat = n := by omega
        have hle := r.brk_le
        unfold Seam.Fails Seam.Extends
        simp only [hostSeam, ghSbrk, hmod]
        by_cases hout : (r.brk + n) % 2 ^ 32 > gheapCap ∨ (r.brk + n) % 2 ^ 32 < r.brk
        · rw [dif_pos hout]
          exact .inl ⟨rfl, rfl⟩
        rw [dif_neg hout]
        refine .inr ⟨rfl, ?_⟩
        show base + (r.brk + n) % 2 ^ 32 = base + r.brk + n
        omega
      steady := fun r incr _ => by
        generalize ((hostSeam _).sbrk r _).2 = r'
        have hle := r'.brk_le
        unfold gheapCap at hle
        simp only [hostSeam, ghSbrk]
        rw [if_neg (by decide), dif_neg (by unfold gheapCap; simp only [Int.zero_emod]; omega)]
        exact Option.some_ne_none _ }
  span r := by
    show base + r.brk < base + r0.brk + 2 ^ 32
    have := r.brk_le
    unfold gheapCap at this
    omega

/-- The freestanding runtime of 32-bit targets has the break of the process. -/
theorem brkSeam_source (ht : t.ptr = 4) (s : BrkHeap) : GhSource t brkSeam (brkSeam.brk s) where
  base_pos := (brkSeam_growing ht).pos s
  growing := by simpa [ht] using brkSeam_growing ht
  span r := by
    have hlow := (brkSeam_growing ht).below r
    rw [DataModel.addresses, ht] at hlow
    omega

/-- A 64-bit little-endian host. -/
def lp64 : DataModel := ⟨.little, 8, .inr rfl⟩

theorem ghRun_sound_hosted : RunAll (ghStep lp64 (hostSeam 0x10000))
      (GhStepOk lp64 (hostSeam 0x10000) ((hostSeam 0x10000).brk ⟨0, Nat.zero_le _⟩))
      ⟨ghInit (fun _ => 0) ⟨0, Nat.zero_le _⟩, []⟩
      [.alloc 24, .store (.result 0) 23 7, .free (.result 0)] := by
  refine (ghRun_sound _ (hostSeam _) ⟨0, Nat.zero_le _⟩ ?_ (fun _ => 0) _ ?_ ?_).2
  · exact hostSeam_source (by decide) (by decide) _
  · refine ⟨trivial, fun c r hstep => ⟨?_, fun _ _ _ => ⟨trivial, fun _ _ _ => trivial⟩⟩⟩
    injection hstep with hstep
    injection hstep with hc _
    rw [← hc]
    exact ⟨by decide, by decide⟩
  · simp only [forall_mem_cons]
    exact ⟨show 24 + 31 < min _ _ by decide, trivial, trivial,
      fun _ hop => absurd hop not_mem_nil⟩

/-- A request of 2^32 - 16 bytes gets a block of no bytes at the break. -/
theorem wrappedSize_not_sound :
    ¬ ∀ (t : DataModel) (ρ : Type) (S : Seam ρ) (r : ρ), GhSource t S (S.brk r) →
      ∀ (mem : Mem) (ops : List GhOp), OpsMeet (ghStep t S) (GhOp.InPayload t) ⟨ghInit mem r, []⟩ ops →
        RunAll (ghStep t S) (GhStepOk t S (S.brk r)) ⟨ghInit mem r, []⟩ ops := by
  intro hall
  obtain ⟨c, r, hstep, ⟨_, bs, -, hsnd, hret⟩, -⟩ := hall lp64 _ (hostSeam 0x10000)
    ⟨0, Nat.zero_le _⟩ (hostSeam_source (by decide) (by decide) _) (fun _ => 0)
    [.alloc _] ⟨trivial, fun _ _ _ => trivial⟩
  have hrun : (ghStep lp64 (hostSeam 0x10000) ⟨ghInit (fun _ => 0) ⟨0, Nat.zero_le _⟩, []⟩
      (.alloc 0xFFFFFFF0)).map (fun s => (s.2, (hostSeam 0x10000).brk s.1.heap.region)) =
      some (0x10010, 0x10000) := by
    decide
  rw [hstep] at hrun
  injection hrun with hrun
  injection hrun with hr hbrk
  -- the carved part is empty, so it has no block
  have htl := hsnd.tiles
  rw [hbrk] at htl
  obtain ⟨b, hb, -⟩ := hret (by rw [show r = _ from hr]; decide)
  have hbnd := htl.bounds hb
  unfold HeapBlock.stop at hbnd
  have hba : (hostSeam 0x10000).brk ⟨0, Nat.zero_le _⟩ = 0x10000 := rfl
  omega

end Skjegg.Kobold
