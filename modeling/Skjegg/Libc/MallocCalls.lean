import Skjegg.Libc.MallocSteps

/-!
# Calls of the libc allocator

What `malloc`, `free`, `calloc` and `realloc` do to the blocks of the heap.
-/

namespace Skjegg.Libc

open Skjegg.Lib List

variable {t : DataModel} {ρ : Type} {S : Seam ρ} {h h' : Arena ρ}
  {bs bs' xs ys : List HeapBlock} {b c : HeapBlock} {lists : Nat → List Nat} {need : Nat}

/-- The blocks of a heap between calls, when none is in the allocator's hands. -/
structure ArenaOk (t : DataModel) (S : Seam ρ) (h : Arena ρ) (bs : List HeapBlock) : Prop where
  repr : ∃ lists, ArenaRepr t S h bs lists
  settled : ∀ b ∈ bs, b.state ≠ .loose

theorem arenaInit_arenaOk (mem : Mem) (r : ρ) : ArenaOk t S (arenaInit mem r) [] := by
  refine ⟨⟨fun _ => [], ?_⟩, fun b hb => absurd hb not_mem_nil⟩
  refine ⟨rfl, .inl ⟨rfl, rfl⟩, Nat.two_pow_pos _, rfl, ?_, ?_, List.IsChain.nil, Filed.nil, ?_, rfl⟩
  · exact fun b hb => absurd hb not_mem_nil
  · exact fun b hb => absurd hb not_mem_nil
  intro k _
  show classHead _ k = 0
  unfold classHead
  split <;> rfl

/-! ## Finding a block -/

/-- The loop over the large list passes the blocks that are too small and stops at the first that is
not. -/
theorem largeFit_spec (need : Nat) {l : List Nat} {fuel a : Nat} (hl : Linked (h.fwd t) a l)
    (hfu : l.length < fuel) : (largeFit t h need fuel a = some 0 ∧ ∀ x ∈ l, h.bsize t x < need) ∨
      ∃ x ∈ l, x ≠ 0 ∧ need ≤ h.bsize t x ∧ largeFit t h need fuel a = some x := by
  induction l generalizing fuel a with
  | nil =>
    obtain _ | fuel := fuel
    · omega
    left
    rw [largeFit, if_pos (show a = 0 from hl)]
    exact ⟨rfl, fun x hx => absurd hx not_mem_nil⟩
  | cons x l ih =>
    obtain _ | fuel := fuel
    · omega
    obtain ⟨rfl, hne, hrs⟩ := hl
    rw [largeFit, if_neg hne]
    by_cases hfit : need ≤ h.bsize t a
    · rw [if_pos hfit]
      exact .inr ⟨a, mem_cons_self, hne, hfit, rfl⟩
    rw [if_neg hfit]
    rcases ih hrs (Nat.lt_of_succ_lt_succ hfu) with ⟨hno, hall⟩ | ⟨x, hx, hfnd⟩
    · exact .inl ⟨hno, forall_mem_cons.mpr ⟨by omega, hall⟩⟩
    · exact .inr ⟨x, mem_cons_of_mem _ hx, hfnd⟩

-- The head of a list that is not empty is a filed block of its class.
theorem ArenaRepr.head_block (hr : ArenaRepr t S h bs lists) {k : Nat} (hk : k ≤ nbins)
    (hne : classHead h k ≠ 0) :
    ∃ b ∈ bs, b.start = classHead h k ∧ b.state = .filed ∧ sizeClass b.size = k :=
  hr.mem_list (ArenaRepr.head_mem (hr.linked k hk).linked (fun _ hx => hx) hne)

-- A list with a block on it has a head.
theorem ArenaRepr.head_ne_zero (hr : ArenaRepr t S h bs lists) (hb : b ∈ bs)
    (hfil : b.state = .filed) : classHead h (sizeClass b.size) ≠ 0 := by
  have hmem := ((hr.filed _).2 _).mpr ⟨b, hb, rfl, hfil, rfl⟩
  have hlnk := (hr.linked _ (sizeClass_le b.size)).linked
  intro hz
  rw [hlnk.head_eq_zero.mp hz] at hmem
  exact absurd hmem not_mem_nil

theorem takeFit_spec (hr : ArenaRepr t S h bs lists) (hneed : need % 16 = 0) :
    (takeFit t h need = some (0, h) ∧ ∀ c ∈ bs, c.state = .filed → c.size < need) ∨
      ∃ b ∈ bs, b.state = .filed ∧ need ≤ b.size ∧
        takeFit t h need = some (b.start, unlinkFree t h b.start) := by
  have hbin : ∀ k, k < nbins → classHead h k = h.bins k := fun k hk => if_pos hk
  have hlg : classHead h nbins = h.large := if_neg (lt_irrefl _)
  unfold takeFit align
  by_cases hex : need / 16 < nbins ∧ h.bins (need / 16) ≠ 0
  · -- a block of exactly the size
    rw [if_pos hex]
    obtain ⟨b, hb, hbeg, hfil, hcls⟩ := hr.head_block hex.1.le
      (by rw [hbin _ hex.1]; exact hex.2)
    rw [hbin _ hex.1] at hbeg
    refine .inr ⟨b, hb, hfil, ?_, by rw [hbeg]⟩
    unfold sizeClass at hcls
    omega
  rw [if_neg hex]
  -- first fit over the large list
  have hfu : (lists nbins).length < t.addresses := by
    have hlen := hr.filed.length_le hr.tiles nbins
    have hlow := hr.below
    omega
  have hlnk := (hr.linked _ le_rfl).linked
  rw [hlg] at hlnk
  have hsz : ∀ c ∈ bs, c.state = .filed → h.bsize t c.start = c.size := fun c hc hfil =>
    (hr.tags_eq hc (by rw [hfil]; decide)).1
  rcases largeFit_spec _ hlnk hfu with ⟨hno, hsm⟩ | ⟨x, hx, hne, hfit, hfnd⟩
  swap
  · rw [hfnd]
    obtain ⟨b, hb, rfl, hfil, -⟩ := hr.mem_list hx
    rw [hsz b hb hfil] at hfit
    exact .inr ⟨b, hb, hfil, hfit, if_pos hne⟩
  have hls : ∀ c ∈ bs, c.state = .filed → sizeClass c.size = nbins → c.size < need := by
    intro c hc hfil hcls
    rw [← hsz c hc hfil]
    exact hsm _ (((hr.filed _).2 _).mpr ⟨c, hc, rfl, hfil, hcls⟩)
  rw [hno]
  simp only [ne_eq, not_true, if_false]
  by_cases hidx : need / 16 < nbins
  · rw [if_pos hidx]
    cases hfd : (range' _ _).find?
      fun i => h.bins i ≠ 0 with
    | some i =>
      -- the smallest larger bin that is not empty
      have hi := mem_range'_1.mp (mem_of_find?_eq_some hfd)
      have hbins : h.bins i ≠ 0 := by simpa using find?_some hfd
      obtain ⟨b, hb, hbeg, hfil, hcls⟩ := hr.head_block (k := i) (by omega)
        (by rw [hbin i (by omega)]; exact hbins)
      rw [hbin i (by omega)] at hbeg
      refine .inr ⟨b, hb, hfil, ?_, by rw [hbeg]⟩
      unfold sizeClass at hcls
      omega
    | none =>
      refine .inl ⟨rfl, fun c hc hfil => ?_⟩
      by_cases hcls : sizeClass c.size = nbins
      · exact hls c hc hfil hcls
      have hle := sizeClass_le c.size
      have hhd := hr.head_ne_zero hc hfil
      rw [hbin _ (by omega)] at hhd
      -- its bin is before the one asked for
      have hnot : ¬ (need / 16 + 1 ≤ sizeClass c.size) := by
        intro hge
        have hall := find?_eq_none.mp hfd (sizeClass c.size) (mem_range'_1.mpr (by omega))
        exact hall (by simpa using hhd)
      have hoth : sizeClass c.size ≠ need / 16 := fun heq => hex ⟨hidx, heq ▸ hhd⟩
      unfold sizeClass at hnot hoth hcls
      omega
  · rw [if_neg hidx]
    refine .inl ⟨rfl, fun c hc hfil => ?_⟩
    by_cases hcls : sizeClass c.size = nbins
    · exact hls c hc hfil hcls
    · unfold sizeClass at hcls
      omega

/-! ## Growing -/

-- The neighbour in front of a loose block is free: it is taken off its list and the two are filed as
-- one.
theorem ArenaRepr.fileWithFront (hr : ArenaRepr t S h (xs ++ b :: c :: ys) lists)
    (hb : b.state = .filed) (hc : c.state = .loose) (hri : ∀ d ∈ ys.head?, d.state ≠ .filed) :
    (∃ lists', ArenaRepr t S (pushFree t (setHdr t (unlinkFree t h b.start) b.start
      (b.size + c.size) false) b.start) (xs ++ ⟨b.start, b.size + c.size, .filed⟩ :: ys) lists') ∧
    Kept h (pushFree t (setHdr t (unlinkFree t h b.start) b.start (b.size + c.size) false) b.start)
      (xs ++ b :: c :: ys) (xs ++ ⟨b.start, b.size + c.size, .filed⟩ :: ys) := by
  have hlf := (hr.separated.neighbours hb).1
  obtain ⟨⟨lists1, hr1⟩, -, hkept1⟩ := hr.unlink hb
  obtain ⟨hfil, hkept2⟩ := (hr1.join rfl hc).file rfl hlf hri
  refine ⟨hfil, hkept1.trans (Kept.trans ⟨?_, fun _ _ _ _ _ => rfl⟩ hkept2)⟩
  simp [usedBlocks_cons_of_ne, hc]

theorem filed_of_not_used (hsettled : b.state ≠ .loose) (hus : b.state ≠ .used) : b.state = .filed := by
  cases hs : b.state with
  | used => exact absurd hs hus
  | loose => exact absurd hs hsettled
  | filed => rfl

/-- What the allocator finds below a block. -/
theorem ArenaRepr.under (hr : ArenaRepr t S h (xs ++ c :: b :: ys) lists) (hc : c.state ≠ .loose) :
    h.arenaLo < b.start ∧ h.footBefore t b.start = c.size ∧ minus t b.start c.size = c.start ∧
      h.bused t c.start = decide (c.state = .used) ∧ c.size + b.size < t.addresses := by
  have hmem : c ∈ xs ++ c :: b :: ys := mem_middle.mpr (.inl rfl)
  obtain ⟨-, hus, hfo⟩ := hr.tags_eq hmem hc
  have hbnd := hr.bounds hmem
  have hbbounds := hr.bounds (b := b) (by simp)
  have hmin := minblk_cases t
  obtain ⟨k, -, -, -, hadj : b.start = c.stop, -⟩ := tiles_append.mp hr.tiles
  rw [← hadj] at hfo
  refine ⟨by omega, hfo, ?_, hus, by omega⟩
  rw [minus_of_le (by omega) (by omega)]
  omega

def Grown (t : DataModel) (S : Seam ρ) (h : Arena ρ) (bs : List HeapBlock) (need : Nat)
    (r : Bool × Arena ρ) : Prop :=
  r.1 = true ∧ ∃ bs', ArenaOk t S r.2 bs' ∧ Kept h r.2 bs bs' ∧ ∃ c ∈ bs', c.state = .filed ∧ need ≤ c.size

theorem Kept.grown {r : Bool × Arena ρ} (hkp : Kept h h' bs bs') (hr : Grown t S h' bs' need r) :
    Grown t S h bs need r := by
  obtain ⟨htr, bs'', hok, hkp', hfit⟩ := hr
  exact ⟨htr, bs'', hok, hkp.trans hkp', hfit⟩

def Grows (t : DataModel) (S : Seam ρ) (h : Arena ρ) (bs : List HeapBlock) (need : Nat)
    (r : Bool × Arena ρ) : Prop :=
  (r.1 = false ∧ r.2.mem = h.mem ∧ ArenaOk t S r.2 bs) ∨ Grown t S h bs need r

/-- What the allocator needs of its seam when it asks for `need` bytes: the next bytes or a failure.
-/
structure Supplies (t : DataModel) (S : Seam ρ) (need : Nat) : Prop where
  growing : S.Growing t (2 ^ (8 * t.ptr - 1))
  refuses : 2 ^ (8 * t.ptr - 1) ≤ need → ∀ r, S.Fails r (t.toLong need)

theorem Supplies.answer (hsrc : Supplies t S need) (r : ρ) :
    S.Fails r (t.toLong need) ∨ (t.toLong need = need ∧ S.Extends r need) := by
  by_cases hneg : 2 ^ (8 * t.ptr - 1) ≤ need
  · exact .inl (hsrc.refuses hneg r)
  have hlo := t.toLong_of_lt (not_le.mp hneg)
  rw [hlo]
  rcases hsrc.growing.grow r _ (not_le.mp hneg) with hfa | hext
  · exact .inl hfa
  · exact .inr ⟨rfl, hext⟩

/-- The end of `grow`: the fresh block at the top is filed, with the block below it when that is
free. -/
theorem ArenaRepr.fileTop (hr : ArenaRepr t S h (bs ++ [b]) lists) (hb : b.state = .loose)
    (htg : TagsOk t h.mem b 0) (hsettled : ∀ c ∈ bs, c.state ≠ .loose) :
    Grown t S h (bs ++ [b]) b.size (if b.start > h.arenaLo then
        let psz := h.footBefore t b.start
        let prev := minus t b.start psz
        if h.bused t prev then (true, pushFree t h b.start)
        else (true, pushFree t (setHdr t (unlinkFree t h prev) prev (plus t psz b.size) false) prev)
      else (true, pushFree t h b.start)) := by
  -- with no free block below, the fresh one is filed alone
  have halo : (∀ c ∈ bs.getLast?, c.state ≠ .filed) →
      Grown t S h (bs ++ [b]) b.size (true, pushFree t h b.start) := by
    intro hlf
    obtain ⟨⟨lists', hfil⟩, hkp⟩ := hr.push hb htg hlf (by simp)
    refine ⟨rfl, _, ⟨⟨lists', hfil⟩, ?_⟩, hkp, _, mem_middle.mpr (.inl rfl), rfl, le_rfl⟩
    refine forall_mem_middle.mpr ⟨BlockState.noConfusion, ?_⟩
    rwa [append_nil]
  rcases eq_nil_or_concat' bs with rfl | ⟨l, d, rfl⟩
  · split
    · have hbeg : b.start = h.arenaLo := hr.tiles.1
      omega
    · exact halo (by simp)
  rw [append_assoc, singleton_append] at hr
  have hds := hsettled d (by simp)
  obtain ⟨habv, hfo, hprev, hus, hsum⟩ := hr.under hds
  rw [if_pos habv]
  simp only [hfo, hprev, hus]
  by_cases hst : d.state = .used
  · rw [if_pos (by simpa using hst)]
    apply halo
    rw [getLast?_concat]
    rintro c ⟨⟩
    rw [hst]
    decide
  rw [if_neg (by simpa using hst), plus_of_lt hsum]
  obtain ⟨⟨lists', hfil'⟩, hkp⟩ := hr.fileWithFront (filed_of_not_used hds hst) hb (by simp)
  rw [append_assoc, singleton_append]
  refine ⟨rfl, _, ⟨⟨lists', hfil'⟩, ?_⟩, hkp, _, mem_middle.mpr (.inl rfl), rfl, ?_⟩
  · refine forall_mem_middle.mpr ⟨BlockState.noConfusion, fun c hc => hsettled c ?_⟩
    rw [append_nil] at hc
    exact mem_append_left _ hc
  · show b.size ≤ d.size + b.size
    omega

theorem extendArena_spec (hsrc : Supplies t S need) (hok : ArenaOk t S h bs) (hopen : 0 < h.arenaLo)
    (hneed : minblk t ≤ need ∧ need % 16 = 0) : Grows t S h bs need (extendArena t S h need) := by
  obtain ⟨⟨lists, hr⟩, hsettled⟩ := hok
  have hend : h.brkEnd = S.brk h.seam := by
    have hop := hr.opened
    omega
  unfold extendArena sbrk
  rcases hsrc.answer h.seam with ⟨hno, hbrk⟩ | ⟨hlo, hso, hbrk⟩
  · rw [hno]
    exact .inl ⟨rfl, rfl, ⟨lists, hr.withSeam hbrk⟩, hsettled⟩
  rw [hlo, hso]
  have hlow := hsrc.growing.below (S.sbrk h.seam need).2
  have hplus : plus t (S.brk h.seam) need = h.brkEnd + need := by
    rw [hend]
    exact plus_of_lt (by omega)
  have hext := hr.extend hopen hbrk hneed (by omega)
  obtain ⟨hstm, htg, hkp⟩ := hext.stamp rfl
  have htop := hkp.grown (hstm.fileTop rfl htg hsettled)
  have hfsh : Kept h { h with seam := (S.sbrk h.seam need).2, brkEnd := h.brkEnd + need } bs
      (bs ++ [⟨h.brkEnd, need, .loose⟩]) := by
    refine ⟨?_, fun _ _ _ _ _ => rfl⟩
    simp [usedBlocks_cons_of_ne]
  rw [← hend] at hplus ⊢
  simp only [hplus]
  exact .inr (hfsh.grown htop)

-- The break once it has been asked for.
theorem Seam.Growing.sbrk_zero {most : Nat} (hgr : S.Growing t most) (hmost : 0 < most) (r : ρ) :
    S.brk (S.sbrk r 0).2 = S.brk r ∧ ∀ p, (S.sbrk r 0).1 = some p → p = S.brk r := by
  rcases hgr.grow r 0 hmost with ⟨hno, hbrk⟩ | ⟨hso, hbrk⟩
  · refine ⟨hbrk, fun p hp => ?_⟩
    rw [Int.natCast_zero] at hno
    rw [hno] at hp
    cases hp
  refine ⟨hbrk, fun p hp => ?_⟩
  rw [Int.natCast_zero] at hso
  rw [hso] at hp
  injection hp with hp
  exact hp.symm

-- The last call of the opening: the break is known, and becomes the lower bound.
theorem ArenaRepr.openAt (hr : ArenaRepr t S h bs lists) (hcl : h.arenaLo = 0)
    (hgr : S.Growing t (2 ^ (8 * t.ptr - 1))) {r : ρ} (haln : S.brk r % 16 = 0)
    (hkn : (S.sbrk r 0).1 ≠ none) {p : Nat} (hp : p = (S.sbrk r 0).1.getD (t.addresses - 1)) :
    ArenaRepr t S { h with seam := (S.sbrk r 0).2, arenaLo := p, brkEnd := p } bs lists ∧ 0 < p := by
  obtain ⟨hbrk, hret⟩ := hgr.sbrk_zero (Nat.two_pow_pos _) r
  obtain ⟨q, hq⟩ := Option.ne_none_iff_exists'.mp hkn
  have hpos := hgr.pos r
  have hlow := hgr.below r
  have hpq : p = S.brk r := by
    rw [hp, hq]
    exact hret q hq
  exact ⟨hr.open hcl (hpq.trans hbrk.symm) (by omega) (by omega) (by omega), by omega⟩

theorem openArena_spec (hgr : S.Growing t (2 ^ (8 * t.ptr - 1))) (hok : ArenaOk t S h bs)
    (hcl : h.arenaLo = 0) : ArenaOk t S (openArena t S h).2 bs ∧ (openArena t S h).2.mem = h.mem ∧
      ((openArena t S h).1 = true → 0 < (openArena t S h).2.arenaLo) := by
  obtain ⟨⟨lists, hr⟩, hsettled⟩ := hok
  obtain ⟨hbrk, hret⟩ := hgr.sbrk_zero (Nat.two_pow_pos _) h.seam
  have hsy := hgr.steady h.seam 0
  unfold openArena sbrk align
  cases hask : (S.sbrk h.seam 0).1 with
  | none => exact ⟨⟨⟨lists, hr.withSeam hbrk⟩, hsettled⟩, rfl, fun h0 => absurd h0 Bool.false_ne_true⟩
  | some p =>
    have hp := hret p hask
    rw [hask] at hsy
    by_cases hmis : p % 16 = 0
    · simp only [hmis, ne_eq, not_true, if_false]
      obtain ⟨hopen, hpos⟩ := hr.openAt hcl hgr
        (by rw [hbrk, ← hp]; exact hmis) (hsy (Option.some_ne_none p)) rfl
      exact ⟨⟨⟨lists, hopen⟩, hsettled⟩, trivial, fun _ => hpos⟩
    simp only [ne_eq, hmis, not_false_eq_true, if_true]
    have hlt : 16 - p % 16 < 2 ^ (8 * t.ptr - 1) := by
      have h16 : 16 < 2 ^ (8 * t.ptr - 1) := by
        rcases t.ptr_eq with hptr | hptr <;> rw [hptr] <;> decide
      omega
    have hsy' := hgr.steady (S.sbrk h.seam 0).2 ((16 - p % 16 : Nat) : Int)
    rcases hgr.grow (S.sbrk h.seam 0).2 _ hlt with ⟨hno, hbrk'⟩ | ⟨hso, hbrk'⟩
    · rw [hno]
      refine ⟨⟨⟨lists, ?_⟩, hsettled⟩, rfl, fun h0 => absurd h0 Bool.false_ne_true⟩
      exact hr.withSeam (hbrk'.trans hbrk)
    rw [hso] at hsy' ⊢
    obtain ⟨hopen, hpos⟩ := hr.openAt hcl hgr (r := (S.sbrk (S.sbrk h.seam 0).2
      ((16 - p % 16 : Nat) : Int)).2) (by rw [hbrk', hbrk, ← hp]; omega)
      (hsy' (Option.some_ne_none _)) rfl
    exact ⟨⟨⟨lists, hopen⟩, hsettled⟩, rfl, fun _ => hpos⟩

theorem grow_spec (hsrc : Supplies t S need) (hok : ArenaOk t S h bs)
    (hneed : minblk t ≤ need ∧ need % 16 = 0) : Grows t S h bs need (grow t S h need) := by
  unfold grow
  by_cases hcl : h.arenaLo = 0
  · rw [if_pos hcl]
    have hsc := openArena_spec hsrc.growing hok hcl
    generalize openArena t S h = r at hsc
    obtain ⟨opened, h1⟩ := r
    obtain ⟨hok1, hmem, hpos⟩ := hsc
    cases opened with
    | false => exact .inl ⟨rfl, hmem, hok1⟩
    | true =>
      rcases extendArena_spec hsrc hok1 (hpos rfl) hneed with ⟨hff, hmem1, hok2⟩ | hgrown
      · exact .inl ⟨hff, hmem1.trans hmem, hok2⟩
      · have hkp : Kept h h1 bs bs := ⟨rfl, fun _ _ x _ _ => congrFun hmem x⟩
        exact .inr (hkp.grown hgrown)
  · rw [if_neg hcl]
    exact extendArena_spec hsrc hok (pos_of_ne_zero hcl) hneed

/-! ## Allocation -/

/-- A block of at least `need` bytes is off its list and in the hands of `malloc`. -/
def Takes (t : DataModel) (S : Seam ρ) (h : Arena ρ) (bs : List HeapBlock) (need : Nat)
    (r : Nat × Arena ρ) : Prop :=
  ∃ xs b ys lists, r.1 = b.start ∧ b.state = .loose ∧ need ≤ b.size ∧
    ArenaRepr t S r.2 (xs ++ b :: ys) lists ∧ TagsOk t r.2.mem b 0 ∧
    (∀ c ∈ xs ++ ys, c.state ≠ .loose) ∧ (∀ c ∈ ys.head?, c.state ≠ .filed) ∧
    Kept h r.2 bs (xs ++ b :: ys)

theorem ArenaOk.takes (hok : ArenaOk t S h bs) (hb : b ∈ bs) (hfil : b.state = .filed)
    (hfit : need ≤ b.size) : Takes t S h bs need (b.start, unlinkFree t h b.start) := by
  obtain ⟨⟨lists, hr⟩, hsettled⟩ := hok
  obtain ⟨xs, ys, rfl⟩ := append_of_mem hb
  obtain ⟨⟨lists', hr'⟩, htg, hkp⟩ := hr.unlink hfil
  exact ⟨xs, { b with state := .loose }, ys, lists', rfl, rfl, hfit, hr', htg,
    fun c hc => hsettled c (mem_middle.mpr (.inr hc)), (hr.separated.neighbours hfil).2, hkp⟩

theorem mallocLoop_spec (hsrc : Supplies t S need) (hok : ArenaOk t S h bs)
    (hneed : minblk t ≤ need ∧ need % 16 = 0) (fuel : Nat) :
    ∃ r, mallocLoop t S need (fuel + 2) h = some r ∧
      ((r.1 = 0 ∧ r.2.mem = h.mem ∧ ArenaOk t S r.2 bs) ∨ Takes t S h bs need r) := by
  have hpos : ∀ {h1 : Arena ρ} {bs1 : List HeapBlock}, ArenaOk t S h1 bs1 → ∀ b ∈ bs1, b.start ≠ 0 := by
    rintro h1 bs1 ⟨⟨lists, hr⟩, -⟩ b hb
    exact (hr.bounds hb).1.ne'
  rw [mallocLoop]
  obtain ⟨lists, hr⟩ := hok.repr
  rcases takeFit_spec hr hneed.2 with ⟨hno, -⟩ | ⟨b, hb, hfil, hfit, hta⟩
  · rw [hno]
    simp only [ne_eq, not_true, if_false]
    have hgr := grow_spec hsrc hok hneed
    generalize grow t S h _ = g at hgr
    obtain ⟨grew, h1⟩ := g
    rcases hgr with ⟨rfl, hmem, hok1⟩ | ⟨rfl, bs1, hok1, hkp, c, hc, hcfiled, hcfit⟩
    · obtain ⟨⟨lists1, hr1⟩, hsettled1⟩ := hok1
      exact ⟨_, rfl, .inl ⟨rfl, hmem, ⟨lists1, { hr1 with }⟩, hsettled1⟩⟩
    -- now there is a block
    show ∃ r, mallocLoop t S need (fuel + 1) h1 = some r ∧ _
    rw [mallocLoop]
    obtain ⟨lists1, hr1⟩ := hok1.repr
    rcases takeFit_spec hr1 hneed.2 with ⟨-, hsm⟩ | ⟨b, hb, hfil, hfit, hta⟩
    · have := hsm c hc hcfiled
      omega
    rw [hta]
    refine ⟨_, if_pos (hpos hok1 b hb), .inr ?_⟩
    obtain ⟨xs, b', ys, lists', hbeg, hloose, hfit', hr', htg, hset, hri, hkp'⟩ :=
      hok1.takes hb hfil hfit
    exact ⟨xs, b', ys, lists', hbeg, hloose, hfit', hr', htg, hset, hri, hkp.trans hkp'⟩
  · rw [hta]
    exact ⟨_, if_pos (hpos hok b hb), .inr (hok.takes hb hfil hfit)⟩

/-- The call returned the payload of a block that was not in use; the others keep their bytes. -/
def Delivers (t : DataModel) (S : Seam ρ) (h : Arena ρ) (bs : List HeapBlock) (need : Nat)
    (r : Nat × Arena ρ) : Prop :=
  ∃ bs' b, r.1 = b.start + 16 ∧ ArenaOk t S r.2 bs' ∧ need ≤ b.size ∧
    (usedBlocks bs').Perm (b :: usedBlocks bs) ∧ ∀ c ∈ usedBlocks bs, SameBlock h.mem r.2.mem c

theorem ArenaRepr.deliver {h0 : Arena ρ} (hr : ArenaRepr t S h (xs ++ b :: ys) lists)
    (hb : b.state = .loose) (hfit : need ≤ b.size) (hsettled : ∀ c ∈ xs ++ ys, c.state ≠ .loose)
    (hkp : Kept h0 h bs (xs ++ b :: ys)) (peak : Nat) :
    Delivers t S h0 bs need (plus t b.start align, { setHdr t h b.start b.size true with
      live := plus t h.live ((setHdr t h b.start b.size true).bsize t b.start), peak := peak }) := by
  obtain ⟨hus, hsame⟩ := hr.handOut hb _
  have hmem : ({ b with state := .used } : HeapBlock) ∈ xs ++ { b with state := .used } :: ys :=
    mem_middle.mpr (.inl rfl)
  have hbnd := hus.bounds hmem
  have hmin := minblk_cases t
  simp only [show ({ b with state := .used } : HeapBlock).stop = b.stop from rfl] at hbnd
  -- what is in use stays below the break, so the counter does not wrap
  have hbs := hus.tiles.usedBytes_le
  rw [← hus.live] at hbs
  have hlv : h.live + b.size < t.addresses :=
    lt_of_le_of_lt ((Nat.le_add_left _ _).trans hbs) hus.below
  have hsz : (setHdr t h b.start b.size true).bsize t b.start = b.size :=
    (hus.tags_eq hmem BlockState.noConfusion).1
  rw [hsz, plus_of_lt (show b.start + align < t.addresses by unfold align; omega), plus_of_lt hlv]
  refine ⟨_, { b with state := .used }, rfl, ⟨⟨lists, hus⟩, ?_⟩, hfit, ?_, ?_⟩
  · exact forall_mem_middle.mpr ⟨BlockState.noConfusion, hsettled⟩
  · rw [← hkp.used, usedBlocks_append, usedBlocks_append, usedBlocks_cons_used rfl,
      usedBlocks_cons_of_ne (by rw [hb]; decide)]
    exact perm_middle
  · intro c hc x hx hx'
    exact (hsame c (hkp.used ▸ hc) x hx hx').trans (hkp.bytes c hc x hx hx')

theorem mallocTake_spec {r : Nat × Arena ρ} (htk : Takes t S h bs need r)
    (hneed : minblk t ≤ need ∧ need % 16 = 0) : Delivers t S h bs need (mallocTake t r.2 need r.1) := by
  obtain ⟨xs, b, ys, lists, hbeg, hb, hfit, hr, htg, hsettled, hri, hkp⟩ := htk
  have hbnd := hr.bounds (mem_middle.mpr (.inl rfl))
  have hsz : r.2.bsize t b.start = b.size := htg.bsize (by omega) (by omega)
  unfold mallocTake
  simp only [hbeg, hsz]
  rw [minus_of_le hfit (by omega)]
  by_cases hspl : minblk t ≤ b.size - need
  · rw [if_pos hspl, plus_of_lt (show b.start + need < t.addresses by omega)]
    have hcut := hr.cut hb hneed (by omega)
    rw [show ∀ x y, xs ++ x :: y :: ys = (xs ++ [x]) ++ y :: ys by simp] at hcut
    obtain ⟨⟨lists', hfil⟩, hkp'⟩ := hcut.file rfl
      (by rw [getLast?_concat]; rintro c ⟨⟩; exact BlockState.noConfusion) hri
    have hcutKept : Kept r.2 r.2 (xs ++ b :: ys)
        (xs ++ [⟨b.start, need, .loose⟩] ++ ⟨b.start + need, b.size - need, .loose⟩ :: ys) := by
      refine ⟨?_, fun _ _ _ _ _ => rfl⟩
      simp [usedBlocks_cons_of_ne, hb]
    have hall := hkp.trans (hcutKept.trans hkp')
    rw [append_assoc, singleton_append] at hfil hall
    refine hfil.deliver rfl le_rfl ?_ hall _
    refine forall_mem_middle.mpr ⟨BlockState.noConfusion, hsettled⟩
  · rw [if_neg hspl]
    exact hr.deliver hb hfit hsettled hkp _

/-! ## Sizes -/

/-- A request that leaves room for the header, the footer and the rounding in a `size_t`. -/
def Fits (t : DataModel) (nbytes : Nat) : Prop := nbytes + 31 + t.ptr < t.addresses

instance (t : DataModel) (nbytes : Nat) : Decidable (Fits t nbytes) := inferInstanceAs (Decidable (_ < _))

theorem toNat_ofNat_of_le (t : DataModel) {v : Nat} (hv : v ≤ 16) :
    (BitVec.ofNat (8 * t.ptr) v).toNat = v := by
  have hmin := minblk_cases t
  apply Nat.mod_eq_of_lt
  show v < t.addresses
  omega

theorem toNat_roundUp (x : BitVec (8 * t.ptr)) :
    (roundUp t x (BitVec.ofNat _ align)).toNat = (x.toNat + 15) % t.addresses / 16 * 16 := by
  have hptr : 4 < 8 * t.ptr := by rcases t.ptr_eq with h | h <;> omega
  have hmin := minblk_cases t
  have haln : BitVec.ofNat (8 * t.ptr) align = 1#(8 * t.ptr) <<< 4 := by
    apply BitVec.eq_of_toNat_eq
    rw [toNat_one_shiftLeft hptr]
    exact toNat_ofNat_of_le t le_rfl
  have hsum : (x + 1#(8 * t.ptr) <<< 4 - 1).toNat = (x.toNat + 15) % t.addresses := by
    have h1 : (1 : BitVec (8 * t.ptr)).toNat = 1 := toNat_ofNat_of_le t (by decide)
    rw [BitVec.toNat_sub, BitVec.toNat_add, toNat_one_shiftLeft hptr, h1]
    show (t.addresses - 1 + (x.toNat + 2 ^ 4) % t.addresses) % t.addresses = _
    rcases hmin with ⟨-, -, had⟩ | ⟨-, -, had⟩ <;> rw [had] <;> omega
  rw [haln]
  exact (toNat_and_not_lowMask _ hptr).trans (by rw [hsum]; rfl)

variable (nbytes : BitVec (8 * t.ptr))

theorem mallocNeed_eq :
    mallocNeed t nbytes = max (minblk t) ((nbytes.toNat + 31 + t.ptr) % t.addresses / 16 * 16) := by
  have hmin := minblk_cases t
  have hsum : (nbytes + BitVec.ofNat _ align + BitVec.ofNat _ (foot t)).toNat =
      (nbytes.toNat + 16 + t.ptr) % t.addresses := by
    rw [BitVec.toNat_add, BitVec.toNat_add, toNat_ofNat_of_le t (show align ≤ 16 from le_rfl),
      toNat_ofNat_of_le t (show foot t ≤ 16 by unfold foot; omega)]
    exact Nat.mod_add_mod _ _ _
  unfold mallocNeed
  simp only [toNat_roundUp, hsum, Nat.mod_add_mod]
  rw [show nbytes.toNat + 16 + t.ptr + 15 = nbytes.toNat + 31 + t.ptr by omega]
  split <;> omega

theorem mallocNeed_spec :
    minblk t ≤ mallocNeed t nbytes ∧ mallocNeed t nbytes % 16 = 0 ∧ mallocNeed t nbytes < t.addresses ∧
      (Fits t nbytes.toNat → nbytes.toNat + 16 + t.ptr ≤ mallocNeed t nbytes) ∧
      (¬ Fits t nbytes.toNat → mallocNeed t nbytes = minblk t) := by
  have hn : nbytes.toNat < t.addresses := nbytes.isLt
  unfold Fits
  rw [mallocNeed_eq]
  rcases minblk_cases t with ⟨hptr, hmin, had⟩ | ⟨hptr, hmin, had⟩
  · rw [had] at hn ⊢
    omega
  · rw [had] at hn ⊢
    omega

/-- A call that allocates: it returns `NULL` and leaves memory and blocks, or it delivers a block. -/
def Allocates (t : DataModel) (S : Seam ρ) (h : Arena ρ) (bs : List HeapBlock) (need : Nat)
    (r : Nat × Arena ρ) : Prop :=
  (r.1 = 0 ∧ r.2.mem = h.mem ∧ ArenaOk t S r.2 bs) ∨ Delivers t S h bs need r

variable {nbytes : BitVec (8 * t.ptr)}

theorem malloc_spec (hsrc : Supplies t S (mallocNeed t nbytes)) (hok : ArenaOk t S h bs) :
    ∃ r, malloc t S h nbytes = some r ∧ Allocates t S h bs (mallocNeed t nbytes) r := by
  unfold malloc
  by_cases hz : nbytes = 0
  · rw [if_pos hz]
    exact ⟨_, rfl, .inl ⟨rfl, rfl, hok⟩⟩
  rw [if_neg hz]
  obtain ⟨hmin, hmul, -⟩ := mallocNeed_spec _
  obtain ⟨fuel, hfu⟩ : ∃ f, t.addresses = f + 2 := by
    have := minblk_cases t
    exact ⟨t.addresses - 2, by omega⟩
  obtain ⟨⟨a, h1⟩, hlp, hr⟩ := mallocLoop_spec hsrc hok ⟨hmin, hmul⟩ fuel
  rw [hfu, hlp]
  rcases hr with ⟨rfl, hmem, hok1⟩ | htk
  · exact ⟨_, rfl, .inl ⟨rfl, hmem, hok1⟩⟩
  have hdeliver := mallocTake_spec htk ⟨hmin, hmul⟩
  obtain ⟨xs, b, ys, lists, hbeg, -, -, hr, -⟩ := htk
  have hne : a ≠ 0 := by
    rw [show a = b.start from hbeg]
    exact (hr.bounds (mem_middle.mpr (.inl rfl))).1.ne'
  obtain ⟨a, rfl⟩ := Nat.exists_eq_succ_of_ne_zero hne
  exact ⟨_, rfl, .inr hdeliver⟩

/-! ## Freeing -/

-- The state of a block that is settled, by its in-use bit.
theorem freeForward_spec (hr : ArenaRepr t S h (xs ++ b :: ys) lists) (hb : b.state = .loose)
    (hsettled : ∀ c ∈ ys, c.state ≠ .loose) : ∃ ys' lists', ArenaRepr t S (freeForward t h b.start b.size).2
        (xs ++ ⟨b.start, (freeForward t h b.start b.size).1, .loose⟩ :: ys') lists' ∧
      (∀ c ∈ ys', c ∈ ys) ∧ (∀ c ∈ ys'.head?, c.state ≠ .filed) ∧
      Kept h (freeForward t h b.start b.size).2 (xs ++ b :: ys)
        (xs ++ ⟨b.start, (freeForward t h b.start b.size).1, .loose⟩ :: ys') := by
  have hbnd := hr.bounds (mem_middle.mpr (.inl rfl))
  have hblk : b = ⟨b.start, b.size, .loose⟩ := by rw [← hb]
  obtain ⟨k, -, -, -, htl⟩ := tiles_append.mp hr.tiles
  unfold freeForward
  rw [plus_of_lt (by omega), show b.start + b.size = b.stop from rfl]
  cases ys with
  | nil =>
    -- the block is the last one
    have hend : b.stop = h.brkEnd := htl
    rw [if_neg (by omega), ← hblk]
    exact ⟨[], lists, hr, fun c hc => hc, by simp, rfl, fun _ _ _ _ _ => rfl⟩
  | cons d ys =>
    have hd : d ∈ xs ++ b :: d :: ys := by simp
    have hdbounds := hr.bounds hd
    have hmin := minblk_cases t
    have hbeg : d.start = b.stop := htl.1
    obtain ⟨-, hus, -⟩ := hr.tags_eq hd (hsettled d mem_cons_self)
    rw [← hbeg]
    simp only [hus]
    by_cases hst : d.state = .used
    · rw [if_neg (by simp [hst]), ← hblk]
      refine ⟨d :: ys, lists, hr, fun c hc => hc, ?_, rfl, fun _ _ _ _ _ => rfl⟩
      rintro c ⟨⟩
      rw [hst]
      decide
    have hfil := filed_of_not_used (hsettled d mem_cons_self) hst
    rw [if_pos ⟨by omega, by simpa using hst⟩]
    have hspl := hr
    rw [show xs ++ b :: d :: ys = (xs ++ [b]) ++ d :: ys by simp] at hspl
    have hri := (hspl.separated.neighbours hfil).2
    obtain ⟨⟨lists', hr'⟩, htg, hkp⟩ := hspl.unlink hfil
    have hsz' : (unlinkFree t h d.start).bsize t d.start = d.size := htg.bsize (by omega) (by omega)
    rw [append_assoc, singleton_append] at hr'
    simp only [hsz']
    rw [plus_of_lt (by omega)]
    refine ⟨ys, lists', hr'.join hb rfl, fun c hc => mem_cons_of_mem _ hc, hri, ?_⟩
    rw [show xs ++ b :: d :: ys = (xs ++ [b]) ++ d :: ys by simp]
    refine hkp.trans ⟨?_, fun _ _ _ _ _ => rfl⟩
    simp [usedBlocks_cons_of_ne, hb]

theorem freeBackward_spec (hr : ArenaRepr t S h (xs ++ b :: ys) lists) (hb : b.state = .loose)
    (hsettled : ∀ c ∈ xs ++ ys, c.state ≠ .loose) (hri : ∀ c ∈ ys.head?, c.state ≠ .filed) :
    ∃ bs', ArenaOk t S (freeBackward t h b.start b.size) bs' ∧
      Kept h (freeBackward t h b.start b.size) (xs ++ b :: ys) bs' := by
  have halo : (∀ c ∈ xs.getLast?, c.state ≠ .filed) → ∃ bs',
      ArenaOk t S (pushFree t (setHdr t h b.start b.size false) b.start) bs' ∧
      Kept h (pushFree t (setHdr t h b.start b.size false) b.start) (xs ++ b :: ys) bs' := by
    intro hlf
    obtain ⟨hfil, hkp⟩ := hr.file hb hlf hri
    exact ⟨_, ⟨hfil, forall_mem_middle.mpr ⟨BlockState.noConfusion, hsettled⟩⟩, hkp⟩
  unfold freeBackward
  rcases eq_nil_or_concat' xs with rfl | ⟨l, d, rfl⟩
  · have hfst : b.start = h.arenaLo := hr.tiles.1
    rw [if_neg (by omega)]
    exact halo (by simp)
  rw [append_assoc, singleton_append] at hr
  have hds := hsettled d (by simp)
  obtain ⟨habv, hfo, hprev, hus, hsum⟩ := hr.under hds
  rw [if_pos habv]
  simp only [hfo, hprev, hus]
  by_cases hst : d.state = .used
  · rw [if_neg (by simp [hst])]
    apply halo
    rw [getLast?_concat]
    rintro c ⟨⟩
    rw [hst]
    decide
  rw [if_pos (by simpa using hst), plus_of_lt (by omega), add_comm _]
  obtain ⟨hfil, hkp⟩ := hr.fileWithFront (filed_of_not_used hds hst) hb hri
  rw [append_assoc, singleton_append]
  refine ⟨_, ⟨hfil, forall_mem_middle.mpr ⟨BlockState.noConfusion, fun c hc => ?_⟩⟩, hkp⟩
  apply hsettled c
  rcases mem_append.mp hc with hc | hc
  · exact mem_append_left _ (mem_append_left _ hc)
  · exact mem_append_right _ hc

def Frees (t : DataModel) (S : Seam ρ) (h : Arena ρ) (bs : List HeapBlock) (b : HeapBlock)
    (h' : Arena ρ) : Prop :=
  ∃ bs', ArenaOk t S h' bs' ∧ (usedBlocks bs).Perm (b :: usedBlocks bs') ∧
    ∀ c ∈ usedBlocks bs', SameBlock h.mem h'.mem c

theorem free_spec (hok : ArenaOk t S h bs) (hb : b ∈ usedBlocks bs) :
    Frees t S h bs b (free t h (b.start + 16)) := by
  obtain ⟨⟨lists, hr⟩, hsettled⟩ := hok
  obtain ⟨hmem, hst⟩ := mem_usedBlocks.mp hb
  have hbnd := hr.bounds hmem
  have hmin := minblk_cases t
  obtain ⟨-, hus, -⟩ := hr.tags_eq hmem (hsettled b hmem)
  have hlv := hr.tiles.usedBytes_le
  rw [← hr.live] at hlv
  have hlow := hr.below
  unfold free align
  rw [if_neg (by omega), minus_of_le (by omega) (by omega), Nat.add_sub_cancel]
  simp only [hus]
  rw [if_neg (by simp [hst])]
  obtain ⟨xs, ys, rfl⟩ := append_of_mem hmem
  have hbs := hr.live
  rw [usedBytes_append, usedBytes_cons, if_pos hst] at hbs
  obtain ⟨hr1, htg, hsame⟩ := hr.retire hst rfl
  have hsz : (h.setWord t b.start (Mem.load t.endian t.ptr h.mem b.start / 2 * 2)).bsize t b.start =
      b.size := TagsOk.bsize htg (by omega) (by omega)
  rw [hsz, minus_of_le (by show b.size ≤ h.live; omega) (by show h.live < _; omega)]
  -- both neighbours may be joined
  obtain ⟨ys', lists2, hr2, hsub, hri, hkept2⟩ := freeForward_spec hr1 rfl
    fun c hc => hsettled c (by simp [hc])
  obtain ⟨bs', hok', hkept3⟩ := freeBackward_spec hr2 rfl (fun c hc => hsettled c (by
    rcases mem_append.mp hc with hc | hc
    · simp [hc]
    · simp [hsub c hc])) hri
  have hkp := hkept2.trans hkept3
  have hrs : usedBlocks bs' = usedBlocks (xs ++ ys) := by
    rw [hkp.used, usedBlocks_append, usedBlocks_append, usedBlocks_cons_of_ne BlockState.noConfusion]
  refine ⟨bs', hok', ?_, fun c hc x hx hx' => ?_⟩
  · rw [hrs, usedBlocks_append, usedBlocks_append, usedBlocks_cons_used hst]
    exact perm_middle
  have hc' := hc
  rw [hrs] at hc'
  rw [hkp.used] at hc
  exact (hkp.bytes c hc x hx hx').trans (hsame c (mem_usedBlocks.mp hc').1 x hx hx')

/-! ## Payloads -/

theorem ArenaOk.withMem (hok : ArenaOk t S h bs) (hb : b ∈ usedBlocks bs) {mem : Mem}
    (hmem : ∀ x, x < b.start + 16 ∨ b.stop ≤ x + t.ptr → mem x = h.mem x) :
    ArenaOk t S { h with mem := mem } bs := by
  obtain ⟨⟨lists, hr⟩, hsettled⟩ := hok
  obtain ⟨hin, hst⟩ := mem_usedBlocks.mp hb
  have hmin := minblk_cases t
  obtain ⟨xs, ys, rfl⟩ := append_of_mem hin
  have hsame : ({ b with state := .used } : HeapBlock) = b := by rw [← hst]
  have hnew : ArenaRepr t S { h with mem := mem } (xs ++ { b with state := .used } :: ys) lists := by
    refine hr.restate (by rw [hst]; decide) (by decide) rfl ⟨rfl, rfl, rfl⟩ ?_ ?_ ?_
    · exact fun x hx => hmem x (by omega)
    · rw [hsame]
      -- neither tag is in the payload
      apply (hr.tags b hin).congr
      · exact Mem.load_congr fun x hx hx' => hmem x (by omega)
      · exact Mem.load_congr fun x hx hx' => hmem x (by omega)
    · rw [hsame]
  rw [hsame] at hnew
  exact ⟨⟨lists, hnew⟩, hsettled⟩

-- Another block in use does not have the bytes of a payload.
theorem ArenaOk.sameBlock_of_payload (hok : ArenaOk t S h bs) (hb : b ∈ usedBlocks bs)
    (hc : c ∈ usedBlocks bs) (hne : c.start ≠ b.start) {mem : Mem}
    (hmem : ∀ x, x < b.start + 16 ∨ b.stop ≤ x + t.ptr → mem x = h.mem x) : SameBlock h.mem mem c := by
  obtain ⟨⟨lists, hr⟩, -⟩ := hok
  have hap := hr.apart (mem_usedBlocks.mp hb).1 (mem_usedBlocks.mp hc).1 hne
  exact fun x hx hx' => hmem x (by omega)

-- The block delivered is in use now, and has another address than those in use before.
theorem fresh_of_perm (hok : ArenaOk t S h bs) (hpm : (usedBlocks bs).Perm (b :: usedBlocks bs')) :
    b ∈ usedBlocks bs ∧ ∀ c ∈ usedBlocks bs', c ∈ usedBlocks bs ∧ c.start ≠ b.start := by
  obtain ⟨⟨lists, hr⟩, -⟩ := hok
  refine ⟨hpm.mem_iff.mpr mem_cons_self, fun c hc => ?_⟩
  have hcin : c ∈ usedBlocks bs := hpm.mem_iff.mpr (mem_cons_of_mem _ hc)
  refine ⟨hcin, fun heq => ?_⟩
  have hbin : b ∈ usedBlocks bs := hpm.mem_iff.mpr mem_cons_self
  have hcb : c = b := hr.tiles.eq_of_start (mem_usedBlocks.mp hcin).1 (mem_usedBlocks.mp hbin).1 heq
  -- no block is twice in the heap
  have hnd : (usedBlocks bs).Nodup := by
    apply List.Nodup.filter
    refine hr.tiles.pairwise.imp_of_mem fun {x y} hx hy hxy heq' => ?_
    have hpos := (hr.tiles.bounds hx).2.2
    rw [heq'] at hxy hpos
    unfold HeapBlock.stop at hxy
    omega
  have hcons := hpm.nodup_iff.mp hnd
  exact (nodup_cons.mp hcons).1 (hcb ▸ hc)

theorem Delivers.withMem {p : Nat} {mem : Mem} {n : Nat} (hd : Delivers t S h bs need (p, h'))
    (hn : n + 16 + t.ptr ≤ need) (hmem : ∀ x, x < p ∨ p + n ≤ x → mem x = h'.mem x) :
    Delivers t S h bs need (p, { h' with mem := mem }) := by
  obtain ⟨bs', b, rfl, hok, hfit, hpm, hbs⟩ := hd
  obtain ⟨hb, hot⟩ := fresh_of_perm hok hpm
  have hmem' : ∀ x, x < b.start + 16 ∨ b.stop ≤ x + t.ptr → mem x = h'.mem x := by
    intro x hx
    apply hmem
    unfold HeapBlock.stop at hx
    omega
  refine ⟨bs', b, rfl, hok.withMem hb hmem', hfit, hpm, fun c hc x hx hx' => ?_⟩
  obtain ⟨hcin, hne⟩ := hot c hc
  exact (hok.sameBlock_of_payload hb hcin hne hmem' x hx hx').trans (hbs c hc x hx hx')

theorem calloc_spec {n size : BitVec (8 * t.ptr)} (hsrc : Supplies t S (mallocNeed t (n * size)))
    (hok : ArenaOk t S h bs) (hft : t.addresses ≤ n.toNat * size.toNat ∨ Fits t (n.toNat * size.toNat)) :
    ∃ r, calloc t S h n size = some r ∧ Allocates t S h bs (n.toNat * size.toNat + 16 + t.ptr) r ∧
      (r.1 ≠ 0 → ∀ i < n.toNat * size.toNat, r.2.mem (r.1 + i) = 0) := by
  unfold calloc
  have htot : (n * size).toNat = n.toNat * size.toNat % t.addresses := BitVec.toNat_mul ..
  by_cases hov : n ≠ 0 ∧ (n * size).toNat / n.toNat ≠ size.toNat
  · rw [if_pos hov]
    exact ⟨_, rfl, .inl ⟨rfl, rfl, hok⟩, fun hne => absurd rfl hne⟩
  rw [if_neg hov]
  -- the division shows that the product did not wrap
  have hex : (n * size).toNat = n.toNat * size.toNat := by
    apply Nat.mod_eq_of_lt
    by_cases hz : n.toNat = 0
    · rw [hz, zero_mul]
      exact Nat.two_pow_pos _
    have hdiv : (n * size).toNat / n.toNat = size.toNat := by
      by_contra hne
      exact hov ⟨fun h0 => hz (by rw [h0]; rfl), hne⟩
    have hle := Nat.div_mul_le_self (n * size).toNat n.toNat
    rw [hdiv, mul_comm] at hle
    exact hle.trans_lt (n * size).isLt
  have hfit : Fits t (n * size).toNat := by
    rw [hex]
    refine hft.resolve_left fun hge => ?_
    have hlt : (n * size).toNat < t.addresses := (n * size).isLt
    omega
  have hneed := (mallocNeed_spec _).2.2.2.1 hfit
  rw [hex] at hneed
  obtain ⟨⟨p, h'⟩, hmal, hr⟩ := malloc_spec hsrc hok
  rw [hmal]
  rcases hr with ⟨rfl, hmem, hok'⟩ | hd
  · exact ⟨_, rfl, .inl ⟨rfl, hmem, hok'⟩, fun hne => absurd rfl hne⟩
  obtain ⟨bs', b, hp, hrs⟩ := hd
  have hpb : p = b.start + 15 + 1 := hp
  subst hpb
  refine ⟨_, rfl, .inr ?_, fun _ i hi => ?_⟩
  · have hd' : Delivers t S h bs (n.toNat * size.toNat + 16 + t.ptr) (b.start + 16, h') := by
      obtain ⟨hok', hrm, hpm, hbs⟩ := hrs
      exact ⟨bs', b, rfl, hok', hneed.trans hrm, hpm, hbs⟩
    refine hd'.withMem le_rfl fun x hx => Mem.write_outside ?_
    rw [length_replicate, hex]
    exact hx
  · refine (Mem.write_inside (by rw [length_replicate, hex]; exact hi)).trans ?_
    exact getElem_replicate ..

def Moves (t : DataModel) (S : Seam ρ) (h : Arena ρ) (bs : List HeapBlock) (c : HeapBlock)
    (need : Nat) (r : Nat × Arena ρ) : Prop :=
  ∃ bs' b, r.1 = b.start + 16 ∧ ArenaOk t S r.2 bs' ∧ need ≤ b.size ∧ b.start ≠ c.start ∧
    (c :: usedBlocks bs').Perm (b :: usedBlocks bs) ∧
    (∀ d ∈ usedBlocks bs, d.start ≠ c.start → SameBlock h.mem r.2.mem d) ∧
    ∀ i < c.size - 16 - t.ptr, r.2.mem (r.1 + i) = h.mem (c.start + 16 + i)

theorem Delivers.moves {p n : Nat} (hd : Delivers t S h bs need (p, h')) (hok : ArenaOk t S h bs)
    (hc : c ∈ usedBlocks bs) (hn : n = c.size - 16 - t.ptr) (hneed : n + 16 + t.ptr ≤ need) :
    Moves t S h bs c need (p, free t { h' with mem := h'.mem.copy p (c.start + 16) n } (c.start + 16)) := by
  have hcop : Delivers t S h bs need (p, { h' with mem := h'.mem.copy p (c.start + 16) n }) :=
    hd.withMem hneed fun x hx => Mem.copy_outside hx
  obtain ⟨bs1, b, hp, hok1, hfit, hpm, hbs⟩ := hcop
  have hpb : p = b.start + 16 := hp
  subst hpb
  obtain ⟨⟨_, hr1⟩, -⟩ := id hok1
  obtain ⟨⟨_, hr⟩, -⟩ := hok
  have hcbounds := hr.bounds (mem_usedBlocks.mp hc).1
  obtain ⟨hb, hot⟩ := fresh_of_perm hok1 hpm
  obtain ⟨hc1, hne⟩ := hot c hc
  have hbbounds := hr1.bounds (mem_usedBlocks.mp hb).1
  obtain ⟨bs', hok', hpm', hbs'⟩ := free_spec hok1 hc1
  -- a block in use other than `c` is still in use
  have hstl : ∀ d ∈ usedBlocks bs1, d.start ≠ c.start → d ∈ usedBlocks bs' := by
    intro d hd1 hdc
    exact (mem_cons.mp (hpm'.mem_iff.mp hd1)).resolve_left fun heq => hdc (heq ▸ rfl)
  refine ⟨bs', b, rfl, hok', hfit, hne.symm, hpm'.symm.trans hpm, fun d hd hdc x hx hx' => ?_,
    fun i hi => ?_⟩
  · exact (hbs' d (hstl d (hot d hd).1 hdc) x hx hx').trans (hbs d hd x hx hx')
  have hin := hbs' b (hstl b hb hne.symm) (b.start + 16 + i) (by omega) (by omega)
  refine hin.trans ((Mem.copy_inside (by omega)).trans ?_)
  obtain ⟨_, _, -, -, -, -, hbytes0⟩ := hd
  exact hbytes0 c hc _ (by omega) (by omega)

theorem realloc_spec (hsrc : Supplies t S (mallocNeed t nbytes))
    (hok : ArenaOk t S h bs) (hc : c ∈ usedBlocks bs) (hz : nbytes ≠ 0) (hft : Fits t nbytes.toNat) :
    ∃ r, realloc t S h (c.start + 16) nbytes = some r ∧ ((r.1 = 0 ∧ r.2.mem = h.mem ∧ ArenaOk t S r.2 bs) ∨
        (r = (c.start + 16, h) ∧ nbytes.toNat + 16 + t.ptr ≤ c.size) ∨
        Moves t S h bs c (nbytes.toNat + 16 + t.ptr) r) := by
  obtain ⟨⟨lists, hr⟩, hsettled⟩ := id hok
  have hcin := (mem_usedBlocks.mp hc).1
  have hbnd := hr.bounds hcin
  have hmin := minblk_cases t
  obtain ⟨hsz, -⟩ := hr.tags_eq hcin (hsettled c hcin)
  have hneed := (mallocNeed_spec _).2.2.2.1 hft
  unfold realloc align foot
  rw [if_neg (by omega), if_neg hz, minus_of_le (by omega) (by omega), Nat.add_sub_cancel]
  simp only [hsz]
  rw [minus_of_le (show 16 ≤ c.size by omega) (by omega), minus_of_le (by omega) (by omega)]
  by_cases hplc : nbytes.toNat ≤ c.size - 16 - t.ptr
  · rw [if_pos hplc]
    exact ⟨_, rfl, .inr (.inl ⟨rfl, by omega⟩)⟩
  rw [if_neg hplc]
  obtain ⟨⟨p, h'⟩, hmal, hr'⟩ := malloc_spec hsrc hok
  rw [hmal]
  rcases hr' with ⟨rfl, hmem, hok'⟩ | hd
  · exact ⟨_, rfl, .inl ⟨rfl, hmem, hok'⟩⟩
  have hmov := hd.moves hok hc rfl (by omega)
  obtain ⟨_, b, hp, -⟩ := hd
  have hpb : p = b.start + 15 + 1 := hp
  subst hpb
  refine ⟨_, rfl, .inr (.inr ?_)⟩
  obtain ⟨bs', b', hp', hok', hrm, hrs⟩ := hmov
  exact ⟨bs', b', hp', hok', hneed.trans hrm, hrs⟩

end Skjegg.Libc
