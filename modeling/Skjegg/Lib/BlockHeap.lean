import Mathlib.Data.List.Chain
import Mathlib.Tactic

/-!
# Heaps of blocks

What every segregated-fit allocator keeps: a range of addresses tiled by blocks, each in use, filed
on the free list of its class, or loose in the allocator's hands. An allocator takes a filed block
off its list, files a loose one, or replaces neighbouring blocks by others that cover them.
-/

namespace Skjegg.Lib

open Function
open List

/-- What the allocator holds a block as. -/
inductive BlockState
  | used
  | filed
  | loose
  deriving DecidableEq, Repr

structure HeapBlock where
  (start size : Nat)
  state : BlockState
  deriving DecidableEq, Repr

def HeapBlock.stop (b : HeapBlock) : Nat := b.start + b.size

/-! ## Tiling -/

/-- The blocks follow one another from `lo` to `hi`, with no gap and no overlap. -/
def Tiles : Nat → Nat → List HeapBlock → Prop
  | lo, hi, [] => lo = hi
  | lo, hi, b :: bs => b.start = lo ∧ 0 < b.size ∧ Tiles b.stop hi bs

section Tiling

variable {lo hi : Nat} {b c : HeapBlock} {bs xs ys mid mid' : List HeapBlock}

theorem tiles_append : Tiles lo hi (xs ++ ys) ↔ ∃ k, Tiles lo k xs ∧ Tiles k hi ys := by
  induction xs generalizing lo with
  | nil => exact ⟨fun h => ⟨lo, rfl, h⟩, fun ⟨_, hk, h⟩ => by rw [show lo = _ from hk]; exact h⟩
  | cons b xs ih =>
    simp only [cons_append, Tiles, ih]
    exact ⟨fun ⟨hs, hp, k, h1, h2⟩ => ⟨k, ⟨hs, hp, h1⟩, h2⟩,
      fun ⟨k, ⟨hs, hp, h1⟩, h2⟩ => ⟨hs, hp, k, h1, h2⟩⟩

theorem Tiles.le (h : Tiles lo hi bs) : lo ≤ hi := by
  induction bs generalizing lo with
  | nil => exact h.le
  | cons b bs ih =>
    obtain ⟨rfl, -, hbs⟩ := h
    exact (Nat.le_add_right _ _).trans (ih hbs)

theorem Tiles.bounds (h : Tiles lo hi bs) (hb : b ∈ bs) : lo ≤ b.start ∧ b.stop ≤ hi ∧ 0 < b.size := by
  obtain ⟨xs, ys, rfl⟩ := append_of_mem hb
  obtain ⟨k, h1, rfl, hpos, h2⟩ := tiles_append.mp h
  exact ⟨h1.le, h2.le, hpos⟩

theorem Tiles.pairwise (h : Tiles lo hi bs) : bs.Pairwise fun b c => b.stop ≤ c.start := by
  induction bs generalizing lo with
  | nil => exact List.Pairwise.nil
  | cons b bs ih =>
    obtain ⟨-, -, hbs⟩ := h
    exact List.Pairwise.cons (fun c hc => (hbs.bounds hc).1) (ih hbs)

theorem mem_middle : c ∈ xs ++ b :: ys ↔ c = b ∨ c ∈ xs ++ ys := by
  rw [perm_middle.mem_iff, mem_cons]

theorem forall_mem_middle {P : HeapBlock → Prop} :
    (∀ c ∈ xs ++ b :: ys, P c) ↔ P b ∧ ∀ c ∈ xs ++ ys, P c := by
  simp only [mem_middle, forall_eq_or_imp]

theorem Tiles.apart (h : Tiles lo hi (xs ++ b :: ys)) (hc : c ∈ xs ++ ys) :
    c.stop ≤ b.start ∨ b.stop ≤ c.start := by
  obtain ⟨-, htl, hcross⟩ := pairwise_append.mp h.pairwise
  rcases mem_append.mp hc with hc | hc
  · exact .inl (hcross c hc b mem_cons_self)
  · exact .inr (rel_of_pairwise_cons htl hc)

theorem Tiles.start_ne (h : Tiles lo hi (xs ++ b :: ys)) (hc : c ∈ xs ++ ys) : c.start ≠ b.start := by
  have hb := (h.bounds (mem_middle.mpr (.inl rfl))).2.2
  have hpos := (h.bounds (mem_middle.mpr (.inr hc))).2.2
  have hap := h.apart hc
  unfold HeapBlock.stop at hap
  omega

theorem Tiles.eq_of_start (h : Tiles lo hi bs) (hb : b ∈ bs) (hc : c ∈ bs)
    (hbeg : b.start = c.start) : b = c := by
  obtain ⟨xs, ys, rfl⟩ := append_of_mem hc
  rcases mem_middle.mp hb with heq | hb
  · exact heq
  · exact absurd hbeg (h.start_ne hb)

theorem Tiles.dvd_start {m : Nat} (h : Tiles lo hi bs) (hlo : m ∣ lo) (hszs : ∀ b ∈ bs, m ∣ b.size)
    (hb : b ∈ bs) : m ∣ b.start := by
  induction bs generalizing lo with
  | nil => exact absurd hb not_mem_nil
  | cons c bs ih =>
    obtain ⟨rfl, -, hbs⟩ := h
    have hc := hszs c mem_cons_self
    rcases mem_cons.mp hb with rfl | hb
    · exact hlo
    · exact ih hbs (dvd_add hlo hc) (fun d hd => hszs d (mem_cons_of_mem _ hd)) hb

theorem Tiles.replace (h : Tiles lo hi (xs ++ mid ++ ys))
    (hmid : ∀ lo' hi', Tiles lo' hi' mid → Tiles lo' hi' mid') : Tiles lo hi (xs ++ mid' ++ ys) := by
  obtain ⟨k, hk, h2⟩ := tiles_append.mp h
  obtain ⟨j, h1, hj⟩ := tiles_append.mp hk
  exact tiles_append.mpr ⟨k, tiles_append.mpr ⟨j, h1, hmid j k hj⟩, h2⟩

theorem Tiles.restate (h : Tiles lo hi (xs ++ b :: ys)) (s : BlockState) :
    Tiles lo hi (xs ++ { b with state := s } :: ys) := by
  obtain ⟨k, h1, hs, hpos, h2⟩ := tiles_append.mp h
  exact tiles_append.mpr ⟨k, h1, hs, hpos, h2⟩

end Tiling

/-! ## Filing -/

def Filed (cls : Nat → Nat) (bs : List HeapBlock) (lists : Nat → List Nat) : Prop :=
  ∀ k, (lists k).Nodup ∧ ∀ s, s ∈ lists k ↔ ∃ b ∈ bs, b.start = s ∧ b.state = .filed ∧ cls b.size = k

variable {bs : List HeapBlock}

section Filing

variable {lo hi : Nat} {b : HeapBlock} {xs ys mid mid' : List HeapBlock} {cls : Nat → Nat}
  {lists : Nat → List Nat}

theorem Filed.nil : Filed cls [] fun _ => [] := fun _ =>
  ⟨nodup_nil, fun _ => by simp⟩

-- No block is on two lists.
theorem Filed.list_unique (h : Filed cls bs lists) (ht : Tiles lo hi bs)
    {j k x : Nat} (hj : x ∈ lists j) (hk : x ∈ lists k) : j = k := by
  obtain ⟨c, hc, hbeg, -, hcls⟩ := ((h j).2 x).mp hj
  obtain ⟨c', hc', hbeg', -, hcls'⟩ := ((h k).2 x).mp hk
  rw [← hcls, ← hcls', ht.eq_of_start hc hc' (hbeg.trans hbeg'.symm)]

-- The nodes of a list are different addresses in the heap, so its span bounds their number.
theorem Filed.length_le (h : Filed cls bs lists) (ht : Tiles lo hi bs)
    (k : Nat) : (lists k).length ≤ hi - lo := by
  have hsub : (lists k).toFinset ⊆ Finset.Ico lo hi := by
    intro x hx
    obtain ⟨c, hc, rfl, -⟩ := ((h k).2 x).mp (mem_toFinset.mp hx)
    have hbnd := ht.bounds hc
    unfold HeapBlock.stop at hbnd
    exact Finset.mem_Ico.mpr (by omega)
  have hcard := Finset.card_le_card hsub
  rwa [toFinset_card_of_nodup (h k).1, Nat.card_Ico] at hcard

theorem Filed.unlink (h : Filed cls (xs ++ b :: ys) lists) (ht : Tiles lo hi (xs ++ b :: ys))
    {p1 p2 : List Nat} (hli : lists (cls b.size) = p1 ++ b.start :: p2) {s : BlockState}
    (hs : s ≠ .filed) :
    Filed cls (xs ++ { b with state := s } :: ys) (update lists (cls b.size) (p1 ++ p2)) := by
  intro k
  have hoth : ∀ x, (∃ c ∈ xs ++ { b with state := s } :: ys,
      c.start = x ∧ c.state = .filed ∧ cls c.size = k) ↔
      x ≠ b.start ∧ ∃ c ∈ xs ++ b :: ys, c.start = x ∧ c.state = .filed ∧ cls c.size = k := by
    intro x
    simp only [mem_middle]
    constructor
    · rintro ⟨c, rfl | hc, rfl, hst, hcls⟩
      · exact absurd hst hs
      · exact ⟨ht.start_ne hc, c, .inr hc, rfl, hst, hcls⟩
    · rintro ⟨hne, c, rfl | hc, rfl, hst, hcls⟩
      · exact absurd rfl hne
      · exact ⟨c, .inr hc, rfl, hst, hcls⟩
  obtain ⟨hnd, hmem⟩ := h k
  by_cases hk : k = cls b.size
  · subst hk
    rw [hli] at hnd hmem
    have hpm : (p1 ++ b.start :: p2).Perm (b.start :: (p1 ++ p2)) := perm_middle
    have hnew := nodup_cons.mp (hpm.nodup_iff.mp hnd)
    rw [update_self]
    refine ⟨hnew.2, fun x => ?_⟩
    rw [hoth, ← hmem, hpm.mem_iff, mem_cons]
    refine ⟨fun hx => ⟨fun heq => hnew.1 (heq ▸ hx), .inr hx⟩, fun ⟨hne, hx⟩ => ?_⟩
    exact hx.resolve_left hne
  · rw [update_of_ne hk]
    refine ⟨hnd, fun x => ?_⟩
    rw [hoth, ← hmem]
    refine ⟨fun hx => ⟨?_, hx⟩, fun hx => hx.2⟩
    -- a block of another class has another address
    rintro rfl
    obtain ⟨c, hc, hbeg, -, hcls⟩ := (hmem _).mp hx
    rw [ht.eq_of_start hc (mem_middle.mpr (.inl rfl)) hbeg] at hcls
    exact hk hcls.symm

theorem Filed.push (h : Filed cls (xs ++ b :: ys) lists) (ht : Tiles lo hi (xs ++ b :: ys))
    (hb : b.state ≠ .filed) :
    Filed cls (xs ++ { b with state := .filed } :: ys)
      (update lists (cls b.size) (b.start :: lists (cls b.size))) := by
  intro k
  obtain ⟨hnd, hmem⟩ := h k
  have hoth : ∀ x, (∃ c ∈ xs ++ { b with state := .filed } :: ys,
      c.start = x ∧ c.state = .filed ∧ cls c.size = k) ↔
      (x = b.start ∧ k = cls b.size) ∨
        ∃ c ∈ xs ++ b :: ys, c.start = x ∧ c.state = .filed ∧ cls c.size = k := by
    intro x
    simp only [mem_middle]
    constructor
    · rintro ⟨c, rfl | hc, rfl, hst, hcls⟩
      · exact .inl ⟨rfl, hcls.symm⟩
      · exact .inr ⟨c, .inr hc, rfl, hst, hcls⟩
    · rintro (⟨rfl, rfl⟩ | ⟨c, rfl | hc, rfl, hst, hcls⟩)
      · exact ⟨_, .inl rfl, rfl, rfl, rfl⟩
      · exact absurd hst hb
      · exact ⟨c, .inr hc, rfl, hst, hcls⟩
  by_cases hk : k = cls b.size
  · subst hk
    rw [update_self]
    refine ⟨nodup_cons.mpr ⟨fun hx => ?_, hnd⟩, fun x => ?_⟩
    · obtain ⟨c, hc, hbeg, hst, -⟩ := (hmem _).mp hx
      rw [ht.eq_of_start hc (mem_middle.mpr (.inl rfl)) hbeg] at hst
      exact hb hst
    · rw [hoth, ← hmem, mem_cons]
      simp
  · rw [update_of_ne hk]
    refine ⟨hnd, fun x => ?_⟩
    rw [hoth, ← hmem]
    simp [hk]

theorem Filed.reshape (h : Filed cls (xs ++ mid ++ ys) lists)
    (hmid : ∀ c ∈ mid, c.state ≠ .filed) (hmid' : ∀ c ∈ mid', c.state ≠ .filed) :
    Filed cls (xs ++ mid' ++ ys) lists := by
  intro k
  refine ⟨(h k).1, fun x => ((h k).2 x).trans ?_⟩
  have hside : ∀ m, (∀ c ∈ m, c.state ≠ .filed) →
      ((∃ c ∈ xs ++ m ++ ys, c.start = x ∧ c.state = .filed ∧ cls c.size = k) ↔
        ∃ c ∈ xs ++ ys, c.start = x ∧ c.state = .filed ∧ cls c.size = k) := by
    intro m hm
    simp only [mem_append]
    constructor
    · rintro ⟨c, (hc | hc) | hc, hrs⟩
      · exact ⟨c, .inl hc, hrs⟩
      · exact absurd hrs.2.1 (hm c hc)
      · exact ⟨c, .inr hc, hrs⟩
    · rintro ⟨c, hc | hc, hrs⟩
      · exact ⟨c, .inl (.inl hc), hrs⟩
      · exact ⟨c, .inr hc, hrs⟩
  exact (hside mid hmid).trans (hside _ hmid').symm

end Filing

/-! ## Coalescing -/

def Separated (bs : List HeapBlock) : Prop := bs.IsChain fun b c => ¬ (b.state = .filed ∧ c.state = .filed)

section Coalescing

variable {b : HeapBlock} {xs ys mid mid' : List HeapBlock}

theorem Separated.neighbours (h : Separated (xs ++ b :: ys)) (hb : b.state = .filed) :
    (∀ c ∈ xs.getLast?, c.state ≠ .filed) ∧ ∀ c ∈ ys.head?, c.state ≠ .filed := by
  obtain ⟨-, htl, hseam⟩ := isChain_append.mp h
  refine ⟨fun c hc hfil => hseam c hc b rfl ⟨hfil, hb⟩, fun c hc hfil => ?_⟩
  cases ys with
  | nil => cases hc
  | cons d ys =>
    injection hc with hdc
    subst hdc
    exact (isChain_cons_cons.mp htl).1 ⟨hb, hfil⟩

-- Blocks of which none is filed are separated from anything.
theorem separated_of_not_filed (h : ∀ c ∈ mid, c.state ≠ .filed) : Separated mid := by
  apply List.Pairwise.isChain
  apply List.Pairwise.imp_of_mem
  · exact fun {b c} hb _ _ hbt => h b hb hbt.1
  · exact pairwise_of_forall fun _ _ => trivial

theorem Separated.reshape (h : Separated (xs ++ mid ++ ys)) (hne : mid' ≠ [])
    (hmid' : ∀ c ∈ mid', c.state ≠ .filed) : Separated (xs ++ mid' ++ ys) := by
  obtain ⟨hlf, h2, -⟩ := isChain_append.mp h
  obtain ⟨h1, -⟩ := isChain_append.mp hlf
  refine isChain_append.mpr ⟨isChain_append.mpr ⟨h1, separated_of_not_filed hmid', ?_⟩, h2, ?_⟩
  · exact fun _ _ c hc hbt => hmid' c (mem_of_mem_head? hc) hbt.2
  · intro b hb _ _ hbt
    rw [getLast?_append_of_ne_nil _ hne] at hb
    exact hmid' b (mem_of_mem_getLast? hb) hbt.1

theorem Separated.push (h : Separated (xs ++ b :: ys)) (hlf : ∀ c ∈ xs.getLast?, c.state ≠ .filed)
    (hri : ∀ c ∈ ys.head?, c.state ≠ .filed) :
    Separated (xs ++ { b with state := .filed } :: ys) := by
  obtain ⟨h1, htl, -⟩ := isChain_append.mp h
  refine isChain_append.mpr ⟨h1, ?_, fun c hc _ _ hbt => hlf c hc hbt.1⟩
  cases ys with
  | nil => exact isChain_singleton _
  | cons d ys =>
    exact isChain_cons_cons.mpr ⟨fun hbt => hri d rfl hbt.2, (isChain_cons_cons.mp htl).2⟩

end Coalescing

/-! ## Blocks in use -/

def usedBlocks (bs : List HeapBlock) : List HeapBlock := bs.filter fun b => b.state = .used

variable (xs ys : List HeapBlock)

@[simp] theorem usedBlocks_nil : usedBlocks [] = [] := by
  simp [usedBlocks]

@[simp] theorem usedBlocks_append :
    usedBlocks (xs ++ ys) = usedBlocks xs ++ usedBlocks ys :=
  filter_append ..

variable {b : HeapBlock}

theorem usedBlocks_cons_used (hb : b.state = .used) (bs : List HeapBlock) :
    usedBlocks (b :: bs) = b :: usedBlocks bs :=
  filter_cons_of_pos (by simpa using hb)

theorem usedBlocks_cons_of_ne (hb : b.state ≠ .used) (bs : List HeapBlock) :
    usedBlocks (b :: bs) = usedBlocks bs :=
  filter_cons_of_neg (by simpa using hb)

theorem mem_usedBlocks : b ∈ usedBlocks bs ↔ b ∈ bs ∧ b.state = .used := by
  simp [usedBlocks]

def usedBytes (bs : List HeapBlock) : Nat := (bs.map fun b => if b.state = .used then b.size else 0).sum

@[simp] theorem usedBytes_nil : usedBytes [] = 0 := by
  simp [usedBytes]

@[simp] theorem usedBytes_cons (b : HeapBlock) (bs : List HeapBlock) :
    usedBytes (b :: bs) = (if b.state = .used then b.size else 0) + usedBytes bs := by
  simp [usedBytes]

@[simp] theorem usedBytes_append :
    usedBytes (xs ++ ys) = usedBytes xs + usedBytes ys := by
  simp [usedBytes]

theorem Tiles.usedBytes_le {lo hi : Nat} (h : Tiles lo hi bs) : lo + usedBytes bs ≤ hi := by
  induction bs generalizing lo with
  | nil => exact h.le
  | cons b bs ih =>
    obtain ⟨rfl, -, hbs⟩ := h
    have hrs := ih hbs
    rw [usedBytes_cons]
    unfold HeapBlock.stop at hrs
    split <;> omega

end Skjegg.Lib
