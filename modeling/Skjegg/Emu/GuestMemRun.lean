import Skjegg.Emu.GuestMem

/-!
# What guest memory keeps

The accounts of the guests and the pool and the write cache agree over any sequence of operations, as
long as regions start and end at page boundaries. A region that ends inside a page leaves the rest of
the page open to stores.
-/

namespace Skjegg.Emu

open Skjegg.Lib List GuestMem
open Function (update update_self update_of_ne update_apply update_idem update_eq_self)

/-! ## The properties -/

def Region.Covers (r : Region) (page : Nat) : Prop := ∀ addr, addr / 4096 = page → r.Holds addr

def Region.Aligned (r : Region) : Prop := 4096 ∣ r.base ∧ 4096 ∣ r.size

variable {r : Region}

theorem Region.Aligned.covers {addr : Nat} (h : r.Aligned) (hr : r.Holds addr) :
    r.Covers (addr / 4096) := by
  obtain ⟨⟨k, hk⟩, j, hj⟩ := h
  intro a ha
  unfold Region.Holds at hr ⊢
  omega

variable {m : GuestMem}

namespace GuestMem

def allPages : Nat := 2 ^ 20

def pages (m : GuestMem) : Nat := ((Finset.range allPages).filter fun p => (m.dir p).isSome).card

def share (m : GuestMem) : Nat :=
  if m.pooled then m.committed else 0

def sparseByte (m : GuestMem) (addr : Nat) : UInt8 :=
  match m.dir (addr / 4096) with
  | some b => m.block b (addr % 4096)
  | none => 0

def byteAt (m : GuestMem) (addr : Nat) : UInt8 :=
  if m.externSize.isSome then m.ram addr
  else
    match m.vdso with
    | some v =>
      if v.vaddr ≤ addr ∧ addr - v.vaddr < v.size then
        v.host (pageOf (addr - v.vaddr) + addr % 4096)
      else
        m.sparseByte addr
    | none => m.sparseByte addr

def Open (m : GuestMem) (addr : Nat) : Prop := ∃ r ∈ m.regions, r.writable = true ∧ r.Holds addr

def core (m : GuestMem) : GuestMem :=
  { m with last := none, fault := none, leaf := fun _ => false, wleaf := fun _ => false }

structure Accounted (m : GuestMem) (asked : Nat) : Prop where
  counted : m.committed = 4096 * m.pages
  limited : m.committed ≤ m.limit
  cached : ∀ p b, m.wdir p = some b → m.dir p = some b ∧ ∃ r ∈ m.regions, r.writable = true ∧ r.Covers p
  aligned : ∀ r ∈ m.regions, r.Aligned
  cursor : 4096 ∣ m.mmapNext
  fresh : ∀ p b, m.dir p = some b → p < allPages ∧ b < asked
  unshared : ∀ p q b, m.dir p = some b → m.dir q = some b → p = q

theorem Accounted.mono {asked later : Nat} (h : m.Accounted asked) (hle : asked ≤ later) :
    m.Accounted later :=
  { h with fresh := fun p b hb => ⟨(h.fresh p b hb).1, Nat.lt_of_lt_of_le (h.fresh p b hb).2 hle⟩ }

end GuestMem

namespace Gm

structure Sound (rest : Nat) (s : Gm) : Prop where
  mem : s.mem.Accounted s.calloc.asked
  used : s.pool.used = rest + s.mem.share
  capped : s.pool.limit ≠ 0 → s.pool.used ≤ s.pool.limit

/-- The two states differ at most in the lookup cache, the fault, the second levels of the tables and
the allocator. -/
structure Same (s s' : Gm) : Prop where
  mem : s'.mem.core = s.mem.core
  pool : s'.pool = s.pool
  asked : s.calloc.asked ≤ s'.calloc.asked

/-- What a step that only touches pages leaves alone. -/
structure Frame (s s' : Gm) : Prop where
  regions : s'.mem.regions = s.mem.regions
  loading : s'.mem.loading = s.mem.loading
  externSize : s'.mem.externSize = s.mem.externSize
  limit : s'.pool.limit = s.pool.limit
  asked : s.calloc.asked ≤ s'.calloc.asked

variable {rest addr page b : Nat} {write : Bool} {s s' s'' : Gm}

theorem Frame.refl (s : Gm) : Frame s s := ⟨rfl, rfl, rfl, rfl, Nat.le_refl _⟩

theorem Frame.trans (h : Frame s s') (h' : Frame s' s'') : Frame s s'' where
  regions := h'.regions.trans h.regions
  loading := h'.loading.trans h.loading
  externSize := h'.externSize.trans h.externSize
  limit := h'.limit.trans h.limit
  asked := Nat.le_trans h.asked h'.asked

/-! ## Steps that change nothing of this -/

theorem Same.refl (s : Gm) : Same s s := ⟨rfl, rfl, Nat.le_refl _⟩

theorem Same.trans (h : Same s s') (h' : Same s' s'') : Same s s'' :=
  ⟨h'.mem.trans h.mem, h'.pool.trans h.pool, Nat.le_trans h.asked h'.asked⟩

theorem Same.field {α : Type} (h : Same s s') (f : GuestMem → α) (hf : ∀ m, f m.core = f m) :
    f s'.mem = f s.mem := by
  rw [← hf, h.mem, hf]

theorem Same.frame (h : Same s s') : Frame s s' where
  regions := h.field regions fun _ => rfl
  loading := h.field loading fun _ => rfl
  externSize := h.field externSize fun _ => rfl
  limit := congrArg Pool.limit h.pool
  asked := h.asked

theorem Same.byteAt (h : Same s s') : s'.mem.byteAt = s.mem.byteAt := h.field GuestMem.byteAt fun _ => rfl

theorem Same.accounted {asked : Nat} (h : Same s s') (hm : s.mem.Accounted asked)
    (ha : asked ≤ s'.calloc.asked) : s'.mem.Accounted s'.calloc.asked := by
  have hcore : s.mem.core.Accounted asked := { hm with }
  rw [← h.mem] at hcore
  exact { hcore.mono ha with }

theorem Same.sound (h : Same s s') (hs : Sound rest s) : Sound rest s' where
  mem := h.accounted hs.mem h.asked
  used := by
    rw [h.pool, hs.used, h.field share fun _ => rfl]
  capped := by
    rw [h.pool]
    exact hs.capped

theorem same_fail (s : Gm) (why : String) : Same s (s.fail addr write why) := by
  refine ⟨?_, rfl, le_refl _⟩
  show (s.mem.setFault addr write why).core = s.mem.core
  unfold setFault
  split <;> rfl

theorem same_guard (s : Gm) : Same s { s with mem := s.mem.setGuardFault addr write } := by
  refine ⟨?_, rfl, le_refl _⟩
  show (s.mem.setGuardFault addr write).core = s.mem.core
  unfold setGuardFault setFault
  split <;> rfl

end Gm

theorem GuestMem.regionOf_last (m : GuestMem) (addr : Nat) :
    ∃ last, (m.regionOf addr).2 = { m with last := last } := by
  unfold regionOf
  dsimp only
  split
  · split
    · exact ⟨m.last, rfl⟩
    · split
      · exact ⟨_, rfl⟩
      · exact ⟨m.last, rfl⟩
  · split
    · exact ⟨_, rfl⟩
    · exact ⟨m.last, rfl⟩

theorem GuestMem.regionOf_holds {addr : Nat}
    (h : (m.regionOf addr).1 = some r) : r ∈ m.regions ∧ r.Holds addr := by
  -- the scan, which both branches may come to
  have hscan : ∀ r', (match m.regions.findIdx? fun r : Region => decide (r.Holds addr) with
      | some i => (m.regions[i]?, { m with last := some i })
      | none => (none, m)).1 = some r' → r' ∈ m.regions ∧ r'.Holds addr := by
    intro r' h
    split at h
    · next i hi =>
      obtain ⟨hlt, hp, -⟩ := findIdx?_eq_some_iff_getElem.mp hi
      obtain ⟨-, rfl⟩ := List.getElem?_eq_some_iff.mp h
      exact ⟨getElem_mem hlt, of_decide_eq_true hp⟩
    · cases h
  unfold regionOf at h
  dsimp only at h
  split at h
  · next r' hls =>
    split at h
    · next hr =>
      cases h
      obtain ⟨i, -, hi⟩ := Option.bind_eq_some_iff.mp hls
      exact ⟨mem_of_getElem? hi, hr⟩
    · exact hscan r h
  · exact hscan r h

namespace Gm

variable {rest addr page b : Nat} {write : Bool} {s s' s'' : Gm}

theorem same_checkRegion {r : Option Region} (h : s.checkRegion addr write = (r, s')) : Same s s' := by
  obtain rfl : (s.checkRegion addr write).2 = s' := congrArg _ h
  obtain ⟨last, hls⟩ := s.mem.regionOf_last _
  have hfnd : Same s { s with mem := (s.mem.regionOf addr).2 } := by
    rw [hls]
    exact ⟨rfl, rfl, le_refl _⟩
  unfold checkRegion
  dsimp only
  split
  · exact hfnd.trans (same_fail _ _)
  split
  · exact hfnd.trans (same_guard _)
  · split
    · exact hfnd.trans (same_fail _ _)
    · exact hfnd

theorem checkRegion_holds (h : s.checkRegion addr write = (some r, s')) :
    r ∈ s.mem.regions ∧ r.Holds addr ∧ (write = true → s.mem.loading = false → r.writable = true) := by
  obtain ⟨last, hls⟩ := s.mem.regionOf_last addr
  unfold checkRegion at h
  dsimp only at h
  split at h
  · cases h
  rename_i r' hr'
  split at h
  · cases h
  split at h
  · cases h
  rename_i hpm
  cases h
  obtain ⟨hmem, hho⟩ := regionOf_holds hr'
  refine ⟨hmem, hho, ?_⟩
  intro hw hl
  rw [hls] at hpm
  simpa [hw, hl] using hpm

theorem same_take {r : Option Nat} {c : Calloc} (hc : s.calloc.take = (r, c))
    (hm : m.core = s.mem.core) : Same s { s with calloc := c, mem := m } := by
  rw [show c = s.calloc.take.2 by rw [hc]]
  exact ⟨hm, rfl, Nat.le_succ _⟩

theorem same_needLeaf {ok : Bool} (h : s.needLeaf page = (ok, s')) : Same s s' := by
  obtain rfl : (s.needLeaf page).2 = s' := congrArg _ h
  unfold needLeaf
  split
  · exact .refl s
  · split
    · next c hc => exact same_take hc rfl
    · next c hc => exact same_take hc rfl

theorem same_needWleaf {ok : Bool} (h : s.needWleaf page = (ok, s')) : Same s s' := by
  obtain rfl : (s.needWleaf page).2 = s' := congrArg _ h
  unfold needWleaf
  split
  · exact .refl s
  · split
    · next c hc => exact same_take hc rfl
    · next c hc => exact same_take hc rfl

variable (p : Pool) (pooled : Bool)

/-! ## Committing a page -/

@[simp] theorem charge_used :
    (p.charge pooled).used = p.used + if pooled then 4096 else 0 := by
  cases pooled <;> rfl

@[simp] theorem charge_limit : (p.charge pooled).limit = p.limit := by
  cases pooled <;> rfl

theorem refund_used {p : Pool} {pooled : Bool} (h : pooled = true → 4096 ≤ p.used) :
    (p.refund pooled).used = p.used - if pooled then 4096 else 0 := by
  cases pooled with
  | false => rfl
  | true =>
    unfold Pool.refund
    rw [decide_eq_true (h rfl)]
    rfl

@[simp] theorem refund_limit : (p.refund pooled).limit = p.limit := by
  unfold Pool.refund
  split <;> rfl

theorem leave_used {p : Pool} {pooled : Bool} {committed : Nat} (h : pooled = true → committed ≤ p.used) :
    (p.leave pooled committed).used = p.used - if pooled then committed else 0 := by
  cases pooled with
  | false => rfl
  | true => exact if_pos (h rfl)

@[simp] theorem leave_limit (committed : Nat) :
    (p.leave pooled committed).limit = p.limit := by
  cases pooled <;> rfl

theorem pages_update_some (hp : page < allPages) (hno : m.dir page = none) :
    pages { m with dir := update m.dir page (some b) } = m.pages + 1 := by
  unfold pages
  have hset : ((Finset.range allPages).filter fun p =>
        (update m.dir page (some b) p).isSome) =
      insert page ((Finset.range allPages).filter fun p => (m.dir p).isSome) := by
    ext p
    by_cases hpp : p = page
    · simp [hpp, hp]
    · simp [hpp]
  show (Finset.filter (fun p => (update m.dir page (some b) p).isSome) _).card = _
  rw [hset, Finset.card_insert_of_notMem]
  simp [hno]

theorem pages_update_none (hp : page < allPages) (hso : m.dir page = some b) :
    pages { m with dir := update m.dir page none } + 1 = m.pages := by
  have hbk : update (update m.dir page none) page (some b) = m.dir := by
    rw [update_idem, ← hso, update_eq_self]
  have h := pages_update_some (m := { m with dir := update m.dir _ _ }) (b := b) hp (update_self ..)
  rw [← h]
  show pages { m with dir := update (update m.dir page none) page _ } = _
  rw [hbk]

/-- A step that touches pages: it keeps the accounts and changes no byte. -/
structure Touch (rest : Nat) (s s' : Gm) : Prop where
  sound : Sound rest s'
  frame : Frame s s'
  bytes : s'.mem.byteAt = s.mem.byteAt
  vdso : s'.mem.vdso = s.mem.vdso

theorem Same.touch (h : Same s s') (hs : Sound rest s) : Touch rest s s' :=
  ⟨h.sound hs, h.frame, h.byteAt, h.field vdso fun _ => rfl⟩

theorem Touch.trans (h : Touch rest s s') (h' : Touch rest s' s'') : Touch rest s s'' :=
  ⟨h'.sound, h.frame.trans h'.frame, h'.bytes.trans h.bytes, h'.vdso.trans h.vdso⟩

theorem attach_eq_none (h : s.attach page = (none, s')) : Same s s' := by
  unfold attach at h
  split at h
  · next c hc =>
    cases h
    exact same_take hc rfl
  · cases h

theorem attach_eq_some (h : s.attach page = (some b, s')) :
    b = s.calloc.asked ∧ s' =
      { calloc := { s.calloc with asked := s.calloc.asked + 1 }
        pool := s.pool.charge s.mem.pooled
        mem := { s.mem with
          dir := update s.mem.dir page (some b)
          block := update s.mem.block b fun _ => 0
          committed := s.mem.committed + 4096 } } := by
  unfold attach Calloc.take at h
  by_cases hg : s.calloc.grants s.calloc.asked = true
  · simp only [hg, if_true] at h
    cases h
    exact ⟨rfl, rfl⟩
  · simp only [hg, if_false, Bool.false_eq_true] at h
    cases h

theorem attach_touch (hs : Sound rest s) (hp : page < allPages)
    (hno : s.mem.dir page = none) (hlimit : s.mem.committed + 4096 ≤ s.mem.limit)
    (hpool : ¬(s.mem.pooled = true ∧ s.pool.limit ≠ 0 ∧ s.pool.limit < s.pool.used + 4096))
    (h : s.attach page = (some b, s')) : Touch rest s s' ∧ s'.mem.dir page = some b := by
  obtain ⟨hb, rfl⟩ := attach_eq_some h
  have hm := hs.mem
  have hoth : ∀ {p c}, p ≠ page → update s.mem.dir page (some b) p = some c → s.mem.dir p = some c := by
    intro p c hpp hc
    rwa [update_of_ne hpp] at hc
  refine ⟨⟨⟨⟨?_, hlimit, ?_, hm.aligned, hm.cursor, ?_, ?_⟩, ?_, ?_⟩, ?_, ?_, rfl⟩, update_self ..⟩
  · -- one page more
    show s.mem.committed + 4096 = 4096 * pages { s.mem with dir := update s.mem.dir page (some b) }
    rw [pages_update_some hp hno, hm.counted]
    omega
  · -- the page was not cached, since it had no block
    intro p c hc
    obtain ⟨hd, hr⟩ := hm.cached p c hc
    have hpp : p ≠ page := by
      rintro rfl
      rw [hno] at hd
      cases hd
    exact ⟨by rw [← hd]; exact update_of_ne hpp _ _, hr⟩
  · intro p c hc
    by_cases hpp : p = page
    · subst hpp
      cases (update_self ..).symm.trans hc
      exact ⟨hp, by rw [hb]; exact Nat.lt_succ_self _⟩
    · obtain ⟨hlt, hc'⟩ := hm.fresh p c (hoth hpp hc)
      exact ⟨hlt, Nat.lt_succ_of_lt hc'⟩
  · -- the new block is not yet in the table
    have hnew : ∀ p, s.mem.dir p ≠ some b := by
      intro p hd
      have := (hm.fresh p b hd).2
      omega
    intro p q c hpc hqc
    by_cases hpp : p = page
    · by_cases hqp : q = page
      · rw [hpp, hqp]
      · subst hpp
        cases (update_self ..).symm.trans hpc
        exact absurd (hoth hqp hqc) (hnew q)
    · by_cases hqp : q = page
      · subst hqp
        cases (update_self ..).symm.trans hqc
        exact absurd (hoth hpp hpc) (hnew p)
      · exact hm.unshared p q c (hoth hpp hpc) (hoth hqp hqc)
  · have hus := hs.used
    show (s.pool.charge s.mem.pooled).used = rest + if s.mem.pooled then s.mem.committed + 4096 else 0
    unfold share at hus
    rw [charge_used]
    split
    · next hpo =>
      rw [if_pos hpo] at hus
      omega
    · next hpo =>
      rw [if_neg hpo] at hus
      exact hus
  · show (s.pool.charge s.mem.pooled).limit ≠ 0 → (s.pool.charge s.mem.pooled).used ≤ _
    rw [charge_used, charge_limit]
    intro hl
    have hcapped := hs.capped hl
    split
    · next hpo => exact Nat.le_of_not_lt fun hlt => hpool ⟨hpo, hl, hlt⟩
    · exact hcapped
  · exact ⟨rfl, rfl, rfl, charge_limit _ _, Nat.le_succ _⟩
  · -- the block is zeroed, and no other page has it
    funext a
    have hspr : sparseByte { s.mem with
        dir := update s.mem.dir page (some b)
        block := update s.mem.block b fun _ => 0
        committed := s.mem.committed + 4096 } a = s.mem.sparseByte a := by
      unfold sparseByte
      by_cases hpa : a / 4096 = page
      · simp [hpa, hno]
      simp only [update_of_ne hpa]
      cases hd : s.mem.dir _ with
      | none => rfl
      | some c =>
        have hcb : c ≠ b := by
          have := (hm.fresh _ _ hd).2
          omega
        simp [update_of_ne hcb]
    unfold GuestMem.byteAt
    simp [hspr]

theorem commit_touch (hs : Sound rest s) (haddr : addr < 2 ^ 32) :
    Touch rest s (s.commit addr write).2 ∧ ∀ b, (s.commit addr write).1 = some b →
      (s.commit addr write).2.mem.dir (addr / 4096) = some b := by
  have hp : addr / 4096 < allPages := by
    unfold allPages
    omega
  have hfa : ∀ {s' : Gm} {why : String}, Same s s' → Touch rest s (s'.fail addr write why) :=
    fun h => (h.trans (same_fail _ _)).touch hs
  unfold commit
  cases hdir : s.mem.dir _ with
  | some b =>
    refine ⟨(Same.refl s).touch hs, ?_⟩
    rintro c ⟨⟩
    exact hdir
  | none =>
    show Touch rest s (s.commitNew addr write).2 ∧ _
    unfold commitNew
    split
    · exact ⟨hfa (.refl s), nofun⟩
    rename_i hlimit
    split
    · exact ⟨hfa (.refl s), nofun⟩
    rename_i hpool
    split
    · next s' hleaf => exact ⟨hfa (same_needLeaf hleaf), nofun⟩
    rename_i s' heq
    have hleaf := same_needLeaf heq
    split
    · next s'' hatt => exact ⟨hfa (hleaf.trans (attach_eq_none hatt)), nofun⟩
    rename_i b s'' hatt
    -- a new leaf leaves the accounts of the pool as they were
    have hcommitted : s'.mem.committed = s.mem.committed := hleaf.field _ fun _ => rfl
    have hlim : s'.mem.limit = s.mem.limit := hleaf.field _ fun _ => rfl
    have hpooled : s'.mem.pooled = s.mem.pooled := hleaf.field _ fun _ => rfl
    have hdir' : s'.mem.dir = s.mem.dir := hleaf.field _ fun _ => rfl
    obtain ⟨htch, hb⟩ := attach_touch (hleaf.sound hs) hp (by rw [hdir', hdir])
      (by rw [hcommitted, hlim]; exact Nat.le_of_not_lt hlimit)
      (by rw [hpooled, hleaf.pool]; exact hpool) hatt
    refine ⟨(hleaf.touch hs).trans htch, ?_⟩
    rintro c ⟨⟩
    exact hb

theorem warm_touch (hs : Sound rest s) (hr : r ∈ s.mem.regions)
    (hcvr : r.Covers page) (hb : s.mem.dir page = some b) :
    Touch rest s (s.warm r page b) ∧ (s.warm r page b).mem.dir = s.mem.dir := by
  unfold warm
  split
  · next hw =>
    split
    · next s' heq =>
      have hsm := same_needWleaf heq
      exact ⟨hsm.touch hs, hsm.field _ fun _ => rfl⟩
    rename_i s' heq
    have hsm := same_needWleaf heq
    have hs' := hsm.sound hs
    have hdir : s'.mem.dir = s.mem.dir := hsm.field _ fun _ => rfl
    refine ⟨⟨{ hs' with mem := { hs'.mem with cached := ?_ } }, { hsm.frame with }, hsm.byteAt,
      hsm.field vdso fun _ => rfl⟩, hdir⟩
    intro p c hc
    by_cases hpp : p = page
    · subst hpp
      cases (update_self ..).symm.trans hc
      exact ⟨by rw [← hb, ← hdir], r, by rw [hsm.frame.regions]; exact hr, hw, hcvr⟩
    · exact hs'.mem.cached p c ((update_of_ne hpp _ _).symm.trans hc)
  · exact ⟨(Same.refl s).touch hs, rfl⟩

/-! ## Access to a page -/

def Located (m : GuestMem) (q : Nat) : Page → Prop
  | .block b => m.dir q = some b
  | .ram base => base = q * 4096
  | .vdso _ => False

def WholeOpen (m : GuestMem) (q : Nat) : Prop := ∃ r ∈ m.regions, r.writable = true ∧ r.Covers q

theorem sparsePage_touch (hs : Sound rest s) (haddr : addr < 2 ^ 32) :
    Touch rest s (s.sparsePage addr write).2 ∧ ∀ p, (s.sparsePage addr write).1 = some p →
        (∃ b, p = .block b ∧ (s.sparsePage addr write).2.mem.dir (addr / 4096) = some b) ∧
        (write = true → s.mem.loading = false → WholeOpen s.mem (addr / 4096)) := by
  unfold sparsePage
  split
  · -- the table has the page
    next b hb =>
    refine ⟨(Same.refl s).touch hs, ?_⟩
    rintro p ⟨⟩
    cases write with
    | false => exact ⟨⟨b, rfl, hb⟩, nofun⟩
    | true =>
      obtain ⟨hdir, hop⟩ := hs.mem.cached _ _ hb
      exact ⟨⟨b, rfl, hdir⟩, fun _ _ => hop⟩
  split
  · next s' heq => exact ⟨(same_checkRegion heq).touch hs, nofun⟩
  rename_i r s' heq
  obtain ⟨hmem, hho, hpm⟩ := checkRegion_holds heq
  have hreg := same_checkRegion heq
  have hcvr := (hs.mem.aligned r hmem).covers hho
  have hcom := @commit_touch _ _ write s' (hreg.sound hs) haddr
  split
  · next s'' hc =>
    rw [hc] at hcom
    exact ⟨(hreg.touch hs).trans hcom.1, nofun⟩
  rename_i b s'' hc
  rw [hc] at hcom
  have hb := hcom.2 b rfl
  have hmem'' : r ∈ s''.mem.regions := by
    rw [hcom.1.frame.regions, hreg.frame.regions]
    exact hmem
  obtain ⟨hwarm, hdir⟩ := warm_touch hcom.1.sound hmem'' hcvr hb
  refine ⟨((hreg.touch hs).trans hcom.1).trans hwarm, ?_⟩
  rintro p ⟨⟩
  exact ⟨⟨b, rfl, (congrFun hdir _).trans hb⟩, fun hw hl => ⟨r, hmem, hpm hw hl, hcvr⟩⟩

theorem page_touch {found : Option Page} (hs : Sound rest s) (haddr : addr < 2 ^ 32)
    (h : s.page addr write = (found, s')) :
    Touch rest s s' ∧ (write = true → s.mem.loading = false → ∀ p, found = some p →
      Located s'.mem (addr / 4096) p ∧ WholeOpen s.mem (addr / 4096)) := by
  obtain ⟨rfl, rfl⟩ := Prod.ext_iff.mp h
  have hspr : Touch rest s (s.sparsePage addr write).2 ∧ (write = true → s.mem.loading = false → ∀ p,
      (s.sparsePage addr write).1 = some p →
        Located (s.sparsePage addr write).2.mem (addr / 4096) p ∧ WholeOpen s.mem (addr / 4096)) := by
    refine ⟨(sparsePage_touch hs haddr).1, fun hw hl p hp => ?_⟩
    obtain ⟨⟨b, rfl, hb⟩, hop⟩ := (sparsePage_touch hs haddr).2 p hp
    exact ⟨hb, hop hw hl⟩
  unfold page
  split
  · -- one buffer behind the guest
    split
    · exact ⟨(same_fail s _).touch hs, nofun⟩
    split
    · next s' heq => exact ⟨(same_checkRegion heq).touch hs, nofun⟩
    rename_i r s' heq
    obtain ⟨hmem, hho, hpm⟩ := checkRegion_holds heq
    refine ⟨(same_checkRegion heq).touch hs, ?_⟩
    rintro hw hl p ⟨⟩
    exact ⟨rfl, r, hmem, hpm hw hl, (hs.mem.aligned r hmem).covers hho⟩
  split
  · exact hspr
  split
  · split
    · exact ⟨(same_fail s _).touch hs, nofun⟩
    rename_i hro
    refine ⟨(Same.refl s).touch hs, ?_⟩
    intro hw hl
    rw [hw, hl] at hro
    exact absurd rfl hro
  · exact hspr

end Gm

/-! ## Stores -/

namespace GuestMem

variable {m : GuestMem} {q off asked a : Nat} {p : Page} {val : UInt8}

theorem accounted_poke (hm : m.Accounted asked) : (m.poke p off val).Accounted asked := by
  cases p <;> exact { hm with }

theorem poke_byteAt (hm : m.Accounted asked) (hp : Gm.Located m q p) (hoff : off < 4096)
    (h : (m.poke p off val).byteAt a ≠ m.byteAt a) : a / 4096 = q := by
  cases p with
  | block b =>
    -- a byte of the sparse memory that changes is in this block, and the block has one page
    have hspr : (m.poke (.block b) off val).sparseByte a ≠ m.sparseByte a := by
      intro heq
      apply h
      unfold byteAt
      simp only [heq]
      rfl
    have hdir : m.dir (a / 4096) = some b := by
      by_contra hd
      apply hspr
      unfold sparseByte
      show (match m.dir (a / 4096) with | some b' => _ | none => _) = _
      cases hb : m.dir _ with
      | none => rfl
      | some b' =>
        have hne : b' ≠ b := by
          rintro rfl
          exact hd hb
        show update m.block b _ b' _ = _
        rw [update_of_ne hne]
    exact hm.unshared _ _ _ hdir hp
  | ram base =>
    have hba : base = q * 4096 := hp
    have ha : a = base + off := by
      by_contra hne
      apply h
      show (if m.externSize.isSome then update m.ram (base + off) val a else _) = _
      rw [update_of_ne hne]
      rfl
    omega
  | vdso base => exact hp.elim

theorem located_poke (hp : Gm.Located m q p) : Gm.Located (m.poke p off val) q p := by
  cases p with
  | block | ram | vdso => exact hp

theorem pokes_spec (hm : m.Accounted asked) (hp : Gm.Located m q p) {vals : List UInt8}
    (hoff : off + vals.length ≤ 4096) :
    (∀ a, (m.pokes p off vals).byteAt a ≠ m.byteAt a → a / 4096 = q) := by
  induction vals generalizing m off with
  | nil => exact fun a h => absurd rfl h
  | cons val vals ih =>
    rw [length_cons] at hoff
    intro a h
    by_cases hfst : (m.poke p off val).byteAt a = m.byteAt a
    · rw [← hfst] at h
      exact ih (accounted_poke hm) (located_poke hp) (by omega) a h
    · exact poke_byteAt hm hp (by omega) hfst

end GuestMem

namespace Gm

variable {rest addr size len : Nat} {s s' s'' : Gm}

/-- A step that stores: it keeps the accounts, and after loading it changes bytes at open addresses
only. -/
structure Stored (rest : Nat) (s s' : Gm) : Prop where
  sound : Sound rest s'
  frame : Frame s s'
  inside : s.mem.loading = false → ∀ a, s'.mem.byteAt a ≠ s.mem.byteAt a → s.mem.Open a

theorem Touch.stored (h : Touch rest s s') : Stored rest s s' :=
  ⟨h.sound, h.frame, fun _ a ha => absurd (congrFun h.bytes a) ha⟩

theorem Stored.trans (h : Stored rest s s') (h' : Stored rest s' s'') : Stored rest s s'' := by
  refine ⟨h'.sound, h.frame.trans h'.frame, ?_⟩
  intro hl a ha
  by_cases hfst : s'.mem.byteAt a = s.mem.byteAt a
  · obtain ⟨r, hr, hw⟩ := h'.inside (h.frame.loading.trans hl) a (by rwa [hfst])
    exact ⟨r, by rwa [h.frame.regions] at hr, hw⟩
  · exact h.inside hl a hfst

theorem sound_pokes (hs : Sound rest s) (p : Page) (off : Nat) (vals : List UInt8) :
    Sound rest { s with mem := s.mem.pokes p off vals } ∧
      Frame s { s with mem := s.mem.pokes p off vals } := by
  induction vals generalizing s off with
  | nil => exact ⟨hs, .refl s⟩
  | cons val vals ih =>
    have hshr : (s.mem.poke p off val).share = s.mem.share := by
      cases p <;> rfl
    have hone : Sound rest { s with mem := s.mem.poke p off val } :=
      ⟨accounted_poke hs.mem, by rw [hs.used]; exact congrArg _ hshr.symm, hs.capped⟩
    have hfrm : Frame s { s with mem := s.mem.poke p off val } := by
      cases p <;> exact ⟨rfl, rfl, rfl, rfl, le_refl _⟩
    obtain ⟨hsnd, hrs⟩ := ih hone _
    exact ⟨hsnd, hfrm.trans hrs⟩

theorem stored_pokes (hs : Sound rest s) (haddr : addr < 2 ^ 32) {p : Page}
    (hp : s.page addr true = (some p, s')) {vals : List UInt8}
    (hft : addr % 4096 + vals.length ≤ 4096) :
    Stored rest s { s' with mem := s'.mem.pokes p (addr % 4096) vals } := by
  obtain ⟨htch, hop⟩ := page_touch hs haddr hp
  obtain ⟨hsnd, hfrm⟩ := sound_pokes htch.sound p _ _
  refine ⟨hsnd, htch.frame.trans hfrm, ?_⟩
  intro hl a ha
  obtain ⟨hloc, r, hr, hw, hcvr⟩ := hop rfl hl p rfl
  rw [← htch.bytes] at ha
  exact ⟨r, hr, hw, hcvr a (pokes_spec htch.sound.mem hloc hft a ha)⟩

theorem read8_touch (hs : Sound rest s) (haddr : addr < 2 ^ 32) : Touch rest s (s.read8 addr).2 := by
  unfold read8
  split
  · next s' heq => exact (page_touch hs haddr heq).1
  · next p s' heq => exact (page_touch hs haddr heq).1

theorem write8_stored (hs : Sound rest s) (haddr : addr < 2 ^ 32) (val : UInt8) :
    Stored rest s (s.write8 addr val) := by
  unfold write8
  split
  · next s' heq => exact (page_touch hs haddr heq).1.stored
  · next p s' heq =>
    exact @stored_pokes _ _ s s' hs haddr p heq [val] (by simp only [length_singleton]; omega)

theorem wrap_lt (a : Nat) : a % 2 ^ 32 < 2 ^ 32 := Nat.mod_lt _ (by decide)

section

variable (hs : Sound rest s)

include hs

theorem readOut_touch : Touch rest s (s.readOut addr len).2 := by
  induction len generalizing s addr with
  | zero => exact (Same.refl s).touch hs
  | succ n ih =>
    have hone := @read8_touch _ _ s hs (wrap_lt addr)
    exact hone.trans (ih hone.sound)

theorem write_stored (bytes : List UInt8) : Stored rest s (s.write addr bytes) := by
  induction bytes generalizing s addr with
  | nil => exact ((Same.refl s).touch hs).stored
  | cons b bs ih =>
    have hone := write8_stored hs (wrap_lt addr) b
    exact hone.trans (ih hone.sound)

theorem load_touch {e : Endian} (haddr : addr < 2 ^ 32) : Touch rest s (s.load addr size e).2 := by
  unfold load
  split
  · split
    · next s' heq => exact (page_touch hs haddr heq).1
    · next p s' heq => exact (page_touch hs haddr heq).1
  · exact readOut_touch hs

theorem store_stored {e : Endian} {val : Nat} (haddr : addr < 2 ^ 32) :
    Stored rest s (s.store addr size e val) := by
  unfold store
  split
  · split
    · next s' heq => exact (page_touch hs haddr heq).1.stored
    · next p s' heq => exact stored_pokes hs haddr heq (by rwa [Endian.length_encode])
  · exact write_stored hs _

/-! ## Regions and pages that come and go -/

theorem Sound.with_mem {mem : GuestMem} (hm : mem.Accounted s.calloc.asked)
    (hshr : mem.share = s.mem.share) : Sound rest { s with mem := mem } :=
  ⟨hm, by rw [hs.used, ← hshr], hs.capped⟩

theorem freePage_sound (page : Nat) : Sound rest (s.freePage page) ∧ Frame s (s.freePage page) ∧
      ∀ p b, (s.freePage page).mem.wdir p = some b → s.mem.wdir p = some b ∧ p ≠ page := by
  have hm := hs.mem
  unfold freePage
  split
  · next hno =>
    refine ⟨hs, .refl s, ?_⟩
    intro p b hb
    refine ⟨hb, ?_⟩
    rintro rfl
    rw [(hm.cached p b hb).1] at hno
    cases hno
  · next b hb =>
    have hpages := pages_update_none (hm.fresh _ b hb).1 hb
    have hfu : 4096 ≤ s.mem.committed := by
      rw [hm.counted, ← hpages]
      omega
    have hbk : s.mem.pooled = true → 4096 ≤ s.pool.used := by
      intro hpo
      rw [hs.used, share, if_pos hpo]
      omega
    have hkp : ∀ {f : Nat → Option Nat} {p c : Nat}, update f page none p = some c →
        f p = some c ∧ p ≠ page := by
      intro f p c hc
      by_cases hpp : p = page
      · subst hpp
        cases (update_self ..).symm.trans hc
      · exact ⟨(update_of_ne hpp _ _).symm.trans hc, hpp⟩
    refine ⟨⟨⟨?_, ?_, ?_, hm.aligned, hm.cursor, ?_, ?_⟩, ?_, ?_⟩, ?_, fun p c hc => hkp hc⟩
    · show (if 4096 ≤ s.mem.committed then s.mem.committed - 4096 else s.mem.committed) = _
      rw [if_pos hfu, hm.counted, ← hpages, Nat.mul_succ, Nat.add_sub_cancel]
      rfl
    · show (if 4096 ≤ s.mem.committed then s.mem.committed - 4096 else s.mem.committed) ≤ s.mem.limit
      rw [if_pos hfu]
      exact le_trans (Nat.sub_le _ _) hm.limited
    · intro p c hc
      obtain ⟨hc', hpp⟩ := hkp hc
      obtain ⟨hd, hr⟩ := hm.cached p c hc'
      exact ⟨(update_of_ne hpp _ _).trans hd, hr⟩
    · exact fun p c hc => hm.fresh p c (hkp hc).1
    · exact fun p q c hp hq => hm.unshared p q c (hkp hp).1 (hkp hq).1
    · -- the pool gives back what the guest does
      have hus := hs.used
      show (s.pool.refund s.mem.pooled).used = rest + if s.mem.pooled then
        (if 4096 ≤ s.mem.committed then s.mem.committed - 4096 else s.mem.committed) else 0
      unfold share at hus
      rw [refund_used hbk, if_pos hfu]
      split
      · next hpo =>
        rw [if_pos hpo] at hus
        omega
      · next hpo =>
        rw [if_neg hpo] at hus
        exact hus
    · show (s.pool.refund s.mem.pooled).limit ≠ 0 → (s.pool.refund s.mem.pooled).used ≤ _
      rw [refund_limit, refund_used hbk]
      exact fun hl => le_trans (Nat.sub_le _ _) (hs.capped hl)
    · exact ⟨rfl, rfl, rfl, refund_limit _ _, le_refl _⟩

theorem freePages_sound (f : Nat → Nat) (ks : List Nat) :
    Sound rest (ks.foldl (fun s k => s.freePage (f k)) s) ∧
      Frame s (ks.foldl (fun s k => s.freePage (f k)) s) ∧
      ∀ p b, (ks.foldl (fun s k => s.freePage (f k)) s).mem.wdir p = some b →
        s.mem.wdir p = some b ∧ ∀ k ∈ ks, p ≠ f k := by
  induction ks generalizing s with
  | nil => exact ⟨hs, .refl s, fun p b hb => ⟨hb, nofun⟩⟩
  | cons k ks ih =>
    obtain ⟨hsnd, hfrm, hout⟩ := freePage_sound hs _
    obtain ⟨hsnd', hfrm', hout'⟩ := ih hsnd
    refine ⟨hsnd', hfrm.trans hfrm', ?_⟩
    intro p b hb
    obtain ⟨hrs, hks⟩ := hout' p b hb
    obtain ⟨hfst, hne⟩ := hout p b hrs
    refine ⟨hfst, ?_⟩
    intro k' hk'
    rcases mem_cons.mp hk' with rfl | hmem
    · exact hne
    · exact hks k' hmem

end

theorem mem_of_mem_dropRegion {base size : Nat} {rs : List Region}
    (h : r ∈ dropRegion base size rs) : r ∈ rs := by
  unfold dropRegion at h
  split at h
  · exact h
  split at h
  · exact mem_of_mem_eraseIdx h
  split at h
  · exact mem_of_mem_eraseIdx h
  · split at h
    · exact mem_of_mem_eraseIdx (mem_of_mem_eraseIdx h)
    · exact mem_of_mem_eraseIdx h

theorem mem_dropRegion {base size : Nat} {rs : List Region} (h : r ∈ rs)
    (hprot : r.prot ≠ 0) (hoth : ¬(r.base = base ∧ r.size = size)) : r ∈ dropRegion base size rs := by
  obtain ⟨i, hi⟩ := getElem?_of_mem h
  unfold dropRegion
  split
  · exact h
  rename_i j hj
  obtain ⟨hlt, hp, -⟩ := findIdx?_eq_some_iff_getElem.mp hj
  have hij : i ≠ j := by
    rintro rfl
    rw [getElem?_eq_getElem hlt] at hi
    cases hi
    exact hoth (of_decide_eq_true hp)
  have hsty : r ∈ rs.eraseIdx j := mem_eraseIdx_iff_getElem?.mpr ⟨i, hij, hi⟩
  split
  · exact hsty
  rename_i j
  split
  · exact hsty
  rename_i g hg
  split
  · next hgd =>
    have hi' : i ≠ j := by
      rintro rfl
      rw [hg] at hi
      cases hi
      exact hprot hgd.1
    -- past the erased place the indices move down by one
    apply mem_eraseIdx_iff_getElem?.mpr
    rcases lt_or_gt_of_ne hi' with hlow | habv
    · refine ⟨i, hi', ?_⟩
      rw [getElem?_eraseIdx, if_pos (by omega)]
      exact hi
    · refine ⟨i - 1, by omega, ?_⟩
      rw [getElem?_eraseIdx, if_neg (by omega), show i - 1 + 1 = i by omega]
      exact hi
  · exact hsty

theorem munmap_sound (hs : Sound rest s) (base size : Nat) :
    Sound rest (s.munmap base size) ∧ (s.munmap base size).pool.limit = s.pool.limit ∧
      s.calloc.asked ≤ (s.munmap base size).calloc.asked := by
  unfold munmap
  dsimp only
  split
  · exact ⟨hs, rfl, le_refl _⟩
  split
  · exact ⟨hs, rfl, le_refl _⟩
  generalize hsize : roundPages _ = sz
  obtain ⟨hsnd, hfrm, hout⟩ := freePages_sound hs (fun k => (base + k * 4096) / 4096)
    (range _)
  have hm := hsnd.mem
  refine ⟨{ hsnd with mem := { hm with cached := ?_, aligned := ?_ } }, hfrm.limit, hfrm.asked⟩
  · intro p b hb
    obtain ⟨hd, r, hr, hw, hcvr⟩ := hm.cached p b hb
    refine ⟨hd, r, ?_, hw, hcvr⟩
    apply mem_dropRegion hr
    · intro h0
      rw [Region.writable, h0] at hw
      cases hw
    -- the pages of the region that goes were freed
    rintro ⟨hba, hsz⟩
    have hfst := hcvr (p * 4096) (by omega)
    unfold Region.Holds at hfst
    obtain ⟨j, hj⟩ := (hm.aligned r hr).1
    obtain ⟨n, hn⟩ := (hm.aligned r hr).2
    refine (hout p b hb).2 (p - base / 4096) (mem_range.mpr ?_) ?_
    · omega
    · show p = (base + (p - base / 4096) * 4096) / 4096
      omega
  · exact fun r hr => hm.aligned r (mem_of_mem_dropRegion hr)

theorem free_sound (hs : Sound rest s) : Sound rest s.free ∧ s.free.pool.limit = s.pool.limit := by
  have hus := hs.used
  have hno : pages s.free.mem = 0 := by
    unfold pages free
    simp
  have hbk : s.mem.pooled = true → s.mem.committed ≤ s.pool.used := by
    intro hpo
    rw [hus, share, if_pos hpo]
    omega
  unfold share at hus
  refine ⟨⟨⟨?_, Nat.zero_le _, nofun, hs.mem.aligned, hs.mem.cursor, nofun, nofun⟩, ?_, ?_⟩,
    leave_limit _ _ _⟩
  · rw [hno]
    rfl
  · show (s.pool.leave s.mem.pooled s.mem.committed).used = rest + if s.mem.pooled then 0 else 0
    rw [leave_used hbk, hus, ite_self]
    omega
  · show (s.pool.leave s.mem.pooled s.mem.committed).limit ≠ 0 →
      (s.pool.leave s.mem.pooled s.mem.committed).used ≤ (s.pool.leave s.mem.pooled s.mem.committed).limit
    rw [leave_limit, leave_used hbk]
    exact fun hl => le_trans (Nat.sub_le _ _) (hs.capped hl)

end Gm

namespace GuestMem

variable {m : GuestMem} {asked : Nat}

theorem accounted_map (hm : m.Accounted asked) {base size prot : Nat}
    (h : Region.Aligned ⟨base, size, prot⟩) : (m.map base size prot).2.Accounted asked := by
  unfold map
  split
  · exact hm
  refine { hm with cached := ?_, aligned := ?_ }
  · intro p b hb
    obtain ⟨hd, r, hr, hw⟩ := hm.cached p b hb
    exact ⟨hd, r, mem_append_left _ hr, hw⟩
  intro r hr
  rcases mem_append.mp hr with hold | hnew
  · exact hm.aligned r hold
  · rw [mem_singleton.mp hnew]
    exact h

theorem share_map (base size prot : Nat) : (m.map base size prot).2.share = m.share := by
  unfold map
  split <;> rfl

theorem roundPages_dvd (size : Nat) : 4096 ∣ roundPages size := Dvd.intro_left _ rfl

theorem share_cursor (m : GuestMem) (next : Nat) :
    share { m with mmapNext := next } = m.share := rfl

theorem accounted_cursor (hm : m.Accounted asked) {next : Nat} (h : 4096 ∣ next) :
    GuestMem.Accounted { m with mmapNext := next } asked :=
  { hm with cursor := h }

theorem cursor_dvd (hm : m.Accounted asked) : 4096 ∣ m.cursor := by
  unfold cursor
  split
  · exact (by decide : 4096 ∣ mmapBase)
  · exact hm.cursor

theorem guardSize_dvd (guard : Bool) : 4096 ∣ guardSize guard := by
  cases guard <;> decide

theorem wrap_dvd {a : Nat} (h : 4096 ∣ a) : 4096 ∣ a % 2 ^ 32 := by
  omega

theorem accounted_mapGuarded (hm : m.Accounted asked) {size : Nat} (hsize : 4096 ∣ size) (guard : Bool) :
    (m.mapGuarded size guard).Accounted asked ∧ (m.mapGuarded size guard).share = m.share := by
  have hba := wrap_dvd (dvd_add (cursor_dvd hm) (guardSize_dvd guard))
  cases guard with
  | false => exact ⟨accounted_map hm ⟨hba, hsize⟩, share_map _ _ _⟩
  | true =>
    have hgd := @accounted_map m _ hm _ 4096 0 ⟨cursor_dvd hm, dvd_refl _⟩
    exact ⟨accounted_map hgd ⟨hba, hsize⟩, (share_map _ _ _).trans (share_map _ _ _)⟩

theorem accounted_mmap (hm : m.Accounted asked) (size flags : Nat) :
    (m.mmap size flags).2.Accounted asked ∧ (m.mmap size flags).2.share = m.share := by
  have hsize := roundPages_dvd size
  unfold mmap
  dsimp only
  split
  · exact ⟨hm, rfl⟩
  split
  · exact ⟨accounted_cursor hm (cursor_dvd hm), rfl⟩
  obtain ⟨hmap, hshr⟩ := accounted_mapGuarded hm hsize _
  have hba := dvd_add (cursor_dvd hm) (guardSize_dvd (flags.testBit 0))
  have hsp := dvd_add hba hsize
  have hgap := wrap_dvd (dvd_add hsp (dvd_refl 4096))
  exact ⟨accounted_cursor hmap hgap, (share_cursor _ _).trans hshr⟩

end GuestMem

/-! ## Guests that share a pool -/

inductive GmCmd
  | map (base size : UInt32) (prot : Nat)
  | mmap (size flags : UInt32)
  | munmap (base size : UInt32)
  | page (addr : UInt32) (w : Bool)
  | load (addr : UInt32) (size : Nat) (e : Endian)
  | store (addr : UInt32) (size : Nat) (e : Endian) (val : Nat)
  | readOut (addr : UInt32) (len : Nat)
  | write (addr : UInt32) (bytes : List UInt8)
  | zero (addr : UInt32) (len : Nat)
  | setLoading (loading : Bool)
  | clearFault
  | setExtern (size : UInt32)
  | attachVdso (v : Vdso)
  | free

namespace GmCmd

def run (s : Gm) : GmCmd → Gm
  | map base size prot => { s with mem := (s.mem.map base.toNat size.toNat prot).2 }
  | mmap size flags => { s with mem := (s.mem.mmap size.toNat flags.toNat).2 }
  | munmap base size => s.munmap base.toNat size.toNat
  | page addr w => (s.page addr.toNat w).2
  | load addr size e => (s.load addr.toNat size e).2
  | store addr size e val => s.store addr.toNat size e val
  | readOut addr len => (s.readOut addr.toNat len).2
  | write addr bytes => s.write addr.toNat bytes
  | zero addr len => s.zero addr.toNat len
  | setLoading loading => { s with mem := { s.mem with loading := loading } }
  | clearFault => { s with mem := { s.mem with fault := none } }
  | setExtern size => { s with mem := s.mem.setExtern size.toNat }
  | attachVdso v => { s with mem := s.mem.attachVdso v }
  | free => s.free

/-- Regions that the operation puts into the table start and end at page boundaries. -/
def PageAligned : GmCmd → Prop
  | map base size _ => 4096 ∣ base.toNat ∧ 4096 ∣ size.toNat
  | setExtern size => 4096 ∣ size.toNat
  | attachVdso v => 4096 ∣ v.vaddr ∧ 4096 ∣ v.size
  | _ => True

def IsStore : GmCmd → Prop
  | store _ _ _ _ => True
  | write _ _ => True
  | zero _ _ => True
  | _ => False

end GmCmd

structure GmWorld where
  guests : List GuestMem
  pool : Pool
  calloc : Calloc

inductive GmOp
  | init (limit : Nat) (pooled : Bool)
  | on (i : Nat) (c : GmCmd)

namespace GmWorld

/-- A host with an empty pool and no guest; `grants` are the answers of its allocator. -/
def start (limit : Nat) (grants : Nat → Bool) : GmWorld := ⟨[], ⟨0, limit⟩, ⟨grants, 0⟩⟩

def step (w : GmWorld) : GmOp → GmWorld
  | .init limit pooled => { w with guests := w.guests ++ [gmInit limit pooled] }
  | .on i c =>
    match w.guests[i]? with
    | none => w
    | some m =>
      let s := c.run ⟨m, w.pool, w.calloc⟩
      ⟨w.guests.set i s.mem, s.pool, s.calloc⟩

def run (w : GmWorld) (ops : List GmOp) : GmWorld := ops.foldl step w

/-- The accounts and the write caches: each guest's committed bytes are its pages and within its
limit, the pool has the sum of the guests that share it, and a cached block is that of a page in a
writable region. -/
structure Kept (w : GmWorld) : Prop where
  counted : ∀ m ∈ w.guests, m.committed = 4096 * m.pages
  limited : ∀ m ∈ w.guests, m.committed ≤ m.limit
  used : w.pool.used = (w.guests.map share).sum
  capped : w.pool.limit ≠ 0 → w.pool.used ≤ w.pool.limit
  cached : ∀ m ∈ w.guests, ∀ p b, m.wdir p = some b →
    m.dir p = some b ∧ ∃ r ∈ m.regions, r.writable = true ∧ r.Covers p

/-- A store of a guest that is not being loaded changes bytes of writable regions only. -/
def StoresInside (w : GmWorld) (o : GmOp) : Prop :=
  ∀ i c m m', o = .on i c → c.IsStore → w.guests[i]? = some m → m.loading = false →
    (w.step o).guests[i]? = some m' → ∀ a, m'.byteAt a ≠ m.byteAt a → m.Open a

/-- What `Kept` needs to go on. -/
structure Inv (w : GmWorld) : Prop where
  mem : ∀ m ∈ w.guests, m.Accounted w.calloc.asked
  used : w.pool.used = (w.guests.map share).sum
  capped : w.pool.limit ≠ 0 → w.pool.used ≤ w.pool.limit

theorem Inv.kept {w : GmWorld} (h : Inv w) : Kept w :=
  ⟨fun m hm => (h.mem m hm).counted, fun m hm => (h.mem m hm).limited, h.used, h.capped,
    fun m hm => (h.mem m hm).cached⟩

def others (guests : List GuestMem) (i : Nat) : Nat :=
  ((guests.take i).map share).sum + ((guests.drop (i + 1)).map share).sum

theorem sum_set {guests : List GuestMem} {i : Nat} (hi : i < guests.length) :
    ((guests.set i m).map share).sum = others guests i + m.share := by
  rw [set_eq_take_append_cons_drop, if_pos hi]
  simp only [map_append, map_cons, sum_append, sum_cons, others]
  omega

theorem sum_eq {guests : List GuestMem} {i : Nat} (h : guests[i]? = some m) :
    (guests.map share).sum = others guests i + m.share := by
  obtain ⟨hi, rfl⟩ := List.getElem?_eq_some_iff.mp h
  rw [← sum_set hi, set_getElem_self]

theorem Inv.sound {w : GmWorld} (h : Inv w) {i : Nat} (hi : w.guests[i]? = some m) :
    Gm.Sound (others w.guests i) ⟨m, w.pool, w.calloc⟩ :=
  ⟨h.mem m (mem_of_getElem? hi), h.used.trans (sum_eq hi), h.capped⟩

end GmWorld

theorem GuestMem.accounted_init (limit : Nat) (pooled : Bool) (asked : Nat) :
    (gmInit limit pooled).Accounted asked := by
  refine ⟨?_, Nat.zero_le _, nofun, nofun, dvd_zero _, nofun, nofun⟩
  unfold pages gmInit
  simp

theorem GmCmd.sound_run {rest : Nat} {s : Gm} {c : GmCmd} (hs : Gm.Sound rest s) (hc : c.PageAligned) :
    Gm.Sound rest (c.run s) ∧ (c.run s).pool.limit = s.pool.limit ∧
      s.calloc.asked ≤ (c.run s).calloc.asked := by
  have hm := hs.mem
  -- an operation that stores or touches
  have hsto : ∀ {s'}, Gm.Stored rest s s' →
      Gm.Sound rest s' ∧ s'.pool.limit = s.pool.limit ∧ s.calloc.asked ≤ s'.calloc.asked :=
    fun h => ⟨h.sound, h.frame.limit, h.frame.asked⟩
  -- an operation on the regions
  have hrg : ∀ {mem : GuestMem}, mem.Accounted s.calloc.asked → mem.share = s.mem.share →
      Gm.Sound rest { s with mem := mem } ∧ s.pool.limit = s.pool.limit ∧ s.calloc.asked ≤ s.calloc.asked :=
    fun h hshr => ⟨hs.with_mem h hshr, rfl, le_refl _⟩
  cases c with
  | map base size prot => exact hrg (accounted_map hm hc) (share_map _ _ _)
  | mmap size flags =>
    obtain ⟨hacc, hshr⟩ := accounted_mmap hm _ _
    exact hrg hacc hshr
  | munmap base size => exact Gm.munmap_sound hs _ _
  | page addr w => exact hsto (Gm.page_touch hs addr.toNat_lt rfl).1.stored
  | load addr size e => exact hsto (Gm.load_touch hs addr.toNat_lt).stored
  | store addr size e val => exact hsto (Gm.store_stored hs addr.toNat_lt)
  | readOut addr len => exact hsto (Gm.readOut_touch hs).stored
  | write | zero => exact hsto (Gm.write_stored hs _)
  | setLoading | clearFault => exact hrg { hm with } rfl
  | setExtern size =>
    have hext : GuestMem.Accounted { s.mem with externSize := some size.toNat } s.calloc.asked := { hm with }
    exact hrg (accounted_map hext ⟨Nat.dvd_zero _, hc⟩) (share_map _ _ _)
  | attachVdso v =>
    have hvd : GuestMem.Accounted { s.mem with vdso := some v } s.calloc.asked := { hm with }
    show Gm.Sound rest { s with mem := s.mem.attachVdso v } ∧ _
    unfold GuestMem.attachVdso
    dsimp only
    split
    · exact hrg hvd rfl
    · exact hrg (accounted_map hvd hc) (share_map _ _ _)
  | free =>
    obtain ⟨hsnd, hlimit⟩ := Gm.free_sound hs
    exact ⟨hsnd, hlimit, le_refl _⟩

namespace GmWorld

variable {w : GmWorld} {o : GmOp}

def Aligned : GmOp → Prop
  | .init _ _ => True
  | .on _ c => c.PageAligned

theorem inv_step (h : Inv w) (ho : Aligned o) : Inv (w.step o) := by
  cases o with
  | init limit pooled =>
    refine ⟨?_, ?_, h.capped⟩
    · intro m hm
      rcases mem_append.mp hm with hold | hnew
      · exact h.mem m hold
      · rw [mem_singleton.mp hnew]
        exact accounted_init _ _ _
    · show w.pool.used = ((w.guests ++ [gmInit limit pooled]).map share).sum
      have hnew : (gmInit limit pooled).share = 0 := ite_self _
      simp only [map_append, sum_append, map_singleton, sum_singleton, hnew, add_zero]
      exact h.used
  | on i c =>
    unfold step
    dsimp only
    cases hi : w.guests[i]? with
    | none => exact h
    | some m =>
      obtain ⟨hsnd, -, hasked⟩ := GmCmd.sound_run (h.sound hi) ho
      have hlt := (List.getElem?_eq_some_iff.mp hi).1
      refine ⟨?_, ?_, hsnd.capped⟩
      · intro m' hm'
        rcases mem_or_eq_of_mem_set hm' with hold | rfl
        · exact (h.mem m' hold).mono hasked
        · exact hsnd.mem
      · exact hsnd.used.trans (sum_set hlt).symm

theorem storesInside_of_inv (h : Inv w) (o : GmOp) : StoresInside w o := by
  rintro i c m m' rfl hstore hi hl hi' a ha
  have hlt := (List.getElem?_eq_some_iff.mp hi).1
  have hs := h.sound hi
  have hm' : m' = (c.run ⟨m, w.pool, w.calloc⟩).mem := by
    unfold step at hi'
    simp only [hi, getElem?_set_self hlt, Option.some.injEq] at hi'
    exact hi'.symm
  rw [hm'] at ha
  cases c with
  | store addr size e val => exact (Gm.store_stored hs addr.toNat_lt).inside hl a ha
  | write | zero => exact (Gm.write_stored hs _).inside hl a ha
  | _ => exact hstore.elim

theorem inv_start (limit : Nat) (grants : Nat → Bool) : Inv (start limit grants) :=
  ⟨nofun, rfl, fun _ => Nat.zero_le _⟩

theorem inv_run {ops : List GmOp} (h : Inv w) (hops : ∀ o ∈ ops, Aligned o) : Inv (w.run ops) := by
  induction ops generalizing w with
  | nil => exact h
  | cons o ops ih =>
    exact ih (inv_step h (hops o mem_cons_self)) fun o' ho' => hops o' (mem_cons_of_mem _ ho')

/-- In every run that maps page-aligned regions the accounts agree, and stores stay inside. -/
theorem kept_run_of_aligned (limit : Nat) (grants : Nat → Bool) (ops : List GmOp)
    (hops : ∀ o ∈ ops, Aligned o) :
    Kept ((start limit grants).run ops) ∧ ∀ o, StoresInside ((start limit grants).run ops) o := by
  have hinv := inv_run (inv_start limit grants) hops
  exact ⟨hinv.kept, storesInside_of_inv hinv⟩

theorem kept_run_of_aligned_page :
    let ops : List GmOp := [.init 65536 true, .on 0 (.map 0x10000 4096 3),
      .on 0 (.store 0x10010 4 .little 7)]
    Kept ((start 8192 fun _ => true).run ops) ∧
      ∀ o, StoresInside ((start 8192 fun _ => true).run ops) o := by
  apply kept_run_of_aligned
  intro o ho
  fin_cases ho
  · trivial
  · exact (by decide : 4096 ∣ 0x10000 ∧ 4096 ∣ 4096)
  · trivial

/-- A region of 5000 bytes, as `--heap 5000` makes one, after a store to its second page. -/
def raggedHeap : List GmOp :=
  [.init 65536 false, .on 0 (.map 0x10000 5000 3), .on 0 (.store 0x11000 4 .little 1)]

def raggedHeapChanges (w : GmWorld) (o : GmOp) (a : Nat) : Bool :=
  match w.guests[0]?, (w.step o).guests[0]? with
  | some m, some m' => !m.loading && m.regions == [⟨0x10000, 5000, 3⟩] && m'.byteAt a != m.byteAt a
  | _, _ => false

/-- Past the end of that region a store goes through: the second page is in the write cache. -/
theorem raggedHeap_store_escapes : ¬∀ (limit : Nat) (grants : Nat → Bool) (ops : List GmOp),
      Kept ((start limit grants).run ops) ∧ ∀ o, StoresInside ((start limit grants).run ops) o := by
  intro h
  have hstore := (h 0 (fun _ => true) raggedHeap).2 (.on 0 (.store 0x11400 4 .little 7))
  have hchg : raggedHeapChanges ((start 0 fun _ => true).run raggedHeap)
      (.on 0 (.store 0x11400 4 .little 7)) 0x11400 = true := by
    decide +kernel
  unfold raggedHeapChanges at hchg
  split at hchg
  case h_1 m m' hm hm' =>
    simp only [Bool.and_eq_true, Bool.not_eq_true', beq_iff_eq, bne_iff_ne] at hchg
    obtain ⟨⟨hrun, hrg⟩, hne⟩ := hchg
    obtain ⟨r, hr, -, hho⟩ := hstore 0 _ m m' rfl trivial hm hrun hm' _ hne
    rw [hrg, mem_singleton] at hr
    rw [hr] at hho
    exact absurd hho (by decide)
  case h_2 => cases hchg

end GmWorld

end Skjegg.Emu
