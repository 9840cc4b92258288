import Skjegg.Emu.Elf

/-!
# Guest memory

`guest.c` gives a guest a 32-bit address space of regions. A page gets a host block when it is first
touched, charged to the guest and to a shared pool. A second page table caches the blocks that may be
stored to. Sums that the source takes in 32 bits are taken modulo `2 ^ 32`.
-/

namespace Skjegg.Emu

open Skjegg.Lib Function

/-- A range of accessible addresses; `prot` has the bits `GM_R`, `GM_W` and `GM_X`. -/
structure Region where
  (base size prot : Nat)
  deriving DecidableEq, Repr

namespace Region

def Holds (r : Region) (addr : Nat) : Prop := r.base ≤ addr ∧ addr - r.base < r.size

instance (r : Region) (addr : Nat) : Decidable (r.Holds addr) := inferInstanceAs (Decidable (_ ∧ _))

def writable (r : Region) : Bool := r.prot.testBit 1

end Region

/-- The host's allocator: whether it grants its `n`-th request, whose block is called `n`, and the
requests so far. -/
structure Calloc where
  grants : Nat → Bool
  asked : Nat

def Calloc.take (c : Calloc) : Option Nat × Calloc :=
  (if c.grants c.asked then some c.asked else none, { c with asked := c.asked + 1 })

/-- `struct gm_pool` -/
structure Pool where
  (used limit : Nat)
  deriving DecidableEq, Repr

namespace Pool

def charge (p : Pool) (pooled : Bool) : Pool :=
  if pooled then { p with used := p.used + 4096 } else p

def refund (p : Pool) (pooled : Bool) : Pool :=
  if pooled && decide (4096 ≤ p.used) then { p with used := p.used - 4096 } else p

def leave (p : Pool) (pooled : Bool) (committed : Nat) : Pool :=
  if pooled then { p with used := if committed ≤ p.used then p.used - committed else 0 } else p

end Pool

/-- The first bad access. -/
structure Fault where
  addr : Nat
  write : Bool
  why : String
  guard : Bool
  deriving DecidableEq, Repr

/-- The vDSO image aliased into a guest: its bytes, its address and its size. -/
structure Vdso where
  host : Nat → UInt8
  (vaddr size : Nat)

/-- `guest_mem`.  The tables are indexed by page number; `leaf` and `wleaf` say which of their second
levels are allocated. -/
structure GuestMem where
  (dir wdir : Nat → Option Nat)
  (leaf wleaf : Nat → Bool)
  /-- the bytes of the host blocks -/
  block : Nat → Nat → UInt8
  regions : List Region
  /-- the region that was found last, by its place in the table -/
  last : Option Nat
  (mmapNext committed limit : Nat)
  /-- `pool` is not null -/
  (pooled loading : Bool)
  /-- the size of the one buffer behind the guest, and its bytes -/
  externSize : Option Nat
  ram : Nat → UInt8
  vdso : Option Vdso
  fault : Option Fault

/-- A guest's memory together with what it shares with the others: the pool and the host's allocator. -/
structure Gm where
  mem : GuestMem
  pool : Pool
  calloc : Calloc

/-- `gm_init`, and the pool the caller puts in. -/
def gmInit (limit : Nat) (pooled : Bool) : GuestMem where
  dir _ := none
  wdir _ := none
  leaf _ := false
  wleaf _ := false
  block _ _ := 0
  regions := []
  last := none
  mmapNext := 0
  committed := 0
  limit := limit
  pooled := pooled
  loading := false
  externSize := none
  ram _ := 0
  vdso := none
  fault := none

/-! ## Regions -/

variable (addr : Nat)

namespace GuestMem

variable (m : GuestMem)

/-- `gm_map`: false when the table is full. -/
def map (base size prot : Nat) : Bool × GuestMem :=
  if maxRegions ≤ m.regions.length then (false, m)
  else
    (true, { m with regions := m.regions ++ [⟨base, size, prot⟩] })

def roundPages (size : Nat) : Nat := (size + 4095) % 2 ^ 32 / 4096 * 4096

def mmapBase : Nat := 0x70000000

def ceiling : Nat :=
  match m.externSize with
  | some size => size
  | none => 2 ^ 32

def cursor : Nat :=
  if m.mmapNext = 0 then mmapBase else m.mmapNext

def guardSize (guard : Bool) : Nat :=
  if guard then 4096 else 0

def guardSlots (guard : Bool) : Nat :=
  if guard then 1 else 0

def mapGuarded (size : Nat) (guard : Bool) : GuestMem :=
  let next := m.cursor
  let m := if guard then (m.map next 4096 0).2 else m
  (m.map ((next + guardSize guard) % 2 ^ 32) size 3).2

/-- `gm_mmap`: the base of the new mapping, or 0. -/
def mmap (size flags : Nat) : Nat × GuestMem :=
  let size := roundPages size
  let guard := flags.testBit 0
  let base := m.cursor + guardSize guard
  let stop := base + size + 4096
  if size = 0 then (0, m)
  else if m.ceiling < stop ∨ maxRegions < m.regions.length + 1 + guardSlots guard then
    (0, { m with mmapNext := m.cursor })
  else
    (base % 2 ^ 32, { m.mapGuarded size guard with mmapNext := stop % 2 ^ 32 })

def regionOf : Option Region × GuestMem :=
  let scan :=
    match m.regions.findIdx? fun r => decide (r.Holds addr) with
    | some i => (m.regions[i]?, { m with last := some i })
    | none => (none, m)
  match m.last.bind fun i => m.regions[i]? with
  | some r => if r.Holds addr then (some r, m) else scan
  | none => scan

/-- `gm_fault`: only the first fault is recorded. -/
def setFault (write : Bool) (why : String) : GuestMem :=
  match m.fault with
  | some _ => m
  | none => { m with fault := some ⟨addr, write, why, false⟩ }

def setGuardFault (write : Bool) : GuestMem :=
  let m := m.setFault addr write "stack overflow"
  { m with fault := m.fault.map fun f => { f with guard := true } }

end GuestMem

/-! ## Pages -/

/-- A page in host memory: a block of its own, or a part of the buffer or the vDSO image. -/
inductive Page
  | block (b : Nat)
  | ram (base : Nat)
  | vdso (base : Nat)
  deriving DecidableEq, Repr

namespace Gm

variable (s : Gm)

def fail (write : Bool) (why : String) : Gm :=
  { s with mem := s.mem.setFault addr write why }

def checkRegion (write : Bool) : Option Region × Gm :=
  let (found, mem) := s.mem.regionOf addr
  let s := { s with mem := mem }
  match found with
  | none => (none, s.fail addr write "unmapped")
  | some r =>
    if r.prot = 0 then (none, { s with mem := s.mem.setGuardFault addr write })
    else if write && !r.writable && !s.mem.loading then (none, s.fail addr true "read-only")
    else
      (some r, s)

def needLeaf (page : Nat) : Bool × Gm :=
  if s.mem.leaf (page / 1024) then (true, s)
  else
    match s.calloc.take with
    | (none, c) => (false, { s with calloc := c })
    | (some _, c) =>
      (true, { s with
        calloc := c
        mem := { s.mem with leaf := update s.mem.leaf (page / 1024) true } })

def needWleaf (page : Nat) : Bool × Gm :=
  if s.mem.wleaf (page / 1024) then (true, s)
  else
    match s.calloc.take with
    | (none, c) => (false, { s with calloc := c })
    | (some _, c) =>
      (true, { s with
        calloc := c
        mem := { s.mem with wleaf := update s.mem.wleaf (page / 1024) true } })

def attach (page : Nat) : Option Nat × Gm :=
  match s.calloc.take with
  | (none, c) => (none, { s with calloc := c })
  | (some b, c) =>
    (some b, { s with
      calloc := c
      pool := s.pool.charge s.mem.pooled
      mem := { s.mem with
        dir := update s.mem.dir page (some b)
        block := update s.mem.block b fun _ => 0
        committed := s.mem.committed + 4096 } })

/-- The block of a page that is not committed yet. -/
def commitNew (write : Bool) : Option Nat × Gm :=
  if s.mem.limit < s.mem.committed + 4096 then (none, s.fail addr write "memory limit")
  else if s.mem.pooled ∧ s.pool.limit ≠ 0 ∧ s.pool.limit < s.pool.used + 4096 then
    (none, s.fail addr write "memory pool exhausted")
  else
    match s.needLeaf (addr / 4096) with
    | (false, s) => (none, s.fail addr write "out of host memory")
    | (true, s) =>
      match s.attach (addr / 4096) with
      | (none, s) => (none, s.fail addr write "out of host memory")
      | (some b, s) => (some b, s)

def commit (write : Bool) : Option Nat × Gm :=
  match s.mem.dir (addr / 4096) with
  | some b => (some b, s)
  | none => s.commitNew addr write

def warm (r : Region) (page b : Nat) : Gm :=
  if r.writable then
    match s.needWleaf page with
    | (false, s) => s
    | (true, s) => { s with mem := { s.mem with wdir := update s.mem.wdir page (some b) } }
  else
    s

def sparsePage (write : Bool) : Option Page × Gm :=
  match (if write then s.mem.wdir else s.mem.dir) (addr / 4096) with
  | some b => (some (.block b), s)
  | none =>
    match s.checkRegion addr write with
    | (none, s) => (none, s)
    | (some r, s) =>
      match s.commit addr write with
      | (none, s) => (none, s)
      | (some b, s) => (some (.block b), s.warm r (addr / 4096) b)

/-- `gm_page` of a 32-bit address. -/
def page (write : Bool) : Option Page × Gm :=
  match s.mem.externSize with
  | some size =>
    if size ≤ addr then (none, s.fail addr write "unmapped")
    else
      match s.checkRegion addr write with
      | (none, s) => (none, s)
      | (some _, s) => (some (.ram (pageOf addr)), s)
  | none =>
    match s.mem.vdso with
    | none => s.sparsePage addr write
    | some v =>
      if v.vaddr ≤ addr ∧ addr - v.vaddr < v.size then
        if write && !s.mem.loading then (none, s.fail addr true "read-only")
        else
          (some (.vdso (pageOf (addr - v.vaddr))), s)
      else
        s.sparsePage addr write

end Gm

/-! ## Bytes -/

namespace GuestMem

variable (m : GuestMem)

def peek (p : Page) (off : Nat) : UInt8 :=
  match p with
  | .block b => m.block b off
  | .ram base => m.ram (base + off)
  | .vdso base =>
    match m.vdso with
    | some v => v.host (base + off)
    | none => 0

def poke (p : Page) (off : Nat) (val : UInt8) : GuestMem :=
  match p with
  | .block b => { m with block := update m.block b (update (m.block b) off val) }
  | .ram base => { m with ram := update m.ram (base + off) val }
  | .vdso base =>
    { m with vdso := m.vdso.map fun v => { v with host := update v.host (base + off) val } }

def pokes (m : GuestMem) (p : Page) (off : Nat) : List UInt8 → GuestMem
  | [] => m
  | val :: vals => (m.poke p off val).pokes p (off + 1) vals

end GuestMem

namespace Gm

variable (s : Gm)

def read8 : UInt8 × Gm :=
  match s.page addr false with
  | (none, s) => (0, s)
  | (some p, s) => (s.mem.peek p (addr % 4096), s)

def write8 (val : UInt8) : Gm :=
  match s.page addr true with
  | (none, s) => s
  | (some p, s) => { s with mem := s.mem.poke p (addr % 4096) val }

def readOut (s : Gm) (addr : Nat) : Nat → List UInt8 × Gm
  | 0 => ([], s)
  | n + 1 =>
    let (b, s) := s.read8 (addr % 2 ^ 32)
    let (bs, s) := s.readOut (addr + 1) n
    (b :: bs, s)

def write (s : Gm) (addr : Nat) : List UInt8 → Gm
  | [] => s
  | b :: bs => (s.write8 (addr % 2 ^ 32) b).write (addr + 1) bs

def zero (addr len : Nat) : Gm := s.write addr (List.replicate len 0)

def load (addr size : Nat) (e : Endian) : Nat × Gm :=
  if addr % 4096 + size ≤ 4096 then
    match s.page addr false with
    | (none, s) => (0, s)
    | (some p, s) => (e.decode ((List.range size).map fun i => s.mem.peek p (addr % 4096 + i)), s)
  else
    let (bs, s) := s.readOut addr size
    (e.decode bs, s)

/-- `gm_store` of 1, 2 or 4 bytes. -/
def store (addr size : Nat) (e : Endian) (val : Nat) : Gm :=
  if addr % 4096 + size ≤ 4096 then
    match s.page addr true with
    | (none, s) => s
    | (some p, s) => { s with mem := s.mem.pokes p (addr % 4096) (e.encode size val) }
  else
    s.write addr (e.encode size val)

/-! ## Giving memory back -/

def freePage (page : Nat) : Gm :=
  match s.mem.dir page with
  | none => s
  | some _ =>
    { s with
      pool := s.pool.refund s.mem.pooled
      mem := { s.mem with
        dir := update s.mem.dir page none
        wdir := update s.mem.wdir page none
        committed := if 4096 ≤ s.mem.committed then s.mem.committed - 4096 else s.mem.committed } }

/-- The first region of exactly this range goes, with the guard page right below it. -/
def dropRegion (base size : Nat) (rs : List Region) : List Region :=
  match rs.findIdx? fun r => r.base = base ∧ r.size = size with
  | none => rs
  | some i =>
    match i with
    | 0 => rs.eraseIdx 0
    | j + 1 =>
      match rs[j]? with
      | none => rs.eraseIdx (j + 1)
      | some g =>
        if g.prot = 0 ∧ (g.base + g.size) % 2 ^ 32 = base then (rs.eraseIdx (j + 1)).eraseIdx j
        else
          rs.eraseIdx (j + 1)

/-- `gm_munmap` -/
def munmap (base size : Nat) : Gm :=
  let size := GuestMem.roundPages size
  if size = 0 then s
  else if 2 ^ 32 < base + size then s
  else
    let s := (List.range (size / 4096)).foldl (fun s k => s.freePage ((base + k * 4096) / 4096)) s
    { s with mem := { s.mem with regions := dropRegion base size s.mem.regions, last := none } }

/-- `gm_free` -/
def free : Gm :=
  { s with
    pool := s.pool.leave s.mem.pooled s.mem.committed
    mem := { s.mem with
      dir := fun _ => none
      wdir := fun _ => none
      leaf := fun _ => false
      wleaf := fun _ => false
      committed := 0 } }

end Gm

def GuestMem.setExtern (m : GuestMem) (size : Nat) : GuestMem :=
  ({ m with externSize := some size }.map 0 size 7).2

def GuestMem.attachVdso (m : GuestMem) (v : Vdso) : GuestMem :=
  let m := { m with vdso := some v }
  if m.externSize.isSome then m else (m.map v.vaddr v.size 5).2

end Skjegg.Emu
