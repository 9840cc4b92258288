import Skjegg.Lib.Run
import Skjegg.Lib.Words
import Skjegg.Libc.Sbrk

/-!
# The Kobold guest heap

`kobold/gheap_core.h`, and the memory source of the hosted runtime (`gh_sbrk` in `kobold/rt_host.c`).
Block headers are in the byte memory, at their offsets in `struct gh_block`. The `GH_POISON` debug
build is left out.
-/

namespace Skjegg.Kobold

open Skjegg.Lib Skjegg.Libc

/-! ## The hosted memory source -/

/-- `GHEAP_CAP`: the bytes reserved for the heap. -/
def gheapCap : Nat := 256 <<< 20

/-- `g_brk`, the bytes handed out from the region mapped at `base`. -/
structure HostRegion where
  brk : Nat
  brk_le : brk ≤ gheapCap

/-- `gh_sbrk` after the region has been mapped. -/
def ghSbrk (base : Nat) (r : HostRegion) (incr : Int) : Option Nat × HostRegion :=
  if incr < 0 then
    let less := (-incr % 2 ^ 32).toNat
    if less > r.brk then (none, r)
    else (some (base + r.brk), ⟨r.brk - less, (Nat.sub_le _ _).trans r.brk_le⟩)
  else
    let brk := (r.brk + (incr % 2 ^ 32).toNat) % 2 ^ 32
    if h : brk > gheapCap ∨ brk < r.brk then (none, r)
    else (some (base + r.brk), ⟨brk, by omega⟩)

/-- The mapped region as a seam. -/
def hostSeam (base : Nat) : Seam HostRegion where
  sbrk := ghSbrk base
  brk r := base + r.brk

/-! ## Blocks -/

def ghAlign : U32 := 16

def ghNbins : Nat := 512

/-- The static variables of the allocator, the memory and the region it grows. -/
structure Gheap (ρ : Type) where
  mem : Mem
  bins : Nat → Nat
  large : Nat
  liveBytes : U32
  region : ρ

def ghRoundUp (n a : U32) : U32 := (n + a - 1) &&& ~~~(a - 1)

section Model

variable (t : DataModel) {ρ : Type} (S : Seam ρ)

/-- `GH_HDR`: `struct gh_block` is two 32-bit words and a pointer. -/
def ghHdr : U32 := ghRoundUp (BitVec.ofNat 32 (4 + 4 + t.ptr)) ghAlign

variable (h : Gheap ρ) (b : Nat)

namespace Gheap

/-- `b->size`. -/
def size : Nat := Mem.load t.endian 4 h.mem b

def isFree : Nat := Mem.load t.endian 4 h.mem (b + 4)

def next : Nat := Mem.load t.endian t.ptr h.mem (b + 8)

def setSize (b v : Nat) : Gheap ρ :=
  { h with mem := Mem.store t.endian 4 h.mem b v }

def setIsFree (b v : Nat) : Gheap ρ :=
  { h with mem := Mem.store t.endian 4 h.mem (b + 4) v }

def setNext (b v : Nat) : Gheap ρ :=
  { h with mem := Mem.store t.endian t.ptr h.mem (b + 8) v }

end Gheap

def ghPushFree : Gheap ρ :=
  let idx := h.size t b / ghAlign.toNat
  let h := h.setIsFree t b 1
  if idx < ghNbins then { h.setNext t b (h.bins idx) with bins := Function.update h.bins idx b }
  else
    { h.setNext t b h.large with large := b }

def ghPayload : Nat := b + (ghHdr t).toNat

variable (payload : Nat)

def ghBlockOf : Nat := payload - (ghHdr t).toNat

/-! ## Allocation -/

/-- The end of each path of `gh_alloc`: the block is marked live and counted. -/
def ghHandOut : Nat × Gheap ρ :=
  let h := (h.setIsFree t b 0).setNext t b 0
  (ghPayload t b, { h with liveBytes := h.liveBytes + BitVec.ofNat 32 (h.size t b) })

/-- The loop over the large list: the first block that fits and the one before it. The list has at
most `fuel` blocks. -/
def ghFirstFit (h : Gheap ρ) (need : Nat) : (fuel prev b : Nat) → Option (Option (Nat × Nat))
  | 0, _, _ => none
  | fuel + 1, prev, b =>
    if b = 0 then some none
    else if h.size t b < need then ghFirstFit h need fuel b (h.next t b)
    else some (some (prev, b))

/-- A block taken off the large list and split when the rest makes a block. -/
def ghTakeLarge (need prev b : Nat) : Nat × Gheap ρ :=
  let h := if prev ≠ 0 then h.setNext t prev (h.next t b) else { h with large := h.next t b }
  let rest := h.size t b - need
  let h :=
    if rest ≥ (ghHdr t + ghAlign).toNat then
      ghPushFree t ((h.setSize t (b + need) rest).setSize t b need) (b + need)
    else h
  ghHandOut t h b

def ghCarve (need : Nat) : Nat × Gheap ρ :=
  match S.sbrk h.region (t.toLong need) with
  | (none, region) => (0, { h with region := region })
  | (some raw, region) => ghHandOut t (({ h with region := region } : Gheap ρ).setSize t raw need) raw

def ghAlloc (nbytes : U32) : Option (Nat × Gheap ρ) :=
  if nbytes = 0 then some (0, h)
  else
    let need := (ghRoundUp (nbytes + ghHdr t) ghAlign).toNat
    let idx := need / ghAlign.toNat
    if idx < ghNbins then
      let b := h.bins idx
      if b ≠ 0 then some (ghHandOut t { h with bins := Function.update h.bins idx (h.next t b) } b)
      else some (ghCarve t S h need)
    else
      match ghFirstFit t h need (S.brk h.region) 0 h.large with
      | none => none
      | some none => some (ghCarve t S h need)
      | some (some (prev, b)) => some (ghTakeLarge t h need prev b)

def ghFree : Gheap ρ :=
  if payload = 0 then h
  else
    let b := ghBlockOf t payload
    if h.isFree t b ≠ 0 then h
    else ghPushFree t { h with liveBytes := h.liveBytes - BitVec.ofNat 32 (h.size t b) } b

def ghRealloc (nbytes : U32) : Option (Nat × Gheap ρ) :=
  if payload = 0 then ghAlloc t S h nbytes
  else if nbytes = 0 then some (0, ghFree t h payload)
  else
    let b := ghBlockOf t payload
    let need := (ghRoundUp (nbytes + ghHdr t) ghAlign).toNat
    if need ≤ h.size t b then some (payload, h)
    else
      let oldpayload := (BitVec.ofNat 32 (h.size t b) - ghHdr t).toNat
      match ghAlloc t S h nbytes with
      | none => none
      | some (0, h) => some (0, h)
      | some (np, h) =>
        let copy := if oldpayload < nbytes.toNat then oldpayload else nbytes.toNat
        some (np, ghFree t { h with mem := h.mem.copy np payload copy } payload)

end Model

/-! ## Clients -/

/-- A pointer that a client holds: `NULL`, or what one of its earlier calls returned. -/
inductive GhPtr
  | null
  | result (i : Nat)

/-- What a client does: the calls, and stores to memory it was given. -/
inductive GhOp
  | alloc (nbytes : U32)
  | free (p : GhPtr)
  | realloc (p : GhPtr) (nbytes : U32)
  | store (p : GhPtr) (offset : Nat) (value : UInt8)

structure GhClient (ρ : Type) where
  heap : Gheap ρ
  results : List Nat

def GhClient.addr {ρ : Type} (c : GhClient ρ) : GhPtr → Nat
  | .null => 0
  | .result i => c.results.getD i 0

/-- One operation of a client; the result is the pointer returned by the call. -/
def ghStep (t : DataModel) {ρ : Type} (S : Seam ρ) (c : GhClient ρ) :
    GhOp → Option (GhClient ρ × Nat)
  | .alloc nbytes => (ghAlloc t S c.heap nbytes).map fun r => (⟨r.2, c.results ++ [r.1]⟩, r.1)
  | .free p => some (⟨ghFree t c.heap (c.addr p), c.results⟩, 0)
  | .realloc p nbytes =>
    (ghRealloc t S c.heap (c.addr p) nbytes).map fun r => (⟨r.2, c.results ++ [r.1]⟩, r.1)
  | .store p offset value =>
    some (⟨{ c.heap with mem := Function.update c.heap.mem (c.addr p + offset) value }, c.results⟩, 0)

def ghInit {ρ : Type} (mem : Mem) (region : ρ) : Gheap ρ where
  mem := mem
  bins := fun _ => 0
  large := 0
  liveBytes := 0
  region := region

end Skjegg.Kobold
