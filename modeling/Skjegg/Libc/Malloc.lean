import Mathlib.Logic.Function.Basic
import Skjegg.Libc.Sbrk

/-!
# The libc allocator

`libc/malloc.c`, a boundary-tag allocator over the `__libc_sbrk` seam. Headers, footers and links are
words of the byte memory that the payloads are in. Address and `size_t` arithmetic wraps.
-/

namespace Skjegg.Libc

open Skjegg.Lib

/-- `ALIGN`, and `HDR`, which is the same. -/
def align : Nat := 16

def nbins : Nat := 512

def enomem : Nat := 12

/-- The static variables of the allocator, `errno`, the memory and the seam. -/
structure Arena (ρ : Type) where
  mem : Mem
  bins : Nat → Nat
  (large arenaLo brkEnd live peak errno : Nat)
  seam : ρ

section Model

variable (t : DataModel) {ρ : Type} (S : Seam ρ)

def foot : Nat := t.ptr

/-- `MINBLK`: the smallest block holds the two links. -/
def minblk : Nat := (align + 2 * t.ptr + foot t + (align - 1)) / align * align

def plus (a b : Nat) : Nat := (a + b) % t.addresses

def minus (a b : Nat) : Nat := (a + t.addresses - b) % t.addresses

def roundUp (n a : BitVec (8 * t.ptr)) : BitVec (8 * t.ptr) := (n + a - 1) &&& ~~~(a - 1)

variable (h : Arena ρ) (b : Nat)

/-! ## Blocks -/

namespace Arena

def bsize : Nat := Mem.load t.endian t.ptr h.mem b / align * align

def bused : Bool := Mem.load t.endian t.ptr h.mem b % 2 = 1

def fwd : Nat := Mem.load t.endian t.ptr h.mem (b + align)

def bwd : Nat := Mem.load t.endian t.ptr h.mem (b + align + t.ptr)

/-- The word before `b`, which is the footer of the block that ends there. -/
def footBefore : Nat := Mem.load t.endian t.ptr h.mem (minus t b (foot t))

def setWord (a v : Nat) : Arena ρ :=
  { h with mem := Mem.store t.endian t.ptr h.mem a v }

def setFwd (b v : Nat) : Arena ρ := h.setWord t (b + align) v

def setBwd (b v : Nat) : Arena ρ := h.setWord t (b + align + t.ptr) v

end Arena

def setHdr (b size : Nat) (used : Bool) : Arena ρ :=
  (h.setWord t b (size ||| if used then 1 else 0)).setWord t (minus t (plus t b size) (foot t)) size

def binHead (size : Nat) : Nat :=
  if size / align < nbins then h.bins (size / align) else h.large

def setBinHead (size v : Nat) : Arena ρ :=
  if size / align < nbins then { h with bins := Function.update h.bins (size / align) v }
  else { h with large := v }

def pushFree : Arena ρ :=
  let size := h.bsize t b
  let head := binHead h size
  let h := (h.setFwd t b head).setBwd t b 0
  let h := if head ≠ 0 then h.setBwd t head b else h
  setBinHead h size b

def unlinkFree : Arena ρ :=
  let size := h.bsize t b
  let f := h.fwd t b
  let p := h.bwd t b
  let h := if p ≠ 0 then h.setFwd t p f else setBinHead h size f
  if f ≠ 0 then h.setBwd t f p else h

/-! ## Finding a block -/

/-- The loop over the large list, which has at most `fuel` blocks. -/
def largeFit (h : Arena ρ) (need : Nat) : (fuel b : Nat) → Option Nat
  | 0, _ => none
  | fuel + 1, b =>
    if b = 0 then some 0
    else if need ≤ h.bsize t b then some b
    else largeFit h need fuel (h.fwd t b)

/-- `take_fit`: a block of at least `need` bytes taken off its list, or 0. -/
def takeFit (need : Nat) : Option (Nat × Arena ρ) :=
  let idx := need / align
  if idx < nbins ∧ h.bins idx ≠ 0 then some (h.bins idx, unlinkFree t h (h.bins idx))
  else
    match largeFit t h need t.addresses h.large with
    | none => none
    | some b =>
      if b ≠ 0 then some (b, unlinkFree t h b)
      else if idx < nbins then
        match (List.range' (idx + 1) (nbins - (idx + 1))).find? fun i => h.bins i ≠ 0 with
        | some i => some (h.bins i, unlinkFree t h (h.bins i))
        | none => some (0, h)
      else some (0, h)

def sbrk (h : Arena ρ) (incr : Int) : Option Nat × Arena ρ :=
  ((S.sbrk h.seam incr).1, { h with seam := (S.sbrk h.seam incr).2 })

/-- The first use of `grow`: the break is aligned and becomes the arena's lower bound. -/
def openArena : Bool × Arena ρ :=
  match sbrk S h 0 with
  | (none, h) => (false, h)
  | (some p, h) =>
    let mis := p % align
    let pad := if mis ≠ 0 then sbrk S h (align - mis : Nat) else (some p, h)
    match pad with
    | (none, h) => (false, h)
    | (some _, h) =>
      let lo := sbrk S h 0
      -- `(char *)-1` when the seam does not say
      let p := lo.1.getD (t.addresses - 1)
      (true, { lo.2 with arenaLo := p, brkEnd := p })

/-- `grow` once the arena is open: `need` fresh bytes, joined to the top block when that is free. -/
def extendArena (need : Nat) : Bool × Arena ρ :=
  match sbrk S h (t.toLong need) with
  | (none, h) => (false, h)
  | (some p, h) =>
    let h := setHdr t { h with brkEnd := plus t p need } p need false
    if p > h.arenaLo then
      let psz := h.footBefore t p
      let prev := minus t p psz
      if h.bused t prev then (true, pushFree t h p)
      else (true, pushFree t (setHdr t (unlinkFree t h prev) prev (plus t psz need) false) prev)
    else (true, pushFree t h p)

def grow (need : Nat) : Bool × Arena ρ :=
  if h.arenaLo = 0 then
    match openArena t S h with
    | (false, h) => (false, h)
    | (true, h) => extendArena t S h need
  else extendArena t S h need

/-! ## Entry points -/

def mallocLoop (need : Nat) : (fuel : Nat) → Arena ρ → Option (Nat × Arena ρ)
  | 0, _ => none
  | fuel + 1, h =>
    match takeFit t h need with
    | none => none
    | some (b, h) =>
      if b ≠ 0 then some (b, h)
      else
        match grow t S h need with
        | (false, h) => some (0, { h with errno := enomem })
        | (true, h) => mallocLoop need fuel h

/-- The rest of `malloc`: the block is split when the tail makes a block, and counted. -/
def mallocTake (need b : Nat) : Nat × Arena ρ :=
  let bs := h.bsize t b
  let h :=
    if minblk t ≤ minus t bs need then
      let rem := plus t b need
      setHdr t (pushFree t (setHdr t h rem (minus t bs need) false) rem) b need true
    else setHdr t h b bs true
  let live := plus t h.live (h.bsize t b)
  (plus t b align, { h with live := live, peak := if live > h.peak then live else h.peak })

variable (nbytes : BitVec (8 * t.ptr))

def mallocNeed : Nat :=
  let need := (roundUp t (nbytes + BitVec.ofNat _ align + BitVec.ofNat _ (foot t))
    (BitVec.ofNat _ align)).toNat
  if need < minblk t then minblk t else need

def malloc : Option (Nat × Arena ρ) :=
  if nbytes = 0 then some (0, h)
  else
    match mallocLoop t S (mallocNeed t nbytes) t.addresses h with
    | none => none
    | some (0, h) => some (0, h)
    | some (b, h) => some (mallocTake t h (mallocNeed t nbytes) b)

/-- The forward half of coalescing in `free`: a free block behind is joined to the `sz` bytes at `b`. -/
def freeForward (b sz : Nat) : Nat × Arena ρ :=
  let next := plus t b sz
  if next < h.brkEnd ∧ ¬ h.bused t next then
    let h := unlinkFree t h next
    (plus t sz (h.bsize t next), h)
  else (sz, h)

/-- The backward half: the `sz` bytes at `b` are joined to a free block in front and filed. -/
def freeBackward (b sz : Nat) : Arena ρ :=
  if b > h.arenaLo then
    let psz := h.footBefore t b
    let prev := minus t b psz
    if ¬ h.bused t prev then
      pushFree t (setHdr t (unlinkFree t h prev) prev (plus t sz psz) false) prev
    else pushFree t (setHdr t h b sz false) b
  else pushFree t (setHdr t h b sz false) b

def free (h : Arena ρ) (ap : Nat) : Arena ρ :=
  if ap = 0 then h
  else
    let b := minus t ap align
    if ¬ h.bused t b then h
    else
      -- marked free at once, so that a repeat is caught
      let h := h.setWord t b (Mem.load t.endian t.ptr h.mem b / 2 * 2)
      let sz := h.bsize t b
      let joined := freeForward t { h with live := minus t h.live sz } b sz
      freeBackward t joined.2 b joined.1

def calloc (n size : BitVec (8 * t.ptr)) : Option (Nat × Arena ρ) :=
  let total := n * size
  if n ≠ 0 ∧ total.toNat / n.toNat ≠ size.toNat then some (0, h)
  else
    match malloc t S h total with
    | none => none
    | some (0, h) => some (0, h)
    | some (p, h) => some (p, { h with mem := h.mem.write p (List.replicate total.toNat 0) })

def realloc (ap : Nat) (nbytes : BitVec (8 * t.ptr)) : Option (Nat × Arena ρ) :=
  if ap = 0 then malloc t S h nbytes
  else if nbytes = 0 then some (0, free t h ap)
  else
    let b := minus t ap align
    let usable := minus t (minus t (h.bsize t b) align) (foot t)
    if nbytes.toNat ≤ usable then some (ap, h)
    else
      match malloc t S h nbytes with
      | none => none
      | some (0, h) => some (0, h)
      | some (np, h) => some (np, free t { h with mem := h.mem.copy np ap usable } ap)

end Model

def arenaInit {ρ : Type} (mem : Mem) (seam : ρ) : Arena ρ where
  mem := mem
  bins := fun _ => 0
  large := 0
  arenaLo := 0
  brkEnd := 0
  live := 0
  peak := 0
  errno := 0
  seam := seam

/-! ## Clients -/

inductive MallocOp (t : DataModel)
  | malloc (nbytes : BitVec (8 * t.ptr))
  | calloc (n size : BitVec (8 * t.ptr))
  | realloc (p : Nat) (nbytes : BitVec (8 * t.ptr))
  | free (p : Nat)
  | store (p offset : Nat) (value : UInt8)

/-- The heap, and the pointers that the client holds, each with the bytes it asked for. -/
structure MallocClient (ρ : Type) where
  heap : Arena ρ
  owned : List (Nat × Nat)

namespace MallocClient

variable {ρ : Type}

def release (owned : List (Nat × Nat)) (p : Nat) : List (Nat × Nat) := owned.eraseP fun q => q.1 = p

def receive (c : MallocClient ρ) (nbytes : Nat) (r : Nat × Arena ρ) : MallocClient ρ × Nat :=
  (⟨r.2, if r.1 = 0 then c.owned else (r.1, nbytes) :: c.owned⟩, r.1)

/-- The client after `realloc`: when it fails the old block stays, and a request for no bytes gives
it back. -/
def exchange (c : MallocClient ρ) (p nbytes : Nat) (r : Nat × Arena ρ) : MallocClient ρ × Nat :=
  if r.1 = 0 ∧ nbytes ≠ 0 then (⟨r.2, c.owned⟩, 0)
  else receive ⟨c.heap, release c.owned p⟩ nbytes r

end MallocClient

def mallocStep (t : DataModel) {ρ : Type} (S : Seam ρ) (c : MallocClient ρ) :
    MallocOp t → Option (MallocClient ρ × Nat)
  | .malloc nbytes => (malloc t S c.heap nbytes).map (c.receive nbytes.toNat)
  | .calloc n size => (calloc t S c.heap n size).map (c.receive (n.toNat * size.toNat))
  | .realloc p nbytes => (realloc t S c.heap p nbytes).map (c.exchange p nbytes.toNat)
  | .free p => some (⟨Libc.free t c.heap p, MallocClient.release c.owned p⟩, 0)
  | .store p offset value =>
    some (⟨{ c.heap with mem := Function.update c.heap.mem (p + offset) value }, c.owned⟩, 0)

end Skjegg.Libc
