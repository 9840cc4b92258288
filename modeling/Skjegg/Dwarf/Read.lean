import Skjegg.Lib.Loop

/-!
# The DWARF reader

`dwread.c` builds a line table and a function table from an ELF32 image a guest may have chosen.
Loads, table indices and divisions can go wrong; loops that might not end have their turns counted.
-/

namespace Skjegg.Dwarf

open Skjegg.Lib

inductive Fault
  | byte (index : Nat)
  | table (index : Nat)
  | divideByZero
  | spent
  deriving DecidableEq, Repr

abbrev Checked := Except Fault

abbrev Image := List UInt8

def byteAt (img : Image) (i : Nat) : Checked Nat :=
  match img[i]? with
  | some b => .ok b.toNat
  | none => .error (.byte i)

def entryAt {α : Type} (table : List α) (i : Nat) : Checked α :=
  match table[i]? with
  | some a => .ok a
  | none => .error (.table i)

def divMod (a b : Nat) : Checked (Nat × Nat) :=
  if b = 0 then .error .divideByZero else .ok (a / b, a % b)

def word32 (big : Bool) (b₀ b₁ b₂ b₃ : Nat) : Nat :=
  if big then b₀ * 2 ^ 24 + b₁ * 2 ^ 16 + b₂ * 2 ^ 8 + b₃
  else b₀ + b₁ * 2 ^ 8 + b₂ * 2 ^ 16 + b₃ * 2 ^ 24

def word16 (big : Bool) (b₀ b₁ : Nat) : Nat :=
  if big then b₀ * 2 ^ 8 + b₁ else b₀ + b₁ * 2 ^ 8

def le32 (img : Image) (p : Nat) (big : Bool) : Checked Nat := do
  let b₀ ← byteAt img p
  let b₁ ← byteAt img (p + 1)
  let b₂ ← byteAt img (p + 2)
  let b₃ ← byteAt img (p + 3)
  pure (word32 big b₀ b₁ b₂ b₃)

def le16 (img : Image) (p : Nat) (big : Bool) : Checked Nat := do
  let b₀ ← byteAt img p
  let b₁ ← byteAt img (p + 1)
  pure (word16 big b₀ b₁)

/-- The value of 32 bits as an `int`. -/
def toInt (n : Nat) : Int := (BitVec.ofNat 32 n).toInt

/-! ## The bounded cursor -/

/-- `struct rd`: a span of the image and a position in it.  Positions are `size_t`. -/
structure Rd where
  (base len : Nat)
  pos : Nat := 0
  bad : Bool := false
  big : Bool
  deriving DecidableEq, Repr

def sizeT (n : Nat) : Nat := n % 2 ^ 64

variable (img : Image) (c : Rd)

def rdU8 : Checked (Nat × Rd) :=
  if sizeT (c.pos + 1) > c.len then .ok (0, { c with bad := true })
  else do
    let b ← byteAt img (c.base + c.pos)
    pure (b, { c with pos := sizeT (c.pos + 1) })

def rdU16 : Checked (Nat × Rd) :=
  if sizeT (c.pos + 2) > c.len then .ok (0, { c with bad := true, pos := c.len })
  else do
    let v ← le16 img (c.base + c.pos) c.big
    pure (v, { c with pos := sizeT (c.pos + 2) })

def rdU32 : Checked (Nat × Rd) :=
  if sizeT (c.pos + 4) > c.len then .ok (0, { c with bad := true, pos := c.len })
  else do
    let v ← le32 img (c.base + c.pos) c.big
    pure (v, { c with pos := sizeT (c.pos + 4) })

def Rd.room : Nat := c.len - c.pos + 1

def lebBits (b shift : Nat) : Nat :=
  if shift < 64 then b % 128 * 2 ^ shift % 2 ^ 64 else 0

/-- The loop of `rd_uleb` and `rd_sleb`; `sign` gives the bits above the last byte. -/
def rdLebFrom (sign : Nat → Nat → Nat) : Nat → Nat → Nat → Rd → Checked (Nat × Rd)
  | 0, _, _, _ => .error .spent
  | room + 1, v, shift, c => do
      let (b, c) ← rdU8 img c
      let v := v ||| lebBits b shift
      if b < 128 ∨ c.bad then pure (v ||| sign b (shift + 7), c) else rdLebFrom sign room v (shift + 7) c

def ulebSign (_ _ : Nat) : Nat := 0

def rdUleb : Checked (Nat × Rd) := rdLebFrom img ulebSign c.room 0 0 c

def slebSign (b shift : Nat) : Nat :=
  if shift < 64 ∧ b % 128 ≥ 64 then 2 ^ 64 - 2 ^ shift else 0

/-- The number as an `int64_t`. -/
def rdSleb : Checked (Int × Rd) := do
  let (v, c) ← rdLebFrom img slebSign c.room 0 0 c
  pure ((BitVec.ofNat 64 v).toInt, c)

def skipString : Nat → Rd → Checked Rd
  | 0, _ => .error .spent
  | room + 1, c =>
    if c.pos < c.len then do
      let b ← byteAt img (c.base + c.pos)
      if b = 0 then pure c else skipString room { c with pos := c.pos + 1 }
    else
      pure c

def rdStr : Checked (Option Nat × Rd) := do
  let start := c.base + c.pos
  let c ← skipString img c.room c
  if c.pos ≥ c.len then pure (none, { c with bad := true })
  else pure (some start, { c with pos := c.pos + 1 })

def lastString (s : Option Nat) (c : Rd) : Checked Bool :=
  match s with
  | none => .ok true
  | some start => do
      let b ← byteAt img start
      pure (b == 0 || c.bad)

/-! ## Sections -/

structure ElfSec where
  (data size link entsize : Nat)
  deriving DecidableEq, Repr

def elfSection (idx : Int) (big : Bool) : Checked (Option ElfSec) := do
  let shoff ← le32 img 32 big
  let shentsize ← le16 img 46 big
  let shnum ← le16 img 48 big
  if idx < 0 ∨ (shnum : Int) ≤ idx then pure none
  else if shoff + shentsize * shnum > img.length then pure none
  else do
    let sh := shoff + idx.toNat * shentsize
    let off ← le32 img (sh + 16) big
    let size ← le32 img (sh + 20) big
    if off + size > img.length then pure none
    else do
      let link ← le32 img (sh + 24) big
      let entsize ← le32 img (sh + 36) big
      pure (some ⟨off, size, link, entsize⟩)

def strEq (s : Nat) : List Nat → Checked Bool
  | [] => do
      let b ← byteAt img s
      pure (b == 0)
  | c :: name => do
      let b ← byteAt img s
      if b = c then strEq (s + 1) name else pure false

def nameIs (strs : ElfSec) (name : List Nat) (nm : Nat) : Checked Bool :=
  if nm < strs.size then strEq img (strs.data + nm) name else .ok false

/-- The section headers from number `i` on, `left` of them. -/
def elfFindFrom (strs : ElfSec) (shoff shentsize : Nat) (name : List Nat) (big : Bool) :
    Nat → Nat → Checked (Option Nat)
  | 0, _ => .ok none
  | left + 1, i => do
      let nm ← le32 img (shoff + i * shentsize) big
      let found ← nameIs img strs name nm
      if found then pure (some i) else elfFindFrom strs shoff shentsize name big left (i + 1)

def elfFind (name : List Nat) (big : Bool) : Checked (Option Nat) := do
  let shoff ← le32 img 32 big
  let shentsize ← le16 img 46 big
  let shnum ← le16 img 48 big
  let shstrndx ← le16 img 50 big
  match ← elfSection img shstrndx big with
  | none => pure none
  | some strs =>
    if shoff + shentsize * shnum > img.length then pure none
    else elfFindFrom img strs shoff shentsize name big shnum 0

/-! ## The line-number program -/

structure Row where
  addr : Nat
  (file line : Int)
  isEnd : Bool
  deriving DecidableEq, Repr

/-- What the header of a unit says. -/
structure LineHeader where
  (unitEnd progStart minInst : Nat)
  lineBase : Int
  (lineRange opcodeBase : Nat)
  -- `std_len[1..31]`, as far as the header goes
  stdLen : List Nat
  files : List (Option Nat)
  deriving DecidableEq, Repr

def rdBytes : Nat → Rd → Checked (List Nat × Rd)
  | 0, c => .ok ([], c)
  | n + 1, c => do
      let (b, c) ← rdU8 img c
      let (bs, c) ← rdBytes n c
      pure (b :: bs, c)

/-- `include_directories` -/
def skipDirs : Nat → Rd → Checked Rd
  | 0, _ => .error .spent
  | room + 1, c => do
      let (s, c) ← rdStr img c
      if ← lastString img s c then pure c else skipDirs room c

def maxFiles : Nat := 64

def readFiles : Nat → List (Option Nat) → Rd → Checked (List (Option Nat) × Rd)
  | 0, _, _ => .error .spent
  | room + 1, ftab, c => do
      let (s, c) ← rdStr img c
      if ← lastString img s c then pure (ftab, c)
      else do
        let (_, c) ← rdUleb img c
        let (_, c) ← rdUleb img c
        let (_, c) ← rdUleb img c
        readFiles room (if ftab.length < maxFiles then ftab ++ [s] else ftab) c

/-- `maximum_operations_per_instruction`, which version 4 has. -/
def skipMaxOps (version : Nat) (c : Rd) : Checked Rd :=
  if version ≥ 4 then do
    let (_, c) ← rdU8 img c
    pure c
  else
    .ok c

def readHeader (unitEnd : Nat) (c : Rd) : Checked (LineHeader × Rd) := do
  let (version, c) ← rdU16 img c
  let (headerLen, c) ← rdU32 img c
  let progStart := sizeT (c.pos + headerLen)
  let (minInst, c) ← rdU8 img c
  let c ← skipMaxOps img version c
  let (_, c) ← rdU8 img c
  let (lineBase, c) ← rdU8 img c
  let (lineRange, c) ← rdU8 img c
  let (opcodeBase, c) ← rdU8 img c
  let (stdLen, c) ← rdBytes img (opcodeBase - 1) c
  let c ← skipDirs img c.room c
  let (files, c) ← readFiles img c.room [none] c
  pure (⟨unitEnd, progStart, minInst, (BitVec.ofNat 8 lineBase).toInt, lineRange, opcodeBase,
    stdLen.take 31, files⟩, c)

structure LineState where
  c : Rd
  addr : Nat := 0
  file : Int := 1
  line : Int := 1
  rows : List Row
  deriving DecidableEq, Repr

variable (s : LineState)

def LineState.push (isEnd : Bool) : LineState :=
  { s with rows := s.rows ++ [⟨s.addr, s.file, s.line, isEnd⟩] }

def LineState.addAddr (n : Nat) : LineState :=
  { s with addr := (s.addr + n) % 2 ^ 32 }

def LineState.addLine (n : Int) : LineState :=
  { s with line := (s.line + n).bmod (2 ^ 32) }

def skipOperands : Nat → Rd → Checked Rd
  | 0, c => .ok c
  | n + 1, c => do
      let (_, c) ← rdUleb img c
      skipOperands n c

/-- `DW_LNE_end_sequence` and `DW_LNE_set_address`; the others are skipped. -/
def extendedSub (sub : Nat) (s : LineState) : Checked LineState :=
  if sub = 1 then .ok { (s.push true) with addr := 0, file := 1, line := 1 }
  else if sub = 2 then do
    let (addr, c) ← rdU32 img s.c
    pure { s with addr := addr, c := c }
  else
    .ok s

/-- The opcode is carried out, and the place where its stated length ends. -/
def extendedBody : Checked (Nat × LineState) := do
  let (elen, c) ← rdUleb img s.c
  let enext := sizeT (c.pos + elen)
  let (sub, c) ← rdU8 img c
  let s ← extendedSub img sub { s with c := c }
  pure (enext, s)

def extendedOp : Checked LineState := do
  let (enext, s) ← extendedBody img s
  -- the stated length is honoured, whatever it is
  pure { s with c := { s.c with pos := enext } }

variable (hdr : LineHeader)

def standardOp (op : Nat) (s : LineState) : Checked LineState :=
  match op with
  | 1 => .ok (s.push false)
  | 2 => do
      let (n, c) ← rdUleb img s.c
      pure { (s.addAddr (n * hdr.minInst)) with c := c }
  | 3 => do
      let (n, c) ← rdSleb img s.c
      pure { (s.addLine n) with c := c }
  | 4 => do
      let (n, c) ← rdUleb img s.c
      pure { s with file := toInt n, c := c }
  | 8 => do
      let (q, _) ← divMod (255 - hdr.opcodeBase) hdr.lineRange
      pure (s.addAddr (q * hdr.minInst))
  | 9 => do
      let (n, c) ← rdU16 img s.c
      pure { (s.addAddr n) with c := c }
  | op => do
      -- `std_len` has 32 elements, of which the first is not used
      let n ← entryAt hdr.stdLen (op - 1)
      let c ← skipOperands img n s.c
      pure { s with c := c }

def specialOp (op : Nat) (s : LineState) : Checked LineState := do
  let (q, r) ← divMod (op - hdr.opcodeBase) hdr.lineRange
  pure (((s.addAddr (q * hdr.minInst)).addLine (hdr.lineBase + r)).push false)

def lineStep (s : LineState) : Checked LineState := do
  let (op, c) ← rdU8 img s.c
  let s := { s with c := c }
  if op = 0 then extendedOp img s
  else if op < hdr.opcodeBase then standardOp img hdr op s
  else specialOp hdr op s

def LineState.running (s : LineState) : Bool := decide (s.c.pos < hdr.unitEnd) && !s.c.bad

structure Units where
  c : Rd
  rows : List Row := []
  files : Option (List (Option Nat)) := none
  deriving DecidableEq, Repr

def LineHeader.start (c : Rd) (rows : List Row) : LineState :=
  { c := { c with pos := hdr.progStart }, rows := rows }

def LineHeader.finish (u : Units) (s : LineState) : Units :=
  ⟨{ s.c with pos := hdr.unitEnd }, s.rows, u.files.or (some hdr.files)⟩

/-- The header of a unit, or the end of the section where the length of the unit is none. -/
def unitHeader (c : Rd) : Checked (Option LineHeader × Rd) := do
  let (unitLen, c) ← rdU32 img c
  let unitEnd := c.pos + unitLen
  if unitLen = 0 ∨ unitEnd > c.len then pure (none, { c with pos := c.len })
  else do
    let (hdr, c) ← readHeader img unitEnd c
    pure (some hdr, c)

def runLineUnit (fuel : Nat) (u : Units) : Checked Units := do
  match ← unitHeader img u.c with
  | (none, c) => pure { u with c := c }
  | (some hdr, c) => do
      let s ← loopWhile .spent (LineState.running hdr) (lineStep img hdr) fuel (hdr.start c u.rows)
      pure (hdr.finish u s)

def Units.running (u : Units) : Bool := decide (u.c.pos < u.c.len) && !u.c.bad

/-! ## The symbol table -/

/-- `struct dw_func`, the name as its place in the image. -/
structure Func where
  (addr size name : Nat)
  deriving DecidableEq, Repr

def readSyms (sym str : ElfSec) (big : Bool) : Nat → Nat → Checked (List Func)
  | 0, _ => .ok []
  | left + 1, i => do
      let e := sym.data + i * sym.entsize
      let nm ← le32 img e big
      let val ← le32 img (e + 4) big
      let sz ← le32 img (e + 8) big
      let info ← byteAt img (e + 12)
      let funcs ← readSyms sym str big left (i + 1)
      -- `STT_FUNC` is 2
      pure (if info % 16 = 2 ∧ nm < str.size then ⟨val, sz, str.data + nm⟩ :: funcs else funcs)

def symtabName : List Nat := [0x2e, 0x73, 0x79, 0x6d, 0x74, 0x61, 0x62]

def debugLineName : List Nat := [0x2e, 0x64, 0x65, 0x62, 0x75, 0x67, 0x5f, 0x6c, 0x69, 0x6e, 0x65]

def readSymtab (big : Bool) : Checked (List Func) := do
  match ← elfFind img symtabName big with
  | none => pure []
  | some si =>
    match ← elfSection img si big with
    | none => pure []
    | some sym =>
      if sym.entsize = 0 then pure []
      else
        match ← elfSection img (toInt sym.link) big with
        | none => pure []
        | some str => readSyms img sym str big (toInt (sym.size / sym.entsize)).toNat 0

/-! ## The reader -/

/-- `struct dw_reader` -/
structure Reader where
  lines : List Row
  files : List (Option Nat)
  funcs : List Func
  deriving DecidableEq, Repr

/-- `lrow_cmp`: at one address, end rows come first. -/
def rowLe (a b : Row) : Bool := a.addr < b.addr || (a.addr == b.addr && (a.isEnd || !b.isEnd))

def funcLe (a b : Func) : Bool := a.addr ≤ b.addr

def readLines (fuel : Nat) (big : Bool) : Checked Units := do
  match ← elfFind img debugLineName big with
  | none => pure { c := ⟨0, 0, 0, false, big⟩ }
  | some li =>
    match ← elfSection img li big with
    | none => pure { c := ⟨0, 0, 0, false, big⟩ }
    | some ls =>
      loopWhile .spent Units.running (runLineUnit img fuel) fuel
        { c := ⟨ls.data, ls.size, 0, false, big⟩ }

def imageOrder : Option Bool :=
  if img.length < 52 ∨ img.take 4 ≠ [0x7f, 0x45, 0x4c, 0x46] then none
  else if img[4]? ≠ some 1 then none
  else if img[5]? = some 1 then some false
  else if img[5]? = some 2 then some true
  else none

def dwReadElf (fuel : Nat) : Checked (Option Reader) :=
  match imageOrder img with
  | none => .ok none
  | some big => do
      let u ← readLines img fuel big
      let funcs ← readSymtab img big
      pure (some ⟨u.rows.mergeSort rowLe, u.files.getD [], funcs.mergeSort funcLe⟩)

/-! ## Lookups -/

def searchFrom {α : Type} (key : α → Nat) (table : List α) (addr : Nat) (lo hi : Int)
    (best : Option Nat) : Checked (Option Nat) :=
  if lo ≤ hi then
    let mid := lo + (hi - lo) / 2
    match entryAt table mid.toNat with
    | .error e => .error e
    | .ok a =>
      if key a ≤ addr then searchFrom key table addr (mid + 1) hi (some mid.toNat)
      else searchFrom key table addr lo (mid - 1) best
  else
    .ok best
termination_by (hi + 1 - lo).toNat
decreasing_by all_goals omega

def search {α : Type} (key : α → Nat) (table : List α) (addr : Nat) : Checked (Option Nat) :=
  searchFrom key table addr 0 (table.length - 1) none

/-- `dw_lookup_line`: the file, if it is known, and the line. -/
def dwLookupLine (r : Reader) (addr : Nat) : Checked (Option (Option Nat × Int)) := do
  match ← search Row.addr r.lines addr with
  | none => pure none
  | some best => do
      let row ← entryAt r.lines best
      if row.isEnd then pure none
      else if 0 < row.file ∧ row.file < r.files.length then do
        let file ← entryAt r.files row.file.toNat
        pure (some (file, row.line))
      else
        pure (some (none, row.line))

def dwLookupFunc (r : Reader) (addr : Nat) : Checked (Option Nat) := do
  match ← search Func.addr r.funcs addr with
  | none => pure none
  | some best => do
      let f ← entryAt r.funcs best
      if f.size ≠ 0 ∧ addr ≥ (f.addr + f.size) % 2 ^ 32 then pure none
      else pure (some f.name)

end Skjegg.Dwarf
