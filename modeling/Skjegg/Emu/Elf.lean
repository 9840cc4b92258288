import Skjegg.Lib.Interaction
import Skjegg.Lib.Memory

/-!
# The ELF loaders

`elf32.c` and `elf64.c` are one walk over two layouts of an image a guest may have chosen. A pointer
is its offset from the start of the image, modulo `2 ^ 64`; every load from the image is an event.
-/

namespace Skjegg.Emu

open Skjegg.Lib

/-- An image of `size` bytes, and whatever the host has around it: the byte at each offset. -/
structure Image where
  mem : Mem
  size : Nat
  size_lt : size < 2 ^ 63

/-- The offset of the pointer `b + x`. -/
@[irreducible] def hostPtr (x : Nat) : Nat := x % 2 ^ 64

/-- Where a format keeps its fields; `word` is the width of its offsets and sizes in bytes. -/
structure Layout where
  word : Nat
  elfclass : UInt8
  className : String
  ehsize : Nat
  /-- the values of `e_type` that need no entry point -/
  executable : List Nat
  (ePhoff ePhentsize ePhnum eShoff eShentsize eShnum pFlags pOffset pVaddr pFilesz pMemsz : Nat)
  /-- offset and width of the fields of a segment, in the order they are read -/
  segmentFields : List (Nat × Nat)
  (shOffset shSize shLink shEntsize stValue : Nat)
  /-- the fields of the header lie in the header -/
  header_fits : ∀ f ∈ [(16, 2), (18, 2), (24, word), (ePhoff, word), (ePhentsize, 2), (ePhnum, 2),
    (eShoff, word), (eShentsize, 2), (eShnum, 2)], f.1 + f.2 ≤ ehsize
  word_le : word ≤ 8

def elf32 : Layout where
  word := 4
  elfclass := 1
  className := "ELF32 (the guests are 32-bit)"
  ehsize := 52
  executable := [2]
  ePhoff := 28
  ePhentsize := 42
  ePhnum := 44
  eShoff := 32
  eShentsize := 46
  eShnum := 48
  pFlags := 24
  pOffset := 4
  pVaddr := 8
  pFilesz := 16
  pMemsz := 20
  segmentFields := [(4, 4), (8, 4), (16, 4), (20, 4), (24, 4)]
  shOffset := 16
  shSize := 20
  shLink := 24
  shEntsize := 36
  stValue := 4
  header_fits := by decide
  word_le := by decide

def elf64 : Layout where
  word := 8
  elfclass := 2
  className := "ELF64"
  ehsize := 64
  executable := [2, 3]
  ePhoff := 32
  ePhentsize := 54
  ePhnum := 56
  eShoff := 40
  eShentsize := 58
  eShnum := 60
  pFlags := 4
  pOffset := 8
  pVaddr := 16
  pFilesz := 32
  pMemsz := 40
  segmentFields := [(4, 4), (8, 8), (16, 8), (32, 8), (40, 8)]
  shOffset := 24
  shSize := 32
  shLink := 40
  shEntsize := 56
  stValue := 8
  header_fits := by decide
  word_le := by decide

variable (L : Layout)

/-- A sum in the format's unsigned word. -/
@[irreducible] def Layout.wrap (x : Nat) : Nat := x % 2 ^ (8 * L.word)

variable (I : Image)

/-- `(long)x > size`, for a sum `x` in the format's unsigned word. -/
def PastEnd (x : Nat) : Prop := (I.size : Int) < Int.bmod (L.wrap x) (2 ^ 64)

instance (L : Layout) (I : Image) (x : Nat) : Decidable (PastEnd L I x) :=
  inferInstanceAs (Decidable (_ < _))

/-- What the loader does to the guest's memory besides counting its regions. -/
inductive GmCall
  | map (base size prot : Nat)
  | write (addr : Nat) (bytes : List UInt8)
  | zero (addr len : Nat)
  | fault

/-- The answers: the fault recorded by then, if there is one, with its reason and address. -/
@[reducible] def GmCall.Ans : GmCall → Type
  | .map _ _ _ => Unit
  | .write _ _ => Unit
  | .zero _ _ => Unit
  | .fault => Option (String × Nat)

abbrev Elf (α : Type) := Reader GmCall GmCall.Ans α

inductive ElfError
  | notElf
  | wrongClass
  | byteOrder
  | notExecutable
  | noProgramHeaders
  | headersPastEnd
  | segmentPastEnd (i : Nat)
  | tooManySegments
  | noSegments
  | cannotMap (why : String) (addr : Nat)
  deriving DecidableEq, Repr

def hex8 (x : Nat) : String := String.ofList (List.leftpad 8 '0' (Nat.toDigits 16 x))

def ElfError.message (what : String) : ElfError → String
  | notElf => "skj-run: " ++ what ++ " is not an ELF file\n"
  | wrongClass => "skj-run: " ++ what ++ " is not " ++ L.className ++ "\n"
  | byteOrder => "skj-run: " ++ what ++ " has an unknown byte order\n"
  | notExecutable => "skj-run: " ++ what ++ " is not an executable image\n"
  | noProgramHeaders => "skj-run: " ++ what ++ " has no program headers\n"
  | headersPastEnd => "skj-run: " ++ what ++ ": program headers past end of file\n"
  | segmentPastEnd i => "skj-run: " ++ what ++ ": segment " ++ toString i ++ " past end of file\n"
  | tooManySegments => "skj-run: " ++ what ++ ": too many loadable segments\n"
  | noSegments => "skj-run: " ++ what ++ " has no loadable segments\n"
  | cannotMap why addr =>
    "skj-run: " ++ what ++ ": cannot map the image (" ++ why ++ " at 0x" ++ hex8 addr ++ ")\n"

/-- `elf32_info`, which both formats fill. -/
structure ElfInfo where
  (entry machine : Nat)
  bigEndian : Bool
  (lo hi nsegments : Nat)
  deriving DecidableEq, Repr

def maxRegions : Nat := 256

namespace Image

variable (I : Image)

def order : Endian :=
  if I.mem 5 = 2 then .big else .little

def get (off w : Nat) : Nat := I.order.decode (I.mem.read (hostPtr off) w)

end Image

def rd (off w : Nat) : Elf Nat := do
  load (hostPtr off) w
  pure (I.get off w)

def rdFields (I : Image) (base : Nat) : List (Nat × Nat) → Elf Unit
  | [] => pure ()
  | (off, w) :: fields => do
      let _ ← rd I (base + off) w
      rdFields I base fields

/-! ## The header -/

/-- `"\177ELF"` -/
def magic : List UInt8 := [0x7f, 0x45, 0x4c, 0x46]

def readHeader : Elf (Except ElfError ElfInfo) :=
  if I.size < L.ehsize then pure (.error .notElf)
  else do
    load 0 4
    if I.mem.read 0 4 ≠ magic then pure (.error .notElf)
    else do
      load 4 1
      if I.mem 4 ≠ L.elfclass then pure (.error .wrongClass)
      else do
        load 5 1
        if I.mem 5 ≠ 1 ∧ I.mem 5 ≠ 2 then pure (.error .byteOrder)
        else do
          let machine ← rd I 18 2
          let entry ← rd I 24 L.word
          let type ← rd I 16 2
          if type ∉ L.executable ∧ entry % 2 ^ 32 = 0 then pure (.error .notExecutable)
          else
            pure (.ok ⟨entry % 2 ^ 32, machine, I.mem 5 = 2, 0, 0, 0⟩)

/-- A table of program or section headers: where it starts, and the size and number of its entries. -/
structure Table where
  (off entsize num : Nat)
  deriving DecidableEq, Repr

def Table.entry (T : Table) (i : Nat) : Nat := T.off + L.wrap (i * T.entsize)

/-- The end of entry `i`, as the bounds check adds it up. -/
def Table.endOf (T : Table) (i : Nat) : Nat := T.off + (i + 1) * T.entsize

def rdTable (off entsize num : Nat) : Elf Table := do
  let off ← rd I off L.word
  let entsize ← rd I entsize 2
  let num ← rd I num 2
  pure ⟨off, entsize, num⟩

/-! ## Loading -/

structure Loaded where
  (nregions lo hi nsegments : Nat)
  deriving DecidableEq, Repr

/-- `PF_R`, `PF_W` and `PF_X` as `GM_R`, `GM_W` and `GM_X`, or read-only when none is set. -/
def segmentProt (flags : Nat) : Nat :=
  let prot := (if flags.testBit 2 then 1 else 0) + (if flags.testBit 1 then 2 else 0) +
    (if flags.testBit 0 then 4 else 0)
  if prot = 0 then 1 else prot

def pageOf (addr : Nat) : Nat := addr / 4096 * 4096

def loadSegment (ph i : Nat) (st : Loaded) : Elf (Except ElfError Loaded) := do
  rdFields I ph L.segmentFields
  let flags := I.get (ph + L.pFlags) 4
  let offset := I.get (ph + L.pOffset) L.word
  let vaddr := I.get (ph + L.pVaddr) L.word % 2 ^ 32
  let filesz := I.get (ph + L.pFilesz) L.word % 2 ^ 32
  let memsz := I.get (ph + L.pMemsz) L.word % 2 ^ 32
  if PastEnd L I (offset + filesz) then pure (.error (.segmentPastEnd i))
  else
    let pageLo := pageOf vaddr
    let pageHi := pageOf ((vaddr + memsz + 4095) % 2 ^ 32)
    -- `gm_map` fails when the region table is full
    if maxRegions ≤ st.nregions then pure (.error .tooManySegments)
    else do
      host (GmCall.map pageLo ((pageHi + 2 ^ 32 - pageLo) % 2 ^ 32) (segmentProt flags))
      -- `gm_write` reads its source byte by byte, whether or not the guest's page is there
      loadEach ((List.range filesz).map fun k => hostPtr (offset + k))
      host (GmCall.write vaddr (I.mem.read (hostPtr offset) filesz))
      if filesz < memsz then do
        host (GmCall.zero ((vaddr + filesz) % 2 ^ 32) (memsz - filesz))
        pure (.ok ⟨st.nregions + 1, min pageLo st.lo, max pageHi st.hi, st.nsegments + 1⟩)
      else
        pure (.ok ⟨st.nregions + 1, min pageLo st.lo, max pageHi st.hi, st.nsegments + 1⟩)

/-- `for (i = 0; i < phnum; i++)`, with the number of headers left. -/
def segmentLoop (L : Layout) (I : Image) (T : Table) :
    Nat → Nat → Loaded → Elf (Except ElfError Loaded)
  | 0, _, st => pure (.ok st)
  | n + 1, i, st =>
    if PastEnd L I (T.endOf i) then pure (.error .headersPastEnd)
    else do
      let type ← rd I (T.entry L i) 4
      if type ≠ 1 then segmentLoop L I T n (i + 1) st
      else do
        let r ← loadSegment L I (T.entry L i) i st
        match r with
        | .error e => pure (.error e)
        | .ok st => segmentLoop L I T n (i + 1) st

def finishLoad (info : ElfInfo) : Except ElfError Loaded → Elf (Except ElfError ElfInfo)
  | .error e => pure (.error e)
  | .ok st =>
    if st.nsegments = 0 then pure (.error .noSegments)
    else do
      let fault ← host GmCall.fault
      match fault with
      | some (why, addr) => pure (.error (.cannotMap why addr))
      | none => pure (.ok { info with lo := st.lo, hi := st.hi, nsegments := st.nsegments })

def loadMem (nregions : Nat) : Elf (Except ElfError ElfInfo) := do
  let h ← readHeader L I
  match h with
  | .error e => pure (.error e)
  | .ok info => do
      let T ← rdTable L I L.ePhoff L.ePhentsize L.ePhnum
      if T.num = 0 ∨ T.off = 0 then pure (.error .noProgramHeaders)
      else do
        let r ← segmentLoop L I T T.num 0 ⟨nregions, 2 ^ 32 - 1, 0, 0⟩
        finishLoad info r

def elf32LoadMem : Image → Nat → Elf (Except ElfError ElfInfo) := loadMem elf32

def elf64LoadMem : Image → Nat → Elf (Except ElfError ElfInfo) := loadMem elf64

/-! ## Symbols -/

/-- `strcmp(b + off, name) == 0`: bytes are read up to the first that differs, or the terminator. -/
def strcmpEq (I : Image) (off : Nat) : List UInt8 → Elf Bool
  | [] => do
      load (hostPtr off) 1
      pure (I.mem (hostPtr off) = 0)
  | c :: name => do
      load (hostPtr off) 1
      if I.mem (hostPtr off) = c then strcmpEq I (off + 1) name else pure false

/-- A symbol table: its place, the size of its entries, and its string table. -/
structure Symtab where
  (off entsize stroff strsz : Nat)
  deriving DecidableEq, Repr

/-- Symbol `j`; the product is kept in the format's word. -/
def Symtab.sym (S : Symtab) (j : Nat) : Nat := S.off + L.wrap (j * S.entsize)

/-- `for (j = 0; j < sz / entsize; j++)`, with the number of symbols left: the value found, or 0. -/
def symbolLoop (L : Layout) (I : Image) (name : List UInt8) (S : Symtab) : Nat → Nat → Elf Nat
  | 0, _ => pure 0
  | n + 1, j => do
      let nameoff ← rd I (S.sym L j) 4
      if S.strsz ≤ nameoff then symbolLoop L I name S n (j + 1)
      else do
        let eq ← strcmpEq I (S.stroff + nameoff) name
        if eq then do
          let value ← rd I (S.sym L j + L.stValue) L.word
          pure (value % 2 ^ 32)
        else
          symbolLoop L I name S n (j + 1)

def strHeader (T : Table) (link : Nat) : Nat := T.off + L.wrap (link * T.entsize)

def sectionSymbol (name : List UInt8) (T : Table) (sh : Nat) : Elf Nat := do
  let type ← rd I (sh + 4) 4
  if type ≠ 2 then pure 0
  else do
    let off ← rd I (sh + L.shOffset) L.word
    let sz ← rd I (sh + L.shSize) L.word
    let link ← rd I (sh + L.shLink) 4
    let entsize ← rd I (sh + L.shEntsize) L.word
    if entsize = 0 ∨ PastEnd L I (off + sz) then pure 0
    else do
      let stroff ← rd I (strHeader L T link + L.shOffset) L.word
      let strsz ← rd I (strHeader L T link + L.shSize) L.word
      if PastEnd L I (stroff + strsz) then pure 0
      else
        symbolLoop L I name ⟨off, entsize, stroff, strsz⟩ (sz / entsize) 0

def sectionLoop (L : Layout) (I : Image) (name : List UInt8) (T : Table) : Nat → Nat → Elf Nat
  | 0, _ => pure 0
  | n + 1, i =>
    if PastEnd L I (T.endOf i) then pure 0
    else do
      let found ← sectionSymbol L I name T (T.entry L i)
      if found ≠ 0 then pure found else sectionLoop L I name T n (i + 1)

def symbolMem (name : List UInt8) : Elf Nat := do
  let h ← readHeader L I
  match h with
  | .error _ => pure 0
  | .ok _ => do
      let T ← rdTable L I L.eShoff L.eShentsize L.eShnum
      sectionLoop L I name T T.num 0

def elf32SymbolMem : Image → List UInt8 → Elf Nat := symbolMem elf32

def elf64SymbolMem : Image → List UInt8 → Elf Nat := symbolMem elf64

end Skjegg.Emu
