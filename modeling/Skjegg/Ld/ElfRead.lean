import Skjegg.Ld.Link
import Skjegg.Lib.Memory

/-!
# Relocatable objects

`ld_parse_object` of `elf_read.c` checks the header of a big-endian ELF32 object and believes the rest. What
the source keeps a pointer to, the names and the contents of sections, is read here at once.
-/

namespace Skjegg.Ld

open Skjegg.Lib

def shtSymtab : Nat := 2
def shtRela : Nat := 4

def dieAt (path : Text) (msg : String) : LdError := .die (String.ofList path ++ ": " ++ msg)

variable (buf : List UInt8)

def bytesAt (p n : Nat) : Except LdError (List UInt8) :=
  if n = 0 ∨ p + n ≤ buf.length then .ok ((buf.drop p).take n) else .error .outside

/-- The big-endian word of `w` bytes: `get16` and `get32`. -/
def getWord (w p : Nat) : Except LdError Nat := (bytesAt buf p w).map Endian.big.decode

def get16 : Nat → Except LdError Nat := getWord buf 2

def get32 : Nat → Except LdError Nat := getWord buf 4

/-- The text at `p`, up to its NUL. -/
def textAt (p : Nat) : Except LdError Text :=
  let text := (buf.drop p).takeWhile (· ≠ 0)
  if p + text.length < buf.length then .ok (text.map fun b => Char.ofNat b.toNat) else .error .outside

def shdrAt (shoff idx : Nat) : Nat := shoff + idx * 40 % 2 ^ 32

def readSection (shoff shstrtab i : Nat) : Except LdError InputSec := do
  let sh := shdrAt shoff i
  let shName ← get32 buf sh
  let shType ← get32 buf (sh + 4)
  let shFlags ← get32 buf (sh + 8)
  let shOffset ← get32 buf (sh + 16)
  let shSize ← get32 buf (sh + 20)
  let shAddralign ← get32 buf (sh + 32)
  let name ← textAt buf (shstrtab + shName)
  let data ← if shType = shtProgbits then bytesAt buf shOffset shSize else pure []
  return {
    name := name
    type := shType
    flags := shFlags
    data := data
    size := .ofNat shSize
    align := .ofNat (if shAddralign = 0 then 1 else shAddralign) }

def readSymbol (symOff strtab i : Nat) : Except LdError InputSym := do
  let s := symOff + i * 16
  let stName ← get32 buf s
  let stValue ← get32 buf (s + 4)
  let stSize ← get32 buf (s + 8)
  let stInfo ← getWord buf 1 (s + 12)
  let stShndx ← get16 buf (s + 14)
  let name ← textAt buf (strtab + stName)
  return {
    name := name
    value := .ofNat stValue
    size := .ofNat stSize
    shndx := stShndx
    binding := stInfo / 16
    type := stInfo % 16 }

def readSymbols (shoff symtab : Nat) : Except LdError (List InputSym) := do
  let symsh := shdrAt shoff symtab
  let symOff ← get32 buf (symsh + 16)
  let symSize ← get32 buf (symsh + 20)
  let link ← get32 buf (symsh + 24)
  let strtab ← get32 buf (shdrAt shoff link + 16)
  (List.range (symSize / 16)).mapM (readSymbol buf symOff strtab)

/-- The relocations of a section lie in the bytes; what they say is not kept. -/
def readRelocs (shoff i : Nat) (sec : InputSec) : Except LdError Unit :=
  if sec.type ≠ shtRela then pure ()
  else do
    let relaOff ← get32 buf (shdrAt shoff i + 16)
    let _ ← bytesAt buf relaOff (sec.size.toNat / 12 * 12)

/-- What the header must say. -/
def checkHeader (path : Text) : Except LdError Unit := do
  if buf.length < 52 then throw (dieAt path "too small for ELF header")
  if buf.take 4 ≠ [0x7F, 0x45, 0x4C, 0x46] then throw (dieAt path "not an ELF file")
  if (← getWord buf 1 4) ≠ 1 then throw (dieAt path "not ELF32")
  if (← getWord buf 1 5) ≠ 2 then throw (dieAt path "not big-endian")
  if (← get16 buf 16) ≠ 1 then throw (dieAt path "not a relocatable object")
  if (← get16 buf 18) ≠ 4 then throw (dieAt path "not m68k")

def ldParseObject (path : Text) : Except LdError Object := do
  checkHeader buf path
  let shoff ← get32 buf 32
  let shnum ← get16 buf 48
  let shstrndx ← get16 buf 50
  if shnum ≤ shstrndx then throw (dieAt path "bad shstrndx")
  let shstrtab ← get32 buf (shdrAt shoff shstrndx + 16)
  let sections ← (List.range shnum).mapM (readSection buf shoff shstrtab)
  -- the last table counts
  match (List.range shnum).reverse.find? fun i => sections[i]?.any (·.type = shtSymtab) with
  | none => throw (dieAt path "no symbol table")
  | some symtab =>
    let syms ← readSymbols buf shoff symtab
    sections.zipIdx.forM fun s => readRelocs buf shoff s.2 s.1
    return { sections, syms }

end Skjegg.Ld
