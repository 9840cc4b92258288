import Skjegg.Lib.Words

/-!
# Software floating point

The integer-only binary64 and binary32 arithmetic of `runtime/softfloat.c`.  `u64` and `u32` are
bit vectors, so that sums and shifts wrap as in C; an `int` (the exponents and shift counts, which
stay small) is an integer.
-/

namespace Skjegg.Runtime

open Skjegg.Lib (U32 U64)

def sigbits : Nat := 52
def expmax : Int := 0x7ff
def bias : Int := 1023
def implicitBit : U64 := 1#64 <<< sigbits
def sigmask : U64 := implicitBit - 1
def signbit : U64 := 1#64 <<< 63
def absmask : U64 := 0x7fffffffffffffff#64
def infbits : U64 := 0x7ff0000000000000#64
def qnanbits : U64 := 0x7ff8000000000000#64

def truth {w : Nat} (b : Bool) : BitVec w := if b then 1 else 0

def shiftRightJam {w : Nat} (x : BitVec w) (k : Nat) : BitVec w :=
  (x >>> k) ||| truth (x &&& ((1#w <<< k) - 1#w) != 0)

/-- One line of `clz64`: when the top bits in `mask` are clear, shift them out and count them. -/
def clzStep (mask : U64) (k : Nat) (s : Nat × U64) : Nat × U64 :=
  if s.2 &&& mask = 0 then (s.1 + k, s.2 <<< k) else s

/-- Count leading zeros of a nonzero value. -/
def clz64 (x : U64) : Nat :=
  let s := clzStep 0xffffffff00000000#64 32 (0, x)
  let s := clzStep 0xffff000000000000#64 16 s
  let s := clzStep 0xff00000000000000#64 8 s
  let s := clzStep 0xf000000000000000#64 4 s
  let s := clzStep 0xc000000000000000#64 2 s
  if s.2 &&& 0x8000000000000000#64 = 0 then s.1 + 1 else s.1

/-- The 128-bit product, as its high and low words. -/
def umul64 (x y : U64) : U64 × U64 :=
  let x0 := x &&& 0xffffffff#64
  let x1 := x >>> 32
  let y0 := y &&& 0xffffffff#64
  let y1 := y >>> 32
  let p00 := x0 * y0
  let p01 := x0 * y1
  let p10 := x1 * y0
  let p11 := x1 * y1
  let mid := (p00 >>> 32) + (p01 &&& 0xffffffff#64) + (p10 &&& 0xffffffff#64)
  (p11 + (p01 >>> 32) + (p10 >>> 32) + (mid >>> 32), (p00 &&& 0xffffffff#64) ||| (mid <<< 32))

/-- The first part of `round_pack`: a value below the normal range is shifted right, with a sticky
bit. -/
def denormalize (exp : Int) (sig : U64) : Int × U64 :=
  if exp ≤ 0 then (0, shiftRightJam sig (if 1 - exp > 63 then 63 else (1 - exp).toNat))
  else (exp, sig)

/-- The middle part of `round_pack`: drop the three guard bits, to nearest with ties to even. -/
def roundUp {w : Nat} (sig : BitVec w) : BitVec w :=
  let round := sig &&& 7
  let r := sig >>> 3
  if round > 4#w || (round == 4#w && (r &&& 1 != 0)) then r + 1 else r

/-- The last part of `round_pack`. The result is normal exactly when the significand carries the
implicit bit. -/
def packBits (s : U64) (exp : Int) (r : U64) : U64 :=
  if exp ≥ expmax then s ||| infbits
  else if r &&& implicitBit != 0 then
    s ||| (BitVec.ofInt 64 (if exp ≤ 0 then 1 else exp) <<< sigbits) ||| (r &&& sigmask)
  else s ||| (r &&& sigmask)

variable (sign : U32)

def roundPack (exp : Int) (sig : U64) : U64 :=
  let s := sign.setWidth 64 <<< 63
  let (exp, sig) := denormalize exp sig
  let r := roundUp sig
  -- round-up carried past bit 52
  if r &&& (implicitBit <<< 1) != 0 then packBits s (exp + 1) (r >>> 1)
  else packBits s exp r

structure Unpacked where
  sign : U32
  exp : Int
  sig : U64
  rawexp : Int
  deriving DecidableEq, Repr

def unpack (a : U64) : Unpacked :=
  let e : Int := ((a >>> sigbits) &&& 0x7ff#64).toNat
  let frac := a &&& sigmask
  { sign := (a >>> 63).setWidth 32 &&& 1
    exp := if e = 0 then 1 else e
    sig := if e = 0 then frac else frac ||| implicitBit
    rawexp := e }

def alignSig (shift : Int) (bSig : U64) : U64 :=
  if shift = 0 then bSig
  else if shift > 60 then truth (bSig != 0)
  else shiftRightJam bSig shift.toNat

def addMagnitudes (aExp : Int) (aSig : U64) (bExp : Int) (bSig : U64) : U64 :=
  let shift := aExp - bExp
  let aSig := aSig <<< 3
  let bSig := alignSig shift (bSig <<< 3)
  let sum := aSig + bSig
  -- carried into bit 56
  if sum &&& (1#64 <<< (sigbits + 4)) != 0 then
    roundPack sign (aExp + 1) ((sum >>> 1) ||| (sum &&& 1))
  else roundPack sign aExp sum

def subMagnitudes (aExp : Int) (aSig : U64) (bExp : Int) (bSig : U64) : U64 :=
  let shift := aExp - bExp
  let aSig := aSig <<< 3
  let bSig := alignSig shift (bSig <<< 3)
  let diff := aSig - bSig
  -- exact cancellation gives +0
  if diff = 0 then 0
  else
    let lz : Int := clz64 diff - (63 - (sigbits + 3 : Nat))
    if lz > 0 then roundPack sign (aExp - lz) (diff <<< lz.toNat)
    else if lz < 0 then roundPack sign (aExp - lz) (shiftRightJam diff (-lz).toNat)
    else roundPack sign aExp diff

variable (a b : U64)

/-- The last part of `__skj_dadd`: the sum of finite nonzero operands. -/
def addFinite : U64 :=
  let ua := unpack a
  let ub := unpack b
  if ua.sign = ub.sign then
    if ua.exp ≥ ub.exp then addMagnitudes ua.sign ua.exp ua.sig ub.exp ub.sig
    else addMagnitudes ua.sign ub.exp ub.sig ua.exp ua.sig
  -- different signs: subtract the smaller magnitude from the larger
  else if ua.exp > ub.exp || (ua.exp = ub.exp && ua.sig ≥ ub.sig) then
    subMagnitudes ua.sign ua.exp ua.sig ub.exp ub.sig
  else subMagnitudes ub.sign ub.exp ub.sig ua.exp ua.sig

/-- `__skj_dadd`. -/
def dadd : U64 :=
  let aAbs := a &&& absmask
  let bAbs := b &&& absmask
  if aAbs > infbits || bAbs > infbits then qnanbits
  else if aAbs = infbits || bAbs = infbits then
    if aAbs = infbits && bAbs = infbits then if (a ^^^ b) &&& signbit != 0 then qnanbits else a
    else if aAbs = infbits then a else b
  else if aAbs = 0 && bAbs = 0 then a &&& b
  else if aAbs = 0 then b
  else if bAbs = 0 then a
  else addFinite a b

/-- `__skj_dsub`. -/
def dsub : U64 := dadd a (b ^^^ signbit)

/-- The exponent and significand with the leading 1 of a subnormal moved to bit 52. -/
def normalizeSig (u : Unpacked) : Int × U64 :=
  if u.rawexp = 0 then
    let s : Int := clz64 u.sig - (63 - (sigbits : Int))
    (u.exp - s, u.sig <<< s.toNat)
  else (u.exp, u.sig)

def resultSign : U32 := ((a ^^^ b) >>> 63).setWidth 32 &&& 1

/-- The last part of `__skj_dmul`: the product of finite nonzero operands. -/
def mulFinite (rSign : U32) (a b : U64) : U64 :=
  let (aExp, aSig) := normalizeSig (unpack a)
  let (bExp, bSig) := normalizeSig (unpack b)
  let exp := aExp + bExp - bias
  let (hi, lo) := umul64 aSig bSig
  -- the product's leading 1 is at bit 105 or 104
  if hi &&& (1#64 <<< (105 - 64)) != 0 then
    roundPack rSign (exp + 1) (((hi <<< (64 - 50)) ||| (lo >>> 50)) |||
      truth (lo &&& ((1#64 <<< 50) - 1) != 0))
  else
    roundPack rSign exp (((hi <<< (64 - 49)) ||| (lo >>> 49)) ||| truth (lo &&& ((1#64 <<< 49) - 1) != 0))

/-- `__skj_dmul`. -/
def dmul : U64 :=
  let aAbs := a &&& absmask
  let bAbs := b &&& absmask
  if aAbs > infbits || bAbs > infbits then qnanbits
  else
    let rSign := resultSign a b
    if aAbs = infbits || bAbs = infbits then
      if aAbs = 0 || bAbs = 0 then qnanbits else (rSign.setWidth 64 <<< 63) ||| infbits
    else if aAbs = 0 || bAbs = 0 then rSign.setWidth 64 <<< 63
    else mulFinite rSign a b

def divStep (bSig : U64) (s : U64 × U64) : U64 × U64 :=
  let q := s.1 <<< 1
  if s.2 ≥ bSig then (q ||| 1, (s.2 - bSig) <<< 1) else (q, s.2 <<< 1)

/-- The last part of `__skj_ddiv`: the quotient of finite nonzero operands. -/
def divFinite (rSign : U32) (a b : U64) : U64 :=
  let (aExp, aSig) := normalizeSig (unpack a)
  let (bExp, bSig) := normalizeSig (unpack b)
  let exp := aExp - bExp + bias
  -- normalize so that the ratio lands in [1, 2)
  let (exp, aSig) := if aSig < bSig then (exp - 1, aSig <<< 1) else (exp, aSig)
  let (q, rem) := (divStep bSig)^[sigbits + 4] (0, aSig)
  roundPack rSign exp (q ||| truth (rem != 0))

/-- `__skj_ddiv`. -/
def ddiv : U64 :=
  let aAbs := a &&& absmask
  let bAbs := b &&& absmask
  if aAbs > infbits || bAbs > infbits then qnanbits
  else
    let rSign := resultSign a b
    if aAbs = infbits then
      if bAbs = infbits then qnanbits else (rSign.setWidth 64 <<< 63) ||| infbits
    else if bAbs = infbits then rSign.setWidth 64 <<< 63
    else if bAbs = 0 then if aAbs = 0 then qnanbits else (rSign.setWidth 64 <<< 63) ||| infbits
    else if aAbs = 0 then rSign.setWidth 64 <<< 63
    else divFinite rSign a b

/-! ## Single precision by widening -/

/-- The loop that moves the leading 1 of a subnormal single to bit 23, in at most 23 rounds. -/
def normalizeLoop : Nat → Int → U32 → Int × U32
  | 0, exp, frac => (exp, frac)
  | fuel + 1, exp, frac =>
    if frac &&& 0x800000#32 = 0 then normalizeLoop fuel (exp - 1) (frac <<< 1) else (exp, frac)

/-- `__skj_extendsfdf2`. -/
def extendsfdf2 (s : U32) : U64 :=
  let sign := (s >>> 31) &&& 1
  let exp : Int := ((s >>> 23) &&& 0xff#32).toNat
  let frac := s &&& 0x7fffff#32
  let dsign := sign.setWidth 64 <<< 63
  if exp = 0xff then dsign ||| infbits ||| (frac.setWidth 64 <<< 29)
  else if exp = 0 then
    if frac = 0 then dsign
    else
      let (exp, frac) := normalizeLoop 23 1 frac
      let frac := frac &&& 0x7fffff#32
      dsign ||| (BitVec.ofInt 64 (exp - 127 + bias) <<< sigbits) ||| (frac.setWidth 64 <<< 29)
  else dsign ||| (BitVec.ofInt 64 (exp - 127 + bias) <<< sigbits) ||| (frac.setWidth 64 <<< 29)

def sdenormalize (exp : Int) (sig : U32) : Int × U32 :=
  if exp ≤ 0 then (0, shiftRightJam sig (if 1 - exp > 31 then 31 else (1 - exp).toNat))
  else (exp, sig)

def spackBits (s : U32) (exp : Int) (r : U32) : U32 :=
  if exp ≥ 0xff then s ||| 0x7f800000#32
  else
    let exp := if exp = 0 && (r &&& (1#32 <<< 23) != 0) then 1 else exp
    s ||| (BitVec.ofInt 32 exp <<< 23) ||| (r &&& 0x7fffff#32)

/-- The single-precision twin of `roundPack`. -/
def spack (exp : Int) (sig : U32) : U32 :=
  let s := sign <<< 31
  let (exp, sig) := sdenormalize exp sig
  let r := roundUp sig
  if r &&& (1#32 <<< 24) != 0 then spackBits s (exp + 1) (r >>> 1)
  else spackBits s exp r

/-- `__skj_truncdfsf2`. -/
def truncdfsf2 (a : U64) : U32 :=
  let u := unpack a
  if u.rawexp = expmax then
    if a &&& sigmask != 0 then (u.sign <<< 31) ||| 0x7fc00000#32
    else (u.sign <<< 31) ||| 0x7f800000#32
  else if u.rawexp = 0 then u.sign <<< 31
  else
    spack u.sign (u.exp - bias + 127)
      ((u.sig >>> 26).setWidth 32 ||| truth (u.sig &&& ((1#64 <<< 26) - 1) != 0))

/-- `__skj_fadd`. -/
def fadd (a b : U32) : U32 := truncdfsf2 (dadd (extendsfdf2 a) (extendsfdf2 b))

/-- `__skj_fsub`. -/
def fsub (a b : U32) : U32 := truncdfsf2 (dsub (extendsfdf2 a) (extendsfdf2 b))

/-- `__skj_fmul`. -/
def fmul (a b : U32) : U32 := truncdfsf2 (dmul (extendsfdf2 a) (extendsfdf2 b))

/-- `__skj_fdiv`. -/
def fdiv (a b : U32) : U32 := truncdfsf2 (ddiv (extendsfdf2 a) (extendsfdf2 b))

end Skjegg.Runtime
