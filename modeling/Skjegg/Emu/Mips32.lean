import Skjegg.Lib.Loop

/-!
# The MIPS core

`mips32.c`: the interpreter. Guest memory is reached through the callbacks of the bus, which act on a
world of their own and may stop the core; the host's floating-point arithmetic is a parameter. The
second half of a double is the element behind the named register, which may not exist.
-/

namespace Skjegg.Emu.Mips

open Lib (Succeeds)

abbrev Word := BitVec 32

/-- An access to an element that `fpr[32]` does not have. -/
inductive Fault
  | fpr (index : Nat)
  deriving DecidableEq, Repr

abbrev Checked := Except Fault

/-- `enum mips_trace_type` -/
inductive TrapType
  | none
  | illegal
  | fetchFault
  | loadFault
  | storeFault
  | loadMisalign
  | storeMisalign
  | syscall
  | break_
  | overflow
  | trap
  deriving DecidableEq, Repr

structure TraceEvent where
  (pc addr insn : Word)
  type : TrapType
  note : String
  deriving DecidableEq, Repr

/-- `mips_trace_t`, a ring of 64 events. -/
structure Trace where
  events : Vector TraceEvent 64
  (head total : Word)
  deriving DecidableEq

def Trace.push (t : Trace) (ev : TraceEvent) : Trace :=
  -- the mask keeps the slot inside the ring; the note's field has 48 bytes
  let slot : Fin 64 := (t.head.extractLsb' 0 6).toFin
  { events := t.events.set slot.val { ev with note := (ev.note.take 47).toString } slot.isLt
    head := t.head + 1
    total := t.total + 1 }

/-- `mips_cpu`, without the callbacks. -/
structure Cpu where
  r : Vector Word 32
  (pc nextPc curPc hi lo : Word)
  fpr : Vector Word 32
  fcsr : Word
  (branchTaken inDelay : Bool)
  -- only ever a register field or 0
  loadReg : Fin 32
  loadVal : Word
  (halted trapped yielding : Bool)
  trapType : TrapType
  trapSignal : Nat
  trapAddr : Word
  cycles : BitVec 64
  trace : Trace
  deriving DecidableEq

/-- `mips_init` -/
def init : Cpu where
  r := Vector.replicate 32 0
  pc := 0
  nextPc := 0
  curPc := 0
  hi := 0
  lo := 0
  fpr := Vector.replicate 32 0
  fcsr := 0
  branchTaken := false
  inDelay := false
  loadReg := 0
  loadVal := 0
  halted := false
  trapped := false
  yielding := false
  trapType := .none
  trapSignal := 0
  trapAddr := 0
  cycles := 0
  trace := { events := Vector.replicate 64 ⟨0, 0, 0, .none, ""⟩, head := 0, total := 0 }

/-- `mips_reset` -/
def reset (cpu : Cpu) (entry : Word) : Cpu :=
  { cpu with
    r := Vector.replicate 32 0, pc := entry, nextPc := entry + 4, curPc := entry, hi := 0, lo := 0
    branchTaken := false, inDelay := false, loadReg := 0, loadVal := 0
    halted := false, trapped := false, yielding := false, trapType := .none, trapSignal := 0
    trapAddr := 0, cycles := 0, fpr := Vector.replicate 32 0, fcsr := 0 }

structure Machine (W : Type) where
  cpu : Cpu
  world : W

/-- The callbacks: the memory bus and the handler of `SYSCALL`.  All of them may stop the core. -/
structure Bus (W : Type) where
  (read8 read16 read32 : Word → Machine W → Word × Machine W)
  (write8 write16 write32 : Word → Word → Machine W → Machine W)
  syscall : Option (Machine W → Machine W)

/-- The host's arithmetic on the bits of floats and doubles. -/
structure Fpu where
  binaryS : Fin 4 → Word → Word → Word
  binaryD : Fin 4 → BitVec 64 → BitVec 64 → BitVec 64
  sqrtS : Word → Word
  sqrtD : BitVec 64 → BitVec 64
  absS : Word → Word
  absD : BitVec 64 → BitVec 64
  negS : Word → Word
  negD : BitVec 64 → BitVec 64
  narrow : BitVec 64 → Word
  widen : Word → BitVec 64
  toInt : BitVec 64 → Word → Word
  ofIntS : Word → Word
  ofIntD : Word → BitVec 64
  -- `isunordered`, `<` and `==`
  (unordered less equal : BitVec 64 → BitVec 64 → Bool)

def sigIll : Nat := 4
def sigTrap : Nat := 5
def sigFpe : Nat := 8
def sigBus : Nat := 7

variable (inst : Word)

/-! ## Fields of an instruction -/

def opcode : Nat := (inst >>> 26).toNat

def field (shift : Nat) : Fin 32 := (inst.extractLsb' shift 5).toFin

def rsOf : Fin 32 := field inst 21
def rtOf : Fin 32 := field inst 16
def rdOf : Fin 32 := field inst 11
def saOf : Fin 32 := field inst 6
def functOf : Nat := (inst &&& 0x3F).toNat

def immZe : Word := inst &&& 0xFFFF
def immSe : Word := (inst.extractLsb' 0 16).signExtend 32
def target26 : Word := inst &&& 0x3FFFFFF

section Step

variable {W : Type} (m : Machine W)

namespace Machine

variable (i : Fin 32)

def reg : Word := m.cpu.r.get i

def setReg (v : Word) : Machine W :=
  { m with cpu := { m.cpu with r := m.cpu.r.set i.val v i.isLt } }

def trap (type : TrapType) (signal : Nat) (addr insn : Word) (note : String) :
    Machine W :=
  { m with cpu := { m.cpu with
      trapped := true, trapType := type, trapSignal := signal, trapAddr := addr
      trace := m.cpu.trace.push ⟨m.cpu.curPc, addr, insn, type, note⟩ } }

def doBranch (target : Word) : Machine W :=
  { m with cpu := { m.cpu with nextPc := target, branchTaken := true } }

def setHiLo (hi lo : Word) : Machine W :=
  { m with cpu := { m.cpu with hi := hi, lo := lo } }

/-- The pending load of a register, none for `$zero`. -/
def latch (rt : Fin 32) (v : Word) : Machine W :=
  if rt = 0 then m else { m with cpu := { m.cpu with loadReg := rt, loadVal := v } }

def fprAt (i : Nat) : Checked Word :=
  if h : i < 32 then .ok (m.cpu.fpr.get ⟨i, h⟩) else .error (.fpr i)

def setFpr (i : Nat) (v : Word) : Checked (Machine W) :=
  if h : i < 32 then .ok { m with cpu := { m.cpu with fpr := m.cpu.fpr.set i v h } }
  else .error (.fpr i)

def fprD : Checked (BitVec 64) := do
  let lo ← m.fprAt i
  let hi ← m.fprAt (i + 1)
  pure (lo.setWidth 64 ||| hi.setWidth 64 <<< 32)

def setD (bits : BitVec 64) : Checked (Machine W) := do
  let m ← m.setFpr i (bits.setWidth 32)
  m.setFpr (i + 1) ((bits >>> 32).setWidth 32)

def put (v : Word) : Machine W :=
  { m with cpu := { m.cpu with fpr := m.cpu.fpr.set i.val v i.isLt } }

def double : BitVec 64 := (m.cpu.fpr.get i).setWidth 64 ||| (m.cpu.fpr.get (i + 1)).setWidth 64 <<< 32

end Machine

/-! ## Floating point -/

variable (fpu : Fpu)

def fcsrC : Word := 1 <<< 23

def setCond (res : Bool) : Machine W :=
  { m with cpu := { m.cpu with fcsr := if res then m.cpu.fcsr ||| fcsrC else m.cpu.fcsr &&& ~~~fcsrC } }

def compare (m : Machine W) (cc : Nat) (x y : BitVec 64) : Machine W :=
  let un := fpu.unordered x y
  let lt := !un && fpu.less x y
  let eq := !un && fpu.equal x y
  setCond m ((cc.testBit 2 && lt) || (cc.testBit 1 && eq) || (cc.testBit 0 && un))

def cop1Single (m : Machine W) (inst : Word) : Checked (Option (Machine W)) := do
  let ft := rtOf inst
  let fs := rdOf inst
  let fd := saOf inst
  match functOf inst with
  | 0x00 => some <$> m.setFpr fd (fpu.binaryS 0 (← m.fprAt fs) (← m.fprAt ft))
  | 0x01 => some <$> m.setFpr fd (fpu.binaryS 1 (← m.fprAt fs) (← m.fprAt ft))
  | 0x02 => some <$> m.setFpr fd (fpu.binaryS 2 (← m.fprAt fs) (← m.fprAt ft))
  | 0x03 => some <$> m.setFpr fd (fpu.binaryS 3 (← m.fprAt fs) (← m.fprAt ft))
  | 0x04 => some <$> m.setFpr fd (fpu.sqrtS (← m.fprAt fs))
  | 0x05 => some <$> m.setFpr fd (fpu.absS (← m.fprAt fs))
  | 0x06 => some <$> m.setFpr fd (← m.fprAt fs)
  | 0x07 => some <$> m.setFpr fd (fpu.negS (← m.fprAt fs))
  | 0x20 => some <$> m.setFpr fd (← m.fprAt fs)
  | 0x21 => some <$> m.setD fd (fpu.widen (← m.fprAt fs))
  | 0x24 => some <$> m.setFpr fd (fpu.toInt (fpu.widen (← m.fprAt fs)) m.cpu.fcsr)
  | funct =>
    if 0x30 ≤ funct ∧ funct ≤ 0x3f then
      pure (compare fpu m (funct &&& 0xF) (fpu.widen (← m.fprAt fs)) (fpu.widen (← m.fprAt ft)))
    else pure none

def cop1Double (m : Machine W) (inst : Word) : Checked (Option (Machine W)) := do
  let ft := rtOf inst
  let fs := rdOf inst
  let fd := saOf inst
  match functOf inst with
  | 0x00 => some <$> m.setD fd (fpu.binaryD 0 (← m.fprD fs) (← m.fprD ft))
  | 0x01 => some <$> m.setD fd (fpu.binaryD 1 (← m.fprD fs) (← m.fprD ft))
  | 0x02 => some <$> m.setD fd (fpu.binaryD 2 (← m.fprD fs) (← m.fprD ft))
  | 0x03 => some <$> m.setD fd (fpu.binaryD 3 (← m.fprD fs) (← m.fprD ft))
  | 0x04 => some <$> m.setD fd (fpu.sqrtD (← m.fprD fs))
  | 0x05 => some <$> m.setD fd (fpu.absD (← m.fprD fs))
  | 0x06 => do
      -- word by word, not through a double
      let m ← m.setFpr fd (← m.fprAt fs)
      some <$> m.setFpr (fd + 1) (← m.fprAt (fs + 1))
  | 0x07 => some <$> m.setD fd (fpu.negD (← m.fprD fs))
  | 0x20 => some <$> m.setFpr fd (fpu.narrow (← m.fprD fs))
  | 0x21 => some <$> m.setD fd (← m.fprD fs)
  | 0x24 => some <$> m.setFpr fd (fpu.toInt (← m.fprD fs) m.cpu.fcsr)
  | funct =>
    if 0x30 ≤ funct ∧ funct ≤ 0x3f then
      pure (compare fpu m (funct &&& 0xF) (← m.fprD fs) (← m.fprD ft))
    else pure none

/-- The work of `mips_cop1`: nothing for a reserved instruction. -/
def cop1Op (m : Machine W) (inst : Word) : Checked (Option (Machine W)) := do
  let ft := rtOf inst
  let fs := rdOf inst
  let fd := saOf inst
  match (rsOf inst).val with
  | 0x00 => if ft = 0 then pure m else pure (m.setReg ft (← m.fprAt fs))
  | 0x04 => some <$> m.setFpr fs (m.reg ft)
  | 0x02 =>
    if ft = 0 then pure m
    else pure (m.setReg ft (if fs = 31 then m.cpu.fcsr else if fs = 0 then 0x300 else 0))
  | 0x06 => if fs = 31 then pure (some { m with cpu := { m.cpu with fcsr := m.reg ft } }) else pure m
  | 0x08 =>
    if ft.val.testBit 0 = (m.cpu.fcsr &&& fcsrC != 0) then
      pure (m.doBranch (m.cpu.pc + immSe inst <<< 2))
    else pure m
  | 0x10 => cop1Single fpu m inst
  | 0x11 => cop1Double fpu m inst
  | 0x14 =>
    match functOf inst with
    | 0x20 => some <$> m.setFpr fd (fpu.ofIntS (← m.fprAt fs))
    | 0x21 => some <$> m.setD fd (fpu.ofIntD (← m.fprAt fs))
    | _ => pure none
  | _ => pure none

/-- How a case of `mips_step` ends: with `break`, or with `return -1` before the common end. -/
inductive Outcome (W : Type)
  | next (m : Machine W)
  | stop (m : Machine W)

def mipsCop1 (m : Machine W) (inst : Word) : Checked (Outcome W) := do
  match ← cop1Op fpu m inst with
  | some m => pure (.next m)
  | none => pure (.stop (m.trap .illegal sigIll 0 inst "reserved COP1"))

/-! ## The integer instructions -/

variable (bus : Bus W)

/-- `delay_slot_dest`: the register an instruction writes, 0 for none. -/
def delaySlotDest : Fin 32 :=
  let op := opcode inst
  if op = 0x00 then
    if functOf inst ∈ [0x00, 0x02, 0x03, 0x04, 0x06, 0x07, 0x09, 0x10, 0x12, 0x20, 0x21, 0x22, 0x23,
        0x24, 0x25, 0x26, 0x27, 0x2A, 0x2B] then rdOf inst
    else 0
  else if op ∈ [0x08, 0x09, 0x0A, 0x0B, 0x0C, 0x0D, 0x0E, 0x0F, 0x20, 0x21, 0x22, 0x23, 0x24, 0x25,
      0x26] then rtOf inst
  else if op = 0x01 then if (rtOf inst).val &&& 0x1E = 0x10 then 31 else 0
  else if op = 0x03 then 31
  else 0

/-- `FN_DIV`: the quotient and the remainder, as the source settles the two undefined cases. -/
def divide (n d : Word) : Word × Word :=
  if d = 0 then (if 0 ≤ n.toInt then 0xFFFFFFFF else 1, n)
  else if n = 0x80000000 ∧ d = 0xFFFFFFFF then (0x80000000, 0)
  else (n.sdiv d, n.srem d)

/-- `FN_DIVU` -/
def divideU (n d : Word) : Word × Word :=
  if d = 0 then (0xFFFFFFFF, n) else (n / d, n % d)

/-- `OP_SPECIAL` -/
def special (m : Machine W) (inst : Word) : Outcome W :=
  let rs := rsOf inst
  let rt := rtOf inst
  let rd := rdOf inst
  let sa := (saOf inst).val
  let a := m.reg rs
  let b := m.reg rt
  let count := (a &&& 0x1F).toNat
  match functOf inst with
  | 0x00 => .next (m.setReg rd (b <<< sa))
  | 0x02 => .next (m.setReg rd (b >>> sa))
  | 0x03 => .next (m.setReg rd (b.sshiftRight sa))
  | 0x04 => .next (m.setReg rd (b <<< count))
  | 0x06 => .next (m.setReg rd (b >>> count))
  | 0x07 => .next (m.setReg rd (b.sshiftRight count))
  | 0x08 => .next (m.doBranch a)
  | 0x09 => .next ((m.setReg rd (m.cpu.pc + 4)).doBranch a)
  | 0x0C =>
    match bus.syscall with
    | some handler => .next (handler m)
    | none => .next (m.trap .syscall sigTrap 0 inst "syscall with no handler")
  | 0x0D =>
    let code := (inst >>> 6) &&& 0xFFFFF
    .next (m.trap .break_ (if code = 6 ∨ code = 7 then sigFpe else sigTrap) code inst "break")
  | 0x10 => .next (m.setReg rd m.cpu.hi)
  | 0x11 => .next { m with cpu := { m.cpu with hi := a } }
  | 0x12 => .next (m.setReg rd m.cpu.lo)
  | 0x13 => .next { m with cpu := { m.cpu with lo := a } }
  | 0x18 =>
    let p := a.signExtend 64 * b.signExtend 64
    .next (m.setHiLo ((p >>> 32).setWidth 32) (p.setWidth 32))
  | 0x19 =>
    let p := a.setWidth 64 * b.setWidth 64
    .next (m.setHiLo ((p >>> 32).setWidth 32) (p.setWidth 32))
  | 0x1A => .next (m.setHiLo (divide a b).2 (divide a b).1)
  | 0x1B => .next (m.setHiLo (divideU a b).2 (divideU a b).1)
  | 0x20 =>
    let r := a + b
    if ((a ^^^ r) &&& (b ^^^ r)).msb then .stop (m.trap .overflow sigFpe 0 inst "add overflow")
    else .next (m.setReg rd r)
  | 0x21 => .next (m.setReg rd (a + b))
  | 0x22 =>
    let r := a - b
    if ((a ^^^ b) &&& (a ^^^ r)).msb then .stop (m.trap .overflow sigFpe 0 inst "sub overflow")
    else .next (m.setReg rd r)
  | 0x23 => .next (m.setReg rd (a - b))
  | 0x24 => .next (m.setReg rd (a &&& b))
  | 0x25 => .next (m.setReg rd (a ||| b))
  | 0x26 => .next (m.setReg rd (a ^^^ b))
  | 0x27 => .next (m.setReg rd (~~~(a ||| b)))
  | 0x2A => .next (m.setReg rd (if a.slt b then 1 else 0))
  | 0x2B => .next (m.setReg rd (if a < b then 1 else 0))
  | _ => .stop (m.trap .illegal sigIll 0 inst "reserved SPECIAL funct")

def branchIf (inst : Word) (take : Bool) : Outcome W :=
  .next (if take then m.doBranch (m.cpu.pc + immSe inst <<< 2) else m)

def regimm (inst : Word) : Outcome W :=
  let rt := (rtOf inst).val
  -- the link is written first, so that a branch on `$ra` tests the link
  let m := if rt &&& 0x1E = 0x10 then m.setReg 31 (m.cpu.pc + 4) else m
  let negative := (m.reg (rsOf inst)).msb
  branchIf m inst (if rt.testBit 0 then !negative else negative)

/-- A load into a general register: the latch names it before memory is read. -/
def load (read : Word → Machine W → Word × Machine W) (conv : Word → Word) (m : Machine W)
    (rt : Fin 32) (addr : Word) : Machine W :=
  if rt = 0 then m
  else
    let (v, m) := read addr { m with cpu := { m.cpu with loadReg := rt } }
    { m with cpu := { m.cpu with loadVal := conv v } }

def aligned (inst addr mask : Word) (type : TrapType) (note : String)
    (access : Outcome W) : Outcome W :=
  if addr &&& mask ≠ 0 then .stop (m.trap type sigBus addr inst note) else access

/-- `OP_LWL`: the loaded bytes become the upper ones. -/
def mergeLeft (cur word addr : Word) : Word :=
  match (addr &&& 3).toNat with
  | 0 => (cur &&& 0x00FFFFFF) ||| word <<< 24
  | 1 => (cur &&& 0x0000FFFF) ||| word <<< 16
  | 2 => (cur &&& 0x000000FF) ||| word <<< 8
  | _ => word

/-- `OP_LWR` -/
def mergeRight (cur word addr : Word) : Word :=
  match (addr &&& 3).toNat with
  | 0 => word
  | 1 => (cur &&& 0xFF000000) ||| word >>> 8
  | 2 => (cur &&& 0xFFFF0000) ||| word >>> 16
  | _ => (cur &&& 0xFFFFFF00) ||| word >>> 24

/-- `OP_SWL` -/
def storeLeft (mem reg addr : Word) : Word :=
  match (addr &&& 3).toNat with
  | 0 => (mem &&& 0xFFFFFF00) ||| reg >>> 24
  | 1 => (mem &&& 0xFFFF0000) ||| reg >>> 16
  | 2 => (mem &&& 0xFF000000) ||| reg >>> 8
  | _ => reg

/-- `OP_SWR` -/
def storeRight (mem reg addr : Word) : Word :=
  match (addr &&& 3).toNat with
  | 0 => reg
  | 1 => (mem &&& 0x000000FF) ||| reg <<< 8
  | 2 => (mem &&& 0x0000FFFF) ||| reg <<< 16
  | _ => (mem &&& 0x00FFFFFF) ||| reg <<< 24

/-- The instructions other than those of the coprocessor; `dreg` and `dval` are the load still pending. -/
def integerOp (m : Machine W) (inst : Word) (dreg : Fin 32) (dval : Word) : Outcome W :=
  let rs := rsOf inst
  let rt := rtOf inst
  let imm := immSe inst
  let a := m.reg rs
  let addr := a + imm
  let word := addr &&& ~~~3
  let jump := (m.cpu.pc &&& 0xF0000000) ||| target26 inst <<< 2
  let cur := if dreg = rt then dval else m.reg rt
  match opcode inst with
  | 0x00 => special bus m inst
  | 0x01 => regimm m inst
  | 0x02 => .next (m.doBranch jump)
  | 0x03 => .next ((m.setReg 31 (m.cpu.pc + 4)).doBranch jump)
  | 0x04 => branchIf m inst (a == m.reg rt)
  | 0x05 => branchIf m inst (a != m.reg rt)
  | 0x06 => branchIf m inst (a.sle 0)
  | 0x07 => branchIf m inst (BitVec.slt 0 a)
  | 0x08 =>
    let r := a + imm
    if ((a ^^^ r) &&& (imm ^^^ r)).msb then .stop (m.trap .overflow sigFpe 0 inst "addi overflow")
    else .next (m.setReg rt r)
  | 0x09 => .next (m.setReg rt (a + imm))
  | 0x0A => .next (m.setReg rt (if a.slt imm then 1 else 0))
  | 0x0B => .next (m.setReg rt (if a < imm then 1 else 0))
  | 0x0C => .next (m.setReg rt (a &&& immZe inst))
  | 0x0D => .next (m.setReg rt (a ||| immZe inst))
  | 0x0E => .next (m.setReg rt (a ^^^ immZe inst))
  | 0x0F => .next (m.setReg rt (immZe inst <<< 16))
  | 0x31 =>
    aligned m inst addr 3 .loadMisalign "misaligned lwc1" (let (v, m) := bus.read32 addr m
       .next { m with cpu := { m.cpu with fpr := m.cpu.fpr.set rt.val v rt.isLt } })
  | 0x39 =>
    aligned m inst addr 3 .storeMisalign "misaligned swc1" (.next (bus.write32 addr (m.cpu.fpr.get rt) m))
  | 0x20 => .next (load bus.read8 (fun v => (v.setWidth 8).signExtend 32) m rt addr)
  | 0x24 => .next (load bus.read8 (· &&& 0xFF) m rt addr)
  | 0x21 =>
    aligned m inst addr 1 .loadMisalign "misaligned lh"
      (.next (load bus.read16 (fun v => (v.setWidth 16).signExtend 32) m rt addr))
  | 0x25 =>
    aligned m inst addr 1 .loadMisalign "misaligned lhu"
      (.next (load bus.read16 (· &&& 0xFFFF) m rt addr))
  | 0x23 =>
    aligned m inst addr 3 .loadMisalign "misaligned lw" (.next (load bus.read32 id m rt addr))
  | 0x22 =>
    let (v, m) := bus.read32 word m
    .next (m.latch rt (mergeLeft cur v addr))
  | 0x26 =>
    let (v, m) := bus.read32 word m
    .next (m.latch rt (mergeRight cur v addr))
  | 0x28 => .next (bus.write8 addr (m.reg rt &&& 0xFF) m)
  | 0x29 =>
    aligned m inst addr 1 .storeMisalign "misaligned sh"
      (.next (bus.write16 addr (m.reg rt &&& 0xFFFF) m))
  | 0x2B =>
    aligned m inst addr 3 .storeMisalign "misaligned sw" (.next (bus.write32 addr (m.reg rt) m))
  | 0x2A =>
    let reg := m.reg rt
    let (v, m) := bus.read32 word m
    .next (bus.write32 word (storeLeft v reg addr) m)
  | 0x2E =>
    let reg := m.reg rt
    let (v, m) := bus.read32 word m
    .next (bus.write32 word (storeRight v reg addr) m)
  | _ => .stop (m.trap .illegal sigIll 0 inst "reserved opcode")

def execute (m : Machine W) (inst : Word) (dreg : Fin 32) (dval : Word) : Checked (Outcome W) :=
  if opcode inst = 0x11 then mipsCop1 fpu m inst else pure (integerOp bus m inst dreg dval)

/-! ## Steps and runs -/

/-- The word at `pc`, the load that was pending, and the machine with the counters moved on and the
latch cleared. -/
def fetch (m : Machine W) : Word × (Fin 32 × Word) × Machine W :=
  let (inst, m) := bus.read32 m.cpu.pc
    { m with cpu := { m.cpu with curPc := m.cpu.pc, inDelay := m.cpu.branchTaken } }
  (inst, (m.cpu.loadReg, m.cpu.loadVal), { m with cpu := { m.cpu with
        pc := m.cpu.nextPc, nextPc := m.cpu.nextPc + 4, branchTaken := false
        loadReg := 0, loadVal := 0 } })

/-- The common end: the deferred load is completed unless the instruction wrote its register. -/
def retire (inst : Word) (dreg : Fin 32) (dval : Word) : Machine W :=
  let m := m.setReg 0 0
  let m := if dreg ≠ 0 ∧ delaySlotDest inst ≠ dreg then m.setReg dreg dval else m
  let m := m.setReg 0 0
  { m with cpu := { m.cpu with cycles := m.cpu.cycles + 1 } }

/-- `mips_step`; its result is -1 where the core it leaves is halted or trapped. -/
def mipsStep (m : Machine W) : Checked (Machine W) :=
  if m.cpu.halted || m.cpu.trapped then pure m
  else if m.cpu.pc &&& 3 ≠ 0 then
    let m := { m with cpu := { m.cpu with curPc := m.cpu.pc, inDelay := m.cpu.branchTaken } }
    pure (m.trap .fetchFault sigBus m.cpu.pc 0 "misaligned instruction fetch")
  else do
    let (inst, (dreg, dval), m) := fetch bus m
    match ← execute fpu bus m inst dreg dval with
    | .next m => pure (retire m inst dreg dval)
    | .stop m => pure m

inductive RunReason
  | budget
  | halt
  | trap
  | yield
  deriving DecidableEq, Repr

def stopReason : Option RunReason :=
  if m.cpu.halted then some .halt
  else if m.cpu.trapped then some .trap
  else if m.cpu.yielding then some .yield
  else none

/-- `mips_run`: why it ended, the instructions executed and the machine it left. -/
def mipsRun : Nat → Machine W → Checked (RunReason × Nat × Machine W)
  | 0, m => pure (.budget, 0, m)
  | count + 1, m =>
    match stopReason m with
    | some reason => pure (reason, 0, m)
    | none => do
      let m ← mipsStep fpu bus m
      match stopReason m with
      | some reason => pure (reason, 1, m)
      | none => do
        let (reason, n, m) ← mipsRun count m
        pure (reason, n + 1, m)

end Step

end Skjegg.Emu.Mips
