import Mathlib.Tactic

/-!
# The compiler's intermediate representation

The opcodes of `ir/ir.h` and the part of an instruction that register allocation and argument passing
read: the opcode, the temps, the width tag in `imm` and the operands of an extended `asm`.
-/

namespace Skjegg.Ir

inductive Op where
  | nop | lic | lea | adl | mov | add | sub | mul | divs | divu | mods | modu | and | or | xor
  | shl | shrs | shru | neg | not | lb | lbs | lh | lhs | lw | sb | sh | sw | ldl | stl | alloca
  | cmpeq | cmpne | cmplts | cmples | cmpgts | cmpges | cmpltu | cmpleu | cmpgtu | cmpgeu | jmp
  | bz | bnz | arg | farg | call | calli | tailcall | tailcalli | ret | retv | func | endf
  | label | mark | capture | resume | contUnwind | fadd | fsub | fmul | fdiv | fneg | fabs
  | fsqrt | fcmpeq | fcmplt | fcmple | itof | ftoi | fround | f32tof64 | f64tof32 | fls | fld
  | fss | fsd | flh | fsh | fldl | fstl | fretv | fcall | fcalli | lic64 | add64 | sub64 | mul64
  | divs64 | divu64 | mods64 | modu64 | and64 | or64 | xor64 | shl64 | shrs64 | shru64 | neg64
  | cmp64eq | cmp64ne | cmp64lts | cmp64les | cmp64gts | cmp64ges | cmp64ltu | cmp64leu
  | cmp64gtu | cmp64geu | ld64 | st64 | ldl64 | stl64 | lea64 | adl64 | vaStart | sext64 | zext64
  | trunc64 | arg64 | retv64 | call64 | calli64 | retvAgg | callAgg | calliAgg | argMem | argX8
  | asm | addo | subo | mulo | loc | retv2 | call2 | calli2 | labaddr | ijmp | labaddr64 | ijmp64
  deriving DecidableEq, Repr

/-- One operand of an extended inline `asm`. -/
structure AsmOp where
  temp : Int
  (isOutput isInout : Bool)
  deriving DecidableEq, Repr

def AsmOp.isDef (o : AsmOp) : Bool := o.isOutput || o.isInout

/-- `asmInfo` lists the `noutputs + ninputs` operands of an extended `asm`. A missing temp is `-1`.
-/
structure Insn where
  op : Op
  dst : Int := -1
  a : Int := -1
  b : Int := -1
  imm : Int := 0
  asmInfo : Option (List AsmOp) := none
  deriving DecidableEq, Repr

structure Func where
  ntemps : Nat
  insns : List Insn
  deriving DecidableEq, Repr

def fwidthF32 : Int := 4

def irOpIsFloatDef : Op → Bool
  | .fadd | .fsub | .fmul | .fdiv | .fneg | .fabs | .fsqrt | .itof | .f32tof64 | .f64tof32
  | .fls | .fld | .flh | .fldl | .fcall | .fcalli => true
  | _ => false

def irOpIsI64Def : Op → Bool
  | .lic64 | .add64 | .sub64 | .mul64 | .divs64 | .divu64 | .mods64 | .modu64 | .and64 | .or64
  | .xor64 | .shl64 | .shrs64 | .shru64 | .neg64 | .ld64 | .ldl64 | .lea64 | .adl64 | .sext64
  | .zext64 | .call64 | .calli64 => true
  | _ => false

/-- The operands whose temps the allocator reads from `asmInfo`: those of an `asm` opcode only. -/
def Insn.asmOps (i : Insn) : List AsmOp :=
  if i.op = .asm then i.asmInfo.getD [] else []

end Skjegg.Ir
