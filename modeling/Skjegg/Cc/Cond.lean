import Skjegg.Cc.IntType
import Skjegg.Lib.LabelCode

/-!
# Conditions

`lower_cond` of `cc/lower.c`, which turns a condition into branches to two labels, and the branch on a
nonzero temporary, `IR_BNZ`, as each backend makes it.
-/

namespace Skjegg.Cc

open Lib Lib.LabelCode

/-! ## Temporaries and their test -/

/-- The value of a temporary: one word, or the pair an operation with a 64-bit result leaves. -/
inductive Temp
  | word (x : BitVec 32)
  | long (x : BitVec 64)
  deriving DecidableEq, Repr

def Temp.lo : Temp → BitVec 32
  | .word x => x
  | .long x => x.setWidth 32

def Temp.hi : Temp → BitVec 32
  | .word _ => 0
  | .long x => (x >>> 32).setWidth 32

def Temp.isI64 : Temp → Bool
  | .word _ => false
  | .long _ => true

inductive Backend
  | coldfire
  | mips
  | riscv
  | x86
  | arm64
  deriving DecidableEq, Repr

def Backend.dataModel : Backend → DataModel
  | .coldfire | .mips | .riscv => .ilp32
  | .x86 | .arm64 => .lp64

/-- `IR_BNZ`: whether the branch is taken. -/
def Backend.bnz (b : Backend) (t : Temp) : Bool :=
  match b with
  -- `move.l hi, d0; or.l lo, d0; bne`, or `tst.l; bne`
  | .coldfire => if t.isI64 then t.hi ||| t.lo != 0 else t.lo != 0
  -- `or $t0, lo, hi; bnez $t0`, or `bnez`
  | .mips => if t.isI64 then t.lo ||| t.hi != 0 else t.lo != 0
  -- `bnez` on the register of the temporary, which is that of the low word
  | .riscv => t.lo != 0
  -- `test r32, r32; jne`
  | .x86 => t.lo != 0
  -- `cbnz` on the `w` register
  | .arm64 => t.lo != 0

def Backend.testsBoth : Backend → Bool
  | .coldfire | .mips => true
  | .riscv | .x86 | .arm64 => false

/-! ## Conditions -/

inductive ScalarType
  | integer (t : IntType)
  | pointer
  deriving DecidableEq, Repr

def ScalarType.size (dm : DataModel) : ScalarType → Nat
  | .integer t => typeSize dm t
  | .pointer => dm.longSize

def ScalarType.Holds (dm : DataModel) : ScalarType → Int → Prop
  | .integer t, v => InType dm t v
  | .pointer, v => 0 ≤ v ∧ v < 2 ^ (8 * dm.longSize)

structure Operand (dm : DataModel) (S : Type) where
  ty : ScalarType
  eval : S → Int × S
  inType : ∀ s, ty.Holds dm (eval s).1

def Operand.wide {dm : DataModel} {S : Type} (o : Operand dm S) : Bool := o.ty.size dm == 8

/-- What `lower_expr` leaves in its temporary for a value of the operand. -/
def Operand.temp {dm : DataModel} {S : Type} (o : Operand dm S) (v : Int) : Temp :=
  if o.wide then .long (BitVec.ofInt 64 v) else .word (BitVec.ofInt 32 v)

inductive Cond (dm : DataModel) (S : Type)
  | operand (o : Operand dm S)
  | bang (c : Cond dm S)
  | andAnd (a b : Cond dm S)
  | orOr (a b : Cond dm S)

variable {dm : DataModel} {S : Type}

/-- The condition in C: whether its value is nonzero, and the state its evaluation leaves. -/
def Cond.holds : Cond dm S → S → Bool × S
  | .operand o, s => (decide ((o.eval s).1 ≠ 0), (o.eval s).2)
  | .bang c, s => (!(c.holds s).1, (c.holds s).2)
  | .andAnd a b, s => if (a.holds s).1 then b.holds (a.holds s).2 else a.holds s
  | .orOr a b, s => if (a.holds s).1 then a.holds s else b.holds (a.holds s).2

/-- The sub-conditions C evaluates, each with the state it is evaluated in. -/
inductive Cond.Evaluates : Cond dm S → S → Cond dm S → S → Prop
  | self (c : Cond dm S) (s : S) : Evaluates c s c s
  | bang {c d : Cond dm S} {s t : S} (h : Evaluates c s d t) : Evaluates (.bang c) s d t
  | andLeft {a b d : Cond dm S} {s t : S} (h : Evaluates a s d t) : Evaluates (.andAnd a b) s d t
  | andRight {a b d : Cond dm S} {s t : S} (ha : (a.holds s).1 = true)
      (h : Evaluates b (a.holds s).2 d t) : Evaluates (.andAnd a b) s d t
  | orLeft {a b d : Cond dm S} {s t : S} (h : Evaluates a s d t) : Evaluates (.orOr a b) s d t
  | orRight {a b d : Cond dm S} {s t : S} (ha : (a.holds s).1 = false)
      (h : Evaluates b (a.holds s).2 d t) : Evaluates (.orOr a b) s d t

/-! ## Lowering -/

abbrev CondCode (dm : DataModel) (S : Type) := List (LabelInsn (Operand dm S × Nat) Nat)

structure Fresh where
  (label temp : Nat)
  deriving DecidableEq, Repr

def lowerCond : Cond dm S → Nat → Nat → Fresh → CondCode dm S × Fresh
  | .andAnd a b, ltrue, lfalse, f =>
    let lmid := f.label
    let (codeA, f) := lowerCond a lmid lfalse { f with label := lmid + 1 }
    let (codeB, f) := lowerCond b ltrue lfalse f
    (codeA ++ .label lmid :: codeB, f)
  | .orOr a b, ltrue, lfalse, f =>
    let lmid := f.label
    let (codeA, f) := lowerCond a ltrue lmid { f with label := lmid + 1 }
    let (codeB, f) := lowerCond b ltrue lfalse f
    (codeA ++ .label lmid :: codeB, f)
  | .bang c, ltrue, lfalse, f => lowerCond c lfalse ltrue f
  | .operand o, ltrue, lfalse, f =>
    ([.act (o, f.temp), .branch f.temp ltrue, .jump lfalse], { f with temp := f.temp + 1 })

structure CondState (S : Type) where
  store : S
  temps : Nat → Temp

def evalOperand (a : Operand dm S × Nat) (s : CondState S) : CondState S :=
  { store := (a.1.eval s.store).2
    temps := Function.update s.temps a.2 (a.1.temp (a.1.eval s.store).1) }

def branchTest (b : Backend) (t : Nat) (s : CondState S) : Bool := b.bnz (s.temps t)

end Skjegg.Cc
