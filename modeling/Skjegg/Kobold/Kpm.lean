import Skjegg.Ir.Basic
import Skjegg.Libc.Strtol

/-!
# The KPM1 reader

`kpm_read` reads a text of trimmed lines block by block into a module. The source cuts its lines up
in place; here every step works on the bytes it would see. An allocation never fails, and the counts
of the tables are the lengths of their lists.
-/

namespace Skjegg.Kobold.Kpm

open Skjegg.Lib Skjegg.Libc List
open Skjegg.Ir (Op)

/-! ## Modules -/

structure AsmOp where
  constraint : CStr
  pinReg : Option CStr
  (temp size : Int)
  (isOutput isInout : Bool)
  deriving DecidableEq, Repr

/-- `struct ir_asm_info`; a clobber may be missing. -/
structure AsmInfo where
  (noutputs ninputs : Int)
  ops : List AsmOp
  clobbers : List (Option CStr)
  isVolatile : Int
  deriving DecidableEq, Repr

/-- `struct ir_insn`, with the values `ir_emit` gives a field. -/
structure Insn where
  op : Op
  dst : Int := -1
  a : Int := -1
  b : Int := -1
  imm : Int := 0
  sym : Option CStr := none
  asmInfo : Option AsmInfo := none
  slot : Int := -1
  label : Int := -1
  nargs : Int := 0
  vararg : Int := 0
  argalign : Int := 0
  deriving DecidableEq, Repr

/-- `struct ir_func`, as far as a module carries it. -/
structure Func where
  name : CStr := []
  fromUnit : Option CStr := none
  srcFile : Option CStr := none
  isLocal : Bool := false
  isVariadic : Bool := false
  nparams : Int := 0
  nslots : Int := 0
  ntemps : Int := 0
  nlabels : Int := 0
  slotSize : List Int := []
  paramClass : List Int := []
  paramFw : List Int := []
  paramNeb : List Int := []
  paramCls : List Int := []
  insns : List Insn := []
  deriving DecidableEq, Repr

inductive BaseType
  | i8 | i16 | i32 | i64 | f32 | f64
  deriving DecidableEq, Repr

inductive Init
  | ival (v : Int)
  | sym (s : CStr)
  deriving DecidableEq, Repr

/-- `struct ir_global`, as far as a module carries it. -/
structure Global where
  name : CStr
  baseType : BaseType
  fromUnit : Option CStr := none
  arrSize : Int := 0
  align : Int := 0
  isPtr : Bool := false
  isLocal : Bool := false
  isExport : Bool := false
  isRodata : Bool := false
  isStrobj : Bool := false
  inits : List Init := []
  initString : Option (List UInt8) := none
  deriving DecidableEq, Repr

structure Method where
  name : CStr
  paramCls : List CStr
  retCls : Option CStr
  deriving DecidableEq, Repr

inductive ImportKind
  | func
  | helper
  | type
  deriving DecidableEq, Repr

structure Import where
  kind : ImportKind
  name : CStr
  paramCls : List CStr := []
  retCls : Option CStr := none
  methods : List Method := []
  deriving DecidableEq, Repr

structure Dep where
  name : CStr
  fingerprint : Nat
  deriving DecidableEq, Repr

inductive ModuleKind
  | object
  | library
  | executable
  deriving DecidableEq, Repr

/-- `struct kpm_module`; the defaults are the zeroed struct. -/
structure Module where
  funcs : List Func := []
  globals : List Global := []
  imports : List Import := []
  exports : List CStr := []
  kind : ModuleKind := .object
  name : Option CStr := none
  entry : Option CStr := none
  target : Option CStr := none
  sourceFile : Option CStr := none
  ifaceFp : Nat := 0
  deps : List Dep := []
  ifaceLines : List CStr := []
  deriving DecidableEq, Repr

/-- The tool that reads: its `long`, `KPM_NATIVE_ARCH` and `KPM_NATIVE_TARGET`. -/
structure Backend where
  dm : Libc.DataModel
  (arch target : CStr)

/-- The message of a failed read, with the number of the line. -/
structure KpmError where
  line : Nat
  msg : CStr
  deriving DecidableEq, Repr

/-! ## Names -/

def opTable : List (String × Op) :=
  [("NOP", .nop), ("LIC", .lic), ("LEA", .lea), ("ADL", .adl), ("MOV", .mov), ("LEA64", .lea64),
    ("ADL64", .adl64), ("ADD", .add), ("SUB", .sub), ("MUL", .mul), ("ADDO", .addo),
    ("SUBO", .subo), ("MULO", .mulo), ("LOC", .loc), ("DIVS", .divs), ("DIVU", .divu),
    ("MODS", .mods), ("MODU", .modu), ("AND", .and), ("OR", .or), ("XOR", .xor), ("SHL", .shl),
    ("SHRS", .shrs), ("SHRU", .shru), ("NEG", .neg), ("NOT", .not), ("LB", .lb), ("LBS", .lbs),
    ("LH", .lh), ("LHS", .lhs), ("LW", .lw), ("SB", .sb), ("SH", .sh), ("SW", .sw), ("LDL", .ldl),
    ("STL", .stl), ("ALLOCA", .alloca), ("CMPEQ", .cmpeq), ("CMPNE", .cmpne), ("CMPLTS", .cmplts),
    ("CMPLES", .cmples), ("CMPGTS", .cmpgts), ("CMPGES", .cmpges), ("CMPLTU", .cmpltu),
    ("CMPLEU", .cmpleu), ("CMPGTU", .cmpgtu), ("CMPGEU", .cmpgeu), ("JMP", .jmp), ("BZ", .bz),
    ("BNZ", .bnz), ("ARG", .arg), ("FARG", .farg), ("CALL", .call), ("CALLI", .calli),
    ("TAILCALL", .tailcall), ("TAILCALLI", .tailcalli), ("RET", .ret), ("RETV", .retv),
    ("FUNC", .func), ("ENDF", .endf), ("LABEL", .label), ("MARK", .mark), ("CAPTURE", .capture),
    ("RESUME", .resume), ("CONT_UNWIND", .contUnwind), ("FADD", .fadd), ("FSUB", .fsub),
    ("FMUL", .fmul), ("FDIV", .fdiv), ("FNEG", .fneg), ("FABS", .fabs), ("FSQRT", .fsqrt),
    ("FCMPEQ", .fcmpeq), ("FCMPLT", .fcmplt), ("FCMPLE", .fcmple), ("ITOF", .itof),
    ("FTOI", .ftoi), ("FROUND", .fround), ("F32TOF64", .f32tof64), ("F64TOF32", .f64tof32),
    ("FLS", .fls), ("FLD", .fld), ("FSS", .fss), ("FSD", .fsd), ("FLH", .flh), ("FSH", .fsh),
    ("FLDL", .fldl), ("FSTL", .fstl), ("FRETV", .fretv), ("FCALL", .fcall), ("FCALLI", .fcalli),
    ("LIC64", .lic64), ("ADD64", .add64), ("SUB64", .sub64), ("MUL64", .mul64),
    ("DIVS64", .divs64), ("DIVU64", .divu64), ("MODS64", .mods64), ("MODU64", .modu64),
    ("AND64", .and64), ("OR64", .or64), ("XOR64", .xor64), ("SHL64", .shl64), ("SHRS64", .shrs64),
    ("SHRU64", .shru64), ("NEG64", .neg64), ("CMP64EQ", .cmp64eq), ("CMP64NE", .cmp64ne),
    ("CMP64LTS", .cmp64lts), ("CMP64LES", .cmp64les), ("CMP64GTS", .cmp64gts),
    ("CMP64GES", .cmp64ges), ("CMP64LTU", .cmp64ltu), ("CMP64LEU", .cmp64leu),
    ("CMP64GTU", .cmp64gtu), ("CMP64GEU", .cmp64geu), ("LD64", .ld64), ("ST64", .st64),
    ("LDL64", .ldl64), ("STL64", .stl64), ("VA_START", .vaStart), ("SEXT64", .sext64),
    ("ZEXT64", .zext64), ("TRUNC64", .trunc64), ("ARG64", .arg64), ("RETV64", .retv64),
    ("CALL64", .call64), ("CALLI64", .calli64), ("RETV_AGG", .retvAgg), ("CALL_AGG", .callAgg),
    ("CALLI_AGG", .calliAgg), ("RETV2", .retv2), ("CALL2", .call2), ("CALLI2", .calli2),
    ("ARG_MEM", .argMem), ("ARG_X8", .argX8), ("ASM", .asm), ("LABADDR", .labaddr),
    ("IJMP", .ijmp), ("LABADDR64", .labaddr64), ("IJMP64", .ijmp64)]

def opByName (name : CStr) : Option Op := (opTable.find? fun e => text e.1 = name).map Prod.snd

def kpmOpName (op : Op) : Option CStr := (opTable.find? fun e => e.2 = op).map fun e => text e.1

def opNeedsSlot : Op → Bool
  | .adl | .adl64 | .ldl | .stl | .ldl64 | .stl64 | .fldl | .fstl | .call2 | .calli2 | .callAgg
  | .calliAgg | .mark | .contUnwind => true
  | _ => false

def opNeedsLabel : Op → Bool
  | .jmp | .bz | .bnz | .label | .labaddr | .labaddr64 => true
  | _ => false

def baseTypeByName (name : CStr) : Option BaseType :=
  if name = text "i8" then some .i8
  else if name = text "i16" then some .i16
  else if name = text "i32" then some .i32
  else if name = text "i64" then some .i64
  else if name = text "f32" then some .f32
  else if name = text "f64" then some .f64
  else none

def kpmIsArchTag (t : CStr) : Bool :=
  t = text "rv32" || t = text "cf" || t = text "x86-64" || t = text "arm64" || t = text "mips" ||
    t = text "x86-32"

/-! ## Lines, tokens and numbers -/

def maxTokens : Nat := 64

def kpmMaxCount : Int := 2 ^ 20

variable (line : CStr)

def tokenize : List CStr := (words line).take maxTokens

def kw (line word : CStr) : Bool := word.isPrefixOf line && (line.drop word.length).head?.all isBlank

def trimLine : CStr :=
  let line := if line.getLast? = some 13 then line.dropLast else line
  let line := line.dropWhile isBlank
  let line := (line.reverse.dropWhile isBlank).reverse
  if line.head? = some 59 then [] else line

/-- `split_lines`: a NUL ends the text. -/
def readLines (t : List UInt8) : List CStr := (splitLines (cString t)).map trimLine

variable (B : Backend) (s : CStr)

def longOf : Int := (strtol B.dm s 10).value

def intOf : Int := Int.bmod (longOf B s) (2 ^ 32)

/-- `(uint32_t)strtoul(s, NULL, 10)` -/
def fingerprintOf : Nat := (strtoul B.dm s 10).value.toNat % 2 ^ 32

/-- `strchr(s, c)`, with the string cut there: what stands in front of the character and behind it. -/
def cutAt (c : UInt8) (s : CStr) : Option (CStr × CStr) :=
  if c ∈ s then some (s.takeWhile (· ≠ c), (s.dropWhile (· ≠ c)).tail) else none

variable (tok : List CStr)

def parseSignature : List CStr × Option CStr :=
  let inside := (tok.dropWhile (· ≠ text "(")).tail
  let cls := inside.takeWhile (· ≠ text ")")
  match (inside.dropWhile (· ≠ text ")")).tail with
  | arrow :: ret :: _ => if arrow = text "->" then (cls, some ret) else (cls, none)
  | _ => (cls, none)

/-! ## Imports -/

def readMethods (pos : Nat) : Nat → List CStr → Except KpmError (List Method)
  | 0, _ => .ok []
  | _ + 1, [] => .error ⟨pos, text "unexpected end inside .import type"⟩
  | nm + 1, line :: rest =>
    match tokenize line with
    | directive :: index :: name :: more =>
      if directive ≠ text ".method" then .error ⟨pos + 1, text "expected .method"⟩
      else
        match readMethods (pos + 1) nm rest with
        | .error e => .error e
        | .ok methods =>
          let (cls, ret) := parseSignature (directive :: index :: name :: more)
          .ok (⟨name, cls, ret⟩ :: methods)
    | _ => .error ⟨pos + 1, text "expected .method"⟩

def methodCount (B : Backend) (nm : Int) : List CStr → Int
  | t :: v :: ts => methodCount B (if t = text "methods" then intOf B v else nm) (v :: ts)
  | _ => nm

def importKind (t : CStr) : Option ImportKind :=
  if t = text "func" then some .func
  else if t = text "helper" then some .helper
  else if t = text "type" then some .type
  else none

/-- One import, from its line and the lines behind it: also how many of those it takes. -/
def readImport (pos : Nat) (line : CStr) (rest : List CStr) :
    Except KpmError (Import × Nat) :=
  match tokenize line with
  | directive :: kind :: name :: more =>
    match importKind kind with
    | none => .error ⟨pos + 1, text "unknown import kind"⟩
    | some .type =>
      let nm := methodCount B 0 more
      if nm < 0 ∨ kpmMaxCount < nm then .error ⟨pos + 1, text "method count out of range"⟩
      else
        match readMethods (pos + 1) nm.toNat rest with
        | .error e => .error e
        | .ok methods => .ok ({ kind := .type, name := name, methods := methods }, nm.toNat)
    | some k =>
      let (cls, ret) := parseSignature (directive :: kind :: name :: more)
      .ok ({ kind := k, name := name, paramCls := cls, retCls := ret }, 0)
  | _ => .error ⟨pos + 1, text "malformed .import"⟩

/-! ## Globals -/

/-- `strtol` of a string of one character, in base 16. -/
def hexOf (c : UInt8) : Int := (strtol B.dm [c] 16).value

-- the equations of a match on so many characters are deep
set_option maxRecDepth 2000 in
def unescape (B : Backend) : List UInt8 → List UInt8
  | 92 :: 110 :: s => 10 :: unescape B s        -- \n
  | 92 :: 116 :: s => 9 :: unescape B s         -- \t
  | 92 :: 114 :: s => 13 :: unescape B s        -- \r
  | 92 :: 120 :: hi :: lo :: s =>               -- \x and two digits
      UInt8.ofNat (hexOf B hi * 16 + hexOf B lo).toNat :: unescape B s
  | 92 :: 120 :: hi :: [] => [UInt8.ofNat (hexOf B hi * 16).toNat]
  | 92 :: 120 :: [] => [0]
  | 92 :: c :: s => c :: unescape B s           -- a quote, a backslash, or any other character
  | c :: s => c :: unescape B s
  | [] => []

def quotedBody : Option CStr :=
  match cutAt 34 line with
  | none => none
  | some (_, behind) =>
    if 34 ∈ behind then some (behind.reverse.dropWhile (· ≠ 34)).tail.reverse else none

def globalFlag (g : Global) (t : CStr) : Global :=
  if t = text "local" then { g with isLocal := true }
  else if t = text "ptr" then { g with isPtr := true }
  else if t = text "export" then { g with isExport := true }
  else if t = text "rodata" then { g with isRodata := true }
  else if t = text "strobj" then { g with isStrobj := true }
  else g

/-- The attributes of a global; three of them take the next token. -/
def globalFlags (B : Backend) (g : Global) : List CStr → Global
  | [] => g
  | [t] => globalFlag g t
  | t :: v :: ts =>
    if t = text "array" then globalFlags B { g with arrSize := intOf B v } ts
    else if t = text "align" then globalFlags B { g with align := intOf B v } ts
    else if t = text "from" then globalFlags B { g with fromUnit := some v } ts
    else globalFlags B (globalFlag g t) (v :: ts)

def initOf : List Init :=
  match tok with
  | _ :: t :: v :: _ => if t = text "sym" then [.sym v] else [.ival (strtoll t 10).value]
  | [_, t] => [.ival (strtoll t 10).value]
  | _ => []

def globalBody (B : Backend) (g : Global) (pos : Nat) : List CStr → Except KpmError (Global × Nat)
  | [] => .error ⟨pos, text "unterminated .global"⟩
  | line :: rest =>
    if line = text ".endglobal" then .ok (g, 1)
    else if (text ".init").isPrefixOf line then
      (globalBody B { g with inits := g.inits ++ initOf (tokenize line) } (pos + 1) rest).map
        fun r => (r.1, r.2 + 1)
    else if (text ".string").isPrefixOf line then
      match quotedBody line with
      | none => .error ⟨pos + 1, text "malformed .string"⟩
      | some body =>
        (globalBody B { g with initString := some (unescape B body) } (pos + 1) rest).map
          fun r => (r.1, r.2 + 1)
    else
      .error ⟨pos + 1, text "unexpected line in .global"⟩

def readGlobal (pos : Nat) (line : CStr) (rest : List CStr) :
    Except KpmError (Global × Nat) :=
  match tokenize line with
  | _ :: name :: type :: more =>
    match baseTypeByName type with
    | none => .error ⟨pos + 1, text "unknown base type"⟩
    | some bt =>
      let g := globalFlags B { name := name, baseType := bt } more
      if g.arrSize < 0 ∨ kpmMaxCount < g.arrSize ∨ g.align < 0 then
        .error ⟨pos + 1, text "global size or alignment out of range"⟩
      else
        globalBody B g (pos + 1) rest
  | _ => .error ⟨pos + 1, text "malformed .global"⟩

/-! ## Instructions -/

/-- An instruction on the way: whether its text has named a slot and a label yet. -/
structure Operands where
  insn : Insn
  seenSlot : Bool := false
  seenLabel : Bool := false
  deriving DecidableEq, Repr

inductive OperandKey
  | dst
  | a
  | b
  | imm
  | slot
  | label
  | nargs
  | sym
  deriving DecidableEq, Repr

def operandKeys : List (String × OperandKey) :=
  [("dst", .dst), ("a", .a), ("b", .b), ("imm", .imm), ("slot", .slot), ("label", .label),
    ("nargs", .nargs), ("sym", .sym)]

def operandKey (key : CStr) : Option OperandKey := (operandKeys.find? fun e => text e.1 = key).map Prod.snd

variable (fn : Func)

/-- One operand.  A temp of -1 is none; a slot and a label have to be there. -/
def setKey (st : Operands) (key : OperandKey) (val : CStr) :
    Except CStr Operands :=
  let v := longOf B val
  match key with
  | .dst =>
    if v < -1 ∨ fn.ntemps ≤ v then .error (text "temp index out of range")
    else .ok { st with insn := { st.insn with dst := v } }
  | .a =>
    if v < -1 ∨ fn.ntemps ≤ v then .error (text "temp index out of range")
    else .ok { st with insn := { st.insn with a := v } }
  | .b =>
    if v < -1 ∨ fn.ntemps ≤ v then .error (text "temp index out of range")
    else .ok { st with insn := { st.insn with b := v } }
  | .imm => .ok { st with insn := { st.insn with imm := (strtoll val 10).value } }
  | .slot =>
    if v < 0 ∨ fn.nslots ≤ v then .error (text "slot index out of range")
    else .ok { st with insn := { st.insn with slot := v }, seenSlot := true }
  | .label =>
    if v < 0 ∨ fn.nlabels ≤ v then .error (text "label index out of range")
    else .ok { st with insn := { st.insn with label := v }, seenLabel := true }
  | .nargs => .ok { st with insn := { st.insn with nargs := intOf B val } }
  | .sym => .ok { st with insn := { st.insn with sym := some val } }

def setOperand (st : Operands) (tok : CStr) : Except CStr Operands :=
  match cutAt 61 tok with
  | none => .ok st
  | some (key, val) =>
    match operandKey key with
    | none => .ok st
    | some k => setKey B fn st k val

def setOperandList (B : Backend) (fn : Func) : Operands → List CStr → Except CStr Operands
  | st, [] => .ok st
  | st, tok :: toks =>
    match setOperand B fn st tok with
    | .error e => .error e
    | .ok st => setOperandList B fn st toks

def setOperands (op : Op) (toks : List CStr) : Except CStr Insn :=
  match setOperandList B fn { insn := { op := op } } toks with
  | .error e => .error e
  | .ok st =>
    if opNeedsSlot op ∧ ¬st.seenSlot then .error (text "missing slot operand")
    else if opNeedsLabel op ∧ ¬st.seenLabel then .error (text "missing label operand")
    else .ok st.insn

variable (ntemps : Int)

/-- One operand descriptor `role,constraint,temp,size`. -/
def parseAsmOp (desc : CStr) : Option AsmOp :=
  match cutAt 44 desc with
  | none => none
  | some (role, rest) =>
    match cutAt 44 rest with
    | none => none
    | some (constraint, rest) =>
      match cutAt 44 rest with
      | none => none
      | some (temp, size) =>
        let r := role.headD 0
        let t := longOf B temp
        let sz := longOf B size
        if r ≠ 111 ∧ r ≠ 105 ∧ r ≠ 98 then none               -- o, i, b
        else if t < 0 ∨ ntemps ≤ t ∨ sz ≤ 0 ∨ 8 < sz then none
        else some ⟨constraint, none, t, sz, r = 111 ∨ r = 98, r = 98⟩

/-- What the counting pass over the metadata of an extended `asm` finds. -/
structure AsmCounts where
  nout : Int := -1
  nin : Int := -1
  vol : Int := 1
  nclobbers : Nat := 0
  deriving DecidableEq, Repr

/-- `c` or `o`, and a digit. -/
def numbered (c : UInt8) (tok : CStr) : Bool :=
  tok.head? = some c && (tok.tail.head?).any fun d => 48 ≤ d && d ≤ 57

def countAsmToken (n : AsmCounts) (tok : CStr) : AsmCounts :=
  if (text "nout=").isPrefixOf tok then { n with nout := intOf B (tok.drop 5) }
  else if (text "nin=").isPrefixOf tok then { n with nin := intOf B (tok.drop 4) }
  else if (text "vol=").isPrefixOf tok then { n with vol := intOf B (tok.drop 4) }
  else if numbered 99 tok then { n with nclobbers := n.nclobbers + 1 }
  else n

structure AsmFill where
  ops : List (Option AsmOp)
  clobbers : List CStr
  deriving DecidableEq, Repr

/-- One token of the filling pass. -/
def fillAsmToken (nclobbers : Nat) (st : AsmFill) (tok : CStr) :
    Except CStr AsmFill :=
  match cutAt 61 tok with
  | none => .ok st
  | some (_, val) =>
    if numbered 111 tok then
      let oi := intOf B tok.tail
      if oi < 0 ∨ st.ops.length ≤ oi then .error (text "malformed ASM operand")
      else
        match parseAsmOp B ntemps val with
        | none => .error (text "malformed ASM operand")
        | some op => .ok { st with ops := st.ops.set oi.toNat (some op) }
    else if numbered 99 tok then
      if st.clobbers.length < nclobbers then .ok { st with clobbers := st.clobbers ++ [val] }
      else .ok st
    else
      .ok st

def fillAsm (B : Backend) (ntemps : Int) (nclobbers : Nat) :
    AsmFill → List CStr → Except CStr AsmFill
  | st, [] => .ok st
  | st, tok :: toks =>
    match fillAsmToken B ntemps nclobbers st tok with
    | .error e => .error e
    | .ok st => fillAsm B ntemps nclobbers st toks

def readAsmInfo (toks : List CStr) : Except CStr AsmInfo :=
  let n := toks.foldl (countAsmToken B) {}
  if n.nout < 0 ∨ n.nin < 0 ∨ kpmMaxCount < n.nout ∨ kpmMaxCount < n.nin then
    .error (text "malformed ASM operand counts")
  else
    match fillAsm B ntemps n.nclobbers ⟨replicate (n.nout + n.nin).toNat none, []⟩ toks with
    | .error e => .error e
    | .ok st =>
      -- an operand that no token described has no constraint
      if none ∈ st.ops then .error (text "missing ASM operand")
      else
        .ok
          { noutputs := n.nout
            ninputs := n.nin
            ops := st.ops.reduceOption
            clobbers := st.clobbers.map some ++ replicate (n.nclobbers - st.clobbers.length) none
            isVolatile := n.vol }

/-- `kpm_emit_asm_line`: `none` when the line is no `ASM` line. -/
def emitAsmLine (line : CStr) : Except CStr (Option Insn) :=
  if (text "ASM").isPrefixOf line ∧ (line.drop 3).head?.any isBlank then
    let p := (line.drop 3).dropWhile isBlank
    if p.head? = some 34 then
      match quotedBody line with
      | none => .error (text "malformed ASM")
      | some body => .ok (some { op := .asm, sym := some (unescape B body) })
    else
      match cutAt 34 p with
      | none => .error (text "malformed ASM")
      | some (front, behind) =>
        match quotedBody (34 :: behind) with
        | none => .error (text "malformed ASM")
        | some body =>
          match readAsmInfo B ntemps (tokenize front) with
          | .error e => .error e
          | .ok info =>
            .ok (some { op := .asm, sym := some (unescape B body), asmInfo := some info })
  else
    .ok none

/-! ## Functions -/

def funcFlag (t : CStr) : Func :=
  if t = text "local" then { fn with isLocal := true }
  else if t = text "variadic" then { fn with isVariadic := true }
  else fn

def funcFlags (B : Backend) (fn : Func) : List CStr → Func
  | [] => fn
  | [t] => funcFlag fn t
  | t :: v :: ts =>
    if t = text "from" then funcFlags B { fn with fromUnit := some v } ts
    else if t = text "params" then funcFlags B { fn with nparams := intOf B v } ts
    else if t = text "slots" then funcFlags B { fn with nslots := intOf B v } ts
    else if t = text "temps" then funcFlags B { fn with ntemps := intOf B v } ts
    else if t = text "labels" then funcFlags B { fn with nlabels := intOf B v } ts
    else funcFlags B (funcFlag fn t) (v :: ts)

/-- `read_int_list`: the values go to the front of the array, as far as it reaches. -/
def overlay (out vals : List Int) : List Int := vals.take out.length ++ out.drop vals.length

def funcDirective (tok : List CStr) : Option Func :=
  match tok with
  | [] => none
  | t :: vals =>
    if t = text ".slotsize" then
      some { fn with slotSize := overlay fn.slotSize (vals.map (intOf B)) }
    else if t = text ".paramclass" then
      some { fn with paramClass := overlay fn.paramClass (vals.map (intOf B)) }
    else if t = text ".paramfw" then
      some { fn with
        paramFw := overlay fn.paramFw (vals.map fun v => Int.bmod (longOf B v) (2 ^ 8)) }
    else if t = text ".paramneb" ∨ t = text ".paramcls" ∨ t = text ".retneb" ∨ t = text ".retcls" then
      some fn
    else
      none

def readInsn (line : CStr) : Except CStr (Option Insn) :=
  match emitAsmLine B fn.ntemps line with
  | .error e => .error e
  | .ok (some insn) => .ok (some insn)
  | .ok none =>
    match tokenize line with
    | [] => .ok none
    | name :: toks =>
      match opByName name with
      | none => .error (text "unknown opcode")
      | some op => (setOperands B fn op toks).map some

def funcLine (pos : Nat) (line : CStr) : Except KpmError Func :=
  if line.head? = some 46 then
    match funcDirective B fn (tokenize line) with
    | none => .error ⟨pos + 1, text "unexpected directive in .func"⟩
    | some fn => .ok fn
  else
    match readInsn B fn line with
    | .error msg => .error ⟨pos + 1, msg⟩
    | .ok insn => .ok { fn with insns := fn.insns ++ insn.toList }

/-- The lines of a function up to `.endfunc`, and how many there are. -/
def funcBody (B : Backend) (fn : Func) (pos : Nat) : List CStr → Except KpmError (Func × Nat)
  | [] => .error ⟨pos, text "unterminated .func"⟩
  | line :: rest =>
    if line = text ".endfunc" then .ok (fn, 1)
    else
      match funcLine B fn pos line with
      | .error e => .error e
      | .ok fn => (funcBody B fn (pos + 1) rest).map fun r => (r.1, r.2 + 1)

def countInRange (n : Int) : Bool := 0 ≤ n && n ≤ kpmMaxCount

def deriveAbi : Func :=
  { fn with
    paramNeb := fn.paramClass.map fun _ => 1
    paramCls := fn.paramClass.flatMap fun c => [if c = 1 then 1 else 0, 0, 0, 0] }

def allocArrays : Func :=
  { fn with
    slotSize := replicate fn.nslots.toNat 0
    paramClass := replicate fn.nparams.toNat 0
    paramFw := replicate fn.nparams.toNat 0 }

def readFunc (pos : Nat) (line : CStr) (rest : List CStr) :
    Except KpmError (Func × Nat) :=
  match tokenize line with
  | _ :: name :: more =>
    let fn := funcFlags B { name := name } more
    if ¬(countInRange fn.nparams ∧ countInRange fn.nslots ∧ countInRange fn.ntemps ∧
        countInRange fn.nlabels) then
      .error ⟨pos + 1, text "function count out of range"⟩
    else if fn.nslots < fn.nparams then .error ⟨pos + 1, text "more parameters than slots"⟩
    else
      (funcBody B (allocArrays fn) (pos + 1) rest).map fun r => (deriveAbi r.1, r.2)
  | _ => .error ⟨pos + 1, text "malformed .func"⟩

/-! ## The module -/

/-- `.target`: the message when the module is for another backend. -/
def targetMismatch (t : CStr) : Option CStr :=
  if kpmIsArchTag t then
    if t ≠ B.arch then
      -- the message buffer has 128 bytes
      some ((text "KPM target mismatch: module is " ++ t ++ text ", this backend is " ++ B.arch).take 127)
    else
      none
  else if (t = text "ilp32" ∨ t = text "lp64") ∧ t ≠ B.target then
    some (if B.target = text "lp64" then
        text "KPM pointer-width mismatch: module is ilp32, this backend is lp64"
      else
        text "KPM pointer-width mismatch: module is lp64, this backend is ilp32")
  else
    none

def moduleKind (t : CStr) : Option ModuleKind :=
  if t = text "object" then some .object
  else if t = text "library" then some .library
  else if t = text "executable" then some .executable
  else none

def depOf : List Dep :=
  match tok with
  | _ :: name :: f :: v :: _ =>
    if f = text "fingerprint" then [⟨name, fingerprintOf B v⟩] else [⟨name, 0⟩]
  | _ :: name :: _ => [⟨name, 0⟩]
  | _ => []

def skipInterface : List CStr → Option Nat
  | [] => none
  | line :: rest => if kw line (text ".endinterface") then some 1 else (skipInterface rest).map (· + 1)

inductive Directive
  | target
  | module
  | entry
  | uses
  | interface
  | file
  | import
  | export
  | global
  | func
  deriving DecidableEq, Repr

def directives : List (String × Directive) :=
  [(".target", .target), (".module", .module), (".entry", .entry), (".uses", .uses),
    (".interface", .interface), (".file", .file), (".import", .import), (".export", .export),
    (".global", .global), (".func", .func)]

def directiveOf : Option Directive := (directives.find? fun d => kw line (text d.1)).map Prod.snd

variable (m : Module)

def readTarget (pos : Nat) (tok : List CStr) : Except KpmError Module :=
  match tok with
  | _ :: t :: _ =>
    match targetMismatch B t with
    | some msg => .error ⟨pos + 1, msg⟩
    | none => .ok { m with target := some t }
  | _ => .ok m

def readModuleKind (pos : Nat) (tok : List CStr) : Except KpmError Module :=
  match tok with
  | _ :: k :: more =>
    match moduleKind k with
    | none => .error ⟨pos + 1, text "unknown module kind"⟩
    | some kind => .ok { m with kind := kind, name := more.head?.or m.name }
  | _ => .ok m

def interfaceFp : Option Nat :=
  match tok with
  | _ :: f :: v :: _ => if f = text "fingerprint" then some (fingerprintOf B v) else none
  | _ => none

def readInterface (pos : Nat) (line : CStr) (rest : List CStr) :
    Except KpmError (Module × Nat) :=
  match skipInterface rest with
  | none => .error ⟨pos + 1, text "unterminated .interface"⟩
  | some k => .ok ({ m with ifaceFp := (interfaceFp B (tokenize line)).getD m.ifaceFp }, k)

/-- One line at the top level, with the lines behind it: the module after it, and how many of those
lines it took. -/
def readItem (pos : Nat) (line : CStr) (rest : List CStr) :
    Except KpmError (Module × Nat) :=
  if line = [] then .ok (m, 0)
  else
    match directiveOf line with
    | some .target => (readTarget B m pos (tokenize line)).map fun m => (m, 0)
    | some .module => (readModuleKind m pos (tokenize line)).map fun m => (m, 0)
    | some .entry => .ok ({ m with entry := (tokenize line)[1]?.or m.entry }, 0)
    | some .uses => .ok ({ m with deps := m.deps ++ depOf B (tokenize line) }, 0)
    | some .interface => readInterface B m pos line rest
    | some .file =>
      .ok ({ m with sourceFile := ((quotedBody line).map (unescape B)).or m.sourceFile }, 0)
    | some .import =>
      (readImport B pos line rest).map fun r => ({ m with imports := m.imports ++ [r.1] }, r.2)
    | some .export => .ok ({ m with exports := m.exports ++ (tokenize line)[1]?.toList }, 0)
    | some .global =>
      (readGlobal B pos line rest).map fun r => ({ m with globals := m.globals ++ [r.1] }, r.2)
    | some .func =>
      (readFunc B pos line rest).map fun r => ({ m with funcs := m.funcs ++ [r.1] }, r.2)
    | none => .error ⟨pos + 1, text "unexpected top-level line"⟩

/-- The main loop, at the line of index `pos`; the next `skip` lines belong to the item before them. -/
def readItems (B : Backend) (m : Module) (pos skip : Nat) : List CStr → Except KpmError Module
  | [] => .ok m
  | line :: rest =>
    match skip with
    | skip + 1 => readItems B m (pos + 1) skip rest
    | 0 =>
      match readItem B m pos line rest with
      | .error e => .error e
      | .ok (m', k) => readItems B m' (pos + 1) k rest

/-- The header is the first line that is not empty. -/
def readModule (lines : List CStr) : Except KpmError Module :=
  let pos := (lines.takeWhile (· = [])).length
  match lines.dropWhile (· = []) with
  | [] => .error ⟨pos + 1, text "missing .kpm header"⟩
  | line :: rest =>
    if ¬(text ".kpm").isPrefixOf line then .error ⟨pos + 1, text "missing .kpm header"⟩
    else if (tokenize line)[1]? ≠ some (text "1") then
      .error ⟨pos + 1, text "unsupported .kpm version"⟩
    else
      (readItems B {} (pos + 1) 0 rest).map fun m =>
        { m with funcs := m.funcs.map fun fn => { fn with srcFile := m.sourceFile } }

structure ReadResult where
  rc : Int
  module : Module
  err : Option KpmError
  deriving DecidableEq, Repr

def kpmRead (t : List UInt8) : ReadResult :=
  match readModule B (readLines t) with
  | .ok m => ⟨0, m, none⟩
  | .error e => ⟨-1, {}, some e⟩

end Skjegg.Kobold.Kpm
