import Skjegg.Kobold.KpmSafe

/-!
# The KPM1 writer

`kpm_write` prints a module line by line; a line stands here for its bytes and the newline behind it.
The contract with the reader is that a module comes back the same.  What of it the text can carry is
said at the end.
-/

namespace Skjegg.Kobold.Kpm

open Skjegg.Lib Skjegg.Libc
open Skjegg.Ir (Op)

/-! ## Pieces of a line -/

def baseTypeName : BaseType → CStr
  | .i8 => text "i8"
  | .i16 => text "i16"
  | .i32 => text "i32"
  | .i64 => text "i64"
  | .f32 => text "f32"
  | .f64 => text "f64"

def hexDigit (n : Nat) : UInt8 :=
  if n < 10 then UInt8.ofNat (48 + n) else UInt8.ofNat (87 + n)

/-- One byte of a quoted string. -/
def escape (c : UInt8) : CStr :=
  if c = 34 then [92, 34]
  else if c = 92 then [92, 92]
  else if c = 10 then [92, 110]
  else if c = 9 then [92, 116]
  else if c = 13 then [92, 114]
  else if 32 ≤ c ∧ c ≤ 126 then [c]
  else [92, 120, hexDigit (c.toNat / 16), hexDigit (c.toNat % 16)]

def writeQuoted (s : List UInt8) : CStr := 34 :: (s.flatMap escape ++ [34])

def writeSignature (paramCls : List CStr) (retCls : Option CStr) : List CStr :=
  [text "("] ++ paramCls ++ [text ")", text "->", retCls.getD (text "void")]

/-- `key=value` with a number. -/
def keyed (key : String) (v : Int) : CStr := text key ++ 61 :: decimal v

def indent : CStr := [32, 32, 32, 32]

/-! ## Imports and globals -/

def writeMethod (index : Nat) (me : Method) : CStr :=
  text ".method" ++ spaced ([decimal index, me.name] ++ writeSignature me.paramCls me.retCls)

def writeImport (imp : Import) : List CStr :=
  match imp.kind with
  | .type =>
    (text ".import" ++ spaced [text "type", imp.name, text "methods", decimal imp.methods.length]) ::
    (imp.methods.mapIdx writeMethod).map (indent ++ ·)
  | .helper =>
    [text ".import" ++ spaced ([text "helper", imp.name] ++ writeSignature imp.paramCls imp.retCls)]
  | .func =>
    [text ".import" ++ spaced ([text "func", imp.name] ++ writeSignature imp.paramCls imp.retCls)]

def writeInit : Init → CStr
  | .sym s => text ".init" ++ spaced [text "sym", s]
  | .ival v => text ".init" ++ spaced [decimal v]

def fromWords : Option CStr → List CStr
  | some u => [text "from", u]
  | none => []

def globalWords (g : Global) : List CStr :=
  (if 0 < g.arrSize then [text "array", decimal g.arrSize] else []) ++
    (if 0 < g.align then [text "align", decimal g.align] else []) ++
    [if g.isExport then text "export" else text "local"] ++
    (if g.isPtr then [text "ptr"] else []) ++
    (if g.isRodata then [text "rodata"] else []) ++
    (if g.isStrobj then [text "strobj"] else []) ++
    fromWords g.fromUnit

def globalInits (g : Global) : List CStr :=
  g.inits.map writeInit ++ g.initString.toList.map fun s => text ".string" ++ 32 :: writeQuoted s

def writeGlobal (g : Global) : List CStr :=
  (text ".global" ++ spaced (g.name :: baseTypeName g.baseType :: globalWords g)) ::
    ((globalInits g).map (indent ++ ·) ++ [text ".endglobal"])

/-! ## Instructions -/

def asmRole (op : AsmOp) : UInt8 :=
  if op.isInout then 98 else if op.isOutput then 111 else 105

def writeAsmOp (op : AsmOp) : CStr :=
  asmRole op :: 44 :: (op.constraint ++ 44 :: (decimal op.temp ++ 44 :: decimal op.size))

def asmWords (info : AsmInfo) : List CStr :=
  [keyed "nout" info.noutputs, keyed "nin" info.ninputs, keyed "vol" info.isVolatile] ++
    info.ops.mapIdx (fun i op => 111 :: (decimal i ++ 61 :: writeAsmOp op)) ++
    info.clobbers.mapIdx (fun i c => 99 :: (decimal i ++ 61 :: c.getD (text "(null)")))

def writeAsm (insn : Insn) : CStr :=
  let template := writeQuoted (insn.sym.getD [])
  match insn.asmInfo with
  | none => text "ASM " ++ template
  | some info => text "ASM " ++ ((asmWords info).flatMap (· ++ [32]) ++ template)

def insnWords (insn : Insn) : List CStr :=
  (if 0 ≤ insn.dst then [keyed "dst" insn.dst] else []) ++
    (if 0 ≤ insn.a then [keyed "a" insn.a] else []) ++
    (if 0 ≤ insn.b then [keyed "b" insn.b] else []) ++
    (if insn.imm ≠ 0 then [keyed "imm" insn.imm] else []) ++
    (if 0 ≤ insn.slot then [keyed "slot" insn.slot] else []) ++
    (if 0 ≤ insn.label then [keyed "label" insn.label] else []) ++
    (if insn.nargs ≠ 0 then [keyed "nargs" insn.nargs] else []) ++
    insn.sym.toList.map fun s => text "sym" ++ 61 :: s

def writeInsn (insn : Insn) : CStr :=
  if insn.op = .asm then writeAsm insn
  else (kpmOpName insn.op).getD (text "NOP") ++ spaced (insnWords insn)

/-! ## Functions -/

def funcWords (fn : Func) : List CStr :=
  (if fn.isLocal then [text "local"] else []) ++ (if fn.isVariadic then [text "variadic"] else []) ++
    fromWords fn.fromUnit ++
    [text "params", decimal fn.nparams, text "slots", decimal fn.nslots, text "temps",
      decimal fn.ntemps, text "labels", decimal fn.nlabels]

def funcLists (fn : Func) : List CStr :=
  (if 0 < fn.nslots ∧ fn.slotSize ≠ [] then
      [text ".slotsize" ++ spaced (fn.slotSize.map decimal)] else []) ++
    (if 0 < fn.nparams ∧ fn.paramClass ≠ [] then
      [text ".paramclass" ++ spaced (fn.paramClass.map decimal)] else []) ++
    (if 0 < fn.nparams ∧ fn.paramFw.any (· ≠ 0) then
      [text ".paramfw" ++ spaced (fn.paramFw.map decimal)] else [])

def writeFunc (fn : Func) : List CStr :=
  (text ".func" ++ spaced (fn.name :: funcWords fn)) ::
    ((funcLists fn ++ fn.insns.map writeInsn).map (indent ++ ·) ++ [text ".endfunc"])

/-! ## The module -/

def moduleLine (m : Module) : CStr :=
  match m.kind with
  | .library => text ".module" ++ spaced (text "library" :: m.name.toList)
  | .executable => text ".module" ++ spaced [text "executable"]
  | .object => text ".module" ++ spaced (text "object" :: m.name.toList)

def group {α : Type} (xs : List α) (f : α → List CStr) : List CStr :=
  if xs = [] then [] else [] :: xs.flatMap f

def writeInterface (m : Module) : List CStr :=
  if m.ifaceLines ≠ [] ∨ m.ifaceFp ≠ 0 then
    [] :: (text ".interface" ++ spaced [text "fingerprint", decimalNat m.ifaceFp]) ::
      (m.ifaceLines ++ [text ".endinterface"])
  else
    []

def moduleLines (m : Module) : List CStr :=
  m.target.toList.map (fun t => text ".target" ++ spaced [t]) ++ [moduleLine m] ++
    m.entry.toList.map (fun e => text ".entry" ++ spaced [e]) ++
    m.deps.map (fun d =>
      text ".uses" ++ spaced [d.name, text "fingerprint", decimalNat d.fingerprint]) ++
    m.sourceFile.toList.map (fun f => text ".file" ++ 32 :: writeQuoted f) ++
    group m.imports writeImport ++
    group m.exports (fun e => [text ".export" ++ spaced [e]]) ++
    group m.globals writeGlobal ++
    writeInterface m ++
    m.funcs.flatMap fun fn => [] :: writeFunc fn

def kpmWrite (m : Module) : List UInt8 := unlines ((text ".kpm" ++ spaced [text "1"]) :: moduleLines m)

/-! ## Well-formed modules -/

/-- A name: not empty, and without the bytes that end a word, a line or a string. -/
structure IsName (s : CStr) : Prop where
  ne_nil : s ≠ []
  plain : ∀ c ∈ s, c ∉ ([0, 9, 10, 13, 32] : List UInt8)

-- the bytes of the word are looked at one by one, not all bytes there are
instance (s : CStr) : Decidable (IsName s) :=
  letI := List.decidableBAll (· ∉ ([0, 9, 10, 13, 32] : List UInt8)) s
  decidable_of_iff (s ≠ [] ∧ ∀ c ∈ s, c ∉ ([0, 9, 10, 13, 32] : List UInt8))
    ⟨fun h => ⟨h.1, h.2⟩, fun h => ⟨h.1, h.2⟩⟩

/-- The range of a C `int`. -/
def IsInt (z : Int) : Prop := -2 ^ 31 ≤ z ∧ z < 2 ^ 31

instance (z : Int) : Decidable (IsInt z) := inferInstanceAs (Decidable (_ ∧ _))

def AsmText (s : CStr) : Prop := ∀ c ∈ s, c ∉ ([0, 9, 10, 13, 32, 34] : List UInt8)

instance (s : CStr) : Decidable (AsmText s) :=
  List.decidableBAll (· ∉ ([0, 9, 10, 13, 32, 34] : List UInt8)) s

structure AsmOk (info : AsmInfo) : Prop where
  outputs : 0 ≤ info.noutputs ∧ IsInt info.noutputs
  inputs : 0 ≤ info.ninputs ∧ IsInt info.ninputs
  isVolatile : IsInt info.isVolatile
  ops_length : (info.ops.length : Int) = info.noutputs + info.ninputs
  ops_int : IsInt info.ops.length
  ops : ∀ op ∈ info.ops, AsmText op.constraint ∧ IsInt op.size
  clobbers : ∀ c ∈ info.clobbers, ∃ s, c = some s ∧ AsmText s

/-- An instruction of the function: the indices are in range, and the fields hold what their C types
can. -/
structure InsnOk (fn : Func) (insn : Insn) : Prop where
  safe : InsnSafe fn insn
  slot : TempOk fn.nslots insn.slot
  label : TempOk fn.nlabels insn.label
  imm : -2 ^ 63 ≤ insn.imm ∧ insn.imm < 2 ^ 63
  nargs : IsInt insn.nargs
  sym : insn.op ≠ .asm → ∀ s, insn.sym = some s → IsName s
  template : insn.op = .asm → insn.sym ≠ none
  asm : ∀ info, insn.asmInfo = some info → AsmOk info

structure FuncOk (fn : Func) : Prop where
  name : IsName fn.name
  fromUnit : ∀ u, fn.fromUnit = some u → IsName u
  params : 0 ≤ fn.nparams ∧ fn.nparams ≤ fn.nslots
  slots : IsInt fn.nslots
  temps : 0 ≤ fn.ntemps ∧ IsInt fn.ntemps
  labels : 0 ≤ fn.nlabels ∧ IsInt fn.nlabels
  slotSize_length : (fn.slotSize.length : Int) = fn.nslots
  slotSize : ∀ z ∈ fn.slotSize, IsInt z
  insns : ∀ insn ∈ fn.insns, InsnOk fn insn

structure GlobalOk (g : Global) : Prop where
  name : IsName g.name
  fromUnit : ∀ u, g.fromUnit = some u → IsName u
  arrSize : IsInt g.arrSize
  align : IsInt g.align
  inits : ∀ s, Init.sym s ∈ g.inits → IsName s

structure SignatureOk (paramCls : List CStr) (retCls : Option CStr) : Prop where
  params : ∀ c ∈ paramCls, IsName c
  ret : ∀ c, retCls = some c → IsName c

structure ImportOk (imp : Import) : Prop where
  name : IsName imp.name
  signature : SignatureOk imp.paramCls imp.retCls
  methods_int : IsInt imp.methods.length
  methods : ∀ me ∈ imp.methods, IsName me.name ∧ SignatureOk me.paramCls me.retCls

structure InterfaceLine (line : CStr) : Prop where
  no_nul : 0 ∉ line
  no_newline : 10 ∉ line
  no_end : kw (trimLine line) (text ".endinterface") = false

/-- A module as a front end builds it: names are names, the functions are well formed. -/
structure WellFormed (m : Module) : Prop where
  target : ∀ t, m.target = some t → IsName t
  name : ∀ n, m.name = some n → IsName n
  entry : ∀ e, m.entry = some e → IsName e
  deps : ∀ d ∈ m.deps, IsName d.name
  imports : ∀ imp ∈ m.imports, ImportOk imp
  exports : ∀ e ∈ m.exports, IsName e
  globals : ∀ g ∈ m.globals, GlobalOk g
  interface : ∀ line ∈ m.ifaceLines, InterfaceLine line
  funcs : ∀ fn ∈ m.funcs, FuncOk fn

/-! ## What the text carries -/

/-- The function that came back has the same counts, slots and instructions. -/
structure SameFunc (fn fn' : Func) : Prop where
  nparams : fn'.nparams = fn.nparams
  nslots : fn'.nslots = fn.nslots
  slotSize : fn'.slotSize = fn.slotSize
  insns : fn'.insns = fn.insns

/-- The module reads back from its own text. -/
structure RoundTrips (B : Backend) (m : Module) : Prop where
  succeeds : (kpmRead B (kpmWrite m)).rc = 0
  funcs : List.Forall₂ SameFunc m.funcs (kpmRead B (kpmWrite m)).module.funcs

structure AsmOpCarried (op : AsmOp) : Prop where
  constraint : 44 ∉ op.constraint
  pinReg : op.pinReg = none
  size : 0 < op.size ∧ op.size ≤ 8
  inout : op.isInout → op.isOutput

/-- The words of an extended `asm` all fit the tokenizer's table. -/
structure AsmCarried (info : AsmInfo) : Prop where
  words : 3 + info.ops.length + info.clobbers.length ≤ maxTokens
  ops : ∀ op ∈ info.ops, AsmOpCarried op

/-- The fields the text has no place for are at their defaults. -/
structure InsnCarried (insn : Insn) : Prop where
  vararg : insn.vararg = 0
  argalign : insn.argalign = 0
  plain : insn.op ≠ .asm → insn.asmInfo = none
  asm : insn.op = .asm → insn.dst = -1 ∧ insn.a = -1 ∧ insn.b = -1 ∧ insn.slot = -1 ∧
    insn.label = -1 ∧ insn.imm = 0 ∧ insn.nargs = 0
  info : ∀ info, insn.asmInfo = some info → AsmCarried info

structure FuncCarried (fn : Func) : Prop where
  slots : fn.nslots ≤ kpmMaxCount
  temps : fn.ntemps ≤ kpmMaxCount
  labels : fn.nlabels ≤ kpmMaxCount
  slotSize : ∀ z ∈ fn.slotSize.drop (maxTokens - 1), z = 0
  insns : ∀ insn ∈ fn.insns, InsnCarried insn

/-- The module is for the backend that reads it, and the text carries every part. -/
structure Carried (B : Backend) (m : Module) : Prop where
  target : ∀ t, m.target = some t → targetMismatch B t = none
  imports : ∀ imp ∈ m.imports, imp.kind = .type → (imp.methods.length : Int) ≤ kpmMaxCount
  globals : ∀ g ∈ m.globals, g.arrSize ≤ kpmMaxCount
  funcs : ∀ fn ∈ m.funcs, FuncCarried fn

end Skjegg.Kobold.Kpm
