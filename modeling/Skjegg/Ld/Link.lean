import Skjegg.Ld.Script

/-!
# Symbol collection and layout

The part of `link.c` that all targets share: `collect_symbols` merges the symbols of the objects,
`ld_layout` places the input sections and gives the symbols their addresses.
-/

namespace Skjegg.Ld

theorem step_ok {ε α β : Type} {x : Except ε α} {f : α → Except ε β} {b : β}
    (h : x >>= f = .ok b) : ∃ a, x = .ok a ∧ f a = .ok b := by
  cases x with
  | error e => cases h
  | ok a => exact ⟨a, rfl, h⟩

theorem step_error {ε α β : Type} {x : Except ε α} {f : α → Except ε β} {e : ε}
    (h : x >>= f = .error e) : x = .error e ∨ ∃ a, x = .ok a ∧ f a = .error e := by
  cases x with
  | error e' =>
    cases h
    exact .inl rfl
  | ok a => exact .inr ⟨a, rfl, h⟩

/-- What ends the linker early: `die`, or a read outside the bytes or the table at hand. -/
inductive LdError
  | die (msg : String)
  | outside
  deriving DecidableEq, Repr

def orDie {α : Type} : Except String α → Except LdError α := Except.mapError .die

theorem orDie_eq_ok {α : Type} {x : Except String α} {a : α} : orDie x = .ok a ↔ x = .ok a := by
  cases x with
  | error e => exact ⟨nofun, nofun⟩
  | ok b => simp [orDie, Except.mapError]

theorem orDie_ne_outside {α : Type} (x : Except String α) : orDie x ≠ .error .outside := by
  cases x with
  | error e => exact fun h => nomatch Except.error.inj h
  | ok b => nofun

/-! ## Objects and symbols -/

def shtProgbits : Nat := 1
def shtNobits : Nat := 8
def shfAlloc : Nat := 2
def stbLocal : Nat := 0
def stbGlobal : Nat := 1
def stbWeak : Nat := 2
def sttNotype : Nat := 0
def sttSection : Nat := 3
def shnUndef : Nat := 0
def shnAbs : Nat := 0xFFF1

/-- `struct ld_input_sec` -/
structure InputSec where
  name : Text
  type : Nat
  flags : Nat := 0
  data : List UInt8 := []
  size : UInt32
  align : UInt32 := 1
  assignedVaddr : UInt32 := 0
  matched : Bool := false
  deriving DecidableEq, Repr

structure InputSym where
  name : Text
  value : UInt32 := 0
  size : UInt32 := 0
  (shndx binding : Nat)
  type : Nat := sttNotype
  deriving DecidableEq, Repr

/-- `struct ld_object` -/
structure Object where
  sections : List InputSec
  syms : List InputSym
  symMap : List Nat := []
  deriving DecidableEq, Repr

/-- `struct ld_symbol` -/
structure Symbol where
  name : Text
  value : UInt32
  (defined weak : Bool)
  (objIdx secIdx : Int)
  type : Nat := sttNotype
  size : UInt32 := 0
  binding : Nat := stbGlobal
  deriving DecidableEq, Repr, Inhabited

variable (isym : InputSym)

def InputSym.isDef : Bool := isym.shndx != shnUndef

def InputSym.isWeak : Bool := isym.binding == stbWeak

def InputSym.isLocal : Bool := isym.binding == stbLocal

variable (syms : List Symbol)

def symFind (name : Text) : Option Nat := syms.findIdx? (·.name = name)

def newEntry (oi : Nat) (isym : InputSym) : Symbol where
  name := isym.name
  value := isym.value
  defined := isym.isDef
  weak := isym.isWeak
  objIdx := oi
  secIdx := isym.shndx
  type := isym.type
  size := isym.size
  binding := if isym.isLocal then stbLocal else stbGlobal

/-- What a global or weak symbol of object `oi` makes of the entry of its name. -/
def mergeSym (oi : Nat) (isym : InputSym) (g : Symbol) : Except String Symbol :=
  if isym.isDef then
    if g.defined then
      -- a weak definition never displaces an existing one
      if g.weak && !isym.isWeak then
        .ok { g with
          value := isym.value
          weak := false
          objIdx := oi
          secIdx := isym.shndx
          type := isym.type
          size := isym.size }
      else if !g.weak && !isym.isWeak then .error ("duplicate symbol: " ++ String.ofList isym.name)
      else
        .ok g
    else
      .ok { g with
        defined := true
        value := isym.value
        weak := isym.isWeak
        objIdx := oi
        secIdx := isym.shndx
        type := isym.type
        size := isym.size }
  else if !g.defined && !isym.isWeak then .ok { g with weak := false }
  else
    .ok g

def collectSym (oi : Nat) (syms : List Symbol) (isym : InputSym) :
    Except String (List Symbol × Nat) :=
  if isym.isLocal then .ok (syms ++ [newEntry oi isym], syms.length)
  else
    match symFind syms isym.name with
    | some existing => do
        let g ← mergeSym oi isym (syms.getD existing default)
        pure (syms.set existing g, existing)
    | none => .ok (syms ++ [newEntry oi isym], syms.length)

def collectSyms (oi : Nat) (syms : List Symbol) :
    List InputSym → Except String (List Symbol × List Nat)
  | [] => .ok (syms, [])
  | isym :: isyms => do
      let (syms, gidx) ← collectSym oi syms isym
      let (syms, symMap) ← collectSyms oi syms isyms
      pure (syms, gidx :: symMap)

def collectSymbols (oi : Nat) (syms : List Symbol) :
    List Object → Except String (List Symbol × List Object)
  | [] => .ok (syms, [])
  | obj :: objs => do
      let (syms, symMap) ← collectSyms oi syms obj.syms
      let (syms, objs) ← collectSymbols (oi + 1) syms objs
      pure (syms, { obj with symMap := symMap } :: objs)

variable (pat : SecPattern)

/-! ## Placing the sections -/

def patternMatches (name : Text) : Bool :=
  if pat.name = "COMMON".toList then decide (name = "COMMON".toList)
  else if pat.wildcard then
    pat.name.isPrefixOf name && (let rest := name.drop pat.name.length
       rest.isEmpty || rest.head? == some '.')
  else
    decide (pat.name = name)

def alignUp (v a : UInt32) : UInt32 := (v + a - 1) &&& ~~~(a - 1)

variable (os : OutputSec)

def OutputSec.pad (align : UInt32) : UInt32 := alignUp (os.vaddr + os.size) align - (os.vaddr + os.size)

def OutputSec.endAddr : UInt32 := os.vaddr + os.size

def outsecAppend (data : Option (List UInt8)) (size align : UInt32) : OutputSec :=
  let pad := os.pad align
  { os with
    data := os.data ++ List.replicate pad.toNat 0 ++ data.getD (List.replicate size.toNat 0)
    size := os.size + pad + size }

/-- The sections `ld_layout` places at all. -/
def InputSec.loadable (isec : InputSec) : Bool := isec.type == shtProgbits || isec.type == shtNobits

def placeSec (os : OutputSec) (isec : InputSec) : OutputSec × InputSec :=
  if isec.matched || !isec.loadable || !patternMatches pat isec.name then (os, isec)
  else
    let isec' := { isec with
      matched := true
      assignedVaddr := os.vaddr + os.size + os.pad isec.align }
    if isec.type = shtNobits then
      (outsecAppend { os with nobits := true } none isec.size isec.align, isec')
    else
      (outsecAppend os (some isec.data) isec.size isec.align, isec')

def placeSecs (pat : SecPattern) (os : OutputSec) : List InputSec → OutputSec × List InputSec
  | [] => (os, [])
  | isec :: isecs =>
    let (os, isec) := placeSec pat os isec
    let (os, isecs) := placeSecs pat os isecs
    (os, isec :: isecs)

def placePattern (pat : SecPattern) (os : OutputSec) : List Object → OutputSec × List Object
  | [] => (os, [])
  | obj :: objs =>
    let (os, isecs) := placeSecs pat os obj.sections
    let (os, objs) := placePattern pat os objs
    (os, { obj with sections := isecs } :: objs)

def discardSec (isec : InputSec) : InputSec :=
  if isec.matched then isec
  else if isec.flags &&& shfAlloc = 0 ∧ isec.loadable = false then isec
  else if patternMatches pat isec.name then { isec with matched := true }
  else isec

def discardPattern (objs : List Object) (pat : SecPattern) : List Object :=
  objs.map fun obj => { obj with sections := obj.sections.map (discardSec pat) }

/-! ## Assignments -/

def Symbol.assign (g : Symbol) (cursor : UInt32) : Symbol :=
  { g with value := cursor, defined := true, weak := false }

def assignSym (name : Text) (cursor : UInt32) : List Symbol :=
  match symFind syms name with
  | some existing => syms.modify existing (·.assign cursor)
  | none =>
    syms ++ [{ name := name, value := cursor, defined := true, weak := false, objIdx := -1, secIdx := -1 }]

def SymAssign.due (sa : SymAssign) (target : Nat) : Bool :=
  if sa.beforeInputs && target == 0 then true
  else !sa.beforeInputs && sa.afterPattern == target

def processAssigns (target : Nat) (cursor : UInt32) (syms : List Symbol) :
    List Symbol :=
  os.assigns.foldl (fun syms sa => if sa.due target then assignSym syms sa.name cursor else syms) syms

/-! ## Output sections -/

/-- What `ld_layout` changes besides the output section it is at. -/
structure Placing where
  objs : List Object
  syms : List Symbol
  regions : List MemRegion
  deriving DecidableEq, Repr

/-- The patterns of a section in turn, each with the assignments behind it. -/
def layoutPatterns (patternCount : Nat) (os : OutputSec) (objs : List Object)
    (syms : List Symbol) : List SecPattern → OutputSec × List Object × List Symbol
  | [] => (os, objs, syms)
  | pat :: pats =>
    let (os, objs) := placePattern pat os objs
    let cur := os.vaddr + os.size
    let syms := processAssigns os (patternCount + 1) cur syms
    layoutPatterns (patternCount + 1) os objs syms pats

variable (regions : List MemRegion)

def findRegion (name : Text) : Except String Nat :=
  match regions.findIdx? (·.name = name) with
  | some i => .ok i
  | none => .error ("unknown memory region: " ++ String.ofList name)

def regionOf (os : OutputSec) : Except String (Option Nat) :=
  match os.region with
  | none => .ok none
  | some name => (findRegion regions name).map some

/-- A section that names a region starts at its cursor. -/
def startAt (region : Option Nat) (os : OutputSec) : OutputSec :=
  match region.bind (regions[·]?) with
  | some r => { os with vaddr := r.cursor }
  | none => os

def closeRegion (region : Option Nat) (os : OutputSec) :
    Except String (List MemRegion) :=
  match region with
  | none => .ok regions
  | some i =>
    match regions[i]? with
    | none => .ok regions
    | some r =>
      let cursor := os.vaddr + os.size
      if cursor > r.origin + r.length then
        .error ("section " ++ String.ofList os.name ++ " overflows region " ++ String.ofList r.name)
      else
        .ok (regions.set i { r with cursor := cursor })

def layoutSec (p : Placing) (os : OutputSec) : Except String (Placing × OutputSec) :=
  if os.discard then .ok ({ p with objs := os.patterns.foldl discardPattern p.objs }, os)
  else do
    let region ← regionOf p.regions os
    let os := startAt p.regions region os
    let syms := processAssigns os 0 os.vaddr p.syms
    let (os, objs, syms) := layoutPatterns 0 os p.objs syms os.patterns
    let regions ← closeRegion p.regions region os
    pure ({ objs := objs, syms := syms, regions := regions }, os)

def layoutSecs (p : Placing) : List OutputSec → Except String (Placing × List OutputSec)
  | [] => .ok (p, [])
  | os :: rest => do
      let (p, os) ← layoutSec p os
      let (p, rest) ← layoutSecs p rest
      pure (p, os :: rest)

variable (obj : Object)

/-! ## Final addresses -/

/-- Nothing checks `st_shndx` against the section table. -/
def Object.secAddr (shndx : Nat) : Except LdError UInt32 :=
  match obj.sections[shndx]? with
  | some isec => .ok isec.assignedVaddr
  | none => .error .outside

def resolveSym (isym : InputSym) (g : Symbol) : Except LdError Symbol :=
  if g.objIdx < 0 then .ok g
  else if isym.binding = stbLocal ∧ isym.type = sttSection then do
    let addr ← obj.secAddr isym.shndx
    pure { g with value := addr }
  else if isym.shndx ≠ shnUndef ∧ isym.shndx ≠ shnAbs then do
    let addr ← obj.secAddr isym.shndx
    pure { g with value := addr + isym.value }
  else
    .ok g

def resolveAt (syms : List Symbol) (s : InputSym × Nat) : Except LdError (List Symbol) :=
  match syms[s.2]? with
  | none => .ok syms
  | some g => do
    let g ← resolveSym obj s.1 g
    pure (syms.set s.2 g)

def resolveObj : Except LdError (List Symbol) := (obj.syms.zip obj.symMap).foldlM (resolveAt obj) syms

def resolveEntry : Option Text → Except String UInt32
  | none => .ok 0
  | some entry =>
    match symFind syms entry with
    | none => .error ("entry symbol '" ++ String.ofList entry ++ "' not found")
    | some ei =>
      let g := syms.getD ei default
      if g.defined then .ok g.value
      else .error ("entry symbol '" ++ String.ofList entry ++ "' is undefined")

structure Linker where
  objs : List Object
  syms : List Symbol := []
  script : Script
  entryVaddr : UInt32 := 0
  ehdrSize : UInt32 := 0
  phentSize : UInt32 := 0
  deriving DecidableEq, Repr

/-- The bytes of the ELF header and the program headers, which the segment starts with. -/
def Linker.headersSize (ld : Linker) : UInt32 :=
  let nphdrs := if ld.script.phdrs.length > 0 then ld.script.phdrs.length else 1
  let eh := if ld.ehdrSize = 0 then 52 else ld.ehdrSize
  let pe := if ld.phentSize = 0 then 32 else ld.phentSize
  eh + .ofNat nphdrs * pe

def Linker.placing (ld : Linker) (syms : List Symbol) (objs : List Object) : Placing where
  objs := objs
  syms := syms
  regions := ld.script.regions.map fun r => { r with cursor := r.origin + ld.headersSize }

def ldLayout (ld : Linker) : Except LdError Linker := do
  let (syms, objs) ← orDie (collectSymbols 0 ld.syms ld.objs)
  let (p, sections) ← orDie (layoutSecs (ld.placing syms objs) ld.script.sections)
  let syms ← p.objs.foldlM resolveObj p.syms
  let entryVaddr ← orDie (resolveEntry syms ld.script.entry)
  pure { ld with
    objs := p.objs
    syms := syms
    script := { ld.script with sections := sections, regions := p.regions }
    entryVaddr := if ld.script.entry.isSome then entryVaddr else ld.entryVaddr }

end Skjegg.Ld
