import Skjegg.Emu.Guest

/-!
# Building and emptying a guest

What `guest.c` does for the scheduler: an image is loaded into the memory of a new guest and its first
stack is built, mounts and descriptors are handed to it by its parent, and everything it holds of the
host is given back when it ends.
-/

namespace Skjegg.Emu

open Skjegg.Lib

/-! ## Images -/

def imageOf (bytes : List UInt8) : Image :=
  if h : bytes.length < 2 ^ 63 then ⟨fun i => bytes.getD i 0, bytes.length, h⟩
  else
    ⟨fun _ => 0, 0, by decide⟩

def elfAnswer (s : Gm) : (e : Reading GmCall) → Reading.Ans GmCall.Ans e × Gm
  | .load _ _ => ((), s)
  | .host (.map base size prot) => ((), { s with mem := (s.mem.map base size prot).2 })
  | .host (.write addr bytes) => ((), s.write addr bytes)
  | .host (.zero addr len) => ((), s.zero addr len)
  | .host .fault => (s.mem.fault.map fun f => (f.why, f.addr), s)

def loadInto (L : Layout) (s : Gm) (img : List UInt8) : Except ElfError ElfInfo × Gm :=
  let s := { s with mem := { s.mem with loading := true } }
  let (r, s) := (loadMem L (imageOf img) s.mem.regions.length).exec elfAnswer s
  (r, { s with mem := { s.mem with loading := false } })

/-- Looking up a symbol asks nothing of a memory. -/
def symbolAnswer (u : Unit) : (e : Reading GmCall) → Reading.Ans GmCall.Ans e × Unit
  | .load _ _ => ((), u)
  | .host (.map _ _ _) => ((), u)
  | .host (.write _ _) => ((), u)
  | .host (.zero _ _) => ((), u)
  | .host .fault => (none, u)

def symMem (img : List UInt8) (name : String) : Nat :=
  let L := if 4 < img.length ∧ img.getD 4 0 = 2 then elf64 else elf32
  ((symbolMem L (imageOf img) (text name)).exec symbolAnswer ()).1

/-! ## The first stack -/

def below (sp n : Nat) : Nat := (sp + 2 ^ 32 - n % 2 ^ 32) % 2 ^ 32

def align16 (sp : Nat) : Nat := sp / 16 * 16

def pushStrings (s : Gm) (sp : Nat) : List CStr → List Nat × Nat × Gm
  | [] => ([], sp, s)
  | a :: as =>
    let (addrs, sp, s) := pushStrings s sp as
    let sp := below sp (a.length + 1)
    (sp :: addrs, sp, s.write sp (a ++ [0]))

def pokeWords (s : Gm) (e : Endian) (w addr : Nat) : List Nat → Gm
  | [] => s
  | v :: vs => pokeWords (s.write addr (e.encode w v)) e w ((addr + w) % 2 ^ 32) vs

def auxv (vdsoBase : Nat) : List Nat :=
  [6, 4096] ++ (if vdsoBase ≠ 0 then [0x7001, vdsoBase] else []) ++ [0, 0]

def stackWords (argv envp : List Nat) (vdsoBase : Nat) : List Nat :=
  argv.length :: argv ++ 0 :: envp ++ 0 :: auxv vdsoBase

variable (g : Guest) (argv envp : List CStr)

def guestBuildStack : Nat × Guest :=
  let (str, sp, s) := pushStrings g.gm g.stackTop (argv.take 64)
  let (env, sp, s) := pushStrings s sp (envp.take 64)
  let words := stackWords str env g.vdsoBase
  let sp := align16 (below (align16 sp) (4 * words.length))
  (sp, g.withGm (pokeWords s g.order 4 sp words))

def guestBuildStack64 : Nat × Guest :=
  let (str, sp, s) := pushStrings g.gm g.stackTop (argv.take 64)
  let (env, sp, s) := pushStrings s sp (envp.take 64)
  let words := stackWords str env g.vdsoBase
  let sp := align16 (below (align16 sp) (8 * (words.length + words.length % 2)))
  (sp, g.withGm (pokeWords s .little 8 sp words))

/-! ## Mounts -/

/-- `struct guest_grant`: a mount a child may inherit. -/
structure Grant where
  name : CStr
  kind : Nat
  hostFd : Int
  deriving DecidableEq, Repr

def fsMaxMounts : Nat := 16

def fsKindHost : Nat := 2
def fsKindDev : Nat := 5
def fsRo : Nat := 0x100

variable (tbl slot : Nat)

def writeMountEntry (name : CStr) (fd kind : Nat) : Guest :=
  let ent := (tbl + slot * 16) % 2 ^ 32
  let s := storeFields g.gm .little ent ((List.range 8).map fun k => (k, 1, (name.getD k 0).toNat))
  g.withGm (storeFields s g.order ent [(8, 2, fd), (10, 2, 0xffff), (12, 4, kind)])

def grantRecord (rec : List Grant) (gr : Grant) : List Grant :=
  if fsMaxMounts ≤ rec.length then rec else rec ++ [gr]

/-- One grant of the parent: the child's guest, the mounts installed and what is recorded. -/
def installGrant (tbl : Nat) (st : Guest × Nat × List Grant) (gr : Grant) :
    Host (Guest × Nat × List Grant) :=
  let (g, installed, rec) := st
  if fsMaxMounts ≤ installed then pure st
  else if gr.kind % 256 = fsKindHost then
    if gr.hostFd < 0 then pure st
    else do
      let newfd ← ask (.dup gr.hostFd)
      if newfd < 0 then pure st
      else
        match g.gfdAlloc .hostfs newfd with
        | (none, _) => do
            ask (.close newfd)
            pure st
        | (some idx, g) =>
          pure (writeMountEntry g tbl installed gr.name idx gr.kind, installed + 1,
            grantRecord rec { gr with hostFd := newfd })
  else if gr.kind % 256 = fsKindDev then
    pure (writeMountEntry g tbl installed gr.name 0 fsKindDev, installed + 1,
      grantRecord rec ⟨gr.name, fsKindDev, -1⟩)
  else
    -- `FS_KIND_ROM` and `FS_KIND_9P` are not inherited
    pure st

def installScratch : Host (Guest × Nat) :=
  if fsMaxMounts ≤ slot then pure (g, slot)
  else do
    let tmpl ← ask .mkdtemp
    match tmpl with
    | none => pure (g, slot)
    | some path => do
        let hostfd ← ask (.open path oDirectory 0)
        if hostfd < 0 then do
          ask (.rmdir path)
          pure (g, slot)
        else
          match g.gfdAlloc .hostfs hostfd with
          | (none, _) => do
              ask (.close hostfd)
              ask (.rmdir path)
              pure (g, slot)
          | (some idx, g) =>
            let g := writeMountEntry g tbl slot (text "scratch") idx fsKindHost
            pure ({ g with scratchDir := some path }, slot + 1)

def installProc : Guest × Nat :=
  if fsMaxMounts ≤ slot then (g, slot)
  else
    match g.gfdAlloc .proc (-1) with
    | (none, g) => (g, slot)
    | (some idx, g) => (writeMountEntry g tbl slot (text "proc") idx (fsKindHost + fsRo), slot + 1)

def storeCount (addr n : Nat) : Guest := g.withGm (g.gm.store addr 4 g.order n)

/-- `guest_install_grants_mem`: the child's guest and the grants it records.  Only here does a spawned
guest become confined. -/
def guestInstallGrantsMem (img : List UInt8) (grants : List Grant) :
    Host (Guest × List Grant) :=
  let tbl := symMem img "fs_mounts"
  let cntSym := symMem img "fs_mount_count"
  let curSym := symMem img "fs_cur_mount"
  if grants = [] then pure (g, [])
  else if tbl = 0 ∨ cntSym = 0 then pure (g, [])
  else do
    let g ← Guest.gfdInit { g with confined := true }
    let (g, installed, rec) ← grants.foldlM (installGrant tbl) (g, 0, [])
    let (g, installed) ← installScratch g tbl installed
    let (g, installed) := installProc g tbl installed
    let g := storeCount g cntSym installed
    pure (if curSym ≠ 0 then storeCount g curSym 0 else g, rec)

/-! ## Descriptors -/

/-- `struct guest_fdpass`; `gfd` is a word that the source reads as an `int`. -/
structure FdPass where
  (gfd dst : Nat)
  deriving DecidableEq, Repr

def installFd (parent : Guest) (tbl : Nat) (st : Guest × Nat) (pass : FdPass) : Host (Guest × Nat) :=
  let (g, installed) := st
  if guestMaxFds ≤ installed then pure st
  else
    match parent.gfdEntry pass.gfd with
    | none => pure st
    | some e => do
        let newfd ← ask (.dup e.hostFd)
        if newfd < 0 then pure st
        else
          match g.gfdAlloc .hostfs newfd with
          | (none, _) => do
              ask (.close newfd)
              pure st
          | (some idx, g) =>
            let ent := (tbl + installed * 8) % 2 ^ 32
            pure (g.withGm (storeFields g.gm g.order ent [(0, 4, pass.dst), (4, 4, idx)]), installed + 1)

def guestInstallFdmapMem (img : List UInt8) (parent : Guest) (passes : List FdPass) :
    Host Guest :=
  let tbl := symMem img "fs_inherit_fds"
  let cntSym := symMem img "fs_inherit_n"
  if passes = [] then pure g
  else if tbl = 0 ∨ cntSym = 0 then pure g
  else do
    let g ← g.gfdInit
    let (g, installed) ← passes.foldlM (installFd parent tbl) (g, 0)
    pure (storeCount g cntSym installed)

def clearFault : Guest := g.withGm { g.gm with mem := { g.gm.mem with fault := none } }

def guestMakePipe (outAddr : Nat) : Host (Int × Guest) := do
  let g ← g.gfdInit
  let ends ← ask .pipe
  match ends with
  | none => pure (-1, g)
  | some (r, w) =>
    match g.gfdAlloc .hostfs r with
    | (none, g) => do
        ask (.close r)
        ask (.close w)
        pure (-1, g)
    | (some idxR, g) =>
      match g.gfdAlloc .hostfs w with
      | (none, g) => do
          let (_, g) ← g.gfdClose idxR
          ask (.close w)
          pure (-1, g)
      | (some idxW, g) =>
        let s := g.gm.store outAddr 4 g.order idxR
        let g := g.withGm (s.store ((outAddr + 4) % 2 ^ 32) 4 g.order idxW)
        if g.gm.mem.fault.isSome then do
          let (_, g) ← (clearFault g).gfdClose idxR
          let (_, g) ← g.gfdClose idxW
          pure (-1, g)
        else
          pure (0, g)

def p9Msize : Nat := 8192

def guestP9Doorbell (chan : Nat) : Host (Int × Guest) :=
  if chan ∉ g.p9 then pure (-1, g)
  else do
    let (reqlen, s) := g.gm.load chan 4 g.order
    let (req, s) := s.readOut (chan + 8) (min reqlen p9Msize)
    let answer ← ask (.p9Serve chan req)
    let rsp := (answer.getD []).take p9Msize
    let s := s.write (chan + 8 + p9Msize) rsp
    pure (0, g.withGm (s.store ((chan + 4) % 2 ^ 32) 4 g.order rsp.length))

/-! ## The end of a guest -/

def closeUsed (fd : Nat) : Host Guest :=
  match g.fdtab fd with
  | none => pure g
  | some _ => do
      let (_, g) ← g.gfdClose fd
      pure g

def guestFdsFree : Host Guest := do
  let g ← (List.range guestMaxFds).foldlM closeUsed g
  match g.scratchDir with
  | none => pure g
  | some path => do
      ask (.removeScratch path)
      pure { g with scratchDir := none }

def guestP9Free : Guest :=
  { g with p9 := [] }

def guestRelease : Host Guest := do
  let g ← guestFdsFree g
  pure ((guestP9Free g).withGm (guestP9Free g).gm.free)

end Skjegg.Emu
