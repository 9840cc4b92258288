import Skjegg.Emu.Spawn

/-!
# The scheduler

`sched.c` runs a root process and those it spawns, one slice after the other. A process that has
stopped is a zombie until its parent waits or ends. The core is not modelled: in its slice a process
may act in any order. A CPU is a number, and `freed` lists those `ops->free` was called with.
-/

namespace Skjegg.Emu

open Skjegg.Lib List

/-! ## Processes -/

/-- `struct proc` -/
structure Proc where
  cpu : Nat
  /-- the pool and the allocator in here are those of the time the process ran last -/
  g : Guest
  (slot gen handle : Nat)
  done : Bool
  rc : Nat
  fatal : Bool
  (insns insnBudget : Nat)
  ioBlocked : Bool
  parkFd : Int
  (parkEvents parkDeadline : Nat)
  parent : Option Nat
  parentHandle : Nat
  zombie : Bool
  waitSlot : Option Nat
  grants : List Grant

/-- What the scheduler reads of `skj_cpu_ops`; `ram` is the size of the buffer `mem_init` makes, for a
core that has a `mem_init`. -/
structure CpuOps where
  machine : Nat
  order : Endian
  word64 : Bool
  ram : Option Nat

structure VdsoImage where
  vdso : Vdso
  table : Nat

structure RunOpts where
  (memLimit heapSize stackSize maxInsns childMaxInsns : Nat)
  quiet : Bool
  vdso : Option (Option VdsoImage)

inductive VdsoState
  | untried
  | ready (image : VdsoImage)
  | unavailable

/-- `struct sched`, with the number of CPUs made and those freed. -/
structure Sched where
  procs : Nat → Option Proc
  slotGen : Nat → Nat
  nprocs : Nat
  o : RunOpts
  ops : CpuOps
  pool : Pool
  calloc : Calloc
  vdso : VdsoState
  insns : Nat
  limited : Bool
  made : Nat
  freed : List Nat

def maxProc : Nat := 64

def procHandle (slot gen : Nat) : Nat := (slot + 1) ||| (gen * 256 % 2 ^ 32)

variable (g : Guest)

variable (slot : Nat)

variable (p : Proc)

namespace Sched

variable (S : Sched)

def current : Proc :=
  { p with g := p.g.withGm ⟨p.g.gm.mem, S.pool, S.calloc⟩ }

def put : Sched :=
  { S with
    procs := Function.update S.procs p.slot (some p)
    pool := p.g.gm.pool
    calloc := p.g.gm.calloc }

def clear : Sched :=
  { S with procs := Function.update S.procs slot none }

def freeCpu (cpu : Nat) : Sched :=
  { S with freed := S.freed ++ [cpu] }

def modify (f : Proc → Proc) : Sched :=
  { S with procs := Function.update S.procs slot ((S.procs slot).map f) }

def procFromHandle (handle : Nat) : Option Proc :=
  if handle % 256 = 0 ∨ S.nprocs ≤ handle % 256 - 1 then none
  else
    match S.procs (handle % 256 - 1) with
    | none => none
    | some p => if p.handle = handle then some p else none

/-! ## Building a process -/

def findSlot : Option Nat × Sched :=
  match (range S.nprocs).find? fun i => (S.procs i).isNone with
  | some i => (some i, S)
  | none =>
    if maxProc ≤ S.nprocs then (none, S)
    else
      (some S.nprocs, { S with nprocs := S.nprocs + 1 })

def hostAlloc : Bool × Sched :=
  let (b, c) := S.calloc.take
  (b.isSome, { S with calloc := c })

def newProc (cpu slot : Nat) (mem : GuestMem) : Proc where
  cpu := cpu
  g := freshGuest ⟨mem, S.pool, S.calloc⟩ S.ops.order S.o.quiet
  slot := slot
  gen := S.slotGen slot
  handle := 0
  done := false
  rc := 0
  fatal := false
  insns := 0
  insnBudget := 0
  ioBlocked := false
  parkFd := 0
  parkEvents := 0
  parkDeadline := 0
  parent := none
  parentHandle := 0
  zombie := false
  waitSlot := none
  grants := []

def memInit : Option GuestMem × Sched :=
  let mem := gmInit S.o.memLimit true
  match S.ops.ram with
  | none => (some mem, S)
  | some size =>
    match S.hostAlloc with
    | (false, S) => (none, S)
    | (true, S) => (some (mem.setExtern size), S)

def allocCpu : Option Proc × Sched :=
  match S.hostAlloc with
  | (false, S) => (none, S)
  | (true, S) =>
    let cpu := S.made
    match { S with made := S.made + 1 }.memInit with
    | (none, S) => (none, S.freeCpu cpu)
    | (some mem, S) => (some (S.newProc cpu slot mem), S.put (S.newProc cpu slot mem))

def procAlloc : Option Proc × Sched :=
  match S.findSlot with
  | (none, S) => (none, S)
  | (some slot, S) =>
    match S.hostAlloc with
    | (false, S) => (none, S)
    | (true, S) => S.allocCpu slot

def procDiscard : Host Sched := do
  let g ← guestRelease (S.current p).g
  pure (((S.freeCpu p.cpu).put { p with g := g }).clear p.slot)

def layOut (g : Guest) (info : ElfInfo) : Guest :=
  let heapBase := GuestMem.roundPages info.hi
  let brkLimit := (heapBase + S.o.heapSize) % 2 ^ 32
  let stackBase := (brkLimit + 4096) % 2 ^ 32
  let stackTop := (stackBase + S.o.stackSize) % 2 ^ 32
  let m := (g.gm.mem.map heapBase S.o.heapSize 3).2
  let m := (m.map stackBase S.o.stackSize 3).2
  let m := if m.externSize.isSome then { m with mmapNext := (stackTop + 4096) % 2 ^ 32 } else m
  { g with
    gm := { g.gm with mem := m }
    brk := heapBase
    brkBase := heapBase
    brkLimit := brkLimit
    stackTop := stackTop }

def guestVdsoAttach (image : VdsoImage) : Guest :=
  { g with
    gm := { g.gm with mem := g.gm.mem.attachVdso image.vdso }
    vdsoBase := image.table }

/-- The vDSO of a process: nothing when the image is unavailable, and for every process built after
that. -/
def injectVdso (g : Guest) : Option Guest × Sched :=
  match S.o.vdso, S.vdso with
  | none, _ => (some g, S)
  | some _, .unavailable => (some g, S)
  | some _, .ready image => (some (guestVdsoAttach g image), S)
  | some none, .untried => (none, { S with vdso := .unavailable })
  | some (some image), .untried => (some (guestVdsoAttach g image), { S with vdso := .ready image })

/-- `proc_finish`: the handle, or `(uint32_t)-1` with the process left in the table. -/
def procFinish (info : ElfInfo) (argv envp : List CStr) : Nat × Sched :=
  let g := S.layOut (S.current p).g info
  match S.injectVdso g with
  | (none, S) => (2 ^ 32 - 1, S.put { p with g := g })
  | (some g, S) =>
    let (_, g) := if S.ops.word64 then guestBuildStack64 g argv envp else guestBuildStack g argv envp
    let handle := procHandle p.slot p.gen
    -- `ready` of every core lets the guest park
    (handle, S.put { p with g := { g with canPark := true }, handle := handle })

def imageOrder (info : ElfInfo) : Endian :=
  if info.bigEndian then .big else .little

def procAccept (info : ElfInfo) (argv envp : List CStr) : Host (Nat × Sched) :=
  if info.machine ≠ S.ops.machine ∨ imageOrder info ≠ S.ops.order then do
    let S ← S.procDiscard p
    pure (0, S)
  else
    pure (S.procFinish p info argv envp)

def procLoad (img : List UInt8) (argv envp : List CStr) : Host (Nat × Sched) := do
  let L := if S.ops.word64 then elf64 else elf32
  let (r, s) := loadInto L (S.current p).g.gm img
  let p := { p with g := p.g.withGm s }
  let S := S.put p
  match r with
  | .error _ => do
      let S ← S.procDiscard p
      pure (0, S)
  | .ok info => S.procAccept p info argv envp

def procNewMem (img : List UInt8) (argv : List CStr) (parent : Nat) : Host (Nat × Sched) :=
  match S.procAlloc with
  | (none, S) => pure (0, S)
  | (some p, S) =>
    let parentHandle := if S.nprocs ≤ parent then 0 else ((S.procs parent).map Proc.handle).getD 0
    S.procLoad
      { p with
        parent := some parent
        parentHandle := parentHandle
        insnBudget := S.o.childMaxInsns } img argv []

/-! ## The end of a process -/

def freeProcResources : Host Sched :=
  if p.zombie then pure S
  else do
    let g ← guestRelease (S.current p).g
    pure ((S.freeCpu p.cpu).put { p with g := g, zombie := true })

def nextGen : Sched :=
  { S with slotGen := Function.update S.slotGen slot ((S.slotGen slot + 1) % 2 ^ 32) }

def reapChild : Host Sched :=
  match S.procs slot with
  | none => pure S
  | some p => do
      let S ← S.freeProcResources p
      pure ((S.clear slot).nextGen slot)

end Sched

/-! ## The private calls -/

def greadU32 (addr : Nat) : Option Nat × Guest :=
  let (v, s) := g.gm.load (addr % 2 ^ 32) 4 g.order
  if s.mem.fault.isSome then (none, clearFault (g.withGm s)) else (some v, g.withGm s)

def greadWords (g : Guest) : List Nat → Option (List Nat) × Guest
  | [] => (some [], g)
  | addr :: addrs =>
    match greadU32 g addr with
    | (none, g) => (none, g)
    | (some v, g) =>
      match greadWords g addrs with
      | (none, g) => (none, g)
      | (some vs, g) => (some (v :: vs), g)

/-- The loop of `gread_cstr`, with the room left; what does not fit is cut off. -/
def greadCstrLoop (g : Guest) (addr : Nat) : Nat → Option CStr × Guest
  | 0 => (some [], g)
  | n + 1 =>
    let (c, s) := g.gm.load (addr % 2 ^ 32) 1 g.order
    if s.mem.fault.isSome then (none, clearFault (g.withGm s))
    else if c = 0 then (some [], g.withGm s)
    else
      match greadCstrLoop (g.withGm s) (addr + 1) n with
      | (none, g) => (none, g)
      | (some cs, g) => (some (UInt8.ofNat c :: cs), g)

def greadCstr (addr cap : Nat) : Option CStr × Guest := greadCstrLoop g addr (cap - 1)

def spawnMaxArgc : Nat := 64
def spawnArgMax : Nat := 256
def spawnArgbuf : Nat := 4096
def spawnMaxFdmap : Nat := 16
def spawnImageMax : Nat := 16 * 1024 * 1024

def greadArgv (g : Guest) (ps argvPtr : Nat) : Nat → Nat → Nat → Option (List CStr) × Guest
  | 0, _, _ => (some [], g)
  | n + 1, i, off =>
    let cap := min (spawnArgbuf - off) spawnArgMax
    if cap < 2 then (none, g)
    else
      match greadU32 g (argvPtr + i * ps) with
      | (none, g) => (none, g)
      | (some sptr, g) =>
        match greadCstr g sptr cap with
        | (none, g) => (none, g)
        | (some arg, g) =>
          match greadArgv g ps argvPtr n (i + 1) (off + arg.length + 1) with
          | (none, g) => (none, g)
          | (some args, g) => (some (arg :: args), g)

def greadFdmap (g : Guest) (fdmapPtr : Nat) : Nat → Nat → Option (List FdPass) × Guest
  | 0, _ => (some [], g)
  | n + 1, i =>
    match greadWords g [fdmapPtr + i * 8, fdmapPtr + i * 8 + 4] with
    | (some [gfd, dst], g) =>
      if 64 ≤ dst then (none, g)
      else
        match greadFdmap g fdmapPtr n (i + 1) with
        | (none, g) => (none, g)
        | (some passes, g) => (some (⟨gfd, dst⟩ :: passes), g)
    | (_, g) => (none, g)

structure SpawnRequest where
  image : List UInt8
  argv : List CStr
  flags : Nat
  fdpass : List FdPass
  deriving DecidableEq, Repr

variable (desc ps size : Nat)

def readImageField : Option (Nat × Nat) × Guest :=
  if size < 3 * ps then (none, g)
  else
    match greadWords g [desc + ps, desc + 2 * ps] with
    | (some [image, len], g) =>
      if len = 0 ∨ spawnImageMax < len then (none, g) else (some (image, len), g)
    | (_, g) => (none, g)

def readArgvField : Option (Nat × Nat) × Guest :=
  if size < 5 * ps then (some (0, 0), g)
  else
    match greadWords g [desc + 3 * ps, desc + 4 * ps] with
    | (some [argvPtr, argc], g) => if spawnMaxArgc < argc then (none, g) else (some (argvPtr, argc), g)
    | (_, g) => (none, g)

def readFlagsField : Option (Nat × List FdPass) × Guest :=
  if size < 8 * ps then (some (0, []), g)
  else
    match greadWords g [desc + 5 * ps, desc + 6 * ps, desc + 7 * ps] with
    | (some [flags, fdmapPtr, fdmapN], g) =>
      if spawnMaxFdmap < fdmapN then (none, g)
      else
        match greadFdmap g fdmapPtr fdmapN 0 with
        | (none, g) => (none, g)
        | (some passes, g) => (some (flags, passes), g)
    | (_, g) => (none, g)

/-- The fields of a spawn request but for the image's bytes: where the image is, and the rest. -/
def readRequest (ps desc : Nat) : Option (Nat × Nat × SpawnRequest) × Guest :=
  match greadU32 g desc with
  | (none, g) => (none, g)
  | (some size, g) =>
    match readImageField g desc ps size with
    | (none, g) => (none, g)
    | (some (image, len), g) =>
      match readArgvField g desc ps size with
      | (none, g) => (none, g)
      | (some (argvPtr, argc), g) =>
        match readFlagsField g desc ps size with
        | (none, g) => (none, g)
        | (some (flags, passes), g) =>
          match greadArgv g ps argvPtr argc 0 0 with
          | (none, g) => (none, g)
          | (some argv, g) => (some (image, len, ⟨[], argv, flags, passes⟩), g)

/-- What a private call comes to. -/
inductive Priv
  | no
  | ok (result : Nat)
  | fatal
  | yield
  | retry
  deriving DecidableEq, Repr

def waitBadhandle : Nat := 0xffffffff
def waitWouldblock : Nat := 0xfffffffe

namespace Sched

variable (S : Sched)

/-- Copy an image out of a process: nothing when the allocation fails or the range is not mapped. -/
def readImage (addr len : Nat) : Option (List UInt8) × Sched :=
  match S.hostAlloc with
  | (false, S) => (none, S)
  | (true, S) =>
    let g := (S.current p).g
    let (img, s) := g.gm.readOut addr len
    if s.mem.fault.isSome then (none, S.put { p with g := clearFault (g.withGm s) })
    else
      (some img, S.put { p with g := g.withGm s })

def doSpawn (ptr len : Nat) : Host (Nat × Sched) :=
  if len = 0 ∨ spawnImageMax < len then pure (0, S)
  else
    match S.readImage p ptr len with
    | (none, S) => pure (0, S)
    | (some img, S) => S.procNewMem img [text "child"] p.slot

/-- The request of `do_spawnv` as the guest `p` makes it, and the state once it is read. -/
def spawnRequest (desc : Nat) : Option SpawnRequest × Sched :=
  let ps := if S.ops.word64 then 8 else 4
  match readRequest (S.current p).g ps desc with
  | (none, g) => (none, S.put { p with g := g })
  | (some (image, len, req), g) =>
    let p := { p with g := g }
    match (S.put p).readImage p image len with
    | (none, S) => (none, S)
    | (some img, S) => (some { req with image := img }, S)

def shareMounts (flags : Nat) : Bool := flags.testBit 0

def inheritMounts (c : Proc) (req : SpawnRequest) : Host Sched :=
  if shareMounts req.flags then do
    let grants := ((S.procs slot).map Proc.grants).getD []
    let (g, rec) ← guestInstallGrantsMem (S.current c).g req.image grants
    pure (S.put { c with g := g, grants := rec })
  else
    pure S

def inheritFds (handle : Nat) (req : SpawnRequest) : Host Sched :=
  match S.procFromHandle handle, S.procs slot with
  | some c, some p => do
      let g ← guestInstallFdmapMem (S.current c).g req.image p.g req.fdpass
      pure (S.put { c with g := g })
  | _, _ => pure S

def endow (handle : Nat) (req : SpawnRequest) : Host Sched :=
  match S.procFromHandle handle with
  | none => pure S
  | some c => do
      let S ← S.inheritMounts slot c req
      S.inheritFds slot handle req

def doSpawnv (desc : Nat) : Host (Nat × Sched) :=
  match S.spawnRequest p desc with
  | (none, S) => pure (0, S)
  | (some req, S) => do
      let (h, S) ← S.procNewMem req.image req.argv p.slot
      if h = 0 then pure (0, S)
      else do
        let S ← S.endow p.slot h req
        pure (h, S)

def waitStatus (c : Proc) : Nat := (if c.rc ≠ 0 then c.rc else c.g.exitCode) % 256

def doWait (handle : Nat) : Host (Priv × Sched) :=
  match S.procFromHandle handle with
  | none => pure (.ok waitBadhandle, S)
  | some c =>
    if c.parentHandle ≠ p.handle then pure (.ok waitBadhandle, S)
    else if c.done then do
      let S ← S.reapChild c.slot
      pure (.ok (waitStatus c), S.modify p.slot fun p => { p with waitSlot := none })
    else if !p.g.canPark then pure (.ok waitWouldblock, S)
    else
      pure (.retry, S.modify p.slot fun p =>
        { p with
          waitSlot := some c.slot
          g := { p.g with park := .retry, parkFd := -1, parkEvents := 0, parkDeadline := 0 } })

def doKill (handle status : Nat) : Nat × Sched :=
  match S.procFromHandle handle with
  | none => (waitBadhandle, S)
  | some c =>
    if c.parentHandle ≠ p.handle then (waitBadhandle, S)
    else if c.done then (0, S)
    else
      (0, S.modify c.slot fun c => { c with rc := status, done := true })

def okWith (r : Int × Guest) : Priv × Sched :=
  (.ok (r.1 % 2 ^ 32).toNat, S.put { p with g := r.2 })

/-- `sched_private` of the process `p`, which is in the table. -/
def schedPrivate (nr arg0 arg1 : UInt32) : Host (Priv × Sched) :=
  let g := (S.current p).g
  if nr = 0x000f0001 then
    let (base, m) := g.gm.mem.mmap arg0.toNat arg1.toNat
    pure (.ok base, S.put { p with g := g.withGm { g.gm with mem := m } })
  else if nr = 0x000f0002 then
    pure (.ok 0, S.put { p with g := g.withGm (g.gm.munmap arg0.toNat arg1.toNat) })
  else if nr = 0x000f0003 then do
    let (h, S) ← S.doSpawn p arg0.toNat arg1.toNat
    pure (.ok h, S)
  else if nr = 0x000f0006 then do
    let (h, S) ← S.doSpawnv p arg0.toNat
    pure (.ok h, S)
  else if nr = 0x000f0007 then S.doWait p arg0.toNat
  else if nr = 0x000f0008 then
    let (r, S) := S.doKill p arg0.toNat arg1.toNat
    pure (.ok r, S)
  else if nr = 0x000f0009 then do
    let r ← guestMakePipe g arg0.toNat
    pure (S.okWith p r)
  else if nr = 0x000f0000 then
    pure (.fatal, S.put { p with
      fatal := true
      g := { g with exited := true, exitCode := arg0.toNat % 256 } })
  else if nr = 0x000f0004 then pure (.yield, S)
  else if nr = 0x000f0005 then do
    let r ← guestP9Doorbell g arg0.toNat
    pure (S.okWith p r)
  else
    pure (.no, S)

end Sched

/-! ## Slices -/

/-- What a core does for its guest in a slice. -/
inductive Act
  | load (addr : UInt32) (size : Nat)
  | store (addr : UInt32) (size val : Nat)
  | syscall (c : Syscall)
  | priv (nr arg0 arg1 : UInt32)

/-- `enum skj_run_reason`; a trap comes with its signal. -/
inductive Reason
  | budget
  | yield
  | halt
  | trap (signal : Nat)
  deriving DecidableEq, Repr

namespace Sched

variable (S : Sched)

def perform (a : Act) : Host Sched :=
  match S.procs slot with
  | none => pure S
  | some p =>
    let g := (S.current p).g
    match a with
    | .load addr size => pure (S.put { p with g := g.withGm (g.gm.load addr.toNat size g.order).2 })
    | .store addr size val =>
      pure (S.put { p with g := g.withGm (g.gm.store addr.toNat size g.order val) })
    | .syscall c => do
        let (_, g) ← guestSyscall g c
        pure (S.put { p with g := g })
    | .priv nr arg0 arg1 => do
        let (_, S) ← S.schedPrivate p nr arg0 arg1
        pure S

/-- What `proc_slice` makes of the process after its run. -/
def sliceEnd (reason : Reason) : Proc :=
  if p.g.gm.mem.fault.isSome then { p with rc := 128 + 11, done := true }
  else
    match reason, p.g.exited with
    | .trap signal, false => { p with rc := 128 + signal, done := true }
    | _, true => { p with done := true }
    | .halt, false => { p with rc := 128 + 6, done := true }
    | _, false =>
      if p.insnBudget ≠ 0 ∧ p.insnBudget ≤ p.insns then { p with rc := 128 + 24, done := true }
      else if S.o.maxInsns ≠ 0 ∧ S.o.maxInsns ≤ S.insns then { p with rc := 128 + 24, done := true }
      else if reason = .yield ∧ p.g.park = .retry then
        { p with
          ioBlocked := true
          parkFd := p.g.parkFd
          parkEvents := p.g.parkEvents
          parkDeadline := p.g.parkDeadline
          g := { p.g with park := .none } }
      else
        { p with g := { p.g with park := .none } }

def sliceLimited (reason : Reason) : Bool :=
  p.g.gm.mem.fault.isNone && !p.g.exited && (reason == .budget || reason == .yield) &&
    !(p.insnBudget != 0 && decide (p.insnBudget ≤ p.insns)) &&
    (S.o.maxInsns != 0 && decide (S.o.maxInsns ≤ S.insns))

/-- `proc_slice` after `ops->run`, which retired `ran` instructions. -/
def stopSlice (reason : Reason) (ran : Nat) : Sched :=
  match S.procs slot with
  | none => S
  | some p =>
    let S := { S with insns := S.insns + ran }
    let p := { p with insns := p.insns + ran }
    { S.modify slot fun _ => S.sliceEnd p reason with
      limited := S.limited || S.sliceLimited p reason }

/-! ## Rounds -/

def zombify (S : Sched) (slot : Nat) : Host Sched :=
  match S.procs slot with
  | none => pure S
  | some p => if p.done then S.freeProcResources p else pure S

def wakeWaiter : Proc :=
  match p.waitSlot with
  | none => p
  | some c => if ((S.procs c).map Proc.done).getD true then { p with ioBlocked := false } else p

def wakeWaiters : Sched :=
  { S with procs := fun i => (S.procs i).map S.wakeWaiter }

def reapOrphan (S : Sched) (slot : Nat) : Host Sched :=
  match S.procs slot with
  | none => pure S
  | some c =>
    if c.done ∧ ((S.procFromHandle c.parentHandle).map Proc.done).getD true then S.reapChild slot
    else
      pure S

def childSlots : List Nat := range' 1 (S.nprocs - 1)

def bookkeep : Host Sched := do
  let S ← S.childSlots.foldlM zombify S
  let S := S.wakeWaiters
  S.childSlots.foldlM reapOrphan S

def live : Bool := (range S.nprocs).any fun i => ((S.procs i).map fun p => !p.done).getD false

def polls : Bool := !p.done && p.ioBlocked && decide (0 ≤ p.parkFd)

def wake (which : Proc → Bool) : Sched :=
  { S with procs := fun i => (S.procs i).map fun p =>
      if which p then { p with ioBlocked := false } else p }

def markReady (fd : Int) : Sched := S.wake fun p => !p.done && p.ioBlocked && p.parkFd == fd

def wakeDeadlines (now : Nat) : Sched :=
  S.wake fun p => !p.done && p.ioBlocked && p.parkDeadline != 0 && decide (p.parkDeadline ≤ now)

/-- `poll` on the descriptor of one blocked process wakes every process parked on it. -/
def pollSlot (S : Sched) (slot : Nat) : Host Sched :=
  match S.procs slot with
  | none => pure S
  | some p =>
    if polls p then do
      let (_, revents) ← ask (.poll p.parkFd p.parkEvents)
      pure (if revents = 0 then S else S.markReady p.parkFd)
    else
      pure S

def pollBlocked : Host Sched := do
  let S ← (range S.nprocs).foldlM pollSlot S
  let now ← monoNs
  pure (S.wakeDeadlines now)

def destroySlot (S : Sched) (slot : Nat) : Host Sched :=
  match S.procs slot with
  | none => pure S
  | some p => S.procDiscard p

def schedDestroy : Host Sched := (range S.nprocs).foldlM destroySlot S

end Sched

/-! ## Runs -/

/-- Where `sched_run` is: about to look at a slot, in the slice of a slot, or at its end. -/
inductive Phase
  | turn (slot : Nat)
  | slice (slot : Nat)
  | over
  deriving DecidableEq, Repr

structure Machine where
  S : Sched
  phase : Phase

/-- What happens next in a run: the scheduler goes on, or the process in its slice acts or stops. -/
inductive Event
  | tick
  | act (a : Act)
  | stop (reason : Reason) (ran : Nat)

namespace Machine

variable (M : Machine)

def tick : Host Machine :=
  if M.S.nprocs ≤ slot then do
    let S ← M.S.bookkeep
    if S.live then do
      let S ← S.pollBlocked
      pure ⟨S, .turn 0⟩
    else
      pure ⟨S, .over⟩
  else
    match M.S.procs slot with
    | none => pure ⟨M.S, .turn (slot + 1)⟩
    | some p =>
      if p.done || p.ioBlocked then pure ⟨M.S, .turn (slot + 1)⟩ else pure ⟨M.S, .slice slot⟩

/-- One step of `sched_run`; an event that cannot happen now changes nothing. -/
def step (M : Machine) : Event → Host Machine
  | .tick =>
    match M.phase with
    | .turn slot => M.tick slot
    | _ => pure M
  | .act a =>
    match M.phase with
    | .slice slot => do
        let S ← M.S.perform slot a
        pure { M with S := S }
    | _ => pure M
  | .stop reason ran =>
    match M.phase with
    | .slice slot =>
      let S := M.S.stopSlice slot reason ran
      pure ⟨S, if S.limited then .over else .turn (slot + 1)⟩
    | _ => pure M

end Machine

/-- The root is alone in the table, and the vDSO image has been tried if there is one. -/
structure Sched.Started (S : Sched) (root : Proc) : Prop where
  procs : S.procs = Function.update (fun _ => none) 0 (some root)
  nprocs : S.nprocs = 1
  slot : root.slot = 0
  cpu : root.cpu = 0
  handle : root.handle = procHandle 0 0
  parent : root.parentHandle = 0
  zombie : root.zombie = false
  gen : S.slotGen 0 = 0
  made : S.made = 1
  freed : S.freed = []
  limited : S.limited = false
  vdso : S.o.vdso = none ∨ ∃ image, S.vdso = .ready image

end Skjegg.Emu
