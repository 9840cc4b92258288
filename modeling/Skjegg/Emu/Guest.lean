import Skjegg.Emu.GuestMem

/-!
# The guest's system calls

`guest.c` serves a guest's system calls on the host. A guest descriptor is an index into a table of
host descriptors; a path call starts at one, or at the host's working directory (`AT_FDCWD`). What
is asked of the host may be answered in any way.
-/

namespace Skjegg.Emu

open Skjegg.Lib

abbrev CStr := List UInt8

def text (s : String) : CStr := s.toUTF8.toList

/-! ## The host -/

/-- The fields of `struct stat` the syscall layer reads. -/
structure Stat where
  (blksize nlink uid gid mode ino size blocks atime ctime mtime : Nat)
  deriving DecidableEq, Repr

structure Dirent where
  (ino type : Nat)
  name : CStr
  deriving DecidableEq, Repr

/-- What the syscall layer asks of the host. `openBeneath` is the confined open of `hostplat.c`;
`procfs` questions are answered from the process table, `p9Serve` by the 9P server of a channel. -/
inductive HostCall
  | dup (fd : Int)
  | close (fd : Int)
  | open (path : CStr) (flags mode : Nat)
  | openat (dir : Int) (path : CStr) (flags mode : Nat)
  | openBeneath (dir : Int) (path : CStr) (flags mode : Nat)
  | fstat (fd : Int)
  | fstatat (dir : Int) (path : CStr)
  | mkdirat (dir : Int) (path : CStr) (mode : Nat)
  | unlinkat (dir : Int) (path : CStr) (flags : Nat)
  | fchmodat (dir : Int) (path : CStr) (mode flags : Nat)
  | renameat (oldDir : Int) (old : CStr) (newDir : Int) (new : CStr)
  | read (fd : Int) (len : Nat)
  | write (fd : Int) (bytes : List UInt8)
  | lseek (fd offset : Int) (whence : Nat)
  | poll (fd : Int) (events : Nat)
  | fdopendir (fd : Int)
  | readdir (d : Nat)
  | telldir (d : Nat)
  | seekdir (d : Nat) (cookie : Nat)
  | closedir (d : Nat)
  | clock (realtime : Bool)
  | sleep (sec nsec : Nat)
  | yield
  | procfsOpen (path : CStr)
  | procfsFree (h : Option Nat)
  | procfsRead (h : Option Nat) (len : Nat)
  | procfsLseek (h : Option Nat) (offset : Int) (whence : Nat)
  | procfsGetdent (h : Option Nat)
  | procfsRewind (h : Option Nat)
  | procfsFstat (h : Option Nat)
  | procfsStat (path : CStr)
  | mkdtemp
  | rmdir (path : CStr)
  | removeScratch (path : CStr)
  | pipe
  | p9Serve (chan : Nat) (req : List UInt8)

/-- What the host answers.  A descriptor, a count or an offset is negative on failure; `poll` answers
its result and `revents`. -/
@[reducible] def HostCall.Ans : HostCall → Type
  | .dup _ => Int
  | .close _ => Unit
  | .open _ _ _ => Int
  | .openat _ _ _ _ => Int
  | .openBeneath _ _ _ _ => Int
  | .fstat _ => Option Stat
  | .fstatat _ _ => Option Stat
  | .mkdirat _ _ _ => Bool
  | .unlinkat _ _ _ => Bool
  | .fchmodat _ _ _ _ => Bool
  | .renameat _ _ _ _ => Bool
  | .read _ _ => Option (List UInt8)
  | .write _ _ => Int
  | .lseek _ _ _ => Int
  | .poll _ _ => Int × Nat
  | .fdopendir _ => Option Nat
  | .readdir _ => Option Dirent
  | .telldir _ => Nat
  | .seekdir _ _ => Unit
  | .closedir _ => Unit
  | .clock _ => Option (Nat × Nat)
  | .sleep _ _ => Unit
  | .yield => Unit
  | .procfsOpen _ => Except Int Nat
  | .procfsFree _ => Unit
  | .procfsRead _ _ => Option (List UInt8)
  | .procfsLseek _ _ _ => Int
  | .procfsGetdent _ => Except Unit (Option Dirent)
  | .procfsRewind _ => Unit
  | .procfsFstat _ => Stat
  | .procfsStat _ => Option Stat
  | .mkdtemp => Option CStr
  | .rmdir _ => Unit
  | .removeScratch _ => Unit
  | .pipe => Option (Int × Int)
  | .p9Serve _ _ => Option (List UInt8)

def enoent : Int := -2

/-- A host that has nothing: an answer to every question. -/
def HostCall.refusal : (h : HostCall) → h.Ans
  | .dup _ => (-1 : Int)
  | .close _ => ()
  | .open _ _ _ => (-1 : Int)
  | .openat _ _ _ _ => (-1 : Int)
  | .openBeneath _ _ _ _ => (-1 : Int)
  | .fstat _ => none
  | .fstatat _ _ => none
  | .mkdirat _ _ _ => false
  | .unlinkat _ _ _ => false
  | .fchmodat _ _ _ _ => false
  | .renameat _ _ _ _ => false
  | .read _ _ => none
  | .write _ _ => (-1 : Int)
  | .lseek _ _ _ => (-1 : Int)
  | .poll _ _ => ((-1 : Int), 0)
  | .fdopendir _ => none
  | .readdir _ => none
  | .telldir _ => (0 : Nat)
  | .seekdir _ _ => ()
  | .closedir _ => ()
  | .clock _ => none
  | .sleep _ _ => ()
  | .yield => ()
  | .procfsOpen _ => .error enoent
  | .procfsFree _ => ()
  | .procfsRead _ _ => none
  | .procfsLseek _ _ _ => (-1 : Int)
  | .procfsGetdent _ => .error ()
  | .procfsRewind _ => ()
  | .procfsFstat _ => ⟨0, 0, 0, 0, 0, 0, 0, 0, 0, 0, 0⟩
  | .procfsStat _ => none
  | .mkdtemp => none
  | .rmdir _ => ()
  | .removeScratch _ => ()
  | .pipe => none
  | .p9Serve _ _ => none

theorem HostCall.nonempty_ans (h : HostCall) : Nonempty h.Ans := ⟨h.refusal⟩

abbrev Host (α : Type) := Prog HostCall HostCall.Ans α

def ask (h : HostCall) : Host h.Ans := Prog.call h

/-! ## The guest -/

inductive GuestDev
  | hostfs
  | proc
  deriving DecidableEq, Repr

/-- An entry of the descriptor table in use; `dirp` is a directory stream, or the open state of a
`proc:` file. -/
structure Gfd where
  dev : GuestDev
  hostFd : Int
  dirp : Option Nat
  deriving DecidableEq, Repr

/-- `GPARK_*` -/
inductive Park
  | none
  | yield
  | retry
  deriving DecidableEq, Repr

/-- `struct guest`.  The memory comes with the pool and the host's
allocator. -/
structure Guest where
  gm : Gm
  order : Endian
  exited : Bool
  exitCode : Nat
  quiet : Bool
  (syscalls brk brkBase brkLimit : Nat)
  (fdsInited confined : Bool)
  stdio : Nat → Int
  fdtab : Nat → Option Gfd
  canPark : Bool
  park : Park
  parkFd : Int
  (parkEvents parkDeadline : Nat)
  sleeping : Bool
  (sleepDeadline wrParkedDone stackTop vdsoBase : Nat)
  /-- the addresses of the 9P channels bound to the guest -/
  p9 : List Nat
  scratchDir : Option CStr

def guestMaxFds : Nat := 64

def ebadf : Int := -9
def efault : Int := -14
def einval : Int := -22
def enosys : Int := -38

def atFdcwd : Int := -100
def guestAtFdcwd : Nat := 2 ^ 32 - 100

def int32 (x : Nat) : Int := Int.bmod x (2 ^ 32)

def freshGuest (mem : Gm) (order : Endian) (quiet : Bool) : Guest where
  gm := mem
  order := order
  exited := false
  exitCode := 0
  quiet := quiet
  syscalls := 0
  brk := 0
  brkBase := 0
  brkLimit := 0
  fdsInited := false
  confined := false
  stdio i := i
  fdtab _ := none
  canPark := false
  park := .none
  parkFd := 0
  parkEvents := 0
  parkDeadline := 0
  sleeping := false
  sleepDeadline := 0
  wrParkedDone := 0
  stackTop := 0
  vdsoBase := 0
  p9 := []
  scratchDir := none

namespace Guest

variable (g : Guest)

def withGm (s : Gm) : Guest := { g with gm := s }

def setFd (i : Nat) (e : Option Gfd) : Guest :=
  { g with fdtab := Function.update g.fdtab i e }

/-! ## The descriptor table -/

def gfdEntry (fd : Nat) : Option Gfd :=
  if guestMaxFds ≤ fd then none else g.fdtab fd

def gfdHost (fd : Nat) : Int :=
  match g.gfdEntry fd with
  | some e => e.hostFd
  | none => -1

def gfdDir (dirfd : Nat) : Option Int :=
  if dirfd = guestAtFdcwd then if g.confined then none else some atFdcwd
  else if g.gfdHost dirfd < 0 then none else some (g.gfdHost dirfd)

/-- `gfd_alloc`: the first free index, from 3 on. -/
def gfdAlloc (dev : GuestDev) (hostFd : Int) : Option Nat × Guest :=
  match (List.range' 3 61).find? fun i => (g.fdtab i).isNone with
  | some i => (some i, g.setFd i (some ⟨dev, hostFd, none⟩))
  | none => (none, g)

/-- One descriptor of `gfd_init`: a duplicate, or the source when that fails. -/
def initFd (i : Nat) : Host Guest := do
  let d ← ask (.dup (g.stdio i))
  let dirp := (g.fdtab i).bind Gfd.dirp
  pure (g.setFd i (some ⟨.hostfs, if 0 ≤ d then d else g.stdio i, dirp⟩))

def gfdInit : Host Guest :=
  if g.fdsInited then pure g
  else do
    let g ← g.initFd 0
    let g ← g.initFd 1
    let g ← g.initFd 2
    pure { g with fdsInited := true }

def gfdClose (fd : Nat) : Host (Int × Guest) :=
  match g.gfdEntry fd with
  | none => pure (ebadf, g)
  | some e =>
    match e.dev with
    | .proc => do
        ask (.procfsFree e.dirp)
        pure (0, g.setFd fd none)
    | .hostfs => do
        match e.dirp with
        | some d => ask (.closedir d)
        | none => pure ()
        ask (.close e.hostFd)
        pure (0, g.setFd fd none)

end Guest

/-! ## Guest memory -/

def copyFromGuest (s : Gm) (addr : Nat) : Nat → Option (List UInt8) × Gm
  | 0 => (some [], s)
  | n + 1 =>
    match s.page (addr % 2 ^ 32) false with
    | (none, s) => (none, s)
    | (some p, s) =>
      match copyFromGuest s (addr + 1) n with
      | (none, s') => (none, s')
      | (some bs, s') => (some (s.mem.peek p (addr % 4096) :: bs), s')

def copyPathLoop (s : Gm) (pathp : Nat) : Nat → Except Int CStr × Gm
  | 0 => (.error enoent, s)
  | n + 1 =>
    match s.page (pathp % 2 ^ 32) false with
    | (none, s) => (.error efault, s)
    | (some p, s) =>
      let c := s.mem.peek p (pathp % 4096)
      if c = 0 then (.ok [], s)
      else
        match copyPathLoop s (pathp + 1) n with
        | (.error e, s) => (.error e, s)
        | (.ok cs, s) => (.ok (c :: cs), s)

def copyPath (s : Gm) (pathp : Nat) : Except Int CStr × Gm := copyPathLoop s pathp 1023

def store64 (s : Gm) (e : Endian) (addr v : Nat) : Gm :=
  match e with
  | .little => (s.store (addr % 2 ^ 32) 4 e v).store ((addr + 4) % 2 ^ 32) 4 e (v / 2 ^ 32)
  | .big => (s.store ((addr + 4) % 2 ^ 32) 4 e v).store (addr % 2 ^ 32) 4 e (v / 2 ^ 32)

def storeFields (s : Gm) (e : Endian) (addr : Nat) : List (Nat × Nat × Nat) → Gm
  | [] => s
  | (off, size, v) :: fields =>
    let s := if size = 8 then store64 s e (addr + off) v
      else s.store ((addr + off) % 2 ^ 32) size e v
    storeFields s e addr fields

/-! ## The host's side of a path -/

def oPath : Nat := 0o10000000
def oDirectory : Nat := 0o200000
def oCloexec : Nat := 0o2000000

def hpOpenBeneath (dir : Int) (path : CStr) (flags mode : Nat) : Host Int :=
  ask (.openBeneath dir path flags mode)

def hpStatBeneath (dir : Int) (path : CStr) : Host (Option Stat) := do
  let fd ← ask (.openBeneath dir path oPath 0)
  if fd < 0 then pure none
  else do
    let st ← ask (.fstat fd)
    ask (.close fd)
    pure st

def slash : UInt8 := 47

/-- The directory part and the last name of a path, as `strrchr` cuts it. -/
def splitPath (path : CStr) : CStr × CStr :=
  match path.reverse.findIdx? (· = slash) with
  | none => ([46], path)
  | some k =>
    let i := path.length - 1 - k
    if i = 0 then ([slash], path.drop 1) else (path.take i, path.drop (i + 1))

def hpParentBeneath (dir : Int) (path : CStr) : Host (Option (Int × CStr)) :=
  let (parent, base) := splitPath path
  if base = [] then pure none
  else do
    let fd ← ask (.openBeneath dir parent (oPath ||| oDirectory) 0)
    pure (if fd < 0 then none else some (fd, base))

/-- Fill a buffer of `len` bytes from `/dev/urandom`; an empty answer stands for an error. -/
def hpRandomLoop (fd : Int) : Nat → List UInt8 → Host (List UInt8)
  | 0, got => pure got
  | n + 1, got => do
      let r ← ask (.read fd (n + 1))
      match r with
      | none => pure got
      | some [] => pure got
      | some (b :: bs) => hpRandomLoop fd (n - bs.length) (got ++ (b :: bs).take (n + 1))
  termination_by n => n
  decreasing_by omega

def hpRandom (len : Nat) : Host (List UInt8) :=
  if len = 0 then pure []
  else do
    let fd ← ask (.open (text "/dev/urandom") oCloexec 0)
    if fd < 0 then pure []
    else do
      let got ← hpRandomLoop fd len []
      ask (.close fd)
      pure got

/-! ## Reading and writing -/

def pollIn : Nat := 1
def pollOut : Nat := 4
def pollOver : Nat := 0x38

def wouldBlock (hf : Int) (events : Nat) : Host Bool := do
  let (r, revents) ← ask (.poll hf events)
  pure (if r ≤ 0 then r == 0 else revents &&& (events ||| pollOver) == 0)

/-- The loop of `sys_write`; every turn writes at least one byte, so as many turns as there are bytes
are enough. -/
def writeLoop (fd : Nat) (hf : Int) (buf len : Nat) : Nat → Nat → Guest → Host (Int × Guest)
  | 0, done, g => pure (int32 done, g)
  | fuel + 1, done, g =>
    if len ≤ done then pure (int32 done, g)
    else
      let chunk := min (len - done) 4096
      match copyFromGuest g.gm (buf + done) chunk with
      | (none, s) => pure (efault, g.withGm s)
      | (some bytes, s) =>
        let g := g.withGm s
        -- `--quiet` drops what goes to the console
        if g.quiet ∧ (fd = 1 ∨ fd = 2) then writeLoop fd hf buf len fuel (done + chunk) g
        else do
          let full ← wouldBlock hf pollOut
          if full ∧ g.canPark then
            pure (0, { g with
              wrParkedDone := done, park := .retry, parkFd := hf, parkEvents := pollOut })
          else do
            let n ← ask (.write hf bytes)
            if n ≤ 0 then pure (if done ≠ 0 then int32 done else ebadf, g)
            else
              writeLoop fd hf buf len fuel (done + n.toNat) g

variable (g : Guest)

def sysWrite (fd buf len : Nat) : Host (Int × Guest) :=
  let done := g.wrParkedDone
  let hf := g.gfdHost fd
  let g := { g with wrParkedDone := 0 }
  if hf < 0 then pure (ebadf, g) else writeLoop fd hf buf len len done g

/-- `GSYS_WRITEV`, with the entries left. -/
def writevLoop (fd iov : Nat) : Nat → Nat → Nat → Guest → Host (Int × Guest)
  | 0, _, total, g => pure (int32 total, g)
  | n + 1, i, total, g =>
    match copyFromGuest g.gm (iov + i * 8) 8 with
    | (none, s) => pure (efault, g.withGm s)
    | (some w, s) => do
        let (r, g) ← sysWrite (g.withGm s) fd (g.order.decode (w.take 4)) (g.order.decode (w.drop 4))
        if r < 0 then pure (if total ≠ 0 then int32 total else r, g)
        else
          writevLoop fd iov n (i + 1) ((total + r.toNat) % 2 ^ 32) g

def deliver (buf : Nat) (bytes : List UInt8) : Int × Guest :=
  let g := g.withGm (g.gm.write buf bytes)
  (if g.gm.mem.fault.isSome then efault else bytes.length, g)

def readWouldBlock (hf : Int) (len : Nat) : Host Bool :=
  if 0 < len then wouldBlock hf pollIn else pure false

def sysRead (fd buf len : Nat) : Host (Int × Guest) :=
  match g.gfdEntry fd with
  | none => pure (ebadf, g)
  | some e =>
    match e.dev with
    | .proc => do
        let r ← ask (.procfsRead e.dirp (min len 4096))
        match r with
        | none => pure (ebadf, g)
        | some bytes => pure (deliver g buf bytes)
    | .hostfs =>
      if e.hostFd < 0 then pure (ebadf, g)
      else do
        let empty ← readWouldBlock e.hostFd len
        if empty ∧ g.canPark then
          pure (0, { g with park := .retry, parkFd := e.hostFd, parkEvents := pollIn })
        else do
          let r ← ask (.read e.hostFd (min len 4096))
          match r with
          | none => pure (ebadf, g)
          | some bytes => pure (deliver g buf bytes)

def seekTo (fd : Nat) (offset : Int) (whence : Nat) : Host Int :=
  match g.gfdEntry fd with
  | none => pure (-1)
  | some e =>
    match e.dev with
    | .proc => ask (.procfsLseek e.dirp offset whence)
    | .hostfs => if e.hostFd < 0 then pure (-1) else ask (.lseek e.hostFd offset whence)

def sysLseek (fd offset whence : Nat) : Host (Int × Guest) := do
  let r ← seekTo g fd (int32 offset) whence
  pure (if r < 0 then ebadf else Int.bmod r (2 ^ 32), g)

/-- `sys_llseek`: the position goes to the guest as a little-endian word pair. -/
def sysLlseek (fd hi lo resultp whence : Nat) : Host (Int × Guest) := do
  let r ← seekTo g fd (Int.bmod (hi * 2 ^ 32 + lo) (2 ^ 64)) whence
  if r < 0 then pure (ebadf, g)
  else
    let g := g.withGm (store64 g.gm .little resultp r.toNat)
    pure (if g.gm.mem.fault.isSome then efault else 0, g)

/-! ## Paths -/

def grantFd (fd : Int) : Host (Int × Guest) :=
  match g.gfdAlloc .hostfs fd with
  | (some i, g) => pure ((i : Int), g)
  | (none, g) => do
      ask (.close fd)
      pure (ebadf, g)

def sysOpen (pathp flags mode : Nat) : Host (Int × Guest) :=
  match copyPath g.gm pathp with
  | (.error e, s) => pure (e, g.withGm s)
  | (.ok path, s) => do
      let fd ← ask (.open path flags mode)
      if fd < 0 then pure (enoent, g.withGm s) else grantFd (g.withGm s) fd

def openIn (hd : Int) (path : CStr) (flags mode : Nat) : Host Int :=
  if hd = atFdcwd then ask (.openat hd path flags mode) else hpOpenBeneath hd path flags mode

def sysOpenat (dirfd pathp flags mode : Nat) : Host (Int × Guest) :=
  match copyPath g.gm pathp with
  | (.error e, s) => pure (e, g.withGm s)
  | (.ok path, s) =>
    let g := g.withGm s
    if (g.gfdEntry dirfd).any (·.dev = .proc) then do
      let r ← ask (.procfsOpen path)
      match r with
      | .error e => pure (if e = enoent then enoent else ebadf, g)
      | .ok h =>
        match g.gfdAlloc .proc (-1) with
        | (none, g) => do
            ask (.procfsFree (some h))
            pure (ebadf, g)
        | (some i, g) => pure ((i : Int), g.setFd i (some ⟨.proc, -1, some h⟩))
    else
      match g.gfdDir dirfd with
      | none => pure (ebadf, g)
      | some hd => do
          let fd ← openIn hd path flags mode
          if fd < 0 then pure (enoent, g) else grantFd g fd

/-- What `sys_statx` writes: the whole record zeroed, then the fields it fills. -/
def statxFields (st : Stat) : List (Nat × Nat × Nat) :=
  ((List.range 64).map fun i => (4 * i, 4, 0)) ++
    [(0, 4, 0x7ff), (4, 4, st.blksize), (16, 4, st.nlink), (20, 4, st.uid), (24, 4, st.gid),
      (28, 2, st.mode % 2 ^ 16), (32, 8, st.ino), (40, 8, st.size), (48, 8, st.blocks),
      (64, 8, st.atime), (96, 8, st.ctime), (112, 8, st.mtime)]

def fillStatx (bufp : Nat) (st : Option Stat) : Int × Guest :=
  match st with
  | none => (enoent, g)
  | some st =>
    let g := g.withGm (storeFields g.gm g.order bufp (statxFields st))
    (if g.gm.mem.fault.isSome then efault else 0, g)

def statIn (hd : Int) (path : CStr) : Host (Option Stat) :=
  if hd = atFdcwd then ask (.fstatat hd path) else hpStatBeneath hd path

/-- `sys_statx`; `AT_EMPTY_PATH` asks for the descriptor itself. -/
def sysStatx (dirfd pathp flags bufp : Nat) : Host (Int × Guest) :=
  if flags.testBit 12 then
    match g.gfdEntry dirfd with
    | none => pure (ebadf, g)
    | some e =>
      match e.dev with
      | .proc => do
          let st ← ask (.procfsFstat e.dirp)
          pure (fillStatx g bufp (some st))
      | .hostfs =>
        if e.hostFd < 0 then pure (ebadf, g)
        else do
          let st ← ask (.fstat e.hostFd)
          pure (fillStatx g bufp st)
  else
    match copyPath g.gm pathp with
    | (.error e, s) => pure (e, g.withGm s)
    | (.ok path, s) =>
      let g := g.withGm s
      if (g.gfdEntry dirfd).any (·.dev = .proc) then do
        let st ← ask (.procfsStat path)
        pure (fillStatx g bufp st)
      else
        match g.gfdDir dirfd with
        | none => pure (ebadf, g)
        | some hd => do
            let st ← statIn hd path
            pure (fillStatx g bufp st)

/-- A call on the last name of a path: in the working directory, or in the parent that a confined
open finds. -/
def namespaceCall (dirfd pathp : Nat) (act : Int → CStr → Host Bool) :
    Host (Int × Guest) :=
  match copyPath g.gm pathp with
  | (.error e, s) => pure (e, g.withGm s)
  | (.ok path, s) =>
    let g := g.withGm s
    match g.gfdDir dirfd with
    | none => pure (ebadf, g)
    | some hd =>
      if hd = atFdcwd then do
        let ok ← act hd path
        pure (if ok then 0 else enoent, g)
      else do
        let parent ← hpParentBeneath hd path
        match parent with
        | none => pure (enoent, g)
        | some (pf, base) => do
            let ok ← act pf base
            ask (.close pf)
            pure (if ok then 0 else enoent, g)

def sysMkdirat (dirfd pathp mode : Nat) : Host (Int × Guest) :=
  namespaceCall g dirfd pathp fun dir path => ask (.mkdirat dir path mode)

def sysUnlinkat (dirfd pathp flags : Nat) : Host (Int × Guest) :=
  namespaceCall g dirfd pathp fun dir path => ask (.unlinkat dir path flags)

def sysFchmodat (dirfd pathp mode flags : Nat) : Host (Int × Guest) :=
  namespaceCall g dirfd pathp fun dir path => ask (.fchmodat dir path mode flags)

def renameBeneath (ho hn : Int) (oldpath newpath : CStr) : Host (Int × Guest) := do
  let op ← hpParentBeneath ho oldpath
  match op with
  | none => pure (enoent, g)
  | some (opf, ob) => do
      let np ← hpParentBeneath hn newpath
      match np with
      | none => do
          ask (.close opf)
          pure (enoent, g)
      | some (npf, nb) => do
          let ok ← ask (.renameat opf ob npf nb)
          ask (.close opf)
          ask (.close npf)
          pure (if ok then 0 else enoent, g)

def sysRenameat2 (od oldp nd newp flags : Nat) : Host (Int × Guest) :=
  if flags ≠ 0 then pure (einval, g)
  else
    match copyPath g.gm oldp with
    | (.error e, s) => pure (e, g.withGm s)
    | (.ok oldpath, s) =>
      match copyPath s newp with
      | (.error e, s) => pure (e, g.withGm s)
      | (.ok newpath, s) =>
        let g := g.withGm s
        match g.gfdDir od, g.gfdDir nd with
        | some ho, some hn =>
          if ho = atFdcwd ∧ hn = atFdcwd then do
            let ok ← ask (.renameat ho oldpath hn newpath)
            pure (if ok then 0 else enoent, g)
          else if ho = atFdcwd ∨ hn = atFdcwd then pure (einval, g)
          else
            renameBeneath g ho hn oldpath newpath
        | _, _ => pure (ebadf, g)

/-! ## Directories -/

def reclen (name : CStr) : Nat := (19 + name.length + 1 + 7) / 8 * 8 % 2 ^ 16

def emitDirent64 (at' ino off type : Nat) (name : CStr) : Guest :=
  let s := store64 g.gm g.order at' ino
  let s := store64 s g.order (at' + 8) off
  let s := s.store ((at' + 16) % 2 ^ 32) 2 g.order (reclen name)
  let s := s.store ((at' + 18) % 2 ^ 32) 1 .little type
  let s := s.write (at' + 19) name
  g.withGm (s.zero (at' + 19 + name.length) (reclen name - 19 - name.length))

def listed (gpos : Nat) : Int × Guest := (if g.gm.mem.fault.isSome then efault else int32 gpos, g)

def procDents (h : Option Nat) (dirp count : Nat) : Nat → Nat → Guest → Host (Int × Guest)
  | 0, gpos, g => pure (listed g gpos)
  | fuel + 1, gpos, g => do
      let r ← ask (.procfsGetdent h)
      match r with
      | .error _ => pure (enoent, g)
      | .ok none => pure (listed g gpos)
      | .ok (some de) =>
        if count < gpos + reclen de.name then do
          ask (.procfsRewind h)
          pure (if gpos = 0 then (einval, g) else listed g gpos)
        else
          procDents h dirp count fuel (gpos + reclen de.name)
            (emitDirent64 g (dirp + gpos) de.ino de.ino (if de.type = 2 then 4 else 8) de.name)

def hostDents (d dirp count : Nat) : Nat → Nat → Guest → Host (Int × Guest)
  | 0, gpos, g => pure (listed g gpos)
  | fuel + 1, gpos, g => do
      let cookie ← ask (.telldir d)
      let r ← ask (.readdir d)
      match r with
      | none => pure (listed g gpos)
      | some de =>
        if count < gpos + reclen de.name then do
          ask (.seekdir d cookie)
          pure (if gpos = 0 then (einval, g) else listed g gpos)
        else do
          let off ← ask (.telldir d)
          hostDents d dirp count fuel (gpos + reclen de.name)
            (emitDirent64 g (dirp + gpos) de.ino off de.type de.name)

/-- `hp_diropen`: the stream has a descriptor of its own. -/
def hpDiropen (dirfd : Int) : Host (Option Nat) := do
  let fd ← ask (.dup dirfd)
  if fd < 0 then pure none
  else do
    let d ← ask (.fdopendir fd)
    match d with
    | some d => pure (some d)
    | none => do
        ask (.close fd)
        pure none

def sysGetdents64 (fd dirp count : Nat) : Host (Int × Guest) :=
  match g.gfdEntry fd with
  | none => pure (ebadf, g)
  | some e =>
    match e.dev with
    | .proc => procDents e.dirp dirp count (count + 1) 0 g
    | .hostfs =>
      match e.dirp with
      | some d => hostDents d dirp count (count + 1) 0 g
      | none => do
          let d ← hpDiropen e.hostFd
          match d with
          | none => pure (enoent, g)
          | some d =>
            hostDents d dirp count (count + 1) 0 (g.setFd fd (some { e with dirp := some d }))

/-! ## The rest -/

def sysBrk (want : Nat) : Int × Guest :=
  let g := if g.brkBase ≤ want ∧ want ≤ g.brkLimit then { g with brk := want } else g
  (int32 g.brk, g)

def sysClockGettime (clkId tsPtr : Nat) : Host (Int × Guest) :=
  if tsPtr = 0 then pure (efault, g)
  else do
    let t ← ask (.clock (clkId = 0))
    match t with
    | none => pure (einval, g)
    | some (sec, nsec) =>
      let s := g.gm.store tsPtr 4 g.order sec
      pure (0, g.withGm (s.store ((tsPtr + 4) % 2 ^ 32) 4 g.order nsec))

def getrandomLoop (buf len : Nat) : Nat → Nat → Guest → Host (Int × Guest)
  | 0, done, g => pure (int32 done, g)
  | fuel + 1, done, g =>
    if len ≤ done then pure (int32 done, g)
    else do
      let got ← hpRandom (min (len - done) 256)
      match got with
      | [] => pure (if 0 < done then int32 done else einval, g)
      | b :: bs =>
        getrandomLoop buf len fuel (done + (bs.length + 1))
          (g.withGm (g.gm.write (buf + done) (b :: bs)))

def sysGetrandom (buf len : Nat) : Host (Int × Guest) :=
  if len = 0 then pure (0, g)
  else if buf = 0 then pure (efault, g) else getrandomLoop buf len len 0 g

def monoNs : Host Nat := do
  let t ← ask (.clock false)
  match t with
  | none => pure 0
  | some (sec, nsec) => pure (sec * 1000000000 + nsec)

/-- The deadline is fixed when the call is first made. -/
def startSleep (sec nsec : Nat) : Host Guest :=
  if g.sleeping then pure g
  else do
    let now ← monoNs
    pure { g with sleeping := true, sleepDeadline := now + sec * 1000000000 + nsec }

def sysNanosleep (reqPtr : Nat) : Host (Int × Guest) :=
  if reqPtr = 0 then pure (efault, g)
  else
    let (sec, s) := g.gm.load reqPtr 4 g.order
    let (nsec, s) := s.load ((reqPtr + 4) % 2 ^ 32) 4 g.order
    let g := g.withGm s
    if 1000000000 ≤ nsec then pure (einval, g)
    else if !g.canPark then do
      ask (.sleep sec nsec)
      pure (0, g)
    else do
      let g ← startSleep g sec nsec
      let now ← monoNs
      if now < g.sleepDeadline then
        pure (0, { g with park := .retry, parkFd := -1, parkDeadline := g.sleepDeadline })
      else
        pure (0, { g with sleeping := false })

def sysSchedYield : Host (Int × Guest) :=
  if g.canPark then pure (0, { g with park := .yield })
  else do
    ask .yield
    pure (0, g)

inductive GuestSys
  | unknown | read | write | writev | open | openat | close | lseek | llseek | brk | exit | exitGroup
  | statx | mkdirat | unlinkat | renameat2 | fchmodat | getdents64 | clockGettime | getrandom
  | nanosleep | schedYield
  deriving DecidableEq, Repr

structure Syscall where
  sys : GuestSys
  (a0 a1 a2 a3 a4 : UInt32)
  deriving DecidableEq

def dispatch (c : Syscall) : Host (Int × Guest) :=
  let a0 := c.a0.toNat
  let a1 := c.a1.toNat
  let a2 := c.a2.toNat
  let a3 := c.a3.toNat
  let a4 := c.a4.toNat
  match c.sys with
  | .write => sysWrite g a0 a1 a2
  | .read => sysRead g a0 a1 a2
  | .writev => writevLoop a0 a1 a2 0 0 g
  | .brk => pure (sysBrk g a0)
  | .open => sysOpen g a0 a1 a2
  | .openat => sysOpenat g a0 a1 a2 a3
  | .close => g.gfdClose a0
  | .lseek => sysLseek g a0 a1 a2
  | .llseek => sysLlseek g a0 a1 a2 a3 a4
  | .statx => sysStatx g a0 a1 a2 a4
  | .mkdirat => sysMkdirat g a0 a1 a2
  | .unlinkat => sysUnlinkat g a0 a1 a2
  | .renameat2 => sysRenameat2 g a0 a1 a2 a3 a4
  | .fchmodat => sysFchmodat g a0 a1 a2 a3
  | .getdents64 => sysGetdents64 g a0 a1 a2
  | .clockGettime => sysClockGettime g a0 a1
  | .getrandom => sysGetrandom g a0 a1
  | .nanosleep => sysNanosleep g a0
  | .schedYield => sysSchedYield g
  | .exit => pure (0, { g with exited := true, exitCode := a0 % 256 })
  | .exitGroup => pure (0, { g with exited := true, exitCode := a0 % 256 })
  | .unknown => pure (enosys, g)

def Guest.enter : Host Guest := Guest.gfdInit { g with syscalls := g.syscalls + 1, park := .none }

def guestSyscall (c : Syscall) : Host (Int × Guest) := do
  let g ← g.enter
  dispatch g c

end Skjegg.Emu
