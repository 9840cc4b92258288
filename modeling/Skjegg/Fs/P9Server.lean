import Skjegg.Fs.Wire

/-!
# The 9P server

`p9_server.c`: a 9P2000 file server over a host directory, with a fixed table of fids that name paths
relative to the root. What it asks of the host may be answered in any way, and so may the content of
a buffer it has not filled; what it reads of the request is an event.
-/

namespace Skjegg.Fs

open Skjegg.Lib List

def srvMaxfid : Nat := 64
def srvPathmax : Nat := 1024
def p9Maxwelem : Nat := 16
def p9Msize : Nat := 8192
def p9Dmdir : Nat := 0x80000000
def p9Otrunc : Nat := 0x10
def p9Version : CStr := text "9P2000"

def slash : UInt8 := 47
def dot : CStr := [46]
def dotdot : CStr := [46, 46]

/-! ## The host -/

/-- The fields of `struct stat` the server reads. -/
structure Stat where
  (mode ino atime mtime size : Nat)

/-- `S_ISDIR`. -/
def Stat.isDir (st : Stat) : Bool := st.mode &&& 0o170000 == 0o040000

/-- The name of a directory entry: a host never returns one that is empty or has a separator. -/
structure DirName where
  name : CStr
  ne_nil : name ≠ []
  no_slash : slash ∉ name

inductive Access
  | rdonly
  | wronly
  | rdwr
  deriving DecidableEq, Repr

structure OpenFlags where
  access : Access
  (creat trunc : Bool)
  deriving DecidableEq, Repr

/-- An open directory stream and the path it was opened on. -/
structure Dir where
  handle : Nat
  path : CStr

/-- What the server asks of the host.  `indeterminate` is the content of a buffer nothing was
written to. -/
inductive HostCall
  | stat (path : CStr)
  | open (path : CStr) (flags : OpenFlags) (perm : Nat)
  | mkdir (path : CStr) (perm : Nat)
  | rmdir (path : CStr)
  | unlink (path : CStr)
  | rename (old new : CStr)
  | opendir (path : CStr)
  | readdir (d : Dir)
  | fstatat (d : Dir) (name : CStr)
  | closedir (d : Dir)
  | pread (fd : Int) (cnt : Nat) (off : Int)
  | pwrite (fd : Int) (data : List UInt8) (off : Int)
  | close (fd : Int)
  | malloc (size : Nat)
  | realloc (size : Nat)
  | strerror (err : Nat)
  | indeterminate

/-- What the host answers; an error is an `errno`. A directory's entries are what its `readdir`
calls return, in order. -/
@[reducible] def HostCall.Ans : HostCall → Type
  | .stat _ => Except Nat Stat
  | .open _ _ _ => Except Nat Nat
  | .mkdir _ _ => Except Nat Unit
  | .rmdir _ => Except Nat Unit
  | .unlink _ => Except Nat Unit
  | .rename _ _ => Except Nat Unit
  | .opendir _ => Except Nat Nat
  | .readdir _ => List DirName
  | .fstatat _ _ => Except Nat Stat
  | .closedir _ => Unit
  | .pread _ cnt _ => Except Nat { bytes : List UInt8 // bytes.length ≤ cnt }
  | .pwrite _ _ _ => Except Nat Nat
  | .close _ => Unit
  | .malloc _ => Bool
  | .realloc _ => Bool
  | .strerror _ => CStr
  | .indeterminate => CStr

/-- A part of the server: it reads the request and asks the host. -/
abbrev P9Prog := Reader HostCall HostCall.Ans

theorem HostCall.nonempty_ans (e : Reading HostCall) : Nonempty (e.Ans HostCall.Ans) := by
  cases e with
  | load _ _ => exact ⟨()⟩
  | host h =>
    cases h with
    | stat _ | «open» _ _ _ | opendir _ | fstatat _ _ | pread _ _ _ | pwrite _ _ _ => exact ⟨.error 0⟩
    | mkdir _ _ | rmdir _ | unlink _ | rename _ _ => exact ⟨.ok ()⟩
    | readdir _ | strerror _ | indeterminate => exact ⟨([] : List _)⟩
    | closedir _ | close _ => exact ⟨()⟩
    | malloc _ | realloc _ => exact ⟨true⟩

/-! ## The fid table -/

/-- `struct srv_fid`: a file's host descriptor is negative while it is not open. -/
structure SrvFid where
  (used isdir : Bool)
  fd : Int
  path : CStr
  dirbuf : Option (List UInt8)
  dirlen : Nat

structure P9Server where
  root : CStr
  fids : Fin srvMaxfid → SrvFid

variable (s : P9Server) (i : Fin srvMaxfid)

def P9Server.setFid (f : SrvFid) : P9Server :=
  { s with fids := Function.update s.fids i f }

def P9Server.setIsdir (isdir : Bool) : P9Server := s.setFid i { s.fids i with isdir := isdir }

def P9Server.setFd (fd : Int) : P9Server := s.setFid i { s.fids i with fd := fd }

def P9Server.setPath (path : CStr) : P9Server := s.setFid i { s.fids i with path := path }

def hostPath (root rel : CStr) (cap : Nat) : CStr :=
  if cap = 0 then []
  else
    let out := root.take (cap - 1)
    if rel ≠ [] ∧ out.length < cap - 1 then out ++ slash :: rel.take (cap - 1 - (out.length + 1))
    else out

def findFid (fid : Nat) : Option (Fin srvMaxfid) :=
  match (finRange srvMaxfid).find? fun i => (s.fids i).used && i.val == fid with
  | some i => some i
  | none =>
    if h : fid < srvMaxfid then if (s.fids ⟨fid, h⟩).used then some ⟨fid, h⟩ else none
    else none

def closeIf (p : Prop) [Decidable p] (fd : Int) : P9Prog Unit :=
  if p then host (HostCall.close fd) else pure ()

def boundFid : SrvFid :=
  { used := true, isdir := false, fd := -1, path := [], dirbuf := none, dirlen := 0 }

def bindFid (fid : Nat) : P9Prog (Option (Fin srvMaxfid × P9Server)) :=
  if h : fid < srvMaxfid then do
    let f := s.fids ⟨fid, h⟩
    closeIf (f.used ∧ 0 ≤ f.fd) f.fd
    pure (some (⟨fid, h⟩, s.setFid ⟨fid, h⟩ boundFid))
  else pure none

def clunked (f : SrvFid) : SrvFid :=
  { f with fd := if 0 ≤ f.fd then -1 else f.fd, dirbuf := none, dirlen := 0, used := false,
           path := [] }

def clunkFid : P9Prog P9Server := do
  let f := s.fids i
  closeIf (0 ≤ f.fd) f.fd
  pure (s.setFid i (clunked f))

def strrchrSlash : CStr → Option (CStr × CStr)
  | [] => none
  | c :: cs =>
    match strrchrSlash cs with
    | some (before, after) => some (c :: before, after)
    | none => if c = slash then some ([], cs) else none

def snprintf (cap : Nat) (s : CStr) : CStr := s.take (cap - 1)

/-- `path_step`; `none` is the refusal of an unsafe step. -/
def pathStep (rel name : CStr) : Option CStr :=
  if name = [] ∨ name = dot then some rel
  else if slash ∈ name then none
  else if name = dotdot then
    if rel = [] then none
    else
      match strrchrSlash rel with
      | some (before, _) => some before
      | none => some []
  else if rel = [] then some (snprintf srvPathmax name)
  else some (rel ++ snprintf (srvPathmax - rel.length) (slash :: name))

/-! ## Replies -/

structure P9Qid where
  (type version path : Nat)

def fillQid (st : Stat) : P9Qid :=
  { type := if st.isDir then 0x80 else 0x00, version := 0, path := st.ino }

variable (o : WireOut)

def p9oQid (q : P9Qid) : WireOut := wirePutU64 (wirePutU32 (wirePutU8 o q.type) q.version) q.path

def p9oHdr (type tag : Nat) : WireOut := wirePutU16 (wirePutU8 (wirePutU32 o 0) type) tag

/-- `p9o_finish`: the framed message with its size patched in; nothing on overflow. -/
def p9oFinish : List UInt8 :=
  if o.ok then lowBytes 4 o.bytes.length ++ o.bytes.drop 4 else []

/-- `put_stat`: one stat record, its size patched in at the end. -/
def putStat (name : CStr) (st : Stat) : WireOut :=
  let pos := o.bytes.length
  let mode := (st.mode &&& 0o777) ||| (if st.isDir then p9Dmdir else 0)
  let o := wirePutU32 (wirePutU16 (wirePutU16 o 0) 0) 0
  let o := wirePutU32 (p9oQid o (fillQid st)) mode
  let o := wirePutU32 (wirePutU32 o st.atime) st.mtime
  let o := wirePutU64 o (if st.isDir then 0 else st.size)
  let o := wirePutStr (wirePutStr (wirePutStr (wirePutStr o name) []) []) []
  let stsz := o.bytes.length - pos - 2
  { o with bytes := (o.bytes.set pos (UInt8.ofNat stsz)).set (pos + 1) (UInt8.ofNat (stsz / 256)) }

def rerror (rxcap tag : Nat) (msg : CStr) : List UInt8 :=
  p9oFinish (wirePutStr (p9oHdr (wireOutInit rxcap) 107 tag) msg)

def errnoReply (rxcap tag : Nat) (err : Int) : P9Prog (List UInt8) := do
  let msg ← host (HostCall.strerror err.natAbs)
  pure (rerror rxcap tag msg)

/-! ## Directory listings -/

def enomem : Nat := 12

/-- The records of the entries, in a buffer that doubles when one might not fit; the buffer so far
when it cannot grow. -/
def dirRecords (d : Dir) : List DirName → WireOut → P9Prog (Except WireOut WireOut)
  | [], o => pure (.ok o)
  | e :: es, o =>
    if e.name = dot ∨ e.name = dotdot then dirRecords d es o
    else do
      match ← host (HostCall.fstatat d e.name) with
      | .error _ => dirRecords d es o
      | .ok st =>
        if o.Full 512 then do
          let cap := u32 (o.cap * 2)
          let grown : Bool ← host (HostCall.realloc cap)
          if grown then dirRecords d es (putStat { o with cap := cap } e.name st)
          else pure (.error o)
        else dirRecords d es (putStat o e.name st)

/-- `build_dirbuf`: the return code, and the session with the listing stored. -/
def buildDirbuf : P9Prog (Int × P9Server) :=
  let f := s.fids i
  if f.dirbuf.isSome then pure (0, s)
  else do
    let hp := hostPath s.root f.path srvPathmax
    match ← host (HostCall.opendir hp) with
    | .error err => pure (-(err : Int), s)
    | .ok handle => do
        let d : Dir := ⟨handle, hp⟩
        let room : Bool ← host (HostCall.malloc 4096)
        if room then do
          let entries ← host (HostCall.readdir d)
          match ← dirRecords d entries (wireOutInit 4096) with
          | .error o =>
            host (HostCall.closedir d)
            pure (-(enomem : Int), s.setFid i { f with dirbuf := some o.bytes })
          | .ok o =>
            host (HostCall.closedir d)
            pure (0, s.setFid i { f with dirbuf := some o.bytes, dirlen := o.bytes.length })
        else do
          host (HostCall.closedir d)
          pure (-(enomem : Int), s)

/-! ## The messages -/

/-- The message types the server dispatches on. -/
inductive P9T
  | version
  | attach
  | walk
  | open
  | create
  | read
  | write
  | clunk
  | remove
  | stat
  | wstat
  deriving DecidableEq, Repr

def P9T.ofCode : Nat → Option P9T
  | 100 => some .version
  | 104 => some .attach
  | 110 => some .walk
  | 112 => some .open
  | 114 => some .create
  | 116 => some .read
  | 118 => some .write
  | 120 => some .clunk
  | 122 => some .remove
  | 124 => some .stat
  | 126 => some .wstat
  | _ => none

abbrev Handler := P9Prog (P9Server × List UInt8)

def refuse (rxcap tag : Nat) (msg : String) : Handler := pure (s, rerror rxcap tag (text msg))

variable (c : WireIn)

section Handlers

variable (rxcap tag : Nat)

def ifComplete (body : Handler) : Handler :=
  if c.ok then body else refuse s rxcap tag "truncated request"

def withFid (fid rxcap tag : Nat) (body : Fin srvMaxfid → Handler) : Handler :=
  match findFid s fid with
  | none => refuse s rxcap tag "bad fid"
  | some i => body i

def errnoFail (err : Int) : Handler := do
  let r ← errnoReply rxcap tag err
  pure (s, r)

def zeroFid : SrvFid :=
  { used := false, isdir := false, fd := 0, path := [], dirbuf := none, dirlen := 0 }

def tversion : Handler := do
  let (msize, c) ← wireGetU32 c
  let (ver, c) ← wireGetStr (some 32) c
  ifComplete s c rxcap tag <|
    -- a new session clears the fids; nothing is closed
    let s := { s with fids := fun _ => zeroFid }
    let o := wirePutU32 (p9oHdr (wireOutInit rxcap) 101 tag) (min msize p9Msize)
    let answer := if ver = some p9Version then p9Version else text "unknown"
    pure (s, p9oFinish (wirePutStr o answer))

def tattach : Handler := do
  let (fid, c) ← wireGetU32 c
  let (_, c) ← wireGetU32 c
  let (_, c) ← wireGetStr none c
  let (_, c) ← wireGetStr none c
  ifComplete s c rxcap tag do
    match ← host (HostCall.stat s.root) with
    | .error err => errnoFail s rxcap tag err
    | .ok st =>
      match ← bindFid s fid with
      | none => refuse s rxcap tag "bad fid"
      | some (i, s) =>
        let s := s.setIsdir i st.isDir
        pure (s, p9oFinish (p9oQid (p9oHdr (wireOutInit rxcap) 105 tag) (fillQid st)))

structure Walk where
  c : WireIn
  cur : CStr
  qids : List P9Qid
  finaldir : Bool

/-- What the name buffer holds; a string that runs past the message leaves in it what was on the
stack. -/
def nameBuffer : Option CStr → P9Prog CStr
  | some name => pure name
  | none => host HostCall.indeterminate

/-- The names of a walk, one at a time, until a step is refused or its file is not there. -/
def walkLoop (root : CStr) : Nat → Walk → P9Prog Walk
  | 0, w => pure w
  | n + 1, w => do
      let (read, c) ← wireGetStr (some 256) w.c
      let name ← nameBuffer read
      match pathStep w.cur name with
      | none => pure { w with c := c }
      | some cur =>
        match ← host (HostCall.stat (hostPath root cur srvPathmax)) with
        | .error _ => pure { w with c := c, cur := cur }
        | .ok st => walkLoop root n ⟨c, cur, w.qids ++ [fillQid st], st.isDir⟩

def walkReply (qids : List P9Qid) : List UInt8 :=
  p9oFinish (qids.foldl p9oQid (wirePutU16 (p9oHdr (wireOutInit rxcap) 111 tag) qids.length))

/-- The end of a walk of `nwname` names: a full walk binds `newfid`. -/
def walkBind (w : Walk) (nwname newfid rxcap tag : Nat) : Handler :=
  if 0 < nwname ∧ w.qids = [] then refuse s rxcap tag "no such file"
  else if w.qids.length = nwname then do
    match ← bindFid s newfid with
    | none => refuse s rxcap tag "bad newfid"
    | some (j, s) =>
      let s := (s.setPath j (snprintf srvPathmax w.cur)).setIsdir j w.finaldir
      pure (s, walkReply rxcap tag w.qids)
  else pure (s, walkReply rxcap tag w.qids)

def twalk : Handler := do
  let (fid, c) ← wireGetU32 c
  let (newfid, c) ← wireGetU32 c
  let (nwname, c) ← wireGetU16 c
  withFid s fid rxcap tag fun i =>
    if p9Maxwelem < nwname then refuse s rxcap tag "too many walk elements"
    else do
      let bf := s.fids i
      let w ← walkLoop s.root nwname ⟨c, snprintf srvPathmax bf.path, [], bf.isdir⟩
      ifComplete s w.c rxcap tag (walkBind s w nwname newfid rxcap tag)

def openReply (rxcap tag type : Nat) (st : Stat) : List UInt8 :=
  p9oFinish (wirePutU32 (p9oQid (p9oHdr (wireOutInit rxcap) type tag) (fillQid st)) 0)

def fdOf : Except Nat Nat → Int
  | .ok fd => fd
  | .error _ => -1

def openFlags (mode : Nat) : OpenFlags where
  access := match mode &&& 3 with
    | 1 => .wronly
    | 2 => .rdwr
    | _ => .rdonly
  creat := false
  trunc := mode &&& p9Otrunc ≠ 0

def topen : Handler := do
  let (fid, c) ← wireGetU32 c
  let (mode, c) ← wireGetU8 c
  ifComplete s c rxcap tag <| withFid s fid rxcap tag fun i => do
    let hp := hostPath s.root (s.fids i).path srvPathmax
    match ← host (HostCall.stat hp) with
    | .error err => errnoFail s rxcap tag err
    | .ok st =>
      let s := s.setIsdir i st.isDir
      if st.isDir then do
        let (rc, s) ← buildDirbuf s i
        if rc < 0 then errnoFail s rxcap tag rc
        else pure (s, openReply rxcap tag 113 st)
      else do
        let r ← host (HostCall.open hp (openFlags mode) 0)
        let s := s.setFd i (fdOf r)
        match (r : Except Nat Nat) with
        | .error err => errnoFail s rxcap tag err
        | .ok _ => pure (s, openReply rxcap tag 113 st)

/-- A new file must be writable. -/
def createFlags (mode : Nat) : OpenFlags where
  access := match mode &&& 3 with
    | 1 => .wronly
    | _ => .rdwr
  creat := true
  trunc := true

def createdReply (hp : CStr) (rxcap tag : Nat) : Handler := do
  match ← host (HostCall.stat hp) with
  | .error err => errnoFail s rxcap tag err
  | .ok st => pure (s, openReply rxcap tag 115 st)

def tcreate : Handler := do
  let (fid, c) ← wireGetU32 c
  let (name, c) ← wireGetStr (some 256) c
  let (perm, c) ← wireGetU32 c
  let (mode, c) ← wireGetU8 c
  ifComplete s c rxcap tag <| withFid s fid rxcap tag fun i =>
    match pathStep (s.fids i).path (name.getD []) with
    | none => refuse s rxcap tag "bad name"
    | some path => do
        -- the fid's own path is stepped in place, before the host is asked
        let s := s.setPath i path
        let hp := hostPath s.root path srvPathmax
        if perm &&& p9Dmdir ≠ 0 then do
          match ← host (HostCall.mkdir hp (perm &&& 0o777)) with
          | .error err => errnoFail s rxcap tag err
          | .ok _ => createdReply (s.setIsdir i true) hp rxcap tag
        else do
          let r ← host (HostCall.open hp (createFlags mode) (perm &&& 0o777))
          let s := s.setFd i (fdOf r)
          match (r : Except Nat Nat) with
          | .error err => errnoFail s rxcap tag err
          | .ok _ => createdReply (s.setIsdir i false) hp rxcap tag

/-- The `off_t` with the bits of a 64-bit offset. -/
def offT (off : Nat) : Int :=
  if off < 2 ^ 63 then off else off - 2 ^ 64

def readReply (bytes : List UInt8) : List UInt8 :=
  p9oFinish (wirePutBytes (wirePutU32 (p9oHdr (wireOutInit rxcap) 117 tag) bytes.length) bytes)

def tread : Handler := do
  let (fid, c) ← wireGetU32 c
  let (off, c) ← wireGetU64 c
  let (cnt, c) ← wireGetU32 c
  ifComplete s c rxcap tag <| withFid s fid rxcap tag fun i =>
    let f := s.fids i
    let cnt := min cnt (u32 (rxcap + (2 ^ 32 - 32)))
    if f.isdir then
      let avail := if f.dirlen ≤ off then 0 else f.dirlen - u32 off
      pure (s, readReply rxcap tag (((f.dirbuf.getD []).drop off).take (min cnt avail)))
    else do
      match ← host (HostCall.pread f.fd (min cnt p9Msize) (offT off)) with
      | .error err => errnoFail s rxcap tag err
      | .ok bytes => pure (s, readReply rxcap tag bytes.1)

def twrite : Handler := do
  let (fid, c) ← wireGetU32 c
  let (off, c) ← wireGetU64 c
  let (cnt, c) ← wireGetU32 c
  ifComplete s c rxcap tag <| withFid s fid rxcap tag fun i =>
    let f := s.fids i
    if f.fd < 0 then refuse s rxcap tag "bad fid"
    else if c.Short cnt then refuse s rxcap tag "short write"
    else do
      -- the host reads the data where it stands in the request
      load (c.base + c.p) cnt
      match ← host (HostCall.pwrite f.fd (c.mem.read (c.base + c.p) cnt) (offT off)) with
      | .error err => errnoFail s rxcap tag err
      | .ok put => pure (s, p9oFinish (wirePutU32 (p9oHdr (wireOutInit rxcap) 119 tag) put))

def tclunk : Handler := do
  let (fid, c) ← wireGetU32 c
  ifComplete s c rxcap tag <|
    let done := p9oFinish (p9oHdr (wireOutInit rxcap) 121 tag)
    match findFid s fid with
    | none => pure (s, done)
    | some i => do
        let s ← clunkFid s i
        pure (s, done)

def removeCall (isdir : Bool) (path : CStr) : P9Prog (Except Nat Unit) :=
  if isdir then host (HostCall.rmdir path) else host (HostCall.unlink path)

def tremove : Handler := do
  let (fid, c) ← wireGetU32 c
  ifComplete s c rxcap tag <| withFid s fid rxcap tag fun i => do
    let f := s.fids i
    let rc ← removeCall f.isdir (hostPath s.root f.path srvPathmax)
    -- Tremove clunks even on error
    let s ← clunkFid s i
    match rc with
    | .error err => errnoFail s rxcap tag err
    | .ok _ => pure (s, p9oFinish (p9oHdr (wireOutInit rxcap) 123 tag))

def baseName (path : CStr) : CStr :=
  match strrchrSlash path with
  | some (_, after) => after
  | none => if path = [] then [slash] else path

def tstat : Handler := do
  let (fid, c) ← wireGetU32 c
  ifComplete s c rxcap tag <| withFid s fid rxcap tag fun i => do
    let f := s.fids i
    match ← host (HostCall.stat (hostPath s.root f.path srvPathmax)) with
    | .error err => errnoFail s rxcap tag err
    | .ok st =>
      let so := putStat (wireOutInit 512) (baseName f.path) st
      let o := wirePutU16 (p9oHdr (wireOutInit rxcap) 125 tag) so.bytes.length
      pure (s, p9oFinish (wirePutBytes o so.bytes))

def renamed (path newname : CStr) : CStr :=
  match strrchrSlash (snprintf srvPathmax path) with
  | some (before, _) => before ++ slash :: snprintf (srvPathmax - (before.length + 1)) newname
  | none => snprintf srvPathmax newname

/-- The name field of a `Twstat`'s stat record; it is parsed with a cursor of its own. -/
def wstatName : P9Prog CStr := do
  let (_, st) ← wireGetU16 (wireInInit c.mem (c.base + c.p) (c.len - c.p))
  let (_, st) ← wireGetU16 st
  let (_, st) ← wireGetU32 st
  let st := wireSkip st 13
  let (_, st) ← wireGetU32 st
  let (_, st) ← wireGetU32 st
  let (_, st) ← wireGetU32 st
  let (_, st) ← wireGetU64 st
  let (name, _) ← wireGetStr (some 256) st
  -- the buffer starts out empty, so a name past the message is no name
  pure (name.getD [])

/-- The name a `Twstat` renames to, empty when it renames nothing. -/
def newnameOf : CStr :=
  let st := wireSkip (wireSkip (wireInInit c.mem (c.base + c.p) (c.len - c.p)) 2) 2
  let st := wireSkip (wireSkip st 4) 13
  let st := wireSkip (wireSkip (wireSkip st 4) 4) 4
  ((wireSkip (wireSkip st 4) 4).str (some 256)).getD []

def twstat : Handler := do
  let (fid, c) ← wireGetU32 c
  let (_, c) ← wireGetU16 c
  ifComplete s c rxcap tag <| withFid s fid rxcap tag fun i => do
    let newname ← wstatName c
    let done := p9oFinish (p9oHdr (wireOutInit rxcap) 127 tag)
    if newname = [] then pure (s, done)
    else do
      let f := s.fids i
      let newrel := renamed f.path newname
      let oldp := hostPath s.root f.path srvPathmax
      match ← host (HostCall.rename oldp (hostPath s.root newrel srvPathmax)) with
      | .error err => errnoFail s rxcap tag err
      | .ok _ => pure (s.setPath i (snprintf srvPathmax newrel), done)

end Handlers

/-! ## The server -/

/-- A request: its bytes stand in memory from `base` on, and its length is a `uint32_t`. -/
structure Request where
  mem : Mem
  (base len : Nat)
  len_lt : len < 2 ^ 32

def Request.ofBytes (bytes : List UInt8) (h : bytes.length < 2 ^ 32) : Request where
  mem := fun i => bytes.getD i 0
  base := 0
  len := bytes.length
  len_lt := h

variable (req : Request)

def header : P9Prog (Nat × Nat × WireIn) := do
  let (_, c) ← wireGetU32 (wireInInit req.mem req.base req.len)
  let (type, c) ← wireGetU8 c
  let (tag, c) ← wireGetU16 c
  pure (type, tag, c)

def Request.type : Nat := (wireSkip (wireInInit req.mem req.base req.len) 4).low 1

def Request.tag : Nat := (wireSkip (wireSkip (wireInInit req.mem req.base req.len) 4) 1).low 2

def Request.body : WireIn := wireSkip (wireSkip (wireSkip (wireInInit req.mem req.base req.len) 4) 1) 2

def dispatch (rxcap type tag : Nat) : Handler :=
  match P9T.ofCode type with
  | some .version => tversion s c rxcap tag
  | some .attach => tattach s c rxcap tag
  | some .walk => twalk s c rxcap tag
  | some .open => topen s c rxcap tag
  | some .create => tcreate s c rxcap tag
  | some .read => tread s c rxcap tag
  | some .write => twrite s c rxcap tag
  | some .clunk => tclunk s c rxcap tag
  | some .remove => tremove s c rxcap tag
  | some .stat => tstat s c rxcap tag
  | some .wstat => twstat s c rxcap tag
  | none => refuse s rxcap tag "unsupported message"

def p9ServerHandle (rxcap : Nat) : Handler := do
  let (type, tag, c) ← header req
  ifComplete s c rxcap 0 (dispatch s c rxcap type tag)

def serve (op : Request × Nat) : P9Prog P9Server := do
  let (s, _) ← p9ServerHandle s op.1 op.2
  pure s

def p9ServerCreate (root : CStr) : P9Server where
  root := snprintf srvPathmax root
  fids := fun _ =>
    { used := false, isdir := false, fd := -1, path := [], dirbuf := none, dirlen := 0 }

def closeFids (s : P9Server) : List (Fin srvMaxfid) → P9Prog Unit
  | [] => pure ()
  | i :: is => do
      closeIf (0 ≤ (s.fids i).fd) (s.fids i).fd
      closeFids s is

def p9ServerDestroy : P9Prog Unit := closeFids s (finRange srvMaxfid)

/-- The `int` with the bits of a 32-bit word. -/
def asInt (x : Nat) : Int :=
  if u32 x < 2 ^ 31 then u32 x else u32 x - 2 ^ 32

/-- Where the four bytes of the frame length at `roff` stand; each index is a 32-bit sum. -/
def frameBytes (roff : Nat) : List Nat := (range 4).map fun i => req.base + u32 (roff + i)

def frameLen (roff : Nat) : Nat := lowValue ((frameBytes req roff).map req.mem)

theorem frameLen_lt (req : Request) (roff : Nat) : frameLen req roff < 2 ^ 32 := by
  have h := lowValue_lt ((frameBytes req roff).map req.mem)
  rw [length_map, frameBytes, length_map, length_range] at h
  exact h

def frame (roff : Nat) : Request where
  mem := req.mem
  base := req.base + roff
  len := frameLen req roff
  len_lt := frameLen_lt req roff

/-- `p9_server_handle_stream` from the frame at `roff` on, with the replies so far. -/
def streamLoop (req : Request) (rxcap : Nat) (s : P9Server) (roff : Nat) (hroff : roff ≤ req.len)
    (out : List UInt8) : Handler :=
  if req.len < u32 (roff + 4) then pure (s, out)
  else do
    loadEach (frameBytes req roff)
    if h : frameLen req roff < 7 ∨ req.len - roff < frameLen req roff then pure (s, out)
    else do
      let (s, r) ← p9ServerHandle s (frame req roff) (u32 (rxcap + 2 ^ 32 - out.length))
      -- no room for the reply: stop short
      if asInt r.length ≤ 0 then pure (s, out)
      else streamLoop req rxcap s (roff + frameLen req roff) (by omega) (out ++ r)
termination_by req.len - roff

def p9ServerHandleStream (rxcap : Nat) : Handler := streamLoop req rxcap s 0 (Nat.zero_le _) []

/-- A host on which every call succeeds: one mode for every file, empty directories, one descriptor
for every open. -/
def calmHost (mode : Nat) (_ : Unit) (e : Reading HostCall) : e.Ans HostCall.Ans × Unit :=
  (match e with
    | .load _ _ => ()
    | .host h =>
      match h with
      | .stat _ => .ok ⟨mode, 1, 0, 0, 0⟩
      | .open _ _ _ => .ok 3
      | .mkdir _ _ => .ok ()
      | .rmdir _ => .ok ()
      | .unlink _ => .ok ()
      | .rename _ _ => .ok ()
      | .opendir _ => .ok 3
      | .readdir _ => []
      | .fstatat _ _ => .error 2
      | .closedir _ => ()
      | .pread _ _ _ => .ok ⟨[], Nat.zero_le _⟩
      | .pwrite _ data _ => .ok data.length
      | .close _ => ()
      | .malloc _ => true
      | .realloc _ => true
      | .strerror _ => []
      | .indeterminate => [], ())

def dirMode : Nat := 0o040755
def fileMode : Nat := 0o100644

/-- `Tattach` of fid 0. -/
def attachZero : Request := Request.ofBytes (lowBytes 4 19 ++ [104] ++ replicate 14 0) (by decide)

end Skjegg.Fs
