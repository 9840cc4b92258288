import Skjegg.Lib.Memory
import Skjegg.Lib.Run

/-!
# The contents of a ramfs file

`ramfs.c` keeps a file's bytes in a buffer that grows by doubling; `fs.c` keeps the positions. The
file is meant to be a sparse array. A truncation only resets the size, and the new part of a buffer
is as the allocator returns it, so the bytes a write skips are whatever the buffer held.
-/

namespace Skjegg.Fs.Ramfs

open Skjegg.Lib Function

def intMax : Nat := 2 ^ 31 - 1
def fsMaxFds : Nat := 64
def fsFdBase : Nat := 3

inductive Errno
  | ebadf
  | emfile
  | einval
  | enospc
  | enomem
  deriving DecidableEq, Repr

/-! ## The node -/

/-- The fields of `struct rnode` that hold a file's contents. -/
structure Rnode where
  data : Mem
  (size cap : Nat)

def doubled (nc need : Nat) (h : 0 < nc) : Nat :=
  if nc < need then
    -- doubling would overflow a signed int
    if intMax / 2 < nc then need else doubled (nc * 2) need (by omega)
  else nc
termination_by need - nc

/-- `ensure_cap`; `fresh` is what `realloc` returns in the new part of the buffer, `none` when it
fails. -/
def ensureCap (f : Rnode) (need : Nat) (fresh : Option Mem) : Option Rnode :=
  if need ≤ f.cap then some f
  else
    match fresh with
    | none => none
    | some fresh =>
      let nc := if h : 0 < f.cap then doubled f.cap need h else doubled 64 need (by decide)
      some { f with data := fun i => if i < f.cap then f.data i else fresh i, cap := nc }

/-- `ram_read`: the bytes and the position after them. -/
def ramRead (f : Rnode) (n pos : Nat) : List UInt8 × Nat :=
  if f.size ≤ pos then ([], pos)
  else
    let n := min n (f.size - pos)
    (f.data.read pos n, pos + n)

/-- `ram_write`: the node and the position after the bytes. -/
def ramWrite (f : Rnode) (bytes : List UInt8) (pos : Nat) (fresh : Option Mem) :
    Except Errno (Rnode × Nat) :=
  if intMax < pos + bytes.length then .error .enospc
  else
    match ensureCap f (pos + bytes.length) fresh with
    | none => .error .enomem
    | some f =>
      let pos' := pos + bytes.length
      .ok ({ f with data := f.data.write pos bytes, size := max f.size pos' }, pos')

inductive Whence
  | set
  | cur
  | «end»
  deriving DecidableEq, Repr

/-- The `int64_t` with the bits of a sum. -/
def wrap64 (x : Int) : Int := (x + 2 ^ 63) % 2 ^ 64 - 2 ^ 63

def ramLseek (f : Rnode) (off : Int) (whence : Whence) (pos : Nat) : Except Errno Nat :=
  let np := match whence with
    | .set => wrap64 off
    | .cur => wrap64 (pos + off)
    | .end => wrap64 (f.size + off)
  if np < 0 then .error .einval else .ok np.toNat

/-! ## Descriptors -/

abbrev Slots := Fin fsMaxFds → Option Nat

structure FileState where
  node : Rnode
  slots : Slots

def fdAlloc (slots : Slots) : Option (Fin fsMaxFds) :=
  (List.finRange fsMaxFds).find? fun i => fsFdBase ≤ i.val ∧ slots i = none

def fdGet (slots : Slots) (fd : Nat) : Option (Fin fsMaxFds × Nat) :=
  if h : fd < fsMaxFds then (slots ⟨fd, h⟩).map fun pos => (⟨fd, h⟩, pos) else none

/-- The calls on one file.  An `open` names it with or without `O_TRUNC`, for reading only or not.  The count
of a read is not negative: `ram_read` hands it to `memcpy` as it is. -/
inductive FileOp
  | open (writable trunc : Bool)
  | write (fd : Nat) (bytes : List UInt8) (fresh : Option Mem)
  | lseek (fd : Nat) (off : Int) (whence : Whence)
  | read (fd n : Nat)
  | close (fd : Nat)

inductive FileResult
  | opened (fd : Fin fsMaxFds)
  | wrote (n : Nat)
  | at (pos : Nat)
  | got (bytes : List UInt8)
  | closed
  | failed (err : Errno)
  deriving DecidableEq

def truncates (writable trunc : Bool) : Bool := trunc && writable

def fileStep (s : FileState) : FileOp → FileState × FileResult
  | .open writable trunc =>
    let node := if truncates writable trunc then { s.node with size := 0 } else s.node
    -- the backend has truncated before a descriptor is looked for
    match fdAlloc s.slots with
    | none => ({ s with node := node }, .failed .emfile)
    | some i => (⟨node, update s.slots i (some 0)⟩, .opened i)
  | .write fd bytes fresh =>
    match fdGet s.slots fd with
    | none => (s, .failed .ebadf)
    | some (i, pos) =>
      match ramWrite s.node bytes pos fresh with
      | .error err => (s, .failed err)
      | .ok (node, pos') => (⟨node, update s.slots i (some pos')⟩, .wrote bytes.length)
  | .lseek fd off whence =>
    match fdGet s.slots fd with
    | none => (s, .failed .ebadf)
    | some (i, pos) =>
      match ramLseek s.node off whence pos with
      | .error err => (s, .failed err)
      | .ok pos' => ({ s with slots := update s.slots i (some pos') }, .at pos')
  | .read fd n =>
    match fdGet s.slots fd with
    | none => (s, .failed .ebadf)
    | some (i, pos) =>
      let (bytes, pos') := ramRead s.node n pos
      ({ s with slots := update s.slots i (some pos') }, .got bytes)
  | .close fd =>
    match fdGet s.slots fd with
    | none => (s, .failed .ebadf)
    | some (i, _) => ({ s with slots := update s.slots i none }, .closed)

/-! ## The sparse array -/

/-- What the file is for: at each position the byte last written there since the last truncation, or
zero, and the positions of the descriptors. -/
structure Sparse where
  size : Nat
  byte : Nat → UInt8
  slots : Slots

namespace Sparse

def written (a : Sparse) (pos : Nat) (bytes : List UInt8) : Nat → UInt8 := Mem.write a.byte pos bytes

def readAt (a : Sparse) (pos n : Nat) : List UInt8 := Mem.read a.byte pos (min n (a.size - pos))

/-- The array after a call that returned `r`: a failed call changes nothing, but a truncating open
has truncated. -/
def step (a : Sparse) (op : FileOp) (r : FileResult) : Sparse :=
  match op, r with
  | .open writable trunc, r =>
    let a := if truncates writable trunc then { a with size := 0, byte := fun _ => 0 } else a
    match r with
    | .opened i => { a with slots := update a.slots i (some 0) }
    | _ => a
  | .write fd bytes _, .wrote _ =>
    match fdGet a.slots fd with
    | none => a
    | some (i, pos) =>
      let pos' := pos + bytes.length
      ⟨max a.size pos', a.written pos bytes, update a.slots i (some pos')⟩
  | .lseek fd _ _, .at pos' =>
    match fdGet a.slots fd with
    | none => a
    | some (i, _) => { a with slots := update a.slots i (some pos') }
  | .read fd _, .got bytes =>
    match fdGet a.slots fd with
    | none => a
    | some (i, pos) => { a with slots := update a.slots i (some (pos + bytes.length)) }
  | .close fd, .closed =>
    match fdGet a.slots fd with
    | none => a
    | some (i, _) => { a with slots := update a.slots i none }
  | _, _ => a

end Sparse

/-- A read on an open descriptor returns what the sparse array holds at its position. -/
def ReadsBack (a : Sparse) (op : FileOp) (r : FileResult) : Prop :=
  match op with
  | .read fd n => ∀ i pos, fdGet a.slots fd = some (i, pos) → r = .got (a.readAt pos n)
  | _ => True

/-- The file together with the array it should be. -/
def watchedStep (s : FileState × Sparse) (op : FileOp) :
    Option ((FileState × Sparse) × FileResult) :=
  let (f, r) := fileStep s.1 op
  some ((f, s.2.step op r), r)

def newFile : FileState × Sparse := (⟨⟨fun _ => 0, 0, 0⟩, fun _ => none⟩, ⟨0, fun _ => 0, fun _ => none⟩)

/-! ## The buffer holds the array -/

/-- The buffer agrees with the array up to the size, and past the size nothing was written. -/
structure Holds (f : FileState) (a : Sparse) : Prop where
  slots_eq : f.slots = a.slots
  size_eq : f.node.size = a.size
  size_le : f.node.size ≤ f.node.cap
  data_eq : ∀ i < a.size, f.node.data i = a.byte i
  byte_eq : ∀ i, a.size ≤ i → a.byte i = 0

section

variable {f : FileState} {a : Sparse}

theorem newFile_holds : Holds newFile.1 newFile.2 :=
  ⟨rfl, rfl, le_rfl, fun _ hi => absurd hi (Nat.not_lt_zero _), fun _ _ => rfl⟩

theorem le_doubled {nc need : Nat} (h : 0 < nc) : need ≤ doubled nc need h := by
  fun_induction doubled nc _ h with
  | case1 => exact le_rfl
  | case2 _ _ _ _ ih => exact ih
  | case3 _ _ hge => exact not_lt.mp hge

theorem ensureCap_spec {node node' : Rnode} {need : Nat} {fresh : Option Mem}
    (h : ensureCap node need fresh = some node') :
    node'.size = node.size ∧ need ≤ node'.cap ∧ node.cap ≤ node'.cap ∧
      ∀ i < node.cap, node'.data i = node.data i := by
  unfold ensureCap at h
  split at h
  case isTrue hrm =>
    cases h
    exact ⟨rfl, hrm, le_rfl, fun _ _ => rfl⟩
  case isFalse hgr =>
    cases fresh with
    | none => cases h
    | some fresh =>
      cases h
      have hcap : need ≤ if h : 0 < node.cap then doubled node.cap need h
          else doubled 64 need (by decide) := by
        split
        · exact le_doubled _
        · exact le_doubled _
      exact ⟨rfl, hcap, le_trans (by omega) hcap, fun i hi => if_pos hi⟩

theorem ramWrite_holds (h : Holds f a) {bytes : List UInt8} {pos pos' : Nat} {fresh : Option Mem}
    {node : Rnode} (slots : Slots) (hpos : pos ≤ f.node.size)
    (hw : ramWrite f.node bytes pos fresh = .ok (node, pos')) :
    pos' = pos + bytes.length ∧ Holds ⟨node, slots⟩ ⟨max a.size pos', a.written pos bytes, slots⟩ := by
  unfold ramWrite at hw
  split at hw
  case isTrue => cases hw
  case isFalse =>
    cases hcap : ensureCap _ _ _ with
    | none =>
      rw [hcap] at hw
      cases hw
    | some grown =>
      rw [hcap] at hw
      cases hw
      obtain ⟨hsize, hnd, hle, hkp⟩ := ensureCap_spec hcap
      have hsz := h.size_eq
      have hszcap := h.size_le
      refine ⟨rfl, rfl, ?_, ?_, ?_, ?_⟩
      · show max grown.size _ = max a.size _
        rw [hsize, hsz]
      · show max grown.size (pos + bytes.length) ≤ grown.cap
        omega
      · -- a byte of the new file was written just now, or was in the file before
        intro i hi
        show grown.data.write pos _ i = Mem.write _ pos _ i
        by_cases hin : pos ≤ i ∧ i < pos + bytes.length
        · obtain ⟨j, rfl⟩ := Nat.exists_eq_add_of_le hin.1
          rw [Mem.write_inside (by omega), Mem.write_inside (by omega)]
        have hold : i < a.size := by
          have hi' : i < max a.size (pos + bytes.length) := hi
          omega
        rw [Mem.write_outside (by omega), Mem.write_outside (by omega), hkp i (by omega),
          h.data_eq i hold]
      · intro i hi
        have hi' : max _ _ ≤ i := hi
        show Mem.write a.byte pos bytes i = 0
        rw [Mem.write_outside (.inr (by omega)), h.byte_eq i (by omega)]

theorem ramRead_eq (h : Holds f a) (n pos : Nat) :
    ramRead f.node n pos = (a.readAt pos n, pos + (a.readAt pos n).length) := by
  unfold ramRead Sparse.readAt
  rw [h.size_eq, Mem.length_read]
  split
  case isTrue hend =>
    rw [Nat.sub_eq_zero_of_le hend, min_zero]
    rfl
  case isFalse hin =>
    refine Prod.ext ?_ rfl
    exact Mem.read_congr fun i _ hi => h.data_eq i (by omega)

/-- Every write starts inside the file or at its end. -/
def NoGap (f : FileState) : FileOp → Prop
  | .write fd _ _ => ∀ i pos, fdGet f.slots fd = some (i, pos) → pos ≤ f.node.size
  | _ => True

theorem Holds.withSlots (h : Holds f a) (slots : Slots) :
    Holds { f with slots := slots } { a with slots := slots } :=
  ⟨rfl, h.size_eq, h.size_le, h.data_eq, h.byte_eq⟩

theorem Holds.truncated (h : Holds f a) (writable trunc : Bool) :
    Holds { f with node := if truncates writable trunc then { f.node with size := 0 } else f.node }
      (if truncates writable trunc then { a with size := 0, byte := fun _ => 0 } else a) := by
  split
  · exact ⟨h.slots_eq, rfl, Nat.zero_le _, fun _ hi => absurd hi (Nat.not_lt_zero _), fun _ _ => rfl⟩
  · exact h

theorem fileStep_holds (h : Holds f a) {op : FileOp} (hgap : NoGap f op) :
    ReadsBack a op (fileStep f op).2 ∧ Holds (fileStep f op).1 (a.step op (fileStep f op).2) := by
  cases op with
  | «open» writable trunc =>
    refine ⟨trivial, ?_⟩
    have htrunc := h.truncated writable trunc
    simp only [fileStep]
    cases hfd : fdAlloc _ with
    | none => exact htrunc
    | some i =>
      have hsl := htrunc.withSlots (update f.slots i (some 0))
      have hsm : (if truncates writable trunc then { a with size := 0, byte := fun _ => 0 } else a :
          Sparse).slots = f.slots := by
        split <;> exact h.slots_eq.symm
      show Holds _ { (if truncates writable trunc then _ else _ : Sparse) with slots := _ }
      rw [hsm]
      exact hsl
  | write fd bytes fresh =>
    refine ⟨trivial, ?_⟩
    simp only [fileStep]
    cases hfd : fdGet _ fd with
    | none => exact h
    | some ip =>
      obtain ⟨i, pos⟩ := ip
      cases hw : ramWrite f.node bytes pos fresh with
      | error err =>
        simp only [hw]
        exact h
      | ok res =>
        obtain ⟨node, pos'⟩ := res
        have hwr := ramWrite_holds h (update f.slots i (some pos')) (hgap i pos hfd) hw
        simp only [hw, Sparse.step, ← h.slots_eq, hfd, ← hwr.1]
        exact hwr.2
  | lseek fd off whence =>
    refine ⟨trivial, ?_⟩
    simp only [fileStep]
    cases hfd : fdGet _ fd with
    | none => exact h
    | some ip =>
      obtain ⟨i, pos⟩ := ip
      cases hsk : ramLseek f.node off whence pos with
      | error err =>
        simp only [hsk]
        exact h
      | ok pos' =>
        simp only [hsk, Sparse.step, ← h.slots_eq, hfd]
        exact h.withSlots _
  | read fd n =>
    simp only [fileStep]
    cases hfd : fdGet _ fd with
    | none =>
      refine ⟨fun i pos hopen => ?_, h⟩
      rw [← h.slots_eq, hfd] at hopen
      cases hopen
    | some ip =>
      simp only [ramRead_eq h]
      constructor
      · intro i' pos' hopen
        rw [← h.slots_eq, hfd] at hopen
        cases hopen
        rfl
      · simp only [Sparse.step, ← h.slots_eq, hfd]
        exact h.withSlots _
  | close fd =>
    refine ⟨trivial, ?_⟩
    simp only [fileStep]
    cases hfd : fdGet _ fd with
    | none => exact h
    | some ip =>
      simp only [Sparse.step, ← h.slots_eq, hfd]
      exact h.withSlots _

end

/-! ## Runs -/

/-- As long as every write starts inside the file or at its end, every read of a run returns the bytes
last written since the last truncation. -/
theorem fileRun_readsBack (ops : List FileOp)
    (hops : OpsMeet watchedStep (fun s op => NoGap s.1 op) newFile ops) :
    RunAll watchedStep (fun s op _ r => ReadsBack s.2 op r) newFile ops := by
  have hst : ∀ s op, Holds s.1 s.2 → NoGap s.1 op →
      ∃ s' r, watchedStep s op = some (s', r) ∧ ReadsBack s.2 op r ∧ Holds s'.1 s'.2 := by
    intro s op hs hgap
    have hop := fileStep_holds hs hgap
    exact ⟨_, _, rfl, hop.1, hop.2⟩
  exact runAll_of_inv hst newFile_holds hops

/-- Write two bytes, and read them back on a second descriptor. -/
def writeThenRead : List FileOp :=
  [.open true false, .write 3 [65, 66] (some fun _ => 0), .open false false, .read 4 2]

theorem fileRun_readsBack_two :
    RunAll watchedStep (fun s op _ r => ReadsBack s.2 op r) newFile writeThenRead := by
  apply fileRun_readsBack
  refine ⟨trivial, fun s r hs => ⟨?_, fun _ _ _ => ⟨trivial, fun _ _ _ => ⟨trivial, fun _ _ _ =>
    trivial⟩⟩⟩⟩
  intro i pos hfd
  cases hs
  have hz : fdGet (fileStep newFile.1 (.open true false)).1.slots 3 = some (⟨3, by decide⟩, 0) := by
    decide +kernel
  cases hz.symm.trans hfd
  exact Nat.zero_le _

def staleOps : List FileOp :=
  [.open true false, .write 3 [65, 66] (some fun _ => 0), .open true true, .lseek 4 1 .set,
    .write 4 [67] none, .lseek 4 0 .set]

/-- The byte the last write skipped reads as what stood there before the truncation. -/
theorem staleByte_reappears :
    ¬ ∀ ops, RunAll watchedStep (fun s op _ r => ReadsBack s.2 op r) newFile ops := by
  intro hall
  have hfinal : (runOps watchedStep newFile staleOps).map (fun p =>
      (fdGet p.1.2.slots 4, (fileStep p.1.1 (.read 4 2)).2, p.1.2.readAt 0 2)) =
      some (some (⟨4, by decide⟩, 0), .got [65, 67], [0, 67]) := by
    decide +kernel
  obtain ⟨⟨s, rs⟩, hos, hs⟩ := Option.map_eq_some_iff.mp hfinal
  obtain ⟨s', r, hst, hrds⟩ := (hall (staleOps ++ [.read 4 2])).last hos
  simp only [Prod.mk.injEq] at hs
  have hr : (fileStep s.1 (.read 4 2)).2 = r := congrArg Prod.snd (Option.some.inj hst)
  have hgot := hrds ⟨4, by decide⟩ 0 hs.1
  rw [← hr, hs.2.1, hs.2.2] at hgot
  revert hgot
  decide

end Skjegg.Fs.Ramfs
