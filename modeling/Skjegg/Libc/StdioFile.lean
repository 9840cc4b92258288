import Skjegg.Lib.OpenFile
import Skjegg.Lib.Run
import Skjegg.Libc.Stdio

/-!
# Streams on files

A stream that `fopen` has opened, against the same file with one position and no buffer. The kernel
makes no errors but may transfer less than it is asked to. `pos` counts bytes to be written and bytes
read, so what the calls do is right only when it is clear which of the two it counts.
-/

namespace Skjegg.Libc

open Lib (OpenFile)
open List Option

/-! ## The file below the stream -/

/-- A file as the kernel has it; `shorts` says how much of each transfer is done. -/
structure Disk where
  file : OpenFile
  shorts : Nat → Nat
  calls : Nat

variable (d : Disk)

/-- How many of `len` bytes the next transfer takes: at least one. -/
def Disk.count (len : Nat) : Nat := min (max 1 (d.shorts d.calls)) len

def Disk.write (bytes : List UInt8) : Int × Disk :=
  (d.count bytes.length,
    { d with file := d.file.write (bytes.take (d.count bytes.length)), calls := d.calls + 1 })

def Disk.read (n : Nat) : Int × List UInt8 × Disk :=
  let bytes := d.file.ahead.take (d.count (min n d.file.ahead.length))
  (bytes.length, bytes, { d with file := d.file.skip bytes.length, calls := d.calls + 1 })

def seekTarget (o : OpenFile) (offset : Int) : Whence → Int
  | .set => offset
  | .cur => o.pos + offset
  | .ofEnd => o.data.length + offset

def Disk.lseek (offset : Int) (whence : Whence) : Int × Disk :=
  let target := seekTarget d.file offset whence
  if target < 0 then (-1, d) else (target, { d with file := d.file.seekTo target.toNat })

def diskSys : Sys Disk where
  write := Disk.write
  writev d a b := d.write (a ++ b)
  read := Disk.read
  lseek := Disk.lseek
  close d := (0, d)

/-! ## The file without a stream -/

inductive FileOp
  | fgetc
  | fread (size nmemb : Nat)
  | fputc (c : Int)
  | fwrite (size nmemb : Nat) (block : List UInt8) (h : block.length = size * nmemb)
  | fseek (offset : Int) (whence : Whence)
  | ftell
  | fflush
  | fclose

/-- A file with one position, opened in some of the two directions. -/
structure Plain where
  file : OpenFile
  (canRead canWrite : Bool)

abbrev Answer := Int × List UInt8

def nextByte (o : OpenFile) : Int × OpenFile :=
  match o.ahead with
  | [] => (eof, o)
  | b :: _ => (b.toNat, o.skip 1)

def plainStep (a : Plain) : FileOp → Plain × Answer
  | .fgetc =>
    if !a.canRead then (a, eof, [])
    else ({ a with file := (nextByte a.file).2 }, (nextByte a.file).1, [])
  | .fread size nmemb =>
    if !a.canRead || size == 0 || nmemb == 0 then (a, 0, [])
    else
      let bytes := a.file.ahead.take (size * nmemb)
      ({ a with file := a.file.skip bytes.length }, (bytes.length / size : Nat), bytes)
  | .fputc c =>
    if !a.canWrite then (a, eof, [])
    else ({ a with file := a.file.write [byteOf c] }, (byteOf c).toNat, [])
  | .fwrite size nmemb block _ =>
    if !a.canWrite || size == 0 || nmemb == 0 then (a, 0, [])
    else ({ a with file := a.file.write block }, nmemb, [])
  | .fseek offset whence =>
    let target := seekTarget a.file offset whence
    if target < 0 then (a, -1, [])
    else ({ a with file := a.file.seekTo target.toNat }, 0, [])
  | .ftell => (a, a.file.pos, [])
  | .fflush => (a, 0, [])
  | .fclose => (a, 0, [])

/-! ## The stream -/

/-- What the last transfer on the stream was, since it was opened or a seek succeeded. -/
inductive Phase
  | fresh
  | reading
  | writing
  | closed
  deriving DecidableEq, Repr

structure Stream where
  file : File
  disk : Disk
  phase : Phase

def Phase.after (phase next : Phase) (can : Bool) : Phase :=
  if can then next else phase

def fileStep (vectored : Bool) (s : Stream) : FileOp → Option (Stream × Answer)
  | .fgetc => do
      let (c, f, d) ← fgetc diskSys s.file s.disk
      some (⟨f, d, s.phase.after .reading s.file.canRead⟩, c, [])
  | .fread size nmemb => do
      let (n, bytes, f, d) ← fread diskSys size nmemb s.file s.disk
      some (⟨f, d, s.phase.after .reading s.file.canRead⟩, n, bytes)
  | .fputc c => do
      let (r, f, d) ← fputc diskSys c s.file s.disk
      some (⟨f, d, s.phase.after .writing s.file.canWrite⟩, r, [])
  | .fwrite size nmemb block _ => do
      let (n, f, d) ← fwrite diskSys vectored block size nmemb s.file s.disk
      some (⟨f, d, s.phase.after .writing s.file.canWrite⟩, n, [])
  | .fseek offset whence =>
    let (r, f, d) := fseek diskSys offset whence s.file s.disk
    some (⟨f, d, if r = 0 then .fresh else s.phase⟩, r, [])
  | .ftell =>
    let (r, f, d) := ftell diskSys s.file s.disk
    some (⟨f, d, s.phase⟩, r, [])
  | .fflush =>
    let (r, f, d) := fflush diskSys s.file s.disk
    some (⟨f, d, s.phase⟩, r, [])
  | .fclose =>
    let (r, d) := fclose diskSys s.file s.disk
    some (⟨s.file, d, .closed⟩, r, [])

variable (m : OpenMode) (content : List UInt8)

def OpenMode.file : OpenFile :=
  { data := if m.trunc then [] else content, pos := 0, append := m.append }

def Stream.opened (shorts : Nat → Nat) : Stream where
  file := m.stream
  disk := { file := m.file content, shorts, calls := 0 }
  phase := .fresh

def Plain.opened : Plain where
  file := m.file content
  canRead := m.canRead
  canWrite := m.canWrite

/-- What C asks of the caller: a seek between reading and writing, and no call on a closed stream.
-/
def FileOp.Permitted (s : Stream) : FileOp → Prop
  | .fgetc | .fread _ _ => s.phase ≠ .closed ∧ (s.file.canRead = true → s.phase ≠ .writing)
  | .fputc _ | .fwrite _ _ _ _ => s.phase ≠ .closed ∧ (s.file.canWrite = true → s.phase ≠ .reading)
  | _ => s.phase ≠ .closed

/-- What the implementation asks besides: where `pos` counts bytes read, nothing takes it for bytes
to be written. -/
def FileOp.Spared (s : Stream) : FileOp → Prop
  | .fgetc | .fread _ _ | .fputc _ => True
  | .fwrite size nmemb _ _ => bufsiz - s.file.pos < size * nmemb → size * nmemb < 2 ^ 31
  | .fflush | .fclose => s.phase = .reading → s.file.canWrite = true → s.file.pos = 0
  | .fseek offset whence =>
    s.phase = .reading → (s.file.canWrite = true → s.file.pos = 0) ∧
      (s.file.pos = s.file.len ∨ whence ≠ .cur ∧ 0 ≤ seekTarget s.disk.file offset whence)
  | .ftell =>
    (s.phase = .reading → s.file.canWrite = true → s.file.len = 0) ∧
      (s.phase = .writing → s.file.pos = 0 ∨ s.disk.file.pos = s.disk.file.writePos)

/-! ## Writing -/

theorem Disk.count_pos {len : Nat} (h : 0 < len) : 0 < d.count len := by
  rw [Disk.count]
  omega

theorem Disk.count_le (len : Nat) : d.count len ≤ len := min_le_right _ _

theorem writeAll_disk (bytes : List UInt8) (d : Disk) :
    ∃ d', writeAll diskSys bytes d = (true, d') ∧ d'.file = d.file.write bytes := by
  induction bytes, d using writeAll.induct diskSys with
  | case1 d => exact ⟨d, by rw [writeAll]; rfl, by rw [OpenFile.write_nil]⟩
  | case2 bytes d hne n d' hwr hn =>
    have hcnt : (d.count bytes.length : Int) = n := congrArg Prod.fst hwr
    have hpos := d.count_pos (length_pos_of_ne_nil hne)
    omega
  | case3 bytes d hne n d' hwr hn ih =>
    obtain ⟨d'', hrs, hfi⟩ := ih
    have hcnt : (d.count bytes.length : Int) = n := congrArg Prod.fst hwr
    have hd' : d'.file = d.file.write (bytes.take n.toNat) := by
      have hdisk : (d.write bytes).2 = d' := congrArg _ hwr
      rw [← hcnt, Int.toNat_natCast, ← hdisk]
      rfl
    refine ⟨d'', ?_, ?_⟩
    · rw [writeAll, if_neg hne]
      simp [hwr, if_neg hn, hrs]
    · rw [hfi, hd', OpenFile.write_write, take_append_drop]

structure Writes (f : File) (d : Disk) (o : OpenFile) : Prop where
  writable : f.canWrite = true
  mode : f.mode = .full
  len : f.len = 0
  room : f.pos < bufsiz
  file : d.file.write f.pending = o

variable {f : File} {d : Disk} {o : OpenFile} {nmemb size : Nat} {s : Stream} {a : Plain}
  {whence : Whence} {vectored : Bool}

theorem File.pending_zero (h : f.pos = 0) : f.pending = [] := by
  rw [File.pending, h, take_zero]

theorem fflush_disk (hwr : f.canWrite = true) (d : Disk) :
    ∃ d', fflush diskSys f d = (0, { f with pos := 0 }, d') ∧ d'.file = d.file.write f.pending := by
  by_cases hpos : f.pos = 0
  · refine ⟨d, ?_, by rw [File.pending_zero hpos, OpenFile.write_nil]⟩
    rw [fflush, if_pos (by simp [hpos])]
    cases f
    simp_all
  · obtain ⟨d', hall, hfi⟩ := writeAll_disk _ d
    refine ⟨d', ?_, hfi⟩
    rw [fflush, if_neg (by simp [hpos, hwr])]
    simp [hall]

theorem fputc_disk (h : Writes f d o) (c : Int) :
    ∃ f' d', fputc diskSys c f d = some (((byteOf c).toNat : Int), f', d') ∧
      f'.canRead = f.canRead ∧ Writes f' d' (o.write [byteOf c]) := by
  have hrm := h.room
  obtain ⟨f1, hsto, hpen, hpos, hcan, hmd, hrd, hlen⟩ := f.store_spec h.room _
  have hfi : d.file.write f1.pending = o.write [byteOf c] := by
    rw [hpen, ← OpenFile.write_write, h.file]
  simp only [fputc, h.writable, hsto, bind_eq_bind, bind_some]
  by_cases hfl : f1.flushes c = true
  · obtain ⟨d', hff, hd'⟩ := fflush_disk (hcan.trans h.writable) d
    rw [if_pos hfl, hff]
    refine ⟨_, d', rfl, hrd, hcan.trans h.writable, hmd.trans h.mode, hlen.trans h.len,
      Nat.succ_pos _, ?_⟩
    rw [hd', hfi]
    exact OpenFile.write_nil _
  · rw [if_neg hfl]
    refine ⟨f1, d, rfl, hrd, hcan.trans h.writable, hmd.trans h.mode, hlen.trans h.len, ?_, hfi⟩
    have hne : f1.pos ≠ bufsiz := by
      intro heq
      simp [File.flushes, heq] at hfl
    omega

theorem putEach_disk (bytes : List UInt8) (h : Writes f d o) :
    ∃ f' d', putEach diskSys bytes f d = some (bytes.length, f', d') ∧ f'.canRead = f.canRead ∧
      Writes f' d' (o.write bytes) := by
  induction bytes generalizing f d o with
  | nil => exact ⟨f, d, rfl, rfl, by rwa [OpenFile.write_nil]⟩
  | cons b bytes ih =>
    obtain ⟨f1, d1, hput, hrd, hwrs⟩ := fputc_disk h _
    rw [byteOf_toNat] at hput hwrs
    obtain ⟨f2, d2, hrs, hread2, hwrites2⟩ := ih hwrs
    rw [OpenFile.write_write] at hwrites2
    refine ⟨f2, d2, ?_, hread2.trans hrd, hwrites2⟩
    have hne : (b.toNat : Int) ≠ eof := by
      rw [eof]
      omega
    simp [putEach, hput, if_neg hne, hrs]

theorem writeBoth_disk (f : File) (first second : List UInt8) (d : Disk) :
    ∃ d', writeBoth diskSys f first second d = (true, { f with pos := 0 }, d') ∧
      d'.file = d.file.write (first ++ second) := by
  obtain ⟨d1, hfst, hfile1⟩ := writeAll_disk first d
  obtain ⟨d2, hsnd, hfile2⟩ := writeAll_disk second d1
  refine ⟨d2, ?_, ?_⟩
  · simp [writeBoth, hfst, hsnd]
  · rw [hfile2, hfile1, OpenFile.write_write]

theorem flushWithBlock_disk (hpos : f.pos ≤ bufsiz) (vectored : Bool) (block : List UInt8) (d : Disk) :
    ∃ d', flushWithBlock diskSys vectored f block block.length d = (true, { f with pos := 0 }, d') ∧
      d'.file = d.file.write (f.pending ++ block) := by
  cases vectored with
  | false =>
    simp only [flushWithBlock, Int.toNat_natCast, take_length]
    exact writeBoth_disk f _ _ d
  | true =>
    have hle := d.count_le (f.pending ++ block).length
    have hca : diskSys.writev d f.pending block =
        ((d.count (f.pending ++ block).length : Int), (d.write (f.pending ++ block)).2) := rfl
    rcases flushWithBlock_writev hpos hca hle with ⟨hall, hfl⟩ | ⟨hneg, -⟩ |
      ⟨first, second, hlf, hfl⟩
    · refine ⟨_, hfl, ?_⟩
      show d.file.write _ = _
      rw [take_of_length_le (by omega)]
    · omega
    · obtain ⟨d2, hbt, hd2⟩ := writeBoth_disk f _ _ (d.write _).2
      refine ⟨d2, hfl.trans hbt, ?_⟩
      rw [hd2, hlf, Int.toNat_natCast]
      show (d.file.write _).write _ = _
      rw [OpenFile.write_write, take_append_drop]

theorem fwrite_disk (h : Writes f d o) (vectored : Bool) {block : List UInt8}
    (hblk : block.length = size * nmemb) (hsz : 0 < size) (hnmemb : 0 < nmemb)
    (hsm : bufsiz - f.pos < size * nmemb → size * nmemb < 2 ^ 31) :
    ∃ f' d', fwrite diskSys vectored block size nmemb f d = some (nmemb, f', d') ∧
      f'.canRead = f.canRead ∧ Writes f' d' (o.write block) := by
  have hz : ¬ (size = 0 ∨ nmemb = 0) := by omega
  by_cases hpt : bufsiz - f.pos < size * nmemb
  · have hcd : f.canWrite = true ∧ f.mode = .full ∧ bufsiz - f.pos < size * nmemb :=
      ⟨h.writable, h.mode, hpt⟩
    obtain ⟨d', hfl, hd'⟩ := flushWithBlock_disk h.room.le _ _ d
    refine ⟨{ f with pos := 0 }, d', ?_, rfl, h.writable, h.mode, h.len, Nat.succ_pos _, ?_⟩
    · rw [fwrite, if_neg hz, if_pos hcd, toInt_of_lt (hsm hpt), ← hblk, hfl]
      rfl
    · rw [hd', ← OpenFile.write_write, h.file]
      exact OpenFile.write_nil _
  · have hcd : ¬ (f.canWrite = true ∧ f.mode = .full ∧ bufsiz - f.pos < size * nmemb) :=
      fun hc => hpt hc.2.2
    obtain ⟨f', d', hput, hrd, hwrs⟩ := putEach_disk _ h
    refine ⟨f', d', ?_, hrd, hwrs⟩
    simp only [fwrite, if_neg hz, if_neg hcd]
    rw [← hblk, take_length, hput, hblk]
    simp [Nat.mul_div_cancel_left _ hsz]

/-! ## Reading -/

/-- The caller has come to the position of `o`, and the buffer from `pos` on holds the next bytes of
the file. -/
structure Reads (f : File) (d : Disk) (o : OpenFile) : Prop where
  readable : f.canRead = true
  le : f.pos ≤ f.len
  fits : f.len ≤ bufsiz
  file : d.file = o.skip (f.len - f.pos)
  held : (f.buf.toList.take f.len).drop f.pos = o.ahead.take (f.len - f.pos)

theorem Reads.empty (hrd : f.canRead = true) (hpos : f.pos = 0)
    (hlen : f.len = 0) : Reads f d d.file where
  readable := hrd
  le := by omega
  fits := by omega
  file := by rw [hpos, hlen]; rfl
  held := by rw [hpos, hlen]; rfl

theorem Reads.file_eq (h : Reads f d o) (hpos : f.pos = f.len) : d.file = o := by
  rw [h.file, hpos, Nat.sub_self, OpenFile.skip_zero]

theorem File.toList_fill (f : File) {bytes : List UInt8} (h : bytes.length ≤ bufsiz) :
    (f.fill bytes).toList.take bytes.length = bytes := by
  apply ext_getElem
  · rw [length_take, Vector.length_toList]
    omega
  · intro i hi hi'
    simp [File.fill, Vector.toList_ofFn, hi']

theorem Reads.take (h : Reads f d o) (hlt : f.pos < f.len) :
    ∃ b rest, o.ahead = b :: rest ∧ f.take = some ((b.toNat : Int), { f with pos := f.pos + 1 }) ∧
      Reads { f with pos := f.pos + 1 } d (o.skip 1) := by
  have hft := h.fits
  have hpos : f.pos < bufsiz := by omega
  have hsz : f.pos < (f.buf.toList.take f.len).length := by
    rw [length_take, Vector.length_toList]
    omega
  have hhl := h.held
  rw [drop_eq_getElem_cons hsz, show f.len - f.pos = (f.len - (f.pos + 1)) + 1 by omega] at hhl
  cases hah : o.ahead with
  | nil =>
    rw [hah] at hhl
    cases hhl
  | cons b rest =>
    rw [hah, take_succ_cons, cons.injEq] at hhl
    refine ⟨b, rest, rfl, ?_, h.readable, Nat.succ_le_of_lt hlt, h.fits, ?_, ?_⟩
    · have hb : f.buf.get ⟨f.pos, hpos⟩ = b := by
        rw [← hhl.1, getElem_take]
        rfl
      rw [File.take, dif_pos hpos, hb]
    · rw [OpenFile.skip_skip, h.file]
      congr 1
      show f.len - f.pos = 1 + (f.len - (f.pos + 1))
      omega
    · rw [OpenFile.ahead_skip, hah]
      exact hhl.2

theorem refill_disk (h : Reads f d o) (hus : f.pos = f.len) :
    ∃ r f' d', refill diskSys f d = (r, f', d') ∧ f'.canWrite = f.canWrite ∧ f'.mode = f.mode ∧
      Reads f' d' o ∧ (r = eof ∧ o.ahead = [] ∨ r = 0 ∧ f'.pos < f'.len) := by
  have hfi := h.file_eq hus
  have hrd : diskSys.read d bufsiz = d.read bufsiz := rfl
  have hlength : (o.ahead.take (d.count (min bufsiz o.ahead.length))).length =
      d.count (min bufsiz o.ahead.length) := by
    have := d.count_le (min bufsiz o.ahead.length)
    rw [length_take]
    omega
  simp only [refill, hrd, Disk.read, hfi, hlength, Int.toNat_natCast]
  by_cases hend : o.ahead = []
  · have hcnt : d.count (min bufsiz o.ahead.length) = 0 := by
      rw [hend]
      exact Nat.eq_zero_of_le_zero (d.count_le 0)
    simp only [hcnt, Nat.cast_zero, le_refl, if_true]
    refine ⟨eof, _, _, rfl, rfl, rfl, ?_, .inl ⟨rfl, hend⟩⟩
    exact ⟨h.readable, le_rfl, Nat.zero_le _, rfl, rfl⟩
  have hbs := length_pos_of_ne_nil hend
  have hso : 0 < min bufsiz o.ahead.length := by
    rw [bufsiz]
    omega
  have hpos := d.count_pos hso
  have hle := d.count_le (min bufsiz o.ahead.length)
  generalize d.count _ = n at hlength hpos hle
  rw [if_neg (by omega)]
  refine ⟨0, _, _, rfl, rfl, rfl, ?_, .inr ⟨rfl, hpos⟩⟩
  have hft : (o.ahead.take n).length ≤ bufsiz := by omega
  have hfill := f.toList_fill hft
  rw [hlength] at hfill
  exact ⟨h.readable, Nat.zero_le _, by show n ≤ bufsiz; omega, rfl, hfill⟩

theorem fgetc_disk (h : Reads f d o) :
    ∃ f' d', fgetc diskSys f d = some ((nextByte o).1, f', d') ∧ f'.canWrite = f.canWrite ∧
      f'.mode = f.mode ∧ Reads f' d' (nextByte o).2 := by
  by_cases hlt : f.pos < f.len
  · obtain ⟨b, rest, hah, hta, hrds⟩ := h.take hlt
    refine ⟨{ f with pos := f.pos + 1 }, d, ?_, rfl, rfl, ?_⟩
    · simp [fgetc, h.readable, if_pos hlt, hta, nextByte, hah]
    · rw [nextByte, hah]
      exact hrds
  have hus : f.pos = f.len := by
    have := h.le
    omega
  obtain ⟨r, f', d', hrefill, hcan, hmd, hrds, hcs⟩ := refill_disk h hus
  simp only [fgetc, h.readable, Bool.not_true, Bool.false_eq_true, if_false, if_neg hlt, hrefill]
  rcases hcs with ⟨rfl, hend⟩ | ⟨rfl, hso⟩
  · rw [if_pos rfl, nextByte, hend]
    exact ⟨f', d', rfl, hcan, hmd, hrds⟩
  obtain ⟨b, rest, hah, hta, hrds'⟩ := hrds.take hso
  rw [if_neg (by decide), nextByte, hah]
  refine ⟨{ f' with pos := f'.pos + 1 }, d', ?_, hcan, hmd, hrds'⟩
  simp [hta]

theorem getEach_disk (n : Nat) (h : Reads f d o) :
    ∃ f' d', getEach diskSys n f d = some (o.ahead.take n, f', d') ∧ f'.canWrite = f.canWrite ∧
      f'.mode = f.mode ∧ Reads f' d' (o.skip (o.ahead.take n).length) := by
  induction n generalizing f d o with
  | zero => exact ⟨f, d, rfl, rfl, rfl, h⟩
  | succ n ih =>
    obtain ⟨f1, d1, hget, hcan, hmd, hrds⟩ := fgetc_disk h
    rw [nextByte] at hget hrds
    cases hah : o.ahead with
    | nil =>
      rw [hah] at hget hrds
      refine ⟨f1, d1, ?_, hcan, hmd, hrds⟩
      simp [getEach, hget]
    | cons b rest =>
      rw [hah] at hget hrds
      obtain ⟨f2, d2, hrs, hcan2, hmode2, hreads2⟩ := ih hrds
      have htl : (o.skip 1).ahead = rest := by
        rw [OpenFile.ahead_skip, hah]
        rfl
      rw [htl] at hrs hreads2
      have hne : (b.toNat : Int) ≠ eof := by
        rw [eof]
        omega
      refine ⟨f2, d2, ?_, hcan2.trans hcan, hmode2.trans hmd, ?_⟩
      · simp [getEach, hget, hrs, if_neg hne, byteOf_toNat]
      · rw [take_succ_cons, length_cons, add_comm, ← OpenFile.skip_skip]
        exact hreads2

/-! ## The stream follows the file -/

/-- How the stream stands to the file it should be, by what was done last. -/
def Stream.Stands (s : Stream) (o : OpenFile) : Phase → Prop
  | .fresh => s.file.pos = 0 ∧ s.file.len = 0 ∧ s.disk.file = o
  | .reading => Reads s.file s.disk o
  | .writing => Writes s.file s.disk o
  | .closed => s.disk.file.data = o.data

structure Follows (s : Stream) (a : Plain) : Prop where
  canRead : s.file.canRead = a.canRead
  canWrite : s.file.canWrite = a.canWrite
  mode : s.file.mode = .full
  stands : s.Stands a.file s.phase

theorem Follows.reads (h : Follows s a) (hrd : s.file.canRead = true)
    (hcl : s.phase ≠ .closed) (hwrg : s.phase ≠ .writing) : Reads s.file s.disk a.file := by
  obtain ⟨f, d, phase⟩ := s
  cases phase with
  | fresh =>
    obtain ⟨hpos, hlen, hfi⟩ := h.stands
    rw [← hfi]
    exact .empty hrd hpos hlen
  | reading => exact h.stands
  | writing => exact absurd rfl hwrg
  | closed => exact absurd rfl hcl

theorem Follows.writes (h : Follows s a) (hwr : s.file.canWrite = true)
    (hcl : s.phase ≠ .closed) (hrdg : s.phase ≠ .reading) : Writes s.file s.disk a.file := by
  obtain ⟨f, d, phase⟩ := s
  cases phase with
  | fresh =>
    obtain ⟨hpos, hlen, hfi⟩ := h.stands
    refine ⟨hwr, h.mode, hlen, ?_, ?_⟩
    · show f.pos < bufsiz
      rw [hpos]
      exact Nat.succ_pos _
    · show d.file.write f.pending = a.file
      rw [File.pending_zero hpos, OpenFile.write_nil]
      exact hfi
  | writing => exact h.stands
  | reading => exact absurd rfl hrdg
  | closed => exact absurd rfl hcl

theorem Follows.data_eq (h : Follows s a) (hwrg : s.phase ≠ .writing) :
    s.disk.file.data = a.file.data := by
  obtain ⟨f, d, phase⟩ := s
  cases phase with
  | fresh =>
    obtain ⟨-, -, hfi⟩ := h.stands
    exact congrArg _ hfi
  | reading =>
    have hrds : Reads f d a.file := h.stands
    show d.file.data = a.file.data
    rw [hrds.file]
    rfl
  | writing => exact absurd rfl hwrg
  | closed => exact h.stands

theorem Follows.flush (h : Follows s a) (hcl : s.phase ≠ .closed)
    (hsp : s.phase = .reading → s.file.canWrite = true → s.file.pos = 0) :
    ∃ f d, fflush diskSys s.file s.disk = (0, f, d) ∧ Follows ⟨f, d, s.phase⟩ a ∧
      (s.phase ≠ .reading → d.file = a.file ∧ f.pos = 0 ∧ f.len = 0) ∧
      (s.phase = .reading → f = s.file ∧ d = s.disk) := by
  by_cases hid : s.file.canWrite = false ∨ s.file.pos = 0
  · -- nothing is written
    have hno : fflush diskSys s.file s.disk = (0, s.file, s.disk) := by
      rw [fflush, if_pos]
      rcases hid with hw | hp
      · simp [hw]
      · simp [hp]
    refine ⟨s.file, s.disk, hno, h, fun hrdg => ?_, fun _ => ⟨rfl, rfl⟩⟩
    obtain ⟨f, d, phase⟩ := s
    cases phase with
    | fresh =>
      obtain ⟨hpos, hlen, hfi⟩ := h.stands
      exact ⟨hfi, hpos, hlen⟩
    | writing =>
      have hwrs : Writes f d a.file := h.stands
      have hpos : f.pos = 0 := by
        rcases hid with hw | hp
        · exact absurd hwrs.writable (by simp [show f.canWrite = false from hw])
        · exact hp
      have hfi := hwrs.file
      rw [File.pending_zero hpos, OpenFile.write_nil] at hfi
      exact ⟨hfi, hpos, hwrs.len⟩
    | reading => exact absurd rfl hrdg
    | closed => exact absurd rfl hcl
  · rw [not_or, Bool.not_eq_false] at hid
    have hrdg : s.phase ≠ .reading := fun heq => hid.2 (hsp heq hid.1)
    have hwrs := h.writes hid.1 hcl hrdg
    obtain ⟨d', hff, hd'⟩ := fflush_disk hid.1 _
    rw [hwrs.file] at hd'
    refine ⟨_, d', hff, ⟨h.canRead, h.canWrite, h.mode, ?_⟩, fun _ => ⟨hd', rfl, hwrs.len⟩,
      fun heq => absurd heq hrdg⟩
    have hemp : File.pending { s.file with pos := 0 } = [] := File.pending_zero rfl
    obtain ⟨f, d, phase⟩ := s
    cases phase with
    | fresh => exact ⟨rfl, hwrs.len, hd'⟩
    | writing =>
      refine ⟨hid.1, h.mode, hwrs.len, Nat.succ_pos _, ?_⟩
      show d'.file.write (File.pending { f with pos := 0 }) = a.file
      rw [hemp, OpenFile.write_nil, hd']
    | reading => exact absurd rfl hrdg
    | closed => exact absurd rfl hcl

theorem fseek_disk {f1 : File} {d1 : Disk} (hfl : fflush diskSys f d = (0, f1, d1))
    (offset : Int) (whence : Whence) :
    fseek diskSys offset whence f d =
      if seekTarget d1.file offset whence < 0 then (-1, { f1 with pos := 0, len := 0 }, d1)
      else (0, { f1 with pos := 0, len := 0, atEof := false },
        { d1 with file := d1.file.seekTo (seekTarget d1.file offset whence).toNat }) := by
  have hno : f.canWrite = false → (f1 = f ∧ d1 = d) := by
    intro hw
    rw [fflush, if_pos (by simp [hw])] at hfl
    simp only [Prod.mk.injEq] at hfl
    exact ⟨hfl.2.1.symm, hfl.2.2.symm⟩
  have hfst : (if f.canWrite then fflush diskSys f d else ((0 : Int), f, d)) = (0, f1, d1) := by
    cases hw : f.canWrite with
    | false =>
      obtain ⟨rfl, rfl⟩ := hno hw
      rfl
    | true => exact hfl
  have hsk : diskSys.lseek d1 offset whence = d1.lseek offset whence := rfl
  simp only [fseek, hfst, if_neg (show ¬ (0 : Int) = eof by decide), hsk, Disk.lseek]
  by_cases htgt : seekTarget d1.file offset whence < 0
  · simp only [if_pos htgt]
    rfl
  · simp [if_neg htgt]

theorem seekTarget_skip (h : whence ≠ .cur) (o : OpenFile) (k : Nat) (offset : Int) :
    seekTarget (o.skip k) offset whence = seekTarget o offset whence := by
  cases whence with
  | set => rfl
  | cur => exact absurd rfl h
  | ofEnd => rfl

/-- Behind the flush of a seek only the position of the file below may be ahead, and then the seek
does not count from it. -/
theorem Follows.ready_to_seek {offset : Int} {f1 : File}
    {d1 : Disk} (h : Follows s a) (hsp : (FileOp.fseek offset whence).Spared s)
    (hout : s.phase ≠ .reading → d1.file = a.file ∧ f1.pos = 0 ∧ f1.len = 0)
    (hsame : s.phase = .reading → f1 = s.file ∧ d1 = s.disk) :
    d1.file = a.file ∨ ∃ k, d1.file = a.file.skip k ∧ whence ≠ .cur ∧
      0 ≤ seekTarget d1.file offset whence := by
  by_cases hr : s.phase = .reading
  · obtain ⟨rfl, rfl⟩ := hsame hr
    have hrds : Reads s.file s.disk a.file := by
      have hstd := h.stands
      rwa [hr] at hstd
    rcases (hsp hr).2 with hus | ⟨hcur, htgt⟩
    · exact .inl (hrds.file_eq hus)
    · exact .inr ⟨_, hrds.file, hcur, htgt⟩
  · exact .inl (hout hr).1

theorem Follows.drop_buffer {phase : Phase}
    (h : Follows ⟨f, d, phase⟩ a) (hcl : phase ≠ .closed) (hfi : d.file = a.file) :
    Follows ⟨{ f with pos := 0, len := 0 }, d, phase⟩ a := by
  refine ⟨h.canRead, h.canWrite, h.mode, ?_⟩
  have hstd := h.stands
  cases phase with
  | fresh => exact ⟨rfl, rfl, hfi⟩
  | reading =>
    have hrds : Reads f d a.file := hstd
    have hemp : Reads { f with pos := 0, len := 0 } d d.file := .empty hrds.readable rfl rfl
    rwa [hfi] at hemp
  | writing =>
    have hwrs : Writes f d a.file := hstd
    refine ⟨hwrs.writable, hwrs.mode, rfl, Nat.succ_pos _, ?_⟩
    exact hfi
  | closed => exact absurd rfl hcl

/-- The call gives what it gives on the file without a buffer, and the stream goes on following it. -/
def StepFollows (vectored : Bool) (s : Stream) (a : Plain) (o : FileOp) : Prop :=
  ∃ s', fileStep vectored s o = some (s', (plainStep a o).2) ∧ Follows s' (plainStep a o).1

theorem StepFollows.intro {o : FileOp} {s' : Stream} {a' : Plain} {r : Answer}
    (hst : fileStep vectored s o = some (s', r)) (hpl : plainStep a o = (a', r))
    (h : Follows s' a') : StepFollows vectored s a o := by
  rw [StepFollows, hpl]
  exact ⟨s', hst, h⟩

section

variable (h : Follows s a)

include h

theorem stepFollows_fseek {offset : Int} (hcl : s.phase ≠ .closed)
    (hsp : (FileOp.fseek offset whence).Spared s) :
    StepFollows vectored s a (.fseek offset whence) := by
  obtain ⟨f1, d1, hfl, hfol, hout, hsame⟩ := h.flush hcl fun hr => (hsp hr).1
  have hrdy := h.ready_to_seek hsp hout hsame
  have htgt : seekTarget d1.file offset whence = seekTarget a.file offset whence := by
    rcases hrdy with heq | ⟨k, heq, hcur, -⟩
    · rw [heq]
    · rw [heq, seekTarget_skip hcur]
  have hsk := fseek_disk hfl offset whence
  rw [htgt] at hsk
  by_cases hneg : seekTarget a.file offset whence < 0
  · rw [if_pos hneg] at hsk
    have hfi : d1.file = a.file := by
      rcases hrdy with heq | ⟨k, heq, hcur, hge⟩
      · exact heq
      · omega
    refine .intro ?_ (if_pos hneg) (hfol.drop_buffer hcl hfi)
    simp [fileStep, hsk]
  rw [if_neg hneg] at hsk
  have hst : fileStep vectored s (.fseek offset whence) =
      some (⟨{ f1 with pos := 0, len := 0, atEof := false },
        { d1 with file := d1.file.seekTo (seekTarget a.file offset whence).toNat }, .fresh⟩, 0, []) := by
    simp [fileStep, hsk]
  refine .intro hst (if_neg hneg) ⟨hfol.canRead, hfol.canWrite, hfol.mode, rfl, rfl, ?_⟩
  rcases hrdy with heq | ⟨k, heq, -, -⟩
  · rw [heq]
  · rw [heq, OpenFile.seekTo_skip]

theorem stepFollows_ftell (hcl : s.phase ≠ .closed)
    (hsp : FileOp.ftell.Spared s) : StepFollows vectored s a .ftell := by
  have hca : diskSys.lseek s.disk 0 .cur = ((s.disk.file.pos : Int), s.disk) := by
    show s.disk.lseek 0 .cur = _
    simp only [Disk.lseek, seekTarget, add_zero]
    rfl
  have htell : ftell diskSys s.file s.disk = ((a.file.pos : Int), s.file, s.disk) := by
    simp only [ftell, hca]
    rw [if_neg (by omega)]
    have hstd := h.stands
    cases hph : s.phase with
    | fresh =>
      rw [hph] at hstd
      obtain ⟨hpos, hlen, hfi⟩ := hstd
      simp [hpos, hlen, hfi]
    | reading =>
      rw [hph] at hstd
      have hrds : Reads s.file s.disk a.file := hstd
      have hle := hrds.le
      have hplc : s.disk.file.pos = a.file.pos + (s.file.len - s.file.pos) := by
        rw [hrds.file]
        rfl
      cases hw : s.file.canWrite with
      | false =>
        simp only [Bool.false_eq_true, if_false, Prod.mk.injEq, and_true]
        omega
      | true =>
        have hlen := hsp.1 hph hw
        simp only [if_true, Prod.mk.injEq, and_true]
        omega
    | writing =>
      rw [hph] at hstd
      have hwrs : Writes s.file s.disk a.file := hstd
      simp only [hwrs.writable, if_true, Prod.mk.injEq, and_true]
      rcases hsp.2 hph with hpos | hplc
      · have hfi := hwrs.file
        rw [File.pending_zero hpos, OpenFile.write_nil] at hfi
        rw [hpos, hfi]
        rfl
      have hlen := File.pending_length hwrs.room.le
      rw [← hwrs.file, ← hlen, hplc]
      by_cases hnil : s.file.pending = []
      · rw [hnil, OpenFile.write_nil, hplc]
        rfl
      · rw [OpenFile.write, if_neg hnil]
        exact (Nat.cast_add _ _).symm
    | closed => exact absurd hph hcl
  exact .intro (by simp [fileStep, htell]) rfl h

theorem Follows.refused (next : Phase) :
    Follows ⟨{ s.file with err := true }, s.disk, s.phase.after next false⟩ a := by
  obtain ⟨f, d, phase⟩ := s
  refine ⟨h.canRead, h.canWrite, h.mode, ?_⟩
  have hstd := h.stands
  cases phase with
  | fresh => exact hstd
  | reading =>
    have hrds : Reads f d a.file := hstd
    exact { hrds with }
  | writing =>
    have hwrs : Writes f d a.file := hstd
    exact { hwrs with }
  | closed => exact hstd

theorem Follows.read_on (hrd : s.file.canRead = true) (hrds : Reads f d o)
    (hcan : f.canWrite = s.file.canWrite) (hmd : f.mode = s.file.mode) :
    Follows ⟨f, d, s.phase.after .reading s.file.canRead⟩ { a with file := o } := by
  rw [hrd]
  exact ⟨hrds.readable.trans (hrd.symm.trans h.canRead), hcan.trans h.canWrite,
    hmd.trans h.mode, hrds⟩

theorem Follows.written_on (hwr : s.file.canWrite = true) (hwrs : Writes f d o)
    (hcan : f.canRead = s.file.canRead) :
    Follows ⟨f, d, s.phase.after .writing s.file.canWrite⟩ { a with file := o } := by
  rw [hwr]
  exact ⟨hcan.trans h.canRead, hwrs.writable.trans (hwr.symm.trans h.canWrite), hwrs.mode, hwrs⟩

theorem stepFollows_fgetc (hpm : FileOp.fgetc.Permitted s) : StepFollows vectored s a .fgetc := by
  cases hrd : s.file.canRead with
  | false =>
    refine .intro ?_ (if_pos (by simp [← h.canRead, hrd])) (h.refused .reading)
    simp [fileStep, fgetc, hrd]
  | true =>
    obtain ⟨f, d, hget, hcan, hmd, hrds⟩ := fgetc_disk (h.reads hrd hpm.1 (hpm.2 hrd))
    refine .intro ?_ (if_neg (by simp [← h.canRead, hrd])) (h.read_on hrd hrds hcan hmd)
    simp [fileStep, hget]

end

theorem getEach_refused (hrd : f.canRead = false) {n : Nat} (hn : 0 < n) (d : Disk) :
    getEach diskSys n f d = some ([], { f with err := true }, d) := by
  obtain ⟨n, rfl⟩ := Nat.exists_eq_succ_of_ne_zero hn.ne'
  simp [getEach, fgetc, hrd]

theorem stepFollows_fread (h : Follows s a) (hpm : (FileOp.fread size nmemb).Permitted s) :
    StepFollows vectored s a (.fread size nmemb) := by
  by_cases hz : size = 0 ∨ nmemb = 0
  · -- nothing is read, but the stream counts as one that is read
    have hfol : Follows ⟨s.file, s.disk, s.phase.after .reading s.file.canRead⟩ a := by
      cases hrd : s.file.canRead with
      | false => exact h
      | true => exact hrd ▸ h.read_on hrd (h.reads hrd hpm.1 (hpm.2 hrd)) rfl rfl
    refine .intro ?_ (if_pos (by rcases hz with rfl | rfl <;> simp)) hfol
    simp [fileStep, fread, if_pos hz]
  have hne := not_or.mp hz
  cases hrd : s.file.canRead with
  | false =>
    refine .intro ?_ (if_pos (by simp [← h.canRead, hrd])) (h.refused .reading)
    have htot : 0 < size * nmemb := mul_pos (by omega) (by omega)
    simp [fileStep, fread, if_neg hz, getEach_refused hrd htot, hrd]
  | true =>
    obtain ⟨f, d, hget, hcan, hmd, hrds⟩ :=
      getEach_disk _ (h.reads hrd hpm.1 (hpm.2 hrd))
    refine .intro ?_ (if_neg (by simp [← h.canRead, hrd, hne])) (h.read_on hrd hrds hcan hmd)
    simp only [fileStep, fread, if_neg hz, hget, bind_eq_bind, bind_some]

theorem stepFollows_fputc {c : Int} (h : Follows s a) (hpm : (FileOp.fputc c).Permitted s) :
    StepFollows vectored s a (.fputc c) := by
  cases hwr : s.file.canWrite with
  | false =>
    refine .intro ?_ (if_pos (by simp [← h.canWrite, hwr])) (h.refused .writing)
    simp [fileStep, fputc, hwr]
  | true =>
    obtain ⟨f, d, hput, hrd, hwrs⟩ := fputc_disk (h.writes hwr hpm.1 (hpm.2 hwr)) c
    refine .intro ?_ (if_neg (by simp [← h.canWrite, hwr])) (h.written_on hwr hwrs hrd)
    simp [fileStep, hput]

theorem stepFollows_fwrite {block : List UInt8} {hblk : block.length = size * nmemb}
    (h : Follows s a) (hpm : (FileOp.fwrite size nmemb block hblk).Permitted s)
    (hsp : (FileOp.fwrite size nmemb block hblk).Spared s) :
    StepFollows vectored s a (.fwrite size nmemb block hblk) := by
  by_cases hz : size = 0 ∨ nmemb = 0
  · have hfol : Follows ⟨s.file, s.disk, s.phase.after .writing s.file.canWrite⟩ a := by
      cases hwr : s.file.canWrite with
      | false => exact h
      | true => exact hwr ▸ h.written_on hwr (h.writes hwr hpm.1 (hpm.2 hwr)) rfl
    refine .intro ?_ (if_pos (by rcases hz with rfl | rfl <;> simp)) hfol
    simp [fileStep, fwrite, if_pos hz]
  have hne := not_or.mp hz
  cases hwr : s.file.canWrite with
  | false =>
    refine .intro ?_ (if_pos (by simp [← h.canWrite, hwr])) (h.refused .writing)
    have htot : 0 < block.length := by
      rw [hblk]
      exact mul_pos (by omega) (by omega)
    obtain ⟨b, -, rfl⟩ := exists_cons_of_length_pos htot
    simp only [fileStep, fwrite, if_neg hz, hwr, Bool.false_eq_true, false_and, if_false]
    rw [← hblk, take_length]
    simp [putEach, fputc, hwr]
  | true =>
    obtain ⟨f, d, hca, hrd, hwrs⟩ :=
      fwrite_disk (h.writes hwr hpm.1 (hpm.2 hwr)) vectored hblk
        (pos_of_ne_zero hne.1) (pos_of_ne_zero hne.2) hsp
    refine .intro ?_ (if_neg (by simp [← h.canWrite, hwr, hne])) (h.written_on hwr hwrs hrd)
    simp [fileStep, hca]

theorem stepFollows_of_spared {o : FileOp} (h : Follows s a) (hpm : o.Permitted s)
    (hsp : o.Spared s) : StepFollows vectored s a o := by
  cases o with
  | fgetc => exact stepFollows_fgetc h hpm
  | fread size nmemb => exact stepFollows_fread h hpm
  | fputc c => exact stepFollows_fputc h hpm
  | fwrite size nmemb block hblk => exact stepFollows_fwrite h hpm hsp
  | fseek offset whence => exact stepFollows_fseek h hpm hsp
  | ftell => exact stepFollows_ftell h hpm hsp
  | fflush =>
    obtain ⟨f, d, hfl, hfol, -⟩ := h.flush hpm hsp
    exact .intro (by simp [fileStep, hfl]) rfl hfol
  | fclose =>
    obtain ⟨f, d, hfl, -, hout, hsame⟩ := h.flush hpm hsp
    have hst : fileStep vectored s .fclose = some (⟨s.file, d, .closed⟩, 0, []) := by
      have hcls : diskSys.close d = (0, d) := rfl
      simp [fileStep, fclose, hfl, hcls]
    refine .intro hst rfl ⟨h.canRead, h.canWrite, h.mode, ?_⟩
    show d.file.data = a.file.data
    by_cases hr : s.phase = .reading
    · rw [(hsame hr).2]
      exact h.data_eq (by rw [hr]; decide)
    · rw [(hout hr).1]

theorem follows_opened (m : OpenMode) (content : List UInt8) (shorts : Nat → Nat) :
    Follows (.opened m content shorts) (.opened m content) :=
  ⟨rfl, rfl, rfl, rfl, rfl, rfl⟩

/-- The calls return what they return on the file without a buffer, and when the stream is closed the files
are the same. -/
def RunsAsPlain (vectored : Bool) (m : OpenMode) (content : List UInt8) (shorts : Nat → Nat)
    (ops : List FileOp) : Prop :=
  ∃ s', Lib.runOps (fileStep vectored) (.opened m content shorts) ops =
      some (s', (Lib.runAbstract plainStep (.opened m content) ops).2) ∧
    (s'.phase = .closed →
      s'.disk.file.data = (Lib.runAbstract plainStep (.opened m content) ops).1.file.data)

/-- Every sequence of permitted and spared calls on a stream, opened in any mode on any file, runs as on
the file without a buffer. -/
theorem runsAsPlain_of_spared (vectored : Bool) (m : OpenMode) (content : List UInt8)
    (shorts : Nat → Nat) (ops : List FileOp)
    (h : Lib.OpsMeet (fileStep vectored) (fun s o => o.Permitted s ∧ o.Spared s)
      (.opened m content shorts) ops) : RunsAsPlain vectored m content shorts ops := by
  have hsim : ∀ s a o, Follows s a → o.Permitted s ∧ o.Spared s → StepFollows vectored s a o :=
    fun s a o hrel hok => stepFollows_of_spared hrel hok.1 hok.2
  obtain ⟨s', hrun, hfol⟩ := Lib.runOps_simulates hsim (follows_opened m _ _) h
  refine ⟨s', hrun, fun hcl => ?_⟩
  have hstd := hfol.stands
  rwa [hcl] at hstd

instance (s : Stream) : (o : FileOp) → Decidable (o.Permitted s)
  | .fgetc | .fread _ _ | .fputc _ | .fwrite _ _ _ _ => inferInstanceAs (Decidable (_ ∧ (_ → _)))
  | .fseek _ _ | .ftell | .fflush | .fclose => inferInstanceAs (Decidable (_ ≠ _))

instance (s : Stream) : (o : FileOp) → Decidable (o.Spared s)
  | .fgetc | .fread _ _ | .fputc _ => inferInstanceAs (Decidable True)
  | .fwrite _ _ _ _ => inferInstanceAs (Decidable (_ → _))
  | .fseek _ _ => inferInstanceAs (Decidable (_ → (_ → _) ∧ (_ ∨ _ ∧ _)))
  | .ftell => inferInstanceAs (Decidable ((_ → _ → _) ∧ (_ → _ ∨ _)))
  | .fflush | .fclose => inferInstanceAs (Decidable (_ → _ → _))

def updateMode : OpenMode :=
  { canRead := true, canWrite := true, trunc := false, append := false }

def readMode : OpenMode :=
  { updateMode with canWrite := false }

/-- A file read to its end, rewound and written over. -/
def rewrite : List FileOp := [.fread 1 9, .fgetc, .fseek 0 .set, .fputc 98, .ftell, .fclose]

theorem runsAsPlain_of_spared_rewrite : Lib.OpsMeet (fileStep true) (fun s o => o.Permitted s ∧ o.Spared s)
        (.opened updateMode [97, 97] fun _ => 1) rewrite ∧
      RunsAsPlain true updateMode [97, 97] (fun _ => 1) rewrite := by
  have hmts : Lib.OpsMeet (fileStep true) (fun s o => o.Permitted s ∧ o.Spared s)
      (.opened updateMode [97, 97] fun _ => 1) rewrite := by
    decide +kernel
  exact ⟨hmts, runsAsPlain_of_spared true updateMode [97, 97] (fun _ => 1) _ hmts⟩

def observed (ops : List FileOp) :
    Option (List Answer × List UInt8 × Phase) :=
  (Lib.runOps (fileStep true) (.opened m content fun _ => bufsiz) ops).map
    fun res => (res.2, res.1.disk.file.data, res.1.phase)

/-- Closing an update stream behind a read writes the byte read to the end of the file, and a seek
from the current position counts from the end of what was read ahead. -/
theorem reading_moves_and_changes_file :
    (openMode ['r', '+'] = some updateMode ∧ Lib.OpsMeet (fileStep true) (fun s o => o.Permitted s)
        (.opened updateMode [97, 98] fun _ => bufsiz) [.fgetc, .fclose] ∧
      ¬ RunsAsPlain true updateMode [97, 98] (fun _ => bufsiz) [.fgetc, .fclose]) ∧
    openMode ['r'] = some readMode ∧ Lib.OpsMeet (fileStep true) (fun s o => o.Permitted s)
        (.opened readMode [97, 98] fun _ => bufsiz) [.fgetc, .fseek 0 .cur, .fgetc] ∧
      ¬ RunsAsPlain true readMode [97, 98] (fun _ => bufsiz) [.fgetc, .fseek 0 .cur, .fgetc] := by
  refine ⟨⟨by decide, by decide +kernel, ?_⟩, by decide, by decide +kernel, ?_⟩
  · rintro ⟨s', hrun, hdata⟩
    have hse : observed updateMode [97, 98] [.fgetc, .fclose] =
        some ([(97, []), (0, [])], [97, 98, 97], .closed) := by decide +kernel
    rw [observed, hrun, map_some, some.injEq, Prod.mk.injEq, Prod.mk.injEq] at hse
    have hsame := hdata hse.2.2
    rw [hse.2.1] at hsame
    exact absurd hsame (by decide +kernel)
  · rintro ⟨s', hrun, -⟩
    have hse : observed readMode [97, 98] [.fgetc, .fseek 0 .cur, .fgetc] =
        some ([(97, []), (0, []), (-1, [])], [97, 98], .reading) := by decide +kernel
    rw [observed, hrun, map_some, some.injEq, Prod.mk.injEq] at hse
    have hpl : (Lib.runAbstract plainStep (.opened readMode [97, 98])
        [.fgetc, .fseek 0 .cur, .fgetc]).2 = [(97, []), (0, []), (98, [])] := by decide +kernel
    cases hpl.symm.trans hse.1

end Skjegg.Libc
