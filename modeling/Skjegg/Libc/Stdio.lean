import Mathlib.Tactic

/-!
# Buffered streams

`stdio_core.c` and the file part of `stdio.c`. The descriptor behind a stream is a world `W` that
every system call may change. Memory streams (`f->flush` set) are left out. A function returns
nothing where the source would touch memory outside `f->buf`.
-/

namespace Skjegg.Libc

def bufsiz : Nat := 1024

def eof : Int := -1

inductive Whence
  | set
  | cur
  | ofEnd
  deriving DecidableEq, Repr

/-- The system calls on the descriptor of a stream: the return value, the world after the call, and
the bytes read. -/
structure Sys (W : Type) where
  write : W → List UInt8 → Int × W
  writev : W → List UInt8 → List UInt8 → Int × W
  read : W → Nat → Int × List UInt8 × W
  lseek : W → Int → Whence → Int × W
  close : W → Int × W

/-- `_IOFBF`, `_IOLBF` and `_IONBF` -/
inductive BufMode
  | full
  | line
  | none
  deriving DecidableEq, Repr

/-- `FILE`; the flags are one field each. -/
structure File where
  (canRead canWrite atEof err : Bool)
  mode : BufMode
  (pos len : Nat)
  buf : Vector UInt8 bufsiz

def File.fresh (canRead canWrite : Bool) (mode : BufMode) : File :=
  { canRead, canWrite, atEof := false, err := false, mode, pos := 0, len := 0,
    buf := Vector.replicate bufsiz 0 }

/-- The bytes before `pos`: what a stream that is written has still to hand over. -/
def File.pending (f : File) : List UInt8 := f.buf.toList.take f.pos

/-- `f->buf[f->pos++] = c` -/
def File.store (f : File) (c : UInt8) : Option File :=
  if h : f.pos < bufsiz then some { f with buf := f.buf.set f.pos c h, pos := f.pos + 1 } else none

theorem File.pending_length {f : File} (h : f.pos ≤ bufsiz) : f.pending.length = f.pos := by
  rw [File.pending, List.length_take, Vector.length_toList]
  omega

theorem File.store_spec {f : File} (h : f.pos < bufsiz) (c : UInt8) :
    ∃ f', f.store c = some f' ∧ f'.pending = f.pending ++ [c] ∧ f'.pos = f.pos + 1 ∧
      f'.canWrite = f.canWrite ∧ f'.mode = f.mode ∧ f'.canRead = f.canRead ∧ f'.len = f.len := by
  refine ⟨_, dif_pos h, ?_, rfl, rfl, rfl, rfl, rfl⟩
  have hlen : f.pos < f.buf.toList.length := by rwa [Vector.length_toList]
  simp only [File.pending, Vector.toList_set]
  rw [List.take_add_one, List.getElem?_set_self hlen, List.take_set_of_le le_rfl]
  rfl

section Calls

variable {W : Type} (sys : Sys W)

/-! ## Output -/

/-- `write_all`, and the loop of `fflush`: whether all of the bytes were written. -/
def writeAll (bytes : List UInt8) (w : W) : Bool × W :=
  if bytes = [] then (true, w)
  else
    let (n, w) := sys.write w bytes
    if n ≤ 0 then (false, w) else writeAll (bytes.drop n.toNat) w
termination_by bytes.length
decreasing_by
  have hpos : 0 < bytes.length := List.length_pos_of_ne_nil ‹_›
  rw [List.length_drop]
  omega

def fflush (f : File) (w : W) : Int × File × W :=
  if !f.canWrite || f.pos == 0 then (0, f, w)
  else
    let (ok, w) := writeAll sys f.pending w
    if ok then (0, { f with pos := 0 }, w) else (eof, { f with err := true }, w)

/-- `(unsigned char)c` -/
def byteOf (c : Int) : UInt8 := UInt8.ofNat (c % 256).toNat

theorem byteOf_toNat (b : UInt8) : byteOf b.toNat = b := by
  have hlt : b.toNat < 256 := b.toNat_lt
  rw [byteOf, show ((b.toNat : Int) % 256).toNat = b.toNat by omega]
  exact UInt8.ofNat_toNat

/-- Whether `fputc` flushes behind the character `c`. -/
def File.flushes (f : File) (c : Int) : Bool :=
  f.pos == bufsiz || f.mode == .none || (f.mode == .line && c == 10)

def fputc (c : Int) (f : File) (w : W) : Option (Int × File × W) :=
  if !f.canWrite then some (eof, { f with err := true }, w)
  else do
    let f ← f.store (byteOf c)
    if f.flushes c then
      let (r, f, w) := fflush sys f w
      some (if r = eof then eof else (byteOf c).toNat, f, w)
    else some ((byteOf c).toNat, f, w)

/-- The loop of `fputs` and of `fwrite`: put the bytes one by one until one fails, and count those put. -/
def putEach : List UInt8 → File → W → Option (Nat × File × W)
  | [], f, w => some (0, f, w)
  | b :: bs, f, w => do
      let (r, f, w) ← fputc sys b.toNat f w
      if r = eof then some (0, f, w)
      else
        let (i, f, w) ← putEach bs f w
        some (i + 1, f, w)

/-- `fputs`; the second component counts the characters put. -/
def fputs (s : List UInt8) (f : File) (w : W) : Option (Int × Nat × File × W) := do
  let (i, f, w) ← putEach sys s f w
  some (if i < s.length then eof else 0, i, f, w)

def writeBoth (f : File) (first second : List UInt8) (w : W) : Bool × File × W :=
  let (ok, w) := writeAll sys first w
  if !ok then (false, f, w)
  else
    let (ok, w) := writeAll sys second w
    if !ok then (false, f, w) else (true, { f with pos := 0 }, w)

/-- `flush_with_block`: whether the pending bytes and the block of `n` bytes were written;
`vectored` where the target has `writev`. -/
def flushWithBlock (vectored : Bool) (f : File) (block : List UInt8) (n : Int) (w : W) :
    Bool × File × W :=
  let pending := f.pos
  let block := block.take n.toNat
  if !vectored then writeBoth sys f f.pending block w
  else
    let (sent, w) := sys.writev w f.pending block
    if sent = pending + n then (true, { f with pos := 0 }, w)
    else if 0 < sent then
      -- a short `writev`: the rest of the buffer if it is not out yet, and the rest of the block
      if sent < pending then writeBoth sys f (f.pending.drop sent.toNat) block w
      else writeBoth sys f [] (block.drop (sent - pending).toNat) w
    else if sent < 0 then (false, f, w)
    else writeBoth sys f f.pending block w

variable {sys} in
/-- After one `writev` the stream is done, has failed, or writes the bytes that are left. -/
theorem flushWithBlock_writev {f : File} {block : List UInt8} {sent : Int} {w w' : W}
    (hpos : f.pos ≤ bufsiz) (hca : sys.writev w f.pending block = (sent, w'))
    (hle : sent.toNat ≤ (f.pending ++ block).length) :
    sent = (f.pending ++ block).length ∧
        flushWithBlock sys true f block block.length w = (true, { f with pos := 0 }, w') ∨
      sent < 0 ∧ flushWithBlock sys true f block block.length w = (false, f, w') ∨
      ∃ first second, first ++ second = (f.pending ++ block).drop sent.toNat ∧
        flushWithBlock sys true f block block.length w = writeBoth sys f first second w' := by
  have hlen := File.pending_length hpos
  simp only [List.length_append, hlen] at hle ⊢
  simp only [flushWithBlock, Int.toNat_natCast, List.take_length, Bool.not_true, Bool.false_eq_true,
    if_false, hca]
  split_ifs with hall hso hsho hneg
  · exact .inl ⟨by omega, rfl⟩
  · exact .inr (.inr ⟨_, block, (List.drop_append_of_le_length (by omega)).symm, rfl⟩)
  · refine .inr (.inr ⟨[], _, ?_, rfl⟩)
    have hgone : f.pending.drop sent.toNat = [] := List.drop_eq_nil_of_le (by omega)
    rw [List.drop_append, hgone, hlen]
    congr 2
    omega
  · exact .inr (.inl ⟨hneg, rfl⟩)
  · refine .inr (.inr ⟨f.pending, block, ?_, rfl⟩)
    rw [show sent = 0 by omega]
    rfl

/-- `(int)total` -/
def toInt (total : Nat) : Int := (BitVec.ofNat 32 total).toInt

theorem toInt_of_lt {n : Nat} (h : n < 2 ^ 31) : toInt n = n := by
  rw [toInt, BitVec.toInt_eq_toNat_of_lt] <;> rw [BitVec.toNat_ofNat, Nat.mod_eq_of_lt] <;> omega

/-- `fwrite` of a block of `size * nmemb` bytes, a product that does not wrap. -/
def fwrite (vectored : Bool) (block : List UInt8) (size nmemb : Nat) (f : File) (w : W) :
    Option (Nat × File × W) :=
  let total := size * nmemb
  if size = 0 ∨ nmemb = 0 then some (0, f, w)
  else if f.canWrite ∧ f.mode = .full ∧ bufsiz - f.pos < total then
    let (ok, f, w) := flushWithBlock sys vectored f block (toInt total) w
    if ok then some (nmemb, f, w) else some (0, { f with err := true }, w)
  else do
    let (i, f, w) ← putEach sys (block.take total) f w
    some (i / size, f, w)

/-! ## Input -/

/-- What `read` leaves in the buffer. -/
def File.fill (f : File) (bytes : List UInt8) : Vector UInt8 bufsiz :=
  Vector.ofFn fun i => (bytes[i.val]?).getD (f.buf.get i)

def refill (f : File) (w : W) : Int × File × W :=
  let (n, bytes, w) := sys.read w bufsiz
  if n ≤ 0 then
    (eof, { f with atEof := f.atEof || n == 0, err := f.err || n != 0, pos := 0, len := 0 }, w)
  else (0, { f with buf := f.fill bytes, len := n.toNat, pos := 0 }, w)

def File.take (f : File) : Option (Int × File) :=
  if h : f.pos < bufsiz then some ((f.buf.get ⟨f.pos, h⟩).toNat, { f with pos := f.pos + 1 }) else none

def fgetc (f : File) (w : W) : Option (Int × File × W) :=
  if !f.canRead then some (eof, { f with err := true }, w)
  else if f.pos < f.len then do
    let (c, f) ← f.take
    some (c, f, w)
  else
    let (r, f, w) := refill sys f w
    if r = eof then some (eof, f, w)
    else do
      let (c, f) ← f.take
      some (c, f, w)

/-- The loop of `fread`: the bytes read before the end of the input, at most `n`. -/
def getEach : Nat → File → W → Option (List UInt8 × File × W)
  | 0, f, w => some ([], f, w)
  | n + 1, f, w => do
      let (c, f, w) ← fgetc sys f w
      if c = eof then some ([], f, w)
      else
        let (bytes, f, w) ← getEach n f w
        some (byteOf c :: bytes, f, w)

/-- `fread`: the whole items read and the bytes stored at `ptr`. -/
def fread (size nmemb : Nat) (f : File) (w : W) : Option (Nat × List UInt8 × File × W) :=
  if size = 0 ∨ nmemb = 0 then some (0, [], f, w)
  else do
    let (bytes, f, w) ← getEach sys (size * nmemb) f w
    some (bytes.length / size, bytes, f, w)

/-! ## Files -/

def fseek (offset : Int) (whence : Whence) (f : File) (w : W) : Int × File × W :=
  let (r, f, w) := if f.canWrite then fflush sys f w else (0, f, w)
  if r = eof then (-1, f, w)
  else
    let f := { f with pos := 0, len := 0 }
    let (off, w) := sys.lseek w offset whence
    if off < 0 then (-1, f, w) else (0, { f with atEof := false }, w)

def ftell (f : File) (w : W) : Int × File × W :=
  let (off, w) := sys.lseek w 0 .cur
  if off < 0 then (-1, f, w)
  else if f.canWrite then (off + f.pos, f, w)
  else (off - ((f.len : Int) - f.pos), f, w)

/-- `fclose`; the stream is gone after it. -/
def fclose (f : File) (w : W) : Int × W :=
  let (r, _, w) := fflush sys f w
  let (c, w) := sys.close w
  (if c = 0 then r else eof, w)

end Calls

/-- How `fopen` opens the file: the flags `O_TRUNC` and `O_APPEND` and the directions of the stream. -/
structure OpenMode where
  (canRead canWrite trunc append : Bool)
  deriving DecidableEq, Repr

def openMode (mode : List Char) : Option OpenMode :=
  let plus := mode.contains '+'
  match mode with
  | 'r' :: _ => some { canRead := true, canWrite := plus, trunc := false, append := false }
  | 'w' :: _ => some { canRead := plus, canWrite := true, trunc := true, append := false }
  | 'a' :: _ => some { canRead := plus, canWrite := true, trunc := false, append := true }
  | _ => none

def OpenMode.stream (m : OpenMode) : File := File.fresh m.canRead m.canWrite .full

end Skjegg.Libc
