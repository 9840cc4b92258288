import Mathlib.Tactic

/-!
# An open file with one position

The bytes of a file and the place where the next read or write happens.  Writing in pieces is writing at
once, also when every write goes to the end.
-/

namespace Skjegg.Lib

open List

/-- The bytes of a file after a write at `p`, with zeros in a gap behind the old end. -/
def writeAt (data : List UInt8) (p : Nat) (bytes : List UInt8) : List UInt8 :=
  data.take p ++ replicate (p - data.length) 0 ++ bytes ++ data.drop (p + bytes.length)

variable (data bytes : List UInt8)

theorem length_writeAt (p : Nat) : (writeAt data p bytes).length = max data.length (p + bytes.length) := by
  simp only [writeAt, length_append, length_take, length_replicate, length_drop]
  omega

theorem take_writeAt (p : Nat) : (writeAt data p bytes).take (p + bytes.length) =
      data.take p ++ replicate (p - data.length) 0 ++ bytes := by
  have hlen : (data.take p ++ replicate (p - data.length) 0 ++ bytes).length = p + bytes.length := by
    simp only [length_append, length_take, length_replicate]
    omega
  rw [writeAt, ← hlen, take_left]

theorem drop_writeAt (p k : Nat) (h : p + bytes.length ≤ k) :
    (writeAt data p bytes).drop k = data.drop k := by
  have hlen : (data.take p ++ replicate (p - data.length) 0 ++ bytes).length = p + bytes.length := by
    simp only [length_append, length_take, length_replicate]
    omega
  rw [writeAt, drop_append, drop_eq_nil_of_le (by omega), hlen, drop_drop, nil_append]
  congr 1
  omega

theorem writeAt_writeAt (data first second : List UInt8) (p : Nat) :
    writeAt (writeAt data p first) (p + first.length) second = writeAt data p (first ++ second) := by
  have hgap : p + first.length - max data.length (p + first.length) = 0 := by omega
  conv_lhs => rw [writeAt]
  rw [take_writeAt, length_writeAt, hgap, drop_writeAt _ _ _ _ (by omega), writeAt,
    length_append, replicate_zero, append_nil, ← add_assoc]
  simp

structure OpenFile where
  data : List UInt8
  pos : Nat
  append : Bool

namespace OpenFile

def writePos (o : OpenFile) : Nat :=
  if o.append then o.data.length else o.pos

def write (o : OpenFile) (bytes : List UInt8) : OpenFile :=
  if bytes = [] then o
  else { o with data := writeAt o.data o.writePos bytes, pos := o.writePos + bytes.length }

variable (o : OpenFile)

@[simp] theorem write_nil : o.write [] = o := if_pos rfl

theorem writePos_write {o : OpenFile} {bytes : List UInt8} (h : bytes ≠ []) :
    (o.write bytes).writePos = o.writePos + bytes.length := by
  rw [write, if_neg h, writePos]
  cases happ : o.append with
  | false => simp
  | true =>
    simp only [if_true, writePos, happ, length_writeAt]
    omega

theorem write_write (first second : List UInt8) :
    (o.write first).write second = o.write (first ++ second) := by
  by_cases hfst : first = []
  · rw [hfst, write_nil, nil_append]
  by_cases hsnd : second = []
  · rw [hsnd, write_nil, append_nil]
  have hpos := writePos_write (o := o) hfst
  have hbt : first ++ second ≠ [] := by simp [hfst]
  conv_lhs => rw [write, if_neg hsnd, hpos]
  rw [write, if_neg hfst, write, if_neg hbt]
  simp [writeAt_writeAt, add_assoc]

def ahead (o : OpenFile) : List UInt8 := o.data.drop o.pos

/-- Move the position behind `n` bytes. -/
def skip (o : OpenFile) (n : Nat) : OpenFile :=
  { o with pos := o.pos + n }

@[simp] theorem skip_zero : o.skip 0 = o := rfl

theorem skip_skip (m n : Nat) : (o.skip m).skip n = o.skip (m + n) := by
  simp [skip, add_assoc]

theorem ahead_skip (n : Nat) : (o.skip n).ahead = o.ahead.drop n := by
  rw [ahead, ahead, skip, drop_drop]

def seekTo (o : OpenFile) (p : Nat) : OpenFile :=
  { o with pos := p }

@[simp] theorem seekTo_skip (k p : Nat) : (o.skip k).seekTo p = o.seekTo p := rfl

end OpenFile

end Skjegg.Lib
