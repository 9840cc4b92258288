import Skjegg.Lib.Run

/-!
# Standard input of the Pascal runtime

`rd_getc` and the reads over it, against a cursor over the bytes of the input.  The digits of an integer are
summed in `unsigned`, and the negation of the least integer wraps as the targets' instruction does.
-/

namespace Skjegg.Runtime

open Lib List

/-- What one `read` delivers into `rd_buf`: at least one byte, and at most 256. -/
structure Chunk where
  first : UInt8
  more : List UInt8
  fits : more.length < 256

/-- `rd_buf` from `rd_pos` on, what `read` has still to deliver, and `rd_eof`. -/
structure Rd where
  buf : List UInt8
  chunks : List Chunk
  eof : Bool

def bytesOf (input : List Chunk) : List UInt8 := input.flatMap fun k => k.first :: k.more

def Rd.rest (s : Rd) : List UInt8 := s.buf ++ bytesOf s.chunks

def rdGetc (s : Rd) : Option UInt8 × Rd :=
  if s.eof then (none, s)
  else
    match s.buf, s.chunks with
    | c :: buf, _ => (some c, { s with buf := buf })
    | [], k :: chunks => (some k.first, { s with buf := k.more, chunks := chunks })
    | [], [] => (none, { s with eof := true })

/-- The loops of the reads: the characters of the class from `c` on, and the one that ends them. -/
def getWhile (p : UInt8 → Bool) : Nat → Option UInt8 → Rd → List UInt8 × Option UInt8 × Rd
  | n + 1, some c, s =>
    if p c then
      let (c', s) := rdGetc s
      let (l, r) := getWhile p n c' s
      (c :: l, r)
    else ([], some c, s)
  | _, c, s => ([], c, s)

def getcWhile (p : UInt8 → Bool) (s : Rd) : List UInt8 × Option UInt8 × Rd :=
  let (c, s') := rdGetc s
  getWhile p s.rest.length c s'

def isBlank (c : UInt8) : Bool := c == 32 || c == 9 || c == 13 || c == 10

def isDigit (c : UInt8) : Bool := 48 ≤ c && c ≤ 57

def addDigit (v : UInt32) (c : UInt8) : UInt32 := v * 10 + (c.toUInt32 - 48)

/-- The digits from `c` on; the character behind them is put back. -/
def readDigits (n : Nat) (c : Option UInt8) (s : Rd) : UInt32 × Rd :=
  let (digits, c, s) := getWhile isDigit n c s
  (digits.foldl addDigit 0, { s with buf := c.toList ++ s.buf })

def readInt (s : Rd) : UInt32 × Rd :=
  match getcWhile isBlank s with
  | (_, none, s) => (0, s)
  | (_, some c, s') =>
    let (c', s') := if c = 45 ∨ c = 43 then rdGetc s' else (some c, s')
    let (v, s') := readDigits s.rest.length c' s'
    (if c = 45 then -v else v, s')

inductive ReadOp
  | char | int | str | ln | eof
  deriving DecidableEq, Repr

inductive ReadValue
  | char (c : UInt8)
  | int (v : UInt32)
  | str (s : List UInt8)
  | none
  | eof (b : Bool)
  deriving DecidableEq, Repr

/-- The buffer of a string read takes 1024 characters; the others are dropped. -/
def readStep (s : Rd) : ReadOp → Rd × ReadValue
  | .char =>
    let (c, s) := rdGetc s
    (s, .char (c.getD 0))
  | .int =>
    let (v, s) := readInt s
    (s, .int v)
  | .str =>
    let (line, _, s) := getcWhile (· != 10) s
    (s, .str (line.take 1024))
  | .ln => ((getcWhile (· != 10) s).2.2, .none)
  | .eof => (s, .eof s.eof)

def intAt (a : List UInt8) : UInt32 × List UInt8 :=
  let a := a.dropWhile isBlank
  let b := if a.head? = some 45 ∨ a.head? = some 43 then a.tail else a
  let v := (b.takeWhile isDigit).foldl addDigit 0
  (if a.head? = some 45 then -v else v, b.dropWhile isDigit)

def lineAt (a : List UInt8) : List UInt8 := a.takeWhile (· != 10)

/-- A cursor over the bytes, and whether a read has asked it for a byte when none was left. -/
structure Cursor where
  rest : List UInt8
  met : Bool := false
  deriving DecidableEq, Repr

/-- The reads of the cursor. No value depends on `met`. -/
def cursorStep (k : Cursor) : ReadOp → Cursor × ReadValue
  | .char => (⟨k.rest.tail, k.rest.isEmpty⟩, .char (k.rest.head?.getD 0))
  | .int => (⟨(intAt k.rest).2, (intAt k.rest).2.isEmpty⟩, .int (intAt k.rest).1)
  | .str => (behindLine k.rest, .str (lineAt k.rest))
  | .ln => (behindLine k.rest, .none)
  | .eof => (k, .eof k.rest.isEmpty)
where
  behindLine (a : List UInt8) : Cursor := ⟨(a.dropWhile (· != 10)).tail, (a.dropWhile (· != 10)).isEmpty⟩

variable {s : Rd} {k : Cursor} {a : List UInt8} {c : Option UInt8} {p : UInt8 → Bool}

/-- The reader is at the bytes of the cursor, and its flag is set where the cursor has met the end. -/
structure Rd.At (s : Rd) (k : Cursor) : Prop where
  rest : s.rest = k.rest
  eof : s.eof = true ↔ k.met = true
  none_left : k.met = true → k.rest = []

/-- The first byte of `a` has been read into `c`. -/
def Rd.Behind (s : Rd) (c : Option UInt8) (a : List UInt8) : Prop :=
  c = a.head? ∧ s.rest = a.tail ∧ (s.eof = true ↔ a = [])

theorem Rd.Behind.at (h : s.Behind c a) : s.At ⟨a.tail, a.isEmpty⟩ where
  rest := h.2.1
  eof := h.2.2.trans isEmpty_iff.symm
  none_left hnil := by rw [isEmpty_iff.mp hnil, tail_nil]

theorem rdGetc_behind (h : s.At k) : (rdGetc s).2.Behind (rdGetc s).1 k.rest := by
  obtain ⟨hrest, heof, hnil⟩ := h
  rw [← hrest]
  obtain ⟨buf, chunks, _ | _⟩ := s
  · match buf, chunks with
    | c :: buf, _ => exact ⟨rfl, rfl, iff_of_false Bool.false_ne_true (cons_ne_nil _ _)⟩
    | [], k :: chunks => exact ⟨rfl, rfl, iff_of_false Bool.false_ne_true (cons_ne_nil _ _)⟩
    | [], [] => exact ⟨rfl, rfl, iff_of_true rfl rfl⟩
  · have hnil := hrest.trans (hnil (heof.mp rfl))
    exact ⟨by rw [hnil]; rfl, by rw [hnil]; exact hnil, iff_of_true rfl hnil⟩

theorem getWhile_behind {n : Nat} (h : s.Behind c a) (hn : a.length ≤ n) :
    (getWhile p n c s).1 = a.takeWhile p ∧
      (getWhile p n c s).2.2.Behind (getWhile p n c s).2.1 (a.dropWhile p) := by
  induction a generalizing n c s with
  | nil =>
    cases h.1
    cases n <;> exact ⟨rfl, h⟩
  | cons x a ih =>
    cases h.1
    obtain _ | n := n
    · cases hn
    rw [head?_cons, getWhile, takeWhile_cons, dropWhile_cons]
    split
    · have hrs := ih (rdGetc_behind h.at) (Nat.le_of_succ_le_succ hn)
      exact ⟨congrArg _ hrs.1, hrs.2⟩
    · exact ⟨rfl, h⟩

theorem getcWhile_behind (h : s.At k) : (getcWhile p s).1 = k.rest.takeWhile p ∧
    (getcWhile p s).2.2.Behind (getcWhile p s).2.1 (k.rest.dropWhile p) :=
  getWhile_behind (rdGetc_behind h) (by rw [h.rest])

theorem readDigits_at {n : Nat} (h : s.Behind c a) (hn : a.length ≤ n) :
    (readDigits n c s).1 = (a.takeWhile isDigit).foldl addDigit 0 ∧
      (readDigits n c s).2.At ⟨a.dropWhile isDigit, (a.dropWhile isDigit).isEmpty⟩ := by
  obtain ⟨hta, hc, hrs, heof⟩ := getWhile_behind (p := isDigit) h hn
  refine ⟨by rw [← hta]; rfl, ?_, heof.trans isEmpty_iff.symm, isEmpty_iff.mp⟩
  rw [readDigits, Rd.rest, append_assoc, ← Rd.rest, hrs, hc]
  cases a.dropWhile _ <;> rfl

theorem readInt_at (h : s.At k) : (readInt s).1 = (intAt k.rest).1 ∧
    (readInt s).2.At ⟨(intAt k.rest).2, (intAt k.rest).2.isEmpty⟩ := by
  have hsk := (getcWhile_behind (p := isBlank) h).2
  have hle := (dropWhile_suffix isBlank (l := k.rest)).length_le
  rw [readInt, intAt, h.rest]
  generalize k.rest.dropWhile _ = b at hsk hle
  generalize getcWhile _ s = r at hsk
  obtain ⟨l, c, s'⟩ := r
  obtain _ | ⟨x, b⟩ := b
  · cases hsk.1
    exact ⟨rfl, hsk.at⟩
  cases hsk.1
  by_cases hsg : x = 45 ∨ x = 43
  · have hdigits := readDigits_at (a := b) (rdGetc_behind hsk.at) ((Nat.le_succ _).trans hle)
    simp [hsg, hdigits]
  · have hdigits := readDigits_at hsk hle
    simp [hsg, hdigits]

/-- `Eof` behind the last byte is asked only after a read has asked for a byte when none was left, and a line
that is read as a string fits the buffer. -/
def Cursor.Spared (k : Cursor) : ReadOp → Prop
  | .str => (lineAt k.rest).length ≤ 1024
  | .eof => k.rest = [] → k.met = true
  | _ => True

theorem readStep_at (h : s.At k) (op : ReadOp) : (readStep s op).1.At (cursorStep k op).1 := by
  cases op with
  | char => exact (rdGetc_behind h).at
  | int => exact (readInt_at h).2
  | str | ln => exact (getcWhile_behind h).2.at
  | eof => exact h

theorem readStep_value_iff (h : s.At k) (op : ReadOp) :
    (cursorStep k op).2 = (readStep s op).2 ↔ k.Spared op := by
  cases op with
  | char => simp [readStep, cursorStep, Cursor.Spared, (rdGetc_behind h).1]
  | int => exact iff_of_true (congrArg _ (readInt_at h).1.symm) trivial
  | str =>
    simp only [readStep, cursorStep, Cursor.Spared, ReadValue.str.injEq, (getcWhile_behind h).1]
    exact eq_comm.trans (take_eq_self_iff _)
  | ln => exact iff_of_true rfl trivial
  | eof =>
    rw [readStep, cursorStep, ReadValue.eof.injEq, Bool.eq_iff_iff, List.isEmpty_iff, h.eof]
    exact ⟨Iff.mp, fun himp => ⟨himp, h.none_left⟩⟩

/-- For every input, however `read` splits it, and every sequence of reads, the values are those of
the cursor exactly when every read is spared. -/
theorem reads_as_cursor_iff (input : List Chunk) (ops : List ReadOp) :
    (runAbstract cursorStep { rest := bytesOf input } ops).2 =
        (runAbstract readStep ⟨[], input, false⟩ ops).2 ↔
      OpsMeet (fun k op => some (cursorStep k op)) Cursor.Spared { rest := bytesOf input } ops :=
  runAbstract_eq_iff (fun k s => s.At k) (fun _ _ op h => readStep_at h op)
    (fun _ _ op h => readStep_value_iff h op) ⟨rfl, Iff.rfl, nofun⟩

/-- The one byte of the input has been read, and `Eof` is still false. -/
theorem eof_false_at_end : ¬ ∀ (input : List Chunk) (ops : List ReadOp),
    (runAbstract cursorStep { rest := bytesOf input } ops).2 =
      (runAbstract readStep ⟨[], input, false⟩ ops).2 := by
  intro h
  exact absurd (h [⟨97, [], by decide⟩] [.char, .eof]) (by decide)

end Skjegg.Runtime
