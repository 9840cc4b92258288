import Mathlib.Data.Nat.Digits.Lemmas
import Mathlib.Tactic

/-!
# Text as bytes

Strings of bytes as C has them, lines and the words on a line.  What is printed line by line splits
into those lines again, and words put on a line with blanks between them are the words of the line.
-/

namespace Skjegg.Lib

open List

/-- A C string: its bytes up to the terminating NUL. -/
abbrev CStr := List UInt8

def cString (bytes : List UInt8) : CStr :=
  bytes.takeWhile (· ≠ 0)

/-- The bytes of an ASCII literal. -/
def text (s : String) : CStr := s.toList.map fun c => UInt8.ofNat c.toNat

/-! ## Lines -/

def splitLines (s : List UInt8) : List CStr := s.splitOnP (· == 10)

theorem splitLines_cons {line : CStr} (h : 10 ∉ line) (rest : List UInt8) :
    splitLines (line ++ 10 :: rest) = line :: splitLines rest := by
  have hsg : line.splitOnP (· == (10 : UInt8)) = [line] := by
    apply splitOnP_eq_singleton
    intro c hc
    have hne : c ≠ 10 := fun heq => h (heq ▸ hc)
    simpa using hne
  unfold splitLines
  rw [splitOnP_append_cons _ _ (by decide), hsg]
  rfl

def unlines (lines : List CStr) : List UInt8 := lines.flatMap fun line => line ++ [10]

theorem splitLines_unlines {lines : List CStr} (h : ∀ line ∈ lines, 10 ∉ line) :
    splitLines (unlines lines) = lines ++ [[]] := by
  induction lines with
  | nil => rfl
  | cons line lines ih =>
    rw [unlines, flatMap_cons, append_assoc]
    show splitLines (line ++ 10 :: unlines lines) = _
    rw [splitLines_cons (h _ mem_cons_self), ih fun l hl => h l (mem_cons_of_mem _ hl)]
    rfl

/-! ## Words -/

def isBlank (c : UInt8) : Bool := c == 32 || c == 9

def words (line : CStr) : List CStr := (line.splitOnP isBlank).filter (· ≠ [])

/-- A word: at least one character, and none is a blank. -/
structure IsWord (s : CStr) : Prop where
  ne_nil : s ≠ []
  no_blank : ∀ c ∈ s, isBlank c = false

theorem words_append_blank {w : CStr} (hw : IsWord w) {c : UInt8} (hc : isBlank c) (s : CStr) :
    words (w ++ c :: s) = w :: words s := by
  have hsg : w.splitOnP isBlank = [w] := by
    apply splitOnP_eq_singleton
    exact hw.no_blank
  unfold words
  rw [splitOnP_append_cons _ _ hc, hsg, filter_append]
  simp [hw.ne_nil]

theorem words_single {w : CStr} (hw : IsWord w) : words w = [w] := by
  have hsg : w.splitOnP isBlank = [w] := by
    apply splitOnP_eq_singleton
    exact hw.no_blank
  unfold words
  rw [hsg]
  simp [hw.ne_nil]

def spaced (ws : List CStr) : CStr := ws.flatMap fun w => 32 :: w

theorem words_spaced {w : CStr} {ws : List CStr} (hw : IsWord w) (hws : ∀ w ∈ ws, IsWord w) :
    words (w ++ spaced ws) = w :: ws := by
  induction ws generalizing w with
  | nil =>
    rw [spaced, flatMap_nil, append_nil]
    exact words_single hw
  | cons w' ws ih =>
    show words (w ++ 32 :: (w' ++ spaced ws)) = _
    rw [words_append_blank hw (by decide), ih (hws w' mem_cons_self) fun x hx =>
      hws x (mem_cons_of_mem _ hx)]

theorem words_trailing {ws : List CStr} (hws : ∀ w ∈ ws, IsWord w) :
    words (ws.flatMap fun w => w ++ [32]) = ws := by
  induction ws with
  | nil => rfl
  | cons w ws ih =>
    rw [flatMap_cons, append_assoc, singleton_append,
      words_append_blank (hws w mem_cons_self) (by decide), ih fun x hx =>
      hws x (mem_cons_of_mem _ hx)]

/-! ## Decimal numbers -/

def decimalNat (n : Nat) : CStr :=
  if n = 0 then [48] else (Nat.digits 10 n).reverse.map fun d => UInt8.ofNat (48 + d)

/-- `%d`. -/
def decimal (z : Int) : CStr :=
  if z < 0 then 45 :: decimalNat z.natAbs else decimalNat z.natAbs

theorem decimalNat_ne_nil (n : Nat) : decimalNat n ≠ [] := by
  unfold decimalNat
  split
  · exact cons_ne_nil _ _
  next h => simpa using Nat.digits_ne_nil_iff_ne_zero.mpr h

theorem mem_decimalNat {n : Nat} {c : UInt8} (h : c ∈ decimalNat n) : 48 ≤ c.toNat ∧ c.toNat ≤ 57 := by
  unfold decimalNat at h
  split at h
  · rw [mem_singleton.mp h]
    decide
  obtain ⟨d, hd, rfl⟩ := mem_map.mp h
  have hlt := Nat.digits_lt_base (by decide) (mem_reverse.mp hd)
  rw [UInt8.toNat_ofNat_of_lt' (by simp [UInt8.size]; omega)]
  omega

theorem decimal_ne_nil (z : Int) : decimal z ≠ [] := by
  unfold decimal
  split
  · exact cons_ne_nil _ _
  · exact decimalNat_ne_nil _

theorem mem_decimal {z : Int} {c : UInt8} (h : c ∈ decimal z) : c = 45 ∨ 48 ≤ c.toNat ∧ c.toNat ≤ 57 := by
  unfold decimal at h
  split at h
  · rcases mem_cons.mp h with rfl | h
    · exact .inl rfl
    · exact .inr (mem_decimalNat h)
  · exact .inr (mem_decimalNat h)

end Skjegg.Lib
