import Skjegg.Lib.Interaction
import Skjegg.Lib.Memory
import Skjegg.Lib.Text

/-!
# The wire cursors

`wire.h`: little-endian build and parse cursors with a sticky `ok` flag.  Positions and lengths are
32-bit unsigned, so every sum in a bounds check is taken modulo `2 ^ 32` as the code takes it.  A
parse cursor loads single bytes of the message, and each load is an event a proof can bound.
-/

namespace Skjegg.Fs

open Skjegg.Lib List
open Prog (wp_bind wp_pure)

/-- `uint32_t` arithmetic. -/
@[irreducible] def u32 (x : Nat) : Nat := x % 2 ^ 32

theorem u32_of_lt {x : Nat} (h : x < 2 ^ 32) : u32 x = x := by
  unfold u32
  exact Nat.mod_eq_of_lt h

/-! ## Building -/

/-- `struct wire_out`; the count `n` is the number of bytes built. -/
structure WireOut where
  bytes : List UInt8
  cap : Nat
  ok : Bool

def wireOutInit (cap : Nat) : WireOut := ⟨[], cap, true⟩

variable (o : WireOut)

/-- The bounds check of `n` more bytes fails. -/
def WireOut.Full (n : Nat) : Prop := o.cap < u32 (o.bytes.length + n)

instance (o : WireOut) (n : Nat) : Decidable (o.Full n) := inferInstanceAs (Decidable (_ < _))

def wirePutBytes (bytes : List UInt8) : WireOut :=
  if o.Full bytes.length then { o with ok := false }
  else { o with bytes := o.bytes ++ bytes }

def wirePutU8 (v : Nat) : WireOut := wirePutBytes o (lowBytes 1 v)

def wirePutU16 (v : Nat) : WireOut := wirePutBytes o (lowBytes 2 v)

def wirePutU32 (v : Nat) : WireOut := wirePutBytes o (lowBytes 4 v)

def wirePutU64 (v : Nat) : WireOut := wirePutU32 (wirePutU32 o (v % 2 ^ 32)) (v / 2 ^ 32)

def wirePutStr (s : CStr) : WireOut :=
  if 0xffff < s.length then { o with ok := false }
  else wirePutBytes (wirePutU16 o s.length) s

/-! ## Parsing -/

/-- `struct wire_in`: the message starts at `base` of the memory it stands in. -/
structure WireIn where
  mem : Mem
  (base len p : Nat)
  ok : Bool

def wireInInit (mem : Mem) (base len : Nat) : WireIn := ⟨mem, base, len, 0, true⟩

namespace WireIn

/-- The bounds check of a field of `n` bytes fails. -/
def Short (c : WireIn) (n : Nat) : Prop := c.len < u32 (c.p + n)

instance (c : WireIn) (n : Nat) : Decidable (c.Short n) := inferInstanceAs (Decidable (_ < _))

/-- Where `b[p + i]` stands; the index is itself a 32-bit sum. -/
def pos (c : WireIn) (i : Nat) : Nat := c.base + u32 (c.p + i)

def next (c : WireIn) (n : Nat) : List UInt8 := (range n).map fun i => c.mem (c.pos i)

end WireIn

def wireSkip (c : WireIn) (n : Nat) : WireIn :=
  if c.Short n then { c with ok := false } else { c with p := u32 (c.p + n) }

theorem ok_of_ok_skip {c : WireIn} {n : Nat} (h : (wireSkip c n).ok) : c.ok ∧ ¬ c.Short n := by
  unfold wireSkip at h
  split at h
  case isTrue => cases h
  case isFalse hft => exact ⟨h, hft⟩

section Parse

variable {H : Type} {B : H → Type}

/-- The fixed-width fields: `n` bytes, the lowest first; past the end the field reads as 0. -/
def wireGetLow (n : Nat) (c : WireIn) : Reader H B (Nat × WireIn) :=
  if c.Short n then pure (0, { c with ok := false })
  else do
    loadEach ((range n).map c.pos)
    pure (lowValue (c.next n), { c with p := u32 (c.p + n) })

def wireGetU8 (c : WireIn) : Reader H B (Nat × WireIn) := wireGetLow 1 c

def wireGetU16 (c : WireIn) : Reader H B (Nat × WireIn) := wireGetLow 2 c

def wireGetU32 (c : WireIn) : Reader H B (Nat × WireIn) := wireGetLow 4 c

def wireGetU64 (c : WireIn) : Reader H B (Nat × WireIn) := do
  let (lo, c) ← wireGetU32 c
  let (hi, c) ← wireGetU32 c
  pure (lo + hi * 2 ^ 32, c)

/-- How many bytes of a string are copied: none into a NULL destination, and never the last byte of
the buffer. -/
def copied (cap : Option Nat) (len : Nat) : Nat :=
  match cap with
  | none => 0
  | some cap => min len (cap - 1)

/-- A length-prefixed string into a buffer of `cap` bytes: what the buffer then holds, or `none`
when the bounds check fails. -/
def wireGetStr (cap : Option Nat) (c : WireIn) : Reader H B (Option CStr × WireIn) := do
  let (len, c) ← wireGetU16 c
  if c.Short len then pure (none, { c with ok := false })
  else do
    loadEach ((range (copied cap len)).map c.pos)
    pure (some (cString (c.next (copied cap len))), { c with p := u32 (c.p + len) })

end Parse

/-! ## What a field reads as

The value of a field and the cursor after it depend on the message alone; the loads do not matter to
a protocol that allows them all. -/

namespace WireIn

/-- The value of the field of `n` bytes at the cursor. -/
def low (c : WireIn) (n : Nat) : Nat :=
  if c.Short n then 0 else lowValue (c.next n)

/-- The string at the cursor, as its buffer of `cap` bytes holds it. -/
def str (c : WireIn) (cap : Option Nat) : Option CStr :=
  let c' := wireSkip c 2
  if c'.Short (c.low 2) then none else some (cString (c'.next (copied cap (c.low 2))))

def pastStr (c : WireIn) : WireIn := wireSkip (wireSkip c 2) (c.low 2)

end WireIn

variable {cap : Option Nat}

section Values

variable {H G : Type} {B : H → Type} {P : Protocol H B G} {g : G} {c : WireIn} {n : Nat}
  {Q : Nat × WireIn → G → Prop}

@[simp] theorem wp_wireGetLow :
    (wireGetLow n c : Reader H B _).wp P.anyLoad g Q ↔ Q (c.low n, wireSkip c n) g := by
  unfold wireGetLow WireIn.low wireSkip
  split
  · rfl
  · rw [wp_bind, wp_loadEach_anyLoad, wp_pure]

@[simp] theorem wp_wireGetStr {Q : Option CStr × WireIn → G → Prop} :
    (wireGetStr cap c : Reader H B _).wp P.anyLoad g Q ↔ Q (c.str cap, c.pastStr) g := by
  simp only [wireGetStr, wireGetU16, wp_bind, wp_wireGetLow, WireIn.str, WireIn.pastStr]
  rw [wireSkip.eq_def (wireSkip c 2)]
  split
  · rfl
  · rw [wp_bind, wp_loadEach_anyLoad, wp_pure]

end Values

/-! ## Loads stay in the message -/

namespace WireIn

/-- The cursor parses a part of `[lo, hi)` and has not passed position `k`. -/
structure Inside (c : WireIn) (lo hi k : Nat) : Prop where
  base_ge : lo ≤ c.base
  base_len_le : c.base + c.len ≤ hi
  p_le_len : c.p ≤ c.len
  p_le : c.p ≤ k

variable {c : WireIn} {lo hi k n : Nat}

theorem Inside.short_iff (h : c.Inside lo hi k) (hk : k + n < 2 ^ 32) : c.Short n ↔ c.len < c.p + n := by
  have hp := h.p_le
  unfold Short
  rw [u32_of_lt (by omega)]

theorem Inside.skip (h : c.Inside lo hi k) (hk : k + n < 2 ^ 32) : (wireSkip c n).Inside lo hi (k + n) := by
  have hp := h.p_le
  unfold wireSkip
  split
  case isTrue => exact ⟨h.base_ge, h.base_len_le, h.p_le_len, by show c.p ≤ k + n; omega⟩
  case isFalse hft =>
    rw [h.short_iff hk] at hft
    have hsum : u32 (c.p + n) = c.p + n := u32_of_lt (by omega)
    refine ⟨h.base_ge, h.base_len_le, ?_, ?_⟩
    · show u32 (c.p + n) ≤ c.len
      omega
    · show u32 (c.p + n) ≤ k + n
      omega

theorem Inside.pos_bounds (h : c.Inside lo hi k) (hk : k + n < 2 ^ 32) (hft : ¬ c.Short n)
    {i : Nat} (hi' : i < n) : lo ≤ c.pos i ∧ c.pos i < hi := by
  have hp := h.p_le
  have hba := h.base_ge
  have hlen := h.base_len_le
  rw [h.short_iff hk] at hft
  unfold WireIn.pos
  rw [u32_of_lt (by omega)]
  omega

end WireIn

section Bounds

variable {H : Type} {B : H → Type} {c : WireIn} {lo hi k n : Nat} {Q : Nat × WireIn → Unit → Prop}

theorem wp_wireGetLow_within (h : c.Inside lo hi k)
    (hk : k + n < 2 ^ 32) : (wireGetLow n c : Reader H B _).wp (.always (Reading.Within lo hi)) () Q ↔
      Q (c.low n, wireSkip c n) () := by
  unfold wireGetLow WireIn.low wireSkip
  split
  case isTrue => rfl
  case isFalse hft =>
    rw [wp_bind, wp_loadEach_within, wp_pure, and_iff_right]
    intro off hoff
    obtain ⟨i, hi', rfl⟩ := mem_map.mp hoff
    exact h.pos_bounds hk hft (mem_range.mp hi')

theorem low_lt (c : WireIn) (n : Nat) : c.low n < 256 ^ n := by
  unfold WireIn.low
  split
  · exact Nat.pow_pos (by decide)
  · have h := lowValue_lt (c.next n)
    rwa [WireIn.next, length_map, length_range] at h

theorem copied_le (cap : Option Nat) (len : Nat) : copied cap len ≤ len := by
  cases cap with
  | none => exact Nat.zero_le len
  | some cap => exact Nat.min_le_left len _

theorem WireIn.Inside.pastStr (h : c.Inside lo hi k) (hk : k + 65537 < 2 ^ 32) :
    c.pastStr.Inside lo hi (k + 65537) := by
  have hlen := low_lt c 2
  have hsk : (wireSkip c 2).Inside lo hi (k + 2) := h.skip (by omega)
  have hpt : c.pastStr.Inside lo hi (k + 2 + c.low 2) := hsk.skip (by omega)
  have hp := hpt.p_le
  exact ⟨hpt.base_ge, hpt.base_len_le, hpt.p_le_len, by omega⟩

theorem wp_wireGetStr_within {Q : Option CStr × WireIn → Unit → Prop}
    (h : c.Inside lo hi k) (hk : k + 65537 < 2 ^ 32) :
    (wireGetStr cap c : Reader H B _).wp (.always (Reading.Within lo hi)) () Q ↔
      Q (c.str cap, c.pastStr) () := by
  have hlen := low_lt c 2
  have hsk : (wireSkip c 2).Inside lo hi (k + 2) := h.skip (by omega)
  unfold wireGetStr wireGetU16
  rw [wp_bind, wp_wireGetLow_within h (by omega)]
  simp only [WireIn.str, WireIn.pastStr]
  rw [wireSkip.eq_def (wireSkip c 2)]
  split
  case isTrue => rfl
  case isFalse hft =>
    rw [wp_bind, wp_loadEach_within, wp_pure, and_iff_right]
    intro off hoff
    obtain ⟨i, hi', rfl⟩ := mem_map.mp hoff
    have hcop := copied_le cap (c.low 2)
    exact hsk.pos_bounds (by omega) hft (lt_of_lt_of_le (mem_range.mp hi') hcop)

end Bounds

end Skjegg.Fs
