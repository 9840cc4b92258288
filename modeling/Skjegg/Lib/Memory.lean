import Mathlib.Data.List.GetD
import Mathlib.Data.Nat.Digits.Lemmas
import Mathlib.Tactic

/-!
# Byte memory

A flat memory of bytes, read and written in runs of bytes, and words of any width in either byte
order on top of it.  Everything a program proof needs is here: what was written is read back, and
a write changes no byte outside its run.
-/

namespace Skjegg.Lib

open List

/-- A memory: the byte at each address. -/
abbrev Mem := Nat → UInt8

namespace Mem

variable {m m' : Mem} {a b n x : Nat} {bytes : List UInt8}

/-! ## Runs of bytes -/

def read (m : Mem) (a n : Nat) : List UInt8 := (range n).map fun i => m (a + i)

def write (m : Mem) (a : Nat) (bytes : List UInt8) : Mem := fun x =>
  if a ≤ x then bytes.getD (x - a) (m x) else m x

@[simp] theorem length_read : (m.read a n).length = n := by
  simp [read]

theorem write_outside (h : x < a ∨ a + bytes.length ≤ x) : m.write a bytes x = m x := by
  unfold write
  split
  · exact getD_eq_default _ _ (by omega)
  · rfl

theorem write_inside {i : Nat} (h : i < bytes.length) : m.write a bytes (a + i) = bytes[i] := by
  unfold write
  rw [if_pos (Nat.le_add_right a i), Nat.add_sub_cancel_left, getD_eq_getElem _ _ h]

theorem read_congr (h : ∀ x, a ≤ x → x < a + n → m x = m' x) : m.read a n = m'.read a n := by
  apply map_congr_left
  intro i hi
  exact h _ (Nat.le_add_right a i) (Nat.add_lt_add_left (mem_range.mp hi) a)

theorem read_write_self : (m.write a bytes).read a bytes.length = bytes := by
  apply ext_getElem (by simp)
  intro i hi hlt
  simp only [read, getElem_map, getElem_range]
  exact write_inside hlt

def copy (m : Mem) (dst src n : Nat) : Mem := m.write dst (m.read src n)

theorem copy_outside {dst src : Nat} (h : x < dst ∨ dst + n ≤ x) : m.copy dst src n x = m x :=
  write_outside (by simpa using h)

theorem copy_inside {dst src i : Nat} (h : i < n) : m.copy dst src n (dst + i) = m (src + i) := by
  unfold copy
  rw [write_inside (by simpa using h)]
  simp [read]

end Mem

/-! ## Words -/

/-- The order of a word's bytes in memory. -/
inductive Endian
  | little
  | big
  deriving DecidableEq, Repr

def lowBytes : Nat → Nat → List UInt8
  | 0, _ => []
  | w + 1, v => UInt8.ofNat v :: lowBytes w (v / 256)

@[simp] theorem length_lowBytes (w v : Nat) : (lowBytes w v).length = w := by
  induction w generalizing v with
  | zero => rfl
  | succ w ih => rw [lowBytes, length_cons, ih]

def lowValue (bytes : List UInt8) : Nat := Nat.ofDigits 256 (bytes.map UInt8.toNat)

theorem lowValue_lt (bytes : List UInt8) : lowValue bytes < 256 ^ bytes.length := by
  have h : ∀ d ∈ bytes.map UInt8.toNat, d < 256 := by
    simp only [mem_map]
    rintro _ ⟨b, -, rfl⟩
    exact b.toNat_lt
  unfold lowValue
  simpa using Nat.ofDigits_lt_base_pow_length (by decide) h

theorem lowValue_lowBytes {w v : Nat} (h : v < 256 ^ w) : lowValue (lowBytes w v) = v := by
  induction w generalizing v with
  | zero =>
    rw [pow_zero, Nat.lt_one_iff] at h
    rw [h]
    rfl
  | succ w ih =>
    have hdiv : v / 256 < 256 ^ w := by
      rw [pow_succ, mul_comm] at h
      exact Nat.div_lt_of_lt_mul h
    have hcons : lowValue (lowBytes (w + 1) v) = v % 256 + 256 * lowValue (lowBytes w (v / 256)) :=
      Nat.ofDigits_cons ..
    rw [hcons, ih hdiv]
    exact Nat.mod_add_div v 256

namespace Endian

def encode : Endian → Nat → Nat → List UInt8
  | little, w, v => lowBytes w v
  | big, w, v => (lowBytes w v).reverse

/-- The value of a word's bytes. -/
def decode : Endian → List UInt8 → Nat
  | little, bytes => lowValue bytes
  | big, bytes => lowValue bytes.reverse

@[simp] theorem length_encode (e : Endian) (w v : Nat) : (e.encode w v).length = w := by
  cases e <;> simp [encode]

theorem decode_encode (e : Endian) {w v : Nat} (h : v < 256 ^ w) : e.decode (e.encode w v) = v := by
  cases e with
  | little => exact lowValue_lowBytes h
  | big =>
    show lowValue (lowBytes w v).reverse.reverse = v
    rw [reverse_reverse]
    exact lowValue_lowBytes h

theorem decode_lt (e : Endian) (bytes : List UInt8) : e.decode bytes < 256 ^ bytes.length := by
  cases e with
  | little => exact lowValue_lt _
  | big => simpa [decode] using lowValue_lt bytes.reverse

end Endian

namespace Mem

variable {e : Endian} {m m' : Mem} {w u a b v x : Nat}

def load (e : Endian) (w : Nat) (m : Mem) (a : Nat) : Nat := e.decode (m.read a w)

def store (e : Endian) (w : Nat) (m : Mem) (a v : Nat) : Mem := m.write a (e.encode w v)

theorem load_congr (h : ∀ x, a ≤ x → x < a + w → m x = m' x) : load e w m a = load e w m' a := by
  unfold load
  rw [read_congr h]

theorem load_store_self (h : v < 256 ^ w) : load e w (store e w m a v) a = v := by
  have hrd := @read_write_self m a (e.encode w v)
  rw [Endian.length_encode] at hrd
  unfold load store
  rw [hrd]
  exact e.decode_encode h

theorem store_outside (h : x < a ∨ a + w ≤ x) : store e w m a v x = m x := write_outside (by simpa using h)

theorem load_store_apart (h : b + u ≤ a ∨ a + w ≤ b) : load e u (store e w m a v) b = load e u m b :=
  load_congr fun _ _ _ => store_outside (by omega)

end Mem

/-! ## Data models -/

/-- How a compiler lays out C data: the byte order, and the bytes of a pointer, a `size_t` and a
`long` (4 on ILP32 targets, 8 on LP64 ones). -/
structure DataModel where
  endian : Endian
  ptr : Nat
  ptr_eq : ptr = 4 ∨ ptr = 8

namespace DataModel

/-- The number of addresses, and of values of a `size_t`. -/
def addresses (t : DataModel) : Nat := 2 ^ (8 * t.ptr)

def toLong (t : DataModel) (v : Nat) : Int := (BitVec.ofNat (8 * t.ptr) v).toInt

variable (t : DataModel)

theorem addresses_eq : t.addresses = 256 ^ t.ptr := by
  unfold addresses
  rw [pow_mul, show 2 ^ 8 = 256 from rfl]

theorem addresses_eq_two_mul : t.addresses = 2 * 2 ^ (8 * t.ptr - 1) := by
  unfold addresses
  have hpos : 0 < t.ptr := by rcases t.ptr_eq with h | h <;> omega
  rw [← pow_succ', show 8 * t.ptr - 1 + 1 = 8 * t.ptr by omega]

theorem toLong_of_lt {v : Nat} (h : v < 2 ^ (8 * t.ptr - 1)) : t.toLong v = v := by
  have htop := t.addresses_eq_two_mul
  unfold addresses at htop
  have hmod : (BitVec.ofNat (8 * t.ptr) v).toNat = v := by
    exact Nat.mod_eq_of_lt (by omega)
  unfold toLong
  rw [BitVec.toInt_eq_toNat_of_lt (by omega), hmod]

theorem toLong_of_ge {v : Nat} (h : 2 ^ (8 * t.ptr - 1) ≤ v) (hlt : v < t.addresses) :
    t.toLong v = v - t.addresses := by
  have htop := t.addresses_eq_two_mul
  unfold addresses at htop hlt ⊢
  have hmod : (BitVec.ofNat (8 * t.ptr) v).toNat = v := by
    exact Nat.mod_eq_of_lt hlt
  unfold toLong
  rw [BitVec.toInt_eq_toNat_cond, hmod, if_neg (by omega)]

end DataModel

end Skjegg.Lib
