import Mathlib.Data.List.TakeWhile
import Skjegg.Lib.Text

/-!
# `strtol` and `strtoll` of the C library

A string is the bytes in front of its terminator, a pointer into it the bytes that are left, and a
read at the end gives the terminator.  The two parsers differ in the width of their integer only.
-/

namespace Skjegg.Libc

open List

/-! ## The parser -/

def isspace (c : UInt8) : Bool := c == 32 || c == 9 || c == 10 || c == 11 || c == 12 || c == 13

def skipSpace : List UInt8 → List UInt8
  | [] => []
  | c :: s => if isspace c then skipSpace s else c :: s

def takeSign : List UInt8 → Bool × List UInt8
  | [] => (false, [])
  | c :: s =>
    if c = 43 then (false, s)         -- '+'
    else if c = 45 then (true, s)     -- '-'
    else (false, c :: s)

def behindHex : List UInt8 → Option (List UInt8)
  | c :: x :: s => if c = 48 ∧ (x = 120 ∨ x = 88) then some s else none
  | _ => none

/-- The base to scan with, and where the scan begins. -/
def takePrefix (base : Nat) (s : List UInt8) : Nat × List UInt8 :=
  match if base = 0 ∨ base = 16 then behindHex s else none with
  | some r => (16, r)
  | none =>
    if base = 0 then if s.head? = some 48 then (8, s) else (10, s)
    else
      (base, s)

/-- The digit a character stands for, before it is compared with the base. -/
def digitOf (c : UInt8) : Option Nat :=
  if 48 ≤ c.toNat ∧ c.toNat ≤ 57 then
    some (c.toNat - 48)                 -- '0' .. '9'
  else if 97 ≤ c.toNat ∧ c.toNat ≤ 122 then
    some (c.toNat - 97 + 10)            -- 'a' .. 'z'
  else if 65 ≤ c.toNat ∧ c.toNat ≤ 90 then
    some (c.toNat - 65 + 10)            -- 'A' .. 'Z'
  else
    none

structure Scan where
  acc : Nat
  (any overflow : Bool)
  deriving DecidableEq, Repr

/-- The digit loop, for an unsigned type of `w` bits. -/
def scanDigits (w base : Nat) (st : Scan) : List UInt8 → Scan × List UInt8
  | [] => (st, [])
  | c :: s =>
    match digitOf c with
    | none => (st, c :: s)
    | some d =>
      if base ≤ d then (st, c :: s)
      else
        let cutoff := (2 ^ w - 1) / base
        let cutlim := (2 ^ w - 1) % base
        if st.overflow ∨ cutoff < st.acc ∨ (st.acc = cutoff ∧ cutlim < d) then
          scanDigits w base { st with any := true, overflow := true } s
        else
          scanDigits w base { st with any := true, acc := (st.acc * base + d) % 2 ^ w } s

/-- The value, the flag (0 and 1 the sign, 2 and 3 an overflow below and above), and `*end`. -/
structure Parsed where
  (acc neg : Nat)
  rest : List UInt8
  deriving DecidableEq, Repr

/-- The parser for an unsigned type of `w` bits. -/
def parseInteger (w : Nat) (s : List UInt8) (base : Nat) : Parsed :=
  let start := s
  let (neg, s) := takeSign (skipSpace s)
  let (base, s) := takePrefix base s
  let (st, s) := scanDigits w base ⟨0, false, false⟩ s
  { acc := st.acc
    neg := if st.overflow then (if neg then 2 else 3) else (if neg then 1 else 0)
    rest := if st.any then s else start }

/-- What a conversion returns: the value, `*end`, and whether `errno` was set to `ERANGE`. -/
structure Converted where
  value : Int
  rest : List UInt8
  erange : Bool
  deriving DecidableEq, Repr

/-- The conversion to a signed type of `w` bits.  `(long)v` and the negation wrap around. -/
def toSigned (w : Nat) (p : Parsed) : Converted :=
  if p.neg = 2 then ⟨-2 ^ (w - 1), p.rest, true⟩
  else if p.neg = 3 then ⟨2 ^ (w - 1) - 1, p.rest, true⟩
  else if p.neg ≠ 0 then
    if 2 ^ (w - 1) - 1 + 1 < p.acc then ⟨-2 ^ (w - 1), p.rest, true⟩
    else
      ⟨Int.bmod (-Int.bmod p.acc (2 ^ w)) (2 ^ w), p.rest, false⟩
  else if 2 ^ (w - 1) - 1 < p.acc then ⟨2 ^ (w - 1) - 1, p.rest, true⟩
  else
    ⟨Int.bmod p.acc (2 ^ w), p.rest, false⟩

def toUnsigned (w : Nat) (p : Parsed) : Converted :=
  if p.neg = 2 ∨ p.neg = 3 then ⟨2 ^ w - 1, p.rest, true⟩
  else if p.neg ≠ 0 then ⟨-(p.acc : Int) % 2 ^ w, p.rest, false⟩ else ⟨p.acc, p.rest, false⟩

/-- The targets' sizes of `long`: `__skj_lp64__` or not. -/
inductive DataModel
  | ilp32
  | lp64
  deriving DecidableEq, Repr

def DataModel.longBits : DataModel → Nat
  | ilp32 => 32
  | lp64 => 64

variable (dm : DataModel)

variable (s : List UInt8)

def parseUl (base : Nat) : Parsed := parseInteger dm.longBits s base

def parseUll (base : Nat) : Parsed := parseInteger 64 s base

def strtol (base : Nat) : Converted :=
  toSigned dm.longBits (parseUl dm s base)

def strtoul (base : Nat) : Converted :=
  toUnsigned dm.longBits (parseUl dm s base)

def strtoll (base : Nat) : Converted := toSigned 64 (parseUll s base)

/-! ## Numerals -/

def IsDigit (base : Nat) (c : UInt8) : Prop := ∃ d, digitOf c = some d ∧ d < base

instance (base : Nat) (c : UInt8) : Decidable (IsDigit base c) :=
  match h : digitOf c with
  | none => isFalse fun ⟨_, hd, _⟩ => by simp [h] at hd
  | some d => decidable_of_iff (d < base) (by simp [IsDigit, h])

inductive Sign
  | none
  | plus
  | minus
  deriving DecidableEq, Repr

def Sign.text : Sign → List UInt8
  | none => []
  | plus => [43]
  | minus => [45]

/-- The mark of a hexadecimal numeral. -/
inductive HexMark
  | none
  | lower
  | upper
  deriving DecidableEq, Repr

def HexMark.text : HexMark → List UInt8
  | none => []
  | lower => [48, 120]
  | upper => [48, 88]

def radix (base : Nat) (hex : HexMark) (digits : List UInt8) : Nat :=
  if hex ≠ .none then 16
  else if base = 0 then (if digits.head? = some 48 then 8 else 10)
  else base

/-- White space, a sign, `0x` or `0X` for base 0 or 16, all optional, and one or more digits of the
base. -/
structure Numeral (base : Nat) where
  spaces : List UInt8
  sign : Sign
  hex : HexMark
  digits : List UInt8
  spaces_ok : ∀ c ∈ spaces, isspace c
  hex_ok : hex ≠ .none → base = 0 ∨ base = 16
  digits_ne : digits ≠ []
  digits_ok : ∀ c ∈ digits, IsDigit (radix base hex digits) c

def digitsValue (base : Nat) (digits : List UInt8) : Nat :=
  Nat.ofDigits base (digits.reverse.map fun c => (digitOf c).getD 0)

namespace Numeral

variable {base : Nat}

def text (n : Numeral base) : List UInt8 := n.spaces ++ (n.sign.text ++ (n.hex.text ++ n.digits))

def value (n : Numeral base) : Int :=
  let v : Int := digitsValue (radix base n.hex n.digits) n.digits
  if n.sign = .minus then -v else v

def IsLongest (n : Numeral base) (s : List UInt8) : Prop :=
  n.text <+: s ∧ ∀ n' : Numeral base, n'.text <+: s → n'.text.length ≤ n.text.length

end Numeral

/-- The nearest value of a signed type of `w` bits. -/
def clamp (w : Nat) (x : Int) : Int := max (-2 ^ (w - 1)) (min x (2 ^ (w - 1) - 1))

/-- What a conversion is to return. -/
def Converts (w base : Nat) (s : List UInt8) (r : Converted) : Prop :=
  (∃ n : Numeral base, n.IsLongest s ∧ r.rest = s.drop n.text.length ∧ r.value = clamp w n.value) ∨
    ((∀ n : Numeral base, ¬n.text <+: s) ∧ r.rest = s ∧ r.value = 0)

/-- In base 0 or 16 the string has `0x` or `0X` behind white space and sign, and no hexadecimal digit
after it. -/
def BareHex (base : Nat) (s : List UInt8) : Prop :=
  (base = 0 ∨ base = 16) ∧ ∃ (spaces : List UInt8) (sign : Sign) (hex : HexMark) (rest : List UInt8),
      s = spaces ++ (sign.text ++ (hex.text ++ rest)) ∧ (∀ c ∈ spaces, isspace c) ∧ hex ≠ .none ∧
        ∀ c, rest.head? = some c → ¬IsDigit 16 c

/-! ## The value of the digits -/

variable {acc d : Nat} {c : UInt8} {r rest : List UInt8} {hex : HexMark}

section Value

variable {w base : Nat}

theorem cutoff_iff {max : Nat} (hba : 0 < base) (hd : d < base) :
    max / base < acc ∨ (acc = max / base ∧ max % base < d) ↔ max < acc * base + d := by
  have hdiv := Nat.div_add_mod max base
  have hmod := Nat.mod_lt max hba
  have hcomm := mul_comm base (max / base)
  constructor
  · rintro (hlt | ⟨rfl, hlt⟩)
    · have : (max / base + 1) * base ≤ acc * base := Nat.mul_le_mul_right _ hlt
      rw [Nat.succ_mul] at this
      omega
    · omega
  intro hlt
  by_contra hnot
  push Not at hnot
  rcases lt_or_eq_of_le hnot.1 with hacc | hacc
  · have : (acc + 1) * base ≤ max / base * base := Nat.mul_le_mul_right _ hacc
    rw [Nat.succ_mul] at this
    omega
  · rw [hacc] at hlt
    omega

def valueFrom (base acc : Nat) (digits : List UInt8) : Nat :=
  acc * base ^ digits.length + digitsValue base digits

theorem valueFrom_nil (acc : Nat) : valueFrom base acc [] = acc := by
  simp [valueFrom, digitsValue]

theorem valueFrom_cons {digits : List UInt8} (h : digitOf c = some d) :
    valueFrom base acc (c :: digits) = valueFrom base (acc * base + d) digits := by
  simp only [valueFrom, digitsValue, reverse_cons, map_append, map_cons, map_nil,
    Nat.ofDigits_append, Nat.ofDigits_singleton, length_map, length_reverse,
    length_cons, h, Option.getD_some]
  ring

theorem le_valueFrom (hba : 0 < base) (acc : Nat) (digits : List UInt8) :
    acc ≤ valueFrom base acc digits :=
  (Nat.le_mul_of_pos_right acc (Nat.pow_pos hba)).trans (Nat.le_add_right _ _)

theorem scanDigits_spec (hba : 0 < base) (st : Scan) (s : List UInt8) (hacc : st.acc < 2 ^ w) :
    let digits := s.takeWhile (IsDigit base ·)
    let r := scanDigits w base st s
    r.2 = s.dropWhile (IsDigit base ·) ∧ (r.1.any = true ↔ st.any = true ∨ digits ≠ []) ∧
      (r.1.overflow = true ↔ st.overflow = true ∨ 2 ^ w ≤ valueFrom base st.acc digits) ∧
      (r.1.overflow = false → r.1.acc = valueFrom base st.acc digits) := by
  induction s generalizing st with
  | nil => simp [scanDigits, valueFrom_nil, hacc]
  | cons c s ih =>
    by_cases hdig : IsDigit base c
    · obtain ⟨d, hd, hlt⟩ := hdig
      have hdig : IsDigit base c := ⟨d, hd, hlt⟩
      simp only [scanDigits, hd, if_neg (not_le.mpr hlt), takeWhile_cons, dropWhile_cons, hdig,
        decide_true, if_true, valueFrom_cons hd, ne_eq, reduceCtorEq, not_false_eq_true, or_true,
        iff_true]
      by_cases hover : st.overflow = true ∨ (2 ^ w - 1) / base < st.acc ∨
          (st.acc = (2 ^ w - 1) / base ∧ (2 ^ w - 1) % base < d)
      · rw [if_pos hover]
        obtain ⟨hrs, hany, hov, -⟩ := ih { st with any := true, overflow := true } hacc
        refine ⟨hrs, hany.mpr (.inl rfl), ?_, ?_⟩
        · have hset := hov.mpr (.inl rfl)
          simp only [hset, true_iff]
          rcases hover with h | h
          · exact .inl h
          -- the value has left the type and only grows from here
          have hgt := (cutoff_iff hba hlt).mp h
          have := le_valueFrom hba (st.acc * base + d) (s.takeWhile (IsDigit base ·))
          exact .inr (by omega)
        · intro hff
          rw [hov.mpr (.inl rfl)] at hff
          cases hff
      · rw [if_neg hover]
        have hft : st.acc * base + d < 2 ^ w := by
          by_contra hge
          exact hover (.inr ((cutoff_iff hba hlt).mpr (by omega)))
        rw [Nat.mod_eq_of_lt hft]
        obtain ⟨hrs, hany, hov, hval⟩ := ih { st with any := true, acc := st.acc * base + d } hft
        exact ⟨hrs, hany.mpr (.inl rfl), hov, hval⟩
    · have hsp : scanDigits w base st (c :: s) = (st, c :: s) := by
        rw [scanDigits]
        cases hd : digitOf c with
        | none => rfl
        | some d =>
          have hge : base ≤ d := by
            by_contra hlt
            exact hdig ⟨d, hd, not_le.mp hlt⟩
          simp [if_pos hge]
      rw [hsp]
      simp [hdig, valueFrom_nil, hacc]

end Value

/-! ## White space, sign and mark -/

theorem skipSpace_eq : skipSpace s = s.dropWhile isspace := by
  induction s with
  | nil => rfl
  | cons c s ih => rw [skipSpace, dropWhile_cons, ih]

theorem not_isspace_of_digitOf (h : digitOf c = some d) : isspace c = false ∧ c ≠ 43 ∧ c ≠ 45 := by
  have hno : ∀ x ∈ ([32, 9, 10, 11, 12, 13, 43, 45] : List UInt8), digitOf x = none := by decide +kernel
  have hne : ∀ x ∈ ([32, 9, 10, 11, 12, 13, 43, 45] : List UInt8), c ≠ x := by
    rintro x hx rfl
    rw [hno c hx] at h
    cases h
  simp only [mem_cons, not_mem_nil, or_false, forall_eq_or_imp, forall_eq] at hne
  simp [isspace, hne]

theorem takeSign_text (sign : Sign) (h : digitOf c = some d) (s : List UInt8) :
    takeSign (sign.text ++ c :: s) = (decide (sign = .minus), c :: s) := by
  obtain ⟨-, hplus, hmin⟩ := not_isspace_of_digitOf h
  cases sign with
  | none => simp [Sign.text, takeSign, hplus, hmin]
  | plus | minus => rfl

theorem skipSpace_lead {spaces s : List UInt8} {sign : Sign}
    (hsps : ∀ c ∈ spaces, isspace c) (h : digitOf c = some d) :
    skipSpace (spaces ++ (sign.text ++ c :: s)) = sign.text ++ c :: s := by
  rw [skipSpace_eq, dropWhile_append_of_pos hsps]
  have hc := (not_isspace_of_digitOf h).1
  cases sign with
  | none => simp [Sign.text, hc]
  | plus | minus => rfl

structure Lead (s spaces : List UInt8) (sign : Sign) (u : List UInt8) : Prop where
  split : s = spaces ++ (sign.text ++ u)
  spaces_ok : ∀ c ∈ spaces, isspace c
  parse : takeSign (skipSpace s) = (decide (sign = .minus), u)

theorem exists_lead : ∃ spaces sign u, Lead s spaces sign u := by
  have hspl : s = s.takeWhile isspace ++ skipSpace s := by
    rw [skipSpace_eq, takeWhile_append_dropWhile]
  have hsps : ∀ c ∈ s.takeWhile isspace, isspace c := fun c hc => mem_takeWhile_imp hc
  cases ht : skipSpace s with
  | nil => exact ⟨_, .none, [], by rw [ht] at hspl; exact hspl, hsps, by rw [ht]; rfl⟩
  | cons c t =>
    rw [ht] at hspl
    by_cases hplus : c = 43
    · subst hplus
      exact ⟨_, .plus, t, hspl, hsps, by rw [ht]; rfl⟩
    by_cases hmin : c = 45
    · subst hmin
      exact ⟨_, .minus, t, hspl, hsps, by rw [ht]; rfl⟩
    · exact ⟨_, .none, c :: t, hspl, hsps, by rw [ht]; simp [takeSign, hplus, hmin]⟩

namespace Numeral

variable {base : Nat} {s spaces u : List UInt8} {sign : Sign}

def body (n : Numeral base) : List UInt8 := n.hex.text ++ n.digits

theorem body_cons (n : Numeral base) : ∃ c t d, n.body = c :: t ∧ digitOf c = some d := by
  unfold body
  cases hhex : n.hex with
  | lower => exact ⟨48, 120 :: n.digits, 0, rfl, by decide⟩
  | upper => exact ⟨48, 88 :: n.digits, 0, rfl, by decide⟩
  | none =>
    cases hdgs : n.digits with
    | nil => exact absurd hdgs n.digits_ne
    | cons c t =>
      obtain ⟨d, hd, -⟩ := n.digits_ok c (by rw [hdgs]; exact mem_cons_self)
      exact ⟨c, t, d, rfl, hd⟩

theorem body_leads (n : Numeral base) (hld : Lead s spaces sign u) (h : n.text <+: s) :
    n.body <+: u ∧ n.text.length + u.length = s.length + n.body.length := by
  obtain ⟨tail, htl⟩ := h
  obtain ⟨c, t, d, hbo, hd⟩ := n.body_cons
  have hs : s = n.spaces ++ (n.sign.text ++ c :: (t ++ tail)) := by
    rw [← htl, text, ← body, hbo]
    simp
  have hprs : takeSign (skipSpace s) = (decide (n.sign = .minus), c :: (t ++ tail)) := by
    rw [hs, skipSpace_lead n.spaces_ok hd, takeSign_text _ hd]
  have hu : u = n.body ++ tail := by
    rw [hbo]
    exact (Prod.mk.inj (hld.parse.symm.trans hprs)).2
  refine ⟨⟨tail, hu.symm⟩, ?_⟩
  rw [hu, ← htl]
  simp only [length_append]
  omega

theorem text_leads (n : Numeral base) (hld : Lead s spaces sign u) (hsps : n.spaces = spaces)
    (hsg : n.sign = sign) (h : n.body <+: u) : n.text <+: s := by
  rw [text, hld.split, hsps, hsg]
  exact (prefix_append_right_inj _).mpr ((prefix_append_right_inj _).mpr h)

theorem isLongest_of_body (n : Numeral base) (hld : Lead s spaces sign u)
    (hsps : n.spaces = spaces) (hsg : n.sign = sign) (h : n.body <+: u)
    (hmax : ∀ n' : Numeral base, n'.body <+: u → n'.body.length ≤ n.body.length) : n.IsLongest s := by
  have htx := n.text_leads hld hsps hsg h
  refine ⟨htx, fun n' hn' => ?_⟩
  have hlen := (n.body_leads hld htx).2
  obtain ⟨hbo', hlen'⟩ := n'.body_leads hld hn'
  have := hmax n' hbo'
  omega

end Numeral

theorem length_le_takeWhile {p : UInt8 → Bool} {l u : List UInt8} (h : l <+: u)
    (hp : ∀ c ∈ l, p c) : l.length ≤ (u.takeWhile p).length := by
  obtain ⟨t, rfl⟩ := h
  rw [takeWhile_append_of_pos hp, length_append]
  exact Nat.le_add_right _ _

theorem isDigit_of_mem {ρ : Nat} {u : List UInt8} (h : c ∈ u.takeWhile (IsDigit ρ ·)) : IsDigit ρ c := by
  simpa using mem_takeWhile_imp h

theorem HexMark.text_eq (h : hex ≠ .none) : ∃ x, (x = 120 ∨ x = 88) ∧ hex.text = [48, x] := by
  cases hex with
  | none => exact absurd rfl h
  | lower => exact ⟨120, .inl rfl, rfl⟩
  | upper => exact ⟨88, .inr rfl, rfl⟩

theorem behindHex_text (h : hex ≠ .none) (s : List UInt8) :
    behindHex (hex.text ++ s) = some s := by
  obtain ⟨x, hx, htx⟩ := HexMark.text_eq h
  rw [htx]
  exact if_pos ⟨rfl, hx⟩

/-! ## The parser's result -/

section Result

variable {w base : Nat} {s spaces u v : List UInt8} {sign : Sign} {ρ : Nat}

theorem bmod_neg_bmod {half v : Nat} (hv : v ≤ half) (hpos : 0 < half) :
    Int.bmod (-Int.bmod v (2 * half)) (2 * half) = -(v : Int) := by
  rcases lt_or_eq_of_le hv with hlt | rfl
  · have hsf : Int.bmod v (2 * half) = (v : Int) :=
      Int.bmod_eq_of_le_mul_two (by omega) (by push_cast; omega)
    rw [hsf]
    exact Int.bmod_eq_of_le_mul_two (by push_cast; omega) (by omega)
  have hsf : Int.bmod v (2 * v) = -(v : Int) := by
    rw [Int.bmod, Int.emod_eq_of_lt (by omega) (by push_cast; omega)]
    split <;> omega
  rw [hsf, neg_neg, hsf]

theorem toSigned_value (hw : 0 < w) {value : Nat} {neg overflow : Bool} (rest : List UInt8)
    (hover : overflow = true ↔ 2 ^ w ≤ value) (hacc : overflow = false → acc = value) :
    (toSigned w ⟨acc, if overflow then (if neg then 2 else 3) else (if neg then 1 else 0), rest⟩).value =
      clamp w (if neg then -(value : Int) else value) := by
  obtain ⟨k, rfl⟩ : ∃ k, w = k + 1 := ⟨w - 1, by omega⟩
  have hpow : (2 : Nat) ^ (k + 1) = 2 * 2 ^ k := by rw [pow_succ, mul_comm]
  have hpos : 0 < (2 : Nat) ^ k := Nat.two_pow_pos k
  have hcast : (2 : Int) ^ k = ((2 ^ k : Nat) : Int) := by push_cast; rfl
  simp only [toSigned, clamp, Nat.add_sub_cancel, hpow, hcast] at *
  generalize (2 : Nat) ^ k = half at *
  cases overflow with
  | true =>
    have hge := hover.mp rfl
    cases neg <;> simp only [reduceIte, Bool.false_eq_true] <;> norm_num <;> omega
  | false =>
    rw [hacc rfl]
    cases neg with
    | true =>
      by_cases hbig : half < value
      · simp only [Bool.false_eq_true, reduceIte, Nat.sub_add_cancel hpos, if_pos hbig]
        norm_num
        omega
      · simp only [Bool.false_eq_true, reduceIte, Nat.sub_add_cancel hpos, if_neg hbig]
        norm_num [bmod_neg_bmod (not_lt.mp hbig) hpos]
        omega
    | false =>
      by_cases hbig : half - 1 < value
      · simp only [Bool.false_eq_true, reduceIte, if_pos hbig]
        norm_num
        omega
      · simp only [Bool.false_eq_true, reduceIte, if_neg hbig]
        norm_num [Int.bmod_eq_of_le_mul_two (show -((2 * half : Nat) : Int) ≤ value * 2 by omega)
          (by push_cast; omega)]
        omega

theorem toSigned_rest (p : Parsed) : (toSigned w p).rest = p.rest := by
  unfold toSigned
  split
  · rfl
  split
  · rfl
  · split
    · split <;> rfl
    · split <;> rfl

theorem convert_eq (hw : 0 < w) (hρ : 0 < ρ) (hld : Lead s spaces sign u)
    (hpre : takePrefix base u = (ρ, v)) :
    let digits := v.takeWhile (IsDigit ρ ·)
    let r := toSigned w (parseInteger w s base)
    r.value = clamp w (if sign = .minus then -(digitsValue ρ digits : Int) else digitsValue ρ digits) ∧
      r.rest = if digits = [] then s else v.dropWhile (IsDigit ρ ·) := by
  obtain ⟨hrs, hany, hover, hacc⟩ :=
    scanDigits_spec hρ ⟨0, false, false⟩ v (show 0 < 2 ^ w from Nat.two_pow_pos w)
  have hzero : ∀ digits, valueFrom ρ 0 digits = digitsValue ρ digits := by
    intro digits
    rw [valueFrom, zero_mul, zero_add]
  simp only [hzero, Bool.false_eq_true, false_or] at hany hover hacc
  simp only [parseInteger, hld.parse, hpre, toSigned_rest]
  constructor
  · rw [toSigned_value hw _ hover hacc]
    simp
  rw [hrs]
  by_cases hnil : v.takeWhile (IsDigit ρ ·) = []
  · rw [if_pos hnil, if_neg fun h => hany.mp h hnil]
  · rw [if_neg hnil, if_pos (hany.mpr hnil)]

theorem converts_of_numeral (hw : 0 < w) (hρ : 0 < ρ) (hld : Lead s spaces sign u)
    (hpre : takePrefix base u = (ρ, v)) (n : Numeral base) (hsps : n.spaces = spaces)
    (hsg : n.sign = sign) (hu : u = n.hex.text ++ v) (hdgs : n.digits = v.takeWhile (IsDigit ρ ·))
    (hrad : radix base n.hex n.digits = ρ)
    (hmax : ∀ n' : Numeral base, n'.body <+: u → n'.body.length ≤ n.body.length) :
    Converts w base s (toSigned w (parseInteger w s base)) := by
  obtain ⟨hvalue, hrs⟩ := convert_eq hw hρ hld hpre
  have hspl : u = n.body ++ v.dropWhile (IsDigit ρ ·) := by
    rw [Numeral.body, hdgs, append_assoc, takeWhile_append_dropWhile]
    exact hu
  have hs : s = n.text ++ v.dropWhile (IsDigit ρ ·) := by
    rw [hld.split, hspl, Numeral.text, hsps, hsg, Numeral.body]
    simp
  refine .inl ⟨n, n.isLongest_of_body hld hsps hsg ⟨_, hspl.symm⟩ hmax, ?_, ?_⟩
  · rw [hrs, if_neg (hdgs ▸ n.digits_ne)]
    conv_rhs => rw [hs]
    rw [drop_left]
  · rw [hvalue, Numeral.value, hrad, hdgs, hsg]

/-! ## Without a mark -/

/-- The string has `0x` or `0X` next, and the base takes it for a mark. -/
def markAt (base : Nat) (u : List UInt8) : Option (List UInt8) :=
  if base = 0 ∨ base = 16 then behindHex u else none

theorem exists_mark (h : markAt base u = some r) :
    (base = 0 ∨ base = 16) ∧ ∃ hex : HexMark, hex ≠ .none ∧ u = hex.text ++ r := by
  unfold markAt behindHex at h
  split at h
  next hba =>
    split at h
    next c x t =>
      split at h
      next hmk =>
        cases h
        obtain ⟨rfl, rfl | rfl⟩ := hmk
        · exact ⟨hba, .lower, by decide, rfl⟩
        · exact ⟨hba, .upper, by decide, rfl⟩
      next => cases h
    next => cases h
  next => cases h

theorem takePrefix_mark (h : markAt base u = some r) : takePrefix base u = (16, r) := by
  unfold markAt at h
  simp [takePrefix, h]

theorem takePrefix_plain (h : markAt base u = none) : takePrefix base u = ((takePrefix base u).1, u) := by
  unfold markAt at h
  simp only [takePrefix, h]
  split
  · split <;> rfl
  · rfl

theorem radix_plain (h : markAt base u = none) {digits : List UInt8} (hne : digits ≠ [])
    (hpre : digits <+: u) : radix base .none digits = (takePrefix base u).1 := by
  have hhd : digits.head? = u.head? := by
    obtain ⟨t, rfl⟩ := hpre
    exact (head?_append_of_ne_nil _ hne).symm
  unfold markAt at h
  simp only [takePrefix, h, radix, hhd]
  split
  next hnot => exact absurd rfl hnot
  next =>
    split
    · split <;> rfl
    · rfl

theorem radix_pos (hba : base = 0 ∨ 2 ≤ base) (h : markAt base u = none) : 0 < (takePrefix base u).1 := by
  unfold markAt at h
  simp only [takePrefix, h]
  split
  · split <;> exact Nat.succ_pos _
  next hne => exact lt_of_lt_of_le two_pos (hba.resolve_left hne)

theorem Numeral.body_plain (n : Numeral base) (h : markAt base u = none) (hbo : n.body <+: u) :
    n.hex = .none ∧ n.digits.length ≤ (u.takeWhile (IsDigit (takePrefix base u).1 ·)).length := by
  have hno : n.hex = .none := by
    by_contra hhex
    obtain ⟨t, rfl⟩ := hbo
    rw [Numeral.body, append_assoc, markAt, if_pos (n.hex_ok hhex), behindHex_text hhex] at h
    cases h
  refine ⟨hno, ?_⟩
  rw [Numeral.body, hno] at hbo
  apply length_le_takeWhile hbo
  intro c hc
  have hdig := n.digits_ok c hc
  rw [hno, radix_plain h n.digits_ne hbo] at hdig
  exact decide_eq_true hdig

theorem converts_plain (hw : 0 < w) (hba : base = 0 ∨ 2 ≤ base) (hld : Lead s spaces sign u)
    (h : markAt base u = none) : Converts w base s (toSigned w (parseInteger w s base)) := by
  have hρ := radix_pos hba h
  have hpre := takePrefix_plain h
  by_cases hnil : u.takeWhile (IsDigit (takePrefix base u).1 ·) = []
  · obtain ⟨hvalue, hrs⟩ := convert_eq hw hρ hld hpre
    refine .inr ⟨fun n hn => ?_, ?_, ?_⟩
    · have hle := (n.body_plain h (n.body_leads hld hn).1).2
      rw [hnil, length_nil, Nat.le_zero, length_eq_zero_iff] at hle
      exact n.digits_ne hle
    · rw [hrs, if_pos hnil]
    · rw [hvalue, hnil]
      have hpos : (0 : Int) < 2 ^ (w - 1) := by positivity
      simp [digitsValue, clamp]
      omega
  have hsub := takeWhile_prefix (l := u) (IsDigit (takePrefix base u).1 ·)
  have hrad := radix_plain h hnil hsub
  let n : Numeral base :=
    { spaces := spaces
      sign := sign
      hex := .none
      digits := u.takeWhile _
      spaces_ok := hld.spaces_ok
      hex_ok := fun hne => absurd rfl hne
      digits_ne := hnil
      digits_ok := by
        intro c hc
        rw [hrad]
        exact isDigit_of_mem hc }
  apply converts_of_numeral hw hρ hld hpre n rfl rfl rfl rfl hrad
  intro n' hn'
  obtain ⟨hhex, hle⟩ := n'.body_plain h hn'
  rw [Numeral.body, hhex]
  exact hle

/-! ## With a mark -/

theorem not_isDigit_mark {ρ : Nat} (hρ : ρ ≤ 16) (hc : c = 120 ∨ c = 88) : ¬IsDigit ρ c := by
  rintro ⟨d, hd, hlt⟩
  have hthirtythree : digitOf c = some 33 := by
    rcases hc with rfl | rfl <;> decide
  rw [hthirtythree] at hd
  cases hd
  omega

theorem Numeral.body_marked (n : Numeral base) (hne : hex ≠ .none)
    (hba : base = 0 ∨ base = 16) (hbo : n.body <+: hex.text ++ r) :
    n.body.length ≤ 1 ∨ n.body.length ≤ 2 + (r.takeWhile (IsDigit 16 ·)).length := by
  obtain ⟨t, ht⟩ := hbo
  by_cases hhex : n.hex = .none
  · rw [Numeral.body, hhex] at ht ⊢
    by_contra hlen
    -- two digits are the `0` and the letter of the mark
    obtain ⟨c, d, l, hdgs⟩ : ∃ c d l, n.digits = c :: d :: l := by
      match hd : n.digits with
      | [] => simp [hd, HexMark.text] at hlen
      | [_] => simp [hd, HexMark.text] at hlen
      | c :: d :: l => exact ⟨c, d, l, rfl⟩
    have hdig := n.digits_ok d (by rw [hdgs]; simp)
    rw [hdgs] at ht
    obtain ⟨x, hx, htx⟩ := HexMark.text_eq hne
    rw [htx] at ht
    simp only [HexMark.text, nil_append, cons_append, cons.injEq] at ht
    refine not_isDigit_mark ?_ hx (ht.2.1 ▸ hdig)
    rw [hhex, hdgs, ht.1, radix, if_neg (by simp)]
    rcases hba with rfl | rfl <;> simp
  · right
    have hr : r = n.digits ++ t := by
      have hmk := behindHex_text hne r
      rw [← ht, Numeral.body, append_assoc, behindHex_text hhex] at hmk
      exact (Option.some.inj hmk).symm
    obtain ⟨x, -, htx⟩ := HexMark.text_eq hhex
    rw [Numeral.body, length_append, htx]
    apply Nat.add_le_add_left
    apply length_le_takeWhile ⟨t, hr.symm⟩
    intro c hc
    have hdig := n.digits_ok c hc
    rw [radix, if_pos hhex] at hdig
    exact decide_eq_true hdig

theorem converts_marked (hw : 0 < w) (hld : Lead s spaces sign u)
    (h : markAt base u = some r) (hdgs : r.takeWhile (IsDigit 16 ·) ≠ []) :
    Converts w base s (toSigned w (parseInteger w s base)) := by
  obtain ⟨hba, hex, hne, rfl⟩ := exists_mark h
  have hrad : ∀ digits, radix base hex digits = 16 := fun digits => by rw [radix, if_pos hne]
  let n : Numeral base :=
    { spaces := spaces
      sign := sign
      hex := hex
      digits := r.takeWhile _
      spaces_ok := hld.spaces_ok
      hex_ok := fun _ => hba
      digits_ne := hdgs
      digits_ok := fun c hc => by rw [hrad]; exact isDigit_of_mem hc }
  apply converts_of_numeral hw (by decide) hld (takePrefix_mark h) n rfl rfl rfl rfl (hrad _)
  intro n' hn'
  have hlen : n.body.length = 2 + (r.takeWhile (IsDigit 16 ·)).length := by
    show (hex.text ++ r.takeWhile (IsDigit 16 ·)).length = _
    obtain ⟨x, -, htx⟩ := HexMark.text_eq hne
    rw [length_append, htx]
    rfl
  rcases n'.body_marked hne hba hn' with hle | hle
  · omega
  · omega

theorem not_converts_bare (hw : 0 < w) (hld : Lead s spaces sign u)
    (h : markAt base u = some r) (hdgs : r.takeWhile (IsDigit 16 ·) = []) :
    ¬Converts w base s (toSigned w (parseInteger w s base)) := by
  obtain ⟨-, hrs⟩ := convert_eq hw (by decide) hld (takePrefix_mark h)
  rw [if_pos hdgs] at hrs
  obtain ⟨hba, hex, hne, rfl⟩ := exists_mark h
  obtain ⟨x, -, htx⟩ := HexMark.text_eq hne
  let zero : Numeral base :=
    { spaces := spaces
      sign := sign
      hex := .none
      digits := [48]
      spaces_ok := hld.spaces_ok
      hex_ok := fun h => absurd rfl h
      digits_ne := cons_ne_nil _ _
      digits_ok := by
        intro c hc
        rw [mem_singleton.mp hc]
        rcases hba with rfl | rfl <;> decide }
  rintro (⟨n, hlongest, hend, -⟩ | ⟨hno, -⟩)
  · rw [hrs] at hend
    have hlen := congrArg length hend
    rw [length_drop] at hlen
    obtain ⟨c, t, d, hbo, -⟩ := n.body_cons
    have hpos : 0 < n.text.length := by
      rw [Numeral.text, ← Numeral.body, hbo]
      simp
    have := hlongest.1.length_le
    omega
  · exact hno _ (zero.text_leads hld rfl rfl ⟨x :: r, by rw [htx]; rfl⟩)

theorem takeWhile_eq_nil_iff_head {ρ : Nat} :
    r.takeWhile (IsDigit ρ ·) = [] ↔ ∀ c, r.head? = some c → ¬IsDigit ρ c := by
  cases r with
  | nil => simp
  | cons c r => simp [takeWhile_cons]

theorem bareHex_iff (hld : Lead s spaces sign u) :
    BareHex base s ↔ ∃ r, markAt base u = some r ∧ r.takeWhile (IsDigit 16 ·) = [] := by
  constructor
  · rintro ⟨hba, spaces', sign', hex, rest, hs, hsps, hne, hhd⟩
    refine ⟨rest, ?_, takeWhile_eq_nil_iff_head.mpr hhd⟩
    obtain ⟨x, -, htx⟩ := HexMark.text_eq hne
    have hzero : digitOf 48 = some 0 := by decide
    have hprs : takeSign (skipSpace s) = (decide (sign' = .minus), hex.text ++ rest) := by
      rw [hs, htx, cons_append, skipSpace_lead hsps hzero, takeSign_text _ hzero]
    rw [markAt, if_pos hba, (Prod.mk.inj (hld.parse.symm.trans hprs)).2]
    exact behindHex_text hne _
  · rintro ⟨r, hmk, hnil⟩
    obtain ⟨hba, hex, hne, rfl⟩ := exists_mark hmk
    exact ⟨hba, spaces, sign, hex, r, hld.split, hld.spaces_ok, hne,
      takeWhile_eq_nil_iff_head.mp hnil⟩

theorem converts_iff (hw : 0 < w) (hba : base = 0 ∨ 2 ≤ base) :
    Converts w base s (toSigned w (parseInteger w s base)) ↔ ¬BareHex base s := by
  obtain ⟨spaces, sign, u, hld⟩ := exists_lead s
  rw [bareHex_iff hld]
  cases hmk : markAt _ u with
  | none =>
    apply iff_of_true (converts_plain hw hba hld hmk)
    rintro ⟨r, hr, -⟩
    cases hr
  | some r =>
    by_cases hnil : r.takeWhile (IsDigit 16 ·) = []
    · exact iff_of_false (not_converts_bare hw hld hmk hnil) fun h => h ⟨r, rfl, hnil⟩
    apply iff_of_true (converts_marked hw hld hmk hnil)
    rintro ⟨r', hr, hnil'⟩
    cases hr
    exact hnil hnil'

end Result

/-! ## Printed numbers -/

section Printed

open Skjegg.Lib (decimalNat decimal mem_decimalNat decimalNat_ne_nil)

theorem digitOf_ofNat (h : d < 10) : digitOf (UInt8.ofNat (48 + d)) = some d := by
  have hnat : (UInt8.ofNat (48 + d)).toNat = 48 + d :=
    UInt8.toNat_ofNat_of_lt' (by simp [UInt8.size]; omega)
  unfold digitOf
  rw [hnat, if_pos (by omega), Nat.add_sub_cancel_left]

theorem isDigit_of_mem_decimalNat {n : Nat} (h : c ∈ decimalNat n) : IsDigit 10 c := by
  have hrng := mem_decimalNat h
  refine ⟨c.toNat - 48, ?_, by omega⟩
  rw [digitOf, if_pos hrng]

theorem digitsValue_decimalNat (n : Nat) : digitsValue 10 (decimalNat n) = n := by
  unfold digitsValue decimalNat
  split
  next h =>
    rw [h]
    decide
  · rw [← map_reverse, reverse_reverse, map_map]
    have hsf : (Nat.digits 10 n).map ((fun c => (digitOf c).getD 0) ∘ fun d => UInt8.ofNat (48 + d)) =
        Nat.digits 10 n := by
      conv_rhs => rw [← map_id (Nat.digits 10 n)]
      apply map_congr_left
      intro d hd
      simp only [Function.comp, digitOf_ofNat (Nat.digits_lt_base (by decide) hd), Option.getD_some, id_eq]
    rw [hsf, Nat.ofDigits_digits]

theorem takeWhile_decimalNat {n : Nat} (hrs : ∀ c, rest.head? = some c → ¬IsDigit 10 c) :
    (decimalNat n ++ rest).takeWhile (IsDigit 10 ·) = decimalNat n := by
  rw [takeWhile_append_of_pos fun c hc => decide_eq_true (isDigit_of_mem_decimalNat hc),
    takeWhile_eq_nil_iff_head.mpr hrs, append_nil]

theorem lead_decimal (z : Int) (rest : List UInt8) :
    ∃ sign, Lead (decimal z ++ rest) [] sign (decimalNat z.natAbs ++ rest) ∧
      (if sign = .minus then -(z.natAbs : Int) else z.natAbs) = z := by
  obtain ⟨c, t, hct⟩ := exists_cons_of_ne_nil (decimalNat_ne_nil _)
  obtain ⟨d, hd, -⟩ : IsDigit 10 c := isDigit_of_mem_decimalNat (hct ▸ mem_cons_self)
  have hld : ∀ sign,
      Lead (sign.text ++ (decimalNat z.natAbs ++ rest)) [] sign (decimalNat z.natAbs ++ rest) := by
    intro sign
    refine ⟨rfl, fun _ h => absurd h not_mem_nil, ?_⟩
    rw [hct, cons_append]
    have hsk : skipSpace ([] ++ (sign.text ++ c :: (t ++ rest))) = sign.text ++ c :: (t ++ rest) :=
      skipSpace_lead (fun _ h => absurd h not_mem_nil) hd
    rw [nil_append] at hsk
    rw [hsk, takeSign_text _ hd]
  unfold decimal
  split
  · exact ⟨.minus, hld .minus, by rw [if_pos rfl]; omega⟩
  · exact ⟨.none, hld .none, by rw [if_neg (by decide)]; omega⟩

theorem toSigned_decimal {w : Nat} (hw : 0 < w) {z : Int} (hlo : -2 ^ (w - 1) ≤ z)
    (hhi : z < 2 ^ (w - 1)) (hrs : ∀ c, rest.head? = some c → ¬IsDigit 10 c) :
    (toSigned w (parseInteger w (decimal z ++ rest) 10)).value = z := by
  obtain ⟨sign, hld, hz⟩ := lead_decimal z _
  have hpre : takePrefix 10 (decimalNat z.natAbs ++ rest) = (10, decimalNat z.natAbs ++ rest) := rfl
  rw [(convert_eq hw (by decide) hld hpre).1, takeWhile_decimalNat hrs, digitsValue_decimalNat, hz,
    clamp]
  omega

theorem strtol_decimal {z : Int} (hlo : -2 ^ 31 ≤ z) (hhi : z < 2 ^ 31)
    (hrs : ∀ c, rest.head? = some c → ¬IsDigit 10 c) : (strtol dm (decimal z ++ rest) 10).value = z := by
  cases dm with
  | ilp32 => exact toSigned_decimal (by decide) hlo hhi hrs
  | lp64 =>
    have hpow : (2 : Int) ^ 31 ≤ 2 ^ (DataModel.lp64.longBits - 1) := by norm_num [DataModel.longBits]
    exact toSigned_decimal (by decide) (by omega) (by omega) hrs

end Printed

/-- `strtol` and `strtoll` return the longest numeral's end and clamped value exactly when the string
has no mark of a hexadecimal numeral without a digit behind it. -/
theorem strtol_strtoll_iff (dm : DataModel) (s : List UInt8) (base : Nat)
    (hbase : base = 0 ∨ 2 ≤ base ∧ base ≤ 36) :
    Converts dm.longBits base s (strtol dm s base) ∧ Converts 64 base s (strtoll s base) ↔
      ¬BareHex base s := by
  have hbase' : base = 0 ∨ 2 ≤ base := hbase.imp_right And.left
  have hlong : 0 < dm.longBits := by cases dm <;> decide
  have hl := converts_iff (s := s) hlong hbase'
  have hll := converts_iff (s := s) (w := 64) (by decide) hbase'
  exact ⟨fun h => hl.mp h.1, fun h => ⟨hl.mpr h, hll.mpr h⟩⟩

theorem strtol_strtoll_iff_least :
    let s : List UInt8 := [32, 45, 50, 49, 52, 55, 52, 56, 51, 54, 52, 56]
    Converts 32 10 s (strtol .ilp32 s 10) ∧ Converts 64 10 s (strtoll s 10) :=
  (strtol_strtoll_iff .ilp32 _ 10 (by decide)).mpr fun h => absurd h.1 (by decide)

/-- `0xg` in base 16: the numeral is the `0` in front, but `*end` is the start of the string. -/
theorem strtol_bareHex :
    ¬∀ (dm : DataModel) (s : List UInt8) (base : Nat), base = 0 ∨ 2 ≤ base ∧ base ≤ 36 →
      Converts dm.longBits base s (strtol dm s base) ∧ Converts 64 base s (strtoll s base) := by
  intro hall
  have h := (hall .ilp32 [48, 120, 103] 16 (by decide)).1
  apply (converts_iff (by decide) (by decide)).mp h
  refine ⟨by decide, [], .none, .lower, [103], rfl, ?_, by decide, ?_⟩
  · intro c hc
    cases hc
  · decide +kernel

end Skjegg.Libc
