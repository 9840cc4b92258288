import Mathlib.Tactic

/-!
# Integer types of the C front end

`cc/type.c` for the integer types: their kinds, sizes and values in the two data models.
-/

namespace Skjegg.Cc

inductive DataModel
  | ilp32
  | lp64
  deriving DecidableEq, Repr

def DataModel.longSize : DataModel → Nat
  | .ilp32 => 4
  | .lp64 => 8

/-- The integer members of `enum cc_type_kind`; `_Bool` is a `TY_CHAR` with `is_bool` set. -/
inductive Kind
  | bool
  | char
  | short
  | int
  | long
  | longLong
  | enum
  deriving DecidableEq, Repr

structure IntType where
  kind : Kind
  isUnsigned : Bool
  -- the parser makes `_Bool` unsigned and no enumerated type unsigned
  bool_unsigned : kind = .bool → isUnsigned = true := by decide
  enum_signed : kind = .enum → isUnsigned = false := by decide
  deriving DecidableEq, Repr

namespace IntType

def char : IntType := { kind := .char, isUnsigned := false }
def short : IntType := { kind := .short, isUnsigned := false }
def int : IntType := { kind := .int, isUnsigned := false }
def longLong : IntType := { kind := .longLong, isUnsigned := false }

def all : List IntType :=
  [{ kind := .bool, isUnsigned := true }, char, { kind := .char, isUnsigned := true }, short,
    { kind := .short, isUnsigned := true }, int, { kind := .int, isUnsigned := true },
    { kind := .long, isUnsigned := false }, { kind := .long, isUnsigned := true }, longLong,
    { kind := .longLong, isUnsigned := true }, { kind := .enum, isUnsigned := false }]

theorem mem_all (t : IntType) : t ∈ all := by
  obtain ⟨kind, isUnsigned, -, -⟩ := t
  cases kind <;> cases isUnsigned <;> simp_all [all, char, short, int, longLong]

end IntType

variable (dm : DataModel) (t : IntType)

/-- `cc_type_size` -/
def typeSize : Nat :=
  match t.kind with
  | .bool => 1
  | .char => 1
  | .short => 2
  | .int => 4
  | .long => dm.longSize
  | .longLong => 8
  | .enum => 4

def least : Int :=
  if t.isUnsigned then 0 else -2 ^ (8 * typeSize dm t - 1)

def greatest : Int :=
  if t.kind = .bool then 1
  else if t.isUnsigned then 2 ^ (8 * typeSize dm t) - 1 else 2 ^ (8 * typeSize dm t - 1) - 1

def InType (v : Int) : Prop := least dm t ≤ v ∧ v ≤ greatest dm t

instance (t : IntType) (v : Int) : Decidable (InType dm t v) := inferInstanceAs (Decidable (_ ∧ _))

end Skjegg.Cc
