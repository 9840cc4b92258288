import Skjegg.Dwarf.Read
import Skjegg.Lib.Interaction

/-!
# What the DWARF reader needs of its image

The cursor of the line-number program checks every load. Section headers, names and symbols are read
without a check of where an entry ends, an opcode may be past `std_len`, a `line_range` may be zero,
and an extended opcode may carry the cursor back.
-/

namespace Skjegg.Dwarf

open Skjegg.Lib Option

variable {img : Image}

/-! ## Loads -/

def byte (img : Image) (i : Nat) : Nat := (img[i]?.map UInt8.toNat).getD 0

def le32Of (img : Image) (p : Nat) (big : Bool) : Nat :=
  word32 big (byte img p) (byte img (p + 1)) (byte img (p + 2)) (byte img (p + 3))

def le16Of (img : Image) (p : Nat) (big : Bool) : Nat := word16 big (byte img p) (byte img (p + 1))

variable {fuel fuel' i n room : Nat} {Q : Nat → Prop} {c c' c₀ : Rd} {α : Type} {s t : LineState}
  {hdr : LineHeader} {r u u₀ : Units}

@[simp]
theorem succeeds_byteAt : Succeeds (byteAt img i) Q ↔ i < img.length ∧ Q (byte img i) := by
  unfold byteAt byte
  by_cases h : i < img.length
  · simp [h]
  · simp [h]

theorem succeeds_le32 {p : Nat} {big : Bool} :
    Succeeds (le32 img p big) Q ↔ p + 4 ≤ img.length ∧ Q (le32Of img p big) := by
  simp only [le32, succeeds_bind, succeeds_byteAt, succeeds_pure]
  constructor
  · rintro ⟨_, _, _, h, hQ⟩
    exact ⟨by omega, hQ⟩
  · rintro ⟨h, hQ⟩
    exact ⟨by omega, by omega, by omega, by omega, hQ⟩

theorem succeeds_le16 {p : Nat} {big : Bool} :
    Succeeds (le16 img p big) Q ↔ p + 2 ≤ img.length ∧ Q (le16Of img p big) := by
  simp only [le16, succeeds_bind, succeeds_byteAt, succeeds_pure]
  constructor
  · rintro ⟨_, h, hQ⟩
    exact ⟨by omega, hQ⟩
  · rintro ⟨h, hQ⟩
    exact ⟨by omega, by omega, hQ⟩

/-! ## Section headers -/

section Headers

variable (img : Image) (big : Bool)

def shoff : Nat := le32Of img 32 big
def shentsize : Nat := le16Of img 46 big
def shnum : Nat := le16Of img 48 big
def shstrndx : Nat := le16Of img 50 big

def shdr (i : Nat) : Nat := shoff img big + i * shentsize img big

def HasSection (idx : Int) : Prop :=
  0 ≤ idx ∧ idx < shnum img big ∧ shoff img big + shentsize img big * shnum img big ≤ img.length

def SectionInside (i : Nat) : Prop :=
  le32Of img (shdr img big i + 16) big + le32Of img (shdr img big i + 20) big ≤ img.length

def SectionFits (idx : Int) : Prop :=
  HasSection img big idx → shdr img big idx.toNat + 24 ≤ img.length ∧
      (SectionInside img big idx.toNat → shdr img big idx.toNat + 40 ≤ img.length)

instance (idx : Int) : Decidable (HasSection img big idx) := inferInstanceAs (Decidable (_ ∧ _ ∧ _))

instance (i : Nat) : Decidable (SectionInside img big i) := inferInstanceAs (Decidable (_ ≤ _))

def sectionOf (idx : Int) : Option ElfSec :=
  if HasSection img big idx ∧ SectionInside img big idx.toNat then
    some ⟨le32Of img (shdr img big idx.toNat + 16) big, le32Of img (shdr img big idx.toNat + 20) big,
      le32Of img (shdr img big idx.toNat + 24) big, le32Of img (shdr img big idx.toNat + 36) big⟩
  else none

end Headers

variable {big : Bool}

theorem header_inside (hlen : 52 ≤ img.length) : 32 + 4 ≤ img.length ∧ 46 + 2 ≤ img.length ∧
    48 + 2 ≤ img.length ∧ 50 + 2 ≤ img.length := by
  omega

theorem succeeds_elfSection (hlen : 52 ≤ img.length) {idx : Int} {Q : Option ElfSec → Prop} :
    Succeeds (elfSection img idx big) Q ↔ SectionFits img big idx ∧ Q (sectionOf img big idx) := by
  unfold elfSection
  simp only [succeeds_bind, succeeds_le32, succeeds_le16, succeeds_ite, succeeds_pure, header_inside hlen,
    true_and]
  rw [← shoff, ← shentsize, ← shnum]
  by_cases hhas : HasSection img big idx
  · have hnum : ¬(idx < 0 ∨ (shnum img big : Int) ≤ idx) := by
      obtain ⟨h0, h1, -⟩ := hhas
      omega
    have htab := not_lt.mpr hhas.2.2
    rw [← shdr]
    by_cases hin : SectionInside img big idx.toNat
    · have hin' := not_lt.mpr hin
      simp only [hnum, htab, hin', false_implies, not_false_eq_true, true_implies, true_and,
        SectionFits, hhas, hin, sectionOf, and_self, ↓reduceIte]
      constructor
      · rintro ⟨-, -, -, h4, hQ⟩
        exact ⟨⟨by omega, by omega⟩, hQ⟩
      · rintro ⟨⟨h1, h2⟩, hQ⟩
        exact ⟨by omega, by omega, by omega, by omega, hQ⟩
    · have hin' := Nat.lt_of_not_le hin
      simp only [hnum, htab, hin', false_implies, not_false_eq_true, true_implies, true_and,
        not_true_eq_false, and_true, SectionFits, hhas, hin, sectionOf, and_false, ↓reduceIte]
      constructor
      · rintro ⟨-, h2, hQ⟩
        exact ⟨by omega, hQ⟩
      · rintro ⟨h1, hQ⟩
        exact ⟨by omega, by omega, hQ⟩
  · -- nothing of the header is read
    have hno : sectionOf img big idx = none := if_neg fun h => hhas h.1
    have hft : SectionFits img big idx := fun h => absurd h hhas
    rw [hno, and_iff_right hft]
    by_cases hnum : idx < 0 ∨ (shnum img big : Int) ≤ idx
    · simp [hnum]
    have htab : shoff img big + shentsize img big * shnum img big > img.length := by
      by_contra hle
      exact hhas ⟨by omega, by omega, Nat.le_of_not_lt hle⟩
    simp only [hnum, htab, false_implies, not_false_eq_true, true_implies, true_and,
      not_true_eq_false, and_true]

/-! ## Names of sections -/

/-- The bytes `strcmp` looks at lie in the image: those up to the first that differs. -/
def StrFits (img : Image) (s : Nat) : List Nat → Prop
  | [] => s < img.length
  | c :: name => s < img.length ∧ (byte img s = c → StrFits img (s + 1) name)

def strEqOf (img : Image) (s : Nat) : List Nat → Bool
  | [] => byte img s == 0
  | c :: name => byte img s == c && strEqOf img (s + 1) name

variable {name : List Nat}

theorem succeeds_strEq {s : Nat} {Q : Bool → Prop} :
    Succeeds (strEq img s name) Q ↔ StrFits img s name ∧ Q (strEqOf img s name) := by
  induction name generalizing s with
  | nil => simp [strEq, StrFits, strEqOf]
  | cons c name ih =>
    simp only [strEq, succeeds_bind, succeeds_byteAt, succeeds_ite, succeeds_pure, ih, StrFits, strEqOf]
    by_cases h : byte img s = c
    · simp [h, and_assoc]
    · have hne : (byte img s == c) = false := by simpa using h
      simp [h, hne]

section Names

variable (img : Image) (big : Bool) (strs : ElfSec) (name : List Nat)

def shName (i : Nat) : Nat := le32Of img (shdr img big i) big

def Named (i : Nat) : Prop :=
  shName img big i < strs.size ∧ strEqOf img (strs.data + shName img big i) name = true

instance (i : Nat) : Decidable (Named img big strs name i) := inferInstanceAs (Decidable (_ ∧ _))

def NameFits (i : Nat) : Prop :=
  shdr img big i + 4 ≤ img.length ∧
    (shName img big i < strs.size → StrFits img (strs.data + shName img big i) name)

def findFrom : Nat → Nat → Option Nat
  | 0, _ => none
  | left + 1, i => if Named img big strs name i then some i else findFrom left (i + 1)

end Names

theorem succeeds_nameIs {strs : ElfSec} {Q : Bool → Prop} :
    Succeeds (nameIs img strs name (shName img big i)) Q ↔
      (shName img big i < strs.size → StrFits img (strs.data + shName img big i) name) ∧
        Q (decide (Named img big strs name i)) := by
  unfold nameIs Named
  by_cases h : shName img big i < strs.size
  · simp [h, succeeds_strEq]
  · simp [h]

theorem succeeds_elfFindFrom {strs : ElfSec} {left : Nat} {Q : Option Nat → Prop} :
    Succeeds (elfFindFrom img strs (shoff img big) (shentsize img big) name big left i) Q ↔
      WalkGood (fun k => ¬ Named img big strs name k) (NameFits img big strs name) i left ∧
        Q (findFrom img big strs name left i) := by
  induction left generalizing i with
  | zero => simp [elfFindFrom, findFrom]
  | succ left ih =>
    simp only [elfFindFrom, succeeds_bind, succeeds_le32]
    rw [← shdr, ← shName, succeeds_nameIs, findFrom, walkGood_succ, NameFits, and_assoc, and_assoc]
    by_cases h : Named img big strs name i <;> simp [h, ih]

section Names

variable (img : Image) (big : Bool) (name : List Nat)

/-- Looking for a section by its name stays inside the image: the string table's header and, up to
the section found, the names. -/
def FindFits : Prop :=
  SectionFits img big (shstrndx img big) ∧ ∀ strs, sectionOf img big (shstrndx img big) = some strs →
      ∀ i < shnum img big, (∀ k < i, ¬ Named img big strs name k) → NameFits img big strs name i

def findOf : Option Nat :=
  match sectionOf img big (shstrndx img big) with
  | none => none
  | some strs => findFrom img big strs name (shnum img big) 0

end Names

theorem succeeds_elfFind (hlen : 52 ≤ img.length) {Q : Option Nat → Prop} :
    Succeeds (elfFind img name big) Q ↔ FindFits img big name ∧ Q (findOf img big name) := by
  simp only [elfFind, succeeds_bind, succeeds_le32, succeeds_le16, succeeds_elfSection hlen, header_inside hlen,
    true_and]
  rw [← shoff, ← shentsize, ← shnum, ← shstrndx, FindFits, and_assoc, findOf]
  cases hss : sectionOf img big _ with
  | none => simp
  | some strs =>
    have hhas : HasSection img big (shstrndx img big) := by
      unfold sectionOf at hss
      split at hss
      · next h => exact h.1
      · cases hss
    dsimp only
    rw [if_neg (not_lt.mpr hhas.2.2), succeeds_elfFindFrom]
    simp [WalkGood]

/-! ## Symbols -/

section Symbols

variable (img : Image) (big : Bool)

def ElfSec.symCount (sym : ElfSec) : Nat := (toInt (sym.size / sym.entsize)).toNat

/-- The symbols lie in the image, with the 13 bytes that are read of each whatever the stated entry
size. -/
def SymtabFits : Prop :=
  FindFits img big symtabName ∧ ∀ si, findOf img big symtabName = some si → SectionFits img big si ∧
        ∀ sym, sectionOf img big si = some sym → sym.entsize ≠ 0 → SectionFits img big (toInt sym.link) ∧
            (sectionOf img big (toInt sym.link) ≠ none →
              ∀ i < sym.symCount, sym.data + i * sym.entsize + 13 ≤ img.length)

end Symbols

theorem succeeds_readSyms {sym str : ElfSec} {left : Nat} :
    Succeeds (readSyms img sym str big left i) (fun _ => True) ↔
      WalkGood (fun _ => True) (fun j => sym.data + j * sym.entsize + 13 ≤ img.length) i left := by
  induction left generalizing i with
  | zero => simp [readSyms]
  | succ left ih =>
    simp only [readSyms, succeeds_bind, succeeds_le32, succeeds_byteAt, succeeds_pure, ih, walkGood_succ,
      true_implies]
    constructor
    · rintro ⟨_, _, _, h, hrest⟩
      exact ⟨by omega, hrest⟩
    · rintro ⟨h, hrest⟩
      exact ⟨by omega, by omega, by omega, by omega, hrest⟩

theorem succeeds_readSymtab (hlen : 52 ≤ img.length) :
    Succeeds (readSymtab img big) (fun _ => True) ↔ SymtabFits img big := by
  rw [readSymtab, succeeds_bind, succeeds_elfFind hlen, SymtabFits]
  refine and_congr_right fun _ => ?_
  cases findOf img big _ with
  | none => simp
  | some si =>
    simp only [succeeds_bind, succeeds_elfSection hlen, some.injEq, forall_eq']
    refine and_congr_right fun _ => ?_
    cases sectionOf img big si with
    | none => simp
    | some sym =>
      simp only [some.injEq, forall_eq', succeeds_ite, succeeds_bind,
        succeeds_elfSection hlen, succeeds_pure, implies_true, true_and]
      cases sectionOf img big _ with
      | none => simp
      | some str =>
        rw [succeeds_readSyms]
        simp [WalkGood, ElfSec.symCount]

/-! ## The bytes of a section -/

/-- A section of the image, and the order of its bytes. -/
structure Part where
  (base len : Nat)
  big : Bool

section Fields

variable (img : Image) (S : Part)

/-- The value of the field at `p` and the place behind it, where that is inside the section. -/
def fieldAt (width : Nat) (value : Nat → Nat) (p : Nat) : Option (Nat × Nat) :=
  if p + width ≤ S.len then some (value (S.base + p), p + width) else none

def u8At : Nat → Option (Nat × Nat) := fieldAt S 1 (byte img)

def u16At : Nat → Option (Nat × Nat) := fieldAt S 2 (le16Of img · S.big)

def u32At : Nat → Option (Nat × Nat) := fieldAt S 4 (le32Of img · S.big)

def lebFrom (sign : Nat → Nat → Nat) : Nat → Nat → Nat → Nat → Option (Nat × Nat)
  | 0, _, _, _ => none
  | room + 1, v, shift, p => do
      let (b, p) ← u8At img S p
      let v := v ||| lebBits b shift
      if b < 128 then some (v ||| sign b (shift + 7), p) else lebFrom sign room v (shift + 7) p

def lebAt (sign : Nat → Nat → Nat) (p : Nat) : Option (Nat × Nat) := lebFrom img S sign (S.len - p + 1) 0 0 p

def strFrom : Nat → Nat → Option Nat
  | 0, _ => none
  | room + 1, p => do
      let (b, p) ← u8At img S p
      if b = 0 then some p else strFrom room p

/-- Where the string at `p` is in the image, and the place behind it. -/
def strAt (p : Nat) : Option (Option Nat × Nat) :=
  (strFrom img S (S.len - p + 1) p).map (some (S.base + p), ·)

def isEmpty (s : Option Nat) : Bool := s.all (byte img · = 0)

def bytesFrom : Nat → Nat → Option (List Nat × Nat)
  | 0, p => some ([], p)
  | n + 1, p => do
      let (b, p) ← u8At img S p
      let (bs, p) ← bytesFrom n p
      some (b :: bs, p)

def dirsFrom : Nat → Nat → Option (Unit × Nat)
  | 0, _ => none
  | room + 1, p => do
      let (s, p) ← strAt img S p
      if isEmpty img s then some ((), p) else dirsFrom room p

def filesFrom : Nat → List (Option Nat) → Nat → Option (List (Option Nat) × Nat)
  | 0, _, _ => none
  | room + 1, ftab, p => do
      let (s, p) ← strAt img S p
      if isEmpty img s then some (ftab, p)
      else do
        let (_, p) ← lebAt img S ulebSign p
        let (_, p) ← lebAt img S ulebSign p
        let (_, p) ← lebAt img S ulebSign p
        filesFrom room (if ftab.length < maxFiles then ftab ++ [s] else ftab) p

/-- A distance, as the place it leads to from behind itself. -/
def jumpAt (dist : Nat → Option (Nat × Nat)) (p : Nat) : Option (Nat × Nat) :=
  (dist p).map fun r => (sizeT (r.2 + r.1), r.2)

def maxOpsAt (version p : Nat) : Option (Unit × Nat) :=
  if version ≥ 4 then do
    let (_, p) ← u8At img S p
    some ((), p)
  else
    some ((), p)

def headerAt (unitEnd p : Nat) : Option (LineHeader × Nat) := do
  let (version, p) ← u16At img S p
  let (progStart, p) ← jumpAt (u32At img S) p
  let (minInst, p) ← u8At img S p
  let (_, p) ← maxOpsAt img S version p
  let (_, p) ← u8At img S p
  let (lineBase, p) ← u8At img S p
  let (lineRange, p) ← u8At img S p
  let (opcodeBase, p) ← u8At img S p
  let (stdLen, p) ← bytesFrom img S (opcodeBase - 1) p
  let (_, p) ← dirsFrom img S (S.len - p + 1) p
  let (files, p) ← filesFrom img S (S.len - p + 1) [none] p
  some (⟨unitEnd, progStart, minInst, (BitVec.ofNat 8 lineBase).toInt, lineRange, opcodeBase,
    stdLen.take 31, files⟩, p)

def operandsFrom : Nat → Nat → Option (Unit × Nat)
  | 0, p => some ((), p)
  | n + 1, p => do
      let (_, p) ← lebAt img S ulebSign p
      operandsFrom n p

/-- The operand of `DW_LNE_set_address` -/
def subAt (sub p : Nat) : Option (Unit × Nat) :=
  if sub = 2 then do
    let (_, p) ← u32At img S p
    some ((), p)
  else
    some ((), p)

/-- Where an extended opcode leads to, and the place behind its operand. -/
def extendedAt (p : Nat) : Option (Nat × Nat) := do
  let (enext, p) ← jumpAt (lebAt img S ulebSign) p
  let (sub, p) ← u8At img S p
  let (_, p) ← subAt img S sub p
  some (enext, p)

/-- The place an opcode leads to whose operands begin at `p`, where they are inside the section. -/
def operandsAt (hdr : LineHeader) (op p : Nat) : Option Nat :=
  if op = 0 then (extendedAt img S p).map (·.1)
  else if hdr.opcodeBase ≤ op ∨ op = 1 ∨ op = 8 then some p
  else if op = 2 ∨ op = 4 then (lebAt img S ulebSign p).map (·.2)
  else if op = 3 then (lebAt img S slebSign p).map (·.2)
  else if op = 9 then (u16At img S p).map (·.2)
  else (operandsFrom img S (hdr.stdLen.getD (op - 1) 0) p).map (·.2)

def opAt (hdr : LineHeader) (p : Nat) : Option Nat := operandsAt img S hdr (byte img (S.base + p)) (p + 1)

/-- The header of the unit at `p` and the place behind it, or the end of the section. -/
def unitAt (p : Nat) : Option (Option LineHeader × Nat) := do
  let (unitLen, p) ← u32At img S p
  if unitLen = 0 ∨ p + unitLen > S.len then some (none, S.len)
  else do
    let (hdr, p) ← headerAt img S (p + unitLen) p
    some (some hdr, p)

end Fields

/-! ## The cursor -/

structure Part.Inside (img : Image) (S : Part) : Prop where
  len : S.len < 2 ^ 32
  span : S.base + S.len ≤ img.length

structure Rd.Of (S : Part) (c : Rd) : Prop where
  base : c.base = S.base
  len : c.len = S.len
  big : c.big = S.big

structure Rd.In (S : Part) (c : Rd) : Prop extends c.Of S where
  fits : c.pos ≤ S.len

/-- Where the cursor is, if it has met no end. -/
def Rd.place (c : Rd) : Option Nat := if c.bad then none else some c.pos

variable {S : Part} {p q : Nat}

theorem place_eq_some : c.place = some p ↔ c.bad = false ∧ c.pos = p := by
  unfold Rd.place
  cases c.bad <;> simp

/-- What is read ends with a cursor from `n` on, which has met the end where there is no `y` and otherwise
stands behind the value `y`. -/
def Lands {ρ : Type} (S : Part) (n : Nat) (view : ρ → α × Rd) (x : Checked ρ) (y : Option (α × Nat)) : Prop :=
  Succeeds x fun r => (view r).2.In S ∧ n ≤ (view r).2.pos ∧ (view r).2.place.map ((view r).1, ·) = y

section Lands

variable {ρ ρ' β : Type} {view : ρ → α × Rd} {view' : ρ' → β × Rd} {x : Checked ρ} {T : ρ → Checked ρ'}
  {o : Option Nat} {f : Nat → Option (α × Nat)} {g : α × Nat → Option (β × Nat)}

theorem Lands.bind (hx : Lands S n view x (o.bind f))
    (hT : ∀ r, x = .ok r → (view r).2.In S → n ≤ (view r).2.pos →
      (view r).2.place.map ((view r).1, ·) = o.bind f →
      Lands S (view r).2.pos view' (T r) ((view r).2.place.bind fun p => g ((view r).1, p))) :
    Lands S n view' (x >>= T) (o.bind fun p => f p >>= g) := by
  obtain ⟨r, hr, hin, hle, hy⟩ := hx
  have hland := hT r hr hin hle hy
  have heq : (o.bind fun p => f p >>= g) = (view r).2.place.bind fun p => g ((view r).1, p) := by
    show (o.bind fun p => (f p).bind g) = _
    rw [← bind_assoc, ← hy, bind_map]
    rfl
  rw [heq, hr]
  exact hland.mono fun r' hr' => ⟨hr'.1, hle.trans hr'.2.1, hr'.2.2⟩

theorem Lands.pure (view : ρ → α × Rd) {r : ρ} (h : (view r).2.In S) :
    Lands S (view r).2.pos view (pure r) ((view r).2.place.bind fun p => some ((view r).1, p)) :=
  succeeds_pure.mpr ⟨h, le_refl _, by cases (view r).2.place <;> rfl⟩

theorem Lands.place {y : Option (α × Nat)} (hx : Lands S n view x y) :
    Succeeds x fun r => (view r).2.In S ∧ (view r).2.place = y.map (·.2) :=
  hx.mono fun r hr => ⟨hr.1, by rw [← hr.2.2]; cases (view r).2.place <;> rfl⟩

end Lands

theorem Rd.In.room_le (hc : c.In S) (hc' : c'.In S) (hlt : c.pos < c'.pos) (hrm : c.room ≤ room + 1) :
    c'.room ≤ room := by
  have hlen := hc.len
  have hlen' := hc'.len
  have hfits := hc'.fits
  unfold Rd.room at hrm ⊢
  omega

theorem Rd.place_bind {β : Type} {F G : Nat → Option β} (h : F c.pos = G c.pos) :
    c.place.bind F = c.place.bind G := by
  unfold Rd.place
  split
  · rfl
  · exact h

theorem Rd.In.place_room {β : Type} {F : Nat → Nat → Option β} (hc : c.In S) :
    c.place.bind (F c.room) = c.place.bind fun p => F (S.len - p + 1) p :=
  Rd.place_bind (by rw [Rd.room, hc.len])

theorem sizeT_of_lt (h : n < 2 ^ 64) : sizeT n = n := Nat.mod_eq_of_lt h

theorem jump_lands {x : Checked (Nat × Rd)} {f : Nat → Option (Nat × Nat)} {o : Option Nat}
    (hx : Lands S n id x (o.bind f)) :
    Lands S n (fun r => (sizeT (r.2.pos + r.1), r.2)) x (o.bind (jumpAt f)) := by
  refine hx.mono fun r hr => ⟨hr.1, hr.2.1, ?_⟩
  have heq : o.bind (jumpAt f) = (o.bind f).map fun r => (sizeT (r.2 + r.1), r.2) := by cases o <;> rfl
  rw [heq, ← hr.2.2, id, Rd.place]
  split <;> rfl

theorem lt_of_field {v w : Nat} {value : Nat → Nat} (hbad : c'.bad = false)
    (hy : c'.place.map (v, ·) = c.place.bind (fieldAt S (w + 1) value)) : c.pos < c'.pos := by
  unfold Rd.place fieldAt at hy
  grind

section Readers

variable (hS : S.Inside img)

include hS

theorem field_lands {w : Nat} {value : Nat → Nat} {load : Checked Nat} (hc : c.In S) (hw : w < 2 ^ 32)
    (hload : c.pos + w ≤ S.len → Succeeds load (· = value (S.base + c.pos))) (hc' : c'.In S)
    (hle : c.pos ≤ c'.pos) (hbad : c'.bad = true) :
    Lands S c.pos id (if sizeT (c.pos + w) > c.len then .ok (0, c')
      else load >>= fun v => pure (v, { c with pos := sizeT (c.pos + w) }))
      (c.place.bind (fieldAt S w value)) := by
  have hlen := hS.len
  have hfits := hc.fits
  rw [sizeT_of_lt (by omega), hc.len]
  unfold fieldAt
  split
  · next hend =>
    refine succeeds_ok.mpr ⟨hc', hle, ?_⟩
    simp only [id, Rd.place, hbad, if_true, map_none]
    split
    · rfl
    · exact (if_neg (by omega)).symm
  · next hin =>
    refine (hload (by omega)).bind fun v hv => succeeds_pure.mpr ⟨⟨⟨hc.base, rfl, hc.big⟩, ?_⟩, ?_, ?_⟩
    · show c.pos + w ≤ S.len
      omega
    · show c.pos ≤ c.pos + w
      omega
    · rw [hv]
      simp only [id, Rd.place]
      split
      · rfl
      · exact (if_pos (by omega)).symm

theorem rdU8_lands (hc : c.In S) : Lands S c.pos id (rdU8 img c) (c.place.bind (u8At img S)) := by
  have hsp := hS.span
  refine field_lands hS (w := 1) hc (by decide) (fun h => ?_)
    ⟨⟨hc.base, hc.len, hc.big⟩, hc.fits⟩ (le_refl _) rfl
  exact succeeds_byteAt.mpr ⟨by rw [hc.base]; omega, by rw [hc.base]⟩

theorem rdU16_lands (hc : c.In S) : Lands S c.pos id (rdU16 img c) (c.place.bind (u16At img S)) := by
  have hsp := hS.span
  refine field_lands hS (w := 2) hc (by decide) (fun h => ?_)
    ⟨⟨hc.base, hc.len, hc.big⟩, hc.len.le⟩ (hc.fits.trans hc.len.ge) rfl
  exact succeeds_le16.mpr ⟨by rw [hc.base]; omega, by rw [hc.base, hc.big]⟩

theorem rdU32_lands (hc : c.In S) : Lands S c.pos id (rdU32 img c) (c.place.bind (u32At img S)) := by
  have hsp := hS.span
  refine field_lands hS (w := 4) hc (by decide) (fun h => ?_)
    ⟨⟨hc.base, hc.len, hc.big⟩, hc.len.le⟩ (hc.fits.trans hc.len.ge) rfl
  exact succeeds_le32.mpr ⟨by rw [hc.base]; omega, by rw [hc.base, hc.big]⟩

theorem rdLebFrom_lands (sign : Nat → Nat → Nat) (v shift : Nat) (hc : c.In S) (hrm : c.room ≤ room) :
    Lands S c.pos id (rdLebFrom img sign room v shift c) (c.place.bind (lebFrom img S sign room v shift)) := by
  induction room generalizing v shift c with
  | zero => exact absurd hrm (Nat.not_succ_le_zero _)
  | succ room ih =>
    refine (rdU8_lands hS hc).bind fun r _ hin _ hy => ?_
    obtain ⟨b, c'⟩ := r
    dsimp only [id] at hin hy ⊢
    by_cases hb : b < 128
    · simp only [hb, true_or, if_true]
      exact .pure id hin
    cases hbad : c'.bad with
    | true =>
      simp only [Rd.place, hbad, or_true, if_true, bind_none]
      exact succeeds_pure.mpr ⟨hin, le_refl _, by simp [Rd.place, hbad]⟩
    | false =>
      rw [if_neg (by simp [hb])]
      simp only [hb, if_false]
      exact ih _ _ hin (hc.room_le hin (lt_of_field hbad hy) hrm)

theorem rdLeb_lands (sign : Nat → Nat → Nat) (hc : c.In S) :
    Lands S c.pos id (rdLebFrom img sign c.room 0 0 c) (c.place.bind (lebAt img S sign)) := by
  have h := rdLebFrom_lands hS sign 0 0 hc (le_refl _)
  rwa [hc.place_room (F := (lebFrom img S sign · 0 0))] at h

theorem rdUleb_lands (hc : c.In S) : Lands S c.pos id (rdUleb img c) (c.place.bind (lebAt img S ulebSign)) :=
  rdLeb_lands hS ulebSign hc

theorem skipString_good (hc : c.In S) (hrm : c.room ≤ room) :
    Succeeds (skipString img room c) fun c' => c'.In S ∧ c.pos ≤ c'.pos ∧ c'.bad = c.bad ∧
      strFrom img S room c.pos = if c'.pos < S.len then some (c'.pos + 1) else none := by
  induction room generalizing c with
  | zero => exact absurd hrm (Nat.not_succ_le_zero _)
  | succ room ih =>
    have hsp := hS.span
    rw [skipString, strFrom, u8At, fieldAt, hc.len, hc.base]
    split
    · next hin =>
      rw [if_pos (by omega)]
      refine (succeeds_byteAt (Q := (· = byte img (S.base + c.pos)))).mpr ⟨by omega, rfl⟩ |>.bind fun b hb => ?_
      subst hb
      show Succeeds _ fun c' => _ ∧ _ ∧ _ ∧ (if byte img (S.base + c.pos) = 0 then _ else _) = _
      split
      · exact succeeds_pure.mpr ⟨hc, le_refl _, rfl, (if_pos hin).symm⟩
      · have hc' : Rd.In S ⟨S.base, S.len, c.pos + 1, c.bad, c.big⟩ := ⟨⟨rfl, rfl, hc.big⟩, hin⟩
        exact (ih hc' (hc.room_le hc' (Nat.lt_succ_self _) hrm)).mono fun c' h =>
          ⟨h.1, (Nat.le_succ _).trans h.2.1, h.2.2⟩
    · next hend =>
      rw [if_neg (by omega)]
      exact succeeds_pure.mpr ⟨hc, le_refl _, rfl, (if_neg hend).symm⟩

theorem rdStr_good (hc : c.In S) : Succeeds (rdStr img c) fun r => r.2.In S ∧ c.pos ≤ r.2.pos ∧
    r.2.place.map (r.1, ·) = c.place.bind (strAt img S) ∧
    ∀ start, r.1 = some start → start < img.length ∧ c.pos < r.2.pos := by
  have hsp := hS.span
  have hbase := hc.base
  refine (skipString_good hS hc (le_refl _)).bind fun c' h => ?_
  obtain ⟨hin, hle, hbad, hstr⟩ := h
  have hplace : c.place.bind (strAt img S) =
      if c'.pos < S.len then c'.place.map fun p => (some (c.base + c.pos), p + 1) else none := by
    have hroom : strAt img S c.pos =
        if c'.pos < S.len then some (some (c.base + c.pos), c'.pos + 1) else none := by
      rw [strAt, ← hc.len, ← Rd.room, hstr, hc.base, hc.len]
      split <;> rfl
    unfold Rd.place
    rw [hbad]
    split
    · split <;> rfl
    · exact hroom.trans (by split <;> rfl)
  rw [hplace, hin.len]
  split
  · next hend =>
    rw [if_neg (by omega)]
    exact succeeds_pure.mpr ⟨⟨⟨hin.base, rfl, hin.big⟩, hin.fits⟩, hle, rfl, nofun⟩
  · next hlt =>
    rw [if_pos (by omega)]
    refine succeeds_pure.mpr ⟨⟨⟨hin.base, rfl, hin.big⟩, Nat.lt_of_not_le hlt⟩, Nat.le_succ_of_le hle, ?_, ?_⟩
    · unfold Rd.place
      cases c'.bad <;> rfl
    · rintro _ ⟨⟩
      exact ⟨by omega, Nat.lt_succ_of_le hle⟩

/-- A string, what is done behind an empty one, and what behind another. -/
theorem str_lands {ρ : Type} (view : ρ → α × Rd) (stop : Rd → ρ) {more : Option Nat × Rd → Checked ρ} {a : α}
    {g : Option Nat × Nat → Option (α × Nat)} (hc : c.In S) (hstop : ∀ c, view (stop c) = (a, c))
    (hmore : ∀ s c', c'.In S → c.pos < c'.pos →
      Lands S c'.pos view (more (s, c')) (c'.place.bind fun p => g (s, p))) :
    Lands S c.pos view
      (rdStr img c >>= fun r => lastString img r.1 r.2 >>= fun last =>
        if last = true then pure (stop r.2) else more r)
      (c.place.bind fun p => strAt img S p >>= fun r =>
        if isEmpty img r.1 = true then some (a, r.2) else g r) := by
  obtain ⟨⟨s, c'⟩, hr, hin, hle, hy, hstart⟩ := rdStr_good hS hc
  have hstr : Lands S c.pos id (rdStr img c) _ := ⟨_, hr, hin, hle, hy⟩
  refine hstr.bind fun r hr' _ _ _ => ?_
  cases hr.symm.trans hr'
  dsimp only [id] at hin hstart ⊢
  have hlast : lastString img s c' = .ok (isEmpty img s || c'.bad) := by
    cases s with
    | none => rfl
    | some start =>
      obtain ⟨b, hb, rfl⟩ := (succeeds_byteAt (Q := (· = byte img start))).mpr ⟨(hstart _ rfl).1, rfl⟩
      rw [lastString, hb]
      rfl
  have hdone : Lands S c'.pos view (pure (stop c')) (c'.place.bind fun p => some (a, p)) := by
    have h := Lands.pure (r := stop c') (S := S) view
    rw [hstop] at h
    exact h hin
  rw [hlast]
  show Lands S c'.pos view (if (isEmpty img s || c'.bad) = true then _ else _) _
  by_cases he : isEmpty img s = true
  · simp only [he, Bool.true_or, if_true]
    exact hdone
  simp only [he]
  cases hbad : c'.bad with
  | true =>
    simp only [Rd.place, hbad, Bool.or_true, if_true] at hdone ⊢
    exact hdone
  | false =>
    cases s with
    | none => exact absurd rfl he
    | some start => exact hmore _ _ hin (hstart _ rfl).2

theorem skipDirs_lands (hc : c.In S) (hrm : c.room ≤ room) :
    Lands S c.pos ((), ·) (skipDirs img room c) (c.place.bind (dirsFrom img S room)) := by
  induction room generalizing c with
  | zero => exact absurd hrm (Nat.not_succ_le_zero _)
  | succ room ih =>
    exact str_lands hS ((), ·) id hc (fun _ => rfl) fun s c' hin hlt => ih hin (hc.room_le hin hlt hrm)

theorem readFiles_lands (ftab : List (Option Nat)) (hc : c.In S) (hrm : c.room ≤ room) :
    Lands S c.pos id (readFiles img room ftab c) (c.place.bind (filesFrom img S room ftab)) := by
  induction room generalizing ftab c with
  | zero => exact absurd hrm (Nat.not_succ_le_zero _)
  | succ room ih =>
    refine str_lands hS id (ftab, ·) hc (fun _ => rfl) fun s c' hin hlt => ?_
    -- directory, time and size
    dsimp only
    refine (rdUleb_lands hS hin).bind fun r1 _ h1 l1 _ => ?_
    refine (rdUleb_lands hS h1).bind fun r2 _ h2 l2 _ => ?_
    refine (rdUleb_lands hS h2).bind fun r3 _ h3 l3 _ => ?_
    exact ih _ h3 (hc.room_le h3 (by dsimp only [id] at *; omega) hrm)

theorem rdBytes_lands (hc : c.In S) :
    Lands S c.pos id (rdBytes img n c) (c.place.bind (bytesFrom img S n)) := by
  induction n generalizing c with
  | zero => exact .pure id hc
  | succ n ih =>
    refine (rdU8_lands hS hc).bind fun r _ hin _ _ => ?_
    exact (ih hin).bind fun r' _ hin' _ _ => .pure id hin'

theorem skipMaxOps_lands {version : Nat} (hc : c.In S) :
    Lands S c.pos ((), ·) (skipMaxOps img version c) (c.place.bind (maxOpsAt img S version)) := by
  unfold skipMaxOps maxOpsAt
  split
  · exact (rdU8_lands hS hc).bind fun r _ hin _ _ => .pure ((), ·) hin
  · exact .pure ((), ·) hc

theorem readHeader_lands (unitEnd : Nat) (hc : c.In S) :
    Lands S c.pos id (readHeader img unitEnd c) (c.place.bind (headerAt img S unitEnd)) := by
  refine (rdU16_lands hS hc).bind fun version _ h1 _ _ => ?_
  have hjump := jump_lands (rdU32_lands hS h1)
  refine hjump.bind fun headerLen _ h2 _ _ => ?_
  refine (rdU8_lands hS h2).bind fun minInst _ h3 _ _ => ?_
  refine (skipMaxOps_lands hS h3).bind fun maxOps _ h4 _ _ => ?_
  refine (rdU8_lands hS h4).bind fun isStmt _ h5 _ _ => ?_
  refine (rdU8_lands hS h5).bind fun lineBase _ h6 _ _ => ?_
  refine (rdU8_lands hS h6).bind fun lineRange _ h7 _ _ => ?_
  refine (rdU8_lands hS h7).bind fun opcodeBase _ h8 _ _ => ?_
  refine (rdBytes_lands hS h8).bind fun stdLen _ h9 _ _ => ?_
  have hdirs := skipDirs_lands hS h9 (le_refl _)
  rw [h9.place_room] at hdirs
  refine hdirs.bind fun dirs _ h10 _ _ => ?_
  have hfiles := readFiles_lands hS [none] h10 (le_refl _)
  rw [h10.place_room (F := (filesFrom img S · [none]))] at hfiles
  exact hfiles.bind fun files _ h11 _ _ => .pure id h11

theorem skipOperands_lands (hc : c.In S) :
    Lands S c.pos ((), ·) (skipOperands img n c) (c.place.bind (operandsFrom img S n)) := by
  induction n generalizing c with
  | zero => exact .pure ((), ·) hc
  | succ n ih => exact (rdUleb_lands hS hc).bind fun r _ hin _ _ => ih hin

theorem unitHeader_lands (hc : c.In S) :
    Lands S c.pos id (unitHeader img c) (c.place.bind (unitAt img S)) := by
  refine (rdU32_lands hS hc).bind fun r _ hin _ _ => ?_
  obtain ⟨unitLen, c'⟩ := r
  dsimp only [id] at hin ⊢
  have hfits := hin.fits
  rw [hin.len]
  by_cases hskip : unitLen = 0 ∨ c'.pos + unitLen > S.len
  · rw [if_pos hskip, Rd.place_bind (G := fun _ => some (none, S.len)) (if_pos hskip)]
    refine succeeds_pure.mpr ⟨⟨⟨hin.base, rfl, hin.big⟩, le_refl _⟩, hfits, ?_⟩
    unfold Rd.place
    cases c'.bad <;> rfl
  · rw [if_neg hskip, Rd.place_bind (G := fun p => headerAt img S (c'.pos + unitLen) p >>= fun r =>
      some (some r.1, r.2)) (if_neg hskip)]
    exact (readHeader_lands hS _ hin).bind fun r _ hin' _ _ => .pure id hin'

end Readers

/-! ## The line-number program -/

/-- An opcode the program can be at: a standard one is below 32, and where the range of lines is divided by
it is not zero. -/
def OpOk (hdr : LineHeader) (op : Nat) : Prop :=
  op ≠ 0 → (op < hdr.opcodeBase → op < 32 ∧ (op = 8 → hdr.lineRange ≠ 0)) ∧
    (hdr.opcodeBase ≤ op → hdr.lineRange ≠ 0)

theorem succeeds_divMod {a b : Nat} {Q : Nat × Nat → Prop} :
    Succeeds (divMod a b) Q ↔ b ≠ 0 ∧ Q (a / b, a % b) := by
  rw [divMod, succeeds_ite]
  by_cases h : b = 0 <;> simp [h]

theorem succeeds_entryAt {table : List α} {Q : α → Prop} :
    Succeeds (entryAt table i) Q ↔ ∃ h : i < table.length, Q table[i] := by
  unfold entryAt
  by_cases h : i < table.length
  · simp [h]
  · simp [h]

/-- The state has a cursor of the section, which stands at the place. -/
def LineState.At (S : Part) (s : LineState) (o : Option Nat) : Prop := s.c.Of S ∧ s.c.place = o

section Program

variable (hS : S.Inside img)

include hS

theorem extendedSub_lands (sub : Nat) (h : s.c.In S) :
    Lands S s.c.pos (fun s' => ((), s'.c)) (extendedSub img sub s) (s.c.place.bind (subAt img S sub)) := by
  unfold extendedSub subAt
  split
  · next hsub =>
    subst hsub
    exact .pure (fun s' : LineState => ((), s'.c)) h
  split
  · next hsub =>
    subst hsub
    refine (rdU32_lands hS h).bind (g := fun r => some ((), r.2)) fun r _ hin _ _ => ?_
    exact .pure (fun s' : LineState => ((), s'.c)) (r := { s with addr := r.1, c := r.2 }) hin
  · exact .pure (fun s' : LineState => ((), s'.c)) h

theorem extendedOp_good (h : s.c.In S) (hp : s.c.place = some p) :
    Succeeds (extendedOp img s) fun s' => s'.At S ((extendedAt img S p).map (·.1)) := by
  have hbody : Lands S s.c.pos (fun r => (r.1, r.2.c)) (extendedBody img s)
      (s.c.place.bind (extendedAt img S)) := by
    refine (jump_lands (rdUleb_lands hS h)).bind fun r1 _ h1 _ _ => ?_
    refine (rdU8_lands hS h1).bind fun r2 _ h2 _ _ => ?_
    refine (extendedSub_lands hS (s := { s with c := r2.2 }) r2.1 h2).bind fun s' _ h3 _ _ => ?_
    exact .pure (fun r : Nat × LineState => (r.1, r.2.c)) h3
  rw [hp] at hbody
  refine Succeeds.bind hbody fun r hr => succeeds_pure.mpr ⟨⟨hr.1.base, hr.1.len, hr.1.big⟩, ?_⟩
  rw [show extendedAt img S p = _ from hr.2.2.symm, Rd.place, Rd.place]
  cases r.2.c.bad <;> rfl

theorem standardOp_iff {op : Nat} {Q : LineState → Prop} (h : s.c.In S) (hp : s.c.place = some p)
    (hpos : 0 < op) (hop : op < hdr.opcodeBase) (hstd : hdr.stdLen.length = min 31 (hdr.opcodeBase - 1))
    (hQ : ∀ s', s'.At S (operandsAt img S hdr op p) → Q s') :
    Succeeds (standardOp img hdr op s) Q ↔ op < 32 ∧ (op = 8 → hdr.lineRange ≠ 0) := by
  have hread : ∀ {β : Type} {x : Checked β} {cur : β → Rd} (f : β → LineState),
      (Succeeds x fun r => (cur r).In S ∧ (cur r).place = operandsAt img S hdr op p) →
      (∀ r, (f r).c = cur r) → Succeeds (x >>= fun r => pure (f r)) Q := by
    intro β x cur f hx hf
    refine hx.bind fun r hr => succeeds_pure.mpr (hQ _ ?_)
    rw [LineState.At, hf]
    exact ⟨hr.1.toOf, hr.2⟩
  have hstay : operandsAt img S hdr op p = some p → ∀ s', s'.c = s.c → Q s' := fun ho s' hs' =>
    hQ s' ⟨hs' ▸ h.toOf, by rw [hs', hp, ho]⟩
  have hleb := (rdUleb_lands hS h).place
  have hsleb := (rdLeb_lands hS slebSign h).place
  have hword := (rdU16_lands hS h).place
  rw [hp] at hleb hsleb hword
  have hle := not_le.mpr hop
  unfold standardOp
  split
  · exact iff_of_true (succeeds_ok.mpr (hstay (by simp [operandsAt]) _ rfl)) (by simp)
  · exact iff_of_true (hread _ (by simpa [operandsAt, hle] using hleb) fun _ => rfl) (by simp)
  · have hread3 := hread (fun r : Nat × Rd => { s.addLine (BitVec.ofNat 64 r.1).toInt with c := r.2 })
      (by simpa [operandsAt, hle] using hsleb) fun _ => rfl
    exact iff_of_true (by simpa [rdSleb] using hread3) (by simp)
  · exact iff_of_true (hread _ (by simpa [operandsAt, hle] using hleb) fun _ => rfl) (by simp)
  · simp only [succeeds_bind, succeeds_divMod, succeeds_pure]
    have hq := hstay (by simp [operandsAt])
      (s.addAddr ((255 - hdr.opcodeBase) / hdr.lineRange * hdr.minInst)) rfl
    simp [hq]
  · exact iff_of_true (hread _ (by simpa [operandsAt, hle] using hword) fun _ => rfl) (by simp)
  rename_i h1 h2 h3 h4 h8 h9
  rw [succeeds_bind, succeeds_entryAt]
  constructor
  · rintro ⟨hlt, -⟩
    exact ⟨by omega, fun heq => absurd heq h8⟩
  · rintro ⟨hlt, -⟩
    have hin : op - 1 < hdr.stdLen.length := by omega
    refine ⟨hin, ?_⟩
    have hskip := (skipOperands_lands hS (n := hdr.stdLen[op - 1]) h).place
    rw [hp] at hskip
    refine hread _ ?_ fun _ => rfl
    have hother : ¬(op = 1 ∨ op = 8) ∧ ¬(op = 2 ∨ op = 4) ∧ op ≠ 3 ∧ op ≠ 9 :=
      ⟨not_or.mpr ⟨h1, h8⟩, not_or.mpr ⟨h2, h4⟩, h3, h9⟩
    simpa [operandsAt, hle, hpos.ne', hother, hin] using hskip

theorem lineStep_iff {Q : LineState → Prop} (h : s.c.Of S) (hp : s.c.place = some p) (hin : p < S.len)
    (hstd : hdr.stdLen.length = min 31 (hdr.opcodeBase - 1)) (hQ : ∀ s', s'.At S (opAt img S hdr p) → Q s') :
    Succeeds (lineStep img hdr s) Q ↔ OpOk hdr (byte img (S.base + p)) := by
  obtain ⟨⟨op, c⟩, hrd, hc, -, hy⟩ := rdU8_lands hS (c := s.c) ⟨h, (place_eq_some.mp hp).2 ▸ hin.le⟩
  have hbyte : c.place = some (p + 1) ∧ op = byte img (S.base + p) := by
    rw [hp, bind_some, u8At, fieldAt, if_pos (Nat.succ_le_of_lt hin)] at hy
    obtain ⟨q, hq, heq⟩ := map_eq_some_iff.mp hy
    cases heq
    exact ⟨hq, rfl⟩
  obtain ⟨hp1, rfl⟩ := hbyte
  rw [lineStep, hrd, OpOk]
  unfold opAt at hQ
  generalize byte img (S.base + p) = op at hQ ⊢
  show Succeeds (if op = 0 then extendedOp img { s with c := c }
    else if op < hdr.opcodeBase then standardOp img hdr op { s with c := c }
    else specialOp hdr op { s with c := c }) Q ↔ _
  by_cases hop : op = 0
  · rw [if_pos hop]
    refine iff_of_true ((extendedOp_good hS hc hp1).mono fun s' hs' => hQ s' ?_) fun hne => absurd hop hne
    rwa [operandsAt, if_pos hop]
  rw [if_neg hop]
  by_cases hba : op < hdr.opcodeBase
  · rw [if_pos hba, standardOp_iff hS hc hp1 (Nat.pos_of_ne_zero hop) hba hstd hQ]
    simp [hop, hba, not_le.mpr hba]
  have hspecial := hQ (((LineState.addAddr { s with c := c }
    ((op - hdr.opcodeBase) / hdr.lineRange * hdr.minInst)).addLine
      (hdr.lineBase + ((op - hdr.opcodeBase) % hdr.lineRange : Nat))).push false)
    ⟨hc.toOf, hp1.trans (by simp [operandsAt, hop, not_lt.mp hba])⟩
  rw [if_neg hba]
  simp only [specialOp, succeeds_bind, succeeds_divMod, succeeds_pure, hspecial, and_true]
  simp [hop, hba, Nat.le_of_not_lt hba]

end Program

/-! ## A unit -/

section

open Relation

variable (img : Image) (S : Part)

def OpTurn (hdr : LineHeader) (p q : Nat) : Prop := p < hdr.unitEnd ∧ opAt img S hdr p = some q

/-- The program of a unit comes to no opcode that it cannot be at, and never back to a place it has
been at. -/
def ProgramOk (hdr : LineHeader) : Prop :=
  OnwardFrom hdr.unitEnd (OpTurn img S hdr) (fun p => OpOk hdr (byte img (S.base + p))) hdr.progStart

def UnitOk (p : Nat) : Prop := ∀ hdr q, unitAt img S p = some (some hdr, q) → ProgramOk img S hdr

/-- Behind a unit that is skipped is the end of the section, and behind one whose program comes to its end
the next unit. -/
def UnitTurn (p q : Nat) : Prop :=
  unitAt img S p = some (none, q) ∨ ∃ hdr b e, unitAt img S p = some (some hdr, b) ∧ q = hdr.unitEnd ∧
    hdr.unitEnd ≤ e ∧ ReflTransGen (OpTurn img S hdr) hdr.progStart e

def UnitsOk : Prop := ∀ p, ReflTransGen (UnitTurn img S) 0 p → p < S.len → UnitOk img S p

end

theorem length_bytesFrom {bs : List Nat} (h : bytesFrom img S n p = some (bs, q)) : bs.length = n := by
  induction n generalizing p bs with
  | zero =>
    cases h
    rfl
  | succ n ih =>
    obtain ⟨⟨b, p'⟩, -, h⟩ := bind_eq_some_iff.mp h
    obtain ⟨⟨bs', p''⟩, hbs, h⟩ := bind_eq_some_iff.mp h
    cases h
    exact congrArg _ (ih hbs)

theorem headerAt_spec {unitEnd : Nat} (h : headerAt img S unitEnd p = some (hdr, q)) :
    hdr.unitEnd = unitEnd ∧ hdr.stdLen.length = min 31 (hdr.opcodeBase - 1) := by
  iterate 8 obtain ⟨_, -, h⟩ := bind_eq_some_iff.mp h
  obtain ⟨⟨stdLen, _⟩, hstd, h⟩ := bind_eq_some_iff.mp h
  iterate 2 obtain ⟨_, -, h⟩ := bind_eq_some_iff.mp h
  cases h
  exact ⟨rfl, by rw [List.length_take, length_bytesFrom hstd]⟩

theorem unitAt_spec {o : Option LineHeader} (h : unitAt img S p = some (o, q)) :
    p < S.len ∧ (o = none → q = S.len) ∧ ∀ hdr, o = some hdr →
      p < hdr.unitEnd ∧ hdr.unitEnd ≤ S.len ∧ hdr.stdLen.length = min 31 (hdr.opcodeBase - 1) := by
  obtain ⟨⟨unitLen, p'⟩, hlen, h⟩ := bind_eq_some_iff.mp h
  unfold u32At fieldAt at hlen
  split at hlen
  · cases hlen
    dsimp only at h
    split at h
    · cases h
      exact ⟨by omega, fun _ => rfl, nofun⟩
    · obtain ⟨⟨hdr, b⟩, hheader, h⟩ := bind_eq_some_iff.mp h
      obtain ⟨hend, hstd⟩ := headerAt_spec hheader
      cases h
      refine ⟨by omega, nofun, ?_⟩
      rintro _ ⟨⟩
      dsimp only at *
      exact ⟨by omega, by omega, hstd⟩
  · cases hlen

theorem UnitTurn.lt (h : UnitTurn img S p q) : p < q ∧ p < S.len := by
  rcases h with hat | ⟨hdr, b, e, hat, rfl, -⟩
  · obtain ⟨hlt, hend, -⟩ := unitAt_spec hat
    exact ⟨hend rfl ▸ hlt, hlt⟩
  · obtain ⟨hlt, -, hspec⟩ := unitAt_spec hat
    exact ⟨(hspec hdr rfl).1, hlt⟩

theorem running_iff : s.running hdr = true ↔ ∃ p < hdr.unitEnd, s.c.place = some p := by
  simp [LineState.running, place_eq_some, and_comm]

section Units

variable (hS : S.Inside img)

include hS

theorem linePositions (hend : hdr.unitEnd ≤ S.len) (hstd : hdr.stdLen.length = min 31 (hdr.opcodeBase - 1)) :
    Positions (LineState.running hdr) (lineStep img hdr) (·.c.Of S) (·.c.place) hdr.unitEnd
      (OpTurn img S hdr) (fun p => OpOk hdr (byte img (S.base + p))) where
  below _ _ h := h.1
  running_iff _ _ := running_iff
  turn := by
    intro s t p hs hp htn
    obtain ⟨p', hlt, hp'⟩ := running_iff.mp htn.1
    cases hp.symm.trans hp'
    have hok : OpOk hdr (byte img (S.base + p)) :=
      (lineStep_iff hS hs hp (hlt.trans_le hend) hstd fun _ _ => trivial).mp ⟨t, htn.2, trivial⟩
    obtain ⟨t', ht', hat⟩ := (lineStep_iff hS hs hp (hlt.trans_le hend) hstd fun _ h => h).mpr hok
    cases htn.2.symm.trans ht'
    refine ⟨hat.1, hok, fun q => ?_⟩
    rw [hat.2]
    exact (and_iff_right hlt).symm

omit hS in
theorem runLineUnit_eq (h : unitHeader img u.c = .ok (some hdr, c)) : runLineUnit img fuel u =
    loopWhile .spent (LineState.running hdr) (lineStep img hdr) fuel (hdr.start c u.rows) >>= fun s =>
      pure (hdr.finish u s) := by
  rw [runLineUnit, h]
  rfl

section

variable (hc : u.c.Of S) (hp : u.c.place = some p) (hlt : p < S.len)

include hc hp hlt

theorem unitHeader_good : Succeeds (unitHeader img u.c) fun r =>
    r.2.In S ∧ r.2.place.map (r.1, ·) = unitAt img S p := by
  have h := unitHeader_lands hS (c := u.c) ⟨hc, (place_eq_some.mp hp).2 ▸ hlt.le⟩
  rw [hp] at h
  exact h.mono fun r hr => ⟨hr.1, hr.2.2⟩

theorem runLineUnit_turn {v : Units} (h : runLineUnit img fuel u = .ok v) :
    v.c.Of S ∧ UnitOk img S p ∧ ∀ q, v.c.place = some q ↔ UnitTurn img S p q := by
  obtain ⟨⟨o, c'⟩, hr, hin, hat⟩ := unitHeader_good hS hc hp hlt
  cases o with
  | none =>
    rw [runLineUnit, hr] at h
    cases h
    exact ⟨hin.toOf, by simp [UnitOk, ← hat], by simp [UnitTurn, ← hat]⟩
  | some hdr =>
    rw [runLineUnit_eq hr] at h
    obtain ⟨s, hs, ⟨⟩⟩ := bind_eq_ok.mp h
    obtain ⟨n, -, hen⟩ := loopWhile_ok_iff.mp hs
    cases hbad : c'.bad with
    | true =>
      have hstop : (hdr.start c' u.rows).running hdr = false := by
        simp [LineState.running, LineHeader.start, hbad]
      rw [hen.eq_of_not_running hstop]
      exact ⟨⟨hin.base, hin.len, hin.big⟩, by simp [UnitOk, ← hat, Rd.place, hbad], by
        simp [UnitTurn, ← hat, Rd.place, hbad, LineHeader.finish, LineHeader.start]⟩
    | false =>
      replace hat : unitAt img S p = some (some hdr, c'.pos) := by rw [← hat, Rd.place, hbad]; rfl
      obtain ⟨-, hend, hstd⟩ := (unitAt_spec hat).2.2 hdr rfl
      have hstart : (hdr.start c' u.rows).c.place = some hdr.progStart := place_eq_some.mpr ⟨hbad, rfl⟩
      obtain ⟨hof, hon, hplace⟩ := (linePositions hS hend hstd).of_ends ⟨hin.base, hin.len, hin.big⟩ hen
      refine ⟨⟨hof.base, hof.len, hof.big⟩, ?_, fun q => ?_⟩
      · intro hdr' q hat'
        cases hat.symm.trans hat'
        exact hon _ hstart
      constructor
      · intro hq
        obtain ⟨hok, rfl⟩ := place_eq_some.mp hq
        obtain ⟨hle, _, hp₀, hreach⟩ := (hplace s.c.pos).mp (place_eq_some.mpr ⟨hok, rfl⟩)
        cases hstart.symm.trans hp₀
        exact .inr ⟨hdr, _, _, hat, rfl, hle, hreach⟩
      · rintro (hat' | ⟨hdr', b, e, hat', rfl, hle, hreach⟩)
        · cases hat.symm.trans hat'
        cases hat.symm.trans hat'
        have hs := (hplace e).mpr ⟨hle, _, hstart, hreach⟩
        exact place_eq_some.mpr ⟨(place_eq_some.mp hs).1, rfl⟩

theorem runLineUnit_ends (hok : UnitOk img S p) : ∃ v, runLineUnit img S.len u = .ok v := by
  obtain ⟨⟨o, c'⟩, hr, hin, hat⟩ := unitHeader_good hS hc hp hlt
  cases o with
  | none => exact ⟨_, by rw [runLineUnit, hr]; rfl⟩
  | some hdr =>
    rw [runLineUnit_eq hr]
    suffices hloop : ∃ n ≤ S.len, ∃ s,
        Ends (LineState.running hdr) (lineStep img hdr) n (hdr.start c' u.rows) s by
      obtain ⟨n, hn, s, hen⟩ := hloop
      exact ⟨hdr.finish u s, bind_eq_ok.mpr ⟨s, loopWhile_ok_iff.mpr ⟨n, hn, hen⟩, rfl⟩⟩
    cases hbad : c'.bad with
    | true => exact ⟨0, Nat.zero_le _, _, by simp [LineState.running, LineHeader.start, hbad], rfl⟩
    | false =>
      replace hat : unitAt img S p = some (some hdr, c'.pos) := by rw [← hat, Rd.place, hbad]; rfl
      obtain ⟨-, hend, hstd⟩ := (unitAt_spec hat).2.2 hdr rfl
      obtain ⟨n, hn, hs⟩ := (linePositions hS hend hstd).ends
        (fun s q hs hq hlt hop => by
          obtain ⟨t, ht, -⟩ := (lineStep_iff hS hs hq (hlt.trans_le hend) hstd fun _ _ => trivial).mpr hop
          exact ⟨t, ht⟩)
        (s := hdr.start c' u.rows) ⟨hin.base, hin.len, hin.big⟩ fun q hq => by
          cases (place_eq_some.mpr ⟨hbad, rfl⟩ : (hdr.start c' u.rows).c.place = _).symm.trans hq
          exact hok hdr _ hat
      exact ⟨n, hn.trans hend, hs⟩

end

/-! ## The units in turn -/

theorem unitPositions (fuel : Nat) : Positions Units.running (runLineUnit img fuel) (·.c.Of S) (·.c.place) S.len
    (UnitTurn img S) (UnitOk img S) where
  below _ _ h := h.lt.2
  running_iff u hu := by simp [Units.running, place_eq_some, hu.len, and_comm]
  turn := by
    intro u v p hc hp htn
    have hlt : p < S.len := by
      have hrun := htn.1
      simp [Units.running, (place_eq_some.mp hp).2, hc.len] at hrun
      exact hrun.1
    exact runLineUnit_turn hS hc hp hlt htn.2

theorem units_iff (hc : u.c.Of S) (hp : u.c.place = some 0) :
    (∃ fuel r, loopWhile .spent Units.running (runLineUnit img fuel) fuel u = .ok r) ↔ UnitsOk img S := by
  constructor
  · rintro ⟨fuel, r, hlp⟩
    obtain ⟨n, -, hen⟩ := loopWhile_ok_iff.mp hlp
    exact (((unitPositions hS fuel).of_ends hc hen).2.1 0 hp).ok
  intro hok
  have hlt : ∀ {a b}, Relation.TransGen (UnitTurn img S) a b → a < b := by
    intro a b hab
    induction hab with
    | single h => exact h.lt.1
    | tail _ h ih => exact ih.trans h.lt.1
  obtain ⟨n, hn, r, hen⟩ := (unitPositions hS S.len).ends
    (fun u p hc hp hlt hok => runLineUnit_ends hS hc hp hlt hok) hc fun p hp' => by
      cases hp.symm.trans hp'
      exact ⟨hok, fun q _ hcyc => absurd (hlt hcyc) (Nat.lt_irrefl _)⟩
  exact ⟨S.len, r, loopWhile_ok_iff.mpr ⟨n, hn, hen⟩⟩

end Units

/-! ## The line table -/

section Lines

variable (img : Image) (big : Bool)

def ElfSec.part (ls : ElfSec) : Part := ⟨ls.data, ls.size, big⟩

def LinesFit : Prop :=
  FindFits img big debugLineName ∧ ∀ li, findOf img big debugLineName = some li → SectionFits img big li ∧
        ∀ ls, sectionOf img big li = some ls → UnitsOk img (ls.part big)

end Lines

theorem byte_lt (img : Image) (i : Nat) : byte img i < 256 := by
  unfold byte
  cases img[i]? with
  | none => exact Nat.zero_lt_succ _
  | some b => exact b.toNat_lt

theorem le32Of_lt (p : Nat) : le32Of img p big < 2 ^ 32 := by
  have h0 := byte_lt img p
  have h1 := byte_lt img (p + 1)
  have h2 := byte_lt img (p + 2)
  have h3 := byte_lt img (p + 3)
  unfold le32Of word32
  split <;> omega

theorem part_inside {idx : Int} {ls : ElfSec} (h : sectionOf img big idx = some ls) :
    (ls.part big).Inside img := by
  unfold sectionOf at h
  split at h
  · next hin =>
    cases h
    exact ⟨le32Of_lt _, hin.2⟩
  · cases h

theorem readLines_iff (hlen : 52 ≤ img.length) :
    (∃ fuel, Succeeds (readLines img fuel big) fun _ => True) ↔ LinesFit img big := by
  simp only [readLines, succeeds_bind, succeeds_elfFind hlen]
  rw [exists_and_left, LinesFit]
  cases findOf img big _ with
  | none => simp
  | some li =>
    simp only [succeeds_bind, succeeds_elfSection hlen, some.injEq, forall_eq']
    rw [exists_and_left]
    cases hls : sectionOf img big li with
    | none => simp
    | some ls =>
      simp only [some.injEq, forall_eq']
      rw [← units_iff (part_inside hls) (u := { c := ⟨ls.data, ls.size, 0, false, big⟩ })
        ⟨rfl, rfl, rfl⟩ rfl]
      simp only [Succeeds, and_true]

/-! ## Lookups -/

theorem searchFrom_succeeds {key : α → Nat} {table : List α} {addr : Nat} {lo hi : Int}
    {best : Option Nat} (hlo : 0 ≤ lo) (hhi : hi < table.length)
    (hbest : ∀ b, best = some b → b < table.length) :
    Succeeds (searchFrom key table addr lo hi best) fun r =>
      ∀ b, r = some b → b < table.length := by
  fun_induction searchFrom key _ _ lo hi best with
  | case1 lo hi best hle mid e herr =>
    have hmid : mid.toNat < table.length := by omega
    have hent : Succeeds (entryAt table mid.toNat) fun _ => True := succeeds_entryAt.mpr ⟨hmid, trivial⟩
    rw [herr] at hent
    exact absurd hent succeeds_error.mp
  | case2 lo hi best hle mid a hent hkey ih =>
    refine ih (by omega) hhi fun b hb => ?_
    cases hb
    omega
  | case3 lo hi best hle mid a hent hkey ih => exact ih hlo (by omega) hbest
  | case4 lo hi best hle => exact succeeds_ok.mpr hbest

theorem search_succeeds (key : α → Nat) (table : List α) (addr : Nat) :
    Succeeds (search key table addr) fun r => ∀ b, r = some b → b < table.length :=
  searchFrom_succeeds (le_refl _) (by omega) fun _ h => nomatch h

theorem dwLookupLine_succeeds (r : Reader) (addr : Nat) : Succeeds (dwLookupLine r addr) fun _ => True := by
  refine (search_succeeds _ _ _).bind fun best hbest => ?_
  cases best with
  | none => exact succeeds_pure.mpr trivial
  | some best =>
    simp only [succeeds_bind, succeeds_entryAt, succeeds_ite, succeeds_pure, implies_true, true_and]
    refine ⟨hbest _ rfl, fun _ => ⟨fun hfi => ⟨by omega, trivial⟩, trivial⟩⟩

theorem dwLookupFunc_succeeds (r : Reader) (addr : Nat) : Succeeds (dwLookupFunc r addr) fun _ => True := by
  refine (search_succeeds _ _ _).bind fun best hbest => ?_
  cases best with
  | none => exact succeeds_pure.mpr trivial
  | some best =>
    simp only [succeeds_bind, succeeds_entryAt, succeeds_ite, succeeds_pure, implies_true, and_true]
    exact ⟨hbest _ rfl, trivial⟩

/-! ## The reader -/

/-- The reader ends, and neither it nor a lookup loads a byte outside the image, indexes a table
outside its bounds or divides by zero. -/
def ReadsSafely (img : Image) : Prop :=
  ∃ fuel, Succeeds (dwReadElf img fuel) fun r => ∀ reader, r = some reader →
    ∀ addr, (Succeeds (dwLookupLine reader addr) fun _ => True) ∧
      Succeeds (dwLookupFunc reader addr) fun _ => True

/-- An image that is refused, or in which every field that is read lies inside it and every program
is in order. -/
def Wholesome (img : Image) : Prop :=
  ∀ big, imageOrder img = some big → LinesFit img big ∧ SymtabFits img big

theorem length_of_imageOrder (h : imageOrder img = some big) : 52 ≤ img.length := by
  unfold imageOrder at h
  split at h
  · cases h
  · next hno =>
    rw [not_or] at hno
    exact Nat.le_of_not_lt hno.1

/-- For every byte string, the reader is safe exactly when the image is wholesome. -/
theorem readsSafely_iff_wholesome (img : Image) : ReadsSafely img ↔ Wholesome img := by
  have hlookups : ∀ r, (∀ reader, r = some reader →
      ∀ addr, (Succeeds (dwLookupLine reader addr) fun _ => True) ∧
        Succeeds (dwLookupFunc reader addr) fun _ => True) ↔ True :=
    fun r => iff_true_intro fun reader _ addr =>
      ⟨dwLookupLine_succeeds _ _, dwLookupFunc_succeeds _ _⟩
  unfold ReadsSafely Wholesome dwReadElf
  simp only [hlookups]
  cases hord : imageOrder img with
  | none => simp
  | some big =>
    have hlen := length_of_imageOrder hord
    simp only [succeeds_bind, succeeds_pure, some.injEq, forall_eq']
    rw [← readLines_iff hlen, ← succeeds_readSymtab hlen]
    constructor
    · rintro ⟨fuel, u, hu, hsy⟩
      exact ⟨⟨fuel, u, hu, trivial⟩, hsy⟩
    · rintro ⟨⟨fuel, u, hu, -⟩, hsy⟩
      exact ⟨fuel, u, hu, hsy⟩

/-! ## Images that are not -/

/-- An image whose one section header is said to take no bytes and starts 12 bytes before the end. -/
def headerAtEnd : Image :=
  [0x7f, 0x45, 0x4c, 0x46, 1, 1, 1, 0, 0, 0, 0, 0, 0, 0, 0, 0, 0, 0, 0, 0, 0, 0, 0, 0, 0, 0, 0,
   0, 0, 0, 0, 0, 0x28, 0, 0, 0, 0, 0, 0, 0, 0, 0, 0, 0, 0, 0, 0, 0, 1, 0, 0, 0]

/-- An image with a unit of `.debug_line` whose `line_range` is zero. -/
def zeroRange : Image :=
  [0x7f, 0x45, 0x4c, 0x46, 1, 1, 1, 0, 0, 0, 0, 0, 0, 0, 0, 0, 0, 0, 0, 0, 0, 0, 0, 0, 0, 0, 0,
   0, 0, 0, 0, 0, 0x34, 0, 0, 0, 0, 0, 0, 0, 0, 0, 0, 0, 0, 0, 0x28, 0, 2, 0, 0, 0, 0, 0, 0, 0,
   3, 0, 0, 0, 0, 0, 0, 0, 0, 0, 0, 0, 0x84, 0, 0, 0, 0xd, 0, 0, 0, 0, 0, 0, 0, 0, 0, 0, 0, 0, 0,
   0, 0, 0, 0, 0, 0, 1, 0, 0, 0, 1, 0, 0, 0, 0, 0, 0, 0, 0, 0, 0, 0, 0x91, 0, 0, 0, 0x13, 0, 0,
   0, 0, 0, 0, 0, 0, 0, 0, 0, 0, 0, 0, 0, 0, 0, 0, 0, 0, 0x2e, 0x64, 0x65, 0x62, 0x75, 0x67,
   0x5f, 0x6c, 0x69, 0x6e, 0x65, 0, 0xf, 0, 0, 0, 4, 0, 8, 0, 0, 0, 1, 1, 1, 0xfb, 0, 1, 0, 0, 5]

def zeroHeader : LineHeader := ⟨19, 18, 1, -5, 0, 1, [], [none]⟩

theorem not_linesFit_zeroRange : ¬ LinesFit zeroRange false := by
  intro hfit
  have hfd : findOf zeroRange false debugLineName = some 1 := by decide +kernel
  have hsection : sectionOf zeroRange false (1 : Nat) = some ⟨145, 19, 0, 0⟩ := by decide +kernel
  have hat : unitAt zeroRange ⟨145, 19, false⟩ 0 = some (some zeroHeader, 18) := by decide +kernel
  have hpg := (hfit.2 1 hfd).2 _ hsection 0 .refl (by decide) _ _ hat
  -- the program is one special opcode
  exact (hpg.ok _ .refl (by decide) (by decide +kernel)).2 (by decide +kernel) rfl

/-- The reader loads a byte behind the one image, and divides by zero at the other. -/
theorem reads_outside_and_divides_by_zero : ¬ ReadsSafely headerAtEnd ∧ ¬ ReadsSafely zeroRange := by
  have hord : imageOrder headerAtEnd = some false := by decide +kernel
  have hfd : elfFind headerAtEnd debugLineName false = .error (.byte 56) := by decide +kernel
  have hord' : imageOrder zeroRange = some false := by decide +kernel
  constructor
  · rintro ⟨fuel, r, hr, -⟩
    rw [dwReadElf, hord] at hr
    dsimp only [readLines] at hr
    rw [hfd] at hr
    cases hr
  · rintro ⟨fuel, r, hr, -⟩
    rw [dwReadElf, hord'] at hr
    obtain ⟨u, hu, -⟩ := bind_eq_ok.mp hr
    exact not_linesFit_zeroRange ((readLines_iff (by decide +kernel)).mp ⟨fuel, u, hu, trivial⟩)

end Skjegg.Dwarf
