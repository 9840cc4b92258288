import Skjegg.Emu.Elf

/-!
# What the ELF loaders read

The bounds checks add offsets up in the format's word, compare the sum as a signed number, and trust
the entry size the image states. When the reads stay inside the image is stated here on its fields.
-/

namespace Skjegg.Emu

open Skjegg.Lib List
open Prog (wp_bind wp_pure)

variable {L : Layout} {I : Image} {name : List UInt8} {T : Table}

/-! ## Fields inside the image -/

namespace Image

def Has (I : Image) (off w : Nat) : Prop := hostPtr off + w ≤ I.size

end Image

abbrev inImage (I : Image) : Protocol (Reading GmCall) (Reading.Ans GmCall.Ans) Unit :=
  .always (Reading.Within 0 I.size)

theorem hostPtr_of_lt {x : Nat} (h : x < 2 ^ 64) : hostPtr x = x := by
  unfold hostPtr
  exact Nat.mod_eq_of_lt h

variable {i n off w : Nat} {Q : Nat → Unit → Prop}

theorem wp_rd : (rd I off w).wp (inImage I) () Q ↔ I.Has off w ∧ Q (I.get off w) () := by
  simp [rd, Image.Has]

theorem wp_rdFields {base : Nat} {fields : List (Nat × Nat)} {Q : Unit → Unit → Prop} :
    (rdFields I base fields).wp (inImage I) () Q ↔ (∀ f ∈ fields, I.Has (base + f.1) f.2) ∧ Q () () := by
  induction fields with
  | nil => simp [rdFields]
  | cons f fields ih => simp only [rdFields, wp_bind, wp_rd, ih, forall_mem_cons, and_assoc]

/-! ## The header -/

structure HeaderOk (L : Layout) (I : Image) : Prop where
  size : L.ehsize ≤ I.size
  magic : I.mem.read 0 4 = Emu.magic
  elfclass : I.mem 4 = L.elfclass
  order : I.mem 5 = 1 ∨ I.mem 5 = 2
  executable : I.get 16 2 ∈ L.executable ∨ I.get 24 L.word % 2 ^ 32 ≠ 0

theorem has_header (hsize : L.ehsize ≤ I.size) (h : off + w ≤ L.ehsize) : I.Has off w := by
  have := I.size_lt
  unfold Image.Has
  rw [hostPtr_of_lt (by omega)]
  omega

def headerInfo (L : Layout) (I : Image) : ElfInfo :=
  ⟨I.get 24 L.word % 2 ^ 32, I.get 18 2, I.mem 5 = 2, 0, 0, 0⟩

theorem wp_refuse {α : Type} {c : Prop} [Decidable c] {e : ElfError} {p : Elf (Except ElfError α)}
    {Q : Except ElfError α → Unit → Prop} (herr : ∀ e, Q (.error e) ()) :
    (if c then pure (.error e) else p).wp (inImage I) () Q ↔ (¬c → p.wp (inImage I) () Q) := by
  split
  next hc => exact iff_of_true (herr e) fun h => absurd hc h
  next hc => exact ⟨fun h _ => h, fun h => h hc⟩

theorem wp_readHeader {Q : Except ElfError ElfInfo → Unit → Prop} (herr : ∀ e, Q (.error e) ()) :
    (readHeader L I).wp (inImage I) () Q ↔ (HeaderOk L I → Q (.ok (headerInfo L I)) ()) := by
  have hft := L.header_fits
  simp only [forall_mem_cons, not_mem_nil, false_implies, implies_true, and_true] at hft
  simp only [readHeader, wp_refuse herr, wp_bind, wp_load_within, wp_rd, wp_pure, not_not, not_and_or]
  constructor
  · intro h hok
    have hmgc := (h (not_lt.mpr hok.size)).2 hok.magic
    have hord := (hmgc.2 hok.elfclass).2 hok.order
    exact hord.2.2.2 hok.executable
  intro h hsize
  have hsize : L.ehsize ≤ I.size := not_lt.mp hsize
  refine ⟨by omega, fun hmgc => ⟨by omega, fun hcls => ⟨by omega, fun hord => ?_⟩⟩⟩
  exact ⟨has_header hsize (by omega), has_header hsize (by omega), has_header hsize (by omega),
    fun hexec => h ⟨hsize, hmgc, hcls, hord, hexec⟩⟩

theorem wp_rdTable (hsize : L.ehsize ≤ I.size) {entsize num : Nat} (hoff : off + L.word ≤ L.ehsize)
    (hent : entsize + 2 ≤ L.ehsize) (hnum : num + 2 ≤ L.ehsize) {Q : Table → Unit → Prop} :
    (rdTable L I off entsize num).wp (inImage I) () Q ↔
      Q ⟨I.get off L.word, I.get entsize 2, I.get num 2⟩ () := by
  simp [rdTable, wp_rd, has_header hsize hoff, has_header hsize hent, has_header hsize hnum]

/-! ## Segments -/

def programHeaders (L : Layout) (I : Image) : Table :=
  ⟨I.get L.ePhoff L.word, I.get L.ePhentsize 2, I.get L.ePhnum 2⟩

namespace Image

def IsLoad (I : Image) (ph : Nat) : Prop := I.get ph 4 = 1

instance (I : Image) (ph : Nat) : Decidable (I.IsLoad ph) := inferInstanceAs (Decidable (_ = _))

def segOffset (L : Layout) (I : Image) (ph : Nat) : Nat := I.get (ph + L.pOffset) L.word

def segFilesz (L : Layout) (I : Image) (ph : Nat) : Nat := I.get (ph + L.pFilesz) L.word % 2 ^ 32

def loadsBefore (L : Layout) (I : Image) (T : Table) (i : Nat) : Nat :=
  ((List.range i).filter fun k => I.IsLoad (T.entry L k)).length

end Image

/-- The loader goes on behind program header `i`: the checks pass, and a segment finds a region left
for it. -/
def SegmentPasses (L : Layout) (I : Image) (T : Table) (nregions i : Nat) : Prop :=
  ¬PastEnd L I (T.endOf i) ∧ (I.IsLoad (T.entry L i) →
      ¬PastEnd L I (I.segOffset L (T.entry L i) + I.segFilesz L (T.entry L i)) ∧
        nregions + I.loadsBefore L T i < maxRegions)

/-- Program header `i`, when its end passes the check: its type lies in the image, and so do a
segment's fields and the bytes copied. -/
def SegmentFits (L : Layout) (I : Image) (T : Table) (nregions i : Nat) : Prop :=
  ¬PastEnd L I (T.endOf i) → I.Has (T.entry L i) 4 ∧ (I.IsLoad (T.entry L i) →
        (∀ f ∈ L.segmentFields, I.Has (T.entry L i + f.1) f.2) ∧
          (¬PastEnd L I (I.segOffset L (T.entry L i) + I.segFilesz L (T.entry L i)) →
            nregions + I.loadsBefore L T i < maxRegions → I.segFilesz L (T.entry L i) = 0 ∨
                I.segOffset L (T.entry L i) + I.segFilesz L (T.entry L i) ≤ I.size))

theorem get_lt : I.get off w < 256 ^ w := by
  have h := I.order.decode_lt (I.mem.read (hostPtr off) w)
  rwa [Mem.length_read] at h

theorem get_word_lt : I.get off L.word < 2 ^ 64 :=
  calc I.get off L.word < 256 ^ L.word := get_lt
    _ ≤ 256 ^ 8 := Nat.pow_le_pow_right (by decide) L.word_le
    _ = 2 ^ 64 := by decide

theorem bytes_inside {cnt : Nat} (hoff : off < 2 ^ 64) :
    (∀ x ∈ (List.range cnt).map fun k => hostPtr (off + k), 0 ≤ x ∧ x < I.size) ↔
      cnt = 0 ∨ off + cnt ≤ I.size := by
  have hsize := I.size_lt
  simp only [forall_mem_map, mem_range, zero_le, true_and]
  constructor
  · intro h
    by_contra hnot
    -- the first byte is inside, so the last one in front of the end is reached without wrapping
    have hfst := h 0 (by omega)
    have hls := h (I.size - off) (by omega)
    rw [hostPtr_of_lt (by omega)] at hls
    omega
  · rintro (rfl | hle) k hk
    · omega
    · rw [hostPtr_of_lt (by omega)]
      omega

theorem wp_loadSegment {ph : Nat} {st : Loaded} {Q : Except ElfError Loaded → Unit → Prop}
    {R : Prop} (herr : ∀ e, Q (.error e) ())
    (hok : ∀ st', st'.nregions = st.nregions + 1 → (Q (.ok st') () ↔ R)) :
    (loadSegment L I ph i st).wp (inImage I) () Q ↔ (∀ f ∈ L.segmentFields, I.Has (ph + f.1) f.2) ∧
        (¬PastEnd L I (I.segOffset L ph + I.segFilesz L ph) → st.nregions < maxRegions →
          (I.segFilesz L ph = 0 ∨ I.segOffset L ph + I.segFilesz L ph ≤ I.size) ∧ R) := by
  simp only [loadSegment, wp_bind, wp_rdFields, wp_refuse herr, wp_host_within, forall_const,
    wp_loadEach_within, bytes_inside get_word_lt, not_le]
  apply and_congr_right'
  apply imp_congr_right
  intro _
  apply imp_congr_right
  intro _
  apply and_congr_right'
  split
  · simp only [wp_bind, wp_host_within, forall_const, wp_pure]
    exact hok _ rfl
  · exact hok _ rfl

theorem loadsBefore_succ (i : Nat) :
    I.loadsBefore L T (i + 1) = I.loadsBefore L T i + if I.IsLoad (T.entry L i) then 1 else 0 := by
  unfold Image.loadsBefore
  rw [range_succ, filter_append, length_append]
  split
  next h => simp [h]
  next h => simp [h]

theorem wp_segmentLoop {nregions : Nat} {st : Loaded} (hst : st.nregions = nregions + I.loadsBefore L T i) :
    (segmentLoop L I T n i st).wp (inImage I) () (fun _ _ => True) ↔
      WalkGood (SegmentPasses L I T nregions) (SegmentFits L I T nregions) i n := by
  induction n generalizing i st with
  | zero => exact iff_of_true trivial walkGood_zero
  | succ n ih =>
    rw [segmentLoop, walkGood_succ, wp_refuse fun _ => trivial, SegmentFits, SegmentPasses]
    rw [wp_bind, wp_rd]
    by_cases hend : PastEnd L I (T.endOf i)
    · simp [hend]
    simp only [hend, not_false_eq_true, true_implies, true_and]
    by_cases hlo : I.IsLoad (T.entry L i)
    · have hone : I.get (T.entry L i) 4 = 1 := hlo
      have hnx : ∀ st', st'.nregions = st.nregions + 1 →
          ((segmentLoop L I T n (i + 1) st').wp (inImage I) () (fun _ _ => True) ↔
            WalkGood (SegmentPasses L I T nregions) (SegmentFits L I T nregions) (i + 1) n) := by
        intro st' hst'
        apply ih
        rw [hst', hst, loadsBefore_succ, if_pos hlo, add_assoc]
      simp only [hone, ne_eq, not_true_eq_false, if_false, hlo, true_implies, wp_bind]
      rw [wp_loadSegment (fun _ => trivial) hnx, hst]
      constructor
      · rintro ⟨hty, hflds, hrs⟩
        exact ⟨⟨hty, hflds, fun hend hrm => (hrs hend hrm).1⟩,
          fun hps => (hrs hps.1 hps.2).2⟩
      · rintro ⟨⟨hty, hflds, hbs⟩, hrs⟩
        exact ⟨hty, hflds, fun hend hrm => ⟨hbs hend hrm, hrs ⟨hend, hrm⟩⟩⟩
    · have hone : I.get (T.entry L i) 4 ≠ 1 := hlo
      simp only [ne_eq, hone, not_false_eq_true, if_true, hlo, false_implies, and_true, true_implies]
      rw [ih]
      rw [hst, loadsBefore_succ, if_neg hlo, add_zero]

theorem wp_finishLoad {info : ElfInfo} (r : Except ElfError Loaded) :
    (finishLoad info r).wp (inImage I) () fun _ _ => True := by
  cases r with
  | error e => trivial
  | ok st =>
    rw [finishLoad, wp_refuse fun _ => trivial]
    intro _
    rw [wp_bind, wp_host_within]
    intro fault
    cases fault with
    | none | some => trivial

/-- The reads of `loadMem` are inside the image exactly when every program header it comes to fits. -/
def SegmentsFit (L : Layout) (I : Image) (nregions : Nat) : Prop :=
  HeaderOk L I → (programHeaders L I).num ≠ 0 → (programHeaders L I).off ≠ 0 →
    WalkGood (SegmentPasses L I (programHeaders L I) nregions)
      (SegmentFits L I (programHeaders L I) nregions) 0 (programHeaders L I).num

theorem wp_loadMem {nregions : Nat} :
    (loadMem L I nregions).wp (inImage I) () (fun _ _ => True) ↔ SegmentsFit L I nregions := by
  have hft := L.header_fits
  simp only [forall_mem_cons, not_mem_nil, false_implies, implies_true, and_true] at hft
  rw [loadMem, wp_bind, wp_readHeader fun _ => trivial]
  apply forall_congr'
  intro hok
  rw [wp_bind, wp_rdTable hok.size (by omega) (by omega) (by omega), wp_refuse fun _ => trivial,
    wp_bind, not_or, and_imp]
  apply imp_congr_right
  intro _
  apply imp_congr_right
  intro _
  have hafter : (fun r g => (finishLoad (headerInfo L I) r).wp (inImage I) g fun _ _ => True) =
      fun _ _ => True := by
    funext r g
    exact eq_true (wp_finishLoad r)
  rw [hafter]
  exact wp_segmentLoop rfl

/-! ## Symbols -/

def sectionHeaders (L : Layout) (I : Image) : Table :=
  ⟨I.get L.eShoff L.word, I.get L.eShentsize 2, I.get L.eShnum 2⟩

def IsName (I : Image) (name : List UInt8) (off : Nat) : Prop :=
  ∀ k < name.length + 1, I.mem (hostPtr (off + k)) = name.getD k 0

instance (I : Image) (name : List UInt8) (off : Nat) : Decidable (IsName I name off) :=
  inferInstanceAs (Decidable (∀ k < _, _))

/-- The string at `b + off` lies in the image up to the first byte that differs from `name`, or up to
its end. -/
def NameFits (I : Image) (name : List UInt8) (off : Nat) : Prop :=
  WalkGood (fun k => I.mem (hostPtr (off + k)) = name.getD k 0) (fun k => I.Has (off + k) 1) 0
    (name.length + 1)

theorem nameFits_cons {c : UInt8} :
    NameFits I (c :: name) off ↔ I.Has off 1 ∧ (I.mem (hostPtr off) = c → NameFits I name (off + 1)) := by
  unfold NameFits
  rw [length_cons, walkGood_succ, walkGood_shift]
  simp only [add_zero, getD_cons_zero, getD_cons_succ, add_assoc, add_comm 1]

theorem isName_cons {c : UInt8} :
    IsName I (c :: name) off ↔ I.mem (hostPtr off) = c ∧ IsName I name (off + 1) := by
  unfold IsName
  rw [length_cons, Nat.forall_lt_succ_left]
  simp only [add_zero, getD_cons_zero, getD_cons_succ, add_assoc, add_comm 1]

theorem wp_strcmpEq {Q : Bool → Unit → Prop} : (strcmpEq I off name).wp (inImage I) () Q ↔
      NameFits I name off ∧ Q (decide (IsName I name off)) () := by
  induction name generalizing off with
  | nil =>
    have hnm : IsName I [] off ↔ I.mem (hostPtr off) = 0 := by simp [IsName]
    have hft : NameFits I [] off ↔ I.Has off 1 := by simp [NameFits, walkGood_succ]
    simp only [strcmpEq, wp_bind, wp_load_within, wp_pure, zero_le, true_and, hnm, hft]
    rfl
  | cons c name ih =>
    simp only [strcmpEq, wp_bind, wp_load_within, nameFits_cons, isName_cons, zero_le,
      true_and, and_assoc]
    apply and_congr_right'
    by_cases hc : I.mem (hostPtr off) = c
    · simp [hc, ih]
    · simp [hc]

section Symbols

variable (L I name) (S : Symtab) (j : Nat)

def symNameoff : Nat := I.get (S.sym L j) 4

def SymMatches : Prop := symNameoff L I S j < S.strsz ∧ IsName I name (S.stroff + symNameoff L I S j)

instance : Decidable (SymMatches L I name S j) := inferInstanceAs (Decidable (_ ∧ _))

def SymbolFits : Prop :=
  I.Has (S.sym L j) 4 ∧ (symNameoff L I S j < S.strsz → NameFits I name (S.stroff + symNameoff L I S j) ∧
        (IsName I name (S.stroff + symNameoff L I S j) → I.Has (S.sym L j + L.stValue) L.word))

def valueFrom (n : Nat) : Nat :=
  ((List.range' j n).find? fun k => SymMatches L I name S k).elim 0 fun k =>
    I.get (S.sym L k + L.stValue) L.word % 2 ^ 32

end Symbols

variable {S : Symtab}

theorem wp_symbolLoop {j : Nat} : (symbolLoop L I name S n j).wp (inImage I) () Q ↔
      WalkGood (fun j => ¬SymMatches L I name S j) (SymbolFits L I name S) j n ∧
        Q (valueFrom L I name S j n) () := by
  induction n generalizing j with
  | zero => simp [symbolLoop, valueFrom]
  | succ n ih =>
    have hval : valueFrom L I name S j (n + 1) =
        if SymMatches L I name S j then I.get (S.sym L j + L.stValue) L.word % 2 ^ 32
        else valueFrom L I name S (j + 1) n := by
      unfold valueFrom
      rw [range'_succ, find?_cons]
      split
      next h => rw [if_pos (of_decide_eq_true h)]; rfl
      next h => rw [if_neg (of_decide_eq_false h)]
    have hoffset : I.get (S.sym L j) 4 = symNameoff L I S j := rfl
    rw [symbolLoop, walkGood_succ, hval, wp_bind, wp_rd, SymbolFits, hoffset]
    by_cases hoff : S.strsz ≤ symNameoff L I S j
    · have hno : ¬SymMatches L I name S j := fun h => not_lt.mpr hoff h.1
      simp [hoff, ih, hno, and_assoc]
    have hlt : symNameoff L I S j < S.strsz := not_le.mp hoff
    have hmatch : SymMatches L I name S j ↔ IsName I name (S.stroff + symNameoff L I S j) :=
      and_iff_right hlt
    simp only [hoff, if_false, wp_bind, wp_strcmpEq, hlt, true_implies, decide_eq_true_eq, hmatch]
    by_cases hnm : IsName I name (S.stroff + symNameoff L I S j)
    · simp [hnm, wp_rd, and_assoc]
    · simp [hnm, ih, and_assoc]

section Sections

variable (L I name T) (sh : Nat)

def secOffset : Nat := I.get (sh + L.shOffset) L.word
def secSize : Nat := I.get (sh + L.shSize) L.word
def secEntsize : Nat := I.get (sh + L.shEntsize) L.word

def secStrings : Nat := strHeader L T (I.get (sh + L.shLink) 4)

def symtabAt : Symtab :=
  ⟨secOffset L I sh, secEntsize L I sh, I.get (secStrings L I T sh + L.shOffset) L.word,
    I.get (secStrings L I T sh + L.shSize) L.word⟩

def IsSymtab : Prop := I.get (sh + 4) 4 = 2

def TableUsed : Prop := secEntsize L I sh ≠ 0 ∧ ¬PastEnd L I (secOffset L I sh + secSize L I sh)

def StringsUsed : Prop := ¬PastEnd L I ((symtabAt L I T sh).stroff + (symtabAt L I T sh).strsz)

instance : Decidable (IsSymtab I sh) := inferInstanceAs (Decidable (_ = _))
instance : Decidable (TableUsed L I sh) := inferInstanceAs (Decidable (_ ∧ _))
instance : Decidable (StringsUsed L I T sh) := inferInstanceAs (Decidable (¬_))

def sectionValue : Nat :=
  if IsSymtab I sh ∧ TableUsed L I sh ∧ StringsUsed L I T sh then
    valueFrom L I name (symtabAt L I T sh) 0 (secSize L I sh / secEntsize L I sh)
  else
    0

/-- The section header at `b + sh`: its type lies in the image, and so do the fields of a symbol
table, of the linked section if the table is used, and every symbol the search comes to. -/
def SectionReads : Prop :=
  I.Has (sh + 4) 4 ∧ (IsSymtab I sh →
      (I.Has (sh + L.shOffset) L.word ∧ I.Has (sh + L.shSize) L.word ∧ I.Has (sh + L.shLink) 4 ∧
        I.Has (sh + L.shEntsize) L.word) ∧
      (TableUsed L I sh → (I.Has (secStrings L I T sh + L.shOffset) L.word ∧
          I.Has (secStrings L I T sh + L.shSize) L.word) ∧
        (StringsUsed L I T sh → WalkGood (fun j => ¬SymMatches L I name (symtabAt L I T sh) j)
            (SymbolFits L I name (symtabAt L I T sh)) 0 (secSize L I sh / secEntsize L I sh))))

end Sections

theorem wp_sectionSymbol {sh : Nat} : (sectionSymbol L I name T sh).wp (inImage I) () Q ↔
      SectionReads L I name T sh ∧ Q (sectionValue L I name T sh) () := by
  rw [sectionSymbol, SectionReads, sectionValue, wp_bind, wp_rd, and_assoc]
  have hoff : I.get (sh + L.shOffset) L.word = secOffset L I sh := rfl
  have hsz : I.get (sh + L.shSize) L.word = secSize L I sh := rfl
  have hent : I.get (sh + L.shEntsize) L.word = secEntsize L I sh := rfl
  have hstr : strHeader L T (I.get (sh + L.shLink) 4) = secStrings L I T sh := rfl
  by_cases hty : IsSymtab I sh
  · rw [if_neg (not_not.mpr (show I.get _ 4 = 2 from hty))]
    simp only [wp_bind, wp_rd, hty, true_implies, true_and, and_assoc, hoff, hsz, hent, hstr]
    by_cases htab : TableUsed L I sh
    · rw [if_neg fun h => h.elim htab.1 htab.2]
      simp only [wp_bind, wp_rd, htab, true_implies, true_and, and_assoc]
      have hus : StringsUsed L I T sh ↔ ¬PastEnd L I (I.get (secStrings L I T sh + L.shOffset) L.word +
            I.get (secStrings L I T sh + L.shSize) L.word) := Iff.rfl
      by_cases hss : StringsUsed L I T sh
      · rw [if_neg (hus.mp hss), wp_symbolLoop, if_pos hss]
        simp only [hss, true_implies]
        rfl
      · rw [if_pos (not_not.mp (mt hus.mpr hss)), if_neg hss]
        simp [hss]
    · rw [if_pos ((not_and_or.mp htab).imp not_not.mp not_not.mp)]
      simp [htab]
  · rw [if_pos (show I.get _ 4 ≠ 2 from hty)]
    simp [hty]

def SectionPasses (L : Layout) (I : Image) (name : List UInt8) (T : Table) (i : Nat) : Prop :=
  ¬PastEnd L I (T.endOf i) ∧ sectionValue L I name T (T.entry L i) = 0

def SectionFits (L : Layout) (I : Image) (name : List UInt8) (T : Table) (i : Nat) : Prop :=
  ¬PastEnd L I (T.endOf i) → SectionReads L I name T (T.entry L i)

theorem wp_sectionLoop : (sectionLoop L I name T n i).wp (inImage I) () (fun _ _ => True) ↔
      WalkGood (SectionPasses L I name T) (SectionFits L I name T) i n := by
  induction n generalizing i with
  | zero => exact iff_of_true trivial walkGood_zero
  | succ n ih =>
    rw [sectionLoop, walkGood_succ, SectionFits, SectionPasses]
    by_cases hend : PastEnd L I (T.endOf i)
    · rw [if_pos hend]
      exact iff_of_true trivial ⟨fun h => absurd hend h, fun h => absurd hend h.1⟩
    rw [if_neg hend, wp_bind, wp_sectionSymbol]
    by_cases hz : sectionValue L I name T (T.entry L i) = 0
    · simp [hend, hz, ih]
    · simp [hend, hz]

/-- The reads of `symbolMem` are inside the image exactly when every section header it comes to fits. -/
def SectionsFit (L : Layout) (I : Image) (name : List UInt8) : Prop :=
  HeaderOk L I →
    WalkGood (SectionPasses L I name (sectionHeaders L I)) (SectionFits L I name (sectionHeaders L I))
      0 (sectionHeaders L I).num

theorem wp_symbolMem : (symbolMem L I name).wp (inImage I) () (fun _ _ => True) ↔ SectionsFit L I name := by
  have hft := L.header_fits
  simp only [forall_mem_cons, not_mem_nil, false_implies, implies_true, and_true] at hft
  rw [symbolMem, wp_bind, wp_readHeader fun _ => trivial]
  apply forall_congr'
  intro hok
  rw [wp_bind, wp_rdTable hok.size (by omega) (by omega) (by omega)]
  exact wp_sectionLoop

/-! ## All four functions -/

def ReadsImage {α : Type} (I : Image) (p : Elf α) : Prop :=
  ∀ tr a, p.Runs tr a → ∀ off cnt r, ⟨.load off cnt, r⟩ ∈ tr → off + cnt ≤ I.size

theorem readsImage_iff {α : Type} {p : Elf α} : ReadsImage I p ↔ p.wp (inImage I) () fun _ _ => True := by
  have hans : ∀ e, Nonempty (Reading.Ans GmCall.Ans e) := by
    intro e
    match e with
    | .load _ _ => exact ⟨()⟩
    | .host (.map _ _ _) => exact ⟨()⟩
    | .host (.write _ _) => exact ⟨()⟩
    | .host (.zero _ _) => exact ⟨()⟩
    | .host .fault => exact ⟨none⟩
  rw [Prog.wp_always_iff hans]
  apply forall₃_congr
  intro tr a hrun
  simp only [and_true]
  constructor
  · rintro h ⟨e, r⟩ hev
    match e with
    | .load off cnt => exact ⟨Nat.zero_le _, h off cnt r hev⟩
    | .host _ => trivial
  · intro h off cnt r hev
    exact (h _ hev).2

/-- The four functions read only bytes of the image exactly when the headers, segments and symbols they
come to fit. -/
theorem elf_reads_iff (I : Image) (nregions : Nat) (name : List UInt8) :
    (ReadsImage I (elf32LoadMem I nregions) ↔ SegmentsFit elf32 I nregions) ∧
      (ReadsImage I (elf32SymbolMem I name) ↔ SectionsFit elf32 I name) ∧
      (ReadsImage I (elf64LoadMem I nregions) ↔ SegmentsFit elf64 I nregions) ∧
      (ReadsImage I (elf64SymbolMem I name) ↔ SectionsFit elf64 I name) :=
  ⟨readsImage_iff.trans wp_loadMem, readsImage_iff.trans wp_symbolMem,
    readsImage_iff.trans wp_loadMem, readsImage_iff.trans wp_symbolMem⟩

def Image.ofBytes (bytes : List UInt8) (h : bytes.length < 2 ^ 63) : Image :=
  ⟨fun x => bytes.getD x 0, bytes.length, h⟩

/-- An ELF32 header whose one program header of 32 bytes is said to start 32 bytes below `2 ^ 32`. -/
def wrappedTable : Image :=
  .ofBytes ([0x7f, 0x45, 0x4c, 0x46, 1, 1] ++ replicate 10 0 ++ [2, 0] ++ replicate 10 0 ++
    [0xe0, 0xff, 0xff, 0xff] ++ replicate 10 0 ++ [32, 0, 1, 0] ++ replicate 6 0)
    (by decide)

/-- The end of that program header wraps around to 0 and passes the check. -/
theorem wrappedTable_reads_outside : ¬∀ (I : Image) (nregions : Nat) (name : List UInt8),
      ReadsImage I (elf32LoadMem I nregions) ∧ ReadsImage I (elf32SymbolMem I name) ∧
        ReadsImage I (elf64LoadMem I nregions) ∧ ReadsImage I (elf64SymbolMem I name) := by
  intro hall
  have hrds := (hall wrappedTable 0 []).1
  rw [readsImage_iff] at hrds
  have hft := wp_loadMem.mp hrds
    ⟨by decide, by decide +kernel, by decide, by decide, by decide +kernel⟩ (by decide +kernel)
    (by decide +kernel)
  have hfst := hft 0 (le_refl 0) (by decide +kernel) fun k' _ hk' => absurd hk' (Nat.not_lt_zero k')
  have hinside := (hfst (by decide +kernel)).1
  revert hinside
  unfold Image.Has
  decide +kernel

end Skjegg.Emu
