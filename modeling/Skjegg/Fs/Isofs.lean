import Skjegg.Fs.Romfs

/-!
# ISO 9660 directories

`isofs.c` looks a path up in an image of sectors. A directory record is read without a check that it
lies in its sector and in the extent of its directory: of a sector, only the bytes below `bound` do.
-/

namespace Skjegg.Fs.Isofs

open Skjegg.Lib Romfs Relation

abbrev Sector := Nat → UInt8

def isoSector : Nat := 2048

structure IsoImg where
  /-- `sector`: nothing past the end of the image or on a read error -/
  sector : Nat → Option Sector
  (rootLba rootSize : Nat)
  /-- whether `char` is signed -/
  signedChar : Bool

structure Extent where
  (lba size : Nat)
  isdir : Bool
  deriving DecidableEq

section Code

variable (r : IsoImg) (sec : Sector) (bound : Nat)

def byteAt (i : Nat) : Guarded UInt8 := if i < bound then .ok (sec i) else .error (i + 1)

def rdU32 (i : Nat) : Guarded Nat := do
  let b0 ← byteAt sec bound i
  let b1 ← byteAt sec bound (i + 1)
  let b2 ← byteAt sec bound (i + 2)
  let b3 ← byteAt sec bound (i + 3)
  return Endian.little.decode [b0, b1, b2, b3]

def upper (x : Int) : Int := if 97 ≤ x ∧ x ≤ 122 then x - 32 else x

def sameLetter (a c : UInt8) : Bool :=
  upper a.toNat = upper (if r.signedChar then Int.bmod c.toNat 256 else c.toNat)

/-- The loop of `name_eq`. -/
def sameName : Nat → Blob → Guarded Bool
  | _, [] => return true
  | id, c :: comp => do
    if sameLetter r (← byteAt sec bound id) c then sameName (id + 1) comp else return false

/-- The length of a name without its `;1`. -/
def nameLen (id idlen : Nat) : Guarded Nat :=
  if 2 ≤ idlen then
    (fun b => if b = 59 then idlen - 2 else idlen) <$> byteAt sec bound (id + (idlen - 2))
  else
    pure idlen

def nameEq (id idlen : Nat) (comp : Blob) : Guarded Bool := do
  let n ← nameLen sec bound id idlen
  let dot ← if n = 1 then (fun b : UInt8 => decide (b ≤ 1)) <$> byteAt sec bound id else pure false
  if dot ∨ n ≠ comp.length then return false else sameName r sec bound id comp

/-- What a turn of the inner loop of `find_child` finds. -/
inductive Record
  | padding
  | found (e : Extent)
  | other (reclen : Nat) (pos : 0 < reclen)

def readRecord (comp : Blob) (off : Nat) : Guarded Record := do
  let reclen ← byteAt sec bound off
  if h : reclen.toNat = 0 then return .padding
  else
    let idlen ← byteAt sec bound (off + 32)
    if ← nameEq r sec bound (off + 33) idlen.toNat comp then
      let lba ← rdU32 sec bound (off + 2)
      let size ← rdU32 sec bound (off + 10)
      return .found ⟨lba, size, (← byteAt sec bound (off + 25)) &&& 2 ≠ 0⟩
    return .other reclen.toNat (Nat.pos_of_ne_zero h)

/-- The inner loop of `find_child`. -/
def scanSector (comp : Blob) (off : Nat) : Guarded (Option Extent) :=
  if off < isoSector then do
    match ← readRecord r sec bound comp off with
    | .padding => return none
    | .found e => return some e
    | .other reclen _ => scanSector comp (off + reclen)
  else
    return none
termination_by isoSector - off

def findChild (comp : Blob) (lba remaining : Nat) : Guarded (Option Extent) :=
  if 0 < remaining then
    match r.sector lba with
    | none => return none
    | some sec => do
      match ← scanSector r sec (min isoSector remaining) comp 0 with
      | some e => return some e
      | none => findChild comp ((lba + 1) % 2 ^ 32) (remaining - isoSector)
  else
    return none
termination_by remaining
decreasing_by simp only [isoSector]; omega

def walkFrom : Extent → List Blob → Guarded (Option Extent)
  | dir, [] => return some dir
  | dir, comp :: rest => do
    match ← findChild r comp dir.lba dir.size with
    | none => return none
    | some e => if rest ≠ [] ∧ ¬e.isdir then return none else walkFrom e rest

def walk (path : Blob) : Guarded (Option Extent) :=
  walkFrom r ⟨r.rootLba, r.rootSize, true⟩ (components path)

end Code

/-! ## Directories that fit -/

variable (sec : Sector)

/-- From a record to the next, by its length byte. -/
def NextRecord (off off' : Nat) : Prop :=
  off < isoSector ∧ (sec off).toNat ≠ 0 ∧ off' = off + (sec off).toNat

def RecordAt : Nat → Prop := ReflTransGen (NextRecord sec) 0

/-- The length byte lies below `bound`, and unless it is zero, so do the head of the record and the name
behind it. -/
def RecordFits (bound off : Nat) : Prop :=
  off < bound ∧ ((sec off).toNat ≠ 0 → off + 33 + (sec (off + 32)).toNat ≤ bound)

def SectorFits (bound : Nat) : Prop :=
  ∀ off, RecordAt sec off → off < isoSector → RecordFits sec bound off

/-- From a sector of a directory, with the bytes left of it, to the next. -/
def NextSector (d d' : Nat × Nat) : Prop := 0 < d.2 ∧ d' = ((d.1 + 1) % 2 ^ 32, d.2 - isoSector)

def SectorOf (r : IsoImg) (dir : Extent) (sec : Sector) (rest : Nat) : Prop :=
  ∃ lba, ReflTransGen NextSector (dir.lba, dir.size) (lba, rest) ∧ 0 < rest ∧ r.sector lba = some sec

def DirectoryFits (r : IsoImg) (dir : Extent) : Prop :=
  ∀ sec rest, SectorOf r dir sec rest → SectorFits sec (min isoSector rest)

def wordAt (i : Nat) : Nat :=
  Endian.little.decode [sec i, sec (i + 1), sec (i + 2), sec (i + 3)]

def extentAt (off : Nat) : Extent :=
  ⟨wordAt sec (off + 2), wordAt sec (off + 10), sec (off + 25) &&& 2 ≠ 0⟩

/-- The root, and what a record of a directory calls a directory. -/
inductive Directory (r : IsoImg) : Extent → Prop
  | root : Directory r ⟨r.rootLba, r.rootSize, true⟩
  | sub {dir : Extent} {sec : Sector} {rest off : Nat} : Directory r dir → SectorOf r dir sec rest →
      RecordAt sec off → off < isoSector → (sec off).toNat ≠ 0 → (extentAt sec off).isdir = true →
      Directory r (extentAt sec off)

def ImageFits (r : IsoImg) : Prop := ∀ dir, Directory r dir → DirectoryFits r dir

/-! ## Lookups -/

variable {r : IsoImg} {sec : Sector} {bound off : Nat} {comp : Blob} {dir : Extent}

theorem succeeds_byteAt {i : Nat} {Q : UInt8 → Prop} :
    Succeeds (byteAt sec bound i) Q ↔ i < bound ∧ Q (sec i) := by
  rw [byteAt]
  split <;> simp [*]

theorem succeeds_rdU32 {i : Nat} {Q : Nat → Prop} (h : i + 3 < bound) :
    Succeeds (rdU32 sec bound i) Q ↔ Q (wordAt sec i) := by
  simp only [rdU32, succeeds_bind, succeeds_byteAt, succeeds_pure]
  exact ⟨fun h => h.2.2.2.2, fun hQ => ⟨by omega, by omega, by omega, h, hQ⟩⟩

theorem sameName_inside {id : Nat} (h : id + comp.length ≤ bound) : Inside (sameName r sec bound id comp) := by
  induction comp generalizing id with
  | nil => exact inside_pure
  | cons c comp ih =>
    rw [List.length_cons] at h
    rw [sameName, Inside, succeeds_bind, succeeds_byteAt]
    refine ⟨by omega, ?_⟩
    split
    · exact ih (by omega)
    · exact inside_pure

theorem nameEq_inside {id idlen : Nat} (h : id + idlen ≤ bound) :
    Inside (nameEq r sec bound id idlen comp) := by
  have hlen : Succeeds (nameLen sec bound id idlen) fun n => n ≤ idlen := by
    rw [nameLen]
    split
    · rw [succeeds_map, succeeds_byteAt]
      refine ⟨by omega, ?_⟩
      split <;> omega
    · exact succeeds_pure.mpr le_rfl
  refine hlen.bind fun n hn => ?_
  have hrest : ∀ dot : Bool, Inside (if dot ∨ n ≠ comp.length then pure false
      else sameName r sec bound id comp) := by
    intro dot
    split
    · exact inside_pure
    · next hsame =>
      -- only a name of the right length is compared
      have hcomp : n = comp.length := not_not.mp (not_or.mp hsame).2
      exact sameName_inside (by omega)
  dsimp only
  split
  · rw [succeeds_bind, succeeds_map, succeeds_byteAt]
    exact ⟨by omega, hrest _⟩
  · exact succeeds_bind.mpr (succeeds_pure.mpr (hrest _))

theorem readRecord_succeeds (h : RecordFits sec bound off) :
    Succeeds (readRecord r sec bound comp off) fun
      | .padding => True
      | .found e => (sec off).toNat ≠ 0 ∧ e = extentAt sec off
      | .other n _ => (sec off).toNat ≠ 0 ∧ n = (sec off).toNat := by
  rw [readRecord, succeeds_bind, succeeds_byteAt]
  refine ⟨h.1, ?_⟩
  split
  · exact succeeds_pure.mpr trivial
  rename_i hne
  have hfit := h.2 hne
  rw [succeeds_bind, succeeds_byteAt]
  refine ⟨by omega, (nameEq_inside hfit).bind fun same _ => ?_⟩
  split
  · rw [succeeds_bind, succeeds_rdU32 (by omega), succeeds_bind, succeeds_rdU32 (by omega), succeeds_bind,
      succeeds_byteAt, succeeds_pure]
    exact ⟨by omega, hne, rfl⟩
  · exact succeeds_pure.mpr ⟨hne, rfl⟩

theorem scanSector_succeeds (hsec : SectorFits sec bound) (hoff : RecordAt sec off) :
    Succeeds (scanSector r sec bound comp off) fun res => ∀ e, res = some e →
      ∃ off', RecordAt sec off' ∧ off' < isoSector ∧ (sec off').toNat ≠ 0 ∧ e = extentAt sec off' := by
  induction hn : isoSector - off using Nat.strong_induction_on generalizing off with
  | _ n ih =>
    rw [scanSector]
    split
    · next hlt =>
      refine (readRecord_succeeds (hsec off hoff hlt)).bind fun rec hrec => ?_
      cases rec with
      | padding => exact succeeds_pure.mpr nofun
      | found e =>
        refine succeeds_pure.mpr fun e' he => ?_
        cases he
        exact ⟨off, hoff, hlt, hrec⟩
      | other k hk =>
        obtain ⟨hne, rfl⟩ := hrec
        exact ih _ (by omega) (hoff.tail ⟨hlt, hne, rfl⟩) rfl
    · exact succeeds_pure.mpr nofun

theorem findChild_succeeds (hdir : Directory r dir) (hfit : DirectoryFits r dir) {d : Nat × Nat}
    (hd : ReflTransGen NextSector (dir.lba, dir.size) d) :
    Succeeds (findChild r comp d.1 d.2) fun res => ∀ e, res = some e → e.isdir = true → Directory r e := by
  induction hn : d.2 using Nat.strong_induction_on generalizing d with
  | _ n ih =>
    subst hn
    rw [findChild]
    split
    · next hpos =>
      split
      · exact succeeds_pure.mpr nofun
      rename_i sec hsec
      have hof : SectorOf r dir sec d.2 := ⟨d.1, hd, hpos, hsec⟩
      refine (scanSector_succeeds (hfit sec d.2 hof) .refl).bind fun res hres => ?_
      cases res with
      | some e =>
        refine succeeds_pure.mpr fun e' he hisdir => ?_
        cases he
        obtain ⟨off, hoff, hlt, hne, rfl⟩ := hres e rfl
        exact .sub hdir hof hoff hlt hne hisdir
      | none =>
        have hnext : NextSector d ((d.1 + 1) % 2 ^ 32, d.2 - isoSector) := ⟨hpos, rfl⟩
        exact ih _ (Nat.sub_lt hpos (by decide)) (hd.tail hnext) rfl
    · exact succeeds_pure.mpr nofun

theorem walkFrom_inside (hfit : ImageFits r) {comps : List Blob} (hdir : Directory r dir) :
    Inside (walkFrom r dir comps) := by
  induction comps generalizing dir with
  | nil => exact inside_pure
  | cons comp rest ih =>
    refine (findChild_succeeds hdir (hfit dir hdir) .refl).bind fun res hres => ?_
    cases res with
    | none => exact inside_pure
    | some e =>
      dsimp only
      split
      · exact inside_pure
      rename_i hgo
      cases rest with
      | nil => exact inside_pure
      | cons => exact ih (hres e rfl (not_not.mp fun hno => hgo ⟨List.cons_ne_nil _ _, hno⟩))

/-- A directory of one sector whose only record, of the name `A`, is the directory itself. -/
def selfDirectory : IsoImg where
  sector _ := some fun i => ([34, 0, 18, 0, 0, 0, 0, 0, 0, 0, 0, 8] ++ List.replicate 13 0 ++ [2] ++
    List.replicate 6 0 ++ [1, 65])[i]?.getD 0
  rootLba := 18
  rootSize := 2048
  signedChar := true

/-- A directory of one sector, with records of 255 bytes one after the other. -/
def longRecords : IsoImg :=
  { sector := fun _ => some fun i => if i % 255 = 0 then 255 else 0, rootLba := 18, rootSize := 2048
    signedChar := true }

end Skjegg.Fs.Isofs
