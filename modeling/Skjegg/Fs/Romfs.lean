import Skjegg.Lib.Loop
import Skjegg.Lib.Memory

/-!
# The packed read-only file system

`romfs.c` reads a blob that a guest may have chosen: a header, a table of nodes, names and file bytes.
`romfs_parse` checks every node once; walks, listings and reads then have no checks of their own. An
access outside the blob is an error.
-/

namespace Skjegg.Fs.Romfs

open Skjegg.Lib List

abbrev Blob := List UInt8

/-- The error is the end of an access that is not inside the blob. -/
abbrev Guarded := Except Nat

def bytesAt (img : Blob) (off cnt : Nat) : Guarded Blob :=
  if off + cnt ≤ img.length then .ok ((img.drop off).take cnt) else .error (off + cnt)

/-- Without a terminator the reads of a string go on behind the blob. -/
def stringAt (img : Blob) (off : Nat) : Guarded Blob :=
  if 0 ∈ img.drop off then .ok ((img.drop off).takeWhile (· ≠ 0)) else .error (img.length + 1)

def rdU32 (img : Blob) (off : Nat) : Guarded Nat := Endian.little.decode <$> bytesAt img off 4

structure RomfsImg where
  img : Blob
  (nnodes nodesOff strsOff dataOff : Nat)
  deriving DecidableEq

def romfsNodeSize : Nat := 20
def romfsTFile : Nat := 0
def romfsTDir : Nat := 1

section Code

variable (r : RomfsImg)

def nodeField (k i : Nat) : Guarded Nat := rdU32 r.img (r.nodesOff + i * romfsNodeSize + k)
def nodeName : Nat → Guarded Nat := nodeField r 0
def nodeType : Nat → Guarded Nat := nodeField r 4
def nodeParent (i : Nat) : Guarded Int := (fun p : Nat => Int.bmod p (2 ^ 32)) <$> nodeField r 8 i
def nodeData : Nat → Guarded Nat := nodeField r 12
def nodeSize : Nat → Guarded Nat := nodeField r 16

def nodeNameStr (i : Nat) : Guarded Blob := do
  stringAt r.img (r.strsOff + (← nodeName r i))

/-- The test of `find_child` on node `i`; both lengths go through an `int`. -/
def isChild (dir : Nat) (name : Blob) (i : Nat) : Guarded Bool := do
  if (← nodeParent r i) = dir then
    let nm ← nodeNameStr r i
    let n := name.length % 2 ^ 32
    if nm.length % 2 ^ 32 ≠ n then return false
    -- `memcmp` takes a negative length for a `size_t`
    if 2 ^ 31 ≤ n then .error (2 ^ 64 - 2 ^ 32 + n)
    return nm.take n = name.take n
  else
    return false

def findChild (dir : Nat) (name : Blob) : Guarded (Option Nat) :=
  (range r.nnodes).findM? (isChild r dir name)

inductive Errno
  | enotdir
  | enoent
  | erofs
  | eisdir

/-- What stands between the slashes of a path. -/
def components (rel : Blob) : List Blob := (rel.splitOn 47).filter (· ≠ [])

def walkFrom : Nat → List Blob → Guarded (Except Errno Nat)
  | cur, [] => pure (.ok cur)
  | cur, comp :: rest =>
    let n := comp.length % 2 ^ 32
    if n = 1 ∧ comp.take 1 = [46] then walkFrom cur rest
    else if n = 2 ∧ comp.take 2 = [46, 46] then do
      let parent ← nodeParent r cur
      walkFrom (if 0 ≤ parent then parent.toNat else cur) rest
    else do
      if (← nodeType r cur) ≠ romfsTDir then return .error .enotdir
      match ← findChild r cur comp with
      | none => return .error .enoent
      | some c => walkFrom c rest

def walk (base : Nat) (rel : Blob) : Guarded (Except Errno Nat) := walkFrom r base (components rel)

/-- `FS_PATH_MAX` is 256; here the length of a component is to fit an `int`. -/
abbrev Path := { rel : Blob // ∀ comp ∈ components rel, comp.length < 2 ^ 31 }

structure OpenFlags where
  (rdonly creat directory : Bool)

def romOpen (base : Nat) (rel : Blob) (flags : OpenFlags) : Guarded (Except Errno Nat) := do
  if !flags.rdonly || flags.creat then return .error .erofs
  match ← walk r base rel with
  | .error e => return .error e
  | .ok node =>
    let type ← nodeType r node
    if flags.directory ∧ type ≠ romfsTDir then return .error .enotdir
    if ¬flags.directory ∧ type = romfsTDir then return .error .eisdir
    return .ok node

/-- The bytes read and the position after them. -/
def romRead (h n : Nat) (pos : Int) : Guarded (Blob × Int) := do
  let sz ← nodeSize r h
  let off := (r.dataOff + (← nodeData r h)) % 2 ^ 32
  if pos < 0 ∨ sz ≤ pos then return ([], pos)
  let n := min n (sz - pos.toNat)
  return (← bytesAt r.img (off + pos.toNat % 2 ^ 32) n, pos + n)

structure Dirent where
  ino : Nat
  isdir : Bool
  name : Blob

/-- The next entry and the cursor behind it. -/
def romReaddir (h : Nat) (cursor : Int) : Guarded (Option (Dirent × Nat)) := do
  let start := (cursor % 2 ^ 32).toNat
  match ← ((range r.nnodes).drop start).findM? fun i => return (← nodeParent r i) = h with
  | none => return none
  | some i =>
    let isdir := (← nodeType r i) = romfsTDir
    return some (⟨i + 1, isdir, (← nodeNameStr r i).take 55⟩, i + 1)

/-- One turn of the loop of `romfs_parse`; `nameoff` goes through a `uint32_t`. -/
def checkNode (i : Nat) : Guarded Bool := do
  let nameoff := r.strsOff + (← nodeName r i)
  let type ← nodeType r i
  let parent ← nodeParent r i
  let data ← nodeData r i
  let size ← nodeSize r i
  return (type = romfsTFile ∨ type = romfsTDir) ∧ ¬(parent < -1 ∨ Int.bmod r.nnodes (2 ^ 32) ≤ parent) ∧
    nameoff < r.img.length ∧ 0 ∈ r.img.drop (nameoff % 2 ^ 32) ∧
    (type = romfsTFile → r.dataOff + data + size ≤ r.img.length)

end Code

def romfsMagic : Blob := [83, 75, 74, 82, 79, 77, 70, 83]

def readHeader (p : Blob) : Guarded RomfsImg :=
  return ⟨p, ← rdU32 p 12, ← rdU32 p 16, ← rdU32 p 20, ← rdU32 p 24⟩

/-- `romfs_parse`; nothing is `-EINVAL`. -/
def romfsParse (p : Blob) : Guarded (Option RomfsImg) := do
  if p.length < 32 then return none
  if (← bytesAt p 0 8) ≠ romfsMagic ∨ (← rdU32 p 8) ≠ 1 then return none
  let r ← readHeader p
  if r.nnodes = 0 ∨ p.length < r.nodesOff + r.nnodes * romfsNodeSize ∨ p.length < r.strsOff ∨
      p.length < r.dataOff then
    return none
  return if ← (range r.nnodes).allM (checkNode r) then some r else none

/-- The handles of a mount: the root, and what was opened from a handle, as a directory or not. -/
inductive Handle (r : RomfsImg) : Bool → Nat → Prop
  | root : Handle r true 0
  | opened {d : Bool} {base h : Nat} {rel : Path} {flags : OpenFlags} (hbase : Handle r d base)
      (hopen : romOpen r base rel flags = .ok (.ok h)) : Handle r flags.directory h

def Inside {α : Type} (p : Guarded α) : Prop := Succeeds p fun _ => True

theorem inside_pure {α : Type} {a : α} : Inside (pure a : Guarded α) := succeeds_pure.mpr trivial

/-- Whatever is done with the handles of a mount ends and stays inside the blob. -/
structure AccessesInside (r : RomfsImg) : Prop where
  walk : ∀ d base (rel : Path), Handle r d base → Inside (walk r base rel)
  opens : ∀ d base (rel : Path) flags, Handle r d base → Inside (romOpen r base rel flags)
  readdir : ∀ d h cursor, Handle r d h → Inside (romReaddir r h cursor)
  read : ∀ h n pos, Handle r false h → Inside (romRead r h n pos)

/-! ## What the parser has checked -/

def fieldOf (r : RomfsImg) (k i : Nat) : Nat :=
  Endian.little.decode ((r.img.drop (r.nodesOff + i * romfsNodeSize + k)).take 4)

def parentOf (r : RomfsImg) (i : Nat) : Int := Int.bmod (fieldOf r 8 i) (2 ^ 32)

structure NodeOk (r : RomfsImg) (i : Nat) : Prop where
  type : fieldOf r 4 i = romfsTFile ∨ fieldOf r 4 i = romfsTDir
  parent : parentOf r i < r.nnodes
  name : 0 ∈ r.img.drop (r.strsOff + fieldOf r 0 i)
  data : fieldOf r 4 i = romfsTFile → r.dataOff + fieldOf r 12 i + fieldOf r 16 i ≤ r.img.length

structure Parsed (r : RomfsImg) : Prop where
  short : r.img.length < 2 ^ 32
  pos : 0 < r.nnodes
  table : r.nodesOff + r.nnodes * romfsNodeSize ≤ r.img.length
  node : ∀ i < r.nnodes, NodeOk r i

variable {r : RomfsImg} {i : Nat}

theorem nodeField_eq (htab : r.nodesOff + r.nnodes * romfsNodeSize ≤ r.img.length) (hi : i < r.nnodes)
    {k : Nat} (hk : k ≤ 16) : nodeField r k i = .ok (fieldOf r k i) := by
  have hft : r.nodesOff + i * romfsNodeSize + k + 4 ≤ r.img.length := by
    simp only [romfsNodeSize] at htab ⊢
    omega
  rw [nodeField, rdU32, bytesAt, if_pos hft]
  rfl

theorem nodeOk_of_check (hlen : r.img.length < 2 ^ 32)
    (htab : r.nodesOff + r.nnodes * romfsNodeSize ≤ r.img.length) (hi : i < r.nnodes)
    (h : checkNode r i = .ok true) : NodeOk r i := by
  simp (disch := decide) only [checkNode, nodeName, nodeType, nodeParent, nodeData, nodeSize,
    nodeField_eq htab hi] at h
  injection h with h
  obtain ⟨hty, hpar, hnm, hterm, hdata⟩ := of_decide_eq_true h
  rw [Nat.mod_eq_of_lt (hnm.trans hlen)] at hterm
  refine ⟨hty, ?_, hterm, hdata⟩
  -- the table fits into the blob, so that its length is a positive `int32_t`
  have hn : Int.bmod r.nnodes (2 ^ 32) = r.nnodes := by
    simp only [romfsNodeSize] at htab
    rw [Int.bmod_def]
    omega
  rw [hn] at hpar
  exact not_le.mp fun hle => hpar (.inr hle)

theorem parsed_of_parse {p : Blob} (hlen : p.length < 2 ^ 32) (h : romfsParse p = .ok (some r)) :
    r.img = p ∧ Parsed r := by
  rw [romfsParse] at h
  split at h
  · cases h
  obtain ⟨magic, -, h⟩ := bind_eq_ok.mp h
  obtain ⟨version, -, h⟩ := bind_eq_ok.mp h
  split at h
  · cases h
  obtain ⟨r', hhdr, h⟩ := bind_eq_ok.mp h
  have himg : r'.img = p := by
    simp only [readHeader, bind_eq_ok] at hhdr
    obtain ⟨_, -, _, -, _, -, _, -, hr⟩ := hhdr
    cases hr
    rfl
  subst himg
  split at h
  · cases h
  obtain ⟨ok, hall, h⟩ := bind_eq_ok.mp h
  cases ok with
  | false => cases h
  | true =>
    cases h
    have htab : r.nodesOff + r.nnodes * romfsNodeSize ≤ r.img.length := by omega
    exact ⟨rfl, hlen, by omega, htab, fun i hi =>
      nodeOk_of_check hlen htab hi (of_allM hall i (mem_range.mpr hi))⟩

/-! ## What the accessors then read -/

section Accessors

variable (h : Parsed r)

include h

theorem succeeds_nodeField {k : Nat} (hk : k ≤ 16) (hi : i < r.nnodes) {Q : Nat → Prop} :
    Succeeds (nodeField r k i) Q ↔ Q (fieldOf r k i) := by
  rw [nodeField_eq h.table hi hk, succeeds_ok]

theorem succeeds_nodeType (hi : i < r.nnodes) {Q : Nat → Prop} :
    Succeeds (nodeType r i) Q ↔ Q (fieldOf r 4 i) := succeeds_nodeField h (by decide) hi

theorem succeeds_nodeParent (hi : i < r.nnodes) {Q : Int → Prop} :
    Succeeds (nodeParent r i) Q ↔ Q (parentOf r i) := by
  rw [nodeParent, succeeds_map, succeeds_nodeField h (by decide) hi]
  rfl

theorem nodeNameStr_inside (hi : i < r.nnodes) : Inside (nodeNameStr r i) := by
  rw [nodeNameStr, Inside, nodeName, succeeds_bind, succeeds_nodeField h (by decide) hi, stringAt,
    if_pos (h.node i hi).name, succeeds_ok]
  trivial

theorem succeeds_findChild (dir : Nat) {name : Blob} (hnm : name.length < 2 ^ 31) :
    Succeeds (findChild r dir name) fun o => ∀ c ∈ o, c < r.nnodes := by
  refine (succeeds_findM? fun c hc => ?_).mono fun o ho c hc => mem_range.mp (ho c hc)
  have hc := mem_range.mp hc
  rw [isChild, succeeds_bind, succeeds_nodeParent h hc]
  split
  · refine (nodeNameStr_inside h hc).bind fun nm _ => ?_
    dsimp only
    split
    · exact inside_pure
    · rw [if_neg (by omega)]
      exact inside_pure
  · exact inside_pure

theorem succeeds_walkFrom {cur : Nat} (hcur : cur < r.nnodes) {comps : List Blob}
    (hcomps : ∀ comp ∈ comps, comp.length < 2 ^ 31) :
    Succeeds (walkFrom r cur comps) fun res => ∀ c, res = .ok c → c < r.nnodes := by
  induction comps generalizing cur with
  | nil =>
    rw [walkFrom, succeeds_pure]
    intro c hc
    cases hc
    exact hcur
  | cons comp rest ih =>
    have ih {c : Nat} (hc : c < r.nnodes) := ih hc fun c hc => hcomps c (mem_cons_of_mem _ hc)
    rw [walkFrom]
    split
    · exact ih hcur
    split
    · rw [succeeds_bind, succeeds_nodeParent h hcur]
      apply ih
      have hpar := (h.node cur hcur).parent
      split <;> omega
    · rw [succeeds_bind, succeeds_nodeType h hcur]
      split
      · exact succeeds_pure.mpr nofun
      refine (succeeds_findChild h cur (hcomps _ mem_cons_self)).bind fun o ho => ?_
      cases o with
      | none => exact succeeds_pure.mpr nofun
      | some c => exact ih (ho c rfl)

theorem succeeds_romOpen {base : Nat} (hba : base < r.nnodes) (rel : Path) (flags : OpenFlags) :
    Succeeds (romOpen r base rel flags) fun res => ∀ c, res = .ok c → c < r.nnodes ∧
      (flags.directory = false → fieldOf r 4 c = romfsTFile) := by
  rw [romOpen]
  split
  · exact succeeds_pure.mpr nofun
  refine (succeeds_walkFrom h hba rel.2).bind fun res hres => ?_
  cases res with
  | error e => exact succeeds_pure.mpr nofun
  | ok node =>
    have hno := hres _ rfl
    show Succeeds (nodeType r node >>= _) _
    rw [succeeds_bind, succeeds_nodeType h hno]
    split
    · exact succeeds_pure.mpr nofun
    split
    · exact succeeds_pure.mpr nofun
    rename_i hdir
    rw [succeeds_pure]
    intro c hc
    cases hc
    exact ⟨hno, fun hd => (h.node _ hno).type.resolve_right fun ht => hdir ⟨by simp [hd], ht⟩⟩

theorem handle_spec {d : Bool} {c : Nat} (hc : Handle r d c) :
    c < r.nnodes ∧ (d = false → fieldOf r 4 c = romfsTFile) := by
  induction hc with
  | root => exact ⟨h.pos, nofun⟩
  | opened _ hop ih =>
    obtain ⟨res, hres, hsc⟩ := succeeds_romOpen h ih.1 _ _
    cases hop.symm.trans hres
    exact hsc _ rfl

theorem romReaddir_inside (dir : Nat) (cursor : Int) : Inside (romReaddir r dir cursor) := by
  refine (succeeds_findM? fun c hc => ?_).bind fun o ho => ?_
  · rw [succeeds_bind, succeeds_nodeParent h (mem_range.mp (mem_of_mem_drop hc))]
    exact inside_pure
  cases o with
  | none => exact inside_pure
  | some c =>
    have hc := mem_range.mp (mem_of_mem_drop (ho c rfl))
    show Succeeds (nodeType r c >>= _) _
    rw [succeeds_bind, succeeds_nodeType h hc]
    exact (nodeNameStr_inside h hc).bind fun _ _ => inside_pure

theorem romRead_inside {c : Nat} (hc : c < r.nnodes) (hfi : fieldOf r 4 c = romfsTFile) (n : Nat)
    (pos : Int) : Inside (romRead r c n pos) := by
  have hdata := (h.node c hc).data hfi
  have hsho := h.short
  rw [romRead, Inside, nodeSize, succeeds_bind, succeeds_nodeField h (by decide) hc, nodeData, succeeds_bind,
    succeeds_nodeField h (by decide) hc]
  split
  · exact inside_pure
  -- neither the offset of the file nor the position wraps
  dsimp only
  rw [Nat.mod_eq_of_lt (by omega), Nat.mod_eq_of_lt (by omega), bytesAt, if_pos (by omega)]
  exact inside_pure

end Accessors

/-- A root with the file `a` of one byte. -/
def oneFile : Blob :=
  romfsMagic ++ [1, 2, 32, 72, 75, 0].flatMap (Endian.little.encode 4) ++
    [0, 1, 2 ^ 32 - 1, 0, 0, 1, 0, 0, 0, 1].flatMap (Endian.little.encode 4) ++ [0, 97, 0, 120]

/-- The bytes of a file that are left at `pos`. -/
def bytesFrom (r : RomfsImg) (h pos : Nat) : Blob :=
  ((r.img.drop (r.dataOff + fieldOf r 12 h)).take (fieldOf r 16 h)).drop pos

/-- Reads of the counts `ns`, each from where the one before stopped. -/
def romReads (r : RomfsImg) (h : Nat) : List Nat → Int → Guarded (Blob × Int)
  | [], pos => pure ([], pos)
  | n :: ns, pos => do
    let (got, pos) ← romRead r h n pos
    let (rest, pos) ← romReads r h ns pos
    return (got ++ rest, pos)

theorem romRead_eq (hr : Parsed r) (hh : Handle r false h) (n pos : Nat) :
    romRead r h n pos = .ok ((bytesFrom r h pos).take n,
      (pos + ((bytesFrom r h pos).take n).length : Nat)) := by
  obtain ⟨hlt, hfi⟩ := handle_spec hr hh
  have hdata := (hr.node h hlt).data (hfi rfl)
  have hsh := hr.short
  rw [romRead, nodeSize, nodeData, nodeField_eq hr.table hlt (by decide), nodeField_eq hr.table hlt (by decide)]
  show (if (pos : Int) < 0 ∨ _ then _ else _) = _
  unfold bytesFrom
  split
  · rw [drop_of_length_le (by simp; omega)]
    simp
    rfl
  · rw [Nat.mod_eq_of_lt (by omega), Nat.mod_eq_of_lt (by omega), bytesAt, if_pos (by omega)]
    simp [drop_take, take_take]
    omega

/-- For every blob that parses, file opened in it and list of counts, the reads give the bytes of the
file from the position on, in order and each once. -/
theorem reads_give_file {p : Blob} (hlen : p.length < 2 ^ 32) (hparse : romfsParse p = .ok (some r))
    (hh : Handle r false h) (ns : List Nat) (pos : Nat) : romReads r h ns pos =
      .ok ((bytesFrom r h pos).take ns.sum, (pos + ((bytesFrom r h pos).take ns.sum).length : Nat)) := by
  obtain ⟨-, hr⟩ := parsed_of_parse hlen hparse
  induction ns generalizing pos with
  | nil => simp [romReads]; rfl
  | cons n ns ih =>
    rw [romReads, romRead_eq hr hh]
    show (romReads r h ns _ >>= _) = _
    -- the next read goes on behind the bytes of this one
    have hnext : bytesFrom r h (pos + ((bytesFrom r h pos).take n).length) = (bytesFrom r h pos).drop n := by
      rw [bytesFrom, ← drop_drop, ← bytesFrom, length_take, ← drop_eq_drop_min]
    rw [ih, hnext, sum_cons, take_add, length_append, Nat.add_assoc]
    rfl

theorem reads_give_file_oneFile : romReads ⟨oneFile, 2, 32, 72, 75⟩ 1 [0, 5] 0 = .ok ([120], 1) := by
  have hop : romOpen ⟨oneFile, 2, 32, 72, 75⟩ 0 [97] ⟨true, false, false⟩ = .ok (.ok 1) := rfl
  have hh : Handle ⟨oneFile, 2, 32, 72, 75⟩ false 1 := @Handle.opened _ _ _ _ ⟨[97], by decide⟩ _ .root hop
  exact (reads_give_file (p := oneFile) (by decide) (by decide +kernel) hh _ 0).trans
    (by decide +kernel)

end Skjegg.Fs.Romfs
