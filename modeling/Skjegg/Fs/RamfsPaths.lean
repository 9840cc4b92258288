import Mathlib.Data.List.DropRight
import Skjegg.Fs.Romfs

/-!
# Paths in ramfs

`ramfs.c` looks a path up component by component and keeps 31 bytes of each; only the last component of
a path that is created, removed or renamed to is refused when it is longer.
-/

namespace Skjegg.Fs.RamfsPaths

open Skjegg.Lib Romfs List

def ramfsNamemax : Nat := 32
def ramfsMaxnodes : Nat := 256
def fsPathMax : Nat := 256

/-- The fields of `struct rnode` that make the tree; `name` is terminated. -/
structure Rnode where
  used : Bool := false
  isdir : Bool := false
  parent : Int := 0
  name : Blob := []
  short : name.length < ramfsNamemax := by decide

inductive Errno
  | enoent | enotdir | eisdir | einval | eexist | enospc | enotempty
  /-- not an error of the source: the walk up the parents does not end -/
  | endless
  deriving DecidableEq

section Code

variable (nodes : Nat → Rnode)

def findChild (dir : Int) (name : Blob) : Option Nat :=
  (range ramfsMaxnodes).find? fun i => (nodes i).used && (nodes i).parent = dir && (nodes i).name = name

/-- A turn of `walk` with the component `comp`. -/
def walkTo (cur : Nat) (comp : Blob) : Except Errno Nat :=
  if comp = [46] then .ok cur
  else if comp = [46, 46] then .ok (if 0 ≤ (nodes cur).parent then (nodes cur).parent.toNat else cur)
  else if !(nodes cur).isdir then .error .enotdir
  else (findChild nodes cur comp).elim (.error .enoent) .ok

def walk (base : Nat) (rel : Blob) : Except Errno Nat :=
  (components rel).foldlM (fun cur comp => walkTo nodes cur (comp.take (ramfsNamemax - 1))) base

/-- The node whose names are the components of a path. -/
def follow (base : Nat) (rel : Blob) : Except Errno Nat := (components rel).foldlM (walkTo nodes) base

/-- `split_leaf`; its callers take every error for `EINVAL`. The length of the path
goes through an `int`; a negative one leaves both parts empty. -/
def splitLeaf (rel : Blob) : Option (Blob × Blob) :=
  let len := rel.length % 2 ^ 32
  let path := (rel.take len).rdropWhile (· = 47)
  let leaf := path.rtakeWhile (· ≠ 47)
  let dir := (path.rdropWhile (· ≠ 47)).dropLast
  if 2 ^ 31 ≤ len then some ([], [])
  else if path = [] ∨ ramfsNamemax ≤ leaf.length ∨ fsPathMax ≤ dir.length ∨ leaf = [46] ∨ leaf = [46, 46] then
    none
  else some (dir, leaf)

/-- The path operations; `lookup` stands for `ram_stat`, `ram_exists`, `ram_size` and `ram_isdir`. -/
inductive PathOp
  | lookup (rel : Blob)
  | open (rel : Blob) (directory creat : Bool)
  | unlink (rel : Blob)
  | mkdir (rel : Blob)
  | rmdir (rel : Blob)
  | rename (src dst : Blob)

/-- What an operation acts on: a node, or a name it makes in a directory. -/
inductive Target
  | node (n : Nat)
  | entry (parent : Nat) (name : Blob)
  deriving DecidableEq

variable (w : Blob → Except Errno Nat)

/-- The parent directory and the last component of a path, with `w` for `walk`. -/
def parentOf (rel : Blob) : Except Errno (Nat × Blob) :=
  match splitLeaf rel with
  | none => .error .einval
  | some (dir, leaf) => (·, leaf) <$> w dir

def nodeAlloc : Except Errno Unit :=
  if ∀ i < ramfsMaxnodes, (nodes i).used then .error .enospc else .ok ()

/-- The entry an operation makes. -/
def newEntry (rel : Blob) : Except Errno (Nat × Blob) := do
  let (parent, leaf) ← parentOf w rel
  if !(nodes parent).isdir then .error .enotdir
  return (parent, leaf)

def checkSubtree (src : Nat) : Nat → Int → Except Errno Unit
  | 0, _ => .error .endless
  | fuel + 1, a =>
    if a < 0 then .ok ()
    else if a = src then .error .einval
    else checkSubtree src fuel (nodes a.toNat).parent

def run : PathOp → Except Errno (List Target)
  | .lookup rel => return [.node (← w rel)]
  | .open rel directory creat =>
    match w rel with
    | .ok node =>
      if directory && !(nodes node).isdir then .error .enotdir
      else if !directory && (nodes node).isdir then .error .eisdir
      else .ok [.node node]
    | .error e =>
      if directory ∨ e ≠ .enoent ∨ !creat then .error e
      else do
        let (parent, leaf) ← newEntry nodes w rel
        nodeAlloc nodes
        return [.entry parent leaf]
  | .unlink rel => do
    let (parent, leaf) ← parentOf w rel
    let child ← (findChild nodes parent leaf).elim (.error .enoent) .ok
    if (nodes child).isdir then .error .eisdir
    return [.node child]
  | .mkdir rel => do
    let (parent, leaf) ← newEntry nodes w rel
    if (findChild nodes parent leaf).isSome then .error .eexist
    nodeAlloc nodes
    return [.entry parent leaf]
  | .rmdir rel => do
    let node ← w rel
    if !(nodes node).isdir then .error .enotdir
    if ∃ i < ramfsMaxnodes, (nodes i).used ∧ (nodes i).parent = node then .error .enotempty
    return [.node node]
  | .rename src dst => do
    let node ← w src
    let (parent, leaf) ← newEntry nodes w dst
    if (nodes node).isdir then checkSubtree nodes node (ramfsMaxnodes + 1) parent
    if (findChild nodes parent leaf).isSome then .error .eexist
    return [.node node, .entry parent leaf]

end Code

def PathOp.paths : PathOp → List Blob
  | .lookup rel | .open rel _ _ | .unlink rel | .mkdir rel | .rmdir rel => [rel]
  | .rename src dst => [src, dst]

/-- What an operation acts on is what the components of its paths name. -/
def ActsExactly (nodes : Nat → Rnode) (base : Nat) (op : PathOp) (ts : List Target) : Prop :=
  run nodes (follow nodes base) op = .ok ts

def Short (rel : Blob) : Prop := ∀ comp ∈ components rel, comp.length < ramfsNamemax

variable {nodes : Nat → Rnode} {base : Nat} {rel : Blob}

theorem walk_eq_follow (h : Short rel) : walk nodes base rel = follow nodes base rel := by
  unfold walk follow
  unfold Short at h
  generalize components rel = comps at h ⊢
  induction comps generalizing base with
  | nil => rfl
  | cons comp comps ih =>
    have hcomp : comp.length ≤ ramfsNamemax - 1 := Nat.le_of_lt_succ (h _ mem_cons_self)
    rw [foldlM_cons, foldlM_cons, take_of_length_le hcomp]
    congr 1
    funext cur
    exact ih fun c hc => h c (mem_cons_of_mem _ hc)

theorem walkTo_short {cur n : Nat} {comp : Blob} (h : walkTo nodes cur comp = .ok n) :
    comp.length < ramfsNamemax := by
  unfold walkTo at h
  split at h
  · rw [‹comp = _›]
    decide
  split at h
  · rw [‹comp = _›]
    decide
  split at h
  · cases h
  -- a name in the table is short
  cases hfd : findChild nodes cur comp with
  | none => simp [hfd] at h
  | some i =>
    have hnm := find?_some hfd
    simp only [Bool.and_eq_true, decide_eq_true_eq] at hnm
    exact hnm.2 ▸ (nodes i).short

theorem short_of_follow {n : Nat} (h : follow nodes base rel = .ok n) : Short rel := by
  unfold follow at h
  unfold Short
  generalize components rel = comps at h ⊢
  induction comps generalizing base with
  | nil => exact nofun
  | cons comp comps ih =>
    obtain ⟨cur, hcur, h⟩ := bind_eq_ok.mp h
    exact forall_mem_cons.mpr ⟨walkTo_short hcur, ih h⟩

/-! ## The last component -/

theorem components_append (xs ys : Blob) : components (xs ++ 47 :: ys) = components xs ++ components ys := by
  rw [components, splitOn, splitOnP_append_cons _ _ (by decide), filter_append]
  rfl

theorem components_trim (rel : Blob) : components (rel.rdropWhile (· = 47)) = components rel := by
  induction rel using reverseRecOn with
  | nil => rfl
  | append_singleton xs a ih =>
    by_cases ha : a = 47
    · rw [rdropWhile_concat_pos _ _ _ (by simpa using ha), ih, ha, components_append]
      simp [components]
    · rw [rdropWhile_concat_neg _ _ _ (by simpa using ha)]

theorem components_single {name : Blob} (h : 47 ∉ name) (hne : name ≠ []) : components name = [name] := by
  have hsg : name.splitOnP (· == 47) = [name] := splitOnP_eq_singleton fun c hc => by
    have hsla : c ≠ 47 := fun heq => h (heq ▸ hc)
    simpa using hsla
  simp [components, splitOn, hsg, hne]

theorem components_splitLeaf {dir leaf : Blob} (hlen : rel.length < 2 ^ 31)
    (h : splitLeaf rel = some (dir, leaf)) :
    components rel = components dir ++ [leaf] ∧ leaf.length < ramfsNamemax := by
  unfold splitLeaf at h
  dsimp only at h
  rw [Nat.mod_eq_of_lt (by omega), take_length, if_neg (by omega)] at h
  split at h
  · cases h
  rename_i hok
  cases h
  rw [not_or, not_or] at hok
  refine ⟨?_, Nat.lt_of_not_le hok.2.1⟩
  have hls := rdropWhile_last_not _ _ hok.1
  rw [← components_trim]
  generalize rel.rdropWhile _ = path at hok hls
  have hle : components (path.rtakeWhile (· ≠ 47)) = [path.rtakeWhile (· ≠ 47)] := by
    apply components_single fun hmem => by simpa using mem_rtakeWhile_imp hmem
    intro hnil
    exact rtakeWhile_eq_nil_iff.mp hnil hok.1 (by simpa using hls)
  have hcut := rdropWhile_append_rtakeWhile (p := fun a => decide (a ≠ 47)) (l := path)
  by_cases hrs : path.rdropWhile (· ≠ 47) = []
  · rw [hrs, nil_append] at hcut
    rw [hrs]
    rw [hcut] at hle ⊢
    exact hle
  · -- what is left of the path ends in the last slash
    have hsla : (path.rdropWhile (· ≠ 47)).getLast hrs = 47 := by
      simpa using rdropWhile_last_not _ _ hrs
    rw [← dropLast_append_getLast hrs, hsla, append_assoc, singleton_append] at hcut
    rw [← hcut, components_append, hcut, hle]

theorem parentOf_walk_eq (hlen : rel.length < 2 ^ 31) (h : Short rel) :
    parentOf (walk nodes base) rel = parentOf (follow nodes base) rel := by
  unfold parentOf
  cases hspl : splitLeaf rel with
  | none => rfl
  | some dl =>
    have hdir : Short dl.1 := fun c hc => h c (by
      rw [(components_splitLeaf hlen hspl).1]
      exact mem_append_left _ hc)
    simp [walk_eq_follow hdir]

theorem short_of_parentOf {pl : Nat × Blob} (hlen : rel.length < 2 ^ 31)
    (h : parentOf (follow nodes base) rel = .ok pl) : Short rel := by
  unfold parentOf at h
  cases hspl : splitLeaf rel with
  | none =>
    rw [hspl] at h
    cases h
  | some dl =>
    rw [hspl] at h
    obtain ⟨hcmp, hle⟩ := components_splitLeaf hlen hspl
    cases hdir : follow nodes base dl.1 with
    | error e => simp [hdir] at h
    | ok n =>
      unfold Short
      rw [hcmp, forall_mem_append, forall_mem_singleton]
      exact ⟨short_of_follow hdir, hle⟩

theorem uses_of_run {w : Blob → Except Errno Nat} {op : PathOp} {ts : List Target}
    (h : run nodes w op = .ok ts) : ∀ rel ∈ op.paths, (∃ n, w rel = .ok n) ∨ ∃ pl, parentOf w rel = .ok pl := by
  have hent {rel pl} (h : newEntry nodes w rel = .ok pl) : ∃ pl, parentOf w rel = .ok pl := by
    obtain ⟨pl, hpl, -⟩ := bind_eq_ok.mp h
    exact ⟨pl, hpl⟩
  cases op with
  | lookup rel | rmdir rel =>
    obtain ⟨n, hn, -⟩ := bind_eq_ok.mp h
    exact forall_mem_singleton.mpr (.inl ⟨n, hn⟩)
  | «open» rel directory creat =>
    refine forall_mem_singleton.mpr ?_
    cases hw : w rel with
    | ok n => exact .inl ⟨n, rfl⟩
    | error e =>
      rw [run, hw] at h
      dsimp only at h
      split at h
      · cases h
      obtain ⟨pl, hpl, -⟩ := bind_eq_ok.mp h
      exact .inr (hent hpl)
  | unlink rel =>
    obtain ⟨pl, hpl, -⟩ := bind_eq_ok.mp h
    exact forall_mem_singleton.mpr (.inr ⟨pl, hpl⟩)
  | mkdir rel =>
    obtain ⟨pl, hpl, -⟩ := bind_eq_ok.mp h
    exact forall_mem_singleton.mpr (.inr (hent hpl))
  | rename src dst =>
    obtain ⟨n, hn, h⟩ := bind_eq_ok.mp h
    obtain ⟨pl, hpl, -⟩ := bind_eq_ok.mp h
    exact forall_mem_cons.mpr ⟨.inl ⟨n, hn⟩, forall_mem_singleton.mpr (.inr (hent hpl))⟩

/-- An operation on paths below 2 GiB that succeeds acts exactly if and only if no component of the paths
is too long. -/
theorem actsExactly_iff {op : PathOp} {ts : List Target} (hrun : run nodes (walk nodes base) op = .ok ts)
    (hlen : ∀ rel ∈ op.paths, rel.length < 2 ^ 31) :
    ActsExactly nodes base op ts ↔ ∀ rel ∈ op.paths, Short rel := by
  refine ⟨fun h rel hrel => ?_, fun hsho => ?_⟩
  · obtain ⟨n, hn⟩ | ⟨pl, hpl⟩ := uses_of_run h rel hrel
    · exact short_of_follow hn
    · exact short_of_parentOf (hlen rel hrel) hpl
  · unfold ActsExactly
    cases op <;> simp_all [run, newEntry, PathOp.paths, walk_eq_follow, parentOf_walk_eq]

/-- A root with a file whose name has 31 bytes. -/
def oneLongName : Nat → Rnode
  | 0 => { used := true, isdir := true, parent := -1 }
  | 1 => { used := true, name := replicate 31 97 }
  | _ => {}

theorem actsExactly_whole_name : ActsExactly oneLongName 0 (.lookup (replicate 31 97)) [.node 1] :=
  (actsExactly_iff (by decide +kernel) (by decide)).mpr (by unfold Short; decide +kernel)

/-- A name of 32 bytes finds the file. -/
theorem longer_name_finds_file : let op := .lookup (replicate 32 97)
    run oneLongName (walk oneLongName 0) op = .ok [.node 1] ∧ ¬ActsExactly oneLongName 0 op [.node 1] := by
  unfold ActsExactly
  decide +kernel

end Skjegg.Fs.RamfsPaths
