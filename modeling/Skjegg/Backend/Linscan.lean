import Mathlib.Tactic
import Mathlib.Data.List.Sort

/-!
# Linear-scan allocation of one register class

`linscan` of the register allocators. The x86-64 and AArch64 copies have a mask of temps that must
not get a register (`forceSpill`), which is empty in the others. `active` holds positions in the
sorted array where the source has pointers into it.
-/

namespace Skjegg.Backend

open Function

/-- A closed live interval `[start, stop]` (`stop` is the source's `end`). -/
structure Interval where
  temp : Nat
  (start stop : Int)
  deriving DecidableEq, Repr

def Interval.Meets (a b : Interval) : Prop := a.start ≤ b.stop ∧ b.start ≤ a.stop

/-- `sort_by_start`: earlier start first, then earlier end. -/
def sortByStart (a b : Interval) : Int :=
  if a.start ≠ b.start then a.start - b.start else a.stop - b.stop

/-- What C promises of `qsort`: the same elements, none before one that compares below it; equal
elements may come in any order. -/
structure IsQsort (cmp : Interval → Interval → Int)
    (qsort : List Interval → List Interval) : Prop where
  perm : ∀ l, (qsort l).Perm l
  sorted : ∀ l, (qsort l).Pairwise fun a b => cmp a b ≤ 0

structure Pool where
  (numRegs firstReg spillSize : Nat)
  deriving DecidableEq, Repr

/-- `fn->temp_reg` and `fn->temp_spill`. -/
structure Alloc where
  (tempReg tempSpill : Nat → Int)

structure ScanState where
  (reg spill : Nat → Int)
  pool : Nat → Bool
  active : List Nat
  nspills : Nat

variable (ivs : List Interval)

def ivAt (p : Nat) : Interval := ivs.getD p ⟨0, 0, 0⟩

def buildIntervals (ntemps : Nat) (firstDef lastUse : Nat → Int) (isClass : Nat → Bool) :
    List Interval :=
  (List.range ntemps).filterMap fun t =>
    if !isClass t || firstDef t < 0 then none
    else some ⟨t, firstDef t, if lastUse t ≥ firstDef t then lastUse t else firstDef t⟩

/-- Registers of the active intervals that ended before `start` go back to the pool. -/
def expire (firstReg : Nat) (start : Int) (s : ScanState) : ScanState :=
  { s with
    pool := s.active.foldl (fun pool r =>
      if (ivAt ivs r).stop < start then update pool (s.reg r - firstReg).toNat true
      else pool) s.pool
    active := s.active.filter fun r => ¬ (ivAt ivs r).stop < start }

/-- `active[ins_at] = iv`, where `ins_at` is the first place whose interval ends after `iv`. -/
def insertActive (ivs : List Interval) (p : Nat) : List Nat → List Nat
  | [] => [p]
  | r :: rest =>
    if (ivAt ivs r).stop > (ivAt ivs p).stop then p :: r :: rest
    else r :: insertActive ivs p rest

def spillTo (spillSize : Nat) (p : Nat) (s : ScanState) : ScanState :=
  { s with
    spill := update s.spill p (s.nspills * spillSize : Nat)
    nspills := s.nspills + 1 }

/-- One round of the main loop. `none` is the read of `active[-1]` when no register is free and no
interval is active. -/
def scanStep (C : Pool) (forceSpill : Nat → Bool) (s : ScanState) (p : Nat) :
    Option ScanState :=
  let iv := ivAt ivs p
  let s := expire ivs C.firstReg iv.start s
  if forceSpill iv.temp then some (spillTo C.spillSize p s)
  else
    match (List.range C.numRegs).find? s.pool with
    | some k =>
      some { s with
        reg := update s.reg p (k + C.firstReg : Nat)
        pool := update s.pool k false
        active := insertActive ivs p s.active }
    | none =>
      match s.active.getLast? with
      | none => none
      | some sp =>
        if (ivAt ivs sp).stop > iv.stop then
          let s' := spillTo C.spillSize sp s
          some { s' with
            reg := update (update s.reg p (s.reg sp)) sp (-1)
            active := insertActive ivs p s.active.dropLast }
        else some (spillTo C.spillSize p s)

def scanInit (reserved : Nat → Bool) : ScanState :=
  { reg := fun _ => -1, spill := fun _ => -1, pool := fun k => !reserved k, active := [],
    nspills := 0 }

def writeBack (reg spill : Nat → Int) (al : Alloc) : Alloc :=
  (List.range ivs.length).foldl (fun al p =>
    { tempReg := update al.tempReg (ivAt ivs p).temp (reg p)
      tempSpill := update al.tempSpill (ivAt ivs p).temp (spill p) }) al

/-- `linscan`: the new `temp_reg` and `temp_spill`, and the number of spill slots it returns. -/
def linscan (qsort : List Interval → List Interval) (ntemps : Nat) (firstDef lastUse : Nat → Int)
    (isClass : Nat → Bool) (C : Pool) (forceSpill reserved : Nat → Bool) (al : Alloc) :
    Option (Alloc × Nat) :=
  let ivs := buildIntervals ntemps firstDef lastUse isClass
  if ivs.length = 0 then some (al, 0)
  else if C.numRegs = 0 then
    some (writeBack ivs (fun _ => -1) (fun p => (p * C.spillSize : Nat)) al, ivs.length)
  else
    let ivs := qsort ivs
    ((List.range ivs.length).foldlM (scanStep ivs C forceSpill) (scanInit reserved)).map fun s =>
      (writeBack ivs s.reg s.spill al, s.nspills)

end Skjegg.Backend
