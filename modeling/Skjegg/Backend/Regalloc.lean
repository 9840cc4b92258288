import Skjegg.Backend.LinscanInvariant
import Skjegg.Backend.LiveRange

/-!
# `regalloc` of the five backends

ColdFire, RV32 and MIPS (`pairRegalloc`) carve pairs for 64-bit integers from the top of the integer
registers; x86-64 and AArch64 (`mergedRegalloc`) have one integer class. `pinned` are the registers
an extended `asm` pins or clobbers (`*_asm_reserved_regs`).
-/

namespace Skjegg.Backend

open Skjegg.Ir List

/-- `linscan` of the ColdFire allocator has no force-spill mask. -/
def cfLinscan (qsort : List Interval → List Interval) (ntemps : Nat) (firstDef lastUse : Nat → Int)
    (isClass : Nat → Bool) (C : Pool) (reserved : Nat → Bool) (al : Alloc) :
    Option (Alloc × Nat) :=
  linscan qsort ntemps firstDef lastUse isClass C (fun _ => false) reserved al

variable {qsort : List Interval → List Interval}

/-- The ColdFire `linscan` returns a valid allocation for every class, pool and set of live ranges,
as long as the pool has no registers or one that is not reserved. -/
theorem cfLinscan_valid (hqsort : IsQsort sortByStart qsort)
    (ntemps : Nat) (firstDef lastUse : Nat → Int) (isClass : Nat → Bool) (C : Pool)
    (reserved : Nat → Bool) (al : Alloc) (hsize : 0 < C.spillSize)
    (hres : C.numRegs = 0 ∨ ∃ k < C.numRegs, reserved k = false) :
    ∃ new nspills, cfLinscan qsort ntemps firstDef lastUse isClass C reserved al = some (new, nspills) ∧
      ValidAllocation ntemps firstDef lastUse isClass C reserved al new nspills := by
  obtain ⟨new, nspills, hrun⟩ := linscan_some (fun _ => false) hqsort hsize hres al
  exact ⟨new, nspills, hrun, linscan_valid hqsort hsize hrun⟩

/-- An insertion sort is one `qsort` that C allows. -/
def insertionQsort (l : List Interval) : List Interval := l.insertionSort fun a b => sortByStart a b ≤ 0

theorem insertionQsort_isQsort : IsQsort sortByStart insertionQsort where
  perm l := perm_insertionSort _ l
  sorted l := by
    have : Std.Total fun a b => sortByStart a b ≤ 0 := ⟨fun a b => by
      unfold sortByStart
      split_ifs <;> omega⟩
    have : IsTrans Interval fun a b => sortByStart a b ≤ 0 := ⟨fun a b c => by
      unfold sortByStart
      split_ifs <;> omega⟩
    exact pairwise_insertionSort _ l

theorem cfLinscan_valid_two : ∃ new nspills,
    cfLinscan insertionQsort 2 (fun t => if t = 0 then 0 else 1) (fun t => if t = 0 then 5 else 3)
        (fun _ => true) ⟨2, 2, 4⟩ (fun k => k == 1) ⟨fun _ => -1, fun _ => -1⟩ =
      some (new, nspills) ∧
    ValidAllocation 2 (fun t => if t = 0 then 0 else 1) (fun t => if t = 0 then 5 else 3)
      (fun _ => true) ⟨2, 2, 4⟩ (fun k => k == 1) ⟨fun _ => -1, fun _ => -1⟩ new nspills :=
  cfLinscan_valid insertionQsort_isQsort 2 _ _ _ ⟨2, 2, 4⟩ _ _ (by decide) (.inr ⟨0, by decide, by decide⟩)

/-! ## Backends with register pairs -/

def hardClassify (i : Insn) : DefClass :=
  if irOpIsFloatDef i.op then .float else if irOpIsI64Def i.op then .i64 else .int

/-- `MIPS_SOFTFLOAT`: a double is carried like a 64-bit integer and a single like an `int`. -/
def softClassify (i : Insn) : DefClass :=
  if irOpIsFloatDef i.op then
    let f32 := match i.op with
      | .f64tof32 => true
      | .f32tof64 | .fls | .flh => false
      | _ => i.imm = fwidthF32
    if f32 then .int else .i64
  else if irOpIsI64Def i.op then .i64 else .int

/-- The constants of a `regalloc` with register pairs. `loIdx` and `hiIdx` are the emitter's
`i64_lo_reg` and `i64_hi_reg`. -/
structure PairTarget where
  queue : ArgQueue
  classify : Insn → DefClass
  (intNumRegs intFirstReg fpNumRegs fpFirstReg i64NumPairs i64FirstPair : Nat)
  (loIdx hiIdx : Int → Int)
  pairsFromTop : ∀ k, let base := (intFirstReg + intNumRegs : Int) - 2 * (k + 1)
    (loIdx k = base ∧ hiIdx k = base + 1) ∨ (hiIdx k = base ∧ loIdx k = base + 1)

structure Regs where
  al : Alloc
  (nspills nfspills ni64spills : Nat)

def initAlloc : Alloc := ⟨fun _ => -1, fun _ => -1⟩

def maxPair (ntemps : Nat) (isI64 : Nat → Bool) (tempReg : Nat → Int) : Int :=
  (range ntemps).foldl (fun m t => if isI64 t && tempReg t > m then tempReg t else m) (-1)

def reservedSlots (firstReg numRegs : Nat) (pinned : List Int) (k : Nat) : Bool :=
  decide (k < numRegs) && pinned.any fun r => r - firstReg = k

/-- `regalloc` with register pairs. `none` is a `die` (a pinned register where pairs are used) or a
read of `active[-1]`. -/
def pairRegalloc (K : PairTarget) (qsort : List Interval → List Interval) (pinned : List Int)
    (fn : Func) : Option Regs :=
  if fn.ntemps = 0 then some ⟨initAlloc, 0, 0, 0⟩
  else do
    let s := liveScan K.queue K.classify fn.ntemps fn.insns
    let (al, ni64spills) ← linscan qsort fn.ntemps s.firstDef s.lastUse s.isI64
      ⟨K.i64NumPairs, K.i64FirstPair, 8⟩ (fun _ => false) (fun _ => false) initAlloc
    let pairs := maxPair fn.ntemps s.isI64 al.tempReg
    let intNumRegs := (K.intNumRegs - 2 * (pairs + 1)).toNat
    if pinned ≠ [] ∧ pairs ≥ 0 then none
    let (al, nspills) ← linscan qsort fn.ntemps s.firstDef s.lastUse
      (fun t => !s.isFloat t && !s.isI64 t) ⟨intNumRegs, K.intFirstReg, 4⟩ (fun _ => false)
      (reservedSlots K.intFirstReg intNumRegs pinned) al
    let (al, nfspills) ← linscan qsort fn.ntemps s.firstDef s.lastUse s.isFloat
      ⟨K.fpNumRegs, K.fpFirstReg, 8⟩ (fun _ => false) (fun _ => false) al
    return ⟨al, nspills, nfspills, ni64spills⟩

def cfTarget : PairTarget where
  queue :=
    { argOps := [.arg, .farg, .arg64]
      callOps := [.call, .calli, .fcall, .fcalli, .tailcall, .tailcalli, .call64, .calli64]
      maxArgs := 32 }
  classify := hardClassify
  intNumRegs := 6
  intFirstReg := 2
  fpNumRegs := 6
  fpFirstReg := 2
  i64NumPairs := 3
  i64FirstPair := 0
  loIdx pair := 7 - 2 * pair
  hiIdx pair := 6 - 2 * pair
  pairsFromTop k := .inr (by constructor <;> push_cast <;> ring)

def rvTarget : PairTarget where
  queue :=
    { argOps := [.arg, .arg64, .farg]
      callOps := [.call, .calli, .call2, .calli2, .call64, .calli64, .fcall, .fcalli, .tailcall, .tailcalli]
      maxArgs := 16 }
  classify := hardClassify
  intNumRegs := 11
  intFirstReg := 2
  fpNumRegs := 12
  fpFirstReg := 2
  i64NumPairs := 4
  i64FirstPair := 0
  loIdx pair := 11 - 2 * pair
  hiIdx pair := 12 - 2 * pair
  pairsFromTop k := .inl (by constructor <;> push_cast <;> ring)

/-- The MIPS scan keeps no queue of arguments. -/
def mipsTarget (softfloat : Bool) : PairTarget where
  queue := { argOps := [], callOps := [], maxArgs := 0 }
  classify := if softfloat then softClassify else hardClassify
  intNumRegs := 8
  intFirstReg := 2
  fpNumRegs := 6
  fpFirstReg := 2
  i64NumPairs := 4
  i64FirstPair := 0
  loIdx pair := 8 - 2 * pair
  hiIdx pair := 9 - 2 * pair
  pairsFromTop k := .inl (by constructor <;> push_cast <;> ring)

/-! ## Backends with one integer class -/

def mergedClassify (i : Insn) : DefClass := if irOpIsFloatDef i.op then .float else .int

structure MergedTarget where
  queue : ArgQueue
  (intNumRegs intFirstReg fpNumRegs fpFirstReg : Nat)
  /-- Whether a float live across a call must be spilled. -/
  spillCross : Bool

def callPositions (Q : ArgQueue) (insns : List Insn) : List Nat :=
  (insns.zipIdx.filter fun i => Q.isCall i.1).map Prod.snd

variable (s : LiveState)

def markFloatCross (callPos : List Nat) (t : Nat) : Bool :=
  s.isFloat t && decide (0 ≤ s.firstDef t) &&
    callPos.any fun c => decide (c > s.firstDef t) && decide (c < s.lastUse t)

/-- `regalloc` of a target with one integer class. -/
def mergedRegalloc (K : MergedTarget) (qsort : List Interval → List Interval) (pinned : List Int)
    (fn : Func) : Option Regs :=
  if fn.ntemps = 0 then some ⟨initAlloc, 0, 0, 0⟩
  else do
    let s := liveScan K.queue mergedClassify fn.ntemps fn.insns
    let floatCross := markFloatCross s (callPositions K.queue fn.insns)
    let (al, nspills) ← linscan qsort fn.ntemps s.firstDef s.lastUse (fun t => !s.isFloat t)
      ⟨K.intNumRegs, K.intFirstReg, 8⟩ (fun _ => false)
      (reservedSlots K.intFirstReg K.intNumRegs pinned) initAlloc
    let (al, nfspills) ← linscan qsort fn.ntemps s.firstDef s.lastUse s.isFloat
      ⟨K.fpNumRegs, K.fpFirstReg, 8⟩ (fun t => K.spillCross && floatCross t) (fun _ => false) al
    return ⟨al, nspills, nfspills, 0⟩

def x86Target : MergedTarget where
  queue :=
    { argOps := [.arg, .arg64, .farg, .argMem]
      callOps := [.call, .calli, .call64, .calli64, .fcall, .fcalli, .callAgg, .calliAgg,
        .tailcall, .tailcalli]
      maxArgs := 16 }
  intNumRegs := 5
  intFirstReg := 0
  fpNumRegs := 7
  fpFirstReg := 0
  spillCross := true

/-- `psabi` is the `CC_PSABI` build, whose prologue saves the float registers. -/
def arm64Target (psabi : Bool) : MergedTarget where
  queue :=
    { argOps := [.arg, .arg64, .argX8, .argMem]
      callOps := [.call, .calli, .call64, .calli64, .fcall, .fcalli, .callAgg, .calliAgg,
        .tailcall, .tailcalli]
      maxArgs := 16 }
  intNumRegs := 10
  intFirstReg := 2
  fpNumRegs := 8
  fpFirstReg := 2
  spillCross := !psabi

/-! ## Registers of temps that are live together -/

inductive PhysReg where
  | int (n : Int)
  | fp (n : Int)
  deriving DecidableEq, Repr

/-- The class whose register `temp_reg` names: the float pass comes last, and the 32-bit pass skips
the other classes. -/
def LiveState.regClass (t : Nat) : DefClass :=
  if s.isFloat t then .float else if s.isI64 t then .i64 else .int

def PairTarget.physRegs (K : PairTarget) (s : LiveState) (al : Alloc) (t : Nat) : List PhysReg :=
  if al.tempReg t < 0 then []
  else match s.regClass t with
    | .float => [.fp (al.tempReg t)]
    | .i64 => [.int (K.loIdx (al.tempReg t)), .int (K.hiIdx (al.tempReg t))]
    | .int => [.int (al.tempReg t)]

def MergedTarget.physRegs (al : Alloc) (t : Nat) : List PhysReg :=
  if al.tempReg t < 0 then []
  else if s.isFloat t then [.fp (al.tempReg t)]
  else [.int (al.tempReg t)]

theorem le_foldl_maxPair {isI64 : Nat → Bool} {tempReg : Nat → Int} (l : List Nat) (m : Int) :
    m ≤ l.foldl (fun m t => if isI64 t && tempReg t > m then tempReg t else m) m ∧ ∀ t ∈ l, isI64 t = true →
        tempReg t ≤ l.foldl (fun m t => if isI64 t && tempReg t > m then tempReg t else m) m := by
  induction l generalizing m with
  | nil => simp
  | cons u l ih =>
    simp only [foldl_cons, mem_cons, forall_eq_or_imp]
    obtain ⟨hle, hall⟩ := ih _
    refine ⟨le_trans ?_ hle, fun hu => le_trans ?_ hle, hall⟩
    · split
      · rename_i h
        simp only [Bool.and_eq_true, decide_eq_true_eq] at h
        omega
      · exact le_rfl
    · simp only [hu, Bool.true_and, decide_eq_true_eq]
      split <;> omega

theorem tempReg_le_maxPair {ntemps : Nat} {isI64 : Nat → Bool} {tempReg : Nat → Int} {t : Nat}
    (ht : t < ntemps) (hi : isI64 t = true) : tempReg t ≤ maxPair ntemps isI64 tempReg :=
  (le_foldl_maxPair (range ntemps) (-1)).2 t (mem_range.mpr ht) hi

variable {K : PairTarget}

theorem pairRegalloc_runs
    {pinned : List Int} {fn : Func} {res : Regs} (hn : fn.ntemps ≠ 0)
    (h : pairRegalloc K qsort pinned fn = some res) :
    let s := liveScan K.queue K.classify fn.ntemps fn.insns
    ∃ al1 al2 pairs, pairs = maxPair fn.ntemps s.isI64 al1.tempReg ∧
      linscan qsort fn.ntemps s.firstDef s.lastUse s.isI64 ⟨K.i64NumPairs, K.i64FirstPair, 8⟩
        (fun _ => false) (fun _ => false) initAlloc = some (al1, res.ni64spills) ∧
      linscan qsort fn.ntemps s.firstDef s.lastUse (fun t => !s.isFloat t && !s.isI64 t)
        ⟨(K.intNumRegs - 2 * (pairs + 1)).toNat, K.intFirstReg, 4⟩ (fun _ => false)
        (reservedSlots K.intFirstReg (K.intNumRegs - 2 * (pairs + 1)).toNat pinned) al1 =
          some (al2, res.nspills) ∧
      linscan qsort fn.ntemps s.firstDef s.lastUse s.isFloat ⟨K.fpNumRegs, K.fpFirstReg, 8⟩
        (fun _ => false) (fun _ => false) al2 = some (res.al, res.nfspills) := by
  simp only [pairRegalloc, if_neg hn] at h
  obtain ⟨⟨al1, n1⟩, h1, h⟩ := Option.bind_eq_some_iff.mp h
  split at h
  · cases h
  obtain ⟨⟨al2, n2⟩, h2, h⟩ := Option.bind_eq_some_iff.mp h
  obtain ⟨⟨al3, n3⟩, h3, h⟩ := Option.bind_eq_some_iff.mp h
  cases h
  exact ⟨al1, al2, _, rfl, h1, h2, h3⟩

theorem PairTarget.int_ne_pair (K : PairTarget) {r k pairs : Int} (hk : k ≤ pairs)
    (hpos : (K.intFirstReg : Int) ≤ r)
    (hr : r < K.intFirstReg + ((K.intNumRegs - 2 * (pairs + 1) : Int).toNat : Int)) :
    r ≠ K.loIdx k ∧ r ≠ K.hiIdx k := by
  have htop := K.pairsFromTop k
  omega

theorem PairTarget.pair_disjoint (K : PairTarget) {j k : Int} (hjk : j ≠ k) :
    K.loIdx j ≠ K.loIdx k ∧ K.loIdx j ≠ K.hiIdx k ∧ K.hiIdx j ≠ K.loIdx k ∧ K.hiIdx j ≠ K.hiIdx k := by
  have hj := K.pairsFromTop j
  have hk := K.pairsFromTop k
  omega

def LiveState.Defined (ntemps t : Nat) : Prop := t < ntemps ∧ 0 ≤ s.firstDef t

def LiveState.Meets (t u : Nat) : Prop :=
  (liveInterval s.firstDef s.lastUse t).Meets (liveInterval s.firstDef s.lastUse u)

structure PairAllocation (K : PairTarget) (s : LiveState) (ntemps : Nat) (al : Alloc) : Prop where
  sameClass : ∀ t u, s.Defined ntemps t → s.Defined ntemps u → t ≠ u →
    s.regClass t = s.regClass u → s.Meets t u → 0 ≤ al.tempReg t → al.tempReg t ≠ al.tempReg u
  belowPairs : ∀ t u, s.Defined ntemps t → s.Defined ntemps u → s.regClass t = .int →
    s.regClass u = .i64 → 0 ≤ al.tempReg t → al.tempReg t ≠ K.loIdx (al.tempReg u) ∧
      al.tempReg t ≠ K.hiIdx (al.tempReg u)

section Disjoint

variable {pinned : List Int} {fn : Func} {res : Regs}

variable (hqsort : IsQsort sortByStart qsort)

include hqsort

theorem pairRegalloc_allocation (hrun : pairRegalloc K qsort pinned fn = some res) :
    PairAllocation K (liveScan K.queue K.classify fn.ntemps fn.insns) fn.ntemps res.al := by
  by_cases hn : fn.ntemps = 0
  · constructor
    · intro t u ht
      exact absurd ht.1 (by omega)
    · intro t u ht
      exact absurd ht.1 (by omega)
  obtain ⟨al1, al2, pairs, hprs, h1, h2, h3⟩ := pairRegalloc_runs hn hrun
  generalize liveScan _ _ _ _ = s at *
  have hi64 := linscan_valid hqsort (Nat.succ_pos 7) h1
  have hint := linscan_valid hqsort (Nat.succ_pos 3) h2
  have hfp := linscan_valid hqsort (Nat.succ_pos 7) h3
  -- a later pass leaves the temps of the other classes alone
  have hkeepInt : ∀ v, s.isFloat v = false → res.al.tempReg v = al2.tempReg v := fun v hv =>
    (hfp.frame v fun hlv => absurd hlv.2.1 (by simp [hv])).1
  have hkeepI64 : ∀ v, s.isFloat v = false → s.isI64 v = true →
      res.al.tempReg v = al1.tempReg v := fun v hv hv' =>
    (hkeepInt v hv).trans (hint.frame v fun hlv => absurd hlv.2.1 (by simp [hv'])).1
  have hcls : ∀ v, (s.regClass v = .float ∧ s.isFloat v = true) ∨
      (s.regClass v = .i64 ∧ s.isFloat v = false ∧ s.isI64 v = true) ∨
      (s.regClass v = .int ∧ s.isFloat v = false ∧ s.isI64 v = false) := by
    intro v
    unfold LiveState.regClass
    cases s.isFloat v <;> cases s.isI64 v <;> simp
  constructor
  · intro t u ht hu hne hsm hmt hpos
    rcases hcls t with ⟨hc, hf⟩ | ⟨hc, hf, hi⟩ | ⟨hc, hf, hi⟩ <;>
      rcases hcls u with ⟨hc', hf'⟩ | ⟨hc', hf', hi'⟩ | ⟨hc', hf', hi'⟩ <;>
      simp only [hc, hc', reduceCtorEq] at hsm
    · exact hfp.noShare t u ⟨ht.1, hf, ht.2⟩ ⟨hu.1, hf', hu.2⟩ hne hmt hpos
    · rw [hkeepI64 t hf hi] at hpos ⊢
      rw [hkeepI64 u hf' hi']
      exact hi64.noShare t u ⟨ht.1, hi, ht.2⟩ ⟨hu.1, hi', hu.2⟩ hne hmt hpos
    · rw [hkeepInt t hf] at hpos ⊢
      rw [hkeepInt u hf']
      exact hint.noShare t u ⟨ht.1, by simp [hf, hi], ht.2⟩ ⟨hu.1, by simp [hf', hi'], hu.2⟩ hne hmt hpos
  intro t u ht hu hct hcu hpos
  obtain ⟨hf, hi⟩ : s.isFloat t = false ∧ s.isI64 t = false := by
    rcases hcls t with ⟨hc, -⟩ | ⟨hc, -⟩ | ⟨-, h⟩
    · exact absurd (hct.symm.trans hc) (by decide)
    · exact absurd (hct.symm.trans hc) (by decide)
    · exact h
  obtain ⟨hf', hi'⟩ : s.isFloat u = false ∧ s.isI64 u = true := by
    rcases hcls u with ⟨hc, -⟩ | ⟨-, h⟩ | ⟨hc, -⟩
    · exact absurd (hcu.symm.trans hc) (by decide)
    · exact h
    · exact absurd (hcu.symm.trans hc) (by decide)
  rw [hkeepInt t hf] at hpos ⊢
  rw [hkeepI64 u hf' hi']
  obtain ⟨hlo, hhi, -⟩ := hint.regAllowed t ⟨ht.1, by simp [hf, hi], ht.2⟩ hpos
  exact K.int_ne_pair (hprs ▸ tempReg_le_maxPair hu.1 hi') hlo hhi

theorem pairRegalloc_disjoint (hrun : pairRegalloc K qsort pinned fn = some res) {t u : Nat}
    (ht : (liveScan K.queue K.classify fn.ntemps fn.insns).Defined fn.ntemps t)
    (hu : (liveScan K.queue K.classify fn.ntemps fn.insns).Defined fn.ntemps u) (hne : t ≠ u)
    (hmt : (liveScan K.queue K.classify fn.ntemps fn.insns).Meets t u) :
    (K.physRegs (liveScan K.queue K.classify fn.ntemps fn.insns) res.al t).Disjoint
      (K.physRegs (liveScan K.queue K.classify fn.ntemps fn.insns) res.al u) := by
  have hal := pairRegalloc_allocation hqsort hrun
  generalize liveScan _ _ _ _ = s at *
  have hsm := hal.sameClass t u ht hu hne
  have hlow := hal.belowPairs t u ht hu
  have habv := hal.belowPairs u t hu ht
  unfold PairTarget.physRegs
  by_cases htn : res.al.tempReg t < 0
  · rw [if_pos htn]
    exact disjoint_nil_left _
  by_cases huneg : res.al.tempReg u < 0
  · rw [if_pos huneg]
    exact disjoint_nil_right _
  rw [if_neg htn, if_neg huneg]
  have hpr := fun h => K.pair_disjoint (hsm h hmt (not_lt.mp htn))
  cases hct : s.regClass t <;> cases hcu : s.regClass u <;> rw [hct, hcu] at hsm hpr
  case int.int => simpa [eq_comm] using hsm rfl hmt (not_lt.mp htn)
  case float.float => simpa [eq_comm] using hsm rfl hmt (not_lt.mp htn)
  case i64.i64 =>
    obtain ⟨hll, hlh, hhl, hhh⟩ := hpr rfl
    simp [hll.symm, hlh.symm, hhl.symm, hhh.symm]
  case int.i64 => simpa [not_or, eq_comm] using hlow hct hcu (not_lt.mp htn)
  case i64.int => simpa [not_or, eq_comm] using habv hcu hct (not_lt.mp huneg)
  all_goals simp

/-- A temp no pass meets keeps the `-1` it starts with. -/
theorem defined_of_tempReg (hrun : pairRegalloc K qsort pinned fn = some res) {t : Nat}
    (ht : 0 ≤ res.al.tempReg t) :
    (liveScan K.queue K.classify fn.ntemps fn.insns).Defined fn.ntemps t := by
  by_contra hnot
  by_cases hn : fn.ntemps = 0
  · simp only [pairRegalloc, if_pos hn] at hrun
    cases hrun
    exact absurd ht (Int.negSucc_not_nonneg 0).mp
  obtain ⟨al1, al2, pairs, -, h1, h2, h3⟩ := pairRegalloc_runs hn hrun
  have hdead : ∀ isClass, ¬ LiveTemp fn.ntemps _ isClass t := fun _ hlv => hnot ⟨hlv.1, hlv.2.2⟩
  rw [((linscan_valid hqsort (Nat.succ_pos 7) h3).frame t (hdead _)).1,
    ((linscan_valid hqsort (Nat.succ_pos 3) h2).frame t (hdead _)).1,
    ((linscan_valid hqsort (Nat.succ_pos 7) h1).frame t (hdead _)).1] at ht
  exact absurd ht (Int.negSucc_not_nonneg 0).mp

theorem mergedRegalloc_disjoint {K : MergedTarget}
    (hrun : mergedRegalloc K qsort pinned fn = some res) {t u : Nat}
    (ht : (liveScan K.queue mergedClassify fn.ntemps fn.insns).Defined fn.ntemps t)
    (hu : (liveScan K.queue mergedClassify fn.ntemps fn.insns).Defined fn.ntemps u) (hne : t ≠ u)
    (hmt : (liveScan K.queue mergedClassify fn.ntemps fn.insns).Meets t u) :
    (MergedTarget.physRegs (liveScan K.queue mergedClassify fn.ntemps fn.insns) res.al t).Disjoint
      (MergedTarget.physRegs (liveScan K.queue mergedClassify fn.ntemps fn.insns) res.al u) := by
  have hn : fn.ntemps ≠ 0 := by
    have := ht.1
    omega
  simp only [mergedRegalloc, if_neg hn] at hrun
  generalize liveScan _ _ _ _ = s at *
  obtain ⟨⟨al1, n1⟩, h1, hrun⟩ := Option.bind_eq_some_iff.mp hrun
  obtain ⟨⟨al2, n2⟩, h2, hrun⟩ := Option.bind_eq_some_iff.mp hrun
  cases hrun
  have hint := linscan_valid hqsort (Nat.succ_pos 7) h1
  have hfp := linscan_valid hqsort (Nat.succ_pos 7) h2
  have hkp : ∀ v, s.isFloat v = false → al2.tempReg v = al1.tempReg v := fun v hv =>
    (hfp.frame v fun hlv => absurd hlv.2.1 (by simp [hv])).1
  unfold MergedTarget.physRegs
  by_cases htn : al2.tempReg t < 0
  · rw [if_pos htn]
    exact disjoint_nil_left _
  by_cases huneg : al2.tempReg u < 0
  · rw [if_pos huneg]
    exact disjoint_nil_right _
  rw [if_neg htn, if_neg huneg]
  cases hft : s.isFloat t <;> cases hfu : s.isFloat u
  case false.false =>
    rw [hkp t hft] at htn
    simpa [hkp t hft, hkp u hfu, eq_comm] using hint.noShare t u ⟨ht.1, by simp [hft], ht.2⟩
      ⟨hu.1, by simp [hfu], hu.2⟩ hne hmt (not_lt.mp htn)
  case true.true =>
    simpa [eq_comm] using hfp.noShare t u ⟨ht.1, hft, ht.2⟩ ⟨hu.1, hfu, hu.2⟩ hne hmt (not_lt.mp htn)
  all_goals simp

/-- The 32-bit temps of a function get no half of a pair that one of its 64-bit temps has, live
together or not, on any target that carves its pairs from the integer registers. -/
theorem ints_avoid_pairs (hrun : pairRegalloc K qsort pinned fn = some res) {t u : Nat}
    (ht : (liveScan K.queue K.classify fn.ntemps fn.insns).regClass t = .int)
    (hu : (liveScan K.queue K.classify fn.ntemps fn.insns).regClass u = .i64) :
    (K.physRegs (liveScan K.queue K.classify fn.ntemps fn.insns) res.al t).Disjoint
      (K.physRegs (liveScan K.queue K.classify fn.ntemps fn.insns) res.al u) := by
  have hlow := (pairRegalloc_allocation hqsort hrun).belowPairs t u
  simp only [PairTarget.physRegs, ht, hu]
  split
  · exact disjoint_nil_left _
  split
  · exact disjoint_nil_right _
  rename_i htreg hureg
  rw [not_lt] at htreg hureg
  simpa [not_or, eq_comm] using
    hlow (defined_of_tempReg hqsort hrun htreg) (defined_of_tempReg hqsort hrun hureg) ht hu htreg

end Disjoint

/-- A 64-bit temp and a 32-bit one. -/
def mixedTemps : Func := ⟨2, [{ op := .lic64, dst := 0 }, { op := .trunc64, dst := 1, a := 0 }]⟩

theorem ints_avoid_pairs_mixedTemps : ∃ res,
    pairRegalloc cfTarget insertionQsort [] mixedTemps = some res ∧
    (cfTarget.physRegs (liveScan cfTarget.queue hardClassify 2 mixedTemps.insns) res.al 1).Disjoint
      (cfTarget.physRegs (liveScan cfTarget.queue hardClassify 2 mixedTemps.insns) res.al 0) := by
  obtain ⟨res, hrun⟩ := Option.isSome_iff_exists.mp
    (show (pairRegalloc cfTarget insertionQsort [] mixedTemps).isSome by decide)
  exact ⟨res, hrun, ints_avoid_pairs insertionQsort_isQsort hrun (by decide) (by decide)⟩

end Skjegg.Backend
