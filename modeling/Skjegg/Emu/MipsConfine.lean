import Skjegg.Emu.Mips32

/-!
# The register file of the MIPS core

A double lives in the named floating-point register and the one behind it; behind register 31 there
is none.
-/

namespace Skjegg.Emu.Mips

open Lib

variable {W : Type}

/-! ## Which registers an instruction names as doubles -/

/-- The operands of a coprocessor instruction that are doubles. -/
def pairOperands (inst : Word) : List (Fin 32) :=
  let ft := rtOf inst
  let fs := rdOf inst
  let fd := saOf inst
  let funct := functOf inst
  if opcode inst ≠ 0x11 then []
  else match (rsOf inst).val with
  | 0x11 =>
    if funct ≤ 0x03 then [fs, ft, fd]
    else if funct ≤ 0x07 ∨ funct = 0x21 then [fs, fd]
    else if funct = 0x20 ∨ funct = 0x24 then [fs]
    else if 0x30 ≤ funct ∧ funct ≤ 0x3f then [fs, ft]
    else []
  | 0x10 => if funct = 0x21 then [fd] else []
  | 0x14 => if funct = 0x21 then [fd] else []
  | _ => []

/-! ## Accesses to the file -/

theorem val_succ {i : Fin 32} (h : i ≠ 31) : (i + 1).val = i.val + 1 := by
  show (i.val + 1) % 32 = i.val + 1
  omega

@[simp]
theorem fprAt_val (m : Machine W) (i : Fin 32) : m.fprAt i.val = .ok (m.cpu.fpr.get i) := by
  simp [Machine.fprAt]

@[simp]
theorem setFpr_val (m : Machine W) (i : Fin 32) (v : Word) : m.setFpr i.val v = .ok (m.put i v) := by
  simp [Machine.setFpr, Machine.put]

section Succeeds

variable {m : Machine W} {i : Fin 32}

@[simp]
theorem succeeds_fprAt_succ {Q : Word → Prop} :
    Succeeds (m.fprAt (i.val + 1)) Q ↔ i ≠ 31 ∧ Q (m.cpu.fpr.get (i + 1)) := by
  by_cases h : i = 31
  · subst h
    simp [Machine.fprAt]
  · rw [← val_succ h, fprAt_val]
    simp [h]

@[simp]
theorem succeeds_setFpr_succ {v : Word} {Q : Machine W → Prop} :
    Succeeds (m.setFpr (i.val + 1) v) Q ↔ i ≠ 31 ∧ Q (m.put (i + 1) v) := by
  by_cases h : i = 31
  · subst h
    simp [Machine.setFpr]
  · rw [← val_succ h, setFpr_val]
    simp [h]

@[simp]
theorem succeeds_fprD {Q : BitVec 64 → Prop} : Succeeds (m.fprD i) Q ↔ i ≠ 31 ∧ Q (m.double i) := by
  simp [Machine.fprD, Machine.double]

@[simp]
theorem succeeds_setD {bits : BitVec 64} {Q : Machine W → Prop} : Succeeds (m.setD i bits) Q ↔
      i ≠ 31 ∧ Q ((m.put i (bits.setWidth 32)).put (i + 1) ((bits >>> 32).setWidth 32)) := by
  simp [Machine.setD]

end Succeeds

/-! ## One instruction -/

variable (fpu : Fpu) (bus : Bus W)

/-- An instruction on doubles changed the pair at `fd` and the condition flag, nothing else. -/
structure PairOnly (fd : Fin 32) (m m' : Machine W) : Prop where
  rest : m' = { m with cpu := { m.cpu with fpr := m'.cpu.fpr, fcsr := m'.cpu.fcsr } }
  others : ∀ i, i ≠ fd → i ≠ fd + 1 → m'.cpu.fpr.get i = m.cpu.fpr.get i
  flag : m'.cpu.fcsr &&& ~~~fcsrC = m.cpu.fcsr &&& ~~~fcsrC

variable {m : Machine W}

theorem get_put_ne {i j : Fin 32} {v : Word} (h : j ≠ i) : (m.put i v).cpu.fpr.get j = m.cpu.fpr.get j := by
  have hval : i.val ≠ j.val := fun hij => h (Fin.ext hij.symm)
  exact Vector.getElem_set_ne i.isLt _ hval

theorem pairOnly_put (m : Machine W) (fd : Fin 32) (v : Word) : PairOnly fd m (m.put fd v) where
  rest := rfl
  others := fun _ hi _ => get_put_ne hi
  flag := rfl

theorem pairOnly_put_put (m : Machine W) (fd : Fin 32) (v w : Word) :
    PairOnly fd m ((m.put fd v).put (fd + 1) w) where
  rest := rfl
  others := fun i hi hi' => by rw [get_put_ne hi', get_put_ne hi]
  flag := rfl

theorem pairOnly_compare (m : Machine W) (fd : Fin 32) (cc : Nat) (x y : BitVec 64) :
    PairOnly fd m (compare fpu m cc x y) where
  rest := rfl
  others := fun _ _ _ => rfl
  flag := by
    simp only [compare, setCond]
    -- either way only the bit of the flag is written
    split
    · ext i
      simp only [BitVec.getElem_and, BitVec.getElem_or, BitVec.getElem_not]
      cases fcsrC[i] <;> simp
    · ext i
      cases fcsrC[i] <;> simp

/-- What comes of an instruction: where it has doubles, no more than it may do. -/
def Kept (inst : Word) (m : Machine W) (out : Option (Machine W)) : Prop :=
  pairOperands inst ≠ [] → ∃ m', out = some m' ∧ PairOnly (saOf inst) m m'

theorem kept_some {inst : Word} {m m' : Machine W} (h : PairOnly (saOf inst) m m') :
    Kept inst m (some m') :=
  fun _ => ⟨m', rfl, h⟩

@[simp]
theorem kept_put (inst : Word) (m : Machine W) (v : Word) : Kept inst m (some (m.put (saOf inst) v)) :=
  kept_some (pairOnly_put m _ v)

@[simp]
theorem kept_put_put (inst : Word) (m : Machine W) (v w : Word) :
    Kept inst m (some ((m.put (saOf inst) v).put (saOf inst + 1) w)) :=
  kept_some (pairOnly_put_put m _ v w)

@[simp]
theorem kept_compare (inst : Word) (m : Machine W) (cc : Nat) (x y : BitVec 64) :
    Kept inst m (some (compare fpu m cc x y)) :=
  kept_some (pairOnly_compare fpu m _ cc x y)

theorem kept_of_nil {inst : Word} {out : Option (Machine W)}
    (h : pairOperands inst = []) : Kept inst m out :=
  fun hne => absurd h hne

section Cop1

variable {inst : Word} {m : Machine W}

theorem cop1Single_kept (hop : opcode inst = 0x11) (hfmt : (rsOf inst).val = 0x10) :
    Succeeds (cop1Single fpu m inst) (Kept inst m) ↔ (31 : Fin 32) ∉ pairOperands inst := by
  have hprs : pairOperands inst = if functOf inst = 0x21 then [saOf inst] else [] := by
    simp [pairOperands, hop, hfmt]
  simp only [cop1Single]
  split
  case h_12 =>
    -- comparisons of singles and reserved functions
    have hnil : pairOperands inst = [] := by
      rw [hprs, if_neg]
      assumption
    split <;> simp [hnil, kept_of_nil]
  all_goals
    rename_i hfn
    simp [hprs, hfn, eq_comm]

theorem cop1Double_kept (hop : opcode inst = 0x11) (hfmt : (rsOf inst).val = 0x11) :
    Succeeds (cop1Double fpu m inst) (Kept inst m) ↔ (31 : Fin 32) ∉ pairOperands inst := by
  simp only [cop1Double]
  split
  case h_12 =>
    split
    next hcompare =>
      have hprs : pairOperands inst = [rdOf inst, rtOf inst] := by
        simp only [pairOperands, hop, hfmt]
        grind
      simp [hprs, eq_comm]
    next hres =>
      have hprs : pairOperands inst = [] := by
        simp only [pairOperands, hop, hfmt]
        grind
      simp [hprs, kept_of_nil hprs]
  all_goals
    rename_i hfn
    simp [pairOperands, hop, hfmt, hfn, eq_comm]

theorem cop1Op_kept (hop : opcode inst = 0x11) :
    Succeeds (cop1Op fpu m inst) (Kept inst m) ↔ (31 : Fin 32) ∉ pairOperands inst := by
  simp only [cop1Op]
  split
  case h_6 hfmt => exact cop1Single_kept fpu hop hfmt
  case h_7 hfmt => exact cop1Double_kept fpu hop hfmt
  case h_8 hfmt =>
    have hprs : pairOperands inst = if functOf inst = 0x21 then [saOf inst] else [] := by
      simp [pairOperands, hop, hfmt]
    split
    case h_3 =>
      have hnil : pairOperands inst = [] := by
        rw [hprs, if_neg]
        assumption
      simp [hnil, kept_of_nil]
    all_goals
      rename_i hfn
      simp [hprs, hfn, eq_comm]
  all_goals
    -- moves, branches and reserved formats name no double
    have hnil : pairOperands inst = [] := by simp [pairOperands, *]
    simp [hnil, kept_of_nil, succeeds_ite]

end Cop1

/-- An instruction stays inside the register file, and with doubles changes only the pair it names.
-/
def Confined (m : Machine W) (inst : Word) (dreg : Fin 32) (dval : Word) : Prop :=
  Succeeds (execute fpu bus m inst dreg dval) fun out =>
    pairOperands inst ≠ [] → ∃ m', out = .next m' ∧ PairOnly (saOf inst) m m'

theorem confined_iff {inst : Word} {dreg : Fin 32} {dval : Word} :
    Confined fpu bus m inst dreg dval ↔ (31 : Fin 32) ∉ pairOperands inst := by
  rw [Confined, execute]
  split
  next hop =>
    rw [← cop1Op_kept fpu hop (m := m), mipsCop1, succeeds_bind]
    -- the trap of a reserved instruction is no instruction on doubles
    refine exists_congr fun out => and_congr_right fun _ => ?_
    cases out with
    | none | some => simp [Kept]
  next hop =>
    have hnil : pairOperands inst = [] := by simp [pairOperands, hop]
    simp [hnil]

/-! ## Steps and runs -/

def Executing (m : Machine W) : Prop := stopReason m = none ∧ m.cpu.pc &&& 3 = 0

def StepConfined (m : Machine W) : Prop :=
  Confined fpu bus (fetch bus m).2.2 (fetch bus m).1 (fetch bus m).2.1.1 (fetch bus m).2.1.2

theorem stepConfined_iff : StepConfined fpu bus m ↔ (31 : Fin 32) ∉ pairOperands (fetch bus m).1 :=
  confined_iff fpu bus

theorem not_stopped (h : stopReason m = none) : (m.cpu.halted || m.cpu.trapped) = false := by
  cases hh : m.cpu.halted <;> cases ht : m.cpu.trapped <;> simp_all [stopReason]

theorem mipsStep_succeeds (hrun : stopReason m = none)
    (h : Executing m → StepConfined fpu bus m) : ∃ m', mipsStep fpu bus m = .ok m' := by
  rw [mipsStep, not_stopped hrun, if_neg Bool.false_ne_true]
  by_cases haln : m.cpu.pc &&& 3 = 0
  · obtain ⟨out, hout, -⟩ := h ⟨hrun, haln⟩
    rw [if_neg (not_not.mpr haln)]
    dsimp only
    rw [hout]
    cases out with
    | next | stop => exact ⟨_, rfl⟩
  · rw [if_pos haln]
    exact ⟨_, rfl⟩

inductive Executes : Nat → Machine W → Machine W → Prop
  | here {count : Nat} {m : Machine W} (h : Executing m) : Executes (count + 1) m m
  | later {count : Nat} {m m₁ m' : Machine W} (hrun : stopReason m = none)
      (hstep : mipsStep fpu bus m = .ok m₁) (h : Executes count m₁ m') : Executes (count + 1) m m'

/-- A batch never leaves the register file. -/
def RunConfined (count : Nat) (m : Machine W) : Prop :=
  (∃ result, mipsRun fpu bus count m = .ok result) ∧
    ∀ m', Executes fpu bus count m m' → StepConfined fpu bus m'

theorem mipsRun_succeeds {count : Nat} (h : ∀ m', Executes fpu bus count m m' → StepConfined fpu bus m') :
    ∃ result, mipsRun fpu bus count m = .ok result := by
  induction count generalizing m with
  | zero => exact ⟨_, rfl⟩
  | succ count ih =>
    rw [mipsRun]
    cases hrun : stopReason m with
    | some reason => exact ⟨_, rfl⟩
    | none =>
      obtain ⟨m1, hst⟩ := mipsStep_succeeds fpu bus hrun fun hexec => h m (.here hexec)
      have hrs := ih fun m' hm' => h m' (.later hrun hst hm')
      obtain ⟨⟨reason, n, m2⟩, hresult⟩ := hrs
      simp only [hst]
      cases hrun1 : stopReason m1 with
      | some reason => exact ⟨(reason, 1, m1), by simp [hrun1, bind, Except.bind, pure, Except.pure]⟩
      | none =>
        exact ⟨(reason, n + 1, m2), by
          simp [hrun1, hresult, bind, Except.bind, pure, Except.pure]⟩

/-- A batch stays inside the register file, and its instructions on doubles change nothing but the
pair they name, exactly when none that it executes names register 31 as a double. -/
theorem runConfined_iff_no_pair_at_end (count : Nat) (m : Machine W) : RunConfined fpu bus count m ↔
      ∀ m', Executes fpu bus count m m' → (31 : Fin 32) ∉ pairOperands (fetch bus m').1 := by
  constructor
  · intro h m' hm'
    exact (stepConfined_iff fpu bus).mp (h.2 m' hm')
  intro h
  have hsteps : ∀ m', Executes fpu bus _ m m' → StepConfined fpu bus m' :=
    fun m' hm' => (stepConfined_iff fpu bus).mpr (h m' hm')
  exact ⟨mipsRun_succeeds fpu bus hsteps, hsteps⟩

def constBus (inst : Word) : Bus Unit where
  read8 := fun _ m => (0, m)
  read16 := fun _ m => (0, m)
  read32 := fun _ m => (inst, m)
  write8 := fun _ _ m => m
  write16 := fun _ _ m => m
  write32 := fun _ _ m => m
  syscall := none

/-- An arithmetic that is never asked. -/
def idleFpu : Fpu where
  binaryS := fun _ x _ => x
  binaryD := fun _ x _ => x
  sqrtS := id
  sqrtD := id
  absS := id
  absD := id
  negS := id
  negD := id
  narrow := fun x => x.setWidth 32
  widen := fun x => x.setWidth 64
  toInt := fun x _ => x.setWidth 32
  ofIntS := id
  ofIntD := fun x => x.setWidth 64
  unordered := fun _ _ => false
  less := fun _ _ => false
  equal := fun _ _ => false

/-- `mov.d $f31, $f0` writes `fpr[32]`. -/
theorem mov_d_to_last_leaves_file :
    mipsRun idleFpu (constBus 0x462007C6) 1 ⟨reset init 0x1000, ()⟩ = .error (.fpr 32) ∧
      ¬ RunConfined idleFpu (constBus 0x462007C6) 1 ⟨reset init 0x1000, ()⟩ := by
  have hfault : mipsRun idleFpu (constBus 0x462007C6) 1 ⟨reset init 0x1000, ()⟩ = .error (.fpr 32) := by
    rfl
  refine ⟨hfault, ?_⟩
  rintro ⟨⟨result, hok⟩, -⟩
  cases hok

end Skjegg.Emu.Mips
