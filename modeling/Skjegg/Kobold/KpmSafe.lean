import Mathlib.Data.List.ReduceOption
import Skjegg.Kobold.Kpm

/-!
# What a module that reads is safe for

The backends index arrays by the temps, slots and labels of instructions without a check of their own.
So the reader has to leave every index in the range the function declares, for any text at all.
-/

namespace Skjegg.Kobold.Kpm

open Skjegg.Lib Skjegg.Libc List
open Skjegg.Ir (Op)

variable {B : Backend} {fn fn' : Func} {insn : Insn} {toks : List CStr} {tok line msg : CStr}

theorem exists_of_map_ok {ε α β : Type} {f : α → β} {x : Except ε α} {b : β}
    (h : x.map f = .ok b) : ∃ a, x = .ok a ∧ b = f a := by
  cases x with
  | error e => cases h
  | ok a =>
    cases h
    exact ⟨a, rfl, rfl⟩

def TempOk (ntemps v : Int) : Prop := v = -1 ∨ 0 ≤ v ∧ v < ntemps

def Within (count v : Int) : Prop := 0 ≤ v ∧ v < count

/-- The indices of an instruction are in range. -/
structure InsnSafe (fn : Func) (insn : Insn) : Prop where
  dst : TempOk fn.ntemps insn.dst
  a : TempOk fn.ntemps insn.a
  b : TempOk fn.ntemps insn.b
  slot : opNeedsSlot insn.op → Within fn.nslots insn.slot
  label : opNeedsLabel insn.op → Within fn.nlabels insn.label
  asm : ∀ info, insn.asmInfo = some info → ∀ op ∈ info.ops, Within fn.ntemps op.temp

structure FuncSafe (fn : Func) : Prop where
  params : fn.nparams ≤ fn.nslots
  insns : ∀ insn ∈ fn.insns, InsnSafe fn insn

/-! ## Operands -/

/-- What the operand loop keeps: temps in range, and a slot and a label in range once they are seen. -/
structure OperandsOk (fn : Func) (op : Op) (st : Operands) : Prop where
  op : st.insn.op = op
  dst : TempOk fn.ntemps st.insn.dst
  a : TempOk fn.ntemps st.insn.a
  b : TempOk fn.ntemps st.insn.b
  slot : st.seenSlot → Within fn.nslots st.insn.slot
  label : st.seenLabel → Within fn.nlabels st.insn.label
  asm : st.insn.asmInfo = none

variable {ntemps : Int} {op : Op} {st st' : Operands} {pos : Nat} {lines rest : List CStr}
  {m m' : Module}

theorem tempOk_of_not {v : Int} (h : ¬(v < -1 ∨ ntemps ≤ v)) : TempOk ntemps v := by
  unfold TempOk
  omega

theorem within_of_not {count v : Int} (h : ¬(v < 0 ∨ count ≤ v)) : Within count v := by
  unfold Within
  omega

theorem OperandsOk.setKey {key : OperandKey} {val : CStr}
    (h : OperandsOk fn op st) (hset : setKey B fn st key val = .ok st') : OperandsOk fn op st' := by
  have checked : ∀ {p : Prop} [Decidable p] {e : CStr} {st1 : Operands},
      (if p then .error e else .ok st1) = Except.ok st' → ¬p ∧ st1 = st' := by
    intro p _ e st1 h
    split_ifs at h with hp
    exact ⟨hp, Except.ok.inj h⟩
  cases key
  case imm | nargs | sym =>
    cases hset
    exact { h with }
  all_goals obtain ⟨hv, rfl⟩ := checked hset
  case dst => exact { h with dst := tempOk_of_not hv }
  case a => exact { h with a := tempOk_of_not hv }
  case b => exact { h with b := tempOk_of_not hv }
  case slot => exact { h with slot := fun _ => within_of_not hv }
  case label => exact { h with label := fun _ => within_of_not hv }

theorem OperandsOk.setOperand (h : OperandsOk fn op st)
    (hset : setOperand B fn st tok = .ok st') : OperandsOk fn op st' := by
  unfold Kpm.setOperand at hset
  split at hset
  · cases hset
    exact h
  split at hset
  · cases hset
    exact h
  · exact h.setKey hset

theorem OperandsOk.setOperandList (h : OperandsOk fn op st)
    (hset : setOperandList B fn st toks = .ok st') : OperandsOk fn op st' := by
  induction toks generalizing st with
  | nil =>
    cases hset
    exact h
  | cons tok toks ih =>
    rw [Kpm.setOperandList] at hset
    split at hset
    next => cases hset
    next st'' hone => exact ih (h.setOperand hone) hset

theorem insnSafe_setOperands (h : setOperands B fn op toks = .ok insn) : InsnSafe fn insn := by
  unfold setOperands at h
  split at h
  next => cases h
  next st hli =>
    have hbeg : OperandsOk fn op { insn := { op := op } } :=
      ⟨rfl, .inl rfl, .inl rfl, .inl rfl, Bool.noConfusion, Bool.noConfusion, rfl⟩
    have hok := hbeg.setOperandList hli
    split at h
    next => cases h
    next hslot =>
      split at h
      next => cases h
      next hlb =>
        cases h
        refine ⟨hok.dst, hok.a, hok.b, fun hnd => hok.slot ?_, fun hnd => hok.label ?_, ?_⟩
        · by_contra hse
          exact hslot ⟨hok.op ▸ hnd, hse⟩
        · by_contra hse
          exact hlb ⟨hok.op ▸ hnd, hse⟩
        · intro info hin
          rw [hok.asm] at hin
          cases hin

/-! ## Extended assembly -/

theorem within_parseAsmOp {op : AsmOp} (h : parseAsmOp B ntemps tok = some op) : Within ntemps op.temp := by
  unfold parseAsmOp at h
  iterate 3
    split at h
    · cases h
  simp only at h
  iterate 2
    split at h
    · cases h
  next hrng =>
    cases h
    constructor <;> simp only <;> omega

def FillOk (ntemps : Int) (st : AsmFill) : Prop := ∀ op, some op ∈ st.ops → Within ntemps op.temp

theorem FillOk.token {nclobbers : Nat} {st st' : AsmFill} (h : FillOk ntemps st)
    (hfl : fillAsmToken B ntemps nclobbers st tok = .ok st') : FillOk ntemps st' := by
  unfold fillAsmToken at hfl
  split at hfl
  · cases hfl
    exact h
  split at hfl
  · simp only at hfl
    split at hfl
    · cases hfl
    split at hfl
    · cases hfl
    next op hop =>
      cases hfl
      intro op' hmem
      rcases mem_or_eq_of_mem_set hmem with hold | hnew
      · exact h op' hold
      · cases hnew
        exact within_parseAsmOp hop
  · split at hfl
    · split at hfl
      · cases hfl
        exact h
      · cases hfl
        exact h
    · cases hfl
      exact h

theorem FillOk.list {nclobbers : Nat} {st st' : AsmFill} (h : FillOk ntemps st)
    (hfl : fillAsm B ntemps nclobbers st toks = .ok st') : FillOk ntemps st' := by
  induction toks generalizing st with
  | nil =>
    cases hfl
    exact h
  | cons tok toks ih =>
    rw [fillAsm] at hfl
    split at hfl
    next => cases hfl
    next st'' hone => exact ih (h.token hone) hfl

theorem within_readAsmInfo {info : AsmInfo}
    (h : readAsmInfo B ntemps toks = .ok info) : ∀ op ∈ info.ops, Within ntemps op.temp := by
  unfold readAsmInfo at h
  simp only at h
  split at h
  · cases h
  split at h
  · cases h
  next st hfl =>
    split at h
    · cases h
    cases h
    have hbeg : ∀ n, FillOk ntemps ⟨replicate n none, []⟩ := fun n op hmem =>
      nomatch (eq_of_mem_replicate hmem)
    intro op hmem
    exact (hbeg _).list hfl op (reduceOption_mem_iff.mp hmem)

theorem insnSafe_emitAsmLine (h : emitAsmLine B fn.ntemps line = .ok (some insn)) : InsnSafe fn insn := by
  have hpl : ∀ sym info, (∀ i, info = some i → ∀ op ∈ i.ops, Within fn.ntemps op.temp) →
      InsnSafe fn { op := .asm, sym := sym, asmInfo := info } := by
    intro sym info hin
    exact ⟨.inl rfl, .inl rfl, .inl rfl, Bool.noConfusion, Bool.noConfusion, hin⟩
  unfold emitAsmLine at h
  split at h
  · simp only at h
    split at h
    · split at h
      · cases h
      · cases h
        exact hpl _ _ fun i hi => nomatch hi
    iterate 3
      split at h
      · cases h
    next info hin =>
      cases h
      apply hpl
      rintro i ⟨⟩
      exact within_readAsmInfo hin
  · cases h

/-! ## Functions -/

theorem insnSafe_readInsn (h : readInsn B fn line = .ok (some insn)) : InsnSafe fn insn := by
  unfold readInsn at h
  split at h
  · cases h
  next hasm =>
    cases h
    exact insnSafe_emitAsmLine hasm
  · split at h
    · cases h
    split at h
    · cases h
    next op _ =>
      obtain ⟨i, hset, hi⟩ := exists_of_map_ok h
      cases hi
      exact insnSafe_setOperands hset

/-- A later state of a function: the counts stay, so what was safe stays safe. -/
structure SameCounts (fn fn' : Func) : Prop where
  nparams : fn'.nparams = fn.nparams
  nslots : fn'.nslots = fn.nslots
  ntemps : fn'.ntemps = fn.ntemps
  nlabels : fn'.nlabels = fn.nlabels

theorem InsnSafe.of_sameCounts (h : InsnSafe fn insn) (hsm : SameCounts fn fn') : InsnSafe fn' insn := by
  obtain ⟨-, hsl, htmp, hlbs⟩ := hsm
  constructor <;> simp only [hsl, htmp, hlbs]
  exacts [h.dst, h.a, h.b, h.slot, h.label, h.asm]

theorem FuncSafe.of_sameCounts (h : FuncSafe fn) (hsm : SameCounts fn fn')
    (hins : fn'.insns = fn.insns) : FuncSafe fn' := by
  constructor
  · rw [hsm.nparams, hsm.nslots]
    exact h.params
  · rw [hins]
    intro insn hmem
    exact (h.insns _ hmem).of_sameCounts hsm

theorem FuncSafe.directive (h : FuncSafe fn) (hdir : funcDirective B fn toks = some fn') :
    FuncSafe fn' := by
  unfold funcDirective at hdir
  split at hdir
  · cases hdir
  -- the three lists
  iterate 3
    split at hdir
    · cases hdir
      exact h.of_sameCounts ⟨rfl, rfl, rfl, rfl⟩ rfl
  split at hdir
  · cases hdir
    exact h
  · cases hdir

theorem FuncSafe.of_line (h : FuncSafe fn) (hln : funcLine B fn pos line = .ok fn') : FuncSafe fn' := by
  unfold funcLine at hln
  split at hln
  · split at hln
    · cases hln
    next hdir =>
      cases hln
      exact h.directive hdir
  split at hln
  · cases hln
  next insn hrd =>
    cases hln
    refine ⟨h.params, fun i hmem => ?_⟩
    rcases mem_append.mp hmem with hold | hnew
    · exact (h.insns i hold).of_sameCounts ⟨rfl, rfl, rfl, rfl⟩
    · rw [Option.mem_toList] at hnew
      rw [Option.mem_def.mp hnew] at hrd
      exact (insnSafe_readInsn hrd).of_sameCounts ⟨rfl, rfl, rfl, rfl⟩

theorem FuncSafe.body {r : Func × Nat} (h : FuncSafe fn)
    (hbo : funcBody B fn pos lines = .ok r) : FuncSafe r.1 := by
  induction lines generalizing fn pos r with
  | nil => cases hbo
  | cons line lines ih =>
    rw [funcBody] at hbo
    split at hbo
    · cases hbo
      exact h
    split at hbo
    · cases hbo
    next fn' hln =>
      obtain ⟨r', hrs, rfl⟩ := exists_of_map_ok hbo
      have hsafe : FuncSafe r'.1 := ih (h.of_line hln) hrs
      exact hsafe

theorem insns_funcFlags (fn : Func) (toks : List CStr) : (funcFlags B fn toks).insns = fn.insns := by
  have hfg : ∀ fn t, (funcFlag fn t).insns = fn.insns := by
    intro fn t
    unfold funcFlag
    split_ifs <;> rfl
  fun_induction funcFlags B fn toks with
  | case1 => rfl
  | case2 fn t => exact hfg fn t
  | case8 fn t v ts _ _ _ _ _ ih => rw [ih, hfg]
  | _ => assumption

theorem funcSafe_readFunc {r : Func × Nat} (h : readFunc B pos line rest = .ok r) : FuncSafe r.1 := by
  unfold readFunc at h
  split at h
  next name more _ =>
    simp only at h
    split at h
    · cases h
    split at h
    · cases h
    next hpars =>
      obtain ⟨r', hbo, rfl⟩ := exists_of_map_ok h
      have hemp := insns_funcFlags (B := B) { name := name } more
      have hbeg : FuncSafe (allocArrays (funcFlags B { name := name } more)) :=
        ⟨Int.not_lt.mp hpars, fun insn hmem => absurd (hemp ▸ hmem) not_mem_nil⟩
      exact (hbeg.body hbo).of_sameCounts ⟨rfl, rfl, rfl, rfl⟩ rfl
  · cases h

/-! ## The module -/

theorem funcs_readTarget (h : readTarget B m pos toks = .ok m') : m'.funcs = m.funcs := by
  unfold readTarget at h
  split at h
  · split at h
    · cases h
    · cases h
      rfl
  · cases h
    rfl

theorem funcs_readModuleKind (h : readModuleKind m pos toks = .ok m') : m'.funcs = m.funcs := by
  unfold readModuleKind at h
  split at h
  · split at h
    · cases h
    · cases h
      rfl
  · cases h
    rfl

theorem funcs_readInterface {r : Module × Nat}
    (h : readInterface B m pos line rest = .ok r) : r.1.funcs = m.funcs := by
  unfold readInterface at h
  split at h
  · cases h
  · cases h
    rfl

theorem funcSafe_readItem {r : Module × Nat}
    (h : ∀ fn ∈ m.funcs, FuncSafe fn) (hrd : readItem B m pos line rest = .ok r) :
    ∀ fn ∈ r.1.funcs, FuncSafe fn := by
  unfold readItem at hrd
  split at hrd
  next =>
    cases hrd
    exact h
  next =>
    split at hrd
    next =>
      obtain ⟨m', hm, rfl⟩ := exists_of_map_ok hrd
      exact (funcs_readTarget hm).symm ▸ h
    next =>
      obtain ⟨m', hm, rfl⟩ := exists_of_map_ok hrd
      exact (funcs_readModuleKind hm).symm ▸ h
    next =>
      cases hrd
      exact h
    next =>
      cases hrd
      exact h
    next => exact (funcs_readInterface hrd).symm ▸ h
    next =>
      cases hrd
      exact h
    next =>
      obtain ⟨-, -, rfl⟩ := exists_of_map_ok hrd
      exact h
    next =>
      cases hrd
      exact h
    next =>
      obtain ⟨-, -, rfl⟩ := exists_of_map_ok hrd
      exact h
    next =>
      obtain ⟨r', hfunc, rfl⟩ := exists_of_map_ok hrd
      intro fn hmem
      rcases mem_append.mp hmem with hold | hnew
      · exact h fn hold
      · rw [mem_singleton.mp hnew]
        exact funcSafe_readFunc hfunc
    next => cases hrd

theorem funcSafe_readItems {skip : Nat}
    (h : ∀ fn ∈ m.funcs, FuncSafe fn) (hrd : readItems B m pos skip lines = .ok m') :
    ∀ fn ∈ m'.funcs, FuncSafe fn := by
  induction lines generalizing m pos skip with
  | nil =>
    cases hrd
    exact h
  | cons line rest ih =>
    cases skip with
    | succ skip => exact ih h hrd
    | zero =>
      rw [readItems] at hrd
      split at hrd
      next => cases hrd
      next hitem => exact ih (funcSafe_readItem h hitem) hrd

theorem funcSafe_readModule (h : readModule B lines = .ok m) : ∀ fn ∈ m.funcs, FuncSafe fn := by
  unfold readModule at h
  split at h
  · cases h
  split at h
  · cases h
  split at h
  · cases h
  obtain ⟨m', hits, rfl⟩ := exists_of_map_ok h
  have hsafe := funcSafe_readItems (fun fn hmem => absurd hmem not_mem_nil) hits
  -- the source file goes onto each function and changes nothing else
  intro fn hmem
  obtain ⟨fn', hfn', rfl⟩ := mem_map.mp hmem
  exact (hsafe fn' hfn').of_sameCounts ⟨rfl, rfl, rfl, rfl⟩ rfl

/-- A text that reads gives functions whose indices are in range; one that does not leaves the module
all zero. -/
theorem kpmRead_safe (B : Backend) (t : List UInt8) :
    ((kpmRead B t).rc = 0 → ∀ fn ∈ (kpmRead B t).module.funcs, FuncSafe fn) ∧
      ((kpmRead B t).rc ≠ 0 → (kpmRead B t).module = {}) := by
  unfold kpmRead
  split
  next m hrd => exact ⟨fun _ => funcSafe_readModule hrd, fun hne => absurd rfl hne⟩
  next e _ => exact ⟨fun hrc => absurd hrc (by simp), fun _ => rfl⟩

theorem kpmRead_safe_jump :
    let r := kpmRead ⟨.lp64, text "x86-64", text "lp64"⟩
      (text ".kpm 1\n.func f params 0 slots 1 temps 2 labels 1\n BZ a=1 label=0\n.endfunc\n")
    r.rc = 0 ∧ r.module.funcs.length = 1 ∧ ∀ fn ∈ r.module.funcs, FuncSafe fn := by
  intro r
  have hrc : r.rc = 0 := by decide +kernel
  have hfns : r.module.funcs.length = 1 := by decide +kernel
  exact ⟨hrc, hfns, (kpmRead_safe _ _).1 hrc⟩

end Skjegg.Kobold.Kpm
