import Skjegg.Backend.Regalloc

/-!
# Argument passing: the emitters against the live ranges

An emitter queues the temps that argument instructions name and reads them at the call. The
allocator has a queue of its own, with its own opcodes and size, and only that one extends live
ranges. `argsSurvive_iff` says when every argument is still live at its call.
-/

namespace Skjegg.Backend

open Skjegg.Ir List

/-! ## The emitters' argument queues -/

/-- What an emitter does with argument instructions. `unhandled` opcodes are an error; a full queue
is one too, or drops the argument. -/
structure Emitter where
  queue : ArgQueue
  unhandled : List Op
  dieWhenFull : Bool
  deriving DecidableEq, Repr

/-- The emitter's read at position `call` of the temp that the argument instruction at `arg`
named. -/
structure ArgRead where
  (call arg : Nat)
  temp : Int
  deriving DecidableEq, Repr

structure EmitState where
  queue : List (Nat × Int)
  reads : List ArgRead
  deriving DecidableEq, Repr

def emitInsn (E : Emitter) (s : EmitState) (i : Insn × Nat) : Option EmitState :=
  if i.1.op ∈ E.unhandled then none
  else if E.queue.isArg i.1 && E.dieWhenFull && s.queue.length ≥ E.queue.maxArgs then none
  else some
    { queue := queueStep E.queue s.queue i
      reads := s.reads ++
        if E.queue.isCall i.1 then s.queue.map fun e => ⟨i.2, e.1, e.2⟩ else [] }

def emitRun (E : Emitter) (insns : List Insn) : Option EmitState :=
  insns.zipIdx.foldlM (emitInsn E) ⟨[], []⟩

def emit (E : Emitter) (insns : List Insn) : Option (List ArgRead) := (emitRun E insns).map EmitState.reads

/-- `cf_emit.c`. -/
def cfEmitter : Emitter where
  queue :=
    { argOps := [.arg, .farg, .arg64]
      callOps := [.call, .calli, .fcall, .fcalli, .tailcall, .tailcalli, .call2, .calli2, .call64, .calli64]
      maxArgs := 32 }
  unhandled := [.lea64, .adl64, .retvAgg, .callAgg, .calliAgg, .argMem, .argX8, .labaddr64, .ijmp64]
  dieWhenFull := true

def mipsEmitter : Emitter where
  queue :=
    { argOps := [.arg, .arg64, .farg]
      callOps := [.call, .calli, .call64, .calli64, .fcall, .fcalli, .tailcall, .tailcalli]
      maxArgs := 32 }
  unhandled := [.fsqrt, .fround, .divs64, .divu64, .mods64, .modu64, .lea64, .adl64, .retvAgg,
    .callAgg, .calliAgg, .argMem, .argX8, .retv2, .call2, .calli2, .labaddr64, .ijmp64]
  dieWhenFull := true

/-- `rv_select.c`. -/
def rvEmitter : Emitter where
  queue :=
    { argOps := [.arg, .arg64, .farg]
      callOps := [.call, .calli, .call2, .calli2, .callAgg, .calliAgg, .tailcall, .tailcalli,
        .fcall, .fcalli, .call64, .calli64]
      maxArgs := 32 }
  unhandled := [.lea64, .adl64, .argMem, .argX8, .labaddr64, .ijmp64]
  dieWhenFull := true

/-- `x86_emit.c`. -/
def x86Emitter : Emitter where
  queue :=
    { argOps := [.arg, .farg, .arg64]
      callOps := [.call, .calli, .fcall, .fcalli, .tailcall, .tailcalli, .call64, .calli64]
      maxArgs := 32 }
  unhandled := [.fsqrt, .fround, .divs64, .divu64, .mods64, .modu64, .vaStart, .retvAgg, .callAgg,
    .calliAgg, .argMem, .argX8, .addo, .subo, .mulo, .loc, .retv2, .call2, .calli2, .labaddr64,
    .ijmp64]
  dieWhenFull := true

def x86Selector : Emitter where
  queue :=
    { argOps := [.arg, .farg, .arg64, .argMem]
      callOps := [.call, .fcall, .call64, .calli, .fcalli, .calli64, .call2, .calli2, .callAgg, .calliAgg]
      maxArgs := 32 }
  unhandled := [.alloca, .tailcall, .tailcalli, .capture, .resume, .contUnwind, .argX8]
  dieWhenFull := false

/-- `arm64_emit.c`. -/
def arm64Emitter : Emitter where
  queue :=
    { argOps := [.arg, .arg64, .farg]
      callOps := [.call, .calli, .tailcall, .tailcalli, .fcall, .fcalli, .call64, .calli64]
      maxArgs := 32 }
  unhandled := [.fsqrt, .fround, .divs64, .divu64, .mods64, .modu64, .vaStart, .retvAgg, .callAgg,
    .calliAgg, .argMem, .argX8, .addo, .subo, .mulo, .loc, .retv2, .call2, .calli2, .labaddr64,
    .ijmp64]
  dieWhenFull := true

/-- `arm64_select.c`, the `CC_PSABI` build.  `ARG_X8` sets the temp for `x8` and is not queued. -/
def arm64Selector : Emitter where
  queue :=
    { argOps := [.arg, .farg, .arg64, .argMem]
      callOps := [.call, .call64, .fcall, .calli, .call2, .calli2, .calli64, .fcalli, .callAgg, .calliAgg]
      maxArgs := 32 }
  unhandled := [.alloca, .tailcall, .tailcalli, .capture, .resume, .contUnwind]
  dieWhenFull := false

/-! ## What an emitter reads, by the instruction list alone -/

/-- The emitter handles every opcode of `l`, and no argument meets a full queue in one that rejects
it. -/
def Emits (E : Emitter) (l : List Insn) : Prop :=
  (∀ i ∈ l, i.op ∉ E.unhandled) ∧ (E.dieWhenFull = true → ∀ p i, l[p]? = some i → E.queue.isArg i = true →
      argsSinceCall E.queue (l.take p) < E.queue.maxArgs)

def ReadAt (Q : ArgQueue) (l : List Insn) (p c : Nat) (t : Int) : Prop :=
  Queued Q l p c t ∧ ∃ i, l[c]? = some i ∧ Q.isCall i = true

variable {l : List Insn} {i : Insn} {c p t : Nat} {E : Emitter} {T : Target} {fn : Func}

theorem readAt_append_iff {Q : ArgQueue} {t : Int} : ReadAt Q (l ++ [i]) p c t ↔
      ReadAt Q l p c t ∨ (c = l.length ∧ Q.isCall i = true ∧ (p, t) ∈ argQueue Q l) := by
  unfold ReadAt
  rcases lt_trichotomy c l.length with hc | rfl | hc
  · simp [getElem?_append_left hc, queued_append_left i hc.le, hc.ne]
  · simp [queued_append_left, mem_argQueue, and_comm]
  · have hno : (l ++ [i])[c]? = none := getElem?_eq_none (by simp; omega)
    have hno' : l[c]? = none := getElem?_eq_none hc.le
    simp [hno, hno', hc.ne']

theorem emits_append_iff :
    Emits E (l ++ [i]) ↔ Emits E l ∧ i.op ∉ E.unhandled ∧ (E.dieWhenFull = true → E.queue.isArg i = true →
        argsSinceCall E.queue l < E.queue.maxArgs) := by
  have hls : (∀ p j, (l ++ [i])[p]? = some j → E.queue.isArg j = true →
        argsSinceCall E.queue ((l ++ [i]).take p) < E.queue.maxArgs) ↔
      (∀ p j, l[p]? = some j → E.queue.isArg j = true →
        argsSinceCall E.queue (l.take p) < E.queue.maxArgs) ∧
      (E.queue.isArg i = true → argsSinceCall E.queue l < E.queue.maxArgs) := by
    constructor
    · intro h
      constructor
      · intro p j hj harg
        have hp : p < l.length := (List.getElem?_eq_some_iff.mp hj).1
        have := h p j (by rw [getElem?_append_left hp, hj]) harg
        rwa [take_append_of_le_length hp.le] at this
      · intro harg
        simpa using h l.length i (by simp) harg
    · rintro ⟨hold, hnew⟩ p j hj harg
      rcases lt_trichotomy p l.length with hp | rfl | hp
      · rw [getElem?_append_left hp] at hj
        rw [take_append_of_le_length hp.le]
        exact hold p j hj harg
      · rw [getElem?_concat_length, Option.some.injEq] at hj
        rw [take_left]
        exact hnew (hj ▸ harg)
      · rw [getElem?_eq_none (by simp; omega)] at hj
        cases hj
  unfold Emits
  rw [hls]
  simp only [mem_append, mem_singleton, or_imp, forall_and, forall_eq]
  tauto

theorem emitRun_append (E : Emitter) (l : List Insn) (i : Insn) :
    emitRun E (l ++ [i]) = (emitRun E l).bind fun s => emitInsn E s (i, l.length) := by
  simp [emitRun, zipIdx_append]

theorem emitInsn_eq_some_iff {s s' : EmitState} {i : Insn × Nat} :
    emitInsn E s i = some s' ↔ i.1.op ∉ E.unhandled ∧
      (E.dieWhenFull = true → E.queue.isArg i.1 = true → s.queue.length < E.queue.maxArgs) ∧
      s' = ⟨queueStep E.queue s.queue i, s.reads ++
        if E.queue.isCall i.1 then s.queue.map fun e => ⟨i.2, e.1, e.2⟩ else []⟩ := by
  unfold emitInsn
  split
  · rename_i h
    simp [h]
  rename_i h
  split
  · rename_i hfu
    simp only [Bool.and_eq_true, decide_eq_true_eq] at hfu
    simp only [reduceCtorEq, false_iff, not_and]
    intro _ hrm
    exact absurd (hrm hfu.1.2 hfu.1.1) (not_lt.mpr hfu.2)
  · rename_i hrm
    simp only [Bool.and_eq_true, decide_eq_true_eq, not_and, not_le] at hrm
    simp only [h, not_false_eq_true, true_and, Option.some.injEq]
    constructor
    · exact fun heq => ⟨fun hdie harg => hrm ⟨harg, hdie⟩, heq.symm⟩
    · exact fun heq => heq.2.symm

theorem emitRun_spec {s : EmitState} (h : emitRun E l = some s) :
    s.queue = argQueue E.queue l ∧ ∀ p c t, ⟨c, p, t⟩ ∈ s.reads ↔ ReadAt E.queue l p c t := by
  induction l using reverseRecOn generalizing s with
  | nil =>
    cases h
    simp [argQueue, ReadAt]
  | append_singleton l i ih =>
    rw [emitRun_append] at h
    obtain ⟨s0, hs0, hst⟩ := Option.bind_eq_some_iff.mp h
    obtain ⟨hqueue, hrds⟩ := ih hs0
    obtain ⟨-, -, rfl⟩ := emitInsn_eq_some_iff.mp hst
    refine ⟨by rw [argQueue_append, hqueue], fun p c t => ?_⟩
    rw [mem_append, hrds, readAt_append_iff, hqueue]
    refine or_congr_right ?_
    split
    · rename_i hca
      simp only [mem_map, Prod.exists, ArgRead.mk.injEq, hca, true_and]
      constructor
      · rintro ⟨p', t', hmem, rfl, rfl, rfl⟩
        exact ⟨rfl, hmem⟩
      · rintro ⟨rfl, hmem⟩
        exact ⟨p, t, hmem, rfl, rfl, rfl⟩
    · rename_i hca
      simp [hca]

theorem emitRun_isSome_iff : (∃ s, emitRun E l = some s) ↔ Emits E l := by
  induction l using reverseRecOn with
  | nil => simp [emitRun, Emits]
  | append_singleton l i ih =>
    rw [emits_append_iff, ← ih, emitRun_append]
    constructor
    · rintro ⟨s', h⟩
      obtain ⟨s, hs, hst⟩ := Option.bind_eq_some_iff.mp h
      obtain ⟨hop, hrm, -⟩ := emitInsn_eq_some_iff.mp hst
      rw [(emitRun_spec hs).1, argQueue_length_lt] at hrm
      exact ⟨⟨s, hs⟩, hop, hrm⟩
    · rintro ⟨⟨s, hs⟩, hop, hrm⟩
      rw [← argQueue_length_lt, ← (emitRun_spec hs).1] at hrm
      exact ⟨_, Option.bind_eq_some_iff.mpr ⟨s, hs, emitInsn_eq_some_iff.mpr ⟨hop, hrm, rfl⟩⟩⟩

/-! ## The backends -/

inductive Target where
  | cf
  | rv
  | mips (softfloat : Bool)
  | x86Emit
  | x86Select
  | arm64Emit
  | arm64Select
  deriving DecidableEq, Repr

def Target.emitter : Target → Emitter
  | .cf => cfEmitter
  | .rv => rvEmitter
  | .mips _ => mipsEmitter
  | .x86Emit => x86Emitter
  | .x86Select => x86Selector
  | .arm64Emit => arm64Emitter
  | .arm64Select => arm64Selector

def Target.allocator : Target → PairTarget ⊕ MergedTarget
  | .cf => .inl cfTarget
  | .rv => .inl rvTarget
  | .mips softfloat => .inl (mipsTarget softfloat)
  | .x86Emit | .x86Select => .inr x86Target
  | .arm64Emit => .inr (arm64Target false)
  | .arm64Select => .inr (arm64Target true)

section

variable (T) (fn)

def Target.scanQueue : ArgQueue := T.allocator.elim PairTarget.queue MergedTarget.queue

def Target.classify : Insn → DefClass :=
  T.allocator.elim PairTarget.classify fun _ => mergedClassify

def Target.liveRanges : LiveState :=
  liveScan T.scanQueue T.classify fn.ntemps fn.insns

def Target.regalloc (qsort : List Interval → List Interval) (pinned : List Int) (fn : Func) : Option Regs :=
  match T.allocator with
  | .inl K => pairRegalloc K qsort pinned fn
  | .inr K => mergedRegalloc K qsort pinned fn

def Target.physRegs (al : Alloc) (t : Nat) : List PhysReg :=
  match T.allocator with
  | .inl K => K.physRegs (T.liveRanges fn) al t
  | .inr _ => MergedTarget.physRegs (T.liveRanges fn) al t

end

theorem Target.regalloc_disjoint {qsort : List Interval → List Interval}
    {pinned : List Int} {res : Regs} (hqs : IsQsort sortByStart qsort)
    (hrun : T.regalloc qsort pinned fn = some res) {u : Nat}
    (ht : (T.liveRanges fn).Defined fn.ntemps t) (hu : (T.liveRanges fn).Defined fn.ntemps u)
    (hne : t ≠ u) (hmt : (T.liveRanges fn).Meets t u) :
    (T.physRegs fn res.al t).Disjoint (T.physRegs fn res.al u) := by
  unfold Target.liveRanges Target.scanQueue Target.classify at *
  unfold Target.regalloc at hrun
  unfold Target.physRegs Target.liveRanges Target.scanQueue Target.classify
  cases hal : T.allocator with
  | inl K =>
    rw [hal] at hrun ht hu hmt
    exact pairRegalloc_disjoint hqs hrun ht hu hne hmt
  | inr K =>
    rw [hal] at hrun ht hu hmt
    exact mergedRegalloc_disjoint hqs hrun ht hu hne hmt

/-! ## Arguments survive until they are read -/

def argOpcodes : List Op := [.arg, .farg, .arg64]

section

variable (T) (fn)

def Target.ReadsArg (p c t : Nat) : Prop :=
  ∃ reads, emit T.emitter fn.insns = some reads ∧ ⟨c, p, t⟩ ∈ reads ∧ t < fn.ntemps ∧
    ∃ i, fn.insns[p]? = some i ∧ i.op ∈ argOpcodes

/-- Every argument is live up to the call that reads it, and a temp defined in between has registers
of its own. -/
structure Target.ArgsSurvive : Prop where
  reachesCall : ∀ p c t, T.ReadsArg fn p c t → (c : Int) ≤ (T.liveRanges fn).lastUse t
  notClobbered : ∀ p c t, T.ReadsArg fn p c t → ∀ q (u : Nat) i, p < q → q < c →
    fn.insns[q]? = some i → (u : Int) ∈ defines i → u < fn.ntemps → u ≠ t →
    ∀ qsort pinned res, IsQsort sortByStart qsort → T.regalloc qsort pinned fn = some res →
      (T.physRegs fn res.al t).Disjoint (T.physRegs fn res.al u)

/-- What the emitter reads at a call was defined, in the order of the instructions, no later than the
argument instruction that names it. A temp defined only further on, behind a jump back, has a range that
starts there. -/
def Target.ArgsDefined : Prop :=
  Emits T.emitter fn.insns → ∀ p c t, t < fn.ntemps → (∃ i, fn.insns[p]? = some i ∧ i.op ∈ argOpcodes) →
    ReadAt T.emitter.queue fn.insns p c t → ∃ d i, d ≤ p ∧ fn.insns[d]? = some i ∧ (t : Int) ∈ defines i

/-- What the emitter reads at a call `c`, some instruction at or after `c` names, or a call of the
allocator's list at which the argument is still in the allocator's queue. -/
def Target.ArgsKept : Prop :=
  Emits T.emitter fn.insns → ∀ p c t, t < fn.ntemps → (∃ i, fn.insns[p]? = some i ∧ i.op ∈ argOpcodes) →
    ReadAt T.emitter.queue fn.insns p c t → ∃ q ≥ c, KeepsAlive T.scanQueue fn.insns q t

end

theorem Target.readsArg_iff :
    T.ReadsArg fn p c t ↔ Emits T.emitter fn.insns ∧ ReadAt T.emitter.queue fn.insns p c t ∧
      t < fn.ntemps ∧ ∃ i, fn.insns[p]? = some i ∧ i.op ∈ argOpcodes := by
  unfold Target.ReadsArg emit
  rw [← emitRun_isSome_iff]
  constructor
  · rintro ⟨reads, hemit, hmem, ht, hop⟩
    obtain ⟨s, hs, rfl⟩ := Option.map_eq_some_iff.mp hemit
    exact ⟨⟨s, hs⟩, ((emitRun_spec hs).2 p c t).mp hmem, ht, hop⟩
  · rintro ⟨⟨s, hs⟩, hrd, ht, hop⟩
    exact ⟨s.reads, by rw [hs]; rfl, ((emitRun_spec hs).2 p c t).mpr hrd, ht, hop⟩

theorem Target.meets_of_reachesCall {q d u : Nat} {j : Insn}
    (ht : t < fn.ntemps) (hu : u < fn.ntemps) (hd : fn.insns[d]? = some i)
    (hdt : (t : Int) ∈ defines i) (hdp : d ≤ p) (hpq : p < q) (hqc : q < c)
    (hq : fn.insns[q]? = some j) (hqu : (u : Int) ∈ defines j)
    (hrch : (c : Int) ≤ (T.liveRanges fn).lastUse t) :
    (T.liveRanges fn).Defined fn.ntemps t ∧ (T.liveRanges fn).Defined fn.ntemps u ∧
      (T.liveRanges fn).Meets t u := by
  obtain ⟨htpos, htle⟩ : 0 ≤ (T.liveRanges fn).firstDef t ∧ (T.liveRanges fn).firstDef t ≤ d :=
    firstDef_liveScan_le ht hd hdt
  obtain ⟨hupos, hule⟩ : 0 ≤ (T.liveRanges fn).firstDef u ∧ (T.liveRanges fn).firstDef u ≤ q :=
    firstDef_liveScan_le hu hq hqu
  have huse : (q : Int) ≤ (T.liveRanges fn).lastUse u :=
    (le_lastUse_liveScan _ hu q).mpr ⟨q, le_rfl, j, hq, Or.inl (defines_subset_mentions hqu)⟩
  refine ⟨⟨ht, htpos⟩, ⟨hu, hupos⟩, ?_⟩
  simp only [LiveState.Meets, liveInterval, Interval.Meets]
  omega

theorem Target.reachesCall_iff :
    (∀ p c t, T.ReadsArg fn p c t → (c : Int) ≤ (T.liveRanges fn).lastUse t) ↔ T.ArgsKept fn := by
  simp only [Target.readsArg_iff, Target.ArgsKept, Target.liveRanges]
  constructor
  · intro h hem p c t ht hop hrd
    exact (le_lastUse_liveScan _ ht c).mp (h p c t ⟨hem, hrd, ht, hop⟩)
  · rintro h p c t ⟨hem, hrd, ht, hop⟩
    exact (le_lastUse_liveScan _ ht c).mpr (h hem p c t ht hop hrd)

theorem Target.ArgsKept.argsSurvive (h : T.ArgsKept fn) (hdef : T.ArgsDefined fn) :
    T.ArgsSurvive fn := by
  have hrch := Target.reachesCall_iff.mpr h
  refine ⟨hrch, ?_⟩
  intro p c t hrd q u j hpq hqc hq hqu hu hne qsort pinned res hqs hrun
  obtain ⟨hem, hat, ht, hop⟩ := Target.readsArg_iff.mp hrd
  obtain ⟨d, i, hdp, hd, hdt⟩ := hdef hem p c t ht hop hat
  obtain ⟨htdef, hudef, hmt⟩ :=
    T.meets_of_reachesCall ht hu hd hdt hdp hpq hqc hq hqu (hrch p c t hrd)
  exact T.regalloc_disjoint hqs hrun htdef hudef hne.symm hmt

/-- The arguments of a function that are defined before they are passed survive exactly when its
instructions keep them alive. -/
theorem argsSurvive_iff (T : Target) (fn : Func) (hdef : T.ArgsDefined fn) :
    T.ArgsSurvive fn ↔ T.ArgsKept fn :=
  ⟨fun h => Target.reachesCall_iff.mp h.reachesCall, fun h => h.argsSurvive hdef⟩

/-- `f(x)`, with the result of another instruction between the argument and the call. -/
def plainCall : Func where
  ntemps := 3
  insns :=
    [{ op := .lic, dst := 0 }, { op := .arg, a := 0 }, { op := .lic, dst := 1 },
      { op := .call, dst := 2 }, { op := .retv, a := 2 }]

theorem plainCall_argsSurvive : Target.cf.ArgsDefined plainCall ∧ Target.cf.ArgsSurvive plainCall := by
  have hrd : ∀ p c t, Target.cf.ReadsArg plainCall p c t → p = 1 ∧ c = 3 ∧ t = 0 := by
    rintro p c t ⟨reads, hemit, hmem, -⟩
    rw [show emit Target.cf.emitter plainCall.insns = some [⟨3, 1, 0⟩] by decide] at hemit
    cases hemit
    simpa [and_comm, and_assoc, and_left_comm] using hmem
  have hdef : Target.cf.ArgsDefined plainCall := by
    intro hem p c t ht hop hat
    obtain ⟨rfl, rfl, rfl⟩ := hrd p c t (Target.readsArg_iff.mpr ⟨hem, hat, ht, hop⟩)
    exact ⟨0, { op := .lic, dst := 0 }, by decide, rfl, by decide⟩
  refine ⟨hdef, (argsSurvive_iff .cf plainCall hdef).mpr (Target.reachesCall_iff.mp ?_)⟩
  intro p c t h
  obtain ⟨rfl, rfl, rfl⟩ := hrd p c t h
  decide

/-- `f(x)` through a function pointer to a failable routine: the pointer is loaded between the
argument and the `CALLI2`. -/
def failableCall : Func where
  ntemps := 3
  insns :=
    [{ op := .lic, dst := 0 }, { op := .arg, a := 0 }, { op := .lea, dst := 1 },
      { op := .calli2, dst := 2, a := 1 }, { op := .retv, a := 2 }]

/-- ColdFire reads the argument at the `CALLI2`, but its range ends at the `ARG`, and the pointer
gets the same register. -/
theorem failableCall_not_argsSurvive : ¬ Target.cf.ArgsSurvive failableCall ∧
      (Target.cf.regalloc insertionQsort [] failableCall).map (fun res =>
        (Target.cf.physRegs failableCall res.al 0, Target.cf.physRegs failableCall res.al 1)) =
      some ([.int 2], [.int 2]) := by
  constructor
  · intro h
    have hrd : Target.cf.ReadsArg failableCall 1 3 0 :=
      ⟨[⟨3, 1, 0⟩], by decide, by decide, by decide, { op := .arg, a := 0 }, by decide, by decide⟩
    exact absurd (h.reachesCall 1 3 0 hrd) (by decide)
  · decide

/-- Let every instruction write the registers of what it defines and no others. Between a definition
of `t` and a later mention, with no other definition, the registers of `t` keep their values. -/
theorem Target.temps_keep_values {V : Type} {qsort pinned res} (hqs : IsQsort sortByStart qsort)
    (hrun : T.regalloc qsort pinned fn = some res) (ht : t < fn.ntemps) {d m : Nat} {k}
    (hd : fn.insns[d]? = some i) (hdt : (t : Int) ∈ defines i) (hm : fn.insns[m]? = some k)
    (hmt : (t : Int) ∈ mentions k) (hdm : d < m) (σ : Nat → PhysReg → V)
    (hσ : ∀ q j, d < q → q < m → fn.insns[q]? = some j → (t : Int) ∉ defines j ∧ ∀ r,
      σ (q + 1) r ≠ σ q r → ∃ u < fn.ntemps, (u : Int) ∈ defines j ∧ r ∈ T.physRegs fn res.al u) :
    ∀ r ∈ T.physRegs fn res.al t, σ m r = σ (d + 1) r := by
  intro r hr
  have hlast : (m : Int) ≤ (T.liveRanges fn).lastUse t :=
    (le_lastUse_liveScan _ ht m).mpr ⟨m, le_rfl, k, hm, .inl hmt⟩
  obtain ⟨hlen, -⟩ := List.getElem?_eq_some_iff.mp hm
  -- no instruction before `q` wrote `r`
  suffices h : ∀ q, d + 1 ≤ q → q ≤ m → σ q r = σ (d + 1) r from h m hdm le_rfl
  intro q hq
  induction q, hq using Nat.le_induction with
  | base => exact fun _ => rfl
  | succ q hq ih =>
    intro hqm
    rw [← ih (by omega)]
    by_contra hne
    have hj := getElem?_eq_getElem (show q < fn.insns.length by omega)
    obtain ⟨hnt, hw⟩ := hσ q _ hq hqm hj
    obtain ⟨u, hu, hju, hru⟩ := hw _ hne
    obtain ⟨htd, hud, hmeet⟩ := T.meets_of_reachesCall ht hu hd hdt le_rfl hq hqm hj hju hlast
    exact T.regalloc_disjoint hqs hrun htd hud (fun e => hnt (e ▸ hju)) hmeet hr hru

def twoLoads : Func :=
  ⟨2, [{ op := .lic, dst := 0 }, { op := .lic, dst := 1 }, { op := .retv, a := 0 }]⟩

theorem twoLoads_keep_values : ∃ res, Target.cf.regalloc insertionQsort [] twoLoads = some res ∧
    ∀ r ∈ Target.cf.physRegs twoLoads res.al 0, r ∉ Target.cf.physRegs twoLoads res.al 1 := by
  obtain ⟨res, hrun⟩ := Option.isSome_iff_exists.mp
    (show (Target.cf.regalloc insertionQsort [] twoLoads).isSome by decide)
  refine ⟨res, hrun, fun r hr => ?_⟩
  have h := Target.temps_keep_values (t := 0) (d := 0) (m := 2) insertionQsort_isQsort hrun (by decide)
    rfl (by decide) rfl (by decide) (by decide)
    (fun q r => decide (q = 2 ∧ r ∈ Target.cf.physRegs twoLoads res.al 1)) ?_ r hr
  · simpa using h
  intro q j hq hqm hj
  obtain rfl : q = 1 := by omega
  cases hj
  exact ⟨by decide, fun r hne => ⟨1, by decide, by decide, by simpa using hne⟩⟩

end Skjegg.Backend
