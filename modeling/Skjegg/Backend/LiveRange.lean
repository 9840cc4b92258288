import Skjegg.Ir.Basic

/-!
# The live-range scan of `regalloc`

`regalloc` first records for every temp the position of its first definition and its last use. All
but the MIPS allocator keep a queue of pending arguments and extend their ranges at the next call;
the opcodes and the size of the queue are the parameter `ArgQueue`.
-/

namespace Skjegg.Backend

open Skjegg.Ir Function List

/-- The opcodes that add to a queue of pending arguments, those that empty it, and its size. -/
structure ArgQueue where
  (argOps callOps : List Op)
  maxArgs : Nat
  deriving DecidableEq, Repr

def ArgQueue.isArg (Q : ArgQueue) (i : Insn) : Bool := i.op ∈ Q.argOps

/-- A call is tested for after an argument (`else if`). -/
def ArgQueue.isCall (Q : ArgQueue) (i : Insn) : Bool := !Q.isArg i && i.op ∈ Q.callOps

inductive DefClass where
  | int | float | i64
  deriving DecidableEq, Repr

structure LiveState where
  (firstDef lastUse : Nat → Int)
  (isFloat isI64 : Nat → Bool)
  pending : List Int

variable (Q : ArgQueue) (ntemps pos : Nat) (s : LiveState)

def noteDef (t : Int) : LiveState :=
  if 0 ≤ t ∧ t < ntemps ∧ s.firstDef t.toNat < 0 then
    { s with firstDef := update s.firstDef t.toNat pos }
  else s

def noteUse (t : Int) : LiveState :=
  if 0 ≤ t ∧ t < ntemps ∧ s.lastUse t.toNat < pos then
    { s with lastUse := update s.lastUse t.toNat pos }
  else s

def noteClass (ntemps : Nat) (c : DefClass) (s : LiveState) (t : Int) : LiveState :=
  if 0 ≤ t ∧ t < ntemps then
    match c with
    | .int => s
    | .float => { s with isFloat := update s.isFloat t.toNat true }
    | .i64 => { s with isI64 := update s.isI64 t.toNat true }
  else s

/-- An `asm` operand: an output or in-out operand is a definition, and every operand is a use. -/
def noteAsmOp (o : AsmOp) : LiveState :=
  noteUse ntemps pos (if o.isDef then noteDef ntemps pos s o.temp else s) o.temp

def notePending (i : Insn) : LiveState :=
  if Q.isArg i then
    if s.pending.length < Q.maxArgs then { s with pending := s.pending ++ [i.a] } else s
  else if Q.isCall i then { s.pending.foldl (noteUse ntemps pos) s with pending := [] }
  else s

def scanInsn (classify : Insn → DefClass) (ntemps : Nat) (s : LiveState) (i : Insn × Nat) : LiveState :=
  let s := noteClass ntemps (classify i.1)
    (noteUse ntemps i.2 (noteDef ntemps i.2 s i.1.dst) i.1.dst) i.1.dst
  let s := noteUse ntemps i.2 (noteUse ntemps i.2 s i.1.a) i.1.b
  let s := i.1.asmOps.foldl (noteAsmOp ntemps i.2) s
  notePending Q ntemps i.2 s i.1

def liveInit : LiveState :=
  { firstDef := fun _ => -1, lastUse := fun _ => -1, isFloat := fun _ => false,
    isI64 := fun _ => false, pending := [] }

def liveScan (classify : Insn → DefClass) (ntemps : Nat) (insns : List Insn) : LiveState :=
  insns.zipIdx.foldl (scanInsn Q classify ntemps) liveInit

theorem liveScan_append (classify : Insn → DefClass) (ntemps : Nat)
    (l : List Insn) (i : Insn) : liveScan Q classify ntemps (l ++ [i]) =
      scanInsn Q classify ntemps (liveScan Q classify ntemps l) (i, l.length) := by
  simp [liveScan, zipIdx_append]

/-! ## The queue of pending arguments, read off the instruction list -/

def argsSinceCall (l : List Insn) : Nat :=
  (l.reverse.takeWhile fun i => !Q.isCall i).countP Q.isArg

/-- The argument instruction at `p` names `t` and is still in the queue at position `q`. -/
def Queued (l : List Insn) (p q : Nat) (t : Int) : Prop :=
  p < q ∧ (∃ i, l[p]? = some i ∧ Q.isArg i = true ∧ i.a = t) ∧ argsSinceCall Q (l.take p) < Q.maxArgs ∧
    ∀ m, p < m → m < q → ∀ i, l[m]? = some i → Q.isCall i = false

def queueStep (queue : List (Nat × Int)) (i : Insn × Nat) : List (Nat × Int) :=
  if Q.isArg i.1 then if queue.length < Q.maxArgs then queue ++ [(i.2, i.1.a)] else queue
  else if Q.isCall i.1 then [] else queue

def argQueue (l : List Insn) : List (Nat × Int) := l.zipIdx.foldl (queueStep Q) []

theorem argQueue_append (l : List Insn) (i : Insn) :
    argQueue Q (l ++ [i]) = queueStep Q (argQueue Q l) (i, l.length) := by
  simp [argQueue, zipIdx_append]

variable {i : Insn} {l : List Insn} {p q t : Nat} {Q}

theorem ArgQueue.isCall_of_isArg (h : Q.isArg i = true) : Q.isCall i = false := by
  simp [ArgQueue.isCall, h]

theorem argsSinceCall_append (Q : ArgQueue) (l : List Insn) (i : Insn) : argsSinceCall Q (l ++ [i]) =
      if Q.isArg i then argsSinceCall Q l + 1 else if Q.isCall i then 0 else argsSinceCall Q l := by
  simp only [argsSinceCall, reverse_append, reverse_singleton, singleton_append, takeWhile_cons]
  by_cases harg : Q.isArg i = true
  · simp [harg, ArgQueue.isCall_of_isArg harg]
  · by_cases hca : Q.isCall i = true <;> simp [harg, hca]

theorem argQueue_length (Q : ArgQueue) (l : List Insn) :
    (argQueue Q l).length = min (argsSinceCall Q l) Q.maxArgs := by
  induction l using reverseRecOn with
  | nil => simp [argQueue, argsSinceCall]
  | append_singleton l i ih =>
    rw [argQueue_append, argsSinceCall_append, queueStep]
    split
    · split
      · rw [length_append, length_singleton]
        omega
      · omega
    · split
      · simp
      · exact ih

theorem argQueue_length_lt (Q : ArgQueue) (l : List Insn) :
    (argQueue Q l).length < Q.maxArgs ↔ argsSinceCall Q l < Q.maxArgs := by
  rw [argQueue_length]
  omega

theorem queued_append_left (i : Insn) {t : Int}
    (hq : q ≤ l.length) : Queued Q (l ++ [i]) p q t ↔ Queued Q l p q t := by
  refine and_congr_right fun hpq => ?_
  rw [getElem?_append_left (hpq.trans_le hq), take_append_of_le_length (hpq.trans_le hq).le]
  refine and_congr_right fun _ => and_congr_right fun _ => ?_
  refine forall_congr' fun m => forall_congr' fun _ => forall_congr' fun hmq => ?_
  rw [getElem?_append_left (hmq.trans_le hq)]

theorem queued_succ_iff {t : Int} (hq : l[q]? = some i) (hp : p < q) :
    Queued Q l p (q + 1) t ↔ Queued Q l p q t ∧ Q.isCall i = false := by
  constructor
  · rintro ⟨-, harg, hrm, hno⟩
    exact ⟨⟨hp, harg, hrm, fun m hpm hm => hno m hpm (by omega)⟩, hno q hp (by omega) i hq⟩
  rintro ⟨⟨-, harg, hrm, hno⟩, hi⟩
  refine ⟨by omega, harg, hrm, fun m hpm hm j hj => ?_⟩
  rcases Nat.lt_succ_iff_lt_or_eq.mp hm with hm | rfl
  · exact hno m hpm hm j hj
  · cases hq.symm.trans hj
    exact hi

theorem queued_concat_length {t : Int} : Queued Q (l ++ [i]) l.length (l.length + 1) t ↔
      Q.isArg i = true ∧ i.a = t ∧ argsSinceCall Q l < Q.maxArgs := by
  simp only [Queued, getElem?_concat_length, take_left]
  constructor
  · rintro ⟨-, ⟨j, hj, harg, ht⟩, hrm, -⟩
    cases hj
    exact ⟨harg, ht, hrm⟩
  · rintro ⟨harg, ht, hrm⟩
    exact ⟨by omega, ⟨i, rfl, harg, ht⟩, hrm, fun m _ _ => by omega⟩

theorem mem_argQueue {t : Int} : (p, t) ∈ argQueue Q l ↔ Queued Q l p l.length t := by
  induction l using reverseRecOn with
  | nil => simp [argQueue, Queued]
  | append_singleton l i ih =>
    have hst : (p, t) ∈ argQueue Q (l ++ [i]) ↔ ((p, t) ∈ argQueue Q l ∧ Q.isCall i = false) ∨
          (p = l.length ∧ Q.isArg i = true ∧ i.a = t ∧ argsSinceCall Q l < Q.maxArgs) := by
      rw [argQueue_append, queueStep, ← argQueue_length_lt]
      by_cases harg : Q.isArg i = true
      · by_cases hrm : (argQueue Q l).length < Q.maxArgs <;>
          simp [harg, hrm, ArgQueue.isCall_of_isArg harg, eq_comm]
      · by_cases hca : Q.isCall i = true <;> simp [harg, hca]
    rw [hst, ih, length_append, length_singleton]
    rcases lt_trichotomy p l.length with hp | rfl | hp
    · rw [queued_succ_iff (getElem?_concat_length) hp, queued_append_left i le_rfl]
      simp [hp.ne]
    · rw [queued_concat_length]
      simp only [true_and, or_iff_right_iff_imp]
      rintro ⟨hq, -⟩
      exact absurd hq.1 (lt_irrefl _)
    constructor
    · rintro (⟨hq, -⟩ | ⟨rfl, -⟩)
      · exact absurd hq.1 hp.not_gt
      · exact absurd hp (lt_irrefl _)
    · intro hq
      exact absurd hq.1 (by omega)

/-! ## What the scan records -/

def mentions (i : Insn) : List Int := i.dst :: i.a :: i.b :: i.asmOps.map AsmOp.temp

def defines (i : Insn) : List Int := i.dst :: (i.asmOps.filter AsmOp.isDef).map AsmOp.temp

theorem defines_subset_mentions {t : Int} (h : t ∈ defines i) : t ∈ mentions i := by
  rcases mem_cons.mp h with rfl | hasm
  · exact mem_cons_self
  · obtain ⟨o, ho, rfl⟩ := mem_map.mp hasm
    exact mem_cons_of_mem _ (mem_cons_of_mem _ (mem_cons_of_mem _ (mem_map_of_mem (mem_of_mem_filter ho))))

section Notes

variable {ntemps pos : Nat} {s : LiveState} (u : Int)

theorem noteUse_lastUse (ht : t < ntemps) : (noteUse ntemps pos s u).lastUse t =
      if (t : Int) = u then max (s.lastUse t) pos else s.lastUse t := by
  unfold noteUse
  by_cases hut : (t : Int) = u
  · subst hut
    by_cases hlt : s.lastUse t < pos
    · rw [if_pos ⟨by omega, by omega, by simpa using hlt⟩]
      simp only [Int.toNat_natCast, update_self, if_true]
      omega
    · rw [if_neg fun h => hlt (by simpa using h.2.2), if_pos rfl]
      omega
  · split
    · exact update_of_ne (by omega) _ _
    · rfl

@[simp] theorem noteUse_frame :
    (noteUse ntemps pos s u).firstDef = s.firstDef ∧ (noteUse ntemps pos s u).pending = s.pending := by
  unfold noteUse
  split <;> exact ⟨rfl, rfl⟩

@[simp] theorem noteDef_frame :
    (noteDef ntemps pos s u).lastUse = s.lastUse ∧ (noteDef ntemps pos s u).pending = s.pending := by
  unfold noteDef
  split <;> exact ⟨rfl, rfl⟩

@[simp] theorem noteClass_frame (c : DefClass) (u : Int) :
    (noteClass ntemps c s u).lastUse = s.lastUse ∧ (noteClass ntemps c s u).firstDef = s.firstDef ∧
      (noteClass ntemps c s u).pending = s.pending := by
  unfold noteClass
  split
  · cases c <;> exact ⟨rfl, rfl, rfl⟩
  · exact ⟨rfl, rfl, rfl⟩

theorem noteDef_firstDef (ht : t < ntemps) : (noteDef ntemps pos s u).firstDef t =
      if (t : Int) = u ∧ s.firstDef t < 0 then (pos : Int) else s.firstDef t := by
  unfold noteDef
  by_cases hut : (t : Int) = u
  · subst hut
    by_cases hneg : s.firstDef t < 0
    · rw [if_pos ⟨by omega, by omega, by simpa using hneg⟩, if_pos ⟨rfl, hneg⟩]
      simp
    · rw [if_neg fun h => hneg (by simpa using h.2.2), if_neg fun h => hneg h.2]
  · simp only [hut, false_and, if_false]
    split
    · exact update_of_ne (by omega) _ _
    · rfl

theorem foldl_lastUse {β : Type} {f : LiveState → β → LiveState} {temp : β → Int} (us : List β)
    (hf : ∀ s u, (f s u).lastUse t = if (t : Int) = temp u then max (s.lastUse t) pos else s.lastUse t) :
    (us.foldl f s).lastUse t =
      if (t : Int) ∈ us.map temp then max (s.lastUse t) pos else s.lastUse t := by
  induction us generalizing s with
  | nil => simp
  | cons u us ih =>
    rw [foldl_cons, ih, hf]
    simp only [map_cons, mem_cons]
    by_cases hut : (t : Int) = temp u
    · by_cases hmem : (t : Int) ∈ us.map temp <;> simp only [← hut, hmem] <;> simp
    · simp only [hut, if_false, false_or]

theorem foldl_noteUse_lastUse (us : List Int) (ht : t < ntemps) :
    (us.foldl (noteUse ntemps pos) s).lastUse t =
      if (t : Int) ∈ us then max (s.lastUse t) pos else s.lastUse t := by
  rw [foldl_lastUse us fun s u => noteUse_lastUse u ht, map_id']

variable (os : List AsmOp)

theorem foldl_noteAsmOp_lastUse (ht : t < ntemps) : (os.foldl (noteAsmOp ntemps pos) s).lastUse t =
      if (t : Int) ∈ os.map AsmOp.temp then max (s.lastUse t) pos else s.lastUse t := by
  refine foldl_lastUse os fun s o => ?_
  rw [noteAsmOp, noteUse_lastUse _ ht]
  split_ifs <;> simp

theorem foldl_noteAsmOp_pending : (os.foldl (noteAsmOp ntemps pos) s).pending = s.pending := by
  induction os generalizing s with
  | nil => rfl
  | cons o os ih =>
    rw [foldl_cons, ih, noteAsmOp, (noteUse_frame _).2]
    split <;> simp

theorem foldl_noteAsmOp_firstDef (ht : t < ntemps) : (os.foldl (noteAsmOp ntemps pos) s).firstDef t =
      if (t : Int) ∈ (os.filter AsmOp.isDef).map AsmOp.temp ∧
        s.firstDef t < 0 then (pos : Int) else s.firstDef t := by
  induction os generalizing s with
  | nil => simp
  | cons o os ih =>
    have hone : (noteAsmOp ntemps pos s o).firstDef t =
        if o.isDef = true ∧ (t : Int) = o.temp ∧ s.firstDef t < 0 then (pos : Int)
        else s.firstDef t := by
      rw [noteAsmOp, (noteUse_frame _).1]
      split
      · rename_i hout
        simp [noteDef_firstDef _ ht, hout]
      · rename_i hout
        simp [hout]
    have hmem : (t : Int) ∈ ((o :: os).filter AsmOp.isDef).map AsmOp.temp ↔
        (o.isDef = true ∧ (t : Int) = o.temp) ∨ (t : Int) ∈ (os.filter AsmOp.isDef).map AsmOp.temp := by
      rw [filter_cons]
      split <;> simp_all only [map_cons, mem_cons, true_and, false_and, false_or, Bool.false_eq_true]
    rw [foldl_cons, ih, hone]
    split_ifs <;> first | rfl | tauto

theorem foldl_noteUse_firstDef (us : List Int) :
    (us.foldl (noteUse ntemps pos) s).firstDef = s.firstDef := by
  induction us generalizing s with
  | nil => rfl
  | cons u us ih => rw [foldl_cons, ih, (noteUse_frame u).1]

end Notes

variable {Q : ArgQueue} {classify : Insn → DefClass} {ntemps : Nat} {s : LiveState}

theorem notePending_lastUse (Q : ArgQueue) {pos : Nat} (i : Insn) (ht : t < ntemps) :
    (notePending Q ntemps pos s i).lastUse t =
      if Q.isCall i = true ∧ (t : Int) ∈ s.pending then max (s.lastUse t) pos
      else s.lastUse t := by
  unfold notePending
  by_cases harg : Q.isArg i = true
  · simp only [harg, if_true, ArgQueue.isCall_of_isArg harg, Bool.false_eq_true, false_and, if_false]
    split <;> rfl
  rw [if_neg harg]
  by_cases hca : Q.isCall i = true
  · rw [if_pos hca]
    simp [foldl_noteUse_lastUse _ ht, hca]
  · rw [if_neg hca, if_neg fun h => hca h.1]

theorem scanInsn_lastUse (i : Insn) (pos : Nat) (ht : t < ntemps) :
    (scanInsn Q classify ntemps s (i, pos)).lastUse t =
      if (t : Int) ∈ mentions i ∨ (Q.isCall i = true ∧ (t : Int) ∈ s.pending) then
        max (s.lastUse t) pos else s.lastUse t := by
  simp only [scanInsn, notePending_lastUse Q i ht, foldl_noteAsmOp_lastUse _ ht,
    foldl_noteAsmOp_pending, noteUse_lastUse _ ht, noteUse_frame, noteDef_frame, noteClass_frame,
    mentions, mem_cons]
  split_ifs <;> first | rfl | omega | tauto

theorem scanInsn_pending (i : Insn) (pos : Nat) {queue : List (Nat × Int)}
    (hs : s.pending = queue.map Prod.snd) :
    (scanInsn Q classify ntemps s (i, pos)).pending = (queueStep Q queue (i, pos)).map Prod.snd := by
  have hlen : s.pending.length = queue.length := by rw [hs, length_map]
  simp only [scanInsn, notePending, queueStep, foldl_noteAsmOp_pending, noteUse_frame,
    noteClass_frame, noteDef_frame, hlen]
  split
  · split
    · simp [hs]
    · simp [foldl_noteAsmOp_pending, hs]
  · split
    · rfl
    · simp [foldl_noteAsmOp_pending, hs]

theorem liveScan_pending (l : List Insn) :
    (liveScan Q classify ntemps l).pending = (argQueue Q l).map Prod.snd := by
  induction l using reverseRecOn with
  | nil => rfl
  | append_singleton l i ih => rw [liveScan_append, argQueue_append, scanInsn_pending i _ ih]

def KeepsAlive (Q : ArgQueue) (l : List Insn) (q : Nat) (t : Int) : Prop :=
  ∃ i, l[q]? = some i ∧ (t ∈ mentions i ∨ (Q.isCall i = true ∧ ∃ p, Queued Q l p q t))

theorem keepsAlive_append_iff {t : Int} :
    KeepsAlive Q (l ++ [i]) q t ↔ KeepsAlive Q l q t ∨ (q = l.length ∧ (t ∈ mentions i ∨
        (Q.isCall i = true ∧ t ∈ (argQueue Q l).map Prod.snd))) := by
  unfold KeepsAlive
  rcases lt_trichotomy q l.length with hq | rfl | hq
  · rw [getElem?_append_left hq]
    simp [hq.ne, queued_append_left i hq.le]
  · simp [queued_append_left, mem_argQueue]
  · have hnone : (l ++ [i])[q]? = none := getElem?_eq_none (by simp; omega)
    have hnone' : l[q]? = none := getElem?_eq_none hq.le
    simp [hnone, hnone', hq.ne']

/-- `last_use[t]` reaches position `c` exactly when some instruction at or after `c` keeps `t`
alive. -/
theorem le_lastUse_liveScan (l : List Insn) (ht : t < ntemps) (c : Nat) :
    (c : Int) ≤ (liveScan Q classify ntemps l).lastUse t ↔ ∃ q ≥ c, KeepsAlive Q l q t := by
  induction l using reverseRecOn with
  | nil => simp [liveScan, liveInit, KeepsAlive]; omega
  | append_singleton l i ih =>
    rw [liveScan_append, scanInsn_lastUse i _ ht, liveScan_pending]
    have hspl : (∃ q ≥ c, KeepsAlive Q (l ++ [i]) q t) ↔
        (∃ q ≥ c, KeepsAlive Q l q t) ∨ (c ≤ l.length ∧ ((t : Int) ∈ mentions i ∨
          (Q.isCall i = true ∧ (t : Int) ∈ (argQueue Q l).map Prod.snd))) := by
      constructor
      · rintro ⟨q, hq, h⟩
        rcases keepsAlive_append_iff.mp h with h | ⟨rfl, hnow⟩
        · exact .inl ⟨q, hq, h⟩
        · exact .inr ⟨hq, hnow⟩
      · rintro (⟨q, hq, h⟩ | ⟨hc, h⟩)
        · exact ⟨q, hq, keepsAlive_append_iff.mpr (.inl h)⟩
        · exact ⟨l.length, hc, keepsAlive_append_iff.mpr (.inr ⟨rfl, h⟩)⟩
    rw [hspl, ← ih]
    split
    · rename_i hnow
      simp only [hnow, and_true, le_max_iff, Int.ofNat_le]
    · rename_i hnow
      simp only [hnow, and_false, or_false]

theorem scanInsn_firstDef (i : Insn) (pos : Nat) (ht : t < ntemps) :
    (scanInsn Q classify ntemps s (i, pos)).firstDef t =
      if (t : Int) ∈ defines i ∧ s.firstDef t < 0 then (pos : Int) else s.firstDef t := by
  have hpend : ∀ s, (notePending Q ntemps pos s i).firstDef = s.firstDef := by
    intro s
    unfold notePending
    split
    · split <;> rfl
    · split
      · exact foldl_noteUse_firstDef _
      · rfl
  simp only [scanInsn, hpend, foldl_noteAsmOp_firstDef _ ht, noteUse_frame, noteClass_frame,
    noteDef_firstDef _ ht, defines, mem_cons]
  split_ifs <;> first | rfl | tauto

theorem firstDef_liveScan_lt (l : List Insn) (ht : t < ntemps) :
    (liveScan Q classify ntemps l).firstDef t < l.length := by
  induction l using reverseRecOn with
  | nil => simp [liveScan, liveInit]
  | append_singleton l i ih =>
    rw [liveScan_append, scanInsn_firstDef i _ ht, length_append, length_singleton]
    split <;> omega

theorem firstDef_liveScan_le {d : Nat} (ht : t < ntemps)
    (hd : l[d]? = some i) (hdef : (t : Int) ∈ defines i) :
    0 ≤ (liveScan Q classify ntemps l).firstDef t ∧ (liveScan Q classify ntemps l).firstDef t ≤ d := by
  induction l using reverseRecOn with
  | nil => simp at hd
  | append_singleton l j ih =>
    rw [liveScan_append, scanInsn_firstDef j _ ht]
    have hlt : (liveScan Q classify ntemps l).firstDef t < l.length := firstDef_liveScan_lt l ht
    rcases lt_trichotomy d l.length with hdl | rfl | hdl
    · rw [getElem?_append_left hdl] at hd
      obtain ⟨hnn, hle⟩ := ih hd
      rw [if_neg fun h => absurd h.2 hnn.not_gt]
      exact ⟨hnn, hle⟩
    · rw [getElem?_concat_length, Option.some.injEq] at hd
      subst hd
      simp only [hdef, true_and]
      split <;> omega
    · rw [getElem?_eq_none (by simp; omega)] at hd
      cases hd

end Skjegg.Backend
