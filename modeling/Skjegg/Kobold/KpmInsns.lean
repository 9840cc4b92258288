import Skjegg.Kobold.KpmLines

/-!
# Instructions through the text

What comes back of one instruction.  All the operands of a plain instruction do; of an extended `asm`
only the words the tokenizer's table has room for.
-/

namespace Skjegg.Kobold.Kpm

open Skjegg.Lib Skjegg.Libc List
open Skjegg.Ir (Op)

variable {B : Backend} {fn : Func} {insn : Insn}

/-! ## Plain instructions -/

theorem setOperandList_append (st : Operands) (ts us : List CStr) :
    setOperandList B fn st (ts ++ us) =
      match setOperandList B fn st ts with
      | .error e => .error e
      | .ok st => setOperandList B fn st us := by
  induction ts generalizing st with
  | nil => rfl
  | cons t ts ih =>
    rw [cons_append, setOperandList, setOperandList]
    cases setOperand B fn st t with
    | error e => rfl
    | ok st' => exact ih st'

theorem setOperandList_append_ok {st st' : Operands} {ts : List CStr}
    (h : setOperandList B fn st ts = .ok st') (us : List CStr) :
    setOperandList B fn st (ts ++ us) = setOperandList B fn st' us := by
  rw [setOperandList_append, h]

theorem setOperandList_single (st : Operands) (t : CStr) :
    setOperandList B fn st [t] = setOperand B fn st t := by
  rw [setOperandList]
  cases setOperand B fn st t <;> rfl

variable {n : Int} {c : UInt8} {cs : List CStr} {info : AsmInfo}

section Operand

variable {st : Operands} {key : String} {k : OperandKey} {v : Int} {val : CStr}

def KnownKey (key : String) (k : OperandKey) : Prop := operandKey (text key) = some k ∧ 61 ∉ text key

instance : Decidable (KnownKey key k) := inferInstanceAs (Decidable (_ ∧ _))

theorem setOperand_keyed (hkey : KnownKey key k) :
    setOperand B fn st (text key ++ 61 :: val) = setKey B fn st k val := by
  rw [setOperand, cutAt_append hkey.2]
  simp [hkey.1]

theorem isInt_of_tempOk {v : Int} (hn : IsInt n) (h : TempOk n v) : IsInt v := by
  unfold TempOk at h
  unfold IsInt at *
  omega

theorem setOperandList_printed (hkey : KnownKey key k) {p : Prop} [Decidable p] {st' : Operands}
    (hset : p → setKey B fn st k (decimal v) = .ok st') (hdef : ¬p → st' = st) :
    setOperandList B fn st (if p then [keyed key v] else []) = .ok st' := by
  split
  next hp => rw [setOperandList_single, keyed, setOperand_keyed hkey, hset hp]
  next hp =>
    rw [hdef hp]
    rfl

theorem setOperandList_index (hkey : KnownKey key k) (hn : IsInt n) (hv : TempOk n v) {st' : Operands}
    (hset : 0 ≤ v → ¬(v < -1 ∨ n ≤ v) → ¬(v < 0 ∨ n ≤ v) → longOf B (decimal v) = v →
      setKey B fn st k (decimal v) = .ok st') (hdef : v = -1 → st' = st) :
    setOperandList B fn st (if 0 ≤ v then [keyed key v] else []) = .ok st' := by
  refine setOperandList_printed hkey (fun hpos => ?_) fun hneg =>
    hdef (hv.resolve_right fun hin => hneg hin.1)
  have hlong : longOf B (decimal v) = v := longOf_decimal_nil (isInt_of_tempOk hn hv)
  unfold TempOk at hv
  exact hset hpos (by omega) (by omega) hlong

theorem setOperandList_sym (sym : Option CStr) (hno : st.insn.sym = none) :
    setOperandList B fn st (sym.toList.map fun s => text "sym" ++ 61 :: s) =
      .ok { st with insn := { st.insn with sym := sym } } := by
  cases sym with
  | none =>
    show Except.ok st = .ok { st with insn := { st.insn with sym := none } }
    rw [← hno]
  | some s =>
    show setOperandList B fn st [text "sym" ++ 61 :: s] = _
    rfl

end Operand

def plainPart (insn : Insn) : Insn :=
  { insn with vararg := 0, argalign := 0, asmInfo := none }

theorem setOperandList_insnWords (hfn : FuncOk fn) (h : InsnOk fn insn) :
    setOperandList B fn { insn := { op := insn.op } } (insnWords insn) =
      .ok ⟨plainPart insn, decide (0 ≤ insn.slot), decide (0 ≤ insn.label)⟩ := by
  -- the states between the operands, in the order they are printed
  let s0 : Operands := { insn := { op := insn.op } }
  let s1 : Operands := { s0 with insn := { s0.insn with dst := insn.dst } }
  let s2 : Operands := { s1 with insn := { s1.insn with a := insn.a } }
  let s3 : Operands := { s2 with insn := { s2.insn with b := insn.b } }
  let s4 : Operands := { s3 with insn := { s3.insn with imm := insn.imm } }
  let s5 : Operands := ⟨{ s4.insn with slot := insn.slot }, decide (0 ≤ insn.slot), false⟩
  let s6 : Operands := ⟨{ s5.insn with label := insn.label }, s5.seenSlot, decide (0 ≤ insn.label)⟩
  let s7 : Operands := { s6 with insn := { s6.insn with nargs := insn.nargs } }
  have htmp := hfn.temps.2
  have h1 : setOperandList B fn s0 (if 0 ≤ insn.dst then [keyed "dst" insn.dst] else []) = .ok s1 := by
    refine setOperandList_index (k := .dst) (by decide) htmp h.safe.dst (fun _ hin _ hlong => ?_) ?_
    · rw [setKey, hlong, if_neg hin]
    · intro hv
      simp only [s1, hv]
      rfl
  have h2 : setOperandList B fn s1 (if 0 ≤ insn.a then [keyed "a" insn.a] else []) = .ok s2 := by
    refine setOperandList_index (k := .a) (by decide) htmp h.safe.a (fun _ hin _ hlong => ?_) ?_
    · rw [setKey, hlong, if_neg hin]
    · intro hv
      simp only [s2, hv]
      rfl
  have h3 : setOperandList B fn s2 (if 0 ≤ insn.b then [keyed "b" insn.b] else []) = .ok s3 := by
    refine setOperandList_index (k := .b) (by decide) htmp h.safe.b (fun _ hin _ hlong => ?_) ?_
    · rw [setKey, hlong, if_neg hin]
    · intro hv
      simp only [s3, hv]
      rfl
  have h4 : setOperandList B fn s3 (if insn.imm ≠ 0 then [keyed "imm" insn.imm] else []) = .ok s4 := by
    apply setOperandList_printed (k := .imm) (by decide)
    · intro _
      rw [setKey, strtoll_decimal h.imm.1 h.imm.2]
    · intro hv
      simp only [s4, not_not.mp hv]
      rfl
  have h5 : setOperandList B fn s4 (if 0 ≤ insn.slot then [keyed "slot" insn.slot] else []) = .ok s5 := by
    refine setOperandList_index (k := .slot) (by decide) hfn.slots h.slot (fun hv _ hin hlong => ?_) ?_
    · rw [setKey, hlong, if_neg hin]
      simp only [s5, decide_eq_true hv]
      rfl
    · intro hv
      simp only [s5, hv]
      rfl
  have h6 : setOperandList B fn s5 (if 0 ≤ insn.label then [keyed "label" insn.label] else []) =
      .ok s6 := by
    refine setOperandList_index (k := .label) (by decide) hfn.labels.2 h.label (fun hv _ hin hlong => ?_) ?_
    · rw [setKey, hlong, if_neg hin]
      simp [s6, decide_eq_true hv]
    · intro hv
      simp only [s6, hv]
      rfl
  have h7 : setOperandList B fn s6 (if insn.nargs ≠ 0 then [keyed "nargs" insn.nargs] else []) =
      .ok s7 := by
    apply setOperandList_printed (k := .nargs) (by decide)
    · intro _
      rw [setKey, intOf_decimal h.nargs]
    · intro hv
      simp only [s7, not_not.mp hv]
      rfl
  unfold insnWords
  simp only [append_assoc]
  rw [setOperandList_append_ok h1, setOperandList_append_ok h2, setOperandList_append_ok h3,
    setOperandList_append_ok h4, setOperandList_append_ok h5, setOperandList_append_ok h6,
    setOperandList_append_ok h7, setOperandList_sym _ rfl]
  rfl

/-! ## Mnemonics -/

theorem exists_opTable (op : Op) : ∃ e ∈ opTable, kpmOpName op = some (text e.1) ∧ e.2 = op := by
  have hso : (opTable.find? fun e => e.2 = op).isSome := by cases op <;> rfl
  obtain ⟨e, he⟩ := Option.isSome_iff_exists.mp hso
  refine ⟨e, mem_of_find?_eq_some he, ?_, by simpa using find?_some he⟩
  rw [kpmOpName, he]
  rfl

theorem opTable_names : ∀ e ∈ opTable, IsName (text e.1) ∧ opByName (text e.1) = some e.2 ∧
    (text e.1).head?.all fun c => 65 ≤ c && c ≤ 90 := by
  decide +kernel

theorem isName_insnWords (h : InsnOk fn insn) (hop : insn.op ≠ .asm) : ∀ w ∈ insnWords insn, IsName w := by
  have hkd : ∀ {key : String} {v : Int}, IsName (text key) → ∀ w ∈ [keyed key v], IsName w :=
    fun hkey => forall_mem_singleton.mpr (hkey.assign (isName_decimal _))
  simp only [insnWords, forall_mem_append, forall_mem_map, Option.mem_toList]
  refine ⟨?_, fun s hs => ?_⟩
  · refine ⟨⟨⟨⟨⟨⟨?_, ?_⟩, ?_⟩, ?_⟩, ?_⟩, ?_⟩, ?_⟩ <;> exact isName_optional (hkd (by decide))
  · have hkey : IsName (text "sym") := by decide
    exact hkey.assign (h.sym hop s hs)

theorem length_insnWords (insn : Insn) : (insnWords insn).length ≤ 8 := by
  have hsym : insn.sym.toList.length ≤ 1 := by cases insn.sym <;> simp
  simp only [insnWords, length_append, length_map]
  calc _ ≤ 1 + 1 + 1 + 1 + 1 + 1 + 1 + 1 := by
        gcongr
        all_goals exact length_optional

theorem emitAsmLine_other {w rest : CStr} (hw : IsName w) (hne : w ≠ text "ASM")
    (hrs : rest.head?.all isBlank) (ntemps : Int) : emitAsmLine B ntemps (w ++ rest) = .ok none := by
  unfold emitAsmLine
  rw [if_neg]
  rintro ⟨hpre, hblk⟩
  have hasm : IsName (text "ASM") := by decide
  have hkw : kw (w ++ rest) (text "ASM") = true := by
    rw [kw, hpre, Bool.true_and]
    revert hblk
    show ((w ++ rest).drop 3).head?.any isBlank → ((w ++ rest).drop 3).head?.all isBlank
    cases ((w ++ rest).drop 3).head? with
    | none => exact fun _ => rfl
    | some c => exact id
  rw [kw_append hw.isWord hasm.isWord hrs, decide_eq_true_iff] at hkw
  exact hne hkw.symm

theorem writeInsn_plain (hop : insn.op ≠ .asm) :
    ∃ e ∈ opTable, e.2 = insn.op ∧ writeInsn insn = text e.1 ++ spaced (insnWords insn) := by
  obtain ⟨e, he, hnm, hop'⟩ := exists_opTable _
  refine ⟨e, he, hop', ?_⟩
  rw [writeInsn, if_neg hop, hnm, Option.getD_some]

theorem readInsn_plain (hfn : FuncOk fn) (h : InsnOk fn insn) (hop : insn.op ≠ .asm) :
    readInsn B fn (writeInsn insn) = .ok (some (plainPart insn)) := by
  obtain ⟨e, he, hop', hln⟩ := writeInsn_plain hop
  obtain ⟨hnm, hbn, -⟩ := opTable_names e he
  have hwds := isName_insnWords h hop
  have hne : text e.1 ≠ text "ASM" := by
    intro heq
    have hasm : opByName (text "ASM") = some .asm := by decide +kernel
    rw [heq, hasm, hop'] at hbn
    exact hop (Option.some.inj hbn).symm
  have hlen := length_insnWords insn
  rw [readInsn, hln, emitAsmLine_other hnm hne (head?_spaced _),
    tokenize_spaced_of_le hnm hwds (by unfold maxTokens; omega)]
  simp only [hbn, setOperands, hop', setOperandList_insnWords hfn h]
  -- the slot and the label an opcode needs have been printed
  have hsl : ¬((opNeedsSlot insn.op : Prop) ∧ ¬decide (0 ≤ insn.slot)) := by
    rintro ⟨hnd, hnot⟩
    exact hnot (decide_eq_true (h.safe.slot hnd).1)
  have hlb : ¬((opNeedsLabel insn.op : Prop) ∧ ¬decide (0 ≤ insn.label)) := by
    rintro ⟨hnd, hnot⟩
    exact hnot (decide_eq_true (h.safe.label hnd).1)
  rw [if_neg hsl, if_neg hlb]
  rfl

theorem plainPart_eq_iff (hop : insn.op ≠ .asm) : plainPart insn = insn ↔ InsnCarried insn := by
  constructor
  · intro heq
    have hno : insn.asmInfo = none := (congrArg _ heq).symm
    exact ⟨(congrArg _ heq).symm, (congrArg _ heq).symm, fun _ => hno,
      fun hasm => absurd hasm hop, fun info hinfo => by rw [hno] at hinfo; cases hinfo⟩
  intro h
  have hvar := h.vararg
  have harg := h.argalign
  have hno := h.plain hop
  cases insn
  simp only [plainPart, Insn.mk.injEq, true_and] at *
  exact ⟨hno.symm, hvar.symm, harg.symm⟩

variable {ntemps : Int}

/-! ## The operands of an extended `asm` -/

theorem asmOpCarried_parse {desc : CStr} {op : AsmOp}
    (h : parseAsmOp B ntemps desc = some op) : AsmOpCarried op := by
  have hcut : ∀ {s a b : CStr}, cutAt 44 s = some (a, b) → 44 ∉ a := by
    intro s a b hcut
    unfold cutAt at hcut
    split at hcut
    · cases hcut
      intro hmem
      simpa using mem_takeWhile_imp hmem
    · cases hcut
  unfold parseAsmOp at h
  split at h
  next => cases h
  next =>
    split at h
    next => cases h
    next constraint _ hcon =>
      split at h
      next => cases h
      next =>
        simp only at h
        split at h
        next => cases h
        next =>
          split at h
          next => cases h
          next hrng =>
            cases h
            refine ⟨hcut hcon, rfl, ?_, ?_⟩
            · simp only
              omega
            · intro hio
              exact decide_eq_true (.inr (of_decide_eq_true hio))

theorem not_mem_decimal (h : c ≠ 45 ∧ ¬(48 ≤ c.toNat ∧ c.toNat ≤ 57)) (z : Int) : c ∉ decimal z := by
  intro hc
  rcases mem_decimal hc with rfl | hdig
  · exact h.1 rfl
  · exact h.2 hdig

theorem parseAsmOp_write (hn : IsInt ntemps) {op : AsmOp} (htemp : Within ntemps op.temp)
    (hsz : IsInt op.size) (h : AsmOpCarried op) : parseAsmOp B ntemps (writeAsmOp op) = some op := by
  have hrole : (44 : UInt8) ∉ [asmRole op] := by
    unfold asmRole
    split_ifs <;> decide
  have hcut : cutAt 44 (writeAsmOp op) =
      some ([asmRole op], op.constraint ++ 44 :: (decimal op.temp ++ 44 :: decimal op.size)) :=
    cutAt_append hrole _
  obtain ⟨hlo, hhi⟩ := htemp
  have htempInt : IsInt op.temp := by
    unfold IsInt at *
    omega
  have hkn : ¬(asmRole op ≠ 111 ∧ asmRole op ≠ 105 ∧ asmRole op ≠ 98) := by
    unfold asmRole
    split_ifs <;> decide
  have hrng : ¬(op.temp < 0 ∨ ntemps ≤ op.temp ∨ op.size ≤ 0 ∨ 8 < op.size) := by
    have := h.size
    omega
  rw [parseAsmOp, hcut]
  simp only [cutAt_append h.constraint, cutAt_append (not_mem_decimal (c := 44) (by decide) _),
    headD_cons, longOf_decimal_nil htempInt, longOf_decimal_nil hsz, if_neg hkn,
    if_neg hrng]
  obtain ⟨constraint, pinReg, temp, size, isOutput, isInout⟩ := op
  have hpin : pinReg = none := h.pinReg
  have hio : isInout = true → isOutput = true := h.inout
  subst hpin
  cases isInout with
  | true =>
    rw [hio rfl]
    rfl
  | false => cases isOutput <;> rfl

/-! ## Its words -/

def opToken (i : Nat) (op : AsmOp) : CStr := 111 :: (decimal i ++ 61 :: writeAsmOp op)

def clobberToken (i : Nat) (c : CStr) : CStr := 99 :: (decimal i ++ 61 :: c)

theorem exists_decimal_cons (i : Nat) (t : CStr) : ∃ d u, decimal i ++ t = d :: u ∧ 48 ≤ d ∧ d ≤ 57 := by
  obtain ⟨d, u, hd⟩ := exists_cons_of_ne_nil (decimalNat_ne_nil i)
  have hdec : decimal i = decimalNat i := by
    unfold decimal
    rw [if_neg (by omega), Int.natAbs_natCast]
  refine ⟨d, u ++ t, by rw [hdec, hd, cons_append], ?_⟩
  exact mem_decimalNat (hd ▸ mem_cons_self)

theorem numbered_index (i : Nat) (t : CStr) : numbered c (c :: (decimal i ++ t)) = true := by
  obtain ⟨d, u, hd, hlo, hhi⟩ := exists_decimal_cons i t
  rw [numbered, hd]
  simp [hlo, hhi]

theorem cutAt_index (hc : c ≠ 61) (i : Nat) (v : CStr) :
    cutAt 61 (c :: (decimal i ++ 61 :: v)) = some (c :: decimal i, v) := by
  show cutAt 61 ((c :: decimal i) ++ 61 :: v) = _
  apply cutAt_append
  intro hmem
  rcases mem_cons.mp hmem with heq | hmem
  · exact hc heq.symm
  · exact not_mem_decimal (by decide) _ hmem

section Fill

variable {ntemps : Int} {nclobbers : Nat} {st : AsmFill}

theorem fillAsmToken_other {tok : CStr} (ho : numbered 111 tok = false)
    (hc : numbered 99 tok = false) : fillAsmToken B ntemps nclobbers st tok = .ok st := by
  unfold fillAsmToken
  split
  · rfl
  · rw [ho, hc]
    rfl

theorem fillAsmToken_op {i : Nat} (hi : i < st.ops.length) (hint : IsInt i) (op : AsmOp) :
    fillAsmToken B ntemps nclobbers st (opToken i op) =
      match parseAsmOp B ntemps (writeAsmOp op) with
      | none => .error (text "malformed ASM operand")
      | some op => .ok { st with ops := st.ops.set i (some op) } := by
  have hidx : intOf B (opToken i op).tail = i := intOf_decimal_append hint (stops_cons (by decide) _)
  unfold fillAsmToken
  rw [show cutAt 61 (opToken i op) = _ from cutAt_index (by decide) i _,
    show numbered 111 (opToken i op) = true from numbered_index i _]
  simp only [if_true, hidx]
  rw [if_neg (by omega)]
  rfl

theorem fillAsmToken_clobber (h : st.clobbers.length < nclobbers) (i : Nat) (c : CStr) :
    fillAsmToken B ntemps nclobbers st (clobberToken i c) =
      .ok { st with clobbers := st.clobbers ++ [c] } := by
  unfold fillAsmToken
  rw [show cutAt 61 (clobberToken i c) = _ from cutAt_index (by decide) i _,
    show numbered 99 (clobberToken i c) = true from numbered_index i _,
    show numbered 111 (clobberToken i c) = false from rfl]
  simp [if_pos h]

theorem mapIdx_from_cons {α β : Type} (f : Nat → α → β) (j : Nat) (a : α) (l : List α) :
    (a :: l).mapIdx (fun i => f (j + i)) = f j a :: l.mapIdx fun i => f (j + 1 + i) := by
  rw [mapIdx_cons, add_zero]
  simp [add_assoc, add_comm 1]

theorem fillAsm_ops {ops done : List AsmOp} {r : Nat} {clobbers : List CStr} {more : List CStr}
    {res : AsmFill} (hint : IsInt (done.length + ops.length : Nat)) :
    fillAsm B ntemps nclobbers ⟨done.map some ++ replicate (ops.length + r) none, clobbers⟩
        (ops.mapIdx (fun i => opToken (done.length + i)) ++ more) = .ok res ↔
      ∃ ops', List.Forall₂ (fun op op' => parseAsmOp B ntemps (writeAsmOp op) = some op') ops ops' ∧
        fillAsm B ntemps nclobbers ⟨(done ++ ops').map some ++ replicate r none, clobbers⟩ more =
          .ok res := by
  induction ops generalizing done with
  | nil => simp
  | cons op ops ih =>
    have hone : IsInt done.length := by
      unfold IsInt at *
      omega
    have hlen : done.length < (done.map some ++ replicate ((op :: ops).length + r) none).length := by
      simp
    rw [mapIdx_from_cons, cons_append, fillAsm, fillAsmToken_op hlen hone]
    cases hop : parseAsmOp B _ _ with
    | none =>
      simp only [reduceCtorEq, false_iff, not_exists, not_and, forall₂_cons_left_iff]
      rintro - ⟨op', -, hop', -⟩
      rw [hop] at hop'
      cases hop'
    | some op' =>
      have hset : (done.map some ++ replicate ((op :: ops).length + r) none).set done.length (some op') =
          (done ++ [op']).map some ++ replicate (ops.length + r) none := by
        have hsucc : (op :: ops).length + r = (ops.length + r) + 1 := by
          rw [length_cons]
          omega
        rw [hsucc, replicate_succ, set_append_right _ _ (by simp), length_map, Nat.sub_self,
          set_cons_zero, map_append, append_assoc]
        rfl
      have hdn : done.length + 1 = (done ++ [op']).length := by simp
      simp only [hset]
      rw [hdn, ih (by simpa [add_assoc, add_comm 1] using hint)]
      simp only [forall₂_cons_left_iff, hop, Option.some.injEq]
      constructor
      · rintro ⟨ops', hops, hfl⟩
        exact ⟨op' :: ops', ⟨op', ops', rfl, hops, rfl⟩, by simpa using hfl⟩
      · rintro ⟨_, ⟨_, ops', rfl, hops, rfl⟩, hfl⟩
        exact ⟨ops', hops, by simpa using hfl⟩

theorem fillAsm_clobbers {j : Nat} (h : st.clobbers.length + cs.length ≤ nclobbers) :
    fillAsm B ntemps nclobbers st (cs.mapIdx fun i => clobberToken (j + i)) =
      .ok { st with clobbers := st.clobbers ++ cs } := by
  induction cs generalizing st j with
  | nil => simp [fillAsm]
  | cons c cs ih =>
    rw [length_cons] at h
    rw [mapIdx_from_cons, fillAsm, fillAsmToken_clobber (by omega)]
    simp only
    rw [ih (by simp; omega)]
    simp

/-! What is filled in comes from tokens: each operand and each clobber from one of its own. -/

def filled (st : AsmFill) : Nat := st.ops.countP Option.isSome

theorem filled_token {st st' : AsmFill} {tok : CStr}
    (h : fillAsmToken B ntemps nclobbers st tok = .ok st') :
    filled st' ≤ filled st + (if numbered 111 tok then 1 else 0) ∧
      (st.clobbers.length ≤ nclobbers → st'.clobbers.length ≤ nclobbers) := by
  unfold fillAsmToken at h
  split at h
  · cases h
    exact ⟨Nat.le_add_right _ _, id⟩
  split at h
  next hop =>
    simp only at h
    split at h
    · cases h
    next hrng =>
      split at h
      · cases h
      cases h
      rw [if_pos hop]
      unfold filled
      rw [countP_set (by omega)]
      simp only [Option.isSome_some, if_true]
      omega
  next hop =>
    rw [if_neg hop]
    split at h
    · split at h
      next hlt =>
        cases h
        refine ⟨le_rfl, fun _ => ?_⟩
        rw [length_append, length_singleton]
        exact hlt
      · cases h
        exact ⟨le_rfl, id⟩
    · cases h
      exact ⟨le_rfl, id⟩

theorem filled_list {st st' : AsmFill} {toks : List CStr}
    (h : fillAsm B ntemps nclobbers st toks = .ok st') (hle : st.clobbers.length ≤ nclobbers) :
    filled st' ≤ filled st + toks.countP (numbered 111) ∧ st'.clobbers.length ≤ nclobbers := by
  induction toks generalizing st with
  | nil =>
    cases h
    exact ⟨Nat.le_add_right _ _, hle⟩
  | cons tok toks ih =>
    rw [fillAsm] at h
    split at h
    next => cases h
    next st'' hone =>
      obtain ⟨hfld, hkp⟩ := filled_token hone
      obtain ⟨hrs, hclb⟩ := ih h (hkp hle)
      rw [countP_cons]
      omega

end Fill

theorem nclobbers_count (n : AsmCounts) (toks : List CStr) :
    (toks.foldl (countAsmToken B) n).nclobbers ≤ n.nclobbers + toks.countP (numbered 99) := by
  have hone : ∀ n tok, (countAsmToken B n tok).nclobbers ≤
      n.nclobbers + (if numbered 99 tok then 1 else 0) := by
    intro n tok
    unfold countAsmToken
    split_ifs <;> simp
  induction toks generalizing n with
  | nil => exact Nat.le_add_right _ _
  | cons tok toks ih =>
    rw [foldl_cons, countP_cons]
    have := ih (countAsmToken B n tok)
    have := hone n tok
    omega

theorem length_readAsmInfo {toks : List CStr} (h : readAsmInfo B ntemps toks = .ok info) :
    info.ops.length ≤ toks.countP (numbered 111) ∧ info.clobbers.length ≤ toks.countP (numbered 99) := by
  unfold readAsmInfo at h
  simp only at h
  split at h
  · cases h
  split at h
  · cases h
  next st hfl =>
    split at h
    · cases h
    cases h
    have hbeg : ∀ k, filled ⟨replicate k none, []⟩ = 0 := by
      simp [filled, countP_replicate]
    obtain ⟨hfld, hclb⟩ := filled_list hfl (Nat.zero_le _)
    have hcnt := nclobbers_count (B := B) {} toks
    constructor
    · simp only [reduceOption_length_eq, ← countP_eq_length_filter]
      rw [hbeg, zero_add] at hfld
      exact hfld
    · simp only [length_append, length_map, length_replicate] at *
      omega

/-! ## Extended `asm` -/

def asmHeader (info : AsmInfo) : List CStr :=
  [keyed "nout" info.noutputs, keyed "nin" info.ninputs, keyed "vol" info.isVolatile]

theorem countP_numbered_le (toks : List CStr) :
    toks.countP (numbered 111) + toks.countP (numbered 99) ≤ toks.length := by
  induction toks with
  | nil => exact le_rfl
  | cons tok toks ih =>
    have hone : (if numbered 111 tok then 1 else 0) + (if numbered 99 tok then 1 else 0) ≤ 1 := by
      unfold numbered
      rcases tok with _ | ⟨c, t⟩
      · decide
      by_cases hc : c = 111
      · rw [hc]
        simp
        split <;> decide
      · simp [hc]
        split <;> decide
    rw [countP_cons, countP_cons, length_cons]
    omega

theorem asmWords_eq (h : info.clobbers = cs.map some) : asmWords info = asmHeader info ++
      (info.ops.mapIdx (fun i => opToken (0 + i)) ++ cs.mapIdx fun i => clobberToken (0 + i)) := by
  unfold asmWords
  rw [h, append_assoc]
  simp only [zero_add]
  congr 2
  apply ext_getElem
  · simp
  · simp [clobberToken]

theorem count_asmHeader (h : AsmOk info) :
    (asmHeader info).foldl (countAsmToken B) {} = ⟨info.noutputs, info.ninputs, info.isVolatile, 0⟩ := by
  have hout : ∀ n, countAsmToken B n (keyed "nout" info.noutputs) =
      { n with nout := intOf B (decimal info.noutputs) } := fun n => rfl
  have hin : ∀ n, countAsmToken B n (keyed "nin" info.ninputs) =
      { n with nin := intOf B (decimal info.ninputs) } := fun n => rfl
  have hvol : ∀ n, countAsmToken B n (keyed "vol" info.isVolatile) =
      { n with vol := intOf B (decimal info.isVolatile) } := fun n => rfl
  simp [asmHeader, hout, hin, hvol, intOf_decimal h.outputs.2, intOf_decimal h.inputs.2, intOf_decimal h.isVolatile]

theorem countAsm_ops (n : AsmCounts) (ops : List AsmOp) (j : Nat) :
    (ops.mapIdx fun i => opToken (j + i)).foldl (countAsmToken B) n = n := by
  induction ops generalizing j with
  | nil => rfl
  | cons op ops ih =>
    rw [mapIdx_from_cons, foldl_cons]
    exact ih _

theorem countAsm_clobbers (n : AsmCounts) (cs : List CStr) (j : Nat) :
    (cs.mapIdx fun i => clobberToken (j + i)).foldl (countAsmToken B) n =
      { n with nclobbers := n.nclobbers + cs.length } := by
  induction cs generalizing n j with
  | nil => rfl
  | cons c cs ih =>
    have hone : countAsmToken B n (clobberToken j c) = { n with nclobbers := n.nclobbers + 1 } :=
      if_pos (numbered_index j _)
    rw [mapIdx_from_cons, foldl_cons, hone, ih, length_cons, add_assoc, add_comm 1]

theorem fillAsm_asmHeader {nclobbers : Nat} (st : AsmFill) (info : AsmInfo) (more : List CStr) :
    fillAsm B ntemps nclobbers st (asmHeader info ++ more) = fillAsm B ntemps nclobbers st more := by
  have hsk : ∀ tok toks, numbered 111 tok = false → numbered 99 tok = false →
      fillAsm B ntemps nclobbers st (tok :: toks) = fillAsm B ntemps nclobbers st toks := by
    intro tok toks ho hc
    rw [fillAsm, fillAsmToken_other ho hc]
  show fillAsm B ntemps nclobbers st (_ :: _ :: _ :: more) = _
  rw [hsk _ _ rfl rfl, hsk _ _ rfl rfl, hsk _ _ rfl rfl]

theorem readAsmInfo_asmWords (h : AsmOk info)
    (hcs : info.clobbers = cs.map some) (hcnt : (info.ops.length : Int) ≤ kpmMaxCount) :
    readAsmInfo B ntemps (asmWords info) = .ok info ↔
      ∀ op ∈ info.ops, parseAsmOp B ntemps (writeAsmOp op) = some op := by
  have hlen := h.ops_length
  have hout := h.outputs.1
  have hin := h.inputs.1
  have hcn : (asmWords info).foldl (countAsmToken B) {} =
      ⟨info.noutputs, info.ninputs, info.isVolatile, cs.length⟩ := by
    rw [asmWords_eq hcs, foldl_append, foldl_append, count_asmHeader h, countAsm_ops,
      countAsm_clobbers, zero_add]
  have hrng : ¬(info.noutputs < 0 ∨ info.ninputs < 0 ∨ kpmMaxCount < info.noutputs ∨
      kpmMaxCount < info.ninputs) := by omega
  have htot : (info.noutputs + info.ninputs).toNat = info.ops.length + 0 := by omega
  -- the fill succeeds exactly when every operand is read
  have hfl : ∀ res, fillAsm B ntemps cs.length ⟨replicate (info.ops.length + 0) none, []⟩
      (asmWords info) = .ok res ↔
        ∃ ops', List.Forall₂ (fun op op' => parseAsmOp B ntemps (writeAsmOp op) = some op') info.ops ops' ∧
          res = ⟨ops'.map some, cs⟩ := by
    intro res
    rw [asmWords_eq hcs, fillAsm_asmHeader]
    have hint : IsInt (([] : List AsmOp).length + info.ops.length : Nat) := by simpa using h.ops_int
    refine (fillAsm_ops hint).trans (exists_congr fun ops' => ?_)
    rw [fillAsm_clobbers (by simp)]
    simp [eq_comm]
  have hmissing : ∀ ops' : List AsmOp, none ∉ ops'.map some := by simp
  have hreduce : ∀ ops' : List AsmOp, (ops'.map some).reduceOption = ops' := by
    simp [reduceOption]
  have hclb : cs.map some ++ replicate (cs.length - cs.length) none = info.clobbers := by
    rw [Nat.sub_self, replicate_zero, append_nil, hcs]
  unfold readAsmInfo
  simp only [hcn, if_neg hrng, htot]
  constructor
  · intro hrd
    split at hrd
    next => cases hrd
    next st hst =>
      obtain ⟨ops', hops', rfl⟩ := (hfl st).mp hst
      rw [if_neg (hmissing _), hreduce] at hrd
      have hsm : ops' = info.ops := congrArg AsmInfo.ops (Except.ok.inj hrd)
      rw [hsm] at hops'
      exact forall₂_same.mp hops'
  · intro hall
    have hsm := (hfl ⟨info.ops.map _, cs⟩).mpr ⟨info.ops, forall₂_same.mpr hall, rfl⟩
    simp only [hsm, if_neg (hmissing _), hreduce, hclb]

theorem readAsmInfo_iff (hn : IsInt ntemps) (h : AsmOk info)
    (htmp : ∀ op ∈ info.ops, Within ntemps op.temp) :
    readAsmInfo B ntemps ((asmWords info).take maxTokens) = .ok info ↔ AsmCarried info := by
  obtain ⟨cs, hcs⟩ : ∃ cs : List CStr, info.clobbers = cs.map some := by
    refine ⟨info.clobbers.map (·.getD []), ?_⟩
    rw [map_map]
    conv_lhs => rw [← map_id info.clobbers]
    apply map_congr_left
    intro c hc
    obtain ⟨s, rfl, -⟩ := h.clobbers c hc
    rfl
  have hlength : (asmWords info).length = 3 + info.ops.length + info.clobbers.length := by
    rw [asmWords_eq hcs, hcs]
    simp [asmHeader]
    omega
  -- the table has to hold every word: what does not fit would be missing
  have hft : readAsmInfo B ntemps ((asmWords info).take maxTokens) = .ok info →
      3 + info.ops.length + info.clobbers.length ≤ maxTokens := by
    intro hrd
    obtain ⟨hops, hclb⟩ := length_readAsmInfo hrd
    have hta : (asmWords info).take maxTokens =
        asmHeader info ++ ((asmWords info).drop 3).take (maxTokens - 3) := rfl
    rw [hta, countP_append] at hops hclb
    have hhdr : (asmHeader info).countP (numbered 111) = 0 ∧
        (asmHeader info).countP (numbered 99) = 0 := ⟨rfl, rfl⟩
    have hbt := countP_numbered_le (((asmWords info).drop 3).take (maxTokens - 3))
    have := length_take_le (maxTokens - 3) ((asmWords info).drop 3)
    unfold maxTokens at *
    omega
  have hall : 3 + info.ops.length + info.clobbers.length ≤ maxTokens →
      (readAsmInfo B ntemps ((asmWords info).take maxTokens) = .ok info ↔
        ∀ op ∈ info.ops, parseAsmOp B ntemps (writeAsmOp op) = some op) := by
    intro hle
    rw [take_of_length_le (by omega)]
    apply readAsmInfo_asmWords h hcs
    unfold maxTokens at hle
    unfold kpmMaxCount
    omega
  constructor
  · intro hrd
    have hle := hft hrd
    exact ⟨hle, fun op hop => asmOpCarried_parse ((hall hle).mp hrd op hop)⟩
  · intro hcar
    apply (hall hcar.words).mpr
    intro op hop
    exact parseAsmOp_write hn (htmp op hop) (h.ops op hop).2 (hcar.ops op hop)

/-! ## `asm` lines -/

theorem AsmText.append {s t : CStr} (hs : AsmText s) (ht : AsmText t) : AsmText (s ++ t) :=
  forall_mem_append.mpr ⟨hs, ht⟩

theorem AsmText.cons {t : CStr} (hc : AsmText [c]) (ht : AsmText t) : AsmText (c :: t) := hc.append ht

theorem asmText_decimal (z : Int) : AsmText (decimal z) := by
  intro c hc
  rcases mem_decimal hc with rfl | hdig
  · decide
  · simp only [mem_cons, not_mem_nil, or_false, not_or]
    refine ⟨?_, ?_, ?_, ?_, ?_, ?_⟩ <;> rintro rfl <;> revert hdig <;> decide

theorem AsmText.isName {s : CStr} (h : AsmText s) (hne : s ≠ []) : IsName s := by
  refine ⟨hne, fun c hc hmem => h c hc ?_⟩
  simp only [mem_cons, not_mem_nil, or_false] at hmem ⊢
  tauto

theorem asmText_asmWords (h : AsmOk info) : ∀ w ∈ asmWords info, AsmText w ∧ w ≠ [] := by
  have hkd : ∀ key v, AsmText (text key) → AsmText (keyed key v) := fun key v hkey =>
    hkey.append ((by decide : AsmText [61]).cons (asmText_decimal v))
  have hkne : ∀ key v, keyed key v ≠ [] := fun key v =>
    append_ne_nil_of_right_ne_nil _ (cons_ne_nil _ _)
  intro w hw
  rcases mem_append.mp hw with hw | hw
  · rcases mem_append.mp hw with hw | hw
    · simp only [mem_cons, not_mem_nil, or_false] at hw
      rcases hw with rfl | rfl | rfl
      · exact ⟨hkd "nout" _ (by decide), hkne _ _⟩
      · exact ⟨hkd "nin" _ (by decide), hkne _ _⟩
      · exact ⟨hkd "vol" _ (by decide), hkne _ _⟩
    obtain ⟨i, hi, rfl⟩ := mem_mapIdx.mp hw
    have hrole : AsmText [asmRole info.ops[i]] := by
      unfold asmRole
      split_ifs <;> decide
    have hcma : AsmText [44] := by decide
    have hcon := (h.ops _ (getElem_mem hi)).1
    refine ⟨?_, cons_ne_nil _ _⟩
    exact (by decide : AsmText [111]).cons ((asmText_decimal i).append ((by decide : AsmText [61]).cons
      (hrole.cons (hcma.cons (hcon.append (hcma.cons ((asmText_decimal _).append
        (hcma.cons (asmText_decimal _)))))))))
  · obtain ⟨i, hi, rfl⟩ := mem_mapIdx.mp hw
    obtain ⟨s, hs, htx⟩ := h.clobbers _ (getElem_mem hi)
    refine ⟨?_, cons_ne_nil _ _⟩
    rw [hs, Option.getD_some]
    exact (by decide : AsmText [99]).cons ((asmText_decimal i).append
      ((by decide : AsmText [61]).cons htx))

theorem emitAsmLine_basic (ntemps : Int) (t : List UInt8) :
    emitAsmLine B ntemps (text "ASM " ++ writeQuoted t) = .ok (some { op := .asm, sym := some t }) := by
  have hbo : quotedBody (text "ASM " ++ writeQuoted t) = some (t.flatMap escape) :=
    quotedBody_append (by decide) _
  unfold emitAsmLine
  have hp : ((text "ASM " ++ writeQuoted t).drop 3).dropWhile isBlank = writeQuoted t := rfl
  simp only [hp, hbo, unescape_flatMap]
  rfl

theorem emitAsmLine_extended (ntemps : Int) (h : AsmOk info) (t : List UInt8) :
    emitAsmLine B ntemps (text "ASM " ++ ((asmWords info).flatMap (· ++ [32]) ++ writeQuoted t)) =
      (readAsmInfo B ntemps ((asmWords info).take maxTokens)).map fun info =>
        some { op := .asm, sym := some t, asmInfo := some info } := by
  have hwds := asmText_asmWords h
  have hfro : 34 ∉ (asmWords info).flatMap (· ++ [32]) := by
    intro hmem
    obtain ⟨w, hw, hc⟩ := mem_flatMap.mp hmem
    rcases mem_append.mp hc with hc | hc
    · exact (hwds w hw).1 34 hc (by decide)
    · exact absurd hc (by decide)
  have htok : tokenize ((asmWords info).flatMap (· ++ [32])) = (asmWords info).take maxTokens := by
    rw [tokenize, words_trailing fun w hw => ((hwds w hw).1.isName (hwds w hw).2).isWord]
  have hbo : quotedBody ([] ++ 34 :: (t.flatMap escape ++ [34])) = some (t.flatMap escape) :=
    quotedBody_append not_mem_nil _
  rw [nil_append] at hbo
  unfold emitAsmLine
  rw [if_pos ⟨rfl, rfl⟩]
  have hp : ((text "ASM " ++ ((asmWords info).flatMap (· ++ [32]) ++ writeQuoted t)).drop 3).dropWhile
      isBlank = (asmWords info).flatMap (· ++ [32]) ++ writeQuoted t := rfl
  have hhd : ((asmWords info).flatMap (· ++ [32]) ++ writeQuoted t).head? = some 110 := rfl
  simp only [hp, hhd]
  have hcut : cutAt 34 ((asmWords info).flatMap (· ++ [32]) ++ writeQuoted t) =
      some ((asmWords info).flatMap (· ++ [32]), t.flatMap escape ++ [34]) := cutAt_append hfro _
  simp only [hcut, hbo, htok, unescape_flatMap]
  cases readAsmInfo B _ _ <;> rfl

/-- What is left of an `asm`: the template and the metadata. -/
def asmPart (insn : Insn) : Insn :=
  { op := .asm, sym := insn.sym, asmInfo := insn.asmInfo }

theorem insnCarried_asm_iff (hop : insn.op = .asm) :
    InsnCarried insn ↔ asmPart insn = insn ∧ ∀ info, insn.asmInfo = some info → AsmCarried info := by
  constructor
  · intro h
    refine ⟨?_, h.info⟩
    obtain ⟨hdst, ha, hb, hsl, hlb, himm, hnargs⟩ := h.asm hop
    have hvar := h.vararg
    have harg := h.argalign
    cases insn
    simp only [asmPart, Insn.mk.injEq, true_and] at *
    exact ⟨hop.symm, hdst.symm, ha.symm, hb.symm, himm.symm, hsl.symm, hlb.symm, hnargs.symm,
      hvar.symm, harg.symm⟩
  · rintro ⟨heq, hinfo⟩
    rw [← heq]
    exact ⟨rfl, rfl, fun hne => absurd rfl hne, fun _ => ⟨rfl, rfl, rfl, rfl, rfl, rfl, rfl⟩, hinfo⟩

theorem readInsn_asm_iff (hfn : FuncOk fn) (h : InsnOk fn insn) (hop : insn.op = .asm) :
    readInsn B fn (writeInsn insn) = .ok (some insn) ↔ InsnCarried insn := by
  obtain ⟨t, ht⟩ := Option.ne_none_iff_exists'.mp (h.template hop)
  rw [writeInsn, if_pos hop, writeAsm, ht, Option.getD_some, insnCarried_asm_iff hop, asmPart, ht]
  cases hinfo : insn.asmInfo with
  | none =>
    simp only [readInsn, emitAsmLine_basic, Except.ok.injEq, Option.some.injEq]
    exact ⟨fun heq => ⟨heq, fun info hso => nomatch hso⟩, And.left⟩
  | some info =>
    have hrd := readAsmInfo_iff (B := B) hfn.temps.2 (h.asm _ hinfo) (h.safe.asm _ hinfo)
    have hcar : (∀ info', some info = some info' → AsmCarried info') ↔ AsmCarried info :=
      ⟨fun hall => hall _ rfl, fun hone _ heq => Option.some.inj heq ▸ hone⟩
    rw [hcar, ← hrd]
    simp only [readInsn, emitAsmLine_extended _ (h.asm _ hinfo)]
    cases readAsmInfo B _ _ with
    | error e =>
      constructor
      · intro heq
        cases heq
      · rintro ⟨-, heq⟩
        cases heq
    | ok info' =>
      simp only [Except.map, Except.ok.injEq, Option.some.injEq]
      constructor
      · intro heq
        have hsm : info' = info := by
          have := congrArg Insn.asmInfo heq
          rw [hinfo] at this
          exact Option.some.inj this
        exact ⟨hsm ▸ heq, hsm⟩
      · rintro ⟨heq, rfl⟩
        exact heq

/-! ## One instruction -/

theorem readInsn_iff (hfn : FuncOk fn) (h : InsnOk fn insn) :
    readInsn B fn (writeInsn insn) = .ok (some insn) ↔ InsnCarried insn := by
  by_cases hop : insn.op = .asm
  · exact readInsn_asm_iff hfn h hop
  · rw [readInsn_plain hfn h hop, Except.ok.injEq, Option.some.injEq, plainPart_eq_iff hop]

end Skjegg.Kobold.Kpm
