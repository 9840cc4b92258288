import Skjegg.Cc.Cond

/-!
# Where the branches of a condition go

The code of a condition comes to one of its two labels. It is the one C prescribes if every operand
that is evaluated is tested right, which on some backends its low word alone decides.
-/

namespace Skjegg.Cc

open Lib Lib.LabelCode BitVec

/-- On a backend, the code of the condition comes to the label C's value selects, with the state C leaves. -/
def BranchesRight {S : Type} (b : Backend) (c : Cond b.dataModel S) (s : S) : Prop :=
  ∀ (before after : CondCode b.dataModel S) (ltrue lfalse : Nat) (f : Fresh) (temps : Nat → Temp),
    let code := (lowerCond c ltrue lfalse f).1
    let prog := before ++ code ++ after
    ltrue ≠ lfalse → ltrue < f.label → lfalse < f.label →
    (labels prog).Nodup → ltrue ∈ labels prog → lfalse ∈ labels prog →
    ∃ rest temps', Arrives evalOperand (branchTest b) prog {ltrue, lfalse} (code ++ after, ⟨s, temps⟩)
        (.label (if (c.holds s).1 then ltrue else lfalse) :: rest, ⟨(c.holds s).2, temps'⟩)

/-- Every condition C evaluates on the way branches right. -/
def ConditionRight {S : Type} (b : Backend) (c : Cond b.dataModel S) (s : S) : Prop :=
  ∀ d t, c.Evaluates s d t → BranchesRight b d t

/-- The operands whose test sees their value: one word, zero, a bit set in the low word, or a
backend that looks at both words. -/
def OperandSeen {S : Type} (b : Backend) (o : Operand b.dataModel S) (v : Int) : Prop :=
  b.testsBoth = true ∨ o.ty.size b.dataModel ≠ 8 ∨ v = 0 ∨ v % 2 ^ 32 ≠ 0

variable {S : Type} {b : Backend} {c d e : Cond b.dataModel S} {s t u : S}

/-! ## The test of an operand -/

theorem lo_eq_zero_iff (x : BitVec 64) : (Temp.long x).lo = 0#32 ↔ x.toNat % 2 ^ 32 = 0 := by
  rw [← toNat_inj]
  simp [Temp.lo]

theorem hi_or_lo_eq_zero_iff (x : BitVec 64) : (Temp.long x).hi ||| (Temp.long x).lo = 0#32 ↔ x = 0#64 := by
  rw [or_eq_zero_iff, lo_eq_zero_iff, ← toNat_inj, ← toNat_inj]
  simp only [Temp.hi, toNat_setWidth, toNat_ushiftRight, Nat.shiftRight_eq_div_pow, toNat_ofNat]
  omega

theorem Operand.bounds {dm : DataModel} (o : Operand dm S) (s : S) :
    (o.wide = true → -(2 ^ 63) ≤ (o.eval s).1 ∧ (o.eval s).1 < 2 ^ 64) ∧
      (o.wide = false → -(2 ^ 31) ≤ (o.eval s).1 ∧ (o.eval s).1 < 2 ^ 32) := by
  have hv := o.inType s
  simp only [Operand.wide, beq_iff_eq, beq_eq_false_iff_ne]
  cases hty : o.ty with
  | pointer =>
    rw [hty] at hv
    cases dm <;> simp [ScalarType.Holds, ScalarType.size, DataModel.longSize] at hv ⊢ <;> omega
  | integer ty =>
    rw [hty] at hv
    -- the bounds of each type, read off the table of all types
    have hall : ∀ ty ∈ IntType.all, (typeSize dm ty = 8 → -(2 ^ 63) ≤ least dm ty ∧ greatest dm ty < 2 ^ 64) ∧
        (typeSize dm ty ≠ 8 → -(2 ^ 31) ≤ least dm ty ∧ greatest dm ty < 2 ^ 32) := by
      cases dm <;> decide
    have hty := hall ty ty.mem_all
    exact ⟨fun h => ⟨(hty.1 h).1.trans hv.1, hv.2.trans_lt (hty.1 h).2⟩,
      fun h => ⟨(hty.2 h).1.trans hv.1, hv.2.trans_lt (hty.2 h).2⟩⟩

theorem bnz_operand_iff (o : Operand b.dataModel S) (s : S) :
    (b.bnz (o.temp (o.eval s).1) = true ↔ (o.eval s).1 ≠ 0) ↔ OperandSeen b o (o.eval s).1 := by
  obtain ⟨hlo, hwd⟩ := o.bounds s
  have hsz : o.wide = true ↔ o.ty.size b.dataModel = 8 := by simp [Operand.wide]
  generalize (o.eval s).1 = v at hlo hwd ⊢
  cases hw : o.wide with
  | false =>
    -- one word holds the value, and every backend tests it
    have hv := hwd hw
    have hz : BitVec.ofInt 32 v = 0#32 ↔ v = 0 := by
      rw [← toNat_inj]
      simp only [toNat_ofInt, toNat_ofNat]
      omega
    have hne : o.ty.size b.dataModel ≠ 8 := fun h => by simp [hsz.mpr h] at hw
    have htest : b.bnz (.word (BitVec.ofInt 32 v)) = true ↔ v ≠ 0 := by
      cases b <;> simp [Backend.bnz, Temp.isI64, Temp.lo, bne_iff_ne, hz]
    simp [Operand.temp, hw, htest, OperandSeen, hne]
  | true =>
    have hv := hlo hw
    have heq : o.ty.size b.dataModel = 8 := hsz.mp hw
    have hlow : (Temp.long (BitVec.ofInt 64 v)).lo = 0#32 ↔ v % 2 ^ 32 = 0 := by
      rw [lo_eq_zero_iff, toNat_ofInt]
      omega
    have hz : BitVec.ofInt 64 v = 0#64 ↔ v = 0 := by
      rw [← toNat_inj]
      simp only [toNat_ofInt, toNat_ofNat]
      omega
    have hbt : (Temp.long (BitVec.ofInt 64 v)).hi ||| (Temp.long (BitVec.ofInt 64 v)).lo = 0#32 ↔ v = 0 :=
      (hi_or_lo_eq_zero_iff _).trans hz
    have hbt' : (Temp.long (BitVec.ofInt 64 v)).lo ||| (Temp.long (BitVec.ofInt 64 v)).hi = 0#32 ↔ v = 0 := by
      rw [BitVec.or_comm]
      exact hbt
    simp only [Operand.temp, hw, if_true, OperandSeen, heq]
    cases b with
    | coldfire => simp [Backend.bnz, Temp.isI64, hbt, Backend.testsBoth]
    | mips => simp [Backend.bnz, Temp.isI64, hbt', Backend.testsBoth]
    | riscv | x86 | arm64 =>
      simp only [Backend.bnz, bne_iff_ne, ne_eq, ofNat_eq_ofNat, hlow, Backend.testsBoth]
      by_cases hz : v = 0
      · simp [hz]
      · simp [hz]

/-! ## The labels of the code -/

theorem lowerCond_andAnd (a c : Cond b.dataModel S) (ltrue lfalse : Nat) (f : Fresh) :
    lowerCond (.andAnd a c) ltrue lfalse f =
      let one := lowerCond a f.label lfalse { f with label := f.label + 1 }
      let two := lowerCond c ltrue lfalse one.2
      (one.1 ++ .label f.label :: two.1, two.2) :=
  rfl

theorem lowerCond_orOr (a c : Cond b.dataModel S) (ltrue lfalse : Nat) (f : Fresh) :
    lowerCond (.orOr a c) ltrue lfalse f =
      let one := lowerCond a ltrue f.label { f with label := f.label + 1 }
      let two := lowerCond c ltrue lfalse one.2
      (one.1 ++ .label f.label :: two.1, two.2) :=
  rfl

theorem label_le_lowerCond (c : Cond b.dataModel S) (ltrue lfalse : Nat) (f : Fresh) :
    f.label ≤ (lowerCond c ltrue lfalse f).2.label := by
  induction c generalizing ltrue lfalse f with
  | operand o => exact le_rfl
  | bang c ih => exact ih _ _ _
  | andAnd a c iha ihc =>
    exact (Nat.le_succ _).trans ((iha _ _ { f with label := f.label + 1 }).trans (ihc _ _ _))
  | orOr a c iha ihc =>
    exact (Nat.le_succ _).trans ((iha _ _ { f with label := f.label + 1 }).trans (ihc _ _ _))

/-! ## The way of the code -/

def Comes (b : Backend) (prog : CondCode b.dataModel S) (stops : Set Nat)
    (x : CondCode b.dataModel S × CondState S) (l : Nat) (s : S) : Prop :=
  ∃ rest temps, findLabel l prog = some (.label l :: rest) ∧
    Arrives evalOperand (branchTest b) prog stops x (.label l :: rest, ⟨s, temps⟩)

def GoesTo (b : Backend) (c : Cond b.dataModel S) (s : S) : Prop :=
  ∀ (before after : CondCode b.dataModel S) (ltrue lfalse : Nat) (f : Fresh) (temps : Nat → Temp)
    (stops : Set Nat) (prog : CondCode b.dataModel S),
    prog = before ++ ((lowerCond c ltrue lfalse f).1 ++ after) →
    ltrue ∈ stops → lfalse ∈ stops → (∀ l ∈ stops, l < f.label) →
    (labels prog).Nodup → ltrue ∈ labels prog → lfalse ∈ labels prog →
    Comes b prog stops ((lowerCond c ltrue lfalse f).1 ++ after, ⟨s, temps⟩)
      (if (c.holds s).1 then ltrue else lfalse) (c.holds s).2

section Way

variable {before after codeA codeB prog : CondCode b.dataModel S} {stops : Set Nat}
  {ltrue lfalse lmid l : Nat} {f : Fresh} {m : CondState S}

theorem arrives_of_step {code : CondCode b.dataModel S}
    {i : LabelInsn (Operand b.dataModel S × Nat) Nat} {x y : CondCode b.dataModel S × CondState S}
    (hi : ∀ l ∈ stops, i ≠ .label l) (hst : step evalOperand (branchTest b) prog (i :: code, m) = some x)
    (h : Arrives evalOperand (branchTest b) prog stops x y) :
    Arrives evalOperand (branchTest b) prog stops (i :: code, m) y := by
  apply Arrives.next _ hst h
  intro l hl
  obtain ⟨hmem, rest, heq⟩ := hl
  exact hi l hmem (List.cons.inj heq).1

theorem operand_comes (o : Operand b.dataModel S) (s : S) (temps : Nat → Temp)
    (htr : ltrue ∈ stops) (hff : lfalse ∈ stops) (hmt : ltrue ∈ labels prog)
    (hmf : lfalse ∈ labels prog) :
    Comes b prog stops ((lowerCond (.operand o) ltrue lfalse f).1 ++ after, ⟨s, temps⟩)
      (if b.bnz (o.temp (o.eval s).1) then ltrue else lfalse) (o.eval s).2 := by
  generalize htgt : (if b.bnz _ then ltrue else lfalse) = target
  have hmem : target ∈ labels prog ∧ target ∈ stops := by
    rw [← htgt]
    split
    · exact ⟨hmt, htr⟩
    · exact ⟨hmf, hff⟩
  obtain ⟨rest, hfd⟩ := findLabel_of_mem hmem.1
  refine ⟨rest, Function.update temps f.temp (o.temp (o.eval s).1), hfd, ?_⟩
  -- the operand is evaluated, then its temporary is tested
  apply arrives_of_step (fun _ _ h => by cases h) rfl
  have hend : Arrives evalOperand (branchTest b) prog stops
      (.label target :: rest, evalOperand (o, f.temp) ⟨s, temps⟩)
      (.label target :: rest, evalOperand (o, f.temp) ⟨s, temps⟩) :=
    .stop ⟨hmem.2, rest, rfl⟩
  by_cases htest : b.bnz (o.temp (o.eval s).1) = true
  · rw [if_pos htest] at htgt
    apply arrives_of_step (fun _ _ h => by cases h) _ hend
    simp [step, branchTest, evalOperand, htest, htgt, hfd]
  rw [if_neg htest] at htgt
  apply arrives_of_step (fun _ _ h => by cases h)
  · simp [step, branchTest, evalOperand, htest]
    rfl
  · apply arrives_of_step (fun _ _ h => by cases h) _ hend
    simp [step, evalOperand, htgt, hfd]

theorem Comes.second {s1 s2 : S}
    (hpg : prog = before ++ (codeA ++ (.label lmid :: codeB ++ after))) (hnd : (labels prog).Nodup)
    (hmid : lmid ∉ stops)
    (hfst : Comes b prog (insert lmid stops) (codeA ++ (.label lmid :: codeB ++ after), m) lmid s1)
    (hsnd : ∀ temps, Comes b prog stops (codeB ++ after, ⟨s1, temps⟩) l s2) :
    Comes b prog stops (codeA ++ (.label lmid :: codeB ++ after), m) l s2 := by
  obtain ⟨rest, temps, hfd, hway⟩ := hfst
  have hplc : findLabel lmid prog = some (.label lmid :: (codeB ++ after)) := by
    apply findLabel_of_nodup (p := before ++ codeA) _ hnd
    simp [hpg]
  rw [hfd] at hplc
  cases hplc
  obtain ⟨rest', temps', hfd', hway'⟩ := hsnd _
  refine ⟨rest', temps', hfd', hway.trans (Set.subset_insert _ _) (arrives_of_step ?_ rfl hway')⟩
  intro k hk heq
  cases heq
  exact hmid hk

theorem Comes.first {s1 : S} {x : CondCode b.dataModel S × CondState S} (hl : l ∈ stops)
    (hfst : Comes b prog (insert lmid stops) x l s1) : Comes b prog stops x l s1 := by
  obtain ⟨rest, temps, hfd, hway⟩ := hfst
  exact ⟨rest, temps, hfd, hway.trans (Set.subset_insert _ _) (.stop ⟨hl, rest, rfl⟩)⟩

theorem comes_pair (temps : Nat → Temp) {ta fa : Nat} {one two : CondCode b.dataModel S × Fresh}
    (ha : GoesTo b c s)
    (hd : (if (c.holds s).1 then ta else fa) = f.label → GoesTo b d (c.holds s).2)
    (hone : lowerCond c ta fa { f with label := f.label + 1 } = one)
    (htwo : lowerCond d ltrue lfalse one.2 = two)
    (hpg : prog = before ++ (one.1 ++ (.label f.label :: two.1 ++ after)))
    (hta : ta ∈ insert f.label stops) (hfa : fa ∈ insert f.label stops)
    (htr : ltrue ∈ stops) (hff : lfalse ∈ stops) (hbl : ∀ l ∈ stops, l < f.label)
    (hnd : (labels prog).Nodup) (hmemta : ta ∈ labels prog) (hmemfa : fa ∈ labels prog)
    (hmt : ltrue ∈ labels prog) (hmf : lfalse ∈ labels prog) :
    let x := (one.1 ++ (.label f.label :: two.1 ++ after), (⟨s, temps⟩ : CondState S))
    let target := if (c.holds s).1 then ta else fa
    if target = f.label then
      Comes b prog stops x (if (d.holds (c.holds s).2).1 then ltrue else lfalse) (d.holds (c.holds s).2).2
    else Comes b prog stops x target (c.holds s).2 := by
  intro x target
  have hmid : f.label ∉ stops := fun h => absurd (hbl _ h) (lt_irrefl _)
  have hbelow1 : ∀ l ∈ insert f.label stops, l < f.label + 1 := by
    intro l hl
    rcases Set.mem_insert_iff.mp hl with rfl | hl
    · exact Nat.lt_succ_self _
    · exact (hbl l hl).trans (Nat.lt_succ_self _)
  have hbelow2 : ∀ l ∈ stops, l < one.2.label := by
    intro l hl
    rw [← hone]
    exact (hbl l hl).trans (label_le_lowerCond c ta fa { f with label := f.label + 1 })
  have hfst := ha _ _ ta fa { f with label := f.label + 1 } temps
    (insert _ _) _ (by rw [hone, hpg]) hta hfa hbelow1 hnd hmemta hmemfa
  rw [hone] at hfst
  by_cases heq : target = f.label
  · have hsnd : ∀ temps, Comes b prog stops (two.1 ++ after, ⟨(c.holds s).2, temps⟩)
        (if (d.holds (c.holds s).2).1 then ltrue else lfalse) (d.holds (c.holds s).2).2 := by
      intro temps
      have hgoes := hd heq (before ++ one.1 ++ [.label f.label]) after _ _ _ temps _ _
        (by simp [htwo, hpg]) htr hff hbelow2 hnd hmt hmf
      rwa [htwo] at hgoes
    rw [if_pos heq]
    change Comes b prog (insert f.label stops) x target _ at hfst
    rw [heq] at hfst
    exact hfst.second hpg hnd hmid hsnd
  · rw [if_neg heq]
    apply Comes.first _ hfst
    have hin : target ∈ insert f.label stops := by
      simp only [target]
      split
      · exact hta
      · exact hfa
    exact (Set.mem_insert_iff.mp hin).resolve_left heq

end Way

/-! ## The cases of a condition -/

theorem goesTo_operand {o : Operand b.dataModel S} (h : OperandSeen b o (o.eval s).1) :
    GoesTo b (.operand o) s := by
  intro before after ltrue lfalse f temps stops prog _ htr hff _ _ hmt hmf
  have hbnz : b.bnz (o.temp (o.eval s).1) = ((Cond.operand o).holds s).1 := by
    rw [Bool.eq_iff_iff, (bnz_operand_iff o s).mpr h]
    simp [Cond.holds]
  rw [← hbnz]
  exact operand_comes o s _ htr hff hmt hmf

theorem goesTo_bang (h : GoesTo b c s) : GoesTo b (.bang c) s := by
  intro before after ltrue lfalse f temps stops prog hpg htr hff hbl hnd hmt hmf
  have hswap : (if ((Cond.bang c).holds s).1 then ltrue else lfalse) =
      if (c.holds s).1 then lfalse else ltrue := by
    cases hc : (c.holds s).1 <;> simp [Cond.holds, hc]
  rw [hswap]
  exact h _ _ _ _ f _ _ _ hpg hff htr hbl hnd hmf hmt

theorem goesTo_andAnd (ha : GoesTo b c s) (hd : (c.holds s).1 = true → GoesTo b d (c.holds s).2) :
    GoesTo b (.andAnd c d) s := by
  intro before after ltrue lfalse f temps stops prog hpg htr hff hbl hnd hmt hmf
  rw [lowerCond_andAnd] at hpg ⊢
  simp only [List.append_assoc] at hpg ⊢
  have hmemm : f.label ∈ labels prog := by
    rw [hpg]
    simp [labels]
  have hne : lfalse ≠ f.label := (hbl _ hff).ne
  have hpr := comes_pair temps ha (fun h => hd (by by_contra hc; simp [hc, hne] at h)) rfl rfl hpg
    (Set.mem_insert _ _) (Set.mem_insert_of_mem _ hff) htr hff hbl hnd hmemm hmf hmt hmf
  cases hc : (c.holds s).1 with
  | true =>
    have hho : (Cond.andAnd c d).holds s = d.holds (c.holds s).2 := by simp [Cond.holds, hc]
    simpa [hho, hc] using hpr
  | false =>
    have hho : (Cond.andAnd c d).holds s = c.holds s := by simp [Cond.holds, hc]
    simpa [hho, hc, hne] using hpr

theorem goesTo_orOr (ha : GoesTo b c s) (hd : (c.holds s).1 = false → GoesTo b d (c.holds s).2) :
    GoesTo b (.orOr c d) s := by
  intro before after ltrue lfalse f temps stops prog hpg htr hff hbl hnd hmt hmf
  rw [lowerCond_orOr] at hpg ⊢
  simp only [List.append_assoc] at hpg ⊢
  have hmemm : f.label ∈ labels prog := by
    rw [hpg]
    simp [labels]
  have hne : ltrue ≠ f.label := (hbl _ htr).ne
  have hpr := comes_pair temps ha (fun h => hd (by by_contra hc; simp [hc, hne] at h)) rfl rfl hpg
    (Set.mem_insert_of_mem _ htr) (Set.mem_insert _ _) htr hff hbl hnd hmt hmemm hmt hmf
  cases hc : (c.holds s).1 with
  | true =>
    have hho : (Cond.orOr c d).holds s = c.holds s := by simp [Cond.holds, hc]
    simpa [hho, hc, hne] using hpr
  | false =>
    have hho : (Cond.orOr c d).holds s = d.holds (c.holds s).2 := by simp [Cond.holds, hc]
    simpa [hho, hc] using hpr

theorem goesTo_of_seen (h : ∀ o t, c.Evaluates s (.operand o) t → OperandSeen b o (o.eval t).1) :
    GoesTo b c s := by
  induction c generalizing s with
  | operand o => exact goesTo_operand (h o s (.self _ _))
  | bang c ih => exact goesTo_bang (ih fun o t he => h o t (.bang he))
  | andAnd a c iha ihc =>
    exact goesTo_andAnd (iha fun o t he => h o t (.andLeft he))
      fun ha => ihc fun o t he => h o t (.andRight ha he)
  | orOr a c iha ihc =>
    exact goesTo_orOr (iha fun o t he => h o t (.orLeft he))
      fun ha => ihc fun o t he => h o t (.orRight ha he)

theorem GoesTo.branchesRight (h : GoesTo b c s) : BranchesRight b c s := by
  intro before after ltrue lfalse f temps code prog _ htr hff hnd hmt hmf
  have hbl : ∀ l ∈ ({ltrue, lfalse} : Set Nat), l < f.label := by
    intro l hl
    rcases hl with rfl | rfl
    · exact htr
    · exact hff
  obtain ⟨rest, temps', -, hway⟩ := h _ _ _ _ f _ {ltrue, lfalse} prog
    (List.append_assoc _ _ _) (Set.mem_insert _ _) (Set.mem_insert_of_mem _ rfl) hbl hnd hmt hmf
  exact ⟨rest, temps', hway⟩

theorem Cond.Evaluates.trans (h : c.Evaluates s d t) (h' : d.Evaluates t e u) : c.Evaluates s e u := by
  induction h with
  | self => exact h'
  | bang _ ih => exact .bang (ih h')
  | andLeft _ ih => exact .andLeft (ih h')
  | andRight ha _ ih => exact .andRight ha (ih h')
  | orLeft _ ih => exact .orLeft (ih h')
  | orRight ha _ ih => exact .orRight ha (ih h')

theorem seen_of_branchesRight {o : Operand b.dataModel S} (h : BranchesRight b (.operand o) s) :
    OperandSeen b o (o.eval s).1 := by
  rw [← bnz_operand_iff]
  let prog : CondCode b.dataModel S := [] ++ (lowerCond (.operand o) 0 1 ⟨2, 0⟩).1 ++ [.label 0, .label 1]
  have hlbs : labels prog = [0, 1] := rfl
  obtain ⟨rest, temps, hri⟩ := h [] [.label 0, .label 1] 0 1 ⟨2, 0⟩ (fun _ => .word 0) (by decide)
    (by decide) (by decide) (hlbs ▸ by decide) (hlbs ▸ by decide) (hlbs ▸ by decide)
  have hcomes : Comes b prog {0, 1}
      ((lowerCond (.operand o) 0 1 ⟨2, 0⟩).1 ++ [.label 0, .label 1], ⟨s, fun _ => .word 0⟩)
      (if b.bnz (o.temp (o.eval s).1) then 0 else 1) (o.eval s).2 :=
    operand_comes o s _ (by simp) (by simp) (by simp [hlbs]) (by simp [hlbs])
  obtain ⟨rest', temps', -, hway⟩ := hcomes
  have heq := hway.unique hri
  cases htest : b.bnz _ <;> by_cases hv : (o.eval s).1 = 0 <;> simp_all [Cond.holds]

def highBit (dm : DataModel) : Operand dm Unit where
  ty := .integer .longLong
  eval := fun s => (2 ^ 32, s)
  inType := fun _ => (by cases dm <;> decide : InType dm .longLong (2 ^ 32))

end Skjegg.Cc
