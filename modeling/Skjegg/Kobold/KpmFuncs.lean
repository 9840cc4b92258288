import Skjegg.Kobold.KpmInsns

/-!
# Functions through the text

The reader on the lines of a written function.  It refuses the function, or reads one with the same
counts, the slot sizes that fit the token table, and the instructions the lines are read as.
-/

namespace Skjegg.Kobold.Kpm

open Skjegg.Lib Skjegg.Libc List
open Skjegg.Ir (Op)

variable {B : Backend} {fn fn' : Func} {insn : Insn}

/-! ## Written lines -/

structure Line (s : CStr) : Prop where
  trimmed : Trimmed s
  no_nul : 0 ∉ s
  no_newline : 10 ∉ s

theorem Line.clean {s : CStr} (h : Line s) : 0 ∉ s ∧ 10 ∉ s := ⟨h.no_nul, h.no_newline⟩

theorem line_of {s : CStr} (htrim : Trimmed s) (h : ∀ c ∈ s, c ≠ 0 ∧ c ≠ 10) : Line s :=
  ⟨htrim, fun hmem => (h 0 hmem).1 rfl, fun hmem => (h 10 hmem).2 rfl⟩

theorem IsName.printable {s : CStr} (h : IsName s) : ∀ c ∈ s, c ≠ 0 ∧ c ≠ 10 := by
  intro c hc
  constructor <;> rintro rfl <;> exact h.plain _ hc (by decide)

theorem line_spaced {w : CStr} {ws : List CStr} (hw : IsName w) (hcom : w.head? ≠ some 59)
    (hws : ∀ w ∈ ws, IsName w) : Line (w ++ spaced ws) := by
  refine line_of (trimmed_spaced hw hcom hws) (forall_mem_append.mpr ⟨hw.printable, fun c hc => ?_⟩)
  obtain ⟨w', hw', hc'⟩ := mem_flatMap.mp hc
  exact forall_mem_cons.mpr ⟨by decide, (hws w' hw').printable⟩ c hc'

theorem line_quoted {f : CStr} (hhd : ∃ c, f.head? = some c ∧ isBlank c = false ∧ c ≠ 59)
    (hf : ∀ c ∈ f, c ≠ 0 ∧ c ≠ 10) (t : List UInt8) : Line (f ++ writeQuoted t) := by
  have hprintable : ∀ c ∈ writeQuoted t, c ≠ 0 ∧ c ≠ 10 := by
    intro c hc
    have hge := (mem_writeQuoted hc).1
    constructor <;> rintro rfl <;> exact absurd hge (by decide)
  refine line_of ⟨?_, 34, ?_, by decide, by decide⟩ (forall_mem_append.mpr ⟨hf, hprintable⟩)
  · obtain ⟨c, hc, hok⟩ := hhd
    refine ⟨c, ?_, hok⟩
    rw [head?_append, hc]
    rfl
  · rw [writeQuoted, ← cons_append, ← append_assoc, getLast?_append]
    rfl

theorem line_writeInsn (h : InsnOk fn insn) :
    Line (writeInsn insn) ∧ ∃ c, (writeInsn insn).head? = some c ∧ c ≠ 46 := by
  by_cases hop : insn.op = .asm
  · rw [writeInsn, if_pos hop, writeAsm]
    cases hinfo : insn.asmInfo with
    | none => exact ⟨line_quoted ⟨65, rfl, by decide, by decide⟩ (by decide +kernel) _, 65, rfl, by decide⟩
    | some info =>
      have hwds := asmText_asmWords (h.asm _ hinfo)
      have hcln : ∀ c ∈ (asmWords info).flatMap (· ++ [32]), c ≠ 0 ∧ c ≠ 10 := by
        intro c hc
        obtain ⟨w, hw, hcw⟩ := mem_flatMap.mp hc
        have hnm := (hwds w hw).1.isName (hwds w hw).2
        exact forall_mem_append.mpr ⟨hnm.printable, by decide +kernel⟩ c hcw
      simp only
      rw [← append_assoc]
      exact ⟨line_quoted ⟨65, rfl, by decide, by decide⟩ (forall_mem_append.mpr ⟨by decide +kernel, hcln⟩) _,
        65, rfl, by decide⟩
  · obtain ⟨e, he, -, hln⟩ := writeInsn_plain hop
    obtain ⟨hnm, -, hlet⟩ := opTable_names e he
    obtain ⟨c, hc, -⟩ := hnm.head?
    rw [hc, Option.all_some, Bool.and_eq_true, decide_eq_true_iff, decide_eq_true_iff] at hlet
    rw [hln]
    refine ⟨line_spaced hnm ?_ (isName_insnWords h hop), c, by rw [head?_append, hc]; rfl, ?_⟩
    · rw [hc]
      rintro ⟨⟩
      exact absurd hlet.1 (by decide)
    · rintro rfl
      exact absurd hlet.1 (by decide)

/-! ## The instructions of a function -/

theorem readInsn_congr (h : SameCounts fn fn') (line : CStr) : readInsn B fn' line = readInsn B fn line := by
  have hkey : ∀ st key val, setKey B fn' st key val = setKey B fn st key val := by
    intro st key val
    cases key <;> simp [setKey, h.ntemps, h.nslots, h.nlabels]
  have hone : ∀ st tok, setOperand B fn' st tok = setOperand B fn st tok := by
    intro st tok
    simp [setOperand, hkey]
  have hli : ∀ st toks, setOperandList B fn' st toks = setOperandList B fn st toks := by
    intro st toks
    induction toks generalizing st with
    | nil => rfl
    | cons tok toks ih => simp [setOperandList, hone, ih]
  simp only [readInsn, setOperands, hli, h.ntemps]

theorem readInsn_written (hfn : FuncOk fn) (h : InsnOk fn insn) :
    (∃ i, readInsn B fn (writeInsn insn) = .ok (some i)) ∨
      ∃ msg, readInsn B fn (writeInsn insn) = .error msg := by
  by_cases hop : insn.op = .asm
  · obtain ⟨t, ht⟩ := Option.ne_none_iff_exists'.mp (h.template hop)
    rw [writeInsn, if_pos hop, writeAsm, ht, Option.getD_some]
    cases hinfo : insn.asmInfo with
    | none =>
      left
      simp only [readInsn, emitAsmLine_basic]
      exact ⟨_, rfl⟩
    | some info =>
      simp only [readInsn, emitAsmLine_extended _ (h.asm _ hinfo)]
      cases readAsmInfo B _ _ with
      | error e => exact .inr ⟨e, rfl⟩
      | ok info' => exact .inl ⟨_, rfl⟩
  · exact .inl ⟨_, readInsn_plain hfn h hop⟩

def InsnsBack (B : Backend) (fn : Func) (insns back : List Insn) : Prop :=
  List.Forall₂ (fun i i' => readInsn B fn (writeInsn i) = .ok (some i')) insns back

variable {f : Func}

theorem funcLine_insn {pos : Nat} (hcn : SameCounts fn f) (h : InsnOk fn insn) :
    funcLine B f pos (writeInsn insn) =
      match readInsn B fn (writeInsn insn) with
      | .error msg => .error ⟨pos + 1, msg⟩
      | .ok i => .ok { f with insns := f.insns ++ i.toList } := by
  obtain ⟨-, c, hc, hdot⟩ := line_writeInsn h
  have hpl : ¬(writeInsn insn).head? = some 46 := by
    rw [hc]
    simpa using hdot
  rw [funcLine, if_neg hpl]
  cases hrd : readInsn B fn _ <;> rw [readInsn_congr hcn, hrd]

theorem writeInsn_ne_endfunc (h : InsnOk fn insn) : writeInsn insn ≠ text ".endfunc" := by
  obtain ⟨-, c, hc, hdot⟩ := line_writeInsn h
  intro heq
  rw [heq] at hc
  exact hdot (Option.some.inj hc).symm

theorem funcBody_insns (hfn : FuncOk fn) {insns : List Insn} (h : ∀ i ∈ insns, InsnOk fn i)
    (hcn : SameCounts fn f) :
    (∃ back, InsnsBack B fn insns back ∧ ∀ pos rest,
      funcBody B f pos (insns.map writeInsn ++ text ".endfunc" :: rest) =
        .ok ({ f with insns := f.insns ++ back }, insns.length + 1)) ∨
    ((∀ back, ¬InsnsBack B fn insns back) ∧ ∀ pos rest, ∃ e,
      funcBody B f pos (insns.map writeInsn ++ text ".endfunc" :: rest) = .error e) := by
  induction insns generalizing f with
  | nil =>
    refine .inl ⟨[], .nil, fun pos _ => ?_⟩
    rw [map_nil, nil_append, funcBody, if_pos rfl, append_nil]
    rfl
  | cons i insns ih =>
    have hi := h i mem_cons_self
    have hrs : ∀ x ∈ insns, InsnOk fn x := fun x hx => h x (mem_cons_of_mem _ hx)
    have hln : ∀ pos, funcLine B f pos (writeInsn i) = _ := fun pos => funcLine_insn hcn hi
    simp only [map_cons, cons_append, funcBody, if_neg (writeInsn_ne_endfunc hi), hln]
    rcases readInsn_written hfn hi (B := B) with ⟨i', hi'⟩ | ⟨msg, hmsg⟩
    · simp only [hi']
      have hnx : SameCounts fn { f with insns := f.insns ++ (some i').toList } :=
        ⟨hcn.nparams, hcn.nslots, hcn.ntemps, hcn.nlabels⟩
      rcases ih hrs hnx with ⟨back, hbk, hok⟩ | ⟨hno, herr⟩
      · refine .inl ⟨i' :: back, .cons hi' hbk, fun pos _ => ?_⟩
        rw [hok]
        simp [Except.map]
      refine .inr ⟨fun back hbk => ?_, fun pos rest => ?_⟩
      · cases hbk with
        | cons _ htl => exact hno _ htl
      · obtain ⟨e, he⟩ := herr _ _
        exact ⟨e, by rw [he]; rfl⟩
    · refine .inr ⟨fun back hbk => ?_, fun pos _ => ?_⟩
      · cases hbk with
        | cons hhd _ =>
          rw [hmsg] at hhd
          cases hhd
      · simp only [hmsg]
        exact ⟨_, rfl⟩

/-! ## The lists of a function -/

/-- The reader goes over the lines and is left with the function `f'`. -/
def Passes (B : Backend) (f : Func) (lines : List CStr) (f' : Func) : Prop :=
  ∀ pos more, funcBody B f pos (lines ++ more) =
    (funcBody B f' (pos + lines.length) more).map fun r => (r.1, r.2 + lines.length)

theorem Passes.nil (f : Func) : Passes B f [] f := by
  intro pos more
  simp only [nil_append, length_nil, add_zero]
  cases funcBody B f pos _ <;> rfl

theorem Passes.single {f f' : Func} {line : CStr} (hne : line ≠ text ".endfunc")
    (hln : ∀ pos, funcLine B f pos line = .ok f') : Passes B f [line] f' := by
  intro pos more
  rw [singleton_append, funcBody, if_neg hne, hln]
  rfl

theorem Passes.append {f f' f'' : Func} {lines lines' : List CStr} (h : Passes B f lines f')
    (h' : Passes B f' lines' f'') : Passes B f (lines ++ lines') f'' := by
  intro pos more
  rw [append_assoc, h, h', length_append, add_assoc]
  cases funcBody B f'' _ _ with
  | error e => rfl
  | ok r =>
    simp only [Except.map, Except.ok.injEq, Prod.mk.injEq, true_and]
    omega

def listLine (word : String) (zs : List Int) : CStr := text word ++ spaced (zs.map decimal)

theorem isName_decimals (zs : List Int) : ∀ w ∈ zs.map decimal, IsName w :=
  forall_mem_map.mpr fun z _ => isName_decimal z

theorem passes_listLine {f f' : Func} {word : String} {zs : List Int} (hwd : IsName (text word))
    (hdot : (text word).head? = some 46) (hend : text word ≠ text ".endfunc")
    (hdir : funcDirective B f (text word :: (zs.map decimal).take (maxTokens - 1)) = some f') :
    Passes B f [listLine word zs] f' := by
  have htok : tokenize (listLine word zs) = text word :: (zs.map decimal).take (maxTokens - 1) := by
    rw [listLine, tokenize_spaced hwd (isName_decimals zs)]
    rfl
  have hhd : (listLine word zs).head? = some 46 := by
    rw [listLine, head?_append, hdot]
    rfl
  apply Passes.single
  · intro heq
    have hone := congrArg tokenize heq
    rw [htok, show tokenize _ = [text ".endfunc"] by decide +kernel] at hone
    exact hend (cons.inj hone).1
  · intro pos
    rw [funcLine, if_pos hhd, htok, hdir]

theorem map_intOf_decimal {zs : List Int} (h : ∀ z ∈ zs, IsInt z) :
    (zs.map decimal).map (intOf B) = zs := by
  rw [map_map]
  conv_rhs => rw [← map_id zs]
  apply map_congr_left
  intro z hz
  exact intOf_decimal (h z hz)

def carriedSlots (fn : Func) : List Int :=
  fn.slotSize.take (maxTokens - 1) ++ replicate (fn.slotSize.length - (maxTokens - 1)) 0

theorem overlay_slotSize (h : FuncOk fn) : overlay (replicate fn.nslots.toNat 0)
      (((fn.slotSize.map decimal).take (maxTokens - 1)).map (intOf B)) = carriedSlots fn := by
  have hlen : fn.nslots.toNat = fn.slotSize.length := by
    have := h.slotSize_length
    omega
  rw [map_take, map_intOf_decimal h.slotSize, overlay, hlen, carriedSlots]
  simp only [length_replicate, length_take, drop_replicate]
  rw [take_of_length_le (by simp)]
  congr 2
  omega

/-- What a list line may change: nothing but a list. -/
structure SameBody (f f' : Func) : Prop where
  counts : SameCounts f f'
  insns : f'.insns = f.insns

theorem SameCounts.trans {f f' f'' : Func} (h : SameCounts f f') (h' : SameCounts f' f'') :
    SameCounts f f'' :=
  ⟨h'.nparams.trans h.nparams, h'.nslots.trans h.nslots, h'.ntemps.trans h.ntemps,
    h'.nlabels.trans h.nlabels⟩

theorem passes_slotSize (h : FuncOk fn) (hsl : f.slotSize = replicate fn.nslots.toNat 0) :
    ∃ f', SameBody f f' ∧ f'.slotSize = carriedSlots fn ∧
      Passes B f (if 0 < fn.nslots ∧ fn.slotSize ≠ [] then [listLine ".slotsize" fn.slotSize] else [])
        f' := by
  split
  next =>
    have hps : Passes B f [listLine ".slotsize" fn.slotSize] _ :=
      passes_listLine (by decide) rfl (by decide) rfl
    refine ⟨_, ?_, ?_, hps⟩
    · exact ⟨⟨rfl, rfl, rfl, rfl⟩, rfl⟩
    · simp only [hsl]
      exact overlay_slotSize h
  next hno =>
    refine ⟨f, ⟨⟨rfl, rfl, rfl, rfl⟩, rfl⟩, ?_, .nil f⟩
    -- no line is printed only when there is no slot
    have hlen := h.slotSize_length
    have hnil : fn.slotSize = [] := by
      by_contra hne
      have := length_pos_iff.mpr hne
      exact hno ⟨by omega, hne⟩
    rw [hnil, length_nil, Int.ofNat_zero] at hlen
    rw [hsl, carriedSlots, hnil, ← hlen]
    rfl

theorem passes_paramList (f : Func) (p : Prop) [Decidable p] {word : String} (zs : List Int)
    (hwd : word = ".paramclass" ∨ word = ".paramfw") : ∃ f', SameBody f f' ∧ f'.slotSize = f.slotSize ∧
      Passes B f (if p then [listLine word zs] else []) f' := by
  split
  · rcases hwd with rfl | rfl
    · have hps : Passes B f [listLine ".paramclass" zs] _ :=
        passes_listLine (by decide) rfl (by decide) rfl
      refine ⟨_, ?_, ?_, hps⟩
      · exact ⟨⟨rfl, rfl, rfl, rfl⟩, rfl⟩
      · rfl
    · have hps : Passes B f [listLine ".paramfw" zs] _ := passes_listLine (by decide) rfl (by decide) rfl
      refine ⟨_, ?_, ?_, hps⟩
      · exact ⟨⟨rfl, rfl, rfl, rfl⟩, rfl⟩
      · rfl
  · exact ⟨f, ⟨⟨rfl, rfl, rfl, rfl⟩, rfl⟩, rfl, .nil f⟩

theorem passes_funcLists (h : FuncOk fn) (hcn : SameCounts fn f)
    (hsl : f.slotSize = replicate fn.nslots.toNat 0) :
    ∃ f', SameCounts fn f' ∧ f'.insns = f.insns ∧ f'.slotSize = carriedSlots fn ∧
      Passes B f (funcLists fn) f' := by
  obtain ⟨f1, hsame1, hsize1, h1⟩ := passes_slotSize h hsl
  obtain ⟨f2, hsame2, hsize2, h2⟩ := passes_paramList f1
    (0 < fn.nparams ∧ fn.paramClass ≠ []) _ (.inl rfl)
  obtain ⟨f3, hsame3, hsize3, h3⟩ := passes_paramList f2
    (0 < fn.nparams ∧ fn.paramFw.any _) _ (.inr rfl)
  refine ⟨f3, ((hcn.trans hsame1.counts).trans hsame2.counts).trans hsame3.counts, ?_, ?_,
    (h1.append h2).append h3⟩
  · rw [hsame3.insns, hsame2.insns, hsame1.insns]
  · rw [hsize3, hsize2, hsize1]

/-! ## The header -/

theorem funcFlags_flag (f : Func) {t : CStr}
    (ht : t ∉ [text "from", text "params", text "slots", text "temps", text "labels"]) (ts : List CStr) :
    funcFlags B f (t :: ts) = funcFlags B (funcFlag f t) ts := by
  simp only [mem_cons, not_mem_nil, or_false, not_or] at ht
  obtain ⟨h1, h2, h3, h4, h5⟩ := ht
  cases ts with
  | nil => rfl
  | cons v ts => rw [funcFlags, if_neg h1, if_neg h2, if_neg h3, if_neg h4, if_neg h5]

theorem funcFlags_counts (h : FuncOk fn) (f : Func) :
    funcFlags B f [text "params", decimal fn.nparams, text "slots", decimal fn.nslots, text "temps",
      decimal fn.ntemps, text "labels", decimal fn.nlabels] =
    { f with nparams := fn.nparams, nslots := fn.nslots, ntemps := fn.ntemps, nlabels := fn.nlabels } := by
  have hpars : IsInt fn.nparams := by
    have := h.params
    have := h.slots
    unfold IsInt at *
    omega
  have hst : ∀ f v ts,
      funcFlags B f (text "params" :: v :: ts) = funcFlags B { f with nparams := intOf B v } ts ∧
      funcFlags B f (text "slots" :: v :: ts) = funcFlags B { f with nslots := intOf B v } ts ∧
      funcFlags B f (text "temps" :: v :: ts) = funcFlags B { f with ntemps := intOf B v } ts ∧
      funcFlags B f (text "labels" :: v :: ts) = funcFlags B { f with nlabels := intOf B v } ts :=
    fun f v ts => ⟨rfl, rfl, rfl, rfl⟩
  rw [(hst _ _ _).1, (hst _ _ _).2.1, (hst _ _ _).2.2.1, (hst _ _ _).2.2.2, funcFlags,
    intOf_decimal hpars, intOf_decimal h.slots, intOf_decimal h.temps.2, intOf_decimal h.labels.2]

theorem funcFlags_funcWords (h : FuncOk fn) (f : Func) :
    ∃ f' : Func, f'.insns = f.insns ∧ funcFlags B f (funcWords fn) =
      { f' with nparams := fn.nparams, nslots := fn.nslots, ntemps := fn.ntemps, nlabels := fn.nlabels } := by
  have hoptional : ∀ f (b : Bool) t ts, t = text "local" ∨ t = text "variadic" →
      ∃ f', f'.insns = f.insns ∧ funcFlags B f ((if b then [t] else []) ++ ts) = funcFlags B f' ts := by
    intro f b t ts ht
    cases b with
    | false => exact ⟨f, rfl, rfl⟩
    | true =>
      refine ⟨funcFlag f t, ?_, ?_⟩
      · unfold funcFlag
        split_ifs <;> rfl
      · apply funcFlags_flag
        rcases ht with rfl | rfl <;> decide
  have hfm : ∀ f ts, ∃ f', f'.insns = f.insns ∧
      funcFlags B f (fromWords fn.fromUnit ++ ts) = funcFlags B f' ts := by
    intro f ts
    cases fn.fromUnit with
    | none => exact ⟨f, rfl, rfl⟩
    | some u => exact ⟨{ f with fromUnit := some u }, rfl, rfl⟩
  unfold funcWords
  simp only [append_assoc]
  obtain ⟨f1, h1, e1⟩ := hoptional f _ _ _ (.inl rfl)
  obtain ⟨f2, h2, e2⟩ := hoptional f1 _ _ _ (.inr rfl)
  obtain ⟨f3, h3, e3⟩ := hfm f2 _
  refine ⟨f3, by rw [h3, h2, h1], ?_⟩
  rw [e1, e2, e3, funcFlags_counts h]

theorem isName_fromWords {u : Option CStr} (h : ∀ n, u = some n → IsName n) :
    ∀ w ∈ fromWords u, IsName w := by
  cases u with
  | none => exact fun w hw => absurd hw not_mem_nil
  | some n => exact forall_mem_cons.mpr ⟨by decide, forall_mem_singleton.mpr (h n rfl)⟩

theorem length_fromWords (u : Option CStr) : (fromWords u).length ≤ 2 := by
  cases u <;> simp [fromWords]

theorem isName_funcWords (h : FuncOk fn) : ∀ w ∈ fn.name :: funcWords fn, IsName w := by
  unfold funcWords
  simp only [forall_mem_cons, forall_mem_append, isName_decimal]
  exact ⟨h.name, ⟨⟨isName_optional (by decide), isName_optional (by decide)⟩, isName_fromWords h.fromUnit⟩,
    by decide, trivial, by decide, trivial, by decide, trivial, by decide, trivial, by simp⟩

theorem length_funcWords (fn : Func) : (funcWords fn).length ≤ 12 := by
  have hloc := length_optional (p := fn.isLocal) (l := [text "local"])
  have hvariadic := length_optional (p := fn.isVariadic) (l := [text "variadic"])
  have hfm := length_fromWords fn.fromUnit
  unfold funcWords
  simp only [length_append, length_cons, length_nil] at *
  omega

/-! ## One function -/

/-- What the reader makes of a written function. -/
structure FuncBack (B : Backend) (fn fn' : Func) : Prop where
  slots : fn.nslots ≤ kpmMaxCount
  temps : fn.ntemps ≤ kpmMaxCount
  labels : fn.nlabels ≤ kpmMaxCount
  nparams : fn'.nparams = fn.nparams
  nslots : fn'.nslots = fn.nslots
  slotSize : fn'.slotSize = carriedSlots fn
  insns : InsnsBack B fn fn.insns fn'.insns

def bodyLines (fn : Func) : List CStr := funcLists fn ++ fn.insns.map writeInsn ++ [text ".endfunc"]

theorem readFunc_written (h : FuncOk fn) : (∃ fn', FuncBack B fn fn' ∧ ∀ pos rest,
      readFunc B pos (text ".func" ++ spaced (fn.name :: funcWords fn)) (bodyLines fn ++ rest) =
        .ok (fn', (bodyLines fn).length)) ∨ ((∀ fn', ¬FuncBack B fn fn') ∧ ∀ pos rest, ∃ e,
      readFunc B pos (text ".func" ++ spaced (fn.name :: funcWords fn)) (bodyLines fn ++ rest) =
        .error e) := by
  have hlen := length_funcWords fn
  have htok : tokenize (text ".func" ++ spaced (fn.name :: funcWords fn)) =
      text ".func" :: fn.name :: funcWords fn := by
    apply tokenize_spaced_of_le (by decide) (isName_funcWords h)
    rw [length_cons]
    unfold maxTokens
    omega
  obtain ⟨f, hins, hflg⟩ := funcFlags_funcWords (B := B) h { name := fn.name }
  have hpars := h.params
  have htmp := h.temps.1
  have hlbs := h.labels.1
  simp only [readFunc, htok, hflg]
  by_cases hcn : fn.nslots ≤ kpmMaxCount ∧ fn.ntemps ≤ kpmMaxCount ∧ fn.nlabels ≤ kpmMaxCount
  · have hin : ∀ n, 0 ≤ n → n ≤ kpmMaxCount → countInRange n = true := by
      intro n hlo hhi
      simp [countInRange, hlo, hhi]
    rw [hin _ hpars.1 (hpars.2.trans hcn.1), hin _ (hpars.1.trans hpars.2) hcn.1,
      hin _ htmp hcn.2.1, hin _ hlbs hcn.2.2]
    simp only [and_self, not_true_eq_false, if_false, if_neg (not_lt.mpr hpars.2)]
    obtain ⟨f', hcn', hins', hsl', hps⟩ := passes_funcLists h (f := allocArrays { f with
        nparams := fn.nparams, nslots := fn.nslots, ntemps := fn.ntemps, nlabels := fn.nlabels })
      ⟨rfl, rfl, rfl, rfl⟩ rfl
    have hbo : ∀ pos rest, funcBody B (allocArrays { f with
        nparams := fn.nparams, nslots := fn.nslots, ntemps := fn.ntemps, nlabels := fn.nlabels })
        pos (bodyLines fn ++ rest) =
        (funcBody B f' (pos + (funcLists fn).length)
          (fn.insns.map writeInsn ++ text ".endfunc" :: rest)).map fun r =>
            (r.1, r.2 + (funcLists fn).length) := by
      intro pos rest
      rw [← hps, bodyLines]
      simp
    rcases funcBody_insns h h.insns hcn' with ⟨back, hbk, hok⟩ | ⟨hno, herr⟩
    · left
      refine ⟨deriveAbi { f' with insns := f'.insns ++ back }, ?_, fun pos _ => ?_⟩
      · refine ⟨hcn.1, hcn.2.1, hcn.2.2, hcn'.nparams, hcn'.nslots, hsl', ?_⟩
        have hemp : f'.insns = [] := hins'.trans hins
        show InsnsBack B fn fn.insns (f'.insns ++ back)
        rw [hemp, nil_append]
        exact hbk
      · rw [hbo, hok]
        simp [Except.map, bodyLines]
        omega
    · right
      refine ⟨fun fn' hbk => hno _ hbk.insns, fun pos rest => ?_⟩
      obtain ⟨e, he⟩ := herr _ _
      exact ⟨e, by rw [hbo, he]; rfl⟩
  · right
    refine ⟨fun fn' hbk => hcn ⟨hbk.slots, hbk.temps, hbk.labels⟩, fun pos _ => ?_⟩
    have hout : ¬(countInRange fn.nparams ∧ countInRange fn.nslots ∧ countInRange fn.ntemps ∧
        countInRange fn.nlabels) := by
      simp only [countInRange, Bool.and_eq_true, decide_eq_true_iff]
      rintro ⟨-, hsl, htmp', hlbs'⟩
      exact hcn ⟨hsl.2, htmp'.2, hlbs'.2⟩
    exact ⟨_, if_pos hout⟩

theorem carriedSlots_eq_iff : carriedSlots fn = fn.slotSize ↔
    ∀ z ∈ fn.slotSize.drop (maxTokens - 1), z = 0 := by
  conv_lhs => rhs; rw [← take_append_drop (maxTokens - 1) fn.slotSize]
  rw [carriedSlots, append_cancel_left_eq, eq_comm, eq_replicate_iff, length_drop]
  exact and_iff_right rfl

theorem sameFunc_iff (h : FuncOk fn) (hbk : FuncBack B fn fn') : SameFunc fn fn' ↔ FuncCarried fn := by
  constructor
  · intro hsm
    have hsl : carriedSlots fn = fn.slotSize := hbk.slotSize.symm.trans hsm.slotSize
    have hins := hbk.insns
    rw [hsm.insns] at hins
    refine ⟨hbk.slots, hbk.temps, hbk.labels, carriedSlots_eq_iff.mp hsl, ?_⟩
    intro insn hmem
    exact (readInsn_iff h (h.insns _ hmem)).mp (forall₂_same.mp hins _ hmem)
  intro hcar
  refine ⟨hbk.nparams, hbk.nslots, ?_, ?_⟩
  · rw [hbk.slotSize]
    exact carriedSlots_eq_iff.mpr hcar.slotSize
  -- each line gives the instruction it was written for, so the lists agree
  have hsf : InsnsBack B fn fn.insns fn.insns := forall₂_same.mpr fun insn hmem =>
    (readInsn_iff h (h.insns _ hmem)).mpr (hcar.insns _ hmem)
  have huniq : Relator.RightUnique
      fun i i' => readInsn B fn (writeInsn i) = .ok (some i') := by
    intro i i' i'' h' h''
    rw [h'] at h''
    exact Option.some.inj (Except.ok.inj h'')
  exact right_unique_forall₂' huniq hbk.insns hsf

theorem funcBack_self (h : FuncOk fn) (hcar : FuncCarried fn) : FuncBack B fn fn := by
  refine ⟨hcar.slots, hcar.temps, hcar.labels, rfl, rfl, ?_, ?_⟩
  · exact (carriedSlots_eq_iff.mpr hcar.slotSize).symm
  · exact forall₂_same.mpr fun insn hmem =>
      (readInsn_iff h (h.insns _ hmem)).mpr (hcar.insns _ hmem)

end Skjegg.Kobold.Kpm
