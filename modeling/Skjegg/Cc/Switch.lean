import Skjegg.Cc.Stmt

/-!
# Switches

The labels of a switch are collected by one walk over its body and placed by another.  Execution goes on at
the label C selects for a control value exactly when the first walk finds it and the comparisons are as wide
as the control expression.
-/

namespace Skjegg.Cc

open Lib Lib.LabelCode Lower List SwitchCtx

/-! ## The label C selects -/

/-- Equality of a control value and a case constant, in 64 bits or in the low 32. -/
def sees (wide : Bool) (t v : BitVec 64) : Bool :=
  if wide then t == v else t.setWidth 32 == v.setWidth 32

def CaseLabel.holds (wide : Bool) (t : BitVec 64) : CaseLabel → Bool
  | .case v => sees wide t v
  | .default => false

/-- The case with the control value, or else the `default`. -/
def selects (wide : Bool) (ms : List CaseLabel) (t : BitVec 64) : Option CaseLabel :=
  (ms.find? (·.holds wide t)).or (ms.find? (· == .default))

/-- The case labels of a statement, those of inner switches apart. -/
def marks : Stmt → List CaseLabel
  | .seq s t | .ifElse _ s t => marks s ++ marks t
  | .ifThen _ s | .while _ s | .doWhile s _ | .for _ _ _ s | .label _ s => marks s
  | .case v s => (v.toOption.map CaseLabel.case).toList ++ marks s
  | .default s => .default :: marks s
  | _ => []

/-- Those that `collect_cases` finds. -/
def found : Stmt → List CaseLabel
  | .seq s t => found s ++ found t
  | .case v s => (v.toOption.map CaseLabel.case).toList ++ found s
  | .default s => .default :: found s
  | _ => []

def CaseLabel.clash (long : Bool) : CaseLabel → CaseLabel → Bool
  | .case v, .case w => sees long v w
  | .default, .default => true
  | _, _ => false

/-- A switch as C has it: its cases differ in the type of the control expression, and it has one `default` at
most. -/
structure Switch where
  control : Control
  body : Stmt
  distinct : (marks body).Pairwise fun m n => m.clash control.long n = false

/-- What executes the code: the effect of expressions, their tests, and the control value they leave. -/
structure Exec (S : Type) where
  eval : ExprNode → S → S
  cond : ExprNode → S → Bool
  val : S → BitVec 64

def Exec.act {S : Type} (M : Exec S) : StmtAct → S → S
  | .expr e, s => M.eval e s
  | .mark _ _, s => s

def Exec.test {S : Type} (M : Exec S) : StmtTest → S → Bool
  | .cond c, s => M.cond c s
  | .same wide v, s => sees wide (M.val s) v

/-- Execution comes to a label right in front of the case label, or else to the end of the switch;
no label made for the switch or later comes before. -/
def ComesTo {S : Type} (M : Exec S) (st : LabelState) (prog after : StmtCode) (head : StmtCode × S) (a : S) :
    Option CaseLabel → Prop
  | none => Arrives M.act M.test prog {l | st.next ≤ l} head (.label st.next :: after, a)
  | some m => ∃ l rest, Arrives M.act M.test prog {l | st.next ≤ l} head
      (.label l :: .act (.mark st.next m) :: rest, a)

/-- From the head of the switch, in any program around it, execution goes on where C has it. -/
def ContinuesRight {S : Type} (M : Exec S) (sw : Switch) (st : LabelState) (code : StmtCode) (a : S) : Prop :=
  ∀ before after : StmtCode, (∀ l ∈ labels before, l < st.next) →
    let a' := M.eval sw.control.expr a
    ComesTo M st (before ++ code ++ after) after (code ++ after, a) a'
      (selects sw.control.long (marks sw.body) (M.val a'))

/-! ## The table -/

variable {sw : SwitchCtx} {es : List (CaseLabel × Nat)} {m : CaseLabel} {l lend : Nat} {p q : Lower}
  {ms ns : List CaseLabel} {st st' : LabelState} {code : StmtCode} {s : Stmt} {x : LowerCtx}

/-- The walk of `collect_cases` numbers the labels it finds. -/
theorem collectCases_ok {k : SwitchCtx → Lower} {r : StmtCode × LabelState}
    (h : collectCases s ⟨lend, es⟩ k st = .ok r) :
    ∃ st' : LabelState, st'.next = st.next + (found s).length ∧ st'.named = st.named ∧
      k ⟨lend, es ++ (found s).zipIdx st.next⟩ st' = .ok r := by
  induction s generalizing es k st with
  | case v s ih =>
    cases v with
    | error e => cases h
    | ok v =>
      simp only [collectCases, newLabel, caseConst] at h
      split at h
      · obtain ⟨st', hnext, hnamed, hk⟩ := ih h
        refine ⟨st', ?_, hnamed, ?_⟩
        · show st'.next = st.next + ((found s).length + 1)
          rw [hnext, LabelState.fresh, Nat.add_right_comm, Nat.add_assoc]
        · rwa [append_assoc] at hk
      · cases h
  | default s ih =>
    change collectCases s _ k st.fresh = _ at h
    obtain ⟨st', hnext, hnamed, hk⟩ := ih h
    refine ⟨st', ?_, hnamed, by rwa [append_assoc] at hk⟩
    rw [hnext, LabelState.fresh, found, length_cons, Nat.add_right_comm, Nat.add_assoc]
  | seq s t ihs iht =>
    obtain ⟨st₁, hnext₁, hnamed₁, hk₁⟩ := ihs h
    obtain ⟨st₂, hnext₂, hnamed₂, hk₂⟩ := iht hk₁
    refine ⟨st₂, ?_, hnamed₂.trans hnamed₁, ?_⟩
    · rw [hnext₂, hnext₁, found, length_append, Nat.add_assoc]
    · rwa [found, zipIdx_append, ← append_assoc, ← hnext₁]
  | _ => exact ⟨st, rfl, rfl, (congrArg (fun es => k ⟨lend, es⟩ st) (append_nil es)).trans h⟩

theorem mem_of_lookup (h : es.lookup m = some l) : (m, l) ∈ es := by
  obtain ⟨l₁, l₂, rfl, -⟩ := lookup_eq_some_iff.mp h
  simp

theorem lookup_of_mem (hnodup : (es.map Prod.fst).Nodup) (h : (m, l) ∈ es) : es.lookup m = some l := by
  cases hfind : es.lookup m with
  | none => exact absurd (List.lookup_eq_none_iff.mp hfind _ h) (by simp)
  | some l' => exact congrArg (some ∘ Prod.snd) (inj_on_of_nodup_map hnodup (mem_of_lookup hfind) h rfl)

theorem mem_of_labelOf (h : labelOf ⟨lend, es⟩ m = some l) (hl : l ≠ noLabel) : (m, l) ∈ es := by
  cases m with
  | case v => exact mem_of_lookup h
  | default =>
    cases hd : es.reverse.lookup .default with
    | none => exact absurd (by simpa [labelOf, defaultLabel, hd] using h.symm) hl
    | some d =>
      have hdl : d = l := by simpa [labelOf, defaultLabel, hd] using h
      exact hdl ▸ mem_reverse.mp (mem_of_lookup hd)

theorem labelOf_of_mem (hnodup : (es.map Prod.fst).Nodup) (h : (m, l) ∈ es) :
    labelOf ⟨lend, es⟩ m = some l := by
  cases m with
  | case v => exact lookup_of_mem hnodup h
  | default =>
    have hd : es.reverse.lookup .default = some l :=
      lookup_of_mem (by simpa using hnodup) (mem_reverse.mpr h)
    simp [labelOf, defaultLabel, hd]

/-! ## The placed labels -/

/-- The code has the label `l` for the case labels `ms` that the table has it for, right in front of each, and
nowhere else; `l` is a label and not a named one from `st` on. -/
structure Laid (sw : SwitchCtx) (l : Nat) (ms : List CaseLabel) (code : StmtCode) (st : LabelState) : Prop where
  next : l < st.next
  named : l ∉ st.named.map Prod.snd
  count : (labels code).count l = ms.countP fun m => sw.labelOf m = some l
  place : ∀ m ∈ ms, sw.labelOf m = some l →
    ∃ pre rest, code = pre ++ .label l :: .act (.mark sw.endLabel m) :: rest

def Lays (sw : SwitchCtx) (l : Nat) (ms : List CaseLabel) (p : Lower) : Prop :=
  ∀ st code st', l < st.next → l ∉ st.named.map Prod.snd → p st = .ok (code, st') → Laid sw l ms code st'

theorem lays_emit {c : StmtCode} (h : l ∉ labels c) : Lays sw l [] (emit c) := by
  rintro st _ _ hnext hnamed ⟨⟩
  exact ⟨hnext, hnamed, count_eq_zero.mpr h, by simp⟩

theorem lays_fail {e : Stop} : Lays sw l ms (fail e) :=
  fun _ _ _ _ _ h => nomatch h

theorem lays_mark : Lays sw l [m] (emit (sw.mark m)) := by
  rintro st _ _ hnext hnamed ⟨⟩
  refine ⟨hnext, hnamed, ?_, fun m' hm hlabel => ⟨[], [], ?_⟩⟩
  · cases hlabel : sw.labelOf m <;> simp [mark, hlabel, labels, count_cons]
  · rw [mem_singleton.mp hm] at hlabel ⊢
    simp [mark, hlabel]

theorem andThen_ok (h : (p ++ q) st = .ok (code, st')) :
    ∃ c st₁ d, p st = .ok (c, st₁) ∧ q st₁ = .ok (d, st') ∧ code = c ++ d := by
  change andThen p q st = _ at h
  unfold andThen at h
  split at h
  · cases h
  next c st₁ hp =>
    split at h
    · cases h
    next d st₂ hq =>
      cases h
      exact ⟨c, st₁, d, hp, hq, rfl⟩

theorem Lays.append (hp : Lays sw l ms p) (hq : Lays sw l ns q) : Lays sw l (ms ++ ns) (p ++ q) := by
  intro st code st' hnext hnamed h
  obtain ⟨c, st₁, d, hc, hd, rfl⟩ := andThen_ok h
  have h₁ := hp st c st₁ hnext hnamed hc
  have h₂ := hq st₁ d st' h₁.next h₁.named hd
  refine ⟨h₂.next, h₂.named, ?_, fun m hm hlabel => ?_⟩
  · rw [labels_append, count_append, h₁.count, h₂.count, countP_append]
  · rcases mem_append.mp hm with hm | hm
    · obtain ⟨pre, rest, rfl⟩ := h₁.place m hm hlabel
      exact ⟨pre, rest ++ d, by simp⟩
    · obtain ⟨pre, rest, rfl⟩ := h₂.place m hm hlabel
      exact ⟨c ++ pre, rest, by simp⟩

theorem Lays.newLabel {k : Nat → Lower} (h : ∀ l', l < l' → Lays sw l ms (k l')) : Lays sw l ms (newLabel k) :=
  fun st code st' hnext hnamed hk => h st.next hnext st.fresh code st' (Nat.lt_succ_of_lt hnext) hnamed hk

theorem Lays.named {n : String} {k : Nat → Lower} (h : ∀ l', l' ≠ l → Lays sw l ms (k l')) :
    Lays sw l ms (getNamedLabel n k) := by
  intro st code st' hnext hnamed hk
  unfold getNamedLabel at hk
  split at hk
  next l' hfind =>
    obtain ⟨l₁, l₂, heq, -⟩ := lookup_eq_some_iff.mp hfind
    refine h l' ?_ st code st' hnext hnamed hk
    rintro rfl
    exact hnamed (by rw [heq]; simp)
  · split at hk
    · refine h st.next hnext.ne' _ code st' (Nat.lt_succ_of_lt hnext) ?_ hk
      simpa [LabelState.name, hnext.ne] using hnamed
    · cases hk

theorem Lays.expr (e : ExprNode) (h : Lays sw l ms p) : Lays sw l ms (lowerExpr e p) := by
  unfold lowerExpr
  induction e.labels with
  | nil =>
    cases e.error with
    | none => exact h
    | some text => exact lays_fail
  | cons name labels ih => exact Lays.named fun _ _ => ih

theorem lays_optional (e : Option ExprNode) : Lays sw l [] (lowerOptional e) := by
  cases e with
  | none => exact lays_emit (by simp [labels])
  | some e => exact Lays.expr e (lays_emit (by simp [labels]))

theorem lays_test (c : ExprNode) (ltrue lfalse : Nat) : Lays sw l [] (lowerTest c ltrue lfalse) :=
  Lays.expr c (lays_emit (by simp [labels]))

theorem lays_forTest (cond : Option ExprNode) (lbody lbrk : Nat) :
    Lays sw l [] (lowerForTest cond lbody lbrk) := by
  cases cond with
  | none => exact lays_emit (by simp [labels])
  | some c => exact lays_test c _ _

theorem Lays.push {f : LoopCtx} {k : LowerCtx → Lower} (h : Lays sw l ms (k { x with loops := f :: x.loops })) :
    Lays sw l ms (pushLoop x f k) := by
  unfold pushLoop
  split
  · exact h
  · exact lays_fail

theorem Lays.append_none (h : Lays sw l ms p) (hq : Lays sw l [] q) : Lays sw l ms (p ++ q) := by
  have happ := h.append hq
  rwa [append_nil] at happ

theorem lays_label {l' : Nat} (h : l < l') : Lays sw l [] (emit [.label l']) :=
  lays_emit (by simpa [labels] using h.ne)

theorem Lays.label {l' : Nat} (h : Lays sw l ms p) (hl : l < l') : Lays sw l ms (p ++ emit [.label l']) :=
  h.append_none (lays_label hl)

theorem Lays.jumpLabel {l' j : Nat} (h : Lays sw l ms p) (hl : l < l') :
    Lays sw l ms (p ++ emit [.jump j, .label l']) :=
  h.append_none (lays_emit (by simpa [labels] using hl.ne))

/-- A statement that another table, without the label, was lowered with. -/
theorem Lays.other {tab : SwitchCtx} (h : Lays tab l ms p) (hno : ∀ m, tab.labelOf m ≠ some l) :
    Lays sw l [] p := by
  intro st code st' hnext hnamed hok
  have hl := h st code st' hnext hnamed hok
  refine ⟨hl.next, hl.named, ?_, by simp⟩
  rw [hl.count, countP_nil]
  simp [hno]

theorem Lays.collect {k : SwitchCtx → Lower} (hl : 0 < l)
    (h : ∀ tab : SwitchCtx, (∀ m, tab.labelOf m ≠ some l) → Lays sw l ms (k tab)) :
    Lays sw l ms (collectCases s ⟨lend, []⟩ k) := by
  intro st code st' hnext hnamed hok
  obtain ⟨st₁, hnext₁, hnamed₁, hk⟩ := collectCases_ok hok
  refine h _ (fun m hm => ?_) st₁ code st' (by omega) (by rwa [hnamed₁]) hk
  have hle := le_snd_of_mem_zipIdx (mem_of_labelOf hm hl.ne')
  exact absurd hnext (Nat.not_lt.mpr hle)

theorem labels_dispatch (wide : Bool) (tab : SwitchCtx) : labels (dispatch wide tab) = [] := by
  rw [dispatch, labels_append]
  induction tab.cases with
  | nil => rfl
  | cons c cs ih => exact ih

/-- The walk of `lower_stmt` places each case label behind the label the table has for it. -/
theorem lowerStmt_lays (hl : 0 < l) (hx : x.sw = some sw) : Lays sw l (marks s) (lowerStmt s x) := by
  induction s generalizing x sw with
  | empty => exact lays_emit (by simp [labels])
  | seq s t ihs iht => exact (ihs hx).append (iht hx)
  | simple e => exact lays_optional (some e)
  | ifThen c s ih =>
    exact .newLabel fun _ h₁ => .newLabel fun _ h₂ => .newLabel fun _ _ =>
      (((lays_test c _ _).label h₁).append (ih hx)).label h₂
  | ifElse c s t ihs iht =>
    exact .newLabel fun _ h₁ => .newLabel fun _ h₂ => .newLabel fun _ h₃ =>
      (((((lays_test c _ _).label h₁).append (ihs hx)).jumpLabel h₂).append (iht hx)).label h₃
  | «while» c s ih =>
    exact .newLabel fun _ h₁ => .newLabel fun _ h₂ => .newLabel fun _ h₃ =>
      ((((lays_label h₁).append (lays_test c _ _)).label h₂).append (.push (ih hx))).jumpLabel h₃
  | doWhile s c ih =>
    exact .newLabel fun _ h₁ => .newLabel fun _ h₂ => .newLabel fun _ h₃ =>
      ((((lays_label h₁).append (.push (ih hx))).label h₂).append_none (lays_test c _ _)).label h₃
  | «for» init cond incr s ih =>
    exact .newLabel fun _ h₁ => .newLabel fun _ h₂ => .newLabel fun _ h₃ => .newLabel fun _ h₄ =>
      (((((((lays_optional init).label h₁).append (lays_forTest cond _ _)).label h₂).append
        (.push (ih hx))).label h₃).append_none (lays_optional incr)).jumpLabel h₄
  | switch c s ih =>
    refine .newLabel fun lend hlend => .collect hl fun tab hno => ?_
    have hbody : Lays sw l [] (pushLoop x ⟨lend, none⟩ fun x => lowerStmt s { x with sw := some tab }) :=
      .push ((ih rfl).other hno)
    have hdispatch : Lays sw l [] (emit (dispatch c.wide tab)) := lays_emit (by simp [labels_dispatch])
    exact (((lays_optional (some c.expr)).append hdispatch).append hbody).label hlend
  | case v s ih =>
    unfold lowerStmt
    rw [hx]
    cases v with
    | error e => exact lays_fail
    | ok v => exact lays_mark.append (ih hx)
  | default s ih =>
    unfold lowerStmt
    rw [hx]
    exact lays_mark.append (ih hx)
  | «break» =>
    unfold lowerStmt
    split
    · exact lays_fail
    · exact lays_emit (by simp [labels])
  | «continue» =>
    unfold lowerStmt
    split
    · exact lays_fail
    · exact lays_emit (by simp [labels])
  | goto name => exact .named fun _ _ => lays_emit (by simp [labels])
  | label name s ih =>
    exact .named fun _ hne => (lays_emit (by simpa [labels] using hne.symm)).append (ih hx)

/-! ## The dispatch -/

section Dispatch

variable {S : Type} {M : Exec S} {prog rest : StmtCode} {stops : Set Nat} {a : S} {wide : Bool}

/-- The label a control value is dispatched to. -/
def SwitchCtx.target (sw : SwitchCtx) (wide : Bool) (t : BitVec 64) : Nat :=
  ((sw.cases.find? fun c => sees wide t c.1).map Prod.snd).getD (sw.defaultLabel.getD sw.endLabel)

theorem dispatch_arrives {target : StmtCode} (hfind : findLabel (sw.target wide (M.val a)) prog = some target)
    (hstop : AtStop stops target l) :
    Arrives M.act M.test prog stops (dispatch wide sw ++ rest, a) (target, a) := by
  unfold dispatch
  unfold SwitchCtx.target at hfind
  generalize sw.cases = cs at hfind
  induction cs with
  | nil =>
    have hjump : findLabel (sw.defaultLabel.getD sw.endLabel) prog = some target := hfind
    refine .next (fun k hk => nomatch hk.2.choose_spec) ?_ (.stop hstop)
    simp [step, hjump]
  | cons c cs ih =>
    by_cases hsees : sees wide (M.val a) c.1 = true
    · have hjump : findLabel c.2 prog = some target := by simpa [hsees] using hfind
      refine .next (fun k hk => nomatch hk.2.choose_spec) ?_ (.stop hstop)
      simp [step, Exec.test, hsees, hjump]
    · refine .next (fun k hk => nomatch hk.2.choose_spec) ?_ (ih ?_)
      · simp [step, Exec.test, hsees]
      · simpa [hsees] using hfind

/-- The target is the label of what is selected among the labels of the table, or else the end. -/
theorem target_eq (wide : Bool) (lend : Nat) (es : List (CaseLabel × Nat)) (t : BitVec 64) :
    match selects wide (es.map Prod.fst) t with
    | none => SwitchCtx.target ⟨lend, es⟩ wide t = lend
    | some m => (m, SwitchCtx.target ⟨lend, es⟩ wide t) ∈ es := by
  have hcase : (fun e => (caseEntry e).any fun c => sees wide t c.1) = fun e => e.1.holds wide t := by
    funext ⟨m, l⟩
    cases m <;> rfl
  rw [selects, SwitchCtx.target, cases, find?_filterMap, hcase, find?_map, find?_map]
  cases hfind : es.find? fun e => e.1.holds wide t with
  | some e =>
    obtain ⟨m, l⟩ := e
    have hmem := mem_of_find?_eq_some hfind
    have hholds := find?_some hfind
    cases m with
    | case v => simpa [Function.comp_def, hfind, caseEntry] using hmem
    | default => simp [CaseLabel.holds] at hholds
  | none =>
    cases hd : es.reverse.lookup .default with
    | none =>
      have hno : es.find? (fun e => e.1 == .default) = none := by
        refine find?_eq_none.mpr fun e he heq => ?_
        have hne := List.lookup_eq_none_iff.mp hd e (mem_reverse.mpr he)
        rw [beq_iff_eq.mp heq] at hne
        simp at hne
      simp [hfind, hno, defaultLabel, hd]
    | some d =>
      have hmem := mem_reverse.mp (mem_of_lookup hd)
      cases hsome : es.find? (fun e => e.1 == .default) with
      | none => exact absurd (find?_eq_none.mp hsome _ hmem) (by simp)
      | some e =>
        have he : e.1 = .default := by simpa using find?_some hsome
        simpa [Function.comp_def, hfind, hsome, defaultLabel, hd, he] using hmem

end Dispatch

/-! ## Execution goes on at the label selected -/

section Right

variable {S : Type} {M : Exec S}

theorem found_sublist (s : Stmt) : (found s).Sublist (marks s) := by
  induction s with
  | seq s t ihs iht => exact ihs.append iht
  | case v s ih => exact ih.append_left _
  | default s ih => exact ih.cons_cons _
  | _ => exact nil_sublist _

theorem ne_of_clash {long : Bool} {n : CaseLabel} (h : m.clash long n = false) : m ≠ n := by
  rintro rfl
  cases m with
  | case v =>
    have hself : sees long v v = true := by cases long <;> exact beq_self_eq_true _
    exact Bool.false_ne_true (h.symm.trans hself)
  | default => exact Bool.noConfusion h

theorem Switch.marks_nodup (sw : Switch) : (marks sw.body).Nodup :=
  sw.distinct.imp ne_of_clash

theorem lowerExpr_emit_ok {e : ExprNode} {c : StmtCode} (h : lowerExpr e (emit c) st = .ok (code, st')) :
    code = c := by
  unfold lowerExpr at h
  generalize e.labels = names at h
  induction names generalizing st with
  | nil =>
    cases he : e.error <;> simp only [he, nameLabels] at h <;> cases h
    rfl
  | cons name names ih =>
    simp only [nameLabels, getNamedLabel] at h
    split at h
    · exact ih h
    · split at h
      · exact ih h
      · cases h

/-- The code of a switch: the control expression, the dispatch, the body with its labels laid, the end. -/
theorem lowerSwitch_ok {c : Control} (h : lowerStmt (.switch c s) x st = .ok (code, st')) :
    ∃ body : StmtCode, ∃ sw : SwitchCtx, sw = ⟨st.next, (found s).zipIdx (st.next + 1)⟩ ∧
      code = .act (.expr c.expr) :: (dispatch c.wide sw ++ (body ++ [.label st.next])) ∧
      ∀ l, st.next ≤ l → l ≤ st.next + (found s).length → ∃ st₁, Laid sw l (marks s) body st₁ := by
  obtain ⟨st₁, hnext, hnamed, hk⟩ := collectCases_ok h
  obtain ⟨_, _, _, hk₁, ⟨⟩, rfl⟩ := andThen_ok hk
  obtain ⟨_, st₂, body, hk₂, hbody, rfl⟩ := andThen_ok hk₁
  obtain ⟨head, _, _, hhead, ⟨⟩, rfl⟩ := andThen_ok hk₂
  rw [pushLoop] at hbody
  split at hbody
  · refine ⟨body, _, rfl, ?_, fun l hle hlt => ?_⟩
    · rw [lowerExpr_emit_ok hhead]
      simp [LabelState.fresh]
    have hfree : l ∉ st₁.named.map Prod.snd := by
      rw [hnamed]
      intro hmem
      obtain ⟨p, hp, rfl⟩ := mem_map.mp hmem
      exact absurd (st.below p hp) (Nat.not_lt.mpr hle)
    have hst := (lays_optional (some c.expr) : Lays ⟨0, []⟩ l _ _) st₁ _ st₂
      (by rw [hnext]; simp only [LabelState.fresh]; omega) hfree hhead
    exact ⟨_, lowerStmt_lays (st.pos.trans_le hle) rfl st₂ body st' hst.next hst.named hbody⟩
  · cases hbody

theorem eq_of_mem_zipIdx {n : Nat} {m' : CaseLabel} (h : (m, l) ∈ ms.zipIdx n) (h' : (m', l) ∈ ms.zipIdx n) :
    m = m' := by
  have hnodup : ((ms.zipIdx n).map Prod.snd).Nodup := by
    rw [zipIdx_map_snd]
    exact nodup_range'
  exact congrArg Prod.fst (inj_on_of_nodup_map hnodup h h' rfl)

theorem ComesTo.unique {prog : StmtCode} {head : StmtCode × S} {a : S} {o o' : Option CaseLabel}
    (h : ComesTo M st prog [] head a o) (h' : ComesTo M st prog [] head a o') : o = o' := by
  cases o with
  | none =>
    cases o' with
    | none => rfl
    | some m =>
      obtain ⟨l, rest, h'⟩ := h'
      cases Arrives.unique h h'
  | some m =>
    obtain ⟨l, rest, h⟩ := h
    cases o' with
    | none => cases Arrives.unique h h'
    | some m' =>
      obtain ⟨l', rest', h'⟩ := h'
      cases Arrives.unique h h'
      rfl

/-- Execution comes to the label of what is selected among the labels found, or else to the end. -/
theorem switch_arrives {sw : Switch} (h : lowerStmt (.switch sw.control sw.body) x st = .ok (code, st'))
    (before after : StmtCode) (hbefore : ∀ l ∈ labels before, l < st.next) (a : S) :
    ComesTo M st (before ++ code ++ after) after (code ++ after, a) (M.eval sw.control.expr a)
      (selects sw.control.wide (found sw.body) (M.val (M.eval sw.control.expr a))) := by
  obtain ⟨body, tab, htab, hcode, hlaid⟩ := lowerSwitch_ok h
  set es := (found sw.body).zipIdx (st.next + 1) with hes
  set a' := M.eval sw.control.expr a
  have hfst : es.map Prod.fst = found sw.body := by rw [hes, zipIdx_map_fst]
  have htarget := target_eq sw.control.wide st.next es (M.val a')
  rw [hfst, ← htab] at htarget
  -- a label made for the switch is looked up in the body and behind it
  have hrun : ∀ {l rest}, st.next ≤ l → tab.target sw.control.wide (M.val a') = l →
      findLabel l (body ++ .label st.next :: after) = some (.label l :: rest) →
      Arrives M.act M.test (before ++ code ++ after) {l | st.next ≤ l} (code ++ after, a)
        (.label l :: rest, a') := by
    rintro l rest hle rfl hfind
    rw [hcode]
    refine .next (fun k hk => nomatch hk.2.choose_spec) rfl ?_
    show Arrives _ _ _ _ ((dispatch _ _ ++ (body ++ [.label st.next])) ++ after, a') _
    rw [append_assoc (dispatch _ _)]
    refine dispatch_arrives ?_ ⟨hle, rest, rfl⟩
    rw [append_assoc, findLabel_append fun hmem => absurd (hbefore _ hmem) (Nat.not_lt.mpr hle),
      cons_append, findLabel, append_assoc, findLabel_append (by simp [labels_dispatch]),
      append_assoc]
    · exact hfind
    · rintro _ ⟨⟩
  have hpos := st.pos
  cases hsel : selects sw.control.wide (found sw.body) (M.val a') with
  | none =>
    rw [hsel] at htarget
    obtain ⟨st₁, hl⟩ := hlaid st.next le_rfl (Nat.le_add_right _ _)
    have hno : st.next ∉ labels body := by
      rw [← count_eq_zero, hl.count, countP_eq_zero, htab]
      intro m _ hm
      have hle := le_snd_of_mem_zipIdx (mem_of_labelOf (of_decide_eq_true hm) hpos.ne')
      exact absurd hle (Nat.not_succ_le_self _)
    exact hrun le_rfl htarget (by rw [findLabel_append hno, findLabel, if_pos rfl])
  | some m =>
    rw [hsel] at htarget
    set l := tab.target sw.control.wide (M.val a')
    have hle := le_snd_of_mem_zipIdx htarget
    have hlt := snd_lt_add_of_mem_zipIdx htarget
    obtain ⟨st₁, hl⟩ := hlaid l (by omega) (by omega)
    have hlabel : tab.labelOf m = some l := by
      rw [htab]
      exact labelOf_of_mem (by rw [hfst]; exact sw.marks_nodup.sublist (found_sublist _)) htarget
    have hmem : m ∈ marks sw.body := (found_sublist _).subset (fst_mem_of_mem_zipIdx htarget)
    obtain ⟨pre, rest, rfl⟩ := hl.place m hmem hlabel
    -- the label is emitted once, so not in front of its place
    have hone : (marks sw.body).countP (fun m => tab.labelOf m = some l) = 1 := by
      rw [← count_eq_one_of_mem sw.marks_nodup hmem, count]
      refine countP_congr fun m' _ => ?_
      rw [decide_eq_true_iff, beq_iff_eq]
      refine ⟨fun h' => ?_, fun h' => h' ▸ hlabel⟩
      rw [htab] at h'
      exact eq_of_mem_zipIdx (mem_of_labelOf h' (by simp [noLabel]; omega)) htarget
    have hno : l ∉ labels pre := by
      have hcount := hl.count
      rw [hone, labels_append, count_append, labels, count_cons_self] at hcount
      exact count_eq_zero.mp (by omega)
    refine ⟨l, rest ++ .label st.next :: after, hrun (by omega) rfl ?_⟩
    rw [append_assoc, findLabel_append hno, cons_append, findLabel, if_pos rfl, htab]
    rfl

/-- `switch (v) case 1: ;` and `switch (v) if (c) case 1: ;` at the start of a function, with an `int`
for `v`. -/
def caseAlone : Switch :=
  ⟨⟨⟨[], none⟩, false, false⟩, .case (.ok 1) .empty, by simp [marks, Except.toOption]⟩

@[inherit_doc caseAlone]
def caseInIf : Switch :=
  ⟨⟨⟨[], none⟩, false, false⟩, .ifThen ⟨[], none⟩ (.case (.ok 1) .empty), by simp [marks, Except.toOption]⟩

/-- The state is the control value. -/
def valueExec : Exec (BitVec 64) := ⟨fun _ a => a, fun _ _ => false, id⟩

end Right

end Skjegg.Cc
