import Skjegg.Cc.Stmt
import Mathlib.Data.Finset.Card

/-!
# The tables of statement lowering

`loop_stack`, the case table of a switch and `named_labels` have fixed sizes that nothing is compared
with. What lowering does to them is listed in its order.
-/

namespace Skjegg.Cc

open Lib Lower
open List

/-! ## What lowering meets -/

inductive Visit
  /-- a frame is put on `loop_stack` at this index -/
  | frame (depth : Nat)
  /-- a case is put in its switch's table at this index -/
  | entry (i : Nat)
  | name (n : String)
  | fault (text : String)

/-- What the statements around one make of it. -/
structure Nesting where
  depth : Nat
  (inLoop inSwitch : Bool)

def Nesting.loop (p : Nesting) : Nesting := ⟨p.depth + 1, true, p.inSwitch⟩
def Nesting.switch (p : Nesting) : Nesting := ⟨p.depth + 1, p.inLoop, true⟩

def faultUnless (b : Bool) (text : String) : List Visit :=
  if b then [] else [.fault text]

def ExprNode.visits (e : ExprNode) : List Visit := e.labels.map .name ++ (e.error.map Visit.fault).toList

def optionalVisits (e : Option ExprNode) : List Visit := (e.map ExprNode.visits).getD []

def constVisits : CaseConst → List Visit
  | .error text => [.fault text]
  | .ok _ => []

/-- The cases that `collect_cases` finds: behind blocks, cases and `default` only. -/
def foundConsts : Stmt → List CaseConst
  | .case v s => v :: foundConsts s
  | .default s => foundConsts s
  | .seq s t => foundConsts s ++ foundConsts t
  | _ => []

def entryVisits (found : List CaseConst) (n : Nat) : List Visit :=
  (found.zipIdx n).flatMap fun c => constVisits c.1 ++ [.entry c.2]

def visits : Stmt → Nesting → List Visit
  | .empty, _ => []
  | .seq s t, p => visits s p ++ visits t p
  | .simple e, _ => e.visits
  | .ifThen c s, p => c.visits ++ visits s p
  | .ifElse c s t, p => c.visits ++ visits s p ++ visits t p
  | .while c s, p => c.visits ++ .frame p.depth :: visits s p.loop
  | .doWhile s c, p => .frame p.depth :: visits s p.loop ++ c.visits
  | .for init cond incr s, p =>
    optionalVisits init ++ optionalVisits cond ++ .frame p.depth :: visits s p.loop ++ optionalVisits incr
  | .switch c s, p =>
    entryVisits (foundConsts s) 0 ++ (c.expr.visits ++ .frame p.depth :: visits s p.switch)
  | .case v s, p => faultUnless p.inSwitch "case outside switch" ++ (constVisits v ++ visits s p)
  | .default s, p => faultUnless p.inSwitch "default outside switch" ++ visits s p
  | .break, p => faultUnless (p.depth != 0) "break outside loop/switch"
  | .continue, p => faultUnless p.inLoop "continue outside loop"
  | .goto name, _ => [.name name]
  | .label name s, p => .name name :: visits s p

def Visit.goesOn : Visit → Bool
  | .fault _ => false
  | _ => true

def Visit.named : Visit → Option String
  | .name n => some n
  | _ => none

/-- An index below the size of its table. -/
def Visit.InTable : Visit → Prop
  | .frame d => d < loopMax
  | .entry i => i < caseMax
  | _ => True

def met (vs : List Visit) : List Visit := vs.takeWhile Visit.goesOn

/-- The tables, with these names in `named_labels`, hold all that is met. -/
structure Fits (names : List String) (vs : List Visit) : Prop where
  inTable : ∀ v ∈ met vs, v.InTable
  names : (names ++ (met vs).filterMap Visit.named).toFinset.card ≤ labelMax

/-! ## The tables along the visits -/

/-- What a visit does to the names in `named_labels`. -/
def Visit.check (names : List String) : Visit → Except Stop (List String)
  | .frame d => if d < loopMax then .ok names else .error .outside
  | .entry i => if i < caseMax then .ok names else .error .outside
  | .name n =>
    if n ∈ names then .ok names
    else if names.length < labelMax then .ok (names ++ [n])
    else .error .outside
  | .fault text => .error (.error text)

def scan (names : List String) (vs : List Visit) : Except Stop (List String) := vs.foldlM Visit.check names

def Visits (p : Lower) (vs : List Visit) : Prop :=
  ∀ s, (p s).map (fun r => r.2.named.map Prod.fst) = scan (s.named.map Prod.fst) vs

variable {p q : Lower} {k : Nat → Lower} {vs ws : List Visit} {s : Stmt} {x : LowerCtx} {names : List String}

theorem scan_append : scan names (vs ++ ws) = scan names vs >>= fun names => scan names ws := foldlM_append

theorem scan_cons (v : Visit) : scan names (v :: vs) = v.check names >>= fun names => scan names vs :=
  foldlM_cons

theorem visits_emit (c : StmtCode) : Visits (emit c) [] := fun _ => rfl

theorem visits_fail (text : String) : Visits (fail (.error text)) (.fault text :: vs) := fun _ => rfl

theorem Visits.append (hp : Visits p vs) (hq : Visits q ws) : Visits (p ++ q) (vs ++ ws) := by
  intro s
  rw [scan_append, ← hp s]
  show (andThen p q s).map _ = _
  unfold andThen
  cases p s with
  | error e => rfl
  | ok r =>
    refine Eq.trans ?_ (hq r.2)
    dsimp only
    cases q r.2 <;> rfl

theorem Visits.congr (h : Visits p vs) (heq : vs = ws) : Visits p ws := heq ▸ h

theorem Visits.emit {c : StmtCode} (h : Visits p vs) : Visits (p ++ emit c) vs :=
  (h.append (visits_emit c)).congr (append_nil vs)

theorem Visits.newLabel (h : ∀ l, Visits (k l) vs) : Visits (newLabel k) vs := fun s => h s.next _

theorem lookup_eq_none_iff {l : List (String × Nat)} {n : String} :
    l.lookup n = none ↔ n ∉ l.map Prod.fst := by
  induction l with
  | nil => simp
  | cons c l ih =>
    rw [map_cons, mem_cons, not_or, ← ih, lookup_cons]
    split <;> simp_all

theorem Visits.named {n : String} (h : ∀ l, Visits (k l) vs) :
    Visits (getNamedLabel n k) (.name n :: vs) := by
  intro s
  rw [scan_cons, getNamedLabel, Visit.check, length_map]
  cases hfd : s.named.lookup n with
  | some l =>
    have hmem : n ∈ s.named.map Prod.fst := by
      by_contra hn
      rw [lookup_eq_none_iff.mpr hn] at hfd
      cases hfd
    rw [if_pos hmem]
    exact h l s
  | none =>
    rw [if_neg (lookup_eq_none_iff.mp hfd)]
    dsimp only
    split
    · rw [h, LabelState.name, map_append]
      rfl
    · rfl

theorem Visits.expr (e : ExprNode) (h : Visits p vs) : Visits (lowerExpr e p) (e.visits ++ vs) := by
  unfold lowerExpr ExprNode.visits
  induction e.labels with
  | nil =>
    cases e.error with
    | none => exact h
    | some text => exact visits_fail _
  | cons name labels ih => exact Visits.named fun _ => ih

theorem visits_optional (e : Option ExprNode) : Visits (lowerOptional e) (optionalVisits e) := by
  cases e with
  | none => exact visits_emit []
  | some e => exact (Visits.expr e (visits_emit _)).congr (append_nil _)

theorem visits_test (c : ExprNode) (ltrue lfalse : Nat) : Visits (lowerTest c ltrue lfalse) c.visits :=
  (Visits.expr c (visits_emit _)).congr (append_nil _)

theorem visits_forTest (cond : Option ExprNode) (lbody lbrk : Nat) :
    Visits (lowerForTest cond lbody lbrk) (optionalVisits cond) := by
  cases cond with
  | none => exact visits_emit _
  | some c => exact visits_test c _ _

theorem Visits.push {l : LoopCtx} {k : LowerCtx → Lower}
    (h : Visits (k { x with loops := l :: x.loops }) vs) :
    Visits (pushLoop x l k) (.frame x.loops.length :: vs) := by
  intro s
  rw [scan_cons, pushLoop, Visit.check]
  split
  · exact h s
  · rfl

theorem Visits.const {v : CaseConst} {k : BitVec 64 → Lower} (h : ∀ w, Visits (k w) vs) :
    Visits (caseConst v k) (constVisits v ++ vs) := by
  cases v with
  | error text => exact visits_fail _
  | ok w => exact h w

theorem visits_collect (s : Stmt) (sw : SwitchCtx) {k : SwitchCtx → Lower}
    (h : ∀ sw' : SwitchCtx, sw'.cases.length = sw.cases.length + (foundConsts s).length → Visits (k sw') vs) :
    Visits (collectCases s sw k) (entryVisits (foundConsts s) sw.cases.length ++ vs) := by
  induction s generalizing sw vs k with
  | case v s ih =>
    refine Visits.newLabel fun lab => ?_
    simp only [foundConsts, entryVisits, zipIdx_cons, flatMap_cons, append_assoc]
    refine Visits.const fun v => ?_
    intro st
    rw [singleton_append, scan_cons, Visit.check]
    split
    · have hlen : (sw.add (.case v) lab).cases.length = sw.cases.length + 1 := by
        simp [SwitchCtx.add, SwitchCtx.cases, caseEntry]
      have hnx := ih _ fun sw' hlen' =>
        h sw' (by rw [hlen', hlen, foundConsts, length_cons]; omega)
      rw [hlen] at hnx
      exact hnx st
    · rfl
  | default s ih =>
    refine Visits.newLabel fun lab => ?_
    have hsm : (sw.add .default lab).cases = sw.cases := by simp [SwitchCtx.add, SwitchCtx.cases, caseEntry]
    have hrs := ih _ fun sw' hlen => h sw' (by rw [hlen, hsm]; rfl)
    rwa [hsm] at hrs
  | seq s t ihs iht =>
    simp only [foundConsts, entryVisits, zipIdx_append, flatMap_append, append_assoc]
    refine ihs sw fun sw' hlen => ?_
    rw [← hlen]
    refine iht sw' fun sw'' hlen' => h _ ?_
    rw [hlen', hlen, foundConsts, length_append, add_assoc]
  | _ => exact h sw rfl

def LowerCtx.nesting (x : LowerCtx) : Nesting :=
  ⟨x.loops.length, (x.loops.findSome? LoopCtx.cont).isSome, x.sw.isSome⟩

theorem lowerStmt_visits (s : Stmt) (x : LowerCtx) : Visits (lowerStmt s x) (visits s x.nesting) := by
  induction s generalizing x with
  | empty => exact visits_emit []
  | seq s t ihs iht => exact (ihs x).append (iht x)
  | simple e => exact visits_optional _
  | ifThen c s ih =>
    exact .newLabel fun _ => .newLabel fun _ => .newLabel fun _ =>
      ((visits_test c _ _).emit.append (ih x)).emit
  | ifElse c s t ihs iht =>
    exact .newLabel fun _ => .newLabel fun _ => .newLabel fun _ =>
      (((visits_test c _ _).emit.append (ihs x)).emit.append (iht x)).emit
  | «while» c s ih =>
    exact .newLabel fun _ => .newLabel fun _ => .newLabel fun _ =>
      (((visits_emit _).append (visits_test c _ _)).emit.append (.push (ih _))).emit
  | doWhile s c ih =>
    exact .newLabel fun _ => .newLabel fun _ => .newLabel fun _ =>
      ((((visits_emit _).append (.push (ih _))).emit).append (visits_test c _ _)).emit
  | «for» init cond incr s ih =>
    exact .newLabel fun _ => .newLabel fun lbody => .newLabel fun _ => .newLabel fun lbrk =>
      ((((visits_optional _).emit.append (visits_forTest _ _ _)).emit.append
        (.push (ih _))).emit.append (visits_optional _)).emit
  | switch c s ih =>
    refine .newLabel fun lend => visits_collect s ⟨lend, []⟩ fun sw _ => ?_
    have hbo := Visits.push (l := ⟨lend, none⟩)
      (k := fun x => lowerStmt s { x with sw := some sw }) (ih ⟨_ :: x.loops, some sw⟩)
    exact ((visits_optional _).emit.append hbo).emit
  | case v s ih =>
    unfold lowerStmt
    cases hsw : x.sw with
    | none => simpa [visits, faultUnless, LowerCtx.nesting, hsw] using visits_fail _
    | some sw =>
      have h := Visits.const (v := v) fun w => (visits_emit (sw.mark (.case w))).append (ih x)
      simpa [visits, faultUnless, LowerCtx.nesting, hsw] using h
  | default s ih =>
    unfold lowerStmt
    cases hsw : x.sw with
    | none => simpa [visits, faultUnless, LowerCtx.nesting, hsw] using visits_fail _
    | some sw =>
      simpa [visits, faultUnless, LowerCtx.nesting, hsw] using (visits_emit _).append (ih x)
  | «break» =>
    unfold lowerStmt
    cases hl : x.loops with
    | nil => simpa [visits, faultUnless, LowerCtx.nesting, hl] using visits_fail _
    | cons l ls => simpa [visits, faultUnless, LowerCtx.nesting, hl] using visits_emit _
  | «continue» =>
    unfold lowerStmt
    cases hl : x.loops.findSome? LoopCtx.cont with
    | none => simpa [visits, faultUnless, LowerCtx.nesting, hl] using visits_fail _
    | some l => simpa [visits, faultUnless, LowerCtx.nesting, hl] using visits_emit _
  | goto name => exact Visits.named fun _ => visits_emit _
  | label name s ih => exact Visits.named fun _ => (visits_emit _).append (ih x)

/-! ## Inside the tables -/

theorem fits_cons_iff {v : Visit} (h : v.goesOn = true) :
    Fits names (v :: vs) ↔ v.InTable ∧ Fits (names ++ v.named.toList) vs := by
  have hmet : met (v :: vs) = v :: met vs := takeWhile_cons_of_pos h
  have hnamed : (met (v :: vs)).filterMap Visit.named = v.named.toList ++ (met vs).filterMap Visit.named := by
    rw [hmet, filterMap_cons]
    cases v.named <;> rfl
  constructor
  · rintro ⟨hin, hnms⟩
    rw [hmet] at hin
    rw [hnamed, ← append_assoc] at hnms
    exact ⟨hin v mem_cons_self, fun w hw => hin w (mem_cons_of_mem v hw), hnms⟩
  · rintro ⟨hv, hin, hnms⟩
    refine ⟨?_, by rwa [hnamed, ← append_assoc]⟩
    rw [hmet]
    exact forall_mem_cons.mpr ⟨hv, hin⟩

theorem fits_fault_iff {text : String} : Fits names (.fault text :: vs) ↔ names.toFinset.card ≤ labelMax :=
  ⟨fun h => by simpa [met, Visit.goesOn] using h.names,
    fun h => ⟨by simp [met, Visit.goesOn], by simpa [met, Visit.goesOn] using h⟩⟩

theorem fits_congr (names' : List String) (h : names.toFinset = names'.toFinset) :
    Fits names vs ↔ Fits names' vs := by
  constructor
  all_goals
    rintro ⟨hin, hnms⟩
    refine ⟨hin, ?_⟩
    simpa [h] using hnms

theorem scan_ne_outside_iff (hnd : names.Nodup) (hlen : names.length ≤ labelMax) :
    scan names vs ≠ .error .outside ↔ Fits names vs := by
  induction vs generalizing names with
  | nil =>
    have hcard := toFinset_card_of_nodup hnd
    exact ⟨fun _ => ⟨by simp [met], by simp [met, hcard, hlen]⟩, fun _ => nofun⟩
  | cons v vs ih =>
    have hrs := ih hnd hlen
    rw [scan_cons]
    cases v with
    | frame d =>
      simp only [fits_cons_iff (v := .frame d) rfl, Visit.named, Option.toList_none, append_nil, ← hrs]
      by_cases hd : d < loopMax <;> simp [Visit.check, Visit.InTable, hd, bind, Except.bind]
    | entry i =>
      simp only [fits_cons_iff (v := .entry i) rfl, Visit.named, Option.toList_none, append_nil, ← hrs]
      by_cases hi : i < caseMax <;> simp [Visit.check, Visit.InTable, hi, bind, Except.bind]
    | name n =>
      simp only [fits_cons_iff (v := .name n) rfl, Visit.InTable, true_and, Visit.named, Option.toList_some]
      by_cases hmem : n ∈ names
      · rw [fits_congr names (by simp [hmem]), ← hrs]
        simp [Visit.check, hmem, bind, Except.bind]
      have hnd' : (names ++ [n]).Nodup := by
        simpa using hnd.concat hmem
      by_cases hrm : names.length < labelMax
      · have hnx := ih hnd' (by simpa using hrm)
        rw [← hnx]
        simp [Visit.check, hmem, hrm, bind, Except.bind]
      -- one name more than the table holds
      have hmo : ¬ Fits (names ++ [n]) vs := by
        intro h
        have hle := h.names
        rw [toFinset_append] at hle
        have hfew := (Finset.card_le_card Finset.subset_union_left).trans hle
        rw [toFinset_card_of_nodup hnd', length_append] at hfew
        exact hrm hfew
      simp [Visit.check, hmem, hrm, hmo, bind, Except.bind]
    | fault text =>
      rw [fits_fault_iff, toFinset_card_of_nodup hnd]
      simp [Visit.check, bind, Except.bind, hlen]

theorem lowerBody_outside_iff (body : Stmt) :
    lowerBody body = .error .outside ↔ scan [] (visits body ⟨0, false, false⟩) = .error .outside := by
  have hscan := lowerStmt_visits body ⟨[], none⟩ .start
  change (lowerBody body).map _ = scan [] (visits body ⟨0, false, false⟩) at hscan
  rw [← hscan]
  cases lowerBody _ <;> simp [Except.map]

/-- Lowering a function keeps inside its tables exactly when they hold what is met before the first error. -/
theorem lowering_inside_tables_iff (body : Stmt) :
    lowerBody body ≠ .error .outside ↔ Fits [] (visits body ⟨0, false, false⟩) := by
  rw [Ne, lowerBody_outside_iff]
  exact scan_ne_outside_iff nodup_nil (Nat.zero_le _)

/-- Loops, each the body of the one around it. -/
def nestedLoops : Nat → Stmt
  | 0 => .empty
  | n + 1 => .while ⟨[], none⟩ (nestedLoops n)

theorem nested_loops_leave_stack : lowerBody (nestedLoops 65) = .error .outside := by
  rw [lowerBody_outside_iff]
  decide +kernel

end Skjegg.Cc
