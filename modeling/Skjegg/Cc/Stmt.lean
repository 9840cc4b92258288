import Skjegg.Lib.LabelCode

/-!
# Statements

`lower_stmt`, `collect_cases` and `get_named_label` of `cc/lower.c`: the labels a statement is lowered to, and
the three tables that lowering writes to without a check of their sizes.
-/

namespace Skjegg.Cc

open Lib

/-! ## Statements -/

/-- An expression as its statement has it lowered: the labels `&&label` names in it, and the error that ends
its lowering. -/
structure ExprNode where
  labels : List String
  error : Option String := none
  deriving DecidableEq

/-- The control expression of a switch: whether C gives it 64 bits (`long`), and whether
`is_i64_type` says so (`wide`). -/
structure Control where
  expr : ExprNode
  (long wide : Bool)

abbrev CaseConst := Except String (BitVec 64)

inductive Stmt
  | empty
  | seq (s rest : Stmt)
  /-- an expression, a declaration, a `return`, an `asm` or a `goto` of a computed label -/
  | simple (e : ExprNode)
  | ifThen (c : ExprNode) (s : Stmt)
  | ifElse (c : ExprNode) (s t : Stmt)
  | while (c : ExprNode) (s : Stmt)
  | doWhile (s : Stmt) (c : ExprNode)
  | for (init cond incr : Option ExprNode) (s : Stmt)
  | switch (c : Control) (s : Stmt)
  | case (v : CaseConst) (s : Stmt)
  | default (s : Stmt)
  | break
  | continue
  | goto (name : String)
  | label (name : String) (s : Stmt)

/-! ## Lowering -/

/-- How lowering ends early: with an error, or with a write outside a table. -/
inductive Stop
  | error (text : String)
  | outside
  deriving DecidableEq

inductive CaseLabel
  | case (v : BitVec 64)
  | default
  deriving DecidableEq

inductive StmtAct
  | expr (e : ExprNode)
  /-- no instruction: where a case label of the switch that ends at this label stands in the source -/
  | mark (lend : Nat) (m : CaseLabel)

inductive StmtTest
  | cond (c : ExprNode)
  /-- `IR_CMPEQ`, or `IR_CMP64EQ` when `wide`, of the control value and a case constant -/
  | same (wide : Bool) (v : BitVec 64)

abbrev StmtCode := List (LabelInsn StmtAct StmtTest)

/-- The labels handed out, and `named_labels`.  Labels count from 1, and 0 is the source's label -1. -/
structure LabelState where
  next : Nat
  named : List (String × Nat)
  pos : 0 < next
  below : ∀ p ∈ named, p.2 < next

def LabelState.fresh (s : LabelState) : LabelState :=
  ⟨s.next + 1, s.named, Nat.succ_pos _, fun p hp => (s.below p hp).trans (Nat.lt_succ_self _)⟩

def LabelState.name (s : LabelState) (name : String) : LabelState where
  next := s.next + 1
  named := s.named ++ [(name, s.next)]
  pos := Nat.succ_pos _
  below p hp := by
    rcases List.mem_append.mp hp with hp | hp
    · exact (s.below p hp).trans (Nat.lt_succ_self _)
    · rw [List.mem_singleton.mp hp]
      exact Nat.lt_succ_self _

def LabelState.start : LabelState := ⟨1, [], Nat.one_pos, by simp⟩

def noLabel : Nat := 0

/-- A frame of `loop_stack`; that of a switch has no label to continue at. -/
structure LoopCtx where
  brk : Nat
  cont : Option Nat

/-- The labels collected for a switch; the source has the cases in two arrays and the last `default`
in a field. -/
structure SwitchCtx where
  endLabel : Nat
  entries : List (CaseLabel × Nat)

def caseEntry : CaseLabel × Nat → Option (BitVec 64 × Nat)
  | (.case v, l) => some (v, l)
  | _ => none

variable (sw : SwitchCtx)

def SwitchCtx.cases : List (BitVec 64 × Nat) := sw.entries.filterMap caseEntry

def SwitchCtx.defaultLabel : Option Nat := sw.entries.reverse.lookup .default

structure LowerCtx where
  loops : List LoopCtx
  sw : Option SwitchCtx

/-- Lowering: the code emitted, after the labels made before it. -/
abbrev Lower := LabelState → Except Stop (StmtCode × LabelState)

namespace Lower

def emit (c : StmtCode) : Lower := fun s => .ok (c, s)

def fail (e : Stop) : Lower := fun _ => .error e

def andThen (p q : Lower) : Lower := fun s =>
  match p s with
  | .error e => .error e
  | .ok (c, s) =>
    match q s with
    | .error e => .error e
    | .ok (d, s) => .ok (c ++ d, s)

instance : Append Lower := ⟨andThen⟩

def newLabel (k : Nat → Lower) : Lower := fun s => k s.next s.fresh

end Lower

open Lower

def loopMax : Nat := 64
def caseMax : Nat := 256
def labelMax : Nat := 256

def getNamedLabel (name : String) (k : Nat → Lower) : Lower := fun s =>
  match s.named.lookup name with
  | some l => k l s
  | none =>
    if s.named.length < labelMax then k s.next (s.name name)
    else .error .outside

/-- `&&label` in an expression, from the first on. -/
def nameLabels (k : Lower) : List String → Lower
  | [] => k
  | name :: names => getNamedLabel name fun _ => nameLabels k names

def lowerExpr (e : ExprNode) (k : Lower) : Lower :=
  nameLabels (match e.error with
    | some text => fail (.error text)
    | none => k) e.labels

def lowerOptional : Option ExprNode → Lower
  | none => emit []
  | some e => lowerExpr e (emit [.act (.expr e)])

def lowerTest (c : ExprNode) (ltrue lfalse : Nat) : Lower :=
  lowerExpr c (emit [.branch (.cond c) ltrue, .jump lfalse])

/-- A `for` without a condition goes straight to its body. -/
def lowerForTest (cond : Option ExprNode) (lbody lbrk : Nat) : Lower :=
  match cond with
  | some c => lowerTest c lbody lbrk
  | none => emit [.jump lbody]

def pushLoop (x : LowerCtx) (l : LoopCtx) (k : LowerCtx → Lower) : Lower :=
  if x.loops.length < loopMax then k { x with loops := l :: x.loops } else fail .outside

def caseConst (v : CaseConst) (k : BitVec 64 → Lower) : Lower :=
  match v with
  | .error text => fail (.error text)
  | .ok v => k v

def SwitchCtx.add (m : CaseLabel) (l : Nat) : SwitchCtx :=
  { sw with entries := sw.entries ++ [(m, l)] }

def collectCases : Stmt → SwitchCtx → (SwitchCtx → Lower) → Lower
  | .case v s, sw, k => newLabel fun lab => caseConst v fun v =>
    if sw.cases.length < caseMax then collectCases s (sw.add (.case v) lab) k else fail .outside
  | .default s, sw, k => newLabel fun lab => collectCases s (sw.add .default lab) k
  | .seq s t, sw, k => collectCases s sw fun sw => collectCases t sw k
  | _, sw, k => k sw

def dispatch (wide : Bool) (sw : SwitchCtx) : StmtCode :=
  sw.cases.map (fun c => .branch (.same wide c.1) c.2) ++ [.jump (sw.defaultLabel.getD sw.endLabel)]

/-- The label in front of a `case` is that of the table's first entry with its value. -/
def SwitchCtx.labelOf : CaseLabel → Option Nat
  | .case v => sw.entries.lookup (.case v)
  | .default => some (sw.defaultLabel.getD noLabel)

def SwitchCtx.mark (m : CaseLabel) : StmtCode :=
  (sw.labelOf m).toList.map .label ++ [.act (.mark sw.endLabel m)]

def lowerStmt : Stmt → LowerCtx → Lower
  | .empty, _ => emit []
  | .seq s t, x => lowerStmt s x ++ lowerStmt t x
  | .simple e, _ => lowerOptional (some e)
  | .ifThen c s, x => newLabel fun ltrue => newLabel fun lfalse => newLabel fun _ =>
    lowerTest c ltrue lfalse ++ emit [.label ltrue] ++ lowerStmt s x ++ emit [.label lfalse]
  | .ifElse c s t, x => newLabel fun ltrue => newLabel fun lfalse => newLabel fun lend =>
    lowerTest c ltrue lfalse ++ emit [.label ltrue] ++ lowerStmt s x ++
      emit [.jump lend, .label lfalse] ++ lowerStmt t x ++ emit [.label lend]
  | .while c s, x => newLabel fun ltop => newLabel fun lbody => newLabel fun lbrk =>
    emit [.label ltop] ++ lowerTest c lbody lbrk ++ emit [.label lbody] ++
      pushLoop x ⟨lbrk, some ltop⟩ (lowerStmt s) ++ emit [.jump ltop, .label lbrk]
  | .doWhile s c, x => newLabel fun ltop => newLabel fun lcont => newLabel fun lbrk =>
    emit [.label ltop] ++ pushLoop x ⟨lbrk, some lcont⟩ (lowerStmt s) ++ emit [.label lcont] ++
      lowerTest c ltop lbrk ++ emit [.label lbrk]
  | .for init cond incr s, x =>
    newLabel fun ltop => newLabel fun lbody => newLabel fun lcont => newLabel fun lbrk =>
      lowerOptional init ++ emit [.label ltop] ++ lowerForTest cond lbody lbrk ++
        emit [.label lbody] ++ pushLoop x ⟨lbrk, some lcont⟩ (lowerStmt s) ++
        emit [.label lcont] ++ lowerOptional incr ++ emit [.jump ltop, .label lbrk]
  | .switch c s, x => newLabel fun lend => collectCases s ⟨lend, []⟩ fun sw =>
    lowerOptional (some c.expr) ++ emit (dispatch c.wide sw) ++
      pushLoop x ⟨lend, none⟩ (fun x => lowerStmt s { x with sw := some sw }) ++ emit [.label lend]
  | .case v s, x =>
    match x.sw with
    | none => fail (.error "case outside switch")
    | some sw => caseConst v fun v => emit (sw.mark (.case v)) ++ lowerStmt s x
  | .default s, x =>
    match x.sw with
    | none => fail (.error "default outside switch")
    | some sw => emit (sw.mark .default) ++ lowerStmt s x
  | .break, x =>
    match x.loops.head? with
    | none => fail (.error "break outside loop/switch")
    | some l => emit [.jump l.brk]
  | .continue, x =>
    -- the frames of switches are passed over
    match x.loops.findSome? LoopCtx.cont with
    | none => fail (.error "continue outside loop")
    | some l => emit [.jump l]
  | .goto name, _ => getNamedLabel name fun l => emit [.jump l]
  | .label name s, x => getNamedLabel name fun l => emit [.label l] ++ lowerStmt s x

/-- A function's body, with the tables as `lower_function` clears them. -/
def lowerBody (body : Stmt) : Except Stop (StmtCode × LabelState) := lowerStmt body ⟨[], none⟩ .start

end Skjegg.Cc
