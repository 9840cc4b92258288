import Skjegg.Cpp.Tok

/-!
# Conditional groups

The conditional stack of `cond.c`, the dispatcher of `dir.c` and the loops of `cpp_next_line`. The files and
the macros are a state of their own. A text line may leave a macro call open; the lines that follow are then
joined to it, whatever they are.
-/

namespace Skjegg.Cpp

open List

/-- `struct cpp_cond` -/
structure CondLevel where
  (active seenTrue isElse : Bool)
  deriving DecidableEq, Repr

structure Host (σ : Type) where
  /-- The next line of the file at hand, by `read_logical_line` and `strip_block_comments`. -/
  read : σ → Option (Text × σ)
  /-- `file_pop`, where a file is left -/
  filePop : σ → Option σ
  /-- `macro_lookup(p, name) != NULL` -/
  defined : σ → Text → Bool
  /-- `cond_eval` of the tokens of a text -/
  condEval : σ → Text → Int
  /-- A directive by name and operands, with the errors it counts. -/
  obey : σ → Text → Text → σ × Nat
  /-- `macro_expand` of the tokens of a text finds a call that does not close. -/
  needMore : σ → Text → Bool

/-- `struct cpp`: `cond` has the innermost group first, `call` is `linebuf` while a call is open. -/
structure CppState (σ : Type) where
  cond : List CondLevel := []
  errors : Nat := 0
  stopped : Bool := false
  call : Option Text := none
  rest : σ

variable {σ : Type} (H : Host σ) (p : CppState σ)

namespace CppState

def condActive : Bool :=
  match p.cond with
  | [] => true
  | c :: _ => c.active

def condPush (active : Bool) : CppState σ :=
  { p with cond := ⟨active && p.condActive, active, false⟩ :: p.cond }

def error : CppState σ :=
  { p with errors := p.errors + 1 }

def condPop : CppState σ :=
  match p.cond with
  | [] => p.error
  | _ :: up => { p with cond := up }

end CppState

/-- `up ? up->active : 1` -/
def parentActive (up : List CondLevel) : Bool :=
  match up with
  | [] => true
  | c :: _ => c.active

/-- What `#ifdef` and `#ifndef` test; without a name the group is not entered. -/
def ifdefHolds (s : σ) (line : Text) (wantDefined : Bool) : Bool :=
  let name := (skipWs line).takeWhile isIdentChar
  if name = [] then false
  else if wantDefined then H.defined s name else !H.defined s name

variable (line : Text)

def handleIfdef (wantDefined : Bool) : CppState σ := p.condPush (ifdefHolds H p.rest line wantDefined)

def handleIf : CppState σ := p.condPush (H.condEval p.rest line != 0)

def handleElif : CppState σ :=
  match p.cond with
  | [] => p.error
  | c :: up =>
    if c.isElse then p.error
    else if c.seenTrue then { p with cond := { c with active := false } :: up }
    else if H.condEval p.rest line ≠ 0 ∧ parentActive up then
      { p with cond := { c with active := true, seenTrue := true } :: up }
    else { p with cond := { c with active := false } :: up }

def handleElse : CppState σ :=
  match p.cond with
  | [] => p.error
  | c :: up =>
    if c.isElse then p.error
    else if c.seenTrue then { p with cond := { c with active := false, isElse := true } :: up }
    else { p with cond := ⟨parentActive up, true, true⟩ :: up }

inductive Effect
  | passed
  -- passed as part of a call that was open
  | joined
  -- lost, or some of it, as the line buffer is full
  | cut
  | obeyed
  | skipped
  | conditional
  deriving DecidableEq, Repr

def directiveName : Text := (skipWs line.tail).takeWhile Char.isAlpha

def directiveArgs : Text := skipWs ((skipWs line.tail).dropWhile Char.isAlpha)

def openGroup (opened : CppState σ) : CppState σ × Effect :=
  (if p.condActive then opened else p.condPush false, .conditional)

def processDirective : CppState σ × Effect :=
  let name := directiveName line
  let s := directiveArgs line
  -- the null directive
  if skipWs line.tail = [] ∨ (skipWs line.tail).head? = some '\n' then (p, .skipped)
  else if name = "endif".toList then (p.condPop, .conditional)
  else if name = "ifdef".toList then openGroup p (handleIfdef H p s true)
  else if name = "ifndef".toList then openGroup p (handleIfdef H p s false)
  else if name = "if".toList then openGroup p (handleIf H p s)
  else if name = "elif".toList then (handleElif H p s, .conditional)
  else if name = "else".toList then (handleElse p, .conditional)
  else if p.condActive then
    if name = "error".toList then ({ p.error with stopped := true }, .obeyed)
    else
      let (rest, errors) := H.obey p.rest name s
      ({ p with rest := rest, errors := p.errors + errors }, .obeyed)
  else (p, .skipped)

def openCall (s : σ) (linebuf : Text) : Option Text := if H.needMore s linebuf then some linebuf else none

/-- The outer loop of `cpp_next_line` on a line it has read. -/
def processLine : CppState σ × Effect :=
  let s := skipWs line
  if s.head? = some '#' then processDirective H p s
  else if p.condActive then
    ({ p with call := openCall H p.rest line }, .passed)
  else (p, .skipped)

/-- The inner loop on a line it has read; `linebuf` has 8192 bytes. -/
def joinLine (linebuf more : Text) : CppState σ × Effect :=
  if 8191 ≤ linebuf.length then ({ p with call := none }, .cut)
  else
    ({ p with call := openCall H p.rest ((linebuf ++ ' ' :: more).take 8191) },
      if linebuf.length + 1 + more.length ≤ 8191 then .joined else .cut)

/-! ## The rule -/

/-- A branch of a group: with a condition that was true or false, or the `#else`. -/
inductive Branch
  | cond (value : Bool)
  | otherwise
  deriving DecidableEq, Repr

abbrev Group := List Branch

/-- The branch at hand is the first whose condition was true, or the `#else` when none was. -/
def Group.Lies : Group → Prop
  | [] => False
  | .cond value :: earlier => value = true ∧ .cond true ∉ earlier
  | .otherwise :: earlier => .cond true ∉ earlier

inductive Mark
  | enter (value : Bool)
  | next (branch : Branch)
  | leave
  deriving DecidableEq, Repr

/-- The open groups behind a directive, the innermost first. Behind an `#else` a group has no
further branches. -/
def Mark.groups : Mark → List Group → List Group
  | .enter value, gs => [.cond value] :: gs
  | .next _, [] => []
  | .next branch, g :: gs => (if g.head? = some .otherwise then g else branch :: g) :: gs
  | .leave, gs => gs.tail

/-- What a line is. -/
inductive LineKind
  | text
  | conditional (mark : Mark)
  | null
  | other
  deriving DecidableEq, Repr

def lineKind (s : σ) (line : Text) : LineKind :=
  let line := skipWs line
  let args := directiveArgs line
  let name := directiveName line
  if line.head? ≠ some '#' then .text
  else if skipWs line.tail = [] ∨ (skipWs line.tail).head? = some '\n' then .null
  else if name = "endif".toList then .conditional .leave
  else if name = "ifdef".toList then .conditional (.enter (ifdefHolds H s args true))
  else if name = "ifndef".toList then .conditional (.enter (ifdefHolds H s args false))
  else if name = "if".toList then .conditional (.enter (H.condEval s args != 0))
  else if name = "elif".toList then .conditional (.next (.cond (H.condEval s args != 0)))
  else if name = "else".toList then .conditional (.next .otherwise)
  else .other

/-- A turn of one of the loops, with what its line is and what becomes of it. -/
def turn : Option (Option (LineKind × Effect) × CppState σ) :=
  if p.stopped then none
  else
    match H.read p.rest, p.call with
    -- the arguments of the call are not terminated
    | none, some _ => some (none, { p with call := none })
    | none, none => (H.filePop p.rest).map fun rest => (none, { p with rest := rest })
    | some (line, rest), call =>
      let p := { p with rest := rest }
      let (p', effect) := match call with
        | some linebuf => joinLine H p linebuf line
        | none => processLine H p line
      some (some (lineKind H rest line, effect), p')

/-- The lines of the first `n` turns. -/
def cppNextLines : Nat → CppState σ → List (LineKind × Effect)
  | 0, _ => []
  | n + 1, p =>
    match turn H p with
    | none => []
    | some (line, p') => line.toList ++ cppNextLines n p'

def Taken (gs : List Group) : Prop := ∀ g ∈ gs, g.Lies

def LineKind.groups (gs : List Group) : LineKind → List Group
  | .conditional mark => mark.groups gs
  | _ => gs

def LineKind.Right (gs : List Group) (effect : Effect) : LineKind → Prop
  | .text => effect = .passed ∨ effect = .joined ↔ Taken gs
  | .other => effect = .obeyed ↔ Taken gs
  | _ => True

def Treated : List Group → List (LineKind × Effect) → Prop
  | _, [] => True
  | gs, (kind, effect) :: lines => kind.Right gs effect ∧ Treated (kind.groups gs) lines

/-- No open call takes in a directive, and each line it takes in has room in the line buffer. -/
def CallsTakeText (lines : List (LineKind × Effect)) : Prop :=
  ∀ line ∈ lines, line.2 ≠ .cut ∧ (line.2 = .joined → line.1 = .text)

/-! ## The stack follows the rule -/

/-- A level of the stack stands for a group inside others. -/
structure CondLevel.Keeps (c : CondLevel) (g : Group) (gs : List Group) : Prop where
  ne_nil : g ≠ []
  active : c.active = true ↔ Taken (g :: gs)
  isElse : c.isElse = true ↔ g.head? = some .otherwise
  -- in skipped text the flag says nothing
  seenTrue : Taken gs → (c.seenTrue = true ↔ .cond true ∈ g ∨ g.head? = some .otherwise)

def Follows : List CondLevel → List Group → Prop
  | [], [] => True
  | c :: up, g :: gs => c.Keeps g gs ∧ Follows up gs
  | _, _ => False

variable {c : CondLevel} {up : List CondLevel} {g : Group} {gs : List Group} {p : CppState σ}

theorem taken_cons : Taken (g :: gs) ↔ g.Lies ∧ Taken gs :=
  forall_mem_cons

theorem Follows.parentActive (h : Follows up gs) : parentActive up = true ↔ Taken gs := by
  match up, gs, h with
  | [], [], _ => simp [Cpp.parentActive, Taken]
  | _ :: _, _ :: _, h => exact h.1.active

theorem follows_push (h : Follows up gs) (value : Bool) :
    Follows (⟨value && parentActive up, value, false⟩ :: up) ([.cond value] :: gs) := by
  refine ⟨⟨cons_ne_nil _ _, ?_, by simp, fun _ => by simp⟩, h⟩
  rw [taken_cons, Bool.and_eq_true, h.parentActive]
  simp [Group.Lies]

theorem follows_push_skipped (h : Follows up gs) (hsk : parentActive up = false) (value : Bool) :
    Follows (⟨false && parentActive up, false, false⟩ :: up) ([.cond value] :: gs) := by
  have hnot : ¬Taken gs := by
    rw [← h.parentActive, hsk]
    exact Bool.false_ne_true
  refine ⟨⟨cons_ne_nil _ _, ?_, by simp, fun ht => absurd ht hnot⟩, h⟩
  rw [taken_cons]
  simp [hnot]

theorem CondLevel.Keeps.seen_iff (h : c.Keeps g gs) (hc : ¬c.isElse = true) (ht : Taken gs) :
    c.seenTrue = true ↔ .cond true ∈ g := by
  rw [h.seenTrue ht, or_iff_left (mt h.isElse.mpr hc)]

theorem follows_next_seen (h : Follows (c :: up) (g :: gs)) (hc : ¬c.isElse = true)
    (hse : c.seenTrue = true) (branch : Branch) :
    Follows ({ c with active := false, isElse := branch == .otherwise } :: up) ((branch :: g) :: gs) := by
  obtain ⟨hk, hup⟩ := h
  refine ⟨⟨cons_ne_nil _ _, ?_, by simp, fun ht => ?_⟩, hup⟩
  · -- the branch that was taken is an earlier one
    rw [taken_cons]
    have hlies : Taken gs → ¬Group.Lies (branch :: g) := fun ht hl => by
      have hmem := (hk.seen_iff hc ht).mp hse
      cases branch with
      | cond value => exact hl.2 hmem
      | otherwise => exact hl hmem
    simp only [Bool.false_eq_true, false_iff, not_and]
    exact fun hl ht => hlies ht hl
  · have hmem := (hk.seen_iff hc ht).mp hse
    simp [hse, hmem]

theorem follows_next_new (h : Follows (c :: up) (g :: gs)) (hc : ¬c.isElse = true)
    (huns : ¬c.seenTrue = true) (branch : Branch) {active seen : Bool}
    (hact : active = true ↔ branch ≠ .cond false ∧ parentActive up = true)
    (hse : parentActive up = true → seen = active) :
    Follows (⟨active, seen, branch == .otherwise⟩ :: up) ((branch :: g) :: gs) := by
  obtain ⟨hk, hup⟩ := h
  rw [hup.parentActive] at hact hse
  have hno : Taken gs → .cond true ∉ g := fun ht => mt (hk.seen_iff hc ht).mpr huns
  have hlies : Taken gs → (Group.Lies (branch :: g) ↔ branch ≠ .cond false) := fun ht => by
    cases branch with
    | cond value => cases value <;> simp [Group.Lies, hno ht]
    | otherwise => simp [Group.Lies, hno ht]
  refine ⟨⟨cons_ne_nil _ _, ?_, by simp, fun ht => ?_⟩, hup⟩
  · rw [hact, taken_cons]
    exact and_congr_left fun ht => (hlies ht).symm
  rw [hse ht, hact, and_iff_left ht]
  cases branch with
  | cond value => cases value <;> simp [hno ht]
  | otherwise => simp

theorem follows_elif (h : Follows p.cond gs) (line : Text) :
    Follows (handleElif H p line).cond (Mark.groups (.next (.cond (H.condEval p.rest line != 0))) gs) := by
  obtain ⟨cond, _, _, _, rest⟩ := p
  match cond, gs, h with
  | [], [], _ => trivial
  | c :: up, g :: gs, h =>
    have hhd := h.1.isElse
    by_cases hc : c.isElse = true
    · simpa [handleElif, hc, CppState.error, Mark.groups, hhd.mp hc] using h
    simp only [handleElif, Mark.groups, if_neg (mt hhd.mpr hc), if_neg hc]
    have helse : c.isElse = (Branch.cond (H.condEval rest line != 0) == .otherwise) :=
      Bool.eq_false_iff.mpr hc
    split
    · next hse =>
      rw [helse]
      exact follows_next_seen h hc hse _
    rename_i hse
    split
    · next hval =>
      rw [helse]
      exact follows_next_new h hc hse _ (by simp [hval]) fun _ => rfl
    · next hval =>
      have huns := Bool.eq_false_iff.mpr hse
      rw [helse, huns]
      exact follows_next_new h hc hse _ (by simpa using hval) fun _ => rfl

theorem follows_else (h : Follows p.cond gs) :
    Follows (handleElse p).cond (Mark.groups (.next .otherwise) gs) := by
  obtain ⟨cond⟩ := p
  match cond, gs, h with
  | [], [], _ => trivial
  | c :: up, g :: gs, h =>
    have hhd := h.1.isElse
    by_cases hc : c.isElse = true
    · simpa [handleElse, hc, CppState.error, Mark.groups, hhd.mp hc] using h
    simp only [handleElse, Mark.groups, if_neg (mt hhd.mpr hc), if_neg hc]
    split
    · next hse => exact follows_next_seen h hc hse .otherwise
    · next hse => exact follows_next_new h hc hse .otherwise (by simp) fun h => h.symm

theorem follows_pop (h : Follows p.cond gs) :
    Follows p.condPop.cond (Mark.groups .leave gs) := by
  obtain ⟨cond⟩ := p
  match cond, gs, h with
  | [], [], _ => trivial
  | _ :: _, _ :: _, h => exact h.2

theorem follows_open (h : Follows p.cond gs) (value : Bool) :
    Follows (openGroup p (p.condPush value)).1.cond (Mark.groups (.enter value) gs) := by
  unfold openGroup
  split
  · exact follows_push h _
  · next hsk => exact follows_push_skipped h (Bool.eq_false_iff.mpr hsk) _

theorem processDirective_call (line : Text) : (processDirective H p line).1.call = p.call := by
  have hpop : p.condPop.call = p.call := by unfold CppState.condPop; split <;> rfl
  have hopen : ∀ value, (openGroup p (p.condPush value)).1.call = p.call := by
    intro value
    unfold openGroup
    split <;> rfl
  have helif : ∀ line, (handleElif H p line).call = p.call := by
    intro line
    unfold handleElif
    split
    · rfl
    · split_ifs <;> rfl
  have helse : (handleElse p).call = p.call := by
    unfold handleElse
    split
    · rfl
    · split_ifs <;> rfl
  unfold processDirective
  dsimp only
  split_ifs
  case _ => rfl
  case _ => exact hpop
  iterate 3
    case _ => exact hopen _
  case _ => exact helif _
  case _ => exact helse
  all_goals rfl

/-- The stack follows the groups of a directive, which is obeyed where they are taken. -/
theorem processDirective_follows (h : Follows p.cond gs) {line : Text}
    (hhash : (skipWs line).head? = some '#') :
    Follows (processDirective H p (skipWs line)).1.cond ((lineKind H p.rest line).groups gs) ∧
      (lineKind H p.rest line).Right gs (processDirective H p (skipWs line)).2 := by
  have hact : p.condActive = true ↔ Taken gs := h.parentActive
  unfold processDirective lineKind
  simp only [hhash, ne_eq, not_true_eq_false, if_false]
  -- the two chains of tests run side by side
  split_ifs
  case _ => exact ⟨h, trivial⟩
  case _ => exact ⟨follows_pop h, trivial⟩
  iterate 3
    case _ => exact ⟨follows_open h _, trivial⟩
  case _ => exact ⟨follows_elif H h _, trivial⟩
  case _ => exact ⟨follows_else h, trivial⟩
  iterate 2
    case _ ha _ => exact ⟨h, iff_of_true rfl (hact.mp ha)⟩
  case _ ha => exact ⟨h, iff_of_false Effect.noConfusion (mt hact.mpr ha)⟩

theorem processLine_follows (h : Follows p.cond gs) (hcall : p.call = none) (line : Text) :
    Follows (processLine H p line).1.cond ((lineKind H p.rest line).groups gs) ∧
      (lineKind H p.rest line).Right gs (processLine H p line).2 ∧
      ((processLine H p line).1.call.isSome → Taken ((lineKind H p.rest line).groups gs)) := by
  have hact : p.condActive = true ↔ Taken gs := h.parentActive
  unfold processLine
  dsimp only
  split
  · next hhash =>
    obtain ⟨hnx, hri⟩ := processDirective_follows H h hhash
    exact ⟨hnx, hri, by simp [processDirective_call, hcall]⟩
  next hhash =>
  have hkind : lineKind H p.rest line = .text := by simp [lineKind, hhash]
  rw [hkind]
  split
  · next ha => exact ⟨h, iff_of_true (.inl rfl) (hact.mp ha), fun _ => hact.mp ha⟩
  · next ha =>
    exact ⟨h, iff_of_false (by rintro (h | h) <;> cases h) (mt hact.mpr ha), by simp [hcall]⟩

theorem joinLine_joined {linebuf more : Text} (h : (joinLine H p linebuf more).2 ≠ .cut) :
    (joinLine H p linebuf more).2 = .joined := by
  unfold joinLine at h ⊢
  grind

/-- The groups and the stack behind a turn; where a call is open, the groups are taken. -/
theorem turn_follows (h : Follows p.cond gs) (hcall : p.call.isSome → Taken gs)
    {line : Option (LineKind × Effect)} {p' : CppState σ} (hturn : turn H p = some (line, p'))
    (htext : CallsTakeText line.toList) :
    ∃ gs', Follows p'.cond gs' ∧ (p'.call.isSome → Taken gs') ∧
      ∀ lines, Treated gs' lines → Treated gs (line.toList ++ lines) := by
  unfold turn at hturn
  split at hturn
  · cases hturn
  cases hread : H.read p.rest with
  | none =>
    cases hc : p.call with
    | some linebuf =>
      simp only [hread, hc, Option.some.injEq, Prod.mk.injEq] at hturn
      obtain ⟨rfl, rfl⟩ := hturn
      exact ⟨gs, h, nofun, fun _ ht => ht⟩
    | none =>
      simp only [hread, hc] at hturn
      obtain ⟨rest, -, heq⟩ := Option.map_eq_some_iff.mp hturn
      cases heq
      exact ⟨gs, h, nofun, fun _ ht => ht⟩
  | some read =>
    obtain ⟨text, rest⟩ := read
    cases hc : p.call with
    | none =>
      simp only [hread, hc, Option.some.injEq, Prod.mk.injEq] at hturn
      obtain ⟨rfl, rfl⟩ := hturn
      obtain ⟨hnx, hri, htk⟩ := processLine_follows H (p := { p with rest := rest }) h hc text
      rw [hc] at hnx hri htk
      exact ⟨_, hnx, htk, fun _ ht => ⟨hri, ht⟩⟩
    | some linebuf =>
      simp only [hread, hc, Option.some.injEq, Prod.mk.injEq] at hturn
      obtain ⟨rfl, rfl⟩ := hturn
      have htk := hcall (by simp [hc])
      obtain ⟨hcut, hjoin⟩ := htext _ mem_cons_self
      have heff := joinLine_joined H hcut
      have hkind : lineKind H rest text = .text := hjoin heff
      rw [hkind, heff]
      refine ⟨gs, ?_, fun _ => htk, fun _ ht => ⟨iff_of_true (.inr rfl) htk, ht⟩⟩
      unfold joinLine
      split <;> exact h

theorem treated_of_follows (h : Follows p.cond gs) (hcall : p.call.isSome → Taken gs)
    (n : Nat) (htext : CallsTakeText (cppNextLines H n p)) : Treated gs (cppNextLines H n p) := by
  induction n generalizing p gs with
  | zero => trivial
  | succ n ih =>
    unfold cppNextLines at htext ⊢
    split
    · trivial
    · next line p' hturn =>
      rw [hturn] at htext
      obtain ⟨gs', hnx, htk, hlines⟩ :=
        turn_follows H h hcall hturn fun e he => htext e (mem_append_left _ he)
      exact hlines _ (ih hnx htk fun e he => htext e (mem_append_right _ he))

end Skjegg.Cpp
