import Skjegg.Ld.Link

/-!
# Where a section's assignments are carried out

The parser keeps beside an assignment the number of *specifications* `*(...)` before it; the layout
carries it out behind that many *patterns*. The two agree where every specification has one pattern.
-/

namespace Skjegg.Ld

open List

/-! ## The body as it is written -/

inductive Item
  | inputs (pats : List SecPattern)
  | assign (name : Text)
  deriving DecidableEq, Repr

def readPattern (tok : Tok) (pats : List SecPattern) : Parser (List SecPattern) := do
  let pat ← parsePattern tok
  pure (pats ++ [pat])

theorem consumes_readPattern (tok : Tok) (pats : List SecPattern) : Consumes (readPattern tok pats) :=
  (consumes_parsePattern tok).bind fun _ => .pure _

def readSpec : Parser (List SecPattern) := do
  next
  expect .lparen "'('"
  let pats ← loop (upTo .rparen) readPattern consumes_readPattern []
  expect .rparen "')'"
  pure pats

def readItem (tok : Tok) (items : List Item) : Parser (List Item) :=
  match tok with
  | .star => do
      let pats ← readSpec
      pure (items ++ [.inputs pats])
  | .ident text => do
      let name ← parseAssign text
      pure (items ++ [.assign name])
  | _ => die "unexpected token in section body"

theorem consumes_readItem (tok : Tok) (items : List Item) : Consumes (readItem tok items) := by
  unfold readItem
  split
  · refine Consumes.bind (Consumes.next.bind fun _ => ?_) fun _ => .pure _
    refine (Shrinks.expect _ _).bind fun _ => (Shrinks.loop _ _ _ _).bind fun _ => ?_
    exact (Shrinks.expect _ _).bind fun _ => .pure _
  · exact (consumes_parseAssign _).bind fun _ => .pure _
  · exact .die _

def readBody : Parser (List Item) := loop (upTo .rbrace) readItem consumes_readItem []

def patternsOf (items : List Item) : List SecPattern :=
  items.flatMap fun
    | .inputs pats => pats
    | .assign _ => []

def specsOf (items : List Item) : Nat :=
  items.countP fun
    | .inputs _ => true
    | .assign _ => false

/-- An assignment with the number of specifications and of patterns written before it. -/
structure Mark where
  name : Text
  (specs pats : Nat)
  deriving DecidableEq, Repr

def marksFrom (specs pats : Nat) : List Item → List Mark
  | [] => []
  | .inputs ps :: items => marksFrom (specs + 1) (pats + ps.length) items
  | .assign name :: items => ⟨name, specs, pats⟩ :: marksFrom specs pats items

def marks (items : List Item) : List Mark := marksFrom 0 0 items

def Mark.record (m : Mark) : SymAssign := ⟨m.name, m.specs == 0, m.specs⟩

theorem marksFrom_append (specs pats : Nat) (xs ys : List Item) :
    marksFrom specs pats (xs ++ ys) = marksFrom specs pats xs ++
        marksFrom (specs + specsOf xs) (pats + (patternsOf xs).length) ys := by
  induction xs generalizing specs pats with
  | nil => rfl
  | cons x xs ih =>
    cases x with
    | inputs ps =>
      rw [cons_append, marksFrom, marksFrom, ih]
      have hspecs : specsOf (.inputs ps :: xs) = specsOf xs + 1 := countP_cons_of_pos rfl
      have hpats : (patternsOf (.inputs ps :: xs)).length = ps.length + (patternsOf xs).length := by
        rw [patternsOf, flatMap_cons, length_append, ← patternsOf]
      rw [hspecs, hpats, add_assoc _, add_comm 1, add_assoc _]
    | assign name =>
      rw [cons_append, marksFrom, marksFrom, ih, cons_append]
      rfl

/-- A section holds the record of a body. -/
structure OutputSec.Records (os : OutputSec) (items : List Item) : Prop where
  patterns : os.patterns = patternsOf items
  assigns : os.assigns = (marks items).map Mark.record

/-! ## The parser keeps this record -/

variable {os os' : OutputSec} {ts ts' : List Lexeme} {items : List Item} {tok : Tok} {src : Text}
  {sc sc' : Script}

theorem parseInputSpec_reads (h : parseInputSpec os ts = .ok (os', ts')) :
    ∃ pats, readSpec ts = .ok (pats, ts') ∧ os' = { os with patterns := os.patterns ++ pats } := by
  obtain ⟨_, ts1, hnx, h⟩ := bind_ok h
  obtain ⟨_, ts2, hparen, h⟩ := bind_ok h
  obtain ⟨os1, ts3, hlp, h⟩ := bind_ok h
  obtain ⟨_, ts4, hcls, h⟩ := bind_ok h
  cases h
  have hst : ∀ tok o pats ts o' rest, addPattern tok o ts = .ok (o', rest) →
      o = { os with patterns := os.patterns ++ pats } →
      ∃ pats', readPattern tok pats ts = .ok (pats', rest) ∧
        o' = { os with patterns := os.patterns ++ pats' } := by
    intro tok o pats ts o' rest hrun ho
    unfold addPattern at hrun
    split at hrun
    · cases hrun
    obtain ⟨pat, ts5, hpat, hrun⟩ := bind_ok hrun
    cases hrun
    refine ⟨pats ++ [pat], bind_run hpat, ?_⟩
    rw [ho, append_assoc]
  obtain ⟨pats, hrd, hos⟩ := loop_follows _ _ hst hlp
    (by rw [append_nil])
  refine ⟨pats, ?_, hos⟩
  rw [readSpec, bind_run hnx, bind_run hparen, bind_run hrd, bind_run hcls]
  rfl

/-- The state of `parse_sec_body` behind the parts read so far. -/
def bodyState (os : OutputSec) (items : List Item) : OutputSec × Nat :=
  ({ os with
      patterns := os.patterns ++ patternsOf items
      assigns := os.assigns ++ (marks items).map Mark.record },
    specsOf items)

theorem marks_append_assign (items : List Item) (name : Text) : marks (items ++ [.assign name]) =
      marks items ++ [⟨name, specsOf items, (patternsOf items).length⟩] := by
  rw [marks, marksFrom_append, zero_add, zero_add]
  rfl

theorem marks_append_inputs (items : List Item) (pats : List SecPattern) :
    marks (items ++ [.inputs pats]) = marks items := by
  rw [marks, marksFrom_append]
  exact append_nil _

theorem patternsOf_append (xs ys : List Item) : patternsOf (xs ++ ys) = patternsOf xs ++ patternsOf ys :=
  flatMap_append

theorem specsOf_append (xs ys : List Item) : specsOf (xs ++ ys) = specsOf xs + specsOf ys := countP_append

theorem parseSecItem_reads {s' : OutputSec × Nat}
    (h : parseSecItem tok (bodyState os items) ts = .ok (s', ts')) :
    ∃ items', readItem tok items ts = .ok (items', ts') ∧ s' = bodyState os items' := by
  cases tok with
  | star =>
    obtain ⟨os1, ts1, hspec, h⟩ := bind_ok h
    cases h
    obtain ⟨pats, hrd, rfl⟩ := parseInputSpec_reads hspec
    refine ⟨items ++ [.inputs _], bind_run hrd, ?_⟩
    rw [bodyState, marks_append_inputs, patternsOf_append, specsOf_append, ← append_assoc]
    simp [patternsOf, specsOf]
  | ident text =>
    obtain ⟨name, ts1, hnm, h⟩ := bind_ok h
    split at h
    · cases h
    cases h
    refine ⟨items ++ [.assign _], bind_run hnm, ?_⟩
    rw [bodyState, marks_append_assign, patternsOf_append, specsOf_append, map_append, ← append_assoc]
    simp [patternsOf, specsOf, Mark.record]
  | _ => cases h

theorem parseSecBody_reads (h : parseSecBody os ts = .ok (os', ts')) :
    ∃ items, readBody ts = .ok (items, ts') ∧ os' = (bodyState os items).1 := by
  obtain ⟨s', ts1, hlp, h⟩ := bind_ok h
  cases h
  have hbeg : (os, 0) = bodyState os [] := by
    simp [bodyState, patternsOf, marks, marksFrom, specsOf]
  have hst : ∀ tok s items ts s' rest, parseSecItem tok s ts = .ok (s', rest) → s = bodyState os items →
      ∃ items', readItem tok items ts = .ok (items', rest) ∧ s' = bodyState os items' := by
    intro tok s items ts s' rest hrun hs
    rw [hs] at hrun
    exact parseSecItem_reads hrun
  obtain ⟨items, hrd, hs⟩ := loop_follows _ _ hst hlp hbeg
  exact ⟨items, hrd, by rw [hs]⟩

theorem next_ok {l : Lexeme} (h : next (l :: ts) = .ok ((), ts')) : ts' = ts := by
  cases ts with
  | nil =>
    cases h
    rfl
  | cons t ts =>
    simp only [next] at h
    split at h
    · cases h
    · cases h
      rfl

theorem expect_ok {what : String} (h : expect tok what ts = .ok ((), ts')) (htok : tok ≠ .eof) :
    ∃ l, l.tok = tok ∧ ts = l :: ts' := by
  obtain ⟨t, ts1, hcur, h⟩ := bind_ok h
  cases hcur
  split at h
  · next hat =>
    cases ts with
    | nil => exact absurd hat.symm htok
    | cons l ts => exact ⟨l, hat, by rw [next_ok h]⟩
  · cases h

/-- A section as the parser leaves it, with the body that stands behind its name, `:` and `{`. -/
structure OutputSec.WrittenAs (os : OutputSec) (items : List Item) (src : Text) : Prop where
  records : os.Records items
  empty : os.size = 0
  body : ∃ name colon brace ts rest, name.tok = .ident os.name ∧ colon.tok = .colon ∧ brace.tok = .lbrace ∧
    name :: colon :: brace :: ts <:+ lexAll 1 src ∧ readBody ts = .ok (items, rest)

theorem upTo_eq_some {close tok' : Tok} (h : upTo close tok = some tok') : tok = tok' := by
  unfold upTo at h
  split at h
  · cases h
  · split at h
    · cases h
    · exact Option.some.inj h

theorem parseSecRegion_keeps (h : parseSecRegion os ts = .ok (os', ts')) :
    ∃ region phdr, os' = { os with region := region, phdr := phdr } := by
  obtain ⟨tok, ts1, _, h⟩ := bind_ok h
  split at h
  · obtain ⟨_, ts2, _, h⟩ := bind_ok h
    obtain ⟨region, ts3, _, h⟩ := bind_ok h
    obtain ⟨tok, ts4, _, h⟩ := bind_ok h
    split at h
    · obtain ⟨_, ts5, _, h⟩ := bind_ok h
      obtain ⟨phdr, ts6, _, h⟩ := bind_ok h
      cases h
      exact ⟨some _, some _, rfl⟩
    · cases h
      exact ⟨some _, os.phdr, rfl⟩
  · cases h
    exact ⟨os.region, os.phdr, rfl⟩

def Script.Written (sc : Script) (src : Text) : Prop := ∀ os ∈ sc.sections, ∃ items, os.WrittenAs items src

theorem parseSection_written {l : Lexeme} (h : parseSection l.tok sc (l :: ts) = .ok (sc', ts'))
    (hts : l :: ts <:+ lexAll 1 src) (hsc : sc.Written src) : sc'.Written src := by
  unfold parseSection at h
  split at h
  · cases h
  generalize hname : l.tok = tok at h
  split at h
  · next name =>
    obtain ⟨_, ts1, hnx, h⟩ := bind_ok h
    obtain ⟨_, ts2, hcolon, h⟩ := bind_ok h
    obtain ⟨_, ts3, hbr, h⟩ := bind_ok h
    obtain ⟨os1, ts4, hbo, h⟩ := bind_ok h
    obtain ⟨_, ts5, _, h⟩ := bind_ok h
    obtain ⟨os2, ts6, hreg, h⟩ := bind_ok h
    cases h
    obtain ⟨items, hrd, hos1⟩ := parseSecBody_reads hbo
    obtain ⟨region, phdr, hos2⟩ := parseSecRegion_keeps hreg
    obtain ⟨colon, hct, rfl⟩ := expect_ok hcolon nofun
    obtain ⟨brace, hbt, rfl⟩ := expect_ok hbr nofun
    rw [← next_ok hnx] at hts
    intro os hos
    rcases mem_append.mp hos with hold | hnew
    · exact hsc os hold
    · cases mem_singleton.mp hnew
      rw [hos2, hos1]
      exact ⟨items, ⟨rfl, rfl⟩, rfl, l, colon, brace, ts3, ts4, hname, hct, hbt, hts, hrd⟩
  · cases h

theorem parseRegion_sections {name : Text}
    (h : parseRegion name sc ts = .ok (sc', ts')) : sc'.sections = sc.sections := by
  unfold parseRegion at h
  split at h
  · cases h
  iterate 12 obtain ⟨_, _, _, h⟩ := bind_ok h
  cases h
  rfl

theorem parsePhdr_sections {name : Text}
    (h : parsePhdr name sc ts = .ok (sc', ts')) : sc'.sections = sc.sections := by
  unfold parsePhdr at h
  split at h
  · cases h
  iterate 4 obtain ⟨_, _, _, h⟩ := bind_ok h
  cases h
  rfl

theorem parseDirective_written (h : parseDirective tok sc ts = .ok (sc', ts')) (hts : ts <:+ lexAll 1 src)
    (hsc : sc.Written src) : sc'.Written src := by
  have hsame : ∀ {sc1 : Script}, sc1.sections = sc.sections → sc1.Written src := fun heq => by
    rwa [Script.Written, heq]
  unfold parseDirective at h
  split at h
  · split_ifs at h
    -- the three settings
    iterate 3
      iterate 4 obtain ⟨_, _, _, h⟩ := bind_ok h
      cases h
      exact hsc
    -- `MEMORY` and `PHDRS`
    · iterate 2 obtain ⟨_, _, _, h⟩ := bind_ok h
      obtain ⟨sc1, _, hlp, h⟩ := bind_ok h
      obtain ⟨_, _, _, h⟩ := bind_ok h
      cases h
      exact hsame (loop_keeps (fun s _ => s.sections = sc.sections)
        (fun _ _ _ _ _ _ _ hrun hs => (parseRegion_sections hrun).trans hs) hlp rfl)
    · iterate 2 obtain ⟨_, _, _, h⟩ := bind_ok h
      obtain ⟨sc1, _, hlp, h⟩ := bind_ok h
      obtain ⟨_, _, _, h⟩ := bind_ok h
      cases h
      exact hsame (loop_keeps (fun s _ => s.sections = sc.sections)
        (fun _ _ _ _ _ _ _ hrun hs => (parsePhdr_sections hrun).trans hs) hlp rfl)
    -- `SECTIONS`
    · obtain ⟨_, ts1, hnx, h⟩ := bind_ok h
      obtain ⟨_, ts2, hbr, h⟩ := bind_ok h
      obtain ⟨sc1, _, hlp, h⟩ := bind_ok h
      obtain ⟨_, _, _, h⟩ := bind_ok h
      cases h
      have hbeg : ts2 <:+ lexAll 1 src :=
        (Shrinks.expect _ _ _ _ _ hbr).trans ((Shrinks.next _ _ _ hnx).trans hts)
      refine (loop_keeps (fun s ts => s.Written src ∧ ts <:+ lexAll 1 src) ?_ hlp ⟨hsc, hbeg⟩).1
      intro tok s t ts s' rest hgo hrun hs
      obtain rfl := upTo_eq_some hgo
      refine ⟨parseSection_written hrun hs.2 hs.1, ?_⟩
      exact (consumes_parseSection _ s t ts s' _ hrun).trans ((suffix_cons t ts).trans hs.2)
    · cases h
  · cases h

theorem ldParseScript_written (h : ldParseScript src = .ok sc) : sc.Written src := by
  unfold ldParseScript at h
  split at h
  · cases h
  cases hlp : loop _ _ consumes_parseDirective {} (lexAll 1 src) with
  | error e =>
    rw [hlp] at h
    cases h
  | ok r =>
    rw [hlp] at h
    cases h
    refine (loop_keeps (fun s ts => s.Written src ∧ ts <:+ lexAll 1 src) ?_ hlp
      ⟨fun os hos => absurd hos not_mem_nil, suffix_rfl⟩).1
    intro tok s t ts s' rest _ hrun hs
    refine ⟨parseDirective_written hrun hs.2 hs.1, ?_⟩
    exact (consumes_parseDirective tok s t ts s' _ hrun).trans ((suffix_cons t ts).trans hs.2)

/-! ## The assignments the layout carries out -/

/-- The assignments of a section that are due behind `target` patterns, at the address reached. -/
def dueAt (assigns : List SymAssign) (target : Nat) (cursor : UInt32) : List (Text × UInt32) :=
  (assigns.filter (·.due target)).map fun sa => (sa.name, cursor)

/-- The assignments carried out behind the patterns, in order. -/
def madeFrom (assigns : List SymAssign) (target : Nat) (os : OutputSec) (objs : List Object) :
    List SecPattern → List (Text × UInt32)
  | [] => []
  | pat :: pats =>
    let r := placePattern pat os objs
    dueAt assigns (target + 1) r.1.endAddr ++ madeFrom assigns (target + 1) r.1 r.2 pats

def made (os : OutputSec) (objs : List Object) : List (Text × UInt32) :=
  dueAt os.assigns 0 os.vaddr ++ madeFrom os.assigns 0 os objs os.patterns

def assignAll (syms : List Symbol) (assigned : List (Text × UInt32)) : List Symbol :=
  assigned.foldl (fun syms a => assignSym syms a.1 a.2) syms

theorem processAssigns_eq (os : OutputSec) (target : Nat) (cursor : UInt32) (syms : List Symbol) :
    processAssigns os target cursor syms = assignAll syms (dueAt os.assigns target cursor) := by
  unfold processAssigns assignAll dueAt
  rw [foldl_map, foldl_filter]

section

variable (pat : SecPattern) (os)

theorem placeSec_keeps (isec : InputSec) :
    (placeSec pat os isec).1.vaddr = os.vaddr ∧ (placeSec pat os isec).1.assigns = os.assigns := by
  unfold placeSec
  split_ifs <;> exact ⟨rfl, rfl⟩

theorem placeSecs_keeps (isecs : List InputSec) :
    (placeSecs pat os isecs).1.vaddr = os.vaddr ∧ (placeSecs pat os isecs).1.assigns = os.assigns := by
  induction isecs generalizing os with
  | nil => exact ⟨rfl, rfl⟩
  | cons isec isecs ih =>
    obtain ⟨hva, hasg⟩ := placeSec_keeps os pat _
    exact ⟨(ih _).1.trans hva, (ih _).2.trans hasg⟩

theorem placePattern_keeps (objs : List Object) :
    (placePattern pat os objs).1.vaddr = os.vaddr ∧ (placePattern pat os objs).1.assigns = os.assigns := by
  induction objs generalizing os with
  | nil => exact ⟨rfl, rfl⟩
  | cons obj objs ih =>
    obtain ⟨hva, hasg⟩ := placeSecs_keeps os pat _
    exact ⟨(ih _).1.trans hva, (ih _).2.trans hasg⟩

end

theorem layoutPatterns_syms (target : Nat) (os : OutputSec) (objs : List Object)
    (syms : List Symbol) (pats : List SecPattern) : (layoutPatterns target os objs syms pats).2.2 =
      assignAll syms (madeFrom os.assigns target os objs pats) := by
  induction pats generalizing target os objs syms with
  | nil => rfl
  | cons pat pats ih =>
    rw [layoutPatterns, madeFrom]
    rw [ih, processAssigns_eq, (placePattern_keeps os pat _).2]
    exact (foldl_append ..).symm

theorem layoutSec_syms {p p' : Placing} {region : Option Nat}
    (hkeep : os.discard = false) (hreg : regionOf p.regions os = .ok region)
    (h : layoutSec p os = .ok (p', os')) :
    p'.syms = assignAll p.syms (made (startAt p.regions region os) p.objs) := by
  rw [layoutSec, if_neg (by rw [hkeep]; exact Bool.false_ne_true)] at h
  obtain ⟨region', hreg', h⟩ := step_ok h
  rw [hreg] at hreg'
  cases hreg'
  obtain ⟨regions, _, h⟩ := step_ok h
  cases h
  rw [layoutPatterns_syms, processAssigns_eq, made]
  exact (foldl_append ..).symm

/-! ## Against the body as it is written -/

def placePatterns (os : OutputSec) (objs : List Object) : List SecPattern → OutputSec × List Object
  | [] => (os, objs)
  | pat :: pats =>
    let r := placePattern pat os objs
    placePatterns r.1 r.2 pats

section

variable (os) (objs : List Object) (pats : List SecPattern)

def addrAfter : UInt32 :=
  (placePatterns os objs pats).1.endAddr

def bytesOf (s : OutputSec × List Object) (pats : List SecPattern) : UInt32 :=
  (placePatterns s.1 s.2 pats).1.size - s.1.size

/-- The layout has as many patterns as specifications before the assignment, and the patterns
between the two positions take nothing. -/
def Mark.Settled (m : Mark) : Prop :=
  m.specs ≤ os.patterns.length ∧ bytesOf (placePatterns os objs (os.patterns.take (min m.specs m.pats)))
      ((os.patterns.take (max m.specs m.pats)).drop (min m.specs m.pats)) = 0

theorem placePatterns_append (xs ys : List SecPattern) :
    placePatterns os objs (xs ++ ys) =
      placePatterns (placePatterns os objs xs).1 (placePatterns os objs xs).2 ys := by
  induction xs generalizing os objs with
  | nil => rfl
  | cons x xs ih => exact ih _ _

theorem placePatterns_vaddr : (placePatterns os objs pats).1.vaddr = os.vaddr := by
  induction pats generalizing os objs with
  | nil => rfl
  | cons pat pats ih => exact (ih _ _).trans (placePattern_keeps os pat _).1

theorem add_eq_add_iff_sub_eq_zero (v a b : UInt32) : v + a = v + b ↔ a - b = 0 := by
  grind

theorem addrAfter_take_eq_iff {lo hi : Nat} (h : lo ≤ hi) :
    addrAfter os objs (pats.take hi) = addrAfter os objs (pats.take lo) ↔
      bytesOf (placePatterns os objs (pats.take lo)) ((pats.take hi).drop lo) = 0 := by
  have hspl : pats.take hi = pats.take lo ++ (pats.take hi).drop lo := by
    conv_lhs => rw [← take_append_drop lo (pats.take hi)]
    rw [take_take, min_eq_left h]
  have hsm : addrAfter os objs (pats.take hi) =
      os.vaddr + (placePatterns (placePatterns os objs (pats.take lo)).1
        (placePatterns os objs (pats.take lo)).2 ((pats.take hi).drop lo)).1.size := by
    rw [addrAfter, OutputSec.endAddr, placePatterns_vaddr]
    conv_lhs => rw [hspl, placePatterns_append]
  rw [hsm, addrAfter, OutputSec.endAddr, placePatterns_vaddr, bytesOf]
  exact add_eq_add_iff_sub_eq_zero _ _ _

theorem settled_iff (m : Mark) : m.Settled os objs ↔ m.specs ≤ os.patterns.length ∧
    addrAfter os objs (os.patterns.take m.specs) = addrAfter os objs (os.patterns.take m.pats) := by
  refine and_congr_right fun _ => ?_
  rcases le_total _ m.pats with hle | hle
  · rw [min_eq_left hle, max_eq_right hle, ← addrAfter_take_eq_iff os _ _ hle]
    exact eq_comm
  · rw [min_eq_right hle, max_eq_left hle, ← addrAfter_take_eq_iff os _ _ hle]

end

theorem le_specs_marksFrom {specs pats : Nat} : ∀ m ∈ marksFrom specs pats items, specs ≤ m.specs := by
  induction items generalizing specs pats with
  | nil => exact fun m hm => absurd hm not_mem_nil
  | cons item items ih =>
    cases item with
    | inputs ps => exact fun m hm => (Nat.le_succ _).trans (ih m hm)
    | assign name =>
      intro m hm
      rcases mem_cons.mp hm with rfl | hm
      · exact le_refl _
      · exact ih m hm

theorem pairwise_marksFrom (specs pats : Nat) (items : List Item) :
    (marksFrom specs pats items).Pairwise fun a b => a.specs ≤ b.specs := by
  induction items generalizing specs pats with
  | nil => exact List.Pairwise.nil
  | cons item items ih =>
    cases item with
    | inputs ps => exact ih _ _
    | assign name => exact pairwise_cons.mpr ⟨le_specs_marksFrom, ih _ _⟩

theorem filter_append_filter {l : List Mark} (h : l.Pairwise fun a b => a.specs ≤ b.specs) (a b : Nat) :
    l.filter (fun m => m.specs = a) ++ l.filter (fun m => a < m.specs ∧ m.specs ≤ a + b) =
      l.filter (fun m => a ≤ m.specs ∧ m.specs ≤ a + b) := by
  induction l with
  | nil => rfl
  | cons x l ih =>
    obtain ⟨hx, hl⟩ := pairwise_cons.mp h
    rcases lt_trichotomy x.specs a with hlt | heq | hgt
    · rw [filter_cons_of_neg (by simp; omega), filter_cons_of_neg (by simp; omega),
        filter_cons_of_neg (by simp; omega)]
      exact ih hl
    · rw [filter_cons_of_pos (by simpa using heq), filter_cons_of_neg (by simp; omega),
        filter_cons_of_pos (by simp; omega), cons_append, ih hl]
    -- behind `x` nothing stands at `a` any more
    have hno : (x :: l).filter (fun m => m.specs = a) = [] := by
      rw [filter_eq_nil_iff]
      intro m hm
      rcases mem_cons.mp hm with rfl | hm
      · simp; omega
      · have := hx m hm
        simp; omega
    rw [hno, nil_append]
    refine filter_congr fun m hm => ?_
    have hle : x.specs ≤ m.specs := by
      rcases mem_cons.mp hm with rfl | hm
      · exact le_refl _
      · exact hx m hm
    exact decide_eq_decide.mpr (by omega)

theorem due_record (m : Mark) (target : Nat) : m.record.due target = decide (m.specs = target) := by
  unfold SymAssign.due Mark.record
  rcases eq_zero_or_pos m.specs with h | h
  · rw [h]
    cases target <;> simp
  · have hne : (m.specs == 0) = false := by simp; omega
    rw [hne]
    rfl

theorem dueAt_records (ms : List Mark) (target : Nat) (cursor : UInt32) :
    dueAt (ms.map Mark.record) target cursor =
      (ms.filter fun m => m.specs = target).map fun m => (m.name, cursor) := by
  rw [dueAt, filter_map, map_map]
  congr 1
  exact filter_congr fun m _ => due_record m _

theorem madeFrom_eq {ms : List Mark} (h : ms.Pairwise fun a b => a.specs ≤ b.specs) (target : Nat)
    (os : OutputSec) (objs : List Object) (pats : List SecPattern) :
    madeFrom (ms.map Mark.record) target os objs pats =
      (ms.filter fun m => target < m.specs ∧ m.specs ≤ target + pats.length).map fun m =>
        (m.name, addrAfter os objs (pats.take (m.specs - target))) := by
  induction pats generalizing target os objs with
  | nil =>
    rw [madeFrom, filter_eq_nil_iff.mpr]
    · rfl
    · simp
  | cons pat pats ih =>
    rw [madeFrom, dueAt_records, ih]
    have hrng : (ms.filter fun m => target < m.specs ∧ m.specs ≤ target + (pat :: pats).length) =
        ms.filter (fun m => m.specs = target + 1) ++
          ms.filter (fun m => target + 1 < m.specs ∧ m.specs ≤ target + 1 + pats.length) := by
      rw [filter_append_filter h]
      refine filter_congr fun m _ => ?_
      rw [length_cons]
      exact decide_eq_decide.mpr (by omega)
    rw [hrng, map_append]
    congr 1
    · refine map_congr_left fun m hm => ?_
      have hm : m.specs = target + 1 := by simpa using (mem_filter.mp hm).2
      rw [hm, Nat.add_sub_cancel_left]
      rfl
    refine map_congr_left fun m hm => ?_
    obtain ⟨k, hk⟩ : ∃ k, m.specs - target = k + 1 ∧ m.specs - (target + 1) = k := by
      have := (mem_filter.mp hm).2
      simp at this
      exact ⟨m.specs - (target + 1), by omega, rfl⟩
    rw [hk.1, hk.2]
    rfl

theorem made_eq (hos : os.Records items) (hsz : os.size = 0) (objs : List Object) :
    made os objs = ((marks items).filter fun m => m.specs ≤ os.patterns.length).map fun m =>
      (m.name, addrAfter os objs (os.patterns.take m.specs)) := by
  have hsrt : (marks items).Pairwise fun a b => a.specs ≤ b.specs := pairwise_marksFrom 0 0 items
  have hbeg : os.vaddr = addrAfter os objs [] := by
    rw [addrAfter, placePatterns, OutputSec.endAddr, hsz, UInt32.add_zero]
  have hrng := filter_append_filter hsrt 0 os.patterns.length
  simp only [zero_le, true_and, zero_add] at hrng
  rw [made, hos.assigns, dueAt_records, madeFrom_eq hsrt, ← hrng, map_append]
  congr 1
  · refine map_congr_left fun m hm => ?_
    have hm : m.specs = 0 := by simpa using (mem_filter.mp hm).2
    rw [hm, hbeg]
    rfl
  · simp

theorem startAt_keeps (regions : List MemRegion) (region : Option Nat) (os : OutputSec) :
    ∃ vaddr, startAt regions region os = { os with vaddr := vaddr } := by
  unfold startAt
  split
  · exact ⟨_, rfl⟩
  · exact ⟨os.vaddr, rfl⟩

theorem exists_ok {ε α : Type} {x : Except ε α} {q : α → Bool}
    (h : x.toOption.any q = true) : ∃ a, x = .ok a ∧ q a = true := by
  cases x with
  | error e => cases h
  | ok a => exact ⟨a, rfl, h⟩

end Skjegg.Ld
