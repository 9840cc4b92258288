import Mathlib.Tactic

/-!
# Linker scripts

`script.c` reads a subset of GNU ld's scripts. The lexer is run over the whole text first; what it
cannot read becomes a token that stops the parser. The parser's state is the tokens from the current
one on.
-/

namespace Skjegg.Ld

open List

/-- A C string. -/
abbrev Text := List Char

/-! ## The lexer -/

/-- `enum token`, with the text or the number of a token. -/
inductive Tok
  | eof
  | ident (text : Text)
  | number (n : Nat)
  | string (text : Text)
  | lparen
  | rparen
  | lbrace
  | rbrace
  | colon
  | comma
  | semi
  | gt
  | eq
  | dot
  | star
  | slash
  -- what `next` dies of
  | bad (message : String)
  deriving DecidableEq, Repr

structure Lexeme where
  tok : Tok
  line : Nat
  deriving DecidableEq, Repr

variable (c : Char)

/-- `isspace`, `isalpha` and `isdigit` in the C locale. -/
def isSpace : Bool := c == ' ' || ('\t' ≤ c && c ≤ '\r')

def isAlpha : Bool := ('a' ≤ c && c ≤ 'z') || ('A' ≤ c && c ≤ 'Z')

def isDigit : Bool := '0' ≤ c && c ≤ '9'

def isIdentStart : Bool := isAlpha c || c == '_'

def isIdentChar : Bool := isAlpha c || isDigit c || c == '_'

/-- `if (*lx->pos == '\n') lx->line++;` -/
def countLine (line : Nat) : Nat :=
  if c = '\n' then line + 1 else line

def skipWs : Bool → Nat → List Char → Nat × List Char
  | _, line, [] => (line, [])
  | true, line, '*' :: '/' :: cs => skipWs false line cs
  | true, line, c :: cs => skipWs true (countLine c line) cs
  | false, line, '/' :: '*' :: cs => skipWs true line cs
  | false, line, c :: cs =>
    if isSpace c then skipWs false (countLine c line) cs else (line, c :: cs)

/-- `"script:%d: "` and what follows. -/
def atLine (line : Nat) (message : String) : String := "script:" ++ toString line ++ ": " ++ message

def textSize : Nat := 256

def textTok (mk : Text → Tok) (what : String) (line : Nat) (s : Text) : Tok :=
  if textSize ≤ s.length then .bad (atLine line (what ++ " too long")) else mk s

/-- The name of a section, which starts with a dot and may end in `.*`. -/
def sectionName (cs : List Char) : Text × List Char :=
  let inside := fun c => isIdentChar c || c == '.'
  let name := '.' :: cs.takeWhile inside
  match name.getLast?, cs.dropWhile inside with
  | some '.', '*' :: rest => (name ++ ['*'], rest)
  | _, rest => (name, rest)

def digitOf (base : Nat) (c : Char) : Option Nat :=
  let d :=
    if isDigit c then c.toNat - '0'.toNat
    else if 'a' ≤ c && c ≤ 'z' then c.toNat - 'a'.toNat + 10
    else if 'A' ≤ c && c ≤ 'Z' then c.toNat - 'A'.toNat + 10
    else base
  if d < base then some d else none

/-- `strtoul` of digits: the value, which stops at `ULONG_MAX`, and the rest. -/
def digits (base : Nat) : Nat → List Char → Nat × List Char
  | acc, [] => (min acc (2 ^ 64 - 1), [])
  | acc, c :: cs =>
    match digitOf base c with
    | some d => digits base (acc * base + d) cs
    | none => (min acc (2 ^ 64 - 1), c :: cs)

def numberTok (r : Nat × List Char) : Tok × List Char :=
  match r.2 with
  | 'K' :: rest => (.number (r.1 * 1024 % 2 ^ 32), rest)
  | 'M' :: rest => (.number (r.1 * (1024 * 1024) % 2 ^ 32), rest)
  | rest => (.number (r.1 % 2 ^ 32), rest)

/-- `strtoul(pos, &pos, 16)` behind `0x`: without a digit there, only the zero is read. -/
def hexNumber (cs : List Char) : Nat × List Char :=
  match cs with
  | [] => (0, ['x'])
  | c :: _ => if (digitOf 16 c).isSome then digits 16 0 cs else (0, 'x' :: cs)

def discardName : Text := "/DISCARD/".toList

/-- A token from a text that starts with no blank. -/
def readTok (line : Nat) : List Char → Tok × List Char
  | [] => (.eof, [])
  | '(' :: cs => (.lparen, cs)
  | ')' :: cs => (.rparen, cs)
  | '{' :: cs => (.lbrace, cs)
  | '}' :: cs => (.rbrace, cs)
  | ':' :: cs => (.colon, cs)
  | ',' :: cs => (.comma, cs)
  | ';' :: cs => (.semi, cs)
  | '>' :: cs => (.gt, cs)
  | '=' :: cs => (.eq, cs)
  | '*' :: cs => (.star, cs)
  | '.' :: cs =>
    if (cs.head?.map isIdentChar).getD false then
      let (name, rest) := sectionName cs
      (textTok .ident "identifier" line name, rest)
    else
      (.dot, cs)
  | '/' :: cs =>
    if discardName <+: '/' :: cs then (.ident discardName, cs.drop (discardName.length - 1))
    else
      (.slash, cs)
  | '"' :: cs =>
    let s := cs.takeWhile (· != '"')
    (textTok .string "string" line s, (cs.dropWhile (· != '"')).drop 1)
  | '0' :: 'x' :: cs => numberTok (hexNumber cs)
  | c :: cs =>
    if isDigit c then numberTok (digits 10 0 (c :: cs))
    else if isIdentStart c then
      (textTok .ident "identifier" line ((c :: cs).takeWhile isIdentChar),
        (c :: cs).dropWhile isIdentChar)
    else
      (.bad (atLine line ("unexpected character '" ++ toString c ++ "'")), cs)

theorem length_skipWs (comment : Bool) (line : Nat) (pos : List Char) :
    (skipWs comment line pos).2.length ≤ pos.length := by
  fun_induction skipWs comment line pos with
  | case1 => exact le_refl _
  | case2 line cs ih => exact ih.trans (by rw [length_cons, length_cons]; omega)
  | case3 line c cs _ ih => exact ih.trans (by simp)
  | case4 line cs ih => exact ih.trans (by rw [length_cons, length_cons]; omega)
  | case5 line c cs _ _ ih => exact ih.trans (by simp)
  | case6 => exact le_refl _

theorem length_digits (base acc : Nat) (cs : List Char) : (digits base acc cs).2.length ≤ cs.length := by
  fun_induction digits _ acc cs with
  | case1 => exact le_refl _
  | case2 acc c cs d _ ih => exact ih.trans (by simp)
  | case3 => exact le_refl _

theorem length_numberTok (r : Nat × List Char) : (numberTok r).2.length ≤ r.2.length := by
  unfold numberTok
  split <;> simp_all

theorem length_sectionName (cs : List Char) : (sectionName cs).2.length ≤ cs.length := by
  have hdrop : (cs.dropWhile fun c => isIdentChar c || c == '.').length ≤ cs.length :=
    (dropWhile_suffix _).length_le
  unfold sectionName
  dsimp only
  split
  · next hrs =>
    rw [hrs] at hdrop
    exact (Nat.le_succ _).trans hdrop
  · exact hdrop

theorem digitOf_ten {c : Char} (h : isDigit c = true) : ∃ d, digitOf 10 c = some d := by
  have hle : c.toNat ≤ 57 := by
    rw [isDigit, Bool.and_eq_true] at h
    exact of_decide_eq_true h.2
  refine ⟨c.toNat - 48, ?_⟩
  unfold digitOf
  rw [h]
  exact if_pos (by show c.toNat - 48 < 10; omega)

theorem length_readTok (line : Nat) (c : Char) (cs : List Char) :
    (readTok line (c :: cs)).2.length ≤ cs.length := by
  unfold readTok
  split
  all_goals try (next heq => cases heq; exact le_refl _)
  · next heq => cases heq
  · next heq =>
    cases heq
    split
    · exact length_sectionName cs
    · exact le_refl _
  · next heq =>
    cases heq
    split
    · exact (drop_suffix _ _).length_le
    · exact le_refl _
  · next heq =>
    cases heq
    exact (drop_suffix _ _).length_le.trans (dropWhile_suffix _).length_le
  · next cs' heq =>
    cases heq
    refine (length_numberTok _).trans ?_
    unfold hexNumber
    split
    · exact le_refl _
    · split
      · exact (length_digits _ _ _).trans (Nat.le_succ _)
      · exact le_refl _
  · next heq =>
    cases heq
    split
    · next hdig =>
      obtain ⟨d, hd⟩ := digitOf_ten hdig
      refine (length_numberTok _).trans ?_
      rw [digits, hd]
      exact length_digits _ _ _
    split
    · next hbeg =>
      have hchar : isIdentChar c = true := by
        unfold isIdentStart at hbeg
        unfold isIdentChar
        simp only [Bool.or_eq_true] at hbeg ⊢
        tauto
      rw [dropWhile_cons_of_pos hchar]
      exact (dropWhile_suffix _).length_le
    · exact le_refl _

def Tok.isBad : Tok → Bool
  | .bad _ => true
  | _ => false

/-- The tokens of a text, up to its end or to what cannot be read. -/
def lexAll (start : Nat) (pos : List Char) : List Lexeme :=
  match _hskip : skipWs false start pos with
  | (line, []) => [⟨.eof, line⟩]
  | (line, c :: cs) =>
    match _htok : readTok line (c :: cs) with
    | (tok, rest) => if tok.isBad then [⟨tok, line⟩] else ⟨tok, line⟩ :: lexAll line rest
termination_by pos.length
decreasing_by
  have hrest := length_readTok line c cs
  have hblank := length_skipWs false start pos
  rw [_htok] at hrest
  rw [_hskip] at hblank
  exact Nat.lt_of_lt_of_le (Nat.lt_succ_of_le hrest) hblank

/-! ## The script -/

structure SecPattern where
  name : Text
  wildcard : Bool
  deriving DecidableEq, Repr

structure SymAssign where
  name : Text
  beforeInputs : Bool
  afterPattern : Nat
  deriving DecidableEq, Repr

/-- `struct ld_output_sec` -/
structure OutputSec where
  name : Text := []
  discard : Bool := false
  nobits : Bool := false
  vaddr : UInt32 := 0
  size : UInt32 := 0
  data : List UInt8 := []
  region : Option Text := none
  phdr : Option Text := none
  patterns : List SecPattern := []
  assigns : List SymAssign := []
  deriving DecidableEq, Repr

structure MemRegion where
  name : Text
  (origin length : UInt32)
  flags : Nat
  cursor : UInt32
  deriving DecidableEq, Repr

/-- `struct ld_phdr` -/
structure Phdr where
  name : Text
  (type flags : Nat)
  deriving DecidableEq, Repr

/-- `struct ld_script` -/
structure Script where
  outputFormat : Option Text := none
  outputArch : Option Text := none
  entry : Option Text := none
  regions : List MemRegion := []
  phdrs : List Phdr := []
  sections : List OutputSec := []
  deriving DecidableEq, Repr

def maxPatterns : Nat := 16
def maxAssigns : Nat := 16
def maxRegions : Nat := 8
def maxPhdrs : Nat := 8
def maxOutSecs : Nat := 16

/-! ## The parser -/

abbrev Parser := StateT (List Lexeme) (Except String)

/-- `lx->tok`; behind the last token lies the end of the text. -/
def tokOf (ts : List Lexeme) : Tok := (ts.head?.map Lexeme.tok).getD .eof

def cur : Parser Tok := fun ts => .ok (tokOf ts, ts)

def die {α : Type} (message : String) : Parser α :=
  fun ts => .error (atLine ((ts.head?.map Lexeme.line).getD 0) message)

def next : Parser Unit
  | [] => .ok ((), [])
  | [_] => .ok ((), [])
  | _ :: t :: ts =>
    match t.tok with
    | .bad message => .error message
    | _ => .ok ((), t :: ts)

def Shrinks {α : Type} (p : Parser α) : Prop := ∀ ts a ts', p ts = .ok (a, ts') → ts' <:+ ts

def Consumes {α : Type} (p : Parser α) : Prop := ∀ t ts a ts', p (t :: ts) = .ok (a, ts') → ts' <:+ ts

variable {ts ts' : List Lexeme}

section Shrinking

variable {α β : Type} {p : Parser α} {f : α → Parser β}

theorem bind_ok {b : β} (h : (p >>= f) ts = .ok (b, ts')) :
    ∃ a ts1, p ts = .ok (a, ts1) ∧ f a ts1 = .ok (b, ts') := by
  change (p ts >>= fun r => f r.1 r.2) = _ at h
  cases hp : p ts with
  | error e =>
    rw [hp] at h
    cases h
  | ok r =>
    rw [hp] at h
    exact ⟨r.1, r.2, rfl, h⟩

theorem bind_run {ts ts1 : List Lexeme} {a : α} (h : p ts = .ok (a, ts1)) : (p >>= f) ts = f a ts1 := by
  change (p ts >>= fun r => f r.1 r.2) = _
  rw [h]
  rfl

theorem Shrinks.pure (a : α) : Shrinks (pure a : Parser α) := by
  intro ts b ts' h
  cases h
  exact suffix_rfl

theorem Shrinks.cur : Shrinks cur := by
  intro ts b ts' h
  cases h
  exact suffix_rfl

theorem Shrinks.die (message : String) : Shrinks (die message : Parser α) := by
  intro ts b ts' h
  cases h

theorem Consumes.die (message : String) : Consumes (die message : Parser α) := by
  intro t ts b ts' h
  cases h

theorem Consumes.next : Consumes next := by
  intro t ts u ts' h
  cases ts with
  | nil =>
    cases h
    exact suffix_rfl
  | cons t' ts =>
    rw [Ld.next.eq_3] at h
    split at h
    · cases h
    · cases h
      exact suffix_rfl

theorem Shrinks.next : Shrinks next := by
  intro ts u ts' h
  cases ts with
  | nil =>
    cases h
    exact suffix_rfl
  | cons t ts => exact (Consumes.next t ts u ts' h).trans (suffix_cons t ts)

theorem Shrinks.bind (hp : Shrinks p) (hf : ∀ a, Shrinks (f a)) : Shrinks (p >>= f) := by
  intro ts b ts' h
  obtain ⟨a, ts1, h1, h2⟩ := bind_ok h
  exact (hf a _ _ _ h2).trans (hp _ _ _ h1)

theorem Consumes.bind (hp : Consumes p) (hf : ∀ a, Shrinks (f a)) : Consumes (p >>= f) := by
  intro t ts b ts' h
  obtain ⟨a, ts1, h1, h2⟩ := bind_ok h
  exact (hf a _ _ _ h2).trans (hp _ _ _ _ h1)

theorem Shrinks.ite {c : Prop} [Decidable c] {p q : Parser α} (hp : Shrinks p) (hq : Shrinks q) :
    Shrinks (if c then p else q) := by
  split
  · exact hp
  · exact hq

theorem Consumes.ite {c : Prop} [Decidable c] {p q : Parser α} (hp : Consumes p)
    (hq : Consumes q) : Consumes (if c then p else q) := by
  split
  · exact hp
  · exact hq

end Shrinking

/-- `while`: as long as the current token is one that `go` takes, the body is run. -/
def loop {σ α : Type} (go : Tok → Option α) (body : α → σ → Parser σ)
    (hbody : ∀ a s, Consumes (body a s)) (s : σ) : Parser σ
  | [] => .ok (s, [])
  | t :: ts =>
    match go t.tok with
    | none => .ok (s, t :: ts)
    | some a =>
      match _h : body a s (t :: ts) with
      | .error e => .error e
      | .ok (s', ts') => loop go body hbody s' ts'
termination_by ts => ts.length
decreasing_by exact Nat.lt_succ_of_le (hbody _ _ _ _ _ _ _h).length_le

section Loop

variable {σ τ α : Type} {go : Tok → Option α} {body : α → σ → Parser σ}
  {hbody : ∀ a s, Consumes (body a s)}

theorem loop_keeps (I : σ → List Lexeme → Prop)
    (hst : ∀ a s t ts s' ts', go t.tok = some a → body a s (t :: ts) = .ok (s', ts') → I s (t :: ts) →
      I s' ts')
    {s s' : σ} (h : loop go body hbody s ts = .ok (s', ts')) (hI : I s ts) : I s' ts' := by
  fun_induction loop go _ hbody s ts with
  | case1 s =>
    cases h
    exact hI
  | case2 s t ts =>
    cases h
    exact hI
  | case3 => cases h
  | case4 s t ts a hgo s1 ts1 hrun ih => exact ih h (hst a s t ts s1 ts1 hgo hrun hI)

theorem loop_follows {body' : α → τ → Parser τ} (hbody' : ∀ a t, Consumes (body' a t)) (R : σ → τ → Prop)
    (hst : ∀ a s t ts s' ts', body a s ts = .ok (s', ts') → R s t →
      ∃ t', body' a t ts = .ok (t', ts') ∧ R s' t')
    {s s' : σ} {t : τ} (h : loop go body hbody s ts = .ok (s', ts'))
    (hR : R s t) : ∃ t', loop go body' hbody' t ts = .ok (t', ts') ∧ R s' t' := by
  fun_induction loop go _ hbody s ts generalizing t with
  | case1 s =>
    cases h
    exact ⟨t, by rw [loop], hR⟩
  | case2 s l ts hgo =>
    cases h
    exact ⟨t, by rw [loop, hgo], hR⟩
  | case3 => cases h
  | case4 s l ts a hgo s1 ts1 hrun ih =>
    obtain ⟨t1, hrun', hR1⟩ := hst a s t _ s1 ts1 hrun hR
    obtain ⟨t', hlp, hR'⟩ := ih h hR1
    refine ⟨t', ?_, hR'⟩
    rw [loop, hgo]
    dsimp only
    split
    · next e he =>
      rw [hrun'] at he
      cases he
    · next t2 ts2 heq =>
      rw [hrun'] at heq
      cases heq
      exact hlp

end Loop

def demand (tok : Tok) (message : String) : Parser Unit := do
  if (← cur) = tok then next else die message

def expect (tok : Tok) (what : String) : Parser Unit := demand tok ("expected " ++ what)

variable (what : String)

def takeIdent : Parser Text := do
  match ← cur with
  | .ident text => do next; pure text
  | _ => die ("expected " ++ what)

def takeString : Parser Text := do
  match ← cur with
  | .string text => do next; pure text
  | _ => die ("expected " ++ what)

def takeNumber : Parser Nat := do
  match ← cur with
  | .number n => do next; pure n
  | _ => die ("expected " ++ what)

section Shrinking

variable (tok : Tok) (what message : String)

theorem Shrinks.demand : Shrinks (demand tok message) := .bind .cur fun _ => .ite .next (.die _)

theorem Shrinks.expect : Shrinks (expect tok what) := .demand _ _

theorem Shrinks.takeIdent : Shrinks (takeIdent what) := by
  refine .bind .cur fun tok => ?_
  split
  · exact .bind .next fun _ => .pure _
  · exact .die _

theorem Shrinks.takeString : Shrinks (takeString what) := by
  refine .bind .cur fun tok => ?_
  split
  · exact .bind .next fun _ => .pure _
  · exact .die _

theorem Shrinks.takeNumber : Shrinks (takeNumber what) := by
  refine .bind .cur fun tok => ?_
  split
  · exact .bind .next fun _ => .pure _
  · exact .die _

theorem Shrinks.loop {σ α : Type} (go : Tok → Option α) (body : α → σ → Parser σ)
    (hbody : ∀ a s, Consumes (body a s)) (s : σ) : Shrinks (loop go body hbody s) := by
  intro ts s' ts' h
  refine loop_keeps (fun _ rest => rest <:+ ts) (fun a s1 t ts1 s2 ts2 _ hrun hrs => ?_) h suffix_rfl
  exact (hbody a s1 t ts1 s2 ts2 hrun).trans ((suffix_cons t ts1).trans hrs)

end Shrinking

def parseFlagsString (s : Text) : Nat :=
  s.foldl (fun f c =>
    if c = 'r' then f ||| 4 else if c = 'w' then f ||| 2 else if c = 'x' then f ||| 1 else f) 0

variable (sc : Script)

def parseOutputFormat : Parser Script := do
  next
  expect .lparen "'('"
  let text ← takeString "string for OUTPUT_FORMAT"
  expect .rparen "')'"
  pure { sc with outputFormat := some text }

def parseOutputArch : Parser Script := do
  next
  expect .lparen "'('"
  let text ← takeIdent "identifier for OUTPUT_ARCH"
  expect .rparen "')'"
  pure { sc with outputArch := some text }

def parseEntry : Parser Script := do
  next
  expect .lparen "'('"
  let text ← takeIdent "identifier for ENTRY"
  expect .rparen "')'"
  pure { sc with entry := some text }

variable (name : Text)

def parseRegion (sc : Script) : Parser Script :=
  if maxRegions ≤ sc.regions.length then die "too many MEMORY regions"
  else do
    next
    expect .lparen "'('"
    let flags ← takeIdent "flags for MEMORY region"
    expect .rparen "')'"
    expect .colon "':'"
    demand (.ident "ORIGIN".toList) "expected ORIGIN"
    expect .eq "'='"
    let origin ← takeNumber "number for ORIGIN"
    expect .comma "','"
    demand (.ident "LENGTH".toList) "expected LENGTH"
    expect .eq "'='"
    let length ← takeNumber "number for LENGTH"
    pure { sc with regions :=
      sc.regions ++ [⟨name, .ofNat origin, .ofNat length, parseFlagsString flags, .ofNat origin⟩] }

theorem consumes_parseRegion (name : Text) (sc : Script) : Consumes (parseRegion name sc) := by
  refine .ite (.die _) (Consumes.next.bind fun _ => ?_)
  refine .bind (.expect _ _) fun _ => .bind (.takeIdent _) fun _ => ?_
  refine .bind (.expect _ _) fun _ => .bind (.expect _ _) fun _ => ?_
  refine .bind (.demand _ _) fun _ => .bind (.expect _ _) fun _ => ?_
  refine .bind (.takeNumber _) fun _ => .bind (.expect _ _) fun _ => ?_
  refine .bind (.demand _ _) fun _ => .bind (.expect _ _) fun _ => ?_
  exact .bind (.takeNumber _) fun _ => .pure _

def regionStart : Tok → Option Text
  | .ident name => if name = "PHDRS".toList ∨ name = "SECTIONS".toList then none else some name
  | _ => none

def parseMemory : Parser Script := do
  next
  expect .lbrace "'\x7b'"
  let sc ← loop regionStart parseRegion consumes_parseRegion sc
  expect .rbrace "'\x7d'"
  pure sc

/-- The `FLAGS(n)` of a program header; without it they stay zero. -/
def parsePhdrFlags : Parser Nat := do
  if (← cur) = .ident "FLAGS".toList then do
    next
    expect .lparen "'('"
    let flags ← takeNumber "number for FLAGS"
    expect .rparen "')'"
    pure flags
  else
    pure 0

def parsePhdr (sc : Script) : Parser Script :=
  if maxPhdrs ≤ sc.phdrs.length then die "too many PHDRS"
  else do
    next
    demand (.ident "PT_LOAD".toList) "only PT_LOAD supported"
    let flags ← parsePhdrFlags
    expect .semi "';'"
    pure { sc with phdrs := sc.phdrs ++ [⟨name, 1, flags⟩] }

theorem shrinks_parsePhdrFlags : Shrinks parsePhdrFlags := by
  refine .bind .cur fun _ => .ite (.bind .next fun _ => ?_) (.pure _)
  refine .bind (.expect _ _) fun _ => .bind (.takeNumber _) fun _ => ?_
  exact .bind (.expect _ _) fun _ => .pure _

theorem consumes_parsePhdr (name : Text) (sc : Script) : Consumes (parsePhdr name sc) := by
  refine .ite (.die _) (Consumes.next.bind fun _ => .bind (.demand _ _) fun _ => ?_)
  exact shrinks_parsePhdrFlags.bind fun _ => .bind (.expect _ _) fun _ => .pure _

def identStart : Tok → Option Text
  | .ident name => some name
  | _ => none

def parsePhdrs : Parser Script := do
  next
  expect .lbrace "'\x7b'"
  let sc ← loop identStart parsePhdr consumes_parsePhdr sc
  expect .rbrace "'\x7d'"
  pure sc

/-- A pattern from its token, with a `.*` at its end cut off. -/
def patternOf : SecPattern :=
  if ['.', '*'] <:+ name then ⟨name.take (name.length - 2), true⟩ else ⟨name, false⟩

def parseGlob (pat : SecPattern) : Parser SecPattern := do
  if (← cur) = .dot ∧ pat.wildcard = false then do
    next
    if (← cur) = .star then do
      next
      pure { pat with wildcard := true }
    else
      pure pat
  else
    pure pat

def skipComma : Parser Unit := do
  if (← cur) = .comma then next else pure ()

def parseSelector : Parser SecPattern :=
  if name = "COMMON".toList then pure ⟨name, false⟩ else parseGlob (patternOf name)

def parsePattern : Tok → Parser SecPattern
  | .ident name => do
      next
      let pat ← parseSelector name
      skipComma
      pure pat
  | _ => die "expected section pattern"

theorem shrinks_parseGlob (pat : SecPattern) : Shrinks (parseGlob pat) := by
  refine .bind .cur fun _ => .ite (.bind .next fun _ => ?_) (.pure _)
  exact .bind .cur fun _ => .ite (.bind .next fun _ => .pure _) (.pure _)

variable (tok : Tok)

theorem consumes_parsePattern : Consumes (parsePattern tok) := by
  unfold parsePattern
  split
  · refine Consumes.next.bind fun _ => Shrinks.bind (.ite (.pure _) (shrinks_parseGlob _)) ?_
    exact fun _ => .bind (.bind .cur fun _ => .ite .next (.pure _)) fun _ => .pure _
  · exact .die _

def addPattern (tok : Tok) (os : OutputSec) : Parser OutputSec :=
  if maxPatterns ≤ os.patterns.length then die "too many input patterns"
  else do
    let pat ← parsePattern tok
    pure { os with patterns := os.patterns ++ [pat] }

variable (os : OutputSec)

theorem consumes_addPattern : Consumes (addPattern tok os) :=
  .ite (.die _) ((consumes_parsePattern tok).bind fun _ => .pure _)

def upTo (close : Tok) : Tok → Option Tok
  | .eof => none
  | tok => if tok = close then none else some tok

def parseInputSpec (os : OutputSec) : Parser OutputSec := do
  next
  expect .lparen "'('"
  let os ← loop (upTo .rparen) addPattern consumes_addPattern os
  expect .rparen "')'"
  pure os

theorem consumes_parseInputSpec : Consumes (parseInputSpec os) := by
  refine Consumes.next.bind fun _ => .bind (.expect _ _) fun _ => ?_
  exact .bind (.loop _ _ _ _) fun _ => .bind (.expect _ _) fun _ => .pure _

/-- `sym = . ;`, the current token being the name, which is copied into 256 bytes. -/
def parseAssign (text : Text) : Parser Text := do
  let name := text.take (textSize - 1)
  next
  demand .eq ("expected '=' after '" ++ String.ofList name ++ "'")
  demand .dot "only '. (dot)' supported on RHS of symbol assignment"
  expect .semi "';'"
  pure name

theorem consumes_parseAssign (text : Text) : Consumes (parseAssign text) := by
  refine Consumes.next.bind fun _ => .bind (.demand _ _) fun _ => ?_
  exact .bind (.demand _ _) fun _ => .bind (.expect _ _) fun _ => .pure _

def parseSecItem : Tok → OutputSec × Nat → Parser (OutputSec × Nat)
  | .star, (os, count) => do
      let os ← parseInputSpec os
      pure (os, count + 1)
  | .ident text, (os, count) => do
      let name ← parseAssign text
      if maxAssigns ≤ os.assigns.length then die "too many symbol assignments"
      else
        pure ({ os with assigns := os.assigns ++ [⟨name, count == 0, count⟩] }, count)
  | _, _ => die "unexpected token in section body"

theorem consumes_parseSecItem (s : OutputSec × Nat) : Consumes (parseSecItem tok s) := by
  unfold parseSecItem
  split
  · exact (consumes_parseInputSpec _).bind fun _ => .pure _
  · exact (consumes_parseAssign _).bind fun _ => .ite (.die _) (.pure _)
  · exact .die _

def parseSecBody (os : OutputSec) : Parser OutputSec := do
  let r ← loop (upTo .rbrace) parseSecItem consumes_parseSecItem (os, 0)
  pure r.1

def parseSecPhdr (os : OutputSec) : Parser OutputSec := do
  if (← cur) = .colon then do
    next
    let phdr ← takeIdent "phdr name after ':'"
    pure { os with phdr := some phdr }
  else
    pure os

def parseSecRegion (os : OutputSec) : Parser OutputSec := do
  if os.discard = false ∧ (← cur) = .gt then do
    next
    let region ← takeIdent "region name after '>'"
    parseSecPhdr { os with region := some region }
  else
    pure os

def parseSection (tok : Tok) (sc : Script) : Parser Script :=
  if maxOutSecs ≤ sc.sections.length then die "too many output sections"
  else
    match tok with
    | .ident name => do
        next
        expect .colon "':'"
        expect .lbrace "'\x7b'"
        let os ← parseSecBody { name := name, discard := decide (name = discardName) }
        expect .rbrace "'\x7d'"
        let os ← parseSecRegion os
        pure { sc with sections := sc.sections ++ [os] }
    | _ => die "expected section name"

theorem shrinks_parseSecBody : Shrinks (parseSecBody os) := .bind (.loop _ _ _ _) fun _ => .pure _

theorem shrinks_parseSecRegion : Shrinks (parseSecRegion os) := by
  refine .bind .cur fun _ => .ite (.bind .next fun _ => ?_) (.pure _)
  refine .bind (.takeIdent _) fun _ => .bind .cur fun _ => .ite ?_ (.pure _)
  exact .bind .next fun _ => .bind (.takeIdent _) fun _ => .pure _

theorem consumes_parseSection (sc : Script) : Consumes (parseSection tok sc) := by
  refine .ite (.die _) ?_
  split
  · refine Consumes.next.bind fun _ => .bind (.expect _ _) fun _ => ?_
    refine .bind (.expect _ _) fun _ => (shrinks_parseSecBody _).bind fun _ => ?_
    exact .bind (.expect _ _) fun _ => (shrinks_parseSecRegion _).bind fun _ => .pure _
  · exact .die _

def parseSections : Parser Script := do
  next
  expect .lbrace "'\x7b'"
  let sc ← loop (upTo .rbrace) parseSection consumes_parseSection sc
  expect .rbrace "'\x7d'"
  pure sc

def parseDirective (tok : Tok) (sc : Script) : Parser Script :=
  match tok with
  | .ident name =>
    if name = "OUTPUT_FORMAT".toList then parseOutputFormat sc
    else if name = "OUTPUT_ARCH".toList then parseOutputArch sc
    else if name = "ENTRY".toList then parseEntry sc
    else if name = "MEMORY".toList then parseMemory sc
    else if name = "PHDRS".toList then parsePhdrs sc
    else if name = "SECTIONS".toList then parseSections sc
    else die ("unknown directive '" ++ String.ofList name ++ "'")
  | _ => die "expected top-level directive"

theorem consumes_parseDirective (sc : Script) : Consumes (parseDirective tok sc) := by
  unfold parseDirective
  split
  · refine .ite ?format (.ite ?arch (.ite ?entry (.ite ?memory (.ite ?phdrs (.ite ?sections ?_)))))
    case format =>
      exact Consumes.next.bind fun _ => .bind (.expect _ _) fun _ =>
        .bind (.takeString _) fun _ => .bind (.expect _ _) fun _ => .pure _
    case arch =>
      exact Consumes.next.bind fun _ => .bind (.expect _ _) fun _ =>
        .bind (.takeIdent _) fun _ => .bind (.expect _ _) fun _ => .pure _
    case entry =>
      exact Consumes.next.bind fun _ => .bind (.expect _ _) fun _ =>
        .bind (.takeIdent _) fun _ => .bind (.expect _ _) fun _ => .pure _
    case memory | phdrs | sections =>
      exact Consumes.next.bind fun _ => .bind (.expect _ _) fun _ =>
        .bind (.loop _ _ _ _) fun _ => .bind (.expect _ _) fun _ => .pure _
    exact .die _
  · exact .die _

def upToEof : Tok → Option Tok
  | .eof => none
  | tok => some tok

def ldParseScript (src : Text) : Except String Script :=
  match lexAll 1 src with
  | ⟨.bad message, _⟩ :: _ => .error message
  | ts => ((loop upToEof parseDirective consumes_parseDirective {}) ts).map Prod.fst

def defaultScript : Text :=
  ("OUTPUT_FORMAT(\"elf32-m68k\")\n" ++ "ENTRY(_start)\n" ++
    "MEMORY \x7b RAM (rwx) : ORIGIN = 0x80000000, LENGTH = 0x4000000 \x7d\n" ++
    "SECTIONS \x7b\n" ++
    "    .text : \x7b *(.text .text.*) \x7d > RAM\n" ++
    "    .rodata : \x7b *(.rodata .rodata.*) \x7d > RAM\n" ++
    "    .data : \x7b *(.data .data.*) \x7d > RAM\n" ++
    "    .bss : \x7b __bss_start = .; *(.bss .bss.*) *(COMMON)" ++
    " __bss_end = .; \x7d > RAM\n" ++
    "    /DISCARD/ : \x7b *(.note .note.*) *(.comment)" ++
    " *(.eh_frame) *(.gnu.hash) \x7d\n" ++
    "\x7d\n").toList

def ldDefaultScript : Except String Script := ldParseScript defaultScript

end Skjegg.Ld
