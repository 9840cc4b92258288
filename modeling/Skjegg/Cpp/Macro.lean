import Skjegg.Cpp.Tok

/-!
# Macros

The macro table and the expansion of `macro.c`.  An expansion carries the flag `macro_need_more`, which a
call sets whose argument list does not close.
-/

namespace Skjegg.Cpp

inductive Builtin
  | file
  | line
  | date
  | time
  | stdc
  | stdcVersion
  deriving DecidableEq, Repr

/-- `struct cpp_macro`; the macros that are being expanded are an argument of the expansion. -/
structure Macro where
  name : Text
  isFunc : Bool := false
  params : List Text := []
  isVariadic : Bool := false
  body : List Tok := []
  builtin : Option Builtin := none
  deriving DecidableEq, Repr

variable (macros : List Macro)

def macroLookup (name : Text) : Option Macro := macros.find? (·.name = name)

variable (m : Macro)

def macroDefine : List Macro :=
  if (macroLookup macros m.name).isSome then macros.map fun x => if x.name = m.name then m else x
  else m :: macros

def macroUndef (name : Text) : List Macro := macros.eraseP (·.name = name)

def Tok.isPunct (t : Tok) (text : String) : Bool := t.kind = .punct ∧ t.text = text.toList

def skipSpace (ts : List Tok) : List Tok := ts.dropWhile (·.kind = .space)

/-- The buffer has 4096 bytes. -/
def stringifyTokens (ts : List Tok) : Tok :=
  let put (buf : Text) (t : Tok) : Text :=
    if t.kind = .space then if buf.length < 4094 then buf ++ [' '] else buf
    else
      t.text.foldl (fun buf c =>
        if buf.length < 4093 then buf ++ if c = '"' ∨ c = '\\' then ['\\', c] else [c] else buf) buf
  newToken .string (ts.foldl put ['"'] ++ ['"'])

def pasteTokens (left right : Tok) : Tok :=
  let text := left.text ++ right.text
  let kind := match text with
    | [] => .placemarker
    | c :: _ => if isIdentStart c then .ident else if c.isDigit then .number else .punct
  newToken kind text

def findParam (name : Text) : Option Nat :=
  match m.params.findIdx? (· = name) with
  | some i => some i
  | none => if m.isVariadic ∧ name = "__VA_ARGS__".toList then some m.params.length else none

/-- The tokens before the parenthesis that closes a list, and those behind it. -/
def findClosingParen : Nat → List Tok → Option (List Tok × List Tok)
  | _, [] => none
  | depth, t :: ts =>
    if t.isPunct ")" ∧ depth = 0 then some ([], ts)
    else
      let depth := if t.isPunct "(" then depth + 1 else if t.isPunct ")" then depth - 1 else depth
      (findClosingParen depth ts).map fun r => (t :: r.1, r.2)

/-- The loop of `collect_args` from a token on; `argc` commas have parted arguments. -/
def splitArgs (m : Macro) : Nat → Nat → List Tok → List (List Tok)
  | _, _, [] => [[]]
  | depth, argc, t :: ts =>
    if t.isPunct "," ∧ depth = 0 ∧ (m.isVariadic → argc < m.params.length) then
      [] :: splitArgs m depth (argc + 1) ts
    else
      let depth := if t.isPunct "(" then depth + 1 else if t.isPunct ")" then depth - 1 else depth
      match splitArgs m depth argc ts with
      | [] => [[t]]
      | arg :: args => (t :: arg) :: args

/-- The arguments of a call; the source has room for 64. -/
def collectArgs (ts : List Tok) : List (List Tok) :=
  let cap := max m.params.length 1 + if m.isVariadic then 1 else 0
  ((splitArgs m 0 0 (skipSpace ts)).map skipSpace).take (cap + 1)

/-- What stands for a token of the body beside `##`. -/
def pasteSide (args : List (List Tok)) (t : Tok) : List Tok :=
  match if t.kind = .ident then findParam m t.text else none with
  | some i => args.getD i []
  | none => [t]

def pasteLists (left right : List Tok) : List Tok :=
  match left.getLast?, right with
  | some l, r :: right => left.dropLast ++ pasteTokens l r :: right
  | _, _ => left ++ right

/-- The argument for a token of the body that is a parameter. -/
def argOf (args : List (List Tok)) (t : Tok) : Option (List Tok) :=
  if t.kind = .ident then (findParam m t.text).bind (args[·]?) else none

def stringified (args : List (List Tok)) (b c : Tok) : Option Tok :=
  if b.isPunct "#" then (argOf m args c).map stringifyTokens else none

/-- `substitute`; `expand` expands an argument. -/
def substitute (m : Macro) (args : List (List Tok)) (expand : List Tok → StateM Bool (List Tok)) :
    List Tok → StateM Bool (List Tok)
  | [] => pure []
  | [b] => plain b
  | [b, c] =>
    match stringified m args b c with
    | some s => pure [s]
    | none => do return (← plain b) ++ (← plain c)
  | b :: c :: d :: rest =>
    match stringified m args b c with
    | some s => do return s :: (← substitute m args expand (d :: rest))
    | none =>
      if c.isPunct "##" then do
        return pasteLists (pasteSide m args b) (pasteSide m args d) ++ (← substitute m args expand rest)
      else do return (← plain b) ++ (← substitute m args expand (c :: d :: rest))
where
  plain (b : Tok) : StateM Bool (List Tok) :=
    match argOf m args b with
    | some arg => expand arg
    | none => pure [b]

def paint (name : Text) (ts : List Tok) : List Tok :=
  ts.map fun t => if t.kind = .ident ∧ t.text = name then { t with blue := true } else t

variable (builtinTok : Builtin → Tok)

/-- `macro_expand`, with the names of the macros being expanded.  A run that is cut off leaves the tokens
as they are. -/
def macroExpand : Nat → List Text → List Tok → StateM Bool (List Tok)
  | 0, _, ts => pure ts
  | _, _, [] => pure []
  | fuel + 1, busy, t :: rest =>
    let keep : StateM Bool (List Tok) := do return t :: (← macroExpand fuel busy rest)
    if t.kind ≠ .ident ∨ t.blue ∨ t.text ∈ busy then keep
    else
      match macroLookup macros t.text with
      | none => keep
      | some m =>
        match m.builtin with
        | some id => do return builtinTok id :: (← macroExpand fuel busy rest)
        | none =>
          if !m.isFunc then do
            let expanded ← macroExpand fuel (m.name :: busy) m.body
            return paint m.name expanded ++ (← macroExpand fuel busy rest)
          else
            match skipSpace rest with
            | [] => keep
            | lparen :: inside =>
              if !lparen.isPunct "(" then keep
              else
                match findClosingParen 0 inside with
                | none => do
                  set true
                  keep
                | some (list, rest) => do
                  let args := collectArgs m list
                  let replacement ← substitute m args (macroExpand fuel busy) m.body
                  let expanded := paint m.name (← macroExpand fuel (m.name :: busy) replacement)
                  if expanded.getLast?.any (isCallable busy) ∧ (skipSpace rest).head?.any (·.isPunct "(") then
                    macroExpand fuel busy (expanded ++ rest)
                  else return expanded ++ (← macroExpand fuel busy rest)
where
  isCallable (busy : List Text) (t : Tok) : Bool :=
    t.kind = .ident ∧ !t.blue ∧ t.text ∉ busy ∧ (macroLookup macros t.text).any (·.isFunc)

/-! ## Definitions -/

/-- The parameters of a function-like macro, whether it is variadic, and the text behind them. -/
def parseParams : Nat → Text → List Text × Bool × Text
  | 0, s => ([], false, s)
  | fuel + 1, s =>
    if s = [] ∨ s.head? = some ')' then ([], false, s)
    else if s.take 3 = ['.', '.', '.'] then ([], true, skipWs (s.drop 3))
    else
      let param := s.takeWhile isIdentChar
      if param = [] then ([], false, s)
      else
        let s := skipWs (s.dropWhile isIdentChar)
        let (params, isVariadic, s) := parseParams fuel (if s.head? = some ',' then skipWs s.tail else s)
        (param :: params, isVariadic, s)

/-- No space stands beside `##`. -/
def stripPaste : List Tok → List Tok
  | [] => []
  | [t] => [t]
  | s :: t :: ts =>
    if s.isPunct "##" ∧ t.kind = .space then s :: stripPaste ts
    else if s.kind = .space ∧ t.isPunct "##" then stripPaste (t :: ts)
    else s :: stripPaste (t :: ts)

/-- `handle_define`; without a name nothing is defined. -/
def handleDefine (line : Text) : List Macro :=
  let s := skipWs line
  let name := s.takeWhile isIdentChar
  let s := s.dropWhile isIdentChar
  if name = [] then macros
  else
    let isFunc : Bool := s.head? = some '('
    let (params, isVariadic, s) := if isFunc then parseParams s.length (skipWs s.tail) else ([], false, s)
    let s := skipWs (if isFunc ∧ s.head? = some ')' then s.tail else s)
    let body := stripPaste (ppTokenize s (s.reverse.dropWhile isBlank).length)
    macroDefine macros { name, isFunc, params, isVariadic, body }

end Skjegg.Cpp
