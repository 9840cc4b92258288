import Skjegg.Cpp.Directive
import Skjegg.Cpp.Macro

/-!
# Source lines

The files of `dir.c` and the lines read from them, and the preprocessor that the loops of `cpp_next_line`
run over.  How a condition is evaluated and where an included file is found is left open.
-/

namespace Skjegg.Cpp

/-- `struct cpp_file`, with the text from `pos` on. -/
structure CppFile where
  path : Text
  line : Int := 1
  pos : Text
  deriving DecidableEq, Repr

/-- The macros, the files and the comment flag of `struct cpp`; the innermost file comes first. -/
structure Source where
  macros : List Macro
  files : List CppFile
  inComment : Bool := false
  deriving DecidableEq, Repr

/-! ## Lines -/

/-- The loop of `read_logical_line`: the line so far backwards, and the newlines passed. -/
def readLogicalLine : Text → Nat → Text → Text × Nat × Text
  | buf, n, [] => (buf.reverse, n, [])
  | buf, n, c :: s =>
    if c = '\n' then
      match buf with
      | '\\' :: buf => readLogicalLine buf (n + 1) s
      | _ => (buf.reverse, n + 1, s)
    else if buf.length < 8190 then readLogicalLine (c :: buf) n s
    else (buf.reverse, n, c :: s)

def afterClose : Text → Option Text
  | '*' :: '/' :: s => some s
  | _ :: s => afterClose s
  | [] => none

/-- A line outside comments, and whether it ends in one. -/
def stripFrom : Nat → Text → Text × Bool
  | 0, _ | _, [] => ([], false)
  | fuel + 1, c :: cs =>
    if c = '"' ∨ c = '\'' then
      let n := skipString c cs
      let (s, inComment) := stripFrom fuel (cs.drop n)
      (c :: cs.take n ++ s, inComment)
    else if c = '/' ∧ cs.head? = some '/' then ([], false)
    else if c = '/' ∧ cs.head? = some '*' then
      match afterClose cs.tail with
      | some rest =>
        let (s, inComment) := stripFrom fuel rest
        (' ' :: s, inComment)
      | none => ([], true)
    else
      let (s, inComment) := stripFrom fuel cs
      (c :: s, inComment)

def stripBlockComments (inComment : Bool) (s : Text) : Text × Bool :=
  if !inComment then stripFrom s.length s
  else
    match afterClose s with
    | none => ([], true)
    | some rest =>
      let (s, inComment) := stripFrom rest.length rest
      (' ' :: s, inComment)

variable (p : Source)

def Source.read : Option (Text × Source) :=
  match p.files with
  | [] => none
  | f :: up =>
    if f.pos = [] then none
    else
      let (line, n, pos) := readLogicalLine [] 0 f.pos
      let (line, inComment) := stripBlockComments p.inComment line
      some (line, { p with files := { f with line := f.line + n, pos := pos } :: up, inComment := inComment })

def Source.filePop : Option Source :=
  match p.files with
  | _ :: f :: up => some { p with files := f :: up }
  | _ => none

/-! ## Directives -/

/-- `handle_line_directive`; the number is a `long` cut to an `int`. -/
def handleLineDirective (line : Text) : Source :=
  match p.files with
  | [] => p
  | f :: up =>
    let (sign, s) : Int × Text := match (skipWs line).dropWhile Char.isWhitespace with
      | '-' :: s => (-1, s)
      | '+' :: s => (1, s)
      | s => (1, s)
    let digits := s.takeWhile Char.isDigit
    if digits = [] then p
    else
      let num := sign * (digits.foldl (fun v c => v * 10 + (c.toNat - 48)) 0 : Nat)
      let s := skipWs (s.dropWhile Char.isDigit)
      let path := if s.head? = some '"' then s.tail.takeWhile (· ≠ '"') else f.path
      { p with
        files := { f with path := path, line := (max (-2 ^ 63) (min (2 ^ 63 - 1) num)).bmod (2 ^ 32) } :: up }

structure Env where
  condEval : Source → Text → Int
  handleInclude : Source → Text → Source × Nat
  (date time : Text)

variable (env : Env)

def Env.builtinTok : Builtin → Tok
  | .line => newToken .number (toString ((p.files.head?.map CppFile.line).getD 0)).toList
  | .file => newToken .string ('"' :: (p.files.head?.map CppFile.path).getD [] ++ ['"'])
  | .date => newToken .string env.date
  | .time => newToken .string env.time
  | .stdc => newToken .number "1".toList
  | .stdcVersion => newToken .number "199901L".toList

def Env.obey (name args : Text) : Source × Nat :=
  if name = "define".toList then ({ p with macros := handleDefine p.macros args }, 0)
  else if name = "undef".toList then
    ({ p with macros := macroUndef p.macros ((skipWs args).takeWhile isIdentChar) }, 0)
  else if name = "include".toList then env.handleInclude p args
  else if name = "line".toList then (handleLineDirective p args, 0)
  else (p, 0)

/-- The preprocessor; `fuel` bounds an expansion. -/
def Env.host (fuel : Nat) : Host Source where
  read := Source.read
  filePop := Source.filePop
  defined p name := (macroLookup p.macros name).isSome
  condEval := env.condEval
  obey := fun p => env.obey p
  needMore p line :=
    ((macroExpand p.macros (env.builtinTok p) fuel [] (ppTokenize line line.length)).run false).2

def builtinMacros : List Macro :=
  [("__STDC_VERSION__", Builtin.stdcVersion), ("__STDC__", .stdc), ("__TIME__", .time), ("__DATE__", .date),
    ("__LINE__", .line), ("__FILE__", .file)].map fun m => { name := m.1.toList, builtin := some m.2 }

/-- `cpp_new` and `cpp_open` of a file. -/
def cppOpen (path text : String) : Source where
  macros := builtinMacros
  files := [{ path := path.toList, pos := text.toList }]

/-- A call over two lines inside a group. -/
def callOverLines : Source := cppOpen "a.c" "#define f(x) x\n#ifdef f\nf(\n1)\n#else\nint y;\n#endif\n"

/-- No file is found and no condition holds. -/
def bareEnv : Env := ⟨fun _ _ => 0, fun p _ => (p, 1), [], []⟩

end Skjegg.Cpp
