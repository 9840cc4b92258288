import Mathlib.Tactic

/-!
# Preprocessing tokens

The tokenizer of `tok.c`.  A text is the characters of a C string; a token list is a
`List`, so the functions that copy and free lists have no counterpart.
-/

namespace Skjegg.Cpp

abbrev Text := List Char

/-- `enum pp_tok`, without the two kinds that are never made. -/
inductive Kind
  | ident
  | number
  | string
  | char
  | punct
  | space
  | placemarker
  deriving DecidableEq, Repr

/-- `struct pp_token`; `len` is the length of `text`. -/
structure Tok where
  kind : Kind
  text : Text
  blue : Bool
  deriving DecidableEq, Repr

def newToken (kind : Kind) (text : Text) : Tok :=
  { kind, text, blue := false }

def isIdentStart (c : Char) : Bool := c.isAlpha || c == '_'

def isIdentChar (c : Char) : Bool := c.isAlphanum || c == '_'

/-- `is_punct2`: the pairs of characters that are one token. -/
def isPunct2 : Text → Bool
  | a :: b :: _ =>
    (a == '#' && b == '#') || (a == '<' && b == '<') || (a == '>' && b == '>') ||
    (a == '<' && b == '=') || (a == '>' && b == '=') || (a == '=' && b == '=') ||
    (a == '!' && b == '=') || (a == '&' && b == '&') || (a == '|' && b == '|') ||
    (a == '+' && b == '=') || (a == '-' && b == '=') || (a == '*' && b == '=') ||
    (a == '/' && b == '=') || (a == '%' && b == '=') || (a == '&' && b == '=') ||
    (a == '|' && b == '=') || (a == '^' && b == '=') || (a == '-' && b == '>')
  | _ => false

/-- The loop of `skip_string` behind the opening quote: how many characters it passes. -/
def skipString (quote : Char) : Text → Nat
  | [] => 0
  | [_] => 1
  | c :: d :: cs =>
    if c = quote then 1
    else if c = '\\' then 2 + skipString quote cs
    else 1 + skipString quote (d :: cs)

def numberRest (prev : Char) : Text → Nat
  | [] => 0
  | c :: cs =>
    if c.isAlphanum || c == '.' || c == '_' then 1 + numberRest c cs
    else if (c == '+' || c == '-') && (prev.toLower == 'e' || prev.toLower == 'p') then
      1 + numberRest c cs
    else 0

/-- The loop over a comment, `prev` being the character before. -/
def skipComment (prev : Char) : Text → Nat
  | [] => 0
  | c :: cs => if prev = '*' ∧ c = '/' then 1 else 1 + skipComment c cs

def isBlank (c : Char) : Bool := c == ' ' || c == '\t'

def skipWs (s : Text) : Text := s.dropWhile isBlank

def startsNumber : Text → Bool
  | c :: d :: _ => c.isDigit || (c == '.' && d.isDigit)
  | [c] => c.isDigit
  | [] => false

/-- `pp_tokenize` from a character on: `cs` is the text before `end`, `tail` what stands between
`end` and the NUL.  A token has a character, so as many turns as there are characters are enough. -/
def tokenizeFrom (tail : Text) : Nat → Text → List Tok
  | 0, _ | _, [] => []
  | fuel + 1, c :: cs =>
    if c = '\n' ∨ c = '\r' then []
    else if isBlank c then
      newToken .space (c :: cs.takeWhile isBlank) :: tokenizeFrom tail fuel (cs.dropWhile isBlank)
    else if isIdentStart c then
      newToken .ident (c :: cs.takeWhile isIdentChar) :: tokenizeFrom tail fuel (cs.dropWhile isIdentChar)
    else if startsNumber (c :: cs) then
      let n := numberRest c cs
      newToken .number (c :: cs.take n) :: tokenizeFrom tail fuel (cs.drop n)
    else if c = '"' ∨ c = '\'' then
      let n := skipString c (cs ++ tail)
      newToken (if c = '"' then .string else .char) (c :: (cs ++ tail).take n) ::
        tokenizeFrom tail fuel (cs.drop n)
    else if c = '/' ∧ cs.head? = some '/' then []
    else if c = '/' ∧ cs.head? = some '*' then
      newToken .space [' '] :: tokenizeFrom tail fuel (cs.drop (1 + skipComment '*' cs.tail))
    else if isPunct2 (c :: cs ++ tail) then
      newToken .punct ((c :: cs ++ tail).take 2) :: tokenizeFrom tail fuel (cs.drop 1)
    else newToken .punct [c] :: tokenizeFrom tail fuel cs

def ppTokenize (line : Text) (len : Nat) : List Tok := tokenizeFrom (line.drop len) len (line.take len)

end Skjegg.Cpp
