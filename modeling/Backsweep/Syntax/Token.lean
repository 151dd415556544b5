import Backsweep.Syntax.Func

/-!
# Tokens

Splitting text into tokens. Scanning never stops: a character that starts no
token yields an invalid lexeme, and scanning goes on behind it.
-/

namespace Backsweep

inductive Token where
  | lpar
  | rpar
  | lbrace
  | rbrace
  | lbracket
  | rbracket
  | comma
  | dot
  | colon
  | equal
  | arrow
  | float (text : String)
  | integer (text : String)
  | tape (t : Tape)
  /-- `%math.sin` without its sigil. -/
  | name (s : String)
  /-- `@optimize` without its sigil. -/
  | attr (s : String)
  /-- Keywords, operations and variables. -/
  | word (s : String)
deriving DecidableEq

/-- A token, or none for an invalid character, and the line it is on. -/
structure Lexeme where
  line : Nat
  token : Option Token

namespace Token

/-- Largest number that a tape level, or another index in the text, can have. -/
def maxIndex : Nat := 0xffffffff

def isWordStart (c : Char) : Bool := c == '_' || c.isAlpha

def isWordChar (c : Char) : Bool := c == '_' || c.isAlphanum

/-- Blanks other than the line end. -/
def isBlank (c : Char) : Bool := c == ' ' || (0x09 ≤ c.toNat && c.toNat ≤ 0x0d)

def natOf (ds : List Char) : Nat := ds.foldl (fun n c => 10 * n + (c.toNat - '0'.toNat)) 0

/-- A tape name: a kind and a level without leading zeros. -/
def tape? (cs : List Char) : Option Tape :=
  let level := (cs.reverse.takeWhile Char.isDigit).reverse
  let kind := (cs.reverse.dropWhile Char.isDigit).reverse
  if level.isEmpty || (1 < level.length && level.head? == some '0') || maxIndex < natOf level then none
  else (TapeKind.ofName? (String.ofList kind)).map (⟨·, natOf level⟩)

def ofWord (cs : List Char) : Token :=
  let s := String.ofList cs
  if s == "inf" || s == "NaN" then float s
  else match tape? cs with
    | some t => tape t
    | none => word s

/-- The characters of a number: digits, points and exponents, with a sign only
right behind an exponent mark. -/
def numberChars (afterMark : Bool) : List Char → List Char × List Char
  | [] => ([], [])
  | c :: cs =>
    if c.isDigit || c == '.' || c == 'e' || c == 'E' || (afterMark && (c == '-' || c == '+')) then
      let (taken, rest) := numberChars (c == 'e' || c == 'E') cs
      (c :: taken, rest)
    else ([], c :: cs)

def ofNumber (signs digits : List Char) : Token :=
  let s := String.ofList (signs ++ digits)
  if digits.any (fun c => c == '.' || c == 'e' || c == 'E') then float s else integer s

def scanNumber (signs cs : List Char) : Option Token × List Char :=
  let (digits, rest) := numberChars false cs
  (some (ofNumber signs digits), rest)

/-- What follows a sign: an infinity, NaN or a number. -/
def scanSigned (c : Char) : List Char → Option Token × List Char
  | 'i' :: 'n' :: 'f' :: cs => (some (float (String.ofList [c, 'i', 'n', 'f'])), cs)
  | 'N' :: 'a' :: 'N' :: cs => (some (float (String.ofList [c, 'N', 'a', 'N'])), cs)
  | d :: cs => if d.isDigit then scanNumber [c] (d :: cs) else (none, d :: cs)
  | [] => (none, [])

/-- What follows a sigil: at least one character of a name. -/
def scanSigil (token : String → Token) (isNameChar : Char → Bool) (cs : List Char) :
    Option Token × List Char :=
  let name := cs.takeWhile isNameChar
  (if name.isEmpty then none else some (token (String.ofList name)), cs.dropWhile isNameChar)

/-- The token that starts with `c`, none if `c` is invalid, and the rest. -/
def scan (c : Char) (cs : List Char) : Option Token × List Char :=
  match c with
  | '(' => (some lpar, cs)
  | ')' => (some rpar, cs)
  | '\x7b' => (some lbrace, cs)
  | '\x7d' => (some rbrace, cs)
  | '[' => (some lbracket, cs)
  | ']' => (some rbracket, cs)
  | ',' => (some comma, cs)
  | '.' => (some dot, cs)
  | ':' => (some colon, cs)
  | '=' => (some equal, cs)
  | '+' => scanSigned c cs
  | '-' =>
    match cs with
    | '>' :: cs => (some arrow, cs)
    | cs => scanSigned c cs
  | '%' => scanSigil name (fun c => isWordChar c || c == '.') cs
  | '@' => scanSigil attr isWordChar cs
  | c =>
    if c.isDigit then scanNumber [] (c :: cs)
    else if isWordStart c then
      (some (ofWord (c :: cs.takeWhile isWordChar)), cs.dropWhile isWordChar)
    else (none, cs)

/-- The lexemes of `cs`, which starts on line `line`, taking `fuel` steps. A
comment reaches from `;` to the end of its line. -/
def lexFrom : Nat → Nat → List Char → List Lexeme
  | 0, _, _ => []
  | _ + 1, _, [] => []
  | fuel + 1, line, c :: cs =>
    if c == '\n' then lexFrom fuel (line + 1) cs
    else if isBlank c then lexFrom fuel line cs
    else if c == ';' then lexFrom fuel line (cs.dropWhile (· != '\n'))
    else
      let (token, rest) := scan c cs
      ⟨line, token⟩ :: lexFrom fuel line rest

/-- The lexemes of a text. Every step takes a character, so its length is
enough fuel. -/
def lex (text : String) : List Lexeme := lexFrom text.toList.length 1 text.toList

end Token

end Backsweep
