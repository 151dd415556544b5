import Backsweep.Decimal.Notation
import Backsweep.Syntax.Names
import Backsweep.Syntax.Token

/-!
# Reading functions

The reader looks one token ahead. An invalid character reads as no token at
all; reading goes on behind it, and the next complaint mentions it.
-/

namespace Backsweep

/-- What is wrong with a text. -/
inductive Fault where
  /-- Another token was expected; `invalid` if an invalid character was met. -/
  | expected (what : String) (invalid : Bool)
  | invalidChar
  | trailing (func : String)
  | unknownType (name : String)
  | unknownOpcode (name : String)
  | keyword (name : String)
  | redeclared (name : String)
  | undefined (name : String)
  | intRange
  | floatSyntax
deriving DecidableEq

def Fault.message : Fault → String
  | expected what invalid => (if invalid then "invalid character: " else "") ++ "expected " ++ what
  | invalidChar => "invalid character"
  | trailing func => "expected end of input after function %" ++ func
  | unknownType name => "unknown type '" ++ name ++ "'"
  | unknownOpcode name => "unknown opcode '" ++ name ++ "'"
  | keyword name => "'" ++ name ++ "' is a keyword and can not be used as a variable name"
  | redeclared name => "variable '" ++ name ++ "' is declared twice in the same block"
  | undefined name => "undefined variable '" ++ name ++ "'"
  | intRange => "integer immediate out of range"
  | floatSyntax => "invalid floating point immediate"

structure ReadError where
  line : Nat
  fault : Fault
deriving DecidableEq

/-- The message with its line. Line 0 means that no token was read. -/
def ReadError.message (e : ReadError) : String :=
  (if e.line == 0 then "command-line arguments" else toString e.line) ++ ": " ++ e.fault.message

namespace Reader

/-- A scope: the variables declared in it by name. -/
abbrev Scope := List (String × Var)

structure Cursor where
  rest : List Lexeme
  /-- The line of the last lexeme looked at. -/
  line : Nat := 0
  /-- An invalid character was met. -/
  invalid : Bool := false
  vars : Array VarInfo := #[]
  /-- The open scopes, innermost first. -/
  scopes : List Scope := []

abbrev Read := StateT Cursor (Except ReadError)

def fail {α : Type} (line : Nat) (fault : Fault) : Read α := throw ⟨line, fault⟩

/-- Fails at the current line. -/
def failHere {α : Type} (fault : Fault) : Read α := do fail (← get).line fault

def unexpected {α : Type} (what : String) : Read α := do failHere (.expected what (← get).invalid)

/-- The next token. Passes over one invalid character, which is not a token. -/
def peek : Read (Option Token) := do
  let c ← get
  match c.rest with
  | [] => return none
  | ⟨line, none⟩ :: rest =>
    set { c with rest, line, invalid := true }
    return none
  | ⟨line, some t⟩ :: _ =>
    set { c with line }
    return some t

def advance : Read Unit := modify fun c => { c with rest := c.rest.tail }

/-- Takes the next token if it is `t`. -/
def accept (t : Token) : Read Bool := do
  if (← peek) == some t then
    advance
    return true
  return false

def expect (t : Token) (what : String) : Read Unit := do
  unless ← accept t do unexpected what

def word (what : String) : Read String := do
  match ← peek with
  | some (.word s) => advance; return s
  | _ => unexpected what

def name (what : String) : Read String := do
  match ← peek with
  | some (.name s) => advance; return s
  | _ => unexpected what

def tape (what : String) : Read Tape := do
  match ← peek with
  | some (.tape t) => advance; return t
  | _ => unexpected what

/-- The value of an integer token, if it fits into 32 bits. -/
def int32? (s : String) : Option Int :=
  let (negative, ds) := Decimal.sign s.toList
  let n : Int := Token.natOf ds
  let n := if negative then -n else n
  if -0x80000000 ≤ n && n < 0x80000000 then some n else none

def int (what : String) : Read Int := do
  match ← peek with
  | some (.integer s) =>
    advance
    match int32? s with
    | some n => return n
    | none => failHere .intRange
  | _ => unexpected what

def realOfText (s : String) : Read Float := do
  advance
  match Decimal.read? s with
  | some x => return x
  | none => failHere .floatSyntax

def real (what : String) : Read Float := do
  match ← peek with
  | some (.float s) => realOfText s
  | some (.integer s) => realOfText s
  | _ => unexpected what

def ty : Read Ty := do
  let s ← word "type"
  match Ty.ofName? s with
  | some t => return t
  | none => failHere (.unknownType s)

/-- More lexemes than the rest has. -/
def fuel : Read Nat := return (← get).rest.length + 1

/-- `item, item, … close` with at least one item. -/
def separated {α : Type} (item : Read α) (close : Token) (what : String) : Nat → Read (List α)
  | 0 => unexpected what
  | n + 1 => do
    let x ← item
    if ← accept close then return [x]
    expect .comma what
    return x :: (← separated item close what n)

/-- `item, item, …` with at least one item. -/
def commaSeparated {α : Type} (item : Read α) : Nat → Read (List α)
  | 0 => return []
  | n + 1 => do
    let x ← item
    if ← accept .comma then return x :: (← commaSeparated item n)
    return [x]

/-! ## Scopes -/

def openScope : Read Unit := modify fun c => { c with scopes := [] :: c.scopes }

def closeScope : Read Unit := modify fun c => { c with scopes := c.scopes.tail }

def findIn (name : String) (scope : Scope) : Option Var := (scope.find? (·.1 == name)).map (·.2)

/-- The innermost variable of that name. -/
def lookup (name : String) : Read Var := do
  match (← get).scopes.findSome? (findIn name) with
  | some v => return v
  | none => failHere (.undefined name)

def var (what : String) : Read Var := do lookup (← word what)

/-- Adds a variable to the innermost scope. -/
def declare (name : String) (ty : Ty) (mutable : Bool) (line : Nat) : Read Var := do
  if isKeyword name then fail line (.keyword name)
  let c ← get
  let scope := c.scopes.headD []
  if (findIn name scope).isSome then fail line (.redeclared name)
  let v : Var := ⟨c.vars.size⟩
  set { c with
    vars := c.vars.push ⟨name, ty, mutable⟩
    scopes := ((name, v) :: scope) :: c.scopes.tail }
  return v

/-! ## Expressions -/

def field : Read (Var × String) := do
  let obj ← var "record"
  expect .dot "'.'"
  return (obj, ← word "field name")

def link : Read (Option String) := do
  unless ← accept .lbracket do return none
  expect (.word "node") "'node'"
  let node ← word "node name"
  expect .rbracket "']'"
  return some node

def call : Read Expr := do
  let callee ← name "callee name"
  expect .lpar "'(' before arguments"
  let args ←
    if ← accept .rpar then pure []
    else separated (var "argument") .rpar "',' or ')' after argument" (← fuel)
  return .call callee args (← link)

/-- `n` operands separated by commas. -/
def operands : Nat → Read (List Var)
  | 0 => return []
  | 1 => return [← var "operand"]
  | n + 1 => do
    let v ← var "operand"
    expect .comma "',' between operands"
    return v :: (← operands n)

def bool : Read Bool := do
  match ← word "'true' or 'false'" with
  | "true" => return true
  | "false" => return false
  | _ => failHere (.expected "'true' or 'false'" false)

def expr : Read Expr := do
  match ← word "expression" with
  | "fconst" => return .const (.real (← real "float immediate"))
  | "iconst" => return .const (.int (← int "integer immediate"))
  | "bconst" => return .const (.bool (← bool))
  | "copy" => return .copy (← var "copied variable")
  | "load" => do
    let (obj, field) ← field
    return .load obj field
  | "call" => call
  | "pop" => return .pop (← tape "tape")
  | "top_is" => do
    let t ← tape "tape"
    expect .comma "','"
    return .topIs t (← int "decision")
  | s =>
    match Opcode.ofName? s with
    | some opcode => return .op opcode (← operands opcode.arity)
    | none => failHere (.unknownOpcode s)

/-! ## Statements

`stmts` reads the rest of a block. Every statement takes a token, so the
number of lexemes is enough fuel for the statements of all nested blocks. -/

/-- A block with a scope of its own, its statements read by `stmts`. -/
def block (stmts : Read Block) : Read Block := do
  expect .lbrace "'\x7b'"
  openScope
  let body ← stmts
  closeScope
  return body

/-- The arms of a conditional behind their `if`, and its `else` block. -/
def arms (stmts : Read Block) : Nat → Read (List (Var × Block) × Block)
  | 0 => unexpected "condition"
  | n + 1 => do
    let test ← var "condition"
    let body ← block stmts
    expect (.word "else") "'else', conditionals require an else branch"
    if ← accept (.word "if") then
      let (rest, other) ← arms stmts n
      return ((test, body) :: rest, other)
    return ([(test, body)], ← block stmts)

def letStmt : Read Stmt := do
  let mutable ← accept (.word "mut")
  let s ← word "variable name"
  let line := (← get).line
  expect .colon "':' after variable name"
  let t ← ty
  expect .equal "'='"
  let e ← expr
  return .define (← declare s t mutable line) true e

/-- A loop. The variables of its header are in scope in its body. -/
def whileStmt (stmts : Read Block) : Read Stmt := do
  expect .lbrace "'\x7b' after while"
  openScope
  let header ← stmts
  expect .arrow "'->' after loop header"
  let test ← var "loop condition"
  let body ← block stmts
  closeScope
  return .loop header test body

def doStmt (stmts : Read Block) : Read Stmt := do
  expect .lbrace "'\x7b' after do"
  openScope
  let body ← stmts
  expect (.word "while") "'while' after do block"
  let test ← var "loop condition"
  closeScope
  return .doLoop body test

def storeStmt : Read Stmt := do
  let (obj, field) ← field
  expect .comma "','"
  return .store obj field (← var "stored value")

def pushStmt : Read Stmt := do
  let t ← tape "tape"
  expect .comma "','"
  match ← peek with
  | some (.integer _) => return .pushDecision t (← int "decision")
  | _ => return .push t (← var "pushed value")

def returnStmt : Read Stmt := do
  if (← peek) == some .rbrace then return .ret []
  return .ret (← commaSeparated (var "return value") (← fuel))

def assignment (s : String) : Read Stmt := do
  let dst ← lookup s
  expect .equal "'=' in assignment"
  return .define dst false (← expr)

/-- A statement whose nested blocks are read by `stmts`. -/
def stmt (stmts : Read Block) (n : Nat) : Read Stmt := do
  match ← peek with
  | some .lbrace => return .block (← block stmts)
  | some (.word s) =>
    advance
    match s with
    | "let" => letStmt
    | "if" => do
      let (arms, other) ← arms stmts n
      return .cond arms other
    | "while" => whileStmt stmts
    | "do" => doStmt stmts
    | "store" => storeStmt
    | "push" => pushStmt
    | "unreachable" => return .unreachable
    | "return" => returnStmt
    | s => assignment s
  | _ => unexpected "statement"

/-- Statements up to the closing brace. -/
def stmts : Nat → Read Block
  | 0 => unexpected "statement"
  | n + 1 => do
    if ← accept .rbrace then return []
    if (← peek).isNone then unexpected "'\x7d' before end of input"
    let s ← stmt (stmts n) n
    return s :: (← stmts n)

/-! ## Functions -/

/-- The rest of a path behind its first word. -/
def pathTail : Nat → Read String
  | 0 => return ""
  | n + 1 => do
    unless ← accept .dot do return ""
    let s ← word "field name after '.'"
    return "." ++ s ++ (← pathTail n)

def path : Read String := do
  let s ← word "attribute argument"
  return s ++ (← pathTail (← fuel))

def attrArgs : Read (List String) := do
  unless ← accept .lpar do return []
  if ← accept .rpar then return []
  separated path .rpar "',' or ')' in attribute" (← fuel)

def attrs : Nat → Read (List Attr)
  | 0 => return []
  | n + 1 => do
    match ← peek with
    | some (.attr s) =>
      advance
      let args ← attrArgs
      return ⟨s, args⟩ :: (← attrs n)
    | _ => return []

def param : Read Var := do
  let s ← word "parameter name"
  expect .colon "':' after parameter name"
  let t ← ty
  declare s t false (← get).line

def params : Read (List Var) := do
  expect .lpar "'(' before parameters"
  if ← accept .rpar then return []
  separated param .rpar "',' or ')' after parameter" (← fuel)

def returns : Read (List Ty) := do
  unless ← accept .arrow do return []
  commaSeparated ty (← fuel)

def func : Read Func := do
  let attrs ← attrs (← fuel)
  expect (.word "function") "'function'"
  let s ← name "function name"
  modify fun c => { c with vars := #[], scopes := [[]] }
  let params ← params
  let returns ← returns
  let body ← block (stmts (← fuel))
  return { name := s, attrs, params, returns, vars := (← get).vars, body }

def funcs : Nat → Read (List Func)
  | 0 => return []
  | n + 1 => do
    if (← peek).isNone then return []
    let f ← func
    return f :: (← funcs n)

def start (text : String) : Cursor := { rest := Token.lex text }

/-- A single function up to the end of the text. -/
def single : Read Func := do
  let f ← func
  if (← peek).isSome then failHere (.trailing f.name)
  return f

/-- Functions up to the end of the text, without any invalid character. -/
def all : Read (List Func) := do
  let fs ← funcs (← fuel)
  if (← get).invalid then failHere .invalidChar
  return fs

end Reader

/-- Reads a text that consists of one function. -/
def Func.read (text : String) : Except ReadError Func := Reader.single.run' (Reader.start text)

/-- Reads a text that consists of any number of functions. -/
def Func.readAll (text : String) : Except ReadError (List Func) :=
  Reader.all.run' (Reader.start text)

end Backsweep
