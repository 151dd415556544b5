import Mathlib
import Backsweep.Syntax.Printer
import Backsweep.Syntax.Reader

/-!
# The grammar of functions

What a function can be if it was read: every variable has a name that means it where it
stands. The rules follow the scopes of the language, not the order in which tokens are
looked at.

* `Token.IsLexed`: what a token can be if it was scanned;
* `Env`: the variables and scopes in front of a statement;
* `StmtRule`, `BlockRule`, `ArmsRule`: what statements can be there;
* `Func.Rule`: what functions can be;
* `Func.tokens`: a function as tokens;
* `Func.canonical`: a function with one NaN.
-/

namespace Backsweep

/-! ## Words -/

/-- The text is one word, and neither a tape nor a number. -/
def isWord (s : String) : Bool :=
  match s.toList with
  | [] => false
  | c :: cs => Token.isWordStart c && cs.all Token.isWordChar && Token.ofWord (c :: cs) == .word s

/-- The text can follow a sigil. -/
def isSigiled (isNameChar : Char → Bool) (s : String) : Bool :=
  !s.toList.isEmpty && s.toList.all isNameChar

def isNameChar (c : Char) : Bool := Token.isWordChar c || c == '.'

/-- What a token can be if it was scanned. -/
def Token.IsLexed : Token → Prop
  | .word s => isWord s = true
  | .name s => isSigiled isNameChar s = true
  | .attr s => isSigiled Token.isWordChar s = true
  | .tape t => t.level ≤ Token.maxIndex
  | _ => True

/-- An integer of 32 bits. -/
def IsInt32 (n : Int) : Prop := -2 ^ 31 ≤ n ∧ n < 2 ^ 31

/-! ## Variables and scopes -/

/-- The variables declared so far, and the open scopes. -/
structure Env where
  vars : Array VarInfo
  scopes : List Reader.Scope

namespace Env

def varName (E : Env) (v : Var) : String := (E.vars.getD v.idx default).name

/-- The innermost variable of that name. -/
def find? (E : Env) (name : String) : Option Var := E.scopes.findSome? (Reader.findIn name)

/-- The variable is what its name means. -/
structure Means (E : Env) (v : Var) : Prop where
  lt : v.idx < E.vars.size
  word : isWord (E.varName v) = true
  free : isKeyword (E.varName v) = false
  found : E.find? (E.varName v) = some v

def enter (E : Env) : Env := { E with scopes := [] :: E.scopes }

def leave (E : Env) : Env := { E with scopes := E.scopes.tail }

def declare (E : Env) (info : VarInfo) : Env where
  vars := E.vars.push info
  scopes := ((info.name, ⟨E.vars.size⟩) :: E.scopes.headD []) :: E.scopes.tail

/-- The name can be given to a variable of the innermost scope. -/
structure Free (E : Env) (name : String) : Prop where
  word : isWord name = true
  free : isKeyword name = false
  new : Reader.findIn name (E.scopes.headD []) = none

end Env

/-! ## Rules -/

/-- What an expression can be. -/
def ExprRule (E : Env) : Expr → Prop
  | .const (.int n) => IsInt32 n
  | .const (.real _) | .const (.bool _) => True
  | .copy v => E.Means v
  | .load v field => E.Means v ∧ isWord field = true
  | .op opcode args => args.length = opcode.arity ∧ ∀ v ∈ args, E.Means v
  | .call callee args node => isSigiled isNameChar callee = true ∧ (∀ v ∈ args, E.Means v) ∧
      ∀ s ∈ node, isWord s = true
  | .pop t => t.level ≤ Token.maxIndex
  | .topIs t d => t.level ≤ Token.maxIndex ∧ IsInt32 d

mutual

/-- What a statement can be, and what is declared behind it. -/
inductive StmtRule : Env → Stmt → Env → Prop
  | assign {E : Env} {v : Var} {e : Expr} (hv : E.Means v) (he : ExprRule E e) :
      StmtRule E (.define v false e) E
  | declare {E : Env} {info : VarInfo} {e : Expr} (he : ExprRule E e) (hfree : E.Free info.name) :
      StmtRule E (.define ⟨E.vars.size⟩ true e) (E.declare info)
  | store {E : Env} {obj val : Var} {field : String} (hobj : E.Means obj) (hval : E.Means val)
      (hfield : isWord field = true) : StmtRule E (.store obj field val) E
  | cond {E E' : Env} {arms : List (Var × Block)} {other : Block}
      (harms : ArmsRule E arms other E') : StmtRule E (.cond arms other) E'
  | loop {E E₁ E₂ : Env} {header body : Block} {test : Var}
      (hheader : BlockRule E.enter header E₁) (htest : E₁.Means test)
      (hbody : BlockRule E₁.enter body E₂) : StmtRule E (.loop header test body) E₂.leave.leave
  | doLoop {E E₁ : Env} {body : Block} {test : Var} (hbody : BlockRule E.enter body E₁)
      (htest : E₁.Means test) : StmtRule E (.doLoop body test) E₁.leave
  | block {E E₁ : Env} {body : Block} (hbody : BlockRule E.enter body E₁) :
      StmtRule E (.block body) E₁.leave
  | push {E : Env} {t : Tape} {val : Var} (ht : t.level ≤ Token.maxIndex) (hval : E.Means val) :
      StmtRule E (.push t val) E
  | pushDecision {E : Env} {t : Tape} {d : Int} (ht : t.level ≤ Token.maxIndex) (hd : IsInt32 d) :
      StmtRule E (.pushDecision t d) E
  | unreachable {E : Env} : StmtRule E .unreachable E
  | ret {E : Env} {vals : List Var} (hvals : ∀ v ∈ vals, E.Means v) : StmtRule E (.ret vals) E

/-- What a block can be. Nothing follows a return without values. -/
inductive BlockRule : Env → Block → Env → Prop
  | nil {E : Env} : BlockRule E [] E
  | cons {E E₁ E₂ : Env} {s : Stmt} {ss : Block} (hs : StmtRule E s E₁)
      (hlast : s = .ret [] → ss = []) (hss : BlockRule E₁ ss E₂) : BlockRule E (s :: ss) E₂

/-- What the arms of a conditional can be. There is at least one. -/
inductive ArmsRule : Env → List (Var × Block) → Block → Env → Prop
  | last {E E₁ E₂ : Env} {test : Var} {body other : Block} (htest : E.Means test)
      (hbody : BlockRule E.enter body E₁) (hother : BlockRule E₁.leave.enter other E₂) :
      ArmsRule E [(test, body)] other E₂.leave
  | cons {E E₁ E₂ : Env} {test : Var} {body other : Block} {arms : List (Var × Block)}
      (htest : E.Means test) (hbody : BlockRule E.enter body E₁)
      (harms : ArmsRule E₁.leave arms other E₂) : ArmsRule E ((test, body) :: arms) other E₂

end

/-- The parts of a path. -/
def pathWords (s : String) : List String := (s.toList.splitOn '.').map String.ofList

structure Attr.Rule (a : Attr) : Prop where
  name : isSigiled Token.isWordChar a.name = true
  args : ∀ s ∈ a.args, ∀ w ∈ pathWords s, isWord w = true

/-- The parameters are declared one after the other. -/
inductive ParamsRule : Env → List Var → Env → Prop
  | nil {E : Env} : ParamsRule E [] E
  | cons {E E' : Env} {name : String} {t : Ty} {vs : List Var} (hfree : E.Free name)
      (hvs : ParamsRule (E.declare ⟨name, t, false⟩) vs E') :
      ParamsRule E (⟨E.vars.size⟩ :: vs) E'

/-- What a function can be. -/
structure Func.Rule (f : Func) : Prop where
  name : isSigiled isNameChar f.name = true
  attrs : ∀ a ∈ f.attrs, a.Rule
  body : ∃ E E', ParamsRule ⟨#[], [[]]⟩ f.params E ∧ BlockRule E.enter f.body E' ∧ E'.vars = f.vars

/-! ## Tokens of functions -/

/-- Items with commas between them. -/
def commas : List (List Token) → List Token
  | [] => []
  | [item] => item
  | item :: items => item ++ .comma :: commas items

namespace Func

def argTokens (f : Func) (args : List Var) : List Token :=
  commas (args.map fun v => [.word (f.varName v)])

def linkTokens : Option String → List Token
  | some s => [.lbracket, .word "node", .word s, .rbracket]
  | none => []

def exprTokens (f : Func) : Expr → List Token
  | .const (.real x) => [.word "fconst", .float (Real64.literal x)]
  | .const (.int n) => [.word "iconst", .integer (toString n)]
  | .const (.bool b) => [.word "bconst", .word (toString b)]
  | .copy v => [.word "copy", .word (f.varName v)]
  | .load v field => [.word "load", .word (f.varName v), .dot, .word field]
  | .op opcode args => .word opcode.name :: f.argTokens args
  | .call callee args node =>
    [.word "call", .name callee, .lpar] ++ f.argTokens args ++ [.rpar] ++ linkTokens node
  | .pop t => [.word "pop", .tape t]
  | .topIs t d => [.word "top_is", .tape t, .comma, .integer (toString d)]

def dstTokens (f : Func) (dst : Var) (decl : Bool) : List Token :=
  if decl then
    [.word "let"] ++ (if (f.info dst).mutable then [.word "mut"] else []) ++
      [.word (f.varName dst), .colon, .word (f.varTy dst).name]
  else [.word (f.varName dst)]

/-- Tokens in braces. -/
def bracedTokens (ts : List Token) : List Token := .lbrace :: ts ++ [.rbrace]

mutual

def stmtTokens (f : Func) : Stmt → List Token
  | .define dst decl e => f.dstTokens dst decl ++ [.equal] ++ f.exprTokens e
  | .store obj field val =>
    [.word "store", .word (f.varName obj), .dot, .word field, .comma, .word (f.varName val)]
  | .cond arms other => f.armsTokens arms ++ [.word "else"] ++ bracedTokens (f.blockTokens other)
  | .loop header test body =>
    [.word "while"] ++ bracedTokens (f.blockTokens header) ++ [.arrow, .word (f.varName test)] ++
      bracedTokens (f.blockTokens body)
  | .doLoop body test =>
    [.word "do"] ++ bracedTokens (f.blockTokens body) ++ [.word "while", .word (f.varName test)]
  | .block body => bracedTokens (f.blockTokens body)
  | .push t val => [.word "push", .tape t, .comma, .word (f.varName val)]
  | .pushDecision t d => [.word "push", .tape t, .comma, .integer (toString d)]
  | .unreachable => [.word "unreachable"]
  | .ret vals => .word "return" :: f.argTokens vals

def blockTokens (f : Func) : List Stmt → List Token
  | [] => []
  | s :: ss => f.stmtTokens s ++ f.blockTokens ss

/-- The arms of a conditional, with `else` between them. -/
def armsTokens (f : Func) : List (Var × List Stmt) → List Token
  | [] => []
  | (test, body) :: arms =>
    [.word "if", .word (f.varName test)] ++ bracedTokens (f.blockTokens body) ++
      (if arms.isEmpty then [] else [.word "else"]) ++ f.armsTokens arms

end

/-- Words with points between them. -/
def pathTokens : List String → List Token
  | [] => []
  | [s] => [.word s]
  | s :: ss => [.word s, .dot] ++ pathTokens ss

def attrTokens (a : Attr) : List Token :=
  .attr a.name :: (if a.args.isEmpty then [] else
    .lpar :: commas (a.args.map fun s => pathTokens (pathWords s)) ++ [.rpar])

def returnTokens : List Ty → List Token
  | [] => []
  | tys => .arrow :: commas (tys.map fun t => [.word t.name])

def paramTokens (f : Func) (v : Var) : List Token :=
  [.word (f.varName v), .colon, .word (f.varTy v).name]

/-- The tokens of a function behind its attributes. -/
def coreTokens (f : Func) : List Token :=
  [.word "function", .name f.name, .lpar] ++
    commas (f.params.map f.paramTokens) ++
    [.rpar] ++ returnTokens f.returns ++ bracedTokens (f.blockTokens f.body)

def tokens (f : Func) : List Token := f.attrs.flatMap attrTokens ++ f.coreTokens

end Func

/-! ## One NaN -/

/-- The real, with one NaN for all of them. -/
def Real64.canonical (x : Float) : Float := if x.isNaN then 0.0 / 0.0 else x

def Expr.canonical : Expr → Expr
  | .const (.real x) => .const (.real (Real64.canonical x))
  | e => e

mutual

/-- The statement with one NaN for all of them. -/
def Stmt.canonical : Stmt → Stmt
  | .define dst decl e => .define dst decl e.canonical
  | .cond arms other => .cond (canonicalArms arms) (canonicalBlock other)
  | .loop header test body => .loop (canonicalBlock header) test (canonicalBlock body)
  | .doLoop body test => .doLoop (canonicalBlock body) test
  | .block body => .block (canonicalBlock body)
  | .store obj field val => .store obj field val
  | .push t val => .push t val
  | .pushDecision t d => .pushDecision t d
  | .unreachable => .unreachable
  | .ret vals => .ret vals

def canonicalBlock : List Stmt → List Stmt
  | [] => []
  | s :: ss => s.canonical :: canonicalBlock ss

def canonicalArms : List (Var × List Stmt) → List (Var × List Stmt)
  | [] => []
  | (test, body) :: arms => (test, canonicalBlock body) :: canonicalArms arms

end

/-- The function with one NaN for all of them. -/
def Func.canonical (f : Func) : Func := { f with body := canonicalBlock f.body }

end Backsweep
