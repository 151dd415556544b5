import Backsweep.Syntax.Opcode

/-!
# Functions

Functions in three-address form: every operand is a variable, every
conditional has an `else`, and control flow is structured. A variable is its
entry in the function's table, so two variables may share a name.
-/

namespace Backsweep

/-- An entry of a function's variable table. -/
structure Var where
  idx : Nat
deriving DecidableEq

/-- What a tape records: primal values, branch and loop decisions, or the
adjoints of values that went through a value tape. -/
inductive TapeKind where
  | values
  | decisions
  | adjoints
deriving DecidableEq

namespace TapeKind

def name : TapeKind → String
  | values => "values"
  | decisions => "decisions"
  | adjoints => "adjoints"

def all : List TapeKind := [values, decisions, adjoints]

def ofName? (s : String) : Option TapeKind := all.find? (·.name == s)

/-- Position in the order in which tapes are reported. -/
def rank : TapeKind → Nat
  | values => 0
  | decisions => 1
  | adjoints => 2

end TapeKind

/-- A stack that lives as long as one call. Its level says which derivative
it belongs to. -/
structure Tape where
  kind : TapeKind
  level : Nat
deriving DecidableEq

namespace Tape

def text (t : Tape) : String := t.kind.name ++ toString t.level

/-- By kind, then by level. -/
def le (a b : Tape) : Bool :=
  a.kind.rank < b.kind.rank || (a.kind == b.kind && a.level ≤ b.level)

end Tape

/-- A constant. Integers are in the 32-bit range wherever they are read. -/
inductive Const where
  | real (x : Float)
  | int (n : Int)
  | bool (b : Bool)
deriving BEq

def Const.ty : Const → Ty
  | real _ => .real
  | int _ => .int
  | bool _ => .bool

inductive Expr where
  | const (c : Const)
  | copy (src : Var)
  | load (obj : Var) (field : String)
  | op (opcode : Opcode) (args : List Var)
  /-- A call of an operation outside of the function, optionally linked to the
  node that differentiates it. -/
  | call (callee : String) (args : List Var) (node : Option String)
  | pop (tape : Tape)
  /-- Whether the tape is not empty and its top is the given decision. -/
  | topIs (tape : Tape) (decision : Int)
deriving BEq

namespace Expr

/-- The variables an expression reads, in order. -/
def uses : Expr → List Var
  | copy v => [v]
  | load v _ => [v]
  | op _ args => args
  | call _ args _ => args
  | const _ | pop _ | topIs _ _ => []

/-- The expression with every variable it reads replaced. -/
def mapVars (f : Var → Var) : Expr → Expr
  | copy v => copy (f v)
  | load v field => load (f v) field
  | op opcode args => op opcode (args.map f)
  | call callee args node => call callee (args.map f) node
  | const c => const c
  | pop t => pop t
  | topIs t d => topIs t d

/-- The tape an expression names. -/
def tape? : Expr → Option Tape
  | pop t | topIs t _ => some t
  | const _ | copy _ | load _ _ | op _ _ | call _ _ _ => none

end Expr

inductive Stmt where
  /-- `let dst = expr` if `decl`, otherwise `dst = expr`. -/
  | define (dst : Var) (decl : Bool) (expr : Expr)
  | store (obj : Var) (field : String) (val : Var)
  /-- Guarded blocks tried in order, then the `else` block. -/
  | cond (arms : List (Var × List Stmt)) (other : List Stmt)
  /-- Runs `header`, then `body` as long as `test` holds. -/
  | loop (header : List Stmt) (test : Var) (body : List Stmt)
  /-- Runs `body` until `test` fails after it. -/
  | doLoop (body : List Stmt) (test : Var)
  | block (body : List Stmt)
  | push (tape : Tape) (val : Var)
  | pushDecision (tape : Tape) (decision : Int)
  | unreachable
  | ret (vals : List Var)
deriving BEq

abbrev Block := List Stmt

namespace Stmt

def isControlFlow : Stmt → Bool
  | cond _ _ | loop _ _ _ | doLoop _ _ | block _ => true
  | define _ _ _ | store _ _ _ | push _ _ | pushDecision _ _ | unreachable | ret _ => false

end Stmt

structure VarInfo where
  name : String
  ty : Ty
  mutable : Bool
deriving DecidableEq

instance : Inhabited VarInfo := ⟨⟨"", .real, false⟩⟩

/-- A mark `@name(args)` in front of a function. -/
structure Attr where
  name : String
  args : List String
deriving DecidableEq

structure Func where
  name : String
  attrs : List Attr
  params : List Var
  returns : List Ty
  vars : Array VarInfo
  body : Block
deriving BEq

namespace Func

def info (f : Func) (v : Var) : VarInfo := f.vars.getD v.idx default

def varName (f : Func) (v : Var) : String := (f.info v).name

def varTy (f : Func) (v : Var) : Ty := (f.info v).ty

def attr? (f : Func) (name : String) : Option Attr := f.attrs.find? (·.name == name)

/-- The first parameter of that name. -/
def param? (f : Func) (name : String) : Option Var := f.params.find? (f.varName · == name)

end Func

end Backsweep
