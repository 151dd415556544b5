import Backsweep.Syntax.Func

/-!
# Validity

Scoping, mutability and types of a whole function. Every violation is
reported, in program order.
-/

namespace Backsweep

inductive Violation where
  | undefinedVar (var : String)
  | redeclared (var : String)
  | immutableAssign (var : String)
  | typeMismatch (var : String) (expected found : Ty)
  | arity (what : String) (expected found : Nat)
  | invalidTape (tape : Tape)
  | returnMismatch (expected found : Nat)
deriving DecidableEq

def Violation.message : Violation → String
  | undefinedVar var => "use of undeclared variable '" ++ var ++ "'"
  | redeclared var => "variable '" ++ var ++ "' is declared twice"
  | immutableAssign var => "cannot assign twice to immutable variable '" ++ var ++ "'"
  | typeMismatch var expected found =>
    "'" ++ var ++ "' has type " ++ found.name ++ " but " ++ expected.name ++ " was expected"
  | arity what expected found =>
    "'" ++ what ++ "' expects " ++ toString expected ++ " arguments but " ++ toString found ++
      " were supplied"
  | invalidTape tape => "invalid use of tape '" ++ tape.text ++ "'"
  | returnMismatch expected found =>
    "function returns " ++ toString expected ++ " values but " ++ toString found ++
      " were supplied"

/-- The state of a check: what was declared so far, what is in scope, what the
innermost block declared, and the violations, latest first. -/
structure Checker where
  declared : List Var := []
  inScope : List Var := []
  frame : List Var := []
  violations : List Violation := []

namespace Checker

def report (c : Checker) (v : Violation) : Checker := { c with violations := v :: c.violations }

def require (c : Checker) (ok : Bool) (v : Violation) : Checker := if ok then c else c.report v

def declare (c : Checker) (f : Func) (v : Var) : Checker :=
  let c := c.require (!c.declared.contains v) (.redeclared (f.varName v))
  { c with
    declared := v :: c.declared
    inScope := v :: c.inScope
    frame := v :: c.frame }

def expectTy (c : Checker) (f : Func) (v : Var) (expected : Ty) : Checker :=
  c.require (f.varTy v == expected) (.typeMismatch (f.varName v) expected (f.varTy v))

def useVar (c : Checker) (f : Func) (v : Var) : Checker :=
  c.require (c.inScope.contains v) (.undefinedVar (f.varName v))

/-- A use at a given type. -/
def useAt (c : Checker) (f : Func) (v : Var) (expected : Ty) : Checker :=
  (c.useVar f v).expectTy f v expected

def useAll (c : Checker) (f : Func) (vs : List Var) : Checker := vs.foldl (·.useVar f ·) c

/-- Uses at the types beside them, as far as both lists go. -/
def useAllAt (c : Checker) (f : Func) (vs : List Var) (tys : List Ty) : Checker :=
  (vs.zip tys).foldl (fun c (v, ty) => c.useAt f v ty) c

/-- Runs `check` in a block of its own: what it declares goes out of scope. -/
def inBlock (c : Checker) (check : Checker → Checker) : Checker :=
  let inner := check { c with frame := [] }
  { inner with
    inScope := inner.inScope.filter (!inner.frame.contains ·)
    frame := c.frame }

/-- Checks the definition of `dst` by an expression, before `dst` is declared. -/
def expr (c : Checker) (f : Func) (dst : Var) : Expr → Checker
  | .const k => c.expectTy f dst k.ty
  | .copy src => c.useAt f src (f.varTy dst)
  | .load obj _ => c.useAt f obj .obj
  | .op opcode args =>
    let c := c.require (args.length == opcode.arity) (.arity opcode.name opcode.arity args.length)
    (c.useAllAt f args opcode.params).expectTy f dst opcode.result
  | .call _ args _ => c.useAll f args
  | .pop tape => c.expectTy f dst (if tape.kind == .decisions then .int else .real)
  | .topIs tape _ =>
    (c.require (tape.kind == .decisions) (.invalidTape tape)).expectTy f dst .bool

mutual

def stmt (f : Func) : Stmt → Checker → Checker
  | .define dst decl e, c =>
    let c := c.expr f dst e
    if decl then c.declare f dst
    else (c.useVar f dst).require (f.info dst).mutable (.immutableAssign (f.varName dst))
  | .store obj _ val, c => (c.useAt f obj .obj).useVar f val
  | .cond guarded other, c => (arms f guarded c).inBlock (stmts f other)
  | .loop header test body, c =>
    c.inBlock fun c => ((stmts f header c).useAt f test .bool).inBlock (stmts f body)
  | .doLoop body test, c => c.inBlock fun c => (stmts f body c).useAt f test .bool
  | .block body, c => c.inBlock (stmts f body)
  | .push tape val, c =>
    (c.require (tape.kind != .decisions) (.invalidTape tape)).useAt f val .real
  | .pushDecision tape _, c => c.require (tape.kind == .decisions) (.invalidTape tape)
  | .unreachable, c => c
  | .ret vals, c =>
    let c := c.require (vals.length == f.returns.length)
      (.returnMismatch f.returns.length vals.length)
    c.useAllAt f vals f.returns

def stmts (f : Func) : List Stmt → Checker → Checker
  | [], c => c
  | s :: ss, c => stmts f ss (stmt f s c)

def arms (f : Func) : List (Var × List Stmt) → Checker → Checker
  | [], c => c
  | (test, body) :: rest, c => arms f rest ((c.useAt f test .bool).inBlock (stmts f body))

end

end Checker

/-- All violations, in program order. -/
def Func.violations (f : Func) : List Violation :=
  let c : Checker := f.params.foldl (·.declare f ·) {}
  (c.inBlock (Checker.stmts f f.body)).violations.reverse

def Func.isValid (f : Func) : Bool := f.violations.isEmpty

end Backsweep
