import Backsweep.Diff.Input

/-!
# Activity

Which variables and tapes can depend on the active input. The analysis
ignores order: a definition that reads something active makes its destination
active, and the body is visited until nothing changes. A variable may thus be
active before it depends on the input, which only costs an accumulator that
stays zero.
-/

namespace Backsweep

/-- Names of accumulators start like this. -/
def accumulatorStem : String := "__acc"

/-- What is known to be active. -/
structure Marks where
  vars : Array Bool
  tapes : List Tape := []
deriving DecidableEq

namespace Marks

def isActive (m : Marks) (v : Var) : Bool := m.vars.getD v.idx false

def isActiveTape (m : Marks) (t : Tape) : Bool := m.tapes.contains t

def mark (m : Marks) (v : Var) : Marks := { m with vars := m.vars.setIfInBounds v.idx true }

def markTape (m : Marks) (t : Tape) : Marks :=
  if m.isActiveTape t then m else { m with tapes := m.tapes ++ [t] }

/-- An active variable that carries a derivative. -/
def isActiveReal (m : Marks) (f : Func) (v : Var) : Bool := m.isActive v && f.varTy v == .real

/-- The active variables in table order. -/
def activeVars (m : Marks) : List Var :=
  ((List.range m.vars.size).map Var.mk).filter m.isActive

end Marks

/-- What an analysis is about. Without `withTapes` no tape may be used. -/
structure Analysis where
  func : Func
  input : ActiveInput
  withTapes : Bool

namespace Analysis

/-- Tapes have to be allowed, and decisions need a decision tape. -/
def checkTape (a : Analysis) (t : Tape) (ok : Bool) : Except DiffError Unit :=
  if a.withTapes && ok then .ok () else .error (.tapeNotAllowed t)

/-- Whether a constant starts an accumulator. -/
def startsAccumulator (info : VarInfo) (c : Const) : Bool :=
  info.mutable && info.ty == .real && accumulatorStem.toList.isPrefixOf info.name.toList &&
    c == .real 0.0

/-- Whether the value of an expression, assigned to `dst`, is active. -/
def expr (a : Analysis) (m : Marks) (dst : Var) : Expr → Except DiffError Bool
  | .const c => .ok (startsAccumulator (a.func.info dst) c)
  | .copy src => .ok (m.isActive src)
  | .load obj field => .ok (a.input.isSeed obj field)
  | .op opcode args => .ok (opcode.isDifferentiable && args.any m.isActive)
  | .call _ args _ =>
    let active := args.any (m.isActiveReal a.func)
    match a.func.varTy dst with
    | .real => .ok active
    | .tensor | .obj =>
      if active then .error (.aggregateTangent (a.func.varName dst)) else .ok false
    | .int | .bool => .ok false
  | .pop t => do
    a.checkTape t true
    return t.kind != .decisions && a.func.varTy dst == .real && m.isActiveTape t
  | .topIs t _ => do
    a.checkTape t (t.kind == .decisions)
    return false

mutual

/-- The marks after a visit of a statement. -/
def stmt (a : Analysis) : Stmt → Marks → Except DiffError Marks
  | .define dst _ e, m => do return if ← a.expr m dst e then m.mark dst else m
  | .store obj field val, m =>
    if a.input.isSeed obj field || m.isActive val then .error (.activeRecordStore field) else .ok m
  | .push t val, m => do
    a.checkTape t true
    return if t.kind != .decisions && m.isActive val then m.markTape t else m
  | .pushDecision t _, m => do
    a.checkTape t (t.kind == .decisions)
    return m
  | .cond guarded other, m => do a.block other (← a.arms guarded m)
  | .loop header _ body, m => do a.block body (← a.block header m)
  | .doLoop body _, m => a.block body m
  | .block body, m => a.block body m
  | .unreachable, m => .ok m
  | .ret _, m => .ok m

def block (a : Analysis) : List Stmt → Marks → Except DiffError Marks
  | [], m => .ok m
  | s :: ss, m => do a.block ss (← a.stmt s m)

def arms (a : Analysis) : List (Var × List Stmt) → Marks → Except DiffError Marks
  | [], m => .ok m
  | (_, body) :: rest, m => do a.arms rest (← a.block body m)

end

/-- The input alone. -/
def start (a : Analysis) : Marks :=
  let m : Marks := { vars := Array.replicate a.func.vars.size false }
  match a.input with
  | .param v => m.mark v
  | .property _ _ => m

/-- Visits the body until nothing changes, at most `fuel` more times. Also
counts the visits. -/
def iterate (a : Analysis) : Nat → Nat → Marks → Except DiffError (Marks × Nat)
  | 0, rounds, m => .ok (m, rounds)
  | fuel + 1, rounds, m => do
    let next ← a.block a.func.body m
    if next = m then return (m, rounds + 1)
    a.iterate fuel (rounds + 1) next

end Analysis

mutual

/-- The number of pushes in a statement. -/
def Stmt.pushCount : Stmt → Nat
  | .push _ _ => 1
  | .cond arms other => armsPushCount arms + blockPushCount other
  | .loop header _ body => blockPushCount header + blockPushCount body
  | .doLoop body _ => blockPushCount body
  | .block body => blockPushCount body
  | .define _ _ _ | .store _ _ _ | .pushDecision _ _ | .unreachable | .ret _ => 0

def blockPushCount : List Stmt → Nat
  | [] => 0
  | s :: ss => s.pushCount + blockPushCount ss

def armsPushCount : List (Var × List Stmt) → Nat
  | [] => 0
  | (_, body) :: arms => blockPushCount body + armsPushCount arms

end

/-- The result of an analysis. -/
structure Activity where
  input : ActiveInput
  marks : Marks
  /-- How often the body was visited. -/
  rounds : Nat

namespace Activity

/-- Analyses a function. Every visit but the last one marks a variable or a
tape that is pushed to, which bounds their number. -/
def analyze (f : Func) (input : ActiveInput) (withTapes : Bool) : Except DiffError Activity := do
  let a : Analysis := ⟨f, input, withTapes⟩
  let (marks, rounds) ← a.iterate (f.vars.size + blockPushCount f.body + 1) 0 a.start
  return ⟨input, marks, rounds⟩

/-- The active variables, then the active tapes. -/
def text (a : Activity) (f : Func) : String :=
  " ".intercalate (a.marks.activeVars.map f.varName) ++
    String.join ((a.marks.tapes.mergeSort Tape.le).map fun t => " [" ++ t.text ++ "]")

end Activity

end Backsweep
