import Backsweep.Diff.Activity
import Backsweep.Diff.Catalogue
import Backsweep.Diff.Plan

/-!
# From functions to plans

Classifies the statements of a function by their effect on derivatives and
rejects what has no reverse.
-/

namespace Backsweep

mutual

/-- The variables a statement reads, conditions and returned values included,
each as often as it is read. -/
def Stmt.reads : Stmt → List Var
  | .define _ _ e => e.uses
  | .store obj _ val => [obj, val]
  | .cond arms other => armsReads arms ++ blockReads other
  | .loop header test body => test :: blockReads header ++ blockReads body
  | .doLoop body test => test :: blockReads body
  | .block body => blockReads body
  | .push _ val => [val]
  | .pushDecision _ _ => []
  | .unreachable => []
  | .ret vals => vals

def blockReads : List Stmt → List Var
  | [] => []
  | s :: ss => s.reads ++ blockReads ss

def armsReads : List (Var × List Stmt) → List Var
  | [] => []
  | (test, body) :: arms => test :: blockReads body ++ armsReads arms

end

mutual

/-- The returns in a statement. -/
def Stmt.returns : Stmt → List (List Var)
  | .ret vals => [vals]
  | .cond arms other => armsReturns arms ++ blockReturns other
  | .loop header _ body => blockReturns header ++ blockReturns body
  | .doLoop body _ => blockReturns body
  | .block body => blockReturns body
  | .define _ _ _ | .store _ _ _ | .push _ _ | .pushDecision _ _ | .unreachable => []

def blockReturns : List Stmt → List (List Var)
  | [] => []
  | s :: ss => s.returns ++ blockReturns ss

def armsReturns : List (Var × List Stmt) → List (List Var)
  | [] => []
  | (_, body) :: arms => blockReturns body ++ armsReturns arms

end

/-- The statements before the only return, which ends the body, and the
variable it returns. -/
def Func.splitReturn (f : Func) : Except DiffError (Block × Var) :=
  match blockReturns f.body with
  | [] => .error .missingReturn
  | _ :: second :: _ => .error (.multipleReturns (f.stmtText 0 (.ret second)))
  | [vals] =>
    match f.body.getLast? with
    | some (.ret [v]) => .ok (f.body.dropLast, v)
    | _ => .error (.misplacedReturn (f.stmtText 0 (.ret vals)))

/-- What lowering works with. -/
structure Lowering where
  func : Func
  activity : Activity
  catalogue : Catalogue

namespace Lowering

structure State where
  resolver : Resolver := {}
  /-- The number of loops so far. -/
  loops : Nat := 0

abbrev Lower := EStateM DiffError State

def ofExcept {α : Type} : Except DiffError α → Lower α
  | .ok x => pure x
  | .error e => throw e

def isActive (l : Lowering) (v : Var) : Bool := l.activity.marks.isActive v

def isActiveReal (l : Lowering) (v : Var) : Bool := l.activity.marks.isActiveReal l.func v

def isActiveTape (l : Lowering) (t : Tape) : Bool := l.activity.marks.isActiveTape t

/-- Parameters, and immutable variables declared directly in the body, never
change and are in scope everywhere. -/
def isOwned (l : Lowering) (v : Var) : Bool :=
  l.func.params.contains v || l.func.body.any fun
    | .define dst true _ => dst == v && !(l.func.info v).mutable
    | _ => false

def checkpoint (l : Lowering) (v : Var) (referenced : Bool) : Checkpoint :=
  if !referenced then .unused else if l.isOwned v then .direct else .saved

/-- Whether an expression reads something active. -/
def exprActive (l : Lowering) : Expr → Bool
  | .const _ | .topIs _ _ => false
  | .copy v => l.isActive v
  | .load obj field => l.activity.input.isSeed obj field
  | .op _ args | .call _ args _ => args.any l.isActiveReal
  | .pop t => l.isActiveTape t

mutual

/-- Whether a statement has no effect on derivatives. -/
def isInert (l : Lowering) : Stmt → Bool
  | .define dst decl e => !l.isActive dst || (decl && !l.exprActive e)
  | .push t _ => !l.isActiveTape t
  | .cond arms other => l.isInertArms arms && l.isInertBlock other
  | .loop header _ body => l.isInertBlock header && l.isInertBlock body
  | .doLoop body _ => l.isInertBlock body
  | .block body => l.isInertBlock body
  | .store _ _ _ | .pushDecision _ _ | .unreachable | .ret _ => true

def isInertBlock (l : Lowering) : List Stmt → Bool
  | [] => true
  | s :: ss => l.isInert s && l.isInertBlock ss

def isInertArms (l : Lowering) : List (Var × List Stmt) → Bool
  | [] => true
  | (_, body) :: arms => l.isInertBlock body && l.isInertArms arms

end

/-- An assignment needs a mutable variable. -/
def checkAssign (l : Lowering) : Stmt → Except DiffError Unit
  | .define dst false _ =>
    if (l.func.info dst).mutable then .ok () else .error (.immutableAssign (l.func.varName dst))
  | _ => .ok ()

mutual

/-- Rejects what is not supported even where it has no effect on derivatives. -/
def checkInert (l : Lowering) : Stmt → Except DiffError Unit
  | .doLoop _ _ => .error .postConditionLoop
  | .ret vals => .error (.misplacedReturn (l.func.stmtText 0 (.ret vals)))
  | .define dst decl e => l.checkAssign (.define dst decl e)
  | .cond arms other => do
    l.checkInertArms arms
    l.checkInertBlock other
  | .loop header _ body => do
    l.checkInertBlock header
    l.checkInertBlock body
  | .block body => l.checkInertBlock body
  | .store _ _ _ => .ok ()
  | .push _ _ => .ok ()
  | .pushDecision _ _ => .ok ()
  | .unreachable => .ok ()

def checkInertBlock (l : Lowering) : List Stmt → Except DiffError Unit
  | [] => .ok ()
  | s :: ss => do
    l.checkInert s
    l.checkInertBlock ss

def checkInertArms (l : Lowering) : List (Var × List Stmt) → Except DiffError Unit
  | [] => .ok ()
  | (_, body) :: arms => do
    l.checkInertBlock body
    l.checkInertArms arms

end

/-- How often a variable is read. -/
def useCount (reads : List Var) (v : Var) : Nat := reads.count v

/-- Whether a variable that a header computes from active values is read
outside of the header, which reads `inside`. -/
def escapes (l : Lowering) (inside : List Var) (v : Var) : Bool :=
  useCount inside v < useCount (blockReads l.func.body) v

mutual

/-- A header is only replayed forward: what it computes from active values may
decide whether the loop goes on, and nothing else. -/
def checkHeader (l : Lowering) (test : Var) (inside : List Var) : Stmt → Except DiffError Unit
  | .define dst _ _ =>
    if l.isActive dst && dst ≠ test && l.escapes inside dst then
      .error (.activeLoopHeader (l.func.varName dst))
    else .ok ()
  | .push t val =>
    if l.isActiveTape t then .error (.activeLoopHeader (l.func.varName val)) else .ok ()
  | .cond arms other => do
    l.checkHeaderArms test inside arms
    l.checkHeaderBlock test inside other
  | .loop header _ body => do
    l.checkHeaderBlock test inside header
    l.checkHeaderBlock test inside body
  | .doLoop body _ => l.checkHeaderBlock test inside body
  | .block body => l.checkHeaderBlock test inside body
  | .store _ _ _ => .ok ()
  | .pushDecision _ _ => .ok ()
  | .unreachable => .ok ()
  | .ret _ => .ok ()

def checkHeaderBlock (l : Lowering) (test : Var) (inside : List Var) :
    List Stmt → Except DiffError Unit
  | [] => .ok ()
  | s :: ss => do
    l.checkHeader test inside s
    l.checkHeaderBlock test inside ss

def checkHeaderArms (l : Lowering) (test : Var) (inside : List Var) :
    List (Var × List Stmt) → Except DiffError Unit
  | [] => .ok ()
  | (_, body) :: arms => do
    l.checkHeaderBlock test inside body
    l.checkHeaderArms test inside arms

end

/-- The active variables that a block declares directly, in order. -/
def activeDecls (l : Lowering) (body : Block) : List Var :=
  body.filterMap fun
    | .define dst true _ => if l.isActive dst then some dst else none
    | _ => none

/-- A lowered statement: kept verbatim, or a step. -/
abbrev Piece := Stmt ⊕ Step

/-- Collects the statements kept verbatim into runs. `run` is the current one. -/
def collect (run : List Stmt) : List Piece → List Step
  | [] => if run.isEmpty then [] else [.inert run]
  | .inl s :: rest => collect (run ++ [s]) rest
  | .inr step :: rest =>
    if run.isEmpty then step :: collect [] rest else .inert run :: step :: collect [] rest

def resolve (l : Lowering) (e : Expr) : Lower (Option Node) := fun s =>
  match Resolver.resolve l.catalogue e s.resolver with
  | .ok node resolver => .ok node { s with resolver }
  | .error err resolver => .error err { s with resolver }

def emit (event : Event) : Lower Unit := modify fun s =>
  { s with resolver := { s.resolver with events := s.resolver.events.push event } }

def activeCall (l : Lowering) (dst : Var) (decl : Bool) (e : Expr) (callee : String) :
    Lower Step := do
  let some node ← l.resolve e | throw (.noDerivativeRule callee)
  let args := e.uses
  if node.arity ≠ args.length then throw (.nodeArity node.name node.arity args.length)
  let activeArgs := args.map l.isActiveReal
  let checkpoints := (args.zip (node.inputsReferenced activeArgs)).map fun (v, r) =>
    l.checkpoint v r
  let primal := l.checkpoint dst (node.primalReferenced activeArgs)
  emit (.differentiated l.func.name (l.func.varName dst) callee node.name)
  return .call { dst, decl, expr := e, node, activeArgs, args := checkpoints, primal }

/-- A definition of an active variable. -/
def define (l : Lowering) (dst : Var) (decl : Bool) (e : Expr) : Lower Piece :=
  match e with
  | .copy src => return .inr (.assign dst decl (.var src) (l.isActive src))
  | .load obj field =>
    return .inr (.assign dst decl (.field obj field) (l.activity.input.isSeed obj field))
  | .pop t => return .inr (.assign dst decl (.tape t) (l.isActiveTape t))
  | .op opcode _ =>
    if l.exprActive e then return .inr (← l.activeCall dst decl e opcode.name)
    else return .inl (.define dst decl e)
  | .call callee _ _ =>
    if l.exprActive e then return .inr (← l.activeCall dst decl e callee)
    else return .inl (.define dst decl e)
  | .const _ => return .inl (.define dst decl e)
  | .topIs _ _ => return .inl (.define dst decl e)

/-- The number of the next loop: -1, -2, … -/
def nextLoop : Lower Int := do
  let s ← get
  set { s with loops := s.loops + 1 }
  return -(s.loops + 1)

/-- Keeps a statement that has no effect on derivatives. -/
def keep (l : Lowering) (s : Stmt) : Lower Piece := do
  if s.isControlFlow then ofExcept (l.checkInert s)
  return .inl s

mutual

def stmt (l : Lowering) : Stmt → Lower Piece
  | .define dst decl e =>
    if l.isInert (.define dst decl e) then return .inl (.define dst decl e)
    else l.define dst decl e
  | .push t val =>
    if l.isActiveTape t then return .inr (.tapeWrite t val (l.isActive val))
    else return .inl (.push t val)
  | .cond arms other => do
    if l.isInert (.cond arms other) then l.keep (.cond arms other)
    else
      let lowered ← l.arms arms
      let steps ← l.block other
      return .inr (.cond lowered (l.activeDecls other, collect [] steps))
  | .loop header test body => do
    if l.isInert (.loop header test body) then l.keep (.loop header test body)
    else
      ofExcept (l.checkInertBlock header)
      ofExcept (l.checkHeaderBlock test (blockReads header) header)
      let id ← nextLoop
      let steps ← l.block body
      return .inr (.loop id header test (l.activeDecls body, collect [] steps))
  | .doLoop _ _ => throw .postConditionLoop
  | .block body => do
    if l.isInert (.block body) then l.keep (.block body)
    else
      let steps ← l.block body
      return .inr (.block (l.activeDecls body, collect [] steps))
  | .store obj field val => return .inl (.store obj field val)
  | .pushDecision t d => return .inl (.pushDecision t d)
  | .unreachable => return .inl .unreachable
  | .ret vals => throw (.misplacedReturn (l.func.stmtText 0 (.ret vals)))

def block (l : Lowering) : List Stmt → Lower (List Piece)
  | [] => return []
  | s :: ss => do
    ofExcept (l.checkAssign s)
    let piece ← l.stmt s
    return piece :: (← l.block ss)

def arms (l : Lowering) : List (Var × List Stmt) → Lower (List (Var × List Var × List Step))
  | [] => return []
  | (test, body) :: rest => do
    let steps ← l.block body
    return (test, l.activeDecls body, collect [] steps) :: (← l.arms rest)

end

/-- The plan of a function. -/
def plan (l : Lowering) : Lower Plan := do
  let (body, ret) ← ofExcept l.func.splitReturn
  if l.func.varTy ret ≠ .real then throw .returnNotReal
  let pieces ← l.block body
  return {
    input := l.activity.input
    body := (l.activeDecls body, collect [] pieces)
    ret
    retActive := l.isActive ret }

end Lowering

end Backsweep
