import Backsweep.Diff.Activity
import Backsweep.Diff.Level
import Backsweep.Diff.Plan

/-!
# The reverse section

Visits the steps backwards. It pops the decisions to take the recorded
branches and to repeat loops as often as they were run; no condition is
evaluated again. Derivatives are summed in one accumulator for each active
variable, declared at the start of the reverse code of its block.
-/

namespace Backsweep

/-- The accumulators in scope. -/
structure Accumulators where
  vars : List (Var × Var) := []
  /-- The accumulator of the input if it is a property. -/
  property : Option Var := none

namespace Accumulators

def find? (a : Accumulators) (v : Var) : Option Var := a.vars.lookup v

def add (a : Accumulators) (new : List (Var × Var)) : Accumulators :=
  { a with vars := new.reverse ++ a.vars }

end Accumulators

/-- What reverse code is generated for. -/
structure Sweep where
  func : Func
  level : Level
  /-- Where accumulators start. -/
  zero : Float

/-- Generates code that may declare variables. -/
abbrev Emit := StateT Locals (Except DiffError)

namespace Sweep

def declare (base : String) (ty : Ty) (mutable : Bool) : Emit Var := fun l =>
  .ok (l.declare base ty mutable)

def zeroExpr (s : Sweep) : Expr := .const (.real s.zero)

def reset (s : Sweep) (acc : Var) : Stmt := .define acc false s.zeroExpr

/-- Adds a contribution to an accumulator. -/
def fold (pushback : Opcode) (acc contribution : Var) : Stmt :=
  .define acc false (.op pushback [acc, contribution])

/-- The accumulator of a variable. -/
def acc (s : Sweep) (accs : Accumulators) (v : Var) : Emit Var :=
  match accs.find? v with
  | some a => return a
  | none => throw (.unscopedAdjoint (s.func.varName v))

def propertyAcc (s : Sweep) (accs : Accumulators) (dst : Var) : Emit Var :=
  match accs.property with
  | some a => return a
  | none => throw (.unscopedAdjoint (s.func.varName dst))

def declareAcc (stem : String) (init : Expr) : Emit (Var × Stmt) := do
  let a ← declare (accumulatorStem ++ "_" ++ stem) .real true
  return (a, .define a true init)

/-- Declares accumulators of variables, and what they start from. -/
def declareAccs (s : Sweep) (init : Var → Expr) : List Var → Emit (Block × List (Var × Var))
  | [] => return ([], [])
  | v :: vs => do
    let (a, stmt) ← declareAcc (s.func.varName v) (init v)
    let (stmts, accs) ← s.declareAccs init vs
    return (stmt :: stmts, (v, a) :: accs)

/-- The value before an assignment is dead, and so is its adjoint. -/
def reverseInert (s : Sweep) (accs : Accumulators) (run : List Stmt) : Block :=
  run.reverse.filterMap fun
    | .define dst false _ => (accs.find? dst).map s.reset
    | _ => none

/-- Pops saved arguments, given from last to first. -/
def popSaved (s : Sweep) : List Var → Emit (Block × List (Var × Var))
  | [] => return ([], [])
  | v :: vs => do
    let saved ← declare (s.func.varName v ++ "_saved") .real false
    let (stmts, rest) ← s.popSaved vs
    return (.define saved true (.pop s.level.values) :: stmts, (v, saved) :: rest)

/-- The variables that hold the arguments of a call in the reverse section. -/
def inputs (c : ActiveCall) (saved : List (Var × Var)) : List Var :=
  (c.argVars.zip c.args).map fun (v, checkpoint) =>
    if checkpoint = .saved then (saved.lookup v).getD v else v

def inline (r : Rule) (upstream : Var) (inputs : List Var) (primal : Var) : Emit (Block × Var) :=
  fun l =>
    let (stmts, result, l) := r.inline l upstream inputs primal
    .ok ((stmts, result), l)

/-- The contributions to the active arguments. -/
def contributions (s : Sweep) (accs : Accumulators) (pushback : Opcode) (upstream : Var)
    (inputs : List Var) (primal : Var) : List (Var × Bool × Rule) → Emit Block
  | [] => return []
  | (arg, active, rule) :: rest => do
    if active then
      let (stmts, contribution) ← inline rule upstream inputs primal
      let a ← s.acc accs arg
      return stmts ++ fold pushback a contribution ::
        (← s.contributions accs pushback upstream inputs primal rest)
    else s.contributions accs pushback upstream inputs primal rest

/-- The derivative of the result of a call. Where the call overwrites a
variable, the accumulator is passed on to the previous value, which must not
see this derivative. -/
def takeAdjoint (s : Sweep) (c : ActiveCall) (acc : Var) : Emit (Block × Var) := do
  if c.decl then return ([], acc)
  let adjoint ← declare (s.func.varName c.dst ++ "_adjoint") .real false
  return ([.define adjoint true (.copy acc), s.reset acc], adjoint)

/-- The result of a call. -/
def takePrimal (s : Sweep) (c : ActiveCall) : Emit (Block × Var) := do
  if c.primal = .saved then
    let saved ← declare (s.func.varName c.dst ++ "_saved") .real false
    return ([.define saved true (.pop s.level.values)], saved)
  else return ([], c.dst)

def reverseCall (s : Sweep) (accs : Accumulators) (c : ActiveCall) : Emit Block := do
  let a ← s.acc accs c.dst
  let (adjointStmts, upstream) ← s.takeAdjoint c a
  let (primalStmts, primal) ← s.takePrimal c
  let (savedStmts, saved) ← s.popSaved c.savedArgs.reverse
  let stmts ← s.contributions accs c.node.pushback upstream (inputs c saved) primal
    (c.argVars.zip (c.activeArgs.zip c.node.rules))
  return adjointStmts ++ primalStmts ++ savedStmts ++ stmts

/-- Passes the adjoint of an assigned variable on to where its value came from. -/
def reverseAssign (s : Sweep) (accs : Accumulators) (dst : Var) (decl : Bool) (src : Source)
    (active : Bool) : Emit Block := do
  let a ← s.acc accs dst
  if !active then return if decl then [] else [s.reset a]
  match src with
  | .var v =>
    if v = dst then return []
    return [fold .fadd (← s.acc accs v) a, s.reset a]
  | .field _ _ => return [fold .fadd (← s.propertyAcc accs dst) a, s.reset a]
  | .tape _ => return [.push s.level.adjoints a, s.reset a]

def reverseTapeWrite (s : Sweep) (accs : Accumulators) (val : Var) (active : Bool) :
    Emit Block := do
  let adjoint ← declare "adjoint" .real false
  let pop := .define adjoint true (.pop s.level.adjoints)
  if active then return [pop, fold .fadd (← s.acc accs val) adjoint] else return [pop]

/-- Tests of the recorded branch against the indices `index, index + 1, …`,
`n` of them. -/
def branchTests (taken : Var) : Nat → Nat → Emit (Block × List Var)
  | 0, _ => return ([], [])
  | n + 1, index => do
    let i ← declare "index" .int false
    let test ← declare "is_taken" .bool false
    let (stmts, tests) ← branchTests taken n (index + 1)
    return (.define i true (.const (.int index)) :: .define test true (.op .ieq [taken, i]) :: stmts,
      test :: tests)

mutual

def reverseStep (s : Sweep) (accs : Accumulators) : Step → Emit Block
  | .inert run => return s.reverseInert accs run
  | .call c => s.reverseCall accs c
  | .assign dst decl src active => s.reverseAssign accs dst decl src active
  | .tapeWrite _ val active => s.reverseTapeWrite accs val active
  | .block (decls, steps) => do
    let (inits, new) ← s.declareAccs (fun _ => s.zeroExpr) decls
    return [.block (inits ++ (← s.reverseSteps (accs.add new) steps))]
  | .cond arms (decls, steps) => do
    let taken ← declare "branch" .int false
    let (testStmts, tests) ← branchTests taken (arms.length + 1) 0
    let blocks ← s.reverseArms accs arms
    let (inits, new) ← s.declareAccs (fun _ => s.zeroExpr) decls
    let last := inits ++ (← s.reverseSteps (accs.add new) steps)
    -- The recorded branch is always one of those tested.
    return .define taken true (.pop s.level.decisions) :: testStmts ++
      [.cond (tests.zip (blocks ++ [last])) [.unreachable]]
  | .loop id _ _ (decls, steps) => do
    let again ← declare "repeat" .bool false
    let iteration ← declare "iteration" .int false
    let (inits, new) ← s.declareAccs (fun _ => s.zeroExpr) decls
    let body := inits ++ (← s.reverseSteps (accs.add new) steps)
    return [.loop [.define again true (.topIs s.level.decisions id)] again
      (.define iteration true (.pop s.level.decisions) :: body)]

/-- Last step first. -/
def reverseSteps (s : Sweep) (accs : Accumulators) : List Step → Emit Block
  | [] => return []
  | step :: steps => do
    let later ← s.reverseSteps accs steps
    return later ++ (← s.reverseStep accs step)

def reverseArms (s : Sweep) (accs : Accumulators) :
    List (Var × List Var × List Step) → Emit (List Block)
  | [] => return []
  | (_, decls, steps) :: arms => do
    let (inits, new) ← s.declareAccs (fun _ => s.zeroExpr) decls
    let body := inits ++ (← s.reverseSteps (accs.add new) steps)
    return body :: (← s.reverseArms accs arms)

end

end Sweep

end Backsweep
