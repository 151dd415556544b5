import Backsweep.Diff.Forward
import Backsweep.Diff.Lowering
import Backsweep.Diff.Reverse

/-!
# Pullbacks

A pullback takes the parameters of a function and an upstream derivative. It
runs the function and returns the upstream derivative times the derivative of
the function by the active input.
-/

namespace Backsweep

/-- What a generated function returns. -/
inductive ReturnMode where
  | derivative
  | valueAndDerivative
deriving DecidableEq

namespace Sweep

/-- Declares the accumulator of the input and those of the body. Also gives the
accumulator of the input. -/
def rootAccs (s : Sweep) (p : Plan) (upstream : Var) : Emit (Block × Var × Accumulators) := do
  let init (v : Var) : Expr := if v = p.ret then .copy upstream else s.zeroExpr
  match p.input with
  | .param v =>
    let (a, stmt) ← declareAcc (s.func.varName v) (init v)
    let (stmts, accs) ← s.declareAccs init p.body.1
    return (stmt :: stmts, a, { vars := accs.reverse ++ [(v, a)] })
  | .property obj field =>
    let (a, stmt) ← declareAcc (s.func.varName obj ++ "_" ++ field) s.zeroExpr
    let (stmts, accs) ← s.declareAccs init p.body.1
    return (stmt :: stmts, a, { vars := accs.reverse, property := some a })

/-- The forward section, the reverse section and the return. -/
def body (s : Sweep) (p : Plan) (mode : ReturnMode) (upstream : Var) : Emit Block := do
  let (inits, input, accs) ← s.rootAccs p upstream
  let reverse ← s.reverseSteps accs p.body.2
  let results := match mode with
    | .derivative => [input]
    | .valueAndDerivative => [p.ret, input]
  return s.level.forwardSteps p.body.2 ++ inits ++ reverse ++ [.ret results]

/-- The function generated from a plan. -/
def generate (s : Sweep) (p : Plan) (mode : ReturnMode) (name : String) : Except DiffError Func := do
  let (upstream, locals) := (Locals.ofFunc s.func).declare "upstream" .real false
  let (body, locals) ← s.body p mode upstream locals
  let returns := match mode with
    | .derivative => [.real]
    | .valueAndDerivative => [.real, .real]
  return { name, attrs := [], params := s.func.params ++ [upstream], returns,
           vars := locals.vars, body }

end Sweep

/-- The state of generating derivatives. -/
structure Session where
  context : Context := {}
  events : Array Event := #[]

abbrev Diff := EStateM DiffError Session

namespace Diff

def ofExcept {α : Type} : Except DiffError α → Diff α
  | .ok x => pure x
  | .error e => throw e

def emit (e : Event) : Diff Unit := modify fun s => { s with events := s.events.push e }

def emitAll (es : List Event) : Diff Unit := modify fun s => { s with events := s.events.appendList es }

def freshLevel (f : Func) : Diff Level := modifyGet fun s =>
  let (level, context) := s.context.fresh f
  (level, { s with context })

/-- Finds what is active. -/
def analyze (f : Func) (input : ActiveInput) (withTapes : Bool) : Diff Activity := do
  let activity ← ofExcept (Activity.analyze f input withTapes)
  emit (.converged f.name activity.rounds activity.marks.activeVars.length)
  return activity

/-- Lowers a function to a plan. -/
def lower (c : Catalogue) (f : Func) (activity : Activity) : Diff Plan := do
  match (⟨f, activity, c⟩ : Lowering).plan {} with
  | .ok p s =>
    emitAll s.resolver.events.toList
    return p
  | .error e s =>
    emitAll s.resolver.events.toList
    throw e

/-- Differentiates a function. Tapes may only be used with `withTapes`. -/
def reverse (c : Catalogue) (f : Func) (input : ActiveInput) (withTapes : Bool) (mode : ReturnMode)
    (name : String) : Diff Func := do
  if !f.isValid then throw (.invalid f.violations)
  ofExcept (input.check f)
  let activity ← analyze f input withTapes
  emit (.marked f.name (input.text f) (activity.text f))
  let p ← lower c f activity
  let level ← freshLevel f
  emitAll ((stepsLoopIds p.body.2).map (.loopRecorded · level.decisions))
  let zero := (← get).context.zero
  let g ← ofExcept ((⟨f, level, zero⟩ : Sweep).generate p mode name)
  emit (.generated g.name g.vars.size f.name (input.text f))
  return g

/-- Generates `%<f>.pullback(params.., upstream)`. -/
def pullback (c : Catalogue) (f : Func) (input : ActiveInput) : Diff Func :=
  reverse c f input false .derivative (f.name ++ ".pullback")

end Diff

end Backsweep
