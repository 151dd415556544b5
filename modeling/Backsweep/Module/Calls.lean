import Backsweep.Module.Optimize

/-!
# Running modules

Calls between the functions of a module, including those that reach
derivatives. How deeply such calls may be nested is bounded.
-/

namespace Backsweep.Module

variable {R : Type}

/-- How deeply calls may be nested. -/
def maxDepth : Nat := 1000000

/-- The rest of a call name behind a word and a point. -/
def callee? (word name : String) : Option String :=
  match word.toList.isPrefixOf name.toList, name.toList.drop word.length with
  | true, '.' :: rest => some (String.ofList rest)
  | _, _ => none

def first : List (Value R) → Except RunError (Value R)
  | v :: _ => .ok v
  | [] => .error .missingReturn

def ofExcept {α : Type} : Except RunError α → EStateM RunError (World R) α
  | .ok x => pure x
  | .error e => throw e

variable [Scalar R]

/-- Runs a function of the module. -/
def runNamed (m : Module) (externs : Externs R) (name : String) (args : List (Value R)) :
    EStateM RunError (World R) (List (Value R)) :=
  match m.function? name with
  | some f => ({ func := f, externs } : Job R).runFresh args
  | none => throw (.unknownExtern name)

/-- Adds to the derivatives computed with a graph. -/
def trace (d : DynamicDerivative R) : EStateM RunError (World R) Unit :=
  modify fun w => { w with trace := w.trace.push d }

/-- The upstream derivative, which is the last argument, times the derivative
computed with a graph. -/
def runDynamic (m : Module) (externs : Externs R) (primal : String) (args : List (Value R)) :
    EStateM RunError (World R) (Value R) := do
  let some (f, wrt) := m.fallback? primal | throw (.notDifferentiable primal)
  let some upstream := args.getLast? | throw (.arity (f.params.length + 1) 0)
  let upstream ← ofExcept upstream.toReal
  let g ← ({ func := f, externs } : Job R).gradient args.dropLast wrt
  trace ⟨primal, g.derivative, g.value⟩
  return .real (Scalar.mul g.derivative upstream)

/-- A call from a function of the module, with `externs` for the calls that it
leads to and `user` for operations outside of the module. -/
def call (m : Module) (externs user : Externs R) (name : String) (args : List (Value R)) :
    EStateM RunError (World R) (Value R) :=
  match callee? m.markers.reverseCall name with
  | some primal => do ofExcept (first (← m.runNamed externs (primal ++ ".pullback") args))
  | none =>
    match callee? dynamicCall name with
    | some primal => m.runDynamic externs primal args
    | none =>
      if (m.function? name).isSome then do ofExcept (first (← m.runNamed externs name args))
      else user.call name args

/-- The derivatives of a function by its real arguments, and zero for the
others. The first of the arguments that are left has the given index. -/
def partialsFrom (j : Job R) (args : List (Value R)) :
    Nat → List (Value R) → StateM (World R) (Option (List R))
  | _, [] => return some []
  | i, v :: vs => do
    match v with
    | .real _ =>
      match j.gradient args (.param i) (← get) with
      | .ok g w =>
        set w
        return (← partialsFrom j args (i + 1) vs).map (g.derivative :: ·)
      | .error _ w =>
        set w
        return none
    | _ => return (← partialsFrom j args (i + 1) vs).map (Scalar.lit 0.0 :: ·)

/-- The partial derivatives of a call. Functions of the module are run with a
graph of their own and no records. -/
def partials (m : Module) (externs user : Externs R) (name : String) (args : List (Value R)) :
    StateM (Array (DynamicDerivative R)) (Option (List R)) := fun trace =>
  match m.function? name with
  | none => user.partials name args trace
  | some f =>
    let (res, w) := partialsFrom { func := f, externs } args 0 args { trace }
    (res, w.trace)

/-- The operations around the functions of a module, with calls nested at most
`depth` times. -/
def externs (m : Module) (user : Externs R) : Nat → Externs R
  | 0 => { call := fun _ _ => throw .callDepth, partials := fun _ _ => return none }
  | depth + 1 =>
    { call := fun name args => m.call (m.externs user depth) user name args
      partials := fun name args => m.partials (m.externs user depth) user name args }

/-- Runs a function of the module. -/
def eval (m : Module) (user : Externs R) (name : String) (args : List (Value R)) :
    EStateM RunError (World R) (List (Value R)) :=
  m.runNamed (m.externs user maxDepth) name args

/-- The upstream derivative times the derivative of a function, however it is
computed. -/
def pullback (m : Module) (user : Externs R) (primal : String) (args : List (Value R))
    (upstream : R) : EStateM RunError (World R) R := do
  let vals ← m.eval user (primal ++ ".pullback") (args ++ [.real upstream])
  ofExcept ((first vals).bind Value.toReal)

end Backsweep.Module
