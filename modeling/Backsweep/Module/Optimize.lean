import Backsweep.Diff.SecondOrder
import Backsweep.Module.Basic
import Backsweep.Syntax.Builder

/-!
# Differentiating modules

Every marked function is differentiated on its own. One that can not be
differentiated does not fail the module: its pullback calls for a derivative
with a graph instead.
-/

namespace Backsweep

structure Options where
  markers : Markers := {}
  /-- Fail on the first function that can not be differentiated. -/
  failOnError : Bool := false
  zero : Float := 0.0
  one : Float := 1.0

/-- Why a module can not be differentiated. -/
inductive ModuleError where
  | failed (func : String) (cause : DiffError)
  | redefined (func : String)
deriving DecidableEq

/-- What went wrong, followed by its causes. -/
def ModuleError.chain : ModuleError → List String
  | failed func cause => ["failed to optimize %" ++ func, cause.message]
  | redefined func => ["function %" ++ func ++ " is defined twice"]

def ModuleError.message (e : ModuleError) : String := ": ".intercalate e.chain

/-- What the names of calls for a derivative with a graph start with. -/
def dynamicCall : String := "dynamic_ad"

namespace Func

/-- The arguments of the mark of a function. -/
def markerArgs? (f : Func) (m : Markers) : Option (List String) :=
  ((f.attr? m.optimize).orElse fun _ => f.attr? m.secondOrder).map (·.args)

/-- What an input is for a run. -/
def wrt? (f : Func) : ActiveInput → Option Wrt
  | .param v => (f.params.idxOf? v).map .param
  | .property obj field => (f.params.idxOf? obj).map (.property · field)

/-- Declares parameters like those of a function. -/
def addParams (f : Func) : List Var → Builder → List Var × Builder
  | [], b => ([], b)
  | p :: ps, b =>
    let (v, b) := b.param (f.varName p) (f.varTy p)
    let (vs, b) := f.addParams ps b
    (v :: vs, b)

/-- A pullback that calls for a derivative with a graph. -/
def fallbackPullback (f : Func) : Func :=
  let (args, b) := f.addParams f.params { name := f.name ++ ".pullback" }
  let (upstream, b) := b.param "upstream" .real
  let (derivative, b) := b.define "derivative" .real false
    (.call (dynamicCall ++ "." ++ f.name) (args ++ [upstream]) none)
  (b.push (.ret [derivative])).finish [.real]

end Func

namespace Module

/-- The input of a marked function, its pullback and its second derivative. -/
abbrev Generated := ActiveInput × Func × Option Func

/-- Differentiates one function. -/
def differentiate (c : Catalogue) (f : Func) (args : List String) (second : Bool) :
    Diff Generated := do
  let input ← Diff.ofExcept (ActiveInput.select f args)
  let pullback ← Diff.pullback c f input
  if second then return (input, pullback, some (← Diff.secondOrder c f input))
  return (input, pullback, none)

/-- What becomes of a function by itself, none if it is not marked. -/
def attempt (c : Catalogue) (o : Options) (f : Func) : Option (Except DiffError Generated) :=
  (f.markerArgs? o.markers).map fun args =>
    let second := (f.attr? o.markers.secondOrder).isSome
    match differentiate c f args second { context := { zero := o.zero, one := o.one } } with
    | .ok g _ => .ok g
    | .error e _ => .error e

/-- The input of a function that can not be differentiated. -/
def fallbackWrt (o : Options) (f : Func) : Option Wrt := do
  let input ← (ActiveInput.select f (← f.markerArgs? o.markers)).toOption
  f.wrt? input

abbrev Optimize := EStateM ModuleError (Array Event)

def emit (e : Event) : Optimize Unit := modify (·.push e)

/-- The functions generated for one function, and its derivative. -/
def optimizeFunc (c : Catalogue) (o : Options) (f : Func) :
    Optimize (List Func × List Derivative) := do
  match attempt c o f with
  | none => return ([], [])
  | some (.ok (input, pullback, second)) =>
    emit (.optimized f.name (input.text f))
    return (pullback :: second.toList, [⟨f.name, .optimized second.isSome⟩])
  | some (.error e) =>
    if o.failOnError then throw (.failed f.name e)
    emit (.fellBack f.name e)
    return ([f.fallbackPullback], [⟨f.name, .fallback (fallbackWrt o f) e⟩])

def optimizeFuncs (c : Catalogue) (o : Options) :
    List Func → Optimize (List Func × List Derivative)
  | [] => return ([], [])
  | f :: fs => do
    let (generated, derivatives) ← optimizeFunc c o f
    let (moreGenerated, moreDerivatives) ← optimizeFuncs c o fs
    return (generated ++ moreGenerated, derivatives ++ moreDerivatives)

/-- The first name that occurs a second time. -/
def redefined? (seen : List String) : List String → Option String
  | [] => none
  | name :: names => if seen.contains name then some name else redefined? (name :: seen) names

/-- Differentiates the marked functions of a module. -/
def optimize (c : Catalogue) (o : Options) (primals : List Func) : Optimize Module := do
  let (generated, derivatives) ← optimizeFuncs c o primals
  match redefined? [] ((primals ++ generated).map (·.name)) with
  | some name => throw (.redefined name)
  | none => return { primals, generated, derivatives, markers := o.markers }

end Module

end Backsweep
