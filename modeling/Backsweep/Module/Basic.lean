import Backsweep.Diff.Error
import Backsweep.Run.Gradient
import Backsweep.Syntax.Printer

/-!
# Modules

A module is a list of functions together with the derivatives generated for
the marked ones.
-/

namespace Backsweep

/-- The words that mark functions and calls. -/
structure Markers where
  /-- Attribute of functions to differentiate, optionally with the input. -/
  optimize : String := "optimize"
  /-- Attribute of functions that also get a second derivative. -/
  secondOrder : String := "second_order_optimize"
  /-- What the names of calls of a pullback start with. -/
  reverseCall : String := "reverse_ad"

/-- How the derivative of a marked function is computed. -/
inductive Strategy where
  /-- By a generated function. -/
  | optimized (secondOrder : Bool)
  /-- With a graph, while the module runs. The input is `none` if not even that
  could be found. -/
  | fallback (wrt : Option Wrt) (cause : DiffError)
deriving DecidableEq

def Strategy.isFallback : Strategy → Bool
  | optimized _ => false
  | fallback _ _ => true

structure Derivative where
  primal : String
  strategy : Strategy
deriving DecidableEq

structure Module where
  primals : List Func
  generated : List Func
  /-- One for each marked function, in order. -/
  derivatives : List Derivative
  markers : Markers

namespace Module

/-- The functions of the module, generated ones last. -/
def functions (m : Module) : List Func := m.primals ++ m.generated

def function? (m : Module) (name : String) : Option Func := m.functions.find? (·.name == name)

def derivative? (m : Module) (primal : String) : Option Derivative :=
  m.derivatives.find? (·.primal == primal)

/-- The function and the input that a derivative is computed for with a graph. -/
def fallback? (m : Module) (primal : String) : Option (Func × Wrt) := do
  let d ← m.derivative? primal
  match d.strategy with
  | .fallback (some wrt) _ => return (← m.function? primal, wrt)
  | .fallback none _ => none
  | .optimized _ => none

def text (m : Module) : String := "\n".intercalate (m.functions.map Func.text)

end Module

end Backsweep
