import Backsweep.Syntax.Reader
import Backsweep.Syntax.Validity
import Backsweep.Text.Enumeration

/-!
# Why a function can not be differentiated
-/

namespace Backsweep

inductive ErrorClass where
  /-- The function does not have the expected shape. -/
  | structural
  /-- A derivative rule or an input could not be found. -/
  | resolution
  /-- The function uses something that can not be differentiated. -/
  | unsupported
deriving DecidableEq

def ErrorClass.name : ErrorClass → String
  | structural => "malformed function"
  | resolution => "unresolved reference"
  | unsupported => "unsupported feature"

/-- What is wrong with a catalogue of derivative rules. -/
inductive RuleFault where
  | unreadable (e : ReadError)
  | name
  | nodeRedefined
  | wrongInput (expected : Nat)
  | inputCount
  | missingRule (input : Nat)
  | result
  | params
  | paramTy (var : String)
  | invalid (violations : List Violation)
  | noReturn
  | notStraightLine
deriving DecidableEq

def RuleFault.message : RuleFault → String
  | unreadable e => e.message
  | name => "expected a name of the form <node>.d<input>"
  | nodeRedefined => "node is defined twice"
  | wrongInput expected => "missing or duplicate rule for input " ++ toString expected
  | inputCount => "rules disagree about the number of inputs"
  | missingRule input => "missing rule for input " ++ toString input
  | result => "derivative rules must return a single real"
  | params => "expected parameters (upstream, inputs.., primal)"
  | paramTy var => "parameter '" ++ var ++ "' is not a real"
  | invalid violations => ({} : Text.Enumeration).write (violations.map (·.message))
  | noReturn => "derivative rules must end with a return"
  | notStraightLine => "derivative rules must be straight-line code"

inductive DiffError where
  | invalid (violations : List Violation)
  | missingReturn
  | multipleReturns (stmt : String)
  | misplacedReturn (stmt : String)
  | returnNotReal
  | immutableAssign (var : String)
  | tapeNotAllowed (tape : Tape)
  | noActiveInput
  | unscopedAdjoint (var : String)
  | catalogue (name : String) (fault : RuleFault)
  | unknownInput (name : String)
  | noDerivativeRule (callee : String)
  | unknownNode (name : String)
  | ambiguousNode (callee : String) (candidates : List String)
  | nodeArity (node : String) (expected found : Nat)
  | multipleActiveInputs (candidates : List String)
  | nonScalarInput (name : String) (ty : Ty)
  | postConditionLoop
  | activeLoopHeader (var : String)
  | activeRecordStore (field : String)
  | aggregateTangent (var : String)
deriving DecidableEq

namespace DiffError

def errorClass : DiffError → ErrorClass
  | invalid _ | missingReturn | multipleReturns _ | misplacedReturn _ | returnNotReal
  | immutableAssign _ | tapeNotAllowed _ | noActiveInput | unscopedAdjoint _
  | catalogue _ _ => .structural
  | unknownInput _ | noDerivativeRule _ | unknownNode _ | ambiguousNode _ _
  | nodeArity _ _ _ => .resolution
  | multipleActiveInputs _ | nonScalarInput _ _ | postConditionLoop | activeLoopHeader _
  | activeRecordStore _ | aggregateTangent _ => .unsupported

def message : DiffError → String
  | invalid violations =>
    "invalid function: " ++ Text.Enumeration.clauses.write (violations.map (·.message))
  | missingReturn => "function has no return statement"
  | multipleReturns stmt =>
    "function has more than one return statement, found another '" ++ stmt ++ "'"
  | misplacedReturn stmt =>
    "'" ++ stmt ++ "' must be the last statement of the function body and return a single value"
  | returnNotReal => "the returned value is not a real"
  | immutableAssign var => "assignment to immutable variable '" ++ var ++ "'"
  | tapeNotAllowed tape =>
    "'" ++ tape.text ++ "' is used but implicit stacks are not enabled"
  | noActiveInput => "function has no real parameter to differentiate with respect to"
  | unscopedAdjoint var => "adjoint of '" ++ var ++ "' is used outside of its scope"
  | catalogue name fault => "invalid derivative rule %" ++ name ++ ": " ++ fault.message
  | unknownInput name => "'" ++ name ++ "' does not name a parameter or property"
  | noDerivativeRule callee => "no derivative rule exists for active call %" ++ callee
  | unknownNode name => "unknown dependency node " ++ name
  | ambiguousNode callee candidates =>
    "call %" ++ callee ++ " matches multiple dependency nodes: " ++
      Text.Enumeration.names.write candidates
  | nodeArity node expected found =>
    node ++ " expects " ++ toString expected ++ " inputs but the call passes " ++ toString found
  | multipleActiveInputs candidates =>
    "only one active input is supported but found " ++ Text.Enumeration.names.write candidates
  | nonScalarInput name ty =>
    "'" ++ name ++ "' has type " ++ ty.name ++ ", only real inputs can be differentiated"
  | postConditionLoop => "do-while loops can not be differentiated"
  | activeLoopHeader var =>
    "'" ++ var ++ "' is computed from active values by a loop condition and read outside of it"
  | activeRecordStore field =>
    "active values can not be stored into records (field '" ++ field ++ "')"
  | aggregateTangent var => "'" ++ var ++ "' would carry a non-scalar derivative"

end DiffError

end Backsweep
