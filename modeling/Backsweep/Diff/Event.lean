import Backsweep.Decimal.Notation
import Backsweep.Diff.Error
import Backsweep.Run.Machine

/-!
# Events

What happens while functions are differentiated and run, as data.
-/

namespace Backsweep

/-- What a derivative rule is looked up for. -/
inductive Target where
  | op (opcode : Opcode)
  | call (callee : String) (link : Option String)
deriving DecidableEq

namespace Target

def ofExpr? : Expr → Option Target
  | .op opcode _ => some (op opcode)
  | .call callee _ node => some (call callee node)
  | .const _ | .copy _ | .load _ _ | .pop _ | .topIs _ _ => none

/-- The name of an operation, capitalised. -/
def opcodeLabel : Opcode → String
  | .ifcast => "IFcast"
  | opcode => opcode.name.capitalize

def quoted (s : String) : String := "\"" ++ s ++ "\""

def linkText : Option String → String
  | some s => "Some(" ++ quoted s ++ ")"
  | none => "None"

def text : Target → String
  | op opcode => "Op(" ++ opcodeLabel opcode ++ ")"
  | call callee link => "Call \x7b callee: " ++ quoted callee ++ ", link: " ++ linkText link ++ " \x7d"

end Target

inductive Event where
  | converged (func : String) (rounds active : Nat)
  | marked (func input marks : String)
  | resolved (target : Target) (node : String)
  | differentiated (func dst callee node : String)
  | loopRecorded (id : Int) (tape : Tape)
  | generated (name : String) (vars : Nat) (func input : String)
  | unboxed (func name : String)
  | optimized (func input : String)
  | fellBack (func : String) (cause : DiffError)

def Event.message : Event → String
  | converged func rounds active =>
    "%" ++ func ++ ": activity converged after " ++ toString rounds ++ " iterations, " ++
      toString active ++ " active variables"
  | marked func input marks =>
    "%" ++ func ++ ": active with respect to " ++ input ++ ": " ++ marks
  | resolved target node => "resolved " ++ target.text ++ " to " ++ node
  | differentiated func dst callee node =>
    "%" ++ func ++ ": " ++ dst ++ " = %" ++ callee ++ " is differentiated by " ++ node
  | loopRecorded id tape =>
    "loop " ++ toString id ++ " records its iterations on " ++ tape.text
  | generated name vars func input =>
    "generated %" ++ name ++ " (" ++ toString vars ++ " variables) from %" ++ func ++
      " with respect to " ++ input
  | unboxed func name => "%" ++ func ++ ": differentiating the unboxed pullback %" ++ name
  | optimized func input => "%" ++ func ++ ": optimized with respect to " ++ input
  | fellBack func cause =>
    "%" ++ func ++ ": " ++ cause.message ++ " (" ++ cause.errorClass.name ++
      "), derivatives are evaluated with the dynamic graph"

def DynamicDerivative.message (d : DynamicDerivative Float) : String :=
  "%" ++ d.primal ++ ": dynamic derivative " ++ Real64.plain d.derivative ++ " at value " ++
    Real64.plain d.value

end Backsweep
