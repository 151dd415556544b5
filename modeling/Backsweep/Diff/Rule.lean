import Backsweep.Diff.Error
import Backsweep.Syntax.Names

/-!
# Derivative rules

A rule is a straight-line function of the upstream derivative, the inputs and
the result of an operation, which returns the contribution to one input. It is
used by inlining its definitions.
-/

namespace Backsweep

structure Rule where
  func : Func
  upstream : Var
  inputs : List Var
  primal : Var
  result : Var

namespace Rule

/-- The variables a block of definitions reads. -/
def readsOf : Block → List Var
  | [] => []
  | .define _ _ e :: ss => e.uses ++ readsOf ss
  | _ :: ss => readsOf ss

/-- The variables whose values the rule needs. -/
def reads (r : Rule) : List Var := r.result :: readsOf r.func.body

def readsInput (r : Rule) (input : Nat) : Bool := r.inputs[input]?.any r.reads.contains

def readsPrimal (r : Rule) : Bool := r.reads.contains r.primal

/-- Whether a statement may stand in a rule. -/
def isStep : Stmt → Bool
  | .define _ true (.const _) => true
  | .define _ true (.copy _) => true
  | .define _ true (.op _ _) => true
  | .define _ true (.call _ _ _) => true
  | _ => false

/-- The parameters of a rule: upstream, at least one input, and the primal. -/
def splitParams : List Var → Option (Var × List Var × Var)
  | upstream :: rest =>
    match rest.getLast?, rest.dropLast with
    | some primal, input :: inputs => some (upstream, input :: inputs, primal)
    | _, _ => none
  | [] => none

def ofFunc (f : Func) : Except RuleFault Rule := do
  if f.returns ≠ [.real] then throw .result
  let some (upstream, inputs, primal) := splitParams f.params | throw .params
  if let some p := f.params.find? (f.varTy · ≠ .real) then throw (.paramTy (f.varName p))
  if !f.isValid then throw (.invalid f.violations)
  let some (.ret [result]) := f.body.getLast? | throw .noReturn
  if !f.body.dropLast.all isStep then throw .notStraightLine
  return ⟨f, upstream, inputs, primal, result⟩

/-- What stands for the variables of a rule where it is inlined. -/
abbrev Subst := Var → Var

def Subst.set (m : Subst) (v w : Var) : Subst := fun u => if u = v then w else m u

def Subst.setAll (m : Subst) : List (Var × Var) → Subst
  | [] => m
  | (v, w) :: rest => Subst.setAll (m.set v w) rest

/-- Inlines definitions, each into a new variable. -/
def inlineSteps (f : Func) : Block → Subst → Locals → Block × Subst × Locals
  | [], m, l => ([], m, l)
  | .define dst _ e :: ss, m, l =>
    let info := f.info dst
    let (v, l) := l.declare info.name info.ty false
    let (stmts, m', l) := inlineSteps f ss (m.set dst v) l
    (.define v true (e.mapVars m) :: stmts, m', l)
  | _ :: ss, m, l => inlineSteps f ss m l

/-- Inlines the rule. Returns its definitions, the variable that holds the
contribution, and the grown variable table. -/
def inline (r : Rule) (l : Locals) (upstream : Var) (inputs : List Var) (primal : Var) :
    Block × Var × Locals :=
  let start : Subst := Subst.setAll ((Subst.set id r.upstream upstream).set r.primal primal)
    (r.inputs.zip inputs)
  let (stmts, m, l) := inlineSteps r.func r.func.body start l
  (stmts, m r.result, l)

end Rule

/-- An operation that can be differentiated: a rule for each input, and the
operation that folds a contribution into an accumulator. -/
structure Node where
  name : String
  /-- The path of the operation, for instance `nn.soft_plus`. -/
  qualified : String
  arity : Nat
  rules : List Rule
  pushback : Opcode := .fadd

namespace Node

/-- Whether a rule of an active input satisfies `p`. -/
def anyActive (n : Node) (active : List Bool) (p : Rule → Bool) : Bool :=
  (n.rules.zip active).any fun (r, a) => a && p r

/-- Whether the rule of an active input reads the primal. -/
def primalReferenced (n : Node) (active : List Bool) : Bool := n.anyActive active Rule.readsPrimal

/-- For every input, whether the rule of an active input reads it. -/
def inputsReferenced (n : Node) (active : List Bool) : List Bool :=
  (List.range n.arity).map fun i => n.anyActive active (·.readsInput i)

end Node

end Backsweep
