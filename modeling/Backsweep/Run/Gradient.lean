import Backsweep.Run.Machine

/-!
# Gradients by graph

Runs a function while recording a derivative graph, and sweeps the graph.
-/

namespace Backsweep

/-- What a derivative is taken by: a parameter, or a field of the record that
a parameter holds. -/
inductive Wrt where
  | param (index : Nat)
  | property (index : Nat) (field : String)
deriving DecidableEq

structure Gradient (R : Type) where
  value : R
  derivative : R

variable {R : Type}

/-- The arguments and the graph a gradient starts from. -/
def Wrt.seed (wrt : Wrt) (args : List (Value R)) (heap : Heap R) :
    Except RunError (List (Slot R) × Graph R) := do
  let slots := args.map fun value => { value }
  match wrt with
  | .param i =>
    let some arg := args[i]? | throw (.arity (i + 1) args.length)
    discard arg.toReal
    return (slots.set i { value := arg, node := some Graph.seed }, Graph.seeded)
  | .property i field =>
    let some arg := args[i]? | throw (.arity (i + 1) args.length)
    let handle ← arg.toObj
    discard (← heap.load handle field).toReal
    return (slots, Graph.seeded.setField handle field (some Graph.seed))

variable [Scalar R]

/-- The first result and its derivative by the seed. -/
def Gradient.ofResult (vals : List (Slot R)) (graph : Option (Graph R)) :
    Except RunError (Gradient R) := do
  let some output := vals.head? | throw .missingReturn
  let value ← output.value.toReal
  match output.node, graph with
  | some node, some g => return { value, derivative := g.derivative node Graph.seed }
  | _, _ => return { value, derivative := Scalar.lit 0.0 }

/-- The first result of the function and its derivative. -/
def Job.gradient (j : Job R) (args : List (Value R)) (wrt : Wrt) :
    EStateM RunError (World R) (Gradient R) := fun world =>
  match wrt.seed args world.heap with
  | .error e => .error e world
  | .ok (slots, graph) =>
    match j.runSlots slots { Machine.new j.func world with graph := some graph } with
    | .error e m => .error e m.world
    | .ok vals m =>
      match Gradient.ofResult vals m.graph with
      | .ok g => .ok g m.world
      | .error e => .error e m.world

end Backsweep
