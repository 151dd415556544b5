import Backsweep.Run.Graph
import Backsweep.Run.Operation

/-!
# Running functions

A machine holds the state of running one function: its variables, tapes and
step count, the records it shares with its caller, and the derivative graph
if one is recorded. The state outlives a run, also one that fails. Loops are
bounded by the step limit, so every run ends.
-/

namespace Backsweep

/-- A derivative that was computed with a graph while a module ran. -/
structure DynamicDerivative (R : Type) where
  primal : String
  derivative : R
  value : R

/-- What a run shares with its caller: the records, and the derivatives
computed with a graph so far. -/
structure World (R : Type) where
  heap : Heap R := {}
  trace : Array (DynamicDerivative R) := #[]

/-- The operations outside of a function. -/
structure Externs (R : Type) where
  call : String → List (Value R) → EStateM RunError (World R) (Value R)
  /-- The partial derivatives of a call by its arguments, if they are known. -/
  partials : String → List (Value R) → StateM (Array (DynamicDerivative R)) (Option (List R))

def Externs.none {R : Type} : Externs R where
  call name _ := throw (.unknownExtern name)
  partials _ _ := return .none

structure Machine (R : Type) where
  vars : Array (Option (Slot R))
  tapes : Tapes R := []
  world : World R := {}
  graph : Option (Graph R) := none
  /-- The loop rounds started so far. -/
  steps : Nat := 0

/-- A machine for `f` that has not run yet. -/
def Machine.new {R : Type} (f : Func) (world : World R) : Machine R :=
  { vars := Array.replicate f.vars.size none, world }

abbrev Exec (R : Type) := EStateM RunError (Machine R)

/-- What a machine runs: a function, the operations around it, and the number
of loop rounds that may be started. -/
structure Job (R : Type) where
  func : Func
  externs : Externs R := .none
  limit : Nat := 10000000

/-- How a block ends: at its end, or by returning. -/
inductive Flow (R : Type) where
  | next
  | ret (vals : List (Slot R))

namespace Job

variable {R : Type}

@[inline] def ofExcept {α : Type} : Except RunError α → Exec R α
  | .ok x => pure x
  | .error e => throw e

@[inline] def read (j : Job R) (v : Var) : Exec R (Slot R) := do
  match (← get).vars.getD v.idx none with
  | some s => return s
  | none => throw (.undefinedVar (j.func.varName v))

/-- Reads variables from left to right. -/
def readAll (j : Job R) : List Var → Exec R (List (Slot R))
  | [] => return []
  | v :: vs => do
    let s ← j.read v
    return s :: (← j.readAll vs)

@[inline] def readBool (j : Job R) (v : Var) : Exec R Bool := do ofExcept (← j.read v).value.toBool

@[inline] def readObj (j : Job R) (v : Var) : Exec R Nat := do ofExcept (← j.read v).value.toObj

@[inline] def write (v : Var) (s : Slot R) : Exec R Unit :=
  modify fun m => { m with vars := m.vars.setIfInBounds v.idx (some s) }

@[inline] def push (tape : Tape) (s : Slot R) : Exec R Unit :=
  modify fun m => { m with tapes := m.tapes.push tape s }

@[inline] def pop (tape : Tape) : Exec R (Slot R) := do
  let m ← get
  match m.tapes.pop? tape with
  | some (s, tapes) =>
    set { m with tapes }
    return s
  | none => throw (.emptyTape tape)

/-- Starts a loop round. -/
@[inline] def tick (j : Job R) : Exec R Unit := do
  modify fun m => { m with steps := m.steps + 1 }
  if j.limit < (← get).steps then throw .stepLimit

/-- Runs an action on the part of the machine that is shared with the caller. -/
def onWorld {α : Type} (act : EStateM RunError (World R) α) : Exec R α := fun m =>
  match act m.world with
  | .ok x world => .ok x { m with world }
  | .error e world => .error e { m with world }

def load (handle : Nat) (field : String) : Exec R (Slot R) := do
  let m ← get
  let value ← ofExcept (m.world.heap.load handle field)
  return { value, node := m.graph.bind (·.field? handle field) }

def store (handle : Nat) (field : String) (s : Slot R) : Exec R Unit := do
  let m ← get
  let heap ← ofExcept (m.world.heap.store handle field s.value)
  set { m with
    world := { m.world with heap }
    graph := m.graph.map fun (g : Graph R) => g.setField handle field s.node }

/-- Records a node, if the machine records a graph at all. -/
def record (args : List (Slot R)) (partials : List R) : Exec R (Option Nat) := do
  let m ← get
  match m.graph with
  | none => return none
  | some g =>
    let (node, g) := g.record args partials
    set { m with graph := some g }
    return node

@[inline] def recording : Exec R Bool := return (← get).graph.isSome

def call (j : Job R) (callee : String) (args : List (Slot R)) : Exec R (Slot R) := do
  let values := Slot.values args
  let value ← onWorld (j.externs.call callee values)
  if (← recording) && value.ty == .real && args.any (·.node.isSome) then
    let m ← get
    let (partials, trace) := j.externs.partials callee values m.world.trace
    set { m with world := { m.world with trace } }
    match partials with
    | some partials => return { value, node := ← record args partials }
    | none => throw (.notDifferentiable callee)
  return { value }

/-- Sets variables from left to right. -/
def writeAll : List (Var × Slot R) → Exec R Unit
  | [] => return ()
  | (v, s) :: rest => do
    write v s
    writeAll rest

/-- Runs `header`, then `body` while `test` holds. -/
def whileRounds (j : Job R) (header : Exec R (Flow R)) (test : Exec R Bool)
    (body : Exec R (Flow R)) : Nat → Exec R (Flow R)
  | 0 => throw .stepLimit
  | n + 1 => do
    j.tick
    match ← header with
    | .ret vals => return .ret vals
    | .next =>
      if ← test then
        match ← body with
        | .ret vals => return .ret vals
        | .next => j.whileRounds header test body n
      else return .next

/-- Runs `body` until `test` fails. -/
def doRounds (j : Job R) (body : Exec R (Flow R)) (test : Exec R Bool) : Nat → Exec R (Flow R)
  | 0 => throw .stepLimit
  | n + 1 => do
    j.tick
    match ← body with
    | .ret vals => return .ret vals
    | .next => if ← test then j.doRounds body test n else return .next

/-- As many rounds as can be started, and the one that exceeds the limit. -/
def roundsLeft (j : Job R) : Exec R Nat := return j.limit - (← get).steps + 1

variable [Scalar R]

@[inline] def operate (opcode : Opcode) (args : List (Slot R)) : Exec R (Slot R) := do
  let values := Slot.values args
  let value ← ofExcept (opcode.eval values)
  if (← recording) && opcode.isDifferentiable then
    let partials ← ofExcept (value.toReal.bind (opcode.partials values))
    return { value, node := ← record args partials }
  return { value }

def eval (j : Job R) : Expr → Exec R (Slot R)
  | .const c => return { value := .ofConst c }
  | .copy v => j.read v
  | .load obj field => do load (← j.readObj obj) field
  | .op opcode args => do operate opcode (← j.readAll args)
  | .call callee args _ => do j.call callee (← j.readAll args)
  | .pop tape => pop tape
  | .topIs tape decision => return { value := .bool ((← get).tapes.topIs tape decision) }

mutual

def exec (j : Job R) : Stmt → Exec R (Flow R)
  | .define dst _ e => do
    write dst (← j.eval e)
    return .next
  | .store obj field val => do
    let handle ← j.readObj obj
    store handle field (← j.read val)
    return .next
  | .cond arms other => j.execArms arms (j.execBlock other)
  | .loop header test body => do
    j.whileRounds (j.execBlock header) (j.readBool test) (j.execBlock body) (← j.roundsLeft)
  | .doLoop body test => do j.doRounds (j.execBlock body) (j.readBool test) (← j.roundsLeft)
  | .block body => j.execBlock body
  | .push tape val => do
    push tape (← j.read val)
    return .next
  | .pushDecision tape decision => do
    push tape { value := .int decision }
    return .next
  | .unreachable => throw .unreachable
  | .ret vals => return .ret (← j.readAll vals)

def execBlock (j : Job R) : List Stmt → Exec R (Flow R)
  | [] => return .next
  | s :: ss => do
    match ← j.exec s with
    | .ret vals => return .ret vals
    | .next => j.execBlock ss

def execArms (j : Job R) : List (Var × List Stmt) → Exec R (Flow R) → Exec R (Flow R)
  | [], other => other
  | (test, body) :: arms, other => do
    if ← j.readBool test then j.execBlock body else j.execArms arms other

end

/-- Runs the function on arguments that may depend on a seed. -/
def runSlots (j : Job R) (args : List (Slot R)) : Exec R (List (Slot R)) := do
  if args.length ≠ j.func.params.length then throw (.arity j.func.params.length args.length)
  writeAll (j.func.params.zip args)
  match ← j.execBlock j.func.body with
  | .ret vals => return vals
  | .next => throw .missingReturn

/-- Runs the function. -/
def run (j : Job R) (args : List (Value R)) : Exec R (List (Value R)) := do
  return Slot.values (← j.runSlots (args.map ({ value := · })))

/-- Runs the function on a new machine. -/
def runFresh (j : Job R) (args : List (Value R)) : EStateM RunError (World R) (List (Value R)) :=
  fun world =>
    match j.run args (.new j.func world) with
    | .ok vals m => .ok vals m.world
    | .error e m => .error e m.world

end Job

end Backsweep
