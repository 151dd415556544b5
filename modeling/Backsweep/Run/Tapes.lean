import Backsweep.Run.Value

/-!
# Tapes

The stacks of a run, each with the number of its pushes and pops.
-/

namespace Backsweep

/-- A value and, if it depends on the seed of a gradient, its node in the graph. -/
structure Slot (R : Type) where
  value : Value R
  node : Option Nat := none

/-- The values of slots. -/
def Slot.values {R : Type} : List (Slot R) → List (Value R)
  | [] => []
  | s :: ss => s.value :: values ss

/-- The contents of a tape, top first, and its counters. -/
structure TapeCell (R : Type) where
  stack : List (Slot R) := []
  pushes : Nat := 0
  pops : Nat := 0

def TapeCell.push {R : Type} (c : TapeCell R) (s : Slot R) : TapeCell R :=
  { c with stack := s :: c.stack, pushes := c.pushes + 1 }

/-- The tapes used so far, in order of their first push. -/
abbrev Tapes (R : Type) := List (Tape × TapeCell R)

namespace Tapes

variable {R : Type}

/-- An unused tape is empty. -/
def cell (ts : Tapes R) (t : Tape) : TapeCell R := (ts.lookup t).getD {}

def put (ts : Tapes R) (t : Tape) (c : TapeCell R) : Tapes R :=
  match ts with
  | [] => [(t, c)]
  | (u, d) :: rest => if u = t then (t, c) :: rest else (u, d) :: Tapes.put rest t c

def push (ts : Tapes R) (t : Tape) (s : Slot R) : Tapes R :=
  match ts with
  | [] => [(t, TapeCell.push {} s)]
  | (u, c) :: rest => if u = t then (u, c.push s) :: rest else (u, c) :: Tapes.push rest t s

/-- The top of a tape and the tapes without it. An empty tape stays as it is. -/
def pop? (ts : Tapes R) (t : Tape) : Option (Slot R × Tapes R) :=
  let c := ts.cell t
  match c.stack with
  | [] => none
  | s :: stack => some (s, ts.put t { c with stack, pops := c.pops + 1 })

/-- Whether the top of a tape is the given decision. -/
def topIs (ts : Tapes R) (t : Tape) (decision : Int) : Bool :=
  match (ts.cell t).stack with
  | ⟨.int n, _⟩ :: _ => n == decision
  | _ => false

/-- Whether all tapes are empty. -/
def isBalanced (ts : Tapes R) : Bool := ts.all (·.2.stack.isEmpty)

/-- The tapes used so far, by kind and level. -/
def sorted (ts : Tapes R) : List (Tape × TapeCell R) := ts.mergeSort fun a b => a.1.le b.1

end Tapes

end Backsweep
