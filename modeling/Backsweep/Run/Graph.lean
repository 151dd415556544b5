import Backsweep.Run.Tapes

/-!
# Derivative graphs

A run can record how every real it computes depends on a seed: a node holds
the nodes it was computed from and the partial derivative by each of them. A
sweep from the result back to the seed then sums the derivative.
-/

namespace Backsweep

structure Graph (R : Type) where
  /-- The parents of every node, all of them older. -/
  parents : Array (List (Nat × R)) := #[]
  /-- The nodes of record fields that depend on the seed. -/
  fields : List ((Nat × String) × Nat) := []

namespace Graph

variable {R : Type}

/-- The node of the seed. -/
def seed : Nat := 0

/-- The graph of a seed alone. -/
def seeded : Graph R := { parents := #[[]] }

/-- Adds a node computed from `args`, unless none of them depends on the seed. -/
def record (g : Graph R) (args : List (Slot R)) (partials : List R) : Option Nat × Graph R :=
  match (args.zip partials).filterMap fun (arg, d) => arg.node.map (·, d) with
  | [] => (none, g)
  | parents => (some g.parents.size, { g with parents := g.parents.push parents })

def field? (g : Graph R) (handle : Nat) (field : String) : Option Nat :=
  g.fields.lookup (handle, field)

def setField (g : Graph R) (handle : Nat) (field : String) (node : Option Nat) : Graph R :=
  let others := g.fields.filter (·.1 != (handle, field))
  match node with
  | some n => { g with fields := ((handle, field), n) :: others }
  | none => { g with fields := others }

variable [Scalar R]

/-- Adds `a` times a partial derivative to the adjoint of a parent. -/
def contribute (a : R) (adjoints : Array R) (parent : Nat × R) : Array R :=
  adjoints.modify parent.1 (Scalar.add · (Scalar.mul a parent.2))

/-- Hands the adjoint of a node on to its parents. -/
def sweepNode (g : Graph R) (adjoints : Array R) (node : Nat) : Array R :=
  let a := adjoints.getD node (Scalar.lit 0.0)
  if Scalar.isZero a then adjoints
  else (g.parents.getD node []).foldl (contribute a) adjoints

/-- Visits `node` and all older nodes, from young to old. -/
def sweep (g : Graph R) : Nat → Array R → Array R
  | 0, adjoints => g.sweepNode adjoints 0
  | node + 1, adjoints => g.sweep node (g.sweepNode adjoints (node + 1))

/-- The derivative of node `output` by node `input`. -/
def derivative (g : Graph R) (output input : Nat) : R :=
  let zero : R := Scalar.lit 0.0
  let adjoints := (Array.replicate (output + 1) zero).setIfInBounds output (Scalar.lit 1.0)
  (g.sweep output adjoints).getD input zero

end Graph

end Backsweep
