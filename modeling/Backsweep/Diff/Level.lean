import Backsweep.Syntax.Func

/-!
# Levels

Every derivative has a level, which names its tapes. A new level is above all
levels handed out before, and above the tapes that the differentiated function
already uses, so derivatives never share tapes.
-/

namespace Backsweep

structure Level where
  val : Nat
deriving DecidableEq

namespace Level

def values (l : Level) : Tape := ⟨.values, l.val⟩

def decisions (l : Level) : Tape := ⟨.decisions, l.val⟩

def adjoints (l : Level) : Tape := ⟨.adjoints, l.val⟩

/-- Whether a level was handed out later. -/
def isNestedIn (l outer : Level) : Bool := outer.val < l.val

end Level

mutual

/-- The tapes a statement mentions. -/
def Stmt.tapes : Stmt → List Tape
  | .define _ _ e => e.tape?.toList
  | .push t _ => [t]
  | .pushDecision t _ => [t]
  | .cond arms other => armsTapes arms ++ blockTapes other
  | .loop header _ body => blockTapes header ++ blockTapes body
  | .doLoop body _ => blockTapes body
  | .block body => blockTapes body
  | .store _ _ _ | .unreachable | .ret _ => []

def blockTapes : List Stmt → List Tape
  | [] => []
  | s :: ss => s.tapes ++ blockTapes ss

def armsTapes : List (Var × List Stmt) → List Tape
  | [] => []
  | (_, body) :: arms => blockTapes body ++ armsTapes arms

end

/-- Levels have 32 bits. The one after the last is 0. -/
def nextLevel (n : Nat) : Nat := (n + 1) % 0x100000000

/-- The highest of the levels of tapes. -/
def highestLevel : List Tape → Option Nat
  | [] => none
  | t :: ts => some (max t.level ((highestLevel ts).getD 0))

/-- The level after those of the given tapes, the lowest one if there are none. -/
def levelAbove (tapes : List Tape) : Nat := ((highestLevel tapes).map nextLevel).getD 0

/-- What the derivatives generated together share. -/
structure Context where
  /-- The least level that can be handed out. -/
  next : Nat := 1
  /-- Where accumulators start. -/
  zero : Float := 0.0
  /-- The derivative of a value by itself. -/
  one : Float := 1.0

/-- A level for a derivative of the function. -/
def Context.fresh (c : Context) (f : Func) : Level × Context :=
  let level := max c.next (levelAbove (blockTapes f.body))
  (⟨level⟩, { c with next := nextLevel level })

end Backsweep
