import Backsweep.Diff.Level
import Backsweep.Diff.Plan

/-!
# The forward section

Replays the function. Before a call it saves the arguments that the reverse
section will need, and behind it the result. A branch ends by recording its
index, a round of a loop by recording the number of the loop.
-/

namespace Backsweep.Level

def forwardCall (l : Level) (c : ActiveCall) : Block :=
  c.savedArgs.map (.push l.values) ++ .define c.dst c.decl c.expr ::
    (if c.primal = .saved then [.push l.values c.dst] else [])

def record (l : Level) (decision : Int) : Stmt := .pushDecision l.decisions decision

mutual

def forwardStep (l : Level) : Step → Block
  | .inert run => run
  | .call c => l.forwardCall c
  | .assign dst decl src _ => [.define dst decl src.expr]
  | .tapeWrite t val _ => [.push t val]
  | .block (_, steps) => [.block (l.forwardSteps steps)]
  | .cond arms (_, steps) =>
    [.cond (l.forwardArms 0 arms) (l.forwardSteps steps ++ [l.record arms.length])]
  | .loop id header test (_, steps) => [.loop header test (l.forwardSteps steps ++ [l.record id])]

def forwardSteps (l : Level) : List Step → Block
  | [] => []
  | s :: ss => l.forwardStep s ++ l.forwardSteps ss

/-- The arms of a conditional, the first of which has the given index. -/
def forwardArms (l : Level) (index : Nat) :
    List (Var × List Var × List Step) → List (Var × Block)
  | [] => []
  | (test, _, steps) :: arms =>
    (test, l.forwardSteps steps ++ [l.record index]) :: l.forwardArms (index + 1) arms

end

end Backsweep.Level

namespace Backsweep

mutual

/-- The numbers of the loops in a step, outer ones first. -/
def Step.loopIds : Step → List Int
  | .block (_, steps) => stepsLoopIds steps
  | .cond arms (_, steps) => armsLoopIds arms ++ stepsLoopIds steps
  | .loop id _ _ (_, steps) => id :: stepsLoopIds steps
  | .inert _ | .call _ | .assign _ _ _ _ | .tapeWrite _ _ _ => []

def stepsLoopIds : List Step → List Int
  | [] => []
  | s :: ss => s.loopIds ++ stepsLoopIds ss

def armsLoopIds : List (Var × List Var × List Step) → List Int
  | [] => []
  | (_, _, steps) :: arms => stepsLoopIds steps ++ armsLoopIds arms

end

end Backsweep
