import Backsweep.Diff.Input
import Backsweep.Diff.Rule
import Backsweep.Syntax.Printer

/-!
# Plans

A plan is a function body split into the kinds of step that have a reverse of
their own. Code without effect on derivatives is kept verbatim, in runs as
long as possible.
-/

namespace Backsweep

/-- How the reverse section gets a value that a rule reads. -/
inductive Checkpoint where
  /-- It is not read. -/
  | unused
  /-- From its variable, which is immutable and in scope everywhere. -/
  | direct
  /-- From the value tape, to which the forward section pushed it. -/
  | saved
deriving DecidableEq

/-- A definition whose derivative is given by the rules of a node. -/
structure ActiveCall where
  dst : Var
  decl : Bool
  expr : Expr
  node : Node
  activeArgs : List Bool
  args : List Checkpoint
  primal : Checkpoint

/-- Distinct members, each at its first place. -/
def firsts : List Var → List Var
  | [] => []
  | v :: vs => v :: (firsts vs).filter (· ≠ v)

namespace ActiveCall

def argVars (c : ActiveCall) : List Var := c.expr.uses

/-- The distinct arguments that are pushed before the call, in order. -/
def savedArgs (c : ActiveCall) : List Var :=
  firsts (((c.argVars.zip c.args).filter (·.2 = .saved)).map (·.1))

end ActiveCall

/-- Where an active variable gets its value from. -/
inductive Source where
  | var (v : Var)
  | field (obj : Var) (field : String)
  | tape (t : Tape)

def Source.expr : Source → Expr
  | var v => .copy v
  | field obj f => .load obj f
  | tape t => .pop t

inductive Step where
  /-- Code without effect on derivatives. Where it assigns to an active
  variable, the adjoint so far is dropped. -/
  | inert (run : List Stmt)
  | call (c : ActiveCall)
  | assign (dst : Var) (decl : Bool) (src : Source) (active : Bool)
  /-- A push onto a tape that carries active values. -/
  | tapeWrite (tape : Tape) (val : Var) (active : Bool)
  /-- A block with the active variables it declares. -/
  | block (body : List Var × List Step)
  /-- Branches are numbered from 0 in order; the last one is `other`. -/
  | cond (arms : List (Var × List Var × List Step)) (other : List Var × List Step)
  /-- A loop with a negative number of its own. -/
  | loop (id : Int) (header : Block) (test : Var) (body : List Var × List Step)

/-- The active variables that a block declares directly, and its steps. -/
abbrev Section := List Var × List Step

structure Plan where
  input : ActiveInput
  body : Section
  /-- The variable that is returned. -/
  ret : Var
  /-- Whether it depends on the input. -/
  retActive : Bool

/-! ## Outlines

The steps of a plan mean some things by the place they stand at. Its outline says them: it
has the statements of runs one by one, an index for every branch, and the return. -/

namespace Outline

/-- A block with the active variables it declares directly. A virtual one only groups the
statements of a run. -/
structure Frame (α : Type) where
  isVirtual : Bool
  decls : List Var
  items : List α

/-- A branch of a conditional. The `else` branch has no test. -/
structure Branch (α : Type) where
  index : Nat
  test : Option Var
  body : Frame α

inductive Item where
  | constant (s : Stmt)
  | call (c : ActiveCall)
  | assign (dst : Var) (decl : Bool) (src : Source) (active : Bool)
  | tapeWrite (tape : Tape) (val : Var) (active : Bool)
  | block (body : Frame Item)
  | cond (branches : List (Branch Item))
  | loop (id : Int) (header : Block) (test : Var) (body : Frame Item)
  | ret (v : Var)

mutual

def ofStep : Step → Item
  | .inert run => .block ⟨true, [], run.map .constant⟩
  | .call c => .call c
  | .assign dst decl src active => .assign dst decl src active
  | .tapeWrite t val active => .tapeWrite t val active
  | .block (decls, steps) => .block ⟨false, decls, ofSteps steps⟩
  | .cond arms (decls, steps) =>
    .cond (ofArms 0 arms ++ [⟨arms.length, none, ⟨false, decls, ofSteps steps⟩⟩])
  | .loop id header test (decls, steps) => .loop id header test ⟨false, decls, ofSteps steps⟩

def ofSteps : List Step → List Item
  | [] => []
  | s :: ss => ofStep s :: ofSteps ss

/-- The branches of arms, the first of which has the given index. -/
def ofArms (index : Nat) : List (Var × List Var × List Step) → List (Branch Item)
  | [] => []
  | (test, decls, steps) :: arms =>
    ⟨index, some test, ⟨false, decls, ofSteps steps⟩⟩ :: ofArms (index + 1) arms

end

end Outline

/-- What a plan consists of, down to the last statement. -/
abbrev Outline := Outline.Frame Outline.Item

def Plan.outline (p : Plan) : Outline :=
  ⟨false, p.body.1, Outline.ofSteps p.body.2 ++ [.ret p.ret]⟩

namespace Outline

def inertMark (active : Bool) : String := if active then "" else " [inert]"

def callText (f : Func) (c : ActiveCall) : String :=
  let active := (c.argVars.zip c.activeArgs).filterMap fun (v, a) =>
    if a then some (" " ++ f.varName v) else none
  let saved := if c.savedArgs.isEmpty then "" else "; saved " ++ f.argsText c.savedArgs
  let primal := match c.primal with
    | .unused => ""
    | .direct => "; primal"
    | .saved => "; saved primal"
  "call " ++ f.varName c.dst ++ " = " ++ f.exprText c.expr ++ " [" ++ c.node.name ++ "; active" ++
    String.join active ++ saved ++ primal ++ "]"

def sourceText (f : Func) : Source → String
  | .var v => f.varName v
  | .field obj field => f.varName obj ++ "." ++ field
  | .tape t => "pop " ++ t.text

/-- `block [decls]` before the braces. -/
def headText (f : Func) (isVirtual : Bool) (decls : List Var) : String :=
  (if isVirtual then "virtual" else "block") ++
    (if decls.isEmpty then "" else " [" ++ f.argsText decls ++ "]") ++ " "

def testText (f : Func) : Option Var → String
  | some test => "if " ++ f.varName test
  | none => "else"

mutual

def itemText (f : Func) (indent : Nat) : Item → String
  | .constant s => "const " ++ f.stmtText indent s
  | .call c => callText f c
  | .assign dst _ src active =>
    "assign " ++ f.varName dst ++ " = " ++ sourceText f src ++ inertMark active
  | .tapeWrite t val active => "write " ++ t.text ++ ", " ++ f.varName val ++ inertMark active
  | .block body => frameText f indent body
  | .cond branches => branchesText f indent branches
  | .loop id _ test body =>
    "loop #" ++ toString id ++ " while " ++ f.varName test ++ " " ++ frameText f indent body
  | .ret v => "return " ++ f.varName v

def frameText (f : Func) (indent : Nat) : Frame Item → String
  | ⟨isVirtual, decls, items⟩ =>
    headText f isVirtual decls ++ braced indent (itemsText f (indent + 4) items)

def itemsText (f : Func) (indent : Nat) : List Item → String
  | [] => ""
  | i :: is => pad indent ++ itemText f indent i ++ "\n" ++ itemsText f indent is

def branchesText (f : Func) (indent : Nat) : List (Branch Item) → String
  | [] => ""
  | ⟨index, test, body⟩ :: rest =>
    testText f test ++ " #" ++ toString index ++ " " ++ frameText f indent body ++
      (if rest.isEmpty then "" else " ") ++ branchesText f indent rest

end

end Outline

def Plan.text (p : Plan) (f : Func) : String := Outline.frameText f 0 p.outline

end Backsweep
