import Backsweep.Diff.Event
import Backsweep.Diff.Rule
import Backsweep.Text.Camel

/-!
# The catalogue of nodes

Nodes are added with the rules in a text: `%<node>.d<i>` is the rule of input
`i`. An expression finds its node by an explicit link, by the path of its
callee, or by the node name derived from the callee.
-/

namespace Backsweep

/-- The nodes known, in order of registration, and where the node of a path and the
nodes of a name stand among them. -/
structure Catalogue where
  nodes : List Node := []
  paths : List (String × Nat) := []
  names : List (String × List Nat) := []

/-- The part of a path behind its last point. -/
def lastSegment (path : String) : String :=
  String.ofList (path.toList.reverse.takeWhile (· != '.')).reverse

/-- `nn.soft_plus` is the node `SoftPlusNode`. -/
def nodeName (qualified : String) : String := Text.camelCase (lastSegment qualified) ++ "Node"

namespace Catalogue

/-- Largest number of an input that can be written. -/
def maxInput : Nat := 0xffffffffffffffff

/-- Splits `<node>.d<input>`. -/
def splitRuleName (name : String) : Option (String × Nat) :=
  match (lastSegment name).toList, name.toList.reverse.dropWhile (· != '.') with
  | 'd' :: ds, _ :: qualified =>
    if !ds.isEmpty && ds.all Char.isDigit && Token.natOf ds ≤ maxInput then
      some (String.ofList qualified.reverse, Token.natOf ds)
    else none
  | _, _ => none

/-- The rules of one node, by input. -/
abbrev Group := String × List (Nat × Func)

/-- Inserts a rule behind those of the same or a lower input. -/
def insertRule (rule : Nat × Func) : List (Nat × Func) → List (Nat × Func)
  | [] => [rule]
  | r :: rest => if rule.1 < r.1 then rule :: r :: rest else r :: insertRule rule rest

/-- Adds a rule to the group of its node. -/
def addToGroup (node : String) (rule : Nat × Func) : List Group → List Group
  | [] => [(node, [rule])]
  | (n, rules) :: rest =>
    if n = node then (n, insertRule rule rules) :: rest else (n, rules) :: addToGroup node rule rest

/-- Groups functions by node, in order of their first rule. -/
def group : List Func → List Group → Except DiffError (List Group)
  | [], groups => .ok groups
  | f :: fs, groups =>
    match splitRuleName f.name with
    | some (node, input) => group fs (addToGroup node (input, f) groups)
    | none => .error (.catalogue f.name .name)

/-- Checks the rules of a node with `arity` inputs, the next one being `input`. -/
def rulesFrom (arity : Nat) : Nat → List (Nat × Func) → Except RuleFault (List Rule)
  | _, [] => .ok []
  | input, (i, f) :: rest => do
    if i ≠ input then throw (.wrongInput input)
    if f.params.length ≠ arity + 2 then throw .inputCount
    let rule ← Rule.ofFunc f
    return rule :: (← rulesFrom arity (input + 1) rest)

/-- The node of a group of rules. -/
def nodeOf (qualified : String) (rules : List (Nat × Func)) : Except RuleFault Node := do
  let arity := match rules with
    | (_, f) :: _ => f.params.length - 2
    | [] => 0
  let checked ← rulesFrom arity 0 rules
  if checked.length ≠ arity then throw (.missingRule checked.length)
  return { name := nodeName qualified, qualified, arity, rules := checked }

/-- Adds a position to those of a name. -/
def addName (name : String) (position : Nat) : List (String × List Nat) → List (String × List Nat)
  | [] => [(name, [position])]
  | (n, positions) :: rest =>
    if n = name then (n, positions ++ [position]) :: rest
    else (n, positions) :: addName name position rest

/-- Enters a node in all tables. -/
def register (c : Catalogue) (node : Node) : Catalogue where
  nodes := c.nodes ++ [node]
  paths := c.paths ++ [(node.qualified, c.nodes.length)]
  names := addName node.name c.nodes.length c.names

def find? (c : Catalogue) (qualified : String) : Option Node :=
  (c.paths.lookup qualified).bind (c.nodes[·]?)

def named (c : Catalogue) (name : String) : List Node :=
  ((c.names.lookup name).getD []).filterMap (c.nodes[·]?)

/-- The nodes by path. -/
def listed (c : Catalogue) : List Node := c.paths.filterMap (c.nodes[·.2]?)

abbrev Update := EStateM DiffError Catalogue

/-- Registers a node, unless its path is taken. -/
def addGroup (g : Group) : Update Unit := do
  let c ← get
  if (c.paths.lookup g.1).isSome then throw (.catalogue g.1 .nodeRedefined)
  match nodeOf g.1 g.2 with
  | .ok node => set (c.register node)
  | .error fault => throw (.catalogue g.1 fault)

def addGroups : List Group → Update Unit
  | [] => return ()
  | g :: gs => do
    addGroup g
    addGroups gs

/-- Registers the rules in a list of functions. Nodes before a faulty one stay. -/
def addFuncs (fs : List Func) : Update Unit := do
  match group fs [] with
  | .ok groups => addGroups groups
  | .error e => throw e

/-- Registers the rules in a text. -/
def addText (src : String) : Update Unit := do
  match Func.readAll src with
  | .ok fs => addFuncs fs
  | .error e => throw (.catalogue "<catalog>" (.unreadable e))

/-- The only node of a name. -/
def unique (c : Catalogue) (callee name : String) : Except DiffError (Option Node) :=
  match c.named name with
  | [] => .ok none
  | [node] => .ok (some node)
  | nodes => .error (.ambiguousNode callee (nodes.map (·.qualified)))

/-- The node that differentiates a target, none if there is no rule for it. -/
def find (c : Catalogue) : Target → Except DiffError (Option Node)
  | .op opcode => .ok (c.find? ("math." ++ opcode.name))
  | .call callee (some link) => do
    match ← c.unique callee link with
    | some node => return some node
    | none => throw (.unknownNode link)
  | .call callee none =>
    match c.find? callee with
    | some node => .ok (some node)
    | none => c.unique callee (nodeName callee)

end Catalogue

/-- Answers that were found before, and what happened so far. -/
structure Resolver where
  memo : List (Target × Option Node) := []
  events : Array Event := #[]

namespace Resolver

/-- Finds the node of a target, looking it up only once. -/
def resolveTarget (c : Catalogue) (t : Target) : EStateM DiffError Resolver (Option Node) := do
  let r ← get
  match r.memo.lookup t with
  | some answer => return answer
  | none =>
    match c.find t with
    | .error e => throw e
    | .ok answer =>
      let events := match answer with
        | some node => r.events.push (.resolved t node.name)
        | none => r.events
      set { memo := (t, answer) :: r.memo, events : Resolver }
      return answer

/-- Finds the node of an expression, none if it is not an operation or a call. -/
def resolve (c : Catalogue) (e : Expr) : EStateM DiffError Resolver (Option Node) :=
  match Target.ofExpr? e with
  | some t => resolveTarget c t
  | none => return none

end Resolver

end Backsweep
