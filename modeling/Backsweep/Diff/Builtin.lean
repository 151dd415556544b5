import Backsweep.Diff.Catalogue

/-!
# Rules of the primitive operations
-/

namespace Backsweep

namespace Builtin

/-- A rule `%math.<op>.d<input>(upstream, inputs.., primal)` whose steps are
named definitions. The last one is the contribution; without any it is
`upstream` itself. -/
def rule (op : Opcode) (input : Nat) (inputs : List String) (steps : List (String × Expr)) : Func :=
  let real (name : String) : VarInfo := ⟨name, .real, false⟩
  let params := "upstream" :: inputs ++ ["primal"]
  let first := params.length
  let result : Var := if steps.isEmpty then ⟨0⟩ else ⟨first + steps.length - 1⟩
  { name := "math." ++ op.name ++ ".d" ++ toString input
    attrs := []
    params := (List.range first).map Var.mk
    returns := [.real]
    vars := ((params ++ steps.map (·.1)).map real).toArray
    body := steps.zipIdx.map (fun (s, i) => .define ⟨first + i⟩ true s.2) ++ [.ret [result]] }

/-- Variables 0 to 2 are upstream, operand and primal, the first step is 3. -/
def unary (op : Opcode) (steps : List (String × Expr)) : Func := rule op 0 ["x"] steps

/-- Variables 0 to 3 are upstream, operands and primal, the first step is 4. -/
def binary (op : Opcode) (input : Nat) (steps : List (String × Expr)) : Func :=
  rule op input ["x", "y"] steps

def apply (op : Opcode) (args : List Nat) : Expr := .op op (args.map Var.mk)

def number (x : Float) : Expr := .const (.real x)

def rules : List Func :=
  [unary .fneg [("r", apply .fneg [0])],
    binary .fadd 0 [],
    binary .fadd 1 [],
    binary .fsub 0 [],
    binary .fsub 1 [("r", apply .fneg [0])],
    binary .fmul 0 [("r", apply .fmul [0, 2])],
    binary .fmul 1 [("r", apply .fmul [0, 1])],
    binary .fdiv 0 [("r", apply .fdiv [0, 2])],
    binary .fdiv 1
      [("q", apply .fdiv [3, 2]), ("t", apply .fmul [0, 4]), ("r", apply .fneg [5])],
    unary .sin [("c", apply .cos [1]), ("r", apply .fmul [0, 3])],
    unary .cos [("s", apply .sin [1]), ("t", apply .fmul [0, 3]), ("r", apply .fneg [4])],
    unary .tan
      [("sq", apply .fmul [2, 2]), ("one", number 1.0), ("t", apply .fadd [4, 3]),
        ("r", apply .fmul [0, 5])],
    unary .exp [("r", apply .fmul [0, 2])],
    unary .ln [("r", apply .fdiv [0, 1])],
    unary .sqrt [("two", number 2.0), ("t", apply .fmul [3, 2]), ("r", apply .fdiv [0, 4])],
    binary .pow 0
      [("one", number 1.0), ("e", apply .fsub [2, 4]), ("p", apply .pow [1, 5]),
        ("t", apply .fmul [2, 6]), ("r", apply .fmul [0, 7])],
    binary .pow 1
      [("l", apply .ln [1]), ("t", apply .fmul [3, 4]), ("r", apply .fmul [0, 5])],
    unary .tanh
      [("sq", apply .fmul [2, 2]), ("one", number 1.0), ("t", apply .fsub [4, 3]),
        ("r", apply .fmul [0, 5])]]

end Builtin

/-- The catalogue of the primitive operations. -/
def Catalogue.builtin : Catalogue :=
  match Catalogue.addFuncs Builtin.rules {} with
  | .ok _ c => c
  | .error _ c => c

end Backsweep
