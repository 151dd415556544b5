import Backsweep.Decimal.Notation
import Backsweep.Syntax.Func

/-!
# Functions as text

`Func.text` writes a function, `Func.annotated` one with a note after every
statement. Notes are written in order of completion: those of nested
statements come before the one of the statement around them.
-/

namespace Backsweep

def Const.text : Const → String
  | real x => "fconst " ++ Real64.literal x
  | int n => "iconst " ++ toString n
  | bool b => "bconst " ++ toString b

def pad (n : Nat) : String := String.ofList (List.replicate n ' ')

/-- `{ lines }` whose closing brace is indented. -/
def braced (indent : Nat) (lines : String) : String := "\x7b\n" ++ lines ++ pad indent ++ "\x7d"

def commaJoin (items : List String) : String := ", ".intercalate items

namespace Func

variable {σ : Type}

def argsText (f : Func) (args : List Var) : String := commaJoin (args.map f.varName)

/-- Operands after a word, separated from it only if there are any. -/
def operandsText (f : Func) : List Var → String
  | [] => ""
  | args => " " ++ f.argsText args

def exprText (f : Func) : Expr → String
  | .const c => c.text
  | .copy v => "copy " ++ f.varName v
  | .load v field => "load " ++ f.varName v ++ "." ++ field
  | .op opcode args => opcode.name ++ f.operandsText args
  | .call callee args node =>
    let link := match node with
      | some node => " [node " ++ node ++ "]"
      | none => ""
    "call %" ++ callee ++ "(" ++ f.argsText args ++ ")" ++ link
  | .pop tape => "pop " ++ tape.text
  | .topIs tape decision => "top_is " ++ tape.text ++ ", " ++ toString decision

def dstText (f : Func) (dst : Var) (decl : Bool) : String :=
  let info := f.info dst
  if decl then "let " ++ (if info.mutable then "mut " else "") ++ info.name ++ ": " ++ info.ty.name
  else info.name

mutual

/-- A statement without its indentation, note and line end. -/
def stmtTextM (f : Func) (note : Stmt → StateM σ String) (indent : Nat) : Stmt → StateM σ String
  | .define dst decl e => return f.dstText dst decl ++ " = " ++ f.exprText e
  | .store obj field val =>
    return "store " ++ f.varName obj ++ "." ++ field ++ ", " ++ f.varName val
  | .cond arms other => do
    let arms ← f.armsTextM note indent true arms
    let other ← f.linesTextM note (indent + 4) other
    return arms ++ " else " ++ braced indent other
  | .loop header test body => do
    let header ← f.linesTextM note (indent + 4) header
    let body ← f.linesTextM note (indent + 4) body
    return "while " ++ braced indent header ++ " -> " ++ f.varName test ++ " " ++ braced indent body
  | .doLoop body test => do
    let body ← f.linesTextM note (indent + 4) body
    return "do " ++ braced indent body ++ " while " ++ f.varName test
  | .block body => return braced indent (← f.linesTextM note (indent + 4) body)
  | .push tape val => return "push " ++ tape.text ++ ", " ++ f.varName val
  | .pushDecision tape decision => return "push " ++ tape.text ++ ", " ++ toString decision
  | .unreachable => return "unreachable"
  | .ret vals => return "return" ++ f.operandsText vals

def linesTextM (f : Func) (note : Stmt → StateM σ String) (indent : Nat) :
    List Stmt → StateM σ String
  | [] => return ""
  | s :: ss => do
    let line ← f.stmtTextM note indent s
    let comment ← note s
    let rest ← f.linesTextM note indent ss
    return pad indent ++ line ++ comment ++ "\n" ++ rest

def armsTextM (f : Func) (note : Stmt → StateM σ String) (indent : Nat) (first : Bool) :
    List (Var × List Stmt) → StateM σ String
  | [] => return ""
  | (test, body) :: arms => do
    let body ← f.linesTextM note (indent + 4) body
    let rest ← f.armsTextM note indent false arms
    return (if first then "" else " else ") ++ "if " ++ f.varName test ++ " " ++ braced indent body ++
      rest

end

def attrText (a : Attr) : String :=
  "@" ++ a.name ++ (if a.args.isEmpty then "" else "(" ++ commaJoin a.args ++ ")") ++ "\n"

def returnsText : List Ty → String
  | [] => ""
  | tys => " -> " ++ commaJoin (tys.map Ty.name)

def headText (f : Func) : String :=
  let param (v : Var) := f.varName v ++ ": " ++ (f.varTy v).name
  String.join (f.attrs.map attrText) ++ "function %" ++ f.name ++ "(" ++
    commaJoin (f.params.map param) ++ ")" ++ returnsText f.returns ++ " "

/-- The text of a function with a note behind every statement. -/
def annotated (f : Func) (note : Stmt → StateM σ String) : StateM σ String := do
  return f.headText ++ braced 0 (← f.linesTextM note 4 f.body) ++ "\n"

def noNote (_ : Stmt) : StateM Unit String := return ""

def text (f : Func) : String := ((f.annotated noNote).run ()).1

/-- A single statement, its nested lines indented by more than `indent`. -/
def stmtText (f : Func) (indent : Nat) (s : Stmt) : String := ((f.stmtTextM noNote indent s).run ()).1

end Func

end Backsweep
