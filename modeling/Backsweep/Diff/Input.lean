import Backsweep.Diff.Error

/-!
# The active input

What a function is differentiated by.
-/

namespace Backsweep

inductive ActiveInput where
  | param (v : Var)
  /-- A real field of a record parameter. -/
  | property (obj : Var) (field : String)
deriving DecidableEq

namespace ActiveInput

def var : ActiveInput → Var
  | param v => v
  | property v _ => v

def text (f : Func) : ActiveInput → String
  | param v => f.varName v
  | property v field => f.varName v ++ "." ++ field

/-- Whether a field of the record in `obj` is the input. -/
def isSeed (input : ActiveInput) (obj : Var) (field : String) : Bool :=
  input == property obj field

/-- Splits `record.field` at its first point. -/
def splitPath (s : String) : Option (String × String) :=
  let cs := s.toList
  match cs.dropWhile (· != '.') with
  | [] => none
  | _ :: field => some (String.ofList (cs.takeWhile (· != '.')), String.ofList field)

/-- The input that a name stands for: `a` is a real parameter, `o.f` the field
`f` of a record parameter. -/
def named (f : Func) (name : String) : Except DiffError ActiveInput :=
  match splitPath name with
  | some (obj, field) =>
    match f.param? obj with
    | some v => if f.varTy v = .obj then .ok (property v field) else .error (.unknownInput name)
    | none => .error (.unknownInput name)
  | none =>
    match f.param? name with
    | some v => if f.varTy v = .real then .ok (param v) else .error (.nonScalarInput name (f.varTy v))
    | none => .error (.unknownInput name)

/-- The input that the arguments of a mark select. Without arguments it is the
only real parameter. -/
def select (f : Func) : List String → Except DiffError ActiveInput
  | [] =>
    match f.params.filter (f.varTy · = .real) with
    | [v] => .ok (param v)
    | [] => .error .noActiveInput
    | vs => .error (.multipleActiveInputs (vs.map f.varName))
  | [name] => named f name
  | names => .error (.multipleActiveInputs names)

/-- Whether the input has the type it needs. -/
def check (f : Func) (input : ActiveInput) : Except DiffError Unit :=
  match input with
  | param v => if f.varTy v = .real then .ok () else .error (.nonScalarInput (f.varName v) (f.varTy v))
  | property v _ => if f.varTy v = .obj then .ok () else .error (.unknownInput (input.text f))

end ActiveInput

end Backsweep
