import Backsweep.Decimal.Notation
import Backsweep.Run.Scalar
import Backsweep.Syntax.Reader

/-!
# Values and records

What variables, tapes and record fields hold, and why a run can fail.
-/

namespace Backsweep

/-- A value. Integers are in the 32-bit range: constants are, and integer
operations wrap around. -/
inductive Value (R : Type) where
  | real (x : R)
  | int (n : Int)
  | bool (b : Bool)
  /-- The handle of a record. -/
  | obj (handle : Nat)
deriving BEq

/-- Why a run fails. -/
inductive RunError where
  | unreachable
  | emptyTape (tape : Tape)
  | undefinedVar (name : String)
  | typeConfusion (expected found : Ty)
  | invalidObject (handle : Nat)
  | unknownField (field : String)
  | unknownExtern (name : String)
  | notDifferentiable (name : String)
  | arity (expected found : Nat)
  | missingReturn
  | stepLimit
  /-- Calls between the functions of a module are nested too deeply. -/
  | callDepth
deriving DecidableEq

def RunError.message : RunError → String
  | unreachable => "reached an unreachable statement"
  | emptyTape tape => "pop from empty tape " ++ tape.text
  | undefinedVar name => "read of undefined variable '" ++ name ++ "'"
  | typeConfusion expected found =>
    "expected a value of type " ++ expected.name ++ " but found " ++ found.name
  | invalidObject handle => "invalid object handle obj" ++ toString handle
  | unknownField field => "record has no field '" ++ field ++ "'"
  | unknownExtern name => "call to unknown operation %" ++ name
  | notDifferentiable name => "no partial derivatives are known for %" ++ name
  | arity expected found =>
    "expected " ++ toString expected ++ " arguments but found " ++ toString found
  | missingReturn => "function finished without returning"
  | stepLimit => "loop iteration limit exceeded"
  | callDepth => "calls are nested too deeply"

namespace Value

variable {R : Type}

def ty : Value R → Ty
  | real _ => .real
  | int _ => .int
  | bool _ => .bool
  | obj _ => .obj

def mismatch {α : Type} (v : Value R) (expected : Ty) : Except RunError α :=
  .error (.typeConfusion expected v.ty)

@[inline] def toReal : Value R → Except RunError R
  | real x => .ok x
  | v => v.mismatch .real

@[inline] def toInt : Value R → Except RunError Int
  | int n => .ok n
  | v => v.mismatch .int

@[inline] def toBool : Value R → Except RunError Bool
  | bool b => .ok b
  | v => v.mismatch .bool

@[inline] def toObj : Value R → Except RunError Nat
  | obj h => .ok h
  | v => v.mismatch .obj

def ofConst [Scalar R] : Const → Value R
  | .real x => real (Scalar.lit x)
  | .int n => int n
  | .bool b => bool b

def text : Value Float → String
  | real x => Real64.literal x
  | int n => toString n
  | bool b => toString b
  | obj h => "obj" ++ toString h

/-- Digits only, at least one. -/
def digits? (cs : List Char) : Option (List Char) :=
  if !cs.isEmpty && cs.all Char.isDigit then some cs else none

/-- An integer with an optional sign that fits into 32 bits. -/
def int? (s : String) : Option Int :=
  (digits? (Decimal.sign s.toList).2).bind fun _ => Reader.int32? s

/-- Reads a value. A number is an integer if it can be, otherwise a real. -/
def read? (s : String) : Option (Value Float) :=
  match s.toList with
  | 'o' :: 'b' :: 'j' :: cs => (digits? cs).map fun ds => obj (Token.natOf ds)
  | _ =>
    if s == "true" then some (bool true)
    else if s == "false" then some (bool false)
    else match int? s with
      | some n => some (int n)
      | none => (Decimal.read? s).map real

end Value

/-- The fields of a record by name. -/
abbrev Record (R : Type) := List (String × Value R)

def Record.set {R : Type} (r : Record R) (field : String) (v : Value R) : Record R :=
  match r with
  | [] => [(field, v)]
  | (name, old) :: rest =>
    if name == field then (name, v) :: rest else (name, old) :: Record.set rest field v

/-- Records by handle. -/
structure Heap (R : Type) where
  records : Array (Record R) := #[]

namespace Heap

variable {R : Type}

/-- Adds a record. Of fields with one name the last stays. -/
def alloc (h : Heap R) (fields : List (String × Value R)) : Nat × Heap R :=
  let record := fields.foldl (fun r (name, v) => Record.set r name v) []
  (h.records.size, ⟨h.records.push record⟩)

def record (h : Heap R) (handle : Nat) : Except RunError (Record R) :=
  match h.records[handle]? with
  | some r => .ok r
  | none => .error (.invalidObject handle)

def load (h : Heap R) (handle : Nat) (field : String) : Except RunError (Value R) := do
  match (← h.record handle).lookup field with
  | some v => .ok v
  | none => .error (.unknownField field)

def store (h : Heap R) (handle : Nat) (field : String) (v : Value R) : Except RunError (Heap R) := do
  let r ← h.record handle
  return ⟨h.records.setIfInBounds handle (Record.set r field v)⟩

end Heap

end Backsweep
