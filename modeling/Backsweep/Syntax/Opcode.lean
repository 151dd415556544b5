/-!
# Types and primitive operations

The five types of the language and its primitive operations, each with its
spelling and signature.
-/

namespace Backsweep

/-- The type of a variable. Only `real` carries derivatives. -/
inductive Ty where
  | real
  | int
  | bool
  /-- A handle of a record with named fields. -/
  | obj
  /-- An aggregate value, never differentiated. -/
  | tensor
deriving DecidableEq

namespace Ty

def name : Ty → String
  | real => "real"
  | int => "int"
  | bool => "bool"
  | obj => "obj"
  | tensor => "tensor"

def all : List Ty := [real, int, bool, obj, tensor]

def ofName? (s : String) : Option Ty := all.find? (·.name == s)

end Ty

/-- Primitive operations. -/
inductive Opcode where
  | fneg | fadd | fsub | fmul | fdiv
  | sin | cos | tan | exp | ln | sqrt | pow | tanh
  | iadd | isub | imul | ineg
  | flt | fgt | fle | fge | feq | fne
  | ilt | igt | ile | ige | ieq | ine
  | bnot | ifcast
deriving DecidableEq

namespace Opcode

/-- All operations, in the order in which they are numbered. -/
def all : List Opcode :=
  [fneg, fadd, fsub, fmul, fdiv, sin, cos, tan, exp, ln, sqrt, pow, tanh,
    iadd, isub, imul, ineg, flt, fgt, fle, fge, feq, fne,
    ilt, igt, ile, ige, ieq, ine, bnot, ifcast]

def name : Opcode → String
  | fneg => "fneg"
  | fadd => "fadd"
  | fsub => "fsub"
  | fmul => "fmul"
  | fdiv => "fdiv"
  | sin => "sin"
  | cos => "cos"
  | tan => "tan"
  | exp => "exp"
  | ln => "ln"
  | sqrt => "sqrt"
  | pow => "pow"
  | tanh => "tanh"
  | iadd => "iadd"
  | isub => "isub"
  | imul => "imul"
  | ineg => "ineg"
  | flt => "flt"
  | fgt => "fgt"
  | fle => "fle"
  | fge => "fge"
  | feq => "feq"
  | fne => "fne"
  | ilt => "ilt"
  | igt => "igt"
  | ile => "ile"
  | ige => "ige"
  | ieq => "ieq"
  | ine => "ine"
  | bnot => "bnot"
  | ifcast => "ifcast"

def ofName? (s : String) : Option Opcode := all.find? (·.name == s)

/-- Operand types and result type. -/
def signature : Opcode → List Ty × Ty
  | fneg | sin | cos | tan | exp | ln | sqrt | tanh => ([.real], .real)
  | fadd | fsub | fmul | fdiv | pow => ([.real, .real], .real)
  | iadd | isub | imul => ([.int, .int], .int)
  | ineg => ([.int], .int)
  | flt | fgt | fle | fge | feq | fne => ([.real, .real], .bool)
  | ilt | igt | ile | ige | ieq | ine => ([.int, .int], .bool)
  | bnot => ([.bool], .bool)
  | ifcast => ([.int], .real)

def params (op : Opcode) : List Ty := op.signature.1

def result (op : Opcode) : Ty := op.signature.2

def arity (op : Opcode) : Nat := op.params.length

/-- Whether the operation maps reals to a real, and so passes derivatives on. -/
def isDifferentiable (op : Opcode) : Bool :=
  op.result == .real && op.params.all (· == .real)

end Opcode

end Backsweep
