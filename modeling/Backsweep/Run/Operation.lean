import Backsweep.Run.Value

/-!
# Primitive operations

The result of every operation on values, and the partial derivatives of those
that map reals to a real.
-/

namespace Backsweep

variable {R : Type}

/-- The 32-bit integer that equals `n` modulo `2 ^ 32`, which is mostly `n`. -/
@[inline] def wrap32 (n : Int) : Int :=
  if -2147483648 ≤ n ∧ n ≤ 2147483647 then n else n.bmod 0x100000000

namespace Operation

@[inline] def realUnary (f : R → R) : List (Value R) → Except RunError (Value R)
  | [x] => return .real (f (← x.toReal))
  | args => .error (.arity 1 args.length)

@[inline] def realBinary (f : R → R → R) : List (Value R) → Except RunError (Value R)
  | [x, y] => do
    let x ← x.toReal
    return .real (f x (← y.toReal))
  | args => .error (.arity 2 args.length)

@[inline] def realTest (f : R → R → Bool) : List (Value R) → Except RunError (Value R)
  | [x, y] => do
    let x ← x.toReal
    return .bool (f x (← y.toReal))
  | args => .error (.arity 2 args.length)

@[inline] def intUnary (f : Int → Int) : List (Value R) → Except RunError (Value R)
  | [x] => return .int (wrap32 (f (← x.toInt)))
  | args => .error (.arity 1 args.length)

@[inline] def intBinary (f : Int → Int → Int) : List (Value R) → Except RunError (Value R)
  | [x, y] => do
    let x ← x.toInt
    return .int (wrap32 (f x (← y.toInt)))
  | args => .error (.arity 2 args.length)

@[inline] def intTest (f : Int → Int → Bool) : List (Value R) → Except RunError (Value R)
  | [x, y] => do
    let x ← x.toInt
    return .bool (f x (← y.toInt))
  | args => .error (.arity 2 args.length)

@[inline] def boolUnary (f : Bool → Bool) : List (Value R) → Except RunError (Value R)
  | [x] => return .bool (f (← x.toBool))
  | args => .error (.arity 1 args.length)

@[inline] def intToReal (f : Int → R) : List (Value R) → Except RunError (Value R)
  | [x] => return .real (f (← x.toInt))
  | args => .error (.arity 1 args.length)

/-- The second operand. -/
def second : List (Value R) → Except RunError R
  | _ :: y :: _ => y.toReal
  | args => .error (.arity 2 args.length)

end Operation

variable [Scalar R]

open Operation in
/-- The result of an operation. -/
def Opcode.eval : Opcode → List (Value R) → Except RunError (Value R)
  | fneg => realUnary Scalar.neg
  | fadd => realBinary Scalar.add
  | fsub => realBinary Scalar.sub
  | fmul => realBinary Scalar.mul
  | fdiv => realBinary Scalar.div
  | sin => realUnary Scalar.sin
  | cos => realUnary Scalar.cos
  | tan => realUnary Scalar.tan
  | exp => realUnary Scalar.exp
  | ln => realUnary Scalar.ln
  | sqrt => realUnary Scalar.sqrt
  | pow => realBinary Scalar.pow
  | tanh => realUnary Scalar.tanh
  | iadd => intBinary (· + ·)
  | isub => intBinary (· - ·)
  | imul => intBinary (· * ·)
  | ineg => intUnary (- ·)
  | flt => realTest (Scalar.holds .lt)
  | fgt => realTest (Scalar.holds .gt)
  | fle => realTest (Scalar.holds .le)
  | fge => realTest (Scalar.holds .ge)
  | feq => realTest (Scalar.holds .eq)
  | fne => realTest (Scalar.holds .ne)
  | ilt => intTest (· < ·)
  | igt => intTest (· > ·)
  | ile => intTest (· ≤ ·)
  | ige => intTest (· ≥ ·)
  | ieq => intTest (· == ·)
  | ine => intTest (· != ·)
  | bnot => boolUnary (! ·)
  | ifcast => intToReal Scalar.ofInt

/-- The partial derivative by each operand, given the operands and the result. -/
def Opcode.partials (op : Opcode) (args : List (Value R)) (res : R) : Except RunError (List R) := do
  let one : R := Scalar.lit 1.0
  let x ← match args with
    | x :: _ => x.toReal
    | [] => .error (.arity op.arity 0)
  match op with
  | .fneg => return [Scalar.lit (-1.0)]
  | .fadd => return [one, one]
  | .fsub => return [one, Scalar.lit (-1.0)]
  | .fmul => return [← Operation.second args, x]
  | .fdiv => do
    let y ← Operation.second args
    return [Scalar.div one y, Scalar.div (Scalar.neg x) (Scalar.mul y y)]
  | .sin => return [Scalar.cos x]
  | .cos => return [Scalar.neg (Scalar.sin x)]
  | .tan => return [Scalar.add one (Scalar.mul res res)]
  | .exp => return [res]
  | .ln => return [Scalar.div one x]
  | .sqrt => return [Scalar.div (Scalar.lit 0.5) res]
  | .pow => do
    let y ← Operation.second args
    return [Scalar.mul y (Scalar.pow x (Scalar.sub y one)), Scalar.mul res (Scalar.ln x)]
  | .tanh => return [Scalar.sub one (Scalar.mul res res)]
  | _ => .error (.notDifferentiable op.name)

end Backsweep
