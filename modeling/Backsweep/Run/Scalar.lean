/-!
# Scalars

The operations that running a function needs of its reals. Functions run on
doubles; the same definitions read over a field state what they compute
without rounding.
-/

namespace Backsweep

inductive Comparison where
  | lt
  | gt
  | le
  | ge
  | eq
  | ne
deriving DecidableEq

class Scalar (R : Type) where
  /-- The value of a literal. -/
  lit : Float → R
  ofInt : Int → R
  neg : R → R
  add : R → R → R
  sub : R → R → R
  mul : R → R → R
  div : R → R → R
  sin : R → R
  cos : R → R
  tan : R → R
  exp : R → R
  ln : R → R
  sqrt : R → R
  pow : R → R → R
  tanh : R → R
  holds : Comparison → R → R → Bool
  isZero : R → Bool

def floatHolds : Comparison → Float → Float → Bool
  | .lt, x, y => x < y
  | .gt, x, y => y < x
  | .le, x, y => x ≤ y
  | .ge, x, y => y ≤ x
  | .eq, x, y => x == y
  | .ne, x, y => x != y

instance : Scalar Float where
  lit := id
  ofInt := Float.ofInt
  neg x := -x
  add := (· + ·)
  sub := (· - ·)
  mul := (· * ·)
  div := (· / ·)
  sin := Float.sin
  cos := Float.cos
  tan := Float.tan
  exp := Float.exp
  ln := Float.log
  sqrt := Float.sqrt
  pow := Float.pow
  tanh := Float.tanh
  holds := floatHolds
  isZero x := x == 0.0

end Backsweep
