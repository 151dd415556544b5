import Mathlib
import Backsweep.Run.Scalar

/-!
# Scalars without rounding

* `LawfulScalar`: scalars that compute in a field. The elementary functions and
  the comparisons may be any;
* `floatExact`: the number that a double stands for, by which the rationals are
  such scalars.
-/

namespace Backsweep

/-- The literals that derivatives are written with are the numbers they spell, and
arithmetic is that of the field. -/
class LawfulScalar (R : Type) [Field R] extends Scalar R where
  lit_zero : lit 0.0 = 0
  lit_one : lit 1.0 = 1
  lit_neg_one : lit (-1.0) = -1
  lit_half : lit 0.5 = 2⁻¹
  lit_two : lit 2.0 = 2
  neg_eq : ∀ x : R, neg x = -x
  add_eq : ∀ x y : R, add x y = x + y
  sub_eq : ∀ x y : R, sub x y = x - y
  mul_eq : ∀ x y : R, mul x y = x * y
  div_eq : ∀ x y : R, div x y = x / y
  isZero_iff : ∀ x : R, isZero x = true ↔ x = 0

attribute [simp] LawfulScalar.lit_zero LawfulScalar.lit_one LawfulScalar.lit_neg_one
  LawfulScalar.lit_half LawfulScalar.lit_two LawfulScalar.neg_eq LawfulScalar.add_eq
  LawfulScalar.sub_eq LawfulScalar.mul_eq LawfulScalar.div_eq LawfulScalar.isZero_iff

/-- The number a finite double stands for: its fraction, scaled by its exponent. -/
def floatExact (x : Float) : ℚ :=
  let bits : Nat := x.toModel.toBits.toNat
  let exponent : Nat := bits / 2 ^ 52 % 2 ^ 11
  let fraction : Nat := bits % 2 ^ 52
  let scaled : Nat := if exponent = 0 then 2 * fraction else (2 ^ 52 + fraction) * 2 ^ exponent
  let size : ℚ := mkRat scaled (2 ^ 1075)
  if bits / 2 ^ 63 = 0 then size else -size

def Comparison.compare : Comparison → ℚ → ℚ → Bool
  | .lt, x, y => x < y
  | .gt, x, y => y < x
  | .le, x, y => x ≤ y
  | .ge, x, y => y ≤ x
  | .eq, x, y => x == y
  | .ne, x, y => x != y

/-- Rationals compute exactly. They have no elementary functions, for which the
identity stands. -/
instance : LawfulScalar ℚ where
  lit := floatExact
  ofInt n := n
  neg x := -x
  add x y := x + y
  sub x y := x - y
  mul x y := x * y
  div x y := x / y
  sin x := x
  cos x := x
  tan x := x
  exp x := x
  ln x := x
  sqrt x := x
  pow x _ := x
  tanh x := x
  holds := Comparison.compare
  isZero x := x == 0
  lit_zero := by decide +kernel
  lit_one := by decide +kernel
  lit_neg_one := by decide +kernel
  lit_half := by decide +kernel
  lit_two := by decide +kernel
  neg_eq _ := rfl
  add_eq _ _ := rfl
  sub_eq _ _ := rfl
  mul_eq _ _ := rfl
  div_eq _ _ := rfl
  isZero_iff x := by simp

end Backsweep
