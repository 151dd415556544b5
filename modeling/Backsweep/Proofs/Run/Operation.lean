import Mathlib
import Backsweep.Run.Operation

/-!
# Operations on reals

What the operands of a differentiable operation are once it has a result, and
which errors operations have.

* `Opcode.eval_differentiable`: the operands and the result are reals, and there
  is one partial derivative for each operand;
* `Opcode.eval_error`: an operation only fails on the number or the types of
  its operands.
-/

namespace Backsweep

variable {e : RunError}

namespace Operation

variable {R : Type}
variable {args : List (Value R)} {v : Value R}

theorem realUnary_eq_ok {f : R → R} :
    realUnary f args = .ok v ↔ ∃ x, args = [.real x] ∧ v = .real (f x) := by
  unfold realUnary
  split
  · rename_i a
    cases a <;> simp [Value.toReal, Value.mismatch, bind, Except.bind, pure, Except.pure, eq_comm]
  · rename_i h
    constructor
    · intro hv; cases hv
    · rintro ⟨x, hx, _⟩; exact absurd hx (h _)

theorem realBinary_eq_ok {f : R → R → R} :
    realBinary f args = .ok v ↔ ∃ x y, args = [.real x, .real y] ∧ v = .real (f x y) := by
  unfold realBinary
  split
  · rename_i a b
    cases a <;> cases b <;>
      simp [Value.toReal, Value.mismatch, bind, Except.bind, pure, Except.pure, eq_comm]
  · rename_i h
    constructor
    · intro hv; cases hv
    · rintro ⟨x, y, hx, _⟩; exact absurd hx (h _ _)

/-- The errors of operations: a wrong number or a wrong type of operands. -/
def OperandError (e : RunError) : Prop :=
  (∃ a b, e = .arity a b) ∨ ∃ a b, e = .typeConfusion a b

theorem operandError_arity (a b : Nat) : OperandError (.arity a b) := .inl ⟨a, b, rfl⟩

theorem operandError_mismatch (v : Value R) (ty : Ty) :
    OperandError (.typeConfusion ty v.ty) := .inr ⟨_, _, rfl⟩

theorem toReal_error (h : v.toReal = .error e) : OperandError e := by
  cases v with
  | real x => cases h
  | int n | bool b | obj o => cases h; exact operandError_mismatch _ _

theorem toInt_error (h : v.toInt = .error e) : OperandError e := by
  cases v with
  | int n => cases h
  | real x | bool b | obj o => cases h; exact operandError_mismatch _ _

theorem toBool_error (h : v.toBool = .error e) : OperandError e := by
  cases v with
  | bool b => cases h
  | real x | int n | obj o => cases h; exact operandError_mismatch _ _

/-- One operand is read as a `β`, then `k` always answers. -/
theorem unary_error {β γ : Type} {x : Except RunError β} {k : β → γ}
    (hx : ∀ e, x = .error e → OperandError e) (h : (x >>= fun a => pure (k a)) = .error e) :
    OperandError e := by
  cases x with
  | ok a => cases h
  | error e' => cases h; exact hx _ rfl

theorem binary_error {β γ : Type} {x y : Except RunError β} {k : β → β → γ}
    (hx : ∀ e, x = .error e → OperandError e) (hy : ∀ e, y = .error e → OperandError e)
    (h : (x >>= fun a => y >>= fun b => pure (k a b)) = .error e) : OperandError e := by
  cases x with
  | ok a => exact unary_error hy h
  | error e' => cases h; exact hx _ rfl

theorem realUnary_error {f : R → R} (h : realUnary f args = .error e) : OperandError e := by
  unfold realUnary at h
  split at h
  · exact unary_error (fun _ => toReal_error) h
  · cases h; exact operandError_arity _ _

theorem realBinary_error {f : R → R → R} (h : realBinary f args = .error e) : OperandError e := by
  unfold realBinary at h
  split at h
  · exact binary_error (fun _ => toReal_error) (fun _ => toReal_error) h
  · cases h; exact operandError_arity _ _

theorem realTest_error {f : R → R → Bool} (h : realTest f args = .error e) : OperandError e := by
  unfold realTest at h
  split at h
  · exact binary_error (fun _ => toReal_error) (fun _ => toReal_error) h
  · cases h; exact operandError_arity _ _

theorem intUnary_error {f : Int → Int} (h : intUnary f args = .error e) : OperandError e := by
  unfold intUnary at h
  split at h
  · exact unary_error (fun _ => toInt_error) h
  · cases h; exact operandError_arity _ _

theorem intBinary_error {f : Int → Int → Int} (h : intBinary f args = .error e) :
    OperandError e := by
  unfold intBinary at h
  split at h
  · exact binary_error (fun _ => toInt_error) (fun _ => toInt_error) h
  · cases h; exact operandError_arity _ _

theorem intTest_error {f : Int → Int → Bool} (h : intTest f args = .error e) : OperandError e := by
  unfold intTest at h
  split at h
  · exact binary_error (fun _ => toInt_error) (fun _ => toInt_error) h
  · cases h; exact operandError_arity _ _

theorem boolUnary_error {f : Bool → Bool} (h : boolUnary f args = .error e) : OperandError e := by
  unfold boolUnary at h
  split at h
  · exact unary_error (fun _ => toBool_error) h
  · cases h; exact operandError_arity _ _

theorem intToReal_error {f : Int → R} (h : intToReal f args = .error e) : OperandError e := by
  unfold intToReal at h
  split at h
  · exact unary_error (fun _ => toInt_error) h
  · cases h; exact operandError_arity _ _

end Operation

open Operation

variable {R : Type} [Scalar R]

theorem Opcode.eval_error {op : Opcode} {args : List (Value R)} (h : op.eval args = .error e) :
    OperandError e := by
  cases op
  case fneg | sin | cos | tan | exp | ln | sqrt | tanh => exact realUnary_error h
  case fadd | fsub | fmul | fdiv | pow => exact realBinary_error h
  case iadd | isub | imul => exact intBinary_error h
  case ineg => exact intUnary_error h
  case flt | fgt | fle | fge | feq | fne => exact realTest_error h
  case ilt | igt | ile | ige | ieq | ine => exact intTest_error h
  case bnot => exact boolUnary_error h
  case ifcast => exact intToReal_error h

/-- A differentiable operation that has a result maps reals to a real, and has
a partial derivative by each of them. -/
theorem Opcode.eval_differentiable {op : Opcode} (hop : op.isDifferentiable = true)
    {args : List (Value R)} {v : Value R} (h : op.eval args = .ok v) :
    ∃ (xs : List R) (y : R) (ps : List R), args = xs.map Value.real ∧ v = .real y ∧
      op.partials args y = .ok ps ∧ ps.length = args.length := by
  cases op
  case fneg | sin | cos | tan | exp | ln | sqrt | tanh =>
    obtain ⟨x, rfl, rfl⟩ := realUnary_eq_ok.mp h
    exact ⟨[x], _, _, rfl, rfl, rfl, rfl⟩
  case fadd | fsub | fmul | fdiv | pow =>
    obtain ⟨x, y, rfl, rfl⟩ := realBinary_eq_ok.mp h
    exact ⟨[x, y], _, _, rfl, rfl, rfl, rfl⟩
  all_goals cases hop

end Backsweep
