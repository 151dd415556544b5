import Mathlib
import Backsweep.Proofs.Run.Lawful
import Backsweep.Proofs.Run.Operation

/-!
# Dual numbers

A dual number is a scalar with a tangent, which every operation carries along by its
partial derivatives. Functions run on dual numbers as on any other scalars.

* `Dual`: tangents may be from any vector space;
* `Opcode.eval_dual`: a differentiable operation combines the tangents of its
  operands by its partial derivatives;
* `ScalarHom`: maps between scalars that all operations respect, such as dropping
  tangents and mapping them linearly;
* `Opcode.eval_map`: operations respect such maps.
-/

namespace Backsweep

/-- A scalar and its tangent. -/
@[ext]
structure Dual (R M : Type) where
  value : R
  tangent : M

namespace Dual

variable {R M N : Type} [Field R] [AddCommGroup M] [Module R M] [AddCommGroup N] [Module R N]

/-- A function of one number, with its partial derivative from the operand and the
result. -/
def unary (f : R → R) (d : R → R → R) (x : Dual R M) : Dual R M :=
  ⟨f x.value, d x.value (f x.value) • x.tangent⟩

/-- A function of two numbers, with its partial derivatives from the operands and the
result. -/
def binary (f : R → R → R) (d e : R → R → R → R) (x y : Dual R M) : Dual R M :=
  ⟨f x.value y.value, d x.value y.value (f x.value y.value) • x.tangent +
    e x.value y.value (f x.value y.value) • y.tangent⟩

/-- The number with its tangent mapped. -/
def map (φ : M →ₗ[R] N) (x : Dual R M) : Dual R N := ⟨x.value, φ x.tangent⟩

theorem map_unary (φ : M →ₗ[R] N) (f : R → R) (d : R → R → R) (x : Dual R M) :
    map φ (unary f d x) = unary f d (map φ x) := by
  simp [map, unary]

theorem map_binary (φ : M →ₗ[R] N) (f : R → R → R) (d e : R → R → R → R) (x y : Dual R M) :
    map φ (binary f d e x y) = binary f d e (map φ x) (map φ y) := by
  simp [map, binary]

instance [LawfulScalar R] : Scalar (Dual R M) where
  lit x := ⟨Scalar.lit x, 0⟩
  ofInt n := ⟨Scalar.ofInt n, 0⟩
  neg := unary Scalar.neg fun _ _ => Scalar.lit (-1.0)
  add := binary Scalar.add (fun _ _ _ => Scalar.lit 1.0) fun _ _ _ => Scalar.lit 1.0
  sub := binary Scalar.sub (fun _ _ _ => Scalar.lit 1.0) fun _ _ _ => Scalar.lit (-1.0)
  mul := binary Scalar.mul (fun _ y _ => y) fun x _ _ => x
  div := binary Scalar.div (fun _ y _ => Scalar.div (Scalar.lit 1.0) y)
    fun x y _ => Scalar.div (Scalar.neg x) (Scalar.mul y y)
  sin := unary Scalar.sin fun x _ => Scalar.cos x
  cos := unary Scalar.cos fun x _ => Scalar.neg (Scalar.sin x)
  tan := unary Scalar.tan fun _ r => Scalar.add (Scalar.lit 1.0) (Scalar.mul r r)
  exp := unary Scalar.exp fun _ r => r
  ln := unary Scalar.ln fun x _ => Scalar.div (Scalar.lit 1.0) x
  sqrt := unary Scalar.sqrt fun _ r => Scalar.div (Scalar.lit 0.5) r
  pow := binary Scalar.pow
    (fun x y _ => Scalar.mul y (Scalar.pow x (Scalar.sub y (Scalar.lit 1.0))))
    fun x _ r => Scalar.mul r (Scalar.ln x)
  tanh := unary Scalar.tanh fun _ r => Scalar.sub (Scalar.lit 1.0) (Scalar.mul r r)
  holds c x y := Scalar.holds c x.value y.value
  isZero x := Scalar.isZero x.value

end Dual

/-! ## Maps between scalars -/

/-- A map between scalars that all operations respect. -/
structure ScalarHom (S S' : Type) [Scalar S] [Scalar S'] where
  toFun : S → S'
  lit : ∀ x, toFun (Scalar.lit x) = Scalar.lit x
  ofInt : ∀ n, toFun (Scalar.ofInt n) = Scalar.ofInt n
  neg : ∀ x, toFun (Scalar.neg x) = Scalar.neg (toFun x)
  add : ∀ x y, toFun (Scalar.add x y) = Scalar.add (toFun x) (toFun y)
  sub : ∀ x y, toFun (Scalar.sub x y) = Scalar.sub (toFun x) (toFun y)
  mul : ∀ x y, toFun (Scalar.mul x y) = Scalar.mul (toFun x) (toFun y)
  div : ∀ x y, toFun (Scalar.div x y) = Scalar.div (toFun x) (toFun y)
  sin : ∀ x, toFun (Scalar.sin x) = Scalar.sin (toFun x)
  cos : ∀ x, toFun (Scalar.cos x) = Scalar.cos (toFun x)
  tan : ∀ x, toFun (Scalar.tan x) = Scalar.tan (toFun x)
  exp : ∀ x, toFun (Scalar.exp x) = Scalar.exp (toFun x)
  ln : ∀ x, toFun (Scalar.ln x) = Scalar.ln (toFun x)
  sqrt : ∀ x, toFun (Scalar.sqrt x) = Scalar.sqrt (toFun x)
  pow : ∀ x y, toFun (Scalar.pow x y) = Scalar.pow (toFun x) (toFun y)
  tanh : ∀ x, toFun (Scalar.tanh x) = Scalar.tanh (toFun x)
  holds : ∀ c x y, Scalar.holds c (toFun x) (toFun y) = Scalar.holds c x y

namespace Dual

variable {R M N : Type} [Field R] [LawfulScalar R] [AddCommGroup M] [Module R M] [AddCommGroup N]
  [Module R N]

/-- Dropping the tangent. -/
def valueHom (R M : Type) [Field R] [LawfulScalar R] [AddCommGroup M] [Module R M] :
    ScalarHom (Dual R M) R where
  toFun := value
  lit _ := rfl
  ofInt _ := rfl
  neg _ := rfl
  add _ _ := rfl
  sub _ _ := rfl
  mul _ _ := rfl
  div _ _ := rfl
  sin _ := rfl
  cos _ := rfl
  tan _ := rfl
  exp _ := rfl
  ln _ := rfl
  sqrt _ := rfl
  pow _ _ := rfl
  tanh _ := rfl
  holds _ _ _ := rfl

/-- Mapping the tangent. -/
def mapHom (φ : M →ₗ[R] N) : ScalarHom (Dual R M) (Dual R N) where
  toFun := map φ
  lit _ := Dual.ext rfl (map_zero φ)
  ofInt _ := Dual.ext rfl (map_zero φ)
  neg := map_unary φ _ _
  add := map_binary φ _ _ _
  sub := map_binary φ _ _ _
  mul := map_binary φ _ _ _
  div := map_binary φ _ _ _
  sin := map_unary φ _ _
  cos := map_unary φ _ _
  tan := map_unary φ _ _
  exp := map_unary φ _ _
  ln := map_unary φ _ _
  sqrt := map_unary φ _ _
  pow := map_binary φ _ _ _
  tanh := map_unary φ _ _
  holds _ _ _ := rfl

end Dual

/-- The value with its scalar mapped. -/
def Value.map {S S' : Type} (h : S → S') : Value S → Value S'
  | .real x => .real (h x)
  | .int n => .int n
  | .bool b => .bool b
  | .obj o => .obj o

namespace Operation

variable {S S' : Type}

section
variable (h : S → S')

@[simp] theorem toInt_map (v : Value S) : (v.map h).toInt = v.toInt := by cases v <;> rfl
@[simp] theorem toBool_map (v : Value S) : (v.map h).toBool = v.toBool := by cases v <;> rfl
@[simp] theorem toObj_map (v : Value S) : (v.map h).toObj = v.toObj := by cases v <;> rfl
@[simp] theorem ty_map (v : Value S) : (v.map h).ty = v.ty := by cases v <;> rfl
@[simp] theorem toReal_map (v : Value S) : (v.map h).toReal = v.toReal.map h := by cases v <;> rfl

theorem realUnary_map {f : S → S} {f' : S' → S'} (hf : ∀ x, h (f x) = f' (h x))
    (args : List (Value S)) :
    realUnary f' (args.map (Value.map h)) = (realUnary f args).map (Value.map h) := by
  match args with
  | [v] =>
    cases v with
    | real x => exact congrArg (fun y => Except.ok (Value.real y)) (hf x).symm
    | _ => rfl
  | [] => rfl
  | _ :: _ :: args => simp [realUnary, Except.map]

theorem realBinary_map {f : S → S → S} {f' : S' → S' → S'} (hf : ∀ x y, h (f x y) = f' (h x) (h y))
    (args : List (Value S)) :
    realBinary f' (args.map (Value.map h)) = (realBinary f args).map (Value.map h) := by
  match args with
  | [v, w] =>
    cases v with
    | real x =>
      cases w with
      | real y => exact congrArg (fun z => Except.ok (Value.real z)) (hf x y).symm
      | _ => rfl
    | _ => rfl
  | [] | [_] => rfl
  | _ :: _ :: _ :: args => simp [realBinary, Except.map]

theorem realTest_map {f : S → S → Bool} {f' : S' → S' → Bool} (hf : ∀ x y, f' (h x) (h y) = f x y)
    (args : List (Value S)) :
    realTest f' (args.map (Value.map h)) = (realTest f args).map (Value.map h) := by
  match args with
  | [v, w] =>
    cases v with
    | real x =>
      cases w with
      | real y => exact congrArg (fun z => Except.ok (Value.bool z)) (hf x y)
      | _ => rfl
    | _ => rfl
  | [] | [_] => rfl
  | _ :: _ :: _ :: args => simp [realTest, Except.map]

theorem intUnary_map (f : Int → Int) (args : List (Value S)) :
    intUnary f (args.map (Value.map h)) = (intUnary f args).map (Value.map h) := by
  match args with
  | [v] => cases v <;> rfl
  | [] => rfl
  | _ :: _ :: args => simp [intUnary, Except.map]

theorem intBinary_map (f : Int → Int → Int) (args : List (Value S)) :
    intBinary f (args.map (Value.map h)) = (intBinary f args).map (Value.map h) := by
  match args with
  | [v, w] => cases v <;> cases w <;> rfl
  | [] | [_] => rfl
  | _ :: _ :: _ :: args => simp [intBinary, Except.map]

theorem intTest_map (f : Int → Int → Bool) (args : List (Value S)) :
    intTest f (args.map (Value.map h)) = (intTest f args).map (Value.map h) := by
  match args with
  | [v, w] => cases v <;> cases w <;> rfl
  | [] | [_] => rfl
  | _ :: _ :: _ :: args => simp [intTest, Except.map]

theorem boolUnary_map (f : Bool → Bool) (args : List (Value S)) :
    boolUnary f (args.map (Value.map h)) = (boolUnary f args).map (Value.map h) := by
  match args with
  | [v] => cases v <;> rfl
  | [] => rfl
  | _ :: _ :: args => simp [boolUnary, Except.map]

theorem intToReal_map {f : Int → S} {f' : Int → S'} (hf : ∀ n, h (f n) = f' n)
    (args : List (Value S)) :
    intToReal f' (args.map (Value.map h)) = (intToReal f args).map (Value.map h) := by
  match args with
  | [v] =>
    cases v with
    | int n => exact congrArg (fun x => Except.ok (Value.real x)) (hf n).symm
    | _ => rfl
  | [] => rfl
  | _ :: _ :: args => simp [intToReal, Except.map]

end

end Operation

open Operation in
/-- **Operations respect maps between scalars.** -/
theorem Opcode.eval_map {S S' : Type} [Scalar S] [Scalar S'] (h : ScalarHom S S') (op : Opcode)
    (args : List (Value S)) :
    op.eval (args.map (Value.map h.toFun)) = (op.eval args).map (Value.map h.toFun) := by
  cases op
  case fneg => exact realUnary_map _ h.neg args
  case fadd => exact realBinary_map _ h.add args
  case fsub => exact realBinary_map _ h.sub args
  case fmul => exact realBinary_map _ h.mul args
  case fdiv => exact realBinary_map _ h.div args
  case sin => exact realUnary_map _ h.sin args
  case cos => exact realUnary_map _ h.cos args
  case tan => exact realUnary_map _ h.tan args
  case exp => exact realUnary_map _ h.exp args
  case ln => exact realUnary_map _ h.ln args
  case sqrt => exact realUnary_map _ h.sqrt args
  case pow => exact realBinary_map _ h.pow args
  case tanh => exact realUnary_map _ h.tanh args
  case iadd | isub | imul => exact intBinary_map _ _ args
  case ineg => exact intUnary_map _ _ args
  case flt | fgt | fle | fge | feq | fne => exact realTest_map _ (h.holds _) args
  case ilt | igt | ile | ige | ieq | ine => exact intTest_map _ _ args
  case bnot => exact boolUnary_map _ _ args
  case ifcast => exact intToReal_map _ h.ofInt args

/-! ## Operations on dual numbers -/

theorem Value.eq_real_of_map {R M : Type} {v : Value (Dual R M)} {x : R} (h : v.map Dual.value = .real x) :
    ∃ t, v = .real ⟨x, t⟩ := by
  cases v with
  | real y =>
    cases h
    exact ⟨y.tangent, rfl⟩
  | _ => cases h

theorem Value.eq_of_map {R M : Type} {v : Value (Dual R M)} {w : Value R} (h : v.map Dual.value = w)
    (hw : w.ty ≠ .real) (lift : R → Dual R M) : v = w.map lift := by
  subst h
  cases v with
  | real x => exact absurd rfl hw
  | _ => rfl

section
variable {R M : Type} [Field R] [LawfulScalar R] [AddCommGroup M] [Module R M]

/-- What has no tangent of its own has the tangent zero. -/
def Value.tangent : Value (Dual R M) → M
  | .real x => x.tangent
  | _ => 0

open Operation in
/-- **A differentiable operation combines the tangents of its operands by its partial
derivatives.** -/
theorem Opcode.eval_dual {op : Opcode} (hop : op.isDifferentiable = true)
    {args : List (Value (Dual R M))} {r : R} {ps : List R}
    (hr : op.eval (args.map (Value.map Dual.value)) = .ok (.real r))
    (hps : op.partials (args.map (Value.map Dual.value)) r = .ok ps) :
    op.eval args = .ok (.real ⟨r, ((args.zip ps).map fun p => p.2 • p.1.tangent).sum⟩) := by
  cases op
  case fneg | sin | cos | tan | exp | ln | sqrt | tanh =>
    obtain ⟨x, hargs, hvalue⟩ := realUnary_eq_ok.mp hr
    obtain ⟨v, rfl, hv⟩ := List.map_eq_singleton_iff.mp hargs
    obtain ⟨t, rfl⟩ := Value.eq_real_of_map hv
    cases hvalue
    cases hps
    refine congrArg (fun d => Except.ok (Value.real d)) (Dual.ext rfl ?_)
    exact (add_zero _).symm
  case fadd | fsub | fmul | fdiv | pow =>
    obtain ⟨x, y, hargs, hvalue⟩ := realBinary_eq_ok.mp hr
    obtain ⟨v, rest, rfl, hv, hrest⟩ := List.map_eq_cons_iff.mp hargs
    obtain ⟨w, rfl, hw⟩ := List.map_eq_singleton_iff.mp hrest
    obtain ⟨t, rfl⟩ := Value.eq_real_of_map hv
    obtain ⟨t', rfl⟩ := Value.eq_real_of_map hw
    cases hvalue
    cases hps
    refine congrArg (fun d => Except.ok (Value.real d)) (Dual.ext rfl ?_)
    change _ = _ + (_ + (0 : M))
    rw [add_zero]
    rfl
  all_goals cases hop

namespace Operation

variable {S : Type} {args : List (Value S)} {v : Value S}

/-- One operand is read, then there is an answer. -/
theorem unary_ok {β γ : Type} {x : Except RunError β} {k : β → γ} {c : γ}
    (h : (x >>= fun a => pure (k a)) = .ok c) : ∃ a, c = k a := by
  cases x with
  | error e => cases h
  | ok a =>
    cases h
    exact ⟨a, rfl⟩

theorem binary_ok {β γ : Type} {x y : Except RunError β} {k : β → β → γ} {c : γ}
    (h : (x >>= fun a => y >>= fun b => pure (k a b)) = .ok c) : ∃ a b, c = k a b := by
  cases x with
  | error e => cases h
  | ok a => exact ⟨a, unary_ok h⟩

theorem realTest_ty {f : S → S → Bool} (h : realTest f args = .ok v) : v.ty = .bool := by
  unfold realTest at h
  split at h
  · obtain ⟨_, _, rfl⟩ := binary_ok h
    rfl
  · cases h

theorem intTest_ty {f : Int → Int → Bool} (h : intTest f args = .ok v) : v.ty = .bool := by
  unfold intTest at h
  split at h
  · obtain ⟨_, _, rfl⟩ := binary_ok h
    rfl
  · cases h

theorem intBinary_ty {f : Int → Int → Int} (h : intBinary f args = .ok v) : v.ty = .int := by
  unfold intBinary at h
  split at h
  · obtain ⟨_, _, rfl⟩ := binary_ok h
    rfl
  · cases h

theorem intUnary_ty {f : Int → Int} (h : intUnary f args = .ok v) : v.ty = .int := by
  unfold intUnary at h
  split at h
  · obtain ⟨_, rfl⟩ := unary_ok h
    rfl
  · cases h

theorem boolUnary_ty {f : Bool → Bool} (h : boolUnary f args = .ok v) : v.ty = .bool := by
  unfold boolUnary at h
  split at h
  · obtain ⟨_, rfl⟩ := unary_ok h
    rfl
  · cases h

end Operation

open Operation in
/-- Of the operations that are not differentiable, only casts have a real result. -/
theorem Opcode.eval_ty_ne {S : Type} [Scalar S] {op : Opcode} (hop : op.isDifferentiable = false)
    (hcast : op ≠ .ifcast) {args : List (Value S)} {v : Value S} (h : op.eval args = .ok v) :
    v.ty ≠ .real := by
  cases op
  case iadd | isub | imul => simp [intBinary_ty h]
  case ineg => simp [intUnary_ty h]
  case flt | fgt | fle | fge | feq | fne => simp [realTest_ty h]
  case ilt | igt | ile | ige | ieq | ine => simp [intTest_ty h]
  case bnot => simp [boolUnary_ty h]
  case ifcast => exact absurd rfl hcast
  all_goals cases hop

/-- Any other operation has a result without a tangent. -/
theorem Opcode.eval_constant {op : Opcode} (hop : op.isDifferentiable = false)
    {args : List (Value (Dual R M))} {v : Value R}
    (h : op.eval (args.map (Value.map Dual.value)) = .ok v) :
    op.eval args = .ok (v.map fun x => ⟨x, 0⟩) := by
  have hmap : op.eval (args.map (Value.map Dual.value)) =
      (op.eval args).map (Value.map Dual.value) := op.eval_map (Dual.valueHom R M) args
  by_cases hcast : op = .ifcast
  · subst hcast
    match args, h with
    | [.int n], h =>
      cases h
      rfl
    | [.real x], h | [.bool b], h | [.obj o], h => cases h
    | [], h => cases h
    | _ :: _ :: _, h => cases h
  · cases hdual : op.eval args with
    | error e =>
      rw [h, hdual] at hmap
      cases hmap
    | ok w =>
      rw [h, hdual] at hmap
      exact congrArg Except.ok (Value.eq_of_map (Except.ok.inj hmap).symm
        (Opcode.eval_ty_ne hop hcast h) _)

end

end Backsweep
