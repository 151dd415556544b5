import Mathlib
import Backsweep.Proofs.Diff.Emission
import Backsweep.Proofs.Diff.Catalogue
import Backsweep.Proofs.Run.Frame
import Backsweep.Proofs.Run.Lawful
import Backsweep.Proofs.Run.Operation

/-!
# What the rules of primitive operations compute

* `Formula`: what a rule computes, as a term;
* `Rule.formula?`: the formula of a rule, found by running it on symbols;
* `inline_run`: the definitions of an inlined rule compute its formula;
* `Opcode.formulas`: the formulas of the primitive operations;
* `formulas_eval`: they are the upstream derivative times the partial derivatives.
-/

namespace Backsweep

/-- What a rule computes from its parameters. -/
inductive Formula where
  | upstream
  | input (i : Nat)
  | primal
  | number (x : Float)
  | unary (op : Opcode) (x : Formula)
  | binary (op : Opcode) (x y : Formula)
deriving DecidableEq

/-- What a rule is given. It may do without some of it. -/
structure Operands (R : Type) where
  upstream : R
  inputs : Nat → Option R
  primal : Option R

/-- The real that an operation gave. -/
def realOf {R : Type} : Except RunError (Value R) → Option R
  | .ok (.real x) => some x
  | _ => none

theorem realOf_eq_some {R : Type} {r : Except RunError (Value R)} {x : R} :
    realOf r = some x ↔ r = .ok (.real x) := by
  unfold realOf
  split
  · simp
  · rename_i h
    constructor
    · intro h'; cases h'
    · intro h'; exact absurd h' (h x)

@[simp] theorem realOf_realUnary {R : Type} (f : R → R) (x : R) :
    realOf (Operation.realUnary f [.real x]) = some (f x) := rfl

@[simp] theorem realOf_realBinary {R : Type} (f : R → R → R) (x y : R) :
    realOf (Operation.realBinary f [.real x, .real y]) = some (f x y) := rfl

namespace Formula

/-- The formula and all its parts. -/
def parts : Formula → List Formula
  | unary op x => unary op x :: x.parts
  | binary op x y => binary op x y :: (x.parts ++ y.parts)
  | φ => [φ]

variable {R : Type} [Scalar R]

def eval (o : Operands R) : Formula → Option R
  | upstream => some o.upstream
  | input i => o.inputs i
  | primal => o.primal
  | number x => some (Scalar.lit x)
  | unary op x => (x.eval o).bind fun a => realOf (op.eval [.real a])
  | binary op x y => (x.eval o).bind fun a => (y.eval o).bind fun b =>
      realOf (op.eval [.real a, .real b])

/-- The parts of a formula with a value have values. -/
theorem eval_part {o : Operands R} {φ ψ : Formula} (h : ψ ∈ φ.parts) {z : R}
    (hz : φ.eval o = some z) : ∃ w, ψ.eval o = some w := by
  induction φ generalizing z with
  | unary op x ih =>
    rcases List.mem_cons.mp h with rfl | h
    · exact ⟨z, hz⟩
    · obtain ⟨a, ha, -⟩ := Option.bind_eq_some_iff.mp hz
      exact ih h ha
  | binary op x y ihx ihy =>
    rcases List.mem_cons.mp h with rfl | h
    · exact ⟨z, hz⟩
    · obtain ⟨a, ha, hz'⟩ := Option.bind_eq_some_iff.mp hz
      obtain ⟨b, hb, -⟩ := Option.bind_eq_some_iff.mp hz'
      rcases List.mem_append.mp h with h | h
      · exact ihx h ha
      · exact ihy h hb
  | _ =>
    rw [List.mem_singleton.mp h]
    exact ⟨z, hz⟩

/-- Only operands that occur in a formula matter. -/
theorem eval_congr {o o' : Operands R} {φ : Formula} (hu : o'.upstream = o.upstream)
    (hi : ∀ i, input i ∈ φ.parts → o'.inputs i = o.inputs i)
    (hp : primal ∈ φ.parts → o'.primal = o.primal) : φ.eval o' = φ.eval o := by
  induction φ with
  | upstream => simp [eval, hu]
  | input i => exact hi i (by simp [parts])
  | primal => exact hp (by simp [parts])
  | number x => rfl
  | unary op x ih =>
    rw [eval, eval, ih (fun i h => hi i (by simp [parts, h])) fun h => hp (by simp [parts, h])]
  | binary op x y ihx ihy =>
    rw [eval, eval, ihx (fun i h => hi i (by simp [parts, h])) fun h => hp (by simp [parts, h]),
      ihy (fun i h => hi i (by simp [parts, h])) fun h => hp (by simp [parts, h])]

end Formula

/-! ## Running rules on symbols -/

abbrev Symbols := Var → Option Formula

namespace Symbols

def set (σ : Symbols) (v : Var) (φ : Formula) : Symbols := fun u => if u = v then some φ else σ u

def setAll (σ : Symbols) : List (Var × Formula) → Symbols
  | [] => σ
  | (v, φ) :: rest => setAll (σ.set v φ) rest

def expr (σ : Symbols) : Expr → Option Formula
  | .const (.real x) => some (.number x)
  | .copy v => σ v
  | .op op [a] => (σ a).map (.unary op)
  | .op op [a, b] => (σ a).bind fun x => (σ b).map (.binary op x)
  | _ => none

/-- The formulas of definitions, and the symbols behind them. -/
def steps (σ : Symbols) : Block → Option (List Formula × Symbols)
  | [] => some ([], σ)
  | .define dst _ e :: ss =>
    (σ.expr e).bind fun φ => (steps (σ.set dst φ) ss).map fun (φs, σ') => (φ :: φs, σ')
  | .ret _ :: ss => steps σ ss
  | _ :: _ => none

end Symbols

namespace Rule

/-- The symbols of the parameters. -/
def symbols (r : Rule) : Symbols :=
  Symbols.setAll (Symbols.set (Symbols.set (fun _ => none) r.upstream .upstream) r.primal .primal)
    (r.inputs.zipIdx.map fun p => (p.1, .input p.2))

/-- Whether the rule reads a parameter. -/
def readsPart (r : Rule) : Formula → Bool
  | .input i => r.readsInput i
  | .primal => r.readsPrimal
  | _ => true

/-- The formula of the result, if it takes all definitions and is of what the rule
is known to read. -/
def formula? (r : Rule) : Option Formula :=
  (r.symbols.steps r.func.body).bind fun (φs, σ) => (σ r.result).bind fun φ =>
    if φs.all φ.parts.contains && φ.parts.all r.readsPart then some φ else none

theorem formula?_eq_some {r : Rule} {φ : Formula} (h : r.formula? = some φ) :
    ∃ φs σ, r.symbols.steps r.func.body = some (φs, σ) ∧ σ r.result = some φ ∧
      (∀ ψ ∈ φs, ψ ∈ φ.parts) ∧ ∀ ψ ∈ φ.parts, r.readsPart ψ = true := by
  obtain ⟨⟨φs, σ⟩, hsteps, h⟩ := Option.bind_eq_some_iff.mp h
  obtain ⟨ψ, hψ, h⟩ := Option.bind_eq_some_iff.mp h
  split at h
  · rename_i hall
    cases h
    simp only [Bool.and_eq_true, List.all_eq_true, List.contains_iff_mem] at hall
    exact ⟨φs, σ, hsteps, hψ, hall.1, hall.2⟩
  · cases h

end Rule

/-! ## Running inlined rules -/

section
variable {R : Type}

/-- The variable holds the real `x`. -/
def Machine.Real (n : Machine R) (v : Var) (x : R) : Prop :=
  (n.var v).map Slot.value = some (.real x)

theorem Machine.Real.congr {n n' : Machine R} {v : Var} {x : R} (h : n.Real v x)
    (hv : n'.var v = n.var v) : n'.Real v x := by
  rw [Machine.Real, hv]
  exact h

theorem Machine.real_setVar {n : Machine R} {v : Var} (hv : v.idx < n.vars.size) {slot : Slot R}
    {x : R} (h : slot.value = .real x) : (n.setVar v slot).Real v x := by
  rw [Machine.Real, Machine.var_setVar_self _ _ _ hv, Option.map_some, h]

variable [Scalar R] {j : Job R} {n : Machine R}

/-- Operations on reals, without a graph. -/
theorem Job.eval_op_reals (hg : n.graph = none) {op : Opcode} {vs : List Var} {xs : List R}
    (hvs : List.Forall₂ n.Real vs xs) {z : R} (h : op.eval (xs.map Value.real) = .ok (.real z)) :
    j.eval (.op op vs) n = .ok { value := .real z } n := by
  obtain ⟨slots, hslots, hvalues⟩ : ∃ slots, vs.map n.var = slots.map some ∧
      Slot.values slots = xs.map Value.real := by
    clear h
    induction hvs with
    | nil => exact ⟨[], rfl, rfl⟩
    | cons hv _ ih =>
      obtain ⟨slots, hslots, hvalues⟩ := ih
      obtain ⟨slot, hslot, hvalue⟩ := Option.map_eq_some_iff.mp hv
      exact ⟨slot :: slots, by simp [hslot, hslots], by simp [Slot.values, hvalue, hvalues]⟩
  have hread : j.readAll vs n = .ok slots n := (j.readAll_eq_ok n).mpr ⟨hslots, rfl⟩
  rw [Job.eval_op, bind_ok hread, Job.operate_apply, hvalues, h, hg]
  rfl

/-- Symbols stand for what variables of the machine hold, as far as they have values. -/
def Symbols.Held (σ : Symbols) (o : Operands R) (m : Rule.Subst) (n : Machine R) (size : Nat) :
    Prop :=
  ∀ v φ, σ v = some φ → (m v).idx < size ∧ ∀ z, φ.eval o = some z → n.Real (m v) z

namespace Symbols

variable {σ : Symbols} {o : Operands R} {m : Rule.Subst} {size : Nat}

theorem Held.set (h : σ.Held o m n size) (v : Var) {w : Var} {φ : Formula} (hw : w.idx < size)
    (hφ : ∀ z, φ.eval o = some z → n.Real w z) : (σ.set v φ).Held o (m.set v w) n size := by
  intro u ψ hψ
  unfold Symbols.set at hψ
  unfold Rule.Subst.set
  split at hψ
  · rename_i hu
    rw [if_pos hu]
    cases hψ
    exact ⟨hw, hφ⟩
  · rename_i hu
    rw [if_neg hu]
    exact h u ψ hψ

/-- An expression that has a formula evaluates to what the formula does. -/
theorem Held.expr (h : σ.Held o m n size) (hg : n.graph = none) {e : Expr} {φ : Formula}
    (he : σ.expr e = some φ) {z : R} (hz : φ.eval o = some z) :
    ∃ slot, j.eval (e.mapVars m) n = .ok slot n ∧ slot.value = .real z := by
  unfold Symbols.expr at he
  split at he
  · cases he
    cases hz
    exact ⟨_, rfl, rfl⟩
  · rename_i v
    obtain ⟨slot, hslot, hvalue⟩ := Option.map_eq_some_iff.mp ((h v φ he).2 z hz)
    exact ⟨slot, j.read_some n hslot, hvalue⟩
  · rename_i op a
    obtain ⟨x, hx, rfl⟩ := Option.map_eq_some_iff.mp he
    obtain ⟨za, hza, hop⟩ := Option.bind_eq_some_iff.mp hz
    have ha : n.Real (m a) za := (h a x hx).2 za hza
    exact ⟨_, Job.eval_op_reals hg (.cons ha .nil) (realOf_eq_some.mp hop), rfl⟩
  · rename_i op a b
    obtain ⟨x, hx, hxy⟩ := Option.bind_eq_some_iff.mp he
    obtain ⟨y, hy, rfl⟩ := Option.map_eq_some_iff.mp hxy
    obtain ⟨za, hza, hzab⟩ := Option.bind_eq_some_iff.mp hz
    obtain ⟨zb, hzb, hop⟩ := Option.bind_eq_some_iff.mp hzab
    have ha : n.Real (m a) za := (h a x hx).2 za hza
    have hb : n.Real (m b) zb := (h b y hy).2 zb hzb
    exact ⟨_, Job.eval_op_reals hg (.cons ha (.cons hb .nil)) (realOf_eq_some.mp hop), rfl⟩
  · cases he

end Symbols

/-- Code ran through and changed variables from `first` on only. -/
structure Scratch (j : Job R) (code : Block) (first : Nat) (n n' : Machine R) : Prop where
  exec : j.execBlock code n = .ok .next n'
  vars : ∀ v : Var, v.idx < first → n'.var v = n.var v
  size : n'.vars.size = n.vars.size
  stack : ∀ t, n'.stack t = n.stack t
  graph : n'.graph = n.graph

/-- Inlined definitions compute the formulas of the rule. -/
theorem Symbols.Held.steps {σ : Symbols} {o : Operands R} {f : Func} {ss stmts : Block} {m m' : Rule.Subst} {l l' : Locals}
    (hinline : Rule.inlineSteps f ss m l = (stmts, m', l')) {φs : List Formula} {σ' : Symbols}
    (hsteps : σ.steps ss = some (φs, σ')) (hφs : ∀ φ ∈ φs, ∃ z, φ.eval o = some z)
    {n : Machine R} (hg : n.graph = none) (hsize : l'.vars.size ≤ n.vars.size)
    (h : σ.Held o m n l.vars.size) :
    ∃ n', Scratch j stmts l.vars.size n n' ∧ σ'.Held o m' n' l'.vars.size := by
  induction ss generalizing σ m l stmts φs n with
  | nil =>
    cases hsteps
    cases hinline
    exact ⟨n, ⟨rfl, fun _ _ => rfl, rfl, fun _ => rfl, rfl⟩, h⟩
  | cons s ss ih =>
    cases s with
    | define dst decl e =>
      obtain ⟨φ, hφ, hrest⟩ := Option.bind_eq_some_iff.mp hsteps
      obtain ⟨⟨ψs, σ₁⟩, hψs, heq⟩ := Option.map_eq_some_iff.mp hrest
      cases heq
      obtain ⟨l₁, stmts₁, -, hsize₁, hinline₁, rfl⟩ := inlineSteps_define hinline
      have hle := (inlineSteps_le hinline₁).size
      obtain ⟨z, hz⟩ := hφs φ (by simp)
      obtain ⟨slot, heval, hslot⟩ := h.expr (j := j) hg hφ hz
      -- the new variable is behind all that are read
      have hset : (σ.set dst φ).Held o (m.set dst ⟨l.vars.size⟩)
          (n.setVar ⟨l.vars.size⟩ slot) l₁.vars.size := by
        have hkept : σ.Held o m (n.setVar ⟨l.vars.size⟩ slot) l₁.vars.size := by
          intro v ψ hψ
          obtain ⟨hlt, hreal⟩ := h v ψ hψ
          refine ⟨by omega, fun w hw => (hreal w hw).congr (Machine.var_setVar_ne _ _ _ _ ?_)⟩
          intro heq
          rw [← heq] at hlt
          simp at hlt
        refine hkept.set dst (by rw [hsize₁]; exact Nat.lt_succ_self _) fun w hw => ?_
        rw [hz] at hw
        cases hw
        exact Machine.real_setVar (show l.vars.size < n.vars.size by omega) hslot
      obtain ⟨n', hscratch, hheld⟩ := ih hinline₁ hψs (fun ψ hψ => hφs ψ (by simp [hψ]))
        (n := n.setVar ⟨l.vars.size⟩ slot) hg (by rw [Machine.size_setVar]; exact hsize) hset
      refine ⟨n', ⟨?_, fun v hv => ?_, ?_, hscratch.stack, hscratch.graph⟩, hheld⟩
      · rw [j.execBlock_define_ok heval]
        exact hscratch.exec
      · rw [hscratch.vars v (by omega), Machine.var_setVar_ne]
        intro heq
        rw [← heq] at hv
        simp at hv
      · rw [hscratch.size, Machine.size_setVar]
    | ret vals => exact ih hinline hsteps hφs hg hsize h
    | _ => cases hsteps

/-- What an inlined rule is given where it stands. -/
structure Operands.Given (o : Operands R) (n : Machine R) (size : Nat) (upstream : Var)
    (inputs : List Var) (primal : Var) : Prop where
  upstream : upstream.idx < size ∧ n.Real upstream o.upstream
  inputs : ∀ i v, inputs[i]? = some v → v.idx < size ∧ ∀ x, o.inputs i = some x → n.Real v x
  primal : primal.idx < size ∧ ∀ x, o.primal = some x → n.Real primal x

theorem Symbols.Held.setAll {σ : Symbols} {o : Operands R} {m : Rule.Subst} {size : Nat}
    {vs ws : List Var} {k : Nat} (h : σ.Held o m n size)
    (hws : ∀ i w, ws[i]? = some w → w.idx < size ∧ ∀ x, o.inputs (k + i) = some x → n.Real w x)
    (hlength : ws.length = vs.length) :
    (σ.setAll ((vs.zipIdx k).map fun p => (p.1, .input p.2))).Held o (m.setAll (vs.zip ws)) n size := by
  induction vs generalizing σ m ws k with
  | nil => exact h
  | cons v vs ih =>
    cases ws with
    | nil => cases hlength
    | cons w ws =>
      obtain ⟨hw, hreal⟩ := hws 0 w rfl
      refine ih (h.set v hw hreal) (fun i u hu => ?_) (Nat.succ.inj hlength)
      obtain ⟨hu', hreal'⟩ := hws (i + 1) u hu
      exact ⟨hu', fun x hx => hreal' x (by rw [← hx]; congr 1; omega)⟩

/-- The symbols of the parameters stand for what the rule is given. -/
theorem Operands.Given.held {r : Rule} {o : Operands R} {size : Nat} {upstream primal : Var}
    {inputs : List Var} (ho : o.Given n size upstream inputs primal)
    (hlength : inputs.length = r.inputs.length) :
    r.symbols.Held o (Rule.Subst.setAll ((Rule.Subst.set id r.upstream upstream).set r.primal primal)
      (r.inputs.zip inputs)) n size := by
  have hnone : Symbols.Held (fun _ => none) o id n size := fun _ _ h => by cases h
  have hup := hnone.set r.upstream ho.upstream.1
    fun x (hx : Formula.upstream.eval o = some x) => by
      cases hx
      exact ho.upstream.2
  have hpr := hup.set r.primal ho.primal.1
    fun x (hx : Formula.primal.eval o = some x) => ho.primal.2 x hx
  refine hpr.setAll (fun i w hw => ?_) hlength
  rw [Nat.zero_add]
  exact ho.inputs i w hw

omit [Scalar R] in
theorem Sweep.inline_eq_ok {r : Rule} {upstream primal contribution : Var} {inputs : List Var}
    {l l' : Locals} {stmts : Block}
    (h : Sweep.inline r upstream inputs primal l = .ok ((stmts, contribution), l')) :
    ∃ m', contribution = m' r.result ∧ Rule.inlineSteps r.func r.func.body (Rule.Subst.setAll
      ((Rule.Subst.set id r.upstream upstream).set r.primal primal) (r.inputs.zip inputs)) l =
        (stmts, m', l') := by
  generalize hi : Rule.inlineSteps r.func r.func.body (Rule.Subst.setAll ((Rule.Subst.set id r.upstream
    upstream).set r.primal primal) (r.inputs.zip inputs)) l = res
  obtain ⟨stmts', m', l₁⟩ := res
  have heq : (.ok ((stmts', m' r.result), l₁) : Except DiffError _) =
      .ok ((stmts, contribution), l') := by
    rw [← h]
    simp only [Sweep.inline, Rule.inline, hi]
  cases heq
  exact ⟨m', rfl, rfl⟩

/-- **An inlined rule computes its formula.** -/
theorem inline_run {r : Rule} {φ : Formula} (hφ : r.formula? = some φ) {o : Operands R} {z : R}
    (hz : φ.eval o = some z) {upstream primal contribution : Var} {inputs : List Var} {l l' : Locals}
    {stmts : Block} (hinline : Sweep.inline r upstream inputs primal l = .ok ((stmts, contribution), l'))
    (hg : n.graph = none) (hsize : l'.vars.size ≤ n.vars.size)
    (ho : o.Given n l.vars.size upstream inputs primal) (hlength : inputs.length = r.inputs.length) :
    contribution.idx < l'.vars.size ∧ l.vars.size ≤ l'.vars.size ∧
      ∃ n', Scratch j stmts l.vars.size n n' ∧ n'.Real contribution z := by
  obtain ⟨φs, σ, hsteps, hresult, hparts, -⟩ := Rule.formula?_eq_some hφ
  obtain ⟨m', rfl, hi⟩ := Sweep.inline_eq_ok hinline
  obtain ⟨n', hscratch, hheld⟩ := (ho.held hlength).steps (j := j) hi hsteps
    (fun ψ hψ => Formula.eval_part (hparts ψ hψ) hz) hg hsize
  obtain ⟨hlt, hreal⟩ := hheld r.result φ hresult
  exact ⟨hlt, (inlineSteps_le hi).size, n', hscratch, hreal z hz⟩

end

/-! ## The table -/

open Formula in
/-- What the rules of the operation compute, input by input. -/
def Opcode.formulas : Opcode → List Formula
  | fneg => [unary fneg upstream]
  | fadd => [upstream, upstream]
  | fsub => [upstream, unary fneg upstream]
  | fmul => [binary fmul upstream (input 1), binary fmul upstream (input 0)]
  | fdiv => [binary fdiv upstream (input 1),
      unary fneg (binary fmul upstream (binary fdiv primal (input 1)))]
  | sin => [binary fmul upstream (unary cos (input 0))]
  | cos => [unary fneg (binary fmul upstream (unary sin (input 0)))]
  | tan => [binary fmul upstream (binary fadd (number 1.0) (binary fmul primal primal))]
  | exp => [binary fmul upstream primal]
  | ln => [binary fdiv upstream (input 0)]
  | sqrt => [binary fdiv upstream (binary fmul (number 2.0) primal)]
  | pow => [binary fmul upstream (binary fmul (input 1)
        (binary pow (input 0) (binary fsub (input 1) (number 1.0)))),
      binary fmul upstream (binary fmul primal (unary ln (input 0)))]
  | tanh => [binary fmul upstream (binary fsub (number 1.0) (binary fmul primal primal))]
  | _ => []

/-- The operations with rules. -/
def Opcode.primitives : List Opcode :=
  [fneg, fadd, fsub, fmul, fdiv, sin, cos, tan, exp, ln, sqrt, pow, tanh]

theorem Opcode.mem_primitives {op : Opcode} (h : op.isDifferentiable = true) :
    op ∈ primitives := by
  cases op <;> first | decide | cases h

/-- Only differentiable operations have rules. -/
theorem builtin_differentiable {op : Opcode} {n : Node}
    (h : Catalogue.builtin.find? ("math." ++ op.name) = some n) : op.isDifferentiable = true := by
  have hnone : ∀ op ∈ [Opcode.iadd, .isub, .imul, .ineg, .flt, .fgt, .fle, .fge, .feq, .fne, .ilt,
      .igt, .ile, .ige, .ieq, .ine, .bnot, .ifcast],
      (Catalogue.builtin.find? ("math." ++ op.name)).isNone = true := by
    decide +kernel
  cases hop : op.isDifferentiable with
  | true => rfl
  | false =>
    have hmem := hnone op (by cases op <;> first | decide | cases hop)
    rw [h] at hmem
    cases hmem

theorem builtin_formulas {op : Opcode} (hop : op.isDifferentiable = true) {n : Node}
    (h : Catalogue.builtin.find? ("math." ++ op.name) = some n) :
    n.rules.map Rule.formula? = op.formulas.map some := by
  have hall : ∀ op ∈ Opcode.primitives,
      (Catalogue.builtin.find? ("math." ++ op.name)).all
        (fun n => n.rules.map Rule.formula? = op.formulas.map some) = true := by
    decide +kernel
  have hn := hall op (Opcode.mem_primitives hop)
  rw [h] at hn
  simpa using hn

/-- The rules of a node take all of its inputs. -/
theorem builtin_inputs {n : Node} (h : n ∈ Catalogue.builtin.nodes) :
    ∀ r ∈ n.rules, r.inputs.length = n.arity := by
  have hall : Catalogue.builtin.nodes.all (fun n => n.rules.all fun r =>
      r.inputs.length == n.arity) = true := by
    decide +kernel
  intro r hr
  exact beq_iff_eq.mp (List.all_eq_true.mp (List.all_eq_true.mp hall n h) r hr)

section
variable {R : Type} [Field R] [LawfulScalar R]

/-- **The formulas are the upstream derivative times the partial derivatives.** -/
theorem formulas_eval {op : Opcode} (hop : op.isDifferentiable = true) (u : R) {xs : List R} {y : R}
    (h : op.eval (xs.map Value.real) = .ok (.real y)) {ps : List R}
    (hps : op.partials (xs.map Value.real) y = .ok ps) :
    op.formulas.map (Formula.eval ⟨u, (xs[·]?), some y⟩) = ps.map fun w => some (u * w) := by
  have hinj : Function.Injective (List.map (Value.real (R := R))) :=
    List.map_injective_iff.mpr fun _ _ => Value.real.inj
  cases op
  case fneg | sin | cos | tan | exp | tanh =>
    obtain ⟨x, hx, -⟩ := Operation.realUnary_eq_ok.mp h
    obtain rfl : xs = [x] := hinj hx
    cases hps
    simp [Opcode.formulas, Formula.eval, Opcode.eval]
  case ln | sqrt =>
    obtain ⟨x, hx, -⟩ := Operation.realUnary_eq_ok.mp h
    obtain rfl : xs = [x] := hinj hx
    cases hps
    simp [Opcode.formulas, Formula.eval, Opcode.eval]
    ring
  case fadd | fsub | fmul | pow =>
    obtain ⟨a, b, hx, -⟩ := Operation.realBinary_eq_ok.mp h
    obtain rfl : xs = [a, b] := hinj hx
    cases hps
    simp [Opcode.formulas, Formula.eval, Opcode.eval]
  case fdiv =>
    obtain ⟨a, b, hx, hy⟩ := Operation.realBinary_eq_ok.mp h
    obtain rfl : xs = [a, b] := hinj hx
    obtain rfl := Value.real.inj hy
    cases hps
    simp only [Opcode.formulas, Formula.eval, Opcode.eval, realOf_realUnary, realOf_realBinary,
      LawfulScalar.div_eq, LawfulScalar.mul_eq, LawfulScalar.neg_eq, LawfulScalar.lit_one,
      List.map_cons, List.map_nil, List.getElem?_cons_succ, List.getElem?_cons_zero,
      Option.bind_some, List.cons.injEq, Option.some.injEq, and_true]
    constructor
    · ring
    · ring
  all_goals cases hop

end

end Backsweep
