import Mathlib
import Backsweep.Proofs.Diff.Formula
import Backsweep.Proofs.Diff.Registration

/-!
# Rules and partial derivatives

The derivatives of primitive operations are written down twice: as rules, from which derivative
code is generated, and as the partial derivatives that graphs record.

* `Symbols.Held.returns`, `Rule.run_formula`: rules that are run, and not inlined, compute their
  formulas as well;
* `builtin_run_partials`: what they return is the upstream derivative times the recorded one.
-/

namespace Backsweep

/-! ## Running rules -/

namespace Rule.Subst

theorem set_self (v : Var) : Subst.set id v v = id := by
  funext u
  unfold Subst.set
  split
  · rename_i hu
    exact hu.symm
  · rfl

theorem setAll_self (vs : List Var) : Subst.setAll id (vs.zip vs) = id := by
  induction vs with
  | nil => rfl
  | cons v vs ih => rw [List.zip_cons_cons, setAll, set_self, ih]

end Rule.Subst

section
variable {R : Type}

theorem Func.var_entered {f : Func} (hnodup : f.params.Nodup)
    (hroom : ∀ v ∈ f.params, v.idx < f.vars.size) (world : World R) {args : List (Value R)} {i : Nat}
    {v : Var} {x : Value R} (hv : f.params[i]? = some v) (hx : args[i]? = some x) :
    (f.entered world args).var v = some { value := x } := by
  refine Machine.enter_param hnodup (fun w hw => ?_) hv (by rw [List.getElem?_map, hx]; rfl)
  simpa [Machine.new] using hroom w hw

variable [Scalar R] {j : Job R} {n : Machine R} {σ σ' : Symbols} {o : Operands R}

/-- Definitions that are run where they stand compute their formulas. -/
theorem Symbols.Held.returns {ss : Block} (hss : ∀ s ∈ ss, Rule.isStep s = true) {result : Var}
    {φs : List Formula} (hsteps : σ.steps (ss ++ [.ret [result]]) = some (φs, σ'))
    (hφs : ∀ φ ∈ φs, ∃ z, φ.eval o = some z) {φ : Formula} (hφ : σ' result = some φ) {z : R}
    (hz : φ.eval o = some z) (hg : n.graph = none) (hroom : ∀ v ∈ blockDecls ss, v.idx < n.vars.size)
    (h : σ.Held o id n n.vars.size) :
    ∃ slot n', j.execBlock (ss ++ [.ret [result]]) n = .ok (.ret [slot]) n' ∧
      slot.value = .real z ∧ n'.world = n.world := by
  induction ss generalizing σ φs n with
  | nil =>
    cases hsteps
    obtain ⟨slot, hslot, hvalue⟩ := Option.map_eq_some_iff.mp ((h result φ hφ).2 z hz)
    have hread : j.readAll [result] n = .ok [slot] n :=
      (j.readAll_eq_ok n).mpr ⟨by simpa using hslot, rfl⟩
    refine ⟨slot, n, ?_, hvalue, rfl⟩
    rw [List.nil_append, j.execBlock_singleton, j.exec_ret, bind_ok hread]
    rfl
  | cons s ss ih =>
    obtain ⟨dst, e, rfl⟩ := Rule.exists_define_of_isStep (hss s List.mem_cons_self)
    obtain ⟨ψ, hψ, hrest⟩ := Option.bind_eq_some_iff.mp hsteps
    obtain ⟨⟨ψs, σ₁⟩, hψs, heq⟩ := Option.map_eq_some_iff.mp hrest
    cases heq
    obtain ⟨w, hw⟩ := hφs ψ (by simp)
    obtain ⟨slot, heval, hvalue⟩ := h.expr (j := j) hg hψ hw
    rw [e.mapVars_id] at heval
    have hdst : dst.idx < n.vars.size := hroom dst (by simp [blockDecls, Stmt.decl?])
    -- the symbol of `dst` changes with `dst`, all others are untouched
    have hset : (σ.set dst ψ).Held o id (n.setVar dst slot) (n.setVar dst slot).vars.size := by
      intro v χ hχ
      rw [Machine.size_setVar]
      unfold Symbols.set at hχ
      split at hχ
      · rename_i hv
        subst hv
        cases hχ
        refine ⟨hdst, fun x hx => ?_⟩
        rw [hw] at hx
        cases hx
        exact Machine.real_setVar hdst hvalue
      · rename_i hv
        obtain ⟨hlt, hreal⟩ := h v χ hχ
        exact ⟨hlt, fun x hx => (hreal x hx).congr (Machine.var_setVar_ne _ _ _ _ (Ne.symm hv))⟩
    obtain ⟨slot', n', hexec, hvalue', hworld⟩ := ih (fun s hs => hss s (List.mem_cons_of_mem _ hs))
      hψs (fun χ hχ => hφs χ (by simp [hχ])) (n := n.setVar dst slot) hg
      (fun v hv => by
        rw [Machine.size_setVar]
        exact hroom v (List.mem_cons_of_mem dst hv)) hset
    refine ⟨slot', n', ?_, hvalue', hworld⟩
    rw [List.cons_append, j.execBlock_define_ok heval]
    exact hexec

namespace Rule

variable {r : Rule} {steps : Block} {u y : R} {xs : List R}

omit [Scalar R] in
/-- The operands that a run of the rule's function starts with. -/
theorem Accepted.given (hr : Accepted r.func r steps)
    (hroom : ∀ v ∈ r.func.params, v.idx < r.func.vars.size) (hxs : xs.length = r.inputs.length)
    (world : World R) :
    Operands.Given ⟨u, (xs[·]?), some y⟩
      (r.func.entered world (.real u :: xs.map Value.real ++ [.real y])) r.func.vars.size
      r.upstream r.inputs r.primal := by
  have real {i : Nat} {v : Var} {x : R} (hv : r.func.params[i]? = some v)
      (hx : (.real u :: xs.map Value.real ++ [.real y])[i]? = some (.real x)) :
      v.idx < r.func.vars.size ∧
        (r.func.entered world (.real u :: xs.map Value.real ++ [.real y])).Real v x := by
    refine ⟨hroom v (List.mem_of_getElem? hv), ?_⟩
    rw [Machine.Real, Func.var_entered (Func.nodup_of_isValid hr.valid).of_append_left hroom world
      hv hx]
    rfl
  have hinput {i : Nat} {v : Var} (hv : r.inputs[i]? = some v) :
      r.func.params[i + 1]? = some v := by
    have hi := (List.getElem?_eq_some_iff.mp hv).1
    rw [hr.params, List.cons_append, List.getElem?_cons_succ, List.getElem?_append_left hi, hv]
  have hprimal : r.func.params[xs.length + 1]? = some r.primal := by
    simp [hr.params, hxs]
  refine ⟨real (i := 0) (by simp [hr.params]) rfl, fun i v hv => ?_, ?_⟩
  · refine ⟨hroom v (List.mem_of_getElem? (hinput hv)), fun x (hx : xs[i]? = some x) => ?_⟩
    have hi := (List.getElem?_eq_some_iff.mp hx).1
    apply (real (hinput hv) _).2
    rw [List.cons_append, List.getElem?_cons_succ, List.getElem?_append_left (by simpa using hi),
      List.getElem?_map, hx]
    rfl
  · have hy := real hprimal (x := y) (by simp)
    exact ⟨hy.1, fun x hx => Option.some.inj hx ▸ hy.2⟩

/-- **A rule that is run computes its formula.** -/
theorem Accepted.run_formula (hr : Accepted r.func r steps)
    (hroom : ∀ v ∈ r.func.params ++ blockDecls r.func.body, v.idx < r.func.vars.size)
    {φ : Formula} (hφ : r.formula? = some φ) (hxs : xs.length = r.inputs.length) {z : R}
    (hz : φ.eval ⟨u, (xs[·]?), some y⟩ = some z) (externs : Externs R) (limit : Nat)
    (world : World R) :
    (⟨r.func, externs, limit⟩ : Job R).runFresh (.real u :: xs.map Value.real ++ [.real y]) world =
      .ok [.real z] world := by
  generalize hargs : (.real u :: xs.map Value.real ++ [.real y] : List (Value R)) = args
  obtain ⟨φs, σ, hsteps, hresult, hparts, -⟩ := formula?_eq_some hφ
  have hgiven := hr.given (u := u) (y := y) (fun v hv => hroom v (List.mem_append_left _ hv)) hxs world
  have hheld := hgiven.held rfl
  rw [Subst.set_self, Subst.set_self, Subst.setAll_self, hargs,
    ← r.func.size_entered world args] at hheld
  rw [hr.body] at hsteps
  have hkeeps := Machine.enter_keeps (Machine.new r.func world) r.func.params
    (args.map ({ value := · }))
  have hdecls (v : Var) (hv : v ∈ blockDecls steps) :
      v.idx < (r.func.entered world args).vars.size := by
    rw [r.func.size_entered]
    apply hroom
    rw [hr.body, blockDecls_append]
    exact List.mem_append_right _ (List.mem_append_left _ hv)
  obtain ⟨slot, n', hexec, hvalue, hworld⟩ := hheld.returns (j := ⟨r.func, externs, limit⟩)
    hr.steps hsteps (fun ψ hψ => Formula.eval_part (hparts ψ hψ) hz) hresult hz hkeeps.2.2.1 hdecls
  have hrun : (⟨r.func, externs, limit⟩ : Job R).run args (.new r.func world) =
      .ok [.real z] n' := by
    apply (Job.run_eq_ok _ _).mpr
    refine ⟨[slot], ?_, by rw [← hvalue]; rfl⟩
    rw [Job.runSlots_eq _ _ (by simp [hr.params, hxs, ← hargs])]
    dsimp only
    rw [hr.body]
    exact congrArg Flow.results hexec
  rw [Job.runFresh, hrun]
  exact congrArg _ (hworld.trans hkeeps.2.1)

end Rule

end

/-! ## The table -/

/-- The rules of a primitive operation: what they are called, and that their tables have room. -/
def Node.isPrimitive (n : Node) (op : Opcode) : Bool :=
  n.arity == op.arity &&
  n.rules.map (·.func.name) ==
    (List.range op.arity).map ("math." ++ op.name ++ ".d" ++ toString ·) &&
  n.rules.all fun r => (r.func.params ++ blockDecls r.func.body).all (·.idx < r.func.vars.size)

theorem builtin_isPrimitive {op : Opcode} (hop : op.isDifferentiable = true) :
    ∃ n, Catalogue.builtin.find? ("math." ++ op.name) = some n ∧ n.isPrimitive op = true := by
  have hall : ∀ op ∈ Opcode.primitives,
      (Catalogue.builtin.find? ("math." ++ op.name)).any (·.isPrimitive op) = true := by
    decide +kernel
  have hn := hall op (Opcode.mem_primitives hop)
  cases hfound : Catalogue.builtin.find? ("math." ++ op.name) with
  | none => rw [hfound] at hn; cases hn
  | some n => rw [hfound] at hn; exact ⟨n, rfl, hn⟩

theorem Catalogue.reached_builtin : builtin.Reached := by
  have hbuiltin : builtin = endState (addFuncs Builtin.rules {}) := by
    unfold builtin
    generalize addFuncs Builtin.rules {} = r
    cases r <;> rfl
  rw [hbuiltin]
  exact .funcs _ .empty

section
variable {R : Type}

/-- Differentiable operations have a result on any reals. -/
theorem Opcode.eval_reals [Scalar R] {op : Opcode} (hop : op.isDifferentiable = true) {xs : List R}
    (hxs : xs.length = op.arity) : ∃ y, op.eval (xs.map Value.real) = .ok (.real y) := by
  cases op
  case fneg | sin | cos | tan | exp | ln | sqrt | tanh =>
    obtain ⟨x, rfl⟩ := List.length_eq_one_iff.mp hxs
    exact ⟨_, rfl⟩
  case fadd | fsub | fmul | fdiv | pow =>
    obtain ⟨a, b, rfl⟩ := List.length_eq_two.mp hxs
    exact ⟨_, rfl⟩
  all_goals cases hop

/-- What a rule of a primitive operation returns is what its formula gives. -/
theorem builtin_run_formula [Scalar R] {op : Opcode} {n : Node}
    (hfound : Catalogue.builtin.find? ("math." ++ op.name) = some n)
    (hn : n.isPrimitive op = true) {r : Rule} (hr : r ∈ n.rules) {φ : Formula}
    (hφ : r.formula? = some φ) {u y z : R} {xs : List R} (hxs : xs.length = op.arity)
    (hz : φ.eval ⟨u, (xs[·]?), some y⟩ = some z) (externs : Externs R) (limit : Nat)
    (world : World R) :
    (⟨r.func, externs, limit⟩ : Job R).runFresh (.real u :: xs.map Value.real ++ [.real y]) world =
      .ok [.real z] world := by
  have hmem := Catalogue.mem_of_find? hfound
  obtain ⟨i, hi⟩ := List.mem_iff_getElem?.mp hr
  have hserves := (Catalogue.reached_builtin.consistent.complete n hmem).rules i r hi
  obtain ⟨steps, haccepted⟩ := Rule.accepted_of_ofFunc hserves.accepted
  simp only [Node.isPrimitive, Bool.and_eq_true, beq_iff_eq, List.all_eq_true,
    decide_eq_true_eq] at hn
  have hinputs : xs.length = r.inputs.length := by
    rw [hxs, ← hn.1.1, builtin_inputs hmem r hr]
  exact haccepted.run_formula (hn.2 r hr) hφ hinputs hz externs limit world

/-- **The rules of primitive operations return the upstream derivative times the partial
derivative that a graph records.** -/
theorem builtin_run_partials [Field R] [LawfulScalar R] (op : Opcode)
    (hop : op.isDifferentiable = true) (xs : List R) (hxs : xs.length = op.arity) (u : R) :
    ∃ (y : R) (ps : List R) (n : Node),
      op.eval (xs.map Value.real) = .ok (.real y) ∧
      op.partials (xs.map Value.real) y = .ok ps ∧ ps.length = op.arity ∧
      Catalogue.builtin.find? ("math." ++ op.name) = some n ∧
      n.rules.map (·.func.name) =
        (List.range op.arity).map ("math." ++ op.name ++ ".d" ++ toString ·) ∧
      ∀ (externs : Externs R) (limit : Nat) (world : World R),
        n.rules.map (fun r => (⟨r.func, externs, limit⟩ : Job R).runFresh
          (.real u :: xs.map Value.real ++ [.real y]) world) =
        ps.map fun p => .ok [.real (u * p)] world := by
  obtain ⟨y, hy⟩ := op.eval_reals hop hxs
  obtain ⟨xs', y', ps, -, hy', hps, hlength⟩ := Opcode.eval_differentiable hop hy
  cases hy'
  obtain ⟨n, hfound, hn⟩ := builtin_isPrimitive hop
  have hnames : n.rules.map (·.func.name) =
      (List.range op.arity).map ("math." ++ op.name ++ ".d" ++ toString ·) := by
    simp only [Node.isPrimitive, Bool.and_eq_true, beq_iff_eq] at hn
    exact hn.1.2
  refine ⟨y, ps, n, hy, hps, by simpa [hxs] using hlength, hfound, hnames, fun externs limit world => ?_⟩
  have hformulas := builtin_formulas hop hfound
  have hvalues := formulas_eval hop u hy hps
  -- both tables list one entry for each operand, so they are compared entry by entry
  apply List.ext_getElem?
  intro i
  have hformula := congrArg (·[i]?) hformulas
  have hvalue := congrArg (·[i]?) hvalues
  simp only [List.getElem?_map] at hformula hvalue ⊢
  cases hr : n.rules[i]? with
  | none =>
    rw [hr, Option.map_none, eq_comm, Option.map_eq_none_iff] at hformula
    rw [hformula, Option.map_none, eq_comm, Option.map_eq_none_iff] at hvalue
    rw [hvalue]
    rfl
  | some r =>
    rw [hr, Option.map_some, eq_comm] at hformula
    obtain ⟨φ, hφ, hrφ⟩ := Option.map_eq_some_iff.mp hformula
    rw [hφ, Option.map_some, eq_comm] at hvalue
    obtain ⟨p, hp, hz⟩ := Option.map_eq_some_iff.mp hvalue
    have hrun := builtin_run_formula hfound hn (List.mem_of_getElem? hr) hrφ.symm hxs hz.symm externs
      limit world
    simp only [hp, Option.map_some, hrun]

/-- The rules of division at three quarters, against its partial derivatives. -/
theorem fdiv_run_partials : ∃ n : Node,
    Catalogue.builtin.find? "math.fdiv" = some n ∧
    ∀ (externs : Externs ℚ) (limit : Nat) (world : World ℚ),
      n.rules.map (fun r => (⟨r.func, externs, limit⟩ : Job ℚ).runFresh
        [.real 5, .real 3, .real 4, .real (3 / 4)] world) =
      [.ok [.real (5 / 4)] world, .ok [.real (-15 / 16)] world] := by
  obtain ⟨y, ps, n, hy, hps, -, hfound, -, hrun⟩ :=
    builtin_run_partials .fdiv (by decide) ([3, 4] : List ℚ) rfl 5
  cases hy
  cases hps
  refine ⟨n, hfound, fun externs limit world => ?_⟩
  rw [show (3 : ℚ) / 4 = Scalar.div 3 4 from rfl]
  refine (hrun externs limit world).trans ?_
  norm_num

end

end Backsweep
