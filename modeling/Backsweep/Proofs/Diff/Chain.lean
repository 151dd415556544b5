import Mathlib
import Backsweep.Proofs.Diff.Adjoint

/-!
# The chain rule

The reverse code of a call adds to the adjoint of each argument the adjoint of the
result times the partial derivative. The adjoints behind the call and before it are
then of the same sum with the tangents.

* `contributions_run`: what the inlined rules add to the accumulators;
* `call_paired`: the reverse code of a call;
* `pairing_upkeep`: the sum is kept up along the reverse section.
-/

namespace Backsweep

variable {c : ActiveCall} {op : Opcode}
variable {size : Nat} {saved : List (Var × Var)} {la : Locals}

theorem Sweep.contributions_size {s : Sweep} {accs : Accumulators} {pushback : Opcode}
    {upstream primal : Var} {ins : List Var} {ruled : List (Var × Bool × Rule)} {l l' : Locals}
    {code : Block} (h : s.contributions accs pushback upstream ins primal ruled l = .ok (code, l')) :
    l.vars.size ≤ l'.vars.size := by
  induction ruled generalizing l code with
  | nil =>
    obtain ⟨-, rfl⟩ := emit_pure_eq_ok.mp h
    exact Nat.le_refl _
  | cons p ruled ih =>
    obtain ⟨arg, active, rule⟩ := p
    cases active with
    | false => exact ih h
    | true =>
      obtain ⟨stmts, contribution, l₁, a, code', hinline, -, hrest, -⟩ := contributions_eq_ok h
      obtain ⟨_, -, hsteps⟩ := inline_eq_ok hinline
      exact Nat.le_trans (inlineSteps_le hsteps).size (ih hrest)

variable {R : Type} [Field R] [LawfulScalar R] {j : Job R}
variable {A : Var → R} {P : R} {xs : List R} {args : List (Slot R)}

section
variable {s : Sweep} {accs : Accumulators} {D : Finset Var} {base : Nat} {upstream primal : Var}
  {ins : List Var} {o : Operands R}

/-- An argument of a call whose rule, if it is used, has the value `w`. -/
def Contributes (D : Finset Var) (o : Operands R) (arity : Nat) (p : Var × Bool × Rule) (w : R) :
    Prop :=
  p.1 ∈ D ∧ (p.2.1 = true → p.2.2.inputs.length = arity ∧
    ∃ φ, p.2.2.formula? = some φ ∧ φ.eval o = some w)

/-- What the contributions `ws` add to the sum of adjoints times `τ`. -/
def contributed (ruled : List (Var × Bool × Rule)) (ws : List R) (τ : Var → R) : R :=
  ((ruled.zip ws).map fun p => if p.1.2.1 then p.2 * τ p.1.1 else 0).sum

variable {n : Machine R}

omit [Field R] [LawfulScalar R] in
theorem Operands.Given.congr {n' : Machine R} {size' : Nat} (h : o.Given n size upstream ins primal)
    (hsize : size ≤ size') (hn : ∀ v, v = upstream ∨ v ∈ ins ∨ v = primal → n'.var v = n.var v) :
    o.Given n' size' upstream ins primal where
  upstream := ⟨Nat.lt_of_lt_of_le h.upstream.1 hsize, h.upstream.2.congr (hn _ (.inl rfl))⟩
  inputs i v hv := by
    obtain ⟨hlt, hreal⟩ := h.inputs i v hv
    exact ⟨Nat.lt_of_lt_of_le hlt hsize, fun x hx =>
      (hreal x hx).congr (hn v (.inr (.inl (List.mem_of_getElem? hv))))⟩
  primal := ⟨Nat.lt_of_lt_of_le h.primal.1 hsize, fun x hx =>
    (h.primal.2 x hx).congr (hn _ (.inr (.inr rfl)))⟩

omit [Field R] [LawfulScalar R] in
theorem Operands.Given.lt (h : o.Given n size upstream ins primal) {v : Var}
    (hv : v = upstream ∨ v ∈ ins ∨ v = primal) : v.idx < size := by
  rcases hv with rfl | hv | rfl
  · exact h.upstream.1
  · obtain ⟨i, hi⟩ := List.mem_iff_getElem?.mp hv
    exact (h.inputs i v hi).1
  · exact h.primal.1

/-- The accumulator of each active argument gets its contribution. No rule reads what
another one wrote. -/
theorem contributions_run {ruled : List (Var × Bool × Rule)} {ws : List R} {l l' : Locals}
    {code : Block} (hcode : s.contributions accs .fadd upstream ins primal ruled l = .ok (code, l'))
    (hws : List.Forall₂ (Contributes D o ins.length) ruled ws) (hg : n.graph = none)
    (hfit : accs.Fit base l.vars.size) (hsize : l'.vars.size ≤ n.vars.size)
    (ho : o.Given n l.vars.size upstream ins primal)
    (hfree : ∀ p ∈ ruled, ∀ a, accs.find? p.1 = some a →
      ¬(a = upstream ∨ a ∈ ins ∨ a = primal)) (hheld : accs.Hold D n A P) :
    ∃ n' A', j.execBlock code n = .ok .next n' ∧ n'.graph = none ∧
      (∀ t, n'.stack t = n.stack t) ∧ accs.Hold D n' A' P ∧
      (∀ v, v ∉ ruled.map Prod.fst → A' v = A v) ∧
      ∀ τ : Var → R, ∑ v ∈ D, A' v * τ v = ∑ v ∈ D, A v * τ v + contributed ruled ws τ := by
  induction hws generalizing l code n A with
  | nil =>
    obtain ⟨rfl, rfl⟩ := emit_pure_eq_ok.mp hcode
    exact ⟨n, A, rfl, hg, fun _ => rfl, hheld, fun _ _ => rfl, fun τ => by simp [contributed]⟩
  | @cons p w ruled ws hp _ ih =>
    obtain ⟨arg, active, rule⟩ := p
    have hsplit (τ : Var → R) : contributed ((arg, active, rule) :: ruled) (w :: ws) τ =
        (if active then w * τ arg else 0) + contributed ruled ws τ := rfl
    cases active with
    | false =>
      rw [Sweep.contributions_skip] at hcode
      obtain ⟨n', A', hexec, hg', hstack, hheld', hsame, hsum⟩ :=
        ih hcode hg hfit hsize ho (fun p hp => hfree p (List.mem_cons_of_mem _ hp)) hheld
      refine ⟨n', A', hexec, hg', hstack, hheld', fun v hv => hsame v fun h => ?_, fun τ => ?_⟩
      · exact hv (List.mem_cons_of_mem _ h)
      · rw [hsum, hsplit, if_neg (by decide), zero_add]
    | true =>
      obtain ⟨hD, hrule⟩ := hp
      obtain ⟨hlength, φ, hφ, hw⟩ := hrule rfl
      obtain ⟨stmts, contribution, l₁, a, code', hinline, ha, hrest, rfl⟩ :=
        Sweep.contributions_eq_ok hcode
      have hle : l₁.vars.size ≤ l'.vars.size := Sweep.contributions_size hrest
      obtain ⟨hlt, hle₁, n₁, hscratch, hreal⟩ := inline_run (j := j) hφ hw hinline hg
        (Nat.le_trans hle hsize) ho hlength.symm
      have hheld₁ : accs.Hold D n₁ A P := hheld.congr fun b hb => hscratch.vars b (hfit.has hb).2
      have hg₁ : n₁.graph = none := hscratch.graph.trans hg
      have hfree' := hfree _ List.mem_cons_self a ha
      obtain ⟨n', A', hexec, hg', hstack, hheld', hsame, hsum⟩ := ih hrest
        (n := n₁.setVar a { value := .real (A arg + w) }) (A := Function.update A arg (A arg + w))
        hg₁ (hfit.mono hle₁) (by rw [Machine.size_setVar, hscratch.size]; exact hsize)
        (ho.congr hle₁ fun v hv => by
          rw [Machine.var_setVar_ne _ _ _ _ (show a ≠ v by rintro rfl; exact hfree' hv),
            hscratch.vars v (ho.lt hv)])
        (fun p hp => hfree p (List.mem_cons_of_mem _ hp))
        (hheld₁.set hfit (by rw [hscratch.size]; omega) ha _ rfl)
      refine ⟨n', A', ?_, hg', fun t => ?_, hheld', fun v hv => ?_, fun τ => ?_⟩
      · rw [j.execBlock_append_next hscratch.exec,
          execBlock_fold hg₁ (hheld₁.real arg hD a ha) hreal, hexec]
      · rw [hstack, Machine.stack_setVar, hscratch.stack]
      · simp only [List.map_cons, List.mem_cons, not_or] at hv
        rw [hsame v hv.2, Function.update_of_ne hv.1]
      · rw [hsum, sum_update hD, hsplit, if_pos rfl, add_assoc]

end

/-! ## What the rules are given -/

/-- An active call without externs is a primitive operation, whose rules are known. -/
theorem Placed.primitive {S : Setting} (hS : S.Elementary)
    (hcat : S.lo.catalogue = Catalogue.builtin) {D : Finset Var} (hp : Placed S D [.call c]) :
    ∃ op, c.expr = .op op c.argVars ∧ op.isDifferentiable = true ∧
      c.node.rules.map Rule.formula? = op.formulas.map some := by
  obtain ⟨target, htarget, hfind⟩ := hp.fine.1.found
  have hatom := hp.call_atom
  cases he : c.expr with
  | op op args =>
    rw [he] at htarget
    cases htarget
    rw [hcat] at hfind
    have hnode : Catalogue.builtin.find? ("math." ++ op.name) = some c.node := Except.ok.inj hfind
    have hop := builtin_differentiable hnode
    refine ⟨op, ?_, hop, builtin_formulas hop hnode⟩
    rw [ActiveCall.argVars, he]
    rfl
  | call callee args node => exact absurd (he ▸ hatom) (hS.calls c.dst c.decl callee args node)
  | _ => rw [he] at htarget; cases htarget

/-- What the rules of a call may read: the rest was not fetched. -/
def Operands.referenced (c : ActiveCall) (u : R) (xs : List R) (y : R) : Operands R where
  upstream := u
  inputs i := if (c.node.inputsReferenced c.activeArgs)[i]? = some true then xs[i]? else none
  primal := if c.node.primalReferenced c.activeArgs then some y else none

omit [Field R] [LawfulScalar R] in
/-- It is all that a rule of an active argument does read. -/
theorem Operands.referenced_eval [Scalar R] {r : Rule} {φ : Formula} (hφ : r.formula? = some φ)
    (hr : (r, true) ∈ c.node.rules.zip c.activeArgs) (u : R) (hxs : xs.length = c.node.arity)
    (y : R) : φ.eval (Operands.referenced c u xs y) = φ.eval ⟨u, (xs[·]?), some y⟩ := by
  obtain ⟨-, -, -, -, -, hparts⟩ := Rule.formula?_eq_some hφ
  have hany (p : Rule → Bool) (hp : p r = true) : c.node.anyActive c.activeArgs p = true :=
    List.any_eq_true.mpr ⟨(r, true), hr, by simpa using hp⟩
  refine Formula.eval_congr rfl (fun i hi => ?_) fun hi => ?_
  · change (if _ then xs[i]? else none) = xs[i]?
    split
    · rfl
    · rename_i hno
      refine (List.getElem?_eq_none (Nat.le_of_not_lt fun hlt => hno ?_)).symm
      have hlt' : i < c.node.arity := hxs ▸ hlt
      simp [Node.inputsReferenced, hlt', hany (·.readsInput i) (hparts _ hi)]
  · change (if _ then some y else none) = some y
    exact if_pos (hany Rule.readsPrimal (hparts _ hi))

/-- The inputs of a call are its arguments, or were popped. -/
theorem Sweep.inputs_range {s : Sweep} {l l' : Locals} {stmts : Block}
    (h : s.popSaved c.savedArgs.reverse l = .ok ((stmts, saved), l')) {w : Var}
    (hw : w ∈ Sweep.inputs c saved) :
    w ∈ c.argVars ∨ l.vars.size ≤ w.idx ∧ w.idx < l'.vars.size := by
  obtain ⟨-, hsize, rfl, -⟩ := popSaved_eq_ok h
  obtain ⟨⟨v, checkpoint⟩, hmem, rfl⟩ := List.mem_map.mp hw
  have hv : v ∈ c.argVars := (List.of_mem_zip hmem).1
  dsimp only
  split
  · cases hl : (c.savedArgs.reverse.zip (freshVars l.vars.size c.savedArgs.reverse.length)).lookup v with
    | none => exact .inl hv
    | some w =>
      have hfresh : w ∈ freshVars l.vars.size c.savedArgs.reverse.length :=
        (List.of_mem_zip (Accumulators.mem_of_lookup hl)).2
      have := mem_freshVars.mp hfresh
      rw [hsize]
      exact .inr this
  · exact .inl hv

/-! ## Calls -/

variable {result : Slot R} {y : R} {ps : List R}

section
variable {S : Setting} {s : Sweep} {G : Graph R} {total : R} {D : Finset Var} {accs : Accumulators}
  {site : Site} {m m' n : Machine R} {log : List (Visit R)} {l l' : Locals} {code : Block}
variable {upstream primal : Var}

/-- The adjoint of the result is at hand, and its accumulator is free for the value
that the variable had before. -/
theorem takeAdjoint_run (hzero : Scalar.lit s.zero = (0 : R)) {base : Nat}
    (hfit : accs.Fit base l.vars.size) {f : Func}
    (hscoped : (Stmt.define c.dst c.decl c.expr).Scoped f D) {a : Var}
    (hheld : accs.Hold (blockScope D [.define c.dst c.decl c.expr]) n A P)
    (ha : accs.find? c.dst = some a) {stmts : Block}
    (h : s.takeAdjoint c a l = .ok ((stmts, upstream), la)) (hsize : la.vars.size ≤ n.vars.size) :
    ∃ na, j.execBlock stmts n = .ok .next na ∧ na.Real upstream (A c.dst) ∧
      accs.Hold D na (Function.update A c.dst 0) P ∧ na.graph = n.graph ∧
      (∀ t, na.stack t = n.stack t) ∧ na.vars.size = n.vars.size ∧ upstream.idx < la.vars.size ∧
      ∀ v ∈ D, ∀ b, accs.find? v = some b → b ≠ upstream := by
  have hreal : n.Real a (A c.dst) := hheld.real c.dst (mem_blockScope_define hscoped) a ha
  have hrange := (hfit.range c.dst a ha).2
  have hheldD := hheld.mono (subset_blockScope D _)
  rcases Sweep.takeAdjoint_eq_ok h with ⟨hd, rfl, rfl, rfl⟩ | ⟨hd, rfl, -, hla, rfl⟩
  · rw [hd] at hscoped
    refine ⟨n, rfl, hreal, hheldD.forget hscoped.2.2 0, rfl, fun _ => rfl, rfl, hrange, ?_⟩
    rintro v hv b hb rfl
    exact hscoped.2.2 (hfit.inj v c.dst b hb ha ▸ hv)
  · obtain ⟨adjoint, hadjoint, hvalue⟩ := Option.map_eq_some_iff.mp hreal
    have hne (b : Var) (hb : accs.Has b) : (⟨l.vars.size⟩ : Var) ≠ b := by
      rintro rfl
      exact Nat.lt_irrefl _ (hfit.has hb).2
    have hheld' : accs.Hold D (n.setVar ⟨l.vars.size⟩ adjoint) A P :=
      hheldD.congr fun b hb => Machine.var_setVar_ne _ _ _ _ (hne b hb)
    have hcopy : j.eval (.copy a) n = .ok adjoint n := j.read_some n hadjoint
    refine ⟨_, (j.execBlock_define_ok hcopy).trans (execBlock_reset s a [] _), ?_,
      hheld'.set hfit (by rw [Machine.size_setVar]; omega) ha _ (congrArg Value.real hzero), rfl,
      fun _ => rfl, by simp, by rw [hla]; exact Nat.lt_succ_self _, fun v _ b hb h => hne b (.inl ⟨v, hb⟩) h.symm⟩
    exact (Machine.real_setVar (show l.vars.size < n.vars.size by omega) hvalue).congr
      (Machine.var_setVar_ne _ _ _ _ (hne a (.inl ⟨c.dst, ha⟩)).symm)

omit [Field R] [LawfulScalar R] in
theorem Fetched.given {ins : List Var} {first : Nat} {na n₁ : Machine R}
    (h : Fetched S D c ins primal first m args result na n₁) {u : R}
    (hxs : Slot.values args = xs.map Value.real) (hy : result.value = .real y)
    (hu : upstream.idx < size ∧ n₁.Real upstream u) (hins : ∀ w ∈ ins, w.idx < size)
    (hprimal : primal.idx < size) :
    (Operands.referenced c u xs y).Given n₁ size upstream ins primal where
  upstream := hu
  inputs i v hv := by
    refine ⟨hins v (List.mem_of_getElem? hv), fun x hx => ?_⟩
    change (if _ then xs[i]? else none) = some x at hx
    split at hx
    · rename_i href
      obtain ⟨slot, arg, hslot, harg, hvalue⟩ := h.inputs i href
      have hvar : n₁.var v = some slot := by simpa [hv] using hslot
      have hreal : arg.value = .real x := by
        have hi := congrArg (fun vs => vs[i]?) hxs
        simpa [Slot.values_eq_map, harg, hx] using hi
      rw [Machine.Real, hvar, Option.map_some, hvalue, hreal]
    · cases hx
  primal := by
    refine ⟨hprimal, fun x hx => ?_⟩
    change (if _ then some y else none) = some x at hx
    split at hx
    · rename_i href
      cases hx
      obtain ⟨slot, hslot, hvalue⟩ := h.primal href
      rw [Machine.Real, hslot, Option.map_some, hvalue, hy]
    · cases hx

omit [LawfulScalar R] in
/-- The contributions of all arguments: those that are left out have no tangent. -/
theorem contributed_eq {vs : List Var} {active : Var → Bool} {rules : List Rule}
    (hargs : vs.map m.var = args.map some) (hrules : rules.length = vs.length)
    (hactive : ∀ v ∈ vs, active v = false → m.tangent G v = 0) (u : R) (ps : List R) :
    contributed (vs.zip ((vs.map active).zip rules)) (ps.map (u * ·)) (m.tangent G) =
      u * ((args.zip ps).map fun p => p.2 * p.1.tangent G).sum := by
  induction vs generalizing rules args ps with
  | nil =>
    cases args with
    | nil => simp [contributed]
    | cons arg args => cases hargs
  | cons v vs ih =>
    obtain ⟨arg, args, rfl, hv, hargs⟩ := List.map_eq_cons_iff.mp hargs.symm
    obtain ⟨rule, rules, rfl⟩ := List.exists_cons_of_length_eq_add_one hrules
    cases ps with
    | nil => simp [contributed]
    | cons w ps =>
      have hterm : (if active v then u * w * m.tangent G v else 0) = u * (w * arg.tangent G) := by
        rw [← Machine.tangent_some hv.symm, mul_assoc]
        split
        · rfl
        · rename_i hno
          rw [hactive v List.mem_cons_self (by simpa using hno), mul_zero, mul_zero]
      have hrest := ih hargs.symm (by simpa using hrules)
        (fun w hw => hactive w (List.mem_cons_of_mem _ hw)) ps
      simp only [contributed, List.map_cons, List.zip_cons_cons, List.sum_cons] at hrest ⊢
      rw [hterm, hrest, mul_add]

/-- The tangent of the result of a call is that of its arguments, by the partial
derivatives. -/
theorem call_tangent (hS : S.Elementary) (hG : G.Ordered) (hp : Placed S D [.call c])
    (hop : op.isDifferentiable = true) (he : c.expr = .op op c.argVars)
    (hran : (Step.call c).Ran j S.rv.level site m log m') (hm : Traced S m)
    (hrange : S.rv.base ≤ m.vars.size) (hgrows : GraphGrows m'.graph (some G))
    (hlog : log = [.call site c args result]) :
    ∃ (xs : List R) (y : R) (ps : List R), Slot.values args = xs.map Value.real ∧
      result.value = .real y ∧ op.eval (xs.map Value.real) = .ok (.real y) ∧
      op.partials (xs.map Value.real) y = .ok ps ∧ ps.length = xs.length ∧
      m'.tangent G c.dst = ((args.zip ps).map fun p => p.2 * p.1.tangent G).sum := by
  have hatom := hp.call_atom
  have hdst : c.dst.idx < m.vars.size :=
    Nat.lt_of_lt_of_le (S.definesBelow c.dst c.decl _ hatom) (Nat.le_trans S.base hrange)
  obtain ⟨hexec, args', result', hargs, hresult, hlog'⟩ := hran
  rw [hlog] at hlog'
  cases hlog'
  obtain ⟨args', saved, result', m₁, -, hsaved, heval, hframe, hm'⟩ :=
    forwardCall_inv hp.fine.1 hdst hexec
  -- the graph and the variables are those of the evaluation
  have hgraph : m'.graph = m₁.graph := by
    rw [hm']
    split <;> rfl
  have hpushed : Traced S (m.pushAll S.rv.level.values saved) := by
    refine hm.forward hS (fun a ha => ?_) (j.execBlock_pushes S.rv.level.values hsaved)
    obtain ⟨st, hst, ha⟩ := mem_blockAtoms.mp ha
    obtain ⟨v, -, rfl⟩ := List.mem_map.mp hst
    exact .inr (.inl ⟨v, by simpa [Stmt.atoms] using ha⟩)
  have hvar : m'.var c.dst = some result' := by
    have hset : (m₁.setVar c.dst result').var c.dst = some result' := by
      refine Machine.var_setVar_self _ _ _ ?_
      rw [hframe.vars, Machine.vars_pushAll]
      exact hdst
    rw [hm']
    split
    · exact hset
    · exact hset
  rw [hvar] at hresult
  cases hresult
  rw [he] at heval
  obtain ⟨xs, y, ps, hxs, hy, hopeval, hps, hlength, htangent⟩ :=
    hpushed.eval_op hG hop ((List.map_congr_left fun v _ => m.var_pushAll _ _ v).trans hargs) heval
      (hgraph ▸ hgrows)
  exact ⟨xs, y, ps, hxs, hy, hopeval, hps, hlength, (Machine.tangent_some hvar).trans htangent⟩

/-- The rules of a call compute the adjoint of its result times the partial
derivatives. -/
theorem Placed.contributes (hcat : S.lo.catalogue = Catalogue.builtin) (hp : Placed S D [.call c])
    (hop : op.isDifferentiable = true)
    (hrules : c.node.rules.map Rule.formula? = op.formulas.map some) (u : R)
    (hxs : xs.length = c.argVars.length) (hy : op.eval (xs.map Value.real) = .ok (.real y))
    (hps : op.partials (xs.map Value.real) y = .ok ps) (hlength : ps.length = xs.length) :
    List.Forall₂ (Contributes D (Operands.referenced c u xs y) c.argVars.length) (Sweep.ruled c)
      (ps.map (u * ·)) := by
  have hfine : S.lo.CallFine c := hp.fine.1
  have hsound := S.covers.sound _ hfine.mem
  have hmem : c.node ∈ Catalogue.builtin.nodes := hcat ▸ hfine.mem
  simp only [Node.isSound, Bool.and_eq_true, beq_iff_eq] at hsound
  have hscoped : (Stmt.define c.dst c.decl c.expr).Scoped S.lo.func D := hp.inScope.1
  have hvalues := formulas_eval hop u hy hps
  have hcount : c.node.rules.length = c.argVars.length := hsound.1.2.trans hfine.arity
  have hactives : c.activeArgs.length = c.argVars.length := by
    rw [hfine.activeArgs, List.length_map]
  refine List.forall₂_iff_get.mpr ⟨?_, fun i hi hi' => ?_⟩
  · simp [Sweep.ruled, hactives, hcount, hlength, hxs]
  have hiv : i < c.argVars.length := by
    simpa [hlength, hxs] using hi'
  have hir : i < c.node.rules.length := hcount ▸ hiv
  have hia : i < c.activeArgs.length := hactives ▸ hiv
  have hip : i < ps.length := by omega
  have hpair : (Sweep.ruled c).get ⟨i, hi⟩ = (c.argVars[i], c.activeArgs[i], c.node.rules[i]) := by
    simp [Sweep.ruled]
  rw [hpair]
  refine ⟨hscoped.uses _ (List.getElem_mem hiv), fun hactive => ⟨?_, ?_⟩⟩
  · rw [builtin_inputs hmem _ (List.getElem_mem hir), hfine.arity]
  · have hformula := congrArg (fun fs => fs[i]?) hrules
    have hvalue := congrArg (fun zs => zs[i]?) hvalues
    simp only [List.getElem?_map, List.getElem?_eq_getElem hir, List.getElem?_eq_getElem hip,
      Option.map_some] at hformula hvalue
    obtain ⟨φ, hφ, hz⟩ := Option.map_eq_some_iff.mp hvalue
    rw [hφ, Option.map_some, Option.some.injEq] at hformula
    refine ⟨φ, hformula, ?_⟩
    have hused : (c.node.rules[i], true) ∈ c.node.rules.zip c.activeArgs := by
      refine List.mem_iff_getElem.mpr ⟨i, by simp [hir, hia], ?_⟩
      rw [List.getElem_zip, show c.activeArgs[i] = true from hactive]
    rw [Operands.referenced_eval hformula hused u (hxs.trans hfine.arity.symm) y, hz]
    simp

/-- Variables that are read are in the table of the function. -/
theorem Setting.uses_lt {dst : Var} {decl : Bool} {e : Expr}
    (ha : Stmt.define dst decl e ∈ blockAtoms S.lo.func.body) {v : Var} (hv : v ∈ e.uses) :
    v.idx < S.lo.func.vars.size := by
  obtain ⟨D', hD, hs⟩ := S.inScope.atom ha
  exact S.lt_size ((hD.2 v (hs.uses v hv)).imp_left List.mem_toFinset.mp)

/-- What the rules of a call read is a variable of the function, or a new one. -/
theorem Placed.operands_range (hp : Placed S D [.call c]) {lb l₁ : Locals}
    {primalStmts savedStmts : Block} (hprimal : s.takePrimal c la = .ok ((primalStmts, primal), lb))
    (hsaved : s.popSaved c.savedArgs.reverse lb = .ok ((savedStmts, saved), l₁)) {w : Var}
    (hw : w ∈ Sweep.inputs c saved ∨ w = primal) :
    w.idx < S.rv.base ∨ la.vars.size ≤ w.idx ∧ w.idx < l₁.vars.size := by
  have hatom := hp.call_atom
  have hread (v : Var) (hv : v.idx < S.lo.func.vars.size) : v.idx < S.rv.base :=
    Nat.lt_of_lt_of_le hv S.base
  have hlb : lb.vars.size ≤ l₁.vars.size := (Sweep.popSaved_eq_ok hsaved).1.size
  obtain ⟨hla, hprange⟩ := Sweep.takePrimal_range hprimal
  rcases hw with hw | rfl
  · rcases Sweep.inputs_range hsaved hw with hw | hw
    · exact .inl (hread w (S.uses_lt hatom hw))
    · exact .inr ⟨by omega, hw.2⟩
  · rcases hprange with rfl | hw
    · exact .inl (hread _ (S.definesBelow c.dst c.decl _ hatom))
    · exact .inr ⟨by omega, by omega⟩

/-- With their operands fetched, the rules of a call pass the adjoint `u` of its result
to its arguments. -/
theorem Fetched.rules_run {lb l₁ : Locals} {primalStmts savedStmts after : Block}
    {na n₁ : Machine R}
    (hfetched : Fetched S D c (Sweep.inputs c saved) primal la.vars.size m args result na n₁)
    (hcat : S.lo.catalogue = Catalogue.builtin) (hp : Placed S D [.call c])
    (hop : op.isDifferentiable = true)
    (hrules : c.node.rules.map Rule.formula? = op.formulas.map some)
    (hprimal : s.takePrimal c la = .ok ((primalStmts, primal), lb))
    (hsaved : s.popSaved c.savedArgs.reverse lb = .ok ((savedStmts, saved), l₁))
    (hafter : s.contributions accs .fadd upstream (Sweep.inputs c saved) primal (Sweep.ruled c) l₁ =
      .ok (after, l')) (hargs : c.argVars.map m.var = args.map some) {u : R}
    (hxs : Slot.values args = xs.map Value.real) (hy : result.value = .real y)
    (heval : op.eval (xs.map Value.real) = .ok (.real y))
    (hps : op.partials (xs.map Value.real) y = .ok ps) (hlength : ps.length = xs.length)
    (hfit : accs.Fit S.rv.base la.vars.size) (hbase : S.rv.base ≤ la.vars.size)
    (hsize : l'.vars.size ≤ na.vars.size) (hg : na.graph = none)
    (hupper : upstream.idx < la.vars.size) (hupstream : na.Real upstream u)
    (hfree : ∀ v ∈ D, ∀ b, accs.find? v = some b → b ≠ upstream) (hheld : accs.Hold D na A P) :
    ∃ n' A', j.execBlock after n₁ = .ok .next n' ∧ n'.graph = none ∧
      (∀ t, n'.stack t = n₁.stack t) ∧ accs.Hold D n' A' P ∧ (∀ v, v ∉ c.argVars → A' v = A v) ∧
      ∀ τ : Var → R, ∑ v ∈ D, A' v * τ v =
        ∑ v ∈ D, A v * τ v + contributed (Sweep.ruled c) (ps.map (u * ·)) τ := by
  have hfine : S.lo.CallFine c := hp.fine.1
  have hscoped : (Stmt.define c.dst c.decl c.expr).Scoped S.lo.func D := hp.inScope.1
  have hle : la.vars.size ≤ l₁.vars.size :=
    Nat.le_trans (Sweep.takePrimal_range hprimal).1 (Sweep.popSaved_eq_ok hsaved).1.size
  have hbelow (w : Var) (hw : w ∈ Sweep.inputs c saved ∨ w = primal) : w.idx < l₁.vars.size := by
    rcases hp.operands_range hprimal hsaved hw with hw | hw <;> omega
  have hgiven : (Operands.referenced c u xs y).Given n₁ l₁.vars.size upstream
      (Sweep.inputs c saved) primal :=
    hfetched.given hxs hy ⟨by omega, hupstream.congr (hfetched.vars upstream hupper)⟩
      (fun w hw => hbelow w (.inl hw)) (hbelow primal (.inr rfl))
  -- variables of the function, and new ones, are not accumulators
  have hapart (p : Var × Bool × Rule) (hmem : p ∈ Sweep.ruled c) (b : Var)
      (hb : accs.find? p.1 = some b) : ¬(b = upstream ∨ b ∈ Sweep.inputs c saved ∨ b = primal) := by
    rintro (rfl | hw)
    · exact hfree p.1 (hscoped.uses _ (List.of_mem_zip hmem).1) b hb rfl
    · have hrange := hfit.range p.1 b hb
      rcases hp.operands_range hprimal hsaved hw with hw | hw <;> omega
  have hcount : xs.length = c.argVars.length := by
    have h₁ := congrArg List.length hargs
    have h₂ := congrArg List.length hxs
    simp only [Slot.values_eq_map, List.length_map] at h₁ h₂
    omega
  have hwidth : (Sweep.inputs c saved).length = c.argVars.length := by
    simp [Sweep.inputs, hfine.args, Node.inputsReferenced, hfine.arity]
  have hcontributes := hp.contributes hcat hop hrules u hcount heval hps hlength
  rw [← hwidth] at hcontributes
  obtain ⟨n', A', hexec, hgraph, hstack, hheld', hsame, hsum⟩ := contributions_run (j := j) hafter
    hcontributes (hfetched.graph.trans hg) (hfit.mono hle) (by rw [hfetched.size]; exact hsize)
    hgiven hapart (hheld.congr fun b hb => hfetched.vars b (hfit.has hb).2)
  refine ⟨n', A', hexec, hgraph, hstack, hheld', fun v hv => hsame v fun hmem => hv ?_, hsum⟩
  obtain ⟨p, hp, rfl⟩ := List.mem_map.mp hmem
  exact (List.of_mem_zip hp).1

/-- What the arguments of a call are passed is what the adjoint of its result stood
for. -/
theorem call_summed (hp : Placed S D [.call c]) (hop : op.isDifferentiable = true)
    (he : c.expr = .op op c.argVars) (hran : (Step.call c).Ran j S.rv.level site m log m')
    (hm : Traced S m) (hargs : c.argVars.map m.var = args.map some)
    (htangent : m'.tangent G c.dst = ((args.zip ps).map fun p => p.2 * p.1.tangent G).sum)
    {B : List R} (h : Paired S G total (blockScope D [.define c.dst c.decl c.expr]) accs m' n A B P) :
    ∑ v ∈ D, Function.update A c.dst 0 v * m.tangent G v +
      contributed (Sweep.ruled c) (ps.map (A c.dst * ·)) (m.tangent G) + S.carriedSum G m B + P =
        total := by
  have hfine : S.lo.CallFine c := hp.fine.1
  have hatom := hp.call_atom
  have hsound := S.covers.sound _ hfine.mem
  simp only [Node.isSound, Bool.and_eq_true, beq_iff_eq] at hsound
  have hinactive (v : Var) (hv : v ∈ c.argVars) (hoff : S.lo.isActiveReal v = false) :
      m.tangent G v = 0 := by
    have hreal : S.lo.func.varTy v = .real := Setting.operand_real (he ▸ hatom) hop hv
    exact (hm.nodeless ((Setting.isActiveReal hreal).symm.trans hoff)).tangent
  have hpassed := contributed_eq hargs (hsound.1.2.trans hfine.arity) hinactive (A c.dst) ps
  rw [← hfine.activeArgs, ← htangent] at hpassed
  rw [Sweep.ruled, hpassed, ← sum_define hp.inScope.1 A (hran.tangent_of_ne rfl rfl), ← h.total,
    S.carriedSum_congr (call_carried hp hran)]

/-- **The chain rule**: the adjoint of the result of a call passes to its arguments. -/
theorem call_paired (hS : S.Elementary) (hG : G.Ordered) (hcat : S.lo.catalogue = Catalogue.builtin)
    (hzero : Scalar.lit s.zero = (0 : R)) (hlevel : s.level = S.rv.level)
    (hbase : S.rv.base ≤ l.vars.size) (hfit : accs.Fit S.rv.base l.vars.size)
    (hsize : l'.vars.size ≤ n.vars.size) (hp : Placed S D [.call c])
    (hran : (Step.call c).Ran j S.rv.level site m log m') (hm : Traced S m)
    (hcode : s.reverseCall accs c l = .ok (code, l'))
    (ht : Tracks S (blockScope D [.define c.dst c.decl c.expr]) m' n)
    (h : Pairs S G total (blockScope D [.define c.dst c.decl c.expr]) accs m' n) :
    ∃ n', j.execBlock code n = .ok .next n' ∧ Pairs S G total D accs m n' := by
  obtain ⟨A, B, P, h⟩ := h
  have hframe := hran.frame rfl
  obtain ⟨op, he, hop, hrules⟩ := hp.primitive hS hcat
  obtain ⟨a, before, upstream, ins, primal, l₁, after, ha, hbefore, hafter, rfl⟩ :=
    Sweep.reverseCall_eq_ok hcode
  obtain ⟨adjointStmts, la, primalStmts, lb, savedStmts, saved, hadjoint, hprimal, hsaved, rfl,
    rfl⟩ := Sweep.prepare_eq_ok hbefore
  have hsound := S.covers.sound _ (show S.lo.CallFine c from hp.fine.1).mem
  simp only [Node.isSound, Bool.and_eq_true, beq_iff_eq] at hsound
  rw [hsound.1.1] at hafter
  have hle₁ : l₁.vars.size ≤ l'.vars.size := Sweep.contributions_size hafter
  have hlb : lb.vars.size ≤ l₁.vars.size := (Sweep.popSaved_eq_ok hsaved).1.size
  have hla : la.vars.size ≤ lb.vars.size := (Sweep.takePrimal_range hprimal).1
  have hlal : l.vars.size ≤ la.vars.size := by
    rcases Sweep.takeAdjoint_eq_ok hadjoint with ⟨-, -, -, rfl⟩ | ⟨-, -, hle, -⟩
    · exact Nat.le_refl _
    · exact hle.size
  -- the adjoint of the result is taken, what the call pushed is popped, and the rules run
  obtain ⟨na, hexeca, hupstream, hhelda, hgrapha, hstacka, hsizea, hupper, hfreea⟩ :=
    takeAdjoint_run (j := j) hzero hfit hp.inScope.1 h.held ha hadjoint (by omega)
  obtain ⟨args, result, n₁, hlog, hargs, hexec₁, hfetched⟩ := call_fetched hlevel hbase hfit hp hran ht
    ha hadjoint hprimal hsaved (by omega) hexeca
  obtain ⟨xs, y, ps, hxs, hy, heval, hps, hlength, htangent⟩ := call_tangent hS hG hp hop he hran hm
    (by rw [← hframe.size, ← ht.size]; omega) h.grows hlog
  obtain ⟨n', A', hexec', hgraph', hstack', hheld', hsame, hsum⟩ := hfetched.rules_run (j := j) hcat
    hp hop hrules hprimal hsaved hafter hargs hxs hy heval hps hlength (hfit.mono hlal) (by omega)
    (by omega) (hgrapha.trans h.plain) hupper hupstream hfreea hhelda
  refine ⟨n', ?_, A', B, P, GraphGrows.trans hframe.graph h.grows, hgraph', hheld', ?_, fun v hv => ?_, ?_⟩
  · rw [List.append_assoc, List.append_assoc, j.execBlock_append_next hexeca, ← List.append_assoc,
      j.execBlock_append_next hexec₁, hexec']
  · rw [hstack', hfetched.stack _ (by intro h; cases h), hstacka, h.adjoints]
  · rw [hsame v, Function.update_apply, h.quiet v hv, ite_self]
    intro hvar
    have hatom := hp.call_atom
    exact Setting.not_quiet (hp.reads (by simpa [stepsReads, Step.reads] using hvar))
      (Setting.operand_real (he ▸ hatom) hop hvar) hv
  · rw [hsum]
    exact call_summed hp hop he hran hm hargs htangent h

/-- **The sum of adjoints times tangents is kept up along the reverse section.** -/
theorem pairing_upkeep (hS : S.Elementary) (hG : G.Ordered)
    (hcat : S.lo.catalogue = Catalogue.builtin) (hzero : Scalar.lit s.zero = (0 : R))
    (hlevel : s.level = S.rv.level) (j : Job R) :
    Upkeep S s j (Traced S) (Pairs S G total) (· = .stepLimit) where
  limit := rfl
  tick h := h.ticked
  forward hb hexec h := h.forward hS hb hexec
  congr h := h.congr
  inScope h := h.inScope
  widen h hD hnew := h.widen hD fun v hv hvD => (hnew hS.sheltered v hv hvD).imp_right
    fun ⟨a, ha, hzero'⟩ => ⟨a, ha, by
      rw [Machine.Real, hzero', Option.map_some]
      exact congrArg (fun x => some (Value.real x)) hzero⟩
  header hheader hfine htest hatoms hm hexec h := h.header hS hheader hfine htest hatoms hm hexec
  leaf {D accs l l' step site m m' n log code} hleaf hp hran hm hready hcode hsize ht h := by
    suffices hok : ∃ n', j.execBlock code n = .ok .next n' ∧ Pairs S G total D accs m n' by
      obtain ⟨n', hexec, hpairs⟩ := hok
      rw [hexec]
      exact hpairs
    cases step, hleaf using Step.leafCases with
    | inert run =>
      obtain ⟨rfl, rfl⟩ := emit_pure_eq_ok.mp hcode
      exact inert_paired hS hzero hready.fit hsize hp hran hm h
    | call c =>
      exact call_paired hS hG hcat hzero hlevel hready.base hready.fit hsize hp hran hm hcode ht h
    | assign dst decl src active =>
      obtain ⟨rfl, -⟩ := Sweep.reverseAssign_eq_ok hcode
      have hrange : S.rv.base ≤ m.vars.size := by
        rw [← (hran.frame rfl).size, ← ht.size]
        exact Nat.le_trans hready.base hsize
      exact assign_paired hS hzero hlevel hready.fit hsize hp hran hrange hm hcode h
    | tapeWrite t val active =>
      exact tapeWrite_paired hlevel hready.fit hsize hp hran hm hcode ht.adjoints h

end

end Backsweep
