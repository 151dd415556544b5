import Mathlib
import Backsweep.Proofs.Diff.Pairing

/-!
# Adjoints of single steps

The reverse code of a step without steps inside takes the adjoints behind the step
to those before it.

* `Hold.set`: accumulators are changed one at a time;
* `sum_define`, `sum_update`: what this does to the sum of adjoints times tangents;
* `inert_paired`, `assign_paired`, `tapeWrite_paired`: steps that compute nothing.
-/

namespace Backsweep

variable {R : Type} [Field R]

section
variable {D : Finset Var} {accs : Accumulators} {n : Machine R} {A : Var → R} {base size : Nat}

namespace Accumulators.Hold

variable {P : R}

/-- One accumulator is set. -/
theorem set (h : accs.Hold D n A P) (hfit : accs.Fit base size) (hsize : size ≤ n.vars.size)
    {w a : Var} (ha : accs.find? w = some a) (slot : Slot R) {x : R} (hslot : slot.value = .real x) :
    accs.Hold D (n.setVar a slot) (Function.update A w x) P := by
  refine ⟨fun v hv b hb => ?_, fun v hv hb => ?_, fun b hb => ?_, h.unused⟩
  · by_cases hvw : v = w
    · subst hvw
      rw [ha] at hb
      cases hb
      rw [Function.update_self]
      exact Machine.real_setVar (Nat.lt_of_lt_of_le (hfit.range v a ha).2 hsize) hslot
    · have hab : a ≠ b := fun hab => hvw (hfit.inj v w a (hab ▸ hb) ha)
      rw [Function.update_of_ne hvw]
      exact (h.real v hv b hb).congr (Machine.var_setVar_ne _ _ _ _ hab)
  · have hvw : v ≠ w := by
      rintro rfl
      rw [ha] at hb
      cases hb
    rw [Function.update_of_ne hvw]
    exact h.zero v hv hb
  · have hab : a ≠ b := by
      rintro rfl
      exact hfit.apart w a hb ha
    exact (h.property b hb).congr (Machine.var_setVar_ne _ _ _ _ hab)

/-- The accumulator of a property is set. -/
theorem setProperty (h : accs.Hold D n A P) (hfit : accs.Fit base size)
    (hsize : size ≤ n.vars.size) {b : Var} (hb : accs.property = some b) (slot : Slot R) {x : R}
    (hslot : slot.value = .real x) : accs.Hold D (n.setVar b slot) A x := by
  refine ⟨fun v hv a ha => ?_, h.zero, fun a ha => ?_, fun hnone => ?_⟩
  · have hab : b ≠ a := by
      rintro rfl
      exact hfit.apart v b hb ha
    exact (h.real v hv a ha).congr (Machine.var_setVar_ne _ _ _ _ hab)
  · rw [hb] at ha
    cases ha
    exact Machine.real_setVar (Nat.lt_of_lt_of_le (hfit.property b hb).2 hsize) hslot
  · rw [hb] at hnone
    cases hnone

/-- The adjoint of a variable out of scope can be forgotten. -/
theorem forget (h : accs.Hold D n A P) {w : Var} (hw : w ∉ D) (x : R) :
    accs.Hold D n (Function.update A w x) P := by
  have hne (v : Var) (hv : v ∈ D) : v ≠ w := fun hvw => hw (hvw ▸ hv)
  refine ⟨fun v hv a ha => ?_, fun v hv ha => ?_, h.property, h.unused⟩
  · rw [Function.update_of_ne (hne v hv)]
    exact h.real v hv a ha
  · rw [Function.update_of_ne (hne v hv)]
    exact h.zero v hv ha

end Accumulators.Hold

/-! ## Sums -/

/-- More of one adjoint. -/
theorem sum_update {w : Var} (hw : w ∈ D) (A τ : Var → R) (x : R) :
    ∑ v ∈ D, Function.update A w (A w + x) v * τ v = ∑ v ∈ D, A v * τ v + x * τ w := by
  rw [← Finset.add_sum_erase _ _ hw, ← Finset.add_sum_erase D (fun v => A v * τ v) hw,
    Function.update_self]
  have hrest : ∑ v ∈ D.erase w, Function.update A w (A w + x) v * τ v =
      ∑ v ∈ D.erase w, A v * τ v := by
    refine Finset.sum_congr rfl fun v hv => ?_
    rw [Function.update_of_ne (Finset.ne_of_mem_erase hv)]
  rw [hrest]
  ring

/-- A definition changes the tangent of one variable, whose adjoint is taken away. -/
theorem sum_define {f : Func} {dst : Var} {decl : Bool} {e : Expr}
    (hscoped : (Stmt.define dst decl e).Scoped f D) (A : Var → R) {τ τ' : Var → R}
    (hτ : ∀ v, v ≠ dst → τ' v = τ v) :
    ∑ v ∈ blockScope D [.define dst decl e], A v * τ' v =
      ∑ v ∈ D, Function.update A dst 0 v * τ v + A dst * τ' dst := by
  have hsame (v : Var) (hv : v ≠ dst) : A v * τ' v = Function.update A dst 0 v * τ v := by
    rw [Function.update_of_ne hv, hτ v hv]
  cases decl with
  | true =>
    rw [blockScope_declare, Finset.sum_insert hscoped.2.2, add_comm]
    congr 1
    refine Finset.sum_congr rfl fun v hv => hsame v ?_
    rintro rfl
    exact hscoped.2.2 hv
  | false =>
    have hscope : blockScope D [.define dst false e] = D := Finset.union_empty D
    rw [hscope, ← Finset.add_sum_erase _ _ hscoped.2.2.1,
      ← Finset.add_sum_erase D (fun v => Function.update A dst 0 v * τ v) hscoped.2.2.1,
      Function.update_self, zero_mul, zero_add, add_comm]
    congr 1
    exact Finset.sum_congr rfl fun v hv => hsame v (Finset.ne_of_mem_erase hv)

end

/-! ## Code that changes accumulators -/

section
variable [LawfulScalar R] {j : Job R} {n : Machine R}

/-- Adding to an accumulator. -/
theorem execBlock_fold (hg : n.graph = none) {a b : Var} {x y : R} (ha : n.Real a x)
    (hb : n.Real b y) (rest : Block) :
    j.execBlock (Sweep.fold .fadd a b :: rest) n =
      j.execBlock rest (n.setVar a { value := .real (x + y) }) := by
  have heval : j.eval (.op .fadd [a, b]) n = .ok { value := .real (x + y) } n :=
    Job.eval_op_reals hg (.cons ha (.cons hb .nil)) (by
      change Except.ok (Value.real (Scalar.add x y)) = _
      rw [LawfulScalar.add_eq])
  exact j.execBlock_define_ok heval

omit [Field R] [LawfulScalar R] in
theorem execBlock_reset [Scalar R] {j : Job R} (s : Sweep) (a : Var) (rest : Block) (n : Machine R) :
    j.execBlock (s.reset a :: rest) n =
      j.execBlock rest (n.setVar a { value := .ofConst (.real s.zero) }) := rfl

/-! ## Steps -/

variable {S : Setting} {s : Sweep} {G : Graph R} {total : R} {D : Finset Var} {accs : Accumulators}
  {base size : Nat} {site : Site} {m m' : Machine R} {log : List (Visit R)} {A : Var → R} {B : List R} {P : R}
  {l l' : Locals} {code : Block}

/-- What is assigned directly in inert code, latest assignment first, loses its
adjoint. -/
theorem resets_run (hzero : Scalar.lit s.zero = (0 : R)) (hfit : accs.Fit base size) (run : Block)
    (hsize : size ≤ n.vars.size) (h : accs.Hold D n A P) :
    ∃ n' A', j.execBlock (s.reverseInert accs run) n = .ok .next n' ∧ accs.Hold D n' A' P ∧
      n'.graph = n.graph ∧ (∀ t, n'.stack t = n.stack t) ∧ (∀ v, A' v = A v ∨ A' v = 0) ∧
      (∀ v e, .define v false e ∈ run → accs.find? v = none ∨ A' v = 0) ∧
      ∀ v, (∀ e, .define v false e ∉ run) → A' v = A v := by
  induction run using List.reverseRecOn generalizing n A with
  | nil => exact ⟨n, A, rfl, h, rfl, fun _ => rfl, fun _ => .inl rfl, by simp, fun _ _ => rfl⟩
  | append_singleton run x ih =>
    by_cases hx : ∃ w e a, x = .define w false e ∧ accs.find? w = some a
    · obtain ⟨w, e, a, rfl, ha⟩ := hx
      have hcode : s.reverseInert accs (run ++ [.define w false e]) =
          s.reset a :: s.reverseInert accs run := by
        simp [Sweep.reverseInert, ha]
      obtain ⟨n', A', hexec, hhold, hgraph, hstack, hcases, hassigned, hother⟩ :=
        ih (n := n.setVar a { value := .ofConst (.real s.zero) }) (A := Function.update A w 0)
          (by rw [Machine.size_setVar]; exact hsize) (h.set hfit hsize ha _ (congrArg Value.real hzero))
      refine ⟨n', A', ?_, hhold, hgraph, hstack, fun v => ?_, fun v e' hv => ?_, fun v hv => ?_⟩
      · rw [hcode, execBlock_reset, hexec]
      · by_cases hvw : v = w
        · subst hvw
          exact .inr ((hcases v).elim (fun h => h.trans (Function.update_self ..)) id)
        · exact (hcases v).imp_left fun h => h.trans (Function.update_of_ne hvw ..)
      · rcases List.mem_append.mp hv with hv | hv
        · exact hassigned v e' hv
        · cases List.mem_singleton.mp hv
          exact .inr ((hcases w).elim (fun h => h.trans (Function.update_self ..)) id)
      · have hvw : v ≠ w := by
          rintro rfl
          exact hv e (by simp)
        rw [hother v fun e' he => hv e' (by simp [he]), Function.update_of_ne hvw]
    · have hcode : s.reverseInert accs (run ++ [x]) = s.reverseInert accs run := by
        cases x with
        | define w decl e =>
          cases decl with
          | true => simp [Sweep.reverseInert]
          | false =>
            have hnone : accs.find? w = none := by
              cases ha : accs.find? w with
              | none => rfl
              | some a => exact absurd ⟨w, e, a, rfl, ha⟩ hx
            simp [Sweep.reverseInert, hnone]
        | _ => simp [Sweep.reverseInert]
      obtain ⟨n', A', hexec, hhold, hgraph, hstack, hcases, hassigned, hother⟩ := ih hsize h
      refine ⟨n', A', hcode ▸ hexec, hhold, hgraph, hstack, hcases, fun v e hv => ?_,
        fun v hv => hother v fun e he => hv e (by simp [he])⟩
      rcases List.mem_append.mp hv with hv | hv
      · exact hassigned v e hv
      · obtain rfl := List.mem_singleton.mp hv
        cases ha : accs.find? v with
        | none => exact .inl rfl
        | some a => exact absurd ⟨v, e, a, rfl, ha⟩ hx

/-- Inert code takes no adjoints. What it assigns does not depend on the seed. -/
theorem inert_paired (hS : S.Elementary) (hzero : Scalar.lit s.zero = (0 : R))
    (hfit : accs.Fit base size) (hsize : size ≤ n.vars.size) {run : List Stmt}
    (hp : Placed S D [.inert run]) (hran : (Step.inert run).Ran j S.rv.level site m log m')
    (hm : Traced S m) (h : Pairs S G total (blockScope D run) accs m' n) :
    ∃ n', j.execBlock (s.reverseInert accs run) n = .ok .next n' ∧ Pairs S G total D accs m n' := by
  obtain ⟨A, B, P, h⟩ := h
  have hfine : S.lo.InertRun run := hp.fine.1
  have hatoms : blockAtoms run ⊆ blockAtoms S.lo.func.body := fun a ha =>
    hp.atoms (by simpa [stepsSource, Step.source] using ha)
  have hm' : Traced S m' := hm.forward hS (fun a ha => .inl (hatoms ha)) hran.1
  have hframe := hran.frame rfl
  have hassigned {v : Var} {decl : Bool} {e : Expr} (hv : Stmt.define v decl e ∈ run) :
      m'.tangent G v = 0 :=
    (hm.inert_assigned hS hatoms hfine.atoms hran.1 hv).tangent
  obtain ⟨n', A', hexec, hhold, hgraph, hstack, hcases, hreset, hother⟩ :=
    resets_run (j := j) hzero hfit run hsize (h.held.mono (subset_blockScope D run))
  refine ⟨n', hexec, A', B, P, GraphGrows.trans hframe.graph h.grows, hgraph.trans h.plain, hhold,
    by rw [hstack]; exact h.adjoints, fun v hv => ?_, ?_⟩
  · exact (hcases v).elim (fun heq => heq.trans (h.quiet v hv)) id
  have hsum (v : Var) (hv : v ∈ D) : A v * m'.tangent G v = A' v * m.tangent G v := by
    by_cases hd : ∃ e, Stmt.define v false e ∈ run
    · obtain ⟨e, he⟩ := hd
      have hA' : A' v = 0 := (hreset v e he).elim (hhold.zero v hv) id
      rw [hassigned he, hA', mul_zero, zero_mul]
    rw [hother v fun e he => hd ⟨e, he⟩]
    by_cases hatom : ∃ decl e, Stmt.define v decl e ∈ blockAtoms run
    · -- it is assigned inside of a statement, so that it is not active
      obtain ⟨decl, e, hmem⟩ := hatom
      obtain ⟨st, hst, hmem⟩ := mem_blockAtoms.mp hmem
      have hnotDecl : decl = false := by
        cases decl with
        | false => rfl
        | true =>
          refine absurd ?_ (hp.inScope.not_declared hv e)
          simpa [stepsSource, Step.source] using mem_blockAtoms.mpr ⟨st, hst, hmem⟩
      subst hnotDecl
      have hcf : st.isControlFlow = true := by
        cases hc : st.isControlFlow with
        | true => rfl
        | false =>
          rw [Stmt.atoms_of_not_controlFlow hc, List.mem_singleton] at hmem
          exact absurd ⟨e, hmem ▸ hst⟩ hd
      have hinactive := hfine.nested st hst hcf v e hmem
      rw [(hm'.nodeless hinactive).tangent, (hm.nodeless hinactive).tangent]
    · rw [Machine.tangent_congr (hframe.vars v fun decl e ha => hatom ⟨decl, e, ha⟩)]
  rw [← h.total, S.carriedSum_congr (inert_carried hp hran)]
  congr 2
  rw [← Finset.sum_subset (subset_blockScope D run) fun v hv hvD => ?_]
  · exact Finset.sum_congr rfl fun v hv => (hsum v hv).symm
  · rw [blockScope, Finset.mem_union, List.mem_toFinset] at hv
    obtain ⟨st, hst, hdecl⟩ := List.mem_filterMap.mp (hv.resolve_left hvD)
    cases st with
    | define dst decl e =>
      cases decl with
      | true =>
        cases hdecl
        rw [hassigned hst, mul_zero]
      | false => cases hdecl
    | _ => cases hdecl

omit [LawfulScalar R] in
/-- A definition of the forward section that left `slot` in `dst`. -/
theorem define_tangent {dst : Var} (hrange : dst.idx < m.vars.size) (slot : Slot R) :
    (m.setVar dst slot).tangent G dst = slot.tangent G :=
  Machine.tangent_some (Machine.var_setVar_self _ _ _ hrange)

theorem copied {dst v : Var} {decl active : Bool}
    (hran : (Step.assign dst decl (.var v) active).Ran j S.rv.level site m log m') :
    ∃ slot, m.var v = some slot ∧ m' = m.setVar dst slot := by
  have hexec : j.execBlock [.define dst decl (.copy v)] m = .ok .next m' := hran.1
  rw [Job.execBlock_singleton, Job.exec_define] at hexec
  obtain ⟨slot, m₁, hread, hset⟩ := bind_eq_ok.mp hexec
  obtain ⟨hv, rfl⟩ := (j.read_eq_ok m).mp hread
  cases hset
  exact ⟨slot, hv, rfl⟩

/-- A step that is one definition leaves the tangents of other variables. -/
theorem Step.Ran.tangent_of_ne {step : Step} {dst : Var} {decl : Bool} {e : Expr}
    (hran : step.Ran j S.rv.level site m log m') (hleaf : step.isLeaf = true)
    (hsource : step.source = [.define dst decl e]) (v : Var) (hv : v ≠ dst) :
    m'.tangent G v = m.tangent G v := by
  apply Machine.tangent_congr
  apply (hran.frame hleaf).vars v
  intro decl' e' he
  rw [hsource] at he
  simp only [blockAtoms, Stmt.atoms, List.append_nil, List.mem_singleton] at he
  cases he
  exact hv rfl

/-! ### Assignments -/

/-- Behind an assignment to `dst`, the adjoint of `dst` stands apart from those that
pass it by. -/
structure Assigned (S : Setting) (G : Graph R) (total : R) (D : Finset Var) (accs : Accumulators)
    (dst : Var) (decl : Bool) (src : Source) (m m' n : Machine R) (A : Var → R) (B : List R)
    (P : R) : Prop where
  atom : Stmt.define dst decl src.expr ∈ blockAtoms S.lo.func.body
  inScope : (Stmt.define dst decl src.expr).Scoped S.lo.func D
  idx : dst.idx < m.vars.size
  grows : GraphGrows m.graph (some G)
  paired : Paired S G total (blockScope D [.define dst decl src.expr]) accs m' n A B P
  total : ∑ v ∈ D, Function.update A dst 0 v * m.tangent G v + A dst * m'.tangent G dst +
    S.carriedSum G m' B + P = total

section
variable {dst : Var} {decl active : Bool} {src : Source}

theorem Paired.assigned (hp : Placed S D [.assign dst decl src active])
    (hran : (Step.assign dst decl src active).Ran j S.rv.level site m log m')
    (hrange : S.rv.base ≤ m.vars.size)
    (h : Paired S G total (blockScope D [.define dst decl src.expr]) accs m' n A B P) :
    Assigned S G total D accs dst decl src m m' n A B P := by
  have hatom : Stmt.define dst decl src.expr ∈ blockAtoms S.lo.func.body :=
    hp.atoms (by simp [stepsSource, Step.source, blockAtoms, Stmt.atoms])
  have hidx : dst.idx < m.vars.size :=
    Nat.lt_of_lt_of_le (S.definesBelow dst decl _ hatom) (Nat.le_trans S.base hrange)
  refine ⟨hatom, hp.inScope.1, hidx, GraphGrows.trans (hran.frame rfl).graph h.grows, h, ?_⟩
  rw [← sum_define hp.inScope.1 A (hran.tangent_of_ne rfl rfl)]
  exact h.total

namespace Assigned

variable {a : Var}

section
omit [LawfulScalar R]

theorem held (h : Assigned S G total D accs dst decl src m m' n A B P) : accs.Hold D n A P :=
  h.paired.held.mono (subset_blockScope D _)

theorem real (h : Assigned S G total D accs dst decl src m m' n A B P)
    (ha : accs.find? dst = some a) : n.Real a (A dst) :=
  h.paired.held.real dst (mem_blockScope_define h.inScope) a ha

theorem quiet (h : Assigned S G total D accs dst decl src m m' n A B P) (v : Var)
    (hv : S.Quiet v) : Function.update A dst 0 v = 0 := by
  by_cases hvd : v = dst
  · rw [hvd, Function.update_self]
  · rw [Function.update_of_ne hvd, h.paired.quiet v hv]

end

/-- What is assigned does not depend on the seed. -/
theorem inert (h : Assigned S G total D accs dst decl src m m' n A B P) (hS : S.Elementary)
    (hzero : Scalar.lit s.zero = (0 : R)) (hfit : accs.Fit base size) (hsize : size ≤ n.vars.size)
    (hp : Placed S D [.assign dst decl src false])
    (hran : (Step.assign dst decl src false).Ran j S.rv.level site m log m') (hm : Traced S m)
    (ha : accs.find? dst = some a) :
    ∃ n', j.execBlock (if decl then [] else [s.reset a]) n = .ok .next n' ∧
      Pairs S G total D accs m n' := by
  have hactive : false = S.lo.sourceActive src := hp.fine.1.2
  have hinert : S.lo.AtomInert (.define dst decl src.expr) := fun _ => by
    cases src <;> exact hactive.symm
  have hexec : j.exec (.define dst decl src.expr) m = .ok .next m' := by
    rw [← Job.execBlock_singleton]
    exact hran.1
  have htotal := h.total
  rw [(hm.inert_define hS h.atom hinert hexec).tangent, mul_zero, add_zero,
    S.carriedSum_congr (assign_carried hp hran (by simp))] at htotal
  cases decl with
  | true =>
    exact ⟨n, rfl, _, B, P, h.grows, h.paired.plain, h.held.forget h.inScope.2.2 0,
      h.paired.adjoints, h.quiet, htotal⟩
  | false =>
    exact ⟨_, rfl, _, B, P, h.grows, h.paired.plain,
      h.held.set hfit hsize ha _ (congrArg Value.real hzero), h.paired.adjoints, h.quiet, htotal⟩

/-- A variable that is assigned itself keeps its adjoint. -/
theorem self (h : Assigned S G total D accs dst decl (.var dst) m m' n A B P)
    (hp : Placed S D [.assign dst decl (.var dst) true])
    (hran : (Step.assign dst decl (.var dst) true).Ran j S.rv.level site m log m') :
    Pairs S G total D accs m n := by
  obtain ⟨slot, hslot, rfl⟩ := copied hran
  have hD : dst ∈ D := h.inScope.uses dst (by simp [Source.expr, Expr.uses])
  have htotal := h.total
  rw [define_tangent h.idx, ← Machine.tangent_some hslot, ← sum_update hD,
    Function.update_self, zero_add, Function.update_idem, Function.update_eq_self,
    S.carriedSum_congr (assign_carried hp hran (by simp))] at htotal
  exact ⟨A, B, P, h.grows, h.paired.plain, h.held, h.paired.adjoints, h.paired.quiet, htotal⟩

/-- The adjoint of a copy is added to that of what it is a copy of. -/
theorem copy {v b : Var} (h : Assigned S G total D accs dst decl (.var v) m m' n A B P)
    (hzero : Scalar.lit s.zero = (0 : R)) (hfit : accs.Fit base size) (hsize : size ≤ n.vars.size)
    (hp : Placed S D [.assign dst decl (.var v) true])
    (hran : (Step.assign dst decl (.var v) true).Ran j S.rv.level site m log m')
    (ha : accs.find? dst = some a) (hne : v ≠ dst) (hb : accs.find? v = some b) :
    ∃ n', j.execBlock [Sweep.fold .fadd b a, s.reset a] n = .ok .next n' ∧
      Pairs S G total D accs m n' := by
  obtain ⟨slot, hslot, rfl⟩ := copied hran
  have hD : v ∈ D := h.inScope.uses v (by simp [Source.expr, Expr.uses])
  have hread : v ∈ stepsReads S.plan.body.2 :=
    hp.reads (by simp [stepsReads, Step.reads, Source.expr, Expr.uses])
  have htypes : S.lo.func.varTy v = S.lo.func.varTy dst := S.inScope.typed h.atom
  have hset := (h.held.set hfit hsize hb { value := .real (A v + A dst) } rfl).set hfit
    (by rw [Machine.size_setVar]; exact hsize) ha { value := .ofConst (.real s.zero) }
    (congrArg Value.real hzero)
  rw [Function.update_comm hne] at hset
  have hexec := (execBlock_fold (j := j) h.paired.plain (h.held.real v hD b hb) (h.real ha)
    [s.reset a]).trans (execBlock_reset s a [] _)
  refine ⟨_, hexec, _, B, P, h.grows, h.paired.plain, hset, h.paired.adjoints, fun w hw => ?_, ?_⟩
  · by_cases hwv : w = v
    · -- what is read is quiet only if it is no real, and so is what it is copied to
      subst hwv
      have hty : S.lo.func.varTy w ≠ .real := fun hty => Setting.not_quiet hread hty hw
      rw [Function.update_self, h.paired.quiet w hw, h.paired.quiet dst (.inr (htypes ▸ hty)),
        add_zero]
    · rw [Function.update_of_ne hwv, h.quiet w hw]
  · have htotal := h.total
    have hAv : Function.update A dst 0 v = A v := Function.update_of_ne hne ..
    rw [define_tangent h.idx, ← Machine.tangent_some hslot, ← sum_update hD, hAv,
      S.carriedSum_congr (assign_carried hp hran (by simp))] at htotal
    exact htotal

/-- The adjoint of what is loaded from the input is added to that of the input, whose
tangent is one. -/
theorem load {obj b : Var} {field : String}
    (h : Assigned S G total D accs dst decl (.field obj field) m m' n A B P)
    (hzero : Scalar.lit s.zero = (0 : R)) (hfit : accs.Fit base size) (hsize : size ≤ n.vars.size)
    (hp : Placed S D [.assign dst decl (.field obj field) true])
    (hran : (Step.assign dst decl (.field obj field) true).Ran j S.rv.level site m log m')
    (hm : Traced S m) (ha : accs.find? dst = some a) (hb : accs.property = some b) :
    ∃ n', j.execBlock [Sweep.fold .fadd b a, s.reset a] n = .ok .next n' ∧
      Pairs S G total D accs m n' := by
  have hactive : true = S.lo.sourceActive (.field obj field) := hp.fine.1.2
  have hinput : S.lo.activity.input = .property obj field := beq_iff_eq.mp hactive.symm
  have hexec : j.exec (.define dst decl (.load obj field)) m = .ok .next m' := by
    rw [← Job.execBlock_singleton]
    exact hran.1
  obtain ⟨slot, hnode, rfl⟩ := hm.seed_loaded hinput h.atom hexec
  have hrun := (execBlock_fold (j := j) h.paired.plain (h.held.property b hb) (h.real ha)
    [s.reset a]).trans (execBlock_reset s a [] _)
  have hset := (h.held.setProperty hfit hsize hb { value := .real (P + A dst) } rfl).set hfit
    (by rw [Machine.size_setVar]; exact hsize) ha { value := .ofConst (.real s.zero) }
    (congrArg Value.real hzero)
  refine ⟨_, hrun, _, B, _, h.grows, h.paired.plain, hset, h.paired.adjoints, h.quiet, ?_⟩
  have htotal := h.total
  have hseed : slot.tangent G = 1 := by
    rw [Slot.tangent, hnode]
    exact G.tangent_seed
  rw [define_tangent h.idx, hseed, mul_one,
    S.carriedSum_congr (assign_carried hp hran (by simp))] at htotal
  rw [← htotal]
  ring

/-- The adjoint of what is popped goes onto the tape of adjoints. -/
theorem pop {t : Tape} (h : Assigned S G total D accs dst decl (.tape t) m m' n A B P)
    (hzero : Scalar.lit s.zero = (0 : R)) (hlevel : s.level = S.rv.level)
    (hfit : accs.Fit base size) (hsize : size ≤ n.vars.size)
    (hp : Placed S D [.assign dst decl (.tape t) true])
    (hran : (Step.assign dst decl (.tape t) true).Ran j S.rv.level site m log m')
    (ha : accs.find? dst = some a) :
    ∃ n', j.execBlock [.push s.level.adjoints a, s.reset a] n = .ok .next n' ∧
      Pairs S G total D accs m n' := by
  have hactive : true = S.lo.isActiveTape t := hp.fine.1.2
  obtain rfl : t = S.tape := S.single t hactive.symm
  obtain ⟨slot, rest, hst, rfl⟩ := assign_popped hran
  have hcarried : S.carriedSum G m (A dst :: B) =
      A dst * slot.tangent G + S.carriedSum G ((m.dropTape S.tape rest).setVar dst slot) B := by
    simp [Setting.carriedSum, Setting.carried, hactive.symm, hst]
  obtain ⟨adjoint, hadjoint, hvalue⟩ := Option.map_eq_some_iff.mp (h.real ha)
  have hpush : j.exec (.push s.level.adjoints a) n =
      .ok .next (n.pushTape s.level.adjoints adjoint) := by
    rw [Job.exec_push, bind_ok (j.read_some n hadjoint)]
    rfl
  have hexec := (j.execBlock_cons_next hpush).trans (execBlock_reset s a [] _)
  have hheld' : accs.Hold D (n.pushTape s.level.adjoints adjoint) A P :=
    h.held.congr fun _ _ => rfl
  refine ⟨_, hexec, _, A dst :: B, P, h.grows, h.paired.plain,
    hheld'.set hfit hsize ha _ (congrArg Value.real hzero), ?_, h.quiet, ?_⟩
  · rw [hlevel, Machine.stack_setVar, Machine.stack_pushTape_self, List.map_cons, hvalue,
      h.paired.adjoints, List.map_cons]
  · have htotal := h.total
    rw [define_tangent (show dst.idx < (m.dropTape S.tape rest).vars.size from h.idx)] at htotal
    rw [hcarried, ← htotal]
    ring

end Assigned

/-- The adjoint of a variable that is assigned passes to what it is assigned from,
to another variable or onto the tape of adjoints. -/
theorem assign_paired (hS : S.Elementary) (hzero : Scalar.lit s.zero = (0 : R))
    (hlevel : s.level = S.rv.level) (hfit : accs.Fit base size) (hsize : size ≤ n.vars.size)
    (hp : Placed S D [.assign dst decl src active])
    (hran : (Step.assign dst decl src active).Ran j S.rv.level site m log m')
    (hrange : S.rv.base ≤ m.vars.size) (hm : Traced S m)
    (hcode : s.reverseAssign accs dst decl src active l = .ok (code, l'))
    (h : Pairs S G total (blockScope D [.define dst decl src.expr]) accs m' n) :
    ∃ n', j.execBlock code n = .ok .next n' ∧ Pairs S G total D accs m n' := by
  obtain ⟨A, B, P, h⟩ := h
  have h := h.assigned hp hran hrange
  obtain ⟨rfl, a, ha, ⟨rfl, rfl⟩ | ⟨rfl, ⟨rfl, rfl⟩ | ⟨v, b, rfl, hne, hb, rfl⟩ |
    ⟨obj, field, b, rfl, hb, rfl⟩ | ⟨t, rfl, rfl⟩⟩⟩ := Sweep.reverseAssign_eq_ok hcode
  · exact h.inert hS hzero hfit hsize hp hran hm ha
  · exact ⟨n, rfl, h.self hp hran⟩
  · exact h.copy hzero hfit hsize hp hran ha hne hb
  · exact h.load hzero hfit hsize hp hran hm ha hb
  · exact h.pop hzero hlevel hfit hsize hp hran ha

end

/-- The adjoint of what was put on the tape goes to the variable it came from. -/
theorem tapeWrite_paired (hlevel : s.level = S.rv.level) (hfit : accs.Fit base l.vars.size)
    (hsize : l'.vars.size ≤ n.vars.size) {t : Tape} {val : Var} {active : Bool}
    (hp : Placed S D [.tapeWrite t val active])
    (hran : (Step.tapeWrite t val active).Ran j S.rv.level site m log m') (hm : Traced S m)
    (hcode : s.reverseTapeWrite accs val active l = .ok (code, l'))
    (hcount : (n.stack S.rv.level.adjoints).length = (S.carried m').length)
    (h : Pairs S G total (blockScope D [.push t val]) accs m' n) :
    ∃ n', j.execBlock code n = .ok .next n' ∧ Pairs S G total D accs m n' := by
  obtain ⟨A, B, P, h⟩ := h
  have hact : S.lo.isActiveTape t = true := hp.fine.1.1
  have hactive : active = S.lo.isActive val := hp.fine.1.2
  obtain rfl : t = S.tape := S.single t hact
  have hD : val ∈ D := hp.inScope.1
  have hscope : blockScope D [.push S.tape val] = D := Finset.union_empty D
  have hpushed : Stmt.push S.tape val ∈ blockAtoms S.lo.func.body :=
    hp.atoms (by simp [stepsSource, Step.source, blockAtoms, Stmt.atoms])
  have hread : ¬S.Quiet val := Setting.not_quiet
    (hp.reads (by simp [stepsReads, Step.reads]))
    ((Func.fits_of_isValid S.valid).atom hpushed).2
  have hframe := hran.frame rfl
  obtain ⟨slot, hslot, rfl⟩ := tapeWrite_pushed hran
  have hcarried : S.carried (m.pushTape S.tape slot) = slot :: S.carried m := by
    simp [Setting.carried, hact]
  -- the tape of adjoints is as long as the tape, so that there is an adjoint
  have hgrows : GraphGrows m.graph (some G) := GraphGrows.trans hframe.graph h.grows
  have hadjoints := h.adjoints
  have htotal := h.total
  have hheld := h.held
  rw [hscope] at htotal hheld
  rw [hcarried, List.length_cons] at hcount
  obtain ⟨adjoint, rest, hst⟩ := List.exists_cons_of_length_eq_add_one hcount
  rw [hst] at hadjoints
  obtain ⟨b, B, rfl, hb, hrest⟩ := List.map_eq_cons_iff.mp hadjoints.symm
  have hsum : S.carriedSum G (m.pushTape S.tape slot) (b :: B) =
      b * m.tangent G val + S.carriedSum G m B := by
    rw [Setting.carriedSum, hcarried, Machine.tangent_some hslot]
    rfl
  rw [hsum] at htotal
  have hpop := execBlock_pop (j := j) (hlevel ▸ hst) ⟨l.vars.size⟩ true
  obtain ⟨hle, hsize', hcases⟩ := Sweep.reverseTapeWrite_eq_ok hcode
  have hfresh (a : Var) (ha : accs.Has a) : (⟨l.vars.size⟩ : Var) ≠ a := by
    rintro rfl
    exact Nat.lt_irrefl _ (hfit.has ha).2
  have hheld' : accs.Hold D ((n.dropTape s.level.adjoints rest).setVar ⟨l.vars.size⟩ adjoint) A P :=
    hheld.congr fun a ha => Machine.var_setVar_ne _ _ _ _ (hfresh a ha)
  have hstack : ((n.dropTape s.level.adjoints rest).stack S.rv.level.adjoints).map Slot.value =
      B.map Value.real := by
    rw [hlevel, Machine.stack_dropTape_self, hrest]
  rcases hcases with ⟨rfl, rfl⟩ | ⟨a, rfl, ha, rfl⟩
  · refine ⟨_, hpop, A, B, P, hgrows, h.plain, hheld', hstack, h.quiet, ?_⟩
    rw [(hm.nodeless hactive.symm).tangent, mul_zero, zero_add] at htotal
    exact htotal
  · have hreal : ((n.dropTape s.level.adjoints rest).setVar ⟨l.vars.size⟩ adjoint).Real
        ⟨l.vars.size⟩ b :=
      Machine.real_setVar (show l.vars.size < n.vars.size by omega) hb.symm
    have hplain : ((n.dropTape s.level.adjoints rest).setVar ⟨l.vars.size⟩ adjoint).graph = none :=
      h.plain
    have hexec := (j.execBlock_append_next hpop).trans
      (execBlock_fold hplain (hheld'.real val hD a ha) hreal [])
    refine ⟨_, hexec, _, B, P, hgrows, h.plain,
      hheld'.set hfit (by rw [Machine.size_setVar, Machine.vars_dropTape]; omega) ha _ rfl,
      hstack, fun v hv => ?_, ?_⟩
    · rw [Function.update_of_ne (show v ≠ val by rintro rfl; exact hread hv), h.quiet v hv]
    · rw [sum_update hD, add_assoc (∑ v ∈ D, _)]
      exact htotal

end

end Backsweep
