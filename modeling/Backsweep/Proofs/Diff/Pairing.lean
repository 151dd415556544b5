import Mathlib
import Backsweep.Proofs.Diff.Formula
import Backsweep.Proofs.Diff.Influence

/-!
# Adjoints and tangents

Along the reverse section, the sum of adjoints times tangents does not change. The
tangents are those of the state that is tracked, so that the sum is the derivative
of the result times the upstream derivative at the beginning, and the adjoint of
the input in the end.

* `Pairs`: the accumulators and the tape of adjoints hold such adjoints;
* `Pairs.widen`, `Pairs.header`: it stays so where code runs forward only.
-/

namespace Backsweep

variable {R : Type} [Field R]

/-- No step reads the variable and it is not returned, or it is no real. -/
def Setting.Quiet (S : Setting) (v : Var) : Prop :=
  v ∉ stepsReads S.plan.body.2 ∧ v ≠ S.plan.ret ∨ S.lo.func.varTy v ≠ .real

theorem Setting.not_quiet {S : Setting} {v : Var} (hread : v ∈ stepsReads S.plan.body.2)
    (hreal : S.lo.func.varTy v = .real) : ¬S.Quiet v := by
  rintro (hquiet | hty)
  · exact hquiet.1 hread
  · exact hty hreal

/-- The adjoints `B` times the tangents of what lies on the tape of active values. -/
def Setting.carriedSum (S : Setting) (G : Graph R) (m : Machine R) (B : List R) : R :=
  (List.zipWith (fun b s => b * Slot.tangent G s) B (S.carried m)).sum

/-- The accumulators of the variables `D` hold the adjoints `A`, and that of a property
holds `P`. What has no accumulator has no adjoint. -/
structure Accumulators.Hold (accs : Accumulators) (D : Finset Var) (n : Machine R) (A : Var → R)
    (P : R) : Prop where
  real : ∀ v ∈ D, ∀ a, accs.find? v = some a → n.Real a (A v)
  zero : ∀ v ∈ D, accs.find? v = none → A v = 0
  property : ∀ a ∈ accs.property, n.Real a P
  unused : accs.property = none → P = 0

/-- The machine `n` of the reverse section holds the adjoints `A` of the variables `D`,
the adjoints `B` of what lies on the tape, and the adjoint `P` of the input if that is a
property, whose tangent is one. Times the tangents in `m` they are `total`. -/
structure Paired (S : Setting) (G : Graph R) (total : R) (D : Finset Var) (accs : Accumulators)
    (m n : Machine R) (A : Var → R) (B : List R) (P : R) : Prop where
  grows : GraphGrows m.graph (some G)
  plain : n.graph = none
  held : accs.Hold D n A P
  adjoints : (n.stack S.rv.level.adjoints).map Slot.value = B.map Value.real
  quiet : ∀ v, S.Quiet v → A v = 0
  total : ∑ v ∈ D, A v * m.tangent G v + S.carriedSum G m B + P = total

def Pairs (S : Setting) (G : Graph R) (total : R) (D : Finset Var) (accs : Accumulators)
    (m n : Machine R) : Prop := ∃ A B P, Paired S G total D accs m n A B P

section
variable {S : Setting} {G : Graph R} {total : R} {D D' : Finset Var} {accs accs' : Accumulators}
  {m m' n n' : Machine R} {A : Var → R} {B : List R} {P : R}

theorem Accumulators.Hold.mono (h : accs.Hold D' n A P) (hD : D ⊆ D') : accs.Hold D n A P :=
  ⟨fun v hv => h.real v (hD hv), fun v hv => h.zero v (hD hv), h.property, h.unused⟩

/-- Other variables do not matter. -/
theorem Accumulators.Hold.congr (h : accs.Hold D n A P)
    (hn : ∀ a, accs.Has a → n'.var a = n.var a) : accs.Hold D n' A P :=
  ⟨fun v hv a ha => (h.real v hv a ha).congr (hn a (.inl ⟨v, ha⟩)), h.zero,
    fun a ha => (h.property a ha).congr (hn a (.inr ha)), h.unused⟩

theorem Setting.carriedSum_congr (h : S.carried m' = S.carried m) :
    S.carriedSum G m' B = S.carriedSum G m B := by
  rw [carriedSum, h, carriedSum]

theorem Pairs.congr (h : Pairs S G total D accs m n) (hvars : m'.vars = m.vars)
    (htape : m'.stack S.tape = m.stack S.tape) (hgraph : m'.graph = m.graph)
    (haccs : ∀ a, accs.Has a → n'.var a = n.var a)
    (hadjoints : n'.stack S.rv.level.adjoints = n.stack S.rv.level.adjoints)
    (hplain : n'.graph = n.graph) : Pairs S G total D accs m' n' := by
  obtain ⟨A, B, P, h⟩ := h
  have hvar (v : Var) : m'.var v = m.var v := by rw [Machine.var, hvars, Machine.var]
  refine ⟨A, B, P, hgraph ▸ h.grows, hplain.trans h.plain, h.held.congr haccs,
    hadjoints ▸ h.adjoints, h.quiet, ?_⟩
  rw [S.carriedSum_congr (S.carried_congr fun _ => htape), ← h.total]
  congr 2
  exact Finset.sum_congr rfl fun v _ => by rw [Machine.tangent_congr (hvar v)]

theorem Pairs.inScope (h : Pairs S G total D accs m n)
    (haccs : ∀ v ∈ D, accs'.find? v = accs.find? v) (hproperty : accs'.property = accs.property) :
    Pairs S G total D accs' m n := by
  obtain ⟨A, B, P, h⟩ := h
  refine ⟨A, B, P, h.grows, h.plain, ⟨fun v hv a ha => ?_, fun v hv ha => ?_, ?_, ?_⟩, h.adjoints,
    h.quiet, h.total⟩
  · exact h.held.real v hv a (haccs v hv ▸ ha)
  · exact h.held.zero v hv (haccs v hv ▸ ha)
  · exact hproperty ▸ h.held.property
  · exact hproperty ▸ h.held.unused

/-- New variables have the adjoint zero. -/
theorem Pairs.widen (h : Pairs S G total D accs m n) (hD : D ⊆ D')
    (hnew : ∀ v ∈ D', v ∉ D → accs.find? v = none ∨ ∃ a, accs.find? v = some a ∧ n.Real a 0) :
    Pairs S G total D' accs m n := by
  obtain ⟨A, B, P, h⟩ := h
  refine ⟨fun v => if v ∈ D then A v else 0, B, P, h.grows, h.plain, ⟨fun v hv a ha => ?_,
    fun v hv ha => ?_, h.held.property, h.held.unused⟩, h.adjoints, fun v hv => ?_, ?_⟩
  · by_cases hvD : v ∈ D
    · simp only [hvD, ite_true]
      exact h.held.real v hvD a ha
    · simp only [hvD, ite_false]
      rcases hnew v hv hvD with hnone | ⟨a', ha', hreal⟩
      · rw [hnone] at ha; cases ha
      · rw [ha'] at ha; cases ha; exact hreal
  · split
    · rename_i hvD
      exact h.held.zero v hvD ha
    · rfl
  · rw [h.quiet v hv, ite_self]
  · rw [← h.total]
    congr 2
    rw [← Finset.sum_subset hD fun v _ hv => by rw [if_neg hv, zero_mul]]
    exact Finset.sum_congr rfl fun v hv => by rw [if_pos hv]

variable [LawfulScalar R] {j : Job R}

/-- A header computes nothing active that is read behind it, so that nothing has to
be undone. -/
theorem Pairs.header (hS : S.Elementary) {header : Block} {test : Var}
    (hheader : (header, test) ∈ stepsHeaders S.plan.body.2) (hfine : S.lo.HeaderFine header test)
    (htest : S.lo.func.varTy test = .bool)
    (hatoms : blockAtoms header ⊆ blockAtoms S.lo.func.body) (hm : Traced S m)
    (hexec : j.execBlock header m.ticked = .ok .next m')
    (h : Pairs S G total (blockScope D header) accs m' n) : Pairs S G total D accs m n := by
  obtain ⟨A, B, P, h⟩ := h
  have hm' : Traced S m' := hm.ticked.forward hS (fun a ha => .inl (hatoms ha)) hexec
  have hframe : BlockFrame (fun v => ∀ decl e, Stmt.define v decl e ∉ blockAtoms header)
      (fun t => t ∉ blockTapes header) m.ticked m' :=
    (j.execBlock_frame (fun v decl e hv ha => hv decl e ha) (fun t ht hmem => ht hmem) _).of_ok hexec
  -- what the header defines is not active, or nothing reads it
  have hzero (v : Var) (hv : ∃ decl e, Stmt.define v decl e ∈ blockAtoms header) :
      A v * m'.tangent G v = 0 ∧ A v * m.tangent G v = 0 := by
    obtain ⟨decl, e, hd⟩ := hv
    cases hactive : S.lo.isActive v with
    | false =>
      rw [(hm'.nodeless hactive).tangent, (hm.nodeless hactive).tangent, mul_zero]
      exact ⟨rfl, rfl⟩
    | true =>
      have hquiet : S.Quiet v := by
        rcases hfine.define v decl e hd hactive with rfl | hescapes
        · refine .inr ?_
          rw [htest]
          exact Ty.noConfusion
        · refine .inl (not_read_of_header hheader ?_)
          rw [← S.fine.body]
          exact Nat.not_lt.mp (of_decide_eq_false hescapes)
      rw [h.quiet v hquiet, zero_mul, zero_mul]
      exact ⟨rfl, rfl⟩
  have hsame (v : Var) : A v * m'.tangent G v = A v * m.tangent G v := by
    by_cases hd : ∃ decl e, Stmt.define v decl e ∈ blockAtoms header
    · rw [(hzero v hd).1, (hzero v hd).2]
    · rw [Machine.tangent_congr (hframe.vars v fun decl e ha => hd ⟨decl, e, ha⟩)]
      rfl
  refine ⟨A, B, P, GraphGrows.trans hframe.graph h.grows, h.plain,
    h.held.mono (subset_blockScope D header), h.adjoints, h.quiet, ?_⟩
  have hcarried : S.carried m' = S.carried m := by
    refine S.carried_congr fun hact => congrArg TapeCell.stack (hframe.tapes _ fun hmem => ?_)
    rw [S.headers _ hheader _ hmem] at hact
    cases hact
  rw [← h.total, S.carriedSum_congr hcarried]
  congr 2
  rw [← Finset.sum_subset (subset_blockScope D header) fun v hv hvD => ?_]
  · exact Finset.sum_congr rfl fun v _ => (hsame v).symm
  · rw [blockScope, Finset.mem_union, List.mem_toFinset] at hv
    obtain ⟨s, hs, hdecl⟩ := List.mem_filterMap.mp (hv.resolve_left hvD)
    cases s with
    | define dst decl e =>
      cases decl with
      | true =>
        cases hdecl
        exact (hzero _ ⟨true, e, mem_blockAtoms.mpr ⟨_, hs, by simp [Stmt.atoms]⟩⟩).1
      | false => cases hdecl
    | _ => cases hdecl

end

end Backsweep
