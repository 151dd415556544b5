import Mathlib
import Backsweep.Proofs.Diff.Formed

/-!
# Well-formed reverse sections

What the rules of a call compute with has to be real. Where that is so, the reverse code of
a plan is well formed, however its steps are nested.

* `Emit.Grows`: generating code only adds to the variable table;
* `ActiveCall.SavesReals`, `ActiveCall.ComputesReals`: calls whose derivatives fit;
* `Grounded`: the place where reverse code is generated;
* `Sweep.reverseSteps_formed`: the reverse code of such calls is well formed.
-/

namespace Backsweep

variable {upstream primal v : Var} {D' : Finset Var} {code : Block} {i : Nat}

/-! ## The table grows -/

/-- The action only adds to the table. -/
def Emit.Grows {α : Type} (x : Emit α) : Prop :=
  ∀ {l l' : Locals} {a : α}, x l = .ok (a, l') → l.Le l'

theorem Emit.Grows.pure {α : Type} (a : α) : Grows (Pure.pure a : Emit α) := by
  intro l l' b h
  obtain ⟨-, rfl⟩ := emit_pure_eq_ok.mp h
  exact .refl _

namespace Sweep

open Emit (Grows)

variable (s : Sweep) (accs : Accumulators)

theorem declare_grows (base : String) (ty : Ty) (mutable : Bool) :
    Grows (declare base ty mutable) := fun h => (declare_eq_ok h).2.1

theorem inline_ok_iff {r : Rule} {out : Var} {inputs : List Var} {stmts : Block} {l l' : Locals} :
    inline r upstream inputs primal l = .ok ((stmts, out), l') ↔
      r.inline l upstream inputs primal = (stmts, out, l') := by
  generalize hi : r.inline l upstream inputs primal = x
  obtain ⟨stmts', out', l₁⟩ := x
  simp only [inline, hi, Except.ok.injEq, Prod.mk.injEq, and_assoc]

theorem inline_grows (r : Rule) (upstream : Var) (inputs : List Var) (primal : Var) :
    Grows (inline r upstream inputs primal) := by
  rintro l l' ⟨stmts, out⟩ h
  obtain ⟨σ, hsteps, -⟩ := Rule.inline_eq_iff.mp (inline_ok_iff.mp h)
  exact inlineSteps_le hsteps

theorem contributions_grows (op : Opcode) (upstream primal : Var) (inputs : List Var)
    (rs : List (Var × Bool × Rule)) :
    Grows (s.contributions accs op upstream inputs primal rs) := by
  induction rs with
  | nil => exact Grows.pure _
  | cons r rs ih =>
    obtain ⟨arg, active, rule⟩ := r
    cases active with
    | false => exact ih
    | true =>
      intro l l' code h
      obtain ⟨stmts, contribution, l₁, a, code', hinline, -, hrest, -⟩ := contributions_eq_ok h
      exact (inline_grows rule upstream inputs primal hinline).trans (ih hrest)

theorem takeAdjoint_grows (c : ActiveCall) (a : Var) : Grows (s.takeAdjoint c a) := by
  rintro l l' ⟨stmts, upstream⟩ h
  rcases takeAdjoint_eq_ok h with ⟨-, -, -, rfl⟩ | ⟨-, -, hle, -⟩
  · exact .refl _
  · exact hle

theorem takePrimal_grows (c : ActiveCall) : Grows (s.takePrimal c) := by
  rintro l l' ⟨stmts, primal⟩ h
  rcases takePrimal_eq_ok h with ⟨-, -, hle, -⟩ | ⟨-, -, -, rfl⟩
  · exact hle
  · exact .refl _

theorem popSaved_grows (vs : List Var) : Grows (s.popSaved vs) := by
  rintro l l' ⟨stmts, saved⟩ h
  exact (popSaved_eq_ok h).1

theorem reverseCall_grows (c : ActiveCall) : Grows (s.reverseCall accs c) := by
  intro l l' code h
  obtain ⟨a, before, upstream, ins, primal, l₁, after, -, hbefore, hafter, -⟩ := reverseCall_eq_ok h
  obtain ⟨adjointStmts, l₂, primalStmts, l₃, savedStmts, saved, hadjoint, hprimal, hsaved, -, -⟩ :=
    prepare_eq_ok hbefore
  have hfetch := (s.takePrimal_grows c hprimal).trans (s.popSaved_grows _ hsaved)
  exact ((s.takeAdjoint_grows c a hadjoint).trans hfetch).trans
    (s.contributions_grows accs _ _ _ _ _ hafter)

theorem reverseLeaf_grows {step : Step} (hleaf : step.isLeaf = true) :
    Grows (s.reverseStep accs step) := by
  intro l l' code h
  cases step, hleaf using Step.leafCases with
  | inert run =>
    obtain ⟨-, rfl⟩ := emit_pure_eq_ok.mp h
    exact .refl _
  | call c => exact s.reverseCall_grows accs c h
  | assign dst decl src active =>
    obtain ⟨rfl, -⟩ := reverseAssign_eq_ok h
    exact .refl _
  | tapeWrite t val active => exact (reverseTapeWrite_eq_ok h).1

theorem reverseSection_grows {steps : List Step} (ih : ∀ accs, Grows (s.reverseSteps accs steps))
    (decls : List Var) : Grows (s.reverseSection accs decls steps) := by
  intro l l' code h
  obtain ⟨l₁, inner, -, hle, -, hinner, -⟩ := reverseSection_eq_ok h
  exact hle.trans (ih _ hinner)

theorem reverseArms_grows {arms : List (Var × List Var × List Step)}
    (ih : ∀ arm ∈ arms, ∀ accs, Grows (s.reverseSteps accs arm.2.2)) :
    Grows (s.reverseArms accs arms) := by
  induction arms with
  | nil => exact Grows.pure _
  | cons arm arms iha =>
    obtain ⟨test, decls, steps⟩ := arm
    intro l l' blocks h
    obtain ⟨first, l₁, rest, hfirst, hrest, -⟩ := reverseArms_cons h
    have hle := s.reverseSection_grows accs (ih (test, decls, steps) List.mem_cons_self) decls hfirst
    exact hle.trans (iha (fun arm harm => ih arm (List.mem_cons_of_mem _ harm)) hrest)

/-- **Generating reverse code only adds to the table.** -/
theorem reverseSteps_grows (ss : List Step) : Grows (s.reverseSteps accs ss) := by
  induction ss using stepsInduction generalizing accs with
  | nil => exact Grows.pure _
  | leaf step steps hleaf ih =>
    intro l l' code h
    obtain ⟨later, l₁, now, hlater, hnow, -⟩ := reverseSteps_cons h
    exact (ih accs hlater).trans (s.reverseLeaf_grows accs hleaf hnow)
  | block decls steps rest ihs ih =>
    intro l l' code h
    obtain ⟨later, l₁, now, hlater, hnow, -⟩ := reverseSteps_cons h
    obtain ⟨inner, hinner, -⟩ := reverseStep_block hnow
    exact (ih accs hlater).trans (s.reverseSection_grows accs ihs decls hinner)
  | cond arms decls steps rest iha ihs ih =>
    intro l l' code h
    obtain ⟨later, l₁, now, hlater, hnow, -⟩ := reverseSteps_cons h
    obtain ⟨l₂, testStmts, tests, l₃, blocks, l₄, last, -, hle, -, htests, hblocks, hlast, -⟩ :=
      reverseStep_cond hnow
    have hchoice := (ih accs hlater).trans (hle.trans (branchTests_le htests))
    have harms := s.reverseArms_grows accs iha hblocks
    exact hchoice.trans (harms.trans (s.reverseSection_grows accs ihs decls hlast))
  | loop id header test decls steps rest ihs ih =>
    intro l l' code h
    obtain ⟨later, l₁, now, hlater, hnow, -⟩ := reverseSteps_cons h
    obtain ⟨-, l₂, body, -, -, hle, -, hbody, -⟩ := reverseStep_loop hnow
    exact (ih accs hlater).trans (hle.trans (s.reverseSection_grows accs ihs decls hbody))

end Sweep

/-! ## Calls -/

/-- What the forward section pushes for a call is real. -/
def ActiveCall.SavesReals (f : Func) (c : ActiveCall) : Prop :=
  (∀ v ∈ c.savedArgs, f.varTy v = .real) ∧ (c.primal = .saved → f.varTy c.dst = .real)

/-- What the rules of a call compute with is real. -/
structure ActiveCall.ComputesReals (f : Func) (c : ActiveCall) : Prop where
  inputs : ∀ arg r, (arg, true, r) ∈ Sweep.ruled c → ∀ p ∈ r.inputs.zip c.argVars,
    p.1 ∈ r.computes → f.varTy p.2 = .real
  primal : ∀ arg r, (arg, true, r) ∈ Sweep.ruled c → r.primal ∈ r.computes →
    f.varTy c.dst = .real

/-- All accumulators are in scope. -/
structure Accumulators.InScope (accs : Accumulators) (g : Func) (D : Finset Var) : Prop where
  vars : ∀ v a, accs.find? v = some a → IsAccumulator g D a
  property : ∀ a ∈ accs.property, IsAccumulator g D a

theorem Accumulators.InScope.mono {accs : Accumulators} {g : Func} {D : Finset Var}
    (h : accs.InScope g D) (hD : D ⊆ D') : accs.InScope g D' :=
  ⟨fun v a ha => (h.vars v a ha).mono hD, fun a ha => (h.property a ha).mono hD⟩

theorem Accumulators.InScope.add {accs : Accumulators} {g : Func} {D : Finset Var}
    {new : List (Var × Var)} (h : accs.InScope g D) (hD : D ⊆ D')
    (hnew : ∀ p ∈ new, IsAccumulator g D' p.2) : (accs.add new).InScope g D' := by
  constructor
  · intro v a ha
    rw [find?_add, Option.or_eq_some_iff] at ha
    rcases ha with ha | ⟨-, ha⟩
    · exact hnew _ (List.mem_reverse.mp (mem_of_lookup ha))
    · exact (h.vars v a ha).mono hD
  · exact (h.mono hD).property

/-- Reverse code is generated where the accumulators are in scope, and all variables that are
read in place. -/
structure Grounded (lo : Lowering) (g : Func) (D : Finset Var) (l : Locals) (accs : Accumulators) :
    Prop where
  below : Below D l
  accs : accs.InScope g D
  owned : ∀ v, lo.isOwned v = true → v ∈ D ∧ g.varTy v = lo.func.varTy v

namespace Grounded

variable {lo : Lowering} {g : Func} {D : Finset Var} {l l' : Locals} {accs : Accumulators}

theorem owned_mono (h : Grounded lo g D l accs) (hD : D ⊆ D') :
    ∀ v, lo.isOwned v = true → v ∈ D' ∧ g.varTy v = lo.func.varTy v :=
  fun v hv => ⟨hD (h.owned v hv).1, (h.owned v hv).2⟩

/-- Behind other code. -/
theorem behind (h : Grounded lo g D l accs) (hcode : Formed g D l l' code) :
    Grounded lo g (blockScope D code) l' accs where
  below := hcode.below h.below
  accs := h.accs.mono (subset_blockScope _ _)
  owned := h.owned_mono (subset_blockScope _ _)

end Grounded

namespace Lowering.CallFine

variable {lo : Lowering} {c : ActiveCall} {arg : Var} {r : Rule}

theorem mem_rules (hr : (arg, true, r) ∈ Sweep.ruled c) : r ∈ c.node.rules :=
  (List.of_mem_zip (List.of_mem_zip hr).2).2

/-- What holds of the rule of an active argument holds of some rule. -/
theorem anyActive (hr : (arg, true, r) ∈ Sweep.ruled c) {p : Rule → Bool} (hp : p r = true) :
    c.node.anyActive c.activeArgs p = true := by
  have hzip : (true, r) ∈ c.activeArgs.zip c.node.rules := (List.of_mem_zip hr).2
  have hswap : (r, true) ∈ c.node.rules.zip c.activeArgs := by
    rw [← List.zip_swap]
    exact List.mem_map.mpr ⟨_, hzip, rfl⟩
  exact List.any_eq_true.mpr ⟨_, hswap, by simpa using hp⟩

/-- An argument that an active rule reads is saved unless it is read in place. -/
theorem checkpoint_of_read (h : lo.CallFine c) (hr : (arg, true, r) ∈ Sweep.ruled c) {p : Var}
    (hp : r.inputs[i]? = some p) (hread : p ∈ r.reads) (hv : c.argVars[i]? = some v) :
    c.args[i]? = some (if lo.isOwned v then .direct else .saved) := by
  have hreads : r.readsInput i = true := by simp [Rule.readsInput, hp, hread]
  have hreferenced : (c.node.inputsReferenced c.activeArgs)[i]? = some true := by
    have hlt : i < c.node.arity := h.arity ▸ (List.getElem?_eq_some_iff.mp hv).1
    simp [Node.inputsReferenced, hlt, anyActive (p := (·.readsInput i)) hr hreads]
  have hzip : (c.argVars.zip (c.node.inputsReferenced c.activeArgs))[i]? = some (v, true) :=
    List.getElem?_zip_eq_some.mpr ⟨hv, hreferenced⟩
  rw [h.args, List.getElem?_map, hzip]
  rfl

theorem primal_of_read (h : lo.CallFine c) (hr : (arg, true, r) ∈ Sweep.ruled c)
    (hread : r.primal ∈ r.reads) : c.primal = if lo.isOwned c.dst then .direct else .saved := by
  have hreferenced : c.node.primalReferenced c.activeArgs = true :=
    anyActive (p := Rule.readsPrimal) hr (by simp [Rule.readsPrimal, hread])
  rw [h.primal, hreferenced]
  rfl

end Lowering.CallFine

/-- A rule of a node has as many inputs as the node. -/
theorem Rule.Serves.inputs_length {r : Rule} {n : Node} (h : r.Serves n i) :
    r.inputs.length = n.arity := by
  obtain ⟨steps, haccepted⟩ := Rule.accepted_of_ofFunc h.accepted
  have hcount := h.count
  rw [haccepted.params] at hcount
  simp only [List.length_append, List.length_cons, List.length_nil] at hcount
  omega

theorem lookup_zip_of_mem {vs ws : List Var} (hlength : vs.length ≤ ws.length) (hv : v ∈ vs) :
    ∃ w, (vs.zip ws).lookup v = some w := by
  induction vs generalizing ws with
  | nil => cases hv
  | cons u vs ih =>
    cases ws with
    | nil => simp at hlength
    | cons w ws =>
      rw [List.zip_cons_cons, List.lookup_cons]
      by_cases hu : v = u
      · exact ⟨w, by simp [hu]⟩
      · rw [beq_eq_false_iff_ne.mpr hu]
        exact ih (by simpa using hlength) ((List.mem_cons.mp hv).resolve_left hu)

namespace Sweep

variable {s : Sweep} {lo : Lowering} {g : Func} {D : Finset Var} {l l' : Locals}
  {accs : Accumulators} {c : ActiveCall}

theorem inputs_length (h : lo.CallFine c) (saved : List (Var × Var)) :
    (inputs c saved).length = c.argVars.length := by
  simp [inputs, h.args, Node.inputsReferenced, h.arity]

theorem inputs_getElem? {saved : List (Var × Var)} {checkpoint : Checkpoint}
    (hv : c.argVars[i]? = some v) (hc : c.args[i]? = some checkpoint) :
    (inputs c saved)[i]? =
      some (if checkpoint = .saved then (saved.lookup v).getD v else v) := by
  have hzip : (c.argVars.zip c.args)[i]? = some (v, checkpoint) :=
    List.getElem?_zip_eq_some.mpr ⟨hv, hc⟩
  rw [inputs, List.getElem?_map, hzip]
  rfl

/-- The rules of a call find what they read in scope, and reals where they compute. -/
theorem sits_of_call {arg : Var} {r : Rule} {saved : List (Var × Var)} (hfine : lo.CallFine c)
    (hcomplete : c.node.Complete) (hreal : c.ComputesReals lo.func)
    (howned : ∀ v, lo.isOwned v = true → v ∈ D ∧ g.varTy v = lo.func.varTy v)
    (hup : upstream ∈ D ∧ g.varTy upstream = .real)
    (hprimal : c.primal = .saved ∧ primal ∈ D ∧ g.varTy primal = .real ∨
      c.primal ≠ .saved ∧ primal = c.dst) (hsaved : ∀ p ∈ saved, p.2 ∈ D ∧ g.varTy p.2 = .real)
    (hfound : ∀ v ∈ c.savedArgs, ∃ w, saved.lookup v = some w) (hr : (arg, true, r) ∈ ruled c) :
    r.Sits g D upstream (inputs c saved) primal := by
  obtain ⟨j, hj⟩ := List.mem_iff_getElem?.mp (Lowering.CallFine.mem_rules hr)
  have hserves := hcomplete.rules j r hj
  have hlength : (inputs c saved).length = r.inputs.length := by
    rw [inputs_length hfine, hserves.inputs_length, hfine.arity]
  -- an input that is read was popped, or is read in place
  have hinput {p w : Var} (hp : (p, w) ∈ r.inputs.zip (inputs c saved)) (hread : p ∈ r.reads) :
      w ∈ D ∧ (p ∈ r.computes → g.varTy w = .real) := by
    obtain ⟨i, hi⟩ := List.mem_iff_getElem?.mp hp
    obtain ⟨hpi, hwi⟩ := List.getElem?_zip_eq_some.mp hi
    have hlt : i < c.argVars.length := by
      have := (List.getElem?_eq_some_iff.mp hwi).1
      rwa [inputs_length hfine] at this
    obtain ⟨v, hv⟩ : ∃ v, c.argVars[i]? = some v := ⟨_, List.getElem?_eq_getElem hlt⟩
    have hcheck := hfine.checkpoint_of_read hr hpi hread hv
    rw [inputs_getElem? hv hcheck] at hwi
    cases ho : lo.isOwned v with
    | true =>
      rw [ho] at hwi
      cases hwi
      refine ⟨(howned w ho).1, fun hcompute => ?_⟩
      rw [(howned w ho).2]
      exact hreal.inputs arg r hr (p, w)
        (List.mem_of_getElem? (List.getElem?_zip_eq_some.mpr ⟨hpi, hv⟩)) hcompute
    | false =>
      rw [ho] at hwi hcheck
      obtain ⟨u, hu⟩ := hfound v (ActiveCall.mem_savedArgs hv hcheck)
      rw [hu] at hwi
      cases hwi
      have hpopped := hsaved _ (Accumulators.mem_of_lookup hu)
      exact ⟨hpopped.1, fun _ => hpopped.2⟩
  have hresult (hread : r.primal ∈ r.reads) :
      primal ∈ D ∧ (r.primal ∈ r.computes → g.varTy primal = .real) := by
    rcases hprimal with ⟨-, hin, hty⟩ | ⟨hnot, rfl⟩
    · exact ⟨hin, fun _ => hty⟩
    · have hdirect := hfine.primal_of_read hr hread
      cases ho : lo.isOwned c.dst with
      | true =>
        refine ⟨(howned _ ho).1, fun hcompute => ?_⟩
        rw [(howned _ ho).2]
        exact hreal.primal arg r hr hcompute
      | false =>
        rw [ho] at hdirect
        exact absurd hdirect hnot
  constructor
  · exact hup
  · exact hlength
  · rintro ⟨p, w⟩ hp
    exact ⟨fun hread => (hinput hp hread).1,
      fun hcompute => (hinput hp (r.computes_subset hcompute)).2 hcompute⟩
  · exact ⟨fun hread => (hresult hread).1,
      fun hcompute => (hresult (r.computes_subset hcompute)).2 hcompute⟩

theorem reset_formed {a : Var} (ha : IsAccumulator g D a) : Formed g D l l [s.reset a] :=
  .assign ha (by simp [zeroExpr, Expr.uses]) (s.zeroExpr_fits ha.real)

theorem fold_formed {a b : Var} (ha : IsAccumulator g D a) (hb : b ∈ D) (hreal : g.varTy b = .real) :
    Formed g D l l [fold .fadd a b] := by
  apply Formed.assign ha
  · intro u hu
    rcases List.mem_cons.mp hu with rfl | hu
    · exact ha.scope
    · rw [List.mem_singleton.mp hu]
      exact hb
  · exact ⟨by simp [ha.real, hreal]; rfl, ha.real⟩

theorem contributions_formed {inputs : List Var} {rs : List (Var × Bool × Rule)} (hD : Below D l)
    (hg : l'.Le (.ofFunc g)) (haccs : accs.InScope g D)
    (hrs : ∀ arg r, (arg, true, r) ∈ rs → Rule.ofFunc r.func = .ok r ∧
      r.Sits g D upstream inputs primal)
    (h : s.contributions accs .fadd upstream inputs primal rs l = .ok (code, l')) :
    Formed g D l l' code := by
  induction rs generalizing D l code with
  | nil =>
    obtain ⟨rfl, rfl⟩ := emit_pure_eq_ok.mp h
    exact .nil g D _
  | cons r rs ih =>
    obtain ⟨arg, active, rule⟩ := r
    cases active with
    | false => exact ih hD haccs (fun arg r hr => hrs arg r (List.mem_cons_of_mem _ hr)) h
    | true =>
      obtain ⟨stmts, contribution, l₁, a, code', hinline, ha, hrest, rfl⟩ := contributions_eq_ok h
      obtain ⟨hrule, hsits⟩ := hrs arg rule List.mem_cons_self
      have hle := (s.contributions_grows accs _ _ _ _ _ hrest).trans hg
      obtain ⟨hstmts, hin, hreal⟩ := Rule.inline_formed hrule hsits hD hle (inline_ok_iff.mp hinline)
      have hsub := subset_blockScope D stmts
      have hfold : Formed g (blockScope D stmts) l₁ l₁ [fold .fadd a contribution] :=
        fold_formed ((haccs.vars arg a ha).mono hsub) hin hreal
      have hfirst := hstmts.append hfold
      have hsub' := subset_blockScope D (stmts ++ [fold .fadd a contribution])
      have hothers := ih (hfirst.below hD) (haccs.mono hsub')
        (fun arg r hr => ⟨(hrs arg r (List.mem_cons_of_mem _ hr)).1,
          (hrs arg r (List.mem_cons_of_mem _ hr)).2.mono hsub'⟩) hrest
      have hall := hfirst.append hothers
      rwa [List.append_assoc, List.singleton_append] at hall

theorem reverseCall_formed (hground : Grounded lo g D l accs) (hg : l'.Le (.ofFunc g))
    (hfine : lo.CallFine c) (hsound : c.node.isSound = true) (hcomplete : c.node.Complete)
    (hreal : c.ComputesReals lo.func) (h : s.reverseCall accs c l = .ok (code, l')) :
    Formed g D l l' code := by
  obtain ⟨a, before, upstream, ins, primal, l₁, after, ha, hbefore, hafter, rfl⟩ :=
    reverseCall_eq_ok h
  obtain ⟨adjointStmts, la, primalStmts, lb, savedStmts, saved, hadjoint, hprimal, hsaved, rfl, rfl⟩ :=
    prepare_eq_ok hbefore
  have hg₁ := (s.contributions_grows accs _ _ _ _ _ hafter).trans hg
  have hgb := (s.popSaved_grows _ hsaved).trans hg₁
  have hga := (s.takePrimal_grows c hprimal).trans hgb
  obtain ⟨hformed₁, hup, hupReal⟩ :=
    takeAdjoint_formed hground.below hga (hground.accs.vars c.dst a ha) hadjoint
  have hground₁ := hground.behind hformed₁
  obtain ⟨hformed₂, hresult⟩ := takePrimal_formed hground₁.below hgb hprimal
  have hground₂ := hground₁.behind hformed₂
  obtain ⟨hformed₃, hpopped⟩ := popSaved_formed hground₂.below hg₁ hsaved
  have hground₃ := hground₂.behind hformed₃
  have hformed := (hformed₁.append hformed₂).append (by rwa [blockScope_append])
  have hscope : blockScope D (adjointStmts ++ primalStmts ++ savedStmts) =
      blockScope (blockScope (blockScope D adjointStmts) primalStmts) savedStmts := by
    rw [blockScope_append, blockScope_append]
  have hfound : ∀ v ∈ c.savedArgs, ∃ w, saved.lookup v = some w := by
    intro v hv
    obtain ⟨-, -, rfl, -⟩ := popSaved_eq_ok hsaved
    exact lookup_zip_of_mem (by simp [freshVars]) (List.mem_reverse.mpr hv)
  have hfadd : c.node.pushback = .fadd := by
    simp only [Node.isSound, Bool.and_eq_true, beq_iff_eq] at hsound
    exact hsound.1.1
  rw [hfadd] at hafter
  refine hformed.append ?_
  rw [hscope]
  refine contributions_formed hground₃.below hg hground₃.accs (fun arg r hr => ?_) hafter
  obtain ⟨i, hi⟩ := List.mem_iff_getElem?.mp (Lowering.CallFine.mem_rules hr)
  refine ⟨(hcomplete.rules i r hi).accepted, ?_⟩
  refine sits_of_call hfine hcomplete hreal hground₃.owned ?_ ?_ hpopped hfound hr
  · exact ⟨subset_blockScope _ _ (subset_blockScope _ _ hup), hupReal⟩
  · rcases hresult with ⟨hs, hin, hty⟩ | hdirect
    · exact .inl ⟨hs, subset_blockScope _ _ hin, hty⟩
    · exact .inr hdirect

/-! ## Steps -/

theorem reverseAssign_formed (hground : Grounded lo g D l accs) {dst : Var} {decl active : Bool}
    {src : Source} (h : s.reverseAssign accs dst decl src active l = .ok (code, l')) :
    Formed g D l l' code := by
  obtain ⟨rfl, a, ha, hcases⟩ := reverseAssign_eq_ok h
  have hacc := hground.accs.vars dst a ha
  -- an accumulator is folded into another one, and starts again
  have hpass {b : Var} (hb : IsAccumulator g D b) : Formed g D l' l' [fold .fadd b a, s.reset a] :=
    (fold_formed hb hacc.scope hacc.real).append (reset_formed (hacc.mono (subset_blockScope _ _)))
  rcases hcases with ⟨-, rfl⟩ | ⟨-, ⟨-, rfl⟩ | ⟨v, b, -, -, hb, rfl⟩ | ⟨obj, field, b, -, hb, rfl⟩ |
    ⟨t, -, rfl⟩⟩
  · cases decl with
    | true => exact .nil g D _
    | false => exact reset_formed hacc
  · exact .nil g D _
  · exact hpass (hground.accs.vars v b hb)
  · exact hpass (hground.accs.property b hb)
  · have hpush : Formed g D l' l' [.push s.level.adjoints a] :=
      .push (by simp [Level.adjoints]) hacc.scope hacc.real
    exact hpush.append (reset_formed (hacc.mono (subset_blockScope _ _)))

theorem reverseTapeWrite_formed (hground : Grounded lo g D l accs) (hg : l'.Le (.ofFunc g))
    {val : Var} {active : Bool} (h : s.reverseTapeWrite accs val active l = .ok (code, l')) :
    Formed g D l l' code := by
  obtain ⟨v, l₁, hdecl, h₁⟩ := emit_bind_eq_ok.mp h
  cases active with
  | false =>
    obtain ⟨rfl, rfl⟩ := emit_pure_eq_ok.mp h₁
    exact (declare_formed (e := .pop s.level.adjoints) hground.below hdecl (by simp [Expr.uses])
      (declare_info hdecl hg).1).1
  | true =>
    obtain ⟨a, l₂, hacc, h₂⟩ := emit_bind_eq_ok.mp h₁
    obtain ⟨ha, rfl⟩ := acc_eq_ok.mp hacc
    obtain ⟨rfl, rfl⟩ := emit_pure_eq_ok.mp h₂
    have hreal := (declare_info hdecl hg).1
    obtain ⟨hpop, hin⟩ := declare_formed (e := .pop s.level.adjoints) hground.below hdecl
      (by simp [Expr.uses]) hreal
    exact hpop.append
      (fold_formed ((hground.accs.vars val a ha).mono (subset_blockScope _ _)) hin hreal)

theorem reverseInert_formed (haccs : accs.InScope g D) (run : Block) :
    Formed g D l l (s.reverseInert accs run) := by
  have hresets : ∀ st ∈ s.reverseInert accs run, ∃ a, IsAccumulator g D a ∧ st = s.reset a := by
    intro st hst
    obtain ⟨stmt, -, ha⟩ := List.mem_filterMap.mp hst
    split at ha
    · obtain ⟨a, hacc, rfl⟩ := Option.map_eq_some_iff.mp ha
      exact ⟨a, haccs.vars _ a hacc, rfl⟩
    · cases ha
  generalize s.reverseInert accs run = code at hresets ⊢
  clear haccs
  induction code generalizing D with
  | nil => exact .nil g D _
  | cons st code ih =>
    obtain ⟨a, ha, rfl⟩ := hresets st List.mem_cons_self
    refine (reset_formed ha).append (ih fun st hst => ?_)
    obtain ⟨b, hb, rfl⟩ := hresets st (List.mem_cons_of_mem _ hst)
    exact ⟨b, hb.mono (subset_blockScope _ _), rfl⟩

/-- What is known of the nodes of a catalogue. -/
structure Nodes (lo : Lowering) : Prop where
  sound : lo.catalogue.Sound
  complete : ∀ n ∈ lo.catalogue.nodes, n.Complete

/-- The reverse code of a step without steps inside. -/
theorem reverseLeaf_formed (hnodes : Nodes lo) (hground : Grounded lo g D l accs)
    (hg : l'.Le (.ofFunc g)) {step : Step} (hleaf : step.isLeaf = true) (hfine : step.Fine lo)
    (hreal : ∀ c, step = .call c → c.ComputesReals lo.func)
    (h : s.reverseStep accs step l = .ok (code, l')) : Formed g D l l' code := by
  cases step, hleaf using Step.leafCases with
  | inert run =>
    obtain ⟨rfl, rfl⟩ := emit_pure_eq_ok.mp h
    exact reverseInert_formed hground.accs run
  | call c =>
    have hcall : lo.CallFine c := hfine
    exact reverseCall_formed hground hg hcall (hnodes.sound _ hcall.mem) (hnodes.complete _ hcall.mem)
      (hreal c rfl) h
  | assign dst decl src active => exact reverseAssign_formed hground h
  | tapeWrite t val active => exact reverseTapeWrite_formed hground hg h

theorem reverseSection_formed {decls : List Var} {steps : List Step}
    (ih : ∀ {D accs l l' code}, Grounded lo g D l accs → l'.Le (.ofFunc g) →
      s.reverseSteps accs steps l = .ok (code, l') → Formed g D l l' code)
    (hground : Grounded lo g D l accs) (hg : l'.Le (.ofFunc g))
    (h : s.reverseSection accs decls steps l = .ok (code, l')) : Formed g D l l' code := by
  obtain ⟨l₁, inner, hinits, -, -, hinner, rfl⟩ := reverseSection_eq_ok h
  have hg₁ := (s.reverseSteps_grows _ steps hinner).trans hg
  obtain ⟨hformed, hnew⟩ := declareAccs_formed hground.below hg₁ (by simp [zeroExpr, Expr.uses])
    (fun v _ a ha => s.zeroExpr_fits ha) hinits
  have hground₁ := hground.behind hformed
  have haccs := hground.accs.add (subset_blockScope _ _) hnew
  exact hformed.append (ih ⟨hground₁.below, haccs, hground₁.owned⟩ hg hinner)

theorem reverseArms_formed {arms : List (Var × List Var × List Step)}
    (ih : ∀ arm ∈ arms, ∀ {D accs l l' code}, Grounded lo g D l accs → l'.Le (.ofFunc g) →
      s.reverseSteps accs arm.2.2 l = .ok (code, l') → Formed g D l l' code)
    (hground : Grounded lo g D l accs) (hg : l'.Le (.ofFunc g)) {blocks : List Block}
    (h : s.reverseArms accs arms l = .ok (blocks, l')) : FormedAll g D l l' blocks := by
  induction arms generalizing l blocks with
  | nil =>
    obtain ⟨rfl, rfl⟩ := emit_pure_eq_ok.mp h
    exact .nil g D _
  | cons arm arms iha =>
    obtain ⟨test, decls, steps⟩ := arm
    obtain ⟨first, l₁, rest, hfirst, hrest, rfl⟩ := reverseArms_cons h
    have hle := s.reverseArms_grows accs (fun arm _ accs => s.reverseSteps_grows accs _) hrest
    have hformed := reverseSection_formed (ih (test, decls, steps) List.mem_cons_self) hground
      (hle.trans hg) hfirst
    -- the other arms are generated in the same scope, with a longer table
    have hlater : Grounded lo g D l₁ accs :=
      ⟨fun v hv => Nat.lt_of_lt_of_le (hground.below v hv) hformed.le.size, hground.accs,
        hground.owned⟩
    exact (FormedAll.single hformed).append
      (iha (fun arm harm => ih arm (List.mem_cons_of_mem _ harm)) hlater hrest)

/-- **The reverse code of calls that compute with reals is well formed.** -/
theorem reverseSteps_formed (hnodes : Nodes lo) {ss : List Step} (hfine : stepsFine lo ss)
    (hreal : ∀ c, .call c ∈ stepsAll ss → c.ComputesReals lo.func)
    (hground : Grounded lo g D l accs) (hg : l'.Le (.ofFunc g))
    (h : s.reverseSteps accs ss l = .ok (code, l')) : Formed g D l l' code := by
  induction ss using stepsInduction generalizing D accs l l' code with
  | nil =>
    obtain ⟨rfl, rfl⟩ := emit_pure_eq_ok.mp h
    exact .nil g D _
  | leaf step steps hleaf ih =>
    obtain ⟨later, l₁, now, hlater, hnow, rfl⟩ := reverseSteps_cons h
    rw [stepsAll, Step.all_of_isLeaf hleaf] at hreal
    have hg₁ := (s.reverseLeaf_grows accs hleaf hnow).trans hg
    have hformed := ih hfine.2 (fun c hc => hreal c (List.mem_append_right _ hc)) hground hg₁ hlater
    exact hformed.append (reverseLeaf_formed hnodes (hground.behind hformed) hg hleaf hfine.1
      (fun c hc => hreal c (by simp [hc])) hnow)
  | block decls steps rest ihs ih =>
    obtain ⟨later, l₁, now, hlater, hnow, rfl⟩ := reverseSteps_cons h
    obtain ⟨inner, hinner, rfl⟩ := reverseStep_block hnow
    simp only [stepsAll, Step.all, List.mem_append, List.mem_cons] at hreal
    have hle := s.reverseSection_grows accs (fun accs => s.reverseSteps_grows accs steps) decls hinner
    have hformed := ih hfine.2 (fun c hc => hreal c (.inr hc)) hground (hle.trans hg) hlater
    have hsection := reverseSection_formed
      (fun hground hg h => ihs hfine.1.2 (fun c hc => hreal c (.inl (.inr hc))) hground hg h)
      (hground.behind hformed) hg hinner
    exact hformed.append hsection.block
  | cond arms decls steps rest iha ihs ih =>
    obtain ⟨later, l₁, now, hlater, hnow, rfl⟩ := reverseSteps_cons h
    obtain ⟨⟨hfarms, -, hfother⟩, hfrest⟩ := hfine
    rw [armsFine_iff] at hfarms
    simp only [stepsAll, Step.all, List.mem_append, List.mem_cons, mem_armsAll] at hreal
    obtain ⟨l₂, testStmts, tests, l₃, blocks, l₄, last, hdecl, -, -, htests, hblocks, hlast, rfl⟩ :=
      reverseStep_cond hnow
    have hg₄ := (s.reverseSection_grows accs (fun accs => s.reverseSteps_grows accs steps) decls
      hlast).trans hg
    have hg₃ := (s.reverseArms_grows accs (fun arm _ accs => s.reverseSteps_grows accs _)
      hblocks).trans hg₄
    have hg₂ := (branchTests_le htests).trans hg₃
    have hg₁ := (declare_grows _ _ _ hdecl).trans hg₂
    have hformed := ih hfrest (fun c hc => hreal c (.inr hc)) hground hg₁ hlater
    have hground₁ := hground.behind hformed
    have hint := (declare_info hdecl hg₂).1
    obtain ⟨hpop, htaken⟩ := declare_formed (e := .pop s.level.decisions) hground₁.below hdecl
      (by simp [Expr.uses]) hint
    have hground₂ := hground₁.behind hpop
    obtain ⟨hformed₃, hbools⟩ := branchTests_formed hground₂.below hg₃ htaken hint htests
    have hground₃ := hground₂.behind hformed₃
    have harms := reverseArms_formed (fun arm harm _ _ _ _ _ hground hg h =>
      iha arm harm (hfarms arm harm).2 (fun c hc => hreal c (.inl (.inr (.inl ⟨arm, harm, hc⟩))))
        hground hg h) hground₃ hg₄ hblocks
    have hground₄ : Grounded lo g _ l₄ accs :=
      ⟨fun v hv => Nat.lt_of_lt_of_le (hground₃.below v hv) harms.le.size, hground₃.accs,
        hground₃.owned⟩
    have hother := reverseSection_formed (fun hground hg h =>
      ihs hfother (fun c hc => hreal c (.inl (.inr (.inr hc)))) hground hg h) hground₄ hg hlast
    have hcond := (harms.append (.single hother)).cond hbools
    exact hformed.append (hpop.append (hformed₃.append hcond))
  | loop id header test decls steps rest ihs ih =>
    obtain ⟨later, l₁, now, hlater, hnow, rfl⟩ := reverseSteps_cons h
    simp only [stepsAll, Step.all, List.mem_append, List.mem_cons] at hreal
    obtain ⟨l₂, l₃, body, hdecl, hdecl', -, -, hbody, rfl⟩ := reverseStep_loop hnow
    have hg₃ := (s.reverseSection_grows accs (fun accs => s.reverseSteps_grows accs steps) decls
      hbody).trans hg
    have hg₂ := (declare_grows _ _ _ hdecl').trans hg₃
    have hg₁ := (declare_grows _ _ _ hdecl).trans hg₂
    have hformed := ih hfine.2 (fun c hc => hreal c (.inr hc)) hground hg₁ hlater
    have hground₁ := hground.behind hformed
    have hbool := (declare_info hdecl hg₂).1
    obtain ⟨htop, htest⟩ := declare_formed (e := .topIs s.level.decisions id) hground₁.below hdecl
      (by simp [Expr.uses]) ⟨rfl, hbool⟩
    have hground₂ := hground₁.behind htop
    obtain ⟨hpop, -⟩ := declare_formed (e := .pop s.level.decisions) hground₂.below hdecl'
      (by simp [Expr.uses]) (declare_info hdecl' hg₃).1
    have hground₃ := hground₂.behind hpop
    have hsection := reverseSection_formed (fun hground hg h =>
      ihs hfine.1.2.2 (fun c hc => hreal c (.inl (.inr hc))) hground hg h) hground₃ hg hbody
    exact hformed.append (.loop htop htest hbool (hpop.append hsection))

end Sweep

end Backsweep
