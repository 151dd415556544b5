import Mathlib
import Backsweep.Proofs.Diff.FormedSteps

/-!
# What reverse code requires

Where the types of reverse code fit, the rules it was made from compute with reals.

* `Rule.inline_requires`: what a rule computes with is real where its definitions fit;
* `Sweep.reverseCall_requires`: calls whose reverse code fits compute with reals;
* `Sweep.reverseSteps_call`: the reverse code of every call stands in the reverse section.
-/

namespace Backsweep

variable {b stmts code : Block} {blocks : List Block}

/-- All atomic statements of the code fit. -/
def AtomsFit (g : Func) (code : Block) : Prop := ∀ a ∈ blockAtoms code, a.Fits g

theorem AtomsFit.cons {g : Func} {s : Stmt} (hs : s.isControlFlow = false) (h : AtomsFit g (s :: b)) :
    s.Fits g ∧ AtomsFit g b := by
  have hatoms : blockAtoms (s :: b) = s :: blockAtoms b := by
    rw [blockAtoms, Stmt.atoms_of_not_controlFlow hs, List.singleton_append]
  rw [AtomsFit, hatoms, List.forall_mem_cons] at h
  exact h

/-! ## Inlined rules -/

/-- An expression fits at two places: its operands have the same types at both. -/
theorem Expr.Fits.of_mapVars {f g : Func} {σ : Var → Var} {dst v : Var} {e : Expr}
    (h : e.Fits f dst) (hmapped : (e.mapVars σ).Fits g v) (hv : g.varTy v = f.varTy dst) :
    ∀ u ∈ e.computes, g.varTy (σ u) = f.varTy u := by
  intro u hu
  cases e with
  | copy src =>
    obtain rfl := List.mem_singleton.mp hu
    exact (Eq.trans hmapped hv).trans (Eq.symm h)
  | load obj field =>
    obtain rfl := List.mem_singleton.mp hu
    exact Eq.trans hmapped (Eq.symm h)
  | op opcode args =>
    have hargs : (args.map σ).map g.varTy = args.map f.varTy := hmapped.1.trans h.1.symm
    rw [List.map_map] at hargs
    exact List.map_inj_left.mp hargs u hu
  | const k => cases hu
  | call callee args node => cases hu
  | pop t => cases hu
  | topIs t d => cases hu

namespace Rule

variable {f g : Func} {E : Finset Var} {σ σ' : Subst} {l l' : Locals}

/-- What was in scope before the definitions is replaced as before behind them, and has the
type it has in the rule where they compute with it. -/
theorem inlineSteps_requires {ss : Block} (hsteps : ∀ s ∈ ss, isStep s = true)
    (hscoped : blockScoped f E ss) (hfits : blockFits f ss) (hg : l'.Le (.ofFunc g))
    (hinline : inlineSteps f ss σ l = (stmts, σ', l')) (hatoms : AtomsFit g stmts) :
    ∀ v ∈ E, σ' v = σ v ∧ (v ∈ computesOf ss → g.varTy (σ v) = f.varTy v) := by
  induction ss generalizing E σ l stmts with
  | nil =>
    cases hinline
    exact fun v _ => ⟨rfl, fun hv => absurd hv List.not_mem_nil⟩
  | cons s ss ih =>
    obtain ⟨dst, e, rfl⟩ := exists_define_of_isStep (hsteps s List.mem_cons_self)
    obtain ⟨⟨-, -, hnew⟩, hscoped⟩ := hscoped
    have hty := inlineSteps_info hinline hg
    obtain ⟨l₁, stmts₁, -, -, hrest, rfl⟩ := inlineSteps_define hinline
    obtain ⟨hfirst, hothers⟩ := hatoms.cons rfl
    have hlater := ih (fun s hs => hsteps s (List.mem_cons_of_mem _ hs)) hscoped hfits.2 hrest hothers
    have hexpr : e.Fits f dst := hfits.1
    intro v hv
    -- the definition is not one of `v`
    have hne : v ≠ dst := fun heq => hnew (heq ▸ hv)
    have hset : σ.set dst ⟨l.vars.size⟩ v = σ v := if_neg hne
    obtain ⟨hkeeps, hlater⟩ := hlater v (subset_blockScope _ _ hv)
    rw [hset] at hkeeps hlater
    refine ⟨hkeeps, fun hcompute => ?_⟩
    rw [computesOf, List.mem_append] at hcompute
    rcases hcompute with hcompute | hcompute
    · exact hexpr.of_mapVars hfirst hty v hcompute
    · exact hlater hcompute

/-- Where the definitions of an inlined rule fit and its result is used as a real, what the rule
computes with is real. -/
theorem inline_requires {r : Rule} {upstream primal out : Var} {inputs : List Var}
    (hr : ofFunc r.func = .ok r) (hg : l'.Le (.ofFunc g))
    (hinline : r.inline l upstream inputs primal = (stmts, out, l')) (hatoms : AtomsFit g stmts)
    (hout : g.varTy out = .real) {v : Var} (hv : v ∈ r.func.params) (hcompute : v ∈ r.computes) :
    g.varTy (r.start upstream inputs primal v) = .real := by
  obtain ⟨steps, haccepted⟩ := accepted_of_ofFunc hr
  obtain ⟨σ', hsteps, rfl⟩ := inline_eq_iff.mp hinline
  have hscoped := r.func.scoped_of_isValid haccepted.valid
  have hfits := r.func.fits_of_isValid haccepted.valid
  rw [haccepted.body, inlineSteps_concat_ret] at hsteps
  rw [haccepted.body, blockScoped_append] at hscoped
  rw [haccepted.body, blockFits_append] at hfits
  obtain ⟨hkeeps, htypes⟩ := inlineSteps_requires haccepted.steps hscoped.1 hfits.1 hg hsteps hatoms v
    (List.mem_toFinset.mpr hv)
  rcases List.mem_cons.mp hcompute with rfl | hcompute
  · rw [← hkeeps]
    exact hout
  · rw [haccepted.body, computesOf_append] at hcompute
    rcases List.mem_append.mp hcompute with hcompute | hcompute
    · rw [htypes hcompute]
      exact (ofFunc_params hr).2 v hv
    · cases hcompute

end Rule

namespace Sweep

variable {s : Sweep} {lo : Lowering} {g : Func} {l l' : Locals} {accs : Accumulators}
  {c : ActiveCall}

/-- The rule of an active argument is inlined, and its result added to an accumulator. -/
theorem contributions_rule {op : Opcode} {upstream primal arg : Var} {inputs : List Var} {r : Rule}
    {rs : List (Var × Bool × Rule)} (hr : (arg, true, r) ∈ rs)
    (h : s.contributions accs op upstream inputs primal rs l = .ok (code, l')) :
    ∃ l₁ l₂ stmts out a, r.inline l₁ upstream inputs primal = (stmts, out, l₂) ∧ l₂.Le l' ∧
      blockAtoms (stmts ++ [fold op a out]) ⊆ blockAtoms code := by
  induction rs generalizing l code with
  | nil => cases hr
  | cons q rs ih =>
    obtain ⟨arg', active, r'⟩ := q
    cases active with
    | false => exact ih ((List.mem_cons.mp hr).resolve_left (by simp)) h
    | true =>
      obtain ⟨stmts, out, l₁, a, code', hinline, -, hrest, rfl⟩ := contributions_eq_ok h
      have hsplit : stmts ++ fold op a out :: code' = (stmts ++ [fold op a out]) ++ code' := by
        rw [List.append_assoc, List.singleton_append]
      rcases List.mem_cons.mp hr with heq | hr
      · cases heq
        refine ⟨l, l₁, stmts, out, a, inline_ok_iff.mp hinline,
          s.contributions_grows accs _ _ _ _ _ hrest, ?_⟩
        rw [hsplit, blockAtoms_append _ code']
        exact List.subset_append_left _ _
      · obtain ⟨l₂, l₃, stmts', out', a', hinline', hle, hsub⟩ := ih hr hrest
        refine ⟨l₂, l₃, stmts', out', a', hinline', hle, List.Subset.trans hsub ?_⟩
        rw [hsplit, blockAtoms_append _ code']
        exact List.subset_append_right _ _

/-- **A call whose reverse code fits computes with reals**, if it saves reals. -/
theorem reverseCall_requires (hfine : lo.CallFine c) (hcomplete : c.node.Complete)
    (hsound : c.node.isSound = true) (hsaves : c.SavesReals lo.func) (hg : l'.Le (.ofFunc g))
    (hargs : ∀ v ∈ c.argVars, g.varTy v = lo.func.varTy v)
    (hdst : g.varTy c.dst = lo.func.varTy c.dst) (h : s.reverseCall accs c l = .ok (code, l'))
    (hatoms : AtomsFit g code) : c.ComputesReals lo.func := by
  obtain ⟨a, before, upstream, ins, primal, l₁, after, -, hbefore, hafter, rfl⟩ :=
    reverseCall_eq_ok h
  obtain ⟨_, _, _, _, _, saved, -, hprimal, -, -, rfl⟩ := prepare_eq_ok hbefore
  have hfadd : c.node.pushback = .fadd := by
    simp only [Node.isSound, Bool.and_eq_true, beq_iff_eq] at hsound
    exact hsound.1.1
  rw [hfadd] at hafter
  rw [AtomsFit, blockAtoms_append] at hatoms
  -- what stands for a parameter that a rule computes with is real
  have hreal {arg : Var} {r : Rule} (hr : (arg, true, r) ∈ ruled c) (hok : Rule.ofFunc r.func = .ok r)
      {v : Var} (hv : v ∈ r.func.params) (hcompute : v ∈ r.computes) :
      g.varTy (r.start upstream (inputs c saved) primal v) = .real := by
    obtain ⟨l₂, l₃, stmts, out, acc, hinline, hle, hsub⟩ := contributions_rule hr hafter
    have hcode : AtomsFit g (stmts ++ [fold .fadd acc out]) :=
      fun s hs => hatoms s (List.mem_append_right _ (hsub hs))
    rw [AtomsFit, blockAtoms_append] at hcode
    have hfold : (fold .fadd acc out).Fits g := hcode _ (List.mem_append_right _ List.mem_cons_self)
    have hout : g.varTy out = .real := by
      have htypes : [g.varTy acc, g.varTy out] = [.real, .real] := hfold.1
      exact (List.cons.inj (List.cons.inj htypes).2).1
    exact Rule.inline_requires hok (hle.trans hg) hinline
      (fun s hs => hcode s (List.mem_append_left _ hs)) hout hv hcompute
  have hserves {arg : Var} {r : Rule} (hr : (arg, true, r) ∈ ruled c) : ∃ i, r.Serves c.node i := by
    obtain ⟨i, hi⟩ := List.mem_iff_getElem?.mp (Lowering.CallFine.mem_rules hr)
    exact ⟨i, hcomplete.rules i r hi⟩
  have hprimal : c.primal = .saved ∨ primal = c.dst := by
    unfold takePrimal at hprimal
    split at hprimal
    · rename_i hp
      exact .inl hp
    · obtain ⟨hp, -⟩ := emit_pure_eq_ok.mp hprimal
      cases hp
      exact .inr rfl
  constructor
  · rintro arg r hr ⟨p, v⟩ hp hcompute
    obtain ⟨j, hok⟩ := hserves hr
    obtain ⟨steps, haccepted⟩ := Rule.accepted_of_ofFunc hok.accepted
    obtain ⟨i, hi⟩ := List.mem_iff_getElem?.mp hp
    obtain ⟨hpi, hvi⟩ := List.getElem?_zip_eq_some.mp hi
    have hcheck := hfine.checkpoint_of_read hr hpi (r.computes_subset hcompute) hvi
    have hparam : p ∈ r.func.params := by
      rw [haccepted.params]
      exact List.mem_append_left _ (List.mem_cons_of_mem _ (List.mem_of_getElem? hpi))
    cases ho : lo.isOwned v with
    | false =>
      rw [ho] at hcheck
      exact hsaves.1 v (ActiveCall.mem_savedArgs hvi hcheck)
    | true =>
      rw [ho] at hcheck
      have hin : (inputs c saved)[i]? = some v := inputs_getElem? hvi hcheck
      have hstart := haccepted.start_getElem? upstream primal hpi hin
      have hty := hreal hr hok.accepted hparam hcompute
      rw [hstart] at hty
      exact (hargs v (List.mem_of_getElem? hvi)).symm.trans hty
  · intro arg r hr hcompute
    obtain ⟨j, hok⟩ := hserves hr
    obtain ⟨steps, haccepted⟩ := Rule.accepted_of_ofFunc hok.accepted
    rcases hprimal with hsaved | rfl
    · exact hsaves.2 hsaved
    · have hparam : r.primal ∈ r.func.params := by
        rw [haccepted.params]
        exact List.mem_append_right _ List.mem_cons_self
      have hty := hreal hr hok.accepted hparam hcompute
      rw [haccepted.start_primal] at hty
      exact hdst.symm.trans hty

/-- The reverse code of the call stands in the code, and was generated before the table grew
to `l'`. -/
def HasCall (s : Sweep) (c : ActiveCall) (l' : Locals) (code : Block) : Prop :=
  ∃ accs l₁ l₂ piece, s.reverseCall accs c l₁ = .ok (piece, l₂) ∧ l₂.Le l' ∧
    blockAtoms piece ⊆ blockAtoms code

theorem HasCall.mono {l₁ : Locals} {a : Block} (h : s.HasCall c l₁ a) (hle : l₁.Le l')
    (hsub : blockAtoms a ⊆ blockAtoms b) : s.HasCall c l' b := by
  obtain ⟨accs, l₂, l₃, piece, hcall, hle', hsub'⟩ := h
  exact ⟨accs, l₂, l₃, piece, hcall, hle'.trans hle, List.Subset.trans hsub' hsub⟩

theorem reverseSection_call {decls : List Var} {steps : List Step}
    (ih : ∀ {accs l l' code}, s.reverseSteps accs steps l = .ok (code, l') → s.HasCall c l' code)
    (h : s.reverseSection accs decls steps l = .ok (code, l')) : s.HasCall c l' code := by
  obtain ⟨l₁, inner, -, -, -, hinner, rfl⟩ := reverseSection_eq_ok h
  refine (ih hinner).mono (.refl _) ?_
  rw [blockAtoms_append]
  exact List.subset_append_right _ _

theorem reverseArms_call {arms : List (Var × List Var × List Step)}
    {arm : Var × List Var × List Step} (harm : arm ∈ arms)
    (ih : ∀ {accs l l' code}, s.reverseSteps accs arm.2.2 l = .ok (code, l') → s.HasCall c l' code)
    (h : s.reverseArms accs arms l = .ok (blocks, l')) : ∃ b ∈ blocks, s.HasCall c l' b := by
  induction arms generalizing l blocks with
  | nil => cases harm
  | cons arm' arms iha =>
    obtain ⟨test, decls, steps⟩ := arm'
    obtain ⟨first, l₁, rest, hfirst, hrest, rfl⟩ := reverseArms_cons h
    have hle := s.reverseArms_grows accs (fun arm _ accs => s.reverseSteps_grows accs _) hrest
    rcases List.mem_cons.mp harm with rfl | harm
    · exact ⟨first, List.mem_cons_self, (reverseSection_call ih hfirst).mono hle (List.Subset.refl _)⟩
    · obtain ⟨b, hb, hcall⟩ := iha harm hrest
      exact ⟨b, List.mem_cons_of_mem _ hb, hcall⟩

theorem branchTests_length {taken : Var} {n index : Nat} {tests : List Var}
    (h : branchTests taken n index l = .ok ((stmts, tests), l')) : tests.length = n := by
  induction n generalizing l index stmts tests with
  | zero =>
    rcases branchTests_eq_ok h with ⟨-, -, rfl, -⟩ | ⟨k, _, _, _, hk, -⟩
    · rfl
    · cases hk
  | succ n ih =>
    rcases branchTests_eq_ok h with ⟨hn, -⟩ | ⟨k, _, _, tests₁, hk, -, -, hrest, -, rfl⟩
    · cases hn
    · cases hk
      rw [List.length_cons, ih hrest]

theorem reverseArms_length {arms : List (Var × List Var × List Step)}
    (h : s.reverseArms accs arms l = .ok (blocks, l')) : blocks.length = arms.length := by
  induction arms generalizing l blocks with
  | nil =>
    obtain ⟨rfl, -⟩ := emit_pure_eq_ok.mp h
    rfl
  | cons arm arms ih =>
    obtain ⟨test, decls, steps⟩ := arm
    obtain ⟨first, l₁, rest, -, hrest, rfl⟩ := reverseArms_cons h
    rw [List.length_cons, List.length_cons, ih hrest]

/-- All branches stand in the choice between them. -/
theorem choice_atoms {tests : List Var} (hlength : tests.length = blocks.length) (hb : b ∈ blocks)
    (other : Block) : blockAtoms b ⊆ blockAtoms [.cond (tests.zip blocks) other] := by
  obtain ⟨i, hi, rfl⟩ := List.mem_iff_getElem.mp hb
  intro a ha
  simp only [blockAtoms, Stmt.atoms, List.append_nil, List.mem_append, mem_armsAtoms]
  refine .inl ⟨(tests[i], blocks[i]), ?_, ha⟩
  exact List.mem_iff_getElem.mpr ⟨i, by simp; omega, by simp⟩

/-- **Every call has its reverse code.** -/
theorem reverseSteps_call {ss : List Step} (hc : .call c ∈ stepsAll ss)
    (h : s.reverseSteps accs ss l = .ok (code, l')) : s.HasCall c l' code := by
  have left (a b : Block) : blockAtoms a ⊆ blockAtoms (a ++ b) := by
    rw [blockAtoms_append]
    exact List.subset_append_left _ _
  have right (a b : Block) : blockAtoms b ⊆ blockAtoms (a ++ b) := by
    rw [blockAtoms_append]
    exact List.subset_append_right _ _
  induction ss using stepsInduction generalizing accs l l' code with
  | nil => cases hc
  | leaf step steps hleaf ih =>
    obtain ⟨later, l₁, now, hlater, hnow, rfl⟩ := reverseSteps_cons h
    rw [stepsAll, Step.all_of_isLeaf hleaf, List.singleton_append] at hc
    rcases List.mem_cons.mp hc with rfl | hc
    · exact ⟨accs, l₁, l', now, hnow, .refl _, right _ _⟩
    · exact (ih hc hlater).mono (s.reverseLeaf_grows accs hleaf hnow) (left _ _)
  | block decls steps rest ihs ih =>
    obtain ⟨later, l₁, now, hlater, hnow, rfl⟩ := reverseSteps_cons h
    obtain ⟨inner, hinner, rfl⟩ := reverseStep_block hnow
    simp only [stepsAll, Step.all, List.mem_append, List.mem_cons, reduceCtorEq, false_or] at hc
    rcases hc with hc | hc
    · refine (reverseSection_call (fun h => ihs hc h) hinner).mono (.refl _) ?_
      refine List.Subset.trans ?_ (right _ _)
      simp [blockAtoms, Stmt.atoms]
    · have hle := s.reverseSection_grows accs (fun accs => s.reverseSteps_grows accs steps) decls hinner
      exact (ih hc hlater).mono hle (left _ _)
  | cond arms decls steps rest iha ihs ih =>
    obtain ⟨later, l₁, now, hlater, hnow, rfl⟩ := reverseSteps_cons h
    obtain ⟨l₂, testStmts, tests, l₃, blocks, l₄, last, hdecl, -, -, htests, hblocks, hlast, rfl⟩ :=
      reverseStep_cond hnow
    have hle₃ := s.reverseSection_grows accs (fun accs => s.reverseSteps_grows accs steps) decls hlast
    have hle₂ := s.reverseArms_grows accs (fun arm _ accs => s.reverseSteps_grows accs _) hblocks
    have hlength : tests.length = (blocks ++ [last]).length := by
      rw [branchTests_length htests, List.length_append, reverseArms_length hblocks]
      rfl
    -- a branch of the choice stands in the code
    have hbranch {b : Block} (hb : b ∈ blocks ++ [last]) :=
      List.Subset.trans (choice_atoms hlength hb [.unreachable]) (List.Subset.trans
        (right (.define ⟨l₁.vars.size⟩ true (.pop s.level.decisions) :: testStmts) _) (right later _))
    simp only [stepsAll, Step.all, List.mem_append, List.mem_cons, reduceCtorEq, false_or,
      mem_armsAll] at hc
    rcases hc with (⟨arm, harm, hc⟩ | hc) | hc
    · obtain ⟨b, hb, hcall⟩ := reverseArms_call harm (fun h => iha arm harm hc h) hblocks
      exact hcall.mono hle₃ (hbranch (List.mem_append_left _ hb))
    · exact (reverseSection_call (fun h => ihs hc h) hlast).mono (.refl _)
        (hbranch (List.mem_append_right _ List.mem_cons_self))
    · have hle₁ := (declare_grows _ _ _ hdecl).trans (branchTests_le htests)
      exact (ih hc hlater).mono (hle₁.trans (hle₂.trans hle₃)) (left _ _)
  | loop id header test decls steps rest ihs ih =>
    obtain ⟨later, l₁, now, hlater, hnow, rfl⟩ := reverseSteps_cons h
    obtain ⟨l₂, l₃, body, -, -, hle, -, hbody, rfl⟩ := reverseStep_loop hnow
    simp only [stepsAll, Step.all, List.mem_append, List.mem_cons, reduceCtorEq, false_or] at hc
    rcases hc with hc | hc
    · refine (reverseSection_call (fun h => ihs hc h) hbody).mono (.refl _) ?_
      refine List.Subset.trans (fun a ha => ?_) (right _ _)
      simp [blockAtoms, Stmt.atoms, ha]
    · have hle' := s.reverseSection_grows accs (fun accs => s.reverseSteps_grows accs steps) decls hbody
      exact (ih hc hlater).mono (hle.trans hle') (left _ _)

end Sweep

end Backsweep
