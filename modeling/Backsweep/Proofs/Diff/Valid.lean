import Mathlib
import Backsweep.Proofs.Diff.FormedForward
import Backsweep.Proofs.Diff.RealCalls
import Backsweep.Proofs.Diff.SecondDerivative

/-!
# Valid derivatives

Derivatives are valid as far as the rules they were made from are given reals, which only
calls of operations outside of the function can get wrong.

* `ActiveCall.IsReal`: a call whose rules are given reals;
* `Generation.isValid_iff`: a derivative is valid if and only if its calls are real;
* `derivatives_valid_iff`: so it is for derivatives of both orders;
* `builtin_derivatives_valid`: without calls, all derivatives are valid;
* `secondOrder_extends_pullback`: the first value of a second derivative is the pullback's.
-/

namespace Backsweep

variable {p : Plan} {upstream v : Var} {ac : ActiveCall}

/-- The derivative of the call saves reals, and its rules compute with reals. -/
structure ActiveCall.IsReal (f : Func) (c : ActiveCall) : Prop where
  saves : c.SavesReals f
  computes : c.ComputesReals f

/-- What a derivative returns is real. -/
def ReturnMode.returns : ReturnMode → List Ty
  | .derivative => [.real]
  | .valueAndDerivative => [.real, .real]

/-! ## Accumulators of the body -/

namespace Sweep

variable {s : Sweep} {g : Func} {D : Finset Var} {l l' : Locals}

theorem rootInit_uses {u : Var} (h : u ∈ (s.rootInit p upstream v).uses) : u = upstream := by
  unfold rootInit at h
  split at h
  · exact List.mem_singleton.mp h
  · cases h

theorem rootInit_fits {a : Var} (v : Var) (hup : g.varTy upstream = .real) (ha : g.varTy a = .real) :
    (s.rootInit p upstream v).Fits g a := by
  unfold rootInit
  split
  · exact hup.trans ha.symm
  · exact s.zeroExpr_fits ha

theorem ownAccs_inScope {input : ActiveInput} {acc : Var} (h : IsAccumulator g D acc) :
    (input.ownAccs acc).InScope g D := by
  constructor
  · intro v a ha
    rw [(ActiveInput.ownAccs_find ha).2]
    exact h
  · intro a ha
    cases input with
    | param v => cases ha
    | property obj field =>
      cases ha
      exact h

theorem rootAccs_formed {acc : Var} {inits : Block} {accs : Accumulators} (hD : Below D l)
    (hg : l'.Le (.ofFunc g)) (hup : upstream ∈ D) (hreal : g.varTy upstream = .real)
    (h : s.rootAccs p upstream l = .ok ((inits, acc, accs), l')) :
    Formed g D l l' inits ∧ IsAccumulator g (blockScope D inits) acc ∧
      accs.InScope g (blockScope D inits) := by
  obtain ⟨stem, l₁, stmts, new, hdecl, haccs, rfl, rfl⟩ := rootAccs_split h
  obtain ⟨haccReal, hmutable⟩ := declare_info hdecl ((declareAccs_eq_ok haccs).1.trans hg)
  have hinit : (∀ u ∈ (s.inputInit p upstream).uses, u ∈ D) ∧ (s.inputInit p upstream).Fits g acc := by
    unfold inputInit
    split
    · exact ⟨fun u hu => rootInit_uses hu ▸ hup, rootInit_fits _ hreal haccReal⟩
    · exact ⟨fun u hu => absurd hu List.not_mem_nil, s.zeroExpr_fits haccReal⟩
  obtain ⟨hfirst, hin⟩ := declare_formed hD hdecl hinit.1 hinit.2
  obtain ⟨hothers, hnew⟩ := declareAccs_formed (hfirst.below hD) hg
    (fun v _ u hu => rootInit_uses hu ▸ subset_blockScope _ _ hup)
    (fun v _ a ha => rootInit_fits v hreal ha) haccs
  have hacc : IsAccumulator g (blockScope D (.define acc true (s.inputInit p upstream) :: stmts)) acc := by
    rw [blockScope_cons]
    exact ⟨subset_blockScope _ _ hin, haccReal, hmutable⟩
  refine ⟨hfirst.append hothers, hacc, (ownAccs_inScope hacc).add (Finset.Subset.refl _) fun p hp => ?_⟩
  rw [blockScope_cons]
  exact hnew p hp

end Sweep

namespace Generation

variable {c : Catalogue} {f g : Func} {input : ActiveInput} {withTapes : Bool} {mode : ReturnMode}
  (d : Generation c f input withTapes mode g)

/-! ## The table -/

theorem final_le : d.final.Le (.ofFunc g) := by
  rw [Locals.Le, ← d.vars]
  exact List.prefix_refl _

theorem locals_le : d.locals.Le (.ofFunc g) :=
  (Sweep.reverseSteps_grows _ _ _ d.reversed).trans d.final_le

theorem start_le : d.start.Le (.ofFunc g) :=
  (Sweep.rootAccs_eq_ok d.rooted).2.1.trans d.locals_le

include d in
/-- The derivative says of the variables of the function what the function says. -/
theorem sameInfo (hv : v.idx < f.vars.size) : f.SameInfo g v := by
  have hspec := (Locals.ofFunc f).declare_spec "upstream" .real false
  rw [d.declared] at hspec
  exact (hspec.2.1.trans d.start_le).info hv

theorem upstream_real : g.varTy d.upstream = .real := by
  have hle := d.start_le
  have hinfo := (Locals.ofFunc f).declare_info (g := g) "upstream" .real false (by rwa [d.declared])
  rw [d.upstream_eq]
  exact hinfo.1

/-! ## The forward section -/

/-- What is in scope at the start of the derivative. -/
def entry : Finset Var := insert d.upstream f.params.toFinset

theorem params_toFinset : g.params.toFinset = d.entry := by
  rw [d.params, List.toFinset_append, entry, Finset.insert_eq, Finset.union_comm]
  rfl

theorem body_source : f.body = stepsSource d.plan.body.2 ++ [.ret [d.plan.ret]] := d.fine.body

variable (hf : f.Tabled)
include hf

theorem decl_lt (hv : v ∈ allDecls (stepsSource d.plan.body.2)) : v.idx < f.vars.size := by
  apply hf.decls
  rw [d.body_source, allDecls_append]
  exact List.mem_append_left _ hv

theorem portable : Portable f g d.upstream (stepsSource d.plan.body.2) where
  ret := d.fine.fine.no_ret
  decls v hv := by
    have hlt := d.decl_lt hf hv
    refine ⟨d.sameInfo hlt, ?_⟩
    rintro rfl
    rw [d.upstream_eq] at hlt
    exact Nat.lt_irrefl _ hlt

/-- The statements of the function are in order in the derivative. -/
theorem source_transfer : blockScoped g d.entry (stepsSource d.plan.body.2) ∧
    blockFits g (stepsSource d.plan.body.2) := by
  have hscope := f.scoped_of_isValid d.valid
  have hfits := f.fits_of_isValid d.valid
  rw [d.body_source, blockScoped_append] at hscope
  rw [d.body_source, blockFits_append] at hfits
  refine (d.portable hf).transfer (fun v hv => ?_) hscope.1 hfits.1
  exact d.sameInfo (hf.params v (List.mem_toFinset.mp hv))

/-- What is in scope behind the forward section. -/
theorem middle_scope (hv : v ∈ blockScope d.entry d.forward) :
    v = d.upstream ∨ v.idx < f.vars.size := by
  rw [forward, Level.blockScope_forwardSteps, blockScope, entry, Finset.mem_union,
    Finset.mem_insert, List.mem_toFinset, List.mem_toFinset] at hv
  rcases hv with (hv | hv) | hv
  · exact .inl hv
  · exact .inr (hf.params v hv)
  · exact .inr (d.decl_lt hf (blockDecls_subset _ hv))

theorem middle_below : Below (blockScope d.entry d.forward) d.start := by
  intro v hv
  rw [d.start_size]
  rcases d.middle_scope hf hv with rfl | hv
  · rw [d.upstream_eq]
    exact Nat.lt_succ_self _
  · omega

/-- Variables that are read in place are in scope behind the forward section. -/
theorem owned_scope (hv : d.lo.isOwned v = true) :
    v ∈ blockScope d.entry d.forward ∧ g.varTy v = f.varTy v := by
  rw [Lowering.isOwned, Bool.or_eq_true, List.contains_iff_mem, List.any_eq_true] at hv
  rcases hv with hv | ⟨st, hst, hown⟩
  · have hparam : v ∈ f.params := hv
    refine ⟨subset_blockScope _ _ ?_, (d.sameInfo (hf.params v hparam)).varTy⟩
    exact Finset.mem_insert_of_mem (List.mem_toFinset.mpr hparam)
  · split at hown
    · rename_i dst e
      simp only [Bool.and_eq_true, beq_iff_eq] at hown
      obtain ⟨rfl, -⟩ := hown
      have hdecl : dst ∈ blockDecls (stepsSource d.plan.body.2) := by
        have hbody : Stmt.define dst true e ∈ f.body := hst
        rw [d.body_source] at hbody
        rcases List.mem_append.mp hbody with hbody | hbody
        · exact List.mem_filterMap.mpr ⟨_, hbody, rfl⟩
        · cases List.mem_singleton.mp hbody
      refine ⟨?_, (d.sameInfo (d.decl_lt hf (blockDecls_subset _ hdecl))).varTy⟩
      rw [forward, Level.blockScope_forwardSteps]
      exact Finset.mem_union_right _ (List.mem_toFinset.mpr hdecl)
    · cases hown

/-- What the function returns is in scope behind the forward section. -/
theorem ret_scope : d.plan.ret ∈ blockScope d.entry d.forward ∧ g.varTy d.plan.ret = .real := by
  have hscope := f.scoped_of_isValid d.valid
  rw [d.body_source, blockScoped_append] at hscope
  have hret : d.plan.ret ∈ blockScope f.params.toFinset (stepsSource d.plan.body.2) :=
    hscope.2.1 _ List.mem_cons_self
  have hlt : d.plan.ret.idx < f.vars.size := by
    rw [blockScope, Finset.mem_union, List.mem_toFinset, List.mem_toFinset] at hret
    exact hret.elim (hf.params _) fun hret => d.decl_lt hf (blockDecls_subset _ hret)
  constructor
  · rw [forward, Level.blockScope_forwardSteps, entry, blockScope_insert]
    exact Finset.mem_insert_of_mem hret
  · rw [(d.sameInfo hlt).varTy]
    exact d.fine.ret

/-! ## Both sections -/

/-- The reverse section of calls that compute with reals is well formed. -/
theorem reverse_formed (hc : c.Sound) (hcomplete : ∀ n ∈ c.nodes, n.Complete)
    (hreal : ∀ ac, .call ac ∈ stepsAll d.plan.body.2 → ac.ComputesReals f) :
    Formed g (blockScope d.entry d.forward) d.start d.final (d.inits ++ d.code) ∧
      IsAccumulator g (blockScope (blockScope d.entry d.forward) (d.inits ++ d.code)) d.acc := by
  have hup : d.upstream ∈ blockScope d.entry d.forward :=
    subset_blockScope _ _ (Finset.mem_insert_self _ _)
  obtain ⟨hinits, hacc, haccs⟩ := Sweep.rootAccs_formed (d.middle_below hf) d.locals_le hup
    d.upstream_real d.rooted
  have hground : Grounded d.lo g (blockScope (blockScope d.entry d.forward) d.inits) d.locals d.accs :=
    ⟨hinits.below (d.middle_below hf), haccs, fun v hv =>
      ⟨subset_blockScope _ _ (d.owned_scope hf hv).1, (d.owned_scope hf hv).2⟩⟩
  have hnodes : Sweep.Nodes d.lo := ⟨hc, hcomplete⟩
  have hcode := Sweep.reverseSteps_formed hnodes d.fine.fine hreal hground
    d.final_le d.reversed
  refine ⟨hinits.append hcode, ?_⟩
  rw [blockScope_append]
  exact hacc.mono (subset_blockScope _ _)

/-- No variable of a derivative is declared twice. -/
theorem nodup_of_formed {D : Finset Var}
    (h : Formed g D d.start d.final (d.inits ++ d.code)) : (g.params ++ allDecls g.body).Nodup := by
  have hown : (f.params ++ allDecls (stepsSource d.plan.body.2)).Nodup := by
    have hnodup := f.nodup_of_isValid d.valid
    rw [d.body_source, allDecls_append, ← List.append_assoc] at hnodup
    exact (List.nodup_append.mp hnodup).1
  have hlt : ∀ v ∈ f.params ++ allDecls (stepsSource d.plan.body.2), v.idx < f.vars.size := by
    intro v hv
    exact (List.mem_append.mp hv).elim (hf.params v) (d.decl_lt hf)
  have hdecls : allDecls g.body =
      allDecls (stepsSource d.plan.body.2) ++ allDecls (d.inits ++ d.code) := by
    rw [d.body_eq, allDecls_append, allDecls_append, forward, Level.forwardSteps_allDecls]
    exact List.append_nil _
  have hperm : (g.params ++ allDecls g.body).Perm
      ((f.params ++ allDecls (stepsSource d.plan.body.2)) ++
        (d.upstream :: allDecls (d.inits ++ d.code))) := by
    rw [d.params, hdecls, List.append_assoc, List.append_assoc, List.singleton_append]
    exact List.Perm.append_left _ List.perm_middle.symm
  rw [hperm.nodup_iff, List.nodup_append, List.nodup_cons]
  refine ⟨hown, ⟨fun hup => ?_, h.nodup⟩, ?_⟩
  · have := (h.decls _ hup).1
    rw [d.start_size, d.upstream_eq] at this
    exact Nat.not_succ_le_self _ this
  · rintro v hv w hw rfl
    have hsmall := hlt v hv
    rcases List.mem_cons.mp hw with rfl | hw
    · rw [d.upstream_eq] at hsmall
      exact Nat.lt_irrefl _ hsmall
    · have := (h.decls v hw).1
      rw [d.start_size] at this
      omega

/-- The operands of the calls of a function are variables of the function. -/
theorem call_sameInfo (hac : .call ac ∈ stepsAll d.plan.body.2) :
    (∀ v ∈ ac.argVars, g.varTy v = f.varTy v) ∧ g.varTy ac.dst = f.varTy ac.dst := by
  have hatom : Stmt.define ac.dst ac.decl ac.expr ∈ blockAtoms (stepsSource d.plan.body.2) :=
    atoms_of_mem_stepsAll hac List.mem_cons_self
  have hscope := f.scoped_of_isValid d.valid
  rw [d.body_source, blockScoped_append] at hscope
  obtain ⟨D, hD, hst⟩ := hscope.1.atom hatom
  have hsame {v : Var} (hv : v ∈ f.params ∨ v ∈ allDecls (stepsSource d.plan.body.2)) :
      g.varTy v = f.varTy v :=
    (d.sameInfo (hv.elim (hf.params v) (d.decl_lt hf))).varTy
  constructor
  · intro v hv
    have hin : v ∈ D := by
      cases hd : ac.decl <;> rw [hd] at hst <;> exact hst.1 v hv
    exact hsame ((hD.2 v hin).imp_left List.mem_toFinset.mp)
  · exact hsame ((hscope.1.defined hatom).imp_left List.mem_toFinset.mp)

theorem savesReals_iff (hac : .call ac ∈ stepsAll d.plan.body.2) :
    ac.SavesReals g ↔ ac.SavesReals f := by
  obtain ⟨hargs, hdst⟩ := d.call_sameInfo hf hac
  rw [ActiveCall.SavesReals, ActiveCall.SavesReals, hdst]
  refine and_congr_left fun _ => forall₂_congr fun v hv => ?_
  rw [hargs v (ac.savedArgs_subset hv)]

/-- **Derivatives of real calls are valid.** -/
theorem isValid_of_real (hc : c.Sound) (hcomplete : ∀ n ∈ c.nodes, n.Complete)
    (hreturns : g.returns = mode.returns)
    (hreal : ∀ ac, .call ac ∈ stepsAll d.plan.body.2 → ac.IsReal f) : g.isValid = true := by
  obtain ⟨hformed, hacc⟩ := d.reverse_formed hf hc hcomplete fun ac hac => (hreal ac hac).computes
  obtain ⟨hscope, hfits⟩ := d.source_transfer hf
  have hret := d.ret_scope hf
  rw [Func.isValid_iff, d.params_toFinset]
  refine ⟨d.nodup_of_formed hf hformed, ?_, ?_⟩
  · rw [d.body_eq, blockScoped_append, blockScoped_append, blockScope_append]
    refine ⟨⟨d.level.forwardSteps_scoped hscope, hformed.scope⟩, ?_, trivial⟩
    intro v hv
    cases mode with
    | derivative =>
      obtain rfl := List.mem_singleton.mp hv
      exact hacc.scope
    | valueAndDerivative =>
      rcases List.mem_cons.mp hv with rfl | hv
      · exact subset_blockScope _ _ hret.1
      · obtain rfl := List.mem_singleton.mp hv
        exact hacc.scope
  · rw [d.body_eq, blockFits_append, blockFits_append]
    refine ⟨⟨(d.level.forwardSteps_fits_iff hfits).mpr fun ac hac => ?_, hformed.fits⟩, ?_, trivial⟩
    · exact (d.savesReals_iff hf hac).mpr (hreal ac hac).saves
    · change (d.plan.results d.acc mode).map g.varTy = g.returns
      rw [hreturns]
      cases mode with
      | derivative => simp [Plan.results, ReturnMode.returns, hacc.real]
      | valueAndDerivative => simp [Plan.results, ReturnMode.returns, hacc.real, hret.2]

/-- **The calls of valid derivatives are real.** -/
theorem real_of_isValid (hc : c.Sound) (hcomplete : ∀ n ∈ c.nodes, n.Complete)
    (hvalid : g.isValid = true) (hac : .call ac ∈ stepsAll d.plan.body.2) : ac.IsReal f := by
  have hfits := g.fits_of_isValid hvalid
  rw [d.body_eq, blockFits_append, blockFits_append, blockFits_append] at hfits
  obtain ⟨⟨hforward, -, hcode⟩, -⟩ := hfits
  have hsaves := (d.savesReals_iff hf hac).mp
    ((d.level.forwardSteps_fits_iff (d.source_transfer hf).2).mp hforward ac hac)
  obtain ⟨accs, l₁, l₂, piece, hcall, hle, hsub⟩ := Sweep.reverseSteps_call hac d.reversed
  have hfine : d.lo.CallFine ac := fine_of_mem_stepsAll d.fine.fine _ hac
  obtain ⟨hargs, hdst⟩ := d.call_sameInfo hf hac
  refine ⟨hsaves, ?_⟩
  exact Sweep.reverseCall_requires hfine (hcomplete _ hfine.mem) (hc _ hfine.mem) hsaves
    (hle.trans d.final_le) hargs hdst hcall fun a ha => hcode.atom (hsub ha)

/-- **A derivative is valid if and only if its calls are real.** -/
theorem isValid_iff (hc : c.Sound) (hcomplete : ∀ n ∈ c.nodes, n.Complete)
    (hreturns : g.returns = mode.returns) :
    g.isValid = true ↔ ∀ ac, .call ac ∈ stepsAll d.plan.body.2 → ac.IsReal f :=
  ⟨fun h _ hac => d.real_of_isValid hf hc hcomplete h hac, d.isValid_of_real hf hc hcomplete hreturns⟩

end Generation

/-! ## Derivatives of both orders -/

/-- The plan is the one that the function is lowered to. -/
def Planned (c : Catalogue) (f : Func) (input : ActiveInput) (withTapes : Bool) (p : Plan) : Prop :=
  ∃ activity s, Activity.analyze f input withTapes = .ok activity ∧
    (⟨f, activity, c⟩ : Lowering).plan {} = .ok p s

/-- All calls of the plan are real. -/
def Plan.IsReal (p : Plan) (f : Func) : Prop :=
  ∀ ac, .call ac ∈ stepsAll p.body.2 → ac.IsReal f

theorem Generation.planned_plan {c : Catalogue} {f g : Func} {input : ActiveInput}
    {withTapes : Bool} {mode : ReturnMode} (d : Generation c f input withTapes mode g) :
    Planned c f input withTapes d.plan := by
  obtain ⟨s, hs⟩ := d.planned
  exact ⟨d.activity, s, d.analyzed, hs⟩

namespace Diff

variable {c : Catalogue} {f g h : Func} {input : ActiveInput} {withTapes : Bool}
  {mode : ReturnMode} {name : String} {st st' : Session}

theorem generate_returns {s : Sweep} (hg : s.generate p mode name = .ok g) :
    g.returns = mode.returns := by
  unfold Sweep.generate at hg
  obtain ⟨⟨body, final⟩, -, hg⟩ := except_bind_eq_ok.mp hg
  cases hg
  cases mode <;> rfl

theorem reverse_returns (hg : reverse c f input withTapes mode name st = .ok g st') :
    g.returns = mode.returns := by
  unfold reverse at hg
  split at hg
  · obtain ⟨_, _, hthrow, -⟩ := bind_eq_ok.mp hg
    cases hthrow
  · dsimp only at hg
    -- everything up to the generator
    simp only [bind_eq_ok] at hg
    obtain ⟨_, _, -, _, _, -, _, _, -, _, _, -, _, _, -, _, _, -, _, _, -, hg⟩ := hg
    obtain ⟨_, _, hgenerated, _, _, -, hg⟩ := hg
    cases hg
    exact generate_returns (ofExcept_eq_ok.mp hgenerated).1

theorem secondOrder_returns (hh : secondOrder c f input st = .ok h st') :
    h.returns = ReturnMode.valueAndDerivative.returns := by
  unfold secondOrder at hh
  obtain ⟨_, _, -, hh⟩ := bind_eq_ok.mp hh
  obtain ⟨_, _, -, hh⟩ := bind_eq_ok.mp hh
  obtain ⟨_, _, -, hh⟩ := bind_eq_ok.mp hh
  exact reverse_returns hh

end Diff

/-- Primitive operations are real. -/
theorem Generation.real_of_callsNothing {c : Catalogue} {f g : Func} {input : ActiveInput}
    {withTapes : Bool} {mode : ReturnMode} (d : Generation c f input withTapes mode g)
    (hc : c = .builtin) (hcalls : f.CallsNothing) : d.plan.IsReal f := by
  intro ac hac
  have hfine : d.lo.CallFine ac := fine_of_mem_stepsAll d.fine.fine _ hac
  have hatom : Stmt.define ac.dst ac.decl ac.expr ∈ blockAtoms f.body :=
    d.source_atoms (atoms_of_mem_stepsAll hac List.mem_cons_self)
  have hfits : ac.expr.Fits f ac.dst := (f.fits_of_isValid d.valid).atom hatom
  obtain ⟨target, htarget, hfind⟩ := hfine.found
  obtain ⟨hargs, hdst⟩ : (∀ v ∈ ac.argVars, f.varTy v = .real) ∧ f.varTy ac.dst = .real := by
    rw [ActiveCall.argVars]
    cases he : ac.expr with
    | op op args =>
      rw [he] at htarget hfits
      cases htarget
      have hnode : c.find? ("math." ++ op.name) = some ac.node := Except.ok.inj hfind
      rw [hc] at hnode
      have hop := builtin_differentiable hnode
      simp only [Opcode.isDifferentiable, Bool.and_eq_true, beq_iff_eq, List.all_eq_true] at hop
      refine ⟨fun v hv => hop.2 _ ?_, hfits.2.trans hop.1⟩
      rw [← hfits.1]
      exact List.mem_map_of_mem hv
    | call callee args node => exact absurd (he ▸ hatom) (hcalls.not_mem _ _ _ _ _)
    | _ =>
      rw [he] at htarget
      cases htarget
  refine ⟨⟨fun v hv => hargs v (ac.savedArgs_subset hv), fun _ => hdst⟩, ?_, fun _ _ _ _ => hdst⟩
  exact fun _ _ _ p hp _ => hargs p.2 (List.of_mem_zip hp).2

/-- **A derivative of either order is valid if and only if the calls it was made from are real.**
The second derivative is made from the unboxed first one. -/
theorem derivatives_valid_iff {c : Catalogue} {f : Func} {input : ActiveInput} {st : Session}
    (hc : c.IsBuilt) (hf : f.IsRead) :
    (∀ g st', Diff.pullback c f input st = .ok g st' →
      ∃ p, Planned c f input false p ∧ (g.isValid = true ↔ p.IsReal f)) ∧
    ∀ h st', Diff.secondOrder c f input st = .ok h st' →
      ∃ g st₁ p, Diff.reverse c f input false .derivative (f.name ++ ".reverse") st = .ok g st₁ ∧
        Planned c (g.unbox st.context.one) input true p ∧
        (h.isValid = true ↔ p.IsReal (g.unbox st.context.one)) := by
  have hcomplete := hc.reached.consistent.complete
  constructor
  · intro g st' hg
    obtain ⟨d, -⟩ := Diff.reverse_eq_ok hg
    exact ⟨d.plan, d.planned_plan,
      d.isValid_iff hf.tabled hc.sound hcomplete (Diff.reverse_returns hg)⟩
  · intro h st' hh
    obtain ⟨g, d, d₂, -, -, -, st₁, hfirst⟩ := Diff.secondOrder_eq_ok hc.sound hh
    have htabled := d.unbox_tabled st.context.one hc.sound hf.tabled
    exact ⟨g, st₁, d₂.plan, hfirst, d₂.planned_plan,
      d₂.isValid_iff htabled hc.sound hcomplete (Diff.secondOrder_returns hh)⟩

/-- Rules of an operation, each of which returns the other input. -/
def Sample.pairRules : String :=
  "function %e.m.d0(u: real, x: real, y: real, p: real) -> real { return y }
   function %e.m.d1(u: real, x: real, y: real, p: real) -> real { return x }"

/-- The operation on a real and an integer. -/
def Sample.mixed : String :=
  "function %f(x: real, n: int) -> real { let y: real = call %e.m(x, n) return y }"

/-- Whether its pullback exists and is not valid. -/
def Sample.mixedInvalid : Bool :=
  match Func.read Sample.mixed, Catalogue.addText Sample.pairRules {} with
  | .ok f, .ok _ c =>
    match Diff.pullback c f (.param ⟨0⟩) {} with
    | .ok g _ => !g.isValid
    | .error _ _ => false
  | _, _ => false

theorem Sample.mixedInvalid_eq : Sample.mixedInvalid = true := by decide +kernel

/-- The pullback of the operation is not valid there: one of its rules is given an integer. -/
theorem mixed_valid_iff : ∃ f c g st p, Func.read Sample.mixed = .ok f ∧
    Catalogue.addText Sample.pairRules {} = .ok () c ∧
    Diff.pullback c f (.param ⟨0⟩) {} = .ok g st ∧ Planned c f (.param ⟨0⟩) false p ∧
    g.isValid = false ∧ ¬p.IsReal f := by
  have h := Sample.mixedInvalid_eq
  unfold Sample.mixedInvalid at h
  split at h
  swap
  · cases h
  rename_i f _ c hf hadd
  split at h
  swap
  · cases h
  rename_i g st hg
  rw [Bool.not_eq_true'] at h
  have hc : c.IsBuilt := .text _ .empty (.inl hadd)
  obtain ⟨p, hp, hiff⟩ := (derivatives_valid_iff hc (.inl ⟨_, hf⟩)).1 g st hg
  refine ⟨f, c, g, st, p, hf, hadd, hg, hp, h, fun hreal => ?_⟩
  rw [hiff.mpr hreal] at h
  cases h

/-- **Derivatives of functions without calls are valid.** -/
theorem builtin_derivatives_valid {f g : Func} {input : ActiveInput} {st st' : Session}
    (hf : f.IsRead) (hcalls : f.CallsNothing)
    (h : Diff.pullback .builtin f input st = .ok g st' ∨
      Diff.secondOrder .builtin f input st = .ok g st') : g.isValid = true := by
  have hrules := builtin_calls
  have hbuilt := Catalogue.IsBuilt.builtin
  -- the catalogue is not to be computed
  generalize hbuiltin : Catalogue.builtin = c at h hrules hbuilt
  have hc := hbuilt.sound
  have hcomplete := hbuilt.reached.consistent.complete
  rcases h with h | h
  · obtain ⟨d, -⟩ := Diff.reverse_eq_ok h
    exact d.isValid_of_real hf.tabled hc hcomplete (Diff.reverse_returns h)
      (d.real_of_callsNothing hbuiltin.symm hcalls)
  · obtain ⟨g₁, d, d₂, -⟩ := Diff.secondOrder_eq_ok hc h
    exact d₂.isValid_of_real (d.unbox_tabled _ hc hf.tabled) hc hcomplete (Diff.secondOrder_returns h)
      (d₂.real_of_callsNothing hbuiltin.symm (d.unbox_callsNothing hc hrules hcalls))

/-- **A second derivative returns what the pullback does, and more.** Where it is generated it is
valid. On the same arguments and records, its first value is the one that the pullback returns
with an upstream derivative of one, whatever scalars are. -/
theorem secondOrder_extends_pullback {f g h : Func} {input : ActiveInput} {st st₁ st₂ : Session}
    (hf : f.IsRead) (hcalls : f.CallsNothing)
    (hg : Diff.pullback .builtin f input st = .ok g st₁)
    (hh : Diff.secondOrder .builtin f input st = .ok h st₂) :
    g.isValid = true ∧ h.isValid = true ∧
    ∀ {R : Type} [Scalar R] (x : Externs R) (limit limit' : Nat) (args : List (Value R))
      (u : Value R) (world : World R) (vals vals' : List (Value R)) (m n : Machine R),
      (⟨g, x, limit⟩ : Job R).run (args ++ [.real (Scalar.lit st.context.one)]) (.new g world) =
        .ok vals m →
      (⟨h, x, limit'⟩ : Job R).run (args ++ [u]) (.new h world) = .ok vals' n →
      ∃ y z, vals = [y] ∧ vals' = [y, z] := by
  refine ⟨builtin_derivatives_valid hf hcalls (.inl hg),
    builtin_derivatives_valid hf hcalls (.inr hh), ?_⟩
  intro R _ x limit limit' args u world vals vals' m n hrun hrun'
  have hc := Catalogue.IsBuilt.builtin.sound
  obtain ⟨g₁, d, d₂, hlevel, -, -, _, hfirst⟩ := Diff.secondOrder_eq_ok hc hh
  obtain ⟨_, hnamed⟩ := Diff.reverse_renamed hfirst (f.name ++ ".pullback")
  cases hg.symm.trans hnamed
  obtain ⟨slots, hslots, rfl⟩ := (Job.run_eq_ok _ _).mp hrun
  obtain ⟨slots', hslots', rfl⟩ := (Job.run_eq_ok _ _).mp hrun'
  have hslots : (⟨g₁, x, limit⟩ : Job R).runSlots
      ((args ++ [Value.real (Scalar.lit st.context.one)]).map ({ value := · })) (.new g₁ world) =
        .ok slots m :=
    (congrFun ((⟨g₁, x, limit⟩ : Job R).runSlots_renamed _ _) _).symm.trans hslots
  obtain ⟨s, s', rfl, rfl⟩ := d.first_value d₂ hc hf.tabled hlevel hslots hslots'
  exact ⟨s.value, s'.value, rfl, rfl⟩

/-- Both derivatives of the sample return the same derivative at `11 / 10`. -/
theorem sample_extends_pullback : ∃ f g h st st', Func.read Sample.text = .ok f ∧
    Diff.pullback .builtin f (.param ⟨0⟩) {} = .ok g st ∧
    Diff.secondOrder .builtin f (.param ⟨0⟩) {} = .ok h st' ∧ h.isValid = true ∧
    ∃ (y z : Value ℚ) (m n : Machine ℚ),
      (⟨g, .none, 100⟩ : Job ℚ).run [.real (11 / 10), .real 1] (.new g {}) = .ok [y] m ∧
      (⟨h, .none, 100⟩ : Job ℚ).run [.real (11 / 10), .real 1] (.new h {}) = .ok [y, z] n := by
  obtain ⟨f, g, h, st, st', hf, hg, hh, ⟨vals, m, hrun⟩, ⟨vals', n, hrun'⟩, -⟩ :=
    Sample.exists_derivatives
  obtain ⟨-, hvalid, hall⟩ :=
    secondOrder_extends_pullback (.inl ⟨_, hf⟩) (Sample.callsNothing hf).1 hg hh
  have hone : (Scalar.lit 1.0 : ℚ) = 1 := LawfulScalar.lit_one
  obtain ⟨y, z, rfl, rfl⟩ := hall .none 100 100 [.real (11 / 10)] (.real 1) {} vals vals' m n
    (by rw [← hrun, ← hone]; rfl) hrun'
  exact ⟨f, g, h, st, st', hf, hg, hh, hvalid, y, z, m, n, hrun, hrun'⟩

/-- Computes its test from active values, which the rest of the loop replaces. -/
def Sample.rechecked : String :=
  "function %f(x: real) -> real {
    let mut r: real = copy x
    while { r = exp r let c: bool = flt r, x } -> c { r = exp x }
    return x
  }"

def Sample.recheckedFails : Bool :=
  match Func.read Sample.rechecked with
  | .error _ => false
  | .ok f =>
    match Diff.pullback .builtin f (.param ⟨0⟩) {}, Diff.secondOrder .builtin f (.param ⟨0⟩) {} with
    | .ok _ _, .error (.activeLoopHeader _) _ => decide f.CallsNothing
    | _, _ => false

theorem Sample.recheckedFails_eq : Sample.recheckedFails = true := by decide +kernel

/-- A pullback may be refused where its function is accepted: it saves what a header computes,
and saving counts as a use outside of the header. -/
theorem rechecked_no_secondOrder : ∃ f g st var st', Func.read Sample.rechecked = .ok f ∧
    f.CallsNothing ∧ Diff.pullback .builtin f (.param ⟨0⟩) {} = .ok g st ∧
    Diff.secondOrder .builtin f (.param ⟨0⟩) {} = .error (.activeLoopHeader var) st' := by
  have h := Sample.recheckedFails_eq
  unfold Sample.recheckedFails at h
  split at h
  · cases h
  rename_i f hf
  split at h
  swap
  · cases h
  rename_i g st var st' hg hh
  exact ⟨f, g, st, var, st', hf, of_decide_eq_true h, hg, hh⟩

end Backsweep
