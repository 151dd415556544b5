import Mathlib
import Backsweep.Proofs.Diff.FormedSteps
import Backsweep.Proofs.Diff.Partials

/-!
# Well-formed forward sections

The forward section repeats the statements of a function inside of a larger one, and pushes
values between them.

* `Portable.transfer`: statements of one function are in order in another one;
* `Level.forwardSteps_scoped`: the forward section is scoped as the function is;
* `Level.forwardSteps_fits_iff`: its types fit if and only if it saves reals only.
-/

namespace Backsweep

variable {arms : List (Var × List Var × List Step)}

/-! ## Statements of another function -/

theorem Expr.Fits.transfer {f g : Func} {dst : Var} {e : Expr} (h : e.Fits f dst)
    (hdst : g.varTy dst = f.varTy dst) (huses : ∀ v ∈ e.uses, g.varTy v = f.varTy v) :
    e.Fits g dst := by
  have hmapped := Expr.Fits.mapVars (σ := id) h hdst fun v hv => huses v (e.computes_subset hv)
  rwa [Expr.mapVars_id] at hmapped

theorem blockScope_insert (u : Var) (D : Finset Var) (b : Block) :
    blockScope (insert u D) b = insert u (blockScope D b) :=
  Finset.insert_union _ _ _

/-- The two functions say the same of the variable. -/
def Func.SameInfo (f g : Func) (v : Var) : Prop := g.info v = f.info v

theorem Func.SameInfo.varTy {f g : Func} {v : Var} (h : f.SameInfo g v) : g.varTy v = f.varTy v :=
  congrArg VarInfo.ty h

/-- The block returns nothing, declares nothing that the two functions do not agree on, and
does not declare `u`. -/
structure Portable (f g : Func) (u : Var) (b : Block) : Prop where
  ret : ∀ vals, Stmt.ret vals ∉ blockAtoms b
  decls : ∀ v ∈ allDecls b, f.SameInfo g v ∧ v ≠ u

namespace Portable

variable {f g : Func} {u : Var} {D : Finset Var} {a b : Block}

theorem inner (h : Portable f g u b) (ha : blockAtoms a ⊆ blockAtoms b) : Portable f g u a :=
  ⟨fun vals hin => h.ret vals (ha hin), fun v hv => h.decls v (allDecls_subset ha hv)⟩

theorem scope (h : Portable f g u b) (hD : ∀ v ∈ D, f.SameInfo g v) :
    ∀ v ∈ blockScope D b, f.SameInfo g v := by
  intro v hv
  rw [blockScope, Finset.mem_union, List.mem_toFinset] at hv
  exact hv.elim (hD v) fun hv => (h.decls v (blockDecls_subset b hv)).1

theorem atom {s : Stmt} (h : Portable f g u [s]) (hs : s.isControlFlow = false)
    (hD : ∀ v ∈ D, f.SameInfo g v) (hscope : s.Scoped f D) (hfits : s.Fits f) :
    s.Scoped g (insert u D) ∧ s.Fits g := by
  have hin {v : Var} (hv : v ∈ D) : v ∈ insert u D := Finset.mem_insert_of_mem hv
  cases s, hs using Stmt.atomCases with
  | define dst decl e =>
    have hexpr : e.Fits f dst := hfits
    cases decl with
    | true =>
      obtain ⟨huses, -, hnew⟩ := hscope
      obtain ⟨hsame, hne⟩ := h.decls dst List.mem_cons_self
      have hfits' := hexpr.transfer hsame.varTy fun v hv => (hD v (huses v hv)).varTy
      refine ⟨⟨fun v hv => hin (huses v hv), hfits'.typed, ?_⟩, hfits'⟩
      simp [hne, hnew]
    | false =>
      obtain ⟨huses, -, hold, hmutable⟩ := hscope
      have hsame := hD dst hold
      have hfits' := hexpr.transfer hsame.varTy fun v hv => (hD v (huses v hv)).varTy
      refine ⟨⟨fun v hv => hin (huses v hv), hfits'.typed, hin hold, ?_⟩, hfits'⟩
      rw [hsame]
      exact hmutable
  | store obj field val => exact ⟨⟨hin hscope.1, hin hscope.2⟩, (hD obj hscope.1).varTy.trans hfits⟩
  | push t val => exact ⟨hin hscope, hfits.1, (hD val hscope).varTy.trans hfits.2⟩
  | pushDecision t d => exact ⟨trivial, hfits⟩
  | unreachable => exact ⟨trivial, trivial⟩
  | ret vals => exact absurd List.mem_cons_self (h.ret vals)

/-- What is in order in one function is in order in the other one, also where `u` is in scope. -/
theorem transfer (h : Portable f g u b) (hD : ∀ v ∈ D, f.SameInfo g v)
    (hscope : blockScoped f D b) (hfits : blockFits f b) :
    blockScoped g (insert u D) b ∧ blockFits g b := by
  have later {D : Finset Var} {s : Stmt} {ss : Block} (hfirst : s.Scoped g (insert u D) ∧ s.Fits g)
      (hrest : blockScoped g (insert u (blockScope D [s])) ss ∧ blockFits g ss) :
      blockScoped g (insert u D) (s :: ss) ∧ blockFits g (s :: ss) := by
    rw [← blockScope_insert] at hrest
    exact ⟨⟨hfirst.1, hrest.1⟩, hfirst.2, hrest.2⟩
  induction b using blockInduction generalizing D with
  | nil => exact ⟨trivial, trivial⟩
  | atom s ss hs ih =>
    have hfirst : Portable f g u [s] := h.inner (by simp [blockAtoms])
    exact later (hfirst.atom hs hD hscope.1 hfits.1)
      (ih (h.inner (by simp [blockAtoms])) (hfirst.scope hD) hscope.2 hfits.2)
  | cond arms other ss iha iho ih =>
    obtain ⟨⟨hsarms, hsother⟩, hsrest⟩ := hscope
    obtain ⟨⟨hfarms, hfother⟩, hfrest⟩ := hfits
    rw [armsScoped_iff] at hsarms
    rw [armsFit_iff] at hfarms
    have harms (arm : Var × Block) (harm : arm ∈ arms) :=
      iha arm harm (h.inner fun a ha => by
        simp only [blockAtoms, Stmt.atoms, List.mem_append, mem_armsAtoms]
        exact .inl (.inl ⟨arm, harm, ha⟩)) hD (hsarms arm harm).2 (hfarms arm harm).2
    have hother := iho (h.inner fun a ha => by simp [blockAtoms, Stmt.atoms, ha]) hD hsother hfother
    have hfirst : Portable f g u [.cond arms other] := h.inner (by simp [blockAtoms])
    refine later ⟨⟨armsScoped_iff.mpr fun arm harm => ?_, hother.1⟩,
      armsFit_iff.mpr fun arm harm => ?_, hother.2⟩
      (ih (h.inner (by simp [blockAtoms])) (hfirst.scope hD) hsrest hfrest)
    · exact ⟨Finset.mem_insert_of_mem (hsarms arm harm).1, (harms arm harm).1⟩
    · exact ⟨(hD _ (hsarms arm harm).1).varTy.trans (hfarms arm harm).1, (harms arm harm).2⟩
  | loop header test body ss ihh ihb ih =>
    obtain ⟨⟨hsheader, htest, -, hsbody⟩, hsrest⟩ := hscope
    obtain ⟨⟨hfheader, hbool, hfbody⟩, hfrest⟩ := hfits
    have hpheader : Portable f g u header := h.inner fun a ha => by simp [blockAtoms, Stmt.atoms, ha]
    have hheader := ihh hpheader hD hsheader hfheader
    have hbehind := hpheader.scope hD
    have hbody := ihb (h.inner fun a ha => by simp [blockAtoms, Stmt.atoms, ha]) hbehind hsbody hfbody
    have hbool' : g.varTy test = .bool := (hbehind test htest).varTy.trans hbool
    rw [← blockScope_insert] at hbody
    have hfirst : Portable f g u [.loop header test body] := h.inner (by simp [blockAtoms])
    refine later ⟨⟨hheader.1, ?_, hbool', hbody.1⟩, hheader.2, hbool', hbody.2⟩
      (ih (h.inner (by simp [blockAtoms])) (hfirst.scope hD) hsrest hfrest)
    rw [blockScope_insert]
    exact Finset.mem_insert_of_mem htest
  | doLoop body test ss ihb ih =>
    obtain ⟨⟨hsbody, htest⟩, hsrest⟩ := hscope
    obtain ⟨⟨hfbody, hbool⟩, hfrest⟩ := hfits
    have hpbody : Portable f g u body := h.inner fun a ha => by simp [blockAtoms, Stmt.atoms, ha]
    have hbody := ihb hpbody hD hsbody hfbody
    have hfirst : Portable f g u [.doLoop body test] := h.inner (by simp [blockAtoms])
    refine later ⟨⟨hbody.1, ?_⟩, hbody.2, (hpbody.scope hD test htest).varTy.trans hbool⟩
      (ih (h.inner (by simp [blockAtoms])) (hfirst.scope hD) hsrest hfrest)
    rw [blockScope_insert]
    exact Finset.mem_insert_of_mem htest
  | block body ss ihb ih =>
    have hbody := ihb (h.inner fun a ha => by simp [blockAtoms, Stmt.atoms, ha]) hD hscope.1 hfits.1
    have hfirst : Portable f g u [.block body] := h.inner (by simp [blockAtoms])
    exact later hbody (ih (h.inner (by simp [blockAtoms])) (hfirst.scope hD) hscope.2 hfits.2)

end Portable

/-! ## The forward section -/

namespace Level

variable (l : Level) {g : Func} {D : Finset Var}

theorem pushes_decls (vs : List Var) : allDecls (vs.map (.push l.values)) = [] := by
  induction vs with
  | nil => rfl
  | cons v vs ih => exact ih

theorem blockDecls_pushes (vs : List Var) : blockDecls (vs.map (.push l.values)) = [] := by
  rw [← List.subset_nil, ← l.pushes_decls vs]
  exact blockDecls_subset _

theorem forwardCall_allDecls (c : ActiveCall) :
    allDecls (l.forwardCall c) = allDecls [.define c.dst c.decl c.expr] := by
  rw [forwardCall, allDecls_append, pushes_decls, List.nil_append]
  split <;> rfl

theorem forwardCall_blockDecls (c : ActiveCall) :
    blockDecls (l.forwardCall c) = blockDecls [.define c.dst c.decl c.expr] := by
  rw [forwardCall, blockDecls_append, blockDecls_pushes, List.nil_append]
  split
  · rw [← List.singleton_append, blockDecls_append]
    exact List.append_nil _
  · rfl

/-- The forward section declares what the function declares. -/
theorem forwardSteps_blockDecls (ss : List Step) :
    blockDecls (l.forwardSteps ss) = blockDecls (stepsSource ss) := by
  induction ss with
  | nil => rfl
  | cons s ss ih =>
    rw [forwardSteps, stepsSource, blockDecls_append, blockDecls_append, ih]
    congr 1
    cases s with
    | call c => exact l.forwardCall_blockDecls c
    | _ => rfl

theorem forwardArms_allDecls
    (ih : ∀ arm ∈ arms, allDecls (l.forwardSteps arm.2.2) = allDecls (stepsSource arm.2.2))
    (i : Nat) :
    (armsAtoms (l.forwardArms i arms)).filterMap Stmt.decl? =
      (armsAtoms (armsSource arms)).filterMap Stmt.decl? := by
  induction arms generalizing i with
  | nil => rfl
  | cons arm arms iha =>
    obtain ⟨test, decls, steps⟩ := arm
    have hfirst : allDecls (l.forwardSteps steps ++ [l.record i]) = allDecls (stepsSource steps) := by
      rw [allDecls_append, ih _ List.mem_cons_self]
      exact List.append_nil _
    rw [forwardArms, armsSource, armsAtoms, armsAtoms, List.filterMap_append, List.filterMap_append,
      iha fun arm h => ih arm (List.mem_cons_of_mem _ h)]
    congr 1

/-- Also inside of its blocks. -/
theorem forwardSteps_allDecls (ss : List Step) :
    allDecls (l.forwardSteps ss) = allDecls (stepsSource ss) := by
  have hrecord (b : Block) (decision : Int) : allDecls (b ++ [l.record decision]) = allDecls b := by
    rw [allDecls_append]
    exact List.append_nil _
  induction ss using stepsInduction with
  | nil => rfl
  | leaf s ss hs ih =>
    rw [forwardSteps, stepsSource, allDecls_append, allDecls_append, ih]
    cases s, hs using Step.leafCases with
    | call c =>
      rw [forwardStep, forwardCall_allDecls]
      rfl
    | _ => rfl
  | block decls steps ss ihs ih =>
    rw [forwardSteps, stepsSource, allDecls_append, allDecls_append, ih]
    have hblock (b : Block) : allDecls [.block b] = allDecls b := by
      simp [allDecls, blockAtoms, Stmt.atoms]
    rw [forwardStep, Step.source, hblock, hblock, ihs]
  | cond arms decls steps ss iha ihs ih =>
    rw [forwardSteps, stepsSource, allDecls_append, allDecls_append, ih]
    have hcond (arms : List (Var × Block)) (b : Block) : allDecls [.cond arms b] =
        (armsAtoms arms).filterMap Stmt.decl? ++ allDecls b := by
      simp [allDecls, blockAtoms, Stmt.atoms]
    rw [forwardStep, Step.source, hcond, hcond, hrecord, ihs, l.forwardArms_allDecls iha]
  | loop id header test decls steps ss ihs ih =>
    rw [forwardSteps, stepsSource, allDecls_append, allDecls_append, ih]
    have hloop (a b : Block) : allDecls [.loop a test b] = allDecls a ++ allDecls b := by
      simp [allDecls, blockAtoms, Stmt.atoms]
    rw [forwardStep, Step.source, hloop, hloop, hrecord, ihs]

theorem blockScope_forwardSteps (ss : List Step) :
    blockScope D (l.forwardSteps ss) = blockScope D (stepsSource ss) := by
  rw [blockScope, blockScope, forwardSteps_blockDecls]

theorem pushes_scoped {vs : List Var} (h : ∀ v ∈ vs, v ∈ D) :
    blockScoped g D (vs.map (.push l.values)) := by
  induction vs with
  | nil => trivial
  | cons v vs ih =>
    refine ⟨h v List.mem_cons_self, ?_⟩
    rw [blockScope_same D rfl]
    exact ih fun v hv => h v (List.mem_cons_of_mem _ hv)

/-- What a definition reads and writes is in scope before and behind it. -/
theorem forwardCall_scoped {c : ActiveCall} (h : (Stmt.define c.dst c.decl c.expr).Scoped g D) :
    blockScoped g D (l.forwardCall c) := by
  have huses : ∀ v ∈ c.argVars, v ∈ D := by
    cases hd : c.decl <;> rw [hd] at h <;> exact h.1
  have hdst : c.dst ∈ blockScope D [.define c.dst c.decl c.expr] := by
    cases hd : c.decl with
    | true =>
      rw [blockScope_declare]
      exact Finset.mem_insert_self _ _
    | false =>
      rw [hd] at h
      exact subset_blockScope _ _ h.2.2.1
  have hscope : blockScope D (c.savedArgs.map (.push l.values)) = D := by
    simp [blockScope, blockDecls_pushes]
  rw [forwardCall, blockScoped_append, hscope]
  refine ⟨l.pushes_scoped fun v hv => huses v (c.savedArgs_subset hv), h, ?_⟩
  split
  · exact ⟨hdst, trivial⟩
  · trivial

theorem forwardArms_scoped (ih : ∀ arm ∈ arms, arm.1 ∈ D ∧ blockScoped g D (l.forwardSteps arm.2.2))
    (i : Nat) : armsScoped g D (l.forwardArms i arms) := by
  induction arms generalizing i with
  | nil => trivial
  | cons arm arms iha =>
    obtain ⟨htest, hbody⟩ := ih arm List.mem_cons_self
    exact ⟨htest, blockScoped_append.mpr ⟨hbody, trivial, trivial⟩,
      iha (fun arm h => ih arm (List.mem_cons_of_mem _ h)) (i + 1)⟩

/-- **The forward section is scoped as the function is.** -/
theorem forwardSteps_scoped {ss : List Step} (h : blockScoped g D (stepsSource ss)) :
    blockScoped g D (l.forwardSteps ss) := by
  have hrecord {D : Finset Var} {b : Block} (hb : blockScoped g D b) (decision : Int) :
      blockScoped g D (b ++ [l.record decision]) :=
    blockScoped_append.mpr ⟨hb, trivial, trivial⟩
  induction ss using stepsInduction generalizing D with
  | nil => trivial
  | leaf s ss hs ih =>
    rw [stepsSource, blockScoped_append] at h
    rw [forwardSteps, blockScoped_append]
    have hsame : blockScope D (l.forwardStep s) = blockScope D s.source := by
      have hone := l.blockScope_forwardSteps (D := D) [s]
      rwa [forwardSteps, stepsSource, forwardSteps, stepsSource, List.append_nil,
        List.append_nil] at hone
    rw [hsame]
    refine ⟨?_, ih h.2⟩
    cases s, hs using Step.leafCases with
    | call c => exact l.forwardCall_scoped h.1.1
    | _ => exact h.1
  | block decls steps ss ihs ih => exact ⟨ihs h.1, ih h.2⟩
  | cond arms decls steps ss iha ihs ih =>
    obtain ⟨⟨harms, hother⟩, hrest⟩ := h
    rw [armsSource_eq, armsScoped_iff, List.forall_mem_map] at harms
    exact ⟨⟨l.forwardArms_scoped (fun arm h => ⟨(harms arm h).1, iha arm h (harms arm h).2⟩) 0,
      hrecord (ihs hother) _⟩, ih hrest⟩
  | loop id header test decls steps ss ihs ih =>
    obtain ⟨⟨hheader, htest, hbool, hbody⟩, hrest⟩ := h
    exact ⟨⟨hheader, htest, hbool, hrecord (ihs hbody) _⟩, ih hrest⟩

theorem pushes_fit_iff {vs : List Var} :
    blockFits g (vs.map (.push l.values)) ↔ ∀ v ∈ vs, g.varTy v = .real := by
  induction vs with
  | nil => simp [blockFits]
  | cons v vs ih =>
    have hpush : (Stmt.push l.values v).Fits g ↔ g.varTy v = .real := by simp [Stmt.Fits, values]
    rw [List.map_cons, blockFits, ih, hpush, List.forall_mem_cons]

theorem forwardCall_fits_iff {c : ActiveCall} (h : c.expr.Fits g c.dst) :
    blockFits g (l.forwardCall c) ↔ c.SavesReals g := by
  have hprimal : blockFits g (if c.primal = .saved then [.push l.values c.dst] else []) ↔
      (c.primal = .saved → g.varTy c.dst = .real) := by
    by_cases hp : c.primal = .saved
    · simp [hp, blockFits, Stmt.Fits, values]
    · simp [hp, blockFits]
  rw [forwardCall, blockFits_append, pushes_fit_iff, ActiveCall.SavesReals, ← hprimal]
  exact and_congr_right fun _ => and_iff_right h

theorem forwardArms_fit_iff {P : ActiveCall → Prop} (ih : ∀ arm ∈ arms, g.varTy arm.1 = .bool ∧
      (blockFits g (l.forwardSteps arm.2.2) ↔ ∀ c, .call c ∈ stepsAll arm.2.2 → P c)) (i : Nat) :
    armsFit g (l.forwardArms i arms) ↔ ∀ c, .call c ∈ armsAll arms → P c := by
  induction arms generalizing i with
  | nil => simp [forwardArms, armsFit, armsAll]
  | cons arm arms iha =>
    obtain ⟨test, decls, steps⟩ := arm
    obtain ⟨htest, hbody⟩ := ih _ List.mem_cons_self
    have hrecord : blockFits g [l.record i] := ⟨rfl, trivial⟩
    rw [forwardArms, armsFit, blockFits_append, hbody,
      iha fun arm h => ih arm (List.mem_cons_of_mem _ h)]
    simp only [htest, hrecord, and_true, true_and, armsAll, List.mem_append, or_imp, forall_and]

/-- **The forward section fits if and only if it saves reals only.** -/
theorem forwardSteps_fits_iff {ss : List Step} (h : blockFits g (stepsSource ss)) :
    blockFits g (l.forwardSteps ss) ↔ ∀ c, .call c ∈ stepsAll ss → c.SavesReals g := by
  have hrecord (b : Block) (decision : Int) : blockFits g (b ++ [l.record decision]) ↔
      blockFits g b := by
    rw [blockFits_append]
    exact and_iff_left ⟨rfl, trivial⟩
  induction ss using stepsInduction with
  | nil => simp [forwardSteps, blockFits, stepsAll]
  | leaf s ss hs ih =>
    rw [stepsSource, blockFits_append] at h
    have hfirst : blockFits g (l.forwardStep s) ↔ ∀ c, s = .call c → c.SavesReals g := by
      cases s, hs using Step.leafCases with
      | call c =>
        rw [forwardStep, l.forwardCall_fits_iff h.1.1]
        simp
      | inert run =>
        refine iff_of_true h.1 fun c hc => ?_
        cases hc
      | assign dst decl src active =>
        refine iff_of_true h.1 fun c hc => ?_
        cases hc
      | tapeWrite t val active =>
        refine iff_of_true h.1 fun c hc => ?_
        cases hc
    rw [forwardSteps, blockFits_append, hfirst, stepsAll, Step.all_of_isLeaf hs]
    simp only [ih h.2, List.mem_append, List.mem_singleton, or_imp, forall_and, eq_comm]
  | block decls steps ss ihs ih =>
    rw [forwardSteps, forwardStep, blockFits_append, stepsAll, Step.all]
    have hblock : blockFits g [.block (l.forwardSteps steps)] ↔ blockFits g (l.forwardSteps steps) :=
      and_iff_left trivial
    simp only [hblock, ihs h.1, ih h.2, List.mem_append, List.mem_cons, reduceCtorEq, false_or, or_imp,
      forall_and]
  | cond arms decls steps ss iha ihs ih =>
    obtain ⟨⟨harms, hother⟩, hrest⟩ := h
    rw [armsSource_eq, armsFit_iff, List.forall_mem_map] at harms
    have hfirst := l.forwardArms_fit_iff
      (fun arm harm => ⟨(harms arm harm).1, iha arm harm (harms arm harm).2⟩) 0
    have hcond : blockFits g (l.forwardStep (.cond arms (decls, steps))) ↔
        armsFit g (l.forwardArms 0 arms) ∧ blockFits g (l.forwardSteps steps) := by
      rw [forwardStep, ← hrecord (l.forwardSteps steps) arms.length]
      exact and_iff_left trivial
    rw [forwardSteps, blockFits_append, hcond, hfirst, stepsAll, Step.all]
    simp only [ihs hother, ih hrest, List.mem_append, List.mem_cons, reduceCtorEq, false_or, or_imp, forall_and]
  | loop id header test decls steps ss ihs ih =>
    obtain ⟨⟨hheader, hbool, hbody⟩, hrest⟩ := h
    have hloop : blockFits g (l.forwardStep (.loop id header test (decls, steps))) ↔
        blockFits g (l.forwardSteps steps) := by
      rw [forwardStep, ← hrecord (l.forwardSteps steps) id]
      exact ⟨fun h => h.1.2.2, fun h => ⟨⟨hheader, hbool, h⟩, trivial⟩⟩
    rw [forwardSteps, blockFits_append, hloop, stepsAll, Step.all]
    simp only [ihs hbody, ih hrest, List.mem_append, List.mem_cons, reduceCtorEq, false_or, or_imp, forall_and]

end Level

end Backsweep
