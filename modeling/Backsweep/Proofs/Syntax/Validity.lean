import Mathlib
import Backsweep.Proofs.Syntax.Typing

/-!
# Exactly the valid functions

Scopes, single declarations and types are all that a check looks at: where they
are in order, it reports nothing.

* `Checker.Clean`: a block in order, where a check stands in front of it;
* `Checker.stmts_clean`: its check reports nothing;
* `Func.isValid_iff`: a function is valid exactly if no variable is declared twice,
  its body is scoped, and all types fit.
-/

namespace Backsweep

namespace Checker

variable {f : Func} {c : Checker}

/-! ## Uses -/

theorem useAllAt_clean {vs : List Var} {tys : List Ty} (hc : c.violations = [])
    (hvs : ∀ v ∈ vs, v ∈ c.inScope) (htys : vs.map f.varTy = tys) :
    (c.useAllAt f vs tys).violations = [] := by
  induction vs generalizing c tys with
  | nil =>
    subst htys
    exact hc
  | cons v vs ih =>
    subst htys
    change ((c.useAt f v (f.varTy v)).useAllAt f vs (vs.map f.varTy)).violations = []
    apply ih
    · exact useAt_passes.mpr ⟨hc, hvs v List.mem_cons_self, rfl⟩
    · intro w hw
      rw [(useAt_scope c v (f.varTy v)).inScope]
      exact hvs w (List.mem_cons_of_mem _ hw)
    · rfl

theorem expr_clean {dst : Var} {e : Expr} (hc : c.violations = [])
    (huses : ∀ v ∈ e.uses, v ∈ c.inScope) (hfits : e.Fits f dst) :
    (c.expr f dst e).violations = [] := by
  cases e with
  | const k => exact expectTy_passes.mpr ⟨hc, hfits⟩
  | copy src => exact useAt_passes.mpr ⟨hc, huses src (by simp [Expr.uses]), hfits⟩
  | load obj field => exact useAt_passes.mpr ⟨hc, huses obj (by simp [Expr.uses]), hfits⟩
  | op opcode args =>
    obtain ⟨hargs, hresult⟩ := hfits
    have hlength : args.length = opcode.arity := by
      rw [Opcode.arity, ← hargs, List.length_map]
    apply expectTy_passes.mpr
    constructor
    · apply useAllAt_clean
      · exact require_passes.mpr ⟨hc, by simpa using hlength⟩
      · rw [(require_scope _ _ _).inScope]
        exact huses
      · exact hargs
    · exact hresult
  | call callee args node => exact useAll_passes.mpr ⟨hc, huses⟩
  | pop t => exact expectTy_passes.mpr ⟨hc, hfits⟩
  | topIs t d =>
    exact expectTy_passes.mpr ⟨require_passes.mpr ⟨hc, by simpa using hfits.1⟩, hfits.2⟩

theorem declare_clean {v : Var} (hc : c.violations = []) (hv : v ∉ c.declared) :
    (c.declare f v).violations = [] := by
  change (c.require (!c.declared.contains v) (.redeclared (f.varName v))).violations = []
  exact require_passes.mpr ⟨hc, by simpa using hv⟩

/-! ## Blocks -/

/-- A check without violations so far stands in front of a block in order. -/
structure Clean (f : Func) (c : Checker) (b : Block) : Prop where
  violations : c.violations = []
  sane : c.Sane
  fresh : ∀ v ∈ allDecls b, v ∉ c.declared
  nodup : (allDecls b).Nodup
  scope : blockScoped f c.inScope.toFinset b
  fits : blockFits f b

theorem Clean.sameScope {c' : Checker} {b : Block} (h : Clean f c b) (hsame : SameScope c c')
    (hc : c'.violations = []) : Clean f c' b where
  violations := hc
  sane := by
    unfold Sane
    rw [hsame.inScope, hsame.declared]
    exact h.sane
  fresh := hsame.declared ▸ h.fresh
  nodup := h.nodup
  scope := hsame.inScope ▸ h.scope
  fits := h.fits

/-- A check went through the block `a`, and `b` is checked in the scope behind it. -/
theorem clean_behind {a b : Block} (hc : c.Sane) (ha : (stmts f a c).violations = [])
    (hfresh : ∀ v ∈ allDecls a ++ allDecls b, v ∉ c.declared)
    (hnodup : (allDecls a ++ allDecls b).Nodup)
    (hscoped : blockScoped f (blockScope c.inScope.toFinset a) b) (hfits : blockFits f b) :
    Clean f (stmts f a c) b := by
  obtain ⟨hdeclares, -⟩ := stmts_passes hc ha
  obtain ⟨-, hb, hapart⟩ := List.nodup_append.mp hnodup
  constructor
  · exact ha
  · exact hdeclares.sane hc
  · intro v hv hin
    rw [hdeclares.declared, List.mem_append, List.mem_reverse] at hin
    rcases hin with hin | hin
    · exact hapart v hin v hv rfl
    · exact hfresh v (List.mem_append_right _ hv) hin
  · exact hb
  · rw [hdeclares.inScope]
    simpa [blockScope, Finset.union_comm] using hscoped
  · exact hfits

/-- The statements behind the first one. -/
theorem Clean.tail {s : Stmt} {ss : Block} (h : Clean f c (s :: ss))
    (hs : (stmt f s c).violations = []) : Clean f (stmt f s c) ss := by
  have hall : allDecls (s :: ss) = allDecls [s] ++ allDecls ss := allDecls_append [s] ss
  exact clean_behind (a := [s]) h.sane hs (hall ▸ h.fresh) (hall ▸ h.nodup) h.scope.2 h.fits.2

/-- A block inside of the first statement. -/
theorem Clean.inner {s : Stmt} {ss body : Block} (h : Clean f c (s :: ss))
    (hdecls : (allDecls body).Sublist (allDecls (s :: ss)))
    (hscoped : blockScoped f c.inScope.toFinset body) (hfits : blockFits f body) :
    Clean f { c with frame := [] } body :=
  ⟨h.violations, h.sane, fun v hv => h.fresh v (hdecls.subset hv), hdecls.nodup h.nodup, hscoped,
    hfits⟩

/-- A test is used behind the block that computes it. -/
theorem test_clean {b : Block} {test : Var} (hc : c.Sane) (hb : (stmts f b c).violations = [])
    (htest : test ∈ blockScope c.inScope.toFinset b) (hty : f.varTy test = .bool) :
    ((stmts f b c).useAt f test .bool).violations = [] := by
  obtain ⟨hdeclares, -⟩ := stmts_passes hc hb
  refine useAt_passes.mpr ⟨hb, ?_, hty⟩
  rw [hdeclares.inScope]
  simpa [blockScope, or_comm] using htest

theorem atom_clean {s : Stmt} (hs : s.isControlFlow = false) (hc : c.violations = [])
    (hfresh : ∀ v ∈ allDecls [s], v ∉ c.declared) (hscoped : s.Scoped f c.inScope.toFinset)
    (hfits : s.Fits f) : (stmt f s c).violations = [] := by
  cases s, hs using Stmt.atomCases with
  | define dst decl e =>
    have hexpr := expr_scope (f := f) c dst e
    cases decl with
    | true =>
      have huses : ∀ v ∈ e.uses, v ∈ c.inScope := by simpa using hscoped.1
      apply declare_clean (c := c.expr f dst e) (expr_clean hc huses hfits)
      rw [hexpr.declared]
      exact hfresh dst (List.mem_singleton.mpr rfl)
    | false =>
      obtain ⟨huses, -, hdst, hmutable⟩ := hscoped
      have huses : ∀ v ∈ e.uses, v ∈ c.inScope := by simpa using huses
      apply require_passes.mpr
      constructor
      · apply useVar_passes.mpr
        rw [hexpr.inScope]
        exact ⟨expr_clean hc huses hfits, by simpa using hdst⟩
      · exact hmutable
  | store obj field val =>
    obtain ⟨hobj, hval⟩ := hscoped
    apply useVar_passes.mpr
    rw [(useAt_scope c obj .obj).inScope]
    exact ⟨useAt_passes.mpr ⟨hc, by simpa using hobj, hfits⟩, by simpa using hval⟩
  | push t val =>
    have hval : val ∈ c.inScope.toFinset := hscoped
    apply useAt_passes.mpr
    rw [(require_scope _ _ _).inScope]
    exact ⟨require_passes.mpr ⟨hc, by simpa using hfits.1⟩, by simpa using hval, hfits.2⟩
  | pushDecision t d =>
    apply require_passes.mpr
    constructor
    · exact hc
    · -- a tape that holds integers is one of decisions
      by_contra hkind
      have hcontent : t.content = .int := hfits
      rw [Tape.content, if_neg hkind] at hcontent
      cases hcontent
  | unreachable => exact hc
  | ret vals =>
    have htys : vals.map f.varTy = f.returns := hfits
    have hlength : vals.length = f.returns.length := by rw [← htys, List.length_map]
    apply useAllAt_clean
    · exact require_passes.mpr ⟨hc, by simpa using hlength⟩
    · intro v hv
      rw [(require_scope _ _ _).inScope]
      simpa using hscoped v hv
    · exact htys

theorem arms_clean {arms : List (Var × Block)}
    (ih : ∀ arm ∈ arms, ∀ c : Checker, Clean f c arm.2 → (stmts f arm.2 c).violations = [])
    (hc : c.violations = []) (hsane : c.Sane)
    (hfresh : ∀ v ∈ arms.flatMap fun arm => allDecls arm.2, v ∉ c.declared)
    (hnodup : (arms.flatMap fun arm => allDecls arm.2).Nodup)
    (hscoped : armsScoped f c.inScope.toFinset arms) (hfits : armsFit f arms) :
    (Checker.arms f arms c).violations = [] := by
  induction arms generalizing c with
  | nil => exact hc
  | cons arm arms iha =>
    obtain ⟨test, body⟩ := arm
    obtain ⟨htest, hbody, hrest⟩ := hscoped
    obtain ⟨hty, hbodyFits, hrestFits⟩ := hfits
    rw [List.flatMap_cons] at hfresh hnodup
    obtain ⟨hnodupBody, hnodupRest, hapart⟩ := List.nodup_append.mp hnodup
    have hsame := useAt_scope (f := f) c test .bool
    have huse : (c.useAt f test .bool).violations = [] :=
      useAt_passes.mpr ⟨hc, by simpa using htest, hty⟩
    have hclean : Clean f c body :=
      ⟨hc, hsane, fun v hv => hfresh v (List.mem_append_left _ hv), hnodupBody, hbody, hbodyFits⟩
    have hinner := hclean.sameScope hsame huse
    -- the arm is checked in a block of its own, and declares nothing beyond it
    have hcheck : (stmts f body { c.useAt f test .bool with frame := [] }).violations = [] :=
      ih (test, body) List.mem_cons_self _ ⟨huse, hinner.sane, hinner.fresh, hinner.nodup,
        hinner.scope, hinner.fits⟩
    obtain ⟨hdeclares, -⟩ :=
      stmts_passes (c := { c.useAt f test .bool with frame := [] }) hinner.sane hcheck
    have hblock := hdeclares.inBlock hinner.sane
    apply iha (c := (c.useAt f test .bool).inBlock (stmts f body))
    · exact fun arm harm => ih arm (List.mem_cons_of_mem _ harm)
    · exact hcheck
    · exact hblock.sane hinner.sane
    · intro v hv hin
      rw [hblock.declared, List.mem_append, List.mem_reverse, hsame.declared] at hin
      rcases hin with hin | hin
      · exact hapart v hin v hv rfl
      · exact hfresh v (List.mem_append_right _ hv) hin
    · exact hnodupRest
    · rw [hblock.inScope, hsame.inScope]
      exact hrest
    · exact hrestFits

/-- **The check of a block in order reports nothing.** -/
theorem stmts_clean {b : Block} (h : Clean f c b) : (stmts f b c).violations = [] := by
  induction b using blockInduction generalizing c with
  | nil => exact h.violations
  | atom s ss hs ih =>
    have hall : allDecls (s :: ss) = allDecls [s] ++ allDecls ss := allDecls_append [s] ss
    have hfresh : ∀ v ∈ allDecls [s], v ∉ c.declared := fun v hv =>
      h.fresh v (hall ▸ List.mem_append_left _ hv)
    exact ih (h.tail (atom_clean hs h.violations hfresh h.scope.1 h.fits.1))
  | cond arms other ss iha iho ih =>
    apply ih
    apply h.tail
    have hall : allDecls (.cond arms other :: ss) =
        (arms.flatMap fun arm => allDecls arm.2) ++ (allDecls other ++ allDecls ss) := by
      simp [allDecls, blockAtoms, Stmt.atoms, armsAtoms_decls]
    have hfresh := h.fresh
    have hnodup := h.nodup
    rw [hall] at hfresh hnodup
    obtain ⟨hnodupArms, hnodupRest, hapart⟩ := List.nodup_append.mp hnodup
    obtain ⟨⟨harmsScoped, hotherScoped⟩, -⟩ := h.scope
    obtain ⟨⟨harmsFit, hotherFits⟩, -⟩ := h.fits
    have harms : (Checker.arms f arms c).violations = [] :=
      arms_clean (fun arm harm c hc => iha arm harm hc) h.violations h.sane
        (fun v hv => hfresh v (List.mem_append_left _ hv)) hnodupArms harmsScoped harmsFit
    obtain ⟨hdeclares, -⟩ := arms_passes (fun arm _ c hc h => stmts_passes hc h) h.sane harms
    apply iho (c := { Checker.arms f arms c with frame := [] })
    constructor
    · exact harms
    · exact hdeclares.sane h.sane
    · intro v hv hin
      rw [hdeclares.declared, List.mem_append, List.mem_reverse] at hin
      rcases hin with hin | hin
      · exact hapart v hin v (List.mem_append_left _ hv) rfl
      · exact hfresh v (List.mem_append_right _ (List.mem_append_left _ hv)) hin
    · exact (List.nodup_append.mp hnodupRest).1
    · simpa [hdeclares.inScope] using hotherScoped
    · exact hotherFits
  | loop header test body ss ihh ihb ih =>
    apply ih
    apply h.tail
    have hinside : (allDecls header ++ allDecls body).Sublist
        (allDecls (.loop header test body :: ss)) := by
      simp [allDecls, blockAtoms, Stmt.atoms]
    obtain ⟨⟨hheaderScoped, htest, -, hbodyScoped⟩, -⟩ := h.scope
    obtain ⟨⟨hheaderFits, hty, hbodyFits⟩, -⟩ := h.fits
    have hheader : (stmts f header { c with frame := [] }).violations = [] :=
      ihh (h.inner ((List.sublist_append_left _ _).trans hinside) hheaderScoped hheaderFits)
    have hbehind := clean_behind (c := { c with frame := [] }) h.sane hheader
      (fun v hv => h.fresh v (hinside.subset hv)) (hinside.nodup h.nodup) hbodyScoped hbodyFits
    have huse := test_clean (c := { c with frame := [] }) h.sane hheader htest hty
    have hinner := hbehind.sameScope (useAt_scope _ test .bool) huse
    exact ihb (c := { (stmts f header { c with frame := [] }).useAt f test .bool with frame := [] })
      ⟨huse, hinner.sane, hinner.fresh, hinner.nodup, hinner.scope, hinner.fits⟩
  | doLoop body test ss ihb ih =>
    apply ih
    apply h.tail
    have hinside : (allDecls body).Sublist (allDecls (.doLoop body test :: ss)) := by
      simp [allDecls, blockAtoms, Stmt.atoms]
    obtain ⟨⟨hbodyScoped, htest⟩, -⟩ := h.scope
    obtain ⟨⟨hbodyFits, hty⟩, -⟩ := h.fits
    exact test_clean (c := { c with frame := [] }) h.sane
      (ihb (h.inner hinside hbodyScoped hbodyFits)) htest hty
  | block body ss ihb ih =>
    apply ih
    apply h.tail
    have hinside : (allDecls body).Sublist (allDecls (.block body :: ss)) := by
      simp [allDecls, blockAtoms, Stmt.atoms]
    exact ihb (h.inner hinside h.scope.1 h.fits.1)

theorem params_clean {ps : List Var} (hc : c.violations = []) (hfresh : ∀ p ∈ ps, p ∉ c.declared)
    (hnodup : ps.Nodup) : (ps.foldl (·.declare f ·) c).violations = [] := by
  induction ps generalizing c with
  | nil => exact hc
  | cons p ps ih =>
    obtain ⟨hp, hps⟩ := List.nodup_cons.mp hnodup
    have hdeclare := declare_clean (f := f) hc (hfresh p List.mem_cons_self)
    apply ih hdeclare _ hps
    intro q hq hin
    rw [(declare_passes hdeclare).declared, List.reverse_singleton, List.singleton_append,
      List.mem_cons] at hin
    rcases hin with rfl | hin
    · exact hp hq
    · exact hfresh q (List.mem_cons_of_mem _ hq) hin

end Checker

/-- **What validity means.** No variable is declared twice, every variable is in scope
where it is read and can change where it is assigned to, and all types fit. -/
theorem Func.isValid_iff {f : Func} : f.isValid = true ↔
    (f.params ++ allDecls f.body).Nodup ∧ blockScoped f f.params.toFinset f.body ∧
      blockFits f f.body := by
  constructor
  · intro h
    exact ⟨nodup_of_isValid h, scoped_of_isValid h, fits_of_isValid h⟩
  · rintro ⟨hnodup, hscoped, hfits⟩
    obtain ⟨hparams, hdecls, hapart⟩ := List.nodup_append.mp hnodup
    have hclean : (f.params.foldl (·.declare f ·) ({} : Checker)).violations = [] :=
      Checker.params_clean rfl (fun p _ => List.not_mem_nil) hparams
    have hdeclares := Checker.params_passes hclean
    have hbody : (Checker.stmts f f.body
        { f.params.foldl (·.declare f ·) ({} : Checker) with frame := [] }).violations = [] := by
      apply Checker.stmts_clean
      constructor
      · exact hclean
      · exact hdeclares.sane (by simp [Checker.Sane])
      · intro v hv hin
        rw [hdeclares.declared, List.append_nil, List.mem_reverse] at hin
        exact hapart v hin v hv rfl
      · exact hdecls
      · simpa [hdeclares.inScope] using hscoped
      · exact hfits
    have hall : ((f.params.foldl (·.declare f ·) ({} : Checker)).inBlock
        (Checker.stmts f f.body)).violations = [] := hbody
    simp [isValid, violations, hall]

end Backsweep
