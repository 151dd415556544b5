import Mathlib
import Backsweep.Proofs.Diff.ReverseCode
import Backsweep.Proofs.Diff.Trail
import Backsweep.Proofs.Syntax.Table

/-!
# Where steps stand

What is known of the steps of a plan, at every depth.

* `innerDecls`: what a block declares inside of its statements;
* `Setting`: a function with its plan, and the level of its derivative;
* `Placed`: steps somewhere in the plan, with the scope they stand in;
* `Placed.tail`, `Placed.block`, …: how to get from steps to those behind and
  inside of them.
-/

namespace Backsweep

variable {v : Var} {steps : List Step} {arms : List (Var × List Var × List Step)}
variable {decls : List Var}

/-! ## Declarations inside of statements -/

/-- The variables declared inside of the statements of a block. -/
def innerDecls (b : Block) : List Var := allDecls (b.filter Stmt.isControlFlow)

theorem innerDecls_append (a b : Block) : innerDecls (a ++ b) = innerDecls a ++ innerDecls b := by
  simp [innerDecls, allDecls_append]

theorem innerDecls_singleton {s : Stmt} (h : s.isControlFlow = true) :
    innerDecls [s] = allDecls [s] := by
  simp [innerDecls, h]

theorem innerDecls_subset (b : Block) : innerDecls b ⊆ allDecls b := by
  refine allDecls_subset fun a ha => ?_
  obtain ⟨s, hs, ha⟩ := mem_blockAtoms.mp ha
  exact mem_blockAtoms.mpr ⟨s, List.mem_of_mem_filter hs, ha⟩

/-- No variable is declared both directly and inside of a statement. -/
theorem not_mem_innerDecls {b : Block} (h : (allDecls b).Nodup) (hv : v ∈ blockDecls b) :
    v ∉ innerDecls b := by
  induction b with
  | nil => simp [blockDecls] at hv
  | cons s b ih =>
    have hsplit : allDecls (s :: b) = allDecls [s] ++ allDecls b := allDecls_append [s] b
    rw [hsplit, List.nodup_append] at h
    have hdisj : ∀ w ∈ allDecls [s], w ∉ allDecls b := fun w hw hw' => h.2.2 w hw w hw' rfl
    rw [← List.singleton_append, blockDecls_append, List.mem_append] at hv
    rw [← List.singleton_append, innerDecls_append, List.mem_append]
    rintro (hin | hin)
    · rcases hv with hv | hv
      · cases hs : s.isControlFlow with
        | true =>
          simp [blockDecls, Stmt.decl?_of_isControlFlow hs] at hv
        | false => simp [innerDecls, hs, allDecls, blockAtoms] at hin
      · exact hdisj v (innerDecls_subset _ hin) (blockDecls_subset _ hv)
    · rcases hv with hv | hv
      · exact hdisj v (blockDecls_subset _ hv) (innerDecls_subset _ hin)
      · exact ih h.2.1 hv hin

/-! ## Functions with plans -/

/-- A function with its plan, and what its derivative is generated for. -/
structure Setting where
  lo : Lowering
  plan : Plan
  rv : Reversal
  withTapes : Bool
  /-- The only tape that can carry active values. -/
  tape : Tape
  valid : lo.func.isValid = true
  tabled : lo.func.Tabled
  closed : Activity.Closed lo.func lo.activity.input withTapes lo.activity.marks
  fine : lo.PlanFine plan
  covers : rv.Covers lo
  base : lo.func.vars.size ≤ rv.base
  apart : ∀ t ∈ blockTapes lo.func.body, t.level ≠ rv.level.val
  single : ∀ t, lo.isActiveTape t = true → t = tape
  kind : tape.kind ≠ .decisions
  headers : ∀ h ∈ stepsHeaders plan.body.2, ∀ t ∈ blockTapes h.1, lo.isActiveTape t = false

namespace Setting

variable (S : Setting)

theorem inScope : blockScoped S.lo.func S.lo.func.params.toFinset S.lo.func.body :=
  S.lo.func.scoped_of_isValid S.valid

/-- All variables of the function are in its table. -/
theorem lt_size (h : v ∈ S.lo.func.params ∨ v ∈ allDecls S.lo.func.body) :
    v.idx < S.lo.func.vars.size := h.elim (S.tabled.params v) (S.tabled.decls v)

theorem definesBelow : DefinesBelow S.lo.func.vars.size S.lo.func.body := by
  intro v decl e ha
  exact S.lt_size ((S.inScope.defined ha).imp_left List.mem_toFinset.mp)

theorem owned_cases (h : S.lo.isOwned v = true) :
    v ∈ S.lo.func.params ∨
      v ∈ blockDecls S.lo.func.body ∧ (S.lo.func.info v).mutable = false := by
  simp only [Lowering.isOwned, Bool.or_eq_true, List.contains_iff_mem, List.any_eq_true] at h
  refine h.imp_right fun ⟨s, hs, hv⟩ => ?_
  split at hv
  · simp only [Bool.and_eq_true, beq_iff_eq, Bool.not_eq_true'] at hv
    obtain ⟨rfl, hm⟩ := hv
    exact ⟨List.mem_filterMap.mpr ⟨_, hs, rfl⟩, hm⟩
  · cases hv

/-- Owned variables can not change. -/
theorem owned_immutable (h : S.lo.isOwned v = true) : (S.lo.func.info v).mutable = false :=
  (S.owned_cases h).elim (S.tabled.immutable v) (·.2)

theorem owned_lt (h : S.lo.isOwned v = true) : v.idx < S.lo.func.vars.size :=
  S.lt_size ((S.owned_cases h).imp_right fun h => blockDecls_subset _ h.1)

/-- What is declared inside of a statement is not owned. -/
theorem not_owned (h : v ∈ innerDecls S.lo.func.body) : S.lo.isOwned v = false := by
  have hnodup := List.nodup_append.mp (S.lo.func.nodup_of_isValid S.valid)
  cases hv : S.lo.isOwned v with
  | false => rfl
  | true =>
    rcases S.owned_cases hv with hp | ⟨hd, -⟩
    · exact absurd rfl (hnodup.2.2 v hp v (innerDecls_subset _ h))
    · exact absurd h (not_mem_innerDecls hnodup.2.1 hd)

/-- Inert code uses no tape that carries active values. -/
theorem inert_tapes {a : Stmt} (ha : a ∈ blockAtoms S.lo.func.body) (hi : S.lo.AtomInert a)
    {t : Tape} (ht : t ∈ a.tapes) : S.lo.isActiveTape t = false := by
  have hatom := S.closed.atoms a ha
  by_contra hact
  rw [Bool.not_eq_false] at hact
  have htape := S.single t hact
  have hkind : t.kind ≠ .decisions := htape ▸ S.kind
  cases a with
  | define dst decl e =>
    cases e with
    | pop u =>
      obtain rfl : t = u := by simpa [Stmt.tapes, Expr.tape?] using ht
      -- The type check makes `dst` a real, so popping makes it active.
      have hty : S.lo.func.varTy dst = .real := S.inScope.typed ha hkind
      have hdst : S.lo.isActive dst = true := by
        obtain ⟨act, hexpr, hmark⟩ := except_bind_eq_ok.mp hatom
        obtain ⟨_, -, hact'⟩ := except_bind_eq_ok.mp hexpr
        have : act = true := by
          rw [← Except.ok.inj hact', hty, show S.lo.activity.marks.isActiveTape t = true from hact]
          simpa using hkind
        subst this
        have hmark : S.lo.activity.marks.mark dst = S.lo.activity.marks := Except.ok.inj hmark
        change S.lo.activity.marks.isActive dst = true
        rw [← hmark, Marks.isActive_mark, if_pos]
        exact ⟨rfl, S.closed.size ▸ S.definesBelow dst decl _ ha⟩
      have hinert : S.lo.isActiveTape t = false := hi hdst
      rw [hinert] at hact
      cases hact
    | topIs u d =>
      obtain rfl : t = u := by simpa [Stmt.tapes, Expr.tape?] using ht
      obtain ⟨act, hexpr, -⟩ := except_bind_eq_ok.mp hatom
      obtain ⟨_, hcheck, -⟩ := except_bind_eq_ok.mp hexpr
      unfold Analysis.checkTape at hcheck
      split at hcheck
      · rename_i hc
        simp only [Bool.and_eq_true, beq_iff_eq] at hc
        exact hkind hc.2
      · cases hcheck
    | const c => simp [Stmt.tapes, Expr.tape?] at ht
    | copy v => simp [Stmt.tapes, Expr.tape?] at ht
    | load obj field => simp [Stmt.tapes, Expr.tape?] at ht
    | op op args => simp [Stmt.tapes, Expr.tape?] at ht
    | call callee args node => simp [Stmt.tapes, Expr.tape?] at ht
  | push u v =>
    obtain rfl : t = u := by simpa [Stmt.tapes] using ht
    have hinert : S.lo.isActiveTape t = false := hi
    rw [hinert] at hact
    cases hact
  | pushDecision u d =>
    obtain rfl : t = u := by simpa [Stmt.tapes] using ht
    obtain ⟨_, hcheck, -⟩ := except_bind_eq_ok.mp hatom
    unfold Analysis.checkTape at hcheck
    split at hcheck
    · rename_i hc
      simp only [Bool.and_eq_true, beq_iff_eq] at hc
      exact hkind hc.2
    · cases hcheck
  | store obj field val => simp [Stmt.tapes] at ht
  | unreachable => simp [Stmt.tapes] at ht
  | ret vals => simp [Stmt.tapes] at ht
  | cond arms other => cases blockAtoms_atomic _ _ ha
  | loop header test body => cases blockAtoms_atomic _ _ ha
  | doLoop body test => cases blockAtoms_atomic _ _ ha
  | block body => cases blockAtoms_atomic _ _ ha

end Setting

/-! ## Steps in their place -/

/-- Steps of the plan that stand in the scope `D`. -/
structure Placed (S : Setting) (D : Finset Var) (ss : List Step) : Prop where
  fine : stepsFine S.lo ss
  inScope : blockScoped S.lo.func D (stepsSource ss)
  atoms : blockAtoms (stepsSource ss) ⊆ blockAtoms S.lo.func.body
  headers : stepsHeaders ss ⊆ stepsHeaders S.plan.body.2
  reads : stepsReads ss ⊆ stepsReads S.plan.body.2
  owned : ∀ v ∈ innerDecls (stepsSource ss), S.lo.isOwned v = false
  nodup : (allDecls (stepsSource ss)).Nodup
  ids : (stepsLoopIds ss).Nodup
  negative : ∀ id ∈ stepsLoopIds ss, id < 0

namespace Placed

variable {S : Setting} {D : Finset Var} {s : Step} {ss : List Step}

theorem call_atom {c : ActiveCall} (h : Placed S D [.call c]) :
    .define c.dst c.decl c.expr ∈ blockAtoms S.lo.func.body :=
  h.atoms (by simp [stepsSource, Step.source, blockAtoms, Stmt.atoms])

/-- All steps, in the scope of the parameters. -/
theorem root (S : Setting) : Placed S S.lo.func.params.toFinset S.plan.body.2 := by
  have hscoped := S.inScope
  rw [S.fine.body, blockScoped_append] at hscoped
  have hnodup := (List.nodup_append.mp (S.lo.func.nodup_of_isValid S.valid)).2.1
  rw [S.fine.body, allDecls_append] at hnodup
  refine ⟨S.fine.fine, hscoped.1, ?_, List.Subset.refl _, List.Subset.refl _, fun v hv => ?_,
    (List.nodup_append.mp hnodup).1, S.fine.ids, S.fine.negative⟩
  · rw [S.fine.body, blockAtoms_append]
    exact List.subset_append_left _ _
  · refine S.not_owned ?_
    rw [S.fine.body, innerDecls_append]
    exact List.mem_append_left _ hv

/-- The steps behind a step. -/
theorem tail (h : Placed S D (s :: ss)) : Placed S (blockScope D s.source) ss := by
  have hscoped := h.inScope
  rw [stepsSource, blockScoped_append] at hscoped
  have hnodup := h.nodup
  rw [stepsSource, allDecls_append] at hnodup
  refine ⟨h.fine.2, hscoped.2, fun a ha => h.atoms ?_, fun x hx => h.headers ?_,
    fun x hx => h.reads ?_, fun v hv => h.owned v ?_, (List.nodup_append.mp hnodup).2.1,
    (List.nodup_append.mp h.ids).2.1, fun id hid => h.negative id ?_⟩
  · rw [stepsSource, blockAtoms_append]; exact List.mem_append_right _ ha
  · exact List.mem_append_right _ hx
  · exact List.mem_append_right _ hx
  · rw [stepsSource, innerDecls_append]; exact List.mem_append_right _ hv
  · exact List.mem_append_right _ hid

/-- A step alone. -/
theorem head (h : Placed S D (s :: ss)) : Placed S D [s] := by
  have hscoped := h.inScope
  rw [stepsSource, blockScoped_append] at hscoped
  have hnodup := h.nodup
  rw [stepsSource, allDecls_append] at hnodup
  refine ⟨⟨h.fine.1, trivial⟩, ?_, fun a ha => h.atoms ?_, fun x hx => h.headers ?_,
    fun x hx => h.reads ?_, fun v hv => h.owned v ?_, ?_, ?_, fun id hid => h.negative id ?_⟩
  · simpa [stepsSource] using hscoped.1
  · rw [stepsSource, blockAtoms_append] at ha ⊢
    exact List.mem_append_left _ (by simpa [stepsSource, blockAtoms] using ha)
  · exact List.mem_append_left _ (by simpa [stepsHeaders] using hx)
  · exact List.mem_append_left _ (by simpa [stepsReads] using hx)
  · rw [stepsSource, innerDecls_append]
    exact List.mem_append_left _ (by simpa [stepsSource] using hv)
  · simpa [stepsSource] using (List.nodup_append.mp hnodup).1
  · simpa [stepsLoopIds] using (List.nodup_append.mp h.ids).1
  · exact List.mem_append_left _ (by simpa [stepsLoopIds] using hid)

/-- Steps inside of a step. -/
theorem inner (h : Placed S D (s :: ss)) {st : Stmt} (hs : s.source = [st])
    (hst : st.isControlFlow = true) {D' : Finset Var} (hfine : stepsFine S.lo steps)
    (hscoped : blockScoped S.lo.func D' (stepsSource steps))
    (hatoms : (blockAtoms (stepsSource steps)).Sublist st.atoms)
    (hheaders : stepsHeaders steps ⊆ s.headers) (hreads : stepsReads steps ⊆ s.reads)
    (hids : (stepsLoopIds steps).Sublist s.loopIds) : Placed S D' steps := by
  have hsource : blockAtoms (stepsSource (s :: ss)) = st.atoms ++ blockAtoms (stepsSource ss) := by
    rw [stepsSource, hs, List.singleton_append, blockAtoms]
  have hdecls : (allDecls (stepsSource steps)).Sublist (allDecls [st]) := by
    have := hatoms.filterMap Stmt.decl?
    simpa [allDecls, blockAtoms] using this
  have hnodup := h.nodup
  rw [stepsSource, hs, allDecls_append] at hnodup
  refine ⟨hfine, hscoped, fun a ha => h.atoms ?_, fun x hx => h.headers ?_,
    fun x hx => h.reads ?_, fun v hv => h.owned v ?_,
    hdecls.nodup (List.nodup_append.mp hnodup).1, hids.nodup (List.nodup_append.mp h.ids).1,
    fun id hid => h.negative id ?_⟩
  · rw [hsource]; exact List.mem_append_left _ (hatoms.subset ha)
  · exact List.mem_append_left _ (hheaders hx)
  · exact List.mem_append_left _ (hreads hx)
  · rw [stepsSource, innerDecls_append, hs, innerDecls_singleton hst]
    exact List.mem_append_left _ (hdecls.subset (innerDecls_subset _ hv))
  · exact List.mem_append_left _ (hids.subset hid)

theorem block (h : Placed S D (.block (decls, steps) :: ss)) : Placed S D steps := by
  refine h.inner rfl rfl h.fine.1.2 h.inScope.1 ?_ ?_ ?_ ?_
  · exact List.Sublist.refl _
  · exact List.Subset.refl _
  · exact List.Subset.refl _
  · exact List.Sublist.refl _

theorem mem_armsHeaders {x : Block × Var} :
    x ∈ armsHeaders arms ↔ ∃ arm ∈ arms, x ∈ stepsHeaders arm.2.2 := by
  induction arms with
  | nil => simp [armsHeaders]
  | cons arm arms ih => simp [armsHeaders, ih]

theorem mem_stepArmsReads : v ∈ stepArmsReads arms ↔ ∃ arm ∈ arms, v ∈ stepsReads arm.2.2 := by
  induction arms with
  | nil => simp [stepArmsReads]
  | cons arm arms ih => simp [stepArmsReads, ih]

theorem sublist_armsLoopIds {arm : Var × List Var × List Step} (h : arm ∈ arms) :
    (stepsLoopIds arm.2.2).Sublist (armsLoopIds arms) := by
  induction arms with
  | nil => cases h
  | cons a arms ih =>
    obtain ⟨test, decls, steps⟩ := a
    rw [armsLoopIds]
    rcases List.mem_cons.mp h with rfl | h
    · exact List.sublist_append_left _ _
    · exact (ih h).trans (List.sublist_append_right _ _)

theorem sublist_armsAtoms {arm : Var × List Var × List Step} (h : arm ∈ arms) :
    (blockAtoms (stepsSource arm.2.2)).Sublist (armsAtoms (armsSource arms)) := by
  induction arms with
  | nil => cases h
  | cons a arms ih =>
    obtain ⟨test, decls, steps⟩ := a
    rw [armsSource, armsAtoms]
    rcases List.mem_cons.mp h with rfl | h
    · exact List.sublist_append_left _ _
    · exact (ih h).trans (List.sublist_append_right _ _)

theorem arm {other : List Var × List Step} (h : Placed S D (.cond arms other :: ss))
    {arm : Var × List Var × List Step} (harm : arm ∈ arms) : Placed S D arm.2.2 := by
  obtain ⟨decls, steps⟩ := other
  have hfine := (armsFine_iff.mp h.fine.1.1 arm harm).2
  have hscoped : blockScoped S.lo.func D (stepsSource arm.2.2) := by
    have := armsScoped_iff.mp h.inScope.1.1 (arm.1, stepsSource arm.2.2)
    rw [armsSource_eq] at this
    exact (this (List.mem_map.mpr ⟨arm, harm, rfl⟩)).2
  refine h.inner rfl rfl hfine hscoped ?_ (fun x hx => ?_) (fun x hx => ?_) ?_
  · exact (sublist_armsAtoms harm).trans (List.sublist_append_left _ _)
  · exact List.mem_append_left _ (mem_armsHeaders.mpr ⟨arm, harm, hx⟩)
  · exact List.mem_append_left _ (mem_stepArmsReads.mpr ⟨arm, harm, hx⟩)
  · exact (sublist_armsLoopIds harm).trans (List.sublist_append_left _ _)

theorem other (h : Placed S D (.cond arms (decls, steps) :: ss)) : Placed S D steps := by
  refine h.inner rfl rfl h.fine.1.2.2 h.inScope.1.2 ?_ ?_ ?_ ?_
  · exact List.sublist_append_right _ _
  · exact List.subset_append_right _ _
  · exact List.subset_append_right _ _
  · exact List.sublist_append_right _ _

theorem branch (h : Placed S D (.cond arms (decls, steps) :: ss)) {sec : List Var × List Step}
    (hsec : sec ∈ arms.map (·.2) ++ [(decls, steps)]) :
    Placed S D sec.2 ∧ sec.1 = S.lo.activeDecls (stepsSource sec.2) ∧
      (blockAtoms (stepsSource sec.2)).Sublist
        (blockAtoms [.cond (armsSource arms) (stepsSource steps)]) ∧
      (stepsLoopIds sec.2).Sublist (Step.cond arms (decls, steps)).loopIds := by
  simp only [blockAtoms, Stmt.atoms, List.append_nil]
  rcases List.mem_append.mp hsec with hmem | hmem
  · obtain ⟨arm, harm, rfl⟩ := List.mem_map.mp hmem
    refine ⟨h.arm harm, (armsFine_iff.mp h.fine.1.1 arm harm).1, ?_, ?_⟩
    · exact (sublist_armsAtoms harm).trans (List.sublist_append_left _ _)
    · exact (sublist_armsLoopIds harm).trans (List.sublist_append_left _ _)
  · obtain rfl := List.mem_singleton.mp hmem
    refine ⟨h.other, h.fine.1.2.1, ?_, ?_⟩
    · exact List.sublist_append_right _ _
    · exact List.sublist_append_right _ _

theorem loop {id : Int} {header : Block} {test : Var}
    (h : Placed S D (.loop id header test (decls, steps) :: ss)) :
    Placed S (blockScope D header) steps := by
  refine h.inner rfl rfl h.fine.1.2.2 h.inScope.1.2.2.2 ?_ ?_ ?_ ?_
  · exact List.sublist_append_right _ _
  · exact List.subset_cons_self _ _
  · exact List.Subset.refl _
  · exact List.sublist_cons_self _ _

end Placed

end Backsweep
