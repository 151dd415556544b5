import Mathlib
import Backsweep.Proofs.Run.Execution
import Backsweep.Syntax.Validity

/-!
# Scopes of valid functions

What a check without violations says about a function.

* `blockScoped`: every variable is in scope where it is read, a declaration
  introduces a variable that is not in scope, and an assignment changes one that
  is in scope and mutable;
* `Func.scoped_of_isValid`: the body of a valid function is scoped;
* `Func.nodup_of_isValid`: no variable of a valid function is declared twice,
  not even in blocks of their own;
* `renameBlock`: a block with its variables replaced.
-/

namespace Backsweep

variable {s : Stmt} {v : Var} {b : Block} {c c' : Checker}
variable {a : Block} {arms : List (Var × Block)} {new all : List Var}

/-! ## Scopes -/

/-- The variable a statement declares, outside of the blocks in it. -/
def Stmt.decl? : Stmt → Option Var
  | .define dst true _ => some dst
  | _ => none

/-- The variables a block declares directly. -/
def blockDecls (b : Block) : List Var := b.filterMap Stmt.decl?

/-- The variables declared anywhere in a block. -/
def allDecls (b : Block) : List Var := (blockAtoms b).filterMap Stmt.decl?

/-- The variables in scope behind a block, those before it being `D`. -/
def blockScope (D : Finset Var) (b : Block) : Finset Var := D ∪ (blockDecls b).toFinset

theorem blockDecls_append (a b : Block) : blockDecls (a ++ b) = blockDecls a ++ blockDecls b :=
  List.filterMap_append

@[simp] theorem blockScope_nil (D : Finset Var) : blockScope D [] = D := by
  simp [blockScope, blockDecls]

theorem blockScope_append (D : Finset Var) (a b : Block) :
    blockScope D (a ++ b) = blockScope (blockScope D a) b := by
  simp [blockScope, blockDecls]

theorem blockScope_cons (D : Finset Var) (s : Stmt) (b : Block) :
    blockScope D (s :: b) = blockScope (blockScope D [s]) b := blockScope_append D [s] b

theorem subset_blockScope (D : Finset Var) (b : Block) : D ⊆ blockScope D b :=
  Finset.subset_union_left

theorem Stmt.decl?_of_isControlFlow (h : s.isControlFlow = true) : s.decl? = none := by
  cases s <;> first | rfl | cases h

/-- A statement that declares nothing does not change the scope. -/
theorem blockScope_same (D : Finset Var) (h : s.decl? = none) : blockScope D [s] = D := by
  simp [blockScope, blockDecls, h]

theorem blockScope_declare (D : Finset Var) (dst : Var) (e : Expr) :
    blockScope D [.define dst true e] = insert dst D := by
  ext v
  simp [blockScope, blockDecls, Stmt.decl?]

theorem blockScope_controlFlow (D : Finset Var) {st : Stmt} (h : st.isControlFlow = true) :
    blockScope D [st] = D :=
  blockScope_same D (Stmt.decl?_of_isControlFlow h)

theorem allDecls_append (a b : Block) : allDecls (a ++ b) = allDecls a ++ allDecls b := by
  simp [allDecls, blockAtoms_append]

theorem mem_allDecls : v ∈ allDecls b ↔ ∃ e, Stmt.define v true e ∈ blockAtoms b := by
  simp only [allDecls, List.mem_filterMap]
  constructor
  · rintro ⟨s, hs, hv⟩
    cases s with
    | define dst decl e =>
      cases decl with
      | true => cases hv; exact ⟨e, hs⟩
      | false => cases hv
    | _ => cases hv
  · rintro ⟨e, he⟩
    exact ⟨_, he, rfl⟩

theorem Expr.mapVars_id (e : Expr) : e.mapVars id = e := by
  cases e <;> simp [Expr.mapVars]

/-- An expression has the type of the variable it defines, as far as values with
derivatives are concerned. -/
def Expr.Typed (f : Func) (dst : Var) : Expr → Prop
  | .copy src => f.varTy src = f.varTy dst
  | .op opcode _ => f.varTy dst = opcode.result
  | .pop t => t.kind ≠ .decisions → f.varTy dst = .real
  | _ => True

mutual

/-- The statement is scoped where the variables `D` are in scope. -/
def Stmt.Scoped (f : Func) (D : Finset Var) : Stmt → Prop
  | .define dst true e => (∀ v ∈ e.uses, v ∈ D) ∧ e.Typed f dst ∧ dst ∉ D
  | .define dst false e =>
    (∀ v ∈ e.uses, v ∈ D) ∧ e.Typed f dst ∧ dst ∈ D ∧ (f.info dst).mutable = true
  | .store obj _ val => obj ∈ D ∧ val ∈ D
  | .cond arms other => armsScoped f D arms ∧ blockScoped f D other
  | .loop header test body => blockScoped f D header ∧ test ∈ blockScope D header ∧
      f.varTy test = .bool ∧ blockScoped f (blockScope D header) body
  | .doLoop body test => blockScoped f D body ∧ test ∈ blockScope D body
  | .block body => blockScoped f D body
  | .push _ val => val ∈ D
  | .pushDecision _ _ => True
  | .unreachable => True
  | .ret vals => ∀ v ∈ vals, v ∈ D

def blockScoped (f : Func) (D : Finset Var) : List Stmt → Prop
  | [] => True
  | s :: ss => s.Scoped f D ∧ blockScoped f (blockScope D [s]) ss

def armsScoped (f : Func) (D : Finset Var) : List (Var × List Stmt) → Prop
  | [] => True
  | (test, body) :: arms => test ∈ D ∧ blockScoped f D body ∧ armsScoped f D arms

end

section
variable {f : Func} {D : Finset Var} {dst : Var} {decl : Bool} {e : Expr}

theorem Stmt.Scoped.uses (hscoped : (Stmt.define dst decl e).Scoped f D) : ∀ v ∈ e.uses, v ∈ D := by
  cases decl with
  | true => exact hscoped.1
  | false => exact hscoped.1

theorem mem_blockScope_define (hscoped : (Stmt.define dst decl e).Scoped f D) :
    dst ∈ blockScope D [.define dst decl e] := by
  cases decl with
  | true => simp [blockScope_declare]
  | false => exact subset_blockScope D _ hscoped.2.2.1

end

theorem blockScoped_append {f : Func} {D : Finset Var} :
    blockScoped f D (a ++ b) ↔ blockScoped f D a ∧ blockScoped f (blockScope D a) b := by
  induction a generalizing D with
  | nil => simp [blockScoped]
  | cons s a ih => simp [blockScoped, ih, and_assoc, ← blockScope_cons]

theorem armsScoped_iff {f : Func} {D : Finset Var} :
    armsScoped f D arms ↔ ∀ arm ∈ arms, arm.1 ∈ D ∧ blockScoped f D arm.2 := by
  induction arms with
  | nil => simp [armsScoped]
  | cons arm arms ih => simp [armsScoped, ih, and_assoc]

theorem blockDecls_subset (b : Block) : blockDecls b ⊆ allDecls b := by
  intro v hv
  obtain ⟨s, hs, hd⟩ := List.mem_filterMap.mp hv
  refine List.mem_filterMap.mpr ⟨s, mem_blockAtoms.mpr ⟨s, hs, ?_⟩, hd⟩
  rw [Stmt.atoms_of_not_controlFlow (by cases s <;> first | rfl | cases hd)]
  simp

theorem allDecls_subset (h : blockAtoms a ⊆ blockAtoms b) : allDecls a ⊆ allDecls b := by
  intro v hv
  obtain ⟨s, hs, hd⟩ := List.mem_filterMap.mp hv
  exact List.mem_filterMap.mpr ⟨s, h hs, hd⟩

/-- A scope between what is in scope before a block and that with all it declares. -/
def ScopeWithin (D : Finset Var) (b : Block) (D' : Finset Var) : Prop :=
  D ⊆ D' ∧ ∀ v ∈ D', v ∈ D ∨ v ∈ allDecls b

theorem ScopeWithin.refl (D : Finset Var) (b : Block) : ScopeWithin D b D :=
  ⟨Finset.Subset.refl D, fun _ hv => .inl hv⟩

/-- Behind the block `a`, inside of a block that contains `a` and `c`. -/
theorem ScopeWithin.behind {D D' : Finset Var} {c : Block} (ha : blockAtoms a ⊆ blockAtoms b)
    (hc : blockAtoms c ⊆ blockAtoms b) (h : ScopeWithin (blockScope D a) c D') :
    ScopeWithin D b D' := by
  refine ⟨(subset_blockScope D a).trans h.1, fun v hv => ?_⟩
  rcases h.2 v hv with hv | hv
  · rw [blockScope, Finset.mem_union, List.mem_toFinset] at hv
    exact hv.imp_right fun hv => allDecls_subset ha (blockDecls_subset a hv)
  · exact .inr (allDecls_subset hc hv)

theorem ScopeWithin.inner {D D' : Finset Var} {c : Block} (hc : blockAtoms c ⊆ blockAtoms b)
    (h : ScopeWithin D c D') : ScopeWithin D b D' :=
  ⟨h.1, fun v hv => (h.2 v hv).imp_right fun hv => allDecls_subset hc hv⟩

/-- An atomic statement of a scoped block is scoped where it stands. -/
theorem blockScoped.atom {f : Func} {D : Finset Var} (h : blockScoped f D b) {a : Stmt}
    (ha : a ∈ blockAtoms b) : ∃ D', ScopeWithin D b D' ∧ a.Scoped f D' := by
  have later {D : Finset Var} {s : Stmt} {ss : Block}
      (h : ∃ D', ScopeWithin (blockScope D [s]) ss D' ∧ a.Scoped f D') :
      ∃ D', ScopeWithin D (s :: ss) D' ∧ a.Scoped f D' := by
    obtain ⟨D', hD, hs⟩ := h
    exact ⟨D', hD.behind (by simp [blockAtoms]) (by simp [blockAtoms]), hs⟩
  induction b using blockInduction generalizing D with
  | nil => simp [blockAtoms] at ha
  | atom s ss hs ih =>
    simp only [blockAtoms, Stmt.atoms_of_not_controlFlow hs, List.mem_append,
      List.mem_singleton] at ha
    rcases ha with rfl | ha
    · exact ⟨D, .refl D _, h.1⟩
    · exact later (ih h.2 ha)
  | cond arms other ss iha iho ih =>
    obtain ⟨⟨harms, hother⟩, hss⟩ := h
    rw [armsScoped_iff] at harms
    simp only [blockAtoms, Stmt.atoms, List.mem_append, mem_armsAtoms] at ha
    rcases ha with (⟨arm, harm, ha⟩ | ha) | ha
    · obtain ⟨D', hD, hs⟩ := iha arm harm (harms arm harm).2 ha
      refine ⟨D', hD.inner fun x hx => ?_, hs⟩
      simp only [blockAtoms, Stmt.atoms, List.mem_append, mem_armsAtoms]
      exact .inl (.inl ⟨arm, harm, hx⟩)
    · obtain ⟨D', hD, hs⟩ := iho hother ha
      exact ⟨D', hD.inner fun x hx => by simp [blockAtoms, Stmt.atoms, hx], hs⟩
    · exact later (ih hss ha)
  | loop header test body ss ihh ihb ih =>
    obtain ⟨⟨hh, -, -, hb⟩, hss⟩ := h
    simp only [blockAtoms, Stmt.atoms, List.mem_append] at ha
    rcases ha with (ha | ha) | ha
    · obtain ⟨D', hD, hs⟩ := ihh hh ha
      exact ⟨D', hD.inner fun x hx => by simp [blockAtoms, Stmt.atoms, hx], hs⟩
    · obtain ⟨D', hD, hs⟩ := ihb hb ha
      exact ⟨D', hD.behind (fun x hx => by simp [blockAtoms, Stmt.atoms, hx])
        (fun x hx => by simp [blockAtoms, Stmt.atoms, hx]), hs⟩
    · exact later (ih hss ha)
  | doLoop body test ss ihb ih =>
    obtain ⟨⟨hb, -⟩, hss⟩ := h
    simp only [blockAtoms, Stmt.atoms, List.mem_append] at ha
    rcases ha with ha | ha
    · obtain ⟨D', hD, hs⟩ := ihb hb ha
      exact ⟨D', hD.inner fun x hx => by simp [blockAtoms, Stmt.atoms, hx], hs⟩
    · exact later (ih hss ha)
  | block body ss ihb ih =>
    simp only [blockAtoms, Stmt.atoms, List.mem_append] at ha
    rcases ha with ha | ha
    · obtain ⟨D', hD, hs⟩ := ihb h.1 ha
      exact ⟨D', hD.inner fun x hx => by simp [blockAtoms, Stmt.atoms, hx], hs⟩
    · exact later (ih h.2 ha)

/-- A variable is defined where it is in scope, or where it is declared. -/
theorem blockScoped.defined {f : Func} {D : Finset Var} (h : blockScoped f D b) {decl : Bool}
    {e : Expr} (ha : Stmt.define v decl e ∈ blockAtoms b) : v ∈ D ∨ v ∈ allDecls b := by
  obtain ⟨D', hD, hs⟩ := h.atom ha
  cases decl with
  | true => exact .inr (mem_allDecls.mpr ⟨e, ha⟩)
  | false => exact hD.2 v hs.2.2.1

/-- What is in scope is not declared again. -/
theorem blockScoped.not_declared {f : Func} {D : Finset Var} (h : blockScoped f D b) (hv : v ∈ D)
    (e : Expr) : Stmt.define v true e ∉ blockAtoms b := by
  intro ha
  obtain ⟨D', hD, hs⟩ := h.atom ha
  exact hs.2.2 (hD.1 hv)

/-- What is in scope and can not change is not defined. -/
theorem blockScoped.not_defined {f : Func} {D : Finset Var} (h : blockScoped f D b) (hv : v ∈ D)
    (hm : (f.info v).mutable = false) (decl : Bool) (e : Expr) :
    Stmt.define v decl e ∉ blockAtoms b := by
  intro ha
  cases decl with
  | true => exact h.not_declared hv e ha
  | false =>
    obtain ⟨D', -, hs⟩ := h.atom ha
    rw [hs.2.2.2] at hm
    cases hm

theorem blockScoped.typed {f : Func} {D : Finset Var} (h : blockScoped f D b) {dst : Var}
    {decl : Bool} {e : Expr} (ha : Stmt.define dst decl e ∈ blockAtoms b) : e.Typed f dst := by
  obtain ⟨D', -, hs⟩ := h.atom ha
  cases decl with
  | true => exact hs.2.1
  | false => exact hs.2.1

/-! ## Checks -/

namespace Checker

/-- Two states of a check that differ in their violations only. -/
structure SameScope (c c' : Checker) : Prop where
  declared : c'.declared = c.declared
  inScope : c'.inScope = c.inScope
  frame : c'.frame = c.frame

theorem SameScope.refl (c : Checker) : SameScope c c := ⟨rfl, rfl, rfl⟩

theorem SameScope.trans {a b : Checker} (h : SameScope a b) (h' : SameScope b c) : SameScope a c :=
  ⟨h'.declared.trans h.declared, h'.inScope.trans h.inScope, h'.frame.trans h.frame⟩

variable {f : Func}

theorem require_scope (c : Checker) (ok : Bool) (v : Violation) :
    SameScope c (c.require ok v) := by
  unfold require
  split
  · exact .refl c
  · exact ⟨rfl, rfl, rfl⟩

theorem require_passes {ok : Bool} {v : Violation} :
    (c.require ok v).violations = [] ↔ c.violations = [] ∧ ok = true := by
  unfold require
  cases ok <;> simp [report]

theorem useVar_passes : (c.useVar f v).violations = [] ↔ c.violations = [] ∧ v ∈ c.inScope := by
  simp [useVar, require_passes]

theorem expectTy_passes {ty : Ty} :
    (c.expectTy f v ty).violations = [] ↔ c.violations = [] ∧ f.varTy v = ty := by
  simp [expectTy, require_passes]

theorem useAt_scope (c : Checker) (v : Var) (ty : Ty) : SameScope c (c.useAt f v ty) :=
  (require_scope _ _ _).trans (require_scope _ _ _)

theorem useAt_passes {ty : Ty} :
    (c.useAt f v ty).violations = [] ↔ c.violations = [] ∧ v ∈ c.inScope ∧ f.varTy v = ty := by
  simp [useAt, expectTy_passes, useVar_passes, and_assoc]

theorem useAll_scope (c : Checker) (vs : List Var) : SameScope c (c.useAll f vs) := by
  induction vs generalizing c with
  | nil => exact .refl c
  | cons v vs ih => exact (require_scope _ _ _).trans (ih _)

theorem useAll_passes {vs : List Var} :
    (c.useAll f vs).violations = [] ↔ c.violations = [] ∧ ∀ v ∈ vs, v ∈ c.inScope := by
  induction vs generalizing c with
  | nil => simp [useAll]
  | cons v vs ih =>
    change ((c.useVar f v).useAll f vs).violations = [] ↔ _
    have hscope : (c.useVar f v).inScope = c.inScope := (require_scope _ _ _).inScope
    rw [ih, useVar_passes, hscope]
    simp [and_assoc]

theorem useAllAt_scope (c : Checker) (vs : List Var) (tys : List Ty) :
    SameScope c (c.useAllAt f vs tys) := by
  unfold useAllAt
  generalize vs.zip tys = uses
  induction uses generalizing c with
  | nil => exact .refl c
  | cons u us ih => exact (useAt_scope _ _ _).trans (ih _)

/-- Uses at as many types as there are variables reach all variables. -/
theorem useAllAt_passes {vs : List Var} {tys : List Ty} (h : (c.useAllAt f vs tys).violations = []) :
    c.violations = [] ∧ (vs.length = tys.length → ∀ v ∈ vs, v ∈ c.inScope) := by
  induction vs generalizing c tys with
  | nil => exact ⟨h, by simp⟩
  | cons v vs ih =>
    cases tys with
    | nil => exact ⟨h, fun hl => by cases hl⟩
    | cons ty tys =>
      obtain ⟨hc, hvs⟩ := ih (c := c.useAt f v ty) h
      rw [(useAt_scope c v ty).inScope] at hvs
      obtain ⟨hc, hv, -⟩ := useAt_passes.mp hc
      exact ⟨hc, fun hl => by simpa using ⟨hv, hvs (by simpa using hl)⟩⟩

theorem expr_scope (c : Checker) (dst : Var) (e : Expr) : SameScope c (c.expr f dst e) := by
  cases e with
  | const k => exact require_scope _ _ _
  | copy src => exact useAt_scope _ _ _
  | load obj field => exact useAt_scope _ _ _
  | op opcode args =>
    exact ((require_scope _ _ _).trans (useAllAt_scope _ _ _)).trans (require_scope _ _ _)
  | call callee args node => exact useAll_scope _ _
  | pop t => exact require_scope _ _ _
  | topIs t d => exact (require_scope _ _ _).trans (require_scope _ _ _)

theorem expr_passes {dst : Var} {e : Expr} (h : (c.expr f dst e).violations = []) :
    c.violations = [] ∧ (∀ v ∈ e.uses, v ∈ c.inScope) ∧ e.Typed f dst := by
  cases e with
  | const k => exact ⟨(expectTy_passes.mp h).1, by simp [Expr.uses], trivial⟩
  | copy src =>
    obtain ⟨hc, hv, hty⟩ := useAt_passes.mp h
    exact ⟨hc, by simpa [Expr.uses] using hv, hty⟩
  | load obj field =>
    obtain ⟨hc, hv, -⟩ := useAt_passes.mp h
    exact ⟨hc, by simpa [Expr.uses] using hv, trivial⟩
  | op opcode args =>
    obtain ⟨h, hty⟩ := expectTy_passes.mp h
    obtain ⟨hr, hvs⟩ := useAllAt_passes h
    obtain ⟨hc, hl⟩ := require_passes.mp hr
    rw [(require_scope _ _ _).inScope] at hvs
    exact ⟨hc, hvs (by simpa [Opcode.arity] using hl), hty⟩
  | call callee args node =>
    obtain ⟨hc, hvs⟩ := useAll_passes.mp h
    exact ⟨hc, hvs, trivial⟩
  | pop t =>
    obtain ⟨hc, hty⟩ := expectTy_passes.mp h
    exact ⟨hc, by simp [Expr.uses], fun hk => by simpa [hk] using hty⟩
  | topIs t d =>
    exact ⟨(require_passes.mp (expectTy_passes.mp h).1).1, by simp [Expr.uses], trivial⟩

/-- What is in scope was declared. -/
def Sane (c : Checker) : Prop := c.inScope ⊆ c.declared

/-- A part of a check that reports nothing, declares `all` and leaves `new` of
them in scope. -/
structure Declares (c c' : Checker) (new all : List Var) : Prop where
  before : c.violations = []
  inScope : c'.inScope = new.reverse ++ c.inScope
  frame : c'.frame = new.reverse ++ c.frame
  declared : c'.declared = all.reverse ++ c.declared
  subset : new ⊆ all
  fresh : ∀ v ∈ all, v ∉ c.declared
  nodup : all.Nodup

theorem Declares.sane (h : Declares c c' new all) (hc : c.Sane) : c'.Sane := by
  unfold Sane
  rw [h.inScope, h.declared]
  intro v hv
  simp only [List.mem_append, List.mem_reverse] at hv ⊢
  rcases hv with hv | hv
  · exact .inl (h.subset hv)
  · exact .inr (hc hv)

theorem Declares.append {c'' : Checker} {new' all' : List Var} (h : Declares c c' new all)
    (h' : Declares c' c'' new' all') : Declares c c'' (new ++ new') (all ++ all') where
  before := h.before
  inScope := by simp [h'.inScope, h.inScope]
  frame := by simp [h'.frame, h.frame]
  declared := by simp [h'.declared, h.declared]
  subset := by
    intro v hv
    rcases List.mem_append.mp hv with hv | hv
    · exact List.mem_append_left _ (h.subset hv)
    · exact List.mem_append_right _ (h'.subset hv)
  fresh := by
    intro v hv
    rcases List.mem_append.mp hv with hv | hv
    · exact h.fresh v hv
    · have hn := h'.fresh v hv
      rw [h.declared] at hn
      exact fun hd => hn (by simp [hd])
  nodup := by
    rw [List.nodup_append]
    refine ⟨h.nodup, h'.nodup, fun v hv w hw hvw => ?_⟩
    subst hvw
    have hn := h'.fresh v hw
    rw [h.declared] at hn
    exact hn (by simp [hv])

theorem SameScope.declares (h : SameScope c c') (hc : c.violations = []) : Declares c c' [] [] :=
  ⟨hc, h.inScope, h.frame, h.declared, List.Subset.refl _, by simp, List.nodup_nil⟩

theorem declare_passes (h : (c.declare f v).violations = []) :
    Declares c (c.declare f v) [v] [v] := by
  have hscope := require_scope c (!c.declared.contains v) (.redeclared (f.varName v))
  obtain ⟨hc, hv⟩ := require_passes.mp
    (show (c.require (!c.declared.contains v) (.redeclared (f.varName v))).violations = [] from h)
  refine ⟨hc, ?_, ?_, ?_, List.Subset.refl _, by simpa using hv, List.nodup_singleton v⟩
  · simpa [declare] using hscope.inScope
  · simpa [declare] using hscope.frame
  · simpa [declare] using hscope.declared

/-- What a block declares goes out of scope at its end. -/
theorem Declares.inBlock {check : Checker → Checker}
    (h : Declares { c with frame := [] } (check { c with frame := [] }) new all) (hc : c.Sane) :
    Declares c (c.inBlock check) [] all where
  before := h.before
  inScope := by
    have hout : ∀ v ∈ c.inScope, v ∉ new := fun v hv hn => h.fresh v (h.subset hn) (hc hv)
    simp only [Checker.inBlock, h.inScope, h.frame, List.append_nil, List.reverse_nil,
      List.nil_append, List.filter_append]
    have hnew : new.reverse.filter (fun v => !new.reverse.contains v) = [] := by
      rw [List.filter_eq_nil_iff]
      intro v hv
      simpa using hv
    have hold : c.inScope.filter (fun v => !new.reverse.contains v) = c.inScope := by
      rw [List.filter_eq_self]
      intro v hv
      simpa using hout v hv
    rw [hnew, hold, List.nil_append]
  frame := rfl
  declared := h.declared
  subset := by simp
  fresh := h.fresh
  nodup := h.nodup

/-! Violations stay once they are reported. -/

theorem inBlock_violations {check : Checker → Checker}
    (hcheck : ∀ c, (check c).violations = [] → c.violations = [])
    (h : (c.inBlock check).violations = []) : c.violations = [] :=
  hcheck { c with frame := [] } h

theorem arms_violations
    (ih : ∀ arm ∈ arms, ∀ c, (stmts f arm.2 c).violations = [] → c.violations = [])
    (h : (Checker.arms f arms c).violations = []) : c.violations = [] := by
  induction arms generalizing c with
  | nil => exact h
  | cons arm arms iha =>
    have hrest := iha (fun a ha => ih a (by simp [ha])) h
    exact (useAt_passes.mp (inBlock_violations (ih arm (by simp)) hrest)).1

theorem stmts_violations (h : (stmts f b c).violations = []) : c.violations = [] := by
  induction b using blockInduction generalizing c with
  | nil => exact h
  | atom s ss hs ih =>
    have h := ih h
    cases s, hs using Stmt.atomCases with
    | define dst decl e =>
      cases decl with
      | true => exact (expr_passes (declare_passes h).before).1
      | false => exact (expr_passes (useVar_passes.mp (require_passes.mp h).1).1).1
    | store obj field val => exact (useAt_passes.mp (useVar_passes.mp h).1).1
    | push t val => exact (require_passes.mp (useAt_passes.mp h).1).1
    | pushDecision t d => exact (require_passes.mp h).1
    | unreachable => exact h
    | ret vals => exact (require_passes.mp (useAllAt_passes h).1).1
  | cond arms other ss iha iho ih =>
    have hother := inBlock_violations (fun _ => iho) (ih h)
    exact arms_violations (fun arm harm c => iha arm harm) hother
  | loop header test body ss ihh ihb ih =>
    have hloop : (c.inBlock fun c =>
        ((stmts f header c).useAt f test .bool).inBlock (stmts f body)).violations = [] := ih h
    refine inBlock_violations (fun c hc => ?_) hloop
    have htest := inBlock_violations (fun _ => ihb) hc
    exact ihh (useAt_passes.mp htest).1
  | doLoop body test ss ihb ih =>
    exact inBlock_violations (fun c hc => ihb (useAt_passes.mp hc).1) (ih h)
  | block body ss ihb ih => exact inBlock_violations (fun _ => ihb) (ih h)

/-! A check that reports nothing. -/

theorem armsAtoms_decls (arms : List (Var × Block)) :
    (armsAtoms arms).filterMap Stmt.decl? = arms.flatMap fun arm => allDecls arm.2 := by
  rw [armsAtoms_eq, List.filterMap_flatMap]
  rfl

theorem arms_passes (ih : ∀ arm ∈ arms, ∀ c : Checker, c.Sane → (stmts f arm.2 c).violations = [] →
      Declares c (stmts f arm.2 c) (blockDecls arm.2) (allDecls arm.2) ∧
        blockScoped f c.inScope.toFinset arm.2) (hc : c.Sane)
    (h : (Checker.arms f arms c).violations = []) :
    Declares c (Checker.arms f arms c) [] (arms.flatMap fun arm => allDecls arm.2) ∧
      armsScoped f c.inScope.toFinset arms := by
  induction arms generalizing c with
  | nil => exact ⟨(SameScope.refl c).declares h, trivial⟩
  | cons arm arms iha =>
    obtain ⟨test, body⟩ := arm
    change (Checker.arms f arms ((c.useAt f test .bool).inBlock (stmts f body))).violations = [] at h
    have hbody := arms_violations (fun a _ c => stmts_violations) h
    have htest := useAt_passes.mp (inBlock_violations (fun c => stmts_violations) hbody)
    have hsame := useAt_scope (f := f) c test .bool
    have huse := hsame.declares htest.1
    have hsane := huse.sane hc
    obtain ⟨hdecl, hscoped⟩ := ih (test, body) (by simp) { c.useAt f test .bool with frame := [] }
      hsane hbody
    have hblock := hdecl.inBlock hsane
    obtain ⟨hrest, hrestScoped⟩ := iha (fun a ha => ih a (by simp [ha])) (hblock.sane hsane) h
    refine ⟨(huse.append (hblock.append hrest)), ?_, ?_, ?_⟩
    · simpa using htest.2.1
    · simpa [hsame.inScope] using hscoped
    · simpa [hblock.inScope, hsame.inScope] using hrestScoped

/-- A statement and the statements behind it. -/
theorem cons_passes {ss : Block} (hc : c.Sane)
    (hs : Declares c (stmt f s c) (blockDecls [s]) (allDecls [s]))
    (hscoped : s.Scoped f c.inScope.toFinset)
    (ih : (stmt f s c).Sane → Declares (stmt f s c) c' (blockDecls ss) (allDecls ss) ∧
      blockScoped f (stmt f s c).inScope.toFinset ss) :
    Declares c c' (blockDecls (s :: ss)) (allDecls (s :: ss)) ∧
      blockScoped f c.inScope.toFinset (s :: ss) := by
  obtain ⟨hss, hssScoped⟩ := ih (hs.sane hc)
  have hdecls : blockDecls (s :: ss) = blockDecls [s] ++ blockDecls ss := blockDecls_append [s] ss
  have hall : allDecls (s :: ss) = allDecls [s] ++ allDecls ss := allDecls_append [s] ss
  refine ⟨hdecls ▸ hall ▸ hs.append hss, hscoped, ?_⟩
  rw [hs.inScope] at hssScoped
  simpa [blockScope, Finset.union_comm] using hssScoped

theorem atom_passes (hs : s.isControlFlow = false) (hc' : c.Sane) (h : (stmt f s c).violations = []) :
    Declares c (stmt f s c) (blockDecls [s]) (allDecls [s]) ∧ s.Scoped f c.inScope.toFinset := by
  cases s, hs using Stmt.atomCases with
  | define dst decl e =>
    have hexpr := expr_scope (f := f) c dst e
    cases decl with
    | true =>
      have hdecl := declare_passes (c := c.expr f dst e) h
      obtain ⟨hc, huses, hty⟩ := expr_passes hdecl.before
      refine ⟨(hexpr.declares hc).append hdecl, by simpa using huses, hty, ?_⟩
      have hd := hdecl.fresh dst (by simp)
      rw [hexpr.declared] at hd
      simpa using fun hin => hd (hc' hin)
    | false =>
      obtain ⟨hu, hm⟩ := require_passes.mp h
      obtain ⟨he, hd⟩ := useVar_passes.mp hu
      obtain ⟨hc, huses, hty⟩ := expr_passes he
      refine ⟨((hexpr.trans (require_scope _ _ _)).trans (require_scope _ _ _)).declares hc,
        by simpa using huses, hty, ?_, hm⟩
      simpa [hexpr.inScope] using hd
  | store obj field val =>
    obtain ⟨ho, hv⟩ := useVar_passes.mp h
    obtain ⟨hc, hobj, -⟩ := useAt_passes.mp ho
    rw [(useAt_scope c obj .obj).inScope] at hv
    exact ⟨((useAt_scope _ _ _).trans (require_scope _ _ _)).declares hc, by simpa using hobj,
      by simpa using hv⟩
  | push t val =>
    obtain ⟨hr, hv, -⟩ := useAt_passes.mp h
    rw [(require_scope _ _ _).inScope] at hv
    exact ⟨((require_scope _ _ _).trans (useAt_scope _ _ _)).declares (require_passes.mp hr).1,
      by simpa [Stmt.Scoped] using hv⟩
  | pushDecision t d =>
    exact ⟨(require_scope _ _ _).declares (require_passes.mp h).1, trivial⟩
  | unreachable => exact ⟨(SameScope.refl c).declares h, trivial⟩
  | ret vals =>
    obtain ⟨hr, hvs⟩ := useAllAt_passes h
    obtain ⟨hc, hl⟩ := require_passes.mp hr
    rw [(require_scope _ _ _).inScope] at hvs
    exact ⟨((require_scope _ _ _).trans (useAllAt_scope _ _ _)).declares hc,
      by simpa [Stmt.Scoped] using hvs (by simpa using hl)⟩

theorem stmts_passes (hc : c.Sane) (h : (stmts f b c).violations = []) :
    Declares c (stmts f b c) (blockDecls b) (allDecls b) ∧
      blockScoped f c.inScope.toFinset b := by
  induction b using blockInduction generalizing c with
  | nil => exact ⟨(SameScope.refl c).declares h, trivial⟩
  | atom s ss hs ih =>
    obtain ⟨hdecl, hscoped⟩ := atom_passes hs hc (stmts_violations h)
    exact cons_passes hc hdecl hscoped fun hsane => ih hsane h
  | cond arms other ss iha iho ih =>
    have hother : ((Checker.arms f arms c).inBlock (stmts f other)).violations = [] :=
      stmts_violations h
    have harms := inBlock_violations (fun c => stmts_violations) hother
    obtain ⟨hdecl, hscoped⟩ := arms_passes (fun arm harm c hc h => iha arm harm hc h) hc harms
    have hsane := hdecl.sane hc
    obtain ⟨hodecl, hoscoped⟩ := iho (c := { Checker.arms f arms c with frame := [] }) hsane hother
    have hall : allDecls [.cond arms other] =
        (arms.flatMap fun arm => allDecls arm.2) ++ allDecls other := by
      simp [allDecls, blockAtoms, Stmt.atoms, armsAtoms_decls]
    refine cons_passes hc ?_ ⟨hscoped, ?_⟩ fun hsane => ih hsane h
    · rw [hall]
      exact hdecl.append (hodecl.inBlock hsane)
    · simpa [hdecl.inScope] using hoscoped
  | loop header test body ss ihh ihb ih =>
    have hloop : (c.inBlock fun c =>
        ((stmts f header c).useAt f test .bool).inBlock (stmts f body)).violations = [] :=
      stmts_violations h
    have htest := inBlock_violations (fun c => stmts_violations)
      (show (((stmts f header { c with frame := [] }).useAt f test .bool).inBlock
        (stmts f body)).violations = [] from hloop)
    have hsame := useAt_scope (f := f) (stmts f header { c with frame := [] }) test .bool
    obtain ⟨hv, htin, hty⟩ := useAt_passes.mp htest
    obtain ⟨hdecl, hscoped⟩ := ihh (c := { c with frame := [] }) hc hv
    have hheader := hdecl.append (hsame.declares hv)
    have hsane := hheader.sane (c := { c with frame := [] }) hc
    obtain ⟨hbdecl, hbscoped⟩ := ihb
      (c := { (stmts f header { c with frame := [] }).useAt f test .bool with frame := [] })
      hsane hloop
    refine cons_passes hc ?_ ⟨hscoped, ?_, hty, ?_⟩ fun hsane => ih hsane h
    · have hall : allDecls [.loop header test body] = allDecls header ++ [] ++ allDecls body := by
        simp [allDecls, blockAtoms, Stmt.atoms]
      rw [hall]
      change Declares c (c.inBlock fun c =>
        ((stmts f header c).useAt f test .bool).inBlock (stmts f body)) _ _
      apply Declares.inBlock _ hc
      · exact blockDecls header
      · simpa using hheader.append (hbdecl.inBlock hsane)
    · simpa [hdecl.inScope, blockScope, or_comm] using htin
    · simpa [hsame.inScope, hdecl.inScope, blockScope, Finset.union_comm] using hbscoped
  | doLoop body test ss ihb ih =>
    have hloop : (stmt f (.doLoop body test) c).violations = [] := stmts_violations h
    have htest : ((stmts f body { c with frame := [] }).useAt f test .bool).violations = [] := hloop
    have hsame := useAt_scope (f := f) (stmts f body { c with frame := [] }) test .bool
    obtain ⟨hv, htin, -⟩ := useAt_passes.mp htest
    obtain ⟨hdecl, hscoped⟩ := ihb (c := { c with frame := [] }) hc hv
    refine cons_passes hc ?_ ⟨hscoped, ?_⟩ fun hsane => ih hsane h
    · have hall : allDecls [.doLoop body test] = allDecls body ++ [] := by
        simp [allDecls, blockAtoms, Stmt.atoms]
      rw [hall]
      change Declares c (c.inBlock fun c => (stmts f body c).useAt f test .bool) _ _
      apply Declares.inBlock _ hc
      · exact blockDecls body
      · simpa using hdecl.append (hsame.declares hv)
    · simpa [hdecl.inScope, blockScope, or_comm] using htin
  | block body ss ihb ih =>
    have hblock : (stmt f (.block body) c).violations = [] := stmts_violations h
    have hbody : (stmts f body { c with frame := [] }).violations = [] := hblock
    obtain ⟨hdecl, hscoped⟩ := ihb (c := { c with frame := [] }) hc hbody
    refine cons_passes hc ?_ hscoped fun hsane => ih hsane h
    have hall : allDecls [.block body] = allDecls body := by
      simp [allDecls, blockAtoms, Stmt.atoms]
    rw [hall]
    exact hdecl.inBlock hc

theorem params_passes {ps : List Var} (h : (ps.foldl (·.declare f ·) c).violations = []) :
    Declares c (ps.foldl (·.declare f ·) c) ps ps := by
  induction ps generalizing c with
  | nil => exact (SameScope.refl c).declares h
  | cons p ps ih =>
    have hrest := ih (c := c.declare f p) h
    exact (declare_passes hrest.before).append hrest

end Checker

namespace Func

variable {f : Func}

theorem checked_of_isValid (h : f.isValid = true) :
    f.params.Nodup ∧ (allDecls f.body).Nodup ∧ (∀ v ∈ allDecls f.body, v ∉ f.params) ∧
      blockScoped f f.params.toFinset f.body := by
  have hv : ((f.params.foldl (·.declare f ·) ({} : Checker)).inBlock
      (Checker.stmts f f.body)).violations = [] := by
    simpa [isValid, violations] using h
  have hp := Checker.params_passes (Checker.inBlock_violations
    (fun c => Checker.stmts_violations) hv)
  generalize f.params.foldl (·.declare f ·) ({} : Checker) = c at hv hp
  have hsane : c.Sane := hp.sane (by simp [Checker.Sane])
  obtain ⟨hb, hscoped⟩ := Checker.stmts_passes (c := { c with frame := [] }) hsane hv
  refine ⟨hp.nodup, hb.nodup, fun v hv hin => ?_, ?_⟩
  · refine hb.fresh v hv ?_
    simpa [hp.declared] using hin
  · simpa [hp.inScope] using hscoped

/-- The body of a valid function is scoped. -/
theorem scoped_of_isValid (h : f.isValid = true) : blockScoped f f.params.toFinset f.body :=
  (checked_of_isValid h).2.2.2

/-- No variable of a valid function is declared twice. -/
theorem nodup_of_isValid (h : f.isValid = true) : (f.params ++ allDecls f.body).Nodup := by
  obtain ⟨hp, hd, hdp, -⟩ := checked_of_isValid h
  exact List.nodup_append.mpr ⟨hp, hd, fun v hv w hw hvw => hdp w hw (hvw ▸ hv)⟩

end Func

/-! ## Replacing variables -/

mutual

/-- The statement with every variable replaced. -/
def Stmt.rename (σ : Var → Var) : Stmt → Stmt
  | .define dst decl e => .define (σ dst) decl (e.mapVars σ)
  | .store obj field val => .store (σ obj) field (σ val)
  | .cond arms other => .cond (renameArms σ arms) (renameBlock σ other)
  | .loop header test body => .loop (renameBlock σ header) (σ test) (renameBlock σ body)
  | .doLoop body test => .doLoop (renameBlock σ body) (σ test)
  | .block body => .block (renameBlock σ body)
  | .push t val => .push t (σ val)
  | .pushDecision t d => .pushDecision t d
  | .unreachable => .unreachable
  | .ret vals => .ret (vals.map σ)

def renameBlock (σ : Var → Var) : List Stmt → List Stmt
  | [] => []
  | s :: ss => s.rename σ :: renameBlock σ ss

def renameArms (σ : Var → Var) : List (Var × List Stmt) → List (Var × List Stmt)
  | [] => []
  | (test, body) :: arms => (σ test, renameBlock σ body) :: renameArms σ arms

end

theorem renameArms_eq (σ : Var → Var) (arms : List (Var × Block)) :
    renameArms σ arms = arms.map fun arm => (σ arm.1, renameBlock σ arm.2) := by
  induction arms with
  | nil => rfl
  | cons arm arms ih => simp [renameArms, ih]

theorem Stmt.rename_id (hs : s.isControlFlow = false) : s.rename id = s := by
  cases s, hs using Stmt.atomCases with
  | define dst decl e => simp [Stmt.rename, e.mapVars_id]
  | ret vals => simp [Stmt.rename]
  | _ => rfl

theorem renameBlock_id (b : Block) : renameBlock id b = b := by
  induction b using blockInduction with
  | nil => rfl
  | atom s ss hs ih =>
    rw [renameBlock, Stmt.rename_id hs, ih]
  | cond arms other ss iha iho ih =>
    have harms : renameArms id arms = arms := by
      rw [renameArms_eq]
      calc arms.map (fun arm => (arm.1, renameBlock id arm.2))
          = arms.map id := List.map_congr_left fun arm harm => Prod.ext rfl (iha arm harm)
        _ = arms := List.map_id arms
    rw [renameBlock, Stmt.rename, harms, iho, ih]
  | loop header test body ss ihh ihb ih => rw [renameBlock, Stmt.rename, ihh, ihb, ih]; rfl
  | doLoop body test ss ihb ih => rw [renameBlock, Stmt.rename, ihb, ih]; rfl
  | block body ss ihb ih => rw [renameBlock, Stmt.rename, ihb, ih]

end Backsweep
