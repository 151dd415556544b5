import Mathlib
import Backsweep.Proofs.Syntax.Agreement

/-!
# Renumbered functions

A variable is an entry of the table, and the text of a function shows the entry but not
where it stands. Functions that differ in the order of their tables have the same text.

* `blockVars`: the variables that occur in a block;
* `Func.Renumbers`: one function is another one with its variables numbered differently;
* `Func.Renumbers.text`: the text does not tell them apart.
-/

namespace Backsweep

/-! ## Occurring variables -/

mutual

/-- The variables that occur in a statement, in order. -/
def Stmt.vars : Stmt → List Var
  | .define dst _ e => dst :: e.uses
  | .store obj _ val => [obj, val]
  | .cond arms other => armsVars arms ++ blockVars other
  | .loop header test body => blockVars header ++ test :: blockVars body
  | .doLoop body test => blockVars body ++ [test]
  | .block body => blockVars body
  | .push _ val => [val]
  | .pushDecision _ _ => []
  | .unreachable => []
  | .ret vals => vals

def blockVars : List Stmt → List Var
  | [] => []
  | s :: ss => s.vars ++ blockVars ss

def armsVars : List (Var × List Stmt) → List Var
  | [] => []
  | (test, body) :: arms => test :: (blockVars body ++ armsVars arms)

end

theorem armsVars_eq (arms : List (Var × Block)) :
    armsVars arms = arms.flatMap fun arm => arm.1 :: blockVars arm.2 := by
  induction arms with
  | nil => rfl
  | cons arm arms ih => simp [armsVars, ih]

theorem Stmt.atoms_rename {s : Stmt} (σ : Var → Var) (h : s.isControlFlow = false) :
    (s.rename σ).atoms = [s.rename σ] := by
  cases s <;> first | rfl | cases h

theorem blockAtoms_renameBlock (σ : Var → Var) (b : Block) :
    blockAtoms (renameBlock σ b) = (blockAtoms b).map (Stmt.rename σ) := by
  induction b using blockInduction with
  | nil => rfl
  | atom s ss hs ih =>
    simp only [renameBlock, blockAtoms, s.atoms_rename σ hs, Stmt.atoms_of_not_controlFlow hs, ih,
      List.map_append, List.map_cons, List.map_nil]
  | cond arms other ss iha iho ih =>
    have harms : armsAtoms (renameArms σ arms) = (armsAtoms arms).map (Stmt.rename σ) := by
      rw [renameArms_eq, armsAtoms_eq, armsAtoms_eq, List.flatMap_map, List.map_flatMap]
      exact List.flatMap_congr iha
    simp only [renameBlock, Stmt.rename, blockAtoms, Stmt.atoms, harms, iho, ih, List.map_append]
  | loop header test body ss ihh ihb ih =>
    simp only [renameBlock, Stmt.rename, blockAtoms, Stmt.atoms, ihh, ihb, ih, List.map_append]
  | doLoop body test ss ihb ih =>
    simp only [renameBlock, Stmt.rename, blockAtoms, Stmt.atoms, ihb, ih, List.map_append]
  | block body ss ihb ih =>
    simp only [renameBlock, Stmt.rename, blockAtoms, Stmt.atoms, ihb, ih, List.map_append]

theorem Stmt.decl?_rename (σ : Var → Var) (s : Stmt) : (s.rename σ).decl? = s.decl?.map σ := by
  cases s with
  | define dst decl e => cases decl <;> rfl
  | _ => rfl

theorem allDecls_renameBlock (σ : Var → Var) (b : Block) :
    allDecls (renameBlock σ b) = (allDecls b).map σ := by
  simp only [allDecls, blockAtoms_renameBlock, List.filterMap_map, List.map_filterMap]
  congr 1
  funext s
  exact s.decl?_rename σ

/-! ## Functions -/

namespace Func

/-- The variables that occur in a function. -/
def occurring (f : Func) : List Var := f.params ++ blockVars f.body

/-- The second function is the first one with its variables replaced, no two by the same
and each by one that looks the same. -/
structure Renumbers (f : Func) (σ : Var → Var) (g : Func) : Prop where
  name : g.name = f.name
  attrs : g.attrs = f.attrs
  params : g.params = f.params.map σ
  returns : g.returns = f.returns
  body : g.body = renameBlock σ f.body
  info : ∀ v ∈ f.occurring, g.info (σ v) = f.info v
  injective : ∀ v ∈ f.occurring, ∀ w ∈ f.occurring, σ v = σ w → v = w

end Func

theorem Func.renumbers_self (f : Func) : f.Renumbers id f :=
  ⟨rfl, rfl, (List.map_id _).symm, rfl, (renameBlock_id f.body).symm, fun _ _ => rfl,
    fun _ _ _ _ h => h⟩

/-! ## One NaN -/

theorem canonicalArms_eq (arms : List (Var × Block)) :
    canonicalArms arms = arms.map fun arm => (arm.1, canonicalBlock arm.2) := by
  induction arms with
  | nil => rfl
  | cons arm arms ih => simp [canonicalArms, ih]

theorem Expr.canonical_mapVars (σ : Var → Var) (e : Expr) :
    (e.mapVars σ).canonical = e.canonical.mapVars σ := by
  cases e with
  | const c => cases c <;> rfl
  | _ => rfl

theorem Expr.uses_canonical (e : Expr) : e.canonical.uses = e.uses := by
  cases e with
  | const c => cases c <;> rfl
  | _ => rfl

theorem Stmt.canonical_rename (σ : Var → Var) {s : Stmt} (hs : s.isControlFlow = false) :
    (s.rename σ).canonical = s.canonical.rename σ := by
  cases s, hs using Stmt.atomCases with
  | define dst decl e => simp only [Stmt.rename, Stmt.canonical, e.canonical_mapVars]
  | _ => rfl

theorem Stmt.vars_canonical {s : Stmt} (hs : s.isControlFlow = false) :
    s.canonical.vars = s.vars := by
  cases s, hs using Stmt.atomCases with
  | define dst decl e => simp only [Stmt.canonical, Stmt.vars, e.uses_canonical]
  | _ => rfl

theorem canonicalBlock_rename (σ : Var → Var) (b : Block) :
    canonicalBlock (renameBlock σ b) = renameBlock σ (canonicalBlock b) := by
  induction b using blockInduction with
  | nil => rfl
  | atom s ss hs ih => simp only [renameBlock, canonicalBlock, Stmt.canonical_rename σ hs, ih]
  | cond arms other ss iha iho ih =>
    have harms : canonicalArms (renameArms σ arms) = renameArms σ (canonicalArms arms) := by
      simp only [canonicalArms_eq, renameArms_eq, List.map_map]
      exact List.map_congr_left fun arm harm => congrArg (Prod.mk (σ arm.1)) (iha arm harm)
    simp only [renameBlock, canonicalBlock, Stmt.rename, Stmt.canonical, harms, iho, ih]
  | loop header test body ss ihh ihb ih =>
    simp only [renameBlock, canonicalBlock, Stmt.rename, Stmt.canonical, ihh, ihb, ih]
  | doLoop body test ss ihb ih =>
    simp only [renameBlock, canonicalBlock, Stmt.rename, Stmt.canonical, ihb, ih]
  | block body ss ihb ih =>
    simp only [renameBlock, canonicalBlock, Stmt.rename, Stmt.canonical, ihb, ih]

theorem blockAtoms_canonical (b : Block) :
    blockAtoms (canonicalBlock b) = (blockAtoms b).map Stmt.canonical := by
  induction b using blockInduction with
  | nil => rfl
  | atom s ss hs ih =>
    have hatoms : s.canonical.atoms = [s.canonical] := by cases s <;> first | rfl | cases hs
    simp only [canonicalBlock, blockAtoms, hatoms, Stmt.atoms_of_not_controlFlow hs, ih,
      List.map_append, List.map_cons, List.map_nil]
  | cond arms other ss iha iho ih =>
    have harms : armsAtoms (canonicalArms arms) = (armsAtoms arms).map Stmt.canonical := by
      rw [canonicalArms_eq, armsAtoms_eq, armsAtoms_eq, List.flatMap_map, List.map_flatMap]
      exact List.flatMap_congr iha
    simp only [canonicalBlock, Stmt.canonical, blockAtoms, Stmt.atoms, harms, iho, ih,
      List.map_append]
  | loop header test body ss ihh ihb ih =>
    simp only [canonicalBlock, Stmt.canonical, blockAtoms, Stmt.atoms, ihh, ihb, ih,
      List.map_append]
  | doLoop body test ss ihb ih =>
    simp only [canonicalBlock, Stmt.canonical, blockAtoms, Stmt.atoms, ihb, ih, List.map_append]
  | block body ss ihb ih =>
    simp only [canonicalBlock, Stmt.canonical, blockAtoms, Stmt.atoms, ihb, ih, List.map_append]

theorem Stmt.decl?_canonical (s : Stmt) : s.canonical.decl? = s.decl? := by
  cases s with
  | define dst decl e => cases decl <;> rfl
  | _ => rfl

theorem allDecls_canonical (b : Block) : allDecls (canonicalBlock b) = allDecls b := by
  simp only [allDecls, blockAtoms_canonical, List.filterMap_map]
  congr 1
  funext s
  exact s.decl?_canonical

theorem blockVars_canonical (b : Block) : blockVars (canonicalBlock b) = blockVars b := by
  induction b using blockInduction with
  | nil => rfl
  | atom s ss hs ih => simp only [canonicalBlock, blockVars, Stmt.vars_canonical hs, ih]
  | cond arms other ss iha iho ih =>
    have harms : armsVars (canonicalArms arms) = armsVars arms := by
      rw [canonicalArms_eq, armsVars_eq, armsVars_eq, List.flatMap_map]
      exact List.flatMap_congr fun arm harm => congrArg (List.cons arm.1) (iha arm harm)
    simp only [canonicalBlock, blockVars, Stmt.canonical, Stmt.vars, harms, iho, ih]
  | loop header test body ss ihh ihb ih =>
    simp only [canonicalBlock, blockVars, Stmt.canonical, Stmt.vars, ihh, ihb, ih]
  | doLoop body test ss ihb ih =>
    simp only [canonicalBlock, blockVars, Stmt.canonical, Stmt.vars, ihb, ih]
  | block body ss ihb ih =>
    simp only [canonicalBlock, blockVars, Stmt.canonical, Stmt.vars, ihb, ih]

theorem Func.occurring_canonical (f : Func) : f.canonical.occurring = f.occurring :=
  congrArg (f.params ++ ·) (blockVars_canonical f.body)

theorem Func.Renumbers.canonical {σ : Var → Var} {f g : Func} (h : f.Renumbers σ g) :
    f.canonical.Renumbers σ g.canonical := by
  have hbody : canonicalBlock g.body = renameBlock σ (canonicalBlock f.body) := by
    rw [h.body, canonicalBlock_rename]
  refine ⟨h.name, h.attrs, h.params, h.returns, hbody, ?_, ?_⟩
  · rw [f.occurring_canonical]
    exact h.info
  · rw [f.occurring_canonical]
    exact h.injective

/-! ## Texts -/

section
variable {σ : Var → Var} {f g : Func}

theorem argsText_rename {vs : List Var} (h : ∀ v ∈ vs, g.info (σ v) = f.info v) :
    g.argsText (vs.map σ) = f.argsText vs := by
  have hnames : (vs.map σ).map g.varName = vs.map f.varName := by
    rw [List.map_map]
    exact List.map_congr_left fun v hv => congrArg VarInfo.name (h v hv)
  rw [Func.argsText, Func.argsText, hnames]

theorem operandsText_rename {vs : List Var} (h : ∀ v ∈ vs, g.info (σ v) = f.info v) :
    g.operandsText (vs.map σ) = f.operandsText vs := by
  cases vs with
  | nil => rfl
  | cons v vs => exact congrArg (" " ++ ·) (argsText_rename h)

theorem exprText_rename {e : Expr} (h : ∀ v ∈ e.uses, g.info (σ v) = f.info v) :
    g.exprText (e.mapVars σ) = f.exprText e := by
  have hname {v : Var} (hv : v ∈ e.uses) : g.varName (σ v) = f.varName v :=
    congrArg VarInfo.name (h v hv)
  cases e with
  | const c => rfl
  | copy v => rw [Expr.mapVars, Func.exprText, hname List.mem_cons_self, Func.exprText]
  | load v field => rw [Expr.mapVars, Func.exprText, hname List.mem_cons_self, Func.exprText]
  | op opcode args => exact congrArg (opcode.name ++ ·) (operandsText_rename h)
  | call callee args node =>
    have hargs : g.argsText (args.map σ) = f.argsText args := argsText_rename h
    simp only [Expr.mapVars, Func.exprText, hargs]
  | pop t => rfl
  | topIs t d => rfl

theorem dstText_rename {dst : Var} (h : g.info (σ dst) = f.info dst) (decl : Bool) :
    g.dstText (σ dst) decl = f.dstText dst decl := by
  rw [Func.dstText, Func.dstText, h]

theorem stmtTextM_rename {s : Stmt} (hs : s.isControlFlow = false)
    (h : ∀ v ∈ s.vars, g.info (σ v) = f.info v) (indent : Nat) :
    g.stmtTextM Func.noNote indent (s.rename σ) = f.stmtTextM Func.noNote indent s := by
  have hname {v : Var} (hv : v ∈ s.vars) : g.varName (σ v) = f.varName v :=
    congrArg VarInfo.name (h v hv)
  cases s, hs using Stmt.atomCases with
  | define dst decl e =>
    have hdst := dstText_rename (h dst List.mem_cons_self) decl
    have hexpr := exprText_rename fun v hv => h v (List.mem_cons_of_mem dst hv)
    simp only [Stmt.rename, Func.stmtTextM, hdst, hexpr]
  | store obj field val =>
    simp only [Stmt.rename, Func.stmtTextM, hname (v := obj) (by simp [Stmt.vars]),
      hname (v := val) (by simp [Stmt.vars])]
  | push t val => simp only [Stmt.rename, Func.stmtTextM, hname (v := val) (by simp [Stmt.vars])]
  | ret vals =>
    have hvals : g.operandsText (vals.map σ) = f.operandsText vals := operandsText_rename h
    simp only [Stmt.rename, Func.stmtTextM, hvals]
  | _ => rfl

theorem armsTextM_rename {arms : List (Var × Block)} (indent : Nat)
    (h : ∀ arm ∈ arms, g.info (σ arm.1) = f.info arm.1 ∧
      g.linesTextM Func.noNote (indent + 4) (renameBlock σ arm.2) =
        f.linesTextM Func.noNote (indent + 4) arm.2) (first : Bool) :
    g.armsTextM Func.noNote indent first (renameArms σ arms) =
      f.armsTextM Func.noNote indent first arms := by
  induction arms generalizing first with
  | nil => rfl
  | cons arm arms ih =>
    obtain ⟨htest, hbody⟩ := h arm List.mem_cons_self
    have hname : g.varName (σ arm.1) = f.varName arm.1 := congrArg VarInfo.name htest
    have hrest := ih fun arm' harm' => h arm' (List.mem_cons_of_mem arm harm')
    simp only [renameArms, Func.armsTextM, hname, hbody, hrest]

theorem linesTextM_rename {b : Block} (h : ∀ v ∈ blockVars b, g.info (σ v) = f.info v)
    (indent : Nat) :
    g.linesTextM Func.noNote indent (renameBlock σ b) = f.linesTextM Func.noNote indent b := by
  induction b using blockInduction generalizing indent with
  | nil => rfl
  | atom s ss hs ih =>
    have hfirst := stmtTextM_rename hs (fun v hv => h v (by simp [blockVars, hv])) indent
    have hrest := ih (fun v hv => h v (by simp [blockVars, hv])) indent
    simp only [renameBlock, Func.linesTextM, hfirst, hrest]
    rfl
  | cond arms other ss iha iho ih =>
    simp only [blockVars, Stmt.vars, armsVars_eq, List.mem_append, List.mem_flatMap] at h
    have harms : g.armsTextM Func.noNote indent true (renameArms σ arms) =
        f.armsTextM Func.noNote indent true arms :=
      armsTextM_rename indent (fun arm harm =>
        ⟨h arm.1 (.inl (.inl ⟨arm, harm, List.mem_cons_self⟩)), iha arm harm (fun v hv =>
          h v (.inl (.inl ⟨arm, harm, List.mem_cons_of_mem _ hv⟩))) (indent + 4)⟩) true
    have hother := iho (fun v hv => h v (.inl (.inr hv))) (indent + 4)
    have hrest := ih (fun v hv => h v (.inr hv)) indent
    simp only [renameBlock, Stmt.rename, Func.linesTextM, Func.stmtTextM, harms, hother, hrest]
    rfl
  | loop header test body ss ihh ihb ih =>
    simp only [blockVars, Stmt.vars, List.mem_append, List.mem_cons] at h
    have hheader := ihh (fun v hv => h v (.inl (.inl hv))) (indent + 4)
    have hname : g.varName (σ test) = f.varName test :=
      congrArg VarInfo.name (h test (.inl (.inr (.inl rfl))))
    have hbody := ihb (fun v hv => h v (.inl (.inr (.inr hv)))) (indent + 4)
    have hrest := ih (fun v hv => h v (.inr hv)) indent
    simp only [renameBlock, Stmt.rename, Func.linesTextM, Func.stmtTextM, hheader, hname, hbody,
      hrest]
    rfl
  | doLoop body test ss ihb ih =>
    simp only [blockVars, Stmt.vars, List.mem_append, List.mem_singleton] at h
    have hbody := ihb (fun v hv => h v (.inl (.inl hv))) (indent + 4)
    have hname : g.varName (σ test) = f.varName test :=
      congrArg VarInfo.name (h test (.inl (.inr rfl)))
    have hrest := ih (fun v hv => h v (.inr hv)) indent
    simp only [renameBlock, Stmt.rename, Func.linesTextM, Func.stmtTextM, hbody, hname, hrest]
    rfl
  | block body ss ihb ih =>
    simp only [blockVars, Stmt.vars, List.mem_append] at h
    have hbody := ihb (fun v hv => h v (.inl hv)) (indent + 4)
    have hrest := ih (fun v hv => h v (.inr hv)) indent
    simp only [renameBlock, Stmt.rename, Func.linesTextM, Func.stmtTextM, hbody, hrest]
    rfl

/-- **The text of a function does not show how its variables are numbered.** -/
theorem Func.Renumbers.text (h : f.Renumbers σ g) : g.text = f.text := by
  have hbody := linesTextM_rename (fun v hv => h.info v (List.mem_append_right _ hv)) 4
  have hparam : g.params.map (fun v => g.varName v ++ ": " ++ (g.varTy v).name) =
      f.params.map fun v => f.varName v ++ ": " ++ (f.varTy v).name := by
    rw [h.params, List.map_map]
    refine List.map_congr_left fun v hv => ?_
    have hinfo := h.info v (List.mem_append_left _ hv)
    simp only [Function.comp_apply, Func.varName, Func.varTy, hinfo]
  have hhead : g.headText = f.headText := by
    simp only [Func.headText, h.attrs, h.name, h.returns, hparam]
  simp only [Func.text, Func.annotated, hhead, h.body, hbody]

end

end Backsweep
