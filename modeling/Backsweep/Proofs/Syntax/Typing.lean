import Mathlib
import Backsweep.Proofs.Syntax.Scope

/-!
# Types of valid functions

What a check without violations says about types. Unlike scopes, types do not
depend on where a statement stands.

* `blockFits`: every definition, test, push and return has the types it needs;
* `Func.fits_of_isValid`: the body of a valid function fits.
-/

namespace Backsweep

/-- What a tape holds: decisions are integers, everything else is a real. -/
def Tape.content (t : Tape) : Ty := if t.kind == .decisions then .int else .real

theorem Tape.content_of_ne {t : Tape} (h : t.kind ≠ .decisions) : t.content = .real :=
  if_neg (by simpa using h)

/-- The expression has the type of the variable it defines, and its operands have
the types it needs. Loads and calls may yield anything. -/
def Expr.Fits (f : Func) (dst : Var) : Expr → Prop
  | .const k => f.varTy dst = k.ty
  | .copy src => f.varTy src = f.varTy dst
  | .load obj _ => f.varTy obj = .obj
  | .op opcode args => args.map f.varTy = opcode.params ∧ f.varTy dst = opcode.result
  | .call _ _ _ => True
  | .pop t => f.varTy dst = t.content
  | .topIs t _ => t.kind = .decisions ∧ f.varTy dst = .bool

theorem Expr.Fits.typed {f : Func} {dst : Var} {e : Expr} (h : e.Fits f dst) : e.Typed f dst := by
  cases e with
  | copy src => exact h
  | op opcode args => exact h.2
  | pop t =>
    intro ht
    have hty : f.varTy dst = t.content := h
    rw [hty, Tape.content_of_ne ht]
  | _ => trivial

mutual

def Stmt.Fits (f : Func) : Stmt → Prop
  | .define dst _ e => e.Fits f dst
  | .store obj _ _ => f.varTy obj = .obj
  | .cond arms other => armsFit f arms ∧ blockFits f other
  | .loop header test body => blockFits f header ∧ f.varTy test = .bool ∧ blockFits f body
  | .doLoop body test => blockFits f body ∧ f.varTy test = .bool
  | .block body => blockFits f body
  | .push t val => t.kind ≠ .decisions ∧ f.varTy val = .real
  | .pushDecision t _ => t.content = .int
  | .unreachable => True
  | .ret vals => vals.map f.varTy = f.returns

def blockFits (f : Func) : List Stmt → Prop
  | [] => True
  | s :: ss => s.Fits f ∧ blockFits f ss

def armsFit (f : Func) : List (Var × List Stmt) → Prop
  | [] => True
  | (test, body) :: arms => f.varTy test = .bool ∧ blockFits f body ∧ armsFit f arms

end

theorem armsFit_iff {f : Func} {arms : List (Var × Block)} :
    armsFit f arms ↔ ∀ arm ∈ arms, f.varTy arm.1 = .bool ∧ blockFits f arm.2 := by
  induction arms with
  | nil => simp [armsFit]
  | cons arm arms ih => simp [armsFit, ih, and_assoc]

theorem blockFits_append {f : Func} {a b : Block} :
    blockFits f (a ++ b) ↔ blockFits f a ∧ blockFits f b := by
  induction a with
  | nil => simp [blockFits]
  | cons s a ih => simp [blockFits, ih, and_assoc]

/-- The atomic statements of a block that fits fit. -/
theorem blockFits.atom {f : Func} {b : Block} (h : blockFits f b) {a : Stmt}
    (ha : a ∈ blockAtoms b) : a.Fits f := by
  refine atoms_of_blocks (Q := blockFits f) (fun _ _ _ h => h) ?_ ?_ ?_ (fun _ _ h => h) h a ha
  · rintro arms other ss ⟨⟨harms, hother⟩, hss⟩
    rw [armsFit_iff] at harms
    exact ⟨fun arm harm => (harms arm harm).2, hother, hss⟩
  · rintro header test body ss ⟨⟨hheader, -, hbody⟩, hss⟩
    exact ⟨hheader, hbody, hss⟩
  · rintro body test ss ⟨⟨hbody, -⟩, hss⟩
    exact ⟨hbody, hss⟩

namespace Checker

variable {f : Func}

theorem useAllAt_types {c : Checker} {vs : List Var} {tys : List Ty}
    (h : (c.useAllAt f vs tys).violations = []) (hl : vs.length = tys.length) :
    vs.map f.varTy = tys := by
  induction vs generalizing c tys with
  | nil => exact (List.length_eq_zero_iff.mp hl.symm).symm
  | cons v vs ih =>
    cases tys with
    | nil => cases hl
    | cons ty tys =>
      have hvs := ih (c := c.useAt f v ty) h (by simpa using hl)
      have hv := useAt_passes.mp (useAllAt_passes (c := c.useAt f v ty) h).1
      rw [List.map_cons, hvs, hv.2.2]

theorem expr_fits {c : Checker} {dst : Var} {e : Expr} (h : (c.expr f dst e).violations = []) :
    e.Fits f dst := by
  cases e with
  | const k => exact (expectTy_passes.mp h).2
  | copy src => exact (useAt_passes.mp h).2.2
  | load obj field => exact (useAt_passes.mp h).2.2
  | op opcode args =>
    obtain ⟨h, hty⟩ := expectTy_passes.mp h
    obtain ⟨-, hl⟩ := require_passes.mp (useAllAt_passes h).1
    exact ⟨useAllAt_types h (by simpa [Opcode.arity] using hl), hty⟩
  | call callee args node => trivial
  | pop t => exact (expectTy_passes.mp h).2
  | topIs t d =>
    obtain ⟨hr, hty⟩ := expectTy_passes.mp h
    exact ⟨by simpa using (require_passes.mp hr).2, hty⟩

theorem atom_fits {s : Stmt} (hs : s.isControlFlow = false) {c : Checker}
    (h : (stmt f s c).violations = []) : s.Fits f := by
  cases s, hs using Stmt.atomCases with
  | define dst decl e =>
    cases decl with
    | true => exact expr_fits (declare_passes (c := c.expr f dst e) h).before
    | false => exact expr_fits (useVar_passes.mp (require_passes.mp h).1).1
  | store obj field val => exact (useAt_passes.mp (useVar_passes.mp h).1).2.2
  | push t val =>
    obtain ⟨hr, -, hty⟩ := useAt_passes.mp h
    exact ⟨by simpa using (require_passes.mp hr).2, hty⟩
  | pushDecision t d => exact if_pos (require_passes.mp h).2
  | unreachable => trivial
  | ret vals =>
    obtain ⟨-, hl⟩ := require_passes.mp (useAllAt_passes h).1
    exact useAllAt_types h (by simpa using hl)

theorem arms_fit {arms : List (Var × Block)} {c : Checker}
    (ih : ∀ arm ∈ arms, ∀ c : Checker, (stmts f arm.2 c).violations = [] → blockFits f arm.2)
    (h : (Checker.arms f arms c).violations = []) : armsFit f arms := by
  induction arms generalizing c with
  | nil => trivial
  | cons arm arms iha =>
    obtain ⟨test, body⟩ := arm
    have hbody := arms_violations (fun a _ c => stmts_violations)
      (show (Checker.arms f arms ((c.useAt f test .bool).inBlock (stmts f body))).violations = []
        from h)
    have htest := useAt_passes.mp (inBlock_violations (fun c => stmts_violations) hbody)
    exact ⟨htest.2.2, ih (test, body) (by simp) _ hbody, iha (fun a ha => ih a (by simp [ha])) h⟩

theorem stmts_fit {b : Block} {c : Checker} (h : (stmts f b c).violations = []) :
    blockFits f b := by
  induction b using blockInduction generalizing c with
  | nil => trivial
  | atom s ss hs ih => exact ⟨atom_fits hs (stmts_violations h), ih h⟩
  | cond arms other ss iha iho ih =>
    have hother : ((Checker.arms f arms c).inBlock (stmts f other)).violations = [] :=
      stmts_violations h
    have harms := inBlock_violations (fun c => stmts_violations) hother
    exact ⟨⟨arms_fit (fun arm harm c => iha arm harm) harms, iho hother⟩, ih h⟩
  | loop header test body ss ihh ihb ih =>
    have hloop : (((stmts f header { c with frame := [] }).useAt f test .bool).inBlock
        (stmts f body)).violations = [] :=
      stmts_violations (c := stmt f (.loop header test body) c) h
    have htest := useAt_passes.mp (inBlock_violations (fun c => stmts_violations) hloop)
    exact ⟨⟨ihh htest.1, htest.2.2, ihb hloop⟩, ih h⟩
  | doLoop body test ss ihb ih =>
    have htest := useAt_passes.mp
      (show ((stmts f body { c with frame := [] }).useAt f test .bool).violations = [] from
        stmts_violations (c := stmt f (.doLoop body test) c) h)
    exact ⟨⟨ihb htest.1, htest.2.2⟩, ih h⟩
  | block body ss ihb ih =>
    exact ⟨ihb (c := { c with frame := [] })
      (stmts_violations (c := stmt f (.block body) c) h), ih h⟩

end Checker

/-- The body of a valid function has the types it needs. -/
theorem Func.fits_of_isValid {f : Func} (h : f.isValid = true) : blockFits f f.body := by
  have hv : ((f.params.foldl (·.declare f ·) ({} : Checker)).inBlock
      (Checker.stmts f f.body)).violations = [] := by
    simpa [isValid, violations] using h
  exact Checker.stmts_fit hv

end Backsweep
