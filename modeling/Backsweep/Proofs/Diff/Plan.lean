import Mathlib
import Backsweep.Diff.Forward
import Backsweep.Diff.Lowering
import Backsweep.Proofs.Syntax.Scope

/-!
# Plans and their statements

A plan is a body cut into steps: put together again, the steps are the body.

* `stepsInduction`: induction over steps, however they are nested;
* `stepsSource`: the statements that steps were made from;
* `not_read_of_header`: a variable that is read in the header of a loop as often
  as in the whole body is read by no step.
-/

namespace Backsweep

/-- A step without steps inside. -/
def Step.isLeaf : Step → Bool
  | .inert _ | .call _ | .assign _ _ _ _ | .tapeWrite _ _ _ => true
  | .block _ | .cond _ _ | .loop _ _ _ _ => false

theorem Step.leafCases {motive : (s : Step) → s.isLeaf = true → Prop}
    (inert : ∀ run, motive (.inert run) rfl) (call : ∀ c, motive (.call c) rfl)
    (assign : ∀ dst decl src active, motive (.assign dst decl src active) rfl)
    (tapeWrite : ∀ t val active, motive (.tapeWrite t val active) rfl) (s : Step)
    (hs : s.isLeaf = true) : motive s hs := by
  cases s with
  | inert run => exact inert run
  | call c => exact call c
  | assign dst decl src active => exact assign dst decl src active
  | tapeWrite t val active => exact tapeWrite t val active
  | _ => cases hs

/-- Induction over steps: over a list of them, and over the lists inside of its
first step. -/
theorem stepsInduction {motive : List Step → Prop} (nil : motive [])
    (leaf : ∀ s ss, s.isLeaf = true → motive ss → motive (s :: ss))
    (block : ∀ decls steps ss, motive steps → motive ss → motive (.block (decls, steps) :: ss))
    (cond : ∀ arms decls steps ss, (∀ arm ∈ arms, motive arm.2.2) → motive steps → motive ss →
      motive (.cond arms (decls, steps) :: ss))
    (loop : ∀ id header test decls steps ss, motive steps → motive ss →
      motive (.loop id header test (decls, steps) :: ss)) (ss : List Step) : motive ss := by
  match ss with
  | [] => exact nil
  | .block (decls, steps) :: ss =>
    exact block decls steps ss (stepsInduction nil leaf block cond loop steps)
      (stepsInduction nil leaf block cond loop ss)
  | .cond arms (decls, steps) :: ss =>
    have arm (a : Var × List Var × List Step) (h : a ∈ arms) : sizeOf a.2.2 < sizeOf arms := by
      have := List.sizeOf_lt_of_mem h
      obtain ⟨t, decls, steps⟩ := a
      simp only [Prod.mk.sizeOf_spec] at this
      simp only
      omega
    exact cond arms decls steps ss
      (fun a h => have := arm a h; stepsInduction nil leaf block cond loop a.2.2)
      (stepsInduction nil leaf block cond loop steps) (stepsInduction nil leaf block cond loop ss)
  | .loop id header test (decls, steps) :: ss =>
    exact loop id header test decls steps ss (stepsInduction nil leaf block cond loop steps)
      (stepsInduction nil leaf block cond loop ss)
  | .inert _ :: ss | .call _ :: ss | .assign _ _ _ _ :: ss | .tapeWrite _ _ _ :: ss =>
    exact leaf _ ss rfl (stepsInduction nil leaf block cond loop ss)
termination_by sizeOf ss
decreasing_by all_goals simp_wf <;> omega

/-! ## The statements of steps -/

mutual

/-- The statements that a step was made from. -/
def Step.source : Step → Block
  | .inert run => run
  | .call c => [.define c.dst c.decl c.expr]
  | .assign dst decl src _ => [.define dst decl src.expr]
  | .tapeWrite t val _ => [.push t val]
  | .block (_, steps) => [.block (stepsSource steps)]
  | .cond arms (_, steps) => [.cond (armsSource arms) (stepsSource steps)]
  | .loop _ header test (_, steps) => [.loop header test (stepsSource steps)]

def stepsSource : List Step → Block
  | [] => []
  | s :: ss => s.source ++ stepsSource ss

def armsSource : List (Var × List Var × List Step) → List (Var × Block)
  | [] => []
  | (test, _, steps) :: arms => (test, stepsSource steps) :: armsSource arms

end

theorem armsSource_eq (arms : List (Var × List Var × List Step)) :
    armsSource arms = arms.map fun arm => (arm.1, stepsSource arm.2.2) := by
  induction arms with
  | nil => rfl
  | cons arm arms ih => simp [armsSource, ih]

/-! ## What steps read -/

mutual

/-- The variables whose adjoints a step can add to: those that its calls,
assignments and pushes read. -/
def Step.reads : Step → List Var
  | .inert _ => []
  | .call c => c.argVars
  | .assign _ _ src _ => src.expr.uses
  | .tapeWrite _ val _ => [val]
  | .block (_, steps) => stepsReads steps
  | .cond arms (_, steps) => stepArmsReads arms ++ stepsReads steps
  | .loop _ _ _ (_, steps) => stepsReads steps

def stepsReads : List Step → List Var
  | [] => []
  | s :: ss => s.reads ++ stepsReads ss

def stepArmsReads : List (Var × List Var × List Step) → List Var
  | [] => []
  | (_, _, steps) :: arms => stepsReads steps ++ stepArmsReads arms

end

mutual

/-- The headers of the loops in a step, with the variables they test. -/
def Step.headers : Step → List (Block × Var)
  | .block (_, steps) => stepsHeaders steps
  | .cond arms (_, steps) => armsHeaders arms ++ stepsHeaders steps
  | .loop _ header test (_, steps) => (header, test) :: stepsHeaders steps
  | .inert _ | .call _ | .assign _ _ _ _ | .tapeWrite _ _ _ => []

def stepsHeaders : List Step → List (Block × Var)
  | [] => []
  | s :: ss => s.headers ++ stepsHeaders ss

def armsHeaders : List (Var × List Var × List Step) → List (Block × Var)
  | [] => []
  | (_, _, steps) :: arms => stepsHeaders steps ++ armsHeaders arms

end

theorem blockReads_append (a b : Block) : blockReads (a ++ b) = blockReads a ++ blockReads b := by
  induction a with
  | nil => rfl
  | cons s a ih => simp [blockReads, ih]

theorem armsReads_count {v : Var} {arms : List (Var × List Var × List Step)}
    (ih : ∀ arm ∈ arms, (stepsReads arm.2.2).count v ≤ (blockReads (stepsSource arm.2.2)).count v) :
    (stepArmsReads arms).count v ≤ (armsReads (armsSource arms)).count v := by
  induction arms with
  | nil => simp [stepArmsReads]
  | cons arm arms iha =>
    obtain ⟨test, decls, steps⟩ := arm
    have hsteps := ih (test, decls, steps) (by simp)
    have harms := iha fun a ha => ih a (by simp [ha])
    simp only [stepArmsReads, armsSource, armsReads, List.count_append, List.cons_append,
      List.count_cons]
    dsimp only at hsteps
    omega

/-- Steps read no variable more often than their statements do. -/
theorem stepsReads_count (v : Var) (ss : List Step) :
    (stepsReads ss).count v ≤ (blockReads (stepsSource ss)).count v := by
  induction ss using stepsInduction with
  | nil => simp [stepsReads]
  | leaf s ss hs ih =>
    have hleaf : s.reads.count v ≤ (blockReads s.source).count v := by
      cases s, hs using Step.leafCases with
      | inert run => simp [Step.reads]
      | call c => simp [Step.reads, Step.source, blockReads, Stmt.reads, ActiveCall.argVars]
      | _ => simp [Step.reads, Step.source, blockReads, Stmt.reads]
    simp only [stepsReads, stepsSource, blockReads_append, List.count_append]
    omega
  | block decls steps ss ihs ih =>
    simp only [stepsReads, Step.reads, stepsSource, Step.source, blockReads_append, blockReads,
      Stmt.reads, List.count_append, List.append_nil]
    omega
  | cond arms decls steps ss iha ihs ih =>
    have harms := armsReads_count iha
    simp only [stepsReads, Step.reads, stepsSource, Step.source, blockReads_append, blockReads,
      Stmt.reads, List.count_append, List.append_nil]
    omega
  | loop id header test decls steps ss ihs ih =>
    simp only [stepsReads, Step.reads, stepsSource, Step.source, blockReads_append, blockReads,
      Stmt.reads, List.count_append, List.cons_append, List.count_cons]
    omega

theorem armsHeader_count {v : Var} {h : Block × Var} {arms : List (Var × List Var × List Step)}
    (ih : ∀ arm ∈ arms, h ∈ stepsHeaders arm.2.2 →
      (blockReads h.1).count v + (stepsReads arm.2.2).count v ≤
        (blockReads (stepsSource arm.2.2)).count v) (hh : h ∈ armsHeaders arms) :
    (blockReads h.1).count v + (stepArmsReads arms).count v ≤
      (armsReads (armsSource arms)).count v := by
  induction arms with
  | nil => simp [armsHeaders] at hh
  | cons arm arms iha =>
    obtain ⟨test, decls, steps⟩ := arm
    have hsteps := stepsReads_count v steps
    have harms := armsReads_count (v := v) fun a (_ : a ∈ arms) => stepsReads_count v a.2.2
    simp only [stepArmsReads, armsSource, armsReads, List.count_append, List.cons_append,
      List.count_cons]
    rw [armsHeaders, List.mem_append] at hh
    rcases hh with hh | hh
    · have := ih (test, decls, steps) (by simp) hh
      dsimp only at this
      omega
    · have := iha (fun a ha => ih a (by simp [ha])) hh
      omega

/-- The reads of a header are none of those of the steps. -/
theorem header_count (v : Var) {ss : List Step} {h : Block × Var} (hh : h ∈ stepsHeaders ss) :
    (blockReads h.1).count v + (stepsReads ss).count v ≤
      (blockReads (stepsSource ss)).count v := by
  induction ss using stepsInduction with
  | nil => simp [stepsHeaders] at hh
  | leaf s ss hs ih =>
    have hnone : s.headers = [] := by cases s <;> first | rfl | cases hs
    rw [stepsHeaders, hnone, List.nil_append] at hh
    have hone := stepsReads_count v [s]
    have := ih hh
    simp only [stepsReads, stepsSource, List.append_nil] at hone
    simp only [stepsReads, stepsSource, blockReads_append, List.count_append]
    omega
  | block decls steps ss ihs ih =>
    have hin := stepsReads_count v steps
    have hss := stepsReads_count v ss
    simp only [stepsReads, Step.reads, stepsSource, Step.source, blockReads_append, blockReads,
      Stmt.reads, List.count_append, List.append_nil]
    rw [stepsHeaders, Step.headers, List.mem_append] at hh
    rcases hh with hh | hh
    · have := ihs hh; omega
    · have := ih hh; omega
  | cond arms decls steps ss iha ihs ih =>
    have harms := armsReads_count (v := v) fun a (_ : a ∈ arms) => stepsReads_count v a.2.2
    have hin := stepsReads_count v steps
    have hss := stepsReads_count v ss
    simp only [stepsReads, Step.reads, stepsSource, Step.source, blockReads_append, blockReads,
      Stmt.reads, List.count_append, List.append_nil]
    simp only [stepsHeaders, Step.headers, List.mem_append] at hh
    rcases hh with (hh | hh) | hh
    · have := armsHeader_count iha hh; omega
    · have := ihs hh; omega
    · have := ih hh; omega
  | loop id header test decls steps ss ihs ih =>
    have hin := stepsReads_count v steps
    have hss := stepsReads_count v ss
    simp only [stepsReads, Step.reads, stepsSource, Step.source, blockReads_append, blockReads,
      Stmt.reads, List.count_append, List.cons_append, List.count_cons]
    simp only [stepsHeaders, Step.headers, List.cons_append, List.mem_cons, List.mem_append] at hh
    rcases hh with rfl | hh | hh
    · dsimp only; omega
    · have := ihs hh; omega
    · have := ih hh; omega

/-- A variable that a header reads as often as the body is read by no step, and
is not returned. -/
theorem not_read_of_header {v r : Var} {ss : List Step} {h : Block × Var}
    (hh : h ∈ stepsHeaders ss)
    (hcount : (blockReads (stepsSource ss ++ [.ret [r]])).count v ≤ (blockReads h.1).count v) :
    v ∉ stepsReads ss ∧ v ≠ r := by
  have hle := header_count v hh
  rw [blockReads_append, List.count_append] at hcount
  simp only [blockReads, Stmt.reads, List.append_nil] at hcount
  have hss : (stepsReads ss).count v = 0 := by omega
  have hr : [r].count v = 0 := by omega
  refine ⟨List.count_eq_zero.mp hss, fun hvr => ?_⟩
  exact List.count_eq_zero.mp hr (by simp [hvr])

end Backsweep
