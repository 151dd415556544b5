import Mathlib
import Backsweep.Proofs.Diff.Lowering
import Backsweep.Proofs.Run.Lockstep

/-!
# The forward section replays the function

The forward section of a derivative does what the function does, and pushes to
the tapes of its level beside.

* `Level.forwardCall_inStep`: saving arguments fails only where the call fails;
* `Level.forwardSteps_inStep`: the steps and the forward section made from them,
  run on machines that agree, give matching results;
* `Level.forwardSteps_within`: what the forward section mentions.
-/

namespace Backsweep

variable {R : Type} [Scalar R]

/-- An operation or a call starts by reading its arguments. -/
theorem Job.eval_target (j : Job R) {e : Expr} {t : Target} (h : Target.ofExpr? e = some t) :
    ∃ act : List (Slot R) → Exec R (Slot R), j.eval e = j.readAll e.uses >>= act := by
  cases e with
  | op op args => exact ⟨_, j.eval_op op args⟩
  | call callee args node => exact ⟨_, j.eval_call callee args node⟩
  | const c => cases h
  | copy v => cases h
  | load obj field => cases h
  | pop t => cases h
  | topIs t d => cases h

/-- An operation or a call needs all of its arguments. -/
theorem Job.eval_undefined (j : Job R) {e : Expr} {t : Target} (h : Target.ofExpr? e = some t)
    {v : Var} (hv : v ∈ e.uses) {m : Machine R} (hm : m.var v = none) :
    ∃ x, j.eval e m = .error (.undefinedVar x) m := by
  obtain ⟨act, hact⟩ := j.eval_target h
  have hends := j.readAll_ends m e.uses
  cases hr : j.readAll e.uses m with
  | ok ss m' =>
    obtain ⟨hss, -⟩ := (j.readAll_eq_ok m).mp hr
    have hmem : m.var v ∈ ss.map some := hss ▸ List.mem_map_of_mem hv
    rw [hm] at hmem
    simp at hmem
  | error err m' =>
    rw [hr] at hends
    obtain ⟨rfl, x, rfl⟩ := hends
    exact ⟨x, by rw [hact, bind_error hr]⟩

theorem firsts_subset (vs : List Var) : firsts vs ⊆ vs := by
  induction vs with
  | nil => simp [firsts]
  | cons v vs ih =>
    intro w hw
    simp only [firsts, List.mem_cons, List.mem_filter] at hw ⊢
    exact hw.imp_right fun h => ih h.1

theorem ActiveCall.savedArgs_subset (c : ActiveCall) : c.savedArgs ⊆ c.argVars := by
  intro v hv
  obtain ⟨p, hp, rfl⟩ := List.mem_map.mp (firsts_subset _ hv)
  exact (List.of_mem_zip (List.mem_filter.mp hp).1).1

variable {w : Window} {cut : Prop} {j k : Job R} {lo : Lowering}

namespace Level

open Twins

variable {l : Level}

/-- A call with everything it saves does what the call alone does. -/
theorem forwardCall_inStep (t : Twins cut j k) (hv : ¬w.tape l.values) {c : ActiveCall}
    (hc : lo.CallFine c) (hw : (Stmt.define c.dst c.decl c.expr).Within w) :
    InStep w cut (j.execBlock [.define c.dst c.decl c.expr]) (k.execBlock (l.forwardCall c)) := by
  refine inStep_of fun m n hmn => ?_
  obtain ⟨target, htarget, -⟩ := hc.found
  unfold forwardCall
  by_cases hdef : ∀ v ∈ c.savedArgs, n.var v ≠ none
  · obtain ⟨ss, hss⟩ := Machine.exists_slots hdef
    rw [k.execBlock_append_next (k.execBlock_pushes l.values hss), Job.execBlock_define,
      Job.execBlock_define]
    refine (t.eval (hmn.pushAllHidden hv ss) hw.2).bind fun s s' m' n' hs hmn' => ?_
    have hset := hmn'.setVar hw.1 s
    rw [hs, bind_ok (Job.write_apply _ _ _), bind_ok (Job.write_apply _ _ _)]
    split
    · have hdst := (n'.var_setVar_self c.dst (w.slot s) (hmn'.right _ hw.1))
      rw [Job.execBlock_singleton, Job.exec_push, bind_ok (k.read_some _ hdst)]
      exact ⟨rfl, hset.pushHidden hv _⟩
    · exact ⟨rfl, hset⟩
  · push Not at hdef
    obtain ⟨v, hsaved, hn⟩ := hdef
    have huse := c.savedArgs_subset hsaved
    have hm : m.var v = none := by
      have := hmn.var v (hw.2.1 v huse)
      rw [hn] at this
      simpa using this.symm
    -- both sides stop at a variable that is not defined, though not at the same one
    obtain ⟨x, hx⟩ := j.eval_undefined htarget huse hm
    have hpush := k.execBlock_pushes_none l.values hsaved hn
    rw [Job.execBlock_define, bind_error hx, Job.execBlock_append]
    cases hp : k.execBlock (c.savedArgs.map (.push l.values)) n with
    | ok flow n' => rw [hp] at hpush; exact hpush.elim
    | error e n' =>
      rw [hp] at hpush
      obtain ⟨⟨y, rfl⟩, hworld⟩ := hpush
      rw [bind_error hp]
      exact .inl ⟨similar_undefinedVar _ _, hworld.trans hmn.world⟩

theorem append_inStep {a a' b b' : Block} (h : InStep w cut (j.execBlock a) (k.execBlock b))
    (h' : InStep w cut (j.execBlock a') (k.execBlock b')) :
    InStep w cut (j.execBlock (a ++ a')) (k.execBlock (b ++ b')) := by
  refine ⟨fun m n hmn => ?_, lockstep_alone _⟩
  rw [Job.execBlock_append, Job.execBlock_append]
  exact (h.andThen h').ends m n hmn

/-- Recording a decision does not show. -/
theorem record_inStep (hd : ¬w.tape l.decisions) {a b : Block} (d : Int)
    (h : InStep w cut (j.execBlock a) (k.execBlock b)) :
    InStep w cut (j.execBlock a) (k.execBlock (b ++ [l.record d])) := by
  rw [← List.append_nil a]
  refine append_inStep h (inStep_of fun m n hmn => ?_)
  rw [Job.execBlock_singleton]
  exact ⟨rfl, hmn.pushHidden hd _⟩

theorem forwardArms_inStep (t : Twins cut j k) (hd : ¬w.tape l.decisions)
    {arms : List (Var × List Var × List Step)} (i : Nat) {x y : Exec R (Flow R)}
    (ih : ∀ arm ∈ arms, w.var arm.1 ∧
      InStep w cut (j.execBlock (stepsSource arm.2.2)) (k.execBlock (l.forwardSteps arm.2.2)))
    (ho : InStep w cut x y) :
    InStep w cut (j.execArms (armsSource arms) x) (k.execArms (l.forwardArms i arms) y) := by
  induction arms generalizing i with
  | nil => exact ho
  | cons arm arms iha =>
    obtain ⟨test, decls, steps⟩ := arm
    obtain ⟨htest, hsteps⟩ := ih (test, decls, steps) (by simp)
    exact .choose (t.tests htest) (record_inStep hd i hsteps)
      (iha (i + 1) fun a ha => ih a (by simp [ha]))

/-- **The forward section does what the function does.** -/
theorem forwardSteps_inStep (t : Twins cut j k) (hv : ¬w.tape l.values)
    (hd : ¬w.tape l.decisions) {ss : List Step} (hfine : stepsFine lo ss)
    (hw : blockWithin w (stepsSource ss)) :
    InStep w cut (j.execBlock (stepsSource ss)) (k.execBlock (l.forwardSteps ss)) := by
  induction ss using stepsInduction with
  | nil => exact PairLaw.inStep_next
  | leaf s ss hs ih =>
    rw [stepsSource, blockWithin_append] at hw
    refine append_inStep ?_ (ih hfine.2 hw.2)
    cases s, hs using Step.leafCases with
    | call c => exact forwardCall_inStep t hv hfine.1 hw.1.1
    | _ => exact t.execBlock hw.1
  | block decls steps ss ihs ih =>
    obtain ⟨hb, hss⟩ := hw
    exact PairLaw.cons (ihs hfine.1.2 hb) (ih hfine.2 hss)
  | cond arms decls steps ss iha ihs ih =>
    obtain ⟨⟨harms, hother⟩, hss⟩ := hw
    obtain ⟨⟨hfarms, -, hfother⟩, hfss⟩ := hfine
    rw [armsSource_eq, armsWithin_iff, List.forall_mem_map] at harms
    rw [armsFine_iff] at hfarms
    refine PairLaw.cons (forwardArms_inStep t hd 0 (fun arm harm => ?_)
      (record_inStep hd _ (ihs hfother hother))) (ih hfss hss)
    exact ⟨(harms arm harm).1, iha arm harm (hfarms arm harm).2 (harms arm harm).2⟩
  | loop id header test decls steps ss ihs ih =>
    obtain ⟨⟨hh, ht, hb⟩, hss⟩ := hw
    exact PairLaw.cons (PairLaw.loop t.paces (t.execBlock hh) (t.tests ht)
      (record_inStep hd _ (ihs hfine.1.2.2 hb)) fun _ _ h => h) (ih hfine.2 hss)

omit [Scalar R] in
theorem forwardCall_within (hv : w.tape l.values) {c : ActiveCall}
    (hw : (Stmt.define c.dst c.decl c.expr).Within w) : blockWithin w (l.forwardCall c) := by
  have hpushes {vs : List Var} (hvs : ∀ v ∈ vs, w.var v) : blockWithin w (vs.map (.push l.values)) := by
    induction vs with
    | nil => trivial
    | cons v vs ih => exact ⟨⟨hv, hvs v List.mem_cons_self⟩, ih fun v h => hvs v (List.mem_cons_of_mem _ h)⟩
  refine blockWithin_append.mpr
    ⟨hpushes fun v h => hw.2.1 v (c.savedArgs_subset h), hw, ?_⟩
  split
  · exact ⟨⟨hv, hw.1⟩, trivial⟩
  · trivial

omit [Scalar R] in
theorem forwardArms_within (hd : w.tape l.decisions) {arms : List (Var × List Var × List Step)}
    (ih : ∀ arm ∈ arms, w.var arm.1 ∧ blockWithin w (l.forwardSteps arm.2.2)) (i : Nat) :
    armsWithin w (l.forwardArms i arms) := by
  induction arms generalizing i with
  | nil => trivial
  | cons arm arms iha =>
    obtain ⟨htest, hbody⟩ := ih arm List.mem_cons_self
    exact ⟨htest, blockWithin_append.mpr ⟨hbody, hd, trivial⟩,
      iha (fun arm h => ih arm (List.mem_cons_of_mem _ h)) (i + 1)⟩

omit [Scalar R] in
/-- The forward section mentions what the function mentions, and tapes of its level. -/
theorem forwardSteps_within (hv : w.tape l.values) (hd : w.tape l.decisions) {ss : List Step}
    (hw : blockWithin w (stepsSource ss)) : blockWithin w (l.forwardSteps ss) := by
  induction ss using stepsInduction with
  | nil => trivial
  | leaf s ss hs ih =>
    rw [stepsSource, blockWithin_append] at hw
    refine blockWithin_append.mpr ⟨?_, ih hw.2⟩
    cases s, hs using Step.leafCases with
    | call c => exact forwardCall_within hv hw.1.1
    | _ => exact hw.1
  | block decls steps ss ihs ih => exact ⟨ihs hw.1, ih hw.2⟩
  | cond arms decls steps ss iha ihs ih =>
    obtain ⟨⟨harms, hother⟩, hss⟩ := hw
    rw [armsSource_eq, armsWithin_iff, List.forall_mem_map] at harms
    exact ⟨⟨forwardArms_within hd (fun arm h => ⟨(harms arm h).1, iha arm h (harms arm h).2⟩) 0,
      blockWithin_append.mpr ⟨ihs hother, hd, trivial⟩⟩, ih hss⟩
  | loop id header test decls steps ss ihs ih =>
    obtain ⟨⟨hh, ht, hb⟩, hss⟩ := hw
    exact ⟨⟨hh, ht, blockWithin_append.mpr ⟨ihs hb, hd, trivial⟩⟩, ih hss⟩

end Level

end Backsweep
