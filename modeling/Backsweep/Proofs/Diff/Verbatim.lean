import Mathlib
import Backsweep.Diff.Builtin
import Backsweep.Proofs.Diff.Lowering
import Backsweep.Proofs.Run.Frame

/-!
# The forward section is the function, verbatim

A forward section is the body of the function with pushes to the tapes of its level in
between. Without them, it is the body up to its return.

* `Level.strip`: statements without the pushes of a level, at every depth;
* `Level.strip_eq_self`: nothing goes where the tapes of the level are not used;
* `Level.strip_forwardSteps`: the forward section gives back what the steps were made from;
* `Lowering.forward_verbatim`: the forward section of a plan gives back the function.
-/

namespace Backsweep

namespace Level

/-- The tapes that the forward section pushes to. -/
def records (l : Level) (t : Tape) : Bool := t = l.values || t = l.decisions

mutual

/-- A statement without the pushes that the forward section makes, if anything is left. -/
def stripStmt (l : Level) : Stmt → Block
  | .push t val => if l.records t then [] else [.push t val]
  | .pushDecision t d => if l.records t then [] else [.pushDecision t d]
  | .cond arms other => [.cond (l.stripArms arms) (l.strip other)]
  | .loop header test body => [.loop (l.strip header) test (l.strip body)]
  | .doLoop body test => [.doLoop (l.strip body) test]
  | .block body => [.block (l.strip body)]
  | .define dst decl e => [.define dst decl e]
  | .store obj field val => [.store obj field val]
  | .unreachable => [.unreachable]
  | .ret vals => [.ret vals]

/-- Statements without the pushes that the forward section makes, at every depth. -/
def strip (l : Level) : List Stmt → Block
  | [] => []
  | s :: ss => l.stripStmt s ++ l.strip ss

def stripArms (l : Level) : List (Var × List Stmt) → List (Var × Block)
  | [] => []
  | (test, body) :: arms => (test, l.strip body) :: l.stripArms arms

end

attribute [simp] stripStmt strip stripArms

variable {l : Level}

theorem records_values (l : Level) : l.records l.values = true := by simp [records]

theorem records_decisions (l : Level) : l.records l.decisions = true := by simp [records]

theorem records_older {t : Tape} (h : t.level < l.val) : l.records t = false := by
  have hvalues : t ≠ l.values := by
    rintro rfl
    exact Nat.lt_irrefl _ h
  have hdecisions : t ≠ l.decisions := by
    rintro rfl
    exact Nat.lt_irrefl _ h
  simp [records, hvalues, hdecisions]

theorem strip_append (a b : Block) : l.strip (a ++ b) = l.strip a ++ l.strip b := by
  induction a with
  | nil => rfl
  | cons s a ih => rw [List.cons_append, strip, strip, ih, List.append_assoc]

theorem stripArms_eq (arms : List (Var × Block)) :
    l.stripArms arms = arms.map fun arm => (arm.1, l.strip arm.2) := by
  induction arms with
  | nil => rfl
  | cons arm arms ih => rw [stripArms, ih, List.map_cons]

theorem stripStmt_atom {s : Stmt} (hs : s.isControlFlow = false)
    (h : ∀ t ∈ s.tapes, l.records t = false) : l.stripStmt s = [s] := by
  cases s, hs using Stmt.atomCases with
  | push t val =>
    have ht := h t (by simp [Stmt.tapes])
    simp [stripStmt, ht]
  | pushDecision t d =>
    have ht := h t (by simp [Stmt.tapes])
    simp [stripStmt, ht]
  | _ => rfl

/-- Statements that do not use the tapes of the level stay as they are. -/
theorem strip_eq_self {b : Block} (h : ∀ t ∈ blockTapes b, l.records t = false) :
    l.strip b = b := by
  induction b using blockInduction with
  | nil => rfl
  | atom s ss hs ih =>
    simp only [blockTapes, List.mem_append] at h
    rw [strip, stripStmt_atom hs fun t ht => h t (.inl ht), ih fun t ht => h t (.inr ht)]
    rfl
  | cond arms other ss iha iho ih =>
    simp only [blockTapes, Stmt.tapes, List.mem_append, mem_armsTapes] at h
    have harms : l.stripArms arms = arms := by
      rw [stripArms_eq]
      refine (List.map_congr_left fun arm harm => ?_).trans (List.map_id arms)
      rw [iha arm harm fun t ht => h t (.inl (.inl ⟨arm, harm, ht⟩))]
      rfl
    rw [strip, stripStmt, harms, iho fun t ht => h t (.inl (.inr ht)),
      ih fun t ht => h t (.inr ht)]
    rfl
  | loop header test body ss ihh ihb ih =>
    simp only [blockTapes, Stmt.tapes, List.mem_append] at h
    rw [strip, stripStmt, ihh fun t ht => h t (.inl (.inl ht)),
      ihb fun t ht => h t (.inl (.inr ht)), ih fun t ht => h t (.inr ht)]
    rfl
  | doLoop body test ss ihb ih | block body ss ihb ih =>
    simp only [blockTapes, Stmt.tapes, List.mem_append] at h
    rw [strip, stripStmt, ihb fun t ht => h t (.inl ht), ih fun t ht => h t (.inr ht)]
    rfl

/-! ## What the forward section adds -/

theorem strip_pushes (vs : List Var) : l.strip (vs.map (.push l.values)) = [] := by
  induction vs with
  | nil => rfl
  | cons v vs ih => rw [List.map_cons, strip, stripStmt, if_pos l.records_values, ih, List.nil_append]

/-- A call, with what is saved before and behind it. -/
theorem strip_forwardCall (c : ActiveCall) :
    l.strip (l.forwardCall c) = [.define c.dst c.decl c.expr] := by
  have hprimal : l.strip (if c.primal = .saved then [.push l.values c.dst] else []) = [] := by
    split
    · exact strip_pushes [c.dst]
    · rfl
  rw [forwardCall, strip_append, strip_pushes, List.nil_append, strip, stripStmt, hprimal]
  rfl

/-- A block that ends by recording a decision. -/
theorem strip_record (b : Block) (d : Int) : l.strip (b ++ [l.record d]) = l.strip b := by
  have hrecord : l.strip [l.record d] = [] := by
    rw [record, strip, stripStmt, if_pos l.records_decisions]
    rfl
  rw [strip_append, hrecord, List.append_nil]

theorem strip_forwardArms {arms : List (Var × List Var × List Step)}
    (h : ∀ arm ∈ arms, l.strip (l.forwardSteps arm.2.2) = stepsSource arm.2.2) (i : Nat) :
    l.stripArms (l.forwardArms i arms) = armsSource arms := by
  induction arms generalizing i with
  | nil => rfl
  | cons arm arms ih =>
    have hfirst := h arm List.mem_cons_self
    have hrest := ih (fun arm harm => h arm (List.mem_cons_of_mem _ harm)) (i + 1)
    rw [forwardArms, stripArms, strip_record, hfirst, hrest, armsSource]

/-- **Without its pushes, a forward section is what its steps were made from.** -/
theorem strip_forwardSteps {ss : List Step}
    (h : ∀ t ∈ blockTapes (stepsSource ss), l.records t = false) :
    l.strip (l.forwardSteps ss) = stepsSource ss := by
  induction ss using stepsInduction with
  | nil => rfl
  | leaf s ss hs ih =>
    rw [stepsSource, blockTapes_append] at h
    have hss := ih fun t ht => h t (List.mem_append_right _ ht)
    have hleaf : l.strip (l.forwardStep s) = s.source := by
      have hkept := strip_eq_self fun t ht => h t (List.mem_append_left _ ht)
      cases s, hs using Step.leafCases with
      | call c => exact strip_forwardCall c
      | _ => exact hkept
    rw [forwardSteps, strip_append, hleaf, hss, stepsSource]
  | block decls steps ss ihs ih =>
    simp only [stepsSource, Step.source, List.singleton_append, blockTapes, Stmt.tapes,
      List.mem_append] at h
    have hsteps := ihs fun t ht => h t (.inl ht)
    have hss := ih fun t ht => h t (.inr ht)
    rw [forwardSteps, strip_append, hss, forwardStep, strip, stripStmt, hsteps]
    rfl
  | cond arms decls steps ss iha ihs ih =>
    simp only [stepsSource, Step.source, List.singleton_append, blockTapes, Stmt.tapes,
      List.mem_append, mem_armsTapes, armsSource_eq, List.mem_map] at h
    have harms := strip_forwardArms (fun arm harm => iha arm harm fun t ht =>
      h t (.inl (.inl ⟨_, ⟨arm, harm, rfl⟩, ht⟩))) 0
    have hsteps := ihs fun t ht => h t (.inl (.inr ht))
    have hss := ih fun t ht => h t (.inr ht)
    rw [forwardSteps, strip_append, hss, forwardStep, strip, stripStmt, harms, strip_record, hsteps]
    rfl
  | loop id header test decls steps ss ihs ih =>
    simp only [stepsSource, Step.source, List.singleton_append, blockTapes, Stmt.tapes,
      List.mem_append] at h
    have hheader := strip_eq_self fun t ht => h t (.inl (.inl ht))
    have hsteps := ihs fun t ht => h t (.inl (.inr ht))
    have hss := ih fun t ht => h t (.inr ht)
    rw [forwardSteps, strip_append, hss, forwardStep, strip, stripStmt, hheader, strip_record, hsteps]
    rfl

end Level

/-- **The forward section is the function, verbatim.** For a level above all tapes of a
function, the forward section of its plan is the body up to its return, with pushes to the
value and decision tapes of the level in between. -/
theorem Lowering.forward_verbatim {lo : Lowering} {p : Plan} {s : State}
    (h : lo.plan {} = .ok p s) {l : Level} (hlevel : ∀ t ∈ blockTapes lo.func.body, t.level < l.val) :
    lo.func.body = l.strip (l.forwardSteps p.body.2) ++ [.ret [p.ret]] := by
  have hbody := (plan_fine h).body
  have hold : ∀ t ∈ blockTapes (stepsSource p.body.2), l.records t = false := by
    intro t ht
    refine Level.records_older (hlevel t ?_)
    rw [hbody, blockTapes_append]
    exact List.mem_append_left _ ht
  rw [Level.strip_forwardSteps hold]
  exact hbody

/-- Loops and branches in each other, with a tape of their own. -/
def Func.nested : Func where
  name := "nested"
  attrs := []
  params := [⟨0⟩, ⟨1⟩]
  returns := [.real]
  vars := #[⟨"a", .real, false⟩, ⟨"n", .int, false⟩, ⟨"y", .real, true⟩, ⟨"i", .int, true⟩,
    ⟨"one", .int, false⟩, ⟨"more", .bool, false⟩, ⟨"s", .real, false⟩, ⟨"next", .bool, false⟩,
    ⟨"two", .int, false⟩, ⟨"t", .real, false⟩]
  body := [.define ⟨2⟩ true (.copy ⟨0⟩), .define ⟨3⟩ true (.copy ⟨1⟩),
    .define ⟨4⟩ true (.const (.int 1)),
    .loop [.define ⟨5⟩ true (.op .ilt [⟨4⟩, ⟨3⟩])] ⟨5⟩
      [.define ⟨6⟩ true (.op .fmul [⟨2⟩, ⟨0⟩]),
        .loop [.define ⟨7⟩ true (.op .ilt [⟨4⟩, ⟨3⟩])] ⟨7⟩
          [.define ⟨2⟩ false (.op .fmul [⟨2⟩, ⟨6⟩]), .push ⟨.values, 3⟩ ⟨2⟩,
            .define ⟨3⟩ false (.op .isub [⟨3⟩, ⟨4⟩])],
        .cond [(⟨5⟩, [.define ⟨2⟩ false (.copy ⟨6⟩)]), (⟨5⟩, [])]
          [.define ⟨8⟩ true (.op .iadd [⟨4⟩, ⟨4⟩]), .define ⟨9⟩ true (.pop ⟨.values, 3⟩),
            .block [.define ⟨3⟩ false (.op .isub [⟨3⟩, ⟨8⟩]),
              .define ⟨2⟩ false (.op .fadd [⟨9⟩, ⟨6⟩])]],
        .define ⟨3⟩ false (.op .isub [⟨3⟩, ⟨4⟩])],
    .ret [⟨2⟩]]

/-- What the forward section adds for its first parameter. -/
def Func.nestedRecords : Bool :=
  match Activity.analyze .nested (.param ⟨0⟩) true with
  | .error _ => false
  | .ok activity =>
    match (⟨.nested, activity, .builtin⟩ : Lowering).plan {} with
    | .error _ _ => false
    | .ok p _ =>
      let tapes := blockTapes ((⟨4⟩ : Level).forwardSteps p.body.2)
      tapes.count (Level.values ⟨4⟩) == 3 && tapes.count (Level.decisions ⟨4⟩) == 5

theorem Func.nestedRecords_eq : Func.nestedRecords = true := by decide +kernel

/-- Eight pushes, in branches and loops, are all that is added. -/
theorem nested_forward_verbatim : ∃ activity p s,
    (⟨.nested, activity, .builtin⟩ : Lowering).plan {} = .ok p s ∧
    (∀ t ∈ blockTapes Func.nested.body, t.level < 4) ∧
    (blockTapes ((⟨4⟩ : Level).forwardSteps p.body.2)).count (Level.values ⟨4⟩) = 3 ∧
    (blockTapes ((⟨4⟩ : Level).forwardSteps p.body.2)).count (Level.decisions ⟨4⟩) = 5 ∧
    Func.nested.body =
      (⟨4⟩ : Level).strip ((⟨4⟩ : Level).forwardSteps p.body.2) ++ [.ret [p.ret]] := by
  have h := Func.nestedRecords_eq
  unfold Func.nestedRecords at h
  split at h
  · cases h
  rename_i activity hactivity
  split at h
  · cases h
  rename_i p s hp
  simp only [Bool.and_eq_true, beq_iff_eq] at h
  have hold : ∀ t ∈ blockTapes Func.nested.body, t.level < 4 := by decide +kernel
  exact ⟨activity, p, s, hp, hold, h.1, h.2, Lowering.forward_verbatim hp hold⟩

end Backsweep
