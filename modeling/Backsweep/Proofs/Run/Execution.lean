import Mathlib
import Backsweep.Proofs.Run.Memory

/-!
# Induction over runs

A run is made of atomic statements, tests and ticks. What they all respect, a
run of any block respects.

* `blockInduction`: induction over blocks, however their statements are nested;
* `atoms_of_blocks`: what inner blocks inherit, of the atomic statements;
* `RunLaw`: what is to be shown of every atomic statement;
* `RunLaw.block`: it then holds of every block, however often its loops go round.
-/

namespace Backsweep

mutual

/-- The statements in a statement that are not control flow, in order. -/
def Stmt.atoms : Stmt → List Stmt
  | .define dst decl e => [.define dst decl e]
  | .store obj field val => [.store obj field val]
  | .push t val => [.push t val]
  | .pushDecision t d => [.pushDecision t d]
  | .unreachable => [.unreachable]
  | .ret vals => [.ret vals]
  | .cond arms other => armsAtoms arms ++ blockAtoms other
  | .loop header _ body => blockAtoms header ++ blockAtoms body
  | .doLoop body _ => blockAtoms body
  | .block body => blockAtoms body

def blockAtoms : List Stmt → List Stmt
  | [] => []
  | s :: ss => s.atoms ++ blockAtoms ss

def armsAtoms : List (Var × List Stmt) → List Stmt
  | [] => []
  | (_, body) :: arms => blockAtoms body ++ armsAtoms arms

end

theorem Stmt.atoms_of_not_controlFlow {s : Stmt} (h : s.isControlFlow = false) : s.atoms = [s] := by
  cases s <;> first | rfl | cases h

theorem blockAtoms_append (a b : Block) : blockAtoms (a ++ b) = blockAtoms a ++ blockAtoms b := by
  induction a with
  | nil => rfl
  | cons s a ih => simp [blockAtoms, ih]

theorem mem_blockAtoms {a : Stmt} {b : Block} : a ∈ blockAtoms b ↔ ∃ s ∈ b, a ∈ s.atoms := by
  induction b with
  | nil => simp [blockAtoms]
  | cons s b ih => simp [blockAtoms, ih]

theorem mem_armsAtoms {a : Stmt} {arms : List (Var × Block)} :
    a ∈ armsAtoms arms ↔ ∃ arm ∈ arms, a ∈ blockAtoms arm.2 := by
  induction arms with
  | nil => simp [armsAtoms]
  | cons arm arms ih => simp [armsAtoms, ih]

theorem armsAtoms_eq (arms : List (Var × Block)) :
    armsAtoms arms = arms.flatMap fun arm => blockAtoms arm.2 := by
  induction arms with
  | nil => rfl
  | cons arm arms ih => simp [armsAtoms, ih]

/-- The cases of a statement that is not control flow. -/
theorem Stmt.atomCases {motive : (s : Stmt) → s.isControlFlow = false → Prop}
    (define : ∀ dst decl e, motive (.define dst decl e) rfl)
    (store : ∀ obj field val, motive (.store obj field val) rfl)
    (push : ∀ t val, motive (.push t val) rfl)
    (pushDecision : ∀ t d, motive (.pushDecision t d) rfl) (unreachable : motive .unreachable rfl)
    (ret : ∀ vals, motive (.ret vals) rfl) (s : Stmt) (hs : s.isControlFlow = false) :
    motive s hs := by
  cases s with
  | define dst decl e => exact define dst decl e
  | store obj field val => exact store obj field val
  | push t val => exact push t val
  | pushDecision t d => exact pushDecision t d
  | unreachable => exact unreachable
  | ret vals => exact ret vals
  | _ => cases hs

/-- Induction over blocks: over the statements of a block, and over the blocks
inside of its first statement. -/
theorem blockInduction {motive : Block → Prop} (nil : motive [])
    (atom : ∀ s ss, s.isControlFlow = false → motive ss → motive (s :: ss))
    (cond : ∀ arms other ss, (∀ arm ∈ arms, motive arm.2) → motive other → motive ss →
      motive (.cond arms other :: ss))
    (loop : ∀ header test body ss, motive header → motive body → motive ss →
      motive (.loop header test body :: ss))
    (doLoop : ∀ body test ss, motive body → motive ss → motive (.doLoop body test :: ss))
    (block : ∀ body ss, motive body → motive ss → motive (.block body :: ss)) (b : Block) :
    motive b := by
  match b with
  | [] => exact nil
  | .cond arms other :: ss =>
    have arm (a : Var × Block) (h : a ∈ arms) : sizeOf a.2 < sizeOf arms := by
      have := List.sizeOf_lt_of_mem h
      obtain ⟨t, body⟩ := a
      simp only [Prod.mk.sizeOf_spec] at this
      simp only
      omega
    exact cond arms other ss
      (fun a h => have := arm a h; blockInduction nil atom cond loop doLoop block a.2)
      (blockInduction nil atom cond loop doLoop block other)
      (blockInduction nil atom cond loop doLoop block ss)
  | .loop header test body :: ss =>
    exact loop header test body ss (blockInduction nil atom cond loop doLoop block header)
      (blockInduction nil atom cond loop doLoop block body)
      (blockInduction nil atom cond loop doLoop block ss)
  | .doLoop body test :: ss =>
    exact doLoop body test ss (blockInduction nil atom cond loop doLoop block body)
      (blockInduction nil atom cond loop doLoop block ss)
  | .block body :: ss =>
    exact block body ss (blockInduction nil atom cond loop doLoop block body)
      (blockInduction nil atom cond loop doLoop block ss)
  | .define dst decl e :: ss | .store obj field val :: ss | .push t val :: ss
  | .pushDecision t d :: ss | .unreachable :: ss | .ret vals :: ss =>
    exact atom _ ss rfl (blockInduction nil atom cond loop doLoop block ss)
termination_by sizeOf b
decreasing_by all_goals simp_wf <;> omega

/-- A property that a block passes on to the blocks inside of it, and that says something of
atomic statements, says it of all of them. -/
theorem atoms_of_blocks {Q : Block → Prop} {P : Stmt → Prop}
    (atom : ∀ s ss, s.isControlFlow = false → Q (s :: ss) → P s ∧ Q ss)
    (cond : ∀ arms other ss, Q (.cond arms other :: ss) →
      (∀ arm ∈ arms, Q arm.2) ∧ Q other ∧ Q ss)
    (loop : ∀ header test body ss, Q (.loop header test body :: ss) → Q header ∧ Q body ∧ Q ss)
    (doLoop : ∀ body test ss, Q (.doLoop body test :: ss) → Q body ∧ Q ss)
    (block : ∀ body ss, Q (.block body :: ss) → Q body ∧ Q ss) {b : Block} (h : Q b) :
    ∀ a ∈ blockAtoms b, P a := by
  induction b using blockInduction with
  | nil => simp [blockAtoms]
  | atom s ss hs ih =>
    obtain ⟨hP, hss⟩ := atom s ss hs h
    simpa [blockAtoms, Stmt.atoms_of_not_controlFlow hs, hP] using ih hss
  | cond arms other ss iha iho ih =>
    obtain ⟨harms, hother, hss⟩ := cond arms other ss h
    simp only [blockAtoms, Stmt.atoms, List.mem_append, mem_armsAtoms]
    rintro a ((⟨arm, harm, ha⟩ | ha) | ha)
    · exact iha arm harm (harms arm harm) a ha
    · exact iho hother a ha
    · exact ih hss a ha
  | loop header test body ss ihh ihb ih =>
    obtain ⟨hheader, hbody, hss⟩ := loop header test body ss h
    simp only [blockAtoms, Stmt.atoms, List.forall_mem_append]
    exact ⟨⟨ihh hheader, ihb hbody⟩, ih hss⟩
  | doLoop body test ss ihb ih =>
    obtain ⟨hbody, hss⟩ := doLoop body test ss h
    simp only [blockAtoms, Stmt.atoms, List.forall_mem_append]
    exact ⟨ihb hbody, ih hss⟩
  | block body ss ihb ih =>
    obtain ⟨hbody, hss⟩ := block body ss h
    simp only [blockAtoms, Stmt.atoms, List.forall_mem_append]
    exact ⟨ihb hbody, ih hss⟩

theorem blockAtoms_atomic (b : Block) : ∀ a ∈ blockAtoms b, a.isControlFlow = false :=
  atoms_of_blocks (Q := fun _ => True) (fun _ _ hs _ => ⟨hs, trivial⟩)
    (fun _ _ _ _ => ⟨fun _ _ => trivial, trivial, trivial⟩)
    (fun _ _ _ _ _ => ⟨trivial, trivial, trivial⟩) (fun _ _ _ _ => ⟨trivial, trivial⟩)
    (fun _ _ _ => ⟨trivial, trivial⟩) trivial

def Stmt.isCall : Stmt → Bool
  | .define _ _ (.call _ _ _) => true
  | _ => false

/-- The function is made of primitive operations. -/
def Func.CallsNothing (f : Func) : Prop := ∀ s ∈ blockAtoms f.body, s.isCall = false

instance (f : Func) : Decidable f.CallsNothing :=
  inferInstanceAs (Decidable (∀ s ∈ blockAtoms f.body, s.isCall = false))

theorem Func.CallsNothing.not_mem {f : Func} (h : f.CallsNothing) (dst : Var) (decl : Bool)
    (callee : String) (args : List Var) (node : Option String) :
    Stmt.define dst decl (.call callee args node) ∉ blockAtoms f.body := by
  intro ha
  cases h _ ha

theorem Job.doRounds_eq {R : Type} (j : Job R) (body : Exec R (Flow R)) (test : Exec R Bool)
    (n : Nat) : j.doRounds body test n = j.whileRounds body test (pure .next) n := by
  induction n with
  | zero => rfl
  | succ n ih =>
    simp only [doRounds, whileRounds, ih]
    rfl

/-- A loop with its test at the end is a header that is run over and over. -/
theorem Job.exec_doLoop {R : Type} [Scalar R] (j : Job R) (body : Block) (test : Var) :
    j.exec (.doLoop body test) = j.exec (.loop body test []) := by
  have h : j.exec (.doLoop body test) =
      j.roundsLeft >>= fun n => j.doRounds (j.execBlock body) (j.readBool test) n := rfl
  simp only [h, doRounds_eq]
  rfl

/-- What every action of a run respects: a relation between the machine before
and after, and what is said of the way blocks end, with the machine they end on,
and of errors. -/
structure RunLaw (R : Type) where
  step : Machine R → Machine R → Prop
  flow : Flow R → Machine R → Prop
  error : RunError → Prop
  refl : ∀ m, step m m
  trans : ∀ {a b c}, step a b → step b c → step a c
  tick : ∀ m, step m m.ticked
  next : ∀ m, flow .next m
  limit : error .stepLimit
  undefinedVar : ∀ x, error (.undefinedVar x)
  typeConfusion : ∀ a b, error (.typeConfusion a b)

namespace RunLaw

variable {R : Type} (law : RunLaw R)

/-- Whenever the action ends, the law holds. -/
def Obeys (act : Exec R (Flow R)) : Prop :=
  ∀ m, Ends (act m) (fun flow m' => law.flow flow m' ∧ law.step m m')
    (fun e m' => law.error e ∧ law.step m m')

variable {law}

theorem Obeys.from {act : Exec R (Flow R)} (h : law.Obeys act) {a b : Machine R}
    (hab : law.step a b) :
    Ends (act b) (fun flow m' => law.flow flow m' ∧ law.step a m')
      (fun e m' => law.error e ∧ law.step a m') :=
  (h b).mono (fun _ _ h => ⟨h.1, law.trans hab h.2⟩) (fun _ _ h => ⟨h.1, law.trans hab h.2⟩)

theorem obeys_next : law.Obeys (pure .next) := fun m => ⟨law.next m, law.refl m⟩

theorem readBool_ends (law : RunLaw R) (j : Job R) (v : Var) (m : Machine R) :
    Ends (j.readBool v m) (fun _ m' => m' = m) (fun e m' => law.error e ∧ m' = m) := by
  cases h : m.var v with
  | none => rw [Job.readBool_none j m h]; exact ⟨law.undefinedVar _, rfl⟩
  | some s =>
    rw [Job.readBool_some j m h]
    cases s.value with
    | bool b => rfl
    | real x => exact ⟨law.typeConfusion _ _, rfl⟩
    | int n => exact ⟨law.typeConfusion _ _, rfl⟩
    | obj o => exact ⟨law.typeConfusion _ _, rfl⟩

theorem tick_ends (law : RunLaw R) (j : Job R) (m : Machine R) :
    Ends (j.tick m) (fun _ m' => law.step m m') (fun e m' => law.error e ∧ law.step m m') := by
  rw [Job.tick_apply]
  split
  · exact ⟨law.limit, law.tick m⟩
  · exact law.tick m

theorem whileRounds (j : Job R) {header body : Exec R (Flow R)} (test : Var)
    (hh : law.Obeys header) (hb : law.Obeys body) (n : Nat) :
    law.Obeys (j.whileRounds header (j.readBool test) body n) := by
  induction n with
  | zero => exact fun m => ⟨law.limit, law.refl m⟩
  | succ n ih =>
    intro m
    simp only [Job.whileRounds]
    rw [ends_bind]
    refine (tick_ends law j m).mono (fun _ m₁ h₁ => ?_) (fun _ _ h => h)
    rw [ends_bind]
    refine (hh.from h₁).mono (fun flow m₂ h₂ => ?_) (fun _ _ h => h)
    cases flow with
    | ret vals => exact h₂
    | next =>
      rw [ends_bind]
      refine (readBool_ends law j test m₂).mono (fun go m₃ h₃ => ?_) (fun _ m₃ h₃ => ?_)
      · subst h₃
        cases go with
        | false => exact h₂
        | true =>
          simp only [ite_true]
          rw [ends_bind]
          refine (hb.from h₂.2).mono (fun flow m₄ h₄ => ?_) (fun _ _ h => h)
          cases flow with
          | ret vals => exact h₄
          | next => exact ih.from h₄.2
      · rw [h₃.2]; exact ⟨h₃.1, h₂.2⟩

variable [Scalar R] (j : Job R)

theorem arms {as : List (Var × Block)} {other : Exec R (Flow R)}
    (h : ∀ a ∈ as, law.Obeys (j.execBlock a.2)) (ho : law.Obeys other) :
    law.Obeys (j.execArms as other) := by
  induction as with
  | nil => exact ho
  | cons a as ih =>
    obtain ⟨test, body⟩ := a
    have hb : law.Obeys (j.execBlock body) := h (test, body) (by simp)
    have has := ih fun a ha => h a (by simp [ha])
    intro m
    simp only [Job.execArms]
    rw [ends_bind]
    refine (readBool_ends law j test m).mono (fun go m₁ h₁ => ?_) (fun _ m₁ h₁ => ?_)
    · subst h₁
      cases go with
      | true => exact hb _
      | false => exact has _
    · rw [h₁.2]; exact ⟨h₁.1, law.refl m⟩

theorem cons {s : Stmt} {ss : Block} (hs : law.Obeys (j.exec s)) (hss : law.Obeys (j.execBlock ss)) :
    law.Obeys (j.execBlock (s :: ss)) := by
  intro m
  simp only [Job.execBlock]
  rw [ends_bind]
  refine (hs m).mono (fun flow m₁ h₁ => ?_) (fun _ _ h => h)
  cases flow with
  | ret vals => exact h₁
  | next => exact hss.from h₁.2

/-- A block respects what its atomic statements respect. -/
theorem block (b : Block) (h : ∀ a ∈ blockAtoms b, law.Obeys (j.exec a)) :
    law.Obeys (j.execBlock b) := by
  induction b using blockInduction with
  | nil => exact obeys_next
  | atom s ss hs ih =>
    simp only [blockAtoms, Stmt.atoms_of_not_controlFlow hs, List.mem_append] at h
    exact cons j (h s (.inl (by simp))) (ih fun a ha => h a (.inr ha))
  | cond as other ss iha iho ih =>
    simp only [blockAtoms, Stmt.atoms, List.mem_append, mem_armsAtoms] at h
    refine cons j (arms j (fun a ha => iha a ha fun x hx => ?_) (iho fun a ha => ?_))
      (ih fun a ha => h a (.inr ha))
    · exact h x (.inl (.inl ⟨a, ha, hx⟩))
    · exact h a (.inl (.inr ha))
  | loop header test body ss ihh ihb ih =>
    simp only [blockAtoms, Stmt.atoms, List.mem_append] at h
    refine cons j (fun m => ?_) (ih fun a ha => h a (.inr ha))
    exact whileRounds j test (ihh fun a ha => h a (.inl (.inl ha)))
      (ihb fun a ha => h a (.inl (.inr ha))) _ m
  | doLoop body test ss ihb ih =>
    simp only [blockAtoms, Stmt.atoms, List.mem_append] at h
    refine cons j (fun m => ?_) (ih fun a ha => h a (.inr ha))
    rw [Job.exec_doLoop]
    exact whileRounds j test (ihb fun a ha => h a (.inl ha)) obeys_next _ m
  | block body ss ihb ih =>
    simp only [blockAtoms, Stmt.atoms, List.mem_append] at h
    exact cons j (ihb fun a ha => h a (.inl ha)) (ih fun a ha => h a (.inr ha))

end RunLaw

end Backsweep
