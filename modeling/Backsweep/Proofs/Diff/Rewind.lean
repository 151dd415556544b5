import Mathlib
import Backsweep.Proofs.Diff.Emission
import Backsweep.Proofs.Diff.Trail

/-!
# Trails of the reverse section

A run of the reverse section leaves a trail as well: the calls whose reverse code
ran, with what it was given for their arguments and results, and how often loops
were repeated.

* `stepsRewound`: the reverse code of the steps ran, with its trail;
* `stepsRewound.exec`: what left a trail was run;
* `Undoes`: what the reverse section owes to a visit of the forward section.
-/

namespace Backsweep

variable {R : Type}

/-- What the reverse section leaves behind. -/
inductive Supply (R : Type) where
  /-- The reverse code of a call ran. The variables that its rules take for the
  arguments and the result of the call held `inputs` and `primal`. -/
  | call (site : Site) (c : ActiveCall) (inputs : List (Option (Slot R)))
      (primal : Option (Slot R))
  | loop (site : Site) (rounds : Nat)

/-- The reverse code of the same call at the same place ran. Where an applied
rule reads an argument it was given the value the call was evaluated on, and
where one reads the result, the value that the call gave. A loop was repeated as
often as it was run. -/
def Undoes : Visit R → Supply R → Prop
  | .call site c args result, .call site' c' inputs primal => site' = site ∧ c' = c ∧
      (∀ i : Nat, (c.node.inputsReferenced c.activeArgs)[i]? = some true →
        ∃ s a, inputs[i]? = some (some s) ∧ args[i]? = some a ∧ s.value = a.value) ∧
      (c.node.primalReferenced c.activeArgs = true →
        ∃ s, primal = some s ∧ s.value = result.value)
  | .loop site rounds, .loop site' rounds' => site' = site ∧ rounds' = rounds
  | _, _ => False

variable [Scalar R]

section
variable (j : Job R) (s : Sweep)

/-- The accumulators of a section started, then its steps were undone. -/
def SectionRewound (decls : List Var)
    (steps : Accumulators → Locals → Machine R → List (Supply R) → Machine R → Prop)
    (accs : Accumulators) (l : Locals) : Machine R → List (Supply R) → Machine R → Prop :=
  fun n log n' => ∃ inits new l₁ n₁,
    s.declareAccs (fun _ => s.zeroExpr) decls l = .ok ((inits, new), l₁) ∧
    j.execBlock inits n = .ok .next n₁ ∧ steps (accs.add new) l₁ n₁ log n'

mutual

/-- The reverse code of a step ran, which was generated with the given
accumulators from the given table on. -/
def Step.Rewound (site : Site) :
    Step → Accumulators → Locals → Machine R → List (Supply R) → Machine R → Prop
  | .inert run => fun accs _ n log n' =>
      j.execBlock (s.reverseInert accs run) n = .ok .next n' ∧ log = []
  | .call c => fun accs l n log n' => ∃ a before upstream ins primal l₁ after l' n₁,
      accs.find? c.dst = some a ∧
      s.prepare c a l = .ok ((before, upstream, ins, primal), l₁) ∧
      s.contributions accs c.node.pushback upstream ins primal (Sweep.ruled c) l₁ =
        .ok (after, l') ∧
      j.execBlock before n = .ok .next n₁ ∧ j.execBlock after n₁ = .ok .next n' ∧
      log = [.call site c (ins.map n₁.var) (n₁.var primal)]
  | .assign dst decl src active => fun accs l n log n' => ∃ code l',
      s.reverseAssign accs dst decl src active l = .ok (code, l') ∧
      j.execBlock code n = .ok .next n' ∧ log = []
  | .tapeWrite _ val active => fun accs l n log n' => ∃ code l',
      s.reverseTapeWrite accs val active l = .ok (code, l') ∧
      j.execBlock code n = .ok .next n' ∧ log = []
  | .block (decls, steps) => SectionRewound j s decls (stepsRewound site 0 steps)
  | .cond arms (decls, steps) => fun accs l n log n' => ∃ taken l₁ testStmts tests l₂ n₁,
      Sweep.declare "branch" .int false l = .ok (taken, l₁) ∧
      Sweep.branchTests taken (arms.length + 1) 0 l₁ = .ok ((testStmts, tests), l₂) ∧
      j.execBlock (.define taken true (.pop s.level.decisions) :: testStmts) n =
        .ok .next n₁ ∧
      armsRewound site 0 arms
        (SectionRewound j s decls (stepsRewound (arms.length :: site) 0 steps)) accs tests l₂
        n₁ log n'
  | .loop id _ _ (decls, steps) => fun accs l n log n' => ∃ again l₁ iteration l₂ logs,
      Sweep.declare "repeat" .bool false l = .ok (again, l₁) ∧
      Sweep.declare "iteration" .int false l₁ = .ok (iteration, l₂) ∧
      Rounds j [.define again true (.topIs s.level.decisions id)] again
        (fun n log n' => ∃ n₁,
          j.execBlock [.define iteration true (.pop s.level.decisions)] n = .ok .next n₁ ∧
          SectionRewound j s decls (stepsRewound site 0 steps) accs l₂ n₁ log n')
        n logs n' ∧
      log = .loop site logs.length :: logs.flatten

/-- The reverse code of steps ran, last step first. -/
def stepsRewound (site : Site) (place : Nat) :
    List Step → Accumulators → Locals → Machine R → List (Supply R) → Machine R → Prop
  | [] => fun _ _ n log n' => n' = n ∧ log = []
  | step :: steps => fun accs l n log n' => ∃ later l₁ n₁ log₁ log₂,
      s.reverseSteps accs steps l = .ok (later, l₁) ∧
      stepsRewound site (place + 1) steps accs l n log₁ n₁ ∧
      step.Rewound (place :: site) accs l₁ n₁ log₂ n' ∧ log = log₁ ++ log₂

/-- The reverse code of the first branch whose test holds ran. -/
def armsRewound (site : Site) (index : Nat) : List (Var × List Var × List Step) →
    (Accumulators → Locals → Machine R → List (Supply R) → Machine R → Prop) →
      Accumulators → List Var → Locals → Machine R → List (Supply R) → Machine R → Prop
  | [], other => fun accs tests l n log n' =>
      ∃ test, tests = [test] ∧ n.Tests test true ∧ other accs l n log n'
  | (_, decls, steps) :: arms, other => fun accs tests l n log n' =>
      ∃ test rest, tests = test :: rest ∧
        (n.Tests test true ∧
          SectionRewound j s decls (stepsRewound (index :: site) 0 steps) accs l n log n' ∨
        n.Tests test false ∧ ∃ code l', s.reverseSection accs decls steps l = .ok (code, l') ∧
          armsRewound site (index + 1) arms other accs rest l' n log n')

end

end

/-! ## Trails and runs -/

section
variable {j : Job R} {s : Sweep} {accs : Accumulators} {site : Site} {l l' : Locals}
  {n n' : Machine R} {log : List (Supply R)}

theorem SectionRewound.exec {decls : List Var} {steps : List Step} {place : Nat}
    (ih : ∀ {accs l l' n log n' code},
      s.reverseSteps accs steps l = .ok (code, l') →
      stepsRewound j s site place steps accs l n log n' → j.execBlock code n = .ok .next n')
    {code : Block} (hcode : s.reverseSection accs decls steps l = .ok (code, l'))
    (h : SectionRewound j s decls (stepsRewound j s site place steps) accs l n log n') :
    j.execBlock code n = .ok .next n' := by
  obtain ⟨l₁, inner, hinits, -, -, hinner, rfl⟩ := Sweep.reverseSection_eq_ok hcode
  obtain ⟨inits, new, l₂, n₁, hinits', hexec, hsteps⟩ := h
  rw [hinits] at hinits'
  cases hinits'
  rw [Job.execBlock_append_next j hexec]
  exact ih hinner hsteps

theorem armsRewound.exec {arms : List (Var × List Var × List Step)} {index place : Nat}
    {decls : List Var} {steps : List Step} {site' : Site}
    (ih : ∀ arm ∈ arms, ∀ {site accs l l' n log n' code},
      s.reverseSteps accs arm.2.2 l = .ok (code, l') →
      stepsRewound j s site 0 arm.2.2 accs l n log n' → j.execBlock code n = .ok .next n')
    (iho : ∀ {accs l l' n log n' code},
      s.reverseSteps accs steps l = .ok (code, l') →
      stepsRewound j s site' place steps accs l n log n' → j.execBlock code n = .ok .next n')
    {tests : List Var} {blocks : List Block} {last : Block} {l₁ : Locals}
    (hblocks : s.reverseArms accs arms l = .ok (blocks, l₁))
    (hlast : s.reverseSection accs decls steps l₁ = .ok (last, l'))
    (h : armsRewound j s site index arms
      (SectionRewound j s decls (stepsRewound j s site' place steps)) accs tests l n log n') :
    j.execArms (tests.zip (blocks ++ [last])) (j.execBlock [.unreachable]) n = .ok .next n' := by
  induction arms generalizing index tests blocks l with
  | nil =>
    obtain ⟨rfl, rfl⟩ := emit_pure_eq_ok.mp hblocks
    obtain ⟨test, rfl, htest, hother⟩ := h
    exact Job.execArms_eq_ok.mpr (.inl ⟨htest, hother.exec iho hlast⟩)
  | cons arm arms iha =>
    obtain ⟨cond, armDecls, armSteps⟩ := arm
    obtain ⟨first, l₂, blocks', hfirst, hrest, rfl⟩ := Sweep.reverseArms_cons hblocks
    obtain ⟨test, rest, rfl, ⟨htest, hran⟩ | ⟨htest, code, l₃, hcode, hran⟩⟩ := h
    · refine Job.execArms_eq_ok.mpr (.inl ⟨htest, ?_⟩)
      exact hran.exec (fun hc hr => ih (cond, armDecls, armSteps) (by simp) hc hr) hfirst
    · rw [hfirst] at hcode
      cases hcode
      exact Job.execArms_eq_ok.mpr (.inr ⟨htest, iha (fun arm harm => ih arm (by simp [harm]))
        hrest hran⟩)

/-- The steps behind the first one are undone before it. -/
theorem stepsRewound.cons_exec {step : Step} {steps : List Step} {place : Nat} {code : Block}
    (ih : ∀ {l₁ log₁ n₁ later}, s.reverseSteps accs steps l = .ok (later, l₁) →
      stepsRewound j s site (place + 1) steps accs l n log₁ n₁ → j.execBlock later n = .ok .next n₁)
    (hstep : ∀ {l₁ log₁ n₁ now}, s.reverseStep accs step l₁ = .ok (now, l') →
      step.Rewound j s (place :: site) accs l₁ n₁ log₁ n' → j.execBlock now n₁ = .ok .next n')
    (hcode : s.reverseSteps accs (step :: steps) l = .ok (code, l'))
    (h : stepsRewound j s site place (step :: steps) accs l n log n') :
    j.execBlock code n = .ok .next n' := by
  obtain ⟨later, l₁, now, hlater, hnow, rfl⟩ := Sweep.reverseSteps_cons hcode
  obtain ⟨later', l₂, n₁, log₁, log₂, hlater', hrest, hran, -⟩ := h
  rw [hlater] at hlater'
  cases hlater'
  rw [Job.execBlock_append_next j (ih hlater hrest)]
  exact hstep hnow hran

/-- What left a trail was run. -/
theorem stepsRewound.exec {ss : List Step} {place : Nat} {code : Block}
    (hcode : s.reverseSteps accs ss l = .ok (code, l'))
    (h : stepsRewound j s site place ss accs l n log n') : j.execBlock code n = .ok .next n' := by
  induction ss using stepsInduction generalizing site place accs l l' n n' log code with
  | nil =>
    obtain ⟨rfl, -⟩ := emit_pure_eq_ok.mp hcode
    obtain ⟨rfl, -⟩ := h
    rfl
  | leaf step steps hleaf ih =>
    refine stepsRewound.cons_exec (fun hc hr => ih hc hr) ?_ hcode h
    intro l₁ log₁ n₁ now hnow hstep
    cases step, hleaf using Step.leafCases with
    | inert run =>
      obtain ⟨rfl, -⟩ := emit_pure_eq_ok.mp hnow
      exact hstep.1
    | call c =>
      obtain ⟨a, before, upstream, ins, primal, l₂, after, ha, hbefore, hafter, rfl⟩ :=
        Sweep.reverseCall_eq_ok hnow
      obtain ⟨a', before', upstream', ins', primal', l₃, after', l₄, n₂, ha', hbefore', hafter',
        hexec, hexec', -⟩ := hstep
      rw [ha] at ha'
      cases ha'
      rw [hbefore] at hbefore'
      cases hbefore'
      rw [hafter] at hafter'
      cases hafter'
      rw [Job.execBlock_append_next j hexec]
      exact hexec'
    | assign dst decl src active =>
      obtain ⟨code, l₂, hcode', hexec, -⟩ := hstep
      have hsame : s.reverseAssign accs dst decl src active l₁ = .ok (now, l') := hnow
      rw [hsame] at hcode'
      cases hcode'
      exact hexec
    | tapeWrite t val active =>
      obtain ⟨code, l₂, hcode', hexec, -⟩ := hstep
      have hsame : s.reverseTapeWrite accs val active l₁ = .ok (now, l') := hnow
      rw [hsame] at hcode'
      cases hcode'
      exact hexec
  | block decls steps rest ihs ih =>
    refine stepsRewound.cons_exec (fun hc hr => ih hc hr) ?_ hcode h
    intro l₁ log₁ n₁ now hnow hstep
    obtain ⟨inner, hinner, rfl⟩ := Sweep.reverseStep_block hnow
    rw [Job.execBlock_singleton]
    exact hstep.exec (fun hc hr => ihs hc hr) hinner
  | cond arms decls steps rest iha ihs ih =>
    refine stepsRewound.cons_exec (fun hc hr => ih hc hr) ?_ hcode h
    intro l₁ log₁ n₁ now hnow hstep
    obtain ⟨l₂, testStmts, tests, l₃, blocks, l₄, last, hdecl, -, -, htests, hblocks, hlast, rfl⟩ :=
      Sweep.reverseStep_cond hnow
    obtain ⟨taken, l₅, testStmts', tests', l₆, n₂, hdecl', htests', hexec, harms⟩ := hstep
    rw [hdecl] at hdecl'
    cases hdecl'
    rw [htests] at htests'
    cases htests'
    rw [Job.execBlock_append_next j hexec, Job.execBlock_singleton]
    exact armsRewound.exec (fun arm harm _ _ _ _ _ _ _ _ hc hr => iha arm harm hc hr)
      (fun hc hr => ihs hc hr) hblocks hlast harms
  | loop id header test decls steps rest ihs ih =>
    refine stepsRewound.cons_exec (fun hc hr => ih hc hr) ?_ hcode h
    intro l₁ log₁ n₁ now hnow hstep
    obtain ⟨l₂, l₃, body, hdecl₁, hdecl₂, -, -, hbody, rfl⟩ := Sweep.reverseStep_loop hnow
    obtain ⟨again, l₄, iteration, l₅, logs, hdecl₁', hdecl₂', hrounds, -⟩ := hstep
    rw [hdecl₁] at hdecl₁'
    cases hdecl₁'
    rw [hdecl₂] at hdecl₂'
    cases hdecl₂'
    rw [Job.execBlock_singleton]
    refine hrounds.exec fun m x m' hround => ?_
    obtain ⟨n₂, hpop, hsection⟩ := hround
    rw [← List.singleton_append, Job.execBlock_append_next j hpop]
    exact hsection.exec (fun hc hr => ihs hc hr) hbody

end

end Backsweep
