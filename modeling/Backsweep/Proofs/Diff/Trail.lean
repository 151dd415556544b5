import Mathlib
import Backsweep.Proofs.Diff.Replay

/-!
# Trails of the forward section

A run of the forward section leaves a trail: which calls were evaluated on what,
and how often loops went round, in the order of time.

* `Rounds`: the rounds of a loop, whatever their bodies leave behind;
* `stepsRan`: the forward section of the steps ran, with its trail;
* `stepsRan.exec`, `exists_stepsRan`: the runs that end are those with a trail;
* `stepsRan.topFree`: a run leaves the numbers of its own loops only on top of
  the decisions.
-/

namespace Backsweep

variable {R : Type}
variable {b : Block} {arms : List (Var × List Var × List Step)} {index : Nat} {ss : List Step}
variable {t : Tape} {place : Nat} {a : Stmt} {s : Step}

/-- A variable holds a truth value. -/
def Machine.Tests (m : Machine R) (v : Var) (b : Bool) : Prop :=
  ∃ s, m.var v = some s ∧ s.value = .bool b

theorem Machine.Tests.readBool {m : Machine R} {v : Var} {b : Bool} (h : m.Tests v b)
    (j : Job R) : j.readBool v m = .ok b m := (j.readBool_eq_ok m).mpr ⟨h, rfl⟩

/-- The top of a tape is none of the numbers. -/
def Machine.TopFree (m : Machine R) (t : Tape) (X : Int → Prop) : Prop :=
  ∀ i, X i → m.tapes.topIs t i = false

theorem Machine.TopFree.congr {m m' : Machine R} {X : Int → Prop} (h : m.TopFree t X)
    (hs : m'.stack t = m.stack t) : m'.TopFree t X := by
  intro i hi
  rw [Machine.topIs_eq, hs, ← Machine.topIs_eq]
  exact h i hi

theorem Machine.topFree_pushTape {m : Machine R} {X : Int → Prop} {d : Int} (h : ¬X d) :
    (m.pushTape t { value := .int d }).TopFree t X := by
  intro i hi
  rw [Machine.topIs_eq, Machine.stack_pushTape_self]
  exact beq_eq_false_iff_ne.mpr fun hd => h (hd ▸ hi)

/-- Where a step stands: its place in its list, then the places around it. -/
abbrev Site := List Nat

/-- What the forward section leaves behind. -/
inductive Visit (R : Type) where
  /-- A call was evaluated on `args`, which gave `result`. -/
  | call (site : Site) (c : ActiveCall) (args : List (Slot R)) (result : Slot R)
  | loop (site : Site) (rounds : Nat)

variable [Scalar R]

/-- The rounds of a loop that ends, with what its bodies leave behind. -/
inductive Rounds {α : Type} (j : Job R) (header : Block) (test : Var)
    (body : Machine R → α → Machine R → Prop) : Machine R → List α → Machine R → Prop where
  | stop {m m' : Machine R} (limit : m.steps < j.limit)
      (ran : j.execBlock header m.ticked = .ok .next m') (tests : m'.Tests test false) :
      Rounds j header test body m [] m'
  | again {m m₁ m₂ m' : Machine R} {x : α} {xs : List α} (limit : m.steps < j.limit)
      (ran : j.execBlock header m.ticked = .ok .next m₁) (tests : m₁.Tests test true)
      (first : body m₁ x m₂) (rest : Rounds j header test body m₂ xs m') :
      Rounds j header test body m (x :: xs) m'

section
variable {α : Type} {j : Job R} {header : Block} {test : Var}
  {body : Machine R → α → Machine R → Prop} {m m' : Machine R}

theorem Job.exec_loop_stop (limit : m.steps < j.limit)
    (ran : j.execBlock header m.ticked = .ok .next m') (tests : m'.Tests test false) :
    j.exec (.loop header test b) m = .ok .next m' := by
  have htick : j.tick m = .ok () m.ticked := by rw [Job.tick_apply, if_neg (by omega)]
  rw [Job.exec_loop, Job.round]
  simp only [bind_apply, htick, ran, tests.readBool j]
  rfl

/-- A round, then the loop again. -/
theorem Job.exec_loop_again (limit : m.steps < j.limit)
    (ran : j.execBlock header m.ticked = .ok .next m') (tests : m'.Tests test true) :
    j.exec (.loop header test b) m = j.execBlock (b ++ [.loop header test b]) m' := by
  have htick : j.tick m = .ok () m.ticked := by rw [Job.tick_apply, if_neg (by omega)]
  rw [Job.exec_loop, Job.round, Job.execBlock_append]
  simp only [bind_apply, htick, ran, tests.readBool j, ite_true]
  cases j.execBlock b m' with
  | error e m₁ => rfl
  | ok flow m₁ =>
    cases flow with
    | ret vals => rfl
    | next => exact (j.execBlock_singleton _ _).symm

theorem Rounds.exec {xs : List α} (h : Rounds j header test body m xs m')
    (hb : ∀ m x m', body m x m' → j.execBlock b m = .ok .next m') :
    j.exec (.loop header test b) m = .ok .next m' := by
  induction h with
  | stop limit ran tests => exact Job.exec_loop_stop limit ran tests
  | again limit ran tests first rest ih =>
    rw [Job.exec_loop_again limit ran tests, Job.execBlock_append_next _ (hb _ _ _ first),
      Job.execBlock_singleton]
    exact ih

theorem exists_rounds_of_whileRounds
    (hb : ∀ m₁ m₂, m₁.vars.size = m.vars.size → j.execBlock b m₁ = .ok .next m₂ →
      ∃ x, body m₁ x m₂) {n : Nat}
    (h : j.whileRounds (j.execBlock header) (j.readBool test) (j.execBlock b) n m = .ok .next m') :
    ∃ xs, Rounds j header test body m xs m' := by
  have size (b : Block) {m m' : Machine R} {flow : Flow R}
      (h : j.execBlock b m = .ok flow m') : m'.vars.size = m.vars.size :=
    ((j.execBlock_frame (b := b) (V := fun _ => False) (T := fun _ => False)
      (fun _ _ _ h => h.elim) (fun _ h => h.elim) m).of_ok h).size
  induction n generalizing m with
  | zero => cases h
  | succ n ih =>
    rw [Job.whileRounds_succ] at h
    obtain ⟨_, m₁, htick, h₁⟩ := bind_eq_ok.mp h
    rw [Job.tick_apply] at htick
    split at htick
    · cases htick
    cases htick
    obtain ⟨flow, m₂, hheader, h₂⟩ := bind_eq_ok.mp h₁
    cases flow with
    | ret vals => cases h₂
    | next =>
      obtain ⟨go, m₃, htest, h₃⟩ := bind_eq_ok.mp h₂
      obtain ⟨htests, rfl⟩ := (j.readBool_eq_ok _).mp htest
      have hsize : m₃.vars.size = m.vars.size := size _ (m := m.ticked) hheader
      cases go with
      | false =>
        cases h₃
        exact ⟨[], .stop (by omega) hheader htests⟩
      | true =>
        obtain ⟨flow, m₄, hbody, h₄⟩ := bind_eq_ok.mp h₃
        cases flow with
        | ret vals => cases h₄
        | next =>
          obtain ⟨x, hx⟩ := hb _ _ hsize hbody
          have hsize₄ : m₄.vars.size = m.vars.size := (size _ hbody).trans hsize
          obtain ⟨xs, hxs⟩ := ih (fun m₁ m₂ h₁ h₂ => hb m₁ m₂ (h₁.trans hsize₄) h₂) h₄
          exact ⟨x :: xs, .again (by omega) hheader htests hx hxs⟩

end

/-! ## Trails -/

section
variable (j : Job R) (l : Level)

/-- A branch ends by recording its decision. -/
def Decided (ran : Machine R → List (Visit R) → Machine R → Prop) (d : Int) :
    Machine R → List (Visit R) → Machine R → Prop := fun m log m' =>
  ∃ m₁, ran m log m₁ ∧ m' = m₁.pushTape l.decisions { value := .int d }

mutual

/-- The forward section of a step ran. -/
def Step.Ran (site : Site) : Step → Machine R → List (Visit R) → Machine R → Prop
  | .inert run => fun m log m' => j.execBlock run m = .ok .next m' ∧ log = []
  | .call c => fun m log m' => j.execBlock (l.forwardCall c) m = .ok .next m' ∧
      ∃ args result, c.argVars.map m.var = args.map some ∧ m'.var c.dst = some result ∧
        log = [.call site c args result]
  | .assign dst decl src _ => fun m log m' =>
      j.execBlock [.define dst decl src.expr] m = .ok .next m' ∧ log = []
  | .tapeWrite t val _ => fun m log m' => j.execBlock [.push t val] m = .ok .next m' ∧ log = []
  | .block (_, steps) => stepsRan site 0 steps
  | .cond arms (_, steps) => armsRan site 0 arms
      (Decided l (stepsRan (arms.length :: site) 0 steps) arms.length)
  | .loop id header test (_, steps) => fun m log m' => ∃ logs,
      Rounds j header test (Decided l (stepsRan site 0 steps) id) m logs m' ∧
        log = logs.flatten ++ [.loop site logs.length]

/-- The forward section of steps ran, the first of them having the given place. -/
def stepsRan (site : Site) (place : Nat) :
    List Step → Machine R → List (Visit R) → Machine R → Prop
  | [] => fun m log m' => m' = m ∧ log = []
  | s :: ss => fun m log m' => ∃ m₁ log₁ log₂, s.Ran (place :: site) m log₁ m₁ ∧
      stepsRan site (place + 1) ss m₁ log₂ m' ∧ log = log₁ ++ log₂

/-- The first arm whose test holds ran, or else `other`. -/
def armsRan (site : Site) (index : Nat) : List (Var × List Var × List Step) →
    (Machine R → List (Visit R) → Machine R → Prop) → Machine R → List (Visit R) →
      Machine R → Prop
  | [], other => other
  | (test, _, steps) :: arms, other => fun m log m' =>
      m.Tests test true ∧ Decided l (stepsRan (index :: site) 0 steps) index m log m' ∨
      m.Tests test false ∧ armsRan site (index + 1) arms other m log m'

end

end

/-! ## Trails and runs -/

variable {log : List (Visit R)}
variable {flow : Flow R}

section
variable {j : Job R} {l : Level} {site : Site}

theorem Machine.Tests.execArms {test : Var} {body : Block} {arms : List (Var × Block)}
    {other : Exec R (Flow R)} {m : Machine R} {go : Bool} (h : m.Tests test go) :
    j.execArms ((test, body) :: arms) other m =
      if go then j.execBlock body m else j.execArms arms other m := by
  simp only [Job.execArms]
  rw [bind_ok (h.readBool j)]
  cases go with
  | true => rfl
  | false => rfl

theorem Job.execArms_eq_ok {test : Var} {body : Block} {arms : List (Var × Block)}
    {other : Exec R (Flow R)} {m m' : Machine R} :
    j.execArms ((test, body) :: arms) other m = .ok flow m' ↔
      m.Tests test true ∧ j.execBlock body m = .ok flow m' ∨
      m.Tests test false ∧ j.execArms arms other m = .ok flow m' := by
  constructor
  · intro h
    obtain ⟨go, m₁, hread, h₁⟩ := bind_eq_ok.mp h
    obtain ⟨htests, rfl⟩ := (j.readBool_eq_ok m).mp hread
    cases go with
    | true => exact .inl ⟨htests, h₁⟩
    | false => exact .inr ⟨htests, h₁⟩
  · rintro (⟨htests, h⟩ | ⟨htests, h⟩)
    · exact htests.execArms.trans h
    · exact htests.execArms.trans h

theorem execBlock_record {d : Int} {m m' : Machine R} :
    j.execBlock (b ++ [l.record d]) m = .ok .next m' ↔
      ∃ m₁, j.execBlock b m = .ok .next m₁ ∧
        m' = m₁.pushTape l.decisions { value := .int d } := by
  rw [Job.execBlock_append_eq_next]
  refine exists_congr fun m₁ => and_congr_right fun _ => ?_
  rw [Job.execBlock_singleton, Level.record, Job.exec_pushDecision]
  simp [eq_comm]

theorem armsRan.exec {other : Machine R → List (Visit R) → Machine R → Prop} {otherwise : Block}
    {m m' : Machine R} (ih : ∀ arm ∈ arms, ∀ {site place} {m m' : Machine R} {log},
      stepsRan j l site place arm.2.2 m log m' →
        j.execBlock (l.forwardSteps arm.2.2) m = .ok .next m')
    (ho : other m log m' → j.execBlock otherwise m = .ok .next m')
    (h : armsRan j l site index arms other m log m') :
    j.execArms (l.forwardArms index arms) (j.execBlock otherwise) m = .ok .next m' := by
  induction arms generalizing index with
  | nil => exact ho h
  | cons arm arms iha =>
    obtain ⟨test, decls, steps⟩ := arm
    rw [Level.forwardArms, Job.execArms_eq_ok]
    rcases h with ⟨htest, m₁, hran, rfl⟩ | ⟨htest, hran⟩
    · exact .inl ⟨htest, execBlock_record.mpr ⟨m₁, ih (test, decls, steps) (by simp) hran, rfl⟩⟩
    · exact .inr ⟨htest, iha (fun arm harm => ih arm (by simp [harm])) hran⟩

/-- What left a trail was run. -/
theorem stepsRan.exec {m m' : Machine R} (h : stepsRan j l site place ss m log m') :
    j.execBlock (l.forwardSteps ss) m = .ok .next m' := by
  induction ss using stepsInduction generalizing site place m m' log with
  | nil =>
    obtain ⟨rfl, -⟩ := h
    rfl
  | leaf s ss hs ih =>
    obtain ⟨m₁, log₁, log₂, hran, hrest, -⟩ := h
    rw [Level.forwardSteps, Job.execBlock_append_eq_next]
    refine ⟨m₁, ?_, ih hrest⟩
    cases s, hs using Step.leafCases with
    | _ => exact hran.1
  | block decls steps ss ihs ih =>
    obtain ⟨m₁, log₁, log₂, hran, hrest, -⟩ := h
    exact Job.execBlock_cons_eq_next j |>.mpr ⟨m₁, ihs hran, ih hrest⟩
  | cond arms decls steps ss iha ihs ih =>
    obtain ⟨m₁, log₁, log₂, hran, hrest, -⟩ := h
    refine Job.execBlock_cons_eq_next j |>.mpr ⟨m₁, ?_, ih hrest⟩
    refine armsRan.exec (fun arm harm _ _ _ _ _ h => iha arm harm h) ?_ hran
    rintro ⟨m₂, hsteps, rfl⟩
    exact execBlock_record.mpr ⟨m₂, ihs hsteps, rfl⟩
  | loop id header test decls steps ss ihs ih =>
    obtain ⟨m₁, log₁, log₂, ⟨logs, hrounds, -⟩, hrest, -⟩ := h
    refine Job.execBlock_cons_eq_next j |>.mpr ⟨m₁, ?_, ih hrest⟩
    refine hrounds.exec ?_
    rintro m x m' ⟨m₂, hsteps, rfl⟩
    exact execBlock_record.mpr ⟨m₂, ihs hsteps, rfl⟩

/-- A call that ran has read its arguments and defined its variable. -/
theorem forwardCall_inv {lo : Lowering} {c : ActiveCall} (hc : lo.CallFine c) {m m' : Machine R}
    (hdst : c.dst.idx < m.vars.size) (h : j.execBlock (l.forwardCall c) m = .ok .next m') :
    ∃ (args saved : List (Slot R)) (result : Slot R) (m₁ : Machine R),
      c.argVars.map m.var = args.map some ∧
      c.savedArgs.map m.var = saved.map some ∧
      j.eval c.expr (m.pushAll l.values saved) = .ok result m₁ ∧
      EvalFrame c.expr (m.pushAll l.values saved) m₁ ∧
      m' = if c.primal = .saved then (m₁.setVar c.dst result).pushTape l.values result
        else m₁.setVar c.dst result := by
  unfold Level.forwardCall at h
  obtain ⟨m₀, hpush, h₁⟩ := (j.execBlock_append_eq_next).mp h
  have hdef : ∀ v ∈ c.savedArgs, m.var v ≠ none := by
    intro v hv hnone
    have := j.execBlock_pushes_none l.values hv hnone
    rw [hpush] at this
    exact this
  obtain ⟨saved, hsaved⟩ := Machine.exists_slots hdef
  rw [j.execBlock_pushes l.values hsaved] at hpush
  cases hpush
  rw [Job.execBlock_define] at h₁
  obtain ⟨result, m₁, heval, h₂⟩ := bind_eq_ok.mp h₁
  obtain ⟨target, htarget, -⟩ := hc.found
  obtain ⟨act, hact⟩ := j.eval_target htarget
  have hframe := (j.eval_frame c.expr _).of_ok heval
  have hargs := heval
  rw [hact] at hargs
  obtain ⟨args, m₂, hread, -⟩ := bind_eq_ok.mp hargs
  have hvars := ((j.readAll_eq_ok _).mp hread).1
  refine ⟨args, saved, result, m₁, ?_, hsaved, heval, hframe, ?_⟩
  · rw [← hvars]
    exact List.map_congr_left fun v _ => (m.var_pushAll l.values saved v).symm
  rw [bind_ok (Job.write_apply _ _ _)] at h₂
  have hsize : c.dst.idx < m₁.vars.size := by rw [hframe.vars]; simpa using hdst
  split
  · rename_i hp
    rw [if_pos hp, Job.execBlock_singleton, Job.exec_push,
      bind_ok (j.read_some _ (m₁.var_setVar_self c.dst result hsize))] at h₂
    cases h₂
    rfl
  · rename_i hp
    rw [if_neg hp] at h₂
    cases h₂
    rfl

/-- The variables that a block defines are in a table of the given size. -/
def DefinesBelow (N : Nat) (b : Block) : Prop :=
  ∀ v decl e, Stmt.define v decl e ∈ blockAtoms b → v.idx < N

theorem definesBelow_append {N : Nat} {a : Block} :
    DefinesBelow N (a ++ b) ↔ DefinesBelow N a ∧ DefinesBelow N b := by
  simp only [DefinesBelow, blockAtoms_append, List.mem_append]
  grind

theorem execBlock_size {m m' : Machine R} (h : j.execBlock b m = .ok flow m') :
    m'.vars.size = m.vars.size :=
  ((j.execBlock_frame (b := b) (V := fun _ => False) (T := fun _ => False)
    (fun _ _ _ h => h.elim) (fun _ h => h.elim) m).of_ok h).size

theorem exists_armsRan {other : Machine R → List (Visit R) → Machine R → Prop} {otherwise : Block}
    {m m' : Machine R} (ih : ∀ arm ∈ arms, ∀ {site place m'},
      j.execBlock (l.forwardSteps arm.2.2) m = .ok .next m' →
        ∃ log, stepsRan j l site place arm.2.2 m log m')
    (ho : j.execBlock otherwise m = .ok .next m' → ∃ log, other m log m')
    (h : j.execArms (l.forwardArms index arms) (j.execBlock otherwise) m = .ok .next m') :
    ∃ log, armsRan j l site index arms other m log m' := by
  induction arms generalizing index with
  | nil => exact ho h
  | cons arm arms iha =>
    obtain ⟨test, decls, steps⟩ := arm
    rw [Level.forwardArms, Job.execArms_eq_ok] at h
    rcases h with ⟨htest, hexec⟩ | ⟨htest, hexec⟩
    · obtain ⟨m₁, hsteps, rfl⟩ := execBlock_record.mp hexec
      obtain ⟨log, hlog⟩ := ih (test, decls, steps) (by simp) hsteps
      exact ⟨log, .inl ⟨htest, m₁, hlog, rfl⟩⟩
    · obtain ⟨log, hlog⟩ := iha (fun arm harm => ih arm (by simp [harm])) hexec
      exact ⟨log, .inr ⟨htest, hlog⟩⟩

theorem exists_consRan {m m' : Machine R}
    (hstep : ∀ m₁, j.execBlock (l.forwardStep s) m = .ok .next m₁ →
      ∃ log, s.Ran j l (place :: site) m log m₁)
    (hrest : ∀ m₁, m₁.vars.size = m.vars.size →
      j.execBlock (l.forwardSteps ss) m₁ = .ok .next m' →
        ∃ log, stepsRan j l site (place + 1) ss m₁ log m')
    (h : j.execBlock (l.forwardSteps (s :: ss)) m = .ok .next m') :
    ∃ log, stepsRan j l site place (s :: ss) m log m' := by
  obtain ⟨m₁, h₁, h₂⟩ := (j.execBlock_append_eq_next).mp h
  obtain ⟨log₁, hlog₁⟩ := hstep m₁ h₁
  obtain ⟨log, hlog⟩ := hrest m₁ (execBlock_size h₁) h₂
  exact ⟨log₁ ++ log, m₁, log₁, log, hlog₁, hlog, rfl⟩

/-- **Every run of the forward section that ends leaves a trail.** -/
theorem exists_stepsRan {lo : Lowering} (hfine : stepsFine lo ss) {m m' : Machine R}
    (hdef : DefinesBelow m.vars.size (stepsSource ss))
    (h : j.execBlock (l.forwardSteps ss) m = .ok .next m') :
    ∃ log, stepsRan j l site place ss m log m' := by
  induction ss using stepsInduction generalizing site place m m' with
  | nil =>
    cases h
    exact ⟨[], rfl, rfl⟩
  | leaf s ss hs ih =>
    rw [stepsSource, definesBelow_append] at hdef
    refine exists_consRan (fun m₁ hstep => ?_) (fun m₁ hsize => ih hfine.2 (hsize.symm ▸ hdef.2)) h
    cases s, hs using Step.leafCases with
    | call c =>
      have hdst : c.dst.idx < m.vars.size :=
        hdef.1 c.dst c.decl c.expr (by simp [Step.source, blockAtoms, Stmt.atoms])
      obtain ⟨args, saved, result, m₂, hargs, -, -, hframe, hm₁⟩ :=
        forwardCall_inv hfine.1 hdst hstep
      have hsize : c.dst.idx < m₂.vars.size := by rw [hframe.vars]; simpa using hdst
      refine ⟨_, hstep, args, result, hargs, ?_, rfl⟩
      rw [hm₁]
      split <;> simp [hsize]
    | _ => exact ⟨[], hstep, rfl⟩
  | block decls steps ss ihs ih =>
    rw [stepsSource, definesBelow_append] at hdef
    refine exists_consRan (fun m₁ hstep => ?_) (fun m₁ hsize => ih hfine.2 (hsize.symm ▸ hdef.2)) h
    have hin : DefinesBelow m.vars.size (stepsSource steps) := by
      simpa [DefinesBelow, Step.source, blockAtoms, Stmt.atoms] using hdef.1
    exact ihs hfine.1.2 hin ((j.execBlock_singleton _ _).symm.trans hstep)
  | cond arms decls steps ss iha ihs ih =>
    obtain ⟨⟨hfarms, -, hfother⟩, hfss⟩ := hfine
    rw [armsFine_iff] at hfarms
    rw [stepsSource, definesBelow_append] at hdef
    refine exists_consRan (fun m₁ hstep => ?_) (fun m₁ hsize => ih hfss (hsize.symm ▸ hdef.2)) h
    have harms : ∀ arm ∈ arms, DefinesBelow m.vars.size (stepsSource arm.2.2) := by
      intro arm harm v decl e he
      refine hdef.1 v decl e ?_
      simp only [Step.source, blockAtoms, Stmt.atoms, List.append_nil, List.mem_append,
        mem_armsAtoms, armsSource_eq, List.mem_map]
      exact .inl ⟨_, ⟨arm, harm, rfl⟩, he⟩
    have hother : DefinesBelow m.vars.size (stepsSource steps) := by
      intro v decl e he
      refine hdef.1 v decl e ?_
      simp only [Step.source, blockAtoms, Stmt.atoms, List.append_nil, List.mem_append]
      exact .inr he
    refine exists_armsRan (fun arm harm _ _ _ h => iha arm harm (hfarms arm harm).2
      (harms arm harm) h) (fun h => ?_) ((j.execBlock_singleton _ _).symm.trans hstep)
    obtain ⟨m₂, hsteps, rfl⟩ := execBlock_record.mp h
    obtain ⟨log, hlog⟩ := ihs hfother hother hsteps
    exact ⟨log, m₂, hlog, rfl⟩
  | loop id header test decls steps ss ihs ih =>
    rw [stepsSource, definesBelow_append] at hdef
    refine exists_consRan (fun m₁ hstep => ?_) (fun m₁ hsize => ih hfine.2 (hsize.symm ▸ hdef.2)) h
    have hin : DefinesBelow m.vars.size (stepsSource steps) := by
      intro v decl e he
      refine hdef.1 v decl e ?_
      simp only [Step.source, blockAtoms, Stmt.atoms, List.append_nil, List.mem_append]
      exact .inr he
    obtain ⟨logs, hlogs⟩ : ∃ logs, Rounds j header test
        (Decided l (stepsRan j l (place :: site) 0 steps) id) m logs m₁ := by
      refine exists_rounds_of_whileRounds (fun m₂ m₃ hm₂ h => ?_)
        ((j.execBlock_singleton _ _).symm.trans hstep)
      obtain ⟨m₄, hsteps, rfl⟩ := execBlock_record.mp h
      obtain ⟨log, hlog⟩ := ihs hfine.1.2.2 (hm₂.symm ▸ hin) hsteps
      exact ⟨log, m₄, hlog, rfl⟩
    exact ⟨_, logs, hlogs, rfl⟩

/-! ## What the forward section is made of -/

theorem forwardArms_atoms (ih : ∀ arm ∈ arms, a ∈ blockAtoms (l.forwardSteps arm.2.2) →
      a ∈ blockAtoms (stepsSource arm.2.2) ∨ (∃ v, a = .push l.values v) ∨
        ∃ d, a = .pushDecision l.decisions d) (h : a ∈ armsAtoms (l.forwardArms index arms)) :
    a ∈ armsAtoms (armsSource arms) ∨ (∃ v, a = .push l.values v) ∨
      ∃ d, a = .pushDecision l.decisions d := by
  induction arms generalizing index with
  | nil => exact .inl h
  | cons arm arms iha =>
    obtain ⟨test, decls, steps⟩ := arm
    simp only [Level.forwardArms, armsSource, armsAtoms, blockAtoms_append, blockAtoms, Stmt.atoms,
      List.append_nil, List.mem_append, List.mem_singleton, Level.record] at h ⊢
    rcases h with (h | h) | h
    · exact (ih (test, decls, steps) (by simp) h).imp_left .inl
    · exact .inr (.inr ⟨_, h⟩)
    · exact (iha (fun arm harm => ih arm (by simp [harm])) h).imp_left .inr

/-- The atomic statements of the forward section are those of the function, and
pushes onto the tapes of its level. -/
theorem forward_atoms (h : a ∈ blockAtoms (l.forwardSteps ss)) :
    a ∈ blockAtoms (stepsSource ss) ∨ (∃ v, a = .push l.values v) ∨
      ∃ d, a = .pushDecision l.decisions d := by
  induction ss using stepsInduction with
  | nil => exact .inl h
  | leaf s ss hs ih =>
    rw [Level.forwardSteps, blockAtoms_append, List.mem_append] at h
    rw [stepsSource, blockAtoms_append, List.mem_append]
    rcases h with h | h
    · cases s, hs using Step.leafCases with
      | call c =>
        rw [Level.forwardStep, Level.forwardCall, blockAtoms_append, List.mem_append] at h
        rcases h with h | h
        · obtain ⟨s, hs, ha⟩ := mem_blockAtoms.mp h
          obtain ⟨v, -, rfl⟩ := List.mem_map.mp hs
          exact .inr (.inl ⟨v, by simpa [Stmt.atoms] using ha⟩)
        · simp only [blockAtoms, Stmt.atoms, List.mem_append, List.mem_singleton] at h
          rcases h with rfl | h
          · exact .inl (.inl (by simp [Step.source, blockAtoms, Stmt.atoms]))
          · split at h
            · exact .inr (.inl ⟨c.dst, by simpa [blockAtoms, Stmt.atoms] using h⟩)
            · simp [blockAtoms] at h
      | _ => exact .inl (.inl h)
    · exact (ih h).imp_left .inr
  | block decls steps ss ihs ih =>
    simp only [Level.forwardSteps, Level.forwardStep, stepsSource, Step.source, blockAtoms_append,
      blockAtoms, Stmt.atoms, List.append_nil, List.mem_append] at h ⊢
    rcases h with h | h
    · exact (ihs h).imp_left .inl
    · exact (ih h).imp_left .inr
  | cond arms decls steps ss iha ihs ih =>
    simp only [Level.forwardSteps, Level.forwardStep, stepsSource, Step.source, blockAtoms_append,
      blockAtoms, Stmt.atoms, List.append_nil, List.mem_append, List.mem_singleton,
      Level.record] at h ⊢
    rcases h with (h | h | h) | h
    · exact (forwardArms_atoms iha h).imp_left fun h => .inl (.inl h)
    · exact (ihs h).imp_left fun h => .inl (.inr h)
    · exact .inr (.inr ⟨_, h⟩)
    · exact (ih h).imp_left .inr
  | loop id header test decls steps ss ihs ih =>
    simp only [Level.forwardSteps, Level.forwardStep, stepsSource, Step.source, blockAtoms_append,
      blockAtoms, Stmt.atoms, List.append_nil, List.mem_append, List.mem_singleton,
      Level.record] at h ⊢
    rcases h with (h | h | h) | h
    · exact .inl (.inl (.inl h))
    · exact (ihs h).imp_left fun h => .inl (.inr h)
    · exact .inr (.inr ⟨_, h⟩)
    · exact (ih h).imp_left .inr

theorem forwardStep_atoms (hs : s.isLeaf = true) (h : a ∈ blockAtoms (l.forwardStep s)) :
    a ∈ blockAtoms s.source ∨ ∃ v, a = .push l.values v := by
  have hone : a ∈ blockAtoms (l.forwardSteps [s]) := by simpa [Level.forwardSteps] using h
  rcases forward_atoms hone with ha | ha | ⟨d, rfl⟩
  · exact .inl (by simpa [stepsSource] using ha)
  · exact .inr ha
  · cases s, hs using Step.leafCases with
    | call c =>
      rw [Level.forwardStep, Level.forwardCall, blockAtoms_append, List.mem_append] at h
      rcases h with h | h
      · obtain ⟨s, hs, ha⟩ := mem_blockAtoms.mp h
        obtain ⟨v, -, rfl⟩ := List.mem_map.mp hs
        simp [Stmt.atoms] at ha
      · split at h <;> simp [blockAtoms, Stmt.atoms] at h
    | _ => exact .inl h

theorem Step.Ran.exec (hs : s.isLeaf = true) {m m' : Machine R} (h : s.Ran j l site m log m') :
    j.execBlock (l.forwardStep s) m = .ok .next m' := by
  cases s, hs using Step.leafCases with
  | _ => exact h.1

/-- What a step without steps inside leaves alone. -/
theorem Step.Ran.frame (hs : s.isLeaf = true) {m m' : Machine R} (h : s.Ran j l site m log m') :
    BlockFrame (fun v => ∀ decl e, Stmt.define v decl e ∉ blockAtoms s.source)
      (fun t => t ∉ blockTapes s.source ∧ t ≠ l.values) m m' := by
  refine (j.execBlock_frame ?_ ?_ m).of_ok (h.exec hs)
  · intro v decl e hv ha
    rcases forwardStep_atoms hs ha with ha | ⟨w, ha⟩
    · exact hv decl e ha
    · cases ha
  · rintro t ⟨ht, hv⟩ hmem
    obtain ⟨a, ha, hta⟩ := (mem_blockTapes _).mp hmem
    rcases forwardStep_atoms hs ha with ha | ⟨w, rfl⟩
    · exact ht ((mem_blockTapes _).mpr ⟨a, ha, hta⟩)
    · exact hv (by simpa [Stmt.tapes] using hta)

/-! ## The top of the decisions -/

theorem execBlock_stack (ht : t ∉ blockTapes b) {m m' : Machine R}
    (h : j.execBlock b m = .ok flow m') : m'.stack t = m.stack t :=
  congrArg TapeCell.stack (((j.execBlock_frame (b := b) (V := fun _ => False) (T := (· = t))
    (fun _ _ _ h => h.elim) (fun _ h => h ▸ ht) m).of_ok h).tapes t rfl)

theorem armsRan.topFree {X : Int → Prop} (hneg : ∀ i, X i → i < 0)
    {other : Machine R → List (Visit R) → Machine R → Prop} {m m' : Machine R}
    (ho : other m log m' → m'.TopFree l.decisions X)
    (h : armsRan j l site index arms other m log m') : m'.TopFree l.decisions X := by
  induction arms generalizing index with
  | nil => exact ho h
  | cons arm arms iha =>
    rcases h with ⟨-, m₁, -, rfl⟩ | ⟨-, hran⟩
    · exact Machine.topFree_pushTape fun hX => absurd (hneg _ hX) (by omega)
    · exact iha hran

/-- A run leaves the number of a loop of its own on top of the decisions, or the
index of a branch, or what was there before. -/
theorem stepsRan.topFree {X : Int → Prop} (hneg : ∀ i, X i → i < 0) {m m' : Machine R}
    (hdec : l.decisions ∉ blockTapes (stepsSource ss)) (hX : ∀ i ∈ stepsLoopIds ss, ¬X i)
    (h : stepsRan j l site place ss m log m') (hm : m.TopFree l.decisions X) :
    m'.TopFree l.decisions X := by
  induction ss using stepsInduction generalizing site place m m' log with
  | nil =>
    obtain ⟨rfl, -⟩ := h
    exact hm
  | leaf s ss hs ih =>
    obtain ⟨m₁, log₁, log₂, hran, hrest, -⟩ := h
    rw [stepsSource, blockTapes_append, List.mem_append, not_or] at hdec
    have hsame := (hran.frame hs).tapes l.decisions ⟨hdec.1, fun h => by cases h⟩
    exact ih hdec.2 (fun i hi => hX i (List.mem_append_right _ hi)) hrest
      (hm.congr (congrArg TapeCell.stack hsame))
  | block decls steps ss ihs ih =>
    obtain ⟨m₁, log₁, log₂, hran, hrest, -⟩ := h
    rw [stepsSource, blockTapes_append, List.mem_append, not_or] at hdec
    refine ih hdec.2 (fun i hi => hX i (List.mem_append_right _ hi)) hrest ?_
    exact ihs (by simpa [Step.source, blockTapes, Stmt.tapes] using hdec.1)
      (fun i hi => hX i (List.mem_append_left _ hi)) hran hm
  | cond arms decls steps ss iha ihs ih =>
    obtain ⟨m₁, log₁, log₂, hran, hrest, -⟩ := h
    rw [stepsSource, blockTapes_append, List.mem_append, not_or] at hdec
    refine ih hdec.2 (fun i hi => hX i (List.mem_append_right _ hi)) hrest ?_
    refine armsRan.topFree hneg ?_ hran
    rintro ⟨m₂, -, rfl⟩
    exact Machine.topFree_pushTape fun hX => absurd (hneg _ hX) (by omega)
  | loop id header test decls steps ss ihs ih =>
    obtain ⟨m₁, log₁, log₂, ⟨logs, hrounds, -⟩, hrest, -⟩ := h
    rw [stepsSource, blockTapes_append, List.mem_append, not_or] at hdec
    refine ih hdec.2 (fun i hi => hX i (List.mem_append_right _ hi)) hrest ?_
    have hheader : l.decisions ∉ blockTapes header := fun h =>
      hdec.1 (by simp [Step.source, blockTapes, Stmt.tapes, h])
    clear hrest
    induction hrounds with
    | @stop m m' limit ran tests =>
      have hsame : m'.stack l.decisions = m.ticked.stack l.decisions := execBlock_stack hheader ran
      exact hm.congr hsame
    | again limit ran tests first rest ihr =>
      obtain ⟨m₂, -, rfl⟩ := first
      exact ihr (Machine.topFree_pushTape (hX id (by simp [stepsLoopIds, Step.loopIds])))

end

end Backsweep
