import Mathlib
import Backsweep.Proofs.Diff.Rewind
import Backsweep.Proofs.Diff.Setting
import Backsweep.Proofs.Run.Outcome

/-!
# Undoing one step

The reverse section runs on a machine that tracks the machine of the forward
section back through its states: whatever is popped was pushed there.

* `Tracks`: the tapes of the level hold the same values, and so do the variables
  that are read directly;
* `execBlock_pops`: what pops find;
* `leaf_undone`: the reverse code of a step without steps inside leads from the
  state behind the step to the state before it.
-/

namespace Backsweep

variable {R : Type}
variable {t : Tape} {v : Var} {active : Bool} {c : ActiveCall}
variable {dst primal : Var} {decl : Bool} {la lb : Locals}

/-- The values on a tape, top first. -/
def Machine.content (m : Machine R) (t : Tape) : List (Value R) := (m.stack t).map Slot.value

theorem Machine.content_congr {m m' : Machine R} (h : m'.stack t = m.stack t) :
    m'.content t = m.content t := congrArg (List.map Slot.value) h

/-- What lies on the tape that carries active values, if there is one. -/
def Setting.carried (S : Setting) (m : Machine R) : List (Slot R) :=
  if S.lo.isActiveTape S.tape then m.stack S.tape else []

/-- The machine `n` of the reverse section is where `m` is in the forward section,
with the variables `D` in scope. -/
structure Tracks (S : Setting) (D : Finset Var) (m n : Machine R) : Prop where
  size : n.vars.size = m.vars.size
  values : n.content S.rv.level.values = m.content S.rv.level.values
  decisions : n.content S.rv.level.decisions = m.content S.rv.level.decisions
  adjoints : (n.stack S.rv.level.adjoints).length = (S.carried m).length
  owned : ∀ v ∈ D, S.lo.isOwned v = true → (n.var v).map Slot.value = (m.var v).map Slot.value

theorem Setting.carried_congr (S : Setting) {m m' : Machine R}
    (h : S.lo.isActiveTape S.tape = true → m'.stack S.tape = m.stack S.tape) :
    S.carried m' = S.carried m := by
  unfold carried
  split
  · rename_i hact
    exact h hact
  · rfl

namespace Tracks

variable {S : Setting} {D D' : Finset Var} {m m' n n' : Machine R}

/-- The machine of the forward section goes back. -/
theorem before (h : Tracks S D' m' n) (hD : D ⊆ D') (hsize : m'.vars.size = m.vars.size)
    (hvalues : m'.stack S.rv.level.values = m.stack S.rv.level.values)
    (hdecisions : m'.stack S.rv.level.decisions = m.stack S.rv.level.decisions)
    (hcarried : S.carried m' = S.carried m)
    (hvars : ∀ v ∈ D, S.lo.isOwned v = true → m'.var v = m.var v) : Tracks S D m n where
  size := h.size.trans hsize
  values := h.values.trans (Machine.content_congr hvalues)
  decisions := h.decisions.trans (Machine.content_congr hdecisions)
  adjoints := by rw [h.adjoints, hcarried]
  owned v hv ho := by rw [h.owned v (hD hv) ho, hvars v hv ho]

/-- The machine of the reverse section changes variables of its own only. -/
theorem after (h : Tracks S D m n) (hsize : n'.vars.size = n.vars.size)
    (hvalues : n'.stack S.rv.level.values = n.stack S.rv.level.values)
    (hdecisions : n'.stack S.rv.level.decisions = n.stack S.rv.level.decisions)
    (hadjoints : (n'.stack S.rv.level.adjoints).length = (n.stack S.rv.level.adjoints).length)
    (hvars : ∀ v, v.idx < S.rv.base → n'.var v = n.var v) : Tracks S D m n' where
  size := hsize.trans h.size
  values := (Machine.content_congr hvalues).trans h.values
  decisions := (Machine.content_congr hdecisions).trans h.decisions
  adjoints := hadjoints.trans h.adjoints
  owned v hv ho := by
    rw [hvars v (Nat.lt_of_lt_of_le (S.owned_lt ho) S.base), h.owned v hv ho]

theorem framed {T : Tape → Prop} {V : Var → Prop} (h : Tracks S D m n) (hf : BlockFrame V T n n')
    (hT : ∀ t, T t) (hV : ∀ v : Var, v.idx < S.rv.base → V v) : Tracks S D m n' :=
  h.after hf.size (congrArg TapeCell.stack (hf.tapes _ (hT _)))
    (congrArg TapeCell.stack (hf.tapes _ (hT _)))
    (congrArg (fun c => c.stack.length) (hf.tapes _ (hT _))) fun v hv => hf.vars v (hV v hv)

/-- Variables that are not read directly make no difference. -/
theorem widen (h : Tracks S D m n) (hD : ∀ v ∈ D', S.lo.isOwned v = true → v ∈ D) :
    Tracks S D' m n :=
  ⟨h.size, h.values, h.decisions, h.adjoints, fun v hv ho => h.owned v (hD v hv ho) ho⟩

end Tracks

/-! ## The forward section -/

theorem Placed.apart {S : Setting} {D : Finset Var} {ss : List Step} (h : Placed S D ss)
    (ht : t.level = S.rv.level.val) : t ∉ blockTapes (stepsSource ss) := by
  intro hmem
  obtain ⟨a, ha, hta⟩ := (mem_blockTapes _).mp hmem
  exact S.apart t ((mem_blockTapes _).mpr ⟨a, h.atoms ha, hta⟩) ht

theorem Placed.apart_step {S : Setting} {D : Finset Var} {step : Step} {ss : List Step}
    (h : Placed S D (step :: ss)) (ht : t.level = S.rv.level.val) : t ∉ blockTapes step.source := by
  have := h.head.apart ht
  simpa [stepsSource] using this

variable [Scalar R] {j : Job R}

section
variable {S : Setting} {D : Finset Var} {step : Step} {site : Site} {m m' : Machine R}
  {log : List (Visit R)}

theorem Step.Ran.owned (hp : Placed S D [step]) (hleaf : step.isLeaf = true)
    (h : step.Ran j S.rv.level site m log m') (hv : v ∈ D) (ho : S.lo.isOwned v = true) :
    m'.var v = m.var v := by
  refine (h.frame hleaf).vars v fun decl e ha => ?_
  refine hp.inScope.not_defined hv (S.owned_immutable ho) decl e ?_
  simpa [stepsSource] using ha

theorem Step.Ran.decisions (hp : Placed S D [step]) (hleaf : step.isLeaf = true)
    (h : step.Ran j S.rv.level site m log m') :
    m'.stack S.rv.level.decisions = m.stack S.rv.level.decisions :=
  congrArg TapeCell.stack ((h.frame hleaf).tapes _ ⟨hp.apart_step rfl, fun h => by cases h⟩)

theorem Step.Ran.values (hp : Placed S D [step]) (hleaf : step.isLeaf = true)
    (hcall : ∀ c, step ≠ .call c) (h : step.Ran j S.rv.level site m log m') :
    m'.stack S.rv.level.values = m.stack S.rv.level.values := by
  have hexec := h.exec hleaf
  have hsource : S.rv.level.forwardStep step = step.source := by
    cases step, hleaf using Step.leafCases with
    | call c => exact absurd rfl (hcall c)
    | _ => rfl
  rw [hsource] at hexec
  exact execBlock_stack (hp.apart_step rfl) hexec

/-- A step that does not mention the tape of active values leaves it alone. -/
theorem Step.Ran.carried (hleaf : step.isLeaf = true)
    (ht : S.lo.isActiveTape S.tape = true → S.tape ∉ blockTapes step.source)
    (hv : S.lo.isActiveTape S.tape = true → S.tape ≠ S.rv.level.values)
    (h : step.Ran j S.rv.level site m log m') : S.carried m' = S.carried m :=
  S.carried_congr fun hact =>
    congrArg TapeCell.stack ((h.frame hleaf).tapes _ ⟨ht hact, hv hact⟩)

end

/-- The tape of active values is one of the function. -/
theorem Setting.tape_apart (S : Setting) (h : S.lo.isActiveTape S.tape = true) :
    S.tape.level ≠ S.rv.level.val := by
  have hmem : S.tape ∈ pushedTapes S.lo.func.body :=
    S.closed.pushed (by simpa [Lowering.isActiveTape, Marks.isActiveTape] using h)
  refine S.apart S.tape ?_
  obtain ⟨a, ha, hpush⟩ := List.mem_filterMap.mp hmem
  refine (mem_blockTapes _).mpr ⟨a, ha, ?_⟩
  cases a <;> simp_all [Stmt.tapes]

/-- Variables of the reverse section are not owned. -/
theorem Setting.owned_ne (S : Setting) {a : Var} (hv : S.lo.isOwned v = true)
    (ha : S.rv.base ≤ a.idx) : a ≠ v := by
  intro h
  have hlt := S.owned_lt hv
  have hle := S.base
  rw [← h] at hlt
  omega

/-! ## The reverse section -/

/-- Code that uses no tapes runs through, or into an error that is not one of the
stack discipline. -/
theorem Emitted.run {rv : Reversal} {l l' : Locals} {code : Block} (h : Emitted rv l l' code)
    (htapes : ∀ t, ¬rv.tapes t) (hbranches : ¬rv.branches) {E : RunError → Prop}
    (hE : Tolerant E j.externs) (n : Machine R) :
    Ends (j.execBlock code n)
      (fun flow n' => flow = .next ∧
        BlockFrame (fun v => v.idx < rv.base ∨ l'.vars.size ≤ v.idx) (fun _ => True) n n')
      (fun e _ => E e) := by
  have hsafe : ∀ a ∈ blockAtoms code, Job.IsSafe E a := by
    intro a ha
    have hrev := h.atoms a ha
    cases a with
    | define dst decl e =>
      intro t he
      exact htapes t (hrev.2.2.1 t (by rw [he]; rfl))
    | unreachable => exact absurd hrev hbranches
    | _ => trivial
  have hnext := j.execBlock_next (b := code) (fun vals ha => h.atoms _ ha) n
  have hframe := j.execBlock_frame (b := code) (T := fun _ => True)
    (V := fun v => v.idx < rv.base ∨ l'.vars.size ≤ v.idx)
    (fun v decl e hv ha => by
      have hrev := h.atoms _ ha
      rcases hv with hv | hv
      · exact absurd hrev.1 (by omega)
      · exact absurd hrev.2.1 (by omega))
    (fun t _ ht => by
      obtain ⟨a, ha, hta⟩ := (mem_blockTapes _).mp ht
      have hrev := h.atoms a ha
      cases a with
      | define dst decl e => exact htapes t (hrev.2.2.1 t (by simpa [Stmt.tapes] using hta))
      | push u v => exact htapes u hrev.2
      | pushDecision u d => exact hrev.elim
      | unreachable => simp [Stmt.tapes] at hta
      | store obj field val => simp [Stmt.tapes] at hta
      | ret vals => simp [Stmt.tapes] at hta
      | cond arms other => exact hrev.elim
      | loop header test body => exact hrev.elim
      | doLoop body test => exact hrev.elim
      | block body => exact hrev.elim) n
  refine ((Job.execBlock_fails hE hsafe n).and (hnext.and hframe)).mono ?_ ?_
  · rintro flow n' ⟨-, hflow, hf⟩
    exact ⟨hflow, hf⟩
  · rintro e n' ⟨he, -⟩
    exact he

variable {rest : List (Slot R)}

/-- A pop finds the top of the tape. -/
theorem execBlock_pop {n : Machine R} {slot : Slot R} (hstack : n.stack t = slot :: rest) (w : Var)
    (decl : Bool) :
    j.execBlock [.define w decl (.pop t)] n = .ok .next ((n.dropTape t rest).setVar w slot) := by
  have hpop : j.eval (.pop t) n = .ok slot (n.dropTape t rest) := Job.pop_cons n hstack
  rw [j.execBlock_define_ok hpop]
  rfl

variable {popped : List (Slot R)}

/-- Pops into new variables find what is on the tape. -/
theorem execBlock_pops {first : Nat} {n : Machine R} (hstack : n.stack t = popped ++ rest)
    (hsize : first + popped.length ≤ n.vars.size) :
    ∃ n', j.execBlock ((freshVars first popped.length).map fun w => .define w true (.pop t)) n =
        .ok .next n' ∧
      n'.stack t = rest ∧ (∀ u, u ≠ t → n'.stack u = n.stack u) ∧
      (freshVars first popped.length).map n'.var = popped.map some ∧
      (∀ v : Var, v.idx < first → n'.var v = n.var v) ∧ n'.vars.size = n.vars.size ∧
      n'.graph = n.graph := by
  induction popped generalizing first n with
  | nil => exact ⟨n, rfl, hstack, fun _ _ => rfl, rfl, fun _ _ => rfl, rfl, rfl⟩
  | cons s popped ih =>
    simp only [List.length_cons] at hsize
    rw [List.length_cons, freshVars_succ, List.map_cons]
    have hpop : j.eval (.pop t) n = .ok s (n.dropTape t (popped ++ rest)) :=
      Job.pop_cons n hstack
    rw [j.execBlock_define_ok hpop]
    obtain ⟨n', hexec, hrest, hothers, hvars, hbelow, hsize', hgraph⟩ :=
      ih (n := (n.dropTape t (popped ++ rest)).setVar ⟨first⟩ s) (by simp)
        (show first + 1 + popped.length ≤ _ by
          rw [Machine.size_setVar, Machine.vars_dropTape]
          omega)
    refine ⟨n', hexec, hrest, fun u hu => ?_, ?_, fun v hv => ?_, ?_, hgraph⟩
    · rw [hothers u hu, Machine.stack_setVar, Machine.stack_dropTape_ne _ _ _ _ hu]
    · rw [List.map_cons, List.map_cons, hvars, hbelow ⟨first⟩ (Nat.lt_succ_self first),
        Machine.var_setVar_self]
      simp only [Machine.vars_dropTape]
      omega
    · have hne : (⟨first⟩ : Var) ≠ v := fun h => by rw [← h] at hv; simp at hv
      rw [hbelow v (by omega), Machine.var_setVar_ne _ _ _ _ hne, Machine.var_dropTape]
    · rw [hsize', Machine.size_setVar, Machine.vars_dropTape]

/-- Reverse code that uses no tapes. -/
def Reversal.tapeless (rv : Reversal) : Reversal :=
  { rv with tapes := fun _ => False, calls := True, branches := False }

theorem Emitted.tapeless_run {rv : Reversal} {l l' : Locals} {code : Block}
    (h : Emitted rv.tapeless l l' code) {E : RunError → Prop} (hE : Tolerant E j.externs)
    (n : Machine R) :
    Ends (j.execBlock code n)
      (fun flow n' => flow = .next ∧
        BlockFrame (fun v => v.idx < rv.base ∨ l'.vars.size ≤ v.idx) (fun _ => True) n n')
      (fun e _ => E e) := h.run (fun _ h => h) (fun h => h) hE n

/-- A block that runs through, then another one. -/
theorem Job.execBlock_append_ends {a b : Block} {n : Machine R} {Q : Machine R → Prop}
    {ok : Flow R → Machine R → Prop} {err : RunError → Machine R → Prop}
    (ha : Ends (j.execBlock a n) (fun flow n' => flow = .next ∧ Q n') err)
    (hb : ∀ n', j.execBlock a n = .ok .next n' → Q n' → Ends (j.execBlock b n') ok err) :
    Ends (j.execBlock (a ++ b) n) ok err := by
  cases h : j.execBlock a n with
  | ok flow n' =>
    rw [h] at ha
    obtain ⟨rfl, hQ⟩ := ha
    rw [j.execBlock_append_next h]
    exact hb n' h hQ
  | error e n' =>
    rw [h] at ha
    rw [Job.execBlock_append, bind_error h]
    exact ha

/-! ## The tape of active values -/

section
variable {S : Setting} {D : Finset Var} {site : Site} {m m' : Machine R} {log : List (Visit R)}

theorem inert_carried {run : List Stmt} (hp : Placed S D [.inert run])
    (hran : (Step.inert run).Ran j S.rv.level site m log m') : S.carried m' = S.carried m := by
  refine hran.carried rfl (fun hact hmem => ?_) fun hact h => S.tape_apart hact (by rw [h]; rfl)
  obtain ⟨a, ha, hta⟩ := (mem_blockTapes _).mp hmem
  have hbody : a ∈ blockAtoms S.lo.func.body :=
    hp.atoms (by simpa [stepsSource, Step.source] using ha)
  rw [S.inert_tapes hbody (hp.fine.1.atoms a ha) hta] at hact
  cases hact

/-- Only an assignment of an active value from a tape pops the tape. -/
theorem assign_carried {src : Source} (hp : Placed S D [.assign dst decl src active])
    (hran : (Step.assign dst decl src active).Ran j S.rv.level site m log m')
    (hpop : ¬∃ t, src = .tape t ∧ active = true) : S.carried m' = S.carried m := by
  have hactive : active = S.lo.sourceActive src := hp.fine.1.2
  refine hran.carried rfl (fun hact hmem => ?_) fun hact h => S.tape_apart hact (by rw [h]; rfl)
  cases src with
  | var v => simp [Step.source, blockTapes, Stmt.tapes, Source.expr, Expr.tape?] at hmem
  | field obj field =>
    simp [Step.source, blockTapes, Stmt.tapes, Source.expr, Expr.tape?] at hmem
  | tape t =>
    have : S.tape = t := by
      simpa [Step.source, blockTapes, Stmt.tapes, Source.expr, Expr.tape?] using hmem
    subst this
    exact hpop ⟨S.tape, rfl, hactive.trans hact⟩

theorem assign_popped
    (hran : (Step.assign dst decl (.tape t) active).Ran j S.rv.level site m log m') :
    ∃ slot rest, m.stack t = slot :: rest ∧ m' = (m.dropTape t rest).setVar dst slot := by
  have hexec : j.execBlock [.define dst decl (.pop t)] m = .ok .next m' := hran.1
  cases hst : m.stack t with
  | nil =>
    have hpop : j.eval (.pop t) m = .error (.emptyTape t) m := Job.pop_nil m hst
    rw [Job.execBlock_define, bind_error hpop] at hexec
    cases hexec
  | cons slot rest =>
    rw [execBlock_pop hst] at hexec
    cases hexec
    exact ⟨slot, rest, rfl, rfl⟩

theorem tapeWrite_pushed {val : Var}
    (hran : (Step.tapeWrite t val active).Ran j S.rv.level site m log m') :
    ∃ slot, m.var val = some slot ∧ m' = m.pushTape t slot := by
  have hexec : j.execBlock [.push t val] m = .ok .next m' := hran.1
  rw [Job.execBlock_singleton, Job.exec_push] at hexec
  obtain ⟨slot, m₁, hread, hpush⟩ := bind_eq_ok.mp hexec
  obtain ⟨hval, rfl⟩ := (j.read_eq_ok m).mp hread
  cases hpush
  exact ⟨slot, hval, rfl⟩

end

/-! ## One step back -/

/-- The reverse code of a step led to a machine that tracks the state before it,
and was given what it owes. -/
def StepUndone (j : Job R) (S : Setting) (s : Sweep) (D : Finset Var) (step : Step) (site : Site)
    (accs : Accumulators) (l : Locals) (m : Machine R) (log : List (Visit R)) (n : Machine R)
    (flow : Flow R) (n' : Machine R) : Prop :=
  flow = .next ∧ Tracks S D m n' ∧
    ∃ log', step.Rewound j s site accs l n log' n' ∧ List.Forall₂ Undoes log log'.reverse

section
variable {S : Setting} {s : Sweep} {E : RunError → Prop} {D : Finset Var} {accs : Accumulators}
  {l l' : Locals} {site : Site} {m m' n : Machine R} {log : List (Visit R)} {code : Block}

/-- An assignment of inert code is undone by forgetting adjoints. -/
theorem inert_undone (hE : Tolerant E j.externs) (haccs : accs.Fit S.rv.base l.vars.size)
    {run : List Stmt} (hp : Placed S D [.inert run])
    (hran : (Step.inert run).Ran j S.rv.level site m log m')
    (ht : Tracks S (blockScope D run) m' n) :
    Ends (j.execBlock (s.reverseInert accs run) n)
      (StepUndone j S s D (.inert run) site accs l m log n) (fun e _ => E e) := by
  have hback : Tracks S D m n := ht.before (subset_blockScope D run) (hran.frame rfl).size
    (hran.values hp rfl (by simp)) (hran.decisions hp rfl) (inert_carried hp hran)
    fun v hv ho => hran.owned hp rfl hv ho
  have haccs' : accs.Fit S.rv.tapeless.base l.vars.size := haccs
  have hcode : Emitted S.rv.tapeless l l (s.reverseInert accs run) :=
    Sweep.reverseInert_emitted haccs' run
  refine (hcode.tapeless_run hE n).known.mono ?_ fun _ _ h => h
  rintro flow n' ⟨hexec, rfl, hframe⟩
  refine ⟨rfl, hback.framed hframe (fun _ => trivial) fun v hv => .inl hv, [], ⟨hexec, rfl⟩, ?_⟩
  rw [hran.2]
  exact .nil

/-- An adjoint is passed on, to a variable or to the tape of adjoints. -/
theorem assign_undone (hE : Tolerant E j.externs) (hlevel : s.level = S.rv.level)
    (haccs : accs.Fit S.rv.base l.vars.size) {src : Source}
    (hp : Placed S D [.assign dst decl src active])
    (hran : (Step.assign dst decl src active).Ran j S.rv.level site m log m')
    (ht : Tracks S (blockScope D [.define dst decl src.expr]) m' n)
    (hcode : s.reverseAssign accs dst decl src active l = .ok (code, l')) :
    Ends (j.execBlock code n)
      (StepUndone j S s D (.assign dst decl src active) site accs l m log n) (fun e _ => E e) := by
  have hactive : active = S.lo.sourceActive src := hp.fine.1.2
  have hvars : ∀ v ∈ D, S.lo.isOwned v = true → m'.var v = m.var v :=
    fun v hv ho => hran.owned hp rfl hv ho
  have hrewound {n' : Machine R} (hexec : j.execBlock code n = .ok .next n') :
      ∃ log', (Step.assign dst decl src active).Rewound j s site accs l n log' n' ∧
        List.Forall₂ Undoes log log'.reverse := by
    refine ⟨[], ⟨code, l', hcode, hexec, rfl⟩, ?_⟩
    rw [hran.2]
    exact .nil
  by_cases hpop : ∃ t, src = .tape t ∧ active = true
  · obtain ⟨t, rfl, rfl⟩ := hpop
    have htape : t = S.tape := S.single t hactive.symm
    subst htape
    have hact : S.lo.isActiveTape S.tape = true := hactive.symm
    -- forward, the top of the tape was popped
    obtain ⟨slot, rest, hst, rfl⟩ := assign_popped hran
    have hst' : ((m.dropTape S.tape rest).setVar dst slot).stack S.tape = rest := by simp
    obtain ⟨rfl, a, ha, ⟨hf, -⟩ | ⟨-, hsrc⟩⟩ := Sweep.reverseAssign_eq_ok hcode
    · cases hf
    obtain rfl : code = [.push s.level.adjoints a, s.reset a] := by
      rcases hsrc with ⟨h, -⟩ | ⟨v, b, h, -⟩ | ⟨obj, field, b, h, -⟩ | ⟨t, -, h⟩
      · cases h
      · cases h
      · cases h
      · exact h
    have hrange := haccs.range dst a ha
    cases hread : n.var a with
    | none =>
      have hexec : j.execBlock [.push s.level.adjoints a, s.reset a] n =
          .error (.undefinedVar (j.func.varName a)) n := by
        change (j.exec (.push s.level.adjoints a) >>= _) n = _
        rw [bind_error]
        rw [Job.exec_push, bind_error (j.read_none n hread)]
      rw [hexec]
      exact hE.undefinedVar _
    | some adjoint =>
      have hexec : j.execBlock [.push s.level.adjoints a, s.reset a] n = .ok .next
          ((n.pushTape s.level.adjoints adjoint).setVar a { value := .ofConst (.real s.zero) }) := by
        have hpush : j.exec (.push s.level.adjoints a) n =
            .ok .next (n.pushTape s.level.adjoints adjoint) := by
          rw [Job.exec_push, bind_ok (j.read_some n hread)]
          rfl
        rw [j.execBlock_cons_next hpush]
        rfl
      rw [hexec]
      refine ⟨rfl, ?_, hrewound hexec⟩
      refine ⟨?_, ?_, ?_, ?_, fun v hv ho => ?_⟩
      · rw [Machine.size_setVar, Machine.vars_pushTape, ht.size, (hran.frame rfl).size]
      · rw [← Machine.content_congr (hran.values hp rfl (by simp)), ← ht.values]
        exact Machine.content_congr (by
          rw [Machine.stack_setVar, Machine.stack_pushTape_ne]
          intro h; cases h)
      · rw [← Machine.content_congr (hran.decisions hp rfl), ← ht.decisions]
        exact Machine.content_congr (by
          rw [Machine.stack_setVar, Machine.stack_pushTape_ne]
          intro h; cases h)
      · have hlen := ht.adjoints
        simp only [Setting.carried, hact, ite_true, hst, hst', hlevel, Machine.stack_setVar,
          Machine.stack_pushTape_self, List.length_cons] at hlen ⊢
        rw [hlen]
      · rw [Machine.var_setVar_ne _ _ _ _ (S.owned_ne ho hrange.1), Machine.var_pushTape,
          ht.owned v (subset_blockScope D _ hv) ho, hvars v hv ho]
  · have hback : Tracks S D m n := ht.before (subset_blockScope D _) (hran.frame rfl).size
      (hran.values hp rfl (by simp)) (hran.decisions hp rfl) (assign_carried hp hran hpop) hvars
    have hlevel' : s.level = S.rv.tapeless.level := hlevel
    have haccs' : accs.Fit S.rv.tapeless.base l.vars.size := haccs
    have hquiet : Emitted S.rv.tapeless l l' code :=
      Sweep.reverseAssign_emitted hlevel' haccs'
        (fun t hsrc hact => absurd ⟨t, hsrc, hact⟩ hpop) hcode
    refine (hquiet.tapeless_run hE n).known.mono ?_ fun _ _ h => h
    rintro flow n' ⟨hexec, rfl, hframe⟩
    exact ⟨rfl, hback.framed hframe (fun _ => trivial) fun v hv => .inl hv, hrewound hexec⟩

/-- The adjoint of a value on the tape is popped. -/
theorem tapeWrite_undone (hE : Tolerant E j.externs) (hlevel : s.level = S.rv.level)
    (hbase : S.rv.base ≤ l.vars.size) (haccs : accs.Fit S.rv.base l.vars.size) {val : Var}
    (hp : Placed S D [.tapeWrite t val active])
    (hran : (Step.tapeWrite t val active).Ran j S.rv.level site m log m')
    (ht : Tracks S (blockScope D [.push t val]) m' n)
    (hcode : s.reverseTapeWrite accs val active l = .ok (code, l')) :
    Ends (j.execBlock code n)
      (StepUndone j S s D (.tapeWrite t val active) site accs l m log n) (fun e _ => E e) := by
  have hact : S.lo.isActiveTape t = true := hp.fine.1.1
  obtain rfl : t = S.tape := S.single t hact
  -- forward, a value was pushed
  obtain ⟨slot, -, rfl⟩ := tapeWrite_pushed hran
  have hst' : (m.pushTape S.tape slot).stack S.tape = slot :: m.stack S.tape :=
    Machine.stack_pushTape_self _ _ _
  have hlen : (n.stack s.level.adjoints).length = (m.stack S.tape).length + 1 := by
    rw [hlevel, ht.adjoints]
    simp only [Setting.carried, hact, ite_true, hst', List.length_cons]
  obtain ⟨adjoint, rest, hrest⟩ := List.exists_cons_of_length_eq_add_one hlen
  obtain ⟨hle, hsize', hcases⟩ := Sweep.reverseTapeWrite_eq_ok hcode
  obtain ⟨tail, rfl, htail⟩ : ∃ tail,
      code = [.define ⟨l.vars.size⟩ true (.pop s.level.adjoints)] ++ tail ∧
        Emitted S.rv.tapeless l l' tail := by
    rcases hcases with ⟨-, rfl⟩ | ⟨a, -, ha, rfl⟩
    · exact ⟨[], rfl, (Emitted.nil _ l).weaken hle⟩
    · refine ⟨_, rfl, .of_atoms hle fun st hst => ?_⟩
      rw [List.mem_singleton.mp hst]
      have hrange := haccs.range val a ha
      exact Sweep.fold_isReverse ⟨hrange.1, by omega⟩
  have hexec := execBlock_pop (j := j) hrest ⟨l.vars.size⟩ true
  have hback : Tracks S D m ((n.dropTape s.level.adjoints rest).setVar ⟨l.vars.size⟩ adjoint) := by
    refine ⟨?_, ?_, ?_, ?_, fun v hv ho => ?_⟩
    · rw [Machine.size_setVar, Machine.vars_dropTape, ht.size, (hran.frame rfl).size]
    · rw [← Machine.content_congr (hran.values hp rfl (by simp)), ← ht.values]
      refine Machine.content_congr (Machine.stack_dropTape_ne _ _ _ _ ?_)
      intro h
      cases h
    · rw [← Machine.content_congr (hran.decisions hp rfl), ← ht.decisions]
      refine Machine.content_congr (Machine.stack_dropTape_ne _ _ _ _ ?_)
      intro h
      cases h
    · rw [hrest, List.length_cons] at hlen
      rw [← hlevel, Machine.stack_setVar, Machine.stack_dropTape_self]
      simp only [Setting.carried, hact, ite_true]
      omega
    · have hne := S.owned_ne ho (a := ⟨l.vars.size⟩) hbase
      rw [Machine.var_setVar_ne _ _ _ _ hne, Machine.var_dropTape,
        ht.owned v (subset_blockScope D _ hv) ho, hran.owned hp rfl hv ho]
  rw [j.execBlock_append_next hexec]
  refine (htail.tapeless_run hE _).known.mono ?_ fun _ _ h => h
  rintro flow n' ⟨hexec', rfl, hframe⟩
  refine ⟨rfl, hback.framed hframe (fun _ => trivial) fun v hv => .inl hv, [],
    ⟨_, l', hcode, ?_, rfl⟩, ?_⟩
  · rw [j.execBlock_append_next hexec, hexec']
  · rw [hran.2]
    exact .nil

/-- Calls use no tapes. -/
theorem Lowering.CallFine.not_tape {lo : Lowering} (h : lo.CallFine c) : c.expr.tape? ≠ some t := by
  obtain ⟨target, htarget, -⟩ := h.found
  intro ht
  cases he : c.expr with
  | op opcode args => rw [he] at ht; cases ht
  | call callee args node => rw [he] at ht; cases ht
  | _ => rw [he] at htarget; cases htarget

theorem call_carried (hp : Placed S D [.call c])
    (hran : (Step.call c).Ran j S.rv.level site m log m') : S.carried m' = S.carried m := by
  have hfine : S.lo.CallFine c := hp.fine.1
  refine hran.carried rfl (fun _ hmem => ?_) fun hact h => S.tape_apart hact (by rw [h]; rfl)
  exact hfine.not_tape (by simpa [Step.source, blockTapes, Stmt.tapes] using hmem)

/-- The values that the rules of a call read are popped as they were pushed: the
result first, then the arguments from last to first. -/
theorem fetch_run {l₁ : Locals} {primalStmts savedStmts : Block} {saved : List (Var × Var)}
    {top : List (Slot R)} (hprimal : s.takePrimal c la = .ok ((primalStmts, primal), lb))
    (hsaved : s.popSaved c.savedArgs.reverse lb = .ok ((savedStmts, saved), l₁))
    (hsize : l₁.vars.size ≤ n.vars.size) (hstack : n.stack s.level.values = top ++ (popped ++ rest))
    (htop : top.length = if c.primal = .saved then 1 else 0)
    (hpopped : popped.length = c.savedArgs.length) :
    ∃ n₁, j.execBlock (primalStmts ++ savedStmts) n = .ok .next n₁ ∧
      n₁.stack s.level.values = rest ∧ (∀ u, u ≠ s.level.values → n₁.stack u = n.stack u) ∧
      (∀ v : Var, v.idx < la.vars.size → n₁.var v = n.var v) ∧
      n₁.vars.size = n.vars.size ∧ n₁.graph = n.graph ∧
      (c.primal = .saved → ∃ slot, top = [slot] ∧ n₁.var primal = some slot) ∧
      (freshVars lb.vars.size popped.length).map n₁.var = popped.map some := by
  obtain ⟨hle, hsize₁, rfl, rfl⟩ := Sweep.popSaved_eq_ok hsaved
  have hlength : c.savedArgs.reverse.length = popped.length := by
    rw [List.length_reverse, hpopped]
  have hstmts : (c.savedArgs.reverse.zip (freshVars lb.vars.size c.savedArgs.reverse.length)).map
      (fun p => Stmt.define p.2 true (.pop s.level.values)) =
        (freshVars lb.vars.size popped.length).map fun w => .define w true (.pop s.level.values) := by
    have hsnd : (c.savedArgs.reverse.zip (freshVars lb.vars.size popped.length)).map Prod.snd =
        freshVars lb.vars.size popped.length :=
      List.map_snd_zip (by simp [freshVars, hlength])
    rw [hlength, ← hsnd, List.map_map, hsnd]
    rfl
  rw [hlength] at hsize₁
  rw [hstmts]
  rcases Sweep.takePrimal_eq_ok hprimal with ⟨hp, rfl, -, hsize₂, rfl⟩ | ⟨hp, rfl, rfl, rfl⟩
  · rw [if_pos hp] at htop
    obtain ⟨slot, rfl⟩ := List.length_eq_one_iff.mp htop
    rw [j.execBlock_append_next (execBlock_pop hstack ⟨la.vars.size⟩ true)]
    obtain ⟨n₁, hexec, hrest, hothers, hfresh, hbelow, hn₁, hgraph⟩ := execBlock_pops (j := j)
      (n := (n.dropTape s.level.values (popped ++ rest)).setVar ⟨la.vars.size⟩ slot)
      (t := s.level.values) (Machine.stack_dropTape_self _ _ _)
      (show lb.vars.size + popped.length ≤ _ by
        rw [Machine.size_setVar, Machine.vars_dropTape]
        omega)
    refine ⟨n₁, hexec, hrest, fun u hu => ?_, fun v hv => ?_, ?_, hgraph, fun _ => ⟨slot, rfl, ?_⟩,
      hfresh⟩
    · rw [hothers u hu, Machine.stack_setVar, Machine.stack_dropTape_ne _ _ _ _ hu]
    · have hne : (⟨la.vars.size⟩ : Var) ≠ v := fun h => by rw [← h] at hv; simp at hv
      rw [hbelow v (by omega), Machine.var_setVar_ne _ _ _ _ hne, Machine.var_dropTape]
    · rw [hn₁, Machine.size_setVar, Machine.vars_dropTape]
    · rw [hbelow _ (by simp only; omega), Machine.var_setVar_self]
      simp only [Machine.vars_dropTape]
      omega
  · rw [if_neg hp] at htop
    obtain rfl := List.length_eq_zero_iff.mp htop
    rw [List.nil_append] at hstack
    obtain ⟨n₁, hexec, hrest, hothers, hfresh, hbelow, hn₁, hgraph⟩ :=
      execBlock_pops (j := j) hstack (show lb.vars.size + popped.length ≤ _ by omega)
    exact ⟨n₁, hexec, hrest, hothers, hbelow, hn₁, hgraph, fun h => absurd h hp, hfresh⟩

theorem mem_firsts {vs : List Var} (h : v ∈ vs) : v ∈ firsts vs := by
  induction vs with
  | nil => exact h
  | cons w vs ih =>
    by_cases hw : v = w
    · simp [firsts, hw]
    · have hv := ih ((List.mem_cons.mp h).resolve_left hw)
      simp [firsts, hw, hv]

/-- An argument with a saved checkpoint is pushed. -/
theorem ActiveCall.mem_savedArgs {i : Nat} (hv : c.argVars[i]? = some v)
    (hc : c.args[i]? = some .saved) : v ∈ c.savedArgs := by
  refine mem_firsts (List.mem_map.mpr ⟨(v, .saved), List.mem_filter.mpr ⟨?_, by simp⟩, rfl⟩)
  exact List.mem_of_getElem? (List.getElem?_zip_eq_some.mpr ⟨hv, hc⟩)

omit [Scalar R] in
/-- What was popped for a variable is what the variable held. -/
theorem lookup_supplied {vs ws : List Var} {slots : List (Slot R)}
    (hn : ws.map n.var = popped.map some) (hm : vs.map m.var = slots.map some)
    (hval : popped.map Slot.value = slots.map Slot.value) (hv : v ∈ vs) :
    ∃ w s a, (vs.zip ws).lookup v = some w ∧ n.var w = some s ∧ m.var v = some a ∧
      s.value = a.value := by
  induction vs generalizing ws popped slots with
  | nil => cases hv
  | cons u vs ih =>
    obtain ⟨a, slots, rfl⟩ : ∃ a rest, slots = a :: rest := by
      cases slots with
      | nil => cases hm
      | cons a rest => exact ⟨a, rest, rfl⟩
    obtain ⟨s, popped, rfl⟩ : ∃ s rest, popped = s :: rest := by
      cases popped with
      | nil => cases hval
      | cons s rest => exact ⟨s, rest, rfl⟩
    obtain ⟨w, ws, rfl⟩ : ∃ w rest, ws = w :: rest := by
      cases ws with
      | nil => cases hn
      | cons w rest => exact ⟨w, rest, rfl⟩
    simp only [List.map_cons, List.cons.injEq] at hn hm hval
    rw [List.zip_cons_cons, List.lookup_cons]
    by_cases hu : v = u
    · subst hu
      exact ⟨w, s, a, by simp, hn.1, hm.1, hval.1⟩
    · rw [beq_eq_false_iff_ne.mpr hu]
      exact ih hn.2 hm.2 hval.2 ((List.mem_cons.mp hv).resolve_left hu)

omit [Scalar R] in
/-- The arguments that the rules of a call read are what the call was evaluated on. -/
theorem inputs_supplied (hp : Placed S D [.call c]) {first : Nat} {args slots : List (Slot R)}
    (hargs : c.argVars.map m.var = args.map some)
    (hslots : c.savedArgs.reverse.map m.var = slots.map some)
    (hval : popped.map Slot.value = slots.map Slot.value)
    (hfresh : (freshVars first popped.length).map n.var = popped.map some)
    (howned : ∀ v ∈ D, S.lo.isOwned v = true →
      (n.var v).map Slot.value = (m.var v).map Slot.value) {i : Nat}
    (hi : (c.node.inputsReferenced c.activeArgs)[i]? = some true) :
    ∃ s a, ((Sweep.inputs c (c.savedArgs.reverse.zip (freshVars first popped.length))).map
      n.var)[i]? = some (some s) ∧ args[i]? = some a ∧ s.value = a.value := by
  have hfine : S.lo.CallFine c := hp.fine.1
  obtain ⟨v, hv⟩ : ∃ v, c.argVars[i]? = some v := by
    have hlt : i < c.argVars.length := by
      rw [← hfine.arity]
      have := (List.getElem?_eq_some_iff.mp hi).1
      simpa [Node.inputsReferenced] using this
    exact ⟨_, List.getElem?_eq_getElem hlt⟩
  have hcheck : c.args[i]? = some (S.lo.checkpoint v true) := by
    have hzip : (c.argVars.zip (c.node.inputsReferenced c.activeArgs))[i]? = some (v, true) :=
      List.getElem?_zip_eq_some.mpr ⟨hv, hi⟩
    rw [hfine.args, List.getElem?_map, hzip]
    rfl
  obtain ⟨a, ha, hma⟩ : ∃ a, args[i]? = some a ∧ m.var v = some a := by
    have := congrArg (·[i]?) hargs
    simp only [List.getElem?_map, hv, Option.map_some] at this
    cases hargi : args[i]? with
    | none => rw [hargi] at this; cases this
    | some a =>
      rw [hargi] at this
      exact ⟨a, rfl, Option.some.inj this⟩
  have hinput : ((Sweep.inputs c (c.savedArgs.reverse.zip (freshVars first popped.length))).map
      n.var)[i]? = some (n.var (if S.lo.checkpoint v true = .saved then
        ((c.savedArgs.reverse.zip (freshVars first popped.length)).lookup v).getD v else v)) := by
    have hzip : (c.argVars.zip c.args)[i]? = some (v, S.lo.checkpoint v true) :=
      List.getElem?_zip_eq_some.mpr ⟨hv, hcheck⟩
    rw [Sweep.inputs, List.map_map, List.getElem?_map, hzip]
    rfl
  rw [hinput]
  cases ho : S.lo.isOwned v with
  | true =>
    have hdirect : S.lo.checkpoint v true = .direct := by simp [Lowering.checkpoint, ho]
    have hscoped : (Stmt.define c.dst c.decl c.expr).Scoped S.lo.func D := hp.inScope.1
    have hD : v ∈ D := hscoped.uses v (List.mem_of_getElem? hv)
    have hsame := howned v hD ho
    rw [hma] at hsame
    cases hnv : n.var v with
    | none => rw [hnv] at hsame; cases hsame
    | some s =>
      rw [hnv] at hsame
      refine ⟨s, a, ?_, ha, Option.some.inj hsame⟩
      rw [hdirect, if_neg (by simp), hnv]
  | false =>
    have hsave : S.lo.checkpoint v true = .saved := by simp [Lowering.checkpoint, ho]
    have hmem : v ∈ c.savedArgs.reverse :=
      List.mem_reverse.mpr (ActiveCall.mem_savedArgs hv (hcheck.trans (by rw [hsave])))
    obtain ⟨w, s, a', hlookup, hnw, hma', hvalue⟩ := lookup_supplied hfresh hslots hval hmem
    rw [hma] at hma'
    cases hma'
    refine ⟨s, a, ?_, ha, hvalue⟩
    rw [if_pos hsave, hlookup, Option.getD_some, hnw]

/-- What a call pushed, top first. -/
theorem call_pushed (hp : Placed S D [.call c])
    (hran : (Step.call c).Ran j S.rv.level site m log m') (hsize : c.dst.idx < m.vars.size) :
    ∃ args slots result, log = [.call site c args result] ∧
      c.argVars.map m.var = args.map some ∧ c.savedArgs.reverse.map m.var = slots.map some ∧
      m'.var c.dst = some result ∧ m'.stack S.rv.level.values =
        (if c.primal = .saved then [result] else []) ++ (slots ++ m.stack S.rv.level.values) := by
  obtain ⟨hexec, args, result, hargs, hresult, hlog⟩ := hran
  obtain ⟨args', saved, result', m₁, hargs', hsaved, heval, hframe, hm'⟩ :=
    forwardCall_inv hp.fine.1 hsize hexec
  have hsize₁ : c.dst.idx < m₁.vars.size := by rw [hframe.vars]; simpa using hsize
  have hsame : result' = result := by
    rw [hm'] at hresult
    split at hresult
    · rw [Machine.var_pushTape, Machine.var_setVar_self _ _ _ hsize₁] at hresult
      exact Option.some.inj hresult
    · rw [Machine.var_setVar_self _ _ _ hsize₁] at hresult
      exact Option.some.inj hresult
  subst hsame
  have hstack : m₁.stack S.rv.level.values = saved.reverse ++ m.stack S.rv.level.values := by
    obtain ⟨target, htarget, -⟩ := hp.fine.1.found
    have hcell := hframe.tapes S.rv.level.values fun he => by rw [he] at htarget; cases htarget
    rw [← Machine.stack_pushAll_self]
    exact congrArg TapeCell.stack hcell
  refine ⟨args, saved.reverse, result', hlog, hargs, ?_, hresult, ?_⟩
  · rw [List.map_reverse, List.map_reverse, hsaved]
  · rw [hm']
    split
    · rw [Machine.stack_pushTape_self, Machine.stack_setVar, hstack]
      rfl
    · rw [Machine.stack_setVar, hstack]
      rfl

/-- What a call pushed is on the tape of the reverse section, as far as values go. -/
theorem call_supplied (hp : Placed S D [.call c])
    (hran : (Step.call c).Ran j S.rv.level site m log m') (hbase : S.rv.base ≤ n.vars.size)
    (ht : Tracks S (blockScope D [.define c.dst c.decl c.expr]) m' n) :
    ∃ (args slots : List (Slot R)) (result : Slot R) (top popped rest : List (Slot R)),
      log = [.call site c args result] ∧ c.argVars.map m.var = args.map some ∧
      c.savedArgs.reverse.map m.var = slots.map some ∧ m'.var c.dst = some result ∧
      n.stack S.rv.level.values = top ++ (popped ++ rest) ∧
      top.map Slot.value = List.map Slot.value (if c.primal = .saved then [result] else []) ∧
      popped.map Slot.value = slots.map Slot.value ∧
      rest.map Slot.value = m.content S.rv.level.values := by
  have hdst : c.dst.idx < m.vars.size := by
    have hlt := S.definesBelow c.dst c.decl c.expr hp.call_atom
    have hm : m'.vars.size = m.vars.size := (hran.frame rfl).size
    have := S.base
    have := ht.size
    omega
  obtain ⟨args, slots, result, hlog, hargs, hslots, hresult, hstack⟩ := call_pushed hp hran hdst
  have hcontent := ht.values
  rw [Machine.content, Machine.content, hstack, List.map_append, List.map_append,
    List.map_eq_append_iff] at hcontent
  obtain ⟨top, others, hn, htop, hothers⟩ := hcontent
  rw [List.map_eq_append_iff] at hothers
  obtain ⟨popped, rest, rfl, hpopped, hrest⟩ := hothers
  exact ⟨args, slots, result, top, popped, rest, hlog, hargs, hslots, hresult, hn, htop, hpopped,
    hrest⟩

omit [Scalar R] in
/-- The result of a call, where its rules read it, is in its variable or on top of what
was pushed. -/
theorem primal_supplied (hp : Placed S D [.call c])
    (ht : Tracks S (blockScope D [.define c.dst c.decl c.expr]) m' n) {result : Slot R}
    (hresult : m'.var c.dst = some result) {stmts : Block}
    (hprimal : s.takePrimal c la = .ok ((stmts, primal), lb)) {n₁ : Machine R}
    (hvars : ∀ v : Var, v.idx < S.rv.base → n₁.var v = n.var v) {top : List (Slot R)}
    (htop : top.map Slot.value = List.map Slot.value (if c.primal = .saved then [result] else []))
    (hsaved : c.primal = .saved → ∃ slot, top = [slot] ∧ n₁.var primal = some slot)
    (href : c.node.primalReferenced c.activeArgs = true) :
    ∃ slot, n₁.var primal = some slot ∧ slot.value = result.value := by
  have hfine : S.lo.CallFine c := hp.fine.1
  have hcheck : c.primal = S.lo.checkpoint c.dst true := by rw [hfine.primal, href]
  cases ho : S.lo.isOwned c.dst with
  | true =>
    -- the result is read from its variable, which is in scope from here on
    have hdirect : c.primal ≠ .saved := by rw [hcheck]; simp [Lowering.checkpoint, ho]
    obtain ⟨h, -⟩ | ⟨-, -, rfl, -⟩ := Sweep.takePrimal_eq_ok hprimal
    · exact absurd h hdirect
    have hsame := ht.owned c.dst (mem_blockScope_define hp.inScope.1) ho
    rw [hresult, ← hvars c.dst (Nat.lt_of_lt_of_le (S.owned_lt ho) S.base)] at hsame
    cases hv : n₁.var c.dst with
    | none => rw [hv] at hsame; cases hsame
    | some slot =>
      rw [hv] at hsame
      exact ⟨slot, rfl, Option.some.inj hsame⟩
  | false =>
    have hsave : c.primal = .saved := by rw [hcheck]; simp [Lowering.checkpoint, ho]
    obtain ⟨slot, rfl, hslot⟩ := hsaved hsave
    rw [if_pos hsave] at htop
    exact ⟨slot, hslot, by simpa using htop⟩

/-- What the rules of a call are given where they are inlined. -/
structure Fetched (S : Setting) (D : Finset Var) (c : ActiveCall) (ins : List Var) (primal : Var)
    (first : Nat) (m : Machine R) (args : List (Slot R)) (result : Slot R) (na n₁ : Machine R) :
    Prop where
  tracks : Tracks S D m n₁
  inputs : ∀ i : Nat, (c.node.inputsReferenced c.activeArgs)[i]? = some true →
    ∃ s a : Slot R, (ins.map n₁.var)[i]? = some (some s) ∧ args[i]? = some a ∧ s.value = a.value
  primal : c.node.primalReferenced c.activeArgs = true →
    ∃ slot, n₁.var primal = some slot ∧ slot.value = result.value
  vars : ∀ v : Var, v.idx < first → n₁.var v = na.var v
  stack : ∀ t, t ≠ S.rv.level.values → n₁.stack t = na.stack t
  size : n₁.vars.size = na.vars.size
  graph : n₁.graph = na.graph

/-- Behind taking the adjoint of its result, a call pops what it pushed. -/
theorem call_fetched (hlevel : s.level = S.rv.level) (hbase : S.rv.base ≤ l.vars.size)
    (haccs : accs.Fit S.rv.base l.vars.size) (hp : Placed S D [.call c])
    (hran : (Step.call c).Ran j S.rv.level site m log m')
    (ht : Tracks S (blockScope D [.define c.dst c.decl c.expr]) m' n) {a upstream : Var}
    {adjointStmts primalStmts savedStmts : Block} {saved : List (Var × Var)} {l₁ : Locals}
    (ha : accs.find? c.dst = some a)
    (hadjoint : s.takeAdjoint c a l = .ok ((adjointStmts, upstream), la))
    (hprimal : s.takePrimal c la = .ok ((primalStmts, primal), lb))
    (hsaved : s.popSaved c.savedArgs.reverse lb = .ok ((savedStmts, saved), l₁))
    (hsize : l₁.vars.size ≤ n.vars.size) {na : Machine R}
    (hexec : j.execBlock adjointStmts n = .ok .next na) :
    ∃ args result n₁, log = [.call site c args result] ∧ c.argVars.map m.var = args.map some ∧
      j.execBlock (primalStmts ++ savedStmts) na = .ok .next n₁ ∧
      Fetched S D c (Sweep.inputs c saved) primal la.vars.size m args result na n₁ := by
  have haccs' : accs.Fit S.rv.tapeless.base l.vars.size := haccs
  have hbase' : S.rv.tapeless.base ≤ l.vars.size := hbase
  have hadjoint' := Sweep.takeAdjoint_emitted hbase' haccs' ha hadjoint
  have hany : Tolerant (fun _ => True) j.externs := ⟨fun _ _ => trivial, fun _ _ _ _ _ _ => trivial⟩
  have hframea := ((hadjoint'.tapeless_run hany n).of_ok hexec).2
  have hle : l.vars.size ≤ la.vars.size := hadjoint'.le.size
  have hle₁ : la.vars.size ≤ l₁.vars.size :=
    Nat.le_trans (Sweep.takePrimal_range hprimal).1 (Sweep.popSaved_eq_ok hsaved).1.size
  obtain ⟨-, -, rfl, -⟩ := Sweep.popSaved_eq_ok hsaved
  obtain ⟨args, slots, result, top, popped, rest, rfl, hargs, hslots, hresult, hn, htop, hpopped,
    hrest⟩ := call_supplied hp hran (by omega) ht
  have htoplen : top.length = if c.primal = .saved then 1 else 0 := by
    have := congrArg List.length htop
    rw [List.length_map, List.length_map] at this
    rw [this]
    split <;> rfl
  have hpoplen : popped.length = c.savedArgs.length := by
    have h₁ := congrArg List.length hpopped
    have h₂ := congrArg List.length hslots
    simp only [List.length_map, List.length_reverse] at h₁ h₂
    omega
  have hstacka : na.stack s.level.values = top ++ (popped ++ rest) := by
    rw [hlevel, ← hn]
    exact congrArg TapeCell.stack (hframea.tapes _ trivial)
  obtain ⟨n₁, hexec₁, hrest₁, hothers₁, hbelow₁, hsize₁, hgraph₁, hprimal₁, hfresh₁⟩ :=
    fetch_run hprimal hsaved (by rw [hframea.size]; exact hsize) hstacka htoplen hpoplen
  have hvars₁ (v : Var) (hv : v.idx < S.rv.base) : n₁.var v = n.var v := by
    rw [hbelow₁ v (by omega), hframea.vars v (.inl hv)]
  have howned (v : Var) (hv : v ∈ D) (ho : S.lo.isOwned v = true) :
      (n₁.var v).map Slot.value = (m.var v).map Slot.value := by
    rw [hvars₁ v (Nat.lt_of_lt_of_le (S.owned_lt ho) S.base),
      ht.owned v (subset_blockScope D _ hv) ho, hran.owned hp rfl hv ho]
  have hkept (t : Tape) (h : t ≠ s.level.values) : n₁.stack t = n.stack t := by
    rw [hothers₁ t h]
    exact congrArg TapeCell.stack (hframea.tapes t trivial)
  refine ⟨args, result, n₁, rfl, hargs, hexec₁, ⟨?_, ?_, ?_, ?_, howned⟩, fun i hi => ?_,
    primal_supplied hp ht hresult hprimal hvars₁ htop hprimal₁, hbelow₁,
    fun t h => hothers₁ t (by rwa [hlevel]), hsize₁, hgraph₁⟩
  · rw [hsize₁, hframea.size, ht.size, (hran.frame rfl).size]
  · rw [Machine.content, ← hlevel, hrest₁, hrest, hlevel]
  · rw [← Machine.content_congr (hran.decisions hp rfl), ← ht.decisions]
    exact Machine.content_congr (hkept _ (by rw [hlevel]; intro h; cases h))
  · rw [hkept _ (by rw [hlevel]; intro h; cases h), ht.adjoints, call_carried hp hran]
  · rw [List.length_reverse, ← hpoplen]
    exact inputs_supplied hp hargs hslots hpopped hfresh₁ howned hi

/-- The reverse code of a call pops what the call pushed, and is given what the
call read and returned. -/
theorem call_undone (hE : Tolerant E j.externs) (hlevel : s.level = S.rv.level)
    (hbase : S.rv.base ≤ l.vars.size) (haccs : accs.Fit S.rv.base l.vars.size)
    (hp : Placed S D [.call c]) (hran : (Step.call c).Ran j S.rv.level site m log m')
    (ht : Tracks S (blockScope D [.define c.dst c.decl c.expr]) m' n)
    (hcode : s.reverseCall accs c l = .ok (code, l')) (hsize : l'.vars.size ≤ n.vars.size) :
    Ends (j.execBlock code n) (StepUndone j S s D (.call c) site accs l m log n)
      (fun e _ => E e) := by
  obtain ⟨a, before, upstream, ins, primal, l₁, after, ha, hbefore, hafter, rfl⟩ :=
    Sweep.reverseCall_eq_ok hcode
  obtain ⟨adjointStmts, la, primalStmts, lb, savedStmts, saved, hadjoint, hprimal, hsaved, rfl,
    rfl⟩ := Sweep.prepare_eq_ok hbefore
  have haccs' : accs.Fit S.rv.tapeless.base l.vars.size := haccs
  have hbase' : S.rv.tapeless.base ≤ l.vars.size := hbase
  have hadjoint' := Sweep.takeAdjoint_emitted hbase' haccs' ha hadjoint
  have hle₁ := (Sweep.prepare_emitted hlevel S.covers.values hbase haccs ha hbefore).le
  have hafter' : Emitted S.rv.tapeless l₁ l' after := by
    refine Sweep.contributions_emitted (S.covers.sound _ hp.fine.1.mem) (fun _ => trivial)
      (fun r hr => ?_) (Nat.le_trans hbase' hle₁.size) (haccs'.mono hle₁.size) hafter
    exact (List.of_mem_zip (List.of_mem_zip hr).2).2
  -- the adjoint is taken, the values are fetched, the contributions are added
  rw [List.append_assoc, List.append_assoc]
  refine Job.execBlock_append_ends (hadjoint'.tapeless_run hE n) fun na hexeca _ => ?_
  obtain ⟨args, result, n₁, rfl, -, hexec₁, hfetched⟩ := call_fetched hlevel hbase haccs hp hran ht
    ha hadjoint hprimal hsaved (Nat.le_trans hafter'.le.size hsize) hexeca
  have hexec : j.execBlock (adjointStmts ++ primalStmts ++ savedStmts) n = .ok .next n₁ := by
    rw [List.append_assoc, j.execBlock_append_next hexeca, hexec₁]
  rw [← List.append_assoc, j.execBlock_append_next hexec₁]
  refine (hafter'.tapeless_run hE n₁).known.mono ?_ fun _ _ h => h
  rintro flow n' ⟨hexec', rfl, hframe⟩
  exact ⟨rfl, hfetched.tracks.framed hframe (fun _ => trivial) fun v hv => .inl hv,
    [.call site c _ _], ⟨a, _, upstream, _, primal, l₁, after, l', n₁, ha, hbefore, hafter, hexec,
      hexec', rfl⟩, .cons ⟨rfl, rfl, hfetched.inputs, hfetched.primal⟩ .nil⟩

/-- **The reverse code of a step without steps inside undoes it.** -/
theorem leaf_undone (hE : Tolerant E j.externs) (hlevel : s.level = S.rv.level)
    (hbase : S.rv.base ≤ l.vars.size) (haccs : accs.Fit S.rv.base l.vars.size) {step : Step}
    (hleaf : step.isLeaf = true) (hp : Placed S D [step])
    (hran : step.Ran j S.rv.level site m log m') (ht : Tracks S (blockScope D step.source) m' n)
    (hcode : s.reverseStep accs step l = .ok (code, l')) (hsize : l'.vars.size ≤ n.vars.size) :
    Ends (j.execBlock code n) (StepUndone j S s D step site accs l m log n) (fun e _ => E e) := by
  cases step, hleaf using Step.leafCases with
  | inert run =>
    obtain ⟨rfl, -⟩ := emit_pure_eq_ok.mp hcode
    exact inert_undone hE haccs hp hran ht
  | call c => exact call_undone hE hlevel hbase haccs hp hran ht hcode hsize
  | assign dst decl src active => exact assign_undone hE hlevel haccs hp hran ht hcode
  | tapeWrite t val active => exact tapeWrite_undone hE hlevel hbase haccs hp hran ht hcode

end

end Backsweep
