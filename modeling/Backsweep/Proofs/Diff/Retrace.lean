import Mathlib
import Backsweep.Proofs.Diff.Generation
import Backsweep.Proofs.Diff.Replay
import Backsweep.Proofs.Run.Whole

/-!
# Runs of derivatives

A derivative runs its forward section, starts its accumulators and runs its
reverse section.

* `Generation.Ran`: the trails that both sections leave;
* `Generation.rewound`, `Generation.retraced`: the reverse section leads back to
  where the forward section started, with any upkeep on the way;
* `Generation.stack_end`: what is left on the tapes.
-/

namespace Backsweep

variable {R : Type} [Scalar R]

/-- Without upkeep. -/
theorem upkeep_none {S : Setting} {s : Sweep} {j : Job R} {E : RunError → Prop}
    (hE : Tolerant E j.externs) (hlevel : s.level = S.rv.level) :
    Upkeep S s j (fun _ => True) (fun _ _ _ _ => True) E where
  limit := hE.stepLimit
  tick _ := trivial
  forward _ _ _ := trivial
  congr _ _ _ _ _ _ _ := trivial
  inScope _ _ _ := trivial
  widen _ _ _ := trivial
  header _ _ _ _ _ _ _ := trivial
  leaf hleaf hp hran _ hr hcode hsize ht _ :=
    (leaf_undone hE hlevel hr.base hr.fit hleaf hp hran ht hcode hsize).mono
      (fun _ _ _ => trivial) fun _ _ h => h

namespace Generation

variable {c : Catalogue} {f g : Func} {input : ActiveInput} {withTapes : Bool} {mode : ReturnMode}

/-- The forward section. -/
def forward (d : Generation c f input withTapes mode g) : Block :=
  d.level.forwardSteps d.plan.body.2

/-- The derivative ran up to its return: its forward section left the trail `log`,
its accumulators started, and its reverse section left the trail `log'`. -/
def Ran (d : Generation c f input withTapes mode g) (j : Job R) (m : Machine R)
    (log : List (Visit R)) (log' : List (Supply R)) (n : Machine R) : Prop :=
  ∃ m₁ n₁, stepsRan j d.level [] 0 d.plan.body.2 m log m₁ ∧
    j.execBlock d.inits m₁ = .ok .next n₁ ∧
    stepsRewound j d.sweep [] 0 d.plan.body.2 d.accs d.locals n₁ log' n

variable {d : Generation c f input withTapes mode g} {j : Job R} {m m₁ n : Machine R}

/-- Both trails are trails of one run. -/
theorem Ran.exec {log : List (Visit R)} {log' : List (Supply R)} (h : d.Ran j m log log' n) :
    ∃ m₁, j.execBlock d.forward m = .ok .next m₁ ∧
      j.execBlock (d.inits ++ d.code) m₁ = .ok .next n := by
  obtain ⟨m₁, n₁, hran, hinits, hrewound⟩ := h
  refine ⟨m₁, hran.exec, ?_⟩
  rw [j.execBlock_append_next hinits]
  exact hrewound.exec d.reversed

theorem body_eq (d : Generation c f input withTapes mode g) :
    g.body = (d.forward ++ (d.inits ++ d.code)) ++ [.ret (d.plan.results d.acc mode)] := by
  rw [d.body, ← List.append_assoc d.forward]
  rfl

/-- The steps of the plan are the body of the function up to its return. -/
theorem source_atoms (d : Generation c f input withTapes mode g) :
    blockAtoms (stepsSource d.plan.body.2) ⊆ blockAtoms f.body := by
  have hbody := d.source_eq
  rw [hbody, blockAtoms_append]
  exact List.subset_append_left _ _

theorem forward_isForward (hc : c.Sound) (hf : f.Tabled) {tape : Tape} (ht : d.OneTape tape) :
    ∀ a ∈ blockAtoms d.forward, (d.setting hc hf ht).IsForward a := by
  intro a ha
  rcases forward_atoms ha with ha | ha
  · exact .inl (d.source_atoms ha)
  · exact .inr ha

/-- The forward section changes variables of the function only, and of the tapes
of its level those of values and decisions. -/
theorem forward_frame (hc : c.Sound) (hf : f.Tabled) {tape : Tape} (ht : d.OneTape tape)
    (h : j.execBlock d.forward m = .ok .next m₁) :
    BlockFrame (fun v => f.vars.size ≤ v.idx)
      (fun t => t ∉ blockTapes f.body ∧ t ≠ d.level.values ∧ t ≠ d.level.decisions) m m₁ := by
  refine (j.execBlock_frame (fun v decl e hv ha => ?_) (fun t hT hmem => ?_) m).of_ok h
  · rcases forward_isForward hc hf ht _ ha with ha | ⟨w, hw⟩ | ⟨i, hi⟩
    · exact absurd ((d.setting hc hf ht).definesBelow v decl e ha) (Nat.not_lt.mpr hv)
    · cases hw
    · cases hi
  · obtain ⟨a, ha, hta⟩ := (mem_blockTapes _).mp hmem
    rcases forward_isForward hc hf ht _ ha with ha | ⟨w, rfl⟩ | ⟨i, rfl⟩
    · exact hT.1 ((mem_blockTapes _).mpr ⟨a, ha, hta⟩)
    · exact hT.2.1 (List.mem_singleton.mp hta)
    · exact hT.2.2 (List.mem_singleton.mp hta)

/-- The accumulators of the body start without tapes. -/
theorem inits_tapes (d : Generation c f input withTapes mode g) (t : Tape) :
    t ∉ blockTapes d.inits := by
  have hinit (v : Var) : (d.sweep.rootInit d.plan d.upstream v).tape? = none := by
    unfold Sweep.rootInit
    split <;> rfl
  have hinput : (d.sweep.inputInit d.plan d.upstream).tape? = none := by
    unfold Sweep.inputInit
    split
    · exact hinit _
    · rfl
  intro hmem
  obtain ⟨a, ha, hta⟩ := (mem_blockTapes _).mp hmem
  rw [d.inits_eq, mem_blockAtoms] at ha
  obtain ⟨s, hs, ha⟩ := ha
  rcases List.mem_cons.mp hs with rfl | hs
  · obtain rfl := List.mem_singleton.mp ha
    rw [Stmt.tapes, hinput] at hta
    cases hta
  · obtain ⟨p, -, rfl⟩ := List.mem_map.mp hs
    obtain rfl := List.mem_singleton.mp ha
    rw [Stmt.tapes, hinit] at hta
    cases hta

/-- The reverse section uses tapes of its level only. -/
theorem code_tapes (hc : c.Sound) {t : Tape} (h : t ∈ blockTapes d.code) : d.reversal.tapes t := by
  obtain ⟨a, ha, hta⟩ := (mem_blockTapes _).mp h
  have hrev := (emitted (d := d) hc).atoms a ha
  cases a with
  | define dst decl e => exact hrev.2.2.1 t (by simpa [Stmt.tapes] using hta)
  | push u v =>
    obtain rfl : t = u := List.mem_singleton.mp hta
    exact hrev.2
  | pushDecision u i => exact hrev.elim
  | unreachable => cases hta
  | store obj field val => cases hta
  | ret vals => cases hta
  | cond arms other => exact hrev.elim
  | loop header test body => exact hrev.elim
  | doLoop body test => exact hrev.elim
  | block body => exact hrev.elim

theorem reversal_level {t : Tape} (h : d.reversal.tapes t) : t.level = d.level.val := by
  rcases h with rfl | rfl | ⟨rfl, -⟩ <;> rfl

/-- Behind the forward section, tapes of other levels are left alone. -/
theorem stack_end (hc : c.Sound) {log : List (Visit R)} {log' : List (Supply R)}
    (h : d.Ran j m log log' n) (hfwd : j.execBlock d.forward m = .ok .next m₁) {t : Tape}
    (ht : t.level ≠ d.level.val) : n.stack t = m₁.stack t := by
  obtain ⟨m₂, hfwd', hexec⟩ := h.exec
  rw [hfwd] at hfwd'
  cases hfwd'
  refine execBlock_stack (fun hmem => ?_) hexec
  rw [blockTapes_append, List.mem_append] at hmem
  rcases hmem with hmem | hmem
  · exact d.inits_tapes t hmem
  · exact ht (reversal_level (code_tapes hc hmem))

/-- A machine that tracks the end of the forward section is led back to its start. -/
theorem rewound {hc : c.Sound} {hf : f.Tabled} {tape : Tape} {ht : d.OneTape tape}
    {I : Machine R → Prop} {P : Finset Var → Accumulators → Machine R → Machine R → Prop}
    {E : RunError → Prop} (U : Upkeep (d.setting hc hf ht) d.sweep j I P E) {u : Slot R}
    {k : Machine R} (hsize : g.vars.size ≤ m.vars.size) (hI : I m)
    (hlevel : ∀ t, t.level = d.level.val → m.stack t = [])
    (hfwd : j.execBlock d.forward m = .ok .next m₁) (hu : k.var d.upstream = some u)
    (hk : Tracks (d.setting hc hf ht) (blockScope f.params.toFinset (stepsSource d.plan.body.2)) m₁ k)
    (hP : ∀ n₁, d.Started u k n₁ →
      P (blockScope f.params.toFinset (stepsSource d.plan.body.2)) d.accs m₁ n₁) :
    Ends (j.execBlock (d.inits ++ d.code) k)
      (fun flow n => flow = .next ∧ ∃ log log' n₁, stepsRan j d.level [] 0 d.plan.body.2 m log m₁ ∧
        j.execBlock d.inits k = .ok .next n₁ ∧
        stepsRewound j d.sweep [] 0 d.plan.body.2 d.accs d.locals n₁ log' n ∧
        Restores (d.setting hc hf ht) P f.params.toFinset d.accs m log log' n)
      (fun e _ => E e) := by
  rw [d.vars] at hsize
  have hgrown := (emitted (d := d) hc).le.size
  have hlocals := d.locals_size
  have hdef : DefinesBelow m.vars.size (stepsSource d.plan.body.2) := by
    intro v decl e ha
    have hlt : v.idx < f.vars.size :=
      (d.setting hc hf ht).definesBelow v decl e ((Placed.root (d.setting hc hf ht)).atoms ha)
    omega
  obtain ⟨log, hran⟩ : ∃ log, stepsRan j d.level [] 0 d.plan.body.2 m log m₁ :=
    exists_stepsRan d.fine.fine hdef hfwd
  have hsize₁ : m₁.vars.size = m.vars.size := (forward_frame hc hf ht hfwd).size
  obtain ⟨n₁, hinits, hstarted⟩ := inits_run (j := j) (by rw [hk.size, hsize₁]; omega) hu
  have htracks : Tracks (d.setting hc hf ht) (blockScope f.params.toFinset
      (stepsSource d.plan.body.2)) m₁ n₁ :=
    hk.after hstarted.size (hstarted.stack _) (hstarted.stack _)
      (congrArg List.length (hstarted.stack _)) hstarted.var
  have hfree : m.TopFree d.level.decisions (· ∈ stepsLoopIds d.plan.body.2) := by
    intro i _
    rw [Machine.topIs_eq, hlevel _ rfl]
  have hsheltered (hS : (d.setting hc hf ht).Sheltered) :
      ∀ v ∈ innerDecls (stepsSource d.plan.body.2), d.accs.find? v = none :=
    d.accs_inner fun v hv => hS v (d.activity_input.trans hv)
  rw [j.execBlock_append_next hinits]
  refine (U.reverses rfl d.plan.body.2 (.root _) hran hI hfree hsheltered (ready ht) d.reversed
    (by rw [htracks.size, hsize₁]; exact hsize) htracks (hP n₁ hstarted)).mono ?_ fun _ _ h => h
  rintro flow n ⟨rfl, log', hrewound, hrestores⟩
  exact ⟨rfl, log, log', n₁, hran, hinits, hrewound, hrestores⟩

/-- **The reverse section leads back to the start of the forward section.** -/
theorem retraced {hc : c.Sound} {hf : f.Tabled} {tape : Tape} {ht : d.OneTape tape}
    {I : Machine R → Prop} {P : Finset Var → Accumulators → Machine R → Machine R → Prop}
    {E : RunError → Prop} (U : Upkeep (d.setting hc hf ht) d.sweep j I P E) {u : Slot R}
    (hsize : g.vars.size ≤ m.vars.size) (hu : m.var d.upstream = some u) (hI : I m)
    (hlevel : ∀ t, t.level = d.level.val → m.stack t = [])
    (hfwd : j.execBlock d.forward m = .ok .next m₁)
    (hcarried : (d.setting hc hf ht).carried m₁ = [])
    (hP : ∀ n₁, d.Started u m₁ n₁ →
      P (blockScope f.params.toFinset (stepsSource d.plan.body.2)) d.accs m₁ n₁) :
    Ends (j.execBlock (d.inits ++ d.code) m₁)
      (fun flow n => flow = .next ∧ ∃ log log', d.Ran j m log log' n ∧
        Restores (d.setting hc hf ht) P f.params.toFinset d.accs m log log' n)
      (fun e _ => E e) := by
  have hframe := forward_frame hc hf ht hfwd
  have hu₁ : m₁.var d.upstream = some u := by
    rw [hframe.vars _ (by rw [d.upstream_eq]), hu]
  have hself : Tracks (d.setting hc hf ht) (blockScope f.params.toFinset
      (stepsSource d.plan.body.2)) m₁ m₁ := by
    refine ⟨rfl, rfl, rfl, ?_, fun _ _ _ => rfl⟩
    have hadjoints : m₁.stack d.level.adjoints = m.stack d.level.adjoints :=
      congrArg TapeCell.stack (hframe.tapes _
        ⟨fun h => ht.apart _ h rfl, (by intro h; cases h), (by intro h; cases h)⟩)
    change (m₁.stack d.level.adjoints).length = _
    rw [hcarried, hadjoints, hlevel _ rfl]
  refine (rewound U hsize hI hlevel hfwd hu₁ hself hP).mono ?_ fun _ _ h => h
  rintro flow n ⟨rfl, log, log', n₁, hran, hinits, hrewound, hrestores⟩
  exact ⟨rfl, log, log', ⟨m₁, n₁, hran, hinits, hrewound⟩, hrestores⟩

end Generation

end Backsweep
