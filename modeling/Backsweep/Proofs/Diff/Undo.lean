import Mathlib
import Backsweep.Proofs.Diff.Tracking

/-!
# Undoing all steps

The reverse section undoes the steps of the forward section, last step first,
however they are nested.

* `Upkeep`: what else may be kept up on the way, given for one step at a time;
* `Reverses`: the reverse code of steps leads from the state behind them to the
  state before them;
* `section_undone`, `arms_undone`, `rounds_undone`: sections, branches and loops;
* `Upkeep.reverses`: all steps of a plan can be undone.
-/

namespace Backsweep

variable {R : Type} [Scalar R]
variable {v : Var} {arms : List (Var × List Var × List Step)} {index : Nat}
variable {first k : Nat} {tests : List Var} {body : Block}

/-- A statement of the forward section: one of the function, or a push onto a tape
of its level. -/
def Setting.IsForward (S : Setting) (a : Stmt) : Prop :=
  a ∈ blockAtoms S.lo.func.body ∨ (∃ v, a = .push S.rv.level.values v) ∨
    ∃ d, a = .pushDecision S.rv.level.decisions d

/-- Where code can be generated: accumulators are in the table, behind the
variables of the function. -/
structure Ready (S : Setting) (accs : Accumulators) (l : Locals) : Prop where
  base : S.rv.base ≤ l.vars.size
  fit : accs.Fit S.rv.base l.vars.size

theorem Ready.mono {S : Setting} {accs : Accumulators} {l l' : Locals} (h : Ready S accs l)
    (hle : l.Le l') : Ready S accs l' := ⟨Nat.le_trans h.base hle.size, h.fit.mono hle.size⟩

/-- The input is a parameter, or a property of one. Then variables have no
accumulators outside of their blocks. -/
def Setting.Sheltered (S : Setting) : Prop :=
  ∀ v, S.lo.activity.input = .param v → v ∈ S.lo.func.params

/-- What can be kept up along the reverse section. `I` holds of the machine of the
forward section at all times. `P` relates it to the machine of the reverse
section, given the variables in scope and their accumulators. Other errors than
`E` do not happen. -/
structure Upkeep (S : Setting) (s : Sweep) (j : Job R) (I : Machine R → Prop)
    (P : Finset Var → Accumulators → Machine R → Machine R → Prop) (E : RunError → Prop) :
    Prop where
  limit : E .stepLimit
  tick : ∀ {m : Machine R}, I m → I m.ticked
  forward : ∀ {b : Block} {m m' : Machine R} {flow : Flow R},
    (∀ a ∈ blockAtoms b, S.IsForward a) → j.execBlock b m = .ok flow m' → I m → I m'
  /-- `P` depends on accumulators and the tape of adjoints only. -/
  congr : ∀ {D : Finset Var} {accs : Accumulators} {m m' n n' : Machine R}, P D accs m n →
    m'.vars = m.vars → m'.stack S.tape = m.stack S.tape → m'.graph = m.graph →
    (∀ a, accs.Has a → n'.var a = n.var a) →
    n'.stack S.rv.level.adjoints = n.stack S.rv.level.adjoints → n'.graph = n.graph →
    P D accs m' n'
  inScope : ∀ {D : Finset Var} {accs accs' : Accumulators} {m n : Machine R}, P D accs m n →
    (∀ v ∈ D, accs'.find? v = accs.find? v) → accs'.property = accs.property → P D accs' m n
  /-- New variables have no accumulator, or one that is zero. -/
  widen : ∀ {D D' : Finset Var} {accs : Accumulators} {m n : Machine R}, P D accs m n → D ⊆ D' →
    (S.Sheltered → ∀ v ∈ D', v ∉ D → accs.find? v = none ∨ ∃ a, accs.find? v = some a ∧
      n.var a = some { value := .ofConst (.real s.zero) }) → P D' accs m n
  header : ∀ {D : Finset Var} {accs : Accumulators} {m m' n : Machine R} {header : Block}
    {test : Var}, (header, test) ∈ stepsHeaders S.plan.body.2 → S.lo.HeaderFine header test →
    S.lo.func.varTy test = .bool → blockAtoms header ⊆ blockAtoms S.lo.func.body → I m →
    j.execBlock header m.ticked = .ok .next m' → P (blockScope D header) accs m' n → P D accs m n
  leaf : ∀ {D : Finset Var} {accs : Accumulators} {l l' : Locals} {step : Step} {site : Site}
    {m m' n : Machine R} {log : List (Visit R)} {code : Block}, step.isLeaf = true →
    Placed S D [step] → step.Ran j S.rv.level site m log m' → I m → Ready S accs l →
    s.reverseStep accs step l = .ok (code, l') → l'.vars.size ≤ n.vars.size →
    Tracks S (blockScope D step.source) m' n → P (blockScope D step.source) accs m' n →
    Ends (j.execBlock code n) (fun _ n' => P D accs m n') (fun e _ => E e)

/-- The machine is back at `m`, and owes nothing to the visits since. -/
def Restores (S : Setting) (P : Finset Var → Accumulators → Machine R → Machine R → Prop)
    (D : Finset Var) (accs : Accumulators) (m : Machine R) (log : List (Visit R))
    (log' : List (Supply R)) (n' : Machine R) : Prop :=
  Tracks S D m n' ∧ P D accs m n' ∧ List.Forall₂ Undoes log log'.reverse

/-- Code ran through and left a trail. -/
def Undone (F : List (Supply R) → Machine R → Prop) (trail : List (Supply R) → Machine R → Prop)
    (flow : Flow R) (n' : Machine R) : Prop :=
  flow = .next ∧ ∃ log', trail log' n' ∧ F log' n'

/-- The reverse code of the steps undoes them, wherever they stand. -/
def Reverses (j : Job R) (S : Setting) (s : Sweep) (I : Machine R → Prop)
    (P : Finset Var → Accumulators → Machine R → Machine R → Prop) (E : RunError → Prop)
    (ss : List Step) : Prop :=
  ∀ ⦃D : Finset Var⦄ ⦃site : Site⦄ ⦃place : Nat⦄ ⦃accs : Accumulators⦄ ⦃l l' : Locals⦄
    ⦃m m' n : Machine R⦄ ⦃log : List (Visit R)⦄ ⦃code : Block⦄,
    Placed S D ss → stepsRan j S.rv.level site place ss m log m' → I m →
    m.TopFree S.rv.level.decisions (· ∈ stepsLoopIds ss) →
    (S.Sheltered → ∀ v ∈ innerDecls (stepsSource ss), accs.find? v = none) → Ready S accs l →
    s.reverseSteps accs ss l = .ok (code, l') → l'.vars.size ≤ n.vars.size →
    Tracks S (blockScope D (stepsSource ss)) m' n →
    P (blockScope D (stepsSource ss)) accs m' n →
    Ends (j.execBlock code n)
      (Undone (Restores S P D accs m log) (stepsRewound j s site place ss accs l n))
      (fun e _ => E e)

/-! ## Sections -/

theorem blockScoped.decl_notMem {f : Func} {D : Finset Var} {b : Block} (h : blockScoped f D b)
    (hv : v ∈ blockDecls b) : v ∉ D := by
  induction b generalizing D with
  | nil => simp [blockDecls] at hv
  | cons s b ih =>
    rw [← List.singleton_append, blockDecls_append, List.mem_append] at hv
    rcases hv with hv | hv
    · cases s with
      | define dst decl e =>
        cases decl with
        | true =>
          obtain rfl : v = dst := by simpa [blockDecls, Stmt.decl?] using hv
          exact h.1.2.2
        | false => simp [blockDecls, Stmt.decl?] at hv
      | _ => simp [blockDecls, Stmt.decl?] at hv
    · exact fun hD => ih h.2 hv (subset_blockScope D [s] hD)

/-- The accumulator that a section adds for a variable. -/
theorem find?_sectionNew (accs : Accumulators) {decls : List Var} (first : Nat) (hv : v ∈ decls) :
    ∃ a, (accs.add (Sweep.sectionNew decls first)).find? v = some a ∧
      (v, a) ∈ Sweep.sectionNew decls first := by
  rw [Accumulators.find?_add]
  cases h : (Sweep.sectionNew decls first).reverse.lookup v with
  | some a => exact ⟨a, rfl, List.mem_reverse.mp (Accumulators.mem_of_lookup h)⟩
  | none =>
    have hmem : v ∈ (Sweep.sectionNew decls first).map Prod.fst := by
      rw [Sweep.sectionNew, List.map_fst_zip (by simp [freshVars])]
      exact hv
    obtain ⟨p, hp, rfl⟩ := List.mem_map.mp hmem
    have := List.lookup_eq_none_iff.mp h p (List.mem_reverse.mpr hp)
    simp at this

theorem find?_sectionNew_of_notMem {accs : Accumulators} {decls : List Var} (hv : v ∉ decls) :
    (accs.add (Sweep.sectionNew decls first)).find? v = accs.find? v := by
  rw [Accumulators.find?_add]
  cases h : (Sweep.sectionNew decls first).reverse.lookup v with
  | none => rfl
  | some a =>
    exact absurd (List.of_mem_zip (List.mem_reverse.mp (Accumulators.mem_of_lookup h))).1 hv

section
variable {j : Job R}

/-- New accumulators start from what they are declared with. -/
theorem declares_run (init : Var → Expr) (start : Var → Slot R) {decls : List Var} {n : Machine R}
    (hsize : first + decls.length ≤ n.vars.size)
    (hinit : ∀ v ∈ decls, ∀ n' : Machine R, (∀ w : Var, w.idx < first → n'.var w = n.var w) →
      j.eval (init v) n' = .ok (start v) n') :
    ∃ n₁, j.execBlock ((Sweep.sectionNew decls first).map fun p => .define p.2 true (init p.1)) n =
        .ok .next n₁ ∧
      (∀ t, n₁.stack t = n.stack t) ∧ (∀ v : Var, v.idx < first → n₁.var v = n.var v) ∧
      n₁.vars.size = n.vars.size ∧ n₁.graph = n.graph ∧
      ∀ p ∈ Sweep.sectionNew decls first, n₁.var p.2 = some (start p.1) := by
  induction decls generalizing first n with
  | nil => exact ⟨n, rfl, fun _ => rfl, fun _ _ => rfl, rfl, rfl, by simp [Sweep.sectionNew]⟩
  | cons v decls ih =>
    rw [List.length_cons] at hsize
    have hnew : Sweep.sectionNew (v :: decls) first =
        (v, ⟨first⟩) :: Sweep.sectionNew decls (first + 1) := by
      simp [Sweep.sectionNew, freshVars_succ]
    have hset (w : Var) (hw : w.idx < first) : (n.setVar ⟨first⟩ (start v)).var w = n.var w := by
      have hne : (⟨first⟩ : Var) ≠ w := fun h => by rw [← h] at hw; simp at hw
      rw [Machine.var_setVar_ne _ _ _ _ hne]
    obtain ⟨n₁, hexec, hstack, hbelow, hsize₁, hgraph, hvars⟩ :=
      ih (n := n.setVar ⟨first⟩ (start v))
        (show first + 1 + decls.length ≤ _ by rw [Machine.size_setVar]; omega)
        (fun w hw n' hn' => hinit w (List.mem_cons_of_mem _ hw) n' fun u hu => by
          rw [hn' u (by omega), hset u hu])
    refine ⟨n₁, ?_, hstack, fun w hw => ?_, ?_, hgraph, ?_⟩
    · rw [hnew, List.map_cons,
        j.execBlock_define_ok (hinit v (List.mem_cons_self ..) n fun _ _ => rfl)]
      exact hexec
    · rw [hbelow w (by omega), hset w hw]
    · rw [hsize₁, Machine.size_setVar]
    · rw [hnew, List.forall_mem_cons]
      refine ⟨?_, hvars⟩
      rw [hbelow _ (Nat.lt_succ_self first), Machine.var_setVar_self]
      simp only
      omega

/-- The accumulators of a section start from zero. -/
theorem sectionInits_run (s : Sweep) {decls : List Var} {n : Machine R}
    (hsize : first + decls.length ≤ n.vars.size) :
    ∃ n₁, j.execBlock (s.sectionInits decls first) n = .ok .next n₁ ∧
      (∀ t, n₁.stack t = n.stack t) ∧ (∀ v : Var, v.idx < first → n₁.var v = n.var v) ∧
      n₁.vars.size = n.vars.size ∧ n₁.graph = n.graph ∧
      ∀ p ∈ Sweep.sectionNew decls first,
        n₁.var p.2 = some { value := .ofConst (.real s.zero) } :=
  declares_run (fun _ => s.zeroExpr) (fun _ => { value := .ofConst (.real s.zero) }) hsize
    fun _ _ _ _ => rfl

variable {S : Setting} {s : Sweep} {I : Machine R → Prop}
  {P : Finset Var → Accumulators → Machine R → Machine R → Prop} {E : RunError → Prop}
  {D : Finset Var} {accs : Accumulators} {l l' : Locals} {site : Site} {m m' n : Machine R}
  {log : List (Visit R)} {code : Block} {decls : List Var} {steps : List Step}

theorem Setting.tape_ne_decisions (S : Setting) : S.tape ≠ S.rv.level.decisions := fun h =>
  S.kind (by rw [h]; rfl)

omit [Scalar R] in
theorem Setting.carried_pushDecision (S : Setting) (m : Machine R) (slot : Slot R) :
    S.carried (m.pushTape S.rv.level.decisions slot) = S.carried m :=
  S.carried_congr fun _ => Machine.stack_pushTape_ne _ _ _ _ S.tape_ne_decisions

/-- Variables behind the table do not matter. -/
theorem Upkeep.scratch (U : Upkeep S s j I P E) (hr : Ready S accs l) {n' : Machine R}
    (hsize : n'.vars.size = n.vars.size) (hstack : ∀ t, n'.stack t = n.stack t)
    (hvars : ∀ v : Var, v.idx < l.vars.size → n'.var v = n.var v) (hgraph : n'.graph = n.graph)
    (ht : Tracks S D m n) (hP : P D accs m n) : Tracks S D m n' ∧ P D accs m n' :=
  ⟨ht.after hsize (hstack _) (hstack _) (by rw [hstack]) fun v hv =>
      hvars v (Nat.lt_of_lt_of_le hv hr.base),
    U.congr hP rfl rfl rfl (fun a ha => hvars a (hr.fit.has ha).2) (hstack _) hgraph⟩

/-- A round is started and its guard evaluated. -/
theorem Upkeep.guarded (U : Upkeep S s j I P E) (hr : Ready S accs l) (guard : Slot R)
    (ht : Tracks S D m n) (hP : P D accs m n) :
    Tracks S D m (n.ticked.setVar ⟨l.vars.size⟩ guard) ∧
      P D accs m (n.ticked.setVar ⟨l.vars.size⟩ guard) := by
  apply U.scratch hr _ _ _ _ ht hP
  · exact Machine.size_setVar _ _ _
  · intro t
    rfl
  · intro v hv
    have hne : (⟨l.vars.size⟩ : Var) ≠ v := fun h => by rw [← h] at hv; simp at hv
    exact Machine.var_setVar_ne _ _ _ _ hne
  · rfl

/-- The last decision is popped. -/
theorem Upkeep.popDecision (U : Upkeep S s j I P E) (hlevel : s.level = S.rv.level)
    (hr : Ready S accs l) {w : Var} (hw : l.vars.size ≤ w.idx) {d : Int}
    (ht : Tracks S D (m.pushTape S.rv.level.decisions { value := .int d }) n)
    (hP : P D accs (m.pushTape S.rv.level.decisions { value := .int d }) n) :
    ∃ slot others, n.stack s.level.decisions = slot :: others ∧ slot.value = .int d ∧
      Tracks S D m ((n.dropTape s.level.decisions others).setVar w slot) ∧
      P D accs m ((n.dropTape s.level.decisions others).setVar w slot) := by
  have hcontent := ht.decisions
  rw [Machine.content, Machine.content, Machine.stack_pushTape_self, List.map_cons,
    List.map_eq_cons_iff] at hcontent
  obtain ⟨slot, others, hstack, hslot, hothers⟩ := hcontent
  rw [← hlevel] at hstack
  refine ⟨slot, others, hstack, hslot, ?_⟩
  have hbelow (v : Var) (hv : v.idx < l.vars.size) :
      ((n.dropTape s.level.decisions others).setVar w slot).var v = n.var v := by
    have hne : w ≠ v := fun h => by rw [h] at hw; omega
    rw [Machine.var_setVar_ne _ _ _ _ hne, Machine.var_dropTape]
  have hkept (t : Tape) (hne : t ≠ s.level.decisions) :
      ((n.dropTape s.level.decisions others).setVar w slot).stack t = n.stack t := by
    rw [Machine.stack_setVar, Machine.stack_dropTape_ne _ _ _ _ hne]
  constructor
  · refine ⟨?_, ?_, ?_, ?_, fun v hv ho => ?_⟩
    · rw [Machine.size_setVar, Machine.vars_dropTape, ht.size, Machine.vars_pushTape]
    · rw [Machine.content_congr (hkept _ (by rw [hlevel]; intro h; cases h)), ht.values]
      exact Machine.content_congr (Machine.stack_pushTape_ne _ _ _ _ (by intro h; cases h))
    · rw [Machine.content, ← hlevel, Machine.stack_setVar, Machine.stack_dropTape_self, hothers,
        hlevel]
      rfl
    · rw [hkept _ (by rw [hlevel]; intro h; cases h), ht.adjoints, S.carried_pushDecision]
    · rw [hbelow v (Nat.lt_of_lt_of_le (S.owned_lt ho) (Nat.le_trans S.base hr.base)),
        ht.owned v hv ho, Machine.var_pushTape]
  · refine U.congr hP rfl ?_ rfl (fun a ha => hbelow a (hr.fit.has ha).2)
      (hkept _ (by rw [hlevel]; intro h; cases h)) rfl
    rw [Machine.stack_pushTape_ne _ _ _ _ S.tape_ne_decisions]

theorem Ready.steps_le (hlevel : s.level = S.rv.level) (hfine : stepsFine S.lo steps)
    (hr : Ready S accs l) (hcode : s.reverseSteps accs steps l = .ok (code, l')) : l.Le l' :=
  (Sweep.reverseSteps_emitted hlevel S.covers hfine hr.base hr.fit hcode).le

theorem Ready.section_le (hlevel : s.level = S.rv.level) (hfine : stepsFine S.lo steps)
    (hr : Ready S accs l) (hcode : s.reverseSection accs decls steps l = .ok (code, l')) :
    l.Le l' :=
  (Sweep.reverseSection_emitted (fun hbase hfit h =>
    Sweep.reverseSteps_emitted hlevel S.covers hfine hbase hfit h) hr.base hr.fit hcode).le

/-- Steps of a section are undone with accumulators of their own. -/
theorem section_undone (U : Upkeep S s j I P E) (hlevel : s.level = S.rv.level)
    (h : Reverses j S s I P E steps)
    (hdecls : decls = S.lo.activeDecls (stepsSource steps)) (hp : Placed S D steps)
    (howned : ∀ v ∈ blockDecls (stepsSource steps), S.lo.isOwned v = false)
    (hnone : S.Sheltered → ∀ v ∈ allDecls (stepsSource steps), accs.find? v = none)
    (hran : stepsRan j S.rv.level site 0 steps m log m') (hI : I m)
    (hfree : m.TopFree S.rv.level.decisions (· ∈ stepsLoopIds steps)) (hr : Ready S accs l)
    (hcode : s.reverseSection accs decls steps l = .ok (code, l'))
    (hsize : l'.vars.size ≤ n.vars.size) (ht : Tracks S D m' n) (hP : P D accs m' n) :
    Ends (j.execBlock code n)
      (Undone (Restores S P D accs m log)
        (SectionRewound j s decls (stepsRewound j s site 0 steps) accs l n))
      (fun e _ => E e) := by
  obtain ⟨l₁, inner, hinits, hle₁, hsize₁, hinner, rfl⟩ := Sweep.reverseSection_eq_ok hcode
  have hr₁ : Ready S (accs.add (Sweep.sectionNew decls l.vars.size)) l₁ :=
    ⟨Nat.le_trans hr.base hle₁.size,
      Sweep.sectionNew_fit hr.fit hr.base (Nat.le_of_eq hsize₁.symm)⟩
  have hle₂ := (hr₁.steps_le hlevel hp.fine hinner).size
  obtain ⟨n₁, hexec, hstack, hbelow, hn₁, hgraph, hzero⟩ :=
    sectionInits_run (j := j) s (n := n) (show l.vars.size + decls.length ≤ _ by omega)
  obtain ⟨ht₀, hP₀⟩ := U.scratch hr hn₁ hstack hbelow hgraph ht hP
  have ht₁ : Tracks S (blockScope D (stepsSource steps)) m' n₁ := by
    refine ht₀.widen fun v hv ho => ?_
    rw [blockScope, Finset.mem_union, List.mem_toFinset] at hv
    refine hv.resolve_right fun hd => ?_
    rw [howned v hd] at ho
    cases ho
  have hD (v : Var) (hv : v ∈ D) :
      (accs.add (Sweep.sectionNew decls l.vars.size)).find? v = accs.find? v := by
    refine find?_sectionNew_of_notMem fun hd => ?_
    rw [hdecls, Lowering.mem_activeDecls] at hd
    exact hp.inScope.decl_notMem hd.1 hv
  have hP₁ : P (blockScope D (stepsSource steps)) (accs.add (Sweep.sectionNew decls l.vars.size))
      m' n₁ := by
    refine U.widen (U.inScope hP₀ hD rfl) (subset_blockScope D _) fun hS v hv hvD => ?_
    rw [blockScope, Finset.mem_union, List.mem_toFinset] at hv
    have hv := hv.resolve_left hvD
    by_cases hact : v ∈ decls
    · obtain ⟨a, ha, hmem⟩ := find?_sectionNew accs l.vars.size hact
      exact .inr ⟨a, ha, hzero _ hmem⟩
    · rw [find?_sectionNew_of_notMem hact]
      exact .inl (hnone hS v (blockDecls_subset _ hv))
  have hinnerDecls : S.Sheltered → ∀ v ∈ innerDecls (stepsSource steps),
      (accs.add (Sweep.sectionNew decls l.vars.size)).find? v = none := by
    intro hS v hv
    rw [find?_sectionNew_of_notMem]
    · exact hnone hS v (innerDecls_subset _ hv)
    · intro hd
      rw [hdecls, Lowering.mem_activeDecls] at hd
      exact not_mem_innerDecls hp.nodup hd.1 hv
  rw [j.execBlock_append_next hexec]
  refine (h hp hran hI hfree hinnerDecls hr₁ hinner (by omega) ht₁ hP₁).mono ?_ fun _ _ h => h
  rintro flow n' ⟨rfl, log', htrail, ht', hP', hlog⟩
  exact ⟨rfl, log', ⟨_, _, l₁, n₁, hinits, hexec, htrail⟩, ht',
    U.inScope hP' (fun v hv => (hD v hv).symm) rfl, hlog⟩

/-! ## Branches -/

/-- One of the branches ran, and recorded its index. -/
theorem armsRan.decided (decls : List Var) (h : armsRan j S.rv.level site index arms
      (Decided S.rv.level (stepsRan j S.rv.level ((index + arms.length) :: site) 0 steps)
        ((index + arms.length : Nat) : Int)) m log m') :
    ∃ k, ∃ sec : List Var × List Step, (arms.map (·.2) ++ [(decls, steps)])[k]? = some sec ∧
      Decided S.rv.level (stepsRan j S.rv.level ((index + k) :: site) 0 sec.2)
        ((index + k : Nat) : Int) m log m' := by
  induction arms generalizing index with
  | nil => exact ⟨0, (decls, steps), rfl, h⟩
  | cons arm arms ih =>
    obtain ⟨test, armDecls, armSteps⟩ := arm
    rcases h with ⟨-, hran⟩ | ⟨-, hran⟩
    · exact ⟨0, (armDecls, armSteps), rfl, hran⟩
    · rw [List.length_cons, show index + (arms.length + 1) = index + 1 + arms.length by omega] at hran
      obtain ⟨k, sec, hsec, hdecided⟩ := ih hran
      refine ⟨k + 1, sec, by simpa using hsec, ?_⟩
      rw [show index + (k + 1) = index + 1 + k by omega]
      exact hdecided

theorem eval_ieq {w : Var} {a b : Slot R} {p q : Int} (hv : n.var v = some a)
    (hw : n.var w = some b) (ha : a.value = .int p) (hb : b.value = .int q) :
    j.eval (.op .ieq [v, w]) n = .ok { value := .bool (p == q) } n := by
  have hread : j.readAll [v, w] n = .ok [a, b] n :=
    (j.readAll_eq_ok n).mpr ⟨by simp [hv, hw], rfl⟩
  have heval : Opcode.ieq.eval (Slot.values [a, b]) = .ok (.bool (p == q)) := by
    simp only [Slot.values, ha, hb]
    rfl
  have hop : Opcode.ieq.isDifferentiable = false := by decide
  rw [Job.eval_op, bind_ok hread, Job.operate_apply, heval]
  simp [hop]

theorem branchTests_le {taken : Var} {stmts : Block}
    (h : Sweep.branchTests taken k index l = .ok ((stmts, tests), l')) : l.Le l' := by
  induction k generalizing index l stmts tests with
  | zero =>
    obtain ⟨-, -, -, rfl⟩ | ⟨k, l₁, stmts₁, tests₁, hk, -⟩ := Sweep.branchTests_eq_ok h
    · exact .refl _
    · cases hk
  | succ k ih =>
    obtain ⟨hk, -⟩ | ⟨k', l₁, stmts₁, tests₁, hk, hle, -, hrest, -⟩ := Sweep.branchTests_eq_ok h
    · cases hk
    · cases hk
      exact hle.trans (ih hrest)

/-- The test of the recorded branch holds, and no other. -/
theorem branchTests_run {taken : Var} {d : Nat} {slot : Slot R} {stmts : Block}
    (htaken : n.var taken = some slot) (hslot : slot.value = .int d) (hlt : taken.idx < l.vars.size)
    (h : Sweep.branchTests taken k index l = .ok ((stmts, tests), l'))
    (hsize : l'.vars.size ≤ n.vars.size) :
    ∃ n', j.execBlock stmts n = .ok .next n' ∧ (∀ t, n'.stack t = n.stack t) ∧
      (∀ v : Var, v.idx < l.vars.size → n'.var v = n.var v) ∧ n'.vars.size = n.vars.size ∧
      n'.graph = n.graph ∧ tests.length = k ∧
      ∀ i test, tests[i]? = some test → n'.Tests test (decide (d = index + i)) := by
  induction k generalizing index l n stmts tests with
  | zero =>
    obtain ⟨-, rfl, rfl, rfl⟩ | ⟨k, l₁, stmts₁, tests₁, hk, -⟩ := Sweep.branchTests_eq_ok h
    · exact ⟨n, rfl, fun _ => rfl, fun _ _ => rfl, rfl, rfl, rfl, fun i test hi => by simp at hi⟩
    · cases hk
  | succ k ih =>
    obtain ⟨hk, -⟩ | ⟨k', l₁, stmts₁, tests₁, hk, hle, hsize₁, hrest, rfl, rfl⟩ :=
      Sweep.branchTests_eq_ok h
    · cases hk
    cases hk
    have hle₁ := (branchTests_le hrest).size
    -- the index, then the test
    let n₁ := n.setVar ⟨l.vars.size⟩ { value := .int (index : Int) }
    let n₂ := n₁.setVar ⟨l.vars.size + 1⟩ { value := .bool ((d : Int) == index) }
    have hne : (⟨l.vars.size⟩ : Var) ≠ taken := fun h => by rw [← h] at hlt; simp at hlt
    have hindex : n₁.var ⟨l.vars.size⟩ = some { value := .int (index : Int) } :=
      Machine.var_setVar_self _ _ _ (by simp only; omega)
    have htaken₁ : n₁.var taken = some slot := by
      rw [Machine.var_setVar_ne _ _ _ _ hne, htaken]
    have heval : j.eval (.op .ieq [taken, ⟨l.vars.size⟩]) n₁ =
        .ok { value := .bool ((d : Int) == index) } n₁ := eval_ieq htaken₁ hindex hslot rfl
    have hbelow₂ (v : Var) (hv : v.idx < l.vars.size) : n₂.var v = n.var v := by
      have hne₁ : (⟨l.vars.size⟩ : Var) ≠ v := fun h => by rw [← h] at hv; simp at hv
      have hne₂ : (⟨l.vars.size + 1⟩ : Var) ≠ v := fun h => by rw [← h] at hv; simp at hv
      rw [Machine.var_setVar_ne _ _ _ _ hne₂, Machine.var_setVar_ne _ _ _ _ hne₁]
    have hsize₂ : n₂.vars.size = n.vars.size := by
      rw [Machine.size_setVar, Machine.size_setVar]
    obtain ⟨n', hexec, hstack, hbelow, hn', hgraph, hlength, htests⟩ :=
      ih (n := n₂) (by rw [hbelow₂ taken hlt, htaken]) (by omega) hrest (by omega)
    refine ⟨n', ?_, hstack, fun v hv => ?_, hn'.trans hsize₂, hgraph, by simp [hlength],
      fun i test hi => ?_⟩
    · have hconst : j.eval (.const (.int index)) n = .ok { value := .int (index : Int) } n := rfl
      rw [j.execBlock_define_ok hconst, j.execBlock_define_ok heval]
      exact hexec
    · rw [hbelow v (by omega), hbelow₂ v hv]
    · cases i with
      | zero =>
        obtain rfl : (⟨l.vars.size + 1⟩ : Var) = test := by simpa using hi
        refine ⟨{ value := .bool ((d : Int) == index) }, ?_, ?_⟩
        · rw [hbelow _ (by simp only; omega)]
          exact Machine.var_setVar_self _ _ _ (by rw [Machine.size_setVar]; simp only; omega)
        · simp only [Nat.add_zero, Value.bool.injEq]
          rw [Bool.eq_iff_iff]
          simp
      | succ i =>
        have := htests i test (by simpa using hi)
        rwa [show index + 1 + i = index + (i + 1) by omega] at this

theorem Ready.arms_le (hlevel : s.level = S.rv.level) {blocks : List Block}
    (hfine : ∀ arm ∈ arms, stepsFine S.lo arm.2.2) (hr : Ready S accs l)
    (h : s.reverseArms accs arms l = .ok (blocks, l')) : l.Le l' :=
  (Sweep.reverseArms_emitted (fun arm harm {_ _ _ _} hbase hfit h =>
    Sweep.reverseSteps_emitted hlevel S.covers (hfine arm harm) hbase hfit h) hr.base hr.fit h).1

/-- The recorded branch is the one whose reverse code runs. -/
theorem arms_undone {F : List (Supply R) → Machine R → Prop} {sec : List Var × List Step}
    {blocks : List Block} {last : Block} {l₁ : Locals} (hlevel : s.level = S.rv.level)
    (hr : Ready S accs l) (hfine : ∀ arm ∈ arms, stepsFine S.lo arm.2.2)
    (hother : stepsFine S.lo steps) (hblocks : s.reverseArms accs arms l = .ok (blocks, l₁))
    (hlast : s.reverseSection accs decls steps l₁ = .ok (last, l'))
    (hlength : tests.length = arms.length + 1)
    (htests : ∀ i test, tests[i]? = some test → n.Tests test (decide (k = i)))
    (hsec : (arms.map (·.2) ++ [(decls, steps)])[k]? = some sec)
    (h : ∀ {lk lk' code}, Ready S accs lk → lk'.Le l' →
      s.reverseSection accs sec.1 sec.2 lk = .ok (code, lk') →
      Ends (j.execBlock code n)
        (Undone F (SectionRewound j s sec.1 (stepsRewound j s ((index + k) :: site) 0 sec.2)
          accs lk n)) (fun e _ => E e)) :
    Ends (j.execArms (tests.zip (blocks ++ [last])) (j.execBlock [.unreachable]) n)
      (Undone F (armsRewound j s site index arms
        (SectionRewound j s decls (stepsRewound j s ((index + arms.length) :: site) 0 steps))
        accs tests l n)) (fun e _ => E e) := by
  induction arms generalizing index k tests blocks l with
  | nil =>
    obtain ⟨rfl, rfl⟩ := emit_pure_eq_ok.mp hblocks
    obtain ⟨test, rfl⟩ := List.length_eq_one_iff.mp hlength
    obtain rfl : k = 0 := by
      have := (List.getElem?_eq_some_iff.mp hsec).1
      simpa using this
    obtain rfl : (decls, steps) = sec := by simpa using hsec
    have htest : n.Tests test true := htests 0 test rfl
    have hrun := h hr (.refl l') hlast
    have harms : j.execArms ([test].zip ([] ++ [last])) (j.execBlock [.unreachable]) n =
        j.execBlock last n := htest.execArms
    rw [harms]
    refine hrun.mono ?_ fun _ _ h => h
    rintro flow n' ⟨rfl, log', htrail, hF⟩
    exact ⟨rfl, log', ⟨test, rfl, htest, htrail⟩, hF⟩
  | cons arm arms ih =>
    obtain ⟨cond, armDecls, armSteps⟩ := arm
    obtain ⟨first, l₂, rest, hfirst, hrest, rfl⟩ := Sweep.reverseArms_cons hblocks
    obtain ⟨test, tests, rfl⟩ : ∃ test rest, tests = test :: rest := by
      cases tests with
      | nil => cases hlength
      | cons test rest => exact ⟨test, rest, rfl⟩
    have hr₂ : Ready S accs l₂ :=
      hr.mono (hr.section_le hlevel (hfine (cond, armDecls, armSteps) (by simp)) hfirst)
    cases k with
    | zero =>
      obtain rfl : (armDecls, armSteps) = sec := by simpa using hsec
      have htest : n.Tests test true := htests 0 test rfl
      have hend : l₂.Le l' := by
        have hl₁ : l₂.Le l₁ :=
          hr₂.arms_le hlevel (fun arm harm => hfine arm (by simp [harm])) hrest
        exact hl₁.trans ((hr₂.mono hl₁).section_le hlevel hother hlast)
      have harms : j.execArms ((test :: tests).zip (first :: rest ++ [last]))
          (j.execBlock [.unreachable]) n = j.execBlock first n := htest.execArms
      rw [harms]
      refine (h hr hend hfirst).mono ?_ fun _ _ h => h
      rintro flow n' ⟨rfl, log', htrail, hF⟩
      exact ⟨rfl, log', ⟨test, tests, rfl, .inl ⟨htest, htrail⟩⟩, hF⟩
    | succ k =>
      have htest : n.Tests test false := htests 0 test rfl
      have harms : j.execArms ((test :: tests).zip (first :: rest ++ [last]))
          (j.execBlock [.unreachable]) n =
            j.execArms (tests.zip (rest ++ [last])) (j.execBlock [.unreachable]) n :=
        htest.execArms
      rw [harms]
      have hnext : ∀ {lk lk' code}, Ready S accs lk → lk'.Le l' →
          s.reverseSection accs sec.1 sec.2 lk = .ok (code, lk') →
          Ends (j.execBlock code n)
            (Undone F (SectionRewound j s sec.1
              (stepsRewound j s ((index + 1 + k) :: site) 0 sec.2) accs lk n)) (fun e _ => E e) := by
        rw [show index + 1 + k = index + (k + 1) by omega]
        exact h
      have hrun := ih hr₂ (fun arm harm => hfine arm (by simp [harm])) hrest
        (by simpa using hlength)
        (fun i test hi => by simpa using htests (i + 1) test (by simpa using hi))
        (by simpa using hsec) hnext
      refine hrun.mono ?_ fun _ _ h => h
      rintro flow n' ⟨rfl, log', htrail, hF⟩
      rw [show index + 1 + arms.length = index + (arms.length + 1) by omega] at htrail
      exact ⟨rfl, log', ⟨test, tests, rfl, .inr ⟨htest, first, l₂, hfirst, htrail⟩⟩, hF⟩

/-! ## Loops -/

/-- What is known of the forward section holds behind a branch. -/
theorem Upkeep.decided (U : Upkeep S s j I P E) (hp : Placed S D steps) {place : Nat} {d : Int}
    (h : Decided S.rv.level (stepsRan j S.rv.level site place steps) d m log m') (hI : I m) :
    I m' := by
  obtain ⟨m₁, hran, hm'⟩ := h
  refine U.forward (fun a ha => ?_) (execBlock_record.mpr ⟨m₁, hran.exec, hm'⟩) hI
  rw [blockAtoms_append, List.mem_append] at ha
  rcases ha with ha | ha
  · exact (forward_atoms ha).imp_left fun h => hp.atoms h
  · exact .inr (.inr ⟨d, by simpa [blockAtoms, Stmt.atoms, Level.record] using ha⟩)

theorem Job.exec_loop_limit {header : Block} {test : Var} (h : ¬n.steps < j.limit) :
    j.exec (.loop header test body) n = .error .stepLimit n.ticked := by
  have htick : j.tick n = .error .stepLimit n.ticked := by
    rw [Job.tick_apply, if_pos (by omega)]
  rw [Job.exec_loop, Job.round]
  simp only [bind_apply, htick]

variable {id : Int} {header : Block} {test : Var} {ss : List Step}

theorem Placed.apart_header (hp : Placed S D (.loop id header test (decls, steps) :: ss))
    {t : Tape} (ht : t.level = S.rv.level.val) : t ∉ blockTapes header := fun h =>
  hp.apart_step ht (by simp [Step.source, blockTapes, Stmt.tapes, h])

/-- The header of a loop is not reversed. -/
theorem header_undone (U : Upkeep S s j I P E)
    (hp : Placed S D (.loop id header test (decls, steps) :: ss)) (hI : I m)
    (hran : j.execBlock header m.ticked = .ok .next m')
    (ht : Tracks S (blockScope D header) m' n) (hP : P (blockScope D header) accs m' n) :
    Tracks S D m n ∧ P D accs m n := by
  obtain ⟨hscoped, -, htest, -⟩ := hp.inScope.1
  have hmem : (header, test) ∈ stepsHeaders S.plan.body.2 :=
    hp.headers (by simp [stepsHeaders, Step.headers])
  have hatoms : blockAtoms header ⊆ blockAtoms S.lo.func.body := fun a ha => hp.atoms (by
    simp [stepsSource, Step.source, blockAtoms, Stmt.atoms, ha])
  refine ⟨?_, U.header hmem hp.fine.1.1 htest hatoms hI hran hP⟩
  refine ht.before (subset_blockScope D header) (execBlock_size (m := m.ticked) hran)
    (execBlock_stack (m := m.ticked) (hp.apart_header rfl) hran)
    (execBlock_stack (m := m.ticked) (hp.apart_header rfl) hran) ?_ fun v hv ho => ?_
  · refine S.carried_congr fun hact => execBlock_stack (m := m.ticked) (fun hin => ?_) hran
    rw [S.headers _ hmem _ hin] at hact
    cases hact
  · have hframe := (j.execBlock_frame (b := header) (V := (· = v)) (T := fun _ => False)
      (fun w decl e hw => hw ▸ hscoped.not_defined hv (S.owned_immutable ho) decl e)
      (fun _ h => h.elim) m.ticked).of_ok hran
    exact hframe.vars v rfl

omit [Scalar R] in
/-- The top of a tape is seen from its values. -/
theorem Machine.topIs_content (m : Machine R) (t : Tape) (d : Int) :
    m.tapes.topIs t d = match m.content t with
      | .int n :: _ => n == d
      | _ => false := by
  rw [Machine.topIs_eq, Machine.content]
  cases m.stack t with
  | nil => rfl
  | cons slot rest =>
    obtain ⟨value, node⟩ := slot
    cases value <;> rfl

/-- The loop of the reverse section. -/
def Sweep.repeatLoop (s : Sweep) (id : Int) (first : Nat) (body : Block) : Stmt :=
  .loop [.define ⟨first⟩ true (.topIs s.level.decisions id)] ⟨first⟩
    (.define ⟨first + 1⟩ true (.pop s.level.decisions) :: body)

/-- The rounds of that loop: a decision is popped, then the body is undone. -/
def RoundsRewound (j : Job R) (s : Sweep) (id : Int) (first : Nat) (decls : List Var) (site : Site)
    (steps : List Step) (accs : Accumulators) (l : Locals) :
    Machine R → List (List (Supply R)) → Machine R → Prop :=
  Rounds j [.define ⟨first⟩ true (.topIs s.level.decisions id)] ⟨first⟩ fun n log n' => ∃ n₁,
    j.execBlock [.define ⟨first + 1⟩ true (.pop s.level.decisions)] n = .ok .next n₁ ∧
      SectionRewound j s decls (stepsRewound j s site 0 steps) accs l n₁ log n'

/-- A loop ran through and left the trails of its rounds. -/
def Repeated (F : List (List (Supply R)) → Machine R → Prop)
    (rounds : List (List (Supply R)) → Machine R → Prop) (flow : Flow R) (n' : Machine R) : Prop :=
  flow = .next ∧ ∃ logs, rounds logs n' ∧ F logs n'

/-- What a loop declares is not owned. -/
theorem Placed.loop_owned (hp : Placed S D (.loop id header test (decls, steps) :: ss)) :
    ∀ v ∈ allDecls header ++ allDecls (stepsSource steps), S.lo.isOwned v = false := by
  intro v hv
  apply hp.owned v
  rw [stepsSource, innerDecls_append]
  apply List.mem_append_left
  rw [Step.source, innerDecls_singleton rfl, Reader.allDecls_loop]
  exact hv

/-- Behind the body of a loop, the variables of its header come into scope. -/
theorem header_entered (U : Upkeep S s j I P E)
    (hp : Placed S D (.loop id header test (decls, steps) :: ss))
    (hnone : S.Sheltered → ∀ v ∈ allDecls header ++ allDecls (stepsSource steps),
      accs.find? v = none) (ht : Tracks S D m n) (hP : P D accs m n) :
    Tracks S (blockScope D header) m n ∧ P (blockScope D header) accs m n := by
  have hheader (v : Var) (hv : v ∈ blockScope D header) (hD : v ∉ D) :
      v ∈ allDecls header ++ allDecls (stepsSource steps) := by
    rw [blockScope, Finset.mem_union, List.mem_toFinset] at hv
    exact List.mem_append_left _ (blockDecls_subset _ (hv.resolve_left hD))
  constructor
  · apply ht.widen
    intro v hv ho
    by_contra hD
    rw [hp.loop_owned v (hheader v hv hD)] at ho
    cases ho
  · apply U.widen hP (subset_blockScope D header)
    intro hS v hv hD
    exact .inl (hnone hS v (hheader v hv hD))

/-- Where the number of the loop is on top, the loop of the reverse section takes up a
round, and the decision is popped. -/
theorem round_guarded (U : Upkeep S s j I P E) (hlevel : s.level = S.rv.level)
    (hr : Ready S accs l) (hsize : l.vars.size < n.vars.size)
    (ht : Tracks S D (m.pushTape S.rv.level.decisions { value := .int id }) n)
    (hP : P D accs (m.pushTape S.rv.level.decisions { value := .int id }) n) :
    ∃ n₁ n₂, j.execBlock [.define ⟨l.vars.size⟩ true (.topIs s.level.decisions id)] n.ticked =
        .ok .next n₁ ∧ n₁.Tests ⟨l.vars.size⟩ true ∧
      j.execBlock [.define ⟨l.vars.size + 1⟩ true (.pop s.level.decisions)] n₁ = .ok .next n₂ ∧
      n₂.vars.size = n.vars.size ∧ Tracks S D m n₂ ∧ P D accs m n₂ := by
  obtain ⟨ht₁, hP₁⟩ := U.guarded hr { value := .bool (n.tapes.topIs s.level.decisions id) } ht hP
  obtain ⟨slot, others, hstack, hslot, ht₂, hP₂⟩ :=
    U.popDecision hlevel hr (w := ⟨l.vars.size + 1⟩) (Nat.le_succ _) ht₁ hP₁
  have htop : n.tapes.topIs s.level.decisions id = true := by
    obtain ⟨value, node⟩ := slot
    obtain rfl : value = .int id := hslot
    rw [Machine.topIs_eq, show n.stack s.level.decisions = _ from hstack]
    exact beq_self_eq_true id
  have htests : (n.ticked.setVar ⟨l.vars.size⟩
      { value := .bool (n.tapes.topIs s.level.decisions id) }).Tests ⟨l.vars.size⟩ true :=
    ⟨_, Machine.var_setVar_self _ _ _ hsize, by rw [htop]⟩
  refine ⟨_, _, rfl, htests, execBlock_pop hstack ⟨l.vars.size + 1⟩ true, ?_, ht₂, hP₂⟩
  simp only [Machine.size_setVar, Machine.vars_dropTape, Machine.vars_ticked]

/-- One round is undone, whatever the loop of the reverse section does then. -/
theorem round_undone (U : Upkeep S s j I P E) (hlevel : s.level = S.rv.level)
    (h : Reverses j S s I P E steps) (hp : Placed S D (.loop id header test (decls, steps) :: ss))
    (hnone : S.Sheltered → ∀ v ∈ allDecls header ++ allDecls (stepsSource steps),
      accs.find? v = none) (hr : Ready S accs l) {l₂ : Locals}
    (hsize₂ : l₂.vars.size = l.vars.size + 2) (hle₂ : l.Le l₂)
    (hcode : s.reverseSection accs decls steps l₂ = .ok (body, l')) {m₁ m₂ : Machine R}
    (ran : j.execBlock header m.ticked = .ok .next m₁)
    (hran : stepsRan j S.rv.level site 0 steps m₁ log m₂) (hI : I m) (hI₁ : I m₁)
    (hfree : m₁.TopFree S.rv.level.decisions (· ∈ stepsLoopIds steps))
    (hsize : l'.vars.size ≤ n.vars.size)
    (ht : Tracks S D (m₂.pushTape S.rv.level.decisions { value := .int id }) n)
    (hP : P D accs (m₂.pushTape S.rv.level.decisions { value := .int id }) n)
    {F : List (List (Supply R)) → Machine R → Prop}
    (rest : ∀ n' y, Tracks S D m n' → P D accs m n' → List.Forall₂ Undoes log y.reverse →
      Ends (j.exec (s.repeatLoop id l.vars.size body) n')
        (Repeated (fun logs => F (y :: logs))
          (RoundsRewound j s id l.vars.size decls site steps accs l₂ n')) (fun e _ => E e)) :
    Ends (j.exec (s.repeatLoop id l.vars.size body) n)
      (Repeated F (RoundsRewound j s id l.vars.size decls site steps accs l₂ n))
      (fun e _ => E e) := by
  by_cases hlimit : n.steps < j.limit
  swap
  · rw [Sweep.repeatLoop, Job.exec_loop_limit hlimit]
    exact U.limit
  have hle' := ((hr.mono hle₂).section_le hlevel hp.loop.fine hcode).size
  obtain ⟨n₁, n₂, hguard, htests, hpop, hsize', ht₂, hP₂⟩ :=
    round_guarded U hlevel hr (by omega) ht hP
  obtain ⟨ht₃, hP₃⟩ := header_entered U hp hnone ht₂ hP₂
  have hbody := section_undone U hlevel h hp.fine.1.2.1 hp.loop
    (fun v hv => hp.loop_owned v (List.mem_append_right _ (blockDecls_subset _ hv)))
    (fun hS v hv => hnone hS v (List.mem_append_right _ hv)) hran hI₁ hfree (hr.mono hle₂) hcode
    (by omega) ht₃ hP₃
  rw [Sweep.repeatLoop, Job.exec_loop_again hlimit hguard htests, ← List.singleton_append,
    List.append_assoc, j.execBlock_append_next hpop]
  refine Job.execBlock_append_ends (hbody.mono (fun _ _ h => h) fun _ _ h => h) fun n₄ _ hn₄ => ?_
  obtain ⟨y, hy, ht₄, hP₄, hlog⟩ := hn₄
  obtain ⟨ht₀, hP₀⟩ := header_undone U hp hI ran ht₄ hP₄
  rw [Job.execBlock_singleton]
  refine (rest n₄ y ht₀ hP₀ hlog).mono ?_ fun _ _ h => h
  rintro flow n' ⟨rfl, logs, hrounds, hF⟩
  exact ⟨rfl, y :: logs, .again hlimit hguard htests ⟨n₂, hpop, hy⟩ hrounds, hF⟩

/-- The rounds of a loop are undone, last round first. What the loop of the reverse
section does then is left to `rest`. -/
theorem rounds_undone (U : Upkeep S s j I P E) (hlevel : s.level = S.rv.level)
    (h : Reverses j S s I P E steps) (hp : Placed S D (.loop id header test (decls, steps) :: ss))
    (hnone : S.Sheltered → ∀ v ∈ allDecls header ++ allDecls (stepsSource steps),
      accs.find? v = none) (hr : Ready S accs l) {l₂ : Locals}
    (hsize₂ : l₂.vars.size = l.vars.size + 2) (hle₂ : l.Le l₂)
    (hcode : s.reverseSection accs decls steps l₂ = .ok (body, l')) {logs : List (List (Visit R))}
    (hrounds : Rounds j header test (Decided S.rv.level (stepsRan j S.rv.level site 0 steps) id)
      m logs m') (hI : I m) (hfree : m.TopFree S.rv.level.decisions (· ∈ stepsLoopIds steps))
    (hsize : l'.vars.size ≤ m.vars.size) (ht : Tracks S D m' n) (hP : P D accs m' n)
    {F : List (List (Supply R)) → Machine R → Prop}
    (rest : ∀ n₂ pre, Tracks S D m n₂ → P D accs m n₂ →
      List.Forall₂ (fun x y => List.Forall₂ Undoes x y.reverse) logs pre.reverse →
      Ends (j.exec (s.repeatLoop id l.vars.size body) n₂)
        (Repeated (fun logs => F (pre ++ logs))
          (RoundsRewound j s id l.vars.size decls site steps accs l₂ n₂)) (fun e _ => E e)) :
    Ends (j.exec (s.repeatLoop id l.vars.size body) n)
      (Repeated F (RoundsRewound j s id l.vars.size decls site steps accs l₂ n))
      (fun e _ => E e) := by
  have hatoms : ∀ a ∈ blockAtoms header, S.IsForward a := fun a ha =>
    .inl (hp.atoms (by simp [stepsSource, Step.source, blockAtoms, Stmt.atoms, ha]))
  induction hrounds generalizing n F with
  | stop limit ran tests =>
    obtain ⟨ht', hP'⟩ := header_entered U hp hnone ht hP
    obtain ⟨ht₀, hP₀⟩ := header_undone U hp hI ran ht' hP'
    exact rest n [] ht₀ hP₀ .nil
  | @again m m₁ m₂ m' x xs limit ran tests first _ ih =>
    obtain ⟨m₃, hran, rfl⟩ := first
    have hI₁ : I m₁ := U.forward hatoms ran (U.tick hI)
    have hfree₁ : m₁.TopFree S.rv.level.decisions (· ∈ stepsLoopIds steps) :=
      hfree.congr (execBlock_stack (m := m.ticked) (hp.apart_header rfl) ran)
    have hI₂ : I (m₃.pushTape S.rv.level.decisions { value := .int id }) :=
      U.decided hp.loop ⟨m₃, hran, rfl⟩ hI₁
    have hfree₂ : (m₃.pushTape S.rv.level.decisions { value := .int id }).TopFree
        S.rv.level.decisions (· ∈ stepsLoopIds steps) :=
      Machine.topFree_pushTape (List.nodup_cons.mp (List.nodup_append.mp hp.ids).1).1
    have hm₃ : m₃.vars.size = m.vars.size :=
      (execBlock_size hran.exec).trans (execBlock_size (m := m.ticked) ran)
    -- the rounds behind this one are undone first
    refine ih hI₂ hfree₂ (hm₃ ▸ hsize) ht hP fun n₂ pre ht₂ hP₂ hpre => ?_
    have hsize' : l'.vars.size ≤ n₂.vars.size := by
      rw [ht₂.size, Machine.vars_pushTape, hm₃]
      exact hsize
    refine round_undone U hlevel h hp hnone hr hsize₂ hle₂ hcode ran hran hI hI₁ hfree₁ hsize' ht₂
      hP₂ fun n₃ y ht₀ hP₀ hlog => ?_
    have hrest := rest n₃ (pre ++ [y]) ht₀ hP₀ (by
      rw [List.reverse_append, List.reverse_singleton]
      exact .cons hlog hpre)
    simpa only [List.append_assoc, List.singleton_append] using hrest

/-! ## All steps -/

/-- The reverse code of a step undoes it, in front of the steps `ss`. -/
def StepReverses (j : Job R) (S : Setting) (s : Sweep) (I : Machine R → Prop)
    (P : Finset Var → Accumulators → Machine R → Machine R → Prop) (E : RunError → Prop)
    (step : Step) (ss : List Step) : Prop :=
  ∀ ⦃D : Finset Var⦄ ⦃site : Site⦄ ⦃accs : Accumulators⦄ ⦃l l' : Locals⦄ ⦃m m' n : Machine R⦄
    ⦃log : List (Visit R)⦄ ⦃code : Block⦄,
    Placed S D (step :: ss) → step.Ran j S.rv.level site m log m' → I m →
    m.TopFree S.rv.level.decisions (· ∈ step.loopIds) →
    (S.Sheltered → ∀ v ∈ innerDecls step.source, accs.find? v = none) → Ready S accs l →
    s.reverseStep accs step l = .ok (code, l') → l'.vars.size ≤ n.vars.size →
    Tracks S (blockScope D step.source) m' n → P (blockScope D step.source) accs m' n →
    Ends (j.execBlock code n)
      (Undone (Restores S P D accs m log) (step.Rewound j s site accs l n)) (fun e _ => E e)

theorem cons_reverses (U : Upkeep S s j I P E) (hlevel : s.level = S.rv.level) {step : Step}
    (h : StepReverses j S s I P E step ss) (ih : Reverses j S s I P E ss) :
    Reverses j S s I P E (step :: ss) := by
  intro D site place accs l l' m m' n log code hp hran hI hfree hnone hr hcode hsize ht hP
  obtain ⟨m₁, log₁, log₂, hstep, hrest, rfl⟩ := hran
  obtain ⟨later, l₁, now, hlater, hnow, rfl⟩ := Sweep.reverseSteps_cons hcode
  have hone : stepsRan j S.rv.level site place [step] m log₁ m₁ :=
    ⟨m₁, log₁, [], hstep, ⟨rfl, rfl⟩, by simp⟩
  have hI₁ : I m₁ := U.forward (fun a ha => (forward_atoms ha).imp_left fun h => hp.head.atoms h)
    hone.exec hI
  have hnodup := List.nodup_append.mp hp.ids
  have hfree₁ : m₁.TopFree S.rv.level.decisions (· ∈ stepsLoopIds ss) := by
    refine hone.topFree (fun i hi => hp.tail.negative i hi) (hp.head.apart rfl) (fun i hi hin => ?_)
      fun i hi => hfree i (List.mem_append_right _ hi)
    exact hnodup.2.2 i (by simpa [stepsLoopIds] using hi) i hin rfl
  rw [stepsSource, innerDecls_append] at hnone
  rw [stepsSource, blockScope_append] at ht hP
  have hle₁ := hr.steps_le hlevel hp.tail.fine hlater
  have hle₂ : l₁.Le l' := (hr.mono hle₁).steps_le hlevel hp.head.fine
    (emit_bind_eq_ok.mpr ⟨[], l₁, rfl, emit_bind_eq_ok.mpr ⟨now, l', hnow, rfl⟩⟩)
  have hlater' := ih hp.tail hrest hI₁ hfree₁ (fun hS v hv => hnone hS v (List.mem_append_right _ hv))
    hr
    hlater (Nat.le_trans hle₂.size hsize) ht hP
  refine Job.execBlock_append_ends hlater' fun n₁ _ hn₁ => ?_
  obtain ⟨log₂', htrail₂, ht₁, hP₁, hlog₂⟩ := hn₁
  have hn₁ : n₁.vars.size = n.vars.size := by
    rw [ht₁.size, ht.size, execBlock_size hrest.exec]
  have hnow' := h hp hstep hI (fun i hi => hfree i (List.mem_append_left _ hi))
    (fun hS v hv => hnone hS v (List.mem_append_left _ hv)) (hr.mono hle₁) hnow (by omega) ht₁ hP₁
  refine hnow'.mono ?_ fun _ _ h => h
  rintro flow n' ⟨rfl, log₁', htrail₁, ht', hP', hlog₁⟩
  refine ⟨rfl, log₂' ++ log₁', ⟨later, l₁, n₁, log₂', log₁', hlater, htrail₂, htrail₁, rfl⟩, ht',
    hP', ?_⟩
  rw [List.reverse_append]
  exact List.rel_append hlog₁ hlog₂

theorem leaf_reverses (U : Upkeep S s j I P E) (hlevel : s.level = S.rv.level) {step : Step}
    (hleaf : step.isLeaf = true) : StepReverses j S s I P E step ss := by
  intro D site accs l l' m m' n log code hp hran hI _ _ hr hcode hsize ht hP
  have hall : Tolerant (fun _ => True) j.externs := ⟨fun _ _ => trivial, fun _ _ _ _ _ _ => trivial⟩
  have hstruct := leaf_undone hall hlevel hr.base hr.fit hleaf hp.head hran ht hcode hsize
  have hkept := U.leaf hleaf hp.head hran hI hr hcode hsize ht hP
  refine (hstruct.and hkept).mono ?_ fun _ _ h => h.2
  rintro flow n' ⟨⟨rfl, ht', log', htrail, hlog⟩, hP'⟩
  exact ⟨rfl, log', htrail, ht', hP', hlog⟩

theorem block_reverses (U : Upkeep S s j I P E) (hlevel : s.level = S.rv.level)
    (h : Reverses j S s I P E steps) : StepReverses j S s I P E (.block (decls, steps)) ss := by
  intro D site accs l l' m m' n log code hp hran hI hfree hnone hr hcode hsize ht hP
  obtain ⟨inner, hinner, rfl⟩ := Sweep.reverseStep_block hcode
  have hsource : innerDecls (Step.block (decls, steps)).source = allDecls (stepsSource steps) := by
    rw [Step.source, innerDecls_singleton rfl, Reader.allDecls_block]
  have howned (v : Var) (hv : v ∈ blockDecls (stepsSource steps)) : S.lo.isOwned v = false := by
    refine hp.owned v ?_
    rw [stepsSource, innerDecls_append, hsource]
    exact List.mem_append_left _ (blockDecls_subset _ hv)
  rw [hsource] at hnone
  rw [Step.source, blockScope_controlFlow D rfl] at ht hP
  rw [Job.execBlock_singleton]
  exact section_undone U hlevel h hp.fine.1.1 hp.block howned hnone hran hI hfree hr hinner hsize
    ht hP

theorem cond_reverses (U : Upkeep S s j I P E) (hlevel : s.level = S.rv.level)
    (ha : ∀ arm ∈ arms, Reverses j S s I P E arm.2.2) (h : Reverses j S s I P E steps) :
    StepReverses j S s I P E (.cond arms (decls, steps)) ss := by
  intro D site accs l l' m m' n log code hp hran hI hfree hnone hr hcode hsize ht hP
  obtain ⟨l₁, testStmts, tests, l₂, blocks, l₃, last, hdecl, hle₁, hsize₁, htests, hblocks, hlast,
    rfl⟩ := Sweep.reverseStep_cond hcode
  have hsource : innerDecls (Step.cond arms (decls, steps)).source =
      allDecls [.cond (armsSource arms) (stepsSource steps)] := innerDecls_singleton rfl
  rw [hsource] at hnone
  rw [Step.source, blockScope_controlFlow D rfl] at ht hP
  have hran' : armsRan j S.rv.level site 0 arms
      (Decided S.rv.level (stepsRan j S.rv.level ((0 + arms.length) :: site) 0 steps)
        ((0 + arms.length : Nat) : Int)) m log m' := by
    rw [Nat.zero_add]
    exact hran
  obtain ⟨k, sec, hsec, m₁, hsteps, rfl⟩ := armsRan.decided decls hran'
  have hbranch := List.mem_of_getElem? hsec
  have hrev : Reverses j S s I P E sec.2 := by
    rcases List.mem_append.mp hbranch with hmem | hmem
    · obtain ⟨arm, harm, rfl⟩ := List.mem_map.mp hmem
      exact ha arm harm
    · rw [List.mem_singleton.mp hmem]
      exact h
  obtain ⟨hplaced, hdecls, hatoms, hids⟩ := hp.branch hbranch
  have hmem (v : Var) (hv : v ∈ allDecls (stepsSource sec.2)) :
      v ∈ allDecls [.cond (armsSource arms) (stepsSource steps)] :=
    (hatoms.filterMap Stmt.decl?).subset hv
  have howned (v : Var) (hv : v ∈ blockDecls (stepsSource sec.2)) : S.lo.isOwned v = false := by
    refine hp.owned v ?_
    rw [stepsSource, innerDecls_append, hsource]
    exact List.mem_append_left _ (hmem v (blockDecls_subset _ hv))
  -- the index of the branch is popped and compared with all indices
  obtain ⟨slot, others, hstack, hslot, ht₁, hP₁⟩ :=
    U.popDecision hlevel hr (w := ⟨l.vars.size⟩) (Nat.le_refl _) ht hP
  rw [Nat.zero_add] at hslot hsteps
  have hr₁ : Ready S accs l₁ := hr.mono hle₁
  have hle₂ := branchTests_le htests
  have hr₂ : Ready S accs l₂ := hr₁.mono hle₂
  have hfine := fun arm harm => (armsFine_iff.mp hp.fine.1.1 arm harm).2
  have hle₃ := hr₂.arms_le hlevel hfine hblocks
  have hle₄ := (hr₂.mono hle₃).section_le hlevel hp.other.fine hlast
  have hsizes : l.vars.size + 1 ≤ l₂.vars.size ∧ l₂.vars.size ≤ n.vars.size := by
    have := hle₂.size
    have := hle₃.size
    have := hle₄.size
    omega
  have hpop := execBlock_pop (j := j) hstack ⟨l.vars.size⟩ true
  have htaken : ((n.dropTape s.level.decisions others).setVar ⟨l.vars.size⟩ slot).var
      ⟨l.vars.size⟩ = some slot := by
    refine Machine.var_setVar_self _ _ _ ?_
    simp only [Machine.vars_dropTape]
    omega
  obtain ⟨n₂, hexec, hstack₂, hbelow₂, hn₂, hgraph₂, hlength, hholds⟩ :=
    branchTests_run (j := j) htaken hslot (by simp only; omega) htests
      (by simpa only [Machine.size_setVar, Machine.vars_dropTape] using hsizes.2)
  obtain ⟨ht₂, hP₂⟩ := U.scratch hr₁ hn₂ hstack₂ hbelow₂ hgraph₂ ht₁ hP₁
  have hcode : j.execBlock (.define ⟨l.vars.size⟩ true (.pop s.level.decisions) :: testStmts) n =
      .ok .next n₂ := by
    rw [← List.singleton_append, j.execBlock_append_next hpop, hexec]
  rw [j.execBlock_append_next hcode, Job.execBlock_singleton]
  have hn₂' : n₂.vars.size = n.vars.size := by
    rw [hn₂, Machine.size_setVar, Machine.vars_dropTape]
  have harms : Ends (j.exec (.cond (tests.zip (blocks ++ [last])) [.unreachable]) n₂)
      (Undone (Restores S P D accs m log) (armsRewound j s site 0 arms (SectionRewound j s decls
        (stepsRewound j s ((0 + arms.length) :: site) 0 steps)) accs tests l₂ n₂))
      (fun e _ => E e) := by
    refine arms_undone hlevel hr₂ hfine hp.other.fine hblocks hlast hlength
      (fun i test hi => by simpa using hholds i test hi) hsec fun hrk hlk hck => ?_
    have := hlk.size
    rw [Nat.zero_add]
    exact section_undone U hlevel hrev hdecls hplaced howned (fun hS v hv => hnone hS v (hmem v hv))
      hsteps hI (fun i hi => hfree i (hids.subset hi)) hrk hck (by omega) ht₂ hP₂
  refine harms.mono ?_ fun _ _ h => h
  rintro flow n' ⟨rfl, log', htrail, hF⟩
  rw [Nat.zero_add] at htrail
  exact ⟨rfl, log', ⟨_, l₁, testStmts, tests, l₂, n₂, hdecl, htests, hcode, htrail⟩, hF⟩

theorem loop_reverses (U : Upkeep S s j I P E) (hlevel : s.level = S.rv.level)
    (h : Reverses j S s I P E steps) :
    StepReverses j S s I P E (.loop id header test (decls, steps)) ss := by
  intro D site accs l l' m m' n log code hp hran hI hfree hnone hr hcode hsize ht hP
  obtain ⟨l₁, l₂, body, hdecl₁, hdecl₂, hle₂, hsize₂, hbody, rfl⟩ := Sweep.reverseStep_loop hcode
  obtain ⟨logs, hrounds, rfl⟩ := hran
  have hsource : innerDecls (Step.loop id header test (decls, steps)).source =
      allDecls header ++ allDecls (stepsSource steps) := by
    rw [Step.source, innerDecls_singleton rfl, Reader.allDecls_loop]
  rw [hsource] at hnone
  rw [Step.source, blockScope_controlFlow D rfl] at ht hP
  rw [Job.execBlock_singleton]
  have hmsize : m'.vars.size = m.vars.size := by
    have hexec : j.exec (.loop header test (S.rv.level.forwardSteps steps ++
        [S.rv.level.record id])) m = .ok .next m' := by
      refine hrounds.exec ?_
      rintro m x m' ⟨m₁, hsteps, rfl⟩
      exact execBlock_record.mpr ⟨m₁, hsteps.exec, rfl⟩
    rw [← Job.execBlock_singleton] at hexec
    exact execBlock_size hexec
  have hloop := rounds_undone U hlevel h hp hnone hr hsize₂ hle₂ hbody hrounds hI
    (fun i hi => hfree i (List.mem_cons_of_mem _ hi)) (by rw [← hmsize, ← ht.size]; exact hsize)
    ht hP (F := fun logs' n' => Tracks S D m n' ∧ P D accs m n' ∧
      List.Forall₂ (fun x y => List.Forall₂ Undoes x y.reverse) logs logs'.reverse)
    fun n₂ pre ht₂ hP₂ hpre => ?_
  · refine hloop.mono ?_ fun _ _ h => h
    rintro flow n' ⟨rfl, logs', hrounds', ht', hP', hlogs⟩
    refine ⟨rfl, .loop site logs'.length :: logs'.flatten,
      ⟨_, l₁, _, l₂, logs', hdecl₁, hdecl₂, hrounds', rfl⟩, ht', hP', ?_⟩
    have hlength : logs'.length = logs.length := by
      rw [← List.length_reverse, hlogs.length_eq]
    rw [List.reverse_cons, List.reverse_flatten]
    refine List.rel_append (List.rel_flatten ?_) (.cons ⟨rfl, hlength⟩ .nil)
    rw [← List.map_reverse, List.forall₂_map_right_iff]
    exact hlogs
  · -- all rounds are undone, and the number of the loop is not on top
    have htop : n₂.tapes.topIs s.level.decisions id = false := by
      rw [hlevel, Machine.topIs_content, ht₂.decisions, ← Machine.topIs_content]
      exact hfree id (List.mem_cons_self ..)
    by_cases hlimit : n₂.steps < j.limit
    swap
    · rw [Sweep.repeatLoop, Job.exec_loop_limit hlimit]
      exact U.limit
    have hle := ((hr.mono hle₂).section_le hlevel hp.loop.fine hbody).size
    let n₃ := n₂.ticked.setVar ⟨l.vars.size⟩ { value := .bool (n₂.tapes.topIs s.level.decisions id) }
    have hran₃ : j.execBlock [.define ⟨l.vars.size⟩ true (.topIs s.level.decisions id)] n₂.ticked =
        .ok .next n₃ := rfl
    have htests₃ : n₃.Tests ⟨l.vars.size⟩ false := by
      refine ⟨_, Machine.var_setVar_self _ _ _ ?_, by rw [htop]⟩
      have := ht₂.size
      have := ht.size
      simp only [Machine.vars_ticked]
      omega
    obtain ⟨ht₃, hP₃⟩ := U.guarded hr { value := .bool (n₂.tapes.topIs s.level.decisions id) } ht₂ hP₂
    rw [Sweep.repeatLoop, Job.exec_loop_stop hlimit hran₃ htests₃]
    exact ⟨rfl, [], .stop hlimit hran₃ htests₃, ht₃, hP₃, by simpa using hpre⟩

/-- **The reverse section undoes the forward section.** -/
theorem Upkeep.reverses (U : Upkeep S s j I P E) (hlevel : s.level = S.rv.level) (ss : List Step) :
    Reverses j S s I P E ss := by
  induction ss using stepsInduction with
  | nil =>
    intro D site place accs l l' m m' n log code hp hran hI hfree hnone hr hcode hsize ht hP
    obtain ⟨rfl, rfl⟩ := hran
    obtain ⟨rfl, rfl⟩ := emit_pure_eq_ok.mp hcode
    rw [stepsSource, blockScope_nil] at ht hP
    exact ⟨rfl, [], ⟨rfl, rfl⟩, ht, hP, .nil⟩
  | leaf step ss hleaf ih => exact cons_reverses U hlevel (leaf_reverses U hlevel hleaf) ih
  | block decls steps ss ihs ih => exact cons_reverses U hlevel (block_reverses U hlevel ihs) ih
  | cond arms decls steps ss iha ihs ih =>
    exact cons_reverses U hlevel (cond_reverses U hlevel iha ihs) ih
  | loop id header test decls steps ss ihs ih =>
    exact cons_reverses U hlevel (loop_reverses U hlevel ihs) ih

end

end Backsweep
