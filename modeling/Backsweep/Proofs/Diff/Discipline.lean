import Mathlib
import Backsweep.Diff.SecondOrder
import Backsweep.Proofs.Diff.Retrace
import Backsweep.Proofs.Run.Lawful
import Backsweep.Run.Gradient

/-!
# The stack discipline of pullbacks

* `Activity.Closed.tapeless`: a function that is differentiated without tapes has
  none;
* `Generation.sections_end`: behind both sections all tapes are empty, and every
  visit is undone, last one first;
* `Generation.first_end`: a pullback fails as the function does, or mildly;
* `pullback_retraces`: a pullback replays its calls backwards.
-/

namespace Backsweep

variable {R : Type} [Scalar R]

/-- Without tapes in the analysis there are none in the function. -/
theorem Activity.Closed.tapeless {f : Func} {input : ActiveInput} {m : Marks}
    (h : Activity.Closed f input false m) (t : Tape) : t ∉ blockTapes f.body := by
  intro ht
  obtain ⟨a, ha, hta⟩ := (mem_blockTapes _).mp ht
  have hatom := h.atoms a ha
  have hcheck {u : Tape} {ok : Bool} :
      (⟨f, input, false⟩ : Analysis).checkTape u ok ≠ .ok () := by
    simp [Analysis.checkTape]
  cases a with
  | define dst decl e =>
    obtain ⟨act, hexpr, -⟩ := except_bind_eq_ok.mp hatom
    cases e with
    | pop u => exact hcheck (except_bind_eq_ok.mp hexpr).choose_spec.1
    | topIs u d => exact hcheck (except_bind_eq_ok.mp hexpr).choose_spec.1
    | _ => simp [Stmt.tapes, Expr.tape?] at hta
  | push u v => exact hcheck (except_bind_eq_ok.mp hatom).choose_spec.1
  | pushDecision u d => exact hcheck (except_bind_eq_ok.mp hatom).choose_spec.1
  | cond arms other => cases blockAtoms_atomic _ _ ha
  | loop header test body => cases blockAtoms_atomic _ _ ha
  | doLoop body test => cases blockAtoms_atomic _ _ ha
  | block body => cases blockAtoms_atomic _ _ ha
  | _ => simp [Stmt.tapes] at hta

namespace Generation

variable {c : Catalogue} {f g : Func} {input : ActiveInput} {withTapes : Bool} {mode : ReturnMode}

/-- Only what is pushed to can carry active values. -/
theorem exists_push_of_active {d : Generation c f input withTapes mode g} {t : Tape}
    (h : d.lo.isActiveTape t = true) : ∃ v, Stmt.push t v ∈ blockAtoms f.body := by
  have h' : d.activity.marks.isActiveTape t = true := h
  have hmem : t ∈ pushedTapes f.body :=
    d.closed.pushed (by simpa [Marks.isActiveTape] using h')
  obtain ⟨a, ha, hpush⟩ := List.mem_filterMap.mp hmem
  cases a with
  | push u v =>
    cases hpush
    exact ⟨v, ha⟩
  | _ => cases hpush

theorem not_isActiveTape (d : Generation c f input false mode g) (t : Tape) :
    d.lo.isActiveTape t = false := by
  cases h : d.lo.isActiveTape t with
  | false => rfl
  | true =>
    obtain ⟨v, hv⟩ := exists_push_of_active h
    exact absurd ((mem_blockTapes _).mpr ⟨_, hv, by simp [Stmt.tapes]⟩) (d.closed.tapeless t)

theorem oneTape_of_tapeless (d : Generation c f input false mode g) : d.OneTape d.level.values where
  apart t ht := absurd ht (d.closed.tapeless t)
  single t ht := by
    rw [d.not_isActiveTape t] at ht
    cases ht
  kind := by simp [Level.values]
  headers _ _ t _ := d.not_isActiveTape t

/-! ## Both sections -/

variable {d : Generation c f input withTapes mode g} {j : Job R} {m m₁ n : Machine R}

theorem forward_next (d : Generation c f input withTapes mode g) (j : Job R) (m : Machine R) :
    Ends (j.execBlock d.forward m) (fun flow _ => flow = .next) (fun _ _ => True) := by
  apply j.execBlock_next
  intro vals ha
  rcases forward_atoms ha with ha | ⟨v, hv⟩ | ⟨i, hi⟩
  · exact d.fine.fine.no_ret vals ha
  · cases hv
  · cases hi

/-- **Behind both sections all tapes are empty, and all visits are undone.** -/
theorem sections_end (d : Generation c f input withTapes mode g) (hc : c.Sound) (hf : f.Tabled) {tape : Tape} (ht : d.OneTape tape)
    {E : RunError → Prop} (hE : Tolerant E j.externs) {u : Slot R}
    (hsize : g.vars.size ≤ m.vars.size) (hu : m.var d.upstream = some u)
    (hempty : ∀ t, m.stack t = [])
    (hfails : ∀ e m₁, j.execBlock d.forward m = .error e m₁ → E e)
    (hclear : ∀ m₁, j.execBlock d.forward m = .ok .next m₁ →
      ∀ t, t.level ≠ d.level.val → m₁.stack t = []) :
    Ends (j.execBlock (d.forward ++ (d.inits ++ d.code)) m)
      (fun flow n => flow = .next ∧ (∀ t, n.stack t = []) ∧
        ∃ log log', d.Ran j m log log' n ∧ List.Forall₂ Undoes log log'.reverse)
      (fun e _ => E e) := by
  cases hfwd : j.execBlock d.forward m with
  | error e m₁ =>
    rw [Job.execBlock_append, bind_error hfwd]
    exact hfails e m₁ hfwd
  | ok flow m₁ =>
    obtain rfl := (forward_next d j m).of_ok hfwd
    have hcarried (m : Machine R) (hm : ∀ t, t.level ≠ d.level.val → m.stack t = []) :
        (d.setting hc hf ht).carried m = [] := by
      unfold Setting.carried
      split
      · rename_i hact
        exact hm _ ((d.setting hc hf ht).tape_apart hact)
      · rfl
    rw [j.execBlock_append_next hfwd]
    refine (retraced (upkeep_none hE rfl) hsize hu trivial (fun t _ => hempty t) hfwd
      (hcarried m₁ (hclear m₁ hfwd)) fun _ _ => trivial).mono ?_ fun _ _ h => h
    rintro flow n ⟨rfl, log, log', hran, htracks, -, hundoes⟩
    refine ⟨rfl, fun t => ?_, log, log', hran, hundoes⟩
    by_cases hlevel : t.level = d.level.val
    · obtain ⟨kind, level⟩ := t
      obtain rfl : level = d.level.val := hlevel
      cases kind with
      | values =>
        have := htracks.values
        rw [Machine.content, Machine.content, hempty] at this
        exact List.map_eq_nil_iff.mp this
      | decisions =>
        have := htracks.decisions
        rw [Machine.content, Machine.content, hempty] at this
        exact List.map_eq_nil_iff.mp this
      | adjoints =>
        have := htracks.adjoints
        rw [hcarried m fun t _ => hempty t] at this
        exact List.length_eq_zero_iff.mp this
    · rw [stack_end hc hran hfwd hlevel, hclear m₁ hfwd t hlevel]

/-! ## The function and the forward section -/

/-- What the function and the forward section have in common. -/
def window (d : Generation c f input withTapes mode g) (erase : Bool) : Window where
  erase := erase
  var v := v.idx < f.vars.size
  tape t := t.level ≠ d.level.val

theorem within (hf : f.Tabled) {tape : Tape} (ht : d.OneTape tape) {erase : Bool}
    (hcalls : erase = true → ∀ dst decl callee args node,
      Stmt.define dst decl (.call callee args node) ∉ blockAtoms f.body) :
    blockWithin (d.window erase) (stepsSource d.plan.body.2) := by
  have hscoped := f.scoped_of_isValid d.valid
  have hbody := d.source_eq
  have hshows : (d.window erase).Shows f.body := ⟨hf.decls, ht.apart, hcalls⟩
  rw [hbody, blockScoped_append] at hscoped
  exact hscoped.1.within (hshows.of_subset d.source_atoms) fun v hv => hf.params v (List.mem_toFinset.mp hv)

theorem forward_inStep (hf : f.Tabled) {tape : Tape} (ht : d.OneTape tape) {cut : Prop} {k : Job R}
    (htwins : Twins cut k j) : Twins.InStep (d.window false) cut
      (k.execBlock (stepsSource d.plan.body.2)) (j.execBlock d.forward) :=
  have hvalues : ¬(d.window false).tape d.level.values := fun h => h rfl
  have hdecisions : ¬(d.window false).tape d.level.decisions := fun h => h rfl
  Level.forwardSteps_inStep htwins hvalues hdecisions d.fine.fine
    (within hf ht fun h => by cases h)

end Generation

/-- A mild error, or the function itself runs into `unreachable`. -/
def Shared {α : Type} (primal : EStateM.Result RunError (Machine R) α) (e : RunError) : Prop :=
  e.IsMild ∨ e = .unreachable ∧ ∃ m, primal = .error .unreachable m

omit [Scalar R] in
theorem tolerant_shared {α : Type} {x : Externs R} (hx : Tolerant RunError.IsMild x)
    (primal : EStateM.Result RunError (Machine R) α) : Tolerant (Shared primal) x where
  mild _ he := .inl he
  call callee vals w e w' h := .inl (hx.call callee vals w e w' h)

namespace Generation

variable {c : Catalogue} {f g : Func} {input : ActiveInput} {mode : ReturnMode}
  {d : Generation c f input false mode g} {j : Job R} {m : Machine R}

/-- The forward section of a function without tapes pops nothing. -/
theorem forward_pops_nothing (hx : Tolerant RunError.IsMild j.externs) (m : Machine R) :
    Ends (j.execBlock d.forward m) (fun _ _ => True) (fun e _ => ∀ t, e ≠ .emptyTape t) := by
  have htolerant : Tolerant (fun e => ∀ t, e ≠ .emptyTape t) j.externs :=
    ⟨fun e he => he.2, fun callee vals w e w' h => (hx.call callee vals w e w' h).2⟩
  refine Job.execBlock_fails htolerant (fun a ha => ?_) m
  rcases forward_atoms ha with ha | ⟨v, rfl⟩ | ⟨i, rfl⟩
  · cases a with
    | define dst decl e =>
      rintro t rfl
      have hmem : Stmt.define dst decl (.pop t) ∈ blockAtoms f.body := d.source_atoms ha
      exact d.closed.tapeless t ((mem_blockTapes _).mpr ⟨_, hmem, List.mem_singleton_self t⟩)
    | unreachable => exact fun t h => by cases h
    | _ => trivial
  · trivial
  · trivial

/-- **The forward section fails as the function does, or mildly.** -/
theorem first_forward_fails (hf : f.Tabled) (hx : Tolerant RunError.IsMild j.externs)
    {args : List (Value R)} {world : World R} (hargs : args.length = f.params.length)
    (hm : Agree (d.window false) (f.entered world args) m) {e : RunError} {m₁ : Machine R}
    (h : j.execBlock d.forward m = .error e m₁) :
    Shared (({ j with func := f } : Job R).run args (.new f world)) e := by
  by_cases hmild : e.IsMild
  · exact .inl hmild
  have hpop : ∀ t, e ≠ .emptyTape t := by
    have := forward_pops_nothing (d := d) hx m
    rw [h] at this
    exact this
  obtain rfl : e = .unreachable := by
    by_contra hne
    exact hmild ⟨hne, hpop⟩
  have htwins : Twins False ({ j with func := f } : Job R) j := ⟨rfl, .inl rfl⟩
  have hstep := (forward_inStep hf d.oneTape_of_tapeless htwins).ends _ _ hm
  refine .inr ⟨rfl, ?_⟩
  rw [h] at hstep
  cases hsource : ({ j with func := f } : Job R).execBlock (stepsSource d.plan.body.2)
      (f.entered world args) with
  | ok flow m₂ =>
    rw [hsource] at hstep
    exact hstep.1.elim
  | error e m₂ =>
    rw [hsource] at hstep
    obtain ⟨hsim | ⟨x, y, -, hy⟩, -⟩ | ⟨hfalse, -⟩ := hstep
    · refine ⟨m₂, (Job.run_eq_error _ _).mpr ?_⟩
      have hbody := d.source_eq
      rw [Job.runSlots_eq _ _ (by simpa using hargs)]
      change Flow.results (({ j with func := f } : Job R).execBlock f.body (f.entered world args)) = _
      rw [hbody, Job.execBlock_append, bind_error hsource, ← hsim]
      rfl
    · cases hy
    · exact hfalse.elim

/-- Only tapes of the level are used. -/
theorem first_clear (d : Generation c f input false mode g) (hc : c.Sound) (hf : f.Tabled) (hempty : ∀ t, m.stack t = []) {m₁ : Machine R}
    (h : j.execBlock d.forward m = .ok .next m₁) {t : Tape} (ht : t.level ≠ d.level.val) :
    m₁.stack t = [] := by
  have hframe := forward_frame hc hf d.oneTape_of_tapeless h
  have hcell : m₁.stack t = m.stack t := congrArg TapeCell.stack (hframe.tapes t
    ⟨d.closed.tapeless t, (by rintro rfl; exact ht rfl), (by rintro rfl; exact ht rfl)⟩)
  rw [hcell, hempty]

/-- **Both sections of a pullback end with empty tapes, or as the function does.** -/
theorem first_end (hc : c.Sound) (hf : f.Tabled) (hx : Tolerant RunError.IsMild j.externs)
    {args : List (Value R)} {world : World R} (hargs : args.length = f.params.length) {u : Slot R}
    (hm : Agree (d.window false) (f.entered world args) m) (hsize : g.vars.size ≤ m.vars.size)
    (hu : m.var d.upstream = some u) (hempty : ∀ t, m.stack t = []) :
    Ends (j.execBlock (d.forward ++ (d.inits ++ d.code)) m)
      (fun flow n => flow = .next ∧ (∀ t, n.stack t = []) ∧
        ∃ log log', d.Ran j m log log' n ∧ List.Forall₂ Undoes log log'.reverse)
      (fun e _ => Shared (({ j with func := f } : Job R).run args (.new f world)) e) := by
  apply sections_end d hc hf d.oneTape_of_tapeless (tolerant_shared hx _) hsize hu hempty
  · intro e m₁ h
    exact first_forward_fails hf hx hargs hm h
  · intro m₁ hfwd t ht
    exact d.first_clear hc hf hempty hfwd ht

end Generation

/-! ## Runs -/

omit [Scalar R] in
/-- The last argument is the upstream derivative. -/
theorem Generation.enter_upstream {c : Catalogue} {f g : Func} {input : ActiveInput}
    {withTapes : Bool} {mode : ReturnMode} (d : Generation c f input withTapes mode g)
    (hc : c.Sound) {m : Machine R} (hsize : g.vars.size ≤ m.vars.size) {args : List (Slot R)}
    (hargs : args.length = g.params.length) :
    ∃ before u, args = before ++ [u] ∧ before.length = f.params.length ∧
      m.enter g.params args = (m.enter f.params before).setVar d.upstream u ∧
      (m.enter g.params args).var d.upstream = some u := by
  rw [d.params, List.length_append, List.length_singleton] at hargs
  have hne : args ≠ [] := by
    rintro rfl
    simp at hargs
  obtain ⟨before, u, rfl⟩ : ∃ before u, args = before ++ [u] :=
    ⟨args.dropLast, args.getLast hne, (List.dropLast_append_getLast hne).symm⟩
  have hbefore : before.length = f.params.length := by simpa using hargs
  have henter : m.enter g.params (before ++ [u]) = (m.enter f.params before).setVar d.upstream u := by
    rw [d.params, Machine.enter_append hbefore.symm]
  refine ⟨before, u, rfl, hbefore, henter, ?_⟩
  rw [henter, Machine.var_setVar_self]
  have hlocals := d.locals_size
  have hgrown := (emitted (d := d) hc).le.size
  rw [d.vars] at hsize
  rw [d.upstream_eq, Machine.size_enter]
  simp only
  omega

/-- A machine for `f` with nothing on its tapes, such as a new one or one whose
last run ended well. -/
structure Machine.Idle (m : Machine R) (f : Func) : Prop where
  size : m.vars.size = f.vars.size
  empty : ∀ t, m.stack t = []

omit [Scalar R] in
theorem Machine.idle_new (f : Func) (world : World R) : (Machine.new f world).Idle f :=
  ⟨by simp [Machine.new], fun _ => rfl⟩

/-- What a derivative returns is read behind both sections. -/
theorem Generation.runSlots_ends {c : Catalogue} {f g : Func} {input : ActiveInput}
    {withTapes : Bool} {mode : ReturnMode} (d : Generation c f input withTapes mode g) {j : Job R}
    (hj : j.func = g) {m : Machine R} {args : List (Slot R)} (hargs : args.length = g.params.length)
    {Q : Machine R → Prop} {err : RunError → Machine R → Prop}
    (h : Ends (j.execBlock (d.forward ++ (d.inits ++ d.code)) (m.enter g.params args))
      (fun flow n => flow = .next ∧ Q n) err) :
    Ends (j.runSlots args m)
      (fun vals n => Q n ∧ j.readAll (d.plan.results d.acc mode) n = .ok vals n)
      (fun e n => err e n ∨ Q n ∧ j.readAll (d.plan.results d.acc mode) n = .error e n) := by
  subst hj
  rw [j.runSlots_eq m hargs, d.body_eq]
  cases hexec : j.execBlock (d.forward ++ (d.inits ++ d.code)) (m.enter j.func.params args) with
  | error e n =>
    rw [hexec] at h
    rw [Job.execBlock_append, bind_error hexec]
    exact .inl h
  | ok flow n =>
    rw [hexec] at h
    obtain ⟨rfl, hQ⟩ := h
    rw [j.execBlock_append_next hexec, Job.execBlock_singleton, Job.exec_ret, bind_apply]
    have hread := j.readAll_ends n (d.plan.results d.acc mode)
    cases hr : j.readAll (d.plan.results d.acc mode) n with
    | ok vals n' =>
      obtain ⟨-, rfl⟩ := (j.readAll_eq_ok n).mp hr
      exact ⟨hQ, hr⟩
    | error e n' =>
      rw [hr] at hread
      obtain ⟨rfl, -⟩ := hread
      exact .inr ⟨hQ, hr⟩

/-- **The reverse section of a pullback replays the forward section backwards.** A
run that returns leaves two trails. The second one, read backwards, visits the
same calls as the first one, and supplies the values that they read and gave. -/
theorem pullback_retraces {c : Catalogue} {f g : Func} {input : ActiveInput} {st st' : Session}
    (hc : c.IsBuilt) (hf : f.IsRead) (h : Diff.pullback c f input st = .ok g st') {j : Job R}
    (hj : j.func = g) {m m' : Machine R} (hm : m.Idle g) {args vals : List (Value R)}
    (hrun : j.run args m = .ok vals m') :
    ∃ (d : Generation c f input false .derivative g) (log : List (Visit R))
      (log' : List (Supply R)),
      d.Ran j (m.enter g.params (args.map ({ value := · }))) log log' m' ∧
        List.Forall₂ Undoes log log'.reverse := by
  obtain ⟨d, -⟩ := Diff.reverse_eq_ok h
  obtain ⟨slots, hslots, -⟩ := (j.run_eq_ok m).mp hrun
  have hargs := j.runSlots_args m hslots
  rw [hj] at hargs
  have hsize := Nat.le_of_eq hm.size.symm
  obtain ⟨before, u, -, -, -, hu⟩ := d.enter_upstream hc.sound hsize hargs
  have hempty (t : Tape) : (m.enter g.params (args.map ({ value := · }))).stack t = [] := by
    rw [Machine.stack_enter, hm.empty]
  have hany : Tolerant (fun _ => True) j.externs := ⟨fun _ _ => trivial, fun _ _ _ _ _ _ => trivial⟩
  have hends := d.sections_end hc.sound hf.tabled d.oneTape_of_tapeless hany
    (by rwa [Machine.size_enter]) hu hempty (fun _ _ _ => trivial)
    fun m₁ hfwd t ht => d.first_clear hc.sound hf.tabled hempty hfwd ht
  obtain ⟨⟨-, log, log', hran, hundoes⟩, -⟩ := (d.runSlots_ends hj hargs hends).of_ok hslots
  exact ⟨d, log, log', hran, hundoes⟩

/-! ## A sample -/

/-- Multiplies by the parameter until two is reached. -/
def Sample.text : String :=
  "function %f(a: real) -> real {
    let two: real = fconst 2
    let mut y: real = fmul a, a
    while { let c: bool = flt y, two } -> c { y = fmul y, a }
    return y
  }"

/-- Both derivatives of the sample exist, and return at `11 / 10`, as do the
gradients of what they are the derivatives of. -/
def Sample.works : Bool :=
  match Func.read Sample.text with
  | .error _ => false
  | .ok f =>
    match Diff.pullback .builtin f (.param ⟨0⟩) {}, Diff.secondOrder .builtin f (.param ⟨0⟩) {} with
    | .ok g _, .ok h _ =>
      match (⟨g, .none, 100⟩ : Job ℚ).run [.real (11 / 10), .real 1] (.new g {}),
        (⟨h, .none, 100⟩ : Job ℚ).run [.real (11 / 10), .real 1] (.new h {}),
        (⟨f, .none, 100⟩ : Job ℚ).gradient [.real (11 / 10)] (.param 0) {},
        (⟨g.unbox 1.0, .none, 100⟩ : Job ℚ).gradient [.real (11 / 10)] (.param 0) {} with
      | .ok _ _, .ok _ _, .ok _ _, .ok _ _ => true
      | _, _, _, _ => false
    | _, _ => false

theorem Sample.works_eq : Sample.works = true := by decide +kernel

theorem Sample.exists_derivatives : ∃ f g h st st',
    Func.read Sample.text = .ok f ∧ Diff.pullback .builtin f (.param ⟨0⟩) {} = .ok g st ∧
      Diff.secondOrder .builtin f (.param ⟨0⟩) {} = .ok h st' ∧
      (∃ vals m, (⟨g, .none, 100⟩ : Job ℚ).run [.real (11 / 10), .real 1] (.new g {}) =
        .ok vals m) ∧
      (∃ vals m, (⟨h, .none, 100⟩ : Job ℚ).run [.real (11 / 10), .real 1] (.new h {}) =
        .ok vals m) ∧
      (∃ r w, (⟨f, .none, 100⟩ : Job ℚ).gradient [.real (11 / 10)] (.param 0) {} = .ok r w) ∧
      ∃ r w, (⟨g.unbox 1.0, .none, 100⟩ : Job ℚ).gradient [.real (11 / 10)] (.param 0) {} =
        .ok r w := by
  have h := Sample.works_eq
  unfold Sample.works at h
  split at h
  · cases h
  rename_i f hf
  split at h
  swap
  · cases h
  rename_i g st h' st' hg hh
  split at h
  swap
  · cases h
  rename_i hg' hh' hr hr'
  exact ⟨f, g, h', st, st', hf, hg, hh, ⟨_, _, hg'⟩, ⟨_, _, hh'⟩, ⟨_, _, hr⟩, ⟨_, _, hr'⟩⟩

/-- The pullback of the sample replays its calls backwards. -/
theorem sample_retraces : ∃ f g st, Func.read Sample.text = .ok f ∧
    Diff.pullback .builtin f (.param ⟨0⟩) {} = .ok g st ∧
    ∃ vals m, (⟨g, .none, 100⟩ : Job ℚ).run [.real (11 / 10), .real 1] (.new g {}) = .ok vals m ∧
      ∃ (d : Generation .builtin f (.param ⟨0⟩) false .derivative g) (log : List (Visit ℚ))
        (log' : List (Supply ℚ)),
        d.Ran ⟨g, .none, 100⟩ (.enter (.new g {}) g.params
          ([.real (11 / 10), .real 1].map ({ value := · }))) log log' m ∧
          List.Forall₂ Undoes log log'.reverse := by
  obtain ⟨f, g, -, st, -, hf, hg, -, ⟨vals, m, hrun⟩, -⟩ := Sample.exists_derivatives
  exact ⟨f, g, st, hf, hg, vals, m, hrun,
    pullback_retraces .builtin (.inl ⟨_, hf⟩) hg rfl (Machine.idle_new g {}) hrun⟩

/-- Squares once, and then stops without a result if it is told to. -/
def Interrupted.text : String :=
  "function %f(x: real, go: bool) -> real {
    let mut y: real = copy x
    let mut c: bool = copy go
    while { } -> c { y = fmul y, y c = flt y, x }
    if go { unreachable } else { }
    return y
  }"

def Interrupted.differs : Bool :=
  match Func.read Interrupted.text with
  | .error _ => false
  | .ok f =>
    match Diff.pullback .builtin f (.param ⟨0⟩) {} with
    | .error _ _ => false
    | .ok g _ =>
      match (⟨g, .none, 100⟩ : Job ℚ).run [.real 3, .bool true, .real 1] (.new g {}),
        (⟨g, .none, 100⟩ : Job ℚ).run [.real 3, .bool false, .real 1] (.new g {}) with
      | .error _ m, .ok [.real fresh] _ =>
        match (⟨g, .none, 100⟩ : Job ℚ).run [.real 3, .bool false, .real 1] m with
        | .ok [.real y] n =>
          decide (fresh = 1 ∧ y = 6 ∧
            (n.tapes.cell ⟨.values, 1⟩).pushes = (m.tapes.cell ⟨.values, 1⟩).pushes ∧
            (n.tapes.cell ⟨.values, 1⟩).pops = (m.tapes.cell ⟨.values, 1⟩).pops + 1)
        | _ => false
      | _, _ => false

theorem Interrupted.differs_eq : Interrupted.differs = true := by decide +kernel

/-- After a run that stopped half way, a run whose forward section saves nothing
still takes a value back: the loop that it skipped is reversed once, and the
derivative is six where it is one. -/
theorem interrupted_replays_leftover : ∃ f g st, Func.read Interrupted.text = .ok f ∧
    Diff.pullback .builtin f (.param ⟨0⟩) {} = .ok g st ∧
    ∃ (e : RunError) (m m' n : Machine ℚ),
      (⟨g, .none, 100⟩ : Job ℚ).run [.real 3, .bool true, .real 1] (.new g {}) = .error e m ∧
      (⟨g, .none, 100⟩ : Job ℚ).run [.real 3, .bool false, .real 1] (.new g {}) =
        .ok [.real 1] m' ∧
      (⟨g, .none, 100⟩ : Job ℚ).run [.real 3, .bool false, .real 1] m = .ok [.real 6] n ∧
      (n.tapes.cell ⟨.values, 1⟩).pushes = (m.tapes.cell ⟨.values, 1⟩).pushes ∧
      (n.tapes.cell ⟨.values, 1⟩).pops = (m.tapes.cell ⟨.values, 1⟩).pops + 1 := by
  have h := Interrupted.differs_eq
  unfold Interrupted.differs at h
  split at h
  · cases h
  rename_i f hf
  split at h
  · cases h
  rename_i g st hg
  split at h
  swap
  · cases h
  rename_i e m fresh m' hstopped hfresh
  split at h
  swap
  · cases h
  rename_i y n hrun
  obtain ⟨rfl, rfl, hpushes, hpops⟩ := of_decide_eq_true h
  exact ⟨f, g, st, hf, hg, e, m, m', n, hstopped, hfresh, hrun, hpushes, hpops⟩

end Backsweep
