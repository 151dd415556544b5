import Mathlib
import Backsweep.Proofs.Diff.Nested

/-!
# The stack discipline of all derivatives

* `Generation.second_end`: both sections of a second derivative end with empty
  tapes, or as the function does;
* `derivatives_balanced`: derivatives of both orders keep the stack discipline.
-/

namespace Backsweep

variable {R : Type} [Scalar R]
variable {withTapes : Bool} {mode : ReturnMode}

/-! ## Second derivatives -/

variable {args : List (Value R)} {world : World R}

namespace Generation

variable {c : Catalogue} {f g h : Func} {input : ActiveInput} {one : Float}
  {d : Generation c f input false .derivative g}
  {d₂ : Generation c (g.unbox one) input true .valueAndDerivative h} {j : Job R} {m : Machine R}

/-- The steps of an unboxed pullback are the sections of the pullback. -/
theorem unbox_source (d : Generation c f input false .derivative g)
    (d₂ : Generation c (g.unbox one) input true .valueAndDerivative h) :
    stepsSource d₂.plan.body.2 = .define d.upstream true (.const (.real one)) ::
      (d.forward ++ (d.inits ++ d.code)) ∧ d₂.plan.ret = d.acc := by
  have hbody : (g.unbox one).body = stepsSource d₂.plan.body.2 ++ [.ret [d₂.plan.ret]] :=
    d₂.fine.body
  rw [d.unbox_body, d.body_eq, ← List.cons_append] at hbody
  obtain ⟨hsource, hret⟩ := List.append_inj' hbody rfl
  refine ⟨hsource.symm, ?_⟩
  simp only [List.cons.injEq, Stmt.ret.injEq, Plan.results, and_true] at hret
  exact hret.symm

/-- The sections of the pullback inside of a second derivative. -/
theorem unbox_end (d₂ : Generation c (g.unbox one) input true .valueAndDerivative h) (hc : c.Sound)
    (hf : f.Tabled) (hx : Tolerant RunError.IsMild j.externs)
    (hargs : args.length = f.params.length) (hm : Agree (d.window false) (f.entered world args) m)
    (hsize : d.final.vars.size ≤ m.vars.size) (hempty : ∀ t, m.stack t = []) :
    Ends (j.execBlock (stepsSource d₂.plan.body.2) m)
      (fun flow n => flow = .next ∧ ∀ t, n.stack t = [])
      (fun e _ => Shared (({ j with func := f } : Job R).run args (.new f world)) e) := by
  let slot : Slot R := { value := .ofConst (.real one) }
  have heval : j.eval (.const (.real one)) m = .ok slot m := rfl
  have hhidden : ¬(d.window false).var d.upstream := by
    rw [d.upstream_eq]
    exact Nat.lt_irrefl _
  have hlt : d.upstream.idx < m.vars.size := by
    have := (emitted (d := d) hc).le.size
    have := d.locals_size
    rw [d.upstream_eq]
    simp only
    omega
  rw [(d.unbox_source d₂).1, j.execBlock_define_ok heval]
  have hend := first_end (d := d) (j := j) hc hf hx hargs (hm.setHidden hhidden slot)
    (by rw [Machine.size_setVar, d.vars]; exact hsize) (Machine.var_setVar_self _ _ _ hlt)
    fun t => by rw [Machine.stack_setVar, hempty]
  exact hend.mono (fun flow n h => ⟨h.1, h.2.1⟩) fun _ _ h => h

/-- **Both sections of a second derivative end with empty tapes, or as the function
does.** -/
theorem second_end (hc : c.Sound) (hf : f.Tabled) (hlevel : d₂.level.val ≠ d.level.val)
    (hx : Tolerant RunError.IsMild j.externs) (hargs : args.length = f.params.length) {u : Slot R}
    (hm : Agree (d.window false) (f.entered world args) m) (hsize : h.vars.size ≤ m.vars.size)
    (hu : m.var d₂.upstream = some u) (hempty : ∀ t, m.stack t = []) :
    Ends (j.execBlock (d₂.forward ++ (d₂.inits ++ d₂.code)) m)
      (fun flow n => flow = .next ∧ (∀ t, n.stack t = []) ∧
        ∃ log log', d₂.Ran j m log log' n ∧ List.Forall₂ Undoes log log'.reverse)
      (fun e _ => Shared (({ j with func := f } : Job R).run args (.new f world)) e) := by
  have htabled := d.unbox_tabled one hc hf
  have hone := oneTape_of_unbox hc hlevel
  have hgrown : (g.unbox one).vars.size ≤ m.vars.size := by
    have := (d₂.vars_extend hc).size
    rw [d₂.vars] at hsize
    exact Nat.le_trans this hsize
  -- the forward section runs in step with the pullback it was made from
  have hrefl : Agree (d₂.window false) m m := .refl rfl fun v hv => Nat.lt_of_lt_of_le hv hgrown
  have hstep := (forward_inStep htabled hone (⟨rfl, .inl rfl⟩ : Twins False j j)).to_done.ends m m hrefl
  have hsource := unbox_end d₂ (j := j) hc hf hx hargs hm
    (by rw [← d.unbox_vars one]; exact hgrown) hempty
  apply sections_end d₂ hc htabled hone (tolerant_shared hx _) hsize hu hempty
  · intro e m₁ hfwd
    rw [hfwd] at hstep
    cases hexec : j.execBlock (stepsSource d₂.plan.body.2) m with
    | ok flow m₂ =>
      rw [hexec] at hstep
      exact hstep.1.elim
    | error e' m₂ =>
      rw [hexec] at hstep hsource
      obtain ⟨rfl | ⟨x, y, -, rfl⟩, -⟩ | ⟨hfalse, -⟩ := hstep
      · exact hsource
      · exact .inl ⟨by simp, by simp⟩
      · exact hfalse.elim
  · intro m₁ hfwd t ht
    rw [hfwd] at hstep
    cases hexec : j.execBlock (stepsSource d₂.plan.body.2) m with
    | ok flow m₂ =>
      rw [hexec] at hstep hsource
      rw [hstep.2.stack t ht, hsource.2 t]
      rfl
    | error e' m₂ =>
      rw [hexec] at hstep
      exact hstep.1.elim

end Generation

/-! ## Runs -/

/-- The rounds of a loop that a trail tells of. -/
def Visit.rounds? : Visit R → Option (Site × Nat)
  | .loop site rounds => some (site, rounds)
  | .call _ _ _ _ => none

def Supply.rounds? : Supply R → Option (Site × Nat)
  | .loop site rounds => some (site, rounds)
  | .call _ _ _ _ => none

omit [Scalar R] in
theorem rounds_of_undoes {log : List (Visit R)} {log' : List (Supply R)}
    (h : List.Forall₂ Undoes log log') : log'.filterMap Supply.rounds? = log.filterMap Visit.rounds? := by
  induction h with
  | nil => rfl
  | @cons visit supply log log' hv _ ih =>
    have hhead : supply.rounds? = visit.rounds? := by
      cases visit with
      | call site c args result =>
        cases supply with
        | call site' c' inputs primal => rfl
        | loop site' rounds' => exact hv.elim
      | loop site rounds =>
        cases supply with
        | call site' c' inputs primal => exact hv.elim
        | loop site' rounds' =>
          obtain ⟨rfl, rfl⟩ := hv
          rfl
    rw [List.filterMap_cons, List.filterMap_cons, hhead, ih]

/-- All tapes are empty, and what was pushed was popped. -/
structure Tapes.Settled (ts : Tapes R) : Prop where
  balanced : ts.isBalanced = true
  stack : ∀ t, (ts.cell t).stack = []
  count : ∀ t, (ts.cell t).pushes = (ts.cell t).pops

omit [Scalar R] in
theorem Tapes.Counted.settled {ts : Tapes R} (h : ts.Counted) (he : ∀ t, (ts.cell t).stack = []) :
    ts.Settled := by
  refine ⟨h.isBalanced he, he, fun t => ?_⟩
  rw [h.count t, he t, List.length_nil, Nat.add_zero]

omit [Scalar R] in
/-- A derivative starts with the arguments of its function and an upstream
derivative. -/
theorem Generation.entered_eq {c : Catalogue} {f g : Func} {input : ActiveInput}
    (d : Generation c f input withTapes mode g) (hc : c.Sound) (world : World R)
    (hargs : args.length = g.params.length) :
    args.dropLast.length = f.params.length ∧
      ∃ u, (g.entered world args).var d.upstream = some u ∧ g.entered world args =
        ((Machine.new g world).enter f.params (args.dropLast.map ({ value := · }))).setVar
          d.upstream u := by
  have hsize : g.vars.size ≤ (Machine.new g world).vars.size := by simp [Machine.new]
  have hslots : (args.map ({ value := · } : Value R → Slot R)).length = g.params.length := by
    rw [List.length_map, hargs]
  obtain ⟨before, u, hbefore, hlength, henter, hu⟩ := d.enter_upstream hc hsize hslots
  obtain rfl : args.dropLast.map ({ value := · }) = before := by
    have := congrArg List.dropLast hbefore
    rwa [← List.map_dropLast, List.dropLast_concat] at this
  exact ⟨by simpa using hlength, u, hu, henter⟩

omit [Scalar R] in
/-- A derivative starts where a function does that shares its parameters. -/
theorem Generation.agree_start {c : Catalogue} {f g : Func} {input : ActiveInput}
    (d : Generation c f input withTapes mode g) (hc : c.Sound) (world : World R)
    (hargs : args.length = g.params.length) {k : Func} (hk : k.params = f.params) {w : Window}
    (hw : ∀ v, w.var v → v.idx < k.vars.size ∧ v.idx < f.vars.size)
    (hparams : ∀ v ∈ k.params, w.var v) :
    Agree w (k.entered world args.dropLast) (g.entered world args) := by
  obtain ⟨-, u, -, henter⟩ := d.entered_eq hc world hargs
  have hle : f.vars.size ≤ g.vars.size := by
    rw [d.vars]
    exact (d.vars_extend hc).size
  have hagree := (Agree.new (fun v hv => (hw v hv).1)
    (fun v hv => Nat.lt_of_lt_of_le (hw v hv).2 hle) world).enter hparams
    (args.dropLast.map ({ value := · }))
  have hplain : (args.dropLast.map ({ value := · } : Value R → Slot R)).map w.slot =
      args.dropLast.map ({ value := · }) := by
    rw [List.map_map]
    exact List.map_congr_left fun v _ => w.slot_plain v
  rw [hplain] at hagree
  rw [henter, ← hk]
  refine hagree.setHidden (fun hv => ?_) u
  have := (hw _ hv).2
  rw [d.upstream_eq] at this
  exact Nat.lt_irrefl _ this

/-- From both sections to the run. -/
theorem Generation.run_end {c : Catalogue} {f g : Func} {input : ActiveInput}
    (d : Generation c f input withTapes mode g) {j : Job R} (hj : j.func = g)
    (hargs : args.length = g.params.length) {E : RunError → Prop} (hE : ∀ x, E (.undefinedVar x))
    (h : Ends (j.execBlock (d.forward ++ (d.inits ++ d.code)) (g.entered world args))
      (fun flow n => flow = .next ∧ (∀ t, n.stack t = []) ∧
        ∃ log log', d.Ran j (g.entered world args) log log' n ∧ List.Forall₂ Undoes log log'.reverse)
      (fun e _ => E e)) :
    Ends (j.run args (.new g world))
      (fun _ n => n.tapes.Settled ∧ ∃ log log', d.Ran j (g.entered world args) log log' n ∧
        log'.reverse.filterMap Supply.rounds? = log.filterMap Visit.rounds?)
      (fun e _ => E e) := by
  have hcounted := (j.execBlock_counted (d.forward ++ (d.inits ++ d.code))
    (m := g.entered world args) (by
      rw [Func.entered, (Machine.enter_keeps _ _ _).1]
      exact Tapes.counted_nil))
  have hboth : Ends (j.execBlock (d.forward ++ (d.inits ++ d.code)) (g.entered world args))
      (fun flow n => flow = .next ∧ n.tapes.Settled ∧ ∃ log log',
        d.Ran j (g.entered world args) log log' n ∧
          log'.reverse.filterMap Supply.rounds? = log.filterMap Visit.rounds?)
      (fun e _ => E e) := by
    refine (h.and hcounted).mono ?_ fun _ _ h => h.1
    rintro flow n ⟨⟨rfl, hempty, log, log', hran, hundoes⟩, hcount⟩
    exact ⟨rfl, hcount.settled hempty, log, log', hran, rounds_of_undoes hundoes⟩
  unfold Job.run
  rw [ends_bind]
  refine (d.runSlots_ends hj (by simpa using hargs) hboth).mono (fun vals n h => h.1) ?_
  rintro e n (he | ⟨-, hread⟩)
  · exact he
  · have := j.readAll_ends n (d.plan.results d.acc mode)
    rw [hread] at this
    obtain ⟨-, x, rfl⟩ := this
    exact hE x

/-- **Derivatives of both orders keep the stack discipline.** Whatever a derivative
is run on, it never pops an empty tape, and runs into `unreachable` only where
the function does. Where it returns, all tapes are empty, as often popped as
pushed to, and every loop was reversed as often as it was run, in reverse order. -/
theorem derivatives_balanced {c : Catalogue} {f g : Func} {input : ActiveInput} {st st' : Session}
    (hc : c.IsBuilt) (hf : f.IsRead)
    (h : Diff.pullback c f input st = .ok g st' ∨ Diff.secondOrder c f input st = .ok g st')
    {j : Job R} (hj : j.func = g)
    (hx : ∀ callee vals w e w', j.externs.call callee vals w = .error e w' → e.IsMild)
    (args : List (Value R)) (world : World R) :
    Ends (j.run args (.new g world))
      (fun _ m => m.tapes.Settled ∧
        ∃ f' withTapes mode, ∃ d : Generation c f' input withTapes mode g, ∃ log log',
          d.Ran j (g.entered world args) log log' m ∧
            log'.reverse.filterMap Supply.rounds? = log.filterMap Visit.rounds?)
      (fun e _ => (∀ t, e ≠ .emptyTape t) ∧ (e = .unreachable →
        ∃ m, ({ j with func := f } : Job R).run args.dropLast (.new f world) =
          .error .unreachable m)) := by
  have hmild : Tolerant RunError.IsMild j.externs := ⟨fun _ he => he, hx⟩
  -- the arguments have to fit in number to begin with
  by_cases hargs : args.length = g.params.length
  swap
  · have harity : j.run args (.new g world) =
        .error (.arity g.params.length args.length) (.new g world) := by
      subst hj
      rw [Job.run_eq_error, Job.runSlots_arity _ _ (by simpa using hargs), List.length_map]
    rw [harity]
    exact ⟨by simp, by simp⟩
  have hshared (e : RunError)
      (he : Shared (({ j with func := f } : Job R).run args.dropLast (.new f world)) e) :
      (∀ t, e ≠ .emptyTape t) ∧ (e = .unreachable →
        ∃ m, ({ j with func := f } : Job R).run args.dropLast (.new f world) =
          .error .unreachable m) := by
    rcases he with he | ⟨rfl, hm⟩
    · exact ⟨he.2, fun hu => absurd hu he.1⟩
    · exact ⟨by simp, fun _ => hm⟩
  have hundefined (x : String) :
      Shared (({ j with func := f } : Job R).run args.dropLast (.new f world)) (.undefinedVar x) :=
    .inl ⟨by simp, by simp⟩
  have hsize : g.vars.size ≤ (g.entered world args).vars.size := by rw [Func.size_entered]
  have hempty := g.stack_entered world args
  rcases h with h | h
  · obtain ⟨d, -⟩ := Diff.reverse_eq_ok h
    obtain ⟨hlength, u, hu, -⟩ := d.entered_eq hc.sound world hargs
    have hagree : Agree (d.window false) (f.entered world args.dropLast) (g.entered world args) :=
      d.agree_start hc.sound world hargs rfl (fun v hv => ⟨hv, hv⟩) hf.tabled.params
    have hend := d.run_end hj hargs hundefined
      (Generation.first_end hc.sound hf.tabled hmild hlength hagree hsize hu hempty)
    exact hend.mono (fun _ m h => ⟨h.1, f, false, .derivative, d, h.2⟩) fun e _ he => hshared e he
  · obtain ⟨g₁, d, d₂, hlevel, -⟩ := Diff.secondOrder_eq_ok hc.sound h
    obtain ⟨hlength, u, hu, -⟩ := d₂.entered_eq hc.sound world hargs
    rw [d.unbox_params] at hlength
    have hgrown : f.vars.size ≤ (g₁.unbox st.context.one).vars.size := by
      rw [d.unbox_vars]
      exact (d.vars_extend hc.sound).size
    have hagree : Agree (d.window false) (f.entered world args.dropLast) (g.entered world args) :=
      d₂.agree_start hc.sound world hargs (d.unbox_params _).symm
        (fun v hv => ⟨hv, Nat.lt_of_lt_of_le hv hgrown⟩) hf.tabled.params
    have hend := d₂.run_end hj hargs hundefined
      (Generation.second_end hc.sound hf.tabled hlevel hmild hlength hagree hsize hu hempty)
    exact hend.mono (fun _ m h => ⟨h.1, g₁.unbox st.context.one, true, .valueAndDerivative, d₂, h.2⟩)
      fun e _ he => hshared e he

/-- The second derivative of the sample returns with settled tapes. -/
theorem sample_balanced : ∃ f h st, Func.read Sample.text = .ok f ∧
    Diff.secondOrder .builtin f (.param ⟨0⟩) {} = .ok h st ∧
    ∃ vals m, (⟨h, .none, 100⟩ : Job ℚ).run [.real (11 / 10), .real 1] (.new h {}) = .ok vals m ∧
      m.tapes.Settled := by
  obtain ⟨f, -, h, -, st, hf, -, hh, -, ⟨vals, m, hrun⟩, -⟩ := Sample.exists_derivatives
  have hmild (callee : String) (vals : List (Value ℚ)) (w : World ℚ) (e : RunError) (w' : World ℚ)
      (hcall : Externs.none.call callee vals w = .error e w') : e.IsMild := by
    cases hcall
    exact ⟨by simp, by simp⟩
  have hends := derivatives_balanced .builtin (.inl ⟨_, hf⟩) (.inr hh) (j := ⟨h, .none, 100⟩) rfl
    hmild [.real (11 / 10), .real 1] {}
  rw [hrun] at hends
  exact ⟨f, h, st, hf, hh, vals, m, hrun, hends.1⟩

end Backsweep
