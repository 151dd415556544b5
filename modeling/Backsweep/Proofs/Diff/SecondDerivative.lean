import Mathlib
import Backsweep.Proofs.Diff.Balance
import Backsweep.Proofs.Diff.Derivative

/-!
# What second derivatives return

A second derivative is the derivative of a pullback whose own upstream derivative is
fixed, so what derivatives return says what it returns.

* `Job.gradient_renamed`, `Diff.reverse_renamed`: names of functions do not matter;
* `Generation.unbox_clear`: an unboxed pullback leaves empty tapes;
* `Generation.first_value`: a second derivative returns what the pullback does, and more;
* `secondOrder_gradient`: second derivatives return the gradient of the pullback.
-/

namespace Backsweep

variable {input : ActiveInput} {withTapes : Bool} {mode : ReturnMode}

/-! ## Names of functions -/

section
variable {R : Type}

namespace Job

/-- The same job, with another name for its function. -/
def renamed (j : Job R) (name : String) : Job R := { j with func := { j.func with name } }

variable (j : Job R) (name : String)

theorem readAll_renamed (vs : List Var) : (j.renamed name).readAll vs = j.readAll vs := by
  induction vs with
  | nil => rfl
  | cons v vs ih =>
    unfold readAll
    rw [ih]
    rfl

variable [Scalar R]

theorem eval_renamed (e : Expr) : (j.renamed name).eval e = j.eval e := by
  cases e with
  | op op args => rw [eval_op, eval_op, readAll_renamed]
  | call callee args node =>
    rw [eval_call, eval_call, readAll_renamed]
    rfl
  | _ => rfl

theorem atom_renamed {s : Stmt} (hs : s.isControlFlow = false) :
    (j.renamed name).exec s = j.exec s := by
  cases s, hs using Stmt.atomCases with
  | define dst decl e => rw [exec_define, exec_define, eval_renamed]
  | ret vals => rw [exec_ret, exec_ret, readAll_renamed]
  | _ => rfl

/-- The name of a function does not matter when it is run. -/
theorem runSlots_renamed (args : List (Slot R)) :
    (j.renamed name).runSlots args = j.runSlots args := by
  have hbody : (j.renamed name).execBlock j.func.body = j.execBlock j.func.body :=
    execBlock_congr (j := j) (k := j.renamed name) rfl (fun _ => rfl) fun a ha =>
      j.atom_renamed name (blockAtoms_atomic _ a ha)
  funext m
  by_cases hargs : args.length = j.func.params.length
  · rw [j.runSlots_eq m hargs, (j.renamed name).runSlots_eq m hargs]
    exact congrArg Flow.results (congrFun hbody _)
  · rw [j.runSlots_arity m hargs, (j.renamed name).runSlots_arity m hargs]
    rfl

theorem gradient_renamed (args : List (Value R)) (wrt : Wrt) (world : World R) :
    (j.renamed name).gradient args wrt world = j.gradient args wrt world := by
  unfold gradient
  simp only [runSlots_renamed]
  rfl

end Job

end

theorem Func.unbox_renamed (g : Func) (name : String) (one : Float) :
    ({ g with name } : Func).unbox one = { g.unbox one with name := name ++ ".unboxed" } := by
  unfold Func.unbox
  dsimp only
  cases g.params.getLast? <;> rfl

/-- The name of a derivative does not matter when it is generated. -/
theorem Diff.reverse_renamed {c : Catalogue} {f g : Func} {name : String} {st st' : Session}
    (h : reverse c f input withTapes mode name st = .ok g st') (name' : String) :
    ∃ st'', reverse c f input withTapes mode name' st = .ok { g with name := name' } st'' := by
  unfold reverse at h ⊢
  split at h
  · obtain ⟨_, _, hthrow, -⟩ := bind_eq_ok.mp h
    cases hthrow
  · rename_i hvalid
    rw [if_neg hvalid]
    dsimp only at h ⊢
    simp only [bind_eq_ok] at h ⊢
    obtain ⟨a₁, s₁, h₁, a₂, s₂, h₂, a₃, s₃, h₃, a₄, s₄, h₄, a₅, s₅, h₅, a₆, s₆, h₆, a₇, s₇, h₇, a₈, s₈,
      h₈, a₉, s₉, h₉, h⟩ := h
    obtain ⟨hgen, rfl⟩ := ofExcept_eq_ok.mp h₈
    cases h
    have hgen' : (⟨f, a₅, a₇.context.zero⟩ : Sweep).generate a₄ mode name' =
        .ok { g with name := name' } := by
      unfold Sweep.generate at hgen ⊢
      obtain ⟨⟨body, locals⟩, hbody, hpure⟩ := except_bind_eq_ok.mp hgen
      cases hpure
      exact except_bind_eq_ok.mpr ⟨_, hbody, rfl⟩
    exact ⟨_, a₁, s₁, h₁, a₂, s₂, h₂, a₃, s₃, h₃, a₄, s₄, h₄, a₅, s₅, h₅, a₆, s₆, h₆, a₇, s₈, h₇, _, s₈,
      ofExcept_eq_ok.mpr ⟨hgen', rfl⟩, _, _, rfl, rfl⟩

/-! ## Unboxed pullbacks -/

namespace Generation

variable {c : Catalogue} {f g h : Func} {v : Var} {one : Float}

/-- Nothing is called by an unboxed pullback, if neither the function nor the rules
call anything. -/
theorem unbox_callsNothing (d : Generation c f input false .derivative g) (hc : c.Sound)
    (hrules : ¬∃ n ∈ c.nodes, n.Calls) (hcalls : f.CallsNothing) : (g.unbox one).CallsNothing := by
  intro a ha
  rcases d.unbox_atoms one ha with rfl | ha | ha | ha | rfl
  · rfl
  · rcases forward_atoms ha with ha | ⟨w, rfl⟩ | ⟨k, rfl⟩
    · exact hcalls a (d.source_atoms ha)
    · rfl
    · rfl
  · obtain ⟨dst, e, rfl, -, hcall⟩ := d.inits_atoms ha
    cases e with
    | call callee args node => exact absurd rfl (hcall callee args node)
    | _ => rfl
  · have hrev := (emitted (d := d) hc).atoms a ha
    cases a with
    | define dst decl e =>
      cases e with
      | call callee args node => exact absurd (hrev.2.2.2.2 callee args node rfl) hrules
      | _ => rfl
    | _ => rfl
  · rfl

variable {R : Type} [Scalar R] {j : Job R}
variable {m n : Machine R}

/-- The steps of an unboxed pullback leave empty tapes. -/
theorem unbox_clear (d : Generation c f (.param v) false .derivative g)
    (d₂ : Generation c (g.unbox one) (.param v) true .valueAndDerivative h) (hc : c.Sound)
    (hf : f.Tabled) (hsize : g.vars.size ≤ m.vars.size) (hempty : ∀ t, m.stack t = [])
    (hexec : j.execBlock (stepsSource d₂.plan.body.2) m = .ok .next n) (t : Tape) :
    n.stack t = [] := by
  let slot : Slot R := { value := .ofConst (.real one) }
  have heval : j.eval (.const (.real one)) m = .ok slot m := rfl
  rw [(d.unbox_source d₂).1, j.execBlock_define_ok heval] at hexec
  have hany : Tolerant (fun _ => True) j.externs := ⟨fun _ _ => trivial, fun _ _ _ _ _ _ => trivial⟩
  have hempty' (t : Tape) : (m.setVar d.upstream slot).stack t = [] := by
    rw [Machine.stack_setVar, hempty]
  have hend := d.sections_end hc hf d.oneTape_of_tapeless hany (m := m.setVar d.upstream slot)
    (by rwa [Machine.size_setVar])
    (Machine.var_setVar_self _ _ _ (Nat.lt_of_lt_of_le (d.upstream_lt hc) hsize)) hempty'
    (fun _ _ _ => trivial) fun m₁ hfwd t ht => d.first_clear hc hf hempty' hfwd ht
  exact (hend.of_ok hexec).2.1 t

theorem sections_next (d : Generation c f input withTapes mode g) (hc : c.Sound) (j : Job R)
    (m : Machine R) :
    Ends (j.execBlock (d.forward ++ (d.inits ++ d.code)) m) (fun flow _ => flow = .next)
      (fun _ _ => True) := by
  apply j.execBlock_next
  intro vals ha
  simp only [blockAtoms_append, List.mem_append] at ha
  rcases ha with ha | ha | ha
  · rcases forward_atoms ha with ha | ⟨v, hv⟩ | ⟨i, hi⟩
    · exact d.fine.fine.no_ret vals ha
    · cases hv
    · cases hi
  · obtain ⟨dst, e, heq, -⟩ := d.inits_atoms ha
    cases heq
  · exact (emitted (d := d) hc).atoms _ ha

/-- What a derivative returned, it read behind both of its sections. -/
theorem returned (d : Generation c f input withTapes mode g) (hc : c.Sound) (hj : j.func = g)
    {args slots : List (Slot R)} (h : j.runSlots args m = .ok slots n) :
    j.execBlock (d.forward ++ (d.inits ++ d.code)) (m.enter g.params args) = .ok .next n ∧
      (d.plan.results d.acc mode).map n.var = slots.map some := by
  have hargs := j.runSlots_args m h
  rw [hj] at hargs
  have hnext : Ends (j.execBlock (d.forward ++ (d.inits ++ d.code)) (m.enter g.params args))
      (fun flow n => flow = .next ∧
        j.execBlock (d.forward ++ (d.inits ++ d.code)) (m.enter g.params args) = .ok .next n)
      (fun _ _ => True) :=
    (d.sections_next hc j (m.enter g.params args)).known.mono (fun flow n h => ⟨h.2, h.2 ▸ h.1⟩)
      fun _ _ _ => trivial
  obtain ⟨hexec, hread⟩ := (d.runSlots_ends hj hargs hnext).of_ok h
  exact ⟨hexec, ((j.readAll_eq_ok n).mp hread).1⟩

omit [Scalar R] in
/-- A second derivative starts as the unboxed pullback does, and has an upstream derivative of
its own. -/
theorem entered_agree (d : Generation c f input false .derivative g)
    (d₂ : Generation c (g.unbox one) input true .valueAndDerivative h) (hc : c.Sound)
    (hf : f.Tabled) (world : World R) {args : List (Value R)} (u : Value R)
    (hargs : args.length = f.params.length) : Agree (d₂.window false)
      ((Machine.new g world).enter f.params (args.map ({ value := · })))
      (h.entered world (args ++ [u])) := by
  have hnew : Agree (d₂.window false) (Machine.new g world) (.new h world) := by
    refine Agree.new (fun v hv => ?_) (fun v hv => Nat.lt_of_lt_of_le hv (d₂.vars_le hc)) world
    rw [d.vars, ← d.unbox_vars one]
    exact hv
  have hslots : (args.map ({ value := · } : Value R → Slot R)).map (d₂.window false).slot =
      args.map ({ value := · }) :=
    (List.map_congr_left fun s _ => Window.slot_keep rfl s).trans (List.map_id _)
  have henter := hnew.enter (d.unbox_tabled one hc hf).params (args.map ({ value := · }))
  rw [hslots, d.unbox_params] at henter
  rw [d₂.entered_append world (by rw [d.unbox_params, hargs]), d.unbox_params]
  apply henter.setHidden
  intro hlt
  have hlt : d₂.upstream.idx < (g.unbox one).vars.size := hlt
  rw [d₂.upstream_eq] at hlt
  exact Nat.lt_irrefl _ hlt

/-- The forward section of a second derivative runs the pullback that it was made from, and
the reverse section leaves its result alone. -/
theorem first_value (d : Generation c f input false .derivative g)
    (d₂ : Generation c (g.unbox one) input true .valueAndDerivative h) (hc : c.Sound)
    (hf : f.Tabled) (hlevel : d₂.level.val ≠ d.level.val) {x : Externs R} {limit limit' : Nat}
    {args : List (Value R)} {u : Value R} {world : World R} {slots slots' : List (Slot R)}
    (hg : (⟨g, x, limit⟩ : Job R).runSlots
      ((args ++ [Value.ofConst (.real one)]).map ({ value := · })) (.new g world) = .ok slots m)
    (hh : (⟨h, x, limit'⟩ : Job R).runSlots ((args ++ [u]).map ({ value := · })) (.new h world) =
      .ok slots' n) : ∃ s s', slots = [s] ∧ slots' = [s, s'] := by
  obtain ⟨hexec, hread⟩ := d.returned hc rfl hg
  obtain ⟨hexec', hread'⟩ := d₂.returned hc rfl hh
  have htabled := d.unbox_tabled one hc hf
  have hargs : args.length = f.params.length := by
    have harity := Job.runSlots_args _ _ hg
    simpa [d.params] using harity
  obtain ⟨hsource, hret⟩ := d.unbox_source d₂
  -- the pullback starts where its unboxed form has set the upstream derivative
  have hstart : (⟨g, x, limit⟩ : Job R).execBlock (stepsSource d₂.plan.body.2)
      ((Machine.new g world).enter f.params (args.map ({ value := · }))) = .ok .next m := by
    have heval (m : Machine R) : (⟨g, x, limit⟩ : Job R).eval (.const (.real one)) m =
        .ok { value := .ofConst (.real one) } m := rfl
    rw [hsource, Job.execBlock_define_ok _ (heval _), ← d.entered_append world hargs]
    exact hexec
  obtain ⟨n₁, hforward, hreverse⟩ := (Job.execBlock_append_eq_next _).mp hexec'
  have htwins : Twins True (⟨g, x, limit⟩ : Job R) ⟨h, x, limit'⟩ := ⟨rfl, .inr trivial⟩
  have hstep := (forward_inStep htabled (oneTape_of_unbox hc hlevel) htwins).ends _ _
    (d.entered_agree d₂ hc hf world u hargs)
  change (⟨h, x, limit'⟩ : Job R).execBlock d₂.forward (h.entered world (args ++ [u])) = _
    at hforward
  rw [hstart, hforward] at hstep
  have hkept : n.var d.acc = m.var d.acc := by
    have hlt := d₂.ret_lt htabled
    rw [hret] at hlt
    rw [d₂.reverse_var hc hreverse (Nat.le_of_lt hlt), hstep.2.var _ hlt]
    cases m.var d.acc with
    | none => rfl
    | some s => exact congrArg some (Window.slot_keep rfl s)
  obtain ⟨s, rfl⟩ : ∃ s, slots = [s] :=
    List.length_eq_one_iff.mp (by simpa [Plan.results] using (congrArg List.length hread).symm)
  obtain ⟨s₁, s', rfl⟩ : ∃ s₁ s', slots' = [s₁, s'] :=
    List.length_eq_two.mp (by simpa [Plan.results] using (congrArg List.length hread').symm)
  simp only [Plan.results, hret, List.map_cons, List.cons.injEq] at hread hread'
  rw [hkept, hread.1] at hread'
  cases hread'.1
  exact ⟨s, s', rfl, rfl⟩

end Generation

/-! ## Second derivatives -/

section
variable {R : Type} [Field R] [LawfulScalar R]

/-- **A second derivative returns the derivative, and the upstream derivative times
its gradient.** Whatever the arguments, the records and the upstream derivative are:
where the gradient of the pullback with its own upstream derivative fixed exists, the
second derivative returns what the pullback does and the upstream derivative times
that gradient, unless it runs into its step limit. -/
theorem secondOrder_gradient {f h : Func} {v : Var} {i : Nat} {st st' : Session} (hf : f.IsRead)
    (hcalls : f.CallsNothing) (hv : f.params[i]? = some v) (hzero : st.context.zero = 0.0)
    (hh : Diff.secondOrder .builtin f (.param v) st = .ok h st') :
    ∃ g st₁, Diff.pullback .builtin f (.param v) st = .ok g st₁ ∧
      ∀ (x : Externs R) (limit limit' : Nat) (args : List (Value R)) (world w : World R)
        (r : Gradient R) (u : R),
        (⟨g.unbox st.context.one, x, limit⟩ : Job R).gradient args (.param i) world = .ok r w →
        Ends ((⟨h, x, limit'⟩ : Job R).run (args ++ [.real u]) (.new h world))
          (fun vals m => vals = [.real r.value, .real (u * r.derivative)] ∧ m.world = w)
          (fun e _ => e = .stepLimit) := by
  have hc := Catalogue.IsBuilt.builtin.sound
  obtain ⟨g, d, d₂, hlevel, -, hdzero, st₁, hfirst⟩ := Diff.secondOrder_eq_ok hc hh
  obtain ⟨st₂, hg⟩ := Diff.reverse_renamed hfirst (f.name ++ ".pullback")
  refine ⟨_, st₂, hg, fun x limit limit' args world w r u hr => ?_⟩
  have hlit : Scalar.lit d₂.zero = (0 : R) := by
    rw [hdzero, hzero]
    exact LawfulScalar.lit_zero
  rw [Func.unbox_renamed] at hr
  have hr : (⟨g.unbox st.context.one, x, limit⟩ : Job R).gradient args (.param i) world = .ok r w :=
    ((⟨g.unbox st.context.one, x, limit⟩ : Job R).gradient_renamed _ args (.param i) world).symm.trans hr
  have hparams : (g.unbox st.context.one).params[i]? = some v := by
    rw [d.unbox_params]
    exact hv
  refine (Generation.derivative_run rfl (d.unbox_tabled _ hc hf.tabled)
    (Generation.oneTape_of_unbox hc hlevel) (d.unbox_callsNothing hc builtin_calls hcalls)
    (List.mem_of_getElem? hparams) hlit
    (fun slots G hseed => d₂.seeded_param hc (d.unbox_tabled _ hc hf.tabled) hparams hseed)
    ?_ hr u limit').2
  intro slots G m slot hprimal t _
  refine d.unbox_clear d₂ hc hf.tabled ?_ (fun t => ?_) hprimal.run t
  · rw [Machine.size_enter, Func.recordingOn]
    simp [Machine.new, d.unbox_vars, d.vars]
  · rw [Machine.stack_enter]
    rfl

end

/-- The second derivative of the sample returns the gradient of its pullback at
`11 / 10`. -/
theorem sample_secondOrder_gradient : ∃ f g h st st', Func.read Sample.text = .ok f ∧
    Diff.pullback .builtin f (.param ⟨0⟩) {} = .ok g st ∧
    Diff.secondOrder .builtin f (.param ⟨0⟩) {} = .ok h st' ∧
    ∃ (r : Gradient ℚ) (w : World ℚ) (m : Machine ℚ),
      (⟨g.unbox 1.0, .none, 100⟩ : Job ℚ).gradient [.real (11 / 10)] (.param 0) {} = .ok r w ∧
      (⟨h, .none, 100⟩ : Job ℚ).run [.real (11 / 10), .real 1] (.new h {}) =
        .ok [.real r.value, .real (1 * r.derivative)] m := by
  obtain ⟨f, g, h, st, st', hf, hg, hh, -, ⟨vals, m, hrun⟩, -, r, w, hr⟩ :=
    Sample.exists_derivatives
  obtain ⟨hcalls, hv⟩ := Sample.callsNothing hf
  obtain ⟨g', st₁, hg', hall⟩ :=
    secondOrder_gradient (R := ℚ) (.inl ⟨_, hf⟩) hcalls hv rfl hh
  rw [hg] at hg'
  cases hg'
  have hends : Ends ((⟨h, .none, 100⟩ : Job ℚ).run [.real (11 / 10), .real 1] (.new h {}))
      (fun vals m => vals = [.real r.value, .real (1 * r.derivative)] ∧ m.world = w)
      (fun e _ => e = .stepLimit) := hall .none 100 100 [.real (11 / 10)] {} w r 1 hr
  rw [hrun] at hends
  obtain ⟨rfl, -⟩ := hends
  exact ⟨f, g, h, st, st', hf, hg, hh, r, w, m, hr, hrun⟩

end Backsweep
