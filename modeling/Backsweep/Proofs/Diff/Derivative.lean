import Mathlib
import Backsweep.Proofs.Diff.Gradient

/-!
# What derivatives return

A derivative returns the upstream derivative times the gradient that the graph
gives. The proof runs three machines: the one that the gradient is taken on, one
that runs the forward section of the derivative and records the same graph, and the
one that the derivative runs on, which records nothing.

* `Generation.Primal`: what a gradient tells of the function;
* `Generation.Primal.forward`: the forward section computes what the function does;
* `Generation.Primal.sections`: both sections compute the value and the derivative;
* `pullback_gradient`: pullbacks return the gradient.
-/

namespace Backsweep

variable {tape : Tape}

/-- What a derivative returns, given the value and the derivative. -/
def ReturnMode.answers {R : Type} (value derivative : R) : ReturnMode → List (Value R)
  | .derivative => [.real derivative]
  | .valueAndDerivative => [.real value, .real derivative]

namespace Generation

variable {c : Catalogue} {f g : Func} {input : ActiveInput} {withTapes : Bool} {mode : ReturnMode}
  {d : Generation c f input withTapes mode g}

/-! ## The three machines -/

section
variable {R : Type}

/-- Where the derivative would start if it recorded a graph. -/
def recorded (d : Generation c f input withTapes mode g) (world : World R)
    (slots : List (Slot R)) (G : Graph R) (u : R) : Machine R :=
  ((g.recordingOn world G).enter f.params slots).setVar d.upstream { value := .real u }

/-- Everything but the graph. -/
def erasing (g : Func) : Window where
  erase := true
  var w := w.idx < g.vars.size
  tape _ := True

theorem upstream_lt (d : Generation c f input withTapes mode g) (hc : c.Sound) :
    d.upstream.idx < g.vars.size := by
  have hgrown := (emitted (d := d) hc).le.size
  have hlocals := d.locals_size
  rw [d.upstream_eq, d.vars]
  simp only
  omega

theorem vars_le (d : Generation c f input withTapes mode g) (hc : c.Sound) :
    f.vars.size ≤ g.vars.size := by
  rw [d.vars]
  exact (d.vars_extend hc).size

variable {world : World R} {args : List (Value R)} {slots : List (Slot R)} {G : Graph R} {u : R}

theorem size_recorded (d : Generation c f input withTapes mode g) :
    (d.recorded world slots G u).vars.size = g.vars.size := by
  simp [recorded, Func.recordingOn, Machine.new]

/-- The upstream derivative is not the input. -/
theorem seeded_recorded (d : Generation c f input withTapes mode g) (hf : f.Tabled)
    (hv : input.var ∈ f.params)
    (h : ((g.recordingOn world G).enter f.params slots).Seeded f input) :
    (d.recorded world slots G u).Seeded f input := by
  refine h.setVar (fun heq => ?_) rfl (by simp)
  have hlt := hf.params _ hv
  rw [← heq, d.upstream_eq] at hlt
  exact Nat.lt_irrefl _ hlt

/-- A gradient by a parameter starts on its seed. -/
theorem seeded_param {v : Var} {i : Nat} (d : Generation c f (.param v) withTapes mode g)
    (hc : c.Sound) (hf : f.Tabled) (hv : f.params[i]? = some v)
    (hseed : (Wrt.param i).seed args world.heap = .ok (slots, G)) :
    ((g.recordingOn world G).enter f.params slots).Seeded f (.param v) := by
  obtain ⟨x, harg, rfl, rfl⟩ := Wrt.seed_param hseed
  exact f.seeded_recording g world (List.nodup_append.mp (f.nodup_of_isValid d.valid)).1
    (fun w hw => Nat.lt_of_lt_of_le (hf.params w hw) (d.vars_le hc)) hv harg

/-- The function and the forward section start alike. -/
theorem agree_recorded (d : Generation c f input withTapes mode g) (hc : c.Sound)
    (hf : f.Tabled) : Agree (d.window false)
      ((f.recordingOn world G).enter f.params slots) (d.recorded world slots G u) := by
  have hnew : Agree (d.window false) (f.recordingOn world G) (g.recordingOn world G) :=
    (Agree.new (fun w hw => hw) (fun w hw => Nat.lt_of_lt_of_le hw (d.vars_le hc)) world).recordBoth
      rfl (some G)
  have henter := hnew.enter hf.params slots
  have hslots : slots.map (d.window false).slot = slots :=
    (List.map_congr_left fun s _ => Window.slot_keep rfl s).trans (List.map_id _)
  rw [hslots] at henter
  refine henter.setHidden (fun h => ?_) _
  have hlt : d.upstream.idx < f.vars.size := h
  rw [d.upstream_eq] at hlt
  exact Nat.lt_irrefl _ hlt

theorem slots_erased (w : Window) (hw : w.erase = true) (hslots : Slot.values slots = args) :
    slots.map w.slot = args.map ({ value := · }) := by
  rw [← hslots, Slot.values_eq_map, List.map_map]
  exact List.map_congr_left fun s _ => if_pos hw

theorem entered_append (d : Generation c f input withTapes mode g) (world : World R)
    (hargs : args.length = f.params.length) {u : Value R} : g.entered world (args ++ [u]) =
      ((Machine.new g world).enter f.params (args.map ({ value := · }))).setVar d.upstream
        { value := u } := by
  rw [Func.entered, d.params, List.map_append, List.map_singleton,
    Machine.enter_append (by simpa using hargs.symm)]

/-- The derivative starts alike. -/
theorem agree_entered (d : Generation c f input withTapes mode g) (hc : c.Sound)
    (hf : f.Tabled) (hargs : args.length = f.params.length) (hslots : Slot.values slots = args) :
    Agree (erasing g) (d.recorded world slots G u) (g.entered world (args ++ [.real u])) := by
  have hnew : Agree (erasing g) (g.recordingOn world G) (.new g world) :=
    (Agree.new (fun w hw => hw) (fun w hw => hw) world).recordLeft rfl (some G)
  have henter := hnew.enter (fun w hw => Nat.lt_of_lt_of_le (hf.params w hw) (d.vars_le hc)) slots
  rw [slots_erased (erasing g) rfl hslots] at henter
  rw [d.entered_append world hargs]
  exact henter.setVar (d.upstream_lt hc) { value := .real u }

end

/-- The forward section mentions variables of the derivative only. -/
theorem forward_erasing (d : Generation c f input withTapes mode g) (hc : c.Sound)
    (hf : f.Tabled) (hcalls : f.CallsNothing) : blockWithin (erasing g) d.forward := by
  have hle := d.vars_le hc
  have hscoped := f.scoped_of_isValid d.valid
  have hbody := d.source_eq
  have hshows : (erasing g).Shows f.body :=
    ⟨fun w hw => Nat.lt_of_lt_of_le (hf.decls w hw) hle, fun _ _ => trivial,
      fun _ => hcalls.not_mem⟩
  rw [hbody, blockScoped_append] at hscoped
  refine Level.forwardSteps_within trivial trivial (hscoped.1.within
    (hshows.of_subset d.source_atoms) fun w hw => ?_)
  exact Nat.lt_of_lt_of_le (hf.params w (List.mem_toFinset.mp hw)) hle

/-! ## Frames of the reverse section -/

/-- The atomic statements that start the accumulators. -/
theorem inits_atoms (d : Generation c f input withTapes mode g) {a : Stmt}
    (ha : a ∈ blockAtoms d.inits) : ∃ dst e, a = .define dst true e ∧ f.vars.size < dst.idx ∧
      ∀ callee args node, e ≠ .call callee args node := by
  have hinit (w : Var) (callee : String) (args : List Var) (node : Option String) :
      d.sweep.rootInit d.plan d.upstream w ≠ .call callee args node := by
    unfold Sweep.rootInit
    split <;> simp [Sweep.zeroExpr]
  have hinput (callee : String) (args : List Var) (node : Option String) :
      d.sweep.inputInit d.plan d.upstream ≠ .call callee args node := by
    unfold Sweep.inputInit
    split
    · exact hinit _ callee args node
    · simp [Sweep.zeroExpr]
  rw [d.inits_eq, mem_blockAtoms] at ha
  obtain ⟨s, hs, ha⟩ := ha
  rcases List.mem_cons.mp hs with rfl | hs
  · obtain rfl := List.mem_singleton.mp ha
    exact ⟨_, _, rfl, by rw [d.acc_eq]; exact Nat.lt_succ_self _, hinput⟩
  · obtain ⟨p, hp, rfl⟩ := List.mem_map.mp hs
    obtain rfl := List.mem_singleton.mp ha
    have hfresh := (mem_freshVars.mp (List.of_mem_zip hp).2).1
    exact ⟨_, _, rfl, by omega, hinit _⟩

section
variable {R : Type} [Scalar R] {j : Job R} {m m' : Machine R}

/-- The reverse section changes variables of its own only. -/
theorem reverse_var (d : Generation c f input withTapes mode g) (hc : c.Sound)
    (h : j.execBlock (d.inits ++ d.code) m = .ok .next m') {w : Var} (hw : w.idx ≤ f.vars.size) :
    m'.var w = m.var w := by
  have hframe : BlockFrame (fun x => x.idx ≤ f.vars.size) (fun _ => False) m m' := by
    refine (j.execBlock_frame (fun x decl e hx ha => ?_) (fun _ h => h.elim) m).of_ok h
    rw [blockAtoms_append, List.mem_append] at ha
    rcases ha with ha | ha
    · obtain ⟨dst, _, heq, hlt, -⟩ := d.inits_atoms ha
      cases heq
      omega
    · have hbase : f.vars.size + 1 ≤ x.idx := ((emitted (d := d) hc).atoms _ ha).1
      omega
  exact hframe.vars w hw

/-- The reverse section leaves the records alone if the rules call nothing. -/
theorem reverse_world (d : Generation c f input withTapes mode g) (hc : c.Sound)
    (hrules : ¬∃ n ∈ c.nodes, n.Calls)
    (h : j.execBlock (d.inits ++ d.code) m = .ok .next m') : m'.world = m.world := by
  refine (j.execBlock_world (fun a ha => ?_) m).of_ok h
  rw [blockAtoms_append, List.mem_append] at ha
  rcases ha with ha | ha
  · obtain ⟨dst, e, rfl, -, hcall⟩ := d.inits_atoms ha
    exact hcall
  · have hrev := (emitted (d := d) hc).atoms a ha
    cases a with
    | define dst decl e =>
      exact fun callee args node he => hrules (hrev.2.2.2.2 callee args node he)
    | store obj field val => exact hrev.elim
    | _ => trivial

end

theorem ret_lt (d : Generation c f input withTapes mode g) (hf : f.Tabled) :
    d.plan.ret.idx < f.vars.size := by
  have hbody := d.source_eq
  have hret := d.ret_mem
  rw [blockScope, Finset.mem_union, List.mem_toFinset, List.mem_toFinset] at hret
  rcases hret with hret | hret
  · exact hf.params _ hret
  · exact hf.decls _ (allDecls_subset d.source_atoms (blockDecls_subset _ hret))

/-! ## Runs -/

section
variable {R : Type} [Field R] [LawfulScalar R] {x : Externs R} {limit limit' : Nat}
  {args : List (Value R)} {slots : List (Slot R)} {G : Graph R} {world w : World R}
  {r : Gradient R} {u : R}

/-- What a gradient tells of the body up to its return. -/
structure Primal (d : Generation c f input withTapes mode g) (x : Externs R) (limit : Nat)
    (args : List (Value R)) (world : World R) (r : Gradient R) (slots : List (Slot R)) (G : Graph R)
    (m : Machine R) (slot : Slot R) : Prop where
  given : Slot.values slots = args
  arity : args.length = f.params.length
  run : (⟨f, x, limit⟩ : Job R).execBlock (stepsSource d.plan.body.2)
    ((f.recordingOn world G).enter f.params slots) = .ok .next m
  result : m.var d.plan.ret = some slot
  gradient : Gradient.ofResult [slot] m.graph = .ok r

theorem primal_of_gradient (d : Generation c f input withTapes mode g)
    {wrt : Wrt} (h : (⟨f, x, limit⟩ : Job R).gradient args wrt world = .ok r w) :
    ∃ slots G m slot, wrt.seed args world.heap = .ok (slots, G) ∧
      d.Primal x limit args world r slots G m slot ∧ w = m.world := by
  obtain ⟨slots, G, vals, m, hseed, hrun, hresult, hw⟩ := Job.gradient_eq_ok h
  have hgiven := Wrt.seed_values hseed
  have hslots : slots.length = f.params.length := Job.runSlots_args _ _ hrun
  have hargs : args.length = f.params.length := by
    rw [← hgiven, Slot.values_eq_map, List.length_map, hslots]
  have hbody := d.source_eq
  rw [Job.runSlots_eq _ _ hslots] at hrun
  change Flow.results ((⟨f, x, limit⟩ : Job R).execBlock f.body _) = _ at hrun
  rw [hbody] at hrun
  cases hexec : (⟨f, x, limit⟩ : Job R).execBlock (stepsSource d.plan.body.2)
      ((f.recordingOn world G).enter f.params slots) with
  | error e m₁ =>
    rw [Job.execBlock_append, bind_error hexec] at hrun
    cases hrun
  | ok flow m₁ =>
    obtain rfl := (Job.execBlock_next _ (fun vals => d.fine.fine.no_ret vals) _).of_ok hexec
    rw [Job.execBlock_append_next _ hexec, Job.execBlock_singleton, Job.exec_ret, bind_apply] at hrun
    cases hread : (⟨f, x, limit⟩ : Job R).readAll [d.plan.ret] m₁ with
    | error e m₂ =>
      rw [hread] at hrun
      cases hrun
    | ok results m₂ =>
      rw [hread] at hrun
      cases hrun
      obtain ⟨hresults, rfl⟩ := (Job.readAll_eq_ok _ _).mp hread
      obtain ⟨slot, rfl⟩ : ∃ slot, vals = [slot] := by
        rw [← List.length_eq_one_iff]
        simpa using (congrArg List.length hresults).symm
      exact ⟨slots, G, m, slot, hseed,
        ⟨hgiven, hargs, hexec, by simpa using hresults, hresult⟩, hw⟩

variable {slot : Slot R}

/-- Without tapes of its own, the function leaves empty ones. -/
theorem Primal.clear {d : Generation c f input false mode g} {m : Machine R}
    (h : d.Primal x limit args world r slots G m slot) (t : Tape) : m.stack t = [] := by
  have htape : t ∉ blockTapes (stepsSource d.plan.body.2) := by
    intro hmem
    obtain ⟨a, ha, hta⟩ := (mem_blockTapes _).mp hmem
    exact d.closed.tapeless t ((mem_blockTapes _).mpr ⟨a, d.source_atoms ha, hta⟩)
  rw [execBlock_stack htape h.run, Machine.stack_enter]
  rfl

/-- The tangent of the result is the derivative. -/
theorem Primal.derivative {d : Generation c f input withTapes mode g} {m : Machine R}
    (h : d.Primal x limit args world r slots G m slot) {G' : Graph R} (hgraph : m.graph = some G')
    (hG : G'.Ordered) : r.derivative = m.tangent G' d.plan.ret := by
  rw [Machine.tangent_some h.result]
  exact Gradient.ofResult_derivative hG (hgraph ▸ h.gradient)

/-- The forward section of a derivative behind the function: a machine `n` that
records its graph, and the machine `k` of the derivative, which records nothing. -/
structure Passed (d : Generation c f input withTapes mode g) (j : Job R)
    (start start' m n k : Machine R) : Prop where
  run : j.execBlock d.forward start = .ok .next n
  plainRun : j.execBlock d.forward start' = .ok .next k
  source : Agree (d.window false) m n
  plain : Agree (erasing g) n k

/-- **The forward section computes what the function does.** -/
theorem Primal.forward {d : Generation c f input withTapes mode g} {m : Machine R}
    (h : d.Primal x limit args world r slots G m slot) (hc : c.Sound) (hf : f.Tabled)
    (ht : d.OneTape tape) (hcalls : f.CallsNothing) (u : R) (limit' : Nat) :
    Ends ((⟨g, x, limit'⟩ : Job R).execBlock d.forward (g.entered world (args ++ [.real u])))
      (fun flow k => flow = .next ∧
        ∃ n, d.Passed ⟨g, x, limit'⟩ (d.recorded world slots G u)
          (g.entered world (args ++ [.real u])) m n k)
      (fun e _ => e = .stepLimit) := by
  have hcut : Twins True (⟨f, x, limit⟩ : Job R) ⟨g, x, limit'⟩ := ⟨rfl, .inr trivial⟩
  have hself : Twins False (⟨g, x, limit'⟩ : Job R) ⟨g, x, limit'⟩ := ⟨rfl, .inl rfl⟩
  have hrecorded : Agree (d.window false) ((f.recordingOn world G).enter f.params slots)
      (d.recorded world slots G u) := d.agree_recorded hc hf
  have hentered : Agree (erasing g) (d.recorded world slots G u)
      (g.entered world (args ++ [.real u])) := d.agree_entered hc hf h.arity h.given
  have hsource := (forward_inStep hf ht hcut).ends _ _ hrecorded
  rw [h.run] at hsource
  have hplain := (hself.execBlock (d.forward_erasing hc hf hcalls)).ends _ _ hentered
  cases hn : (⟨g, x, limit'⟩ : Job R).execBlock d.forward (d.recorded world slots G u) with
  | error e n =>
    rw [hn] at hsource hplain
    obtain rfl : e = .stepLimit := hsource.2
    cases hk : (⟨g, x, limit'⟩ : Job R).execBlock d.forward (g.entered world (args ++ [.real u])) with
    | error e' k =>
      rw [hk] at hplain
      obtain ⟨he | ⟨a, b, ha, -⟩, -⟩ | ⟨hfalse, -⟩ := hplain
      · exact he
      · cases ha
      · exact hfalse.elim
    | ok flow k =>
      rw [hk] at hplain
      exact hplain.1.elim
  | ok flow n =>
    obtain rfl := (forward_next d _ _).of_ok hn
    rw [hn] at hsource hplain
    cases hk : (⟨g, x, limit'⟩ : Job R).execBlock d.forward (g.entered world (args ++ [.real u])) with
    | error e' k =>
      rw [hk] at hplain
      exact hplain.1.elim
    | ok flow k =>
      rw [hk] at hplain
      obtain rfl := (forward_next d _ _).of_ok hk
      exact ⟨rfl, n, hn, hk, hsource.2, hplain.2⟩

section
variable {d : Generation c f input withTapes mode g} {j : Job R} {m n k : Machine R}

/-- The tape of active values is empty behind the forward section if it is so
behind the function. -/
theorem Passed.carried {start start' : Machine R} (h : d.Passed j start start' m n k) (hc : c.Sound)
    (hf : f.Tabled) (ht : d.OneTape tape) (hclear : ∀ t, t.level ≠ d.level.val → m.stack t = []) :
    (d.setting hc hf ht).carried n = [] := by
  unfold Setting.carried
  split
  · rename_i hact
    have hlevel := (d.setting hc hf ht).tape_apart hact
    rw [h.source.stack _ hlevel, hclear _ hlevel]
    rfl
  · rfl

theorem Passed.adjoints {start start' : Machine R} (h : d.Passed j start start' m n k)
    (hc : c.Sound) (hf : f.Tabled) (ht : d.OneTape tape)
    (hempty : start'.stack d.level.adjoints = []) : k.stack d.level.adjoints = [] := by
  rw [← hempty]
  exact congrArg TapeCell.stack ((forward_frame hc hf ht h.plainRun).tapes _
    ⟨fun hmem => ht.apart _ hmem rfl, (by intro h; cases h), (by intro h; cases h)⟩)

/-- The machine of the derivative tracks the one that records. -/
theorem Passed.tracks (h : d.Passed j (d.recorded world slots G u)
      (g.entered world (args ++ [.real u])) m n k) (hc : c.Sound) (hf : f.Tabled)
    (ht : d.OneTape tape) (hclear : ∀ t, t.level ≠ d.level.val → m.stack t = []) (D : Finset Var) :
    Tracks (d.setting hc hf ht) D n k where
  size := by
    rw [(forward_frame hc hf ht h.plainRun).size, (forward_frame hc hf ht h.run).size,
      Func.size_entered, d.size_recorded]
  values := by
    rw [Machine.content, h.plain.stack _ trivial, List.map_map]
    exact List.map_congr_left fun s _ => Window.value_slot _ s
  decisions := by
    rw [Machine.content, h.plain.stack _ trivial, List.map_map]
    exact List.map_congr_left fun s _ => Window.value_slot _ s
  adjoints := by
    rw [h.carried hc hf ht hclear]
    exact congrArg List.length (h.adjoints hc hf ht (Func.stack_entered _ _ _ _))
  owned w _ ho := by
    have hlt : w.idx < f.vars.size := (d.setting hc hf ht).owned_lt ho
    rw [h.plain.var w (Nat.lt_of_lt_of_le hlt (d.vars_le hc)), Option.map_map]
    cases n.var w with
    | none => rfl
    | some s => exact congrArg some (Window.value_slot _ s)

end

/-- **Both sections of a derivative compute the value and the derivative.** -/
theorem Primal.sections {d : Generation c f input withTapes mode g} {m : Machine R}
    (h : d.Primal x limit args world r slots G m slot) (hc : c = Catalogue.builtin) (hf : f.Tabled)
    (ht : d.OneTape tape) (hcalls : f.CallsNothing) (hv : input.var ∈ f.params)
    (hstart : ((g.recordingOn world G).enter f.params slots).Seeded f input)
    (hzero : Scalar.lit d.zero = (0 : R)) (hclear : ∀ t, t.level ≠ d.level.val → m.stack t = [])
    (u : R) (limit' : Nat) :
    Ends ((⟨g, x, limit'⟩ : Job R).execBlock (d.forward ++ (d.inits ++ d.code))
        (g.entered world (args ++ [.real u])))
      (fun flow n => flow = .next ∧ n.Real d.acc (u * r.derivative) ∧
        n.Real d.plan.ret r.value ∧ n.world = m.world)
      (fun e _ => e = .stepLimit) := by
  have hcat := hc
  have hrules : ¬∃ n ∈ c.nodes, n.Calls := hc ▸ builtin_calls
  replace hc : c.Sound := hc ▸ Catalogue.IsBuilt.builtin.sound
  have hforward := h.forward hc hf ht hcalls u limit'
  cases hk : (⟨g, x, limit'⟩ : Job R).execBlock d.forward (g.entered world (args ++ [.real u])) with
  | error e k =>
    rw [hk] at hforward
    rw [Job.execBlock_append, bind_error hk]
    exact hforward
  | ok flow k =>
    rw [hk] at hforward
    obtain ⟨rfl, n, hpassed⟩ := hforward
    rw [Job.execBlock_append_next _ hk]
    have hseeded : (d.recorded world slots G u).Seeded f input := d.seeded_recorded hf hv hstart
    have hS := elementary hc hf ht hv hcalls
    have htraced := (traced_of_seeded hc hf ht hv hseeded).forward hS
      (forward_isForward hc hf ht) hpassed.run
    obtain ⟨G', hG, hordered, -⟩ := htraced.confined.graph
    -- the result, its value and its tangent
    have hret := d.ret_lt hf
    have hmG : m.graph = some G' := by rw [← hG, hpassed.source.graph_keep rfl]
    have hnret : n.var d.plan.ret = some slot := by
      rw [hpassed.source.var _ hret, h.result]
      rfl
    have htangent : n.tangent G' d.plan.ret = r.derivative := by
      rw [h.derivative hmG hordered, Machine.tangent_some hnret, Machine.tangent_some h.result]
    have hkret : k.Real d.plan.ret r.value := by
      rw [Machine.Real, hpassed.plain.var _ (Nat.lt_of_lt_of_le hret (d.vars_le hc)), hnret]
      exact congrArg some ((Window.value_slot _ slot).trans (Gradient.ofResult_value h.gradient))
    have hu : k.var d.upstream = some { value := .real u } := by
      rw [(forward_frame hc hf ht hk).vars _ (by rw [d.upstream_eq]),
        d.entered_append world h.arity, Machine.var_setVar_self]
      rw [Machine.size_enter]
      simpa [Machine.new] using d.upstream_lt hc
    have hsize : g.vars.size ≤ (d.recorded world slots G u).vars.size := by rw [d.size_recorded]
    have hupkeep : Upkeep (d.setting hc hf ht) d.sweep ⟨g, x, limit'⟩ (Traced _)
        (Pairs _ G' (u * n.tangent G' d.plan.ret)) (· = .stepLimit) :=
      pairing_upkeep hS hordered hcat hzero rfl _
    have hend := rewound hupkeep hsize
      (traced_of_seeded hc hf ht hv hseeded) (fun t _ => hseeded.empty t) hpassed.run hu
      (hpassed.tracks hc hf ht hclear _) fun n₁ hstarted =>
        pairs_start hc hf ht hv hcalls hzero hseeded hpassed.run hG hstarted
          (hpassed.plain.graph_erase rfl)
          (hpassed.adjoints hc hf ht (Func.stack_entered _ _ _ _))
    refine hend.known.mono ?_ fun _ _ h => h
    rintro flow n' ⟨hexec, rfl, -, -, -, -, -, -, -, hpairs, -⟩
    refine ⟨rfl, ?_, ?_, ?_⟩
    · rw [← htangent]
      exact pairs_end hv hseeded hpairs
    · exact hkret.congr (d.reverse_var hc hexec (Nat.le_of_lt hret))
    · rw [d.reverse_world hc hrules hexec, hpassed.plain.world, hpassed.source.world]

/-- Without the graph, the function returns the same value. -/
theorem Primal.plain_run {d : Generation c f input withTapes mode g} {m : Machine R}
    (h : d.Primal x limit args world r slots G m slot) (hf : f.Tabled) (ht : d.OneTape tape)
    (hcalls : f.CallsNothing) :
    ∃ m', (⟨f, x, limit⟩ : Job R).run args (.new f world) = .ok [.real r.value] m' ∧
      m'.world = m.world := by
  have hself : Twins False (⟨f, x, limit⟩ : Job R) ⟨f, x, limit⟩ := ⟨rfl, .inl rfl⟩
  have hstart : Agree (d.window true) ((f.recordingOn world G).enter f.params slots)
      (f.entered world args) := by
    have hnew : Agree (d.window true) (f.recordingOn world G) (.new f world) :=
      (Agree.new (fun w hw => hw) (fun w hw => hw) world).recordLeft rfl (some G)
    have henter := hnew.enter hf.params slots
    rwa [slots_erased (d.window true) rfl h.given] at henter
  have hstep := (hself.execBlock (within hf ht fun _ => hcalls.not_mem)).ends _ _ hstart
  rw [h.run] at hstep
  have hbody := d.source_eq
  cases hexec : (⟨f, x, limit⟩ : Job R).execBlock (stepsSource d.plan.body.2)
      (f.entered world args) with
  | error e m' =>
    rw [hexec] at hstep
    exact hstep.1.elim
  | ok flow m' =>
    rw [hexec] at hstep
    obtain ⟨rfl, hagree⟩ := hstep
    have hread : m'.var d.plan.ret = some { value := .real r.value } := by
      rw [hagree.var _ (d.ret_lt hf), h.result, ← Gradient.ofResult_value h.gradient]
      rfl
    refine ⟨m', (Job.run_eq_ok _ _).mpr ⟨[{ value := .real r.value }], ?_, rfl⟩, hagree.world⟩
    rw [Job.runSlots_eq _ _ (by simpa using h.arity)]
    change Flow.results ((⟨f, x, limit⟩ : Job R).execBlock f.body (f.entered world args)) = _
    have hreadAll : (⟨f, x, limit⟩ : Job R).readAll [d.plan.ret] m' =
        .ok [{ value := .real r.value }] m' :=
      (Job.readAll_eq_ok _ _).mpr ⟨by rw [List.map_singleton, hread]; rfl, rfl⟩
    rw [hbody, Job.execBlock_append_next _ hexec, Job.execBlock_singleton, Job.exec_ret,
      bind_ok hreadAll]
    rfl

/-- **What a derivative returns.** -/
theorem derivative_run {d : Generation c f input withTapes mode g} (hc : c = Catalogue.builtin)
    (hf : f.Tabled) (ht : d.OneTape tape) (hcalls : f.CallsNothing) (hv : input.var ∈ f.params)
    (hzero : Scalar.lit d.zero = (0 : R)) {wrt : Wrt}
    (hstart : ∀ slots G, wrt.seed args world.heap = .ok (slots, G) →
      ((g.recordingOn world G).enter f.params slots).Seeded f input)
    (hclear : ∀ slots G m slot, d.Primal x limit args world r slots G m slot →
      ∀ t, t.level ≠ d.level.val → m.stack t = [])
    (h : (⟨f, x, limit⟩ : Job R).gradient args wrt world = .ok r w) (u : R) (limit' : Nat) :
    (∃ m, (⟨f, x, limit⟩ : Job R).run args (.new f world) = .ok [.real r.value] m ∧ m.world = w) ∧
      Ends ((⟨g, x, limit'⟩ : Job R).run (args ++ [.real u]) (.new g world))
        (fun vals m => vals = mode.answers r.value (u * r.derivative) ∧ m.world = w)
        (fun e _ => e = .stepLimit) := by
  obtain ⟨slots, G, m, slot, hseed, hprimal, rfl⟩ := d.primal_of_gradient h
  refine ⟨hprimal.plain_run hf ht hcalls, ?_⟩
  have hargs : (args ++ [Value.real u]).length = g.params.length := by
    rw [d.params, List.length_append, List.length_append, hprimal.arity]
    rfl
  have hsections := hprimal.sections hc hf ht hcalls hv (hstart slots G hseed) hzero
    (hclear slots G m slot hprimal) u limit'
  have hruns := d.runSlots_ends (j := (⟨g, x, limit'⟩ : Job R)) rfl (by simpa using hargs) hsections
  have hread (n : Machine R) (hn : n.Real d.acc (u * r.derivative) ∧ n.Real d.plan.ret r.value ∧
      n.world = m.world) : ∃ slots, (⟨g, x, limit'⟩ : Job R).readAll (d.plan.results d.acc mode) n =
        .ok slots n ∧ Slot.values slots = mode.answers r.value (u * r.derivative) := by
    obtain ⟨s, hs, hvalue⟩ := Option.map_eq_some_iff.mp hn.1
    obtain ⟨s', hs', hvalue'⟩ := Option.map_eq_some_iff.mp hn.2.1
    cases mode with
    | derivative =>
      refine ⟨[s], (Job.readAll_eq_ok _ _).mpr ⟨by simp [Plan.results, hs], rfl⟩, ?_⟩
      simp [Slot.values, ReturnMode.answers, hvalue]
    | valueAndDerivative =>
      refine ⟨[s', s], (Job.readAll_eq_ok _ _).mpr ⟨by simp [Plan.results, hs, hs'], rfl⟩, ?_⟩
      simp [Slot.values, ReturnMode.answers, hvalue, hvalue']
  unfold Job.run
  rw [ends_bind]
  refine hruns.mono ?_ ?_
  · rintro slots n ⟨hn, hslots⟩
    obtain ⟨slots', hslots', hvalues⟩ := hread n hn
    rw [hslots] at hslots'
    cases hslots'
    exact ⟨hvalues, hn.2.2⟩
  · rintro e n (he | ⟨hn, herror⟩)
    · exact he
    · obtain ⟨slots', hslots', -⟩ := hread n hn
      rw [herror] at hslots'
      cases hslots'

end

end Generation

/-! ## Pullbacks -/

section
variable {R : Type} [Field R] [LawfulScalar R]

/-- **A pullback returns the upstream derivative times the gradient.** Whatever the
arguments, the records and the upstream derivative are: where the gradient of the
function by a parameter exists, its pullback returns nothing else, and leaves the
records as the function does, unless it runs into its step limit. -/
theorem pullback_gradient {f g : Func} {v : Var} {i : Nat} {st st' : Session} (hf : f.IsRead)
    (hcalls : f.CallsNothing) (hv : f.params[i]? = some v) (hzero : st.context.zero = 0.0)
    (hg : Diff.pullback .builtin f (.param v) st = .ok g st') {x : Externs R} {limit : Nat}
    {args : List (Value R)} {world w : World R} {r : Gradient R}
    (h : (⟨f, x, limit⟩ : Job R).gradient args (.param i) world = .ok r w) (u : R) (limit' : Nat) :
    (∃ m, (⟨f, x, limit⟩ : Job R).run args (.new f world) = .ok [.real r.value] m ∧ m.world = w) ∧
      Ends ((⟨g, x, limit'⟩ : Job R).run (args ++ [.real u]) (.new g world))
        (fun vals m => vals = [.real (u * r.derivative)] ∧ m.world = w)
        (fun e _ => e = .stepLimit) := by
  obtain ⟨d, -, hdzero, -⟩ := Diff.reverse_eq_ok hg
  have hlit : Scalar.lit d.zero = (0 : R) := by
    rw [hdzero, hzero]
    exact LawfulScalar.lit_zero
  refine Generation.derivative_run rfl hf.tabled d.oneTape_of_tapeless hcalls
    (List.mem_of_getElem? hv) hlit ?_ ?_ h u limit'
  · exact fun slots G hseed => d.seeded_param Catalogue.IsBuilt.builtin.sound hf.tabled hv hseed
  · exact fun slots G m slot hprimal t _ => hprimal.clear t

end

theorem Sample.reads : (match Func.read Sample.text with
    | .ok f => decide (f.CallsNothing ∧ f.params[0]? = some ⟨0⟩)
    | .error _ => false) = true := by decide +kernel

/-- The sample calls nothing, and its input is its first parameter. -/
theorem Sample.callsNothing {f : Func} (h : Func.read Sample.text = .ok f) :
    f.CallsNothing ∧ f.params[0]? = some ⟨0⟩ := by
  have hreads := Sample.reads
  rw [h] at hreads
  exact of_decide_eq_true hreads

/-- The pullback of the sample returns its gradient at `11 / 10`. -/
theorem sample_pullback_gradient : ∃ f g st, Func.read Sample.text = .ok f ∧
    Diff.pullback .builtin f (.param ⟨0⟩) {} = .ok g st ∧
    ∃ (r : Gradient ℚ) (w : World ℚ) (m m' : Machine ℚ),
      (⟨f, .none, 100⟩ : Job ℚ).gradient [.real (11 / 10)] (.param 0) {} = .ok r w ∧
      (⟨f, .none, 100⟩ : Job ℚ).run [.real (11 / 10)] (.new f {}) = .ok [.real r.value] m ∧
      (⟨g, .none, 100⟩ : Job ℚ).run [.real (11 / 10), .real 1] (.new g {}) =
        .ok [.real (1 * r.derivative)] m' ∧ m'.world = m.world := by
  obtain ⟨f, g, -, st, -, hf, hg, -, ⟨vals, m', hrun⟩, -, ⟨r, w, hr⟩, -⟩ :=
    Sample.exists_derivatives
  obtain ⟨hcalls, hv⟩ := Sample.callsNothing hf
  obtain ⟨⟨m, hplain, hm⟩, hends⟩ :=
    pullback_gradient (.inl ⟨_, hf⟩) hcalls hv rfl hg hr 1 100
  have hends : Ends ((⟨g, .none, 100⟩ : Job ℚ).run [.real (11 / 10), .real 1] (.new g {}))
      (fun vals m => vals = [.real (1 * r.derivative)] ∧ m.world = w)
      (fun e _ => e = .stepLimit) := hends
  rw [hrun] at hends
  obtain ⟨rfl, hw⟩ := hends
  exact ⟨f, g, st, hf, hg, r, w, m, m', hr, hplain, hrun, hw.trans hm.symm⟩

end Backsweep
