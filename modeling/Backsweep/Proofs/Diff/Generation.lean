import Mathlib
import Backsweep.Diff.SecondOrder
import Backsweep.Proofs.Diff.Undo

/-!
# How derivatives are generated

* `Generation`: a derivative with everything it was made from;
* `Diff.reverse_eq_ok`: where generating succeeds, there is one;
* `Generation.setting`: the steps of its plan, in their place;
* `Generation.inits_run`: how the accumulators of the body start.
-/

namespace Backsweep

/-- Where the accumulator of a variable of the body starts. -/
def Sweep.rootInit (s : Sweep) (p : Plan) (upstream v : Var) : Expr :=
  if v = p.ret then .copy upstream else s.zeroExpr

/-- What a derivative returns. -/
def Plan.results (p : Plan) (acc : Var) : ReturnMode → List Var
  | .derivative => [acc]
  | .valueAndDerivative => [p.ret, acc]

/-- The derivative `g` of `f`, and what it was made from. -/
structure Generation (c : Catalogue) (f : Func) (input : ActiveInput) (withTapes : Bool)
    (mode : ReturnMode) (g : Func) where
  activity : Activity
  plan : Plan
  level : Level
  zero : Float
  upstream : Var
  start : Locals
  inits : Block
  /-- The accumulator of the input. -/
  acc : Var
  accs : Accumulators
  locals : Locals
  code : Block
  final : Locals
  valid : f.isValid = true
  checked : input.check f = .ok ()
  analyzed : Activity.analyze f input withTapes = .ok activity
  planned : ∃ s, (⟨f, activity, c⟩ : Lowering).plan {} = .ok plan s
  declared : (Locals.ofFunc f).declare "upstream" .real false = (upstream, start)
  rooted : (⟨f, level, zero⟩ : Sweep).rootAccs plan upstream start = .ok ((inits, acc, accs), locals)
  reversed : (⟨f, level, zero⟩ : Sweep).reverseSteps accs plan.body.2 locals = .ok (code, final)
  params : g.params = f.params ++ [upstream]
  vars : g.vars = final.vars
  body : g.body = level.forwardSteps plan.body.2 ++ inits ++ code ++ [.ret (plan.results acc mode)]

/-! ## Generating -/

namespace Diff

variable {c : Catalogue} {f g : Func} {input : ActiveInput} {withTapes : Bool} {mode : ReturnMode}
  {name : String} {st st' : Session}

theorem ofExcept_eq_ok {α : Type} {x : Except DiffError α} {a : α} :
    ofExcept x st = .ok a st' ↔ x = .ok a ∧ st' = st := by
  cases x with
  | ok b =>
    constructor
    · intro h
      cases h
      exact ⟨rfl, rfl⟩
    · rintro ⟨h, rfl⟩
      cases h
      rfl
  | error e =>
    constructor
    · intro h
      cases h
    · rintro ⟨h, -⟩
      cases h

theorem analyze_eq_ok {a : Activity} (h : analyze f input withTapes st = .ok a st') :
    Activity.analyze f input withTapes = .ok a ∧ st'.context = st.context := by
  unfold analyze at h
  rw [bind_eq_ok] at h
  obtain ⟨a', st₁, hof, h⟩ := h
  obtain ⟨ha, rfl⟩ := ofExcept_eq_ok.mp hof
  cases h
  exact ⟨ha, rfl⟩

theorem lower_eq_ok {a : Activity} {p : Plan} (h : lower c f a st = .ok p st') :
    (∃ s, (⟨f, a, c⟩ : Lowering).plan {} = .ok p s) ∧ st'.context = st.context := by
  unfold lower at h
  cases hplan : (⟨f, a, c⟩ : Lowering).plan {} with
  | ok q s =>
    rw [hplan] at h
    cases h
    exact ⟨⟨s, rfl⟩, rfl⟩
  | error e s =>
    rw [hplan] at h
    cases h

end Diff

/-- The parts of generated code. -/
theorem Sweep.generate_eq_ok {s : Sweep} {p : Plan} {mode : ReturnMode} {name : String} {g : Func}
    (h : s.generate p mode name = .ok g) :
    ∃ upstream start inits acc accs locals code final,
      (Locals.ofFunc s.func).declare "upstream" .real false = (upstream, start) ∧
      s.rootAccs p upstream start = .ok ((inits, acc, accs), locals) ∧
      s.reverseSteps accs p.body.2 locals = .ok (code, final) ∧
      g.params = s.func.params ++ [upstream] ∧ g.vars = final.vars ∧
      g.body = s.level.forwardSteps p.body.2 ++ inits ++ code ++ [.ret (p.results acc mode)] := by
  unfold generate at h
  obtain ⟨⟨body, final⟩, hbody, h⟩ := except_bind_eq_ok.mp h
  cases h
  unfold Sweep.body at hbody
  obtain ⟨⟨inits, acc, accs⟩, locals, hroot, hrest⟩ := emit_bind_eq_ok.mp hbody
  obtain ⟨code, l, hcode, hlast⟩ := emit_bind_eq_ok.mp hrest
  obtain ⟨hcode', rfl⟩ := emit_pure_eq_ok.mp hlast
  refine ⟨_, _, inits, acc, accs, locals, code, final, rfl, hroot, hcode, rfl, rfl, ?_⟩
  cases mode <;> exact hcode'

/-- **Where a derivative is generated, it is made from a plan.** -/
theorem Diff.reverse_eq_ok {c : Catalogue} {f g : Func} {input : ActiveInput} {withTapes : Bool}
    {mode : ReturnMode} {name : String} {st st' : Session}
    (h : reverse c f input withTapes mode name st = .ok g st') :
    ∃ d : Generation c f input withTapes mode g, d.level = (st.context.fresh f).1 ∧
      d.zero = st.context.zero ∧ st'.context = (st.context.fresh f).2 := by
  unfold reverse at h
  split at h
  · obtain ⟨_, _, hthrow, -⟩ := bind_eq_ok.mp h
    cases hthrow
  · rename_i hvalid
    dsimp only at h
    rw [bind_eq_ok] at h
    obtain ⟨_, st₁, hof, h⟩ := h
    obtain ⟨hcheck, rfl⟩ := ofExcept_eq_ok.mp hof
    rw [bind_eq_ok] at h
    obtain ⟨a, st₂, hanalyze, h⟩ := h
    obtain ⟨hanalyze, h₂⟩ := analyze_eq_ok hanalyze
    rw [bind_eq_ok] at h
    obtain ⟨_, st₃, hemit, h⟩ := h
    cases hemit
    rw [bind_eq_ok] at h
    obtain ⟨p, st₄, hlower, h⟩ := h
    obtain ⟨hplan, h₄⟩ := lower_eq_ok hlower
    have hcontext : st₄.context = st₁.context := h₄.trans h₂
    rw [bind_eq_ok] at h
    obtain ⟨level, st₅, hfresh, h⟩ := h
    cases hfresh
    rw [bind_eq_ok] at h
    obtain ⟨_, st₆, hemit, h⟩ := h
    cases hemit
    rw [bind_eq_ok] at h
    obtain ⟨st₇, _, hget, h⟩ := h
    cases hget
    rw [bind_eq_ok] at h
    obtain ⟨g', st₈, hof, h⟩ := h
    obtain ⟨hgen, rfl⟩ := ofExcept_eq_ok.mp hof
    rw [bind_eq_ok] at h
    obtain ⟨_, st₉, hemit, h⟩ := h
    cases hemit
    cases h
    obtain ⟨upstream, start, inits, acc, accs, locals, code, final, hdecl, hroot, hcode, hparams,
      hvars, hbody⟩ := Sweep.generate_eq_ok hgen
    refine ⟨⟨a, p, _, _, upstream, start, inits, acc, accs, locals, code, final, by simpa using hvalid,
      hcheck, hanalyze, hplan, hdecl, hroot, hcode, hparams, hvars, hbody⟩, ?_, ?_, ?_⟩
    · rw [← hcontext]
      rfl
    · rw [← hcontext]
    · rw [← hcontext]
      rfl

/-! ## The accumulators of the body -/

/-- The accumulator of the input. -/
def ActiveInput.ownAccs (acc : Var) : ActiveInput → Accumulators
  | .param v => { vars := [(v, acc)] }
  | .property _ _ => { property := some acc }

theorem ActiveInput.ownAccs_find {input : ActiveInput} {acc v a : Var}
    (h : (input.ownAccs acc).find? v = some a) : input = .param v ∧ a = acc := by
  cases input with
  | param w =>
    have hmem : (v, a) ∈ [(w, acc)] := Accumulators.mem_of_lookup h
    rw [List.mem_singleton, Prod.mk.injEq] at hmem
    exact ⟨by rw [hmem.1], hmem.2⟩
  | property obj field => cases h

theorem ActiveInput.ownAccs_property {input : ActiveInput} {acc a : Var}
    (h : a ∈ (input.ownAccs acc).property) :
    (∃ obj field, input = .property obj field) ∧ a = acc := by
  cases input with
  | param w => cases h
  | property obj field =>
    cases h
    exact ⟨⟨obj, field, rfl⟩, rfl⟩

theorem ActiveInput.ownAccs_fit {input : ActiveInput} {acc : Var} {n size : Nat}
    (h : n ≤ acc.idx ∧ acc.idx < size) : (input.ownAccs acc).Fit n size := by
  refine ⟨fun v a ha => ?_, fun v w a hv hw => ?_, fun a ha => ?_, fun v a ha hv => ?_⟩
  · rw [(ownAccs_find ha).2]
    exact h
  · exact ActiveInput.param.inj ((ownAccs_find hv).1.symm.trans (ownAccs_find hw).1)
  · rw [(ownAccs_property ha).2]
    exact h
  · obtain ⟨⟨obj, field, rfl⟩, -⟩ := ownAccs_property ha
    cases hv

/-- Where the accumulator of the input starts. -/
def Sweep.inputInit (s : Sweep) (p : Plan) (upstream : Var) : Expr :=
  match p.input with
  | .param v => s.rootInit p upstream v
  | .property _ _ => s.zeroExpr

section
variable {s : Sweep} {p : Plan} {upstream acc : Var} {inits : Block} {accs : Accumulators}
  {l l' : Locals}

/-- The accumulator of the input is declared before those of the body. -/
theorem Sweep.rootAccs_split (h : s.rootAccs p upstream l = .ok ((inits, acc, accs), l')) :
    ∃ stem l₁ stmts new, declare stem .real true l = .ok (acc, l₁) ∧
      s.declareAccs (s.rootInit p upstream) p.body.1 l₁ = .ok ((stmts, new), l') ∧
      inits = .define acc true (s.inputInit p upstream) :: stmts ∧
      accs = (p.input.ownAccs acc).add new := by
  unfold rootAccs at h
  dsimp only at h
  cases hin : p.input with
  | param v =>
    rw [hin] at h
    obtain ⟨⟨a, stmt⟩, l₁, hacc, hrest⟩ := emit_bind_eq_ok.mp h
    obtain ⟨a', l₂, hdecl, hpure⟩ := emit_bind_eq_ok.mp hacc
    obtain ⟨hp, rfl⟩ := emit_pure_eq_ok.mp hpure
    cases hp
    obtain ⟨⟨stmts, new⟩, l₃, haccs, hpure⟩ := emit_bind_eq_ok.mp hrest
    obtain ⟨hp, rfl⟩ := emit_pure_eq_ok.mp hpure
    cases hp
    refine ⟨_, l₁, stmts, new, hdecl, haccs, ?_, rfl⟩
    rw [inputInit, hin]
    rfl
  | property obj field =>
    rw [hin] at h
    obtain ⟨⟨a, stmt⟩, l₁, hacc, hrest⟩ := emit_bind_eq_ok.mp h
    obtain ⟨a', l₂, hdecl, hpure⟩ := emit_bind_eq_ok.mp hacc
    obtain ⟨hp, rfl⟩ := emit_pure_eq_ok.mp hpure
    cases hp
    obtain ⟨⟨stmts, new⟩, l₃, haccs, hpure⟩ := emit_bind_eq_ok.mp hrest
    obtain ⟨hp, rfl⟩ := emit_pure_eq_ok.mp hpure
    cases hp
    refine ⟨_, l₁, stmts, new, hdecl, haccs, ?_, ?_⟩
    · rw [inputInit, hin]
    · simp [ActiveInput.ownAccs, Accumulators.add]

theorem Sweep.rootAccs_eq_ok (h : s.rootAccs p upstream l = .ok ((inits, acc, accs), l')) :
    acc = ⟨l.vars.size⟩ ∧ l.Le l' ∧ l'.vars.size = l.vars.size + 1 + p.body.1.length ∧
      accs = (p.input.ownAccs acc).add (sectionNew p.body.1 (l.vars.size + 1)) ∧
      inits = .define acc true (s.inputInit p upstream) ::
        (sectionNew p.body.1 (l.vars.size + 1)).map fun q =>
          .define q.2 true (s.rootInit p upstream q.1) := by
  obtain ⟨stem, l₁, stmts, new, hdecl, haccs, rfl, rfl⟩ := rootAccs_split h
  obtain ⟨rfl, hle, hsize⟩ := declare_eq_ok hdecl
  obtain ⟨hle', hsize', rfl, rfl⟩ := declareAccs_eq_ok haccs
  rw [hsize] at hsize' ⊢
  exact ⟨rfl, hle.trans hle', hsize', rfl, rfl⟩

end

namespace Generation

variable {c : Catalogue} {f g : Func} {input : ActiveInput} {withTapes : Bool} {mode : ReturnMode}
  (d : Generation c f input withTapes mode g)

/-- What the plan was made from. -/
def lo : Lowering := ⟨f, d.activity, c⟩

/-- What the code was generated for. -/
def sweep : Sweep := ⟨f, d.level, d.zero⟩

theorem fine : d.lo.PlanFine d.plan := by
  obtain ⟨s, hs⟩ := d.planned
  exact Lowering.plan_fine hs

theorem source_eq : f.body = stepsSource d.plan.body.2 ++ [.ret [d.plan.ret]] := d.fine.body

theorem closed : Activity.Closed f input withTapes d.activity.marks :=
  (Activity.analyze_closed d.analyzed).2

theorem activity_input : d.activity.input = input := (Activity.analyze_closed d.analyzed).1

theorem plan_input : d.plan.input = input := d.fine.input.trans d.activity_input

theorem upstream_eq : d.upstream = ⟨f.vars.size⟩ := by
  have hspec := (Locals.ofFunc f).declare_spec "upstream" .real false
  rw [d.declared] at hspec
  exact hspec.1

theorem start_size : d.start.vars.size = f.vars.size + 1 := by
  have hspec := (Locals.ofFunc f).declare_spec "upstream" .real false
  rw [d.declared] at hspec
  exact hspec.2.2

theorem acc_eq : d.acc = ⟨f.vars.size + 1⟩ := by
  rw [(Sweep.rootAccs_eq_ok d.rooted).1, d.start_size]

theorem accs_eq : d.accs =
    (input.ownAccs d.acc).add (Sweep.sectionNew d.plan.body.1 (f.vars.size + 2)) := by
  have := (Sweep.rootAccs_eq_ok d.rooted).2.2.2.1
  rw [d.start_size, d.plan_input] at this
  exact this

theorem inits_eq : d.inits = .define d.acc true (d.sweep.inputInit d.plan d.upstream) ::
    (Sweep.sectionNew d.plan.body.1 (f.vars.size + 2)).map fun q =>
      .define q.2 true (d.sweep.rootInit d.plan d.upstream q.1) := by
  have := (Sweep.rootAccs_eq_ok d.rooted).2.2.2.2
  rw [d.start_size] at this
  exact this

theorem locals_size : d.locals.vars.size = f.vars.size + 2 + d.plan.body.1.length := by
  have := (Sweep.rootAccs_eq_ok d.rooted).2.2.1
  rw [d.start_size] at this
  exact this

/-- The accumulators of the body are new variables, one for each variable. -/
theorem accs_fit : d.accs.Fit (f.vars.size + 1) d.locals.vars.size := by
  have hown : (input.ownAccs d.acc).Fit (f.vars.size + 1) (f.vars.size + 2) := by
    apply ActiveInput.ownAccs_fit
    rw [d.acc_eq]
    exact ⟨Nat.le_refl _, Nat.lt_succ_self _⟩
  rw [d.accs_eq]
  exact Sweep.sectionNew_fit hown (Nat.le_succ _) (Nat.le_of_eq d.locals_size.symm)

/-- Where an accumulator comes from. -/
theorem accs_find {v a : Var} (h : d.accs.find? v = some a) :
    (v, a) ∈ Sweep.sectionNew d.plan.body.1 (f.vars.size + 2) ∨ input = .param v ∧ a = d.acc := by
  rw [d.accs_eq, Accumulators.find?_add, Option.or_eq_some_iff] at h
  rcases h with h | ⟨-, h⟩
  · exact .inl (List.mem_reverse.mp (Accumulators.mem_of_lookup h))
  · exact .inr (ActiveInput.ownAccs_find h)

theorem accs_property : d.accs.property = (input.ownAccs d.acc).property := by
  rw [d.accs_eq]
  rfl

/-- Variables declared inside of statements have no accumulator yet. -/
theorem accs_inner (h : ∀ v, input = .param v → v ∈ f.params) :
    ∀ v ∈ innerDecls (stepsSource d.plan.body.2), d.accs.find? v = none := by
  intro v hv
  have hnodup := List.nodup_append.mp (f.nodup_of_isValid d.valid)
  have hbody := d.source_eq
  have hinner : v ∈ innerDecls f.body := by
    rw [hbody, innerDecls_append]
    exact List.mem_append_left _ hv
  cases hfind : d.accs.find? v with
  | none => rfl
  | some a =>
    rcases d.accs_find hfind with hmem | ⟨hin, -⟩
    · have hdecl := (List.of_mem_zip hmem).1
      rw [d.fine.decls, Lowering.mem_activeDecls] at hdecl
      have hdirect : v ∈ blockDecls f.body := by
        rw [hbody, blockDecls_append]
        exact List.mem_append_left _ hdecl.1
      exact absurd hinner (not_mem_innerDecls hnodup.2.1 hdirect)
    · exact absurd rfl (hnodup.2.2 v (h v hin) v (innerDecls_subset _ hinner))

/-! ## The setting -/

/-- What the reverse section is made of. -/
def reversal : Reversal where
  level := d.level
  base := f.vars.size + 1
  tapes t := t = d.level.values ∨ t = d.level.decisions ∨
    t = d.level.adjoints ∧ ∃ u, d.lo.isActiveTape u = true
  calls := ∃ n ∈ c.nodes, n.Calls
  branches := True

theorem covers (hc : c.Sound) : d.reversal.Covers d.lo where
  sound := hc
  calls n hn h := ⟨n, hn, h⟩
  branches := trivial
  values := .inl rfl
  decisions := .inr (.inl rfl)
  adjoints t ht := .inr (.inr ⟨rfl, t, ht⟩)

/-- The function has no tapes of the level, and one at most that carries active
values. -/
structure OneTape (tape : Tape) : Prop where
  apart : ∀ t ∈ blockTapes f.body, t.level ≠ d.level.val
  single : ∀ t, d.lo.isActiveTape t = true → t = tape
  kind : tape.kind ≠ .decisions
  headers : ∀ h ∈ stepsHeaders d.plan.body.2, ∀ t ∈ blockTapes h.1, d.lo.isActiveTape t = false

def setting (hc : c.Sound) (hf : f.Tabled) {tape : Tape} (ht : d.OneTape tape) : Setting where
  lo := d.lo
  plan := d.plan
  rv := d.reversal
  withTapes := withTapes
  tape := tape
  valid := d.valid
  tabled := hf
  closed := by
    change Activity.Closed f d.activity.input withTapes d.activity.marks
    rw [d.activity_input]
    exact d.closed
  fine := d.fine
  covers := d.covers hc
  base := Nat.le_succ _
  apart := ht.apart
  single := ht.single
  kind := ht.kind
  headers := ht.headers

variable {d} {hc : c.Sound} {hf : f.Tabled} {tape : Tape} (ht : d.OneTape tape)

theorem ready : Ready (d.setting hc hf ht) d.accs d.locals where
  base := by
    change f.vars.size + 1 ≤ _
    rw [d.locals_size]
    omega
  fit := d.accs_fit

theorem emitted (hc : c.Sound) : Emitted d.reversal d.locals d.final d.code := by
  refine Sweep.reverseSteps_emitted rfl (d.covers hc) d.fine.fine ?_ d.accs_fit d.reversed
  change f.vars.size + 1 ≤ _
  rw [d.locals_size]
  omega

/-- The table of the derivative extends that of the function. -/
theorem vars_extend (d : Generation c f input withTapes mode g) (hc : c.Sound) :
    (Locals.ofFunc f).Le d.final := by
  have hspec := (Locals.ofFunc f).declare_spec "upstream" .real false
  rw [d.declared] at hspec
  exact (hspec.2.1.trans (Sweep.rootAccs_eq_ok d.rooted).2.1).trans (emitted (d := d) hc).le

section
variable {R : Type} [Scalar R] {j : Job R} {m : Machine R}

/-- What the accumulator of a variable of the body starts from, given the
upstream derivative. -/
def rootSlot (d : Generation c f input withTapes mode g) (u : Slot R) (v : Var) : Slot R :=
  if v = d.plan.ret then u else { value := .ofConst (.real d.zero) }

theorem rootInit_eval {u : Slot R} (hu : m.var d.upstream = some u) (v : Var) :
    j.eval (d.sweep.rootInit d.plan d.upstream v) m = .ok (d.rootSlot u v) m := by
  unfold Sweep.rootInit rootSlot
  split
  · exact j.read_some m hu
  · rfl

/-- The accumulators of the body started: that of the result from the upstream
derivative, all others from zero. -/
structure Started (d : Generation c f input withTapes mode g) (u : Slot R) (m n : Machine R) :
    Prop where
  stack : ∀ t, n.stack t = m.stack t
  var : ∀ v : Var, v.idx < f.vars.size + 1 → n.var v = m.var v
  size : n.vars.size = m.vars.size
  graph : n.graph = m.graph
  accs : ∀ v a, d.accs.find? v = some a → n.var a = some (d.rootSlot u v)
  property : ∀ a ∈ d.accs.property, n.var a = some { value := .ofConst (.real d.zero) }

theorem inits_run (hsize : d.locals.vars.size ≤ m.vars.size) {u : Slot R}
    (hu : m.var d.upstream = some u) :
    ∃ n, j.execBlock d.inits m = .ok .next n ∧ d.Started u m n := by
  rw [d.locals_size] at hsize
  obtain ⟨first, hfirst, hslot, hproperty⟩ : ∃ first,
      j.eval (d.sweep.inputInit d.plan d.upstream) m = .ok first m ∧
      (∀ v, d.plan.input = .param v → first = d.rootSlot u v) ∧
      ∀ obj field, d.plan.input = .property obj field →
        first = { value := .ofConst (.real d.zero) } := by
    unfold Sweep.inputInit
    cases hin : d.plan.input with
    | param w =>
      exact ⟨d.rootSlot u w, rootInit_eval hu w, fun v hv => (ActiveInput.param.inj hv) ▸ rfl,
        fun obj field h => by cases h⟩
    | property obj field =>
      exact ⟨{ value := .ofConst (.real d.zero) }, rfl, fun v hv => (by cases hv), fun _ _ _ => rfl⟩
  have hset (v : Var) (hv : v.idx < f.vars.size + 1) : (m.setVar d.acc first).var v = m.var v := by
    apply Machine.var_setVar_ne
    intro h
    rw [← h, d.acc_eq] at hv
    simp at hv
  obtain ⟨n, hexec, hstack, hbelow, hsize', hgraph, hnew⟩ :=
    declares_run (j := j) (d.sweep.rootInit d.plan d.upstream) (d.rootSlot u)
      (n := m.setVar d.acc first)
      (show f.vars.size + 2 + d.plan.body.1.length ≤ _ by rwa [Machine.size_setVar])
      fun v _ n' hn' => rootInit_eval (by
        have hlt : d.upstream.idx < f.vars.size + 1 := by rw [d.upstream_eq]; simp
        rw [hn' _ (by omega), hset _ hlt, hu]) v
  have hacc : n.var d.acc = some first := by
    have hlt : d.acc.idx < f.vars.size + 2 := by rw [d.acc_eq]; simp
    rw [hbelow _ hlt, Machine.var_setVar_self _ _ _ (by omega)]
  refine ⟨n, ?_, hstack, fun v hv => ?_, ?_, hgraph, fun v a ha => ?_, fun a ha => ?_⟩
  · rw [d.inits_eq, j.execBlock_define_ok hfirst]
    exact hexec
  · rw [hbelow v (by omega), hset v hv]
  · rw [hsize', Machine.size_setVar]
  · rcases d.accs_find ha with hmem | ⟨hin, rfl⟩
    · exact hnew _ hmem
    · rw [hacc, hslot v (d.plan_input.trans hin)]
  · rw [d.accs_property] at ha
    obtain ⟨⟨obj, field, hin⟩, rfl⟩ := ActiveInput.ownAccs_property ha
    rw [hacc, hproperty obj field (d.plan_input.trans hin)]

end

end Generation

end Backsweep
