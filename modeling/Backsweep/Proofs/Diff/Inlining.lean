import Mathlib
import Backsweep.Proofs.Diff.Catalogue
import Backsweep.Proofs.Diff.Emission
import Backsweep.Proofs.Run.Lawful
import Backsweep.Proofs.Run.Whole

/-!
# Inlining a rule is calling it

The definitions that a rule is inlined as do what a run of the rule does. They are in new
variables, so nothing that was there before changes.

* `Job.calls`: the calls that straight-line code makes;
* `Job.eval_share`: an expression of a rule evaluates alike wherever its variables hold the
  same;
* `Rule.Mirrors`: inlined code ends as a run does;
* `Rule.inlineSteps_mirrors`: the definitions of a rule, one by one;
* `Rule.inlineSteps_congr`: only variables that are read leave a mark on inlined code;
* `Rule.inline_as_run`: the whole rule.
-/

namespace Backsweep

/-! ## Calls -/

/-- A call of an operation outside of a function, and the world it is made in. -/
structure ExternCall (R : Type) where
  callee : String
  args : List (Value R)
  world : World R

namespace Job

variable {R : Type} [Scalar R]

/-- The call that a definition makes, once its arguments were read. -/
def callOf (j : Job R) (m : Machine R) : Stmt → List (ExternCall R)
  | .define _ _ (.call callee args _) =>
    match j.readAll args m with
    | .ok slots _ => [⟨callee, Slot.values slots, m.world⟩]
    | .error _ _ => []
  | _ => []

/-- The calls that straight-line code makes, in order. -/
def calls (j : Job R) : Block → Machine R → List (ExternCall R)
  | [], _ => []
  | s :: ss, m => j.callOf m s ++ match j.exec s m with
    | .ok .next m' => j.calls ss m'
    | .ok (.ret _) _ => []
    | .error _ _ => []

/-- The calls that a run of a straight-line function makes. -/
def runCalls (j : Job R) (args : List (Slot R)) (m : Machine R) : List (ExternCall R) :=
  j.calls j.func.body (m.enter j.func.params args)

variable {j : Job R}

theorem calls_define_ok {decl : Bool} {e : Expr} {b : Block} {m m' : Machine R} {s : Slot R}
    (h : j.eval e m = .ok s m') :
    j.calls (.define dst decl e :: b) m =
      j.callOf m (.define dst decl e) ++ j.calls b (m'.setVar dst s) := by
  have hexec : j.exec (.define dst decl e) m = .ok .next (m'.setVar dst s) := by
    rw [exec_define, bind_ok h]
    rfl
  rw [calls, hexec]

theorem calls_define_error {decl : Bool} {e : Expr} {b : Block} {m m' : Machine R} {err : RunError}
    (h : j.eval e m = .error err m') :
    j.calls (.define dst decl e :: b) m = j.callOf m (.define dst decl e) := by
  have hexec : j.exec (.define dst decl e) m = .error err m' := by
    rw [exec_define, bind_error h]
  rw [calls, hexec, List.append_nil]

/-- Returning makes no call. -/
theorem calls_concat_ret (b : Block) (vals : List Var) (m : Machine R) :
    j.calls (b ++ [.ret vals]) m = j.calls b m := by
  induction b generalizing m with
  | nil =>
    rw [List.nil_append, calls, calls]
    cases j.exec (.ret vals) m with
    | error e m' => rfl
    | ok flow m' => cases flow <;> rfl
  | cons s b ih =>
    rw [List.cons_append, calls, calls]
    cases j.exec s m with
    | error e m' => rfl
    | ok flow m' =>
      cases flow with
      | ret vals => rfl
      | next => dsimp only; rw [ih m']

end Job

/-! ## Evaluation on another machine -/

namespace Machine

variable {R : Type}

/-- A new machine for a function that shares the world and the graph. -/
def fork (m : Machine R) (f : Func) : Machine R := { Machine.new f m.world with graph := m.graph }

end Machine

namespace Job

variable {R : Type}

section

variable {j k : Job R} {σ : Rule.Subst} {m n : Machine R}

/-- Variables that hold the same are read alike. -/
theorem readAll_share {vs : List Var} (h : ∀ v ∈ vs, ∃ s, n.var v = some s ∧ m.var (σ v) = some s) :
    ∃ slots, j.readAll vs n = .ok slots n ∧
      k.readAll (vs.map σ) (m.share n) = .ok slots (m.share n) := by
  have hdefined : ∀ v ∈ vs, n.var v ≠ none := by
    intro v hv
    obtain ⟨s, hs, _⟩ := h v hv
    rw [hs]
    exact Option.some_ne_none s
  obtain ⟨slots, hslots⟩ := Machine.exists_slots hdefined
  refine ⟨slots, (j.readAll_eq_ok n).mpr ⟨hslots, rfl⟩, (k.readAll_eq_ok _).mpr ⟨?_, rfl⟩⟩
  rw [← hslots, List.map_map]
  apply List.map_congr_left
  intro v hv
  obtain ⟨s, hn, hm⟩ := h v hv
  exact hm.trans hn.symm

/-- A definition makes the same call. -/
theorem callOf_share (j k : Job R) (dst w : Var) {e : Expr}
    (h : ∀ v ∈ e.uses, ∃ s, n.var v = some s ∧ m.var (σ v) = some s) :
    k.callOf (m.share n) (.define w true (e.mapVars σ)) = j.callOf n (.define dst true e) := by
  cases e with
  | call callee args node =>
    have hargs : ∀ v ∈ args, ∃ s, n.var v = some s ∧ m.var (σ v) = some s := h
    obtain ⟨slots, hn, hm⟩ := readAll_share (j := j) (k := k) hargs
    rw [Expr.mapVars, callOf, callOf, hn, hm]
    rfl
  | const c => rfl
  | copy v => rfl
  | load obj field => rfl
  | op opcode args => rfl
  | pop t => rfl
  | topIs t d => rfl

end

variable [Scalar R]
variable {j k : Job R} {σ : Rule.Subst} {m n : Machine R}

/-- **An expression of a rule evaluates alike wherever its variables hold the same.** -/
theorem eval_share (hexterns : k.externs = j.externs) {e : Expr}
    (he : Rule.isStep (.define dst true e) = true)
    (h : ∀ v ∈ e.uses, ∃ s, n.var v = some s ∧ m.var (σ v) = some s) :
    k.eval (e.mapVars σ) (m.share n) = m.relay (j.eval e n) := by
  cases e with
  | const c => rfl
  | copy v =>
    obtain ⟨s, hn, hm⟩ := h v List.mem_cons_self
    have hj : j.eval (.copy v) n = .ok s n := j.read_some n hn
    rw [hj]
    exact k.read_some (m.share n) hm
  | op opcode args =>
    have hargs : ∀ v ∈ args, ∃ s, n.var v = some s ∧ m.var (σ v) = some s := h
    obtain ⟨slots, hn, hm⟩ := readAll_share (j := j) (k := k) hargs
    rw [Expr.mapVars, eval_op, eval_op, bind_ok hn, bind_ok hm, operate_share]
  | call callee args node =>
    have hargs : ∀ v ∈ args, ∃ s, n.var v = some s ∧ m.var (σ v) = some s := h
    obtain ⟨slots, hn, hm⟩ := readAll_share (j := j) (k := k) hargs
    rw [Expr.mapVars, eval_call, eval_call, bind_ok hn, bind_ok hm, call_share hexterns]
  | load obj field => cases he
  | pop t => cases he
  | topIs t d => cases he

end Job

theorem Expr.mapVars_congr {σ τ : Var → Var} {e : Expr} (h : ∀ v ∈ e.uses, τ v = σ v) :
    e.mapVars τ = e.mapVars σ := by
  cases e with
  | copy v => rw [Expr.mapVars, Expr.mapVars, h v List.mem_cons_self]
  | load obj field => rw [Expr.mapVars, Expr.mapVars, h obj List.mem_cons_self]
  | op opcode args => exact congrArg (Expr.op opcode) (List.map_congr_left h)
  | call callee args node => exact congrArg (Expr.call callee · node) (List.map_congr_left h)
  | const c => rfl
  | pop t => rfl
  | topIs t d => rfl

namespace Rule

variable {dst primal : Var} {vs inputs reads : List Var} {r : Rule} {stmts : Block} {l l' : Locals}
variable {upstream : Var} {σ' τ : Subst} {ws : List Var}

/-! ## Rules that were accepted -/

theorem splitParams_eq_some {ps : List Var} (h : splitParams ps = some (upstream, inputs, primal)) :
    ps = upstream :: inputs ++ [primal] := by
  unfold splitParams at h
  split at h
  · split at h
    · rename_i hlast hinit
      cases h
      obtain ⟨init, rfl⟩ := List.getLast?_eq_some_iff.mp hlast
      rw [List.dropLast_concat] at hinit
      rw [hinit]
      rfl
    · cases h
  · cases h

/-- What is known of a rule and the function it was made from. -/
structure Accepted (f : Func) (r : Rule) (steps : Block) : Prop where
  func : r.func = f
  params : f.params = r.upstream :: r.inputs ++ [r.primal]
  valid : f.isValid = true
  body : f.body = steps ++ [.ret [r.result]]
  steps : ∀ s ∈ steps, isStep s = true

theorem accepted_of_ofFunc {f : Func} (h : ofFunc f = .ok r) : ∃ steps, Accepted f r steps := by
  obtain ⟨steps, hbody, hsteps⟩ := body_of_isStraight (ofFunc_straight h)
  unfold ofFunc at h
  dsimp only at h
  split at h
  · cases h
  split at h
  swap
  · cases h
  rename_i hparams
  split at h
  · cases h
  split at h
  · cases h
  rename_i hvalid
  split at h
  swap
  · cases h
  split at h
  · cases h
  cases h
  exact ⟨steps, rfl, splitParams_eq_some hparams, by simpa using hvalid, hbody, hsteps⟩

theorem exists_define_of_isStep {s : Stmt} (h : isStep s = true) :
    ∃ dst e, s = .define dst true e := by
  unfold isStep at h
  split at h
  · exact ⟨_, _, rfl⟩
  · exact ⟨_, _, rfl⟩
  · exact ⟨_, _, rfl⟩
  · exact ⟨_, _, rfl⟩
  · cases h

theorem readsOf_append (a b : Block) : readsOf (a ++ b) = readsOf a ++ readsOf b := by
  induction a with
  | nil => rfl
  | cons s a ih =>
    cases s with
    | define dst decl e => rw [List.cons_append, readsOf, readsOf, ih, List.append_assoc]
    | _ => exact ih

theorem inlineSteps_concat_ret (f : Func) (ss : Block) (vals : List Var) (σ : Subst) (l : Locals) :
    inlineSteps f (ss ++ [.ret vals]) σ l = inlineSteps f ss σ l := by
  induction ss generalizing σ l with
  | nil => rfl
  | cons s ss ih =>
    cases s with
    | define dst decl e => simp only [List.cons_append, inlineSteps, ih]
    | _ => exact ih σ l

/-! ## Runs side by side -/

variable {R : Type}

/-- What code leaves alone that writes to variables from `size` on only. -/
structure Kept (size : Nat) (m m' : Machine R) : Prop where
  vars : ∀ v : Var, v.idx < size → m'.var v = m.var v
  tapes : m'.tapes = m.tapes
  steps : m'.steps = m.steps

/-- Inlined code ends as another run does: with the same error, or behind its last statement
where the other run gives a result. The world and the graph are the same then, and variables
before `size`, tapes and the step count are what they were in `m`. -/
inductive Mirrors {α : Type} (size : Nat) (m : Machine R)
    (result : α → Machine R → Machine R → Prop) :
    EStateM.Result RunError (Machine R) α → EStateM.Result RunError (Machine R) (Flow R) → Prop
  | ends {x : α} {n' m' : Machine R} : result x n' m' → m'.world = n'.world →
    m'.graph = n'.graph → Kept size m m' → Mirrors size m result (.ok x n') (.ok .next m')
  | fails {e : RunError} {n' m' : Machine R} : m'.world = n'.world → m'.graph = n'.graph →
    Kept size m m' → Mirrors size m result (.error e n') (.error e m')

/-- The variables in scope that are read hold the same as what stands for them. -/
structure Images (D : Finset Var) (reads : List Var) (σ : Subst) (size : Nat)
    (n m : Machine R) : Prop where
  held : ∀ v ∈ D, v ∈ reads → (σ v).idx < size ∧ ∃ s, n.var v = some s ∧ m.var (σ v) = some s
  world : m.world = n.world
  graph : m.graph = n.graph

theorem kept_refl (size : Nat) (m : Machine R) : Kept size m m := ⟨fun _ _ => rfl, rfl, rfl⟩

/-- A new variable was set after an expression was evaluated. -/
theorem kept_set {size : Nat} {m m' : Machine R} (n : Machine R) (s : Slot R)
    (h : Kept (size + 1) ((m.share n).setVar ⟨size⟩ s) m') : Kept size m m' := by
  constructor
  · intro v hv
    have hne : (⟨size⟩ : Var) ≠ v := by
      rintro rfl
      exact Nat.lt_irrefl _ hv
    rw [h.vars v (Nat.lt_succ_of_lt hv), Machine.var_setVar_ne _ _ _ _ hne, Machine.var_share]
  · exact h.tapes
  · exact h.steps

variable {n : Machine R} {σ : Subst}

theorem Mirrors.after_set {α : Type} {size : Nat} {m : Machine R} {s : Slot R}
    {result : α → Machine R → Machine R → Prop} {a : EStateM.Result RunError (Machine R) α}
    {b : EStateM.Result RunError (Machine R) (Flow R)}
    (h : Mirrors (size + 1) ((m.share n).setVar ⟨size⟩ s) result a b) :
    Mirrors size m result a b := by
  cases h with
  | ends hresult hworld hgraph hkept => exact .ends hresult hworld hgraph (kept_set n s hkept)
  | fails hworld hgraph hkept => exact .fails hworld hgraph (kept_set n s hkept)

/-- A definition of the rule in its own variable, and in the new one that stands for it. -/
theorem Images.set {D : Finset Var} {size : Nat} {n' m : Machine R} (h : Images D reads σ size n m)
    (hvars : n'.vars = n.vars) (hdst : dst.idx < n.vars.size) (hsize : size < m.vars.size)
    (s : Slot R) :
    Images (insert dst D) reads (σ.set dst ⟨size⟩) (size + 1) (n'.setVar dst s)
      ((m.share n').setVar ⟨size⟩ s) := by
  have hdst' : dst.idx < n'.vars.size := by rwa [hvars]
  constructor
  · intro v hv hread
    by_cases heq : v = dst
    · subst heq
      rw [Subst.set, if_pos rfl]
      exact ⟨Nat.lt_succ_self size, s, Machine.var_setVar_self _ _ _ hdst',
        Machine.var_setVar_self (m.share n') ⟨size⟩ s hsize⟩
    · obtain ⟨hlt, slot, hn, hm⟩ := h.held v ((Finset.mem_insert.mp hv).resolve_left heq) hread
      -- what stands for `v` is in the old table, the new variable is behind it
      have hne : (⟨size⟩ : Var) ≠ σ v := by
        intro hσ
        rw [← hσ] at hlt
        exact Nat.lt_irrefl _ hlt
      have hkeep : n'.var v = n.var v := by rw [Machine.var, hvars, Machine.var]
      rw [Subst.set, if_neg heq]
      refine ⟨Nat.lt_succ_of_lt hlt, slot, ?_, ?_⟩
      · rw [Machine.var_setVar_ne _ _ _ _ (Ne.symm heq), hkeep]
        exact hn
      · rw [Machine.var_setVar_ne _ _ _ _ hne, Machine.var_share]
        exact hm
  · rfl
  · rfl

variable [Scalar R] {j k : Job R} {f : Func}

/-- **Inlined definitions end as the definitions of the rule do, and make the same calls.** -/
theorem inlineSteps_mirrors (hexterns : k.externs = j.externs) {ss : Block} {D : Finset Var}
    {m : Machine R} (hsteps : ∀ s ∈ ss, isStep s = true) (hscoped : blockScoped f D ss)
    (hreads : readsOf ss ⊆ reads) (hdecls : ∀ v ∈ blockDecls ss, v.idx < n.vars.size)
    (hinline : inlineSteps f ss σ l = (stmts, σ', l')) (hsize : l'.vars.size ≤ m.vars.size)
    (h : Images D reads σ l.vars.size n m) :
    Mirrors l.vars.size m
        (fun flow n' m' => flow = .next ∧ Images (blockScope D ss) reads σ' l'.vars.size n' m')
        (j.execBlock ss n) (k.execBlock stmts m) ∧
      k.calls stmts m = j.calls ss n := by
  induction ss generalizing σ l stmts D n m with
  | nil =>
    cases hinline
    rw [blockScope_nil]
    exact ⟨.ends ⟨rfl, h⟩ h.world h.graph (kept_refl _ m), rfl⟩
  | cons s ss ih =>
    have hstep := hsteps s List.mem_cons_self
    obtain ⟨dst, e, rfl⟩ := exists_define_of_isStep hstep
    obtain ⟨l₁, stmts₁, hle, hsize₁, hinline₁, rfl⟩ := inlineSteps_define hinline
    have hgrown := (inlineSteps_le hinline₁).size
    rw [readsOf, List.append_subset] at hreads
    -- what is read is in scope, so neither side can fail at reading
    have hheld : ∀ v ∈ e.uses, ∃ slot, n.var v = some slot ∧ m.var (σ v) = some slot := by
      intro v hv
      exact (h.held v (hscoped.1.1 v hv) (hreads.1 hv)).2
    have hshare : m.share n = m := Machine.share_eq_self h.world h.graph
    have heval : k.eval (e.mapVars σ) m = m.relay (j.eval e n) := by
      have := Job.eval_share hexterns hstep hheld
      rwa [hshare] at this
    have hcall : k.callOf m (.define ⟨l.vars.size⟩ true (e.mapVars σ)) =
        j.callOf n (.define dst true e) := by
      have := Job.callOf_share j k dst ⟨l.vars.size⟩ hheld
      rwa [hshare] at this
    cases hresult : j.eval e n with
    | error err n' =>
      rw [hresult] at heval
      rw [Job.execBlock_define_error j hresult, Job.execBlock_define_error k heval,
        Job.calls_define_error hresult, Job.calls_define_error heval]
      exact ⟨.fails rfl rfl ⟨fun _ _ => rfl, rfl, rfl⟩, hcall⟩
    | ok slot n' =>
      rw [hresult] at heval
      have hframe : EvalFrame e n n' := by
        have := Job.eval_frame j e n
        rw [hresult] at this
        exact this
      have hdst : dst.idx < n.vars.size := hdecls dst (by simp [blockDecls, Stmt.decl?])
      have himages := h.set hframe.vars hdst (by omega) slot
      rw [← blockScope_declare D dst e, ← hsize₁] at himages
      have hlater : ∀ v ∈ blockDecls ss, v.idx < (n'.setVar dst slot).vars.size := by
        intro v hv
        rw [Machine.size_setVar, hframe.vars]
        exact hdecls v (by rw [blockDecls, List.filterMap_cons]; exact List.mem_cons_of_mem _ hv)
      obtain ⟨hmirrors, hcalls⟩ := ih (fun s hs => hsteps s (List.mem_cons_of_mem _ hs)) hscoped.2
        hreads.2 hlater hinline₁ (by rwa [Machine.size_setVar]) himages
      rw [hsize₁, ← blockScope_cons] at hmirrors
      rw [Job.execBlock_define_ok j hresult, Job.execBlock_define_ok k heval,
        Job.calls_define_ok hresult, Job.calls_define_ok heval, hcall, hcalls]
      exact ⟨hmirrors.after_set, rfl⟩

/-! ## The variables that a rule is inlined for -/

omit [Scalar R]

/-- What stands for the parameters of a rule. -/
def start (r : Rule) (upstream : Var) (inputs : List Var) (primal : Var) : Subst :=
  Subst.setAll ((Subst.set id r.upstream upstream).set r.primal primal) (r.inputs.zip inputs)

theorem inline_eq_iff {out : Var} : r.inline l upstream inputs primal = (stmts, out, l') ↔
      ∃ σ, inlineSteps r.func r.func.body (r.start upstream inputs primal) l = (stmts, σ, l') ∧
        out = σ r.result := by
  rw [inline, ← start]
  obtain ⟨stmts₁, σ₁, l₁⟩ :=
    inlineSteps r.func r.func.body (r.start upstream inputs primal) l
  simp only [Prod.mk.injEq]
  constructor
  · rintro ⟨rfl, rfl, rfl⟩
    exact ⟨σ₁, ⟨rfl, rfl, rfl⟩, rfl⟩
  · rintro ⟨σ, ⟨rfl, rfl, rfl⟩, rfl⟩
    exact ⟨rfl, rfl, rfl⟩

theorem setAll_of_notMem {v : Var} (hv : v ∉ vs) : σ.setAll (vs.zip ws) v = σ v := by
  induction vs generalizing σ ws with
  | nil => rfl
  | cons a vs ih =>
    rw [List.mem_cons, not_or] at hv
    cases ws with
    | nil => rfl
    | cons w ws =>
      rw [List.zip_cons_cons, Subst.setAll, ih hv.2, Subst.set, if_neg hv.1]

theorem setAll_of_getElem? (hnodup : vs.Nodup) {i : Nat} {v w : Var} (hv : vs[i]? = some v)
    (hw : ws[i]? = some w) : σ.setAll (vs.zip ws) v = w := by
  induction vs generalizing σ ws i with
  | nil => simp at hv
  | cons a vs ih =>
    rw [List.nodup_cons] at hnodup
    cases ws with
    | nil => simp at hw
    | cons b ws =>
      rw [List.zip_cons_cons, Subst.setAll]
      cases i with
      | zero =>
        cases hv
        cases hw
        rw [setAll_of_notMem hnodup.1, Subst.set, if_pos rfl]
      | succ i => exact ih hnodup.2 (by simpa using hv) (by simpa using hw)

/-- The variables that a rule is inlined for hold the arguments of a run, as far as the rule
reads them. -/
structure Supplied (r : Rule) (m : Machine R) (upstream : Var) (inputs : List Var) (primal : Var)
    (upstreamArg : Slot R) (inputArgs : List (Slot R)) (primalArg : Slot R) : Prop where
  upstream : m.var upstream = some upstreamArg
  inputs : ∀ i v s, inputs[i]? = some v → inputArgs[i]? = some s → r.readsInput i = true →
    m.var v = some s
  primal : r.readsPrimal = true → m.var primal = some primalArg

theorem Supplied.images {steps : Block} (hr : Accepted f r steps)
    (hparams : ∀ v ∈ f.params, v.idx < f.vars.size) {m : Machine R} {size : Nat}
    {upstreamArg primalArg : Slot R} {inputArgs : List (Slot R)}
    (h : r.Supplied m upstream inputs primal upstreamArg inputArgs primalArg)
    (hold : ∀ v ∈ upstream :: inputs ++ [primal], v.idx < size)
    (hinputs : inputs.length = r.inputs.length) (hargs : inputArgs.length = r.inputs.length) :
    Images f.params.toFinset r.reads (r.start upstream inputs primal) size
      ((m.fork f).enter f.params (upstreamArg :: inputArgs ++ [primalArg])) m := by
  have hnodup : f.params.Nodup := (List.nodup_append.mp (f.nodup_of_isValid hr.valid)).1
  have hsize : ∀ v ∈ f.params, v.idx < (m.fork f).vars.size := by
    simpa [Machine.fork, Machine.new] using hparams
  have hkeeps := Machine.enter_keeps (m.fork f) f.params (upstreamArg :: inputArgs ++ [primalArg])
  have henter {i : Nat} {v : Var} {s : Slot R} (hv : f.params[i]? = some v)
      (hs : (upstreamArg :: inputArgs ++ [primalArg])[i]? = some s) :
      ((m.fork f).enter f.params (upstreamArg :: inputArgs ++ [primalArg])).var v = some s :=
    Machine.enter_param hnodup hsize hv hs
  simp only [hr.params] at hnodup henter hkeeps ⊢
  rw [List.cons_append, List.nodup_cons, List.mem_append, List.mem_singleton, not_or,
    List.nodup_append] at hnodup
  obtain ⟨⟨hup, hne⟩, hdistinct, _, hapart⟩ := hnodup
  constructor
  · intro v hv hread
    simp only [List.mem_toFinset, List.cons_append, List.mem_cons, List.mem_append,
      List.not_mem_nil, or_false] at hv
    -- no parameter is there twice, so what was set last for one is what was meant for it
    rcases hv with rfl | hv | rfl
    · have hstart : r.start upstream inputs primal r.upstream = upstream := by
        rw [start, setAll_of_notMem hup, Subst.set, if_neg hne, Subst.set, if_pos rfl]
      rw [hstart]
      exact ⟨hold _ List.mem_cons_self, upstreamArg, henter (i := 0) rfl rfl, h.upstream⟩
    · obtain ⟨i, hi⟩ := List.mem_iff_getElem?.mp hv
      have hlt : i < r.inputs.length := (List.getElem?_eq_some_iff.mp hi).1
      obtain ⟨w, hw⟩ : ∃ w, inputs[i]? = some w := ⟨_, List.getElem?_eq_getElem (by omega)⟩
      obtain ⟨s, hs⟩ : ∃ s, inputArgs[i]? = some s := ⟨_, List.getElem?_eq_getElem (by omega)⟩
      have hstart : r.start upstream inputs primal v = w := setAll_of_getElem? hdistinct hi hw
      rw [hstart]
      refine ⟨hold w ?_, s, henter (i := i + 1) ?_ ?_, h.inputs i w s hw hs ?_⟩
      · simp [List.mem_of_getElem? hw]
      · simpa [List.getElem?_append_left hlt] using hi
      · simpa [List.getElem?_append_left (hargs ▸ hlt)] using hs
      · simp [readsInput, hi, hread]
    · have hprimal : r.primal ∉ r.inputs := fun hmem => hapart _ hmem _ (by simp) rfl
      have hstart : r.start upstream inputs primal r.primal = primal := by
        rw [start, setAll_of_notMem hprimal, Subst.set, if_pos rfl]
      rw [hstart]
      refine ⟨hold primal (by simp), primalArg, henter (i := r.inputs.length + 1) ?_ ?_, h.primal ?_⟩
      · simp
      · simp [← hargs]
      · simp [readsPrimal, hread]
  · exact hkeeps.2.1.symm
  · exact hkeeps.2.2.1.symm

/-! ## What inlined code depends on -/

theorem set_congr (h : ∀ v ∈ reads, τ v = σ v) {a w w' : Var} (ha : a ∈ reads → w' = w) :
    ∀ v ∈ reads, τ.set a w' v = σ.set a w v := by
  intro v hv
  rw [Subst.set, Subst.set]
  by_cases heq : v = a
  · rw [if_pos heq, if_pos heq]
    exact ha (heq ▸ hv)
  · rw [if_neg heq, if_neg heq]
    exact h v hv

theorem setAll_congr {ws' : List Var} (h : ∀ v ∈ reads, τ v = σ v) (hws : ws.length = vs.length)
    (hws' : ws'.length = vs.length)
    (hread : ∀ (i : Nat) v, vs[i]? = some v → v ∈ reads → ws'[i]? = ws[i]?) :
    ∀ v ∈ reads, τ.setAll (vs.zip ws') v = σ.setAll (vs.zip ws) v := by
  induction vs generalizing σ τ ws ws' with
  | nil => exact h
  | cons a vs ih =>
    cases ws with
    | nil => cases hws
    | cons w ws =>
      cases ws' with
      | nil => cases hws'
      | cons w' ws' =>
        have hset := set_congr h fun ha => Option.some.inj (hread 0 a rfl ha)
        exact ih hset (Nat.succ.inj hws) (Nat.succ.inj hws') fun i v hv => hread (i + 1) v hv

/-- Inlined code depends on what stands for the variables that are read only. -/
theorem inlineSteps_congr {ss : Block} (hreads : readsOf ss ⊆ reads) (h : ∀ v ∈ reads, τ v = σ v)
    (hinline : inlineSteps f ss σ l = (stmts, σ', l')) :
    ∃ τ', inlineSteps f ss τ l = (stmts, τ', l') ∧ ∀ v ∈ reads, τ' v = σ' v := by
  induction ss generalizing σ τ l stmts with
  | nil =>
    cases hinline
    exact ⟨τ, rfl, h⟩
  | cons s ss ih =>
    cases s with
    | define dst decl e =>
      rw [readsOf, List.append_subset] at hreads
      have hexpr : e.mapVars τ = e.mapVars σ := Expr.mapVars_congr fun v hv => h v (hreads.1 hv)
      rw [inlineSteps] at hinline ⊢
      generalize l.declare (f.info dst).name (f.info dst).ty false = d at hinline ⊢
      obtain ⟨v, l₁⟩ := d
      dsimp only at hinline ⊢
      generalize hrest : inlineSteps f ss (σ.set dst v) l₁ = rest at hinline
      obtain ⟨stmts₁, σ₁, l₂⟩ := rest
      cases hinline
      obtain ⟨τ', hτ', hagree⟩ := ih hreads.2 (set_congr h fun _ => rfl) hrest
      rw [hτ', hexpr]
      exact ⟨τ', rfl, hagree⟩
    | _ => exact ih hreads h hinline

theorem start_congr (upstream : Var) {primal' : Var} {inputs' : List Var}
    (hinputs : inputs.length = r.inputs.length) (hinputs' : inputs'.length = r.inputs.length)
    (hread : ∀ i, r.readsInput i = true → inputs'[i]? = inputs[i]?)
    (hprimal : r.readsPrimal = true → primal' = primal) :
    ∀ v ∈ r.reads, r.start upstream inputs' primal' v = r.start upstream inputs primal v := by
  apply setAll_congr _ hinputs hinputs'
  · intro i v hv hmem
    exact hread i (by simp [readsInput, hv, hmem])
  · apply set_congr fun _ _ => rfl
    intro hmem
    exact hprimal (by simp [readsPrimal, hmem])

/-! ## The whole rule -/

/-- The definitions of an accepted rule, and the return behind them. -/
theorem Accepted.mirrors [Scalar R] {j k : Job R} (hexterns : k.externs = j.externs) {steps : Block}
    (hr : Accepted f r steps) {m : Machine R} (hdecls : ∀ v ∈ allDecls f.body, v.idx < n.vars.size)
    (hinline : inlineSteps f f.body σ l = (stmts, σ', l')) (hsize : l'.vars.size ≤ m.vars.size)
    (h : Images f.params.toFinset r.reads σ l.vars.size n m) :
    Mirrors l.vars.size m (fun vals _ m' => ∃ s, vals = [s] ∧ m'.var (σ' r.result) = some s)
        (Flow.results (j.execBlock f.body n)) (k.execBlock stmts m) ∧
      k.calls stmts m = j.calls f.body n := by
  have hscoped := f.scoped_of_isValid hr.valid
  have hreads : readsOf steps ⊆ r.reads := by
    intro v hv
    rw [reads, hr.func, hr.body, readsOf_append]
    exact List.mem_cons_of_mem _ (List.mem_append_left _ hv)
  rw [hr.body, inlineSteps_concat_ret] at hinline
  rw [hr.body, blockScoped_append] at hscoped
  have hsteps : ∀ v ∈ blockDecls steps, v.idx < n.vars.size := by
    intro v hv
    apply hdecls v
    apply blockDecls_subset
    rw [hr.body, blockDecls_append]
    exact List.mem_append_left _ hv
  obtain ⟨hmirrors, hcalls⟩ :=
    inlineSteps_mirrors hexterns hr.steps hscoped.1 hreads hsteps hinline hsize h
  rw [hr.body, Job.calls_concat_ret]
  refine ⟨?_, hcalls⟩
  generalize hrun : j.execBlock steps n = run at hmirrors
  generalize k.execBlock stmts m = inlined at hmirrors ⊢
  cases hmirrors with
  | fails hworld hgraph hkept =>
    rw [Job.execBlock_append, bind_error hrun]
    exact .fails hworld hgraph hkept
  | @ends flow n' m' hend hworld hgraph hkept =>
    obtain ⟨rfl, himages⟩ := hend
    obtain ⟨_, s, hn, hm⟩ :=
      himages.held r.result (hscoped.2.1 r.result List.mem_cons_self) List.mem_cons_self
    have hread : j.readAll [r.result] n' = .ok [s] n' :=
      (j.readAll_eq_ok n').mpr ⟨congrArg ([·]) hn, rfl⟩
    rw [Job.execBlock_append_next j hrun, Job.execBlock_singleton, Job.exec_ret, bind_ok hread]
    exact .ends ⟨s, rfl, hm⟩ hworld hgraph hkept

/-- **Inlining a rule is calling it.** Take the definitions that a rule is inlined as, for any
variables of a function, and a machine where these hold the arguments of a run of the rule as
far as the rule reads them. The definitions make the calls that the run makes. They fail with
the error that the run fails with, or the resulting variable holds what the run returns. No
variable that was there before changes, neither in the table nor in the machine. What is
inlined is the same whatever variable is given for an input or a primal that is not read. -/
theorem inline_as_run [Scalar R] {r : Rule} (hr : ofFunc f = .ok r)
    (hvars : ∀ v ∈ f.params ++ allDecls f.body, v.idx < f.vars.size) {l l' : Locals}
    {upstream primal out : Var} {inputs : List Var} {stmts : Block}
    (hinputs : inputs.length = r.inputs.length)
    (hold : ∀ v ∈ upstream :: inputs ++ [primal], v.idx < l.vars.size)
    (hinline : r.inline l upstream inputs primal = (stmts, out, l')) :
    l.Le l' ∧
    (∀ (j k : Job R) (m : Machine R) (upstreamArg primalArg : Slot R) (inputArgs : List (Slot R)),
      j.func = f → k.externs = j.externs → l'.vars.size ≤ m.vars.size →
      inputArgs.length = r.inputs.length →
      r.Supplied m upstream inputs primal upstreamArg inputArgs primalArg →
      Mirrors l.vars.size m (fun vals _ m' => ∃ s, vals = [s] ∧ m'.var out = some s)
          (j.runSlots (upstreamArg :: inputArgs ++ [primalArg]) (m.fork f)) (k.execBlock stmts m) ∧
        k.calls stmts m = j.runCalls (upstreamArg :: inputArgs ++ [primalArg]) (m.fork f)) ∧
    ∀ inputs' primal', inputs'.length = r.inputs.length →
      (∀ i, r.readsInput i = true → inputs'[i]? = inputs[i]?) →
      (r.readsPrimal = true → primal' = primal) →
      r.inline l upstream inputs' primal' = (stmts, out, l') := by
  obtain ⟨steps, haccepted⟩ := accepted_of_ofFunc hr
  obtain ⟨σ, hsteps, rfl⟩ := inline_eq_iff.mp hinline
  refine ⟨inlineSteps_le hsteps, ?_, ?_⟩
  · intro j k m upstreamArg primalArg inputArgs hj hexterns hsize hargs hsupplied
    have hparams : ∀ v ∈ f.params, v.idx < f.vars.size :=
      fun v hv => hvars v (List.mem_append_left _ hv)
    have hdecls : ∀ v ∈ allDecls f.body, v.idx < ((m.fork f).enter f.params
        (upstreamArg :: inputArgs ++ [primalArg])).vars.size := by
      intro v hv
      rw [Machine.size_enter]
      simpa [Machine.fork, Machine.new] using hvars v (List.mem_append_right _ hv)
    have himages := hsupplied.images haccepted hparams hold hinputs hargs
    have hlength : (upstreamArg :: inputArgs ++ [primalArg]).length = j.func.params.length := by
      simp [hj, haccepted.params, hargs]
    rw [haccepted.func] at hsteps
    rw [Job.runSlots_eq j _ hlength, Job.runCalls, hj]
    exact haccepted.mirrors hexterns hdecls hsteps hsize himages
  · intro inputs' primal' hinputs' hread hprimal
    have hreads : readsOf r.func.body ⊆ r.reads := List.subset_cons_self _ _
    obtain ⟨τ, hτ, hagree⟩ :=
      inlineSteps_congr hreads (start_congr upstream hinputs hinputs' hread hprimal) hsteps
    exact inline_eq_iff.mpr ⟨τ, hτ, (hagree r.result List.mem_cons_self).symm⟩

end Rule

/-- A rule that calls an operation on its first input, and reads neither the second one nor
the primal. -/
def Func.squaring : Func where
  name := "nn.mix.d0"
  attrs := []
  params := [⟨0⟩, ⟨1⟩, ⟨2⟩, ⟨3⟩]
  returns := [.real]
  vars := #[⟨"upstream", .real, false⟩, ⟨"x", .real, false⟩, ⟨"y", .real, false⟩,
    ⟨"primal", .real, false⟩, ⟨"sq", .real, false⟩, ⟨"r", .real, false⟩]
  body := [.define ⟨4⟩ true (.call "times" [⟨1⟩, ⟨1⟩] none),
    .define ⟨5⟩ true (.op .fmul [⟨0⟩, ⟨4⟩]), .ret [⟨5⟩]]

def Rule.squaring : Rule := ⟨.squaring, ⟨0⟩, [⟨1⟩, ⟨2⟩], ⟨3⟩, ⟨5⟩⟩

def Externs.times : Externs ℚ where
  call name args := match args with
    | [.real x, .real y] => pure (.real (x * y))
    | _ => throw (.unknownExtern name)
  partials _ _ := return .none

def Locals.pair : Locals := { vars := #[⟨"a", .real, false⟩, ⟨"b", .real, false⟩] }

/-- The first one of the pair is set. There is room for two new variables. -/
def Machine.pair : Machine ℚ where
  vars := #[some ⟨.real 3, none⟩, none, none, none]

theorem squaring_returns : (match (⟨.squaring, .times, 0⟩ : Job ℚ).runSlots
      (⟨.real 3, none⟩ :: [⟨.real 3, none⟩, ⟨.real 5, none⟩] ++ [⟨.real 7, none⟩])
      (Machine.pair.fork .squaring) with
    | .ok [⟨.real y, none⟩] _ => y == 27
    | _ => false) = true := by decide +kernel

/-- One variable stands for the upstream derivative and the first input. The one for the other
input and the primal is not set, and might be any other. -/
theorem squaring_inline_as_run : ∃ stmts out l' m',
    Rule.squaring.inline .pair ⟨0⟩ [⟨0⟩, ⟨1⟩] ⟨1⟩ = (stmts, out, l') ∧
    (⟨.squaring, .times, 0⟩ : Job ℚ).execBlock stmts .pair = .ok .next m' ∧
    m'.var out = some ⟨.real 27, none⟩ ∧ m'.var ⟨0⟩ = some ⟨.real 3, none⟩ ∧
    m'.var ⟨1⟩ = none ∧
    (⟨.squaring, .times, 0⟩ : Job ℚ).calls stmts .pair = [⟨"times", [.real 3, .real 3], {}⟩] ∧
    Rule.squaring.inline .pair ⟨0⟩ [⟨0⟩, ⟨0⟩] ⟨0⟩ = (stmts, out, l') := by
  have hrule : Rule.ofFunc .squaring = .ok .squaring := by rfl
  generalize hinline : Rule.squaring.inline .pair ⟨0⟩ [⟨0⟩, ⟨1⟩] ⟨1⟩ = code
  obtain ⟨stmts, out, l'⟩ := code
  have hsize : l'.vars.size ≤ Machine.pair.vars.size := by
    have hgrown : (Rule.squaring.inline .pair ⟨0⟩ [⟨0⟩, ⟨1⟩] ⟨1⟩).2.2.vars.size ≤
        Machine.pair.vars.size := by decide +kernel
    rwa [hinline] at hgrown
  have hsupplied : Rule.squaring.Supplied Machine.pair ⟨0⟩ [⟨0⟩, ⟨1⟩] ⟨1⟩ ⟨.real 3, none⟩
      [⟨.real 3, none⟩, ⟨.real 5, none⟩] ⟨.real 7, none⟩ := by
    constructor
    · rfl
    · intro i v s hv hs hread
      rcases i with _ | _ | i
      · cases hv
        cases hs
        rfl
      · cases hread
      · simp at hv
    · intro hread
      cases hread
  obtain ⟨_, hrun, hsame⟩ :=
    Rule.inline_as_run (R := ℚ) hrule (by decide) (by rfl) (by decide) hinline
  obtain ⟨hmirrors, hcalls⟩ :=
    hrun ⟨.squaring, .times, 0⟩ ⟨.squaring, .times, 0⟩ .pair _ _ _ rfl rfl hsize rfl hsupplied
  have hreturns := squaring_returns
  generalize (⟨.squaring, .times, 0⟩ : Job ℚ).runSlots _ _ = run at hmirrors hreturns
  generalize hexec : (⟨.squaring, .times, 0⟩ : Job ℚ).execBlock stmts .pair = inlined at hmirrors
  cases hmirrors with
  | fails => cases hreturns
  | ends hresult _ _ hkept =>
    obtain ⟨s, rfl, hout⟩ := hresult
    split at hreturns
    · rename_i y n heq
      cases heq
      obtain rfl := beq_iff_eq.mp hreturns
      refine ⟨stmts, out, l', _, rfl, hexec, hout, hkept.vars ⟨0⟩ (by decide),
        hkept.vars ⟨1⟩ (by decide), hcalls.trans (by rfl), ?_⟩
      apply hsame [⟨0⟩, ⟨0⟩] ⟨0⟩ rfl
      · intro i hread
        rcases i with _ | _ | i
        · rfl
        · cases hread
        · cases hread
      · intro hread
        cases hread
    · cases hreturns

end Backsweep
