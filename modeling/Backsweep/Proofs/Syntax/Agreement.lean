import Mathlib
import Backsweep.Proofs.Syntax.Accepted

/-!
# The reader and the check agree on scopes

The reader resolves names by maps from names to variables, the check goes by the
variables in scope. Both open and close their scopes at the same places, so a function
that was read has no violation that is about scopes.

* `Violation.isScoping`: the violations that a text can not have;
* `Env.Sees`: what the reader can name is in scope for the check;
* `stmts_agree`: statements that obey the rules keep it so;
* `declared_block`: the table lists the declarations in the order of the text;
* `Func.read_scoped`: both together.
-/

namespace Backsweep

variable {v : Var} {vs : List Var} {body : Block}

/-- The violation is about declarations, or about the number of operands. -/
def Violation.isScoping : Violation → Bool
  | .undefinedVar _ | .redeclared _ | .arity _ _ _ => true
  | .immutableAssign _ | .typeMismatch _ _ _ | .invalidTape _ | .returnMismatch _ _ => false

namespace Checker

/-! ## Checks that say nothing about scopes -/

/-- All that the second state reports beyond the first is not about scopes. -/
def Silent (c c' : Checker) : Prop :=
  ∀ x ∈ c'.violations, x ∈ c.violations ∨ x.isScoping = false

theorem Silent.refl (c : Checker) : Silent c c := fun _ hx => .inl hx

variable {c : Checker}

theorem Silent.trans {a b : Checker} (h : Silent a b) (h' : Silent b c) : Silent a c := by
  intro x hx
  rcases h' x hx with hx | hx
  · exact h x hx
  · exact .inr hx

variable {f : Func}

theorem require_silent (c : Checker) {ok : Bool} {x : Violation}
    (h : ok = true ∨ x.isScoping = false) : Silent c (c.require ok x) := by
  intro y hy
  unfold require at hy
  split at hy
  · exact .inl hy
  · rename_i hok
    rcases List.mem_cons.mp hy with rfl | hy
    · exact .inr (h.resolve_left hok)
    · exact .inl hy

theorem expectTy_silent (c : Checker) (v : Var) (ty : Ty) : Silent c (c.expectTy f v ty) :=
  require_silent c (.inr rfl)

theorem useVar_silent (h : v ∈ c.inScope) : Silent c (c.useVar f v) :=
  require_silent c (.inl (List.contains_iff_mem.mpr h))

theorem useAt_silent (ty : Ty) (h : v ∈ c.inScope) : Silent c (c.useAt f v ty) :=
  (useVar_silent h).trans (expectTy_silent _ v ty)

theorem useAll_silent (h : ∀ v ∈ vs, v ∈ c.inScope) : Silent c (c.useAll f vs) := by
  induction vs generalizing c with
  | nil => exact .refl c
  | cons v vs ih =>
    have hscope : (c.useVar f v).inScope = c.inScope := (require_scope _ _ _).inScope
    refine (useVar_silent (h v List.mem_cons_self)).trans (ih fun w hw => ?_)
    rw [hscope]
    exact h w (List.mem_cons_of_mem _ hw)

theorem useAllAt_silent (tys : List Ty) (h : ∀ v ∈ vs, v ∈ c.inScope) :
    Silent c (c.useAllAt f vs tys) := by
  induction vs generalizing c tys with
  | nil => exact .refl c
  | cons v vs ih =>
    cases tys with
    | nil => exact .refl c
    | cons ty tys =>
      refine (useAt_silent ty (h v List.mem_cons_self)).trans (ih tys fun w hw => ?_)
      rw [(useAt_scope c v ty).inScope]
      exact h w (List.mem_cons_of_mem _ hw)

end Checker

/-! ## What the reader can name -/

/-- What the reader can name is in the table, and in scope for the check. All that the
check knows is in the table. -/
structure Env.Sees (E : Env) (c : Checker) : Prop where
  inScope : ∀ scope ∈ E.scopes, ∀ p ∈ scope, p.2 ∈ c.inScope
  named : ∀ scope ∈ E.scopes, ∀ p ∈ scope, p.2.idx < E.vars.size
  declared : ∀ v ∈ c.declared, v.idx < E.vars.size

namespace Env.Sees

variable {E : Env} {c c' : Checker}

theorem means (h : E.Sees c) (hv : E.Means v) : v ∈ c.inScope := by
  obtain ⟨scope, hscope, hfind⟩ := List.exists_of_findSome?_eq_some hv.found
  obtain ⟨p, hp, rfl⟩ := Option.map_eq_some_iff.mp hfind
  exact h.inScope scope hscope p (List.mem_of_find?_eq_some hp)

theorem same (h : E.Sees c) (hsame : Checker.SameScope c c') : E.Sees c' := by
  refine ⟨?_, h.named, ?_⟩
  · rw [hsame.inScope]
    exact h.inScope
  · rw [hsame.declared]
    exact h.declared

theorem enter (h : E.Sees c) : E.enter.Sees { c with frame := [] } := by
  refine ⟨fun scope hscope p hp => ?_, fun scope hscope p hp => ?_, h.declared⟩
  all_goals rcases List.mem_cons.mp hscope with rfl | hscope
  · cases hp
  · exact h.inScope scope hscope p hp
  · cases hp
  · exact h.named scope hscope p hp

theorem declare (h : E.Sees c) (f : Func) (info : VarInfo) :
    (E.declare info).Sees (c.declare f ⟨E.vars.size⟩) := by
  have hsame := Checker.require_scope c (!c.declared.contains ⟨E.vars.size⟩)
    (.redeclared (f.varName ⟨E.vars.size⟩))
  have hsize : (E.declare info).vars.size = E.vars.size + 1 := Array.size_push ..
  have hin : (c.declare f ⟨E.vars.size⟩).inScope = ⟨E.vars.size⟩ :: c.inScope := by
    simp only [Checker.declare, hsame.inScope]
  have hdeclared : (c.declare f ⟨E.vars.size⟩).declared = ⟨E.vars.size⟩ :: c.declared := by
    simp only [Checker.declare, hsame.declared]
  -- a pair of the grown scopes is the new one, or was there before
  have hpair {scope : Reader.Scope} (hscope : scope ∈ (E.declare info).scopes) {p : String × Var}
      (hp : p ∈ scope) : p.2 = ⟨E.vars.size⟩ ∨ ∃ scope ∈ E.scopes, p ∈ scope := by
    rcases List.mem_cons.mp hscope with rfl | hscope
    · rcases List.mem_cons.mp hp with rfl | hp
      · exact .inl rfl
      · cases hE : E.scopes with
        | nil => rw [hE] at hp; cases hp
        | cons inner outer =>
          rw [hE] at hp
          exact .inr ⟨inner, List.mem_cons_self, hp⟩
    · exact .inr ⟨scope, List.mem_of_mem_tail hscope, hp⟩
  refine ⟨fun scope hscope p hp => ?_, fun scope hscope p hp => ?_, fun v hv => ?_⟩
  · rw [hin]
    rcases hpair hscope hp with hp | ⟨old, hold, hp⟩
    · exact hp ▸ List.mem_cons_self
    · exact List.mem_cons_of_mem _ (h.inScope old hold p hp)
  · rw [hsize]
    rcases hpair hscope hp with hp | ⟨old, hold, hp⟩
    · rw [hp]; exact Nat.lt_succ_self _
    · have := h.named old hold p hp
      omega
  · rw [hsize]
    rw [hdeclared] at hv
    rcases List.mem_cons.mp hv with rfl | hv
    · exact Nat.lt_succ_self _
    · have := h.declared v hv
      omega

end Env.Sees

/-! ## Statements -/

/-- The reader goes from `E` to `E'` over what takes the check from `c` to `c'`, and both
agree on it. -/
structure Agrees (E E' : Env) (c c' : Checker) : Prop where
  sees : E'.Sees c'
  silent : Checker.Silent c c'
  /-- The innermost block of the check grows by new variables. -/
  frame : ∀ v ∈ c'.frame, v ∈ c.frame ∨ E.vars.size ≤ v.idx
  size : E.vars.size ≤ E'.vars.size
  outer : E'.scopes.tail = E.scopes.tail

namespace Agrees

variable {E E₁ E₂ : Env} {c c₁ c₂ : Checker} {f : Func}

theorem trans (h : Agrees E E₁ c c₁) (h' : Agrees E₁ E₂ c₁ c₂) : Agrees E E₂ c c₂ := by
  refine ⟨h'.sees, h.silent.trans h'.silent, fun v hv => ?_, h.size.trans h'.size,
    h'.outer.trans h.outer⟩
  rcases h'.frame v hv with hv | hv
  · exact h.frame v hv
  · exact .inr (h.size.trans hv)

/-- A part of the check that declares nothing. -/
theorem quiet (hE : E.Sees c) (hsame : Checker.SameScope c c₁) (hsilent : Checker.Silent c c₁) :
    Agrees E E c c₁ :=
  ⟨hE.same hsame, hsilent, fun _ hv => .inl (hsame.frame ▸ hv), Nat.le_refl _, rfl⟩

theorem useAt (hE : E.Sees c) (hv : E.Means v) (ty : Ty) : Agrees E E c (c.useAt f v ty) :=
  quiet hE (Checker.useAt_scope c v ty) (Checker.useAt_silent ty (hE.means hv))

theorem expr (hE : E.Sees c) {e : Expr} (he : ExprRule E e) (dst : Var) :
    Agrees E E c (c.expr f dst e) := by
  refine quiet hE (Checker.expr_scope c dst e) ?_
  cases e with
  | const k => exact Checker.expectTy_silent c dst k.ty
  | copy src => exact Checker.useAt_silent _ (hE.means he)
  | load obj field => exact Checker.useAt_silent _ (hE.means he.1)
  | op opcode args =>
    obtain ⟨hlength, hargs⟩ := he
    refine ((Checker.require_silent c (.inl (beq_iff_eq.mpr hlength))).trans
      (Checker.useAllAt_silent _ fun v hv => ?_)).trans (Checker.expectTy_silent _ _ _)
    rw [(Checker.require_scope _ _ _).inScope]
    exact hE.means (hargs v hv)
  | call callee args node => exact Checker.useAll_silent fun v hv => hE.means (he.2.1 v hv)
  | pop t => exact Checker.expectTy_silent _ _ _
  | topIs t d => exact (Checker.require_silent c (.inr rfl)).trans (Checker.expectTy_silent _ _ _)

theorem declare (hE : E.Sees c) (info : VarInfo) :
    Agrees E (E.declare info) c (c.declare f ⟨E.vars.size⟩) := by
  have hnew : (!c.declared.contains (⟨E.vars.size⟩ : Var)) = true := by
    simpa using fun hin => Nat.lt_irrefl _ (hE.declared _ hin)
  refine ⟨hE.declare f info, Checker.require_silent c (.inl hnew), fun v hv => ?_, ?_, rfl⟩
  · have hframe : (c.declare f ⟨E.vars.size⟩).frame = ⟨E.vars.size⟩ :: c.frame := by
      simp only [Checker.declare, (Checker.require_scope _ _ _).frame]
    rw [hframe] at hv
    rcases List.mem_cons.mp hv with rfl | hv
    · exact .inr (Nat.le_refl _)
    · exact .inl hv
  · simp [Env.declare]

/-- A block: both close the scope they opened. What is declared inside is new, so the
check leaves everything else in scope. -/
theorem inBlock (hE : E.Sees c) (check : Checker → Checker)
    (h : Agrees E.enter E₁ { c with frame := [] } (check { c with frame := [] })) :
    Agrees E E₁.leave c (c.inBlock check) := by
  have hscopes : E₁.leave.scopes = E.scopes := h.outer
  refine ⟨⟨fun scope hscope p hp => ?_, fun scope hscope => ?_, h.sees.declared⟩, h.silent,
    fun v hv => .inl hv, h.size, congrArg List.tail hscopes⟩
  · have hin := h.sees.inScope scope (List.mem_of_mem_tail hscope) p hp
    rw [hscopes] at hscope
    have hold := hE.named scope hscope p hp
    refine List.mem_filter.mpr ⟨hin, ?_⟩
    have hnew : p.2 ∉ (check { c with frame := [] }).frame := by
      intro hframe
      rcases h.frame _ hframe with hframe | hframe
      · cases hframe
      · exact Nat.not_le_of_lt hold hframe
    simpa using hnew
  · exact h.sees.named scope (List.mem_of_mem_tail hscope)

end Agrees

/-- However the check gets to a block, it agrees with the reader on it. -/
def BlockAgrees (f : Func) (E : Env) (ss : Block) (E' : Env) : Prop :=
  ∀ c : Checker, E.Sees c → Agrees E E' c (Checker.stmts f ss c)

section
variable {f : Func} {E E₁ E₂ : Env} {c : Checker}

theorem agrees_block (hE : E.Sees c) (h : BlockAgrees f E.enter body E₁) :
    Agrees E E₁.leave c (c.inBlock (Checker.stmts f body)) :=
  .inBlock hE _ (h _ hE.enter)

theorem agrees_assign {e : Expr} (hE : E.Sees c) (hv : E.Means v) (he : ExprRule E e) :
    Agrees E E c (Checker.stmt f (.define v false e) c) := by
  have hexpr := Agrees.expr (f := f) hE he v
  have huse := Checker.useVar_silent (f := f) (hexpr.sees.means hv)
  refine hexpr.trans (.quiet hexpr.sees
    ((Checker.require_scope _ _ _).trans (Checker.require_scope _ _ _)) ?_)
  exact huse.trans (Checker.require_silent _ (.inr rfl))

theorem agrees_declare {e : Expr} (info : VarInfo) (hE : E.Sees c) (he : ExprRule E e) :
    Agrees E (E.declare info) c (Checker.stmt f (.define ⟨E.vars.size⟩ true e) c) := by
  have hexpr := Agrees.expr (f := f) hE he ⟨E.vars.size⟩
  exact hexpr.trans (.declare hexpr.sees info)

theorem agrees_store {obj val : Var} (field : String) (hE : E.Sees c) (hobj : E.Means obj)
    (hval : E.Means val) : Agrees E E c (Checker.stmt f (.store obj field val) c) := by
  have huse := Agrees.useAt (f := f) hE hobj .obj
  exact huse.trans (.quiet huse.sees (Checker.require_scope _ _ _)
    (Checker.useVar_silent (huse.sees.means hval)))

/-- The variables of the header stay in scope in the body. -/
theorem agrees_loop {header : Block} {test : Var} (hE : E.Sees c)
    (hheader : BlockAgrees f E.enter header E₁) (htest : E₁.Means test)
    (hbody : BlockAgrees f E₁.enter body E₂) :
    Agrees E E₂.leave.leave c (Checker.stmt f (.loop header test body) c) := by
  have hh := hheader _ hE.enter
  have ht := hh.trans (.useAt (f := f) hh.sees htest .bool)
  have hb := ht.trans (agrees_block ht.sees hbody)
  exact Agrees.inBlock hE
    (fun c => ((Checker.stmts f header c).useAt f test .bool).inBlock (Checker.stmts f body)) hb

theorem agrees_doLoop {test : Var} (hE : E.Sees c) (hbody : BlockAgrees f E.enter body E₁)
    (htest : E₁.Means test) : Agrees E E₁.leave c (Checker.stmt f (.doLoop body test) c) := by
  have hb := hbody _ hE.enter
  have ht := hb.trans (.useAt (f := f) hb.sees htest .bool)
  exact Agrees.inBlock hE (fun c => (Checker.stmts f body c).useAt f test .bool) ht

theorem agrees_push {val : Var} (t : Tape) (hE : E.Sees c) (hval : E.Means val) :
    Agrees E E c (Checker.stmt f (.push t val) c) := by
  have htape := Agrees.quiet hE (Checker.require_scope c (t.kind != .decisions) (.invalidTape t))
    (Checker.require_silent c (.inr rfl))
  exact htape.trans (.useAt htape.sees hval .real)

theorem agrees_ret {vals : List Var} (hE : E.Sees c) (hvals : ∀ v ∈ vals, E.Means v) :
    Agrees E E c (Checker.stmt f (.ret vals) c) := by
  have hcount := Agrees.quiet hE (Checker.require_scope c (vals.length == f.returns.length)
    (.returnMismatch f.returns.length vals.length)) (Checker.require_silent c (.inr rfl))
  exact hcount.trans (.quiet hcount.sees (Checker.useAllAt_scope _ _ _)
    (Checker.useAllAt_silent _ fun v hv => hcount.sees.means (hvals v hv)))

/-- An arm, its test first. -/
theorem agrees_arm {test : Var} (hE : E.Sees c) (htest : E.Means test)
    (hbody : BlockAgrees f E.enter body E₁) :
    Agrees E E₁.leave c ((c.useAt f test .bool).inBlock (Checker.stmts f body)) := by
  have ht := Agrees.useAt (f := f) hE htest .bool
  exact ht.trans (agrees_block ht.sees hbody)

end

-- The cases follow the rules, so both sides meet the same blocks in the same order.
mutual

theorem stmt_agrees {f : Func} {E E' : Env} {s : Stmt} {c : Checker} :
    StmtRule E s E' → E.Sees c → Agrees E E' c (Checker.stmt f s c)
  | .assign hv he, hE => agrees_assign hE hv he
  | .declare he _, hE => agrees_declare _ hE he
  | .store hobj hval _, hE => agrees_store _ hE hobj hval
  | .cond harms, hE => arms_agree harms hE
  | .loop hheader htest hbody, hE => agrees_loop hE (stmts_agree hheader) htest (stmts_agree hbody)
  | .doLoop hbody htest, hE => agrees_doLoop hE (stmts_agree hbody) htest
  | .block hbody, hE => agrees_block hE (stmts_agree hbody)
  | .push _ hval, hE => agrees_push _ hE hval
  | .pushDecision _ _, hE =>
    .quiet hE (Checker.require_scope _ _ _) (Checker.require_silent c (.inr rfl))
  | .unreachable, hE => .quiet hE (.refl c) (.refl c)
  | .ret hvals, hE => agrees_ret hE hvals

/-- **Over statements that obey the rules, the reader and the check agree.** -/
theorem stmts_agree {f : Func} {E E' : Env} {ss : Block} :
    BlockRule E ss E' → BlockAgrees f E ss E'
  | .nil => fun c hE => .quiet hE (.refl c) (.refl c)
  | .cons hs _ hss => fun _ hE =>
    have hfirst := stmt_agrees hs hE
    hfirst.trans (stmts_agree hss _ hfirst.sees)

theorem arms_agree {f : Func} {E E' : Env} {arms : List (Var × Block)} {other : Block}
    {c : Checker} : ArmsRule E arms other E' → E.Sees c →
      Agrees E E' c ((Checker.arms f arms c).inBlock (Checker.stmts f other))
  | .last htest hbody hother, hE =>
    have hb := agrees_arm hE htest (stmts_agree hbody)
    hb.trans (agrees_block hb.sees (stmts_agree hother))
  | .cons htest hbody harms, hE =>
    have hb := agrees_arm hE htest (stmts_agree hbody)
    hb.trans (arms_agree harms hb.sees)

end

theorem params_agree {f : Func} {E E' : Env} {c : Checker} (h : ParamsRule E vs E') (hE : E.Sees c) :
    Agrees E E' c (vs.foldl (·.declare f ·) c) := by
  induction h generalizing c with
  | nil => exact .quiet hE (.refl c) (.refl c)
  | @cons E E' name t vs hfree hvs ih =>
    have hfirst := Agrees.declare (f := f) hE ⟨name, t, false⟩
    exact hfirst.trans (ih hfirst.sees)

/-! ## The table -/

/-- The variables are the entries that the second table has beyond the first, in order. -/
def Lists (V W : Array VarInfo) (vs : List Var) : Prop :=
  ∃ n, W.size = V.size + n ∧ vs.map Var.idx = List.range' V.size n

namespace Lists

variable {U V W : Array VarInfo}

theorem nil (V : Array VarInfo) : Lists V V [] := ⟨0, rfl, rfl⟩

theorem push (V : Array VarInfo) (info : VarInfo) : Lists V (V.push info) [⟨V.size⟩] :=
  ⟨1, Array.size_push .., rfl⟩

theorem append {ws : List Var} (h : Lists U V vs) (h' : Lists V W ws) : Lists U W (vs ++ ws) := by
  obtain ⟨n, hn, hvs⟩ := h
  obtain ⟨k, hk, hws⟩ := h'
  refine ⟨n + k, by omega, ?_⟩
  rw [List.map_append, hvs, hws, hn, List.range'_append_1]

end Lists

open Reader in
mutual

theorem declared_stmt {E E' : Env} {s : Stmt} :
    StmtRule E s E' → Lists E.vars E'.vars (allDecls [s])
  | .assign _ _ => .nil _
  | .declare _ _ => .push _ _
  | .store _ _ _ => .nil _
  | .cond harms => declared_arms harms
  | .loop hheader _ hbody => by
    have hh := declared_block hheader
    have hb := declared_block hbody
    rw [allDecls_loop]
    exact hh.append hb
  | .doLoop hbody _ => by
    have hb := declared_block hbody
    rw [allDecls_doLoop]
    exact hb
  | .block hbody => by
    have hb := declared_block hbody
    rw [allDecls_block]
    exact hb
  | .push _ _ => .nil _
  | .pushDecision _ _ => .nil _
  | .unreachable => .nil _
  | .ret _ => .nil _

/-- The table lists the declarations of a block in the order of the text. -/
theorem declared_block {E E' : Env} {ss : Block} :
    BlockRule E ss E' → Lists E.vars E'.vars (allDecls ss)
  | .nil => .nil _
  | .cons hs _ hss => by
    rw [allDecls_cons]
    exact (declared_stmt hs).append (declared_block hss)

theorem declared_arms {E E' : Env} {arms : List (Var × Block)} {other : Block} :
    ArmsRule E arms other E' → Lists E.vars E'.vars (allDecls [.cond arms other])
  | .last _ hbody hother => by
    have hb := declared_block hbody
    have ho := declared_block hother
    rw [allDecls_cond_cons, allDecls_cond_nil]
    exact hb.append ho
  | .cons _ hbody harms => by
    have hb := declared_block hbody
    have has := declared_arms harms
    rw [allDecls_cond_cons]
    exact hb.append has

end

theorem declared_params {E E' : Env} (h : ParamsRule E vs E') : Lists E.vars E'.vars vs := by
  induction h with
  | nil => exact .nil _
  | cons hfree hvs ih => exact (Lists.push _ _).append ih

namespace Func

variable {f : Func}

theorem Rule.silent (h : f.Rule) : ∀ x ∈ f.violations, x.isScoping = false := by
  obtain ⟨E, E', hparams, hbody, -⟩ := h.body
  have hstart : Env.Sees ⟨#[], [[]]⟩ {} := by
    refine ⟨fun scope hscope p hp => ?_, fun scope hscope p hp => ?_, by simp⟩
    all_goals rw [List.mem_singleton.mp hscope] at hp; cases hp
  have hp := params_agree (f := f) hparams hstart
  have hall := hp.trans (agrees_block (f := f) hp.sees (stmts_agree hbody))
  intro x hx
  rcases hall.silent x (List.mem_reverse.mp hx) with hx | hx
  · cases hx
  · exact hx

/-- The table of a function lists its parameters, then its declarations. -/
theorem Rule.table (h : f.Rule) :
    (f.params ++ allDecls f.body).map Var.idx = List.range f.vars.size := by
  obtain ⟨E, E', hparams, hbody, hvars⟩ := h.body
  have hb := declared_block hbody
  obtain ⟨n, hn, hlist⟩ := (declared_params hparams).append hb
  rw [hlist, ← hvars, hn, List.range_eq_range']
  simp

/-- **The reader and the check agree on scopes.** A function that was read has no violation
that is about scopes or numbers of operands. Every entry of its table is a parameter, which
is immutable and not declared again, or the variable of exactly one declaration. -/
theorem read_scoped {text : String} (h : Func.read text = .ok f) :
    (∀ x ∈ f.violations, x.isScoping = false) ∧
      ∀ i < f.vars.size,
        (⟨i⟩ ∈ f.params ∧ (f.info ⟨i⟩).mutable = false ∧ (allDecls f.body).count ⟨i⟩ = 0) ∨
          (⟨i⟩ ∉ f.params ∧ (allDecls f.body).count ⟨i⟩ = 1) := by
  have hrule := rule_of_read h
  refine ⟨hrule.silent, fun i hi => ?_⟩
  have hnodup : (f.params ++ allDecls f.body).Nodup := by
    refine List.Nodup.of_map Var.idx ?_
    rw [hrule.table]
    exact List.nodup_range
  have hmem : (⟨i⟩ : Var) ∈ f.params ++ allDecls f.body := by
    have hi : i ∈ (f.params ++ allDecls f.body).map Var.idx := by
      rw [hrule.table]
      exact List.mem_range.mpr hi
    obtain ⟨v, hv, rfl⟩ := List.mem_map.mp hi
    exact hv
  rw [List.nodup_append] at hnodup
  obtain ⟨-, hdecls, hapart⟩ := hnodup
  rcases List.mem_append.mp hmem with hparam | hdecl
  · have himmutable := (IsRead.tabled (.inl ⟨text, h⟩)).immutable ⟨i⟩ hparam
    refine .inl ⟨hparam, himmutable, List.count_eq_zero.mpr fun hdecl => ?_⟩
    exact hapart ⟨i⟩ hparam ⟨i⟩ hdecl rfl
  · refine .inr ⟨fun hparam => hapart ⟨i⟩ hparam ⟨i⟩ hdecl rfl, ?_⟩
    exact List.count_eq_one_of_mem hdecls hdecl

end Func

/-- A text that shadows names in loops and branches, and breaks each of the rules that the
reader does not know. -/
def Shadowing.text : String := "function %f(x: real) -> real {
 let x: int = copy x
 let mut y: int = iadd x, x
 while { let x: bool = ilt x, y } -> x { let x: real = pop values1 }
 do { let y: bool = top_is values1, 3 } while y
 if y { x = copy x } else { let x: real = fconst 1 push decisions1, x }
 return x, y
}"

theorem Shadowing.reads : (match Func.read Shadowing.text with
    | .ok f => f.vars.size == 7 && f.violations.length == 7
    | .error _ => false) = true := by decide +kernel

theorem shadowing_read_scoped : ∃ f, Func.read Shadowing.text = .ok f ∧
    f.violations.length = 7 ∧ (∀ x ∈ f.violations, x.isScoping = false) ∧
      ∀ i < 7,
        (⟨i⟩ ∈ f.params ∧ (f.info ⟨i⟩).mutable = false ∧ (allDecls f.body).count ⟨i⟩ = 0) ∨
          (⟨i⟩ ∉ f.params ∧ (allDecls f.body).count ⟨i⟩ = 1) := by
  have hreads := Shadowing.reads
  cases hread : Func.read Shadowing.text with
  | error e =>
    rw [hread] at hreads
    cases hreads
  | ok f =>
    rw [hread] at hreads
    simp only [Bool.and_eq_true, beq_iff_eq] at hreads
    obtain ⟨hscoping, htable⟩ := Func.read_scoped hread
    exact ⟨f, rfl, hreads.2, hscoping, hreads.1 ▸ htable⟩

end Backsweep
