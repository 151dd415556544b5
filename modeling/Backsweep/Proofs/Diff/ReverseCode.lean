import Mathlib
import Backsweep.Proofs.Diff.Emission

/-!
# What reverse code is made of

Reverse code declares variables of its own and writes to accumulators, and uses
the tapes of its level. It stores nothing and returns nothing.

* `Stmt.IsReverse`: what an atomic statement of reverse code can be;
* `Accumulators.Fit`: accumulators are in the table, behind the variables of the
  function;
* `Emitted`, `Sweep.reverseSteps_emitted`: all reverse code is such code.
-/

namespace Backsweep

variable {n size : Nat} {stmts code : Block} {upstream primal : Var} {c : ActiveCall}
variable {dst : Var} {decls : List Var} {first : Nat}

mutual

/-- The headers of the loops in a statement. -/
def Stmt.loopHeaders : Stmt → List Block
  | .loop header _ body => header :: blockLoopHeaders header ++ blockLoopHeaders body
  | .cond arms other => armsLoopHeaders arms ++ blockLoopHeaders other
  | .doLoop body _ => blockLoopHeaders body
  | .block body => blockLoopHeaders body
  | .define _ _ _ | .store _ _ _ | .push _ _ | .pushDecision _ _ | .unreachable | .ret _ => []

def blockLoopHeaders : List Stmt → List Block
  | [] => []
  | s :: ss => s.loopHeaders ++ blockLoopHeaders ss

def armsLoopHeaders : List (Var × List Stmt) → List Block
  | [] => []
  | (_, body) :: arms => blockLoopHeaders body ++ armsLoopHeaders arms

end

theorem blockLoopHeaders_append (a b : Block) :
    blockLoopHeaders (a ++ b) = blockLoopHeaders a ++ blockLoopHeaders b := by
  induction a with
  | nil => rfl
  | cons s a ih => simp [blockLoopHeaders, ih]

theorem mem_armsLoopHeaders {h : Block} {arms : List (Var × Block)} :
    h ∈ armsLoopHeaders arms ↔ ∃ arm ∈ arms, h ∈ blockLoopHeaders arm.2 := by
  induction arms with
  | nil => simp [armsLoopHeaders]
  | cons arm arms ih => simp [armsLoopHeaders, ih]

/-- Statements without control flow have no headers. -/
theorem blockLoopHeaders_atomic {b : Block} (h : ∀ s ∈ b, s.isControlFlow = false) :
    blockLoopHeaders b = [] := by
  induction b with
  | nil => rfl
  | cons s b ih =>
    have hs : s.loopHeaders = [] := by
      have := h s (by simp)
      cases s <;> first | rfl | cases this
    simp [blockLoopHeaders, hs, ih fun s hs => h s (by simp [hs])]

/-- What reverse code can be made of. -/
structure Reversal where
  level : Level
  /-- The number of variables that are not its own. -/
  base : Nat
  /-- The tapes it uses. -/
  tapes : Tape → Prop
  /-- Whether it calls operations. -/
  calls : Prop
  /-- Whether it chooses between branches. -/
  branches : Prop

/-- An atomic statement of reverse code. All variables it defines are among the
first `size` ones, and none of the function's. -/
def Stmt.IsReverse (rv : Reversal) (size : Nat) : Stmt → Prop
  | .define dst _ e => rv.base ≤ dst.idx ∧ dst.idx < size ∧ (∀ t ∈ e.tape?, rv.tapes t) ∧
      (∀ obj field, e ≠ .load obj field) ∧
      ∀ callee args node, e = .call callee args node → rv.calls
  | .push t _ => t = rv.level.adjoints ∧ rv.tapes t
  | .unreachable => rv.branches
  | .store _ _ _ | .cond _ _ | .loop _ _ _ | .doLoop _ _ | .block _ | .pushDecision _ _
  | .ret _ => False

theorem Stmt.IsReverse.mono {rv : Reversal} {n' : Nat} (h : n ≤ n') {s : Stmt}
    (hs : s.IsReverse rv n) : s.IsReverse rv n' := by
  cases s with
  | define dst decl e => exact ⟨hs.1, Nat.lt_of_lt_of_le hs.2.1 h, hs.2.2⟩
  | push t v => exact hs
  | unreachable => exact hs
  | store obj field val => exact hs
  | cond arms other => exact hs
  | loop header test body => exact hs
  | doLoop body test => exact hs
  | block body => exact hs
  | pushDecision t d => exact hs
  | ret vals => exact hs

/-- Reverse code, generated while the variable table grew from `l` to `l'`. -/
structure Emitted (rv : Reversal) (l l' : Locals) (code : Block) : Prop where
  le : l.Le l'
  atoms : ∀ a ∈ blockAtoms code, a.IsReverse rv l'.vars.size
  headers : ∀ h ∈ blockLoopHeaders code, ∃ a id,
    h = [.define a true (.topIs rv.level.decisions id)]

namespace Emitted

variable {rv : Reversal} {l l₁ l' : Locals} {a b : Block}

theorem nil (rv : Reversal) (l : Locals) : Emitted rv l l [] :=
  ⟨.refl l, by simp [blockAtoms], by simp [blockLoopHeaders]⟩

theorem append (ha : Emitted rv l l₁ a) (hb : Emitted rv l₁ l' b) : Emitted rv l l' (a ++ b) := by
  refine ⟨ha.le.trans hb.le, fun s hs => ?_, fun h hh => ?_⟩
  · rw [blockAtoms_append, List.mem_append] at hs
    exact hs.elim (fun hs => (ha.atoms s hs).mono hb.le.size) (hb.atoms s)
  · rw [blockLoopHeaders_append, List.mem_append] at hh
    exact hh.elim (ha.headers h) (hb.headers h)

/-- The table may grow further. -/
theorem weaken (ha : Emitted rv l l₁ a) (h : l₁.Le l') : Emitted rv l l' a :=
  ⟨ha.le.trans h, fun s hs => (ha.atoms s hs).mono h.size, ha.headers⟩

/-- The table may have grown before. -/
theorem later (ha : Emitted rv l₁ l' a) (h : l.Le l₁) : Emitted rv l l' a :=
  ⟨h.trans ha.le, ha.atoms, ha.headers⟩

theorem block (ha : Emitted rv l l' a) : Emitted rv l l' [.block a] :=
  ⟨ha.le, by simpa [blockAtoms, Stmt.atoms] using ha.atoms,
    by simpa [blockLoopHeaders, Stmt.loopHeaders] using ha.headers⟩

/-- A choice between pieces of reverse code. -/
theorem cond (hle : l.Le l') (hb : rv.branches) {arms : List (Var × Block)}
    (h : ∀ arm ∈ arms, Emitted rv l l' arm.2) :
    Emitted rv l l' [.cond arms [.unreachable]] := by
  refine ⟨hle, fun s hs => ?_, fun header hh => ?_⟩
  · simp only [blockAtoms, Stmt.atoms, List.append_nil, List.mem_append, mem_armsAtoms,
      List.mem_singleton] at hs
    rcases hs with ⟨arm, harm, hs⟩ | rfl
    · exact (h arm harm).atoms s hs
    · exact hb
  · simp only [blockLoopHeaders, Stmt.loopHeaders, List.append_nil, mem_armsLoopHeaders] at hh
    obtain ⟨arm, harm, hh⟩ := hh
    exact (h arm harm).headers header hh

/-- A loop that looks at the decisions. -/
theorem loop {v : Var} {id : Int} (hbase : rv.base ≤ v.idx) (hsize : v.idx < l'.vars.size)
    (hdec : rv.tapes rv.level.decisions) (h : Emitted rv l l' a) :
    Emitted rv l l' [.loop [.define v true (.topIs rv.level.decisions id)] v a] := by
  refine ⟨h.le, fun s hs => ?_, fun header hh => ?_⟩
  · simp only [blockAtoms, Stmt.atoms, List.append_nil, List.mem_append, List.mem_singleton] at hs
    rcases hs with rfl | hs
    · exact ⟨hbase, hsize, by simpa [Expr.tape?] using hdec, by simp, by simp⟩
    · exact h.atoms s hs
  · simp only [blockLoopHeaders, Stmt.loopHeaders, List.append_nil, List.mem_cons,
      List.cons_append, List.nil_append] at hh
    rcases hh with rfl | hh
    · exact ⟨v, id, rfl⟩
    · exact h.headers header hh

/-- Statements without control flow. -/
theorem of_atoms (hle : l.Le l') (h : ∀ s ∈ a, s.IsReverse rv l'.vars.size) :
    Emitted rv l l' a := by
  have hflow : ∀ s ∈ a, s.isControlFlow = false := by
    intro s hs
    have := h s hs
    cases s <;> first | rfl | exact this.elim
  refine ⟨hle, fun s hs => ?_, by simp [blockLoopHeaders_atomic hflow]⟩
  obtain ⟨t, ht, hs⟩ := mem_blockAtoms.mp hs
  rw [Stmt.atoms_of_not_controlFlow (hflow t ht), List.mem_singleton] at hs
  exact hs ▸ h t ht

end Emitted

/-- Accumulators are behind the first `n` variables and among the first `size`,
one for each variable. -/
structure Accumulators.Fit (accs : Accumulators) (n size : Nat) : Prop where
  range : ∀ v a, accs.find? v = some a → n ≤ a.idx ∧ a.idx < size
  inj : ∀ v w a, accs.find? v = some a → accs.find? w = some a → v = w
  property : ∀ a ∈ accs.property, n ≤ a.idx ∧ a.idx < size
  apart : ∀ v, ∀ a ∈ accs.property, accs.find? v ≠ some a

/-- The variable is an accumulator. -/
def Accumulators.Has (accs : Accumulators) (a : Var) : Prop :=
  (∃ v, accs.find? v = some a) ∨ a ∈ accs.property

namespace Accumulators

variable {accs : Accumulators}

theorem Fit.mono {size' : Nat} (h : accs.Fit n size) (hs : size ≤ size') : accs.Fit n size' :=
  ⟨fun v a ha => ⟨(h.range v a ha).1, Nat.lt_of_lt_of_le (h.range v a ha).2 hs⟩, h.inj,
    fun a ha => ⟨(h.property a ha).1, Nat.lt_of_lt_of_le (h.property a ha).2 hs⟩, h.apart⟩

theorem Fit.has (h : accs.Fit n size) {a : Var} (ha : accs.Has a) : n ≤ a.idx ∧ a.idx < size := by
  rcases ha with ⟨v, hv⟩ | ha
  · exact h.range v a hv
  · exact h.property a ha

theorem find?_add (accs : Accumulators) (new : List (Var × Var)) (v : Var) :
    (accs.add new).find? v = (new.reverse.lookup v).or (accs.find? v) := by
  simp [find?, add, List.lookup_append]

theorem mem_of_lookup {ps : List (Var × Var)} {v a : Var} (h : ps.lookup v = some a) :
    (v, a) ∈ ps := by
  induction ps with
  | nil => cases h
  | cons p ps ih =>
    obtain ⟨w, b⟩ := p
    rw [List.lookup_cons] at h
    by_cases hv : v = w
    · subst hv
      simp only [beq_self_eq_true] at h
      cases h
      simp
    · rw [beq_eq_false_iff_ne.mpr hv] at h
      exact List.mem_cons_of_mem _ (ih h)

theorem Fit.add {size' : Nat} (h : accs.Fit n size) (hn : n ≤ size) (hs : size ≤ size')
    {new : List (Var × Var)} (hnew : ∀ p ∈ new, size ≤ p.2.idx ∧ p.2.idx < size')
    (hinj : ∀ p ∈ new, ∀ q ∈ new, p.2 = q.2 → p.1 = q.1) : (accs.add new).Fit n size' := by
  have cases {v a : Var} (ha : (accs.add new).find? v = some a) :
      (v, a) ∈ new ∨ accs.find? v = some a := by
    rw [find?_add, Option.or_eq_some_iff] at ha
    exact ha.imp (fun ha => by simpa using mem_of_lookup ha) (·.2)
  refine ⟨fun v a ha => ?_, fun v w a hv hw => ?_, (h.mono hs).property, fun v a ha hv => ?_⟩
  · rcases cases ha with ha | ha
    · exact ⟨Nat.le_trans hn (hnew _ ha).1, (hnew _ ha).2⟩
    · exact (h.mono hs).range v a ha
  · rcases cases hv with hv | hv <;> rcases cases hw with hw | hw
    · exact hinj _ hv _ hw rfl
    · exact absurd (h.range w a hw).2 (Nat.not_lt.mpr (hnew _ hv).1)
    · exact absurd (h.range v a hv).2 (Nat.not_lt.mpr (hnew _ hw).1)
    · exact h.inj v w a hv hw
  · rcases cases hv with hv | hv
    · exact absurd (h.property a ha).2 (Nat.not_lt.mpr (hnew _ hv).1)
    · exact h.apart v a ha hv

end Accumulators

/-! ## Inlined rules -/

/-- Whether a rule of the node calls an operation. -/
def Node.Calls (n : Node) : Prop :=
  ∃ r ∈ n.rules, ∃ dst decl callee args node,
    Stmt.define dst decl (.call callee args node) ∈ r.func.body

section
variable {rv : Reversal} {l l' : Locals}

theorem inlineSteps_reverse (rv : Reversal) {f : Func} {ss : Block} {m m' : Rule.Subst}
    (hsteps : ∀ s ∈ ss, Rule.isStep s = true ∨ ∃ vals, s = .ret vals)
    (hcalls : ∀ dst decl callee args node,
      Stmt.define dst decl (.call callee args node) ∈ ss → rv.calls) (hbase : rv.base ≤ l.vars.size)
    (h : Rule.inlineSteps f ss m l = (stmts, m', l')) :
    l.Le l' ∧ ∀ s ∈ stmts, s.IsReverse rv l'.vars.size := by
  induction ss generalizing m l stmts m' l' with
  | nil =>
    cases h
    exact ⟨.refl _, by simp⟩
  | cons s ss ih =>
    have hrest : ∀ s ∈ ss, Rule.isStep s = true ∨ ∃ vals, s = .ret vals :=
      fun s hs => hsteps s (by simp [hs])
    have hcrest := fun dst decl callee args node
      (hs : Stmt.define dst decl (.call callee args node) ∈ ss) =>
        hcalls dst decl callee args node (by simp [hs])
    rcases hsteps s (by simp) with hs | ⟨vals, rfl⟩
    · cases s with
      | define dst decl e =>
        obtain ⟨l₁, stmts₁, hle, hsize, hi, rfl⟩ := inlineSteps_define h
        obtain ⟨hle', hrev⟩ := ih hrest hcrest (by omega) hi
        refine ⟨hle.trans hle', List.forall_mem_cons.mpr ⟨⟨hbase, ?_, ?_⟩, hrev⟩⟩
        · have := hle'.size
          dsimp only
          omega
        · cases decl with
          | false => cases hs
          | true =>
            cases e with
            | const c => simp [Expr.mapVars, Expr.tape?]
            | copy w => simp [Expr.mapVars, Expr.tape?]
            | op op args => simp [Expr.mapVars, Expr.tape?]
            | call callee args node =>
              have := hcalls dst true callee args node (by simp)
              simp [Expr.mapVars, Expr.tape?, this]
            | load obj field => cases hs
            | pop t => cases hs
            | topIs t d => cases hs
      | _ => cases hs
    · exact ih hrest hcrest hbase h

/-- An inlined rule is reverse code. -/
theorem Sweep.inline_emitted {n : Node} (hn : n.isSound = true) (hcalls : n.Calls → rv.calls)
    {r : Rule} (hr : r ∈ n.rules) (hbase : rv.base ≤ l.vars.size) {result : Var} {inputs : List Var}
    (h : inline r upstream inputs primal l = .ok ((stmts, result), l')) :
    Emitted rv l l' stmts := by
  simp only [Node.isSound, Bool.and_eq_true, List.all_eq_true] at hn
  obtain ⟨steps, hbody, hsteps⟩ := Rule.body_of_isStraight (hn.2 r hr)
  have hinline := Except.ok.inj h
  generalize hi : Rule.inlineSteps r.func r.func.body (Rule.Subst.setAll
    ((Rule.Subst.set id r.upstream upstream).set r.primal primal) (r.inputs.zip inputs)) l = x
    at hinline
  obtain ⟨stmts', m', l₁⟩ := x
  cases hinline
  obtain ⟨hle, hrev⟩ := inlineSteps_reverse rv (fun s hs => by
      rw [hbody, List.mem_append] at hs
      rcases hs with hs | hs
      · exact .inl (hsteps s hs)
      · exact .inr ⟨_, List.mem_singleton.mp hs⟩)
    (fun dst decl callee args node hs => hcalls ⟨r, hr, dst, decl, callee, args, node, hs⟩) hbase hi
  exact .of_atoms hle hrev

end

/-! ## All reverse code -/

/-- What a reversal has to allow for, given what a plan was made with. -/
structure Reversal.Covers (rv : Reversal) (lo : Lowering) : Prop where
  sound : lo.catalogue.Sound
  calls : ∀ n ∈ lo.catalogue.nodes, n.Calls → rv.calls
  branches : rv.branches
  values : rv.tapes rv.level.values
  decisions : rv.tapes rv.level.decisions
  adjoints : ∀ t, lo.isActiveTape t = true → rv.tapes rv.level.adjoints

theorem Lowering.CallFine.mem {lo : Lowering} (h : lo.CallFine c) :
    c.node ∈ lo.catalogue.nodes := by
  obtain ⟨t, -, hfound⟩ := h.found
  exact Catalogue.mem_of_find hfound

namespace Sweep

variable {s : Sweep} {rv : Reversal} {lo : Lowering} {accs : Accumulators} {l l' : Locals}

/-- A definition of a new variable or of an accumulator. -/
theorem isReverse_define {decl : Bool} {e : Expr} (hbase : rv.base ≤ dst.idx)
    (hsize : dst.idx < size) (htape : ∀ t ∈ e.tape?, rv.tapes t)
    (hload : ∀ obj field, e ≠ .load obj field) (hcall : ∀ callee args node,
      e ≠ .call callee args node) : (Stmt.define dst decl e).IsReverse rv size :=
  ⟨hbase, hsize, htape, hload, fun callee args node h => absurd h (hcall callee args node)⟩

variable {a : Var}

theorem reset_isReverse (h : rv.base ≤ a.idx ∧ a.idx < size) : (s.reset a).IsReverse rv size :=
  isReverse_define h.1 h.2 (by simp [zeroExpr, Expr.tape?]) (by simp [zeroExpr])
    (by simp [zeroExpr])

theorem fold_isReverse {op : Opcode} {b : Var} (h : rv.base ≤ a.idx ∧ a.idx < size) :
    (fold op a b).IsReverse rv size :=
  isReverse_define h.1 h.2 (by simp [Expr.tape?]) (by simp) (by simp)

theorem pop_isReverse {t : Tape} (hbase : rv.base ≤ dst.idx) (hsize : dst.idx < size)
    (ht : rv.tapes t) : (Stmt.define dst true (.pop t)).IsReverse rv size :=
  isReverse_define hbase hsize (by simpa [Expr.tape?] using ht) (by simp) (by simp)

theorem contributions_emitted {n : Node} (hn : n.isSound = true) (hcalls : n.Calls → rv.calls)
    {inputs : List Var} {rs : List (Var × Bool × Rule)} (hrs : ∀ r ∈ rs, r.2.2 ∈ n.rules)
    (hbase : rv.base ≤ l.vars.size) (haccs : accs.Fit rv.base l.vars.size) {op : Opcode}
    (h : s.contributions accs op upstream inputs primal rs l = .ok (code, l')) :
    Emitted rv l l' code := by
  induction rs generalizing l code with
  | nil =>
    obtain ⟨rfl, rfl⟩ := emit_pure_eq_ok.mp h
    exact .nil rv _
  | cons r rs ih =>
    obtain ⟨arg, active, rule⟩ := r
    have hrest : ∀ r ∈ rs, r.2.2 ∈ n.rules := fun r hr => hrs r (by simp [hr])
    cases active with
    | false => exact ih hrest hbase haccs h
    | true =>
      obtain ⟨stmts, contribution, l₁, a, code', hinline, ha, hcode, rfl⟩ := contributions_eq_ok h
      have hin := inline_emitted hn hcalls (hrs (arg, true, rule) (by simp)) hbase hinline
      have hsize := hin.le.size
      have hfold : Emitted rv l₁ l₁ [fold op a contribution] := by
        refine .of_atoms (.refl _) fun s hs => ?_
        rw [List.mem_singleton.mp hs]
        exact fold_isReverse ((haccs.mono hsize).range arg a ha)
      exact hin.append (hfold.append (ih hrest (by omega) (haccs.mono hsize) hcode))

theorem takeAdjoint_emitted (hbase : rv.base ≤ l.vars.size) (haccs : accs.Fit rv.base l.vars.size)
    (ha : accs.find? c.dst = some a) (h : s.takeAdjoint c a l = .ok ((stmts, upstream), l')) :
    Emitted rv l l' stmts := by
  rcases takeAdjoint_eq_ok h with ⟨-, rfl, -, rfl⟩ | ⟨-, -, hle, hsize, rfl⟩
  · exact .nil rv _
  · refine .of_atoms hle fun st hst => ?_
    rcases List.mem_cons.mp hst with rfl | hst
    · exact isReverse_define hbase (by simp [hsize]) (by simp [Expr.tape?]) (by simp) (by simp)
    · rw [List.mem_singleton.mp hst]
      exact reset_isReverse ((haccs.mono (by omega)).range c.dst a ha)

theorem takePrimal_emitted (hlevel : s.level = rv.level) (hv : rv.tapes rv.level.values)
    (hbase : rv.base ≤ l.vars.size) (h : s.takePrimal c l = .ok ((stmts, primal), l')) :
    Emitted rv l l' stmts := by
  rcases takePrimal_eq_ok h with ⟨-, -, hle, hsize, rfl⟩ | ⟨-, rfl, -, rfl⟩
  · refine .of_atoms hle fun st hst => ?_
    rw [List.mem_singleton.mp hst, hlevel]
    exact pop_isReverse hbase (by simp [hsize]) hv
  · exact .nil rv _

theorem popSaved_emitted (hlevel : s.level = rv.level) (hv : rv.tapes rv.level.values)
    (hbase : rv.base ≤ l.vars.size) {vs : List Var} {saved : List (Var × Var)}
    (h : s.popSaved vs l = .ok ((stmts, saved), l')) : Emitted rv l l' stmts := by
  obtain ⟨hle, hsize, rfl, rfl⟩ := popSaved_eq_ok h
  refine .of_atoms hle fun st hst => ?_
  obtain ⟨p, hp, rfl⟩ := List.mem_map.mp hst
  have hfresh := mem_freshVars.mp (List.of_mem_zip hp).2
  rw [hlevel]
  exact pop_isReverse (by omega) (by omega) hv

theorem prepare_emitted (hlevel : s.level = rv.level) (hv : rv.tapes rv.level.values)
    (hbase : rv.base ≤ l.vars.size) (haccs : accs.Fit rv.base l.vars.size)
    (ha : accs.find? c.dst = some a) {before : Block} {ins : List Var}
    (h : s.prepare c a l = .ok ((before, upstream, ins, primal), l')) : Emitted rv l l' before := by
  obtain ⟨adjointStmts, l₁, primalStmts, l₂, savedStmts, saved, hadj, hprim, hsaved, rfl, -⟩ :=
    prepare_eq_ok h
  have h₁ := takeAdjoint_emitted hbase haccs ha hadj
  have s₁ := h₁.le.size
  have h₂ := takePrimal_emitted hlevel hv (by omega) hprim
  have s₂ := h₂.le.size
  exact (h₁.append h₂).append (popSaved_emitted hlevel hv (by omega) hsaved)

theorem reverseCall_emitted (hlevel : s.level = rv.level) (hcov : rv.Covers lo)
    (hbase : rv.base ≤ l.vars.size) (haccs : accs.Fit rv.base l.vars.size) (hc : lo.CallFine c)
    (h : s.reverseCall accs c l = .ok (code, l')) : Emitted rv l l' code := by
  obtain ⟨a, before, upstream, ins, primal, l₁, after, ha, hbefore, hafter, rfl⟩ :=
    reverseCall_eq_ok h
  have h₁ := prepare_emitted hlevel hcov.values hbase haccs ha hbefore
  have s₁ := h₁.le.size
  refine h₁.append (contributions_emitted (hcov.sound _ hc.mem) (hcov.calls _ hc.mem) ?_ (by omega)
    (haccs.mono s₁) hafter)
  intro r hr
  exact (List.of_mem_zip (List.of_mem_zip hr).2).2

theorem reverseAssign_emitted (hlevel : s.level = rv.level) (haccs : accs.Fit rv.base l.vars.size)
    {decl active : Bool} {src : Source}
    (hsrc : ∀ t, src = .tape t → active = true → rv.tapes rv.level.adjoints)
    (h : s.reverseAssign accs dst decl src active l = .ok (code, l')) : Emitted rv l l' code := by
  obtain ⟨rfl, a, ha, hcases⟩ := reverseAssign_eq_ok h
  have hacc := haccs.range dst a ha
  refine .of_atoms (.refl _) fun st hst => ?_
  rcases hcases with ⟨-, rfl⟩ | ⟨hact, ⟨-, rfl⟩ | ⟨v, b, -, -, hb, rfl⟩ |
    ⟨obj, field, b, -, hb, rfl⟩ | ⟨t, ht, rfl⟩⟩
  · cases decl with
    | true => cases hst
    | false =>
      rw [List.mem_singleton.mp hst]
      exact reset_isReverse hacc
  · cases hst
  · rcases List.mem_cons.mp hst with rfl | hst
    · exact fold_isReverse (haccs.range v b hb)
    · rw [List.mem_singleton.mp hst]
      exact reset_isReverse hacc
  · rcases List.mem_cons.mp hst with rfl | hst
    · exact fold_isReverse (haccs.property b hb)
    · rw [List.mem_singleton.mp hst]
      exact reset_isReverse hacc
  · rcases List.mem_cons.mp hst with rfl | hst
    · exact ⟨by rw [hlevel], by rw [hlevel]; exact hsrc t ht hact⟩
    · rw [List.mem_singleton.mp hst]
      exact reset_isReverse hacc

theorem reverseTapeWrite_emitted (hlevel : s.level = rv.level) (hbase : rv.base ≤ l.vars.size)
    (htaped : rv.tapes rv.level.adjoints) (haccs : accs.Fit rv.base l.vars.size) {val : Var}
    {active : Bool} (h : s.reverseTapeWrite accs val active l = .ok (code, l')) :
    Emitted rv l l' code := by
  obtain ⟨hle, hsize, hcases⟩ := reverseTapeWrite_eq_ok h
  have hpop : (Stmt.define ⟨l.vars.size⟩ true (.pop s.level.adjoints)).IsReverse rv l'.vars.size :=
    pop_isReverse hbase (by simp [hsize]) (by rw [hlevel]; exact htaped)
  refine .of_atoms hle fun st hst => ?_
  rcases hcases with ⟨-, rfl⟩ | ⟨a, -, ha, rfl⟩
  · rw [List.mem_singleton.mp hst]
    exact hpop
  · rcases List.mem_cons.mp hst with rfl | hst
    · exact hpop
    · rw [List.mem_singleton.mp hst]
      exact fold_isReverse ((haccs.mono (by omega)).range val a ha)

theorem reverseInert_emitted (haccs : accs.Fit rv.base l.vars.size) (run : Block) :
    Emitted rv l l (s.reverseInert accs run) := by
  refine .of_atoms (.refl _) fun st hst => ?_
  obtain ⟨a, -, ha⟩ := List.mem_filterMap.mp hst
  split at ha
  · obtain ⟨acc, hacc, rfl⟩ := Option.map_eq_some_iff.mp ha
    exact reset_isReverse (haccs.range _ acc hacc)
  · cases ha

/-- The reverse code of a step without steps inside. -/
theorem reverseLeaf_emitted (hlevel : s.level = rv.level) (hcov : rv.Covers lo)
    (hbase : rv.base ≤ l.vars.size) (haccs : accs.Fit rv.base l.vars.size) {step : Step}
    (hleaf : step.isLeaf = true) (hfine : step.Fine lo)
    (h : s.reverseStep accs step l = .ok (code, l')) : Emitted rv l l' code := by
  cases step, hleaf using Step.leafCases with
  | inert run =>
    obtain ⟨rfl, rfl⟩ := emit_pure_eq_ok.mp h
    exact reverseInert_emitted haccs run
  | call c => exact reverseCall_emitted hlevel hcov hbase haccs hfine h
  | assign dst decl src active =>
    refine reverseAssign_emitted hlevel haccs ?_ h
    rintro t rfl hact
    exact hcov.adjoints t (hfine.2.symm.trans hact)
  | tapeWrite t val active =>
    exact reverseTapeWrite_emitted hlevel hbase (hcov.adjoints t hfine.1) haccs h

theorem sectionInits_isReverse (hbase : rv.base ≤ first) (hsize : first + decls.length ≤ size)
    {st : Stmt} (hst : st ∈ s.sectionInits decls first) : st.IsReverse rv size := by
  obtain ⟨p, hp, rfl⟩ := List.mem_map.mp hst
  have hfresh := mem_freshVars.mp (List.of_mem_zip hp).2
  exact isReverse_define (by omega) (by omega) (by simp [zeroExpr, Expr.tape?])
    (by simp [zeroExpr]) (by simp [zeroExpr])

/-- New variables are paired with at most one other. -/
theorem zip_freshVars_inj {vs : List Var} {k : Nat} {p q : Var × Var}
    (hp : p ∈ vs.zip (freshVars first k)) (hq : q ∈ vs.zip (freshVars first k)) (h : p.2 = q.2) :
    p.1 = q.1 := by
  obtain ⟨i, hi, hpi⟩ := List.getElem_of_mem hp
  obtain ⟨i', hi', hqi⟩ := List.getElem_of_mem hq
  rw [List.getElem_zip] at hpi hqi
  have hidx : i = i' := by
    rw [← hpi, ← hqi] at h
    simpa [freshVars] using h
  subst hidx
  rw [← hpi, ← hqi]

theorem sectionNew_fit (haccs : accs.Fit n first) (hn : n ≤ first)
    (hsize : first + decls.length ≤ size) : (accs.add (sectionNew decls first)).Fit n size := by
  refine haccs.add hn (by omega) (fun p hp => ?_) fun p hp q hq hpq => ?_
  · have hfresh := mem_freshVars.mp (List.of_mem_zip hp).2
    omega
  · exact zip_freshVars_inj hp hq hpq

theorem reverseSection_emitted {steps : List Step}
    (ih : ∀ {accs l l' code}, rv.base ≤ l.vars.size → accs.Fit rv.base l.vars.size →
      s.reverseSteps accs steps l = .ok (code, l') → Emitted rv l l' code)
    (hbase : rv.base ≤ l.vars.size) (haccs : accs.Fit rv.base l.vars.size)
    (h : s.reverseSection accs decls steps l = .ok (code, l')) : Emitted rv l l' code := by
  obtain ⟨l₁, inner, -, hle, hsize, hinner, rfl⟩ := reverseSection_eq_ok h
  have hinits : Emitted rv l l₁ (s.sectionInits decls l.vars.size) :=
    .of_atoms hle fun st hst => sectionInits_isReverse hbase (by omega) hst
  exact hinits.append (ih (by omega) (sectionNew_fit haccs hbase (by omega)) hinner)

theorem branchTests_emitted (rv : Reversal) {taken : Var} {index : Nat} {tests : List Var}
    (hbase : rv.base ≤ l.vars.size) (h : branchTests taken n index l = .ok ((stmts, tests), l')) :
    Emitted rv l l' stmts := by
  induction n generalizing index l stmts tests with
  | zero =>
    obtain ⟨-, rfl, -, rfl⟩ | ⟨k, l₁, stmts₁, tests₁, hk, -⟩ := branchTests_eq_ok h
    · exact .nil rv _
    · cases hk
  | succ n ih =>
    obtain ⟨hn, -⟩ | ⟨k, l₁, stmts₁, tests₁, hk, hle, hsize, hrest, rfl, rfl⟩ :=
      branchTests_eq_ok h
    · cases hn
    cases hk
    have hfirst : Emitted rv l l₁ [.define ⟨l.vars.size⟩ true (.const (.int index)),
        .define ⟨l.vars.size + 1⟩ true (.op .ieq [taken, ⟨l.vars.size⟩])] := by
      refine .of_atoms hle fun st hst => ?_
      rcases List.mem_cons.mp hst with rfl | hst
      · exact isReverse_define hbase (by simp [hsize]) (by simp [Expr.tape?]) (by simp) (by simp)
      · rw [List.mem_singleton.mp hst]
        exact isReverse_define (by simp; omega) (by simp [hsize]) (by simp [Expr.tape?])
          (by simp) (by simp)
    exact hfirst.append (ih (by omega) hrest)

theorem reverseArms_emitted {arms : List (Var × List Var × List Step)}
    (ih : ∀ arm ∈ arms, ∀ {accs l l' code}, rv.base ≤ l.vars.size →
      accs.Fit rv.base l.vars.size → s.reverseSteps accs arm.2.2 l = .ok (code, l') →
        Emitted rv l l' code)
    (hbase : rv.base ≤ l.vars.size) (haccs : accs.Fit rv.base l.vars.size) {blocks : List Block}
    (h : s.reverseArms accs arms l = .ok (blocks, l')) :
    l.Le l' ∧ ∀ b ∈ blocks, Emitted rv l l' b := by
  induction arms generalizing l blocks with
  | nil =>
    obtain ⟨rfl, rfl⟩ := emit_pure_eq_ok.mp h
    exact ⟨.refl _, by simp⟩
  | cons arm arms iha =>
    obtain ⟨test, decls, steps⟩ := arm
    obtain ⟨first, l₁, rest, hfirst, hrest, rfl⟩ := reverseArms_cons h
    have h₁ := reverseSection_emitted (ih (test, decls, steps) (by simp)) hbase haccs hfirst
    have s₁ := h₁.le.size
    obtain ⟨hle, hblocks⟩ := iha (fun arm harm => ih arm (by simp [harm])) (by omega)
      (haccs.mono s₁) hrest
    refine ⟨h₁.le.trans hle, fun b hb => ?_⟩
    rcases List.mem_cons.mp hb with rfl | hb
    · exact h₁.weaken hle
    · exact (hblocks b hb).later h₁.le

/-- **All code that reverses steps is reverse code.** -/
theorem reverseSteps_emitted (hlevel : s.level = rv.level) (hcov : rv.Covers lo) {ss : List Step}
    (hfine : stepsFine lo ss) (hbase : rv.base ≤ l.vars.size) (haccs : accs.Fit rv.base l.vars.size)
    (h : s.reverseSteps accs ss l = .ok (code, l')) : Emitted rv l l' code := by
  induction ss using stepsInduction generalizing accs l l' code with
  | nil =>
    obtain ⟨rfl, rfl⟩ := emit_pure_eq_ok.mp h
    exact .nil rv _
  | leaf step steps hleaf ih =>
    obtain ⟨later, l₁, now, hlater, hnow, rfl⟩ := reverseSteps_cons h
    have h₁ := ih hfine.2 hbase haccs hlater
    have s₁ := h₁.le.size
    exact h₁.append (reverseLeaf_emitted hlevel hcov (by omega) (haccs.mono s₁) hleaf hfine.1 hnow)
  | block decls steps rest ihs ih =>
    obtain ⟨later, l₁, now, hlater, hnow, rfl⟩ := reverseSteps_cons h
    have h₁ := ih hfine.2 hbase haccs hlater
    have s₁ := h₁.le.size
    obtain ⟨inner, hinner, rfl⟩ := reverseStep_block hnow
    have h₂ := reverseSection_emitted (fun hb ha h => ihs hfine.1.2 hb ha h) (by omega) (haccs.mono s₁) hinner
    exact h₁.append h₂.block
  | cond arms decls steps rest iha ihs ih =>
    obtain ⟨later, l₁, now, hlater, hnow, rfl⟩ := reverseSteps_cons h
    obtain ⟨⟨hfarms, -, hfother⟩, hfrest⟩ := hfine
    rw [armsFine_iff] at hfarms
    have h₁ := ih hfrest hbase haccs hlater
    have s₁ := h₁.le.size
    obtain ⟨l₂, testStmts, tests, l₃, blocks, l₄, last, -, hle, hsize, htests, hblocks, hlast, rfl⟩ :=
      reverseStep_cond hnow
    have h₂ : Emitted rv l₁ l₂ [.define ⟨l₁.vars.size⟩ true (.pop s.level.decisions)] := by
      refine .of_atoms hle fun st hst => ?_
      rw [List.mem_singleton.mp hst, hlevel]
      exact pop_isReverse (by simp; omega) (by simp [hsize]) hcov.decisions
    have h₃ := branchTests_emitted rv (by omega) htests
    have s₃ := h₃.le.size
    obtain ⟨hle₄, h₄⟩ := reverseArms_emitted
      (fun arm harm _ _ _ _ hb ha h => iha arm harm (hfarms arm harm).2 hb ha h) (by omega)
      (haccs.mono (by omega)) hblocks
    have s₄ := hle₄.size
    have h₅ := reverseSection_emitted (fun hb ha h => ihs hfother hb ha h) (by omega) (haccs.mono (by omega)) hlast
    have hcond : Emitted rv l₃ l' [.cond (tests.zip (blocks ++ [last])) [.unreachable]] := by
      refine .cond (hle₄.trans h₅.le) hcov.branches fun b hb => ?_
      rcases List.mem_append.mp (List.of_mem_zip hb).2 with hb | hb
      · exact (h₄ b.2 hb).weaken h₅.le
      · rw [List.mem_singleton.mp hb]
        exact h₅.later hle₄
    exact h₁.append (h₂.append (h₃.append hcond))
  | loop id header test decls steps rest ihs ih =>
    obtain ⟨later, l₁, now, hlater, hnow, rfl⟩ := reverseSteps_cons h
    have h₁ := ih hfine.2 hbase haccs hlater
    have s₁ := h₁.le.size
    obtain ⟨-, l₂, body, -, -, hle, hsize, hbody, rfl⟩ := reverseStep_loop hnow
    have h₂ := reverseSection_emitted (fun hb ha h => ihs hfine.1.2.2 hb ha h) (by omega) (haccs.mono (by omega)) hbody
    have s₂ := h₂.le.size
    have hpop : Emitted rv l₁ l₂ [.define ⟨l₁.vars.size + 1⟩ true (.pop s.level.decisions)] := by
      refine .of_atoms hle fun st hst => ?_
      rw [List.mem_singleton.mp hst, hlevel]
      exact pop_isReverse (by simp; omega) (by simp [hsize]) hcov.decisions
    rw [hlevel] at hpop ⊢
    exact h₁.append (.loop (by simp; omega) (by simp; omega) hcov.decisions (hpop.append h₂))

end Sweep

end Backsweep
