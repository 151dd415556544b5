import Mathlib
import Backsweep.Diff.Pullback
import Backsweep.Proofs.Diff.Catalogue
import Backsweep.Proofs.Diff.Lowering
import Backsweep.Proofs.Run.Frame

/-!
# Generating reverse code

Reverse code is generated with a variable table that only grows. What each
generator returns is said once here; the generators are not unfolded again.

* `Locals.Le`: a variable table that grew;
* `declareAccs_eq_ok`, `reverseCall_eq_ok`, …: the code that was generated, and
  the variables it declares.
-/

namespace Backsweep

variable {stmts code : Block} {upstream primal : Var} {c : ActiveCall} {decls : List Var}
  {steps : List Step}

/-! ## Generating code -/

theorem emit_bind_eq_ok {α β : Type} {x : Emit α} {f : α → Emit β} {l l' : Locals} {b : β} :
    (x >>= f) l = .ok (b, l') ↔ ∃ a l₁, x l = .ok (a, l₁) ∧ f a l₁ = .ok (b, l') := by
  change (x l >>= fun p => f p.1 p.2) = _ ↔ _
  rw [except_bind_eq_ok]
  constructor
  · rintro ⟨⟨a, l₁⟩, h, h'⟩
    exact ⟨a, l₁, h, h'⟩
  · rintro ⟨a, l₁, h, h'⟩
    exact ⟨(a, l₁), h, h'⟩

theorem emit_pure_eq_ok {α : Type} {a b : α} {l l' : Locals} :
    (pure a : Emit α) l = .ok (b, l') ↔ b = a ∧ l' = l := by
  change Except.ok (a, l) = .ok (b, l') ↔ _
  rw [Except.ok.injEq, Prod.mk.injEq]
  exact and_congr eq_comm eq_comm

/-- A variable table that grew. -/
def Locals.Le (l l' : Locals) : Prop := l.vars.toList <+: l'.vars.toList

namespace Locals.Le

theorem refl (l : Locals) : l.Le l := List.prefix_refl _

theorem trans {a b c : Locals} (h : a.Le b) (h' : b.Le c) : a.Le c := List.IsPrefix.trans h h'

theorem size {l l' : Locals} (h : l.Le l') : l.vars.size ≤ l'.vars.size := by
  simpa using List.IsPrefix.length_le h

theorem getD {l l' : Locals} (h : l.Le l') {i : Nat} (hi : i < l.vars.size) (d : VarInfo) :
    l'.vars.getD i d = l.vars.getD i d := by
  have hl : l.vars.toList[i]? = l'.vars.toList[i]? :=
    (List.prefix_iff_getElem?.mp h i (by simpa using hi)).symm ▸ List.getElem?_eq_getElem _
  simp only [Array.getD_eq_getD_getElem?, ← Array.getElem?_toList, hl]

end Locals.Le

/-- Variables one behind the other. -/
def freshVars (n k : Nat) : List Var := (List.range' n k).map Var.mk

theorem freshVars_succ (n k : Nat) : freshVars n (k + 1) = ⟨n⟩ :: freshVars (n + 1) k := by
  simp [freshVars, List.range'_succ]

theorem mem_freshVars {n k : Nat} {v : Var} : v ∈ freshVars n k ↔ n ≤ v.idx ∧ v.idx < n + k := by
  obtain ⟨i⟩ := v
  simp only [freshVars, List.mem_map, List.mem_range'_1, Var.mk.injEq]
  constructor
  · rintro ⟨x, hx, rfl⟩; exact hx
  · intro h; exact ⟨i, h, rfl⟩

/-- A declaration adds one entry at the end of the table. -/
theorem Locals.declare_eq (l : Locals) (base : String) (ty : Ty) (mutable : Bool) :
    (l.declare base ty mutable).1 = ⟨l.vars.size⟩ ∧
      ∃ name, (l.declare base ty mutable).2.vars = l.vars.push ⟨name, ty, mutable⟩ := by
  have hfresh : (l.fresh base).2.vars = l.vars := by
    unfold Locals.fresh
    split
    · rfl
    · split <;> rfl
  exact ⟨congrArg (fun vars : Array VarInfo => Var.mk vars.size) hfresh, (l.fresh base).1,
    congrArg (fun vars : Array VarInfo => vars.push _) hfresh⟩

theorem Locals.declare_spec (l : Locals) (base : String) (ty : Ty) (mutable : Bool) :
    (l.declare base ty mutable).1 = ⟨l.vars.size⟩ ∧ l.Le (l.declare base ty mutable).2 ∧
      (l.declare base ty mutable).2.vars.size = l.vars.size + 1 := by
  obtain ⟨hvar, name, hvars⟩ := l.declare_eq base ty mutable
  refine ⟨hvar, ?_, by rw [hvars, Array.size_push]⟩
  rw [Locals.Le, hvars, Array.toList_push]
  exact List.prefix_append _ _

namespace Sweep

variable {l l' : Locals}

theorem declare_eq_ok {base : String} {ty : Ty} {mutable : Bool} {v : Var}
    (h : declare base ty mutable l = .ok (v, l')) :
    v = ⟨l.vars.size⟩ ∧ l.Le l' ∧ l'.vars.size = l.vars.size + 1 := by
  have hdeclare : l.declare base ty mutable = (v, l') := Except.ok.inj h
  have hspec := l.declare_spec base ty mutable
  rw [hdeclare] at hspec
  exact hspec

theorem declareAccs_eq_ok {s : Sweep} {init : Var → Expr} {vs : List Var} {new : List (Var × Var)}
    (h : s.declareAccs init vs l = .ok ((stmts, new), l')) :
    l.Le l' ∧ l'.vars.size = l.vars.size + vs.length ∧
      new = vs.zip (freshVars l.vars.size vs.length) ∧
      stmts = new.map fun p => .define p.2 true (init p.1) := by
  induction vs generalizing l l' stmts new with
  | nil =>
    obtain ⟨hp, rfl⟩ := emit_pure_eq_ok.mp h
    cases hp
    exact ⟨.refl _, rfl, rfl, rfl⟩
  | cons v vs ih =>
    obtain ⟨⟨a, stmt⟩, l₁, h₁, h₂⟩ := emit_bind_eq_ok.mp h
    obtain ⟨a', l₂, hdecl, h₃⟩ := emit_bind_eq_ok.mp h₁
    obtain ⟨hp, rfl⟩ := emit_pure_eq_ok.mp h₃
    cases hp
    obtain ⟨⟨stmts', new'⟩, l₃, hrest, h₄⟩ := emit_bind_eq_ok.mp h₂
    obtain ⟨hp, rfl⟩ := emit_pure_eq_ok.mp h₄
    cases hp
    obtain ⟨rfl, hle, hsize⟩ := declare_eq_ok hdecl
    obtain ⟨hle', hsize', rfl, rfl⟩ := ih hrest
    refine ⟨hle.trans hle', ?_, ?_, rfl⟩
    · rw [hsize', hsize, List.length_cons]; omega
    · rw [hsize, List.length_cons, freshVars_succ]
      rfl

theorem popSaved_eq_ok {s : Sweep} {vs : List Var} {saved : List (Var × Var)}
    (h : s.popSaved vs l = .ok ((stmts, saved), l')) :
    l.Le l' ∧ l'.vars.size = l.vars.size + vs.length ∧
      saved = vs.zip (freshVars l.vars.size vs.length) ∧
      stmts = saved.map fun p => .define p.2 true (.pop s.level.values) := by
  induction vs generalizing l l' stmts saved with
  | nil =>
    obtain ⟨hp, rfl⟩ := emit_pure_eq_ok.mp h
    cases hp
    exact ⟨.refl _, rfl, rfl, rfl⟩
  | cons v vs ih =>
    obtain ⟨a, l₁, hdecl, h₁⟩ := emit_bind_eq_ok.mp h
    obtain ⟨⟨stmts', saved'⟩, l₂, hrest, h₂⟩ := emit_bind_eq_ok.mp h₁
    obtain ⟨hp, rfl⟩ := emit_pure_eq_ok.mp h₂
    cases hp
    obtain ⟨rfl, hle, hsize⟩ := declare_eq_ok hdecl
    obtain ⟨hle', hsize', rfl, rfl⟩ := ih hrest
    refine ⟨hle.trans hle', ?_, ?_, rfl⟩
    · rw [hsize', hsize, List.length_cons]; omega
    · rw [hsize, List.length_cons, freshVars_succ]
      rfl

end Sweep

/-! ## Inlined rules -/

/-- A definition of a rule becomes a definition of a new variable. -/
theorem inlineSteps_define {f : Func} {dst : Var} {decl : Bool} {e : Expr} {ss : Block}
    {m m' : Rule.Subst} {l l' : Locals}
    (h : Rule.inlineSteps f (.define dst decl e :: ss) m l = (stmts, m', l')) :
    ∃ l₁ stmts₁, l.Le l₁ ∧ l₁.vars.size = l.vars.size + 1 ∧
      Rule.inlineSteps f ss (m.set dst ⟨l.vars.size⟩) l₁ = (stmts₁, m', l') ∧
      stmts = .define ⟨l.vars.size⟩ true (e.mapVars m) :: stmts₁ := by
  obtain ⟨hv, hle, hsize⟩ := l.declare_spec (f.info dst).name (f.info dst).ty false
  generalize hd : l.declare (f.info dst).name (f.info dst).ty false = d at hv hle hsize
  obtain ⟨v, l₁⟩ := d
  dsimp only at hv hle hsize
  subst hv
  generalize hi : Rule.inlineSteps f ss (m.set dst ⟨l.vars.size⟩) l₁ = r
  obtain ⟨stmts₁, m₁, l₂⟩ := r
  have heq : (Stmt.define ⟨l.vars.size⟩ true (e.mapVars m) :: stmts₁, m₁, l₂) =
      (stmts, m', l') := by
    rw [← h]
    simp only [Rule.inlineSteps, hd, hi]
  cases heq
  exact ⟨l₁, stmts₁, hle, hsize, hi, rfl⟩

/-- Inlining adds to the table. -/
theorem inlineSteps_le {f : Func} {ss : Block} {m m' : Rule.Subst} {l l' : Locals}
    (h : Rule.inlineSteps f ss m l = (stmts, m', l')) : l.Le l' := by
  induction ss generalizing stmts m l with
  | nil =>
    cases h
    exact .refl _
  | cons s ss ih =>
    cases s with
    | define dst decl e =>
      obtain ⟨l₁, stmts₁, hle, -, hrest, -⟩ := inlineSteps_define h
      exact hle.trans (ih hrest)
    | _ => exact ih h

/-! ## The code of steps -/

namespace Sweep

variable {s : Sweep} {accs : Accumulators} {l l' : Locals}

theorem acc_eq_ok {v a : Var} : s.acc accs v l = .ok (a, l') ↔ accs.find? v = some a ∧ l' = l := by
  unfold acc
  cases accs.find? v with
  | none =>
    constructor
    · intro h; cases h
    · rintro ⟨h, -⟩; cases h
  | some b =>
    rw [emit_pure_eq_ok, Option.some.injEq, eq_comm]

theorem contributions_skip {pushback : Opcode} {arg : Var} {inputs : List Var} {rule : Rule}
    {rest : List (Var × Bool × Rule)} :
    s.contributions accs pushback upstream inputs primal ((arg, false, rule) :: rest) =
      s.contributions accs pushback upstream inputs primal rest := rfl

theorem contributions_eq_ok {pushback : Opcode} {arg : Var} {inputs : List Var} {rule : Rule}
    {rest : List (Var × Bool × Rule)}
    (h : s.contributions accs pushback upstream inputs primal ((arg, true, rule) :: rest) l =
      .ok (code, l')) :
    ∃ stmts contribution l₁ a code', inline rule upstream inputs primal l =
        .ok ((stmts, contribution), l₁) ∧ accs.find? arg = some a ∧
      s.contributions accs pushback upstream inputs primal rest l₁ = .ok (code', l') ∧
      code = stmts ++ fold pushback a contribution :: code' := by
  obtain ⟨⟨stmts, contribution⟩, l₁, hinline, h₁⟩ := emit_bind_eq_ok.mp h
  obtain ⟨a, l₂, hacc, h₂⟩ := emit_bind_eq_ok.mp h₁
  obtain ⟨ha, rfl⟩ := acc_eq_ok.mp hacc
  obtain ⟨code', l₃, hrest, h₃⟩ := emit_bind_eq_ok.mp h₂
  obtain ⟨rfl, rfl⟩ := emit_pure_eq_ok.mp h₃
  exact ⟨stmts, contribution, l₂, a, code', hinline, ha, hrest, rfl⟩

/-- What comes before the contributions of a call: the adjoint of its result is
taken, and the values that its rules read are fetched. -/
def prepare (s : Sweep) (c : ActiveCall) (acc : Var) : Emit (Block × Var × List Var × Var) := do
  let (adjointStmts, upstream) ← s.takeAdjoint c acc
  let (primalStmts, primal) ← s.takePrimal c
  let (savedStmts, saved) ← s.popSaved c.savedArgs.reverse
  return (adjointStmts ++ primalStmts ++ savedStmts, upstream, inputs c saved, primal)

/-- The arguments of a call with their rules. -/
def ruled (c : ActiveCall) : List (Var × Bool × Rule) :=
  c.argVars.zip (c.activeArgs.zip c.node.rules)

theorem reverseCall_eq_ok (h : s.reverseCall accs c l = .ok (code, l')) :
    ∃ a before upstream inputs primal l₁ after, accs.find? c.dst = some a ∧
      s.prepare c a l = .ok ((before, upstream, inputs, primal), l₁) ∧
      s.contributions accs c.node.pushback upstream inputs primal (ruled c) l₁ =
        .ok (after, l') ∧ code = before ++ after := by
  obtain ⟨a, l₀, hacc, h₁⟩ := emit_bind_eq_ok.mp h
  obtain ⟨ha, rfl⟩ := acc_eq_ok.mp hacc
  obtain ⟨⟨adjointStmts, upstream⟩, l₁, hadjoint, h₂⟩ := emit_bind_eq_ok.mp h₁
  obtain ⟨⟨primalStmts, primal⟩, l₂, hprimal, h₃⟩ := emit_bind_eq_ok.mp h₂
  obtain ⟨⟨savedStmts, saved⟩, l₃, hsaved, h₄⟩ := emit_bind_eq_ok.mp h₃
  obtain ⟨after, l₄, hafter, h₅⟩ := emit_bind_eq_ok.mp h₄
  obtain ⟨rfl, rfl⟩ := emit_pure_eq_ok.mp h₅
  refine ⟨a, _, upstream, _, primal, l₃, after, ha, ?_, hafter, rfl⟩
  exact emit_bind_eq_ok.mpr ⟨_, _, hadjoint, emit_bind_eq_ok.mpr ⟨_, _, hprimal,
    emit_bind_eq_ok.mpr ⟨_, _, hsaved, rfl⟩⟩⟩

theorem takeAdjoint_eq_ok {acc : Var} (h : s.takeAdjoint c acc l = .ok ((stmts, upstream), l')) :
    c.decl = true ∧ stmts = [] ∧ upstream = acc ∧ l' = l ∨
    c.decl = false ∧ upstream = ⟨l.vars.size⟩ ∧ l.Le l' ∧ l'.vars.size = l.vars.size + 1 ∧
      stmts = [.define ⟨l.vars.size⟩ true (.copy acc), s.reset acc] := by
  unfold takeAdjoint at h
  cases hd : c.decl with
  | true =>
    rw [hd] at h
    obtain ⟨hp, rfl⟩ := emit_pure_eq_ok.mp h
    cases hp
    exact .inl ⟨rfl, rfl, rfl, rfl⟩
  | false =>
    rw [hd] at h
    obtain ⟨v, l₁, hdecl, h₁⟩ := emit_bind_eq_ok.mp h
    obtain ⟨hp, rfl⟩ := emit_pure_eq_ok.mp h₁
    cases hp
    obtain ⟨rfl, hle, hsize⟩ := declare_eq_ok hdecl
    exact .inr ⟨rfl, rfl, hle, hsize, rfl⟩

theorem takePrimal_eq_ok (h : s.takePrimal c l = .ok ((stmts, primal), l')) :
    c.primal = .saved ∧ primal = ⟨l.vars.size⟩ ∧ l.Le l' ∧ l'.vars.size = l.vars.size + 1 ∧
      stmts = [.define ⟨l.vars.size⟩ true (.pop s.level.values)] ∨
    c.primal ≠ .saved ∧ stmts = [] ∧ primal = c.dst ∧ l' = l := by
  unfold takePrimal at h
  split at h
  · rename_i hp
    obtain ⟨v, l₁, hdecl, h₁⟩ := emit_bind_eq_ok.mp h
    obtain ⟨hpair, rfl⟩ := emit_pure_eq_ok.mp h₁
    cases hpair
    obtain ⟨rfl, hle, hsize⟩ := declare_eq_ok hdecl
    exact .inl ⟨hp, rfl, hle, hsize, rfl⟩
  · rename_i hp
    obtain ⟨hpair, rfl⟩ := emit_pure_eq_ok.mp h
    cases hpair
    exact .inr ⟨hp, rfl, rfl, rfl⟩

theorem takePrimal_range (h : s.takePrimal c l = .ok ((stmts, primal), l')) :
    l.vars.size ≤ l'.vars.size ∧
      (primal = c.dst ∨ l.vars.size ≤ primal.idx ∧ primal.idx < l'.vars.size) := by
  rcases takePrimal_eq_ok h with ⟨-, rfl, -, hsize, -⟩ | ⟨-, -, rfl, rfl⟩
  · rw [hsize]
    exact ⟨Nat.le_succ _, .inr ⟨Nat.le_refl _, Nat.lt_succ_self _⟩⟩
  · exact ⟨Nat.le_refl _, .inl rfl⟩

theorem prepare_eq_ok {acc : Var} {ins : List Var} {before : Block}
    (h : s.prepare c acc l = .ok ((before, upstream, ins, primal), l')) :
    ∃ adjointStmts l₁ primalStmts l₂ savedStmts saved,
      s.takeAdjoint c acc l = .ok ((adjointStmts, upstream), l₁) ∧
      s.takePrimal c l₁ = .ok ((primalStmts, primal), l₂) ∧
      s.popSaved c.savedArgs.reverse l₂ = .ok ((savedStmts, saved), l') ∧
      before = adjointStmts ++ primalStmts ++ savedStmts ∧ ins = inputs c saved := by
  obtain ⟨⟨adjointStmts, upstream'⟩, l₁, hadjoint, h₁⟩ := emit_bind_eq_ok.mp h
  obtain ⟨⟨primalStmts, primal'⟩, l₂, hprimal, h₂⟩ := emit_bind_eq_ok.mp h₁
  obtain ⟨⟨savedStmts, saved⟩, l₃, hsaved, h₃⟩ := emit_bind_eq_ok.mp h₂
  obtain ⟨hp, rfl⟩ := emit_pure_eq_ok.mp h₃
  cases hp
  exact ⟨adjointStmts, l₁, primalStmts, l₂, savedStmts, saved, hadjoint, hprimal, hsaved, rfl, rfl⟩

theorem reverseAssign_eq_ok {dst : Var} {decl active : Bool} {src : Source}
    (h : s.reverseAssign accs dst decl src active l = .ok (code, l')) :
    l' = l ∧ ∃ a, accs.find? dst = some a ∧
      (active = false ∧ code = (if decl then [] else [s.reset a]) ∨
      active = true ∧ (src = .var dst ∧ code = [] ∨
        (∃ v b, src = .var v ∧ v ≠ dst ∧ accs.find? v = some b ∧
          code = [fold .fadd b a, s.reset a]) ∨
        (∃ obj field b, src = .field obj field ∧ accs.property = some b ∧
          code = [fold .fadd b a, s.reset a]) ∨
        ∃ t, src = .tape t ∧ code = [.push s.level.adjoints a, s.reset a])) := by
  obtain ⟨a, l₁, hacc, h₁⟩ := emit_bind_eq_ok.mp h
  obtain ⟨ha, rfl⟩ := acc_eq_ok.mp hacc
  cases active with
  | false =>
    obtain ⟨rfl, rfl⟩ := emit_pure_eq_ok.mp h₁
    exact ⟨rfl, a, ha, .inl ⟨rfl, rfl⟩⟩
  | true =>
    cases src with
    | var v =>
      change (if v = dst then pure [] else s.acc accs v >>= fun b =>
        pure [fold .fadd b a, s.reset a] : Emit Block) l₁ = _ at h₁
      split at h₁
      · rename_i hv
        obtain ⟨rfl, rfl⟩ := emit_pure_eq_ok.mp h₁
        exact ⟨rfl, a, ha, .inr ⟨rfl, .inl ⟨by rw [hv], rfl⟩⟩⟩
      · rename_i hv
        obtain ⟨b, l₂, hacc', h₂⟩ := emit_bind_eq_ok.mp h₁
        obtain ⟨hb, rfl⟩ := acc_eq_ok.mp hacc'
        obtain ⟨rfl, rfl⟩ := emit_pure_eq_ok.mp h₂
        exact ⟨rfl, a, ha, .inr ⟨rfl, .inr (.inl ⟨v, b, rfl, hv, hb, rfl⟩)⟩⟩
    | field obj field =>
      obtain ⟨b, l₂, hacc', h₂⟩ := emit_bind_eq_ok.mp h₁
      obtain ⟨rfl, rfl⟩ := emit_pure_eq_ok.mp h₂
      unfold propertyAcc at hacc'
      cases hp : accs.property with
      | none => rw [hp] at hacc'; cases hacc'
      | some b' =>
        rw [hp] at hacc'
        obtain ⟨rfl, rfl⟩ := emit_pure_eq_ok.mp hacc'
        exact ⟨rfl, a, ha, .inr ⟨rfl, .inr (.inr (.inl ⟨obj, field, _, rfl, rfl, rfl⟩))⟩⟩
    | tape t =>
      obtain ⟨rfl, rfl⟩ := emit_pure_eq_ok.mp h₁
      exact ⟨rfl, a, ha, .inr ⟨rfl, .inr (.inr (.inr ⟨t, rfl, rfl⟩))⟩⟩

theorem reverseTapeWrite_eq_ok {val : Var} {active : Bool}
    (h : s.reverseTapeWrite accs val active l = .ok (code, l')) :
    l.Le l' ∧ l'.vars.size = l.vars.size + 1 ∧
      (active = false ∧ code = [.define ⟨l.vars.size⟩ true (.pop s.level.adjoints)] ∨
      ∃ a, active = true ∧ accs.find? val = some a ∧
        code = [.define ⟨l.vars.size⟩ true (.pop s.level.adjoints),
          fold .fadd a ⟨l.vars.size⟩]) := by
  obtain ⟨v, l₁, hdecl, h₁⟩ := emit_bind_eq_ok.mp h
  obtain ⟨rfl, hle, hsize⟩ := declare_eq_ok hdecl
  cases active with
  | false =>
    obtain ⟨rfl, rfl⟩ := emit_pure_eq_ok.mp h₁
    exact ⟨hle, hsize, .inl ⟨rfl, rfl⟩⟩
  | true =>
    obtain ⟨a, l₂, hacc, h₂⟩ := emit_bind_eq_ok.mp h₁
    obtain ⟨ha, rfl⟩ := acc_eq_ok.mp hacc
    obtain ⟨rfl, rfl⟩ := emit_pure_eq_ok.mp h₂
    exact ⟨hle, hsize, .inr ⟨a, rfl, ha, rfl⟩⟩

/-- The reverse code of a section: accumulators of its own, then its steps. -/
def reverseSection (s : Sweep) (accs : Accumulators) (decls : List Var) (steps : List Step) :
    Emit Block := do
  let (inits, new) ← s.declareAccs (fun _ => s.zeroExpr) decls
  return inits ++ (← s.reverseSteps (accs.add new) steps)

/-- The accumulators that a section adds, from the given place of the table on. -/
def sectionNew (decls : List Var) (first : Nat) : List (Var × Var) :=
  decls.zip (freshVars first decls.length)

/-- What the accumulators of a section start from. -/
def sectionInits (s : Sweep) (decls : List Var) (first : Nat) : Block :=
  (sectionNew decls first).map fun p => .define p.2 true s.zeroExpr

theorem reverseSection_eq_ok (h : s.reverseSection accs decls steps l = .ok (code, l')) :
    ∃ l₁ inner, s.declareAccs (fun _ => s.zeroExpr) decls l =
        .ok ((s.sectionInits decls l.vars.size, sectionNew decls l.vars.size), l₁) ∧
      l.Le l₁ ∧ l₁.vars.size = l.vars.size + decls.length ∧
      s.reverseSteps (accs.add (sectionNew decls l.vars.size)) steps l₁ = .ok (inner, l') ∧
      code = s.sectionInits decls l.vars.size ++ inner := by
  obtain ⟨⟨inits, new⟩, l₁, hinits, h₁⟩ := emit_bind_eq_ok.mp h
  obtain ⟨inner, l₂, hinner, h₂⟩ := emit_bind_eq_ok.mp h₁
  obtain ⟨rfl, rfl⟩ := emit_pure_eq_ok.mp h₂
  obtain ⟨hle, hsize, rfl, rfl⟩ := declareAccs_eq_ok hinits
  exact ⟨l₁, inner, hinits, hle, hsize, hinner, rfl⟩

theorem reverseSteps_cons {step : Step} (h : s.reverseSteps accs (step :: steps) l = .ok (code, l')) :
    ∃ later l₁ now, s.reverseSteps accs steps l = .ok (later, l₁) ∧
      s.reverseStep accs step l₁ = .ok (now, l') ∧ code = later ++ now := by
  obtain ⟨later, l₁, hlater, h₁⟩ := emit_bind_eq_ok.mp h
  obtain ⟨now, l₂, hnow, h₂⟩ := emit_bind_eq_ok.mp h₁
  obtain ⟨rfl, rfl⟩ := emit_pure_eq_ok.mp h₂
  exact ⟨later, l₁, now, hlater, hnow, rfl⟩

theorem reverseStep_block (h : s.reverseStep accs (.block (decls, steps)) l = .ok (code, l')) :
    ∃ inner, s.reverseSection accs decls steps l = .ok (inner, l') ∧ code = [.block inner] := by
  obtain ⟨⟨inits, new⟩, l₁, hinits, h₁⟩ := emit_bind_eq_ok.mp h
  obtain ⟨inner, l₂, hinner, h₂⟩ := emit_bind_eq_ok.mp h₁
  obtain ⟨rfl, rfl⟩ := emit_pure_eq_ok.mp h₂
  exact ⟨_, emit_bind_eq_ok.mpr ⟨_, _, hinits, emit_bind_eq_ok.mpr ⟨_, _, hinner, rfl⟩⟩, rfl⟩

theorem reverseArms_cons {test : Var} {arms : List (Var × List Var × List Step)}
    {blocks : List Block}
    (h : s.reverseArms accs ((test, decls, steps) :: arms) l = .ok (blocks, l')) :
    ∃ first l₁ rest, s.reverseSection accs decls steps l = .ok (first, l₁) ∧
      s.reverseArms accs arms l₁ = .ok (rest, l') ∧ blocks = first :: rest := by
  obtain ⟨⟨inits, new⟩, l₁, hinits, h₁⟩ := emit_bind_eq_ok.mp h
  obtain ⟨inner, l₂, hinner, h₂⟩ := emit_bind_eq_ok.mp h₁
  obtain ⟨rest, l₃, hrest, h₃⟩ := emit_bind_eq_ok.mp h₂
  obtain ⟨rfl, rfl⟩ := emit_pure_eq_ok.mp h₃
  exact ⟨_, l₂, rest, emit_bind_eq_ok.mpr ⟨_, _, hinits, emit_bind_eq_ok.mpr ⟨_, _, hinner, rfl⟩⟩,
    hrest, rfl⟩

theorem reverseStep_cond {arms : List (Var × List Var × List Step)}
    (h : s.reverseStep accs (.cond arms (decls, steps)) l = .ok (code, l')) :
    ∃ l₁ testStmts tests l₂ blocks l₃ last,
      declare "branch" .int false l = .ok (⟨l.vars.size⟩, l₁) ∧
      l.Le l₁ ∧ l₁.vars.size = l.vars.size + 1 ∧
      branchTests ⟨l.vars.size⟩ (arms.length + 1) 0 l₁ = .ok ((testStmts, tests), l₂) ∧
      s.reverseArms accs arms l₂ = .ok (blocks, l₃) ∧
      s.reverseSection accs decls steps l₃ = .ok (last, l') ∧
      code = .define ⟨l.vars.size⟩ true (.pop s.level.decisions) :: testStmts ++
        [.cond (tests.zip (blocks ++ [last])) [.unreachable]] := by
  obtain ⟨taken, l₁, hdecl, h₁⟩ := emit_bind_eq_ok.mp h
  obtain ⟨rfl, hle, hsize⟩ := declare_eq_ok hdecl
  obtain ⟨⟨testStmts, tests⟩, l₂, htests, h₂⟩ := emit_bind_eq_ok.mp h₁
  obtain ⟨blocks, l₃, hblocks, h₃⟩ := emit_bind_eq_ok.mp h₂
  obtain ⟨⟨inits, new⟩, l₄, hinits, h₄⟩ := emit_bind_eq_ok.mp h₃
  obtain ⟨inner, l₅, hinner, h₅⟩ := emit_bind_eq_ok.mp h₄
  obtain ⟨rfl, rfl⟩ := emit_pure_eq_ok.mp h₅
  exact ⟨l₁, testStmts, tests, l₂, blocks, l₃, _, hdecl, hle, hsize, htests, hblocks,
    emit_bind_eq_ok.mpr ⟨_, _, hinits, emit_bind_eq_ok.mpr ⟨_, _, hinner, rfl⟩⟩, rfl⟩

theorem reverseStep_loop {id : Int} {header : Block} {test : Var}
    (h : s.reverseStep accs (.loop id header test (decls, steps)) l = .ok (code, l')) :
    ∃ l₀ l₁ body, declare "repeat" .bool false l = .ok (⟨l.vars.size⟩, l₀) ∧
      declare "iteration" .int false l₀ = .ok (⟨l.vars.size + 1⟩, l₁) ∧
      l.Le l₁ ∧ l₁.vars.size = l.vars.size + 2 ∧
      s.reverseSection accs decls steps l₁ = .ok (body, l') ∧
      code = [.loop [.define ⟨l.vars.size⟩ true (.topIs s.level.decisions id)] ⟨l.vars.size⟩
        (.define ⟨l.vars.size + 1⟩ true (.pop s.level.decisions) :: body)] := by
  obtain ⟨again, l₁, hdecl, h₁⟩ := emit_bind_eq_ok.mp h
  obtain ⟨rfl, hle, hsize⟩ := declare_eq_ok hdecl
  obtain ⟨iteration, l₂, hdecl', h₂⟩ := emit_bind_eq_ok.mp h₁
  obtain ⟨rfl, hle', hsize'⟩ := declare_eq_ok hdecl'
  obtain ⟨⟨inits, new⟩, l₃, hinits, h₃⟩ := emit_bind_eq_ok.mp h₂
  obtain ⟨inner, l₄, hinner, h₄⟩ := emit_bind_eq_ok.mp h₃
  obtain ⟨rfl, rfl⟩ := emit_pure_eq_ok.mp h₄
  rw [hsize] at hdecl'
  refine ⟨l₁, l₂, _, hdecl, hdecl', hle.trans hle', by omega,
    emit_bind_eq_ok.mpr ⟨_, _, hinits, emit_bind_eq_ok.mpr ⟨_, _, hinner, rfl⟩⟩, ?_⟩
  rw [hsize]

theorem branchTests_eq_ok {taken : Var} {n index : Nat} {tests : List Var}
    (h : branchTests taken n index l = .ok ((stmts, tests), l')) :
    n = 0 ∧ stmts = [] ∧ tests = [] ∧ l' = l ∨
    ∃ k l₁ stmts₁ tests₁, n = k + 1 ∧ l.Le l₁ ∧ l₁.vars.size = l.vars.size + 2 ∧
      branchTests taken k (index + 1) l₁ = .ok ((stmts₁, tests₁), l') ∧
      stmts = .define ⟨l.vars.size⟩ true (.const (.int index)) ::
        .define ⟨l.vars.size + 1⟩ true (.op .ieq [taken, ⟨l.vars.size⟩]) :: stmts₁ ∧
      tests = ⟨l.vars.size + 1⟩ :: tests₁ := by
  cases n with
  | zero =>
    obtain ⟨hp, rfl⟩ := emit_pure_eq_ok.mp h
    cases hp
    exact .inl ⟨rfl, rfl, rfl, rfl⟩
  | succ k =>
    obtain ⟨i, l₁, hdecl, h₁⟩ := emit_bind_eq_ok.mp h
    obtain ⟨rfl, hle, hsize⟩ := declare_eq_ok hdecl
    obtain ⟨test, l₂, hdecl', h₂⟩ := emit_bind_eq_ok.mp h₁
    obtain ⟨rfl, hle', hsize'⟩ := declare_eq_ok hdecl'
    obtain ⟨⟨stmts₁, tests₁⟩, l₃, hrest, h₃⟩ := emit_bind_eq_ok.mp h₂
    obtain ⟨hp, rfl⟩ := emit_pure_eq_ok.mp h₃
    cases hp
    refine .inr ⟨k, l₂, stmts₁, tests₁, rfl, hle.trans hle', by omega, hrest, ?_, ?_⟩
    · rw [hsize]
    · rw [hsize]

end Sweep

end Backsweep
