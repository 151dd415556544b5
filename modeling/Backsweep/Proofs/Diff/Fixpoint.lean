import Mathlib
import Backsweep.Proofs.Diff.Activity

/-!
# Activity is the least fixed point

What is active can be said without an order of visits: the least sets of variables
and tapes that hold the input and are closed under the statements of the function.
The analysis finds these sets, and it rejects a function exactly if one of its
statements is not allowed under them.

* `Analysis.Spreads`, `Analysis.Covers`: when the value of an expression is active,
  and the sets closed under this;
* `Analysis.Violates`: the statements that are not allowed;
* `Analysis.visit_atom`: what a visit of a statement does, said with these;
* `Analysis.Covers.visit`, `Analysis.Settles.rejects`: visits neither mark nor reject
  more than closed sets do;
* `Activity.analyze_least`: the analysis computes the least of them.
-/

namespace Backsweep

/-! ## What is active, and what is not allowed -/

/-- The variables that are marked. -/
def Marks.varSet (m : Marks) : Set Var := {v | m.isActive v = true}

/-- The tapes that are marked. -/
def Marks.tapeSet (m : Marks) : Set Tape := {t | m.isActiveTape t = true}

namespace Analysis

/-- The value of an expression that is assigned to `dst` is active, if the variables
of `V` and the tapes of `T` are. -/
def Spreads (a : Analysis) (V : Set Var) (T : Set Tape) (dst : Var) : Expr → Prop
  | .const c => (a.func.info dst).mutable = true ∧ a.func.varTy dst = .real ∧
      accumulatorStem.toList <+: (a.func.varName dst).toList ∧ ∃ x, c = .real x ∧ (x == 0.0) = true
  | .copy src => src ∈ V
  | .load obj field => a.input = .property obj field
  | .op opcode args => opcode.isDifferentiable = true ∧ ∃ v ∈ args, v ∈ V
  | .call _ args _ => a.func.varTy dst = .real ∧ ∃ v ∈ args, v ∈ V ∧ a.func.varTy v = .real
  | .pop t => t.kind ≠ .decisions ∧ a.func.varTy dst = .real ∧ t ∈ T
  | .topIs _ _ => False

/-- The sets hold the input and are closed under the definitions and pushes of the
function, wherever these stand. Only variables of its table count. -/
structure Covers (a : Analysis) (V : Set Var) (T : Set Tape) : Prop where
  input : ∀ v, a.input = .param v → v.idx < a.func.vars.size → v ∈ V
  define : ∀ dst decl e, Stmt.define dst decl e ∈ blockAtoms a.func.body →
    dst.idx < a.func.vars.size → a.Spreads V T dst e → dst ∈ V
  push : ∀ t v, Stmt.push t v ∈ blockAtoms a.func.body → t.kind ≠ .decisions → v ∈ V → t ∈ T

/-- The statement is not allowed, if the variables of `V` are active: tapes where there
may be none, decisions on a tape of another kind, a store to the input or of something
active, and a call whose result is an aggregate that depends on an active real. -/
def Violates (a : Analysis) (V : Set Var) : Stmt → Prop
  | .define _ _ (.pop _) | .push _ _ => a.withTapes = false
  | .define _ _ (.topIs t _) | .pushDecision t _ => a.withTapes = false ∨ t.kind ≠ .decisions
  | .define dst _ (.call _ args _) => (a.func.varTy dst = .tensor ∨ a.func.varTy dst = .obj) ∧
      ∃ v ∈ args, v ∈ V ∧ a.func.varTy v = .real
  | .store obj field val => a.input = .property obj field ∨ val ∈ V
  | _ => False

variable {a : Analysis} {V V' : Set Var} {T T' : Set Tape}

theorem Spreads.mono (hV : V ⊆ V') (hT : T ⊆ T') {dst : Var} {e : Expr}
    (h : a.Spreads V T dst e) : a.Spreads V' T' dst e := by
  cases e with
  | const c => exact h
  | copy src => exact hV h
  | load obj field => exact h
  | op opcode args =>
    obtain ⟨hop, v, hv, hactive⟩ := h
    exact ⟨hop, v, hv, hV hactive⟩
  | call callee args node =>
    obtain ⟨hdst, v, hv, hactive, hty⟩ := h
    exact ⟨hdst, v, hv, hV hactive, hty⟩
  | pop t => exact ⟨h.1, h.2.1, hT h.2.2⟩
  | topIs t d => exact h

theorem Violates.mono (hV : V ⊆ V') {s : Stmt} (h : a.Violates V s) : a.Violates V' s := by
  cases s with
  | define dst decl e =>
    cases e with
    | call callee args node =>
      obtain ⟨hdst, v, hv, hactive, hty⟩ := h
      exact ⟨hdst, v, hv, hV hactive, hty⟩
    | const c | copy src | load obj field | op opcode args | pop t | topIs t d => exact h
  | store obj field val => exact h.imp_right fun hval => hV hval
  | push t v | pushDecision t d | cond arms other | loop header test body | doLoop body test
  | block body | unreachable | ret vals => exact h

/-- The variables in all sets that cover the function, and the tapes. -/
def leastVars (a : Analysis) : Set Var := {v | ∀ V T, a.Covers V T → v ∈ V}

@[inherit_doc leastVars]
def leastTapes (a : Analysis) : Set Tape := {t | ∀ V T, a.Covers V T → t ∈ T}

theorem isLeast_covers (a : Analysis) :
    IsLeast {p : Set Var × Set Tape | a.Covers p.1 p.2} (a.leastVars, a.leastTapes) := by
  have hvars {V T} (h : a.Covers V T) : a.leastVars ⊆ V := fun v hv => hv V T h
  have htapes {V T} (h : a.Covers V T) : a.leastTapes ⊆ T := fun t ht => ht V T h
  refine ⟨⟨fun v hv hin V T h => h.input v hv hin, fun dst decl e hs hin he V T h => ?_,
    fun t v hs ht hv V T h => h.push t v hs ht (hvars h hv)⟩, fun p hp => ⟨hvars hp, htapes hp⟩⟩
  exact h.define dst decl e hs hin (he.mono (hvars h) (htapes h))

/-! ## One visit -/

theorem startsAccumulator_iff {info : VarInfo} {c : Const} :
    startsAccumulator info c = true ↔ info.mutable = true ∧ info.ty = .real ∧
      accumulatorStem.toList <+: info.name.toList ∧ ∃ x, c = .real x ∧ (x == 0.0) = true := by
  have hzero : (c == .real 0.0) = true ↔ ∃ x, c = .real x ∧ (x == 0.0) = true := by
    cases c with
    | real x =>
      change (x == 0.0) = true ↔ _
      simp
    | int n => simpa using show ((Const.int n == .real 0.0) = false) from rfl
    | bool b => simpa using show ((Const.bool b == .real 0.0) = false) from rfl
  simp only [startsAccumulator, Bool.and_eq_true, beq_iff_eq, List.isPrefixOf_iff_prefix, hzero,
    and_assoc]

theorem checkTape_cases (a : Analysis) (t : Tape) (ok : Bool) :
    (a.withTapes = true ∧ ok = true ∧ a.checkTape t ok = .ok ()) ∨
      ((a.withTapes = false ∨ ok = false) ∧ a.checkTape t ok = .error (.tapeNotAllowed t)) := by
  unfold checkTape
  cases a.withTapes <;> cases ok <;> simp

theorem isSeed_iff {input : ActiveInput} {obj : Var} {field : String} :
    input.isSeed obj field = true ↔ input = .property obj field := by
  simp [ActiveInput.isSeed]

theorem any_isActive {m : Marks} {args : List Var} :
    args.any m.isActive = true ↔ ∃ v ∈ args, v ∈ m.varSet := List.any_eq_true

theorem any_isActiveReal {m : Marks} (args : List Var) :
    args.any (m.isActiveReal a.func) = true ↔
      ∃ v ∈ args, v ∈ m.varSet ∧ a.func.varTy v = .real := by
  simp [List.any_eq_true, Marks.isActiveReal, Marks.varSet]

/-- A definition is rejected, or its value is known to be active or not. -/
theorem visit_expr (a : Analysis) (m : Marks) (dst : Var) (decl : Bool) (e : Expr) :
    (a.Violates m.varSet (.define dst decl e) ∧ ∃ err, a.expr m dst e = .error err) ∨
      (¬a.Violates m.varSet (.define dst decl e) ∧ ∃ b, a.expr m dst e = .ok b ∧
        (b = true ↔ a.Spreads m.varSet m.tapeSet dst e)) := by
  cases e with
  | const c => exact .inr ⟨id, _, rfl, startsAccumulator_iff⟩
  | copy src => exact .inr ⟨id, _, rfl, Iff.rfl⟩
  | load obj field => exact .inr ⟨id, _, rfl, isSeed_iff⟩
  | op opcode args =>
    refine .inr ⟨id, _, rfl, ?_⟩
    rw [Bool.and_eq_true, any_isActive]
    rfl
  | call callee args node =>
    have hactive := any_isActiveReal (a := a) (m := m) args
    simp only [expr, Violates, Spreads, ← hactive]
    cases a.func.varTy dst with
    | real => exact .inr ⟨by simp, _, rfl, by simp⟩
    | int | bool => exact .inr ⟨by simp, _, rfl, by simp⟩
    | tensor | obj =>
      cases args.any (m.isActiveReal a.func) with
      | true => exact .inl ⟨by simp, _, rfl⟩
      | false => exact .inr ⟨by simp, _, rfl, by simp⟩
  | pop t =>
    rcases a.checkTape_cases t true with ⟨hw, -, hcheck⟩ | ⟨hw, hcheck⟩
    · refine .inr ⟨by simp [Violates, hw], _, by rw [expr, hcheck]; rfl, ?_⟩
      simp [Spreads, Marks.tapeSet, and_assoc]
    · exact .inl ⟨by simpa [Violates] using hw, _, by rw [expr, hcheck]; rfl⟩
  | topIs t d =>
    rcases a.checkTape_cases t (t.kind == .decisions) with ⟨hw, hk, hcheck⟩ | ⟨hw, hcheck⟩
    · refine .inr ⟨?_, _, by rw [expr, hcheck]; rfl, by simp [Spreads]⟩
      simpa [Violates, hw] using hk
    · exact .inl ⟨by simpa [Violates] using hw, _, by rw [expr, hcheck]; rfl⟩

theorem mem_varSet_mark (m : Marks) (dst v : Var) :
    v ∈ (m.mark dst).varSet ↔ v ∈ m.varSet ∨ v = dst ∧ v.idx < m.vars.size := by
  change (m.mark dst).isActive v = true ↔ _
  rw [Marks.isActive_mark]
  split
  · rename_i h
    obtain ⟨rfl, hin⟩ := h
    exact ⟨fun _ => .inr ⟨rfl, hin⟩, fun _ => rfl⟩
  · rename_i h
    constructor
    · exact .inl
    · rintro (hv | ⟨rfl, hin⟩)
      · exact hv
      · exact absurd ⟨rfl, hin⟩ h

theorem mem_tapeSet_markTape (m : Marks) (t u : Tape) :
    u ∈ (m.markTape t).tapeSet ↔ u ∈ m.tapeSet ∨ u = t := by
  unfold Marks.markTape
  split
  · rename_i ht
    constructor
    · exact .inl
    · rintro (hu | rfl)
      · exact hu
      · exact ht
  · simp [Marks.tapeSet, Marks.isActiveTape]

theorem varSet_markTape (m : Marks) (t : Tape) : (m.markTape t).varSet = m.varSet := by
  unfold Marks.markTape
  split <;> rfl

/-- A statement is rejected if it is not allowed, and otherwise marks what becomes
active by it. -/
theorem visit_atom {s : Stmt} (hs : s.isControlFlow = false) (m : Marks) :
    (a.Violates m.varSet s ∧ ∃ err, a.stmt s m = .error err) ∨
      (¬a.Violates m.varSet s ∧ ∃ m', a.stmt s m = .ok m' ∧
        (∀ v, v ∈ m'.varSet ↔ v ∈ m.varSet ∨ ∃ decl e, s = .define v decl e ∧
          v.idx < m.vars.size ∧ a.Spreads m.varSet m.tapeSet v e) ∧
        ∀ t, t ∈ m'.tapeSet ↔ t ∈ m.tapeSet ∨ ∃ v, s = .push t v ∧ t.kind ≠ .decisions ∧
          v ∈ m.varSet) := by
  cases s, hs using Stmt.atomCases with
  | define dst decl e =>
    rcases a.visit_expr m dst decl e with ⟨hbad, err, he⟩ | ⟨hok, b, he, hb⟩
    · exact .inl ⟨hbad, err, by rw [stmt, he]; rfl⟩
    refine .inr ⟨hok, if b then m.mark dst else m, by rw [stmt, he]; rfl, fun v => ?_, fun t => ?_⟩
    · have hspread : (∃ decl' e', Stmt.define dst decl e = .define v decl' e' ∧
          v.idx < m.vars.size ∧ a.Spreads m.varSet m.tapeSet v e') ↔
            (v = dst ∧ v.idx < m.vars.size) ∧ b = true := by
        constructor
        · rintro ⟨_, _, heq, hin, hv⟩
          cases heq
          exact ⟨⟨rfl, hin⟩, hb.mpr hv⟩
        · rintro ⟨⟨rfl, hin⟩, hv⟩
          exact ⟨decl, e, rfl, hin, hb.mp hv⟩
      rw [hspread]
      cases b with
      | false => simp
      | true => simp [mem_varSet_mark]
    · cases b <;> simp [Marks.tapeSet, Marks.isActiveTape, Marks.mark]
  | store obj field val =>
    simp only [stmt, Violates, ← isSeed_iff]
    by_cases hbad : a.input.isSeed obj field = true ∨ val ∈ m.varSet
    · have hcond : (a.input.isSeed obj field || m.isActive val) = true := Bool.or_eq_true_iff.mpr hbad
      exact .inl ⟨hbad, _, by rw [if_pos hcond]⟩
    · have hcond : ¬(a.input.isSeed obj field || m.isActive val) = true := fun h =>
        hbad (Bool.or_eq_true_iff.mp h)
      exact .inr ⟨hbad, m, by rw [if_neg hcond], by simp, by simp⟩
  | push t val =>
    rcases a.checkTape_cases t true with ⟨hw, -, hcheck⟩ | ⟨hw, hcheck⟩
    swap
    · exact .inl ⟨by simpa [Violates] using hw, _, by rw [stmt, hcheck]; rfl⟩
    refine .inr ⟨by simp [Violates, hw], _, by rw [stmt, hcheck]; rfl, fun v => ?_, fun u => ?_⟩
    · split
      · simp [varSet_markTape]
      · simp
    · have hpush : (∃ v, Stmt.push t val = .push u v ∧ u.kind ≠ .decisions ∧ v ∈ m.varSet) ↔
          u = t ∧ (t.kind != .decisions && m.isActive val) = true := by
        rw [Bool.and_eq_true, bne_iff_ne]
        constructor
        · rintro ⟨v, heq, hkind, hv⟩
          cases heq
          exact ⟨rfl, hkind, hv⟩
        · rintro ⟨rfl, hkind, hv⟩
          exact ⟨val, rfl, hkind, hv⟩
      rw [hpush]
      split
      · rename_i hmark
        simp [mem_tapeSet_markTape, hmark]
      · rename_i hmark
        simp [hmark]
  | pushDecision t d =>
    rcases a.checkTape_cases t (t.kind == .decisions) with ⟨hw, hk, hcheck⟩ | ⟨hw, hcheck⟩
    · refine .inr ⟨?_, m, by rw [stmt, hcheck]; rfl, by simp, by simp⟩
      simpa [Violates, hw] using hk
    · exact .inl ⟨by simpa [Violates] using hw, _, by rw [stmt, hcheck]; rfl⟩
  | _ => exact .inr ⟨id, m, rfl, by simp, by simp⟩

/-! ## All visits -/

/-- The marks do not go beyond the sets. -/
structure Within (a : Analysis) (V : Set Var) (T : Set Tape) (m : Marks) : Prop where
  size : m.vars.size = a.func.vars.size
  vars : m.varSet ⊆ V
  tapes : m.tapeSet ⊆ T

theorem Covers.start_within (hc : a.Covers V T) : a.Within V T a.start := by
  have hnone (v : Var) : v ∉ Marks.varSet { vars := Array.replicate a.func.vars.size false } := by
    simp only [Marks.varSet, Set.mem_ofPred_eq, Marks.isActive, Array.getD_eq_getD_getElem?,
      Array.getElem?_replicate]
    split <;> simp
  refine ⟨a.start_bounded.size, fun v hv => ?_, fun t ht => ?_⟩
  · unfold start at hv
    split at hv
    · rename_i w hin
      rcases (mem_varSet_mark _ _ _).mp hv with hv | ⟨rfl, hsize⟩
      · exact absurd hv (hnone v)
      · exact hc.input v hin (by simpa using hsize)
    · exact absurd hv (hnone v)
  · unfold start at ht
    split at ht <;> simp [Marks.tapeSet, Marks.isActiveTape, Marks.mark] at ht

/-- A visit marks nothing that closed sets do not have. -/
theorem Covers.visit (hc : a.Covers V T) {s : Stmt} (hs : s ∈ blockAtoms a.func.body)
    {m m' : Marks} (hm : a.Within V T m) (h : a.stmt s m = .ok m') : a.Within V T m' := by
  have hatomic := blockAtoms_atomic _ s hs
  rcases visit_atom (a := a) hatomic m with ⟨-, err, herr⟩ | ⟨-, m₁, hok, hvars, htapes⟩
  · rw [h] at herr
    cases herr
  rw [h] at hok
  cases hok
  refine ⟨(atom_le hatomic h).size.trans hm.size, fun v hv => ?_, fun t ht => ?_⟩
  · rcases (hvars v).mp hv with hv | ⟨decl, e, rfl, hin, he⟩
    · exact hm.vars hv
    · exact hc.define v decl e hs (hm.size ▸ hin) (he.mono hm.vars hm.tapes)
  · rcases (htapes t).mp ht with ht | ⟨v, rfl, hkind, hv⟩
    · exact hm.tapes ht
    · exact hc.push t v hs hkind (hm.vars hv)

/-- Visits of atomic statements fail at one of them. -/
theorem atoms_error {P : Marks → Prop} {ss : List Stmt}
    (hP : ∀ s ∈ ss, ∀ m m', P m → a.stmt s m = .ok m' → P m') {m : Marks} {e : DiffError} (hm : P m)
    (h : ss.foldlM (fun m s => a.stmt s m) m = .error e) :
    ∃ s ∈ ss, ∃ m', P m' ∧ a.stmt s m' = .error e := by
  induction ss generalizing m with
  | nil => cases h
  | cons s ss ih =>
    rw [List.foldlM_cons] at h
    cases hs : a.stmt s m with
    | error e' =>
      rw [hs] at h
      cases h
      exact ⟨s, by simp, m, hm, hs⟩
    | ok m₁ =>
      rw [hs] at h
      obtain ⟨s', hs', m', hm', herr⟩ :=
        ih (fun s hs => hP s (by simp [hs])) (hP s (by simp) m m₁ hm hs) h
      exact ⟨s', by simp [hs'], m', hm', herr⟩

/-- **Visits reject nothing that is allowed under closed sets**, however little was
marked when they did. -/
theorem Settles.rejects (hc : a.Covers V T) {m : Marks} {e : DiffError}
    (h : a.Settles m (.error e)) (hm : a.Within V T m) :
    ∃ s ∈ blockAtoms a.func.body, a.Violates V s := by
  have hkeep (s : Stmt) (hs : s ∈ blockAtoms a.func.body) (m m' : Marks) (hm : a.Within V T m)
      (h : a.stmt s m = .ok m') : a.Within V T m' := hc.visit hs hm h
  generalize hr : Except.error e = r at h
  induction h with
  | done _ => cases hr
  | again hnext _ _ ih =>
    exact ih (atoms_keep hkeep hm ((block_eq_atoms _ _).symm.trans hnext)) hr
  | fails herror =>
    obtain ⟨s, hs, m', hm', herr⟩ :=
      atoms_error hkeep hm ((block_eq_atoms _ _).symm.trans herror)
    rcases visit_atom (a := a) (blockAtoms_atomic _ s hs) m' with ⟨hbad, -⟩ | ⟨-, m₁, hok, -⟩
    · exact ⟨s, hs, hbad.mono hm'.vars⟩
    · rw [herr] at hok
      cases hok

end Analysis

namespace Activity

/-- Marks that no statement changes are closed, and no statement is rejected under
them. -/
theorem Closed.covers {a : Analysis} {m : Marks} (h : Closed a.func a.input a.withTapes m) :
    a.Covers m.varSet m.tapeSet ∧ ∀ s ∈ blockAtoms a.func.body, ¬a.Violates m.varSet s := by
  have hvisit (s : Stmt) (hs : s ∈ blockAtoms a.func.body) :
      ¬a.Violates m.varSet s ∧
        (∀ v, v ∈ m.varSet ↔ v ∈ m.varSet ∨ ∃ decl e, s = .define v decl e ∧
          v.idx < m.vars.size ∧ a.Spreads m.varSet m.tapeSet v e) ∧
        ∀ t, t ∈ m.tapeSet ↔ t ∈ m.tapeSet ∨ ∃ v, s = .push t v ∧ t.kind ≠ .decisions ∧
          v ∈ m.varSet := by
    have hfixed := h.atoms s hs
    rcases Analysis.visit_atom (a := a) (blockAtoms_atomic _ s hs) m with
      ⟨-, err, herr⟩ | ⟨hok, m₁, hm₁, hmarks⟩
    · rw [hfixed] at herr
      cases herr
    · rw [hfixed] at hm₁
      cases hm₁
      exact ⟨hok, hmarks⟩
  refine ⟨⟨fun v hin hsize => h.start.vars v ?_, fun dst decl e hs hsize he => ?_,
    fun t v hs hkind hv => ?_⟩, fun s hs => (hvisit s hs).1⟩
  · change v ∈ a.start.varSet
    rw [Analysis.start, hin]
    exact (Analysis.mem_varSet_mark _ _ _).mpr (.inr ⟨rfl, by simpa using hsize⟩)
  · exact ((hvisit _ hs).2.1 dst).mpr (.inr ⟨decl, e, rfl, h.size ▸ hsize, he⟩)
  · exact ((hvisit _ hs).2.2 t).mpr (.inr ⟨v, rfl, hkind, hv⟩)

/-- **The analysis computes the least fixed point, and rejects exactly on it.** Visits
of the body come to an end without a bound on their number. With `V` and `T` the least
sets that hold the input and are closed, the function is accepted exactly if all of its
statements are allowed under `V`, and then `V` and `T` are what is active. -/
theorem analyze_least (a : Analysis) :
    a.Settles a.start ((analyze a.func a.input a.withTapes).map Activity.marks) ∧
      ∃ V T, IsLeast {p : Set Var × Set Tape | a.Covers p.1 p.2} (V, T) ∧
        ((∃ act, analyze a.func a.input a.withTapes = .ok act) ↔
          ∀ s ∈ blockAtoms a.func.body, ¬a.Violates V s) ∧
        ∀ act, analyze a.func a.input a.withTapes = .ok act → act.input = a.input ∧
          (∀ v, act.marks.isActive v = true ↔ v ∈ V) ∧
          ∀ t, act.marks.isActiveTape t = true ↔ t ∈ T := by
  have hsettles := analyze_settles a.func a.input a.withTapes
  have hleast := a.isLeast_covers
  have hcovers : a.Covers a.leastVars a.leastTapes := hleast.1
  -- what is found is closed and within the least closed sets, so it is these sets
  have hfound (act : Activity) (h : analyze a.func a.input a.withTapes = .ok act) :
      act.input = a.input ∧ act.marks.varSet = a.leastVars ∧ act.marks.tapeSet = a.leastTapes ∧
        ∀ s ∈ blockAtoms a.func.body, ¬a.Violates act.marks.varSet s := by
    obtain ⟨hin, hclosed, hwithin⟩ := analyze_fixed (P := a.Within a.leastVars a.leastTapes)
      hcovers.start_within (fun s hs m m' hm h => hcovers.visit hs hm h) h
    obtain ⟨hmarks, hallowed⟩ := hclosed.covers (a := a)
    obtain ⟨hvars, htapes⟩ :=
      mem_lowerBounds.mp hleast.2 (act.marks.varSet, act.marks.tapeSet) hmarks
    exact ⟨hin, Set.Subset.antisymm hwithin.vars hvars, Set.Subset.antisymm hwithin.tapes htapes,
      hallowed⟩
  refine ⟨hsettles, a.leastVars, a.leastTapes, hleast, ⟨?_, fun hallowed => ?_⟩, fun act h => ?_⟩
  · rintro ⟨act, h⟩
    obtain ⟨-, hvars, -, hallowed⟩ := hfound act h
    exact hvars ▸ hallowed
  · cases h : analyze a.func a.input a.withTapes with
    | ok act => exact ⟨act, rfl⟩
    | error e =>
      rw [h] at hsettles
      obtain ⟨s, hs, hbad⟩ := Analysis.Settles.rejects hcovers hsettles hcovers.start_within
      exact absurd hbad (hallowed s hs)
  · obtain ⟨hin, hvars, htapes, -⟩ := hfound act h
    exact ⟨hin, fun v => hvars ▸ Iff.rfl, fun t => htapes ▸ Iff.rfl⟩

end Activity

end Backsweep
