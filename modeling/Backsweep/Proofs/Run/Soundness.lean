import Mathlib
import Backsweep.Proofs.Run.Whole
import Backsweep.Proofs.Syntax.Typing

/-!
# Type soundness

Valid functions do not go wrong. Variables in scope are defined, so none is read
before; and as long as all values come from the function itself, every variable
and every tape holds values of its type.

* `Opcode.eval_total`: an operation has a result of its type, or operands of wrong
  types;
* `Machine.Sound`: the invariant of a run;
* `Job.execBlock_sound`: every block keeps it;
* `valid_run_sound`: runs of valid functions.
-/

namespace Backsweep

variable {v : Var}

/-! ## Operations -/

namespace Operation

variable {R : Type}

/-- With `sig` as types of operands and result, there is a result of its type, or
the operands have wrong types. -/
def Total (sig : List Ty × Ty) (args : List (Value R)) (r : Except RunError (Value R)) : Prop :=
  (∃ v, r = .ok v ∧ v.ty = sig.2) ∨
    (args.map Value.ty ≠ sig.1 ∧ ∃ a b, r = .error (.typeConfusion a b))

variable {args : List (Value R)}

theorem realUnary_total (f : R → R) (h : args.length = 1) :
    Total ([.real], .real) args (realUnary f args) := by
  obtain ⟨x, rfl⟩ := List.length_eq_one_iff.mp h
  cases x with
  | real x => exact .inl ⟨_, rfl, rfl⟩
  | int n | bool b | obj o => exact .inr ⟨by simp [Value.ty], _, _, rfl⟩

theorem intUnary_total (f : Int → Int) (h : args.length = 1) :
    Total ([.int], .int) args (intUnary f args) := by
  obtain ⟨x, rfl⟩ := List.length_eq_one_iff.mp h
  cases x with
  | int n => exact .inl ⟨_, rfl, rfl⟩
  | real x | bool b | obj o => exact .inr ⟨by simp [Value.ty], _, _, rfl⟩

theorem boolUnary_total (f : Bool → Bool) (h : args.length = 1) :
    Total ([.bool], .bool) args (boolUnary f args) := by
  obtain ⟨x, rfl⟩ := List.length_eq_one_iff.mp h
  cases x with
  | bool b => exact .inl ⟨_, rfl, rfl⟩
  | real x | int n | obj o => exact .inr ⟨by simp [Value.ty], _, _, rfl⟩

theorem intToReal_total (f : Int → R) (h : args.length = 1) :
    Total ([.int], .real) args (intToReal f args) := by
  obtain ⟨x, rfl⟩ := List.length_eq_one_iff.mp h
  cases x with
  | int n => exact .inl ⟨_, rfl, rfl⟩
  | real x | bool b | obj o => exact .inr ⟨by simp [Value.ty], _, _, rfl⟩

/-- Two operands are read as a `β` of type `ty`, then `k` always answers. -/
theorem binary_total {β : Type} {read : Value R → Except RunError β} {ty res : Ty}
    (hread : ∀ v, (∃ x, read v = .ok x) ∨ (v.ty ≠ ty ∧ ∃ a b, read v = .error (.typeConfusion a b)))
    {k : β → β → Value R} (hk : ∀ x y, (k x y).ty = res) (x y : Value R) :
    Total ([ty, ty], res) [x, y] (read x >>= fun a => read y >>= fun b => pure (k a b)) := by
  rcases hread x with ⟨a, ha⟩ | ⟨hx, e, e', hxe⟩
  · rcases hread y with ⟨b, hb⟩ | ⟨hy, e, e', hye⟩
    · rw [ha, hb]
      exact .inl ⟨_, rfl, hk a b⟩
    · rw [ha, hye]
      exact .inr ⟨by simp [hy], _, _, rfl⟩
  · rw [hxe]
    exact .inr ⟨by simp [hx], _, _, rfl⟩

theorem toReal_total (v : Value R) :
    (∃ x, v.toReal = .ok x) ∨ (v.ty ≠ .real ∧ ∃ a b, v.toReal = .error (.typeConfusion a b)) := by
  cases v with
  | real x => exact .inl ⟨x, rfl⟩
  | int n | bool b | obj o => exact .inr ⟨by simp [Value.ty], _, _, rfl⟩

theorem toInt_total (v : Value R) :
    (∃ x, v.toInt = .ok x) ∨ (v.ty ≠ .int ∧ ∃ a b, v.toInt = .error (.typeConfusion a b)) := by
  cases v with
  | int n => exact .inl ⟨n, rfl⟩
  | real x | bool b | obj o => exact .inr ⟨by simp [Value.ty], _, _, rfl⟩

theorem realBinary_total (f : R → R → R) (h : args.length = 2) :
    Total ([.real, .real], .real) args (realBinary f args) := by
  obtain ⟨x, y, rfl⟩ := List.length_eq_two.mp h
  exact binary_total toReal_total (k := fun a b => .real (f a b)) (fun _ _ => rfl) x y

theorem realTest_total (f : R → R → Bool) (h : args.length = 2) :
    Total ([.real, .real], .bool) args (realTest f args) := by
  obtain ⟨x, y, rfl⟩ := List.length_eq_two.mp h
  exact binary_total toReal_total (k := fun a b => .bool (f a b)) (fun _ _ => rfl) x y

theorem intBinary_total (f : Int → Int → Int) (h : args.length = 2) :
    Total ([.int, .int], .int) args (intBinary f args) := by
  obtain ⟨x, y, rfl⟩ := List.length_eq_two.mp h
  exact binary_total toInt_total (k := fun a b => .int (wrap32 (f a b))) (fun _ _ => rfl) x y

theorem intTest_total (f : Int → Int → Bool) (h : args.length = 2) :
    Total ([.int, .int], .bool) args (intTest f args) := by
  obtain ⟨x, y, rfl⟩ := List.length_eq_two.mp h
  exact binary_total toInt_total (k := fun a b => .bool (f a b)) (fun _ _ => rfl) x y

end Operation

open Operation in
/-- **An operation on the right number of operands has a result of its type, or
operands of wrong types.** -/
theorem Opcode.eval_total {R : Type} [Scalar R] (op : Opcode) {args : List (Value R)}
    (h : args.length = op.arity) : Total op.signature args (op.eval args) := by
  cases op
  case fneg | sin | cos | tan | exp | ln | sqrt | tanh => exact realUnary_total _ h
  case ineg => exact intUnary_total _ h
  case bnot => exact boolUnary_total _ h
  case ifcast => exact intToReal_total _ h
  case fadd | fsub | fmul | fdiv | pow => exact realBinary_total _ h
  case flt | fgt | fle | fge | feq | fne => exact realTest_total _ h
  case iadd | isub | imul => exact intBinary_total _ h
  case ilt | igt | ile | ige | ieq | ine => exact intTest_total _ h

/-! ## The invariant -/

variable {R : Type}

/-- Some call ends with the error. -/
def Externs.Raises (x : Externs R) (e : RunError) : Prop :=
  ∃ callee vals w w', x.call callee vals w = .error e w'

/-- What a run of a valid function can fail with: it misses no variable and no
operand, unless a call did, and confuses no types if it is `typed`. -/
structure SoundError (x : Externs R) (typed : Prop) (e : RunError) : Prop where
  undefinedVar : ∀ name, e = .undefinedVar name → x.Raises e
  arity : ∀ a b, e = .arity a b → x.Raises e
  typeConfusion : typed → ∀ a b, e ≠ .typeConfusion a b

theorem SoundError.of_ne {x : Externs R} {typed : Prop} {e : RunError}
    (hvar : ∀ name, e ≠ .undefinedVar name) (harity : ∀ a b, e ≠ .arity a b)
    (htype : ∀ a b, e ≠ .typeConfusion a b) : SoundError x typed e :=
  ⟨fun name he => absurd he (hvar name), fun a b he => absurd he (harity a b), fun _ => htype⟩

theorem SoundError.of_untyped {x : Externs R} {typed : Prop} (h : ¬typed) (a b : Ty) :
    SoundError x typed (.typeConfusion a b) :=
  ⟨by simp, by simp, fun ht => absurd ht h⟩

/-- The variables `D` are defined. If the run is `typed`, all variables and tapes
hold values of their types. -/
structure Machine.Sound (f : Func) (typed : Prop) (D : Finset Var) (m : Machine R) : Prop where
  graph : m.graph = none
  size : m.vars.size = f.vars.size
  defined : ∀ v ∈ D, ∃ s, m.var v = some s
  vars : typed → ∀ v s, m.var v = some s → s.value.ty = f.varTy v
  tapes : typed → ∀ t, ∀ s ∈ m.stack t, s.value.ty = t.content

/-- The invariant where a block ends, or the types of what it returns. -/
def Flow.Sound (f : Func) (typed : Prop) (D : Finset Var) : Flow R → Machine R → Prop
  | .next, m => m.Sound f typed D
  | .ret vals, _ => typed → (Slot.values vals).map Value.ty = f.returns

/-- The value does not come from outside of the function. -/
def Expr.IsPlain : Expr → Prop
  | .load _ _ => False
  | .call _ _ _ => False
  | _ => True

def Stmt.IsPlain : Stmt → Prop
  | .define _ _ e => e.IsPlain
  | _ => True

namespace Machine.Sound

variable {f : Func} {typed : Prop} {D D' : Finset Var} {m : Machine R}

theorem mono (h : m.Sound f typed D) (hD : D' ⊆ D) : m.Sound f typed D' :=
  ⟨h.graph, h.size, fun v hv => h.defined v (hD hv), h.vars, h.tapes⟩

theorem ticked (h : m.Sound f typed D) : m.ticked.Sound f typed D :=
  ⟨h.graph, h.size, h.defined, h.vars, h.tapes⟩

theorem setWorld (h : m.Sound f typed D) (world : World R) :
    ({ m with world } : Machine R).Sound f typed D :=
  ⟨h.graph, h.size, h.defined, h.vars, h.tapes⟩

theorem setVar (h : m.Sound f typed D) (hv : v.idx < f.vars.size) {s : Slot R}
    (hs : typed → s.value.ty = f.varTy v) : (m.setVar v s).Sound f typed (insert v D) := by
  have hin : v.idx < m.vars.size := h.size ▸ hv
  refine ⟨h.graph, by simpa using h.size, fun w hw => ?_, fun ht w s' hs' => ?_, h.tapes⟩
  · by_cases hvw : v = w
    · subst hvw
      exact ⟨s, Machine.var_setVar_self _ _ _ hin⟩
    · rw [Machine.var_setVar_ne _ _ _ _ hvw]
      rcases Finset.mem_insert.mp hw with hwv | hw
      · exact absurd hwv.symm hvw
      · exact h.defined w hw
  · by_cases hvw : v = w
    · subst hvw
      rw [Machine.var_setVar_self _ _ _ hin] at hs'
      cases hs'
      exact hs ht
    · rw [Machine.var_setVar_ne _ _ _ _ hvw] at hs'
      exact h.vars ht w s' hs'

theorem pushTape (h : m.Sound f typed D) {t : Tape} {s : Slot R}
    (hs : typed → s.value.ty = t.content) : (m.pushTape t s).Sound f typed D := by
  refine ⟨h.graph, h.size, h.defined, h.vars, fun ht u s' hs' => ?_⟩
  rw [Machine.stack_pushTape] at hs'
  split at hs'
  · rename_i hu
    subst hu
    rcases List.mem_cons.mp hs' with rfl | hs'
    · exact hs ht
    · exact h.tapes ht u s' hs'
  · exact h.tapes ht u s' hs'

theorem dropTape (h : m.Sound f typed D) {t : Tape} {s : Slot R} {st : List (Slot R)}
    (hst : m.stack t = s :: st) : (m.dropTape t st).Sound f typed D := by
  refine ⟨h.graph, h.size, h.defined, h.vars, fun ht u s' hs' => ?_⟩
  rw [Machine.stack_dropTape] at hs'
  split at hs'
  · rename_i hu
    subst hu
    exact h.tapes ht u s' (by rw [hst]; exact List.mem_cons_of_mem _ hs')
  · exact h.tapes ht u s' hs'

variable {j : Job R}

/-- A variable in scope can be read. -/
theorem read (h : m.Sound f typed D) (hv : v ∈ D) :
    ∃ s, j.read v m = .ok s m ∧ (typed → s.value.ty = f.varTy v) := by
  obtain ⟨s, hs⟩ := h.defined v hv
  exact ⟨s, j.read_some m hs, fun ht => h.vars ht v s hs⟩

theorem readAll (h : m.Sound f typed D) (vs : List Var) (hvs : ∀ v ∈ vs, v ∈ D) :
    ∃ ss, j.readAll vs m = .ok ss m ∧ ss.length = vs.length ∧
      (typed → (Slot.values ss).map Value.ty = vs.map f.varTy) := by
  induction vs with
  | nil => exact ⟨[], rfl, rfl, fun _ => rfl⟩
  | cons v vs ih =>
    obtain ⟨s, hs, hty⟩ := h.read (j := j) (hvs v (by simp))
    obtain ⟨ss, hss, hl, htys⟩ := ih fun w hw => hvs w (by simp [hw])
    refine ⟨s :: ss, ?_, by simp [hl], fun ht => ?_⟩
    · change (j.read v >>= fun s => j.readAll vs >>= fun ss => pure (s :: ss)) m = _
      rw [bind_ok hs, bind_ok hss]
      rfl
    · simp only [Slot.values, List.map_cons, hty ht, htys ht]

/-- A test in scope has an answer, or is no boolean. -/
theorem readBool (h : m.Sound f typed D) (hv : v ∈ D) (hty : f.varTy v = .bool) :
    Ends (j.readBool v m) (fun _ m' => m' = m) (fun e _ => SoundError j.externs typed e) := by
  obtain ⟨s, hs⟩ := h.defined v hv
  rw [j.readBool_some m hs]
  have hbool (ht : typed) := (h.vars ht v s hs).trans hty
  cases hval : s.value with
  | bool b => rfl
  | real x | int n | obj o =>
    rw [hval] at hbool
    exact .of_untyped (fun ht => by cases hbool ht) _ _

theorem readObj (h : m.Sound f typed D) (hv : v ∈ D) (hty : f.varTy v = .obj) :
    Ends (j.readObj v m) (fun _ m' => m' = m) (fun e _ => SoundError j.externs typed e) := by
  obtain ⟨s, hs, hobj⟩ := h.read (j := j) hv
  change Ends ((j.read v >>= fun s => Job.ofExcept s.value.toObj) m) _ _
  rw [bind_ok hs, Job.ofExcept_apply]
  have hobj (ht : typed) := (hobj ht).trans hty
  cases hval : s.value with
  | obj o => rfl
  | real x | int n | bool b =>
    rw [hval] at hobj
    exact .of_untyped (fun ht => by cases hobj ht) _ _

end Machine.Sound

theorem Flow.Sound.mono {f : Func} {typed : Prop} {D D' : Finset Var} {m : Machine R}
    {flow : Flow R} (h : flow.Sound f typed D m) (hD : D' ⊆ D) : flow.Sound f typed D' m := by
  cases flow with
  | next => exact Machine.Sound.mono h hD
  | ret vals => exact h

/-! ## Statements -/

namespace Job

variable [Scalar R] {j : Job R} {f : Func} {typed : Prop} {D : Finset Var} {m : Machine R}

omit [Scalar R] in
theorem load_sound (hm : m.Sound f typed D) (h : Nat) (field : String) :
    Ends (load h field m) (fun _ m' => m'.Sound f typed D)
      (fun e _ => SoundError j.externs typed e) := by
  rw [load_apply, Heap.load_eq]
  cases m.world.heap.records[h]? with
  | none => exact .of_ne (by simp) (by simp) (by simp)
  | some r =>
    dsimp only
    cases r.lookup field with
    | none => exact .of_ne (by simp) (by simp) (by simp)
    | some v => exact hm

omit [Scalar R] in
theorem store_sound (hm : m.Sound f typed D) (h : Nat) (field : String) (s : Slot R) :
    Ends (store h field s m) (fun _ m' => m'.Sound f typed D)
      (fun e _ => SoundError j.externs typed e) := by
  rw [store_apply]
  unfold Heap.store Heap.record
  cases m.world.heap.records[h]? with
  | none => exact .of_ne (by simp) (by simp) (by simp)
  | some r =>
    refine ⟨?_, hm.size, hm.defined, hm.vars, hm.tapes⟩
    change m.graph.map _ = none
    rw [hm.graph]
    rfl

omit [Scalar R] in
theorem call_sound (hm : m.Sound f typed D) (hplain : ¬typed) (callee : String)
    (args : List (Slot R)) :
    Ends (j.call callee args m) (fun _ m' => m'.Sound f typed D)
      (fun e _ => SoundError j.externs typed e) := by
  have hgraph : m.graph.isSome = false := by rw [hm.graph]; rfl
  rw [call_apply]
  simp only [hgraph, Bool.false_and, Bool.false_eq_true, if_false]
  cases hcall : j.externs.call callee (Slot.values args) m.world with
  | error e world =>
    have hraises : j.externs.Raises e := ⟨callee, _, _, world, hcall⟩
    exact ⟨fun _ _ => hraises, fun _ _ _ => hraises, fun ht => absurd ht hplain⟩
  | ok value world => exact hm.setWorld world

theorem operate_sound (hm : m.Sound f typed D) {op : Opcode} {args : List (Slot R)}
    (hl : args.length = op.arity)
    (hargs : typed → (Slot.values args).map Value.ty = op.params) :
    Ends (operate op args m)
      (fun s m' => m'.Sound f typed D ∧ (typed → s.value.ty = op.result))
      (fun e _ => SoundError j.externs typed e) := by
  rw [operate_apply, hm.graph]
  have hlength : (Slot.values args).length = op.arity := by
    rw [← hl]
    clear hl hargs
    induction args with
    | nil => rfl
    | cons s ss ih => simp [Slot.values, ih]
  rcases op.eval_total hlength with ⟨v, hv, hty⟩ | ⟨hne, a, b, herror⟩
  · rw [hv]
    exact ⟨hm, fun _ => hty⟩
  · rw [herror]
    exact .of_untyped (fun ht => hne (hargs ht)) a b

theorem eval_sound {e : Expr} {dst : Var} (huses : ∀ v ∈ e.uses, v ∈ D) (hfits : e.Fits f dst)
    (hplain : typed → e.IsPlain) (hm : m.Sound f typed D) :
    Ends (j.eval e m)
      (fun s m' => m'.Sound f typed D ∧ (typed → s.value.ty = f.varTy dst))
      (fun e _ => SoundError j.externs typed e) := by
  cases e with
  | const k =>
    refine ⟨hm, fun _ => ?_⟩
    rw [show f.varTy dst = k.ty from hfits]
    cases k <;> rfl
  | copy v =>
    obtain ⟨s, hs, hty⟩ := hm.read (j := j) (huses v (by simp [Expr.uses]))
    change Ends (j.read v m) _ _
    rw [hs]
    exact ⟨hm, fun ht => (hty ht).trans hfits⟩
  | load obj field =>
    rw [eval_load, ends_bind]
    refine (hm.readObj (j := j) (huses obj (by simp [Expr.uses])) hfits).mono ?_ fun _ _ h => h
    rintro h m' rfl
    exact (load_sound hm h field).mono
      (fun _ _ h => ⟨h, fun ht => (hplain ht).elim⟩) fun _ _ h => h
  | op op args =>
    obtain ⟨ss, hss, hl, htys⟩ := hm.readAll (j := j) args huses
    have harity : ss.length = op.arity := by
      rw [hl, Opcode.arity, ← hfits.1, List.length_map]
    rw [eval_op, bind_ok hss]
    exact (operate_sound hm harity fun ht => (htys ht).trans hfits.1).mono
      (fun s m' h => ⟨h.1, fun ht => (h.2 ht).trans hfits.2.symm⟩) fun _ _ h => h
  | call callee args node =>
    obtain ⟨ss, hss, -⟩ := hm.readAll (j := j) args huses
    rw [eval_call, bind_ok hss]
    exact (call_sound hm (fun ht => hplain ht) callee ss).mono
      (fun _ _ h => ⟨h, fun ht => (hplain ht).elim⟩) fun _ _ h => h
  | pop t =>
    change Ends (pop t m) _ _
    cases hst : m.stack t with
    | nil =>
      rw [pop_nil m hst]
      exact .of_ne (by simp) (by simp) (by simp)
    | cons s st =>
      rw [pop_cons m hst]
      refine ⟨hm.dropTape hst, fun ht => ?_⟩
      rw [hm.tapes ht t s (by rw [hst]; exact List.mem_cons_self), show f.varTy dst = t.content from hfits]
  | topIs t d => exact ⟨hm, fun _ => hfits.2.symm⟩

theorem atom_sound {s : Stmt} (hs : s.isControlFlow = false) (hscoped : s.Scoped f D)
    (hfits : s.Fits f) (htable : ∀ v ∈ allDecls [s], v.idx < f.vars.size)
    (hplain : typed → s.IsPlain) (hm : m.Sound f typed D) :
    Ends (j.exec s m) (Flow.Sound f typed (blockScope D [s]))
      (fun e _ => SoundError j.externs typed e) := by
  cases s, hs using Stmt.atomCases with
  | define dst decl e =>
    rw [exec_define, ends_bind]
    have huses : ∀ v ∈ e.uses, v ∈ D := by
      cases decl with
      | true => exact hscoped.1
      | false => exact hscoped.1
    refine (eval_sound (j := j) huses hfits hplain hm).mono (fun s m' h => ?_) fun _ _ h => h
    cases decl with
    | true =>
      have hdst := htable dst (mem_allDecls.mpr ⟨e, by simp [blockAtoms, Stmt.atoms]⟩)
      rw [blockScope_declare]
      exact h.1.setVar hdst h.2
    | false =>
      rw [blockScope_same D rfl]
      obtain ⟨s', hs'⟩ := h.1.defined dst hscoped.2.2.1
      have hdst : dst.idx < f.vars.size := by
        rw [← h.1.size]
        by_contra hout
        rw [Machine.var, Array.getD_eq_getD_getElem?,
          Array.getElem?_eq_none (Nat.le_of_not_lt hout)] at hs'
        cases hs'
      exact (h.1.setVar hdst h.2).mono (Finset.subset_insert dst D)
  | store obj field val =>
    rw [exec_store, ends_bind, blockScope_same D rfl]
    refine (hm.readObj (j := j) hscoped.1 hfits).mono ?_ fun _ _ h => h
    rintro h m' rfl
    obtain ⟨s, hread, -⟩ := hm.read (j := j) hscoped.2
    rw [bind_ok hread, ends_bind]
    exact (store_sound hm h field s).mono (fun _ _ h => h) fun _ _ h => h
  | push t val =>
    obtain ⟨s, hread, hty⟩ := hm.read (j := j) hscoped
    rw [exec_push, bind_ok hread, blockScope_same D rfl]
    exact hm.pushTape fun ht => (hty ht).trans (hfits.2.trans (Tape.content_of_ne hfits.1).symm)
  | pushDecision t d =>
    rw [exec_pushDecision, blockScope_same D rfl]
    exact hm.pushTape fun _ => (show t.content = .int from hfits).symm
  | unreachable => exact .of_ne (by simp) (by simp) (by simp)
  | ret vals =>
    obtain ⟨ss, hss, -, htys⟩ := hm.readAll (j := j) vals hscoped
    rw [exec_ret, bind_ok hss]
    exact fun ht => (htys ht).trans hfits

/-! ## Blocks -/

/-- From any machine with the invariant, the action ends with it, or soundly. -/
def Keeps (j : Job R) (f : Func) (typed : Prop) (D D' : Finset Var) (act : Exec R (Flow R)) : Prop :=
  ∀ m : Machine R, m.Sound f typed D →
    Ends (act m) (Flow.Sound f typed D') (fun e _ => SoundError j.externs typed e)

omit [Scalar R] in
theorem whileRounds_sound {header body : Exec R (Flow R)} {test : Var} {D₁ D₂ : Finset Var}
    (hh : j.Keeps f typed D D₁ header) (htest : test ∈ D₁) (hty : f.varTy test = .bool)
    (hb : j.Keeps f typed D₁ D₂ body) (hD₁ : D ⊆ D₁) (hD₂ : D ⊆ D₂) (n : Nat) :
    j.Keeps f typed D D (j.whileRounds header (j.readBool test) body n) := by
  have hlimit : SoundError j.externs typed .stepLimit :=
    .of_ne (by simp) (by simp) (by simp)
  induction n with
  | zero => exact fun m _ => hlimit
  | succ n ih =>
    intro m hm
    simp only [Job.whileRounds]
    rw [ends_bind, tick_apply]
    split
    · exact hlimit
    · rw [ends_ok, ends_bind]
      refine (hh m.ticked hm.ticked).mono (fun flow m₁ h₁ => ?_) fun _ _ h => h
      cases flow with
      | ret vals => exact h₁
      | next =>
        have h₁ : m₁.Sound f typed D₁ := h₁
        rw [ends_bind]
        refine (h₁.readBool (j := j) htest hty).mono ?_ fun _ _ h => h
        rintro go m₂ rfl
        cases go with
        | false => exact h₁.mono hD₁
        | true =>
          simp only [ite_true]
          rw [ends_bind]
          refine (hb _ h₁).mono (fun flow m₃ h₃ => ?_) fun _ _ h => h
          cases flow with
          | ret vals => exact h₃
          | next => exact ih m₃ (Machine.Sound.mono h₃ hD₂)

theorem arms_sound {arms : List (Var × Block)} {other : Exec R (Flow R)}
    (htests : ∀ arm ∈ arms, arm.1 ∈ D ∧ f.varTy arm.1 = .bool)
    (harms : ∀ arm ∈ arms, j.Keeps f typed D D (j.execBlock arm.2))
    (hother : j.Keeps f typed D D other) : j.Keeps f typed D D (j.execArms arms other) := by
  induction arms with
  | nil => exact hother
  | cons arm arms ih =>
    obtain ⟨test, body⟩ := arm
    have htest := htests (test, body) (by simp)
    have hbody := harms (test, body) (by simp)
    have hrest := ih (fun a ha => htests a (by simp [ha])) (fun a ha => harms a (by simp [ha]))
    intro m hm
    simp only [Job.execArms]
    rw [ends_bind]
    refine (hm.readBool (j := j) htest.1 htest.2).mono ?_ fun _ _ h => h
    rintro go m' rfl
    cases go with
    | true => exact hbody _ hm
    | false => exact hrest _ hm

theorem cons_sound {s : Stmt} {ss : Block} {D₁ D₂ : Finset Var}
    (hs : j.Keeps f typed D D₁ (j.exec s)) (hss : j.Keeps f typed D₁ D₂ (j.execBlock ss)) :
    j.Keeps f typed D D₂ (j.execBlock (s :: ss)) := by
  intro m hm
  simp only [Job.execBlock]
  rw [ends_bind]
  refine (hs m hm).mono (fun flow m₁ h₁ => ?_) fun _ _ h => h
  cases flow with
  | ret vals => exact h₁
  | next => exact hss m₁ h₁

omit [Scalar R] in
theorem Keeps.narrow {D' : Finset Var} {act : Exec R (Flow R)} (h : j.Keeps f typed D D' act)
    (hD : D ⊆ D') : j.Keeps f typed D D act := fun m hm =>
  (h m hm).mono (fun _ _ h => Flow.Sound.mono h hD) fun _ _ h => h

/-- **Scoped code with fitting types keeps the invariant.** -/
theorem execBlock_sound {b : Block} (hscoped : blockScoped f D b) (hfits : blockFits f b)
    (htable : ∀ v ∈ allDecls b, v.idx < f.vars.size)
    (hplain : typed → ∀ a ∈ blockAtoms b, a.IsPlain) :
    j.Keeps f typed D (blockScope D b) (j.execBlock b) := by
  -- what holds of the atoms of a block holds of those of its parts
  have part {a b : Block} (h : blockAtoms a ⊆ blockAtoms b)
      (htable : ∀ v ∈ allDecls b, v.idx < f.vars.size)
      (hplain : typed → ∀ a ∈ blockAtoms b, a.IsPlain) :
      (∀ v ∈ allDecls a, v.idx < f.vars.size) ∧ (typed → ∀ x ∈ blockAtoms a, x.IsPlain) :=
    ⟨fun v hv => htable v (allDecls_subset h hv), fun ht x hx => hplain ht x (h hx)⟩
  induction b using blockInduction generalizing D with
  | nil =>
    intro m hm
    rw [blockScope_nil]
    exact hm
  | atom s ss hs ih =>
    obtain ⟨hts, hps⟩ := part (a := [s]) (by simp [blockAtoms]) htable hplain
    obtain ⟨htss, hpss⟩ := part (a := ss) (by simp [blockAtoms]) htable hplain
    rw [blockScope_cons]
    refine cons_sound (fun m hm => ?_) (ih hscoped.2 hfits.2 htss hpss)
    refine atom_sound hs hscoped.1 hfits.1 hts (fun ht => hps ht s ?_) hm
    simp [blockAtoms, Stmt.atoms_of_not_controlFlow hs]
  | cond arms other ss iha iho ih =>
    obtain ⟨⟨harms, hother⟩, hss⟩ := hscoped
    obtain ⟨⟨hfarms, hfother⟩, hfss⟩ := hfits
    rw [armsScoped_iff] at harms
    rw [armsFit_iff] at hfarms
    obtain ⟨hto, hpo⟩ := part (a := other)
      (fun x hx => by simp [blockAtoms, Stmt.atoms, hx]) htable hplain
    obtain ⟨htss, hpss⟩ := part (a := ss) (by simp [blockAtoms]) htable hplain
    rw [blockScope_controlFlow D rfl] at hss
    rw [blockScope_cons, blockScope_controlFlow D rfl]
    refine cons_sound (arms_sound (fun arm harm => ⟨(harms arm harm).1, (hfarms arm harm).1⟩)
      (fun arm harm => ?_) ((iho hother hfother hto hpo).narrow (subset_blockScope D other)))
      (ih hss hfss htss hpss)
    obtain ⟨hta, hpa⟩ := part (a := arm.2) (fun x hx => by
      simp only [blockAtoms, Stmt.atoms, List.mem_append, mem_armsAtoms]
      exact .inl (.inl ⟨arm, harm, hx⟩)) htable hplain
    exact (iha arm harm (harms arm harm).2 (hfarms arm harm).2 hta hpa).narrow
      (subset_blockScope D arm.2)
  | loop header test body ss ihh ihb ih =>
    obtain ⟨⟨hheader, htest, -, hbody⟩, hss⟩ := hscoped
    obtain ⟨⟨hfheader, hty, hfbody⟩, hfss⟩ := hfits
    obtain ⟨hth, hph⟩ := part (a := header)
      (fun x hx => by simp [blockAtoms, Stmt.atoms, hx]) htable hplain
    obtain ⟨htb, hpb⟩ := part (a := body)
      (fun x hx => by simp [blockAtoms, Stmt.atoms, hx]) htable hplain
    obtain ⟨htss, hpss⟩ := part (a := ss) (by simp [blockAtoms]) htable hplain
    rw [blockScope_controlFlow D rfl] at hss
    rw [blockScope_cons, blockScope_controlFlow D rfl]
    refine cons_sound (fun m hm => ?_) (ih hss hfss htss hpss)
    exact whileRounds_sound (ihh hheader hfheader hth hph) htest hty
      (ihb hbody hfbody htb hpb) (subset_blockScope D header)
      ((subset_blockScope D header).trans (subset_blockScope _ body)) _ m hm
  | doLoop body test ss ihb ih =>
    obtain ⟨⟨hbody, htest⟩, hss⟩ := hscoped
    obtain ⟨⟨hfbody, hty⟩, hfss⟩ := hfits
    obtain ⟨htb, hpb⟩ := part (a := body)
      (fun x hx => by simp [blockAtoms, Stmt.atoms, hx]) htable hplain
    obtain ⟨htss, hpss⟩ := part (a := ss) (by simp [blockAtoms]) htable hplain
    rw [blockScope_controlFlow D rfl] at hss
    rw [blockScope_cons, blockScope_controlFlow D rfl]
    refine cons_sound (fun m hm => ?_) (ih hss hfss htss hpss)
    rw [exec_doLoop]
    have hnext : j.Keeps f typed (blockScope D body) (blockScope D body) (j.execBlock []) :=
      fun m hm => hm
    exact whileRounds_sound (ihb hbody hfbody htb hpb) htest hty hnext
      (subset_blockScope D body) (subset_blockScope D body) _ m hm
  | block body ss ihb ih =>
    obtain ⟨htb, hpb⟩ := part (a := body)
      (fun x hx => by simp [blockAtoms, Stmt.atoms, hx]) htable hplain
    obtain ⟨htss, hpss⟩ := part (a := ss) (by simp [blockAtoms]) htable hplain
    obtain ⟨hbody, hss⟩ := hscoped
    rw [blockScope_controlFlow D rfl] at hss
    rw [blockScope_cons, blockScope_controlFlow D rfl]
    exact cons_sound ((ihb hbody hfits.1 htb hpb).narrow (subset_blockScope D body))
      (ih hss hfits.2 htss hpss)

end Job

/-! ## Runs -/

/-- The function takes no values from outside: it has no loads and no calls. -/
def Func.IsPlain (f : Func) : Prop := ∀ a ∈ blockAtoms f.body, a.IsPlain

/-- The arguments have the types of the parameters. -/
def Func.Accepts (f : Func) (args : List (Value R)) : Prop :=
  args.map Value.ty = f.params.map f.varTy

/-- The parameters are defined, and hold values of their types. -/
theorem Func.sound_entered {f : Func} (hnodup : f.params.Nodup)
    (htable : ∀ v ∈ f.params, v.idx < f.vars.size) {args : List (Value R)}
    (hargs : args.length = f.params.length) {typed : Prop} (htyped : typed → f.Accepts args)
    (world : World R) : (f.entered world args).Sound f typed f.params.toFinset := by
  have hnone (v : Var) : (Machine.new f world).var v = none := by
    simp only [Machine.var, Machine.new, Array.getD_eq_getD_getElem?, Array.getElem?_replicate]
    split <;> rfl
  refine ⟨(Machine.enter_keeps _ _ _).2.2.1, f.size_entered world args, fun v hv => ?_,
    fun ht v s hs => ?_, fun _ t s hs => ?_⟩
  · obtain ⟨i, hi, hget⟩ := List.getElem_of_mem (List.mem_toFinset.mp hv)
    have hlt : i < args.length := hargs ▸ hi
    refine ⟨{ value := args[i] }, Machine.enter_param hnodup (i := i) (fun w hw => ?_) ?_ ?_⟩
    · simpa [Machine.new] using htable w hw
    · rw [List.getElem?_eq_getElem hi, hget]
    · simp [hlt]
  · rcases Machine.enter_cases hs with hs | hs
    · rw [hnone] at hs
      cases hs
    · obtain ⟨i, hi⟩ := List.mem_iff_getElem?.mp hs
      rw [List.getElem?_zip_eq_some, List.getElem?_map] at hi
      obtain ⟨hv, hslot⟩ := hi
      obtain ⟨value, hvalue, rfl⟩ := Option.map_eq_some_iff.mp hslot
      have := congrArg (·[i]?) (htyped ht)
      simpa [hv, hvalue] using this
  · rw [f.stack_entered] at hs
    cases hs

/-- **Valid functions do not go wrong.** A run of a valid function on the right
number of arguments never reads an undefined variable and never calls an operation
with a wrong number of operands, unless the error comes from a call. Without loads
and calls, and on arguments of the declared types, it never confuses types, and
returns values of the types that the function says. That variables are entries of
the table is what makes them variables of the function. -/
theorem valid_run_sound [Scalar R] {f : Func} (hf : f.isValid = true)
    (htable : ∀ v ∈ f.params ++ allDecls f.body, v.idx < f.vars.size) {j : Job R} (hj : j.func = f)
    {args : List (Value R)} (hargs : args.length = f.params.length) (world : World R) :
    Ends (j.run args (.new f world))
      (fun vals _ => f.IsPlain → f.Accepts args → vals.map Value.ty = f.returns)
      (fun e _ => (∀ x, e = .undefinedVar x → j.externs.Raises e) ∧
        (∀ a b, e = .arity a b → j.externs.Raises e) ∧
        (f.IsPlain → f.Accepts args → ∀ a b, e ≠ .typeConfusion a b)) := by
  subst hj
  let typed := j.func.IsPlain ∧ j.func.Accepts args
  have hnodup := (Func.checked_of_isValid hf).1
  have hstart : (j.func.entered world args).Sound j.func typed j.func.params.toFinset :=
    Func.sound_entered hnodup (fun v hv => htable v (by simp [hv])) hargs (fun ht => ht.2) world
  have hkeeps : j.Keeps j.func typed j.func.params.toFinset _ (j.execBlock j.func.body) :=
    Job.execBlock_sound (Func.scoped_of_isValid hf) (Func.fits_of_isValid hf)
      (fun v hv => htable v (by simp [hv])) fun ht => ht.1
  have hbody := hkeeps _ hstart
  unfold Job.run
  rw [ends_bind, j.runSlots_eq _ (by simpa using hargs)]
  change Ends (Flow.results (j.execBlock j.func.body (j.func.entered world args))) _ _
  cases hrun : j.execBlock j.func.body (j.func.entered world args) with
  | error e m =>
    rw [hrun] at hbody
    exact ⟨hbody.undefinedVar, hbody.arity, fun hp ha => hbody.typeConfusion ⟨hp, ha⟩⟩
  | ok flow m =>
    rw [hrun] at hbody
    cases flow with
    | next => exact ⟨by simp, by simp, fun _ _ => by simp⟩
    | ret vals => exact fun hp ha => hbody ⟨hp, ha⟩

/-- A loop that doubles a real as long as it is small. -/
def Func.doubling : Func where
  name := "doubling"
  attrs := []
  params := [⟨0⟩]
  returns := [.real]
  vars := #[⟨"x", .real, false⟩, ⟨"y", .real, true⟩, ⟨"small", .bool, false⟩]
  body := [.define ⟨1⟩ true (.copy ⟨0⟩),
    .loop [.define ⟨2⟩ true (.op .flt [⟨1⟩, ⟨0⟩])] ⟨2⟩ [.define ⟨1⟩ false (.op .fadd [⟨1⟩, ⟨1⟩])],
    .ret [⟨1⟩]]

/-- The loop returns a real, or exceeds its limit. -/
theorem doubling_run_sound :
    Ends (({ func := .doubling } : Job Float).run [.real 3.0] (.new .doubling {}))
      (fun vals _ => vals.map Value.ty = [.real])
      (fun e _ => (∀ x, e ≠ .undefinedVar x) ∧ (∀ a b, e ≠ .arity a b) ∧
        ∀ a b, e ≠ .typeConfusion a b) := by
  have hplain : Func.doubling.IsPlain := by
    simp [Func.IsPlain, Func.doubling, blockAtoms, Stmt.atoms, Stmt.IsPlain, Expr.IsPlain]
  have hquiet (e : RunError) (hx : ∀ name, e ≠ .unknownExtern name) :
      ¬Externs.none.Raises (R := Float) e := by
    rintro ⟨callee, vals, w, w', hcall⟩
    cases hcall
    exact hx callee rfl
  have hsound := valid_run_sound (R := Float) (f := .doubling) (by decide +kernel)
    (by decide +kernel) (j := { func := .doubling }) rfl (show [Value.real 3.0].length = 1 from rfl) {}
  refine hsound.mono (fun vals _ h => h hplain rfl) fun e _ h => ⟨?_, ?_, h.2.2 hplain rfl⟩
  · rintro x rfl
    exact hquiet _ (by simp) (h.1 x rfl)
  · rintro a b rfl
    exact hquiet _ (by simp) (h.2.1 a b rfl)

end Backsweep
