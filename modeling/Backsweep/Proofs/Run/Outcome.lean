import Mathlib
import Backsweep.Proofs.Run.Frame
import Backsweep.Proofs.Run.Operation

/-!
# How runs end

What a run leaves behind, read off its atomic statements.

* `Tolerant`: a set of errors that running into is fine;
* `Job.execBlock_fails`: code that pops nothing and has no unreachable statement
  fails with such errors only;
* `Job.execBlock_next`: code without a return goes on behind its end;
* `Job.execBlock_world`: code without stores and calls leaves the records alone;
* `Tapes.Counted`: every tape holds what was pushed and not popped.
-/

namespace Backsweep

variable {R : Type}
variable {a : Stmt}

/-- Not an error of the stack discipline. -/
def RunError.IsMild (e : RunError) : Prop := e ≠ .unreachable ∧ ∀ t, e ≠ .emptyTape t

/-- The errors `E` include all mild ones and those of calls. -/
structure Tolerant (E : RunError → Prop) (x : Externs R) : Prop where
  mild : ∀ e : RunError, e.IsMild → E e
  call : ∀ callee vals w e w', x.call callee vals w = .error e w' → E e

namespace Tolerant

variable {E : RunError → Prop} {x : Externs R}

theorem undefinedVar (h : Tolerant E x) (name : String) : E (.undefinedVar name) :=
  h.mild _ ⟨by simp, by simp⟩

theorem typeConfusion (h : Tolerant E x) (a b : Ty) : E (.typeConfusion a b) :=
  h.mild _ ⟨by simp, by simp⟩

theorem stepLimit (h : Tolerant E x) : E .stepLimit := h.mild _ ⟨by simp, by simp⟩

theorem operand (h : Tolerant E x) {e : RunError} (he : Operation.OperandError e) : E e := by
  rcases he with ⟨a, b, rfl⟩ | ⟨a, b, rfl⟩
  · exact h.mild _ ⟨by simp, by simp⟩
  · exact h.typeConfusion a b

end Tolerant

/-! ## Errors -/

variable {j : Job R} {ts : Tapes R} {m : Machine R}

namespace Job

variable {E : RunError → Prop}

theorem readAll_fails (hE : Tolerant E j.externs) (vs : List Var) (m : Machine R) :
    Ends (j.readAll vs m) (fun _ _ => True) (fun e _ => E e) :=
  (j.readAll_ends m vs).mono (fun _ _ _ => trivial) fun e _ h => by
    obtain ⟨x, rfl⟩ := h.2
    exact hE.undefinedVar x

theorem read_fails (hE : Tolerant E j.externs) (v : Var) (m : Machine R) :
    Ends (j.read v m) (fun _ _ => True) (fun e _ => E e) := by
  cases h : m.var v with
  | none => rw [j.read_none m h]; exact hE.undefinedVar _
  | some s => rw [j.read_some m h]; trivial

theorem readObj_keeps (j : Job R) (v : Var) (m : Machine R) :
    Ends (j.readObj v m) (fun _ m' => m' = m) (fun _ m' => m' = m) := by
  change Ends ((j.read v >>= fun s => ofExcept s.value.toObj) m) _ _
  rw [ends_bind]
  cases h : m.var v with
  | none => rw [j.read_none m h]; rfl
  | some s =>
    rw [j.read_some m h, ends_ok, ofExcept_apply]
    cases s.value.toObj <;> rfl

theorem readObj_fails (hE : Tolerant E j.externs) (v : Var) (m : Machine R) :
    Ends (j.readObj v m) (fun _ _ => True) (fun e _ => E e) := by
  change Ends ((j.read v >>= fun s => ofExcept s.value.toObj) m) _ _
  rw [ends_bind]
  refine (read_fails hE v m).mono (fun s m' _ => ?_) (fun _ _ h => h)
  rw [ofExcept_apply]
  cases s.value with
  | obj o => trivial
  | real x => exact hE.typeConfusion _ _
  | int n => exact hE.typeConfusion _ _
  | bool b => exact hE.typeConfusion _ _

theorem load_fails (hE : ∀ e : RunError, e.IsMild → E e) (h : Nat) (field : String)
    (m : Machine R) : Ends (load h field m) (fun _ _ => True) (fun e _ => E e) := by
  rw [load_apply, Heap.load_eq]
  cases m.world.heap.records[h]? with
  | none => exact hE _ ⟨by simp, by simp⟩
  | some r =>
    dsimp only
    cases r.lookup field with
    | none => exact hE _ ⟨by simp, by simp⟩
    | some v => trivial

theorem store_fails (hE : ∀ e : RunError, e.IsMild → E e) (h : Nat) (field : String) (s : Slot R)
    (m : Machine R) : Ends (store h field s m) (fun _ _ => True) (fun e _ => E e) := by
  rw [store_apply]
  unfold Heap.store Heap.record
  cases m.world.heap.records[h]? with
  | none => exact hE _ ⟨by simp, by simp⟩
  | some r => trivial

theorem record_ends (value : Value R) (args : List (Slot R)) (ps : List R) (m : Machine R) :
    Ends ((record args ps >>= fun node => pure ({ value, node } : Slot R)) m)
      (fun s m' => s.value = value ∧ m'.world = m.world ∧ m'.tapes = m.tapes) (fun _ _ => False) := by
  rw [ends_bind, record_apply]
  cases m.graph with
  | none => exact ⟨rfl, rfl, rfl⟩
  | some g => exact ⟨rfl, rfl, rfl⟩

theorem call_tapes (j : Job R) (callee : String) (args : List (Slot R)) (m : Machine R) :
    Ends (j.call callee args m) (fun _ m' => m'.tapes = m.tapes) (fun _ m' => m'.tapes = m.tapes) := by
  rw [call_apply]
  cases j.externs.call callee (Slot.values args) m.world with
  | error e world => rfl
  | ok value world =>
    dsimp only
    split
    · cases (j.externs.partials callee (Slot.values args) world.trace).1 with
      | none => rfl
      | some ps => exact (record_ends value args ps _).mono (fun _ _ h => h.2.2) (fun _ _ h => h.elim)
    · rfl

theorem call_fails (hE : Tolerant E j.externs) (callee : String) (args : List (Slot R))
    (m : Machine R) : Ends (j.call callee args m) (fun _ _ => True) (fun e _ => E e) := by
  rw [call_apply]
  cases hcall : j.externs.call callee (Slot.values args) m.world with
  | error e world => exact hE.call _ _ _ _ _ hcall
  | ok value world =>
    dsimp only
    split
    · cases (j.externs.partials callee (Slot.values args) world.trace).1 with
      | none => exact hE.mild _ ⟨by simp, by simp⟩
      | some ps =>
        exact (record_ends value args ps _).mono (fun _ _ _ => trivial) (fun _ _ h => h.elim)
    · trivial

variable [Scalar R]

theorem operate_ends (op : Opcode) (args : List (Slot R)) (m : Machine R) :
    Ends (operate op args m)
      (fun s m' => op.eval (Slot.values args) = .ok s.value ∧ m'.world = m.world ∧
        m'.tapes = m.tapes)
      (fun e m' => op.eval (Slot.values args) = .error e ∧ m'.world = m.world ∧
        m'.tapes = m.tapes) := by
  rw [operate_apply]
  cases hv : op.eval (Slot.values args) with
  | error e => exact ⟨rfl, rfl, rfl⟩
  | ok value =>
    dsimp only
    split
    · rename_i hc
      have hd : op.isDifferentiable = true := by simp only [Bool.and_eq_true] at hc; exact hc.2
      obtain ⟨xs, y, ps, -, rfl, hps, -⟩ := Opcode.eval_differentiable hd hv
      have hb : (Value.real y).toReal.bind (op.partials (Slot.values args)) = .ok ps := hps
      rw [hb]
      exact (record_ends _ args ps m).mono (fun s m' h => ⟨by rw [h.1], h.2⟩) (fun _ _ h => h.elim)
    · exact ⟨rfl, rfl, rfl⟩

/-- Without a pop, all errors are fine. -/
theorem eval_fails (hE : Tolerant E j.externs) {e : Expr} (he : ∀ t, e ≠ .pop t) (m : Machine R) :
    Ends (j.eval e m) (fun _ _ => True) (fun err _ => E err) := by
  cases e with
  | const c => trivial
  | copy v => exact read_fails hE v m
  | load obj field =>
    rw [eval_load, ends_bind]
    exact (readObj_fails hE obj m).mono (fun o m' _ => load_fails hE.mild o field m')
      (fun _ _ h => h)
  | op op args =>
    rw [eval_op, ends_bind]
    refine (readAll_fails hE args m).mono (fun ss m' _ => ?_) (fun _ _ h => h)
    exact (operate_ends op ss m').mono (fun _ _ _ => trivial)
      (fun err _ h => hE.operand (Opcode.eval_error h.1))
  | call callee args node =>
    rw [eval_call, ends_bind]
    exact (readAll_fails hE args m).mono (fun ss m' _ => call_fails hE callee ss m')
      (fun _ _ h => h)
  | pop t => exact absurd rfl (he t)
  | topIs t d => trivial

/-- A statement that pops nothing. It may be unreachable if `E` says so. -/
def IsSafe (E : RunError → Prop) : Stmt → Prop
  | .define _ _ e => ∀ t, e ≠ .pop t
  | .unreachable => E .unreachable
  | _ => True

theorem atom_fails (hE : Tolerant E j.externs) (ha : a.isControlFlow = false) (hsafe : IsSafe E a)
    (m : Machine R) : Ends (j.exec a m) (fun _ _ => True) (fun e _ => E e) := by
  cases a, ha using Stmt.atomCases with
  | define dst decl e =>
    rw [exec_define, ends_bind]
    exact (eval_fails hE hsafe m).mono (fun _ _ _ => trivial) (fun _ _ h => h)
  | store obj field val =>
    rw [exec_store, ends_bind]
    refine (readObj_fails hE obj m).mono (fun o m₁ _ => ?_) (fun _ _ h => h)
    rw [ends_bind]
    refine (read_fails hE val m₁).mono (fun s m₂ _ => ?_) (fun _ _ h => h)
    rw [ends_bind]
    exact (store_fails hE.mild o field s m₂).mono (fun _ _ _ => trivial) (fun _ _ h => h)
  | push t val =>
    rw [exec_push, ends_bind]
    exact (read_fails hE val m).mono (fun _ _ _ => trivial) (fun _ _ h => h)
  | pushDecision t d => trivial
  | unreachable => exact hsafe
  | ret vals =>
    rw [exec_ret, ends_bind]
    exact (readAll_fails hE vals m).mono (fun _ _ _ => trivial) (fun _ _ h => h)

/-- Only errors of `E` are run into. -/
def failLaw (E : RunError → Prop) {x : Externs R} (hE : Tolerant E x) : RunLaw R where
  step _ _ := True
  flow _ _ := True
  error := E
  refl _ := trivial
  trans _ _ := trivial
  tick _ := trivial
  next _ := trivial
  limit := hE.stepLimit
  undefinedVar := hE.undefinedVar
  typeConfusion := hE.typeConfusion

/-- **Code that pops nothing keeps the stack discipline.** -/
theorem execBlock_fails (hE : Tolerant E j.externs) {b : Block} (h : ∀ a ∈ blockAtoms b, IsSafe E a)
    (m : Machine R) : Ends (j.execBlock b m) (fun _ _ => True) (fun e _ => E e) := by
  have hlaw : (failLaw E hE).Obeys (j.execBlock b) := by
    refine RunLaw.block j b fun a ha m => ?_
    exact (atom_fails hE (blockAtoms_atomic b a ha) (h a ha) m).mono
      (fun _ _ _ => ⟨trivial, trivial⟩) (fun _ _ h => ⟨h, trivial⟩)
  exact (hlaw m).mono (fun _ _ _ => trivial) (fun _ _ h => h.1)

/-! ## Where runs go on -/

/-- Blocks end at their end. -/
def nextLaw (R : Type) : RunLaw R where
  step _ _ := True
  flow f _ := f = .next
  error _ := True
  refl _ := trivial
  trans _ _ := trivial
  tick _ := trivial
  next _ := rfl
  limit := trivial
  undefinedVar _ := trivial
  typeConfusion _ _ := trivial

theorem atom_next (j : Job R) (ha : a.isControlFlow = false) (hret : ∀ vals, a ≠ .ret vals)
    (m : Machine R) : Ends (j.exec a m) (fun flow _ => flow = .next) (fun _ _ => True) := by
  have last {α : Type} (x : Exec R α) (f : α → Exec R Unit) (m : Machine R) :
      Ends ((x >>= fun s => f s >>= fun _ => pure .next) m)
        (fun flow _ => flow = (.next : Flow R)) (fun _ _ => True) := by
    rw [bind_apply]
    cases x m with
    | error e m' => trivial
    | ok s m' =>
      dsimp only
      rw [bind_apply]
      cases f s m' with
      | error e m'' => trivial
      | ok u m'' => rfl
  cases a, ha using Stmt.atomCases with
  | define dst decl e => exact last (j.eval e) (write dst) m
  | store obj field val =>
    rw [exec_store, bind_apply]
    cases j.readObj obj m with
    | error e m' => trivial
    | ok h m' => exact last (j.read val) (store h field) m'
  | push t val => exact last (j.read val) (push t) m
  | pushDecision t d => rfl
  | unreachable => trivial
  | ret vals => exact absurd rfl (hret vals)

/-- Code without a return goes on behind its end. -/
theorem execBlock_next (j : Job R) {b : Block} (h : ∀ vals, Stmt.ret vals ∉ blockAtoms b)
    (m : Machine R) : Ends (j.execBlock b m) (fun flow _ => flow = .next) (fun _ _ => True) := by
  have hlaw : (nextLaw R).Obeys (j.execBlock b) := by
    refine RunLaw.block j b fun a ha m => ?_
    have hret : ∀ vals, a ≠ .ret vals := by
      rintro vals rfl
      exact h vals ha
    exact (atom_next j (blockAtoms_atomic b a ha) hret m).mono (fun _ _ h => ⟨h, trivial⟩)
      (fun _ _ _ => ⟨trivial, trivial⟩)
  exact (hlaw m).mono (fun _ _ h => h.1) (fun _ _ _ => trivial)

/-! ## Records -/

/-- The records stay as they are. -/
def worldLaw (R : Type) : RunLaw R where
  step m m' := m'.world = m.world
  flow _ _ := True
  error _ := True
  refl _ := rfl
  trans h h' := h'.trans h
  tick _ := rfl
  next _ := trivial
  limit := trivial
  undefinedVar _ := trivial
  typeConfusion _ _ := trivial

/-- A statement that neither stores nor calls. -/
def IsPrivate : Stmt → Prop
  | .define _ _ e => ∀ callee args node, e ≠ .call callee args node
  | .store _ _ _ => False
  | _ => True

/-- Pops change the tapes, and calls the records. -/
theorem eval_keeps (j : Job R) {e : Expr} (he : ∀ t, e ≠ .pop t) (m : Machine R) :
    Ends (j.eval e m)
      (fun _ m' => m'.tapes = m.tapes ∧
        ((∀ callee args node, e ≠ .call callee args node) → m'.world = m.world))
      (fun _ m' => m'.tapes = m.tapes ∧
        ((∀ callee args node, e ≠ .call callee args node) → m'.world = m.world)) := by
  cases e with
  | const c => exact ⟨rfl, fun _ => rfl⟩
  | copy v =>
    change Ends (j.read v m) _ _
    cases h : m.var v with
    | none => rw [j.read_none m h]; exact ⟨rfl, fun _ => rfl⟩
    | some s => rw [j.read_some m h]; exact ⟨rfl, fun _ => rfl⟩
  | load obj field =>
    rw [eval_load, ends_bind]
    refine (readObj_keeps j obj m).mono (fun o m' h => ?_) (fun _ m' h => ?_)
    · subst h
      rw [load_apply]
      cases m'.world.heap.load o field <;> exact ⟨rfl, fun _ => rfl⟩
    · subst h
      exact ⟨rfl, fun _ => rfl⟩
  | op op args =>
    rw [eval_op, ends_bind]
    refine (j.readAll_ends m args).mono (fun ss m' h => ?_) (fun _ m' h => ?_)
    · subst h
      exact (operate_ends op ss m').mono (fun _ _ h => ⟨h.2.2, fun _ => h.2.1⟩)
        (fun _ _ h => ⟨h.2.2, fun _ => h.2.1⟩)
    · rw [h.1]
      exact ⟨rfl, fun _ => rfl⟩
  | call callee args node =>
    rw [eval_call, ends_bind]
    refine (j.readAll_ends m args).mono (fun ss m' h => ?_) (fun _ m' h => ?_)
    · subst h
      exact (call_tapes j callee ss m').mono (fun _ _ h => ⟨h, fun h => absurd rfl (h _ _ _)⟩)
        (fun _ _ h => ⟨h, fun h => absurd rfl (h _ _ _)⟩)
    · rw [h.1]
      exact ⟨rfl, fun _ => rfl⟩
  | pop t => exact absurd rfl (he t)
  | topIs t d => exact ⟨rfl, fun _ => rfl⟩

theorem eval_world (j : Job R) {e : Expr} (he : ∀ callee args node, e ≠ .call callee args node)
    (m : Machine R) :
    Ends (j.eval e m) (fun _ m' => m'.world = m.world) (fun _ m' => m'.world = m.world) := by
  by_cases hpop : ∃ t, e = .pop t
  · obtain ⟨t, rfl⟩ := hpop
    change Ends (pop t m) _ _
    cases h : m.stack t with
    | nil => rw [pop_nil m h]; rfl
    | cons s st => rw [pop_cons m h]; rfl
  · push Not at hpop
    exact (eval_keeps j hpop m).mono (fun _ _ h => h.2 he) (fun _ _ h => h.2 he)

theorem atom_world (j : Job R) (ha : a.isControlFlow = false) (hp : IsPrivate a) (m : Machine R) :
    Ends (j.exec a m) (fun _ m' => m'.world = m.world) (fun _ m' => m'.world = m.world) := by
  cases a, ha using Stmt.atomCases with
  | define dst decl e =>
    rw [exec_define, ends_bind]
    exact (eval_world j hp m).mono (fun _ _ h => h) (fun _ _ h => h)
  | store obj field val => exact hp.elim
  | push t val =>
    rw [exec_push, ends_bind]
    cases h : m.var val with
    | none => rw [j.read_none m h]; rfl
    | some s => rw [j.read_some m h]; rfl
  | ret vals =>
    rw [exec_ret, ends_bind]
    exact (j.readAll_ends m vals).mono (fun _ _ h => by rw [h]; rfl) (fun _ _ h => by rw [h.1])
  | _ => rfl

/-- Code without stores and calls leaves the records alone. -/
theorem execBlock_world (j : Job R) {b : Block} (h : ∀ a ∈ blockAtoms b, IsPrivate a)
    (m : Machine R) :
    Ends (j.execBlock b m) (fun _ m' => m'.world = m.world) (fun _ m' => m'.world = m.world) := by
  have hlaw : (worldLaw R).Obeys (j.execBlock b) := by
    refine RunLaw.block j b fun a ha m => ?_
    exact (atom_world j (blockAtoms_atomic b a ha) (h a ha) m).mono (fun _ _ h => ⟨trivial, h⟩)
      (fun _ _ h => ⟨trivial, h⟩)
  exact (hlaw m).mono (fun _ _ h => h.2) (fun _ _ h => h.2)

end Job

/-! ## Counters -/

namespace Tapes

/-- Every tape is listed once, and holds what was pushed and not popped. -/
structure Counted (ts : Tapes R) : Prop where
  nodup : (ts.map (·.1)).Nodup
  count : ∀ t, (ts.cell t).pushes = (ts.cell t).pops + (ts.cell t).stack.length

theorem counted_nil : Counted ([] : Tapes R) := ⟨List.nodup_nil, fun _ => rfl⟩

theorem keys_put (ts : Tapes R) (t : Tape) (c : TapeCell R) :
    (ts.put t c).map (·.1) =
      if t ∈ ts.map (·.1) then ts.map (·.1) else ts.map (·.1) ++ [t] := by
  induction ts with
  | nil => rfl
  | cons p ts ih =>
    obtain ⟨u, d⟩ := p
    by_cases hu : u = t
    · simp [Tapes.put, hu]
    · simp only [Tapes.put, hu, ite_false, List.map_cons, ih, List.mem_cons, Ne.symm hu, false_or]
      split <;> simp

theorem keys_push (ts : Tapes R) (t : Tape) (s : Slot R) :
    (ts.push t s).map (·.1) =
      if t ∈ ts.map (·.1) then ts.map (·.1) else ts.map (·.1) ++ [t] := by
  rw [push_eq_put, keys_put]

theorem nodup_keys {keys : List Tape} (h : keys.Nodup) (t : Tape) :
    (if t ∈ keys then keys else keys ++ [t]).Nodup := by
  split
  · exact h
  · rename_i ht
    exact List.nodup_append.mpr ⟨h, List.nodup_singleton t, fun a ha b hb hab =>
      ht (List.mem_singleton.mp hb ▸ hab ▸ ha)⟩

theorem Counted.push (h : ts.Counted) (t : Tape) (s : Slot R) : (ts.push t s).Counted := by
  refine ⟨keys_push ts t s ▸ nodup_keys h.nodup t, fun u => ?_⟩
  rw [cell_push]
  split
  · have := h.count t
    simp only [TapeCell.push, List.length_cons]
    omega
  · exact h.count u

theorem Counted.pop (h : ts.Counted) {t : Tape} {s : Slot R} {stack : List (Slot R)}
    (hs : (ts.cell t).stack = s :: stack) :
    (ts.put t { ts.cell t with stack, pops := (ts.cell t).pops + 1 }).Counted := by
  refine ⟨keys_put ts t _ ▸ nodup_keys h.nodup t, fun u => ?_⟩
  rw [cell_put]
  split
  · have := h.count t
    rw [hs, List.length_cons] at this
    dsimp only
    omega
  · exact h.count u

theorem Counted.cell_of_mem (h : ts.Counted) {p : Tape × TapeCell R} (hp : p ∈ ts) :
    ts.cell p.1 = p.2 := by
  have hnodup := h.nodup
  clear h
  induction ts with
  | nil => cases hp
  | cons q ts ih =>
    obtain ⟨u, c⟩ := q
    rw [List.map_cons, List.nodup_cons] at hnodup
    rw [cell_cons]
    rcases List.mem_cons.mp hp with rfl | hp
    · simp
    · have hmem : p.1 ∈ ts.map (·.1) := List.mem_map_of_mem hp
      have hu : u ≠ p.1 := fun hu => hnodup.1 (hu ▸ hmem)
      rw [if_neg hu]
      exact ih hp hnodup.2

/-- Tapes that are all empty are balanced. -/
theorem Counted.isBalanced (h : ts.Counted) (he : ∀ t, (ts.cell t).stack = []) :
    ts.isBalanced = true := by
  refine List.all_eq_true.mpr fun p hp => ?_
  rw [← h.cell_of_mem hp, he p.1]
  rfl

end Tapes

namespace Job

/-- Runs keep count. -/
def countLaw (R : Type) : RunLaw R where
  step m m' := m.tapes.Counted → m'.tapes.Counted
  flow _ _ := True
  error _ := True
  refl _ h := h
  trans h h' h'' := h' (h h'')
  tick _ h := h
  next _ := trivial
  limit := trivial
  undefinedVar _ := trivial
  typeConfusion _ _ := trivial

/-- An action that keeps count keeps to the law. -/
theorem counted_of_counted {α : Type} {r : EStateM.Result RunError (Machine R) α}
    (h : m.tapes.Counted →
      Ends r (fun _ m' => m'.tapes.Counted) (fun _ m' => m'.tapes.Counted)) :
    Ends r (fun _ m' => (countLaw R).step m m') (fun _ m' => (countLaw R).step m m') := by
  by_cases hc : m.tapes.Counted
  · exact (h hc).mono (fun _ _ h _ => h) fun _ _ h _ => h
  · cases r <;> exact fun h => absurd h hc

variable [Scalar R]

theorem eval_counted (j : Job R) (e : Expr) (hm : m.tapes.Counted) :
    Ends (j.eval e m) (fun _ m' => m'.tapes.Counted) (fun _ m' => m'.tapes.Counted) := by
  by_cases hpop : ∃ t, e = .pop t
  · obtain ⟨t, rfl⟩ := hpop
    change Ends (pop t m) _ _
    cases h : m.stack t with
    | nil => rw [pop_nil m h]; exact hm
    | cons s st => rw [pop_cons m h]; exact hm.pop h
  · push Not at hpop
    exact (eval_keeps j hpop m).mono (fun _ _ h => h.1.symm ▸ hm) fun _ _ h => h.1.symm ▸ hm

theorem atom_counted (j : Job R) (ha : a.isControlFlow = false) (hm : m.tapes.Counted) :
    Ends (j.exec a m) (fun _ m' => m'.tapes.Counted) (fun _ m' => m'.tapes.Counted) := by
  cases a, ha using Stmt.atomCases with
  | define dst decl e =>
    rw [exec_define, ends_bind]
    exact (eval_counted j e hm).mono (fun _ _ h => h) fun _ _ h => h
  | store obj field val =>
    rw [exec_store, ends_bind]
    refine (readObj_keeps j obj m).mono (fun o m' h => ?_) (fun _ m' h => h ▸ hm)
    subst h
    rw [ends_bind]
    cases h : m'.var val with
    | none => rw [j.read_none m' h]; exact hm
    | some s =>
      rw [j.read_some m' h, ends_ok, ends_bind, store_apply]
      cases m'.world.heap.store o field s.value <;> exact hm
  | push t val =>
    rw [exec_push, ends_bind]
    cases h : m.var val with
    | none => rw [j.read_none m h]; exact hm
    | some s => rw [j.read_some m h]; exact hm.push t s
  | pushDecision t d => exact hm.push t _
  | unreachable => exact hm
  | ret vals =>
    rw [exec_ret, ends_bind]
    exact (j.readAll_ends m vals).mono (fun _ _ h => h ▸ hm) (fun _ _ h => h.1 ▸ hm)

theorem atom_obeys_count (j : Job R) (ha : a.isControlFlow = false) :
    (countLaw R).Obeys (j.exec a) := fun _ =>
  (counted_of_counted fun hc => atom_counted j ha hc).mono (fun _ _ h => ⟨trivial, h⟩)
    fun _ _ h => ⟨trivial, h⟩

/-- **On every run, tapes hold what was pushed and not popped.** -/
theorem execBlock_counted (j : Job R) (b : Block) (hm : m.tapes.Counted) :
    Ends (j.execBlock b m) (fun _ m' => m'.tapes.Counted) (fun _ m' => m'.tapes.Counted) := by
  have hlaw : (countLaw R).Obeys (j.execBlock b) :=
    RunLaw.block j b fun a ha => atom_obeys_count j (blockAtoms_atomic b a ha)
  exact (hlaw m).mono (fun _ _ h => h.2 hm) (fun _ _ h => h.2 hm)

end Job

end Backsweep
