import Mathlib
import Backsweep.Proofs.Run.Whole

/-!
# Runs without their graph

A machine that records a graph does what it would do without. Code that calls nothing
ends with the same values or the same error, and leaves the same machine, up to the
graph and the nodes in it.

* `Machine.plain`: a machine without its graph, with one equation for every way to
  change it;
* `Erases`: an action does the same on plain machines;
* `erasure`: the same, said of two runs;
* `Job.execBlock_erases`: so do blocks, however they are nested;
* `Job.runSlots_erases`: so do whole runs.
-/

namespace Backsweep

variable {R : Type}

/-! ## Plain machines -/

/-- The slot without its node. -/
def Slot.plain (s : Slot R) : Slot R := { value := s.value }

theorem Slot.values_plain (ss : List (Slot R)) : Slot.values (ss.map Slot.plain) = Slot.values ss := by
  induction ss with
  | nil => rfl
  | cons s ss ih => rw [List.map_cons, Slot.values, Slot.values, ih, Slot.plain]

def TapeCell.plain (c : TapeCell R) : TapeCell R := { c with stack := c.stack.map Slot.plain }

namespace Tapes

/-- The tapes without nodes. -/
def plain (ts : Tapes R) : Tapes R := ts.map fun p => (p.1, p.2.plain)

theorem plain_cons (t : Tape) (c : TapeCell R) (ts : Tapes R) :
    Tapes.plain ((t, c) :: ts) = (t, c.plain) :: ts.plain := rfl

theorem cell_plain (ts : Tapes R) (t : Tape) : ts.plain.cell t = (ts.cell t).plain := by
  induction ts with
  | nil => rfl
  | cons p ts ih =>
    obtain ⟨u, c⟩ := p
    rw [plain_cons, cell_cons, cell_cons, ih]
    split <;> rfl

theorem plain_push (ts : Tapes R) (t : Tape) (s : Slot R) :
    (ts.push t s).plain = ts.plain.push t s.plain := by
  induction ts with
  | nil => rfl
  | cons p ts ih =>
    obtain ⟨u, c⟩ := p
    rw [plain_cons, Tapes.push, Tapes.push]
    split
    · rfl
    · rw [plain_cons, ih]

theorem plain_put (ts : Tapes R) (t : Tape) (c : TapeCell R) :
    (ts.put t c).plain = ts.plain.put t c.plain := by
  induction ts with
  | nil => rfl
  | cons p ts ih =>
    obtain ⟨u, d⟩ := p
    rw [plain_cons, Tapes.put, Tapes.put]
    split
    · rfl
    · rw [plain_cons, ih]

end Tapes

namespace Machine

/-- The machine, had it not recorded a graph. -/
def plain (m : Machine R) : Machine R :=
  { m with vars := m.vars.map (Option.map Slot.plain), tapes := m.tapes.plain, graph := none }

variable (m : Machine R)

theorem plain_setVar (v : Var) (s : Slot R) : (m.setVar v s).plain = m.plain.setVar v s.plain := by
  simp [plain, setVar]

theorem plain_pushTape (t : Tape) (s : Slot R) :
    (m.pushTape t s).plain = m.plain.pushTape t s.plain := by
  simp [plain, pushTape, Tapes.plain_push]

theorem plain_dropTape (t : Tape) (st : List (Slot R)) :
    (m.dropTape t st).plain = m.plain.dropTape t (st.map Slot.plain) := by
  simp [plain, dropTape, Tapes.plain_put, Tapes.cell_plain, TapeCell.plain]

theorem var_plain (v : Var) : m.plain.var v = (m.var v).map Slot.plain := by
  simp only [var, plain, Array.getD_eq_getD_getElem?, Array.getElem?_map]
  cases m.vars[v.idx]? <;> rfl

theorem stack_plain (t : Tape) : m.plain.stack t = (m.stack t).map Slot.plain := by
  simp only [stack, plain, Tapes.cell_plain, TapeCell.plain]

theorem topIs_plain (t : Tape) (d : Int) : m.plain.tapes.topIs t d = m.tapes.topIs t d := by
  rw [topIs_eq, topIs_eq, stack_plain]
  cases m.stack t with
  | nil => rfl
  | cons s st =>
    obtain ⟨value, node⟩ := s
    cases value <;> rfl

theorem plain_new (f : Func) (world : World R) (g : Option (Graph R)) :
    ({ Machine.new f world with graph := g } : Machine R).plain = .new f world := by
  simp [plain, new, Tapes.plain]

end Machine

/-! ## Actions on plain machines -/

/-- What a plain machine makes of the result. -/
def plainResult {α β : Type} (φ : α → β) :
    EStateM.Result RunError (Machine R) α → EStateM.Result RunError (Machine R) β
  | .ok a m => .ok (φ a) m.plain
  | .error e m => .error e m.plain

/-- On plain machines, the second action does what the first one does on others. -/
def Erases {α β : Type} (φ : α → β) (x : Exec R α) (y : Exec R β) : Prop :=
  ∀ m, y m.plain = plainResult φ (x m)

section
variable {α β γ δ : Type} {φ : α → β} {ψ : γ → δ}

theorem Erases.bind {x : Exec R α} {y : Exec R β} {f : α → Exec R γ} {g : β → Exec R δ}
    (h : Erases φ x y) (hf : ∀ a, Erases ψ (f a) (g (φ a))) : Erases ψ (x >>= f) (y >>= g) := by
  intro m
  rw [bind_apply, bind_apply, h m]
  cases x m with
  | ok a m' => exact hf a m'
  | error e m' => rfl

theorem erases_pure (a : α) : Erases φ (pure a : Exec R α) (pure (φ a)) := fun _ => rfl

theorem erases_throw (e : RunError) : Erases φ (throw e : Exec R α) (throw e) := fun _ => rfl

end

namespace Job

variable (j : Job R)

theorem ofExcept_erases {α : Type} (x : Except RunError α) :
    Erases id (ofExcept x : Exec R α) (ofExcept x) := by
  cases x with
  | ok a => exact erases_pure a
  | error e => exact erases_throw e

theorem read_erases (v : Var) : Erases Slot.plain (j.read v) (j.read v) := by
  intro m
  cases h : m.var v with
  | none => rw [j.read_none m h, j.read_none m.plain (by rw [m.var_plain, h]; rfl)]; rfl
  | some s => rw [j.read_some m h, j.read_some m.plain (by rw [m.var_plain, h]; rfl)]; rfl

theorem readAll_erases (vs : List Var) : Erases (List.map Slot.plain) (j.readAll vs) (j.readAll vs) := by
  induction vs with
  | nil => exact erases_pure []
  | cons v vs ih => exact (j.read_erases v).bind fun s => ih.bind fun ss => erases_pure (s :: ss)

theorem readBool_erases (v : Var) : Erases id (j.readBool v) (j.readBool v) :=
  (j.read_erases v).bind fun s => ofExcept_erases s.value.toBool

theorem readObj_erases (v : Var) : Erases id (j.readObj v) (j.readObj v) :=
  (j.read_erases v).bind fun s => ofExcept_erases s.value.toObj

theorem write_erases (v : Var) (s : Slot R) : Erases id (write v s) (write v s.plain) := fun m =>
  congrArg (EStateM.Result.ok ()) (m.plain_setVar v s).symm

theorem push_erases (t : Tape) (s : Slot R) : Erases id (push t s) (push t s.plain) := fun m =>
  congrArg (EStateM.Result.ok ()) (m.plain_pushTape t s).symm

theorem pop_erases (t : Tape) : Erases Slot.plain (pop t : Exec R (Slot R)) (pop t) := by
  intro m
  have hst := m.stack_plain t
  cases h : m.stack t with
  | nil =>
    rw [h] at hst
    rw [pop_nil m h, pop_nil m.plain hst]
    rfl
  | cons s st =>
    rw [h] at hst
    rw [pop_cons m h, pop_cons m.plain hst, ← m.plain_dropTape]
    rfl

theorem tick_erases : Erases id j.tick j.tick := by
  intro m
  rw [tick_apply, tick_apply]
  change (if j.limit < m.steps + 1 then _ else _) = _
  split <;> rfl

theorem load_erases (h : Nat) (field : String) :
    Erases Slot.plain (load h field : Exec R (Slot R)) (load h field) := by
  intro m
  rw [load_apply, load_apply, show m.plain.world = m.world from rfl]
  cases m.world.heap.load h field <;> rfl

theorem store_erases (h : Nat) (field : String) (s : Slot R) :
    Erases id (store h field s) (store h field s.plain) := by
  intro m
  rw [store_apply, store_apply, show m.plain.world = m.world from rfl,
    show s.plain.value = s.value from rfl]
  cases m.world.heap.store h field s.value <;> rfl

variable [Scalar R]

/-- Partial derivatives are there whenever an operation has a result, so asking for
them does not fail. -/
theorem operate_erases (op : Opcode) (args : List (Slot R)) :
    Erases Slot.plain (operate op args) (operate op (args.map Slot.plain)) := by
  intro m
  rw [operate_apply, operate_apply, Slot.values_plain]
  cases hv : op.eval (Slot.values args) with
  | error e => rfl
  | ok value =>
    change EStateM.Result.ok ({ value } : Slot R) m.plain = plainResult Slot.plain
      (if m.graph.isSome && op.isDifferentiable then _ else _)
    split
    · rename_i hc
      obtain ⟨xs, y, ps, -, rfl, hps, -⟩ :=
        Opcode.eval_differentiable (Bool.and_eq_true_iff.mp hc).2 hv
      have hpartials : (Value.real y).toReal.bind (op.partials (Slot.values args)) = .ok ps := hps
      rw [hpartials]
      simp only [bind_apply, record_apply]
      cases m.graph <;> rfl
    · rfl

theorem eval_erases {e : Expr} (he : ∀ callee args node, e ≠ .call callee args node) :
    Erases Slot.plain (j.eval e) (j.eval e) := by
  cases e with
  | const c => exact erases_pure _
  | copy v => exact j.read_erases v
  | load obj field => exact (j.readObj_erases obj).bind fun h => load_erases h field
  | op op args => exact (j.readAll_erases args).bind fun ss => operate_erases op ss
  | call callee args node => exact absurd rfl (he callee args node)
  | pop t => exact pop_erases t
  | topIs t d =>
    intro m
    change EStateM.Result.ok ({ value := .bool (m.plain.tapes.topIs t d) } : Slot R) m.plain = _
    rw [m.topIs_plain]
    rfl

end Job

/-! ## Blocks -/

/-- How a block ends, without nodes. -/
abbrev Flow.plain : Flow R → Flow R := Flow.map (List.map Slot.plain)

/-- An action that ends like a block does the same on plain machines. -/
abbrev ErasesFlow (x : Exec R (Flow R)) : Prop := Erases Flow.plain x x

theorem erasesFlow_next : ErasesFlow (pure .next : Exec R (Flow R)) := erases_pure Flow.next

/-- Two runs of which the second one is on the plain machine. -/
def erasure (R : Type) : PairLaw R R where
  fail e m e' n := e' = e ∧ n = m.plain
  left _ _ _ := False
  right _ := False
  left_fail h := h.elim
  right_fail h := h.elim
  vals _ := List.map Slot.plain
  done m n := n = m.plain

theorem erases_iff {α β : Type} {φ : α → β} {x : Exec R α} {y : Exec R β} :
    Erases φ x y ↔ (erasure R).Pairs (fun m n => n = m.plain)
      (fun a m b n => b = φ a ∧ n = m.plain) x y := by
  constructor
  · intro h
    refine ⟨?_, fun _ _ _ h => h⟩
    rintro m n rfl
    rw [h m]
    cases x m <;> exact ⟨rfl, rfl⟩
  · intro h m
    have hend := h.ends m m.plain rfl
    generalize x m = r at hend
    generalize y m.plain = r' at hend
    cases r with
    | ok a m' =>
      cases r' with
      | ok b n =>
        obtain ⟨rfl, rfl⟩ := hend
        rfl
      | error e n => exact hend.elim
    | error e m' =>
      cases r' with
      | ok b n => exact hend.elim
      | error e' n =>
        obtain ⟨rfl, rfl⟩ := hend
        rfl

namespace Job

variable [Scalar R] (j : Job R)

theorem atom_erases {s : Stmt} (hs : s.isControlFlow = false) (hc : s.isCall = false) :
    ErasesFlow (j.exec s) := by
  cases s, hs using Stmt.atomCases with
  | define dst decl e =>
    have he (callee : String) (args : List Var) (node : Option String) :
        e ≠ .call callee args node := by
      rintro rfl
      cases hc
    exact (j.eval_erases he).bind fun s => (write_erases dst s).bind fun _ => erasesFlow_next
  | store obj field val =>
    exact (j.readObj_erases obj).bind fun h => (j.read_erases val).bind fun s =>
      (store_erases h field s).bind fun _ => erasesFlow_next
  | push t val =>
    exact (j.read_erases val).bind fun s => (push_erases t s).bind fun _ => erasesFlow_next
  | pushDecision t d => exact (push_erases t { value := .int d }).bind fun _ => erasesFlow_next
  | unreachable => exact erases_throw _
  | ret vals => exact (j.readAll_erases vals).bind fun ss => erases_pure (Flow.ret ss)

/-- **Code that calls nothing does the same with and without a graph.** -/
theorem execBlock_erases {b : Block} (h : ∀ s ∈ blockAtoms b, s.isCall = false) :
    ErasesFlow (j.execBlock b) := by
  have hpaces : (erasure R).Paces j j (erasure R).done := by
    have htick := erases_iff.mp j.tick_erases
    exact ⟨⟨fun m n h => (htick.ends m n h).mono fun _ _ _ _ h => h.2, htick.alone⟩,
      fun _ _ h => ⟨rfl, h⟩⟩
  have hblock : (erasure R).InStep (erasure R).done (erasure R).done (j.execBlock b) (j.execBlock b) := by
    refine PairLaw.block hpaces (fun v => erases_iff.mp (j.readBool_erases v)) fun a ha => ?_
    exact PairLaw.inStep_of (fun _ _ h => h)
      (erases_iff.mp (j.atom_erases (blockAtoms_atomic b a ha) (h a ha)))
  exact erases_iff.mpr hblock.to_done

/-! ## Whole runs -/

/-- **A run does the same with and without a graph**, on arguments with the same
values. -/
theorem runSlots_erases (h : j.func.CallsNothing) (args : List (Slot R)) :
    Erases (List.map Slot.plain) (j.runSlots args) (j.runSlots (args.map Slot.plain)) := by
  have hbody : (erasure R).InStep (erasure R).done (erasure R).done (j.execBlock j.func.body)
      (j.execBlock j.func.body) :=
    PairLaw.inStep_of (fun _ _ h => h) (erases_iff.mp (j.execBlock_erases h))
  have henter (m : Machine R) (params : List Var) (args : List (Slot R)) :
      m.plain.enter params (args.map Slot.plain) = (m.enter params args).plain := by
    induction params generalizing m args with
    | nil => rfl
    | cons v params ih =>
      cases args with
      | nil => rfl
      | cons s args =>
        rw [List.map_cons, Machine.enter_cons, ← m.plain_setVar]
        exact ih (m.setVar v s) args
  refine erases_iff.mpr ⟨?_, fun _ _ _ h => h⟩
  rintro m n rfl
  exact PairLaw.runSlots rfl hbody (fun _ _ h => ⟨rfl, h⟩) (List.length_map _)
    (fun _ => ⟨rfl, rfl⟩) fun _ => henter m _ args

end Job

end Backsweep
