import Mathlib
import Backsweep.Diff.Level
import Backsweep.Proofs.Run.Execution

/-!
# What a run leaves alone

* one equation for each action on records, graphs and the world;
* `exec_frame`: an atomic statement changes the variable it defines, the tapes
  it mentions, and nothing else but records and the graph, which only grows;
* `execBlock_frame`: so does a block;
* `exec_loop`: a loop is one round and the loop again;
* `Machine.share`: what happens alike on another machine with the same world and graph.
-/

namespace Backsweep

variable {b : Block}

/-- The second graph has the nodes of the first, and maybe more. -/
def GraphGrows {R : Type} : Option (Graph R) → Option (Graph R) → Prop
  | none, none => True
  | some g, some g' => g.parents.toList <+: g'.parents.toList
  | _, _ => False

namespace GraphGrows

variable {R : Type}

theorem refl (g : Option (Graph R)) : GraphGrows g g := by
  cases g with
  | none => trivial
  | some g => exact List.prefix_refl _

theorem trans {a b c : Option (Graph R)} (hab : GraphGrows a b) (hbc : GraphGrows b c) :
    GraphGrows a c := by
  cases a <;> cases b <;> cases c
  case none.none.none => trivial
  case some.some.some => exact List.IsPrefix.trans hab hbc
  all_goals first | exact hab.elim | exact hbc.elim

theorem record (g : Graph R) (args : List (Slot R)) (ps : List R) :
    GraphGrows (some g) (some (g.record args ps).2) := by
  unfold Graph.record
  split
  · exact List.prefix_refl _
  · simp [GraphGrows]

theorem setField (g : Option (Graph R)) (h : Nat) (field : String) (node : Option Nat) :
    GraphGrows g (g.map fun g => g.setField h field node) := by
  cases g with
  | none => trivial
  | some g => cases node <;> exact List.prefix_refl _

end GraphGrows

/-! ## Records, graphs and the world -/

theorem Heap.load_eq {S : Type} (H : Heap S) (h : Nat) (field : String) :
    H.load h field = match H.records[h]? with
      | none => .error (.invalidObject h)
      | some r => match r.lookup field with
        | none => .error (.unknownField field)
        | some v => .ok v := by
  unfold Heap.load Heap.record
  cases H.records[h]? with
  | none => rfl
  | some r =>
    dsimp only [bind, Except.bind]
    cases r.lookup field <;> rfl

theorem Record.lookup_set {S : Type} (r : Record S) (field other : String) (v : Value S) :
    (Record.set r field v).lookup other = if other = field then some v else r.lookup other := by
  induction r with
  | nil =>
    by_cases h : other = field
    · simp [Record.set, h]
    · simp [Record.set, List.lookup_cons, h, beq_eq_decide]
  | cons p r ih =>
    obtain ⟨name, old⟩ := p
    unfold Record.set
    by_cases hname : name = field
    · subst hname
      by_cases hother : other = name <;> simp [List.lookup_cons, hother, beq_eq_decide]
    · rw [if_neg (by simpa using hname), List.lookup_cons, List.lookup_cons, ih]
      by_cases hother : other = name
      · subst hother
        simp [hname]
      · simp [hother, beq_eq_decide]

theorem Heap.store_eq_ok {S : Type} {H H₁ : Heap S} {h : Nat} {field : String} {v : Value S} :
    H.store h field v = .ok H₁ ↔ ∃ r, H.records[h]? = some r ∧
      H₁ = ⟨H.records.setIfInBounds h (Record.set r field v)⟩ := by
  unfold Heap.store Heap.record
  cases H.records[h]? with
  | none =>
    constructor
    · intro hstore
      cases hstore
    · rintro ⟨_, hr, -⟩
      cases hr
  | some r =>
    constructor
    · intro hstore
      cases hstore
      exact ⟨r, rfl, rfl⟩
    · rintro ⟨_, hr, rfl⟩
      cases hr
      rfl

theorem Heap.load_store {S : Type} {H H₁ : Heap S} {h : Nat} {field : String} {v : Value S}
    (hstore : H.store h field v = .ok H₁) (h' : Nat) (other : String) :
    H₁.load h' other = if h' = h ∧ other = field then .ok v else H.load h' other := by
  obtain ⟨r, hr, rfl⟩ := Heap.store_eq_ok.mp hstore
  have hlt := (Array.getElem?_eq_some_iff.mp hr).1
  rw [Heap.load_eq, Heap.load_eq]
  by_cases hh : h' = h
  · subst hh
    simp only [Array.getElem?_setIfInBounds, hlt, if_true, hr, Record.lookup_set]
    by_cases hother : other = field <;> simp [hother]
  · simp only [Array.getElem?_setIfInBounds, Ne.symm hh, if_false, hh, false_and]

namespace Job

variable {R : Type}

@[simp] theorem ofExcept_apply {α : Type} (x : Except RunError α) (m : Machine R) :
    (ofExcept x : Exec R α) m = match x with
      | .ok a => .ok a m
      | .error e => .error e m := by
  cases x <;> rfl

theorem record_apply (args : List (Slot R)) (ps : List R) (m : Machine R) :
    record args ps m = match m.graph with
      | none => .ok none m
      | some g => .ok (g.record args ps).1 { m with graph := some (g.record args ps).2 } := by
  unfold record
  rw [get_bind]
  cases m.graph <;> rfl

theorem load_apply (h : Nat) (field : String) (m : Machine R) :
    load h field m = match m.world.heap.load h field with
      | .ok value => .ok { value, node := m.graph.bind (·.field? h field) } m
      | .error e => .error e m := by
  change ((ofExcept (m.world.heap.load h field) : Exec R _) >>= fun value =>
    pure ({ value, node := m.graph.bind (·.field? h field) } : Slot R)) m = _
  rw [bind_apply, ofExcept_apply]
  cases m.world.heap.load h field <;> rfl

theorem store_apply (h : Nat) (field : String) (s : Slot R) (m : Machine R) :
    store h field s m = match m.world.heap.store h field s.value with
      | .ok heap => .ok () { m with
          world := { m.world with heap }
          graph := m.graph.map fun (g : Graph R) => g.setField h field s.node }
      | .error e => .error e m := by
  change ((ofExcept (m.world.heap.store h field s.value) : Exec R _) >>= fun heap =>
    set { m with
      world := { m.world with heap }
      graph := m.graph.map fun (g : Graph R) => g.setField h field s.node }) m = _
  rw [bind_apply, ofExcept_apply]
  cases m.world.heap.store h field s.value <;> rfl

theorem onWorld_apply {α : Type} (act : EStateM RunError (World R) α) (m : Machine R) :
    onWorld act m = match act m.world with
      | .ok x world => .ok x { m with world }
      | .error e world => .error e { m with world } := rfl

/-- A call runs outside of the function. With a graph, the partial derivatives
of a real result are asked for, too. -/
theorem call_apply (j : Job R) (callee : String) (args : List (Slot R)) (m : Machine R) :
    j.call callee args m = match j.externs.call callee (Slot.values args) m.world with
      | .error e world => .error e { m with world }
      | .ok value world =>
        if m.graph.isSome && value.ty == .real && args.any (·.node.isSome) then
          let asked := j.externs.partials callee (Slot.values args) world.trace
          let m' := { m with world := { world with trace := asked.2 } }
          match asked.1 with
          | some ps => (record args ps >>= fun node => pure { value, node }) m'
          | none => .error (.notDifferentiable callee) m'
        else .ok { value } { m with world } := by
  unfold call
  simp only [bind_apply, onWorld_apply]
  cases j.externs.call callee (Slot.values args) m.world with
  | error e world => rfl
  | ok value world =>
    dsimp only
    change (if m.graph.isSome && value.ty == .real && args.any (·.node.isSome) then _ else _ :
      Exec R (Slot R)) { m with world } = _
    split
    · change (match (j.externs.partials callee (Slot.values args) world.trace).1 with
        | some ps => (do return { value, node := ← record args ps } : Exec R (Slot R))
        | none => throw (RunError.notDifferentiable callee))
        { m with world := { world with
            trace := (j.externs.partials callee (Slot.values args) world.trace).2 } } = _
      cases (j.externs.partials callee (Slot.values args) world.trace).1 <;> rfl
    · rfl

variable [Scalar R]

theorem operate_apply (op : Opcode) (args : List (Slot R)) (m : Machine R) :
    operate op args m = match op.eval (Slot.values args) with
      | .error e => .error e m
      | .ok value =>
        if m.graph.isSome && op.isDifferentiable then
          match value.toReal.bind (op.partials (Slot.values args)) with
          | .error e => .error e m
          | .ok ps => (record args ps >>= fun node => pure { value, node }) m
        else .ok { value } m := by
  unfold operate
  simp only [bind_apply, ofExcept_apply]
  cases op.eval (Slot.values args) with
  | error e => rfl
  | ok value =>
    change (if m.graph.isSome && op.isDifferentiable then _ else _ : Exec R (Slot R)) m = _
    split
    · simp only [bind_apply, ofExcept_apply]
      cases value.toReal.bind (op.partials (Slot.values args)) <;> rfl
    · rfl

end Job

/-! ## One atomic statement -/

/-- What evaluating an expression leaves alone. -/
structure EvalFrame {R : Type} (e : Expr) (m m' : Machine R) : Prop where
  vars : m'.vars = m.vars
  steps : m'.steps = m.steps
  tapes : ∀ t, e ≠ .pop t → m'.tapes.cell t = m.tapes.cell t
  world : (∀ callee args node, e ≠ .call callee args node) → m'.world = m.world
  graph : GraphGrows m.graph m'.graph

theorem EvalFrame.same {R : Type} (e : Expr) (m : Machine R) : EvalFrame e m m :=
  ⟨rfl, rfl, fun _ _ => rfl, fun _ => rfl, .refl _⟩

/-- What an atomic statement leaves alone. -/
structure StmtFrame {R : Type} (s : Stmt) (m m' : Machine R) : Prop where
  vars : ∀ v, (∀ decl e, s ≠ .define v decl e) → m'.var v = m.var v
  size : m'.vars.size = m.vars.size
  steps : m'.steps = m.steps
  tapes : ∀ t, t ∉ s.tapes → m'.tapes.cell t = m.tapes.cell t
  graph : GraphGrows m.graph m'.graph

theorem StmtFrame.same {R : Type} (s : Stmt) (m : Machine R) : StmtFrame s m m :=
  ⟨fun _ _ => rfl, rfl, rfl, fun _ _ => rfl, .refl _⟩

namespace Job

variable {R : Type}

theorem record_frame (e : Expr) (value : Value R) (args : List (Slot R)) (ps : List R)
    (m : Machine R) :
    Ends ((record args ps >>= fun node => pure ({ value, node } : Slot R)) m)
      (fun _ m' => EvalFrame e m m') (fun _ m' => EvalFrame e m m') := by
  rw [ends_bind, record_apply]
  cases h : m.graph with
  | none => exact .same e m
  | some g => exact ⟨rfl, rfl, fun _ _ => rfl, fun _ => rfl, h ▸ GraphGrows.record g args ps⟩

theorem call_frame (j : Job R) (callee : String) (vs : List Var) (node : Option String) (args : List (Slot R))
    (m : Machine R) :
    Ends (j.call callee args m) (fun _ m' => EvalFrame (.call callee vs node) m m')
      (fun _ m' => EvalFrame (.call callee vs node) m m') := by
  have outside (world : World R) : EvalFrame (.call callee vs node) m { m with world } :=
    ⟨rfl, rfl, fun _ _ => rfl, fun h => absurd rfl (h callee vs node), .refl _⟩
  rw [call_apply]
  split
  · exact outside _
  · rename_i value world _
    split
    · dsimp only
      split
      · refine (record_frame (.call callee vs node) _ _ _ _).mono (fun _ m' h => ?_)
          (fun _ m' h => ?_)
        all_goals
          exact ⟨h.vars, h.steps, h.tapes, fun hc => absurd rfl (hc callee vs node), h.graph⟩
      · exact outside _
    · exact outside _

variable [Scalar R] (j : Job R)

theorem eval_load (obj : Var) (field : String) :
    j.eval (.load obj field) = j.readObj obj >>= fun h => load h field := rfl

theorem eval_op (op : Opcode) (args : List Var) :
    j.eval (.op op args) = j.readAll args >>= fun ss => operate op ss := rfl

theorem eval_call (callee : String) (args : List Var) (node : Option String) :
    j.eval (.call callee args node) = j.readAll args >>= fun ss => j.call callee ss := rfl

theorem exec_define (dst : Var) (decl : Bool) (e : Expr) :
    j.exec (.define dst decl e) = j.eval e >>= fun s => write dst s >>= fun _ => pure .next := rfl

theorem exec_store (obj : Var) (field : String) (val : Var) :
    j.exec (.store obj field val) = j.readObj obj >>= fun h => j.read val >>= fun s =>
      store h field s >>= fun _ => pure .next := rfl

theorem exec_push (t : Tape) (val : Var) :
    j.exec (.push t val) = j.read val >>= fun s => push t s >>= fun _ => pure .next := rfl

theorem exec_ret (vals : List Var) :
    j.exec (.ret vals) = j.readAll vals >>= fun ss => pure (.ret ss) := rfl

theorem exec_pushDecision (t : Tape) (d : Int) (m : Machine R) :
    j.exec (.pushDecision t d) m = .ok .next (m.pushTape t { value := .int d }) := rfl

theorem operate_frame (op : Opcode) (vs : List Var) (args : List (Slot R)) (m : Machine R) :
    Ends (operate op args m) (fun _ m' => EvalFrame (.op op vs) m m')
      (fun _ m' => EvalFrame (.op op vs) m m') := by
  rw [operate_apply]
  split
  · exact .same _ m
  · split
    · split
      · exact .same _ m
      · exact record_frame _ _ _ _ _
    · exact .same _ m

theorem eval_frame (e : Expr) (m : Machine R) :
    Ends (j.eval e m) (fun _ m' => EvalFrame e m m') (fun _ m' => EvalFrame e m m') := by
  cases e with
  | const c => exact .same _ m
  | copy v =>
    change Ends (j.read v m) _ _
    cases h : m.var v with
    | none => rw [read_none j m h]; exact .same _ m
    | some s => rw [read_some j m h]; exact .same _ m
  | load obj field =>
    rw [eval_load, ends_bind, readObj, ends_bind]
    cases h : m.var obj with
    | none => rw [read_none j m h]; exact .same _ m
    | some s =>
      rw [read_some j m h, ends_ok, ofExcept_apply]
      split
      · rw [ends_ok, load_apply]
        split <;> exact .same _ m
      · exact .same _ m
  | op op args =>
    rw [eval_op, ends_bind]
    refine (readAll_ends j m args).mono (fun ss m' h => ?_) (fun _ m' h => ?_)
    · subst h; exact operate_frame op args ss _
    · rw [h.1]; exact .same _ m
  | call callee args node =>
    rw [eval_call, ends_bind]
    refine (readAll_ends j m args).mono (fun ss m' h => ?_) (fun _ m' h => ?_)
    · subst h; exact call_frame j callee args node ss _
    · rw [h.1]; exact .same _ m
  | pop t =>
    change Ends (pop t m) _ _
    cases h : m.stack t with
    | nil => rw [pop_nil m h]; exact .same _ m
    | cons s st =>
      rw [pop_cons m h]
      refine ⟨rfl, rfl, fun u hu => ?_, fun _ => rfl, .refl _⟩
      have hut : u ≠ t := fun h => hu (by rw [h])
      simp only [Machine.dropTape, Tapes.cell_put, hut, ite_false]
  | topIs t d => exact .same _ m

theorem exec_frame {s : Stmt} (hs : s.isControlFlow = false) (m : Machine R) :
    Ends (j.exec s m) (fun _ m' => StmtFrame s m m') (fun _ m' => StmtFrame s m m') := by
  cases s, hs using Stmt.atomCases with
  | define dst decl e =>
    have tapes {m' : Machine R} (h : EvalFrame e m m') (t : Tape)
        (ht : t ∉ (Stmt.define dst decl e).tapes) : m'.tapes.cell t = m.tapes.cell t := by
      refine h.tapes t fun he => ht ?_
      simp [Stmt.tapes, he, Expr.tape?]
    rw [exec_define, ends_bind]
    refine (eval_frame j e m).mono (fun s m' h => ?_) (fun _ m' h => ?_)
    · refine ⟨fun v hv => ?_, ?_, h.steps, fun t ht => tapes h t ht, h.graph⟩
      · have hne : dst ≠ v := fun hd => hv decl e (by rw [hd])
        change (m'.setVar dst s).var v = _
        rw [Machine.var_setVar_ne _ _ _ _ hne]
        simp only [Machine.var, h.vars]
      · change (m'.setVar dst s).vars.size = _
        rw [Machine.size_setVar, h.vars]
    · exact ⟨fun v _ => by simp only [Machine.var, h.vars], by rw [h.vars], h.steps, tapes h, h.graph⟩
  | store obj field val =>
    rw [exec_store, ends_bind, readObj, ends_bind]
    cases ho : m.var obj with
    | none => rw [read_none j m ho]; exact .same _ m
    | some so =>
      rw [read_some j m ho, ends_ok, ofExcept_apply]
      split
      · rw [ends_ok, ends_bind]
        cases hv : m.var val with
        | none => rw [read_none j m hv]; exact .same _ m
        | some sv =>
          rw [read_some j m hv, ends_ok, ends_bind, store_apply]
          split
          · exact ⟨fun _ _ => rfl, rfl, rfl, fun _ _ => rfl, .setField _ _ _ _⟩
          · exact .same _ m
      · exact .same _ m
  | push t val =>
    rw [exec_push, ends_bind]
    cases h : m.var val with
    | none => rw [read_none j m h]; exact .same _ m
    | some s =>
      rw [read_some j m h]
      refine ⟨fun _ _ => rfl, rfl, rfl, fun u hu => ?_, .refl _⟩
      have hut : u ≠ t := by simpa [Stmt.tapes] using hu
      change (m.tapes.push t s).cell u = _
      simp only [Tapes.cell_push, hut, ite_false]
  | pushDecision t d =>
    refine ⟨fun _ _ => rfl, rfl, rfl, fun u hu => ?_, .refl _⟩
    have hut : u ≠ t := by simpa [Stmt.tapes] using hu
    change (m.tapes.push t _).cell u = _
    simp only [Tapes.cell_push, hut, ite_false]
  | unreachable => exact .same _ m
  | ret vals =>
    rw [exec_ret, ends_bind]
    refine (readAll_ends j m vals).mono (fun ss m' h => ?_) (fun _ m' h => ?_)
    · subst h; exact .same _ m'
    · rw [h.1]; exact .same _ m

end Job

theorem blockTapes_append (a b : Block) : blockTapes (a ++ b) = blockTapes a ++ blockTapes b := by
  induction a with
  | nil => rfl
  | cons s a ih => simp [blockTapes, ih]

theorem mem_armsTapes {t : Tape} {arms : List (Var × Block)} :
    t ∈ armsTapes arms ↔ ∃ arm ∈ arms, t ∈ blockTapes arm.2 := by
  induction arms with
  | nil => simp [armsTapes]
  | cons arm arms ih => simp [armsTapes, ih]

theorem mem_blockTapes {t : Tape} (b : Block) :
    t ∈ blockTapes b ↔ ∃ a ∈ blockAtoms b, t ∈ a.tapes := by
  induction b using blockInduction with
  | nil => simp [blockTapes, blockAtoms]
  | atom s ss hs ih => simp [blockTapes, blockAtoms, Stmt.atoms_of_not_controlFlow hs, ih]
  | cond arms other ss iha iho ih =>
    have harms : (∃ arm ∈ arms, t ∈ blockTapes arm.2) ↔
        ∃ a, (∃ arm ∈ arms, a ∈ blockAtoms arm.2) ∧ t ∈ a.tapes := by
      constructor
      · rintro ⟨arm, harm, ht⟩
        obtain ⟨a, ha, hta⟩ := (iha arm harm).mp ht
        exact ⟨a, ⟨arm, harm, ha⟩, hta⟩
      · rintro ⟨a, ⟨arm, harm, ha⟩, hta⟩
        exact ⟨arm, harm, (iha arm harm).mpr ⟨a, ha, hta⟩⟩
    simp only [blockTapes, blockAtoms, Stmt.tapes, Stmt.atoms, List.mem_append, mem_armsTapes,
      mem_armsAtoms, harms, iho, ih]
    simp only [or_and_right, exists_or]
  | loop header test body ss ihh ihb ih =>
    simp only [blockTapes, blockAtoms, Stmt.tapes, Stmt.atoms, List.mem_append, ihh, ihb, ih]
    simp only [or_and_right, exists_or]
  | doLoop body test ss ihb ih | block body ss ihb ih =>
    simp only [blockTapes, blockAtoms, Stmt.tapes, Stmt.atoms, List.mem_append, ihb, ih]
    simp only [or_and_right, exists_or]

/-! ## Blocks -/

/-- What a block leaves alone that neither defines the variables `V` nor
mentions the tapes `T`. -/
structure BlockFrame {R : Type} (V : Var → Prop) (T : Tape → Prop) (m m' : Machine R) : Prop where
  vars : ∀ v, V v → m'.var v = m.var v
  size : m'.vars.size = m.vars.size
  steps : m.steps ≤ m'.steps
  tapes : ∀ t, T t → m'.tapes.cell t = m.tapes.cell t
  graph : GraphGrows m.graph m'.graph

/-- Every run keeps to its frame. -/
def frameLaw (R : Type) (V : Var → Prop) (T : Tape → Prop) : RunLaw R where
  step := BlockFrame V T
  flow _ _ := True
  error _ := True
  refl _ := ⟨fun _ _ => rfl, rfl, Nat.le_refl _, fun _ _ => rfl, .refl _⟩
  trans h h' := ⟨fun v hv => (h'.vars v hv).trans (h.vars v hv), h'.size.trans h.size,
    Nat.le_trans h.steps h'.steps, fun t ht => (h'.tapes t ht).trans (h.tapes t ht),
    h.graph.trans h'.graph⟩
  tick _ := ⟨fun _ _ => rfl, rfl, Nat.le_succ _, fun _ _ => rfl, .refl _⟩
  next _ := trivial
  limit := trivial
  undefinedVar _ := trivial
  typeConfusion _ _ := trivial

namespace Job

variable {R : Type} [Scalar R] (j : Job R)

theorem execBlock_frame {V : Var → Prop} {T : Tape → Prop}
    (hv : ∀ v decl e, V v → .define v decl e ∉ blockAtoms b) (ht : ∀ t, T t → t ∉ blockTapes b)
    (m : Machine R) :
    Ends (j.execBlock b m) (fun _ m' => BlockFrame V T m m') (fun _ m' => BlockFrame V T m m') := by
  have atom : ∀ a ∈ blockAtoms b, (frameLaw R V T).Obeys (j.exec a) := by
    intro a ha m
    have frame {m' : Machine R} (h : StmtFrame a m m') : BlockFrame V T m m' := by
      refine ⟨fun v hV => h.vars v fun decl e he => hv v decl e hV (he ▸ ha), h.size, h.steps.ge,
        fun t hT => h.tapes t fun hta => ht t hT ?_, h.graph⟩
      exact (mem_blockTapes b).mpr ⟨a, ha, hta⟩
    exact (exec_frame j (blockAtoms_atomic b a ha) m).mono (fun _ _ h => ⟨trivial, frame h⟩)
      (fun _ _ h => ⟨trivial, frame h⟩)
  exact (RunLaw.block j b atom m).mono (fun _ _ h => h.2) (fun _ _ h => h.2)

theorem execBlock_singleton (s : Stmt) (m : Machine R) : j.execBlock [s] m = j.exec s m := by
  simp only [execBlock, bind_apply]
  cases j.exec s m with
  | error e m' => rfl
  | ok flow m' => cases flow <;> rfl

/-- A block is its first part, then its second one unless the first returns. -/
theorem execBlock_append (a b : Block) (m : Machine R) :
    j.execBlock (a ++ b) m = (j.execBlock a >>= fun flow => match flow with
      | .ret vals => pure (.ret vals)
      | .next => j.execBlock b) m := by
  induction a generalizing m with
  | nil => rfl
  | cons s a ih =>
    simp only [List.cons_append, execBlock, bind_apply]
    cases j.exec s m with
    | error e m' => rfl
    | ok flow m' =>
      cases flow with
      | ret vals => rfl
      | next => simpa only [bind_apply] using ih m'

variable {m m' : Machine R}

theorem execBlock_append_next {a : Block} (h : j.execBlock a m = .ok .next m') :
    j.execBlock (a ++ b) m = j.execBlock b m' := by
  rw [execBlock_append, bind_ok h]

theorem execBlock_cons_next {s : Stmt} (h : j.exec s m = .ok .next m') :
    j.execBlock (s :: b) m = j.execBlock b m' := by
  simp only [execBlock]
  rw [bind_ok h]

/-- A block whose parts run through runs through. -/
theorem execBlock_append_eq_next {a : Block} :
    j.execBlock (a ++ b) m = .ok .next m' ↔
      ∃ t, j.execBlock a m = .ok .next t ∧ j.execBlock b t = .ok .next m' := by
  rw [execBlock_append, bind_eq_ok]
  constructor
  · rintro ⟨flow, t, ha, hb⟩
    cases flow with
    | ret vals => cases hb
    | next => exact ⟨t, ha, hb⟩
  · rintro ⟨t, ha, hb⟩
    exact ⟨.next, t, ha, hb⟩

theorem execBlock_cons_eq_next {s : Stmt} :
    j.execBlock (s :: b) m = .ok .next m' ↔
      ∃ t, j.exec s m = .ok .next t ∧ j.execBlock b t = .ok .next m' := by
  rw [← List.singleton_append, execBlock_append_eq_next]
  simp only [execBlock_singleton]

theorem execBlock_steps (b : Block) (m : Machine R) :
    Ends (j.execBlock b m) (fun _ m' => m.steps ≤ m'.steps) (fun _ m' => m.steps ≤ m'.steps) :=
  (execBlock_frame j (b := b) (V := fun _ => False) (T := fun _ => False) (fun _ _ _ h => h.elim)
    (fun _ h => h.elim) m).mono (fun _ _ h => h.steps) (fun _ _ h => h.steps)

/-- A definition, then the rest of a block. -/
theorem execBlock_define (dst : Var) (decl : Bool) (e : Expr) (b : Block) (m : Machine R) :
    j.execBlock (.define dst decl e :: b) m =
      (j.eval e >>= fun s => write dst s >>= fun _ => j.execBlock b) m := by
  simp only [execBlock, exec_define]
  rw [bind_apply, bind_apply, bind_apply]
  cases h : j.eval e m <;> rfl

theorem execBlock_define_ok {dst : Var} {decl : Bool} {e : Expr} {s : Slot R}
    (h : j.eval e m = .ok s m') :
    j.execBlock (.define dst decl e :: b) m = j.execBlock b (m'.setVar dst s) := by
  rw [execBlock_define, bind_ok h]
  rfl

theorem execBlock_define_error {dst : Var} {decl : Bool} {e : Expr} {err : RunError}
    (h : j.eval e m = .error err m') : j.execBlock (.define dst decl e :: b) m = .error err m' := by
  rw [execBlock_define, bind_error h]

/-- Pushing variables one after the other. -/
theorem execBlock_pushes (t : Tape) {vs : List Var} {ss : List (Slot R)}
    (h : vs.map m.var = ss.map some) :
    j.execBlock (vs.map (.push t)) m = .ok .next (m.pushAll t ss) := by
  induction vs generalizing ss m with
  | nil =>
    cases ss with
    | nil => rfl
    | cons s ss => simp at h
  | cons v vs ih =>
    cases ss with
    | nil => simp at h
    | cons s ss =>
      simp only [List.map_cons, List.cons.injEq] at h
      have hpush : j.exec (.push t v) m = .ok .next (m.pushTape t s) := by
        rw [exec_push, bind_ok (read_some j m h.1)]
        rfl
      rw [List.map_cons, execBlock_cons_next j hpush]
      exact ih h.2

/-- Pushing fails at the first variable that is not defined. -/
theorem execBlock_pushes_none (t : Tape) {vs : List Var} {v : Var} (hv : v ∈ vs)
    (h : m.var v = none) :
    Ends (j.execBlock (vs.map (.push t)) m) (fun _ _ => False)
      (fun e m' => (∃ x, e = .undefinedVar x) ∧ m'.world = m.world) := by
  induction vs generalizing m with
  | nil => simp at hv
  | cons w vs ih =>
    cases hw : m.var w with
    | none =>
      have hpush : j.exec (.push t w) m = .error (.undefinedVar (j.func.varName w)) m := by
        rw [exec_push, bind_error (read_none j m hw)]
      have hblock : j.execBlock ((w :: vs).map (.push t)) m =
          .error (.undefinedVar (j.func.varName w)) m := bind_error hpush
      rw [hblock]
      exact ⟨⟨_, rfl⟩, rfl⟩
    | some s =>
      have hpush : j.exec (.push t w) m = .ok .next (m.pushTape t s) := by
        rw [exec_push, bind_ok (read_some j m hw)]
        rfl
      have hvs : v ∈ vs := by
        rcases List.mem_cons.mp hv with rfl | hvs
        · rw [h] at hw; cases hw
        · exact hvs
      rw [List.map_cons, execBlock_cons_next j hpush]
      exact ih (m := m.pushTape t s) hvs h

/-! ## Loops -/

/-- One round of a loop, then `rest`. -/
def round (h : Block) (t : Var) (b : Block) (rest : Exec R (Flow R)) : Exec R (Flow R) :=
  j.tick >>= fun _ => j.execBlock h >>= fun flow => match flow with
    | .ret vals => pure (.ret vals)
    | .next => j.readBool t >>= fun go =>
      if go then j.execBlock b >>= fun flow => match flow with
        | .ret vals => pure (.ret vals)
        | .next => rest
      else pure .next

theorem whileRounds_succ (h b : Block) (t : Var) (n : Nat) :
    j.whileRounds (j.execBlock h) (j.readBool t) (j.execBlock b) (n + 1) =
      j.round h t b (j.whileRounds (j.execBlock h) (j.readBool t) (j.execBlock b) n) := rfl

/-- What comes behind a round only matters where a round was started. -/
theorem round_congr {h : Block} {t : Var} {rest rest' : Exec R (Flow R)}
    (hr : ∀ m', m.steps < j.limit → m.steps + 1 ≤ m'.steps → rest m' = rest' m') :
    j.round h t b rest m = j.round h t b rest' m := by
  unfold round
  refine bind_congr_ok fun _ m₁ h₁ => ?_
  rw [tick_apply] at h₁
  split at h₁
  · cases h₁
  rename_i hlim
  cases h₁
  refine bind_congr_ok fun flow m₂ h₂ => ?_
  have s₂ := (execBlock_steps j h m.ticked).of_ok h₂
  cases flow with
  | ret vals => rfl
  | next =>
    refine bind_congr_ok fun go m₃ h₃ => ?_
    have s₃ := (readBool_ends j m₂ t).of_ok h₃
    cases go with
    | false => rfl
    | true =>
      refine bind_congr_ok fun flow m₄ h₄ => ?_
      have s₄ := (execBlock_steps j b m₃).of_ok h₄
      subst s₃
      cases flow with
      | ret vals => rfl
      | next => exact hr m₄ (by omega) (Nat.le_trans s₂ s₄)

/-- More rounds than can be started make no difference. -/
theorem whileRounds_eq (h b : Block) (t : Var) (n : Nat) (m : Machine R)
    (hn : j.limit - m.steps + 1 ≤ n) :
    j.whileRounds (j.execBlock h) (j.readBool t) (j.execBlock b) n m = j.exec (.loop h t b) m := by
  change _ = j.whileRounds (j.execBlock h) (j.readBool t) (j.execBlock b) (j.limit - m.steps + 1) m
  induction n using Nat.strongRecOn generalizing m with
  | ind n ih =>
    cases n with
    | zero => omega
    | succ n =>
      rw [whileRounds_succ, whileRounds_succ]
      refine round_congr j fun m' hlim hsteps => ?_
      rw [ih n (by omega) m' (by omega), ih (j.limit - m.steps) (by omega) m' (by omega)]

/-- A loop is one round and, unless that was the last one, the loop again. -/
theorem exec_loop (h : Block) (t : Var) (b : Block) (m : Machine R) :
    j.exec (.loop h t b) m = j.round h t b (j.exec (.loop h t b)) m := by
  change j.whileRounds (j.execBlock h) (j.readBool t) (j.execBlock b) (j.limit - m.steps + 1) m = _
  rw [whileRounds_succ]
  exact round_congr j fun m' hlim hsteps => whileRounds_eq j h b t _ m' (by omega)

end Job

/-! ## Actions on another machine -/

namespace Machine

variable {R α : Type}

/-- The machine with the world and the graph of another one. -/
def share (m n : Machine R) : Machine R := { m with world := n.world, graph := n.graph }

/-- What happened on another machine, as far as it concerns this one. -/
def relay (m : Machine R) :
    EStateM.Result RunError (Machine R) α → EStateM.Result RunError (Machine R) α
  | .ok x n => .ok x (m.share n)
  | .error e n => .error e (m.share n)

@[simp] theorem var_share (m n : Machine R) (v : Var) : (m.share n).var v = m.var v := rfl

theorem share_eq_self {m n : Machine R} (hworld : m.world = n.world) (hgraph : m.graph = n.graph) :
    m.share n = m := by
  rw [share, ← hworld, ← hgraph]

end Machine

namespace Job

variable {R : Type}

theorem record_share (args : List (Slot R)) (ps : List R) (m n : Machine R) :
    record args ps (m.share n) = m.relay (record args ps n) := by
  have hgraph : (m.share n).graph = n.graph := rfl
  rw [record_apply, record_apply, hgraph]
  cases hn : n.graph with
  | none => rfl
  | some g => rfl

/-- A value with its node. -/
theorem node_share (value : Value R) (args : List (Slot R)) (ps : List R) (m n : Machine R) :
    (record args ps >>= fun node => pure ({ value, node } : Slot R)) (m.share n) =
      m.relay ((record args ps >>= fun node => pure ({ value, node } : Slot R)) n) := by
  rw [bind_apply, bind_apply, record_share]
  cases record args ps n <;> rfl

/-- A call depends on its arguments, the world and the graph only. -/
theorem call_share {j k : Job R} (hexterns : k.externs = j.externs) (callee : String)
    (args : List (Slot R)) (m n : Machine R) :
    k.call callee args (m.share n) = m.relay (j.call callee args n) := by
  rw [call_apply, call_apply, hexterns]
  have hworld : (m.share n).world = n.world := rfl
  have hgraph : (m.share n).graph = n.graph := rfl
  rw [hworld, hgraph]
  cases j.externs.call callee (Slot.values args) n.world with
  | error e world => rfl
  | ok value world =>
    dsimp only
    split
    · cases (j.externs.partials callee (Slot.values args) world.trace).1 with
      | none => rfl
      | some ps => exact node_share value args ps m { n with world := { world with
          trace := (j.externs.partials callee (Slot.values args) world.trace).2 } }
    · rfl

/-- An operation depends on its arguments and the graph only. -/
theorem operate_share [Scalar R] (op : Opcode) (args : List (Slot R)) (m n : Machine R) :
    operate op args (m.share n) = m.relay (operate op args n) := by
  rw [operate_apply, operate_apply]
  have hgraph : (m.share n).graph = n.graph := rfl
  rw [hgraph]
  cases op.eval (Slot.values args) with
  | error e => rfl
  | ok value =>
    dsimp only
    split
    · cases value.toReal.bind (op.partials (Slot.values args)) with
      | error e => rfl
      | ok ps => exact node_share value args ps m n
    · rfl

end Job

end Backsweep
