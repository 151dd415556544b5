import Mathlib
import Backsweep.Proofs.Run.Outcome
import Backsweep.Proofs.Run.Reachable
import Backsweep.Proofs.Run.Tangent

/-!
# Where nodes can be

A run that records a graph only holds nodes of this graph, and the parents of a node
are older than the node. Where such nodes can be is followed at the same time.

* `Zone`: where nodes may be, and `Zone.Admits`: the statements that keep them there;
* `Confined`: the nodes that a machine holds are nodes of its graph, and are in the
  zone;
* `Confined.atom`, `Confined.execBlock`: this stays so, if the zone admits the
  statements;
* `Confined.enter`: it is so when a run starts;
* `Confined.reaches`: it is so on every machine that a run meets.
-/

namespace Backsweep

variable {R : Type}
variable {field : String} {t : Tape} {a : Stmt}

/-! ## Zones -/

/-- Where nodes of a graph may be: in variables, on tapes, and in fields of records. -/
structure Zone where
  var : Var → Prop
  tape : Tape → Prop
  field : Prop

namespace Zone

/-- The value of the expression can depend on the seed. -/
def Carries (Z : Zone) : Expr → Prop
  | .copy v => Z.var v
  | .load _ _ => Z.field
  | .op op args => op.isDifferentiable = true ∧ ∃ v ∈ args, Z.var v
  | .pop t => Z.tape t
  | .const _ | .call _ _ _ | .topIs _ _ => False

/-- The statement calls nothing, and leaves nodes only where they may be. Only the
first `size` variables hold anything. -/
def Admits (Z : Zone) (size : Nat) : Stmt → Prop
  | .define dst _ e => (∀ callee args node, e ≠ .call callee args node) ∧
      (Z.Carries e → dst.idx < size → Z.var dst)
  | .store _ _ val => Z.var val → Z.field
  | .push t val => Z.var val → Z.tape t
  | _ => True

/-- Nodes may be everywhere. -/
def all : Zone := ⟨fun _ => True, fun _ => True, True⟩

theorem all_admits {s : Stmt} (h : s.isCall = false) (size : Nat) : all.Admits size s := by
  cases s with
  | define dst decl e =>
    refine ⟨?_, fun _ _ => trivial⟩
    rintro callee args node rfl
    cases h
  | store obj field val => exact fun _ => trivial
  | push t val => exact fun _ => trivial
  | cond arms other | loop header test body | doLoop body test | block body | pushDecision t d
  | unreachable | ret vals => trivial

end Zone

/-! ## Graphs -/

namespace Graph

theorem mem_fields_setField {g : Graph R} {h : Nat} {node : Option Nat} {p : (Nat × String) × Nat}
    (hp : p ∈ (g.setField h field node).fields) : p ∈ g.fields ∨ node = some p.2 := by
  cases node with
  | none => exact .inl (List.mem_filter.mp hp).1
  | some k =>
    rcases List.mem_cons.mp hp with rfl | hp
    · exact .inr rfl
    · exact .inl (List.mem_filter.mp hp).1

theorem mem_fields_of_field? {g : Graph R} {h : Nat} {k : Nat} (hk : g.field? h field = some k) :
    ((h, field), k) ∈ g.fields := by
  obtain ⟨l₁, l₂, hl, -⟩ := List.lookup_eq_some_iff.mp hk
  rw [hl]
  simp

theorem fields_record (g : Graph R) (args : List (Slot R)) (ps : List R) :
    (g.record args ps).2.fields = g.fields := by
  by_cases hnil : parentsOf args ps = []
  · rw [record_nil hnil]
  · rw [record_cons hnil]

end Graph

/-! ## Machines that record -/

/-- The machine records a graph. The nodes that it holds are nodes of this graph, and
only in the zone. -/
structure Confined (Z : Zone) (m : Machine R) : Prop where
  graph : ∃ g, m.graph = some g ∧ g.Ordered ∧
    (∀ p ∈ g.fields, Z.field ∧ p.2 < g.parents.size) ∧
    (∀ v s k, m.var v = some s → s.node = some k → k < g.parents.size) ∧
    ∀ t, ∀ s ∈ m.stack t, ∀ k, s.node = some k → k < g.parents.size
  vars : ∀ v s k, m.var v = some s → s.node = some k → Z.var v
  tapes : ∀ t, ∀ s ∈ m.stack t, ∀ k, s.node = some k → Z.tape t

/-- The node of the slot, if it has one, is a node of the graph. -/
def Machine.Knows (m : Machine R) (s : Slot R) : Prop :=
  ∀ k, s.node = some k → ∀ g, m.graph = some g → k < g.parents.size

variable {slot : Slot R} {args : List (Slot R)}

namespace Confined

variable {Z : Zone} {m : Machine R}

theorem knows_var (h : Confined Z m) {v : Var} {s : Slot R} (hs : m.var v = some s) :
    m.Knows s := by
  intro k hk g hg
  obtain ⟨g', hg', -, -, hv, -⟩ := h.graph
  rw [hg] at hg'
  cases hg'
  exact hv v s k hs hk

theorem knows_stack (h : Confined Z m) {s : Slot R} (hs : s ∈ m.stack t) : m.Knows s := by
  intro k hk g hg
  obtain ⟨g', hg', -, -, -, ht⟩ := h.graph
  rw [hg] at hg'
  cases hg'
  exact ht t s hs k hk

theorem setVar (h : Confined Z m) {dst : Var} (hknown : m.Knows slot)
    (hslot : ∀ k, slot.node = some k → dst.idx < m.vars.size → Z.var dst) :
    Confined Z (m.setVar dst slot) := by
  obtain ⟨⟨g, hg, ho, hf, hv, ht⟩, hvars, htapes⟩ := h
  have hcases (v : Var) (s : Slot R) (hs : (m.setVar dst slot).var v = some s) :
      m.var v = some s ∨ (v = dst ∧ dst.idx < m.vars.size) ∧ s = slot := by
    rw [Machine.var_setVar] at hs
    split at hs
    · rename_i hd
      cases hs
      exact .inr ⟨⟨hd.1.symm, hd.2⟩, rfl⟩
    · exact .inl hs
  refine ⟨⟨g, hg, ho, hf, fun v s k hs hk => ?_, ht⟩, fun v s k hs hk => ?_, htapes⟩
  · rcases hcases v s hs with hs | ⟨-, rfl⟩
    · exact hv v s k hs hk
    · exact hknown k hk g hg
  · rcases hcases v s hs with hs | ⟨⟨rfl, hin⟩, rfl⟩
    · exact hvars v s k hs hk
    · exact hslot k hk hin

theorem pushTape (h : Confined Z m) (hknown : m.Knows slot)
    (hslot : ∀ k, slot.node = some k → Z.tape t) : Confined Z (m.pushTape t slot) := by
  obtain ⟨⟨g, hg, ho, hf, hv, ht⟩, hvars, htapes⟩ := h
  have hcases (u : Tape) (s : Slot R) (hs : s ∈ (m.pushTape t slot).stack u) :
      s ∈ m.stack u ∨ u = t ∧ s = slot := by
    rw [Machine.stack_pushTape] at hs
    split at hs
    · rename_i hu
      rcases List.mem_cons.mp hs with rfl | hs
      · exact .inr ⟨hu, rfl⟩
      · exact .inl (hu ▸ hs)
    · exact .inl hs
  refine ⟨⟨g, hg, ho, hf, hv, fun u s hs k hk => ?_⟩, hvars, fun u s hs k hk => ?_⟩
  · rcases hcases u s hs with hs | ⟨rfl, rfl⟩
    · exact ht u s hs k hk
    · exact hknown k hk g hg
  · rcases hcases u s hs with hs | ⟨rfl, rfl⟩
    · exact htapes u s hs k hk
    · exact hslot k hk

theorem dropTape (h : Confined Z m) {rest : List (Slot R)} (hstack : m.stack t = slot :: rest) :
    Confined Z (m.dropTape t rest) := by
  obtain ⟨⟨g, hg, ho, hf, hv, ht⟩, hvars, htapes⟩ := h
  have hsub (u : Tape) (s : Slot R) (hs : s ∈ (m.dropTape t rest).stack u) : s ∈ m.stack u := by
    rw [Machine.stack_dropTape] at hs
    split at hs
    · rename_i hu
      rw [hu, hstack]
      exact List.mem_cons_of_mem _ hs
    · exact hs
  exact ⟨⟨g, hg, ho, hf, hv, fun u s hs k hk => ht u s (hsub u s hs) k hk⟩, hvars,
    fun u s hs k hk => htapes u s (hsub u s hs) k hk⟩

theorem ticked (h : Confined Z m) : Confined Z m.ticked := ⟨h.graph, h.vars, h.tapes⟩

/-- A recorded node is new, and there is one only if an argument has one. -/
theorem record (h : Confined Z m) {vs : List Var} (hargs : vs.map m.var = args.map some)
    (value : Value R) (ps : List R) :
    Ends ((Job.record args ps >>= fun node => pure ({ value, node } : Slot R)) m)
      (fun slot m₁ => Confined Z m₁ ∧ m₁.Knows slot ∧
        ∀ k, slot.node = some k → ∃ v ∈ vs, Z.var v)
      (fun _ m₁ => Confined Z m₁) := by
  have hmem (arg : Slot R) (harg : arg ∈ args) : ∃ v ∈ vs, m.var v = some arg := by
    have hsome : some arg ∈ vs.map m.var := hargs ▸ List.mem_map_of_mem harg
    obtain ⟨v, hv, hva⟩ := List.mem_map.mp hsome
    exact ⟨v, hv, hva⟩
  obtain ⟨⟨g, hg, ho, hf, hv, ht⟩, hvars, htapes⟩ := h
  obtain ⟨ho', hgrown, hnode⟩ := ho.record ps fun arg harg k hk => by
    obtain ⟨v, -, hva⟩ := hmem arg harg
    exact hv v arg k hva hk
  rw [ends_bind, Job.record_apply, hg]
  refine ⟨⟨⟨_, rfl, ho', fun p hp => ?_, fun v s k hs hk => ?_, fun t s hs k hk => ?_⟩, hvars,
    htapes⟩, fun k hk g' hg' => ?_, fun k hk => ?_⟩
  · rw [Graph.fields_record] at hp
    exact ⟨(hf p hp).1, Nat.lt_of_lt_of_le (hf p hp).2 hgrown⟩
  · exact Nat.lt_of_lt_of_le (hv v s k hs hk) hgrown
  · exact Nat.lt_of_lt_of_le (ht t s hs k hk) hgrown
  · cases hg'
    exact hnode k hk
  · have hne : Graph.parentsOf args ps ≠ [] := by
      intro hnil
      rw [Graph.record_nil hnil] at hk
      cases hk
    obtain ⟨p, hp⟩ := List.exists_mem_of_ne_nil _ hne
    obtain ⟨arg, harg, hnode'⟩ := Graph.mem_parentsOf hp
    obtain ⟨v, hvs, hva⟩ := hmem arg harg
    exact ⟨v, hvs, hvars v arg _ hva hnode'⟩

variable [Scalar R] {j : Job R}

/-- What an expression evaluates to depends on the seed only if the zone says so. -/
theorem eval (h : Confined Z m) {e : Expr}
    (he : ∀ callee args node, e ≠ .call callee args node) :
    Ends (j.eval e m)
      (fun slot m₁ => Confined Z m₁ ∧ m₁.Knows slot ∧ ∀ k, slot.node = some k → Z.Carries e)
      (fun _ m₁ => Confined Z m₁) := by
  have plain (value : Value R) : Confined Z m ∧ m.Knows { value } ∧
      ∀ k, ({ value } : Slot R).node = some k → Z.Carries e := by
    refine ⟨h, fun k hk => ?_, fun k hk => ?_⟩ <;> cases hk
  cases e with
  | const c => exact plain _
  | copy v =>
    change Ends (j.read v m) _ _
    cases hv : m.var v with
    | none => rw [j.read_none m hv]; exact h
    | some s =>
      rw [j.read_some m hv]
      exact ⟨h, h.knows_var hv, fun k hk => h.vars v s k hv hk⟩
  | load obj field =>
    rw [Job.eval_load, ends_bind, Job.readObj, ends_bind]
    cases hv : m.var obj with
    | none => rw [j.read_none m hv]; exact h
    | some s =>
      rw [j.read_some m hv, ends_ok, Job.ofExcept_apply]
      split
      swap
      · exact h
      rw [ends_ok, Job.load_apply]
      split
      swap
      · exact h
      obtain ⟨g, hg, -, hf, -⟩ := h.graph
      have hfield {o k : Nat} (hk : m.graph.bind (·.field? o field) = some k) :
          Z.field ∧ k < g.parents.size := by
        rw [hg] at hk
        exact hf _ (Graph.mem_fields_of_field? hk)
      refine ⟨h, fun k hk g' hg' => ?_, fun k hk => (hfield hk).1⟩
      rw [hg] at hg'
      cases hg'
      exact (hfield hk).2
  | op op args =>
    rw [Job.eval_op, ends_bind]
    refine (j.readAll_ends m args).known.mono ?_ fun _ m' hm' => hm'.1 ▸ h
    rintro slots m' ⟨hread, rfl⟩
    obtain ⟨hslots, -⟩ := (j.readAll_eq_ok m').mp hread
    rw [Job.operate_apply]
    split
    · exact h
    split
    · rename_i hdiff
      split
      · exact h
      · refine (h.record hslots _ _).mono ?_ fun _ _ h => h
        rintro slot m₁ ⟨hm₁, hknown, hslot⟩
        exact ⟨hm₁, hknown, fun k hk => ⟨(Bool.and_eq_true_iff.mp hdiff).2, hslot k hk⟩⟩
    · exact plain _
  | call callee args node => exact absurd rfl (he callee args node)
  | pop t =>
    change Ends (Job.pop t m) _ _
    cases hst : m.stack t with
    | nil => rw [Job.pop_nil m hst]; exact h
    | cons slot rest =>
      have hmem : slot ∈ m.stack t := by simp [hst]
      rw [Job.pop_cons m hst]
      exact ⟨h.dropTape hst, h.knows_stack hmem, fun k hk => h.tapes t slot hmem k hk⟩
  | topIs t d => exact plain _

theorem store (h : Confined Z m) {obj val : Var} (hs : Z.var val → Z.field) :
    Ends (j.exec (.store obj field val) m) (fun _ m₁ => Confined Z m₁) (fun _ m₁ => Confined Z m₁) := by
  rw [Job.exec_store, ends_bind, Job.readObj, ends_bind]
  cases ho : m.var obj with
  | none => rw [j.read_none m ho]; exact h
  | some so =>
    rw [j.read_some m ho, ends_ok, Job.ofExcept_apply]
    split
    swap
    · exact h
    rw [ends_ok, ends_bind]
    cases hv : m.var val with
    | none => rw [j.read_none m hv]; exact h
    | some sv =>
      rw [j.read_some m hv, ends_ok, ends_bind, Job.store_apply]
      split
      swap
      · exact h
      have hknown := h.knows_var hv
      have hfield (k : Nat) (hk : sv.node = some k) : Z.field := hs (h.vars val sv k hv hk)
      obtain ⟨⟨g, hg, hord, hf, hvb, htb⟩, hvars, htapes⟩ := h
      refine ⟨⟨g.setField _ field sv.node, by rw [hg]; rfl, hord.setField _ _ _,
        fun p hp => ?_, ?_, ?_⟩, hvars, htapes⟩
      · rw [Graph.parents_setField]
        rcases Graph.mem_fields_setField hp with hp | hp
        · exact hf p hp
        · exact ⟨hfield _ hp, hknown _ hp g hg⟩
      · rw [Graph.parents_setField]
        exact hvb
      · rw [Graph.parents_setField]
        exact htb

/-- What an atomic statement keeps that the zone admits. -/
theorem atom (h : Confined Z m) (hatomic : a.isControlFlow = false) (ha : Z.Admits m.vars.size a) :
    Ends (j.exec a m) (fun _ m₁ => Confined Z m₁) (fun _ m₁ => Confined Z m₁) := by
  cases a, hatomic using Stmt.atomCases with
  | define dst decl e =>
    rw [Job.exec_define, ends_bind]
    refine ((h.eval ha.1).and (j.eval_frame e m)).mono ?_ fun _ _ h => h.1
    rintro slot m₁ ⟨⟨hm₁, hknown, hslot⟩, hframe⟩
    refine hm₁.setVar hknown fun k hk hin => ha.2 (hslot k hk) ?_
    rwa [hframe.vars] at hin
  | store obj field val => exact h.store ha
  | push t v =>
    rw [Job.exec_push, ends_bind]
    cases hv : m.var v with
    | none => rw [j.read_none m hv]; exact h
    | some s =>
      rw [j.read_some m hv]
      exact h.pushTape (h.knows_var hv) fun k hk => ha (h.vars v s k hv hk)
  | pushDecision t d =>
    refine h.pushTape (fun k hk => ?_) fun k hk => ?_ <;> cases hk
  | unreachable => exact h
  | ret vals =>
    rw [Job.exec_ret, ends_bind]
    exact (j.readAll_ends m vals).mono (fun _ _ hm => hm ▸ h) fun _ _ hm => hm.1 ▸ h

end Confined

/-- What a block returns is held by variables of the machine it ends on. -/
def Flow.HeldBy (flow : Flow R) (m : Machine R) : Prop :=
  ∀ vals, flow = .ret vals → ∀ s ∈ vals, ∃ v, m.var v = some s

/-- Nodes stay in the zone, and variables hold what is returned. -/
def Zone.law (R : Type) (Z : Zone) (size : Nat) : RunLaw R where
  step m m' := Confined Z m ∧ m.vars.size = size → Confined Z m' ∧ m'.vars.size = size
  flow := Flow.HeldBy
  error _ := True
  refl _ h := h
  trans h h' hm := h' (h hm)
  tick _ h := ⟨h.1.ticked, h.2⟩
  next _ _ h := by cases h
  limit := trivial
  undefinedVar _ := trivial
  typeConfusion _ _ := trivial

section
variable {Z : Zone} {m : Machine R} [Scalar R] {j : Job R}

theorem Job.atom_held (j : Job R) (ha : a.isControlFlow = false) (m : Machine R) :
    Ends (j.exec a m) (fun flow m' => flow.HeldBy m') (fun _ _ => True) := by
  by_cases hret : ∃ vals, a = .ret vals
  · obtain ⟨vals, rfl⟩ := hret
    rw [Job.exec_ret, ends_bind]
    refine (j.readAll_ends m vals).known.mono ?_ fun _ _ _ => trivial
    rintro slots m' ⟨hread, rfl⟩
    obtain ⟨hslots, -⟩ := (j.readAll_eq_ok m').mp hread
    intro vals' hvals s hs
    cases hvals
    have hsome : some s ∈ vals.map m'.var := hslots ▸ List.mem_map_of_mem hs
    obtain ⟨v, -, hv⟩ := List.mem_map.mp hsome
    exact ⟨v, hv⟩
  · refine (j.atom_next ha (fun vals h => hret ⟨vals, h⟩) m).mono ?_ fun _ _ h => h
    rintro flow m' rfl vals h
    cases h

omit [Scalar R] in
theorem Zone.law_step {α : Type} {r : EStateM.Result RunError (Machine R) α} {size : Nat}
    (h : Confined Z m → m.vars.size = size →
      Ends r (fun _ m' => Confined Z m' ∧ m'.vars.size = size)
        (fun _ m' => Confined Z m' ∧ m'.vars.size = size)) :
    Ends r (fun _ m' => (Z.law R size).step m m') (fun _ m' => (Z.law R size).step m m') := by
  cases r with
  | ok x m' => exact fun hm => h hm.1 hm.2
  | error e m' => exact fun hm => h hm.1 hm.2

/-- What the zone admits keeps nodes in it. -/
theorem Zone.governs {size : Nat} (hatomic : a.isControlFlow = false) (ha : Z.Admits size a) :
    (Z.law R size).Governs j a where
  exec m := by
    refine (j.atom_held hatomic m).and (Zone.law_step fun hm hsize => ?_)
    exact ((hm.atom hatomic (hsize ▸ ha)).and (j.exec_frame hatomic m)).mono
      (fun _ _ h => ⟨h.1, h.2.size.trans hsize⟩) fun _ _ h => ⟨h.1, h.2.size.trans hsize⟩
  eval dst decl e he m := by
    subst he
    refine Zone.law_step fun hm hsize => ?_
    exact ((hm.eval ha.1).and (j.eval_frame e m)).mono
      (fun _ _ h => ⟨h.1.1, (congrArg Array.size h.2.vars).trans hsize⟩)
      fun _ _ h => ⟨h.1, (congrArg Array.size h.2.vars).trans hsize⟩

/-- **A block keeps nodes in a zone that admits its statements.** -/
theorem Confined.execBlock (h : Confined Z m) {b : Block}
    (hb : ∀ a ∈ blockAtoms b, Z.Admits m.vars.size a) :
    Ends (j.execBlock b m) (fun flow m' => flow.HeldBy m' ∧ Confined Z m')
      (fun _ m' => Confined Z m') :=
  (RunLaw.block j b (fun a ha => (Zone.governs (blockAtoms_atomic b a ha) (hb a ha)).exec) m).mono
    (fun _ _ hm' => ⟨hm'.1, (hm'.2 ⟨h, rfl⟩).1⟩) fun _ _ hm' => (hm'.2 ⟨h, rfl⟩).1

end

/-! ## Whole runs -/

/-- A run starts in the zone, if it admits where the arguments go. -/
theorem Confined.enter {Z : Zone} {m : Machine R} (h : Confined Z m) {params : List Var}
    (hargs : ∀ v s k, (v, s) ∈ params.zip args → s.node = some k →
      (v.idx < m.vars.size → Z.var v) ∧ m.Knows s) : Confined Z (m.enter params args) := by
  induction params generalizing m args with
  | nil => exact h
  | cons v params ih =>
    cases args with
    | nil => exact h
    | cons s args =>
      have hs (k : Nat) (hk : s.node = some k) := hargs v s k (by simp) hk
      refine ih (h.setVar (fun k hk => (hs k hk).2 k hk) fun k hk => (hs k hk).1) ?_
      rw [Machine.size_setVar]
      exact fun w t k hmem hk => hargs w t k (List.mem_cons_of_mem _ hmem) hk

/-- **A run keeps nodes in the zone on its whole way.** -/
theorem Confined.reaches [Scalar R] {Z : Zone} {m m' : Machine R} (h : Confined Z m) {j : Job R}
    (hargs : ∀ v s k, (v, s) ∈ j.func.params.zip args → s.node = some k →
      (v.idx < m.vars.size → Z.var v) ∧ m.Knows s)
    (hbody : ∀ a ∈ blockAtoms j.func.body, Z.Admits m.vars.size a) (hm' : j.Reaches args m m') :
    Confined Z m' := by
  cases hm' with
  | start => exact h
  | entering n =>
    refine h.enter fun v s k hmem hk => hargs v s k ?_ hk
    rw [List.zip_eq_zipWith, ← List.take_zipWith] at hmem
    exact List.mem_of_mem_take hmem
  | running _ hpass =>
    have hstep := hpass.obeys (Z.law R m.vars.size) fun a ha =>
      Zone.governs (blockAtoms_atomic _ a ha) (hbody a ha)
    exact (hstep ⟨h.enter hargs, Machine.size_enter⟩).1

end Backsweep
