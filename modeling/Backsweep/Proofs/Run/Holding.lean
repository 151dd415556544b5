import Mathlib
import Backsweep.Proofs.Run.Confinement
import Backsweep.Proofs.Run.Soundness

/-!
# Where a record can be

A record is reached through what holds its handle. Statements pass handles on, by copies
and through fields of records.

* `Func.MayHold`: where a function may come to hold a record, whatever the order of its
  statements;
* `Enclosure`: holders that a record does not leave;
* `Enclosure.Holds`: a machine that holds the record there only;
* `Anchored`: a machine on which one field of the record is the seed of the graph;
* `Anchored.node`: if the record is accessed through one variable only, the loads from
  this variable are those that depend on the seed;
* `Anchored.define`, `Anchored.store`: statements keep this up.
-/

namespace Backsweep

variable {field : String} {e : Expr}

/-! ## Loads, stores and operations that succeed -/

namespace Job

variable {R : Type}
variable {m m' : Machine R}

theorem readObj_eq_ok {j : Job R} {v : Var} {h : Nat} :
    j.readObj v m = .ok h m' ↔ (∃ s, m.var v = some s ∧ s.value = .obj h) ∧ m' = m := by
  rw [readObj, bind_eq_ok]
  constructor
  · rintro ⟨s, m₁, hread, hof⟩
    obtain ⟨hs, rfl⟩ := (j.read_eq_ok m).mp hread
    obtain ⟨value, node⟩ := s
    cases value with
    | obj k =>
      cases hof
      exact ⟨⟨_, hs, rfl⟩, rfl⟩
    | _ => cases hof
  · rintro ⟨⟨s, hs, hv⟩, rfl⟩
    refine ⟨s, m', j.read_some m' hs, ?_⟩
    rw [hv]
    rfl

theorem readObj_ends (j : Job R) (v : Var) (m : Machine R) :
    Ends (j.readObj v m) (fun _ m' => m' = m) (fun _ m' => m' = m) := by
  rw [readObj, ends_bind]
  cases hv : m.var v with
  | none => rw [j.read_none m hv]; rfl
  | some s =>
    rw [j.read_some m hv, ends_ok, ofExcept_apply]
    split <;> rfl

variable [Scalar R]

theorem eval_load_eq_ok {j : Job R} {obj : Var} {slot : Slot R} :
    j.eval (.load obj field) m = .ok slot m' ↔
      ∃ s h, m.var obj = some s ∧ s.value = .obj h ∧
        m.world.heap.load h field = .ok slot.value ∧
        slot.node = m.graph.bind (·.field? h field) ∧ m' = m := by
  rw [eval_load, bind_eq_ok]
  constructor
  · rintro ⟨h, m₁, hobj, hload⟩
    obtain ⟨⟨s, hs, hv⟩, rfl⟩ := readObj_eq_ok.mp hobj
    rw [load_apply] at hload
    split at hload
    · rename_i hvalue
      cases hload
      exact ⟨s, h, hs, hv, hvalue, rfl, rfl⟩
    · cases hload
  · rintro ⟨s, h, hs, hv, hvalue, hnode, rfl⟩
    refine ⟨h, m', readObj_eq_ok.mpr ⟨⟨s, hs, hv⟩, rfl⟩, ?_⟩
    rw [load_apply, hvalue, ← hnode]

/-- A store sets a field of a record, and its node. -/
theorem exec_store_ends (j : Job R) (obj : Var) (field : String) (val : Var) (m : Machine R) :
    Ends (j.exec (.store obj field val) m)
      (fun _ m' => ∃ s h sv heap, m.var obj = some s ∧ s.value = .obj h ∧ m.var val = some sv ∧
        m.world.heap.store h field sv.value = .ok heap ∧
        m' = { m with
          world := { m.world with heap }
          graph := m.graph.map (·.setField h field sv.node) })
      (fun _ m' => m' = m) := by
  rw [exec_store, ends_bind]
  refine (j.readObj_ends obj m).known.mono ?_ fun _ _ h => h
  rintro h m₁ ⟨hobj, rfl⟩
  obtain ⟨⟨s, hs, hv⟩, -⟩ := readObj_eq_ok.mp hobj
  rw [ends_bind]
  cases hval : m₁.var val with
  | none => rw [j.read_none m₁ hval]; rfl
  | some sv =>
    rw [j.read_some m₁ hval, ends_ok, ends_bind, store_apply]
    cases hstore : m₁.world.heap.store h field sv.value with
    | error e => rfl
    | ok heap => exact ⟨s, h, sv, heap, hs, hv, rfl, hstore, rfl⟩

theorem operate_value {op : Opcode} {args : List (Slot R)} {slot : Slot R}
    (h : operate op args m = .ok slot m') : op.eval (Slot.values args) = .ok slot.value := by
  rw [operate_apply] at h
  split at h
  · cases h
  · rename_i value hvalue
    rw [hvalue]
    split at h
    · split at h
      · cases h
      · obtain ⟨node, m₁, -, hpure⟩ := bind_eq_ok.mp h
        cases hpure
        rfl
    · cases h
      rfl

end Job

/-- Operations yield no records. -/
theorem Opcode.eval_ne_obj {R : Type} [Scalar R] {op : Opcode} {args : List (Value R)} (h : Nat)
    (hlength : args.length = op.arity) : op.eval args ≠ .ok (.obj h) := by
  intro heval
  have hty : op.signature.2 ≠ .obj := by cases op <;> decide
  rcases op.eval_total hlength with ⟨v, hv, hvty⟩ | ⟨-, a, b, herror⟩
  · rw [heval] at hv
    cases hv
    exact hty hvty.symm
  · rw [heval] at herror
    cases herror

/-! ## Holders -/

/-- What can hold a record: a variable, or the fields of one name, of whatever record. -/
inductive Holder where
  | var (v : Var)
  | field (name : String)

/-- Holders that a record does not leave: the statements of the function take it from
there to other ones of them. What is popped can be any record. -/
structure Enclosure (f : Func) where
  has : Holder → Prop
  copy : ∀ {dst decl v}, .define dst decl (.copy v) ∈ blockAtoms f.body → has (.var v) →
    has (.var dst)
  load : ∀ {dst decl obj name}, .define dst decl (.load obj name) ∈ blockAtoms f.body →
    has (.field name) → has (.var dst)
  store : ∀ {obj name val}, .store obj name val ∈ blockAtoms f.body → has (.var val) →
    has (.field name)
  pop : ∀ {dst decl t}, .define dst decl (.pop t) ∈ blockAtoms f.body → has (.var dst)

section
variable {R : Type}

/-- Where the function may come to hold the record `h`, if it is run on these arguments
and records. -/
inductive Func.MayHold (f : Func) (args : List (Value R)) (heap : Heap R) (h : Nat) : Holder → Prop
  | arg {k : Nat} {v : Var} (param : f.params[k]? = some v) (given : args[k]? = some (Value.obj h)) :
      MayHold f args heap h (.var v)
  | held {k : Nat} {name : String} (loaded : heap.load k name = .ok (Value.obj h)) :
      MayHold f args heap h (.field name)
  | copy {dst decl v} (atom : .define dst decl (.copy v) ∈ blockAtoms f.body)
      (from_ : MayHold f args heap h (.var v)) : MayHold f args heap h (.var dst)
  | load {dst decl obj name} (atom : .define dst decl (.load obj name) ∈ blockAtoms f.body)
      (from_ : MayHold f args heap h (.field name)) : MayHold f args heap h (.var dst)
  | store {obj name val} (atom : .store obj name val ∈ blockAtoms f.body)
      (from_ : MayHold f args heap h (.var val)) : MayHold f args heap h (.field name)
  | pop {dst decl t} (atom : .define dst decl (.pop t) ∈ blockAtoms f.body) :
      MayHold f args heap h (.var dst)

/-- The least holders that the record does not leave. -/
def Func.holders (f : Func) (args : List (Value R)) (heap : Heap R) (h : Nat) : Enclosure f where
  has := f.MayHold args heap h
  copy := .copy
  load := .load
  store := .store
  pop := .pop

/-- The function reads or writes the field `name` of the record that `v` holds. -/
def Func.Accesses (f : Func) (v : Var) (name : String) : Prop :=
  (∃ dst decl, .define dst decl (.load v name) ∈ blockAtoms f.body) ∨
    ∃ val, .store v name val ∈ blockAtoms f.body

/-- A parameter that is never assigned holds what it was given only. -/
theorem Func.MayHold.given {f : Func} {args : List (Value R)} {heap : Heap R} {h : Nat} {v : Var}
    (hv : ∀ decl e, .define v decl e ∉ blockAtoms f.body) (hm : f.MayHold args heap h (.var v)) :
    ∃ k : Nat, f.params[k]? = some v ∧ args[k]? = some (Value.obj h) := by
  cases hm with
  | arg param given => exact ⟨_, param, given⟩
  | copy atom _ => exact absurd atom (hv _ _)
  | load atom _ => exact absurd atom (hv _ _)
  | pop atom => exact absurd atom (hv _ _)

/-- The variables through which a field `name` is read or written. -/
def Func.accessors (f : Func) (name : String) : List Var :=
  (blockAtoms f.body).filterMap fun
    | .define _ _ (.load v field) => if field = name then some v else none
    | .store v field _ => if field = name then some v else none
    | _ => none

theorem Func.Accesses.mem_accessors {f : Func} {v : Var} {name : String} (h : f.Accesses v name) :
    v ∈ f.accessors name := by
  rcases h with ⟨dst, decl, ha⟩ | ⟨val, ha⟩
  · exact List.mem_filterMap.mpr ⟨_, ha, if_pos rfl⟩
  · exact List.mem_filterMap.mpr ⟨_, ha, if_pos rfl⟩

/-- The record `h` is there only. -/
structure Enclosure.Holds {f : Func} (K : Enclosure f) (h : Nat) (m : Machine R) : Prop where
  vars : ∀ v s, m.var v = some s → s.value = .obj h → K.has (.var v)
  fields : ∀ k name, m.world.heap.load k name = .ok (.obj h) → K.has (.field name)

variable {slot : Slot R}

namespace Enclosure.Holds

variable {f : Func} {K : Enclosure f} {h : Nat} {m m' : Machine R}

theorem congr (hm : K.Holds h m) (hvars : m'.vars = m.vars) (hworld : m'.world = m.world) :
    K.Holds h m' := by
  constructor
  · intro v s hs
    rw [Machine.var, hvars] at hs
    exact hm.vars v s hs
  · rw [hworld]
    exact hm.fields

theorem setVar (hm : K.Holds h m) {dst : Var} (hslot : slot.value = .obj h → K.has (.var dst)) :
    K.Holds h (m.setVar dst slot) := by
  refine ⟨fun v s hs hv => ?_, hm.fields⟩
  rw [Machine.var_setVar] at hs
  split at hs
  · rename_i hdst
    cases hs
    exact hdst.1 ▸ hslot hv
  · exact hm.vars v s hs hv

/-- A run starts with the record where its arguments and records hold it. -/
theorem enter (f : Func) {args : List (Value R)} {world : World R} (h : Nat) {m : Machine R}
    {slots : List (Slot R)} (hslots : Slot.values slots = args) (hworld : m.world = world)
    (hm : ∀ v, m.var v = none) :
    (f.holders args world.heap h).Holds h (m.enter f.params slots) := by
  constructor
  · intro v s hs hv
    rcases Machine.enter_cases hs with hs | hs
    · rw [hm v] at hs
      cases hs
    · obtain ⟨k, hk⟩ := List.mem_iff_getElem?.mp hs
      rw [List.getElem?_zip_eq_some] at hk
      refine Func.MayHold.arg hk.1 ?_
      rw [← hslots, Slot.values_eq_map, List.getElem?_map, hk.2, Option.map_some, hv]
  · intro k name hload
    rw [(m.enter_keeps f.params slots).2.1, hworld] at hload
    exact Func.MayHold.held hload

variable [Scalar R] {j : Job R}

/-- What is defined is the record only if the variable may hold it. -/
theorem eval (hm : K.Holds h m) (hfits : blockFits f f.body) {dst : Var} {decl : Bool}
    (ha : .define dst decl e ∈ blockAtoms f.body)
    (hcall : ∀ callee args node, e ≠ .call callee args node) (heval : j.eval e m = .ok slot m') :
    slot.value = .obj h → K.has (.var dst) := by
  intro hslot
  cases e with
  | const c =>
    cases heval
    cases c <;> cases hslot
  | copy v =>
    obtain ⟨hv, -⟩ := (j.read_eq_ok m).mp heval
    exact K.copy ha (hm.vars v slot hv hslot)
  | load obj name =>
    obtain ⟨_, k, -, -, hload, -⟩ := Job.eval_load_eq_ok.mp heval
    exact K.load ha (hm.fields k name (hslot ▸ hload))
  | op op args =>
    have hargs : args.map f.varTy = op.params := (hfits.atom ha).1
    rw [Job.eval_op] at heval
    obtain ⟨slots, m₁, hread, hop⟩ := bind_eq_ok.mp heval
    obtain ⟨hslots, rfl⟩ := (j.readAll_eq_ok m).mp hread
    have hlength : (Slot.values slots).length = op.arity := by
      have h₁ := congrArg List.length hargs
      have h₂ := congrArg List.length hslots
      simp only [List.length_map] at h₁ h₂
      rw [Slot.values_eq_map, List.length_map, ← h₂, h₁]
      rfl
    exact absurd (hslot ▸ Job.operate_value hop) (Opcode.eval_ne_obj h hlength)
  | call callee args node => exact absurd rfl (hcall callee args node)
  | pop t => exact K.pop ha
  | topIs t d =>
    cases heval
    cases hslot

omit [Scalar R] in
/-- A record is stored in fields that may hold it. -/
theorem store (hm : K.Holds h m) {obj val : Var} {sv : Slot R} {k : Nat} {heap : Heap R}
    (ha : .store obj field val ∈ blockAtoms f.body) (hval : m.var val = some sv)
    (hstore : m.world.heap.store k field sv.value = .ok heap) (graph : Option (Graph R)) :
    K.Holds h { m with world := { m.world with heap }, graph } := by
  refine ⟨hm.vars, fun k' name hload => ?_⟩
  change heap.load k' name = _ at hload
  rw [Heap.load_store hstore] at hload
  split at hload
  · rename_i hhere
    exact hhere.2 ▸ K.store ha (hm.vars val sv hval (Except.ok.inj hload))
  · exact hm.fields k' name hload

end Enclosure.Holds

/-! ## A field as the seed -/

/-- Evaluating an expression leaves the nodes of fields alone. -/
theorem Job.eval_fields [Scalar R] (j : Job R) (he : ∀ callee args node, e ≠ .call callee args node)
    (m : Machine R) :
    Ends (j.eval e m) (fun _ m' => m'.graph.map Graph.fields = m.graph.map Graph.fields)
      (fun _ m' => m'.graph.map Graph.fields = m.graph.map Graph.fields) := by
  cases e with
  | const c => rfl
  | copy v =>
    change Ends (j.read v m) _ _
    cases hv : m.var v with
    | none => rw [j.read_none m hv]; rfl
    | some s => rw [j.read_some m hv]; rfl
  | load obj field =>
    rw [eval_load, ends_bind]
    refine (j.readObj_ends obj m).mono ?_ fun _ m' hm' => by rw [hm']
    rintro h m' rfl
    rw [load_apply]
    split <;> rfl
  | op op args =>
    rw [eval_op, ends_bind]
    refine (j.readAll_ends m args).mono ?_ fun _ m' hm' => by rw [hm'.1]
    rintro slots m' rfl
    rw [operate_apply]
    split
    · rfl
    split
    · split
      · rfl
      · rw [ends_bind, record_apply]
        cases hg : m'.graph with
        | none => exact congrArg _ hg
        | some g =>
          change some (Graph.fields _) = some g.fields
          rw [Graph.fields_record]
    · rfl
  | call callee args node => exact absurd rfl (he callee args node)
  | pop t =>
    change Ends (Job.pop t m) _ _
    cases hst : m.stack t with
    | nil => rw [Job.pop_nil m hst]; rfl
    | cons slot rest => rw [Job.pop_cons m hst]; rfl
  | topIs t d => rfl

/-- Fields of this name are accessed in the record through `o` only. -/
def Enclosure.Sole {f : Func} (K : Enclosure f) (o : Var) (name : String) : Prop :=
  ∀ v, f.Accesses v name → K.has (.var v) → v = o

/-- The variable `o` holds the record `h`, whose field `name` is the seed of the graph. No
other field has a node, and nothing else but `K` holds the record. -/
structure Anchored {f : Func} (K : Enclosure f) (h : Nat) (o : Var) (name : String)
    (m : Machine R) : Prop where
  fields : m.graph.map Graph.fields = some [((h, name), Graph.seed)]
  root : ∃ s, m.var o = some s ∧ s.value = .obj h
  holds : K.Holds h m

namespace Anchored

variable {f : Func} {K : Enclosure f} {h : Nat} {o : Var} {name : String} {m m' : Machine R}

theorem congr (hm : Anchored K h o name m) (hvars : m'.vars = m.vars) (hworld : m'.world = m.world)
    (hgraph : m'.graph.map Graph.fields = m.graph.map Graph.fields) :
    Anchored K h o name m' where
  fields := hgraph.trans hm.fields
  root := by
    rw [Machine.var, hvars]
    exact hm.root
  holds := hm.holds.congr hvars hworld

theorem field? (hm : Anchored K h o name m) (k : Nat) (field : String) :
    m.graph.bind (·.field? k field) = if k = h ∧ field = name then some Graph.seed else none := by
  obtain ⟨g, hg, hfields⟩ := Option.map_eq_some_iff.mp hm.fields
  rw [hg, Option.bind_some, Graph.field?, hfields, List.lookup_cons]
  by_cases hkey : k = h ∧ field = name
  · obtain ⟨rfl, rfl⟩ := hkey
    simp
  · have hne : (k, field) ≠ (h, name) := fun heq => hkey (Prod.mk.inj heq)
    rw [if_neg hkey, beq_eq_false_iff_ne.mpr hne]
    rfl

variable [Scalar R] {j : Job R}

/-- **Only loads from `o` depend on the seed,** and all of them do. -/
theorem node (hm : Anchored K h o name m) (hsole : K.Sole o name) {dst obj : Var} {decl : Bool}
    (ha : .define dst decl (.load obj field) ∈ blockAtoms f.body)
    (heval : j.eval (.load obj field) m = .ok slot m') :
    slot.node = if obj = o ∧ field = name then some Graph.seed else none := by
  obtain ⟨s, k, hs, hv, -, hnode, -⟩ := Job.eval_load_eq_ok.mp heval
  rw [hnode, hm.field?]
  congr 1
  apply propext
  constructor
  · rintro ⟨rfl, rfl⟩
    exact ⟨hsole obj (.inl ⟨dst, decl, ha⟩) (hm.holds.vars obj s hs hv), rfl⟩
  · rintro ⟨rfl, rfl⟩
    obtain ⟨s', hs', hv'⟩ := hm.root
    rw [hs] at hs'
    cases hs'
    rw [hv] at hv'
    exact ⟨Value.obj.inj hv', rfl⟩

theorem define (hm : Anchored K h o name m) (hfits : blockFits f f.body) {dst : Var} {decl : Bool}
    (ha : .define dst decl e ∈ blockAtoms f.body)
    (hcall : ∀ callee args node, e ≠ .call callee args node) (ho : dst ≠ o) :
    Ends (j.exec (.define dst decl e) m) (fun _ => Anchored K h o name)
      (fun _ => Anchored K h o name) := by
  rw [Job.exec_define, ends_bind]
  refine ((j.eval_frame e m).and (j.eval_fields hcall m)).known.mono ?_ ?_
  · rintro slot m₁ ⟨heval, hframe, hfields⟩
    have hm₁ := hm.congr hframe.vars (hframe.world hcall) hfields
    refine ⟨hm₁.fields, ?_, hm₁.holds.setVar (hm.holds.eval hfits ha hcall heval)⟩
    obtain ⟨s, hs, hv⟩ := hm₁.root
    exact ⟨s, (Machine.var_setVar_ne m₁ dst o slot ho).trans hs, hv⟩
  · rintro _ m₁ ⟨hframe, hfields⟩
    exact hm.congr hframe.vars (hframe.world hcall) hfields

/-- Stores of what does not depend on the seed keep it in its field, unless they hit this
field. -/
theorem store (hm : Anchored K h o name m) (hsole : K.Sole o name) {obj val : Var}
    (ha : .store obj field val ∈ blockAtoms f.body) (hseed : ¬(obj = o ∧ field = name))
    (hval : ∀ s, m.var val = some s → s.node = none) :
    Ends (j.exec (.store obj field val) m) (fun _ => Anchored K h o name)
      (fun _ => Anchored K h o name) := by
  refine (j.exec_store_ends obj field val m).mono ?_ fun _ m' hm' => hm' ▸ hm
  rintro _ _ ⟨s, k, sv, heap, hs, hv, hsv, hstore, rfl⟩
  refine ⟨?_, hm.root, hm.holds.store ha hsv hstore _⟩
  have hmiss : ((h, name) != (k, field)) = true := by
    rw [bne_iff_ne]
    intro heq
    obtain ⟨rfl, rfl⟩ := Prod.mk.inj heq
    exact hseed ⟨hsole obj (.inr ⟨val, ha⟩) (hm.holds.vars obj s hs hv), rfl⟩
  obtain ⟨g, hg, hfields⟩ := Option.map_eq_some_iff.mp hm.fields
  rw [hval sv hsv, hg]
  change some (g.fields.filter (·.1 != (k, field))) = _
  rw [hfields, List.filter_cons, if_pos hmiss]
  rfl

end Anchored

end

end Backsweep
