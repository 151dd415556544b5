import Mathlib
import Backsweep.Proofs.Diff.Dependence
import Backsweep.Proofs.Diff.Undo
import Backsweep.Proofs.Run.Holding

/-!
# What depends on the seed

Along the forward section, only what is active depends on the seed.

* `Setting.Elementary`: functions of primitive operations, with a parameter or a
  property of one as input;
* `Traced`: only active variables and tapes hold nodes of the graph, and of fields only
  the input;
* `Setting.Elementary.admits`, `Traced.forward`: this stays so;
* `Traced.inert`: what inert code assigns does not depend on the seed.
-/

namespace Backsweep

variable {R : Type}
variable {v obj : Var} {field : String}

/-- The function calls nothing, and its input is a parameter, or a property of one. -/
structure Setting.Elementary (S : Setting) : Prop where
  input : S.lo.activity.input.var ∈ S.lo.func.params
  calls : ∀ dst decl callee args node,
    Stmt.define dst decl (.call callee args node) ∉ blockAtoms S.lo.func.body

/-- Where nodes may be along the forward section. Its own tapes hold all it saves. -/
def Setting.zone (S : Setting) : Zone where
  var v := S.lo.isActive v = true
  tape t := t.level ≠ S.rv.level.val → S.lo.isActiveTape t = true
  field := ∃ obj field, S.lo.activity.input = .property obj field

/-- The machine records a graph, and only what is active is in it. If the input is a
property, its record is accessed through the parameter only. -/
structure Traced (S : Setting) (m : Machine R) : Prop where
  confined : Confined S.zone m
  anchored : ∀ o name, S.lo.activity.input = .property o name →
    ∃ (K : Enclosure S.lo.func) (h : Nat), K.Sole o name ∧ Anchored K h o name m

variable {flow : Flow R}

section
variable {S : Setting}

theorem Setting.Elementary.sheltered (hS : S.Elementary) : S.Sheltered := by
  intro v hv
  have hinput := hS.input
  rw [hv] at hinput
  exact hinput

/-- The operands of differentiable operations are reals. -/
theorem Setting.operand_real {dst : Var} {decl : Bool} {op : Opcode} {args : List Var}
    (ha : .define dst decl (.op op args) ∈ blockAtoms S.lo.func.body)
    (hop : op.isDifferentiable = true) (hv : v ∈ args) : S.lo.func.varTy v = .real := by
  have hargs : args.map S.lo.func.varTy = op.params := ((Func.fits_of_isValid S.valid).atom ha).1
  have hall := (Bool.and_eq_true_iff.mp hop).2
  rw [← hargs] at hall
  exact beq_iff_eq.mp (List.all_eq_true.mp hall _ (List.mem_map_of_mem hv))

theorem Setting.isActiveReal (hv : S.lo.func.varTy v = .real) :
    S.lo.isActiveReal v = S.lo.isActive v := by
  simp [Lowering.isActiveReal, Marks.isActiveReal, hv, Lowering.isActive]

/-- An expression whose value depends on the seed is active, and so is what it is
assigned to. -/
def Dependent (S : Setting) (dst : Var) (e : Expr) : Prop :=
  S.lo.exprActive e = true ∧ S.lo.isActive dst = true

namespace Setting.Elementary

variable {a : Stmt} {dst : Var} {decl : Bool} {e : Expr}

theorem callsNothing (hS : S.Elementary) : S.lo.func.CallsNothing := by
  intro s hs
  cases s with
  | define dst decl e =>
    cases e with
    | call callee args node => exact absurd hs (hS.calls dst decl callee args node)
    | _ => rfl
  | _ => rfl

/-- What the analysis says of a statement of the function. -/
theorem covered (hS : S.Elementary) (ha : a ∈ blockAtoms S.lo.func.body) :
    (Zone.active S.lo.activity.marks.varSet S.lo.activity.marks.tapeSet).Admits
      S.lo.func.vars.size a := by
  obtain ⟨hcovers, hallowed⟩ :=
    S.closed.covers (a := ⟨S.lo.func, S.lo.activity.input, S.withTapes⟩)
  exact hcovers.admits hallowed (Func.fits_of_isValid S.valid) hS.callsNothing ha

/-- A value that depends on the seed is active. Loads are left out, where it matters
which record is loaded from. -/
theorem dependent (hS : S.Elementary) (ha : Stmt.define dst decl e ∈ blockAtoms S.lo.func.body)
    (hload : ∀ obj field, e ≠ .load obj field) (h : S.zone.Carries e) : Dependent S dst e := by
  have hactive : S.lo.exprActive e = true ∧
      (Zone.active S.lo.activity.marks.varSet S.lo.activity.marks.tapeSet).Carries e := by
    cases e with
    | copy v => exact ⟨h, h⟩
    | op op args =>
      obtain ⟨hop, v, hv, hactive⟩ := h
      refine ⟨List.any_eq_true.mpr ⟨v, hv, ?_⟩, hop, v, hv, hactive⟩
      exact (Setting.isActiveReal (Setting.operand_real ha hop hv)).trans hactive
    | pop t =>
      have htape : t ∈ blockTapes S.lo.func.body :=
        (mem_blockTapes _).mpr ⟨_, ha, by simp [Stmt.tapes, Expr.tape?]⟩
      have hactive : S.lo.isActiveTape t = true := h (S.apart t htape)
      exact ⟨hactive, hactive, S.single t hactive ▸ S.kind⟩
    | load obj field => exact absurd rfl (hload obj field)
    | const c => exact h.elim
    | call callee args node => exact h.elim
    | topIs t d => exact h.elim
  exact ⟨hactive.1, (hS.covered ha).2 hactive.2 (S.definesBelow dst decl e ha)⟩

/-- What is loaded from the input is active. -/
theorem seed_dependent (ha : Stmt.define dst decl (.load obj field) ∈ blockAtoms S.lo.func.body)
    (hinput : S.lo.activity.input = .property obj field) : Dependent S dst (.load obj field) := by
  obtain ⟨hcovers, -⟩ :=
    S.closed.covers (a := ⟨S.lo.func, S.lo.activity.input, S.withTapes⟩)
  refine ⟨?_, hcovers.define dst decl _ ha (S.definesBelow dst decl _ ha) hinput⟩
  simp [Lowering.exprActive, ActiveInput.isSeed, hinput]

/-- Nothing is stored into the input, and nothing active into other fields. -/
theorem store_allowed {val : Var} (ha : Stmt.store obj field val ∈ blockAtoms S.lo.func.body) :
    S.lo.activity.input ≠ .property obj field ∧ S.lo.isActive val = false := by
  obtain ⟨-, hallowed⟩ :=
    S.closed.covers (a := ⟨S.lo.func, S.lo.activity.input, S.withTapes⟩)
  have hok := not_or.mp (hallowed _ ha)
  exact ⟨hok.1, Bool.eq_false_iff.mpr hok.2⟩

end Setting.Elementary

variable {m m' : Machine R}

theorem Traced.ticked (h : Traced S m) : Traced S m.ticked where
  confined := h.confined.ticked
  anchored o name hinput := by
    obtain ⟨K, k, hsole, hm⟩ := h.anchored o name hinput
    exact ⟨K, k, hsole, hm.congr rfl rfl rfl⟩

/-- The variable does not depend on the seed. -/
def Machine.Nodeless (m : Machine R) (v : Var) : Prop := ∀ s, m.var v = some s → s.node = none

theorem Traced.nodeless (h : Traced S m) (hv : S.lo.isActive v = false) : m.Nodeless v := by
  intro s hs
  cases hk : s.node with
  | none => rfl
  | some k =>
    have hactive : S.lo.isActive v = true := h.confined.vars v s k hs hk
    rw [hv] at hactive
    cases hactive

variable [Scalar R] {j : Job R}

/-- What an expression evaluates to depends on the seed only if it is active. -/
theorem Traced.eval (hS : S.Elementary) (h : Traced S m) {dst : Var} {decl : Bool} {e : Expr}
    (ha : Stmt.define dst decl e ∈ blockAtoms S.lo.func.body) :
    Ends (j.eval e m)
      (fun slot m₁ => Confined S.zone m₁ ∧ m₁.Knows slot ∧
        ∀ k, slot.node = some k → Dependent S dst e)
      (fun _ m₁ => Confined S.zone m₁) := by
  refine (h.confined.eval (hS.covered ha).1).known.mono ?_ fun _ _ h => h
  rintro slot m₁ ⟨heval, hm₁, hknows, hcarries⟩
  refine ⟨hm₁, hknows, fun k hk => ?_⟩
  by_cases hload : ∃ obj field, e = .load obj field
  · obtain ⟨obj, field, rfl⟩ := hload
    obtain ⟨o, name, hinput⟩ := hcarries k hk
    obtain ⟨K, handle, hsole, hm⟩ := h.anchored o name hinput
    -- the record is loaded from through the parameter only
    rw [hm.node hsole ha heval] at hk
    split at hk
    · rename_i hroot
      obtain ⟨rfl, rfl⟩ := hroot
      exact Setting.Elementary.seed_dependent ha hinput
    · cases hk
  · exact hS.dependent ha (fun obj field he => hload ⟨obj, field, he⟩) (hcarries k hk)

omit [Scalar R] in
/-- Nodes and the record of the input are followed one by one. -/
theorem Traced.ends {α : Type} {r : EStateM.Result RunError (Machine R) α} (h : Traced S m)
    (hconfined : Ends r (fun _ => Confined S.zone) (fun _ => Confined S.zone))
    (hanchored : ∀ (K : Enclosure S.lo.func) k o name, S.lo.activity.input = .property o name →
      K.Sole o name → Anchored K k o name m →
      Ends r (fun _ => Anchored K k o name) (fun _ => Anchored K k o name)) :
    Ends r (fun _ => Traced S) (fun _ => Traced S) := by
  cases hin : S.lo.activity.input with
  | param v =>
    have hkeep {m₁ : Machine R} (hm₁ : Confined S.zone m₁) : Traced S m₁ :=
      ⟨hm₁, fun o name hinput => by rw [hin] at hinput; cases hinput⟩
    exact hconfined.mono (fun _ _ => hkeep) fun _ _ => hkeep
  | property o name =>
    obtain ⟨K, k, hsole, hm⟩ := h.anchored o name hin
    have hkeep {m₁ : Machine R} (hm₁ : Confined S.zone m₁ ∧ Anchored K k o name m₁) :
        Traced S m₁ := by
      refine ⟨hm₁.1, fun o' name' hinput => ?_⟩
      rw [hin] at hinput
      cases hinput
      exact ⟨K, k, hsole, hm₁.2⟩
    exact (hconfined.and (hanchored K k o name hin hsole hm)).mono (fun _ _ => hkeep)
      fun _ _ => hkeep

/-- A load from the input has the node of the seed. -/
theorem Traced.seed_loaded (h : Traced S m) {o dst : Var} {name : String} {decl : Bool}
    (hinput : S.lo.activity.input = .property o name)
    (ha : Stmt.define dst decl (.load o name) ∈ blockAtoms S.lo.func.body)
    (hexec : j.exec (.define dst decl (.load o name)) m = .ok flow m') :
    ∃ slot, slot.node = some Graph.seed ∧ m' = m.setVar dst slot := by
  rw [Job.exec_define] at hexec
  obtain ⟨slot, m₁, heval, hwrite⟩ := bind_eq_ok.mp hexec
  cases hwrite
  obtain ⟨K, k, hsole, hm⟩ := h.anchored o name hinput
  have hnode := hm.node hsole ha heval
  rw [if_pos ⟨rfl, rfl⟩] at hnode
  obtain ⟨_, _, -, -, -, -, rfl⟩ := Job.eval_load_eq_ok.mp heval
  exact ⟨slot, hnode, rfl⟩

theorem Traced.define (hS : S.Elementary) (h : Traced S m) {dst : Var} {decl : Bool} {e : Expr}
    (ha : Stmt.define dst decl e ∈ blockAtoms S.lo.func.body) :
    Ends (j.exec (.define dst decl e) m) (fun _ => Traced S) (fun _ => Traced S) := by
  apply h.ends
  · rw [Job.exec_define, ends_bind]
    refine (h.eval hS ha).mono ?_ fun _ _ h => h
    rintro slot m₁ ⟨hm₁, hknows, hslot⟩
    exact hm₁.setVar hknows fun k hk _ => (hslot k hk).2
  · intro K k o name hinput hsole hm
    refine hm.define (Func.fits_of_isValid S.valid) ha (hS.covered ha).1 ?_
    -- parameters are never assigned
    rintro rfl
    have hparam := hS.input
    rw [hinput] at hparam
    exact S.inScope.not_defined (List.mem_toFinset.mpr hparam) (S.tabled.immutable _ hparam) decl e
      ha

theorem Traced.store (h : Traced S m) {val : Var}
    (ha : Stmt.store obj field val ∈ blockAtoms S.lo.func.body) :
    Ends (j.exec (.store obj field val) m) (fun _ => Traced S) (fun _ => Traced S) := by
  obtain ⟨hinput, hval⟩ := Setting.Elementary.store_allowed ha
  apply h.ends
  · refine h.confined.store fun hactive => ?_
    have hactive : S.lo.isActive val = true := hactive
    rw [hval] at hactive
    cases hactive
  · intro K k o name hroot hsole hm
    refine hm.store hsole ha ?_ (h.nodeless hval)
    rintro ⟨rfl, rfl⟩
    exact hinput hroot

omit [Scalar R] in
/-- What leaves variables, records and the graph alone keeps the record of the input. -/
theorem Traced.unchanged {α : Type} {r : EStateM.Result RunError (Machine R) α} (h : Traced S m)
    (hconfined : Ends r (fun _ => Confined S.zone) (fun _ => Confined S.zone))
    (hsame : Ends r (fun _ m₁ => m₁.vars = m.vars ∧ m₁.world = m.world ∧ m₁.graph = m.graph)
      (fun _ m₁ => m₁.vars = m.vars ∧ m₁.world = m.world ∧ m₁.graph = m.graph)) :
    Ends r (fun _ => Traced S) (fun _ => Traced S) := by
  refine h.ends hconfined fun K k o name _ _ hm => ?_
  have hkeep {m₁ : Machine R}
      (hm₁ : m₁.vars = m.vars ∧ m₁.world = m.world ∧ m₁.graph = m.graph) :
      Anchored K k o name m₁ :=
    hm.congr hm₁.1 hm₁.2.1 (by rw [hm₁.2.2])
  exact hsame.mono (fun _ _ => hkeep) fun _ _ => hkeep

/-- What an atomic statement of the forward section keeps. -/
theorem Traced.atom (hS : S.Elementary) (h : Traced S m) {a : Stmt} (ha : S.IsForward a) :
    Ends (j.exec a m) (fun _ m₁ => Traced S m₁) (fun _ m₁ => Traced S m₁) := by
  have hpush (t : Tape) (v : Var) : Ends (j.exec (.push t v) m)
      (fun _ m₁ => m₁.vars = m.vars ∧ m₁.world = m.world ∧ m₁.graph = m.graph)
      (fun _ m₁ => m₁.vars = m.vars ∧ m₁.world = m.world ∧ m₁.graph = m.graph) := by
    rw [Job.exec_push, ends_bind]
    cases hv : m.var v with
    | none => rw [j.read_none m hv]; exact ⟨rfl, rfl, rfl⟩
    | some s => rw [j.read_some m hv]; exact ⟨rfl, rfl, rfl⟩
  rcases ha with ha | ⟨v, rfl⟩ | ⟨d, rfl⟩
  · have hatomic := blockAtoms_atomic _ a ha
    cases a, hatomic using Stmt.atomCases with
    | define dst decl e => exact h.define hS ha
    | store obj field val => exact h.store ha
    | push t v =>
      refine h.unchanged (h.confined.atom rfl ?_) (hpush t v)
      exact fun hv _ => ((hS.covered ha) hv).1
    | pushDecision t d =>
      exact h.unchanged (h.confined.atom rfl trivial) ⟨rfl, rfl, rfl⟩
    | unreachable => exact h
    | ret vals =>
      rw [Job.exec_ret, ends_bind]
      exact (j.readAll_ends m vals).mono (fun _ _ hm => hm ▸ h) fun _ _ hm => hm.1 ▸ h
  · refine h.unchanged (h.confined.atom rfl ?_) (hpush _ v)
    exact fun _ hlevel => absurd rfl hlevel
  · exact h.unchanged (h.confined.atom (a := .pushDecision S.rv.level.decisions d) rfl trivial)
      ⟨rfl, rfl, rfl⟩

/-- Statements keep the machine traced. -/
def tracedLaw (R : Type) (S : Setting) : RunLaw R where
  step m m' := Traced S m → Traced S m'
  flow _ _ := True
  error _ := True
  refl _ h := h
  trans h h' hm := h' (h hm)
  tick _ h := h.ticked
  next _ := trivial
  limit := trivial
  undefinedVar _ := trivial
  typeConfusion _ _ := trivial

/-- **Along the forward section, only what is active depends on the seed.** -/
theorem Traced.forward (hS : S.Elementary) (h : Traced S m) {b : Block}
    (hb : ∀ a ∈ blockAtoms b, S.IsForward a) (hexec : j.execBlock b m = .ok flow m') :
    Traced S m' := by
  have hlaw : (tracedLaw R S).Obeys (j.execBlock b) := by
    refine RunLaw.block j b fun a ha m => ?_
    have hatom (hm : Traced S m) := hm.atom (j := j) hS (hb a ha)
    cases hrun : j.exec a m with
    | ok flow m₁ =>
      refine ⟨trivial, fun hm => ?_⟩
      have hends := hatom hm
      rw [hrun] at hends
      exact hends
    | error e m₁ =>
      refine ⟨trivial, fun hm => ?_⟩
      have hends := hatom hm
      rw [hrun] at hends
      exact hends
  exact ((hlaw m).of_ok hexec).2 h

/-! ## Inert code -/

/-- What inert code assigns does not depend on the seed. -/
theorem Traced.inert_define (hS : S.Elementary) (h : Traced S m) {dst : Var} {decl : Bool} {e : Expr}
    (ha : Stmt.define dst decl e ∈ blockAtoms S.lo.func.body)
    (hi : S.lo.AtomInert (.define dst decl e))
    (hexec : j.exec (.define dst decl e) m = .ok .next m') : m'.Nodeless dst := by
  rw [Job.exec_define] at hexec
  obtain ⟨slot, m₁, heval, hwrite⟩ := bind_eq_ok.mp hexec
  cases hwrite
  have hnode : slot.node = none := by
    cases hk : slot.node with
    | none => rfl
    | some k =>
      obtain ⟨hactive, hdst⟩ := ((h.eval hS ha).of_ok heval).2.2 k hk
      rw [hi hdst] at hactive
      cases hactive
  intro s hs
  change (m₁.setVar dst slot).var dst = some s at hs
  rw [Machine.var_setVar] at hs
  split at hs
  · cases hs
    exact hnode
  · rename_i hout
    rw [Machine.var, Array.getD_eq_getD_getElem?, Array.getElem?_eq_none] at hs
    · cases hs
    · simpa using hout

theorem define_error {dst : Var} {decl : Bool} {e : Expr} {err : RunError}
    (h : j.exec (.define dst decl e) m = .error err m') : m'.vars = m.vars := by
  have hframe := j.eval_frame e m
  rw [Job.exec_define, bind_apply] at h
  cases heval : j.eval e m with
  | ok slot m₁ =>
    rw [heval] at h
    cases h
  | error err' m₁ =>
    rw [heval] at h hframe
    cases h
    exact hframe.vars

/-- Inert code makes nothing depend on the seed. -/
def inertLaw (R : Type) (S : Setting) : RunLaw R where
  step m m' := Traced S m → Traced S m' ∧ ∀ v, m.Nodeless v → m'.Nodeless v
  flow _ _ := True
  error _ := True
  refl _ h := ⟨h, fun _ hv => hv⟩
  trans h h' hm := ⟨(h' (h hm).1).1, fun v hv => (h' (h hm).1).2 v ((h hm).2 v hv)⟩
  tick _ h := ⟨h.ticked, fun _ hv => hv⟩
  next _ := trivial
  limit := trivial
  undefinedVar _ := trivial
  typeConfusion _ _ := trivial

theorem Traced.inert (hS : S.Elementary) (h : Traced S m) {b : Block}
    (hb : blockAtoms b ⊆ blockAtoms S.lo.func.body) (hi : ∀ a ∈ blockAtoms b, S.lo.AtomInert a)
    (hexec : j.execBlock b m = .ok flow m') (hv : m.Nodeless v) : m'.Nodeless v := by
  have hlaw : (inertLaw R S).Obeys (j.execBlock b) := by
    refine RunLaw.block j b fun a ha m => ?_
    have hatomic := blockAtoms_atomic _ a ha
    have hkeep {m₁ : Machine R} (hframe : StmtFrame a m m₁) {v : Var}
        (hd : ∀ decl e, a ≠ .define v decl e) (hv : m.Nodeless v) : m₁.Nodeless v := by
      intro s hs
      rw [hframe.vars v hd] at hs
      exact hv s hs
    by_cases hm : Traced S m
    swap
    · cases j.exec a m with
      | ok flow m₁ => exact ⟨trivial, fun h => absurd h hm⟩
      | error e m₁ => exact ⟨trivial, fun h => absurd h hm⟩
    have htraced := (hm.atom (j := j) hS (.inl (hb ha))).and (j.exec_frame hatomic m)
    cases hexec : j.exec a m with
    | ok flow m₁ =>
      rw [hexec] at htraced
      obtain ⟨htr, hframe⟩ := htraced
      refine ⟨trivial, fun _ => ⟨htr, fun v hv => ?_⟩⟩
      by_cases hd : ∃ decl e, a = .define v decl e
      · obtain ⟨decl, e, rfl⟩ := hd
        have hnext := (j.atom_next hatomic (by simp) m).of_ok hexec
        subst hnext
        exact hm.inert_define hS (hb ha) (hi _ ha) hexec
      · exact hkeep hframe (fun decl e heq => hd ⟨decl, e, heq⟩) hv
    | error e m₁ =>
      rw [hexec] at htraced
      obtain ⟨htr, hframe⟩ := htraced
      refine ⟨trivial, fun _ => ⟨htr, fun v hv => ?_⟩⟩
      by_cases hd : ∃ decl e, a = .define v decl e
      · obtain ⟨decl, e, rfl⟩ := hd
        intro s hs
        rw [Machine.var, define_error hexec] at hs
        exact hv s hs
      · exact hkeep hframe (fun decl e heq => hd ⟨decl, e, heq⟩) hv
  exact (((hlaw m).of_ok hexec).2 h).2 v hv

/-- What inert code assigns directly does not depend on the seed behind it. -/
theorem Traced.inert_assigned (hS : S.Elementary) (h : Traced S m) {run : Block}
    (hb : blockAtoms run ⊆ blockAtoms S.lo.func.body) (hi : ∀ a ∈ blockAtoms run, S.lo.AtomInert a)
    (hexec : j.execBlock run m = .ok .next m') {decl : Bool} {e : Expr}
    (hv : Stmt.define v decl e ∈ run) : m'.Nodeless v := by
  obtain ⟨before, after, rfl⟩ := List.append_of_mem hv
  obtain ⟨m₁, hbefore, hrest⟩ := j.execBlock_append_eq_next.mp hexec
  obtain ⟨m₂, hdefine, hafter⟩ := j.execBlock_cons_eq_next.mp hrest
  simp only [blockAtoms_append, blockAtoms, Stmt.atoms, List.singleton_append] at hb hi
  have hm₁ : Traced S m₁ := h.forward hS
    (fun a ha => .inl (hb (List.mem_append_left _ ha))) hbefore
  have hatom : Stmt.define v decl e ∈ blockAtoms S.lo.func.body := hb (by simp)
  have hm₂ : Traced S m₂ := by
    have htr := hm₁.atom (j := j) hS (.inl hatom)
    rw [hdefine] at htr
    exact htr
  have hnone : m₂.Nodeless v := hm₁.inert_define hS hatom (hi _ (by simp)) hdefine
  exact hm₂.inert hS (fun a ha => hb (List.mem_append_right _ (List.mem_cons_of_mem _ ha)))
    (fun a ha => hi a (List.mem_append_right _ (List.mem_cons_of_mem _ ha))) hafter hnone

end

/-! ## Operations -/

section
variable [Field R] [LawfulScalar R] {S : Setting} {j : Job R} {m m' : Machine R} {G : Graph R}

omit [LawfulScalar R] in
theorem Machine.Nodeless.tangent (h : m.Nodeless v) : m.tangent G v = 0 := by
  cases hv : m.var v with
  | none => rw [Machine.tangent, hv]; rfl
  | some s => rw [Machine.tangent_some hv, Slot.tangent_none (h s hv)]

/-- **The tangent of a result is the sum of the tangents of the arguments, times the
partial derivatives.** -/
theorem Traced.eval_op (h : Traced S m) (hG : G.Ordered) {op : Opcode}
    (hop : op.isDifferentiable = true) {vs : List Var} {args : List (Slot R)}
    (hargs : vs.map m.var = args.map some) {slot : Slot R}
    (heval : j.eval (.op op vs) m = .ok slot m') (hgrows : GraphGrows m'.graph (some G)) :
    ∃ (xs : List R) (y : R) (ps : List R), Slot.values args = xs.map Value.real ∧
      slot.value = .real y ∧ op.eval (xs.map Value.real) = .ok (.real y) ∧
      op.partials (xs.map Value.real) y = .ok ps ∧ ps.length = xs.length ∧
      slot.tangent G = ((args.zip ps).map fun p => p.2 * p.1.tangent G).sum := by
  have hread : j.readAll vs m = .ok args m := (j.readAll_eq_ok m).mpr ⟨hargs, rfl⟩
  rw [Job.eval_op, bind_ok hread, Job.operate_apply] at heval
  cases hvalue : op.eval (Slot.values args) with
  | error e => rw [hvalue] at heval; cases heval
  | ok value =>
    obtain ⟨xs, y, ps, hxs, rfl, hps, hlength⟩ := Opcode.eval_differentiable hop hvalue
    obtain ⟨g, hg, hord, -⟩ := h.confined.graph
    have hpartials : (Value.real y).toReal.bind (op.partials (Slot.values args)) = .ok ps := hps
    rw [hvalue] at heval
    simp only [hop, hg, Option.isSome_some, Bool.and_self, ite_true, hpartials, bind_apply,
      Job.record_apply] at heval
    cases heval
    rw [hxs] at hvalue hps hlength
    refine ⟨xs, y, ps, hxs, rfl, hvalue, hps, by simpa using hlength, ?_⟩
    exact Graph.tangent_record hord hG (.real y) hgrows

end

end Backsweep
