import Mathlib
import Backsweep.Diff.Builtin
import Backsweep.Proofs.Diff.Lowering
import Backsweep.Proofs.Syntax.Typing

/-!
# The analysis and the lowering agree

What is active is decided in several places: when the analysis marks variables and tapes, and when
statements are sorted into steps. No derivative gets lost between them.

* `Lowering.Feeds`, `Lowering.Carries`: the definitions that pass a derivative on, told by the marks;
* `Lowering.active_of_carries`: what they define is marked;
* `blockOuter`, `stepsAll`, `Step.own`: the atomic statements outside of headers, and the steps that
  they belong to;
* `stepsHollow`: steps without the header of one loop;
* `Lowering.plan_agrees`: how the steps of a plan treat what is active.
-/

namespace Backsweep

variable {e : Expr} {dst : Var} {s st : Step} {arms : List (Var × List Var × List Step)}
  {ss : List Step}

/-! ## Definitions that pass derivatives on -/

namespace Lowering

/-- The expression reads something active that has a derivative. -/
inductive Feeds (l : Lowering) : Expr → Prop where
  | op {opcode : Opcode} {args : List Var} {v : Var} (arg : v ∈ args) (active : l.isActive v = true)
      (real : l.func.varTy v = .real) : Feeds l (.op opcode args)
  | call {callee : String} {args : List Var} {node : Option String} {v : Var} (arg : v ∈ args)
      (active : l.isActive v = true) (real : l.func.varTy v = .real) :
      Feeds l (.call callee args node)
  | copy {v : Var} (active : l.isActive v = true) : Feeds l (.copy v)
  | seed {obj : Var} {field : String} (input : l.activity.input = .property obj field) :
      Feeds l (.load obj field)
  | pop {t : Tape} (active : l.isActiveTape t = true) : Feeds l (.pop t)

/-- The definition gives a real variable a value that depends on the input. -/
structure Carries (l : Lowering) (dst : Var) (e : Expr) : Prop where
  real : l.func.varTy dst = .real
  feeds : l.Feeds e

variable {l : Lowering}

theorem isActiveReal_of_real {v : Var} (hactive : l.isActive v = true)
    (hreal : l.func.varTy v = .real) : l.activity.marks.isActiveReal l.func v = true := by
  have hmarked : l.activity.marks.isActive v = true := hactive
  rw [Marks.isActiveReal, hreal, hmarked]
  rfl

theorem exprActive_of_feeds (h : l.Feeds e) : l.exprActive e = true := by
  cases h with
  | op arg active real | call arg active real =>
    exact List.any_eq_true.mpr ⟨_, arg, isActiveReal_of_real active real⟩
  | copy active => exact active
  | seed input => simp [exprActive, ActiveInput.isSeed, input]
  | pop active => exact active

/-- An operation with a real result and a real operand has real operands only. -/
theorem isDifferentiable_of_real {op : Opcode} (hresult : op.result = .real)
    (hparam : .real ∈ op.params) : op.isDifferentiable = true := by
  cases op
  case ifcast => exact absurd hparam (by decide)
  all_goals first | rfl | cases hresult

theorem isActive_of_mark_eq {m : Marks} {v : Var} (hv : v.idx < m.vars.size) (h : m.mark v = m) :
    m.isActive v = true := by
  rw [← h]
  simp [Marks.mark, Marks.isActive, hv]

/-- The analysis finds that the value of such a definition is active. -/
theorem expr_of_carries {withTapes active : Bool} (hfits : e.Fits l.func dst) (h : l.Carries dst e)
    (hexpr : (⟨l.func, l.activity.input, withTapes⟩ : Analysis).expr l.activity.marks dst e =
      .ok active) : active = true := by
  obtain ⟨hreal, hfeeds⟩ := h
  cases hfeeds with
  | op arg hactive hv =>
    obtain ⟨hparams, hresult⟩ := hfits
    have hparam := List.mem_map_of_mem (f := l.func.varTy) arg
    rw [hparams, hv] at hparam
    have hop := isDifferentiable_of_real (hresult ▸ hreal) hparam
    have hargs := List.any_eq_true.mpr ⟨_, arg, hactive⟩
    have heq := Except.ok.inj hexpr
    rw [← heq, hop, Bool.true_and]
    exact hargs
  | call arg hactive hv =>
    have hargs := List.any_eq_true.mpr ⟨_, arg, isActiveReal_of_real hactive hv⟩
    unfold Analysis.expr at hexpr
    dsimp only at hexpr
    rw [hreal, hargs] at hexpr
    exact (Except.ok.inj hexpr).symm
  | copy hactive => exact (Except.ok.inj hexpr).symm.trans hactive
  | seed hinput =>
    rw [← Except.ok.inj hexpr, hinput]
    simp [ActiveInput.isSeed]
  | @pop t hactive =>
    obtain ⟨-, -, hexpr⟩ := except_bind_eq_ok.mp hexpr
    have hkind : t.kind ≠ .decisions := by
      intro hkind
      have hty : l.func.varTy dst = t.content := hfits
      rw [hreal, Tape.content, hkind] at hty
      cases hty
    have hmarked : l.activity.marks.isActiveTape t = true := hactive
    rw [← Except.ok.inj hexpr, hreal, hmarked]
    simpa using hkind

/-- **What passes a derivative on is marked.** -/
theorem active_of_carries {withTapes : Bool} (hvalid : l.func.isValid = true)
    (htable : ∀ v ∈ l.func.params ++ allDecls l.func.body, v.idx < l.func.vars.size)
    (hclosed : Activity.Closed l.func l.activity.input withTapes l.activity.marks) {decl : Bool}
    (ha : .define dst decl e ∈ blockAtoms l.func.body) (h : l.Carries dst e) :
    l.isActive dst = true := by
  have hfits : e.Fits l.func dst := (Func.fits_of_isValid hvalid).atom ha
  have hdst : dst.idx < l.activity.marks.vars.size := by
    rw [hclosed.size]
    apply htable
    have hdefined := (Func.scoped_of_isValid hvalid).defined ha
    simpa using hdefined
  obtain ⟨active, hexpr, hmark⟩ := except_bind_eq_ok.mp (hclosed.atoms _ ha)
  obtain rfl := expr_of_carries hfits h hexpr
  exact isActive_of_mark_eq hdst (Except.ok.inj hmark)

end Lowering

/-! ## Steps and their statements -/

mutual

/-- The atomic statements of a statement that are in no header. -/
def Stmt.outer : Stmt → List Stmt
  | .cond arms other => armsOuter arms ++ blockOuter other
  | .loop _ _ body => blockOuter body
  | .doLoop body _ => blockOuter body
  | .block body => blockOuter body
  | .define dst decl e => [.define dst decl e]
  | .store obj field val => [.store obj field val]
  | .push t val => [.push t val]
  | .pushDecision t d => [.pushDecision t d]
  | .unreachable => [.unreachable]
  | .ret vals => [.ret vals]

def blockOuter : List Stmt → List Stmt
  | [] => []
  | s :: ss => s.outer ++ blockOuter ss

def armsOuter : List (Var × List Stmt) → List Stmt
  | [] => []
  | (_, body) :: arms => blockOuter body ++ armsOuter arms

end

theorem Stmt.outer_of_not_controlFlow {s : Stmt} (h : s.isControlFlow = false) : s.outer = [s] := by
  cases s <;> first | rfl | cases h

theorem blockOuter_append (a b : Block) : blockOuter (a ++ b) = blockOuter a ++ blockOuter b := by
  induction a with
  | nil => rfl
  | cons s a ih => rw [List.cons_append, blockOuter, blockOuter, ih, List.append_assoc]

theorem mem_armsOuter {arms : List (Var × Block)} {a : Stmt} :
    a ∈ armsOuter arms ↔ ∃ arm ∈ arms, a ∈ blockOuter arm.2 := by
  induction arms with
  | nil => simp [armsOuter]
  | cons arm arms ih => simp [armsOuter, ih]

theorem blockOuter_subset (b : Block) : blockOuter b ⊆ blockAtoms b := by
  induction b using blockInduction with
  | nil => exact List.Subset.refl []
  | atom s ss hs ih =>
    rw [blockOuter, blockAtoms, Stmt.outer_of_not_controlFlow hs, Stmt.atoms_of_not_controlFlow hs]
    exact List.cons_subset_cons s ih
  | cond arms other ss iha iho ih =>
    intro a
    simp only [blockOuter, Stmt.outer, blockAtoms, Stmt.atoms, List.mem_append, mem_armsOuter,
      mem_armsAtoms]
    rintro ((⟨arm, harm, ha⟩ | ha) | ha)
    · exact .inl (.inl ⟨arm, harm, iha arm harm ha⟩)
    · exact .inl (.inr (iho ha))
    · exact .inr (ih ha)
  | loop header test body ss ihh ihb ih =>
    intro a
    simp only [blockOuter, Stmt.outer, blockAtoms, Stmt.atoms, List.mem_append]
    rintro (ha | ha)
    · exact .inl (.inr (ihb ha))
    · exact .inr (ih ha)
  | doLoop body test ss ihb ih | block body ss ihb ih =>
    intro a
    simp only [blockOuter, Stmt.outer, blockAtoms, Stmt.atoms, List.mem_append]
    rintro (ha | ha)
    · exact .inl (ihb ha)
    · exact .inr (ih ha)

mutual

/-- A step and those in it, in the order of the text. -/
def Step.all : Step → List Step
  | .block (decls, steps) => .block (decls, steps) :: stepsAll steps
  | .cond arms (decls, steps) => .cond arms (decls, steps) :: (armsAll arms ++ stepsAll steps)
  | .loop id header test (decls, steps) => .loop id header test (decls, steps) :: stepsAll steps
  | .inert run => [.inert run]
  | .call c => [.call c]
  | .assign dst decl src active => [.assign dst decl src active]
  | .tapeWrite t val active => [.tapeWrite t val active]

def stepsAll : List Step → List Step
  | [] => []
  | s :: ss => s.all ++ stepsAll ss

def armsAll : List (Var × List Var × List Step) → List Step
  | [] => []
  | (_, _, steps) :: arms => stepsAll steps ++ armsAll arms

end

/-- The atomic statements that the step itself stands for, outside of headers. -/
def Step.own : Step → List Stmt
  | .inert run => blockOuter run
  | .call c => [.define c.dst c.decl c.expr]
  | .assign dst decl src _ => [.define dst decl src.expr]
  | .tapeWrite t val _ => [.push t val]
  | .block _ | .cond _ _ | .loop _ _ _ _ => []

theorem Step.all_of_isLeaf (h : s.isLeaf = true) : s.all = [s] := by
  cases s <;> first | rfl | cases h

theorem mem_armsAll : s ∈ armsAll arms ↔ ∃ arm ∈ arms, s ∈ stepsAll arm.2.2 := by
  induction arms with
  | nil => simp [armsAll]
  | cons arm arms ih => simp [armsAll, ih]

theorem armsAll_own
    (h : ∀ arm ∈ arms, (stepsAll arm.2.2).flatMap Step.own = blockOuter (stepsSource arm.2.2)) :
    (armsAll arms).flatMap Step.own = armsOuter (armsSource arms) := by
  induction arms with
  | nil => rfl
  | cons arm arms ih =>
    have hfirst := h arm List.mem_cons_self
    have hrest := ih fun a ha => h a (List.mem_cons_of_mem _ ha)
    rw [armsAll, List.flatMap_append, hfirst, hrest, armsSource, armsOuter]

/-- **Every atomic statement outside of headers belongs to one step.** -/
theorem stepsAll_own (ss : List Step) :
    (stepsAll ss).flatMap Step.own = blockOuter (stepsSource ss) := by
  induction ss using stepsInduction with
  | nil => rfl
  | leaf s ss hs ih =>
    have hleaf : s.own = blockOuter s.source := by
      cases s, hs using Step.leafCases with
      | _ => rfl
    rw [stepsAll, Step.all_of_isLeaf hs, List.singleton_append, List.flatMap_cons, ih, hleaf,
      stepsSource, blockOuter_append]
  | block decls steps ss ihs ih =>
    rw [stepsAll, Step.all, List.flatMap_append, List.flatMap_cons, ihs, ih, stepsSource,
      blockOuter_append]
    simp [Step.own, Step.source, blockOuter, Stmt.outer]
  | cond arms decls steps ss iha ihs ih =>
    rw [stepsAll, Step.all, List.flatMap_append, List.flatMap_cons, List.flatMap_append,
      armsAll_own iha, ihs, ih, stepsSource, blockOuter_append]
    simp [Step.own, Step.source, blockOuter, Stmt.outer]
  | loop id header test decls steps ss ihs ih =>
    rw [stepsAll, Step.all, List.flatMap_append, List.flatMap_cons, ihs, ih, stepsSource,
      blockOuter_append]
    simp [Step.own, Step.source, blockOuter, Stmt.outer]

/-- A step at any depth is made from statements of the whole. -/
theorem atoms_of_mem_stepsAll (h : st ∈ stepsAll ss) :
    blockAtoms st.source ⊆ blockAtoms (stepsSource ss) := by
  -- of a step in front of others: the step, one in it, or one behind it
  have split {s : Step} {ss : List Step} (inner : List Step)
      (hall : s.all = s :: inner) (h : st ∈ stepsAll (s :: ss))
      (hinner : st ∈ inner → blockAtoms st.source ⊆ blockAtoms s.source)
      (hss : st ∈ stepsAll ss → blockAtoms st.source ⊆ blockAtoms (stepsSource ss)) :
      blockAtoms st.source ⊆ blockAtoms (stepsSource (s :: ss)) := by
    rw [stepsSource, blockAtoms_append]
    rw [stepsAll, hall, List.cons_append, List.mem_cons, List.mem_append] at h
    rcases h with rfl | h | h
    · exact List.subset_append_left _ _
    · exact List.subset_append_of_subset_left _ (hinner h)
    · exact List.subset_append_of_subset_right _ (hss h)
  induction ss using stepsInduction with
  | nil => cases h
  | leaf s ss hs ih =>
    exact split [] (Step.all_of_isLeaf hs) h (fun h => absurd h List.not_mem_nil) ih
  | block decls steps ss ihs ih =>
    refine split (stepsAll steps) (by rw [Step.all]) h (fun h => ?_) ih
    simpa [Step.source, blockAtoms, Stmt.atoms] using ihs h
  | cond arms decls steps ss iha ihs ih =>
    refine split (armsAll arms ++ stepsAll steps) (by rw [Step.all]) h (fun h a ha => ?_) ih
    simp only [Step.source, blockAtoms, Stmt.atoms, List.mem_append, mem_armsAtoms, armsSource_eq]
    rcases List.mem_append.mp h with h | h
    · obtain ⟨arm, harm, h⟩ := mem_armsAll.mp h
      exact .inl (.inl ⟨_, List.mem_map_of_mem harm, iha arm harm h ha⟩)
    · exact .inl (.inr (ihs h ha))
  | loop id header test decls steps ss ihs ih =>
    refine split (stepsAll steps) (by rw [Step.all]) h (fun h a ha => ?_) ih
    simp only [Step.source, blockAtoms, Stmt.atoms, List.mem_append]
    exact .inl (.inr (ihs h ha))

theorem fine_of_mem_stepsAll {l : Lowering} (hfine : stepsFine l ss) :
    ∀ st ∈ stepsAll ss, st.Fine l := by
  induction ss using stepsInduction with
  | nil => simp [stepsAll]
  | leaf s ss hs ih =>
    rw [stepsAll, Step.all_of_isLeaf hs, List.singleton_append, List.forall_mem_cons]
    exact ⟨hfine.1, ih hfine.2⟩
  | block decls steps ss ihs ih =>
    rw [stepsAll, Step.all, List.forall_mem_append, List.forall_mem_cons]
    exact ⟨⟨hfine.1, ihs hfine.1.2⟩, ih hfine.2⟩
  | cond arms decls steps ss iha ihs ih =>
    rw [stepsAll, Step.all, List.forall_mem_append, List.forall_mem_cons, List.forall_mem_append]
    obtain ⟨⟨harms, hother⟩, hss⟩ := hfine
    refine ⟨⟨⟨harms, hother⟩, ?_, ihs hother.2⟩, ih hss⟩
    intro st hst
    obtain ⟨arm, harm, hst⟩ := mem_armsAll.mp hst
    exact iha arm harm (armsFine_iff.mp harms arm harm).2 st hst
  | loop id header test decls steps ss ihs ih =>
    rw [stepsAll, Step.all, List.forall_mem_append, List.forall_mem_cons]
    exact ⟨⟨hfine.1, ihs hfine.1.2.2⟩, ih hfine.2⟩

/-! ## Outside of a header -/

mutual

/-- The step without the header of loop `id`. -/
def Step.hollow (id : Int) : Step → Step
  | .block (decls, steps) => .block (decls, stepsHollow id steps)
  | .cond arms (decls, steps) => .cond (armsHollow id arms) (decls, stepsHollow id steps)
  | .loop k header test (decls, steps) =>
    .loop k (if k = id then [] else header) test (decls, stepsHollow id steps)
  | .inert run => .inert run
  | .call c => .call c
  | .assign dst decl src active => .assign dst decl src active
  | .tapeWrite t val active => .tapeWrite t val active

def stepsHollow (id : Int) : List Step → List Step
  | [] => []
  | s :: ss => s.hollow id :: stepsHollow id ss

def armsHollow (id : Int) :
    List (Var × List Var × List Step) → List (Var × List Var × List Step)
  | [] => []
  | (test, decls, steps) :: arms => (test, decls, stepsHollow id steps) :: armsHollow id arms

end

theorem Step.hollow_of_isLeaf (id : Int) (h : s.isLeaf = true) : s.hollow id = s := by
  cases s <;> first | rfl | cases h

/-- How often the step reads a variable in a header, if it is a loop numbered `id`. -/
def Step.headerCount (id : Int) (v : Var) : Step → Nat
  | .loop k header _ _ => if k = id then (blockReads header).count v else 0
  | _ => 0

theorem armsHollow_count {id : Int} {v : Var}
    (h : ∀ arm ∈ arms, ((stepsAll arm.2.2).map (Step.headerCount id v)).sum +
      (blockReads (stepsSource (stepsHollow id arm.2.2))).count v =
        (blockReads (stepsSource arm.2.2)).count v) :
    ((armsAll arms).map (Step.headerCount id v)).sum +
      (armsReads (armsSource (armsHollow id arms))).count v =
        (armsReads (armsSource arms)).count v := by
  induction arms with
  | nil => rfl
  | cons arm arms ih =>
    obtain ⟨test, decls, steps⟩ := arm
    have hfirst := h (test, decls, steps) List.mem_cons_self
    have hrest := ih fun a ha => h a (List.mem_cons_of_mem _ ha)
    simp only [armsAll, armsHollow, armsSource, armsReads, List.cons_append, List.count_cons,
      List.count_append, List.map_append, List.sum_append]
    dsimp only at hfirst
    omega

/-- Every read is in a header numbered `id`, or outside of them. -/
theorem stepsHollow_count (id : Int) (v : Var) (ss : List Step) :
    ((stepsAll ss).map (Step.headerCount id v)).sum +
      (blockReads (stepsSource (stepsHollow id ss))).count v =
        (blockReads (stepsSource ss)).count v := by
  induction ss using stepsInduction with
  | nil => rfl
  | leaf s ss hs ih =>
    have hnone : s.headerCount id v = 0 := by cases s <;> first | rfl | cases hs
    simp only [stepsAll, Step.all_of_isLeaf hs, stepsHollow, stepsSource,
      Step.hollow_of_isLeaf id hs, blockReads_append, List.count_append, List.singleton_append,
      List.map_cons, List.sum_cons, hnone]
    omega
  | block decls steps ss ihs ih =>
    simp only [stepsAll, Step.all, stepsHollow, Step.hollow, stepsSource, Step.source,
      blockReads_append, blockReads, Stmt.reads, List.count_append, List.cons_append,
      List.map_cons, List.map_append, List.sum_cons, List.sum_append, Step.headerCount]
    omega
  | cond arms decls steps ss iha ihs ih =>
    have harms := armsHollow_count iha
    simp only [stepsAll, Step.all, stepsHollow, Step.hollow, stepsSource, Step.source,
      blockReads_append, blockReads, Stmt.reads, List.count_append, List.cons_append,
      List.map_cons, List.map_append, List.sum_cons, List.sum_append, Step.headerCount]
    omega
  | loop k header test decls steps ss ihs ih =>
    simp only [stepsAll, Step.all, stepsHollow, Step.hollow, stepsSource, Step.source,
      blockReads_append, blockReads, Stmt.reads, List.count_append, List.count_cons,
      List.cons_append, List.map_cons, List.map_append, List.sum_cons, List.sum_append,
      Step.headerCount]
    split
    · simp only [blockReads, List.count_nil]
      omega
    · omega

/-- What is read in the header of a loop as often as in the whole is read nowhere else. -/
theorem not_read_outside {id : Int} {header : Block} {test v : Var} {body : Section} {rest : Block}
    (h : .loop id header test body ∈ stepsAll ss)
    (hcount : (blockReads (stepsSource ss ++ rest)).count v ≤ (blockReads header).count v) :
    v ∉ blockReads (stepsSource (stepsHollow id ss) ++ rest) := by
  have hsum := stepsHollow_count id v ss
  have hheader : (blockReads header).count v ≤ ((stepsAll ss).map (Step.headerCount id v)).sum := by
    have hle := List.single_le_sum (fun _ _ => Nat.zero_le _) _
      (List.mem_map_of_mem (f := Step.headerCount id v) h)
    simpa [Step.headerCount] using hle
  rw [blockReads_append, List.count_append] at hcount
  rw [← List.count_eq_zero, blockReads_append, List.count_append]
  omega

/-! ## Plans -/

namespace Lowering

/-- How the steps of a plan treat what is active. -/
structure Agrees (l : Lowering) (p : Plan) : Prop where
  /-- Every atomic statement outside of headers belongs to one step, in the same order. -/
  atoms : blockOuter l.func.body = (stepsAll p.body.2).flatMap Step.own ++ [.ret [p.ret]]
  /-- Definitions that pass a derivative on are calls with rules, or active assignments. -/
  definitions : ∀ st ∈ stepsAll p.body.2, ∀ dst decl e, .define dst decl e ∈ st.own →
    l.Carries dst e →
      (∃ c, st = .call c ∧ c.dst = dst ∧ c.decl = decl ∧ c.expr = e) ∨
      ∃ src, st = .assign dst decl src true ∧ src.expr = e
  pushes : ∀ st ∈ stepsAll p.body.2, ∀ t val, .push t val ∈ st.own → l.isActiveTape t = true →
    ∃ active, st = .tapeWrite t val active
  /-- Statements that are kept do neither, in headers or elsewhere. Only where they are no control
  flow do they assign to active variables. -/
  kept : ∀ run, .inert run ∈ stepsAll p.body.2 → ∀ s ∈ run,
    (∀ dst decl e, .define dst decl e ∈ s.atoms → ¬l.Carries dst e) ∧
    (∀ t val, .push t val ∈ s.atoms → l.isActiveTape t = false) ∧
    (s.isControlFlow = true → ∀ dst e, .define dst false e ∈ s.atoms → l.isActive dst = false)
  /-- Every loop has a number of its own. -/
  numbers : (stepsLoopIds p.body.2).Nodup
  /-- A header pushes to no active tape, and what is active there is not read anywhere else, but for
  the test. -/
  headers : ∀ id header test body, .loop id header test body ∈ stepsAll p.body.2 →
    (∀ t val, .push t val ∈ blockAtoms header → l.isActiveTape t = false) ∧
    ∀ dst decl e, .define dst decl e ∈ blockAtoms header → l.isActive dst = true → dst ≠ test →
      dst ∉ blockReads (stepsSource (stepsHollow id p.body.2) ++ [.ret [p.ret]])

variable {l : Lowering}

theorem sourceActive_eq (src : Source) : l.sourceActive src = l.exprActive src.expr := by
  cases src <;> rfl

/-- A step that stands for a definition which passes a derivative on, and is as it should be. -/
theorem definition_of_fine (hst : st.Fine l) {decl : Bool} (ha : .define dst decl e ∈ st.own)
    (hactive : l.isActive dst = true) (he : l.Feeds e) :
    (∃ c, st = .call c ∧ c.dst = dst ∧ c.decl = decl ∧ c.expr = e) ∨
      ∃ src, st = .assign dst decl src true ∧ src.expr = e := by
  have hexpr := exprActive_of_feeds he
  cases st with
  | inert run =>
    have hinert := hst.atoms _ (blockOuter_subset run ha) hactive
    rw [hexpr] at hinert
    cases hinert
  | call c =>
    cases List.mem_singleton.mp ha
    exact .inl ⟨c, rfl, rfl, rfl, rfl⟩
  | assign dst' decl' src active =>
    cases List.mem_singleton.mp ha
    obtain rfl : active = true := by rw [hst.2, sourceActive_eq, hexpr]
    exact .inr ⟨src, rfl, rfl⟩
  | tapeWrite t val active => cases List.mem_singleton.mp ha
  | block body => cases ha
  | cond arms other => cases ha
  | loop id header test body => cases ha

theorem push_of_fine (hst : st.Fine l) {t : Tape} {val : Var} (ha : .push t val ∈ st.own)
    (hactive : l.isActiveTape t = true) : ∃ active, st = .tapeWrite t val active := by
  cases st with
  | inert run =>
    have hinert : l.isActiveTape t = false := hst.atoms _ (blockOuter_subset run ha)
    rw [hactive] at hinert
    cases hinert
  | call c => cases List.mem_singleton.mp ha
  | assign dst decl src active => cases List.mem_singleton.mp ha
  | tapeWrite t' val' active =>
    cases List.mem_singleton.mp ha
    exact ⟨active, rfl⟩
  | block body => cases ha
  | cond arms other => cases ha
  | loop id header test body => cases ha

/-- **The analysis and the lowering agree on what is active.** -/
theorem plan_agrees {input : ActiveInput} {withTapes : Bool} {p : Plan} {s : State}
    (hvalid : l.func.isValid = true)
    (htable : ∀ v ∈ l.func.params ++ allDecls l.func.body, v.idx < l.func.vars.size)
    (hactivity : Activity.analyze l.func input withTapes = .ok l.activity)
    (hplan : l.plan {} = .ok p s) : l.Agrees p := by
  have hfine := plan_fine hplan
  obtain ⟨rfl, hclosed⟩ := Activity.analyze_closed hactivity
  have hsteps := fine_of_mem_stepsAll hfine.fine
  have hmarked {dst : Var} {decl : Bool} {e : Expr}
      (ha : .define dst decl e ∈ blockAtoms (stepsSource p.body.2)) (h : l.Carries dst e) :
      l.isActive dst = true := by
    have hbody : Stmt.define dst decl e ∈ blockAtoms l.func.body := by
      rw [hfine.body, blockAtoms_append]
      exact List.mem_append_left _ ha
    exact active_of_carries hvalid htable hclosed hbody h
  have hown := stepsAll_own p.body.2
  constructor
  · rw [hown, hfine.body, blockOuter_append]
    rfl
  · intro st hst dst decl e ha h
    have houter : Stmt.define dst decl e ∈ blockOuter (stepsSource p.body.2) :=
      hown ▸ List.mem_flatMap.mpr ⟨st, hst, ha⟩
    exact definition_of_fine (hsteps st hst) ha (hmarked (blockOuter_subset _ houter) h) h.feeds
  · intro st hst t val ha hactive
    exact push_of_fine (hsteps st hst) ha hactive
  · intro run hrun s hs
    have hinert : l.InertRun run := hsteps _ hrun
    have hinside : s.atoms ⊆ blockAtoms run := fun a ha => mem_blockAtoms.mpr ⟨s, hs, ha⟩
    refine ⟨?_, ?_, hinert.nested s hs⟩
    · intro dst decl e ha h
      have hwhole := atoms_of_mem_stepsAll hrun (hinside ha)
      have hexpr := hinert.atoms _ (hinside ha) (hmarked hwhole h)
      rw [exprActive_of_feeds h.feeds] at hexpr
      cases hexpr
    · intro t val ha
      exact hinert.atoms _ (hinside ha)
  · exact hfine.ids
  · intro id header test body hloop
    have hheader : l.HeaderFine header test := (hsteps _ hloop).1
    constructor
    · exact hheader.push
    · intro dst decl e ha hactive hne
      have hinside := (hheader.define dst decl e ha hactive).resolve_left hne
      apply not_read_outside hloop
      rw [← hfine.body]
      exact Nat.le_of_not_lt (of_decide_eq_false hinside)

end Lowering

/-- Powers of a parameter, up to the first one with a square that is not small. The header computes
that square. -/
def Func.squares : Func where
  name := "squares"
  attrs := []
  params := [⟨0⟩]
  returns := [.real]
  vars := #[⟨"a", .real, false⟩, ⟨"limit", .real, false⟩, ⟨"y", .real, true⟩,
    ⟨"square", .real, false⟩, ⟨"small", .bool, false⟩, ⟨"last", .real, false⟩]
  body := [.define ⟨1⟩ true (.const (.real 10.0)), .define ⟨2⟩ true (.copy ⟨0⟩),
    .loop [.define ⟨3⟩ true (.op .fmul [⟨2⟩, ⟨2⟩]), .define ⟨4⟩ true (.op .flt [⟨3⟩, ⟨1⟩])] ⟨4⟩
      [.push ⟨.values, 1⟩ ⟨2⟩, .define ⟨2⟩ false (.op .fmul [⟨2⟩, ⟨0⟩])],
    .define ⟨5⟩ true (.pop ⟨.values, 1⟩), .define ⟨2⟩ false (.op .fadd [⟨2⟩, ⟨5⟩]), .ret [⟨2⟩]]

/-- What is active in it, and how many steps it is lowered to. -/
def Func.squaresLowered : Bool :=
  match Activity.analyze .squares (.param ⟨0⟩) true with
  | .error _ => false
  | .ok activity =>
    match (⟨.squares, activity, .builtin⟩ : Lowering).plan {} with
    | .error _ _ => false
    | .ok p _ => activity.marks.isActive ⟨3⟩ && activity.marks.isActiveTape ⟨.values, 1⟩ &&
      (stepsAll p.body.2).length == 7 && stepsLoopIds p.body.2 == [-1]

theorem Func.squaresLowered_eq : Func.squaresLowered = true := by decide +kernel

/-- The square is active and read in the header only. -/
theorem squares_plan_agrees : ∃ activity p s,
    Activity.analyze .squares (.param ⟨0⟩) true = .ok activity ∧
    (⟨.squares, activity, .builtin⟩ : Lowering).plan {} = .ok p s ∧
    activity.marks.isActive ⟨3⟩ = true ∧ activity.marks.isActiveTape ⟨.values, 1⟩ = true ∧
    (stepsAll p.body.2).length = 7 ∧ stepsLoopIds p.body.2 = [-1] ∧
    (⟨.squares, activity, .builtin⟩ : Lowering).Agrees p := by
  have h := Func.squaresLowered_eq
  unfold Func.squaresLowered at h
  split at h
  · cases h
  rename_i activity hactivity
  split at h
  · cases h
  rename_i p s hp
  simp only [Bool.and_eq_true, beq_iff_eq] at h
  obtain ⟨⟨⟨hvar, htape⟩, hsteps⟩, hids⟩ := h
  have hvalid : Func.squares.isValid = true := by decide +kernel
  have htable : ∀ v ∈ Func.squares.params ++ allDecls Func.squares.body,
      v.idx < Func.squares.vars.size := by decide +kernel
  exact ⟨activity, p, s, hactivity, hp, hvar, htape, hsteps, hids,
    Lowering.plan_agrees hvalid htable hactivity hp⟩

end Backsweep
