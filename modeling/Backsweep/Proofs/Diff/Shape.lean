import Mathlib
import Backsweep.Proofs.Diff.Verbatim

/-!
# The shape of outlines

What code generation takes for granted about the outline of a plan.

* `Outline.itemsAll`: the items of an outline at every depth, in the order of the text;
* `Outline.Frame.source`: the statements that a block was made from;
* `Outline.Item.Fine`: what is known of an item and of the blocks directly in it;
* `Outline.items_fine`: it is so for every item that steps of a plan are made into;
* `Lowering.plan_shaped`: how loops are numbered, branches indexed, blocks grouped and
  variables declared in the outline of a plan.
-/

namespace Backsweep

variable {arms : List (Var × List Var × List Step)} {l : Lowering}

namespace Outline

/-! ## Items at every depth -/

mutual

/-- An item and those in it, in the order of the text. -/
def Item.all : Item → List Item
  | .block ⟨isVirtual, decls, items⟩ => .block ⟨isVirtual, decls, items⟩ :: itemsAll items
  | .cond branches => .cond branches :: branchesAll branches
  | .loop id header test ⟨isVirtual, decls, items⟩ =>
    .loop id header test ⟨isVirtual, decls, items⟩ :: itemsAll items
  | .constant s => [.constant s]
  | .call c => [.call c]
  | .assign dst decl src active => [.assign dst decl src active]
  | .tapeWrite t val active => [.tapeWrite t val active]
  | .ret v => [.ret v]

def itemsAll : List Item → List Item
  | [] => []
  | i :: is => i.all ++ itemsAll is

def branchesAll : List (Branch Item) → List Item
  | [] => []
  | ⟨_, _, ⟨_, _, items⟩⟩ :: rest => itemsAll items ++ branchesAll rest

end

/-- The blocks directly in an item. -/
def Item.bodies : Item → List (Frame Item)
  | .block body => [body]
  | .cond branches => branches.map (·.body)
  | .loop _ _ _ body => [body]
  | .constant _ | .call _ | .assign _ _ _ _ | .tapeWrite _ _ _ | .ret _ => []

def Item.loopId? : Item → Option Int
  | .loop id _ _ _ => some id
  | _ => none

def Item.ret? : Item → Option Var
  | .ret v => some v
  | _ => none

def Item.isVirtual : Item → Bool
  | .block body => body.isVirtual
  | _ => false

/-- An outline's own block and those in it, at every depth. -/
def Frame.frames (o : Outline) : List (Frame Item) := o :: (itemsAll o.items).flatMap Item.bodies

/-- The numbers of the loops, in the order of the text. -/
def Frame.loopIds (o : Outline) : List Int := (itemsAll o.items).filterMap Item.loopId?

/-- The variables returned, in the order of the text. -/
def Frame.returns (o : Outline) : List Var := (itemsAll o.items).filterMap Item.ret?

theorem itemsAll_append (a b : List Item) : itemsAll (a ++ b) = itemsAll a ++ itemsAll b := by
  induction a with
  | nil => rfl
  | cons i a ih => rw [List.cons_append, itemsAll, itemsAll, ih, List.append_assoc]

theorem itemsAll_constants (run : Block) : itemsAll (run.map .constant) = run.map .constant := by
  induction run with
  | nil => rfl
  | cons s run ih => rw [List.map_cons, itemsAll, ih, Item.all, List.singleton_append]

theorem branchesAll_append (a b : List (Branch Item)) :
    branchesAll (a ++ b) = branchesAll a ++ branchesAll b := by
  induction a with
  | nil => rfl
  | cons branch a ih =>
    rw [List.cons_append, branchesAll, branchesAll, ih, List.append_assoc]

theorem mem_branchesAll {bs : List (Branch Item)} {i : Item} :
    i ∈ branchesAll bs ↔ ∃ b ∈ bs, i ∈ itemsAll b.body.items := by
  induction bs with
  | nil => simp [branchesAll]
  | cons b bs ih => rw [branchesAll, List.mem_append, ih, List.exists_mem_cons_iff]

/-! ## Sources -/

mutual

/-- The statements that an item was made from. A virtual block stands for the statements
in it. -/
def Item.source : Item → Block
  | .constant s => [s]
  | .call c => [.define c.dst c.decl c.expr]
  | .assign dst decl src _ => [.define dst decl src.expr]
  | .tapeWrite t val _ => [.push t val]
  | .block ⟨true, _, items⟩ => itemsSource items
  | .block ⟨false, _, items⟩ => [.block (itemsSource items)]
  | .cond branches => [.cond (armsOf branches) (otherOf branches)]
  | .loop _ header test ⟨_, _, items⟩ => [.loop header test (itemsSource items)]
  | .ret v => [.ret [v]]

def itemsSource : List Item → Block
  | [] => []
  | i :: is => i.source ++ itemsSource is

/-- The branches with a test. -/
def armsOf : List (Branch Item) → List (Var × Block)
  | [] => []
  | ⟨_, some test, ⟨_, _, items⟩⟩ :: rest => (test, itemsSource items) :: armsOf rest
  | ⟨_, none, _⟩ :: rest => armsOf rest

/-- The branch without a test. -/
def otherOf : List (Branch Item) → Block
  | [] => []
  | ⟨_, some _, _⟩ :: rest => otherOf rest
  | ⟨_, none, ⟨_, _, items⟩⟩ :: _ => itemsSource items

end

def Frame.source (b : Frame Item) : Block := itemsSource b.items

theorem itemsSource_append (a b : List Item) :
    itemsSource (a ++ b) = itemsSource a ++ itemsSource b := by
  induction a with
  | nil => rfl
  | cons i a ih => rw [List.cons_append, itemsSource, itemsSource, ih, List.append_assoc]

theorem itemsSource_constants (run : Block) : itemsSource (run.map .constant) = run := by
  induction run with
  | nil => rfl
  | cons s run ih => rw [List.map_cons, itemsSource, ih, Item.source, List.singleton_append]

/-- Branches made of arms, before the one without a test. -/
theorem branches_source (h : ∀ arm ∈ arms, itemsSource (ofSteps arm.2.2) = stepsSource arm.2.2)
    (i : Nat) (last : Branch Item) (hlast : last.test = none) :
    armsOf (ofArms i arms ++ [last]) = armsSource arms ∧
      otherOf (ofArms i arms ++ [last]) = last.body.source := by
  induction arms generalizing i with
  | nil =>
    obtain ⟨index, test, body⟩ := last
    obtain rfl : test = none := hlast
    exact ⟨rfl, rfl⟩
  | cons arm arms ih =>
    have hfirst := h arm List.mem_cons_self
    obtain ⟨harms, hother⟩ := ih (fun a ha => h a (List.mem_cons_of_mem _ ha)) (i + 1)
    constructor
    · rw [ofArms, List.cons_append, armsOf, harms, hfirst, armsSource]
    · rw [ofArms, List.cons_append, otherOf, hother]

/-- The items of steps were made from the same statements as the steps. -/
theorem itemsSource_ofSteps (ss : List Step) : itemsSource (ofSteps ss) = stepsSource ss := by
  induction ss using stepsInduction with
  | nil => rfl
  | leaf s ss hs ih =>
    have hleaf : (ofStep s).source = s.source := by
      cases s, hs using Step.leafCases with
      | inert run => exact itemsSource_constants run
      | _ => rfl
    rw [ofSteps, itemsSource, hleaf, ih, stepsSource]
  | block decls steps ss ihs ih =>
    rw [ofSteps, itemsSource, ih, ofStep, Item.source, ihs, stepsSource, Step.source]
  | cond arms decls steps ss iha ihs ih =>
    obtain ⟨harms, hother⟩ :=
      branches_source iha 0 ⟨arms.length, none, ⟨false, decls, ofSteps steps⟩⟩ rfl
    rw [ofSteps, itemsSource, ih, ofStep, Item.source, harms, hother, Frame.source, ihs,
      stepsSource, Step.source]
  | loop id header test decls steps ss ihs ih =>
    rw [ofSteps, itemsSource, ih, ofStep, Item.source, ihs, stepsSource, Step.source]

/-! ## Numbers of loops -/

theorem armsLoopIds_ofArms (h : ∀ arm ∈ arms,
      (itemsAll (ofSteps arm.2.2)).filterMap Item.loopId? = stepsLoopIds arm.2.2) (i : Nat) :
    (branchesAll (ofArms i arms)).filterMap Item.loopId? = armsLoopIds arms := by
  induction arms generalizing i with
  | nil => rfl
  | cons arm arms ih =>
    have hfirst := h arm List.mem_cons_self
    have hrest := ih (fun a ha => h a (List.mem_cons_of_mem _ ha)) (i + 1)
    rw [ofArms, branchesAll, List.filterMap_append, hfirst, hrest, armsLoopIds]

/-- Items have the loops of their steps, in the same order. -/
theorem loopIds_ofSteps (ss : List Step) :
    (itemsAll (ofSteps ss)).filterMap Item.loopId? = stepsLoopIds ss := by
  induction ss using stepsInduction with
  | nil => rfl
  | leaf s ss hs ih =>
    have hleaf : (ofStep s).all.filterMap Item.loopId? = s.loopIds := by
      cases s, hs using Step.leafCases with
      | inert run => simp [ofStep, Item.all, itemsAll_constants, Item.loopId?, Step.loopIds]
      | _ => rfl
    rw [ofSteps, itemsAll, List.filterMap_append, hleaf, ih, stepsLoopIds]
  | block decls steps ss ihs ih =>
    rw [ofSteps, itemsAll, List.filterMap_append, ih, ofStep, Item.all,
      List.filterMap_cons_none rfl, ihs, stepsLoopIds, Step.loopIds]
  | cond arms decls steps ss iha ihs ih =>
    rw [ofSteps, itemsAll, List.filterMap_append, ih, ofStep, Item.all,
      List.filterMap_cons_none rfl, branchesAll_append, List.filterMap_append,
      armsLoopIds_ofArms iha 0, branchesAll, branchesAll, List.append_nil, ihs, stepsLoopIds,
      Step.loopIds]
  | loop id header test decls steps ss ihs ih =>
    rw [ofSteps, itemsAll, List.filterMap_append, ih, ofStep, Item.all,
      List.filterMap_cons_some (f := Item.loopId?) rfl, ihs, stepsLoopIds, Step.loopIds]

/-! ## Blocks and branches -/

/-- Branches are indexed from 0, and exactly the last one has no test. -/
structure InOrder (branches : List (Branch Item)) : Prop where
  index : branches.map (·.index) = List.range branches.length
  tests : ∃ init last, branches = init ++ [last] ∧ last.test = none ∧ ∀ b ∈ init, b.test ≠ none

/-- The first of two items that follow each other is no virtual block, or the second is none. -/
def Apart (i j : Item) : Prop := i.isVirtual = true → j.isVirtual = false

structure Frame.Fine (l : Lowering) (b : Frame Item) : Prop where
  /-- A virtual block holds some statements without effect on derivatives and nothing else. -/
  grouping : b.isVirtual = true →
    b.items ≠ [] ∧ (∀ i ∈ b.items, ∃ s, i = .constant s) ∧ b.decls = []
  /-- No virtual block follows another directly. -/
  apart : b.items.IsChain Apart
  /-- Other blocks list the active variables that their statements declare directly. -/
  decls : b.isVirtual = false → b.decls = (blockDecls b.source).filter l.isActive

structure Item.Fine (l : Lowering) (i : Item) : Prop where
  bodies : ∀ b ∈ i.bodies, b.Fine l
  branches : ∀ bs, i = .cond bs → InOrder bs
  ret : i.ret? = none

/-- Items with nothing inside that do not return. -/
theorem fine_of_bodies {i : Item} (hbodies : i.bodies = []) (hcond : ∀ bs, i ≠ .cond bs)
    (hret : i.ret? = none) : i.Fine l :=
  ⟨by simp [hbodies], fun bs hbs => absurd hbs (hcond bs), hret⟩

theorem constant_fine (l : Lowering) (s : Stmt) : (Item.constant s).Fine l :=
  fine_of_bodies rfl (by simp) rfl

theorem ofStep_isVirtual (s : Step) : (ofStep s).isVirtual = s.isRun := by
  cases s <;> rfl

theorem apart_ofSteps {ss : List Step} (h : stepsGrouped ss) : (ofSteps ss).IsChain Apart := by
  induction ss with
  | nil => exact .nil
  | cons s ss ih =>
    obtain ⟨_, hnext, hss⟩ := h
    cases ss with
    | nil => exact .singleton _
    | cons t ss =>
      refine .cons_cons ?_ (ih hss)
      intro hs
      rw [ofStep_isVirtual] at hs ⊢
      exact hnext hs t rfl

theorem apart_constants (run : Block) : (run.map Item.constant).IsChain Apart := by
  induction run with
  | nil => exact .nil
  | cons s run ih =>
    cases run with
    | nil => exact .singleton _
    | cons t run => exact .cons_cons (fun _ => rfl) ih

/-- The block that a run is made into. -/
theorem run_fine (l : Lowering) {run : Block} (h : run ≠ []) :
    Frame.Fine l ⟨true, [], run.map .constant⟩ := by
  constructor
  · intro _
    refine ⟨by simpa using h, ?_, rfl⟩
    intro i hi
    obtain ⟨s, _, rfl⟩ := List.mem_map.mp hi
    exact ⟨s, rfl⟩
  · exact apart_constants run
  · intro hreal
    cases hreal

/-- The block that a section is made into. -/
theorem section_fine {decls : List Var} {steps : List Step}
    (hdecls : decls = l.activeDecls (stepsSource steps)) (hgrouped : stepsGrouped steps) :
    Frame.Fine l ⟨false, decls, ofSteps steps⟩ := by
  constructor
  · intro hvirtual
    cases hvirtual
  · exact apart_ofSteps hgrouped
  · intro _
    rw [Frame.source, itemsSource_ofSteps, ← Lowering.activeDecls_eq]
    exact hdecls

theorem ofArms_index (i : Nat) (arms : List (Var × List Var × List Step)) :
    (ofArms i arms).map (·.index) = List.range' i arms.length := by
  induction arms generalizing i with
  | nil => rfl
  | cons arm arms ih => rw [ofArms, List.map_cons, ih, List.length_cons, List.range'_succ]

theorem mem_ofArms {i : Nat} {b : Branch Item} (h : b ∈ ofArms i arms) :
    ∃ arm ∈ arms, b.test = some arm.1 ∧ b.body = ⟨false, arm.2.1, ofSteps arm.2.2⟩ := by
  induction arms generalizing i with
  | nil => cases h
  | cons arm arms ih =>
    rcases List.mem_cons.mp h with rfl | h
    · exact ⟨arm, List.mem_cons_self, rfl, rfl⟩
    · obtain ⟨a, ha, hb⟩ := ih h
      exact ⟨a, List.mem_cons_of_mem _ ha, hb⟩

theorem inOrder_ofArms (arms : List (Var × List Var × List Step)) (other : Frame Item) :
    InOrder (ofArms 0 arms ++ [⟨arms.length, none, other⟩]) := by
  constructor
  · have hlength : (ofArms 0 arms).length = arms.length := by
      simpa using congrArg List.length (ofArms_index 0 arms)
    rw [List.map_append, ofArms_index, List.length_append, hlength, List.length_singleton,
      List.range_succ, List.range_eq_range']
    rfl
  · refine ⟨_, _, rfl, rfl, ?_⟩
    intro b hb
    obtain ⟨arm, _, htest, _⟩ := mem_ofArms hb
    rw [htest]
    exact Option.some_ne_none _

/-- The item that a conditional is made into. -/
theorem cond_fine {other : Frame Item}
    (harms : ∀ arm ∈ arms, Frame.Fine l ⟨false, arm.2.1, ofSteps arm.2.2⟩) (hother : other.Fine l) :
    (Item.cond (ofArms 0 arms ++ [⟨arms.length, none, other⟩])).Fine l := by
  constructor
  · intro b hb
    obtain ⟨branch, hbranch, rfl⟩ := List.mem_map.mp hb
    rcases List.mem_append.mp hbranch with hbranch | hbranch
    · obtain ⟨arm, harm, _, hbody⟩ := mem_ofArms hbranch
      rw [hbody]
      exact harms arm harm
    · rw [List.mem_singleton.mp hbranch]
      exact hother
  · intro bs hbs
    cases hbs
    exact inOrder_ofArms arms other
  · rfl

/-- **Every item that the steps of a plan are made into is as it should be.** -/
theorem items_fine {ss : List Step} (hfine : stepsFine l ss) (hgrouped : stepsGrouped ss) :
    ∀ i ∈ itemsAll (ofSteps ss), i.Fine l := by
  induction ss using stepsInduction with
  | nil => simp [ofSteps, itemsAll]
  | leaf s ss hs ih =>
    have hss := ih hfine.2 hgrouped.2.2
    have hleaf : ∀ i ∈ (ofStep s).all, i.Fine l := by
      cases s, hs using Step.leafCases with
      | inert run =>
        simp only [ofStep, Item.all, itemsAll_constants, List.forall_mem_cons, List.forall_mem_map]
        refine ⟨⟨?_, by simp, rfl⟩, fun s _ => constant_fine l s⟩
        simpa [Item.bodies] using run_fine l hgrouped.1
      | assign dst decl src active =>
        simpa [ofStep, Item.all] using fine_of_bodies rfl (by simp) rfl
      | _ => simpa [ofStep, Item.all] using fine_of_bodies rfl (by simp) rfl
    rw [ofSteps, itemsAll, List.forall_mem_append]
    exact ⟨hleaf, hss⟩
  | block decls steps ss ihs ih =>
    obtain ⟨⟨hdecls, hsteps⟩, hss⟩ := hfine
    obtain ⟨hinner, _, hrest⟩ := hgrouped
    rw [ofSteps, itemsAll, List.forall_mem_append, ofStep, Item.all, List.forall_mem_cons]
    refine ⟨⟨⟨?_, by simp, rfl⟩, ihs hsteps hinner⟩, ih hss hrest⟩
    simpa [Item.bodies] using section_fine hdecls hinner
  | cond arms decls steps ss iha ihs ih =>
    obtain ⟨⟨harms, hdecls, hsteps⟩, hss⟩ := hfine
    obtain ⟨⟨hinnerArms, hinner⟩, _, hrest⟩ := hgrouped
    rw [armsFine_iff] at harms
    rw [armsGrouped_iff] at hinnerArms
    rw [ofSteps, itemsAll, List.forall_mem_append, ofStep, Item.all, List.forall_mem_cons]
    refine ⟨⟨?_, ?_⟩, ih hss hrest⟩
    · exact cond_fine (fun arm harm => section_fine (harms arm harm).1 (hinnerArms arm harm))
        (section_fine hdecls hinner)
    · intro i hi
      obtain ⟨b, hb, hi⟩ := mem_branchesAll.mp hi
      rcases List.mem_append.mp hb with hb | hb
      · obtain ⟨arm, harm, _, hbody⟩ := mem_ofArms hb
        rw [hbody] at hi
        exact iha arm harm (harms arm harm).2 (hinnerArms arm harm) i hi
      · rw [List.mem_singleton.mp hb] at hi
        exact ihs hsteps hinner i hi
  | loop id header test decls steps ss ihs ih =>
    obtain ⟨⟨_, hdecls, hsteps⟩, hss⟩ := hfine
    obtain ⟨hinner, _, hrest⟩ := hgrouped
    rw [ofSteps, itemsAll, List.forall_mem_append, ofStep, Item.all, List.forall_mem_cons]
    refine ⟨⟨⟨?_, by simp, rfl⟩, ihs hsteps hinner⟩, ih hss hrest⟩
    simpa [Item.bodies] using section_fine hdecls hinner

/-! ## Whole outlines -/

theorem outline_source {p : Plan} (h : l.PlanFine p) : p.outline.source = l.func.body := by
  rw [h.body, Frame.source, Plan.outline, itemsSource_append, itemsSource_ofSteps]
  rfl

/-- The outermost block. -/
theorem outline_fine {p : Plan} (h : l.PlanFine p) : Frame.Fine l p.outline := by
  constructor
  · intro hvirtual
    cases hvirtual
  · refine List.isChain_append.mpr ⟨apart_ofSteps h.grouped, .singleton _, ?_⟩
    intro i _ j hj _
    cases hj
    rfl
  · intro _
    rw [outline_source h, h.body, blockDecls_append, List.filter_append, ← Lowering.activeDecls_eq,
      ← h.decls]
    exact (List.append_nil _).symm

/-- What is known of the outline of a plan. -/
structure Shaped (l : Lowering) (o : Outline) : Prop where
  /-- It is the function's body, return included. -/
  source : o.source = l.func.body
  /-- Loops have the numbers -1, -2, … in the order of the text. -/
  numbers : o.loopIds = (List.range o.loopIds.length).map fun k : Nat => -((k : Int) + 1)
  distinct : o.loopIds.Nodup
  negative : ∀ id ∈ o.loopIds, id < 0
  /-- The branches of every conditional are indexed from 0; exactly the last has no test. -/
  branches : ∀ bs, .cond bs ∈ itemsAll o.items → InOrder bs
  /-- One item returns, which is the last one, and what it returns is a real. -/
  ret : ∃ v, o.returns = [v] ∧ o.items.getLast? = some (.ret v) ∧ l.func.varTy v = .real
  /-- It is no virtual block itself. -/
  proper : o.isVirtual = false
  /-- What is known of each block. -/
  frames : ∀ b ∈ o.frames, b.Fine l

end Outline

open Outline

/-- **The shape of an outline.** Whatever a plan is made from, in its outline: loops have the
numbers -1, -2, … in the order of the text; the branches of each conditional are indexed from
0, and exactly the last one has no test; the only return is the last item, and is of a real;
virtual blocks hold some statements without effect on derivatives and declare no active
variable, and none follows another directly; every other block lists the active variables that
its statements declare directly, in order. -/
theorem Lowering.plan_shaped {l : Lowering} {p : Plan} {s : State} (h : l.plan {} = .ok p s) :
    p.outline.Shaped l := by
  have hfine := plan_fine h
  have hitems : ∀ i ∈ itemsAll (ofSteps p.body.2), i.Fine l :=
    items_fine hfine.fine hfine.grouped
  have hall : itemsAll p.outline.items = itemsAll (ofSteps p.body.2) ++ [.ret p.ret] :=
    itemsAll_append _ _
  have hids : p.outline.loopIds = stepsLoopIds p.body.2 := by
    rw [Frame.loopIds, hall, List.filterMap_append, loopIds_ofSteps]
    exact List.append_nil _
  constructor
  · exact outline_source hfine
  · obtain ⟨n, hn⟩ := hfine.numbers
    rw [hids, hn, loopNumbers, List.length_map, List.length_range', List.range_eq_range']
  · rw [hids]
    exact hfine.ids
  · rw [hids]
    exact hfine.negative
  · intro bs hbs
    rw [hall, List.mem_append] at hbs
    rcases hbs with hbs | hbs
    · exact (hitems _ hbs).branches bs rfl
    · simp at hbs
  · have hnone : (itemsAll (ofSteps p.body.2)).filterMap Item.ret? = [] :=
      List.filterMap_eq_nil_iff.mpr fun i hi => (hitems i hi).ret
    refine ⟨p.ret, ?_, List.getLast?_concat, hfine.ret⟩
    rw [Frame.returns, hall, List.filterMap_append, hnone]
    rfl
  · rfl
  · intro b hb
    rw [Frame.frames, hall, List.mem_cons, List.flatMap_append, List.mem_append] at hb
    rcases hb with rfl | hb | hb
    · exact outline_fine hfine
    · obtain ⟨i, hi, hb⟩ := List.mem_flatMap.mp hb
      exact (hitems i hi).bodies b hb
    · simp [Item.bodies] at hb

/-- The outline for its first parameter. -/
def Func.nestedOutlined : Bool :=
  match Activity.analyze .nested (.param ⟨0⟩) true with
  | .error _ => false
  | .ok activity =>
    match (⟨.nested, activity, .builtin⟩ : Lowering).plan {} with
    | .error _ _ => false
    | .ok p _ => p.outline.frames.length == 12 && p.outline.loopIds == [-1, -2] &&
      p.outline.decls == [⟨2⟩]

theorem Func.nestedOutlined_eq : Func.nestedOutlined = true := by decide +kernel

/-- Twelve blocks, five of which are virtual. -/
theorem nested_plan_shaped : ∃ activity p s,
    (⟨.nested, activity, .builtin⟩ : Lowering).plan {} = .ok p s ∧
    p.outline.frames.length = 12 ∧ p.outline.loopIds = [-1, -2] ∧ p.outline.decls = [⟨2⟩] ∧
    p.outline.Shaped ⟨.nested, activity, .builtin⟩ := by
  have h := Func.nestedOutlined_eq
  unfold Func.nestedOutlined at h
  split at h
  · cases h
  rename_i activity hactivity
  split at h
  · cases h
  rename_i p s hp
  simp only [Bool.and_eq_true, beq_iff_eq] at h
  obtain ⟨⟨hframes, hids⟩, hdecls⟩ := h
  exact ⟨activity, p, s, hp, hframes, hids, hdecls, Lowering.plan_shaped hp⟩

end Backsweep
