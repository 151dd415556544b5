import Mathlib
import Backsweep.Proofs.Diff.Chain
import Backsweep.Proofs.Diff.Discipline
import Backsweep.Proofs.Run.Recording
import Backsweep.Proofs.Syntax.Typing

/-!
# Gradients and the reverse section

A gradient starts from a machine on whose seed the input alone depends. On such a
machine, the sum of adjoints times tangents is known at both ends of the reverse
section.

* `Machine.Seeded`: where a gradient starts, `Func.seeded_recording` by a parameter and
  `Func.seeded_property` by a property;
* `Job.gradient_eq_ok`: a gradient reads the tangent of the result;
* `Generation.pairs_start`: before the reverse section, the sum is the upstream
  derivative times the tangent of the result;
* `Generation.pairs_end`: behind it, the accumulator of the input holds the sum.
-/

namespace Backsweep

variable {i : Nat} {tape : Tape}

theorem builtin_calls : ¬∃ n ∈ Catalogue.builtin.nodes, n.Calls := by
  have hall : Catalogue.builtin.nodes.all (fun n => n.rules.all fun r =>
      r.func.body.all fun s => !s.isCall) = true := by
    decide +kernel
  rintro ⟨n, hn, r, hr, dst, decl, callee, args, node, hmem⟩
  have hrules := List.all_eq_true.mp (List.all_eq_true.mp hall n hn) r hr
  exact absurd (List.all_eq_true.mp hrules _ hmem) (by simp [Stmt.isCall])

/-! ## Gradients -/

section
variable {R : Type}
variable {args : List (Value R)} {G : Graph R} {slot : Slot R} {r : Gradient R}

theorem Wrt.seed_property {field : String} {H : Heap R} {slots : List (Slot R)}
    (h : (Wrt.property i field).seed args H = .ok (slots, G)) :
    ∃ o, args[i]? = some (.obj o) ∧ slots = args.map ({ value := · }) ∧
      G = Graph.seeded.setField o field (some Graph.seed) := by
  unfold Wrt.seed at h
  cases harg : args[i]? with
  | none => simp only [harg] at h; cases h
  | some arg =>
    simp only [harg] at h
    cases arg with
    | obj o =>
      obtain ⟨_, ho, h⟩ := except_bind_eq_ok.mp h
      cases ho
      obtain ⟨v, -, h⟩ := except_bind_eq_ok.mp h
      obtain ⟨_, -, h⟩ := except_bind_eq_ok.mp h
      cases h
      exact ⟨o, rfl, rfl, rfl⟩
    | _ => cases h

theorem Slot.values_ofValues (args : List (Value R)) :
    Slot.values (args.map ({ value := · })) = args := by
  rw [Slot.values_eq_map, List.map_map]
  exact List.map_id args

/-- The slots of the arguments have their values. -/
theorem Wrt.seed_values {wrt : Wrt} {H : Heap R} {slots : List (Slot R)}
    (h : wrt.seed args H = .ok (slots, G)) : Slot.values slots = args := by
  cases wrt with
  | param i =>
    obtain ⟨x, harg, rfl, -⟩ := Wrt.seed_param h
    obtain ⟨hi, hx⟩ := List.getElem?_eq_some_iff.mp harg
    rw [seedArg, Slot.values_eq_map, List.map_set, ← Slot.values_eq_map, Slot.values_ofValues, ← hx]
    exact List.set_getElem_self hi
  | property i field =>
    obtain ⟨o, -, rfl, -⟩ := Wrt.seed_property h
    exact Slot.values_ofValues args

/-- A machine of the function that records a graph from `G` on. -/
def Func.recordingOn (f : Func) (world : World R) (G : Graph R) : Machine R :=
  { Machine.new f world with graph := some G }

theorem Func.var_recordingOn (f : Func) (world : World R) (G : Graph R) (v : Var) :
    (f.recordingOn world G).var v = none :=
  f.var_recording world v

/-- The machine records a graph, on whose seed only the input depends, and has nothing on
its tapes. A property is accessed through the parameter only. -/
structure Machine.Seeded (m : Machine R) (f : Func) (input : ActiveInput) : Prop where
  graph : ∃ G, m.graph = some G ∧ G.Ordered ∧
    ∀ p ∈ G.fields, (∃ o name, input = .property o name) ∧ p.2 < G.parents.size
  empty : ∀ t, m.stack t = []
  only : ∀ w s k, m.var w = some s → s.node = some k → input = .param w ∧ k = Graph.seed
  seed : ∀ v, input = .param v → ∃ s, m.var v = some s ∧ s.node = some Graph.seed
  anchored : ∀ o name, input = .property o name →
    ∃ (K : Enclosure f) (h : Nat), K.Sole o name ∧ Anchored K h o name m

theorem Machine.Seeded.setVar {m : Machine R} {f : Func} {input : ActiveInput}
    (h : m.Seeded f input) {w : Var} (hw : w ≠ input.var) (hslot : slot.node = none)
    (hobj : ∀ k, slot.value ≠ .obj k) : (m.setVar w slot).Seeded f input := by
  refine ⟨h.graph, h.empty, fun u s k hs hk => ?_, fun v hv => ?_, fun o name ho => ?_⟩
  · rw [Machine.var_setVar] at hs
    split at hs
    · cases hs
      rw [hslot] at hk
      cases hk
    · exact h.only u s k hs hk
  · subst hv
    obtain ⟨s, hs, hk⟩ := h.seed v rfl
    exact ⟨s, (Machine.var_setVar_ne _ _ _ _ hw).trans hs, hk⟩
  · subst ho
    obtain ⟨K, k, hsole, hm⟩ := h.anchored o name rfl
    obtain ⟨s, hs, hk⟩ := hm.root
    exact ⟨K, k, hsole, hm.fields, ⟨s, (Machine.var_setVar_ne _ _ _ _ hw).trans hs, hk⟩,
      hm.holds.setVar fun hv => absurd hv (hobj k)⟩

theorem Func.seeded_recording (f g : Func) (world : World R) {params : List Var}
    (hnodup : params.Nodup) (hsize : ∀ v ∈ params, v.idx < g.vars.size) {v : Var} {arg : Value R}
    (hv : params[i]? = some v) (harg : args[i]? = some arg) :
    ((g.recordingOn world Graph.seeded).enter params (seedArg args i arg)).Seeded f (.param v) := by
  have hi : i < args.length := (List.getElem?_eq_some_iff.mp harg).1
  have hkeeps := (g.recordingOn world Graph.seeded).enter_keeps params (seedArg args i arg)
  refine ⟨⟨_, hkeeps.2.2.1, Graph.ordered_seeded, fun p hp => ?_⟩, fun t => ?_,
    fun w s k hs hk => ?_, fun w hw => ?_, fun o name ho => ?_⟩
  · cases hp
  · rw [Machine.stack_enter]
    rfl
  · rcases Machine.enter_cases hs with hs | hs
    · rw [g.var_recordingOn] at hs
      cases hs
    · obtain ⟨hw, hk⟩ := mem_zip_seedArg hs hk
      rw [hv] at hw
      cases hw
      exact ⟨rfl, hk⟩
  · cases hw
    have hslot : (seedArg args i arg)[i]? = some { value := arg, node := some Graph.seed } := by
      rw [seedArg, List.getElem?_set_self (by simpa using hi)]
    refine ⟨_, Machine.enter_param hnodup (fun w hw => ?_) hv hslot, rfl⟩
    simpa [Func.recordingOn, Machine.new] using hsize w hw
  · cases ho

theorem Graph.fields_seeded (h : Nat) (name : String) :
    (Graph.seeded.setField h name (some Graph.seed) : Graph R).fields = [((h, name), Graph.seed)] :=
  rfl

/-- A gradient by a property starts with its record where the arguments and the records
hold it. -/
theorem Func.seeded_property (f g : Func) (world : World R) (hnodup : f.params.Nodup)
    (hsize : ∀ v ∈ f.params, v.idx < g.vars.size) {k : Nat} {o : Var} {name : String}
    (ho : f.params[i]? = some o) (harg : args[i]? = some (.obj k))
    (hsole : (f.holders args world.heap k).Sole o name) :
    ((g.recordingOn world (Graph.seeded.setField k name (some Graph.seed))).enter f.params
      (args.map ({ value := · }))).Seeded f (.property o name) := by
  have hkeeps := (g.recordingOn world
    (Graph.seeded.setField k name (some Graph.seed))).enter_keeps f.params (args.map ({ value := · }))
  have hslot : (args.map fun value => ({ value } : Slot R))[i]? = some { value := .obj k } := by
    rw [List.getElem?_map, harg]
    rfl
  refine ⟨⟨_, hkeeps.2.2.1, Graph.ordered_seeded.setField k name _, fun p hp => ?_⟩, fun t => ?_,
    fun w s n hs hn => ?_, fun v hv => ?_, fun o' name' hinput => ?_⟩
  · rw [Graph.fields_seeded, List.mem_singleton] at hp
    subst hp
    exact ⟨⟨o, name, rfl⟩, Graph.ordered_seeded.pos⟩
  · rw [Machine.stack_enter]
    rfl
  · rcases Machine.enter_cases hs with hs | hs
    · rw [g.var_recordingOn] at hs
      cases hs
    · obtain ⟨value, -, rfl⟩ := List.mem_map.mp (List.of_mem_zip hs).2
      cases hn
  · cases hv
  · cases hinput
    refine ⟨_, k, hsole, ?_, ⟨_, Machine.enter_param hnodup (fun w hw => ?_) ho hslot, rfl⟩,
      Enclosure.Holds.enter f k ?_ rfl (g.var_recordingOn world _)⟩
    · rw [hkeeps.2.2.1]
      rfl
    · simpa [Func.recordingOn, Machine.new] using hsize w hw
    · exact Slot.values_ofValues args

variable [Field R]

theorem Machine.Seeded.tangent {m : Machine R} {f : Func} {input : ActiveInput}
    (h : m.Seeded f input) (G : Graph R) (w : Var) :
    m.tangent G w = if input = .param w then 1 else 0 := by
  split
  · rename_i hw
    obtain ⟨s, hs, hk⟩ := h.seed w hw
    rw [Machine.tangent_some hs, Slot.tangent, hk]
    exact G.tangent_seed
  · rename_i hw
    refine Machine.Nodeless.tangent fun s hs => ?_
    cases hk : s.node with
    | none => rfl
    | some k => exact absurd (h.only w s k hs hk).1 hw

variable [LawfulScalar R]

omit [Field R] [LawfulScalar R] in
/-- A gradient runs the function on a machine that records, and reads the derivative of
the result. -/
theorem Job.gradient_eq_ok [Scalar R] {j : Job R} {wrt : Wrt} {world w : World R}
    (h : j.gradient args wrt world = .ok r w) :
    ∃ slots G vals m, wrt.seed args world.heap = .ok (slots, G) ∧
      j.runSlots slots (j.func.recordingOn world G) = .ok vals m ∧
      Gradient.ofResult vals m.graph = .ok r ∧ w = m.world := by
  unfold Job.gradient at h
  cases hseed : wrt.seed args world.heap with
  | error e =>
    rw [hseed] at h
    cases h
  | ok p =>
    obtain ⟨slots, G⟩ := p
    simp only [hseed] at h
    cases hrun : j.runSlots slots { Machine.new j.func world with graph := some G } with
    | error e m => rw [hrun] at h; cases h
    | ok vals m =>
      simp only [hrun] at h
      cases hresult : Gradient.ofResult vals m.graph with
      | error e => simp only [hresult] at h; cases h
      | ok r' =>
        simp only [hresult] at h
        cases h
        exact ⟨slots, G, vals, m, rfl, hrun, hresult, rfl⟩

omit [Field R] [LawfulScalar R] in
theorem Gradient.ofResult_value [Scalar R] {graph : Option (Graph R)}
    (h : Gradient.ofResult [slot] graph = .ok r) : slot.value = .real r.value := by
  obtain ⟨vals, hvals⟩ := (Gradient.ofResult_iff [slot] graph r.value).mp ⟨r.derivative, h⟩
  exact (List.cons.inj hvals).1

theorem Gradient.ofResult_derivative (hG : G.Ordered)
    (h : Gradient.ofResult [slot] (some G) = .ok r) : r.derivative = slot.tangent G := by
  obtain ⟨x, -, h⟩ := except_bind_eq_ok.mp h
  cases hk : slot.node with
  | none =>
    rw [hk] at h
    cases h
    exact (LawfulScalar.lit_zero).trans (Slot.tangent_none hk).symm
  | some k =>
    rw [hk] at h
    cases h
    refine (Graph.derivative_eq_tangent hG k).trans ?_
    rw [Slot.tangent, hk]
    rfl

end

/-! ## Both ends of the reverse section -/

namespace Generation

variable {c : Catalogue} {f g : Func} {input : ActiveInput} {withTapes : Bool} {mode : ReturnMode}
  {d : Generation c f input withTapes mode g}

theorem elementary (hc : c.Sound) (hf : f.Tabled) (ht : d.OneTape tape) (hv : input.var ∈ f.params)
    (hcalls : f.CallsNothing) : (d.setting hc hf ht).Elementary where
  input := by
    change d.activity.input.var ∈ f.params
    rwa [d.activity_input]
  calls := hcalls.not_mem

/-- The input has the accumulator that is returned. -/
theorem accs_input {v : Var} (d : Generation c f (.param v) withTapes mode g) (hv : v ∈ f.params) :
    d.accs.find? v = some d.acc := by
  have hnodup := List.nodup_append.mp (f.nodup_of_isValid d.valid)
  have hbody := d.source_eq
  rw [d.accs_eq, find?_sectionNew_of_notMem]
  · simp [ActiveInput.ownAccs, Accumulators.find?]
  · intro hmem
    rw [d.fine.decls, Lowering.mem_activeDecls] at hmem
    have hdecl : v ∈ blockDecls f.body := by
      rw [hbody, blockDecls_append]
      exact List.mem_append_left _ hmem.1
    exact hnodup.2.2 v hv v (blockDecls_subset _ hdecl) rfl

/-- The result is in scope at the end of the body. -/
theorem ret_mem (d : Generation c f input withTapes mode g) :
    d.plan.ret ∈ blockScope f.params.toFinset (stepsSource d.plan.body.2) := by
  have hscoped := f.scoped_of_isValid d.valid
  have hbody := d.source_eq
  rw [hbody, blockScoped_append] at hscoped
  exact hscoped.2.1 _ (List.mem_singleton_self _)

section
variable {R : Type}

/-- A gradient starts with nothing but its input in the graph. -/
theorem traced_of_seeded (hc : c.Sound) (hf : f.Tabled) (ht : d.OneTape tape)
    (hv : input.var ∈ f.params) {m : Machine R} (hm : m.Seeded f input) :
    Traced (d.setting hc hf ht) m := by
  have hinput : (d.setting hc hf ht).lo.activity.input = input := d.activity_input
  have hactive (w : Var) (hw : input = .param w) : d.lo.isActive w = true := by
    subst hw
    refine d.closed.start.vars w ?_
    simp only [Analysis.start, Marks.isActive_mark]
    rw [if_pos]
    exact ⟨trivial, by simpa using hf.params w hv⟩
  obtain ⟨G, hG, hordered, hfields⟩ := hm.graph
  refine ⟨⟨⟨G, hG, hordered, fun p hp => ?_, fun w s k hs hk => ?_, fun t s hs => ?_⟩,
    fun w s k hs hk => ?_, fun t s hs => ?_⟩, fun o name ho => ?_⟩
  · obtain ⟨⟨o, name, ho⟩, hlt⟩ := hfields p hp
    exact ⟨⟨o, name, hinput.trans ho⟩, hlt⟩
  · rw [(hm.only w s k hs hk).2]
    exact hordered.pos
  · rw [hm.empty t] at hs
    cases hs
  · exact hactive w (hm.only w s k hs hk).1
  · rw [hm.empty t] at hs
    cases hs
  · exact hm.anchored o name (hinput.symm.trans ho)

theorem carried_of_empty (hc : c.Sound) (hf : f.Tabled) (ht : d.OneTape tape) {m : Machine R}
    (hm : ∀ t, m.stack t = []) : (d.setting hc hf ht).carried m = [] := by
  unfold Setting.carried
  split
  · exact hm _
  · rfl

variable [Field R] [LawfulScalar R] {j : Job R} {m m₁ n n₁ : Machine R} {G : Graph R} {u : R}

/-- What has no accumulator behind the forward section does not depend on the seed. -/
theorem tangent_of_find_none (hc : c.Sound) (hf : f.Tabled) (ht : d.OneTape tape)
    (hv : input.var ∈ f.params) (hcalls : f.CallsNothing) (hm : m.Seeded f input)
    (hfwd : j.execBlock d.forward m = .ok .next m₁) {w : Var}
    (hw : w ∈ blockScope f.params.toFinset (stepsSource d.plan.body.2))
    (hnone : d.accs.find? w = none) : m₁.tangent G w = 0 := by
  have hS := elementary hc hf ht hv hcalls
  rw [blockScope, Finset.mem_union, List.mem_toFinset, List.mem_toFinset] at hw
  rcases hw with hw | hw
  · -- parameters are never assigned, and the input has an accumulator
    have hne : input ≠ .param w := by
      rintro rfl
      rw [d.accs_input hv] at hnone
      cases hnone
    have hframe : BlockFrame (· = w) (fun _ => False) m m₁ := by
      refine (j.execBlock_frame (fun x decl e hx ha => ?_) (fun _ h => h.elim) m).of_ok hfwd
      subst hx
      rcases forward_isForward hc hf ht _ ha with ha | ⟨_, h⟩ | ⟨_, h⟩
      · exact (f.scoped_of_isValid d.valid).not_defined (List.mem_toFinset.mpr hw)
          (hf.immutable _ hw) decl e ha
      · cases h
      · cases h
    rw [Machine.tangent_congr (hframe.vars w rfl), hm.tangent, if_neg hne]
  · have hinactive : d.lo.isActive w = false := by
      cases hact : d.lo.isActive w with
      | false => rfl
      | true =>
        have hmem : w ∈ d.plan.body.1 := by
          rw [d.fine.decls, Lowering.mem_activeDecls]
          exact ⟨hw, hact⟩
        obtain ⟨a, ha, -⟩ := find?_sectionNew (ActiveInput.ownAccs d.acc input)
          (f.vars.size + 2) hmem
        rw [d.accs_eq, ha] at hnone
        cases hnone
    have htraced := (traced_of_seeded hc hf ht hv hm).forward hS (forward_isForward hc hf ht) hfwd
    exact (htraced.nodeless (S := d.setting hc hf ht) hinactive).tangent

/-- Where the reverse section starts, the result alone has an adjoint. -/
theorem pairs_start (hc : c.Sound) (hf : f.Tabled) (ht : d.OneTape tape) (hv : input.var ∈ f.params)
    (hcalls : f.CallsNothing) (hzero : Scalar.lit d.zero = (0 : R)) (hm : m.Seeded f input)
    (hfwd : j.execBlock d.forward m = .ok .next m₁) (hG : m₁.graph = some G)
    (hstarted : d.Started { value := .real u } n n₁) (hgraph : n.graph = none)
    (hadjoints : n.stack d.level.adjoints = []) :
    Pairs (d.setting hc hf ht) G (u * m₁.tangent G d.plan.ret)
      (blockScope f.params.toFinset (stepsSource d.plan.body.2)) d.accs m₁ n₁ := by
  have hret := d.ret_mem
  refine ⟨fun w => if w = d.plan.ret ∧ (d.accs.find? w).isSome then u else 0, [], 0, ?_, ?_,
    ⟨fun w hw a ha => ?_, fun w hw ha => ?_, fun a ha => ?_, fun _ => rfl⟩, ?_, fun w hw => ?_, ?_⟩
  · rw [hG]
    exact .refl _
  · rw [hstarted.graph, hgraph]
  · rw [Machine.Real, hstarted.accs w a ha, Option.map_some, rootSlot, ha]
    split
    · rename_i hw
      simp [hw]
    · rename_i hw
      simp [hw, Value.ofConst, hzero]
  · simp [ha]
  · rw [Machine.Real, hstarted.property a ha, Option.map_some]
    exact congrArg (fun x => some (Value.real x)) hzero
  · change (n₁.stack d.level.adjoints).map Slot.value = _
    rw [hstarted.stack, hadjoints]
    rfl
  · refine if_neg fun h => ?_
    rcases hw with hunread | hty
    · exact hunread.2 h.1
    · exact hty (h.1 ▸ d.fine.ret)
  · have hcarriedSum : (d.setting hc hf ht).carriedSum G m₁ [] = 0 := rfl
    rw [hcarriedSum, add_zero, add_zero, Finset.sum_eq_single d.plan.ret]
    · cases hfind : d.accs.find? d.plan.ret with
      | none =>
        rw [tangent_of_find_none hc hf ht hv hcalls hm hfwd hret hfind, mul_zero, mul_zero]
      | some a => simp
    · intro w _ hne
      rw [if_neg fun h => hne h.1, zero_mul]
    · exact fun h => absurd hret h

omit [LawfulScalar R] in
/-- Where the reverse section ends, the accumulator of the input holds the sum. -/
theorem pairs_end {hc : c.Sound} {hf : f.Tabled} {ht : d.OneTape tape} (hv : input.var ∈ f.params)
    (hm : m.Seeded f input) {total : R}
    (h : Pairs (d.setting hc hf ht) G total f.params.toFinset d.accs m n) : n.Real d.acc total := by
  obtain ⟨A, B, P, h⟩ := h
  have hcarried : (d.setting hc hf ht).carriedSum G m B = 0 := by
    rw [Setting.carriedSum, carried_of_empty hc hf ht hm.empty, List.zipWith_nil_right]
    rfl
  have htotal := h.total
  have hproperty := d.accs_property
  cases input with
  | param v =>
    have hsum : ∑ w ∈ f.params.toFinset, A w * m.tangent G w = A v := by
      rw [Finset.sum_eq_single v]
      · rw [hm.tangent, if_pos rfl, mul_one]
      · intro w _ hne
        rw [hm.tangent, if_neg (fun h => hne (ActiveInput.param.inj h).symm), mul_zero]
      · exact fun hmem => absurd (List.mem_toFinset.mpr hv) hmem
    rw [hsum, hcarried, h.held.unused hproperty, add_zero, add_zero] at htotal
    rw [← htotal]
    exact h.held.real v (List.mem_toFinset.mpr hv) _ (d.accs_input hv)
  | property o name =>
    have hsum : ∑ w ∈ f.params.toFinset, A w * m.tangent G w = 0 := by
      refine Finset.sum_eq_zero fun w _ => ?_
      rw [hm.tangent, if_neg (by simp), mul_zero]
    rw [hsum, hcarried, zero_add, zero_add] at htotal
    rw [← htotal]
    exact h.held.property _ hproperty

end

end Generation

end Backsweep
