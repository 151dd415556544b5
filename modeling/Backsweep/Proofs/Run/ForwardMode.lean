import Mathlib
import Backsweep.Proofs.Run.Coupling
import Backsweep.Proofs.Run.Dual
import Backsweep.Proofs.Run.Tangent

/-!
# Graphs and dual numbers

A machine that records a graph is coupled with one that runs on dual numbers: what a
slot holds has its tangent in the graph.

* `Graph.field?_setField`: the nodes of fields;
* `Graph.tangent_grows`: tangents of old nodes stay;
* `tangentCoupling`: the coupling of both machines;
* `tangent_op`, `tangent_load`, `tangent_store`: what is computed and stored has the
  same tangent on both.
-/

namespace Backsweep

/-! ## Records -/

theorem Heap.size_store {S : Type} {H H₁ : Heap S} {h : Nat} {field : String} {v : Value S}
    (hstore : H.store h field v = .ok H₁) : H₁.records.size = H.records.size := by
  obtain ⟨r, -, rfl⟩ := Heap.store_eq_ok.mp hstore
  exact Array.size_setIfInBounds

/-- A store fails for its record only. -/
theorem Heap.exists_store {S S' : Type} {H H₁ : Heap S} {H' : Heap S'} {h : Nat} {field : String}
    {v : Value S} (hsize : H'.records.size = H.records.size) (hstore : H.store h field v = .ok H₁)
    (v' : Value S') : ∃ H₁', H'.store h field v' = .ok H₁' := by
  obtain ⟨r, hr, -⟩ := Heap.store_eq_ok.mp hstore
  have hlt : h < H'.records.size := hsize ▸ (Array.getElem?_eq_some_iff.mp hr).1
  exact ⟨_, Heap.store_eq_ok.mpr ⟨_, Array.getElem?_eq_getElem hlt, rfl⟩⟩

/-! ## Graphs -/

namespace Graph

variable {R : Type}

theorem field?_setField (g : Graph R) (h : Nat) (field : String) (node : Option Nat) (h' : Nat)
    (other : String) : (g.setField h field node).field? h' other =
      if h' = h ∧ other = field then node else g.field? h' other := by
  have hfilter : (g.fields.filter (·.1 != (h, field))).lookup (h', other) =
      if h' = h ∧ other = field then none else g.fields.lookup (h', other) := by
    induction g.fields with
    | nil => simp
    | cons p fields ih =>
      obtain ⟨key, n⟩ := p
      by_cases hkey : key = (h, field)
      · subst hkey
        rw [List.filter_cons_of_neg (by simp), ih, List.lookup_cons]
        by_cases hat : h' = h ∧ other = field
        · simp [hat]
        · rw [if_neg hat, if_neg hat]
          have : ((h', other) == (h, field)) = false := by simpa using hat
          rw [this]
      · rw [List.filter_cons_of_pos (by simpa using hkey), List.lookup_cons, List.lookup_cons, ih]
        by_cases hat : h' = h ∧ other = field
        · obtain ⟨rfl, rfl⟩ := hat
          have : ((h', other) == key) = false := by simpa using Ne.symm hkey
          simp [this]
        · simp [hat]
  unfold setField field?
  cases node with
  | none => exact hfilter
  | some n =>
    dsimp only
    rw [List.lookup_cons]
    by_cases hat : h' = h ∧ other = field
    · obtain ⟨rfl, rfl⟩ := hat
      simp
    · have : ((h', other) == (h, field)) = false := by simpa using hat
      rw [this, if_neg hat]
      exact hfilter.trans (if_neg hat)

theorem field?_record (g : Graph R) (args : List (Slot R)) (ps : List R) (h : Nat)
    (field : String) : (g.record args ps).2.field? h field = g.field? h field := by
  unfold record
  split <;> rfl

variable [Field R]

/-- Tangents of old nodes stay when the graph grows. -/
theorem tangent_grows {g G : Graph R} (h : GraphGrows (some g) (some G)) {k : Nat}
    (hk : k < g.parents.size) : G.tangent k = g.tangent k := by
  induction k using Nat.strong_induction_on with
  | _ k ih =>
    have hparents : G.parents.getD k [] = g.parents.getD k [] := by
      obtain ⟨rest, hrest⟩ := h
      rw [Array.getD_eq_getD_getElem?, Array.getD_eq_getD_getElem?, ← Array.getElem?_toList,
        ← Array.getElem?_toList, ← hrest, List.getElem?_append_left (by simpa using hk)]
    rw [tangent, tangent, hparents]
    split
    · rfl
    · congr 1
      refine List.map_congr_left fun p _ => ?_
      split
      · rename_i hp
        rw [ih p.1 hp (Nat.lt_trans hp hk)]
      · rfl

end Graph

/-! ## The coupling -/

variable {R : Type} [Field R] [LawfulScalar R]

/-- The tangent of a slot in the graph, if there is one. -/
def Slot.tangentIn (g : Option (Graph R)) (s : Slot R) : R := g.elim 0 s.tangent

/-- The dual number that a slot stands for. -/
def Slot.dual (g : Option (Graph R)) (s : Slot R) : Slot (Dual R R) :=
  { value := s.value.map fun x => ⟨x, s.tangentIn g⟩ }

/-- The fields of the second heap have the tangents of their nodes. -/
structure Graph.Recorded (G : Graph R) (H : Heap R) (H' : Heap (Dual R R)) : Prop where
  ordered : G.Ordered
  fields : ∀ h field k, G.field? h field = some k → k < G.parents.size
  size : H'.records.size = H.records.size
  load : ∀ h field, H'.load h field = (H.load h field).map
    (Value.map fun x => ⟨x, ((G.field? h field).map G.tangent).getD 0⟩)

omit [LawfulScalar R] in
theorem Slot.tangentIn_plain (g : Option (Graph R)) (value : Value R) :
    Slot.tangentIn g { value } = 0 := by
  cases g <;> rfl

/-- A machine with a graph, and a machine on dual numbers. -/
def tangentCoupling (R : Type) [Field R] [LawfulScalar R] : Coupling R (Dual R R) where
  slot := Slot.dual
  fits g s := ∀ G, g = some G → ∀ k, s.node = some k → k < G.parents.size
  shared g w w' := ∃ G, g = some G ∧ G.Recorded w.heap w'.heap
  toBool _ s := Operation.toBool_map _ s.value
  toInt _ s := Operation.toInt_map _ s.value
  toObj _ s := Operation.toObj_map _ s.value
  fits_plain _ _ _ _ _ hk := by cases hk
  const g c := by
    cases c with
    | real x =>
      exact congrArg (fun t => ({ value := .real ⟨Scalar.lit x, t⟩ } : Slot (Dual R R)))
        (Slot.tangentIn_plain g _)
    | int n => rfl
    | bool b => rfl

section
variable {G : Graph R} {g : Option (Graph R)}

omit [LawfulScalar R] in
theorem values_dual (ss : List (Slot R)) :
    (Slot.values (ss.map (Slot.dual g))).map (Value.map Dual.value) = Slot.values ss := by
  induction ss with
  | nil => rfl
  | cons s ss ih =>
    have hs : ((s.dual g).value).map Dual.value = s.value := by
      unfold Slot.dual
      cases s.value <;> rfl
    exact congrArg₂ List.cons hs ih

/-- What a bigger graph keeps of a slot. -/
theorem dual_grows {G' : Graph R} (hgrows : GraphGrows (some G) (some G')) {s : Slot R}
    (hs : (tangentCoupling R).fits (some G) s) :
    (tangentCoupling R).fits (some G') s ∧ s.dual (some G') = s.dual (some G) := by
  have hsize : G.parents.size ≤ G'.parents.size := by
    simpa using List.IsPrefix.length_le hgrows
  refine ⟨fun _ hG k hk => ?_, ?_⟩
  · cases hG
    exact Nat.lt_of_lt_of_le (hs G rfl k hk) hsize
  · have htangent : s.tangentIn (some G') = s.tangentIn (some G) := by
      change s.tangent G' = s.tangent G
      unfold Slot.tangent
      cases hk : s.node with
      | none => rfl
      | some k => exact Graph.tangent_grows hgrows (hs G rfl k hk)
    rw [Slot.dual, Slot.dual, htangent]

omit [LawfulScalar R] in
/-- Recording a node keeps what is said of the records. -/
theorem Graph.Recorded.record {H : Heap R} {H' : Heap (Dual R R)} (h : G.Recorded H H')
    {args : List (Slot R)} (ps : List R)
    (hargs : ∀ arg ∈ args, ∀ k, arg.node = some k → k < G.parents.size) :
    (G.record args ps).2.Recorded H H' := by
  obtain ⟨hordered, hsize, -⟩ := h.ordered.record ps hargs
  refine ⟨hordered, fun o field k hk => ?_, h.size, fun o field => ?_⟩
  · rw [Graph.field?_record] at hk
    exact Nat.lt_of_lt_of_le (h.fields o field k hk) hsize
  · have htangent : ((G.field? o field).map (G.record args ps).2.tangent).getD 0 =
        ((G.field? o field).map G.tangent).getD 0 := by
      cases hk : G.field? o field with
      | none => rfl
      | some k => exact Graph.tangent_grows (.record G args ps) (h.fields o field k hk)
    rw [Graph.field?_record, htangent]
    exact h.load o field

end

/-! ## Expressions and stores -/

section
variable {j : Job R} {k : Job (Dual R R)}

theorem Coupled.error_left {S S' α β : Type} [Scalar S] [Scalar S'] {C : Coupling S S'}
    {q : Machine S → α → β → Prop} (e : RunError) (m : Machine S)
    (r' : EStateM.Result RunError (Machine S') β) : Coupled C True q (.error e m) r' := by
  cases r' <;> trivial

/-- What is recorded has the tangent that the dual result has. -/
theorem record_coupled {m : Machine R} {n : Machine (Dual R R)} {ss : List (Slot R)}
    (hmn : (tangentCoupling R).machines m n) (hss : ∀ s ∈ ss, (tangentCoupling R).fits m.graph s)
    {r : R} {ps : List R} {n' : Machine (Dual R R)} {w : World R} {w' : World (Dual R R)}
    (hn' : n' = { n with world := w' }) (hw : w.heap = m.world.heap) (hw' : w'.heap = n.world.heap)
    {t : R} (ht : t = ((ss.zip ps).map fun p => p.2 * p.1.tangentIn m.graph).sum) :
    Coupled (tangentCoupling R) True (tangentCoupling R).slots
      ((Job.record ss ps >>= fun node => pure ({ value := .real r, node } : Slot R))
        { m with world := w })
      (.ok { value := .real ⟨r, t⟩ } n') := by
  obtain ⟨G, hG, hrec⟩ := hmn.shared
  have hfit (s : Slot R) (hs : s ∈ ss) (i : Nat) (hi : s.node = some i) : i < G.parents.size :=
    hss s hs G hG i hi
  have hgrows : GraphGrows (some G) (some (G.record ss ps).2) := .record G ss ps
  have hrec' := hrec.record ps hfit
  rw [bind_apply, Job.record_apply]
  simp only [hG]
  subst hn'
  refine ⟨⟨fun _ hG' i hi => ?_, ?_⟩, ?_⟩
  · cases hG'
    exact (hrec.ordered.record ps hfit).2.2 i hi
  · have htangent : ((ss.zip ps).map fun p => p.2 * p.1.tangentIn m.graph) =
        (ss.zip ps).map fun p => p.2 * p.1.tangent (G.record ss ps).2 := by
      refine List.map_congr_left fun p hp => ?_
      have hs := (List.of_mem_zip hp).1
      have hsame : p.1.tangent (G.record ss ps).2 = p.1.tangent G := by
        unfold Slot.tangent
        cases hk : p.1.node with
        | none => rfl
        | some i => exact Graph.tangent_grows hgrows (hfit p.1 hs i hk)
      rw [hG, hsame]
      rfl
    rw [ht, htangent, ← Graph.tangent_record hrec.ordered hrec'.ordered (.real r) (.refl _)]
    rfl
  · refine hmn.update (some (G.record ss ps).2) w w' (fun s hs => ?_) ⟨_, rfl, ?_⟩
    · rw [hG] at hs ⊢
      exact dual_grows hgrows hs
    · rw [hw, hw']
      exact hrec'

omit [LawfulScalar R] in
/-- The tangents of real slots are those of their values. -/
theorem tangents_real {g : Option (Graph R)} {ss : List (Slot R)} (ps : List R)
    (hreal : ∀ s ∈ ss, s.value.ty = .real) :
    ((Slot.values (ss.map (Slot.dual g))).zip ps).map (fun p => p.2 • p.1.tangent) =
      (ss.zip ps).map fun p => p.2 * p.1.tangentIn g := by
  induction ss generalizing ps with
  | nil => rfl
  | cons s ss ih =>
    cases ps with
    | nil => rfl
    | cons p ps =>
      have hs : (s.dual g).value.tangent = s.tangentIn g := by
        have hty := hreal s List.mem_cons_self
        unfold Slot.dual
        cases hv : s.value with
        | real x => rfl
        | int n => rw [hv] at hty; cases hty
        | bool b => rw [hv] at hty; cases hty
        | obj h => rw [hv] at hty; cases hty
      have hrest := ih ps fun s' hs' => hreal s' (List.mem_cons_of_mem s hs')
      exact congrArg₂ List.cons (congrArg (p • ·) hs) hrest

theorem tangent_op (op : Opcode) (args : List Var) :
    (tangentCoupling R).EvalInStep True j k (.op op args) := by
  intro m n hmn
  rw [Job.eval_op, Job.eval_op]
  refine (Coupling.readAll hmn args).bind fun ss ss' m' n' hss hmn' => ?_
  obtain ⟨G, hG, hrec⟩ := hmn'.shared
  obtain ⟨hfits, rfl⟩ := hss
  rw [Job.operate_apply, Job.operate_apply, hmn'.plain]
  have hvalues : (Slot.values (ss.map ((tangentCoupling R).slot m'.graph))).map
      (Value.map Dual.value) = Slot.values ss := values_dual ss
  cases heval : op.eval (Slot.values ss) with
  | error e => exact .error_left _ _ _
  | ok value =>
    have heval' := heval
    rw [← hvalues] at heval'
    cases hop : op.isDifferentiable with
    | false =>
      rw [Opcode.eval_constant hop heval']
      simp only [Bool.and_false, Bool.false_eq_true, if_false]
      refine ⟨⟨(tangentCoupling R).fits_plain _ _, ?_⟩, hmn'⟩
      change _ = Slot.dual m'.graph { value }
      rw [Slot.dual, Slot.tangentIn_plain]
    | true =>
      obtain ⟨xs, r, ps, hxs, rfl, hps, -⟩ := Opcode.eval_differentiable hop heval
      have hreal : ∀ s ∈ ss, s.value.ty = .real := by
        intro s hs
        have hvalue : s.value ∈ Slot.values ss := by
          rw [Slot.values_eq_map]
          exact List.mem_map_of_mem hs
        have hmem : s.value ∈ xs.map Value.real := hxs ▸ hvalue
        obtain ⟨x, -, hx⟩ := List.mem_map.mp hmem
        rw [← hx]
        rfl
      have hbind : (Value.real r).toReal.bind (op.partials (Slot.values ss)) = .ok ps := hps
      rw [Opcode.eval_dual hop heval' (by rw [hvalues]; exact hps)]
      simp only [hG, Option.isSome_some, Option.isSome_none, Bool.and_true, Bool.false_eq_true,
        if_true, if_false, hbind]
      exact record_coupled hmn' hfits rfl rfl rfl
        (by rw [hG]; exact congrArg List.sum (tangents_real ps hreal))

theorem tangent_load (obj : Var) (field : String) :
    (tangentCoupling R).EvalInStep True j k (.load obj field) := by
  intro m n hmn
  rw [Job.eval_load, Job.eval_load]
  refine (Coupling.readObj hmn obj).bind fun h h' m' n' hh hmn' => ?_
  obtain ⟨G, hG, hrec⟩ := hmn'.shared
  subst hh
  rw [Job.load_apply, Job.load_apply, hrec.load, hmn'.plain, hG]
  cases hload : m'.world.heap.load h' field with
  | error e => trivial
  | ok value =>
    refine ⟨⟨fun G' hG' k hk => ?_, ?_⟩, hmn'⟩
    · rw [hG] at hG'
      cases hG'
      exact hrec.fields h' field k hk
    · change _ = Slot.dual m'.graph _
      rw [hG]
      rfl

omit [LawfulScalar R] in
/-- Storing a slot keeps what is said of the records. -/
theorem Graph.Recorded.store {G : Graph R} {H H₁ : Heap R} {H' H₁' : Heap (Dual R R)}
    (h : G.Recorded H H') {o : Nat} {field : String} {s : Slot R}
    (hs : ∀ k, s.node = some k → k < G.parents.size) (hstore : H.store o field s.value = .ok H₁)
    (hstore' : H'.store o field (s.dual (some G)).value = .ok H₁') :
    (G.setField o field s.node).Recorded H₁ H₁' := by
  have hgrows : GraphGrows (some G) (some (G.setField o field s.node))  :=
    .setField (some G) o field s.node
  have htangent (k : Nat) (hk : k < G.parents.size) :
      (G.setField o field s.node).tangent k = G.tangent k := Graph.tangent_grows hgrows hk
  refine ⟨h.ordered.setField o field s.node, fun o' other k hk => ?_, ?_, fun o' other => ?_⟩
  · rw [Graph.field?_setField] at hk
    rw [Graph.parents_setField]
    split at hk
    · exact hs k hk
    · exact h.fields o' other k hk
  · rw [Heap.size_store hstore, Heap.size_store hstore', h.size]
  · rw [Heap.load_store hstore, Heap.load_store hstore', Graph.field?_setField]
    split
    · have hnode : (s.node.map (G.setField o field s.node).tangent).getD 0 =
          s.tangentIn (some G) := by
        cases hk : s.node with
        | none => simp [Slot.tangentIn, Slot.tangent, hk]
        | some k =>
          have hold := htangent k (hs k hk)
          rw [hk] at hold
          simpa [Slot.tangentIn, Slot.tangent, hk] using hold
      rw [hnode]
      rfl
    · rw [h.load o' other]
      cases hk : G.field? o' other with
      | none => rfl
      | some k => simp only [Option.map_some, htangent k (h.fields o' other k hk)]

theorem tangent_store (obj : Var) (field : String) (val : Var) :
    (tangentCoupling R).InStep True (j.exec (.store obj field val)) (k.exec (.store obj field val)) := by
  intro m n hmn
  rw [Job.exec_store, Job.exec_store]
  refine (Coupling.readObj hmn obj).bind fun h h' m' n' hh hmn' => ?_
  subst hh
  refine (Coupling.read hmn' val).bind fun s s' m₁ n₁ hs hmn₁ => ?_
  obtain ⟨G, hG, hrec⟩ := hmn₁.shared
  have hfit (i : Nat) (hi : s.node = some i) : i < G.parents.size := hs.1 G hG i hi
  have hslot : s' = s.dual (some G) := by rw [hs.2, hG]; rfl
  rw [bind_apply, bind_apply, Job.store_apply, Job.store_apply, hmn₁.plain, hG, hslot]
  cases hstore : m₁.world.heap.store h' field s.value with
  | error e => exact .error_left _ _ _
  | ok H₁ =>
    obtain ⟨H₁', hstore'⟩ := Heap.exists_store hrec.size hstore (s.dual (some G)).value
    rw [hstore']
    have hupdate := hmn₁.update (some (G.setField h' field s.node))
      { m₁.world with heap := H₁ } { n₁.world with heap := H₁' }
      (fun s₁ hs₁ => by
        rw [hG] at hs₁ ⊢
        exact dual_grows (.setField (some G) h' field s.node) hs₁)
      ⟨_, rfl, hrec.store hfit hstore hstore'⟩
    refine ⟨rfl, ?_⟩
    simpa [hmn₁.plain] using hupdate

end

end Backsweep
