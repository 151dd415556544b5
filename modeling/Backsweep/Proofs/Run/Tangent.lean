import Mathlib
import Backsweep.Proofs.Run.Frame
import Backsweep.Proofs.Run.Lawful

/-!
# Tangents of a graph

The derivative of a node by the seed, computed from old nodes to young ones. The
sweep of a graph goes the other way and sums the same.

* `Graph.Ordered`: parents are older than their node;
* `Graph.tangent`: the derivative of a node by the seed;
* `Graph.derivative_eq_tangent`: it is what the sweep computes;
* `Graph.tangent_record`: the tangent of a recorded node.
-/

namespace Backsweep

variable {R : Type}
variable {g G : Graph R} {args : List (Slot R)} {ps : List R}

namespace Graph

/-- The first node is the seed, and the parents of all nodes are older. -/
structure Ordered (g : Graph R) : Prop where
  seed : g.parents.getD seed [] = []
  pos : 0 < g.parents.size
  older : ∀ k, ∀ p ∈ g.parents.getD k [], p.1 < k

theorem ordered_seeded : (seeded : Graph R).Ordered := by
  refine ⟨rfl, by simp [seeded], fun k p hp => ?_⟩
  cases k with
  | zero => simp [seeded] at hp
  | succ k => simp [seeded] at hp

theorem parents_setField (g : Graph R) (h : Nat) (field : String) (node : Option Nat) :
    (g.setField h field node).parents = g.parents := by
  cases node <;> rfl

theorem Ordered.setField (hg : g.Ordered) (h : Nat) (field : String) (node : Option Nat) :
    (g.setField h field node).Ordered := by
  obtain ⟨hseed, hpos, holder⟩ := hg
  constructor <;> rw [parents_setField] <;> assumption

/-! ## Records -/

/-- The parents that a node computed from `args` has. -/
def parentsOf (args : List (Slot R)) (ps : List R) : List (Nat × R) :=
  (args.zip ps).filterMap fun (arg, d) => arg.node.map (·, d)

theorem record_nil (h : parentsOf args ps = []) : g.record args ps = (none, g) := by
  unfold parentsOf at h
  rw [record, h]

theorem record_cons (h : parentsOf args ps ≠ []) :
    g.record args ps =
      (some g.parents.size, { g with parents := g.parents.push (parentsOf args ps) }) := by
  unfold record
  split
  · rename_i hnil
    exact absurd hnil h
  · rfl

theorem mem_parentsOf {p : Nat × R} (h : p ∈ parentsOf args ps) :
    ∃ arg ∈ args, arg.node = some p.1 := by
  obtain ⟨⟨arg, d⟩, hmem, hp⟩ := List.mem_filterMap.mp h
  obtain ⟨k, hk, rfl⟩ := Option.map_eq_some_iff.mp hp
  exact ⟨arg, (List.of_mem_zip hmem).1, hk⟩

/-- Recording keeps the order, and the new node is in the graph. -/
theorem Ordered.record (h : g.Ordered) (ps : List R)
    (hargs : ∀ arg ∈ args, ∀ k, arg.node = some k → k < g.parents.size) :
    (g.record args ps).2.Ordered ∧ g.parents.size ≤ (g.record args ps).2.parents.size ∧
      ∀ k, (g.record args ps).1 = some k → k < (g.record args ps).2.parents.size := by
  by_cases hnil : parentsOf args ps = []
  · rw [record_nil hnil]
    exact ⟨h, Nat.le_refl _, by simp⟩
  rw [record_cons hnil]
  refine ⟨⟨?_, by simp, fun k p hp => ?_⟩, by simp, by simp⟩
  · have hpos := h.pos
    have hseed := h.seed
    simp only [Array.getD_eq_getD_getElem?, Array.getElem?_push] at hseed ⊢
    rw [if_neg (by unfold Graph.seed; omega)]
    exact hseed
  · simp only [Array.getD_eq_getD_getElem?, Array.getElem?_push] at hp
    split at hp
    · rename_i hk
      subst hk
      obtain ⟨arg, harg, hnode⟩ := mem_parentsOf hp
      exact hargs arg harg _ hnode
    · exact h.older k p (by rwa [Array.getD_eq_getD_getElem?])

theorem size_contribute [Scalar R] (a : R) (adjoints : Array R) (p : Nat × R) :
    (contribute a adjoints p).size = adjoints.size := by
  simp [contribute]

variable [Field R]

/-! ## Tangents -/

/-- The derivative of a node by the seed. -/
def tangent (g : Graph R) (k : Nat) : R :=
  if k = seed then 1
  else ((g.parents.getD k []).map fun p => if p.1 < k then p.2 * tangent g p.1 else 0).sum
termination_by k

theorem tangent_seed (g : Graph R) : g.tangent seed = 1 := by
  rw [tangent, if_pos rfl]

theorem tangent_eq (h : g.Ordered) {k : Nat} (hk : k ≠ seed) :
    g.tangent k = ((g.parents.getD k []).map fun p => p.2 * g.tangent p.1).sum := by
  rw [tangent, if_neg hk]
  congr 1
  apply List.map_congr_left
  intro p hp
  rw [if_pos (h.older k p hp)]

/-! ## Sweeps -/

/-- The sum of adjoints times tangents, over all nodes below `n`. -/
def pairing (g : Graph R) (adjoints : Array R) (n : Nat) : R :=
  ∑ k ∈ Finset.range n, adjoints.getD k 0 * g.tangent k

variable [LawfulScalar R]

theorem getD_contribute (a : R) (adjoints : Array R) {p : Nat × R} (hp : p.1 < adjoints.size)
    (k : Nat) : (contribute a adjoints p).getD k 0 =
      adjoints.getD k 0 + if k = p.1 then a * p.2 else 0 := by
  unfold contribute
  simp only [Array.getD_eq_getD_getElem?, Array.getElem?_modify, LawfulScalar.add_eq,
    LawfulScalar.mul_eq]
  by_cases hk : k = p.1
  · subst hk
    simp [hp]
  · simp [hk, Ne.symm hk]

/-- Handing on `a` to parents adds `a` times the tangents through them. -/
theorem contribute_all (g : Graph R) (a : R) (ps : List (Nat × R)) {adjoints : Array R} {n : Nat}
    (hn : n ≤ adjoints.size) (hps : ∀ p ∈ ps, p.1 < n) :
    (ps.foldl (contribute a) adjoints).size = adjoints.size ∧
      g.pairing (ps.foldl (contribute a) adjoints) n =
        g.pairing adjoints n + a * (ps.map fun p => p.2 * g.tangent p.1).sum := by
  induction ps generalizing adjoints with
  | nil => simp
  | cons p ps ih =>
    have hp := hps p (by simp)
    obtain ⟨hsize, hpair⟩ := ih (show n ≤ (contribute a adjoints p).size by
      rw [size_contribute]; exact hn) fun q hq => hps q (by simp [hq])
    refine ⟨hsize.trans (size_contribute a adjoints p), hpair.trans ?_⟩
    have hone : g.pairing (contribute a adjoints p) n =
        g.pairing adjoints n + a * (p.2 * g.tangent p.1) := by
      unfold pairing
      simp only [getD_contribute a adjoints (Nat.lt_of_lt_of_le hp hn), add_mul, ite_mul, zero_mul]
      rw [Finset.sum_add_distrib, Finset.sum_ite_eq' (Finset.range n) p.1,
        if_pos (Finset.mem_range.mpr hp), mul_assoc]
    rw [hone, List.map_cons, List.sum_cons]
    ring

theorem sweepNode_eq (g : Graph R) (adjoints : Array R) (k : Nat) :
    g.sweepNode adjoints k = if Scalar.isZero (adjoints.getD k 0) then adjoints
      else (g.parents.getD k []).foldl (contribute (adjoints.getD k 0)) adjoints := by
  rw [← LawfulScalar.lit_zero]
  rfl

/-- Visiting a node moves what it has to older nodes. -/
theorem sweepNode_spec (h : g.Ordered) {adjoints : Array R} {k : Nat} (hk : k ≠ seed)
    (hsize : k < adjoints.size) :
    (g.sweepNode adjoints k).size = adjoints.size ∧
      g.pairing (g.sweepNode adjoints k) k = g.pairing adjoints (k + 1) := by
  have hsplit : g.pairing adjoints (k + 1) =
      g.pairing adjoints k + adjoints.getD k 0 * g.tangent k := by
    unfold pairing
    rw [Finset.sum_range_succ]
  rw [sweepNode_eq]
  by_cases hzero : Scalar.isZero (adjoints.getD k 0) = true
  · rw [if_pos hzero, hsplit, (LawfulScalar.isZero_iff _).mp hzero, zero_mul, add_zero]
    exact ⟨rfl, rfl⟩
  · rw [if_neg hzero]
    obtain ⟨hs, hp⟩ := contribute_all g (adjoints.getD k 0) (g.parents.getD k [])
      (Nat.le_of_lt hsize) (h.older k)
    rw [hsplit, g.tangent_eq h hk]
    exact ⟨hs, hp⟩

theorem sweep_spec (h : g.Ordered) {k : Nat} {adjoints : Array R} (hsize : k < adjoints.size) :
    (g.sweep k adjoints).getD seed 0 = g.pairing adjoints (k + 1) := by
  induction k generalizing adjoints with
  | zero =>
    have hnone : g.sweepNode adjoints 0 = adjoints := by
      have hseed : g.parents.getD 0 [] = [] := h.seed
      rw [sweepNode_eq, hseed, List.foldl_nil, ite_self]
    have htangent : g.tangent 0 = 1 := g.tangent_seed
    rw [sweep, hnone, pairing, Finset.sum_range_one, htangent, mul_one]
    rfl
  | succ k ih =>
    obtain ⟨hs, hp⟩ := sweepNode_spec h (Nat.succ_ne_zero k) hsize
    rw [sweep, ih (by rw [hs]; omega), hp]

/-- **The sweep of a graph computes the tangent of its output.** -/
theorem derivative_eq_tangent (h : g.Ordered) (output : Nat) :
    g.derivative output seed = g.tangent output := by
  unfold derivative
  simp only [LawfulScalar.lit_zero, LawfulScalar.lit_one]
  rw [sweep_spec h (by simp)]
  unfold pairing
  rw [Finset.sum_eq_single output]
  · simp
  · intro k hk hne
    have hget : ((Array.replicate (output + 1) (0 : R)).setIfInBounds output 1).getD k 0 = 0 := by
      simp only [Array.getD_eq_getD_getElem?, Array.getElem?_setIfInBounds, Ne.symm hne, ite_false,
        Array.getElem?_replicate]
      split <;> rfl
    rw [hget, zero_mul]
  · simp

end Graph

/-! ## Slots -/

theorem Slot.values_eq_map (slots : List (Slot R)) : Slot.values slots = slots.map Slot.value := by
  induction slots with
  | nil => rfl
  | cons slot slots ih => rw [Slot.values, ih, List.map_cons]

section
variable [Field R]

/-- The derivative of what a slot holds by the seed. -/
def Slot.tangent (G : Graph R) (s : Slot R) : R := (s.node.map G.tangent).getD 0

theorem Slot.tangent_none {s : Slot R} (h : s.node = none) : s.tangent G = 0 := by
  rw [tangent, h]
  rfl

/-- The derivative of what a variable holds by the seed. -/
def Machine.tangent (G : Graph R) (m : Machine R) (v : Var) : R :=
  ((m.var v).map (Slot.tangent G)).getD 0

theorem Machine.tangent_some {m : Machine R} {v : Var} {s : Slot R} (h : m.var v = some s) :
    m.tangent G v = s.tangent G := by
  rw [tangent, h]
  rfl

theorem Machine.tangent_congr {m m' : Machine R} {v : Var} (h : m'.var v = m.var v) :
    m'.tangent G v = m.tangent G v := by
  rw [tangent, h, tangent]

theorem Graph.sum_parentsOf (G : Graph R) (args : List (Slot R)) (ps : List R) :
    ((parentsOf args ps).map fun p => p.2 * G.tangent p.1).sum =
      ((args.zip ps).map fun p => p.2 * p.1.tangent G).sum := by
  induction args generalizing ps with
  | nil => rfl
  | cons arg args ih =>
    cases ps with
    | nil => rfl
    | cons d ps =>
      rw [List.zip_cons_cons, List.map_cons, List.sum_cons, ← ih ps]
      cases hnode : arg.node with
      | none => simp [parentsOf, hnode, Slot.tangent_none]
      | some k => simp [parentsOf, hnode, Slot.tangent]

/-- **The tangent of a recorded node is the sum over what it was computed from.** -/
theorem Graph.tangent_record (h : g.Ordered) (hG : G.Ordered) (value : Value R)
    (hgrows : GraphGrows (some (g.record args ps).2) (some G)) :
    Slot.tangent G { value, node := (g.record args ps).1 } =
      ((args.zip ps).map fun p => p.2 * p.1.tangent G).sum := by
  rw [← G.sum_parentsOf]
  by_cases hnil : parentsOf args ps = []
  · rw [record_nil hnil, hnil]
    rfl
  rw [record_cons hnil] at hgrows ⊢
  have hget : G.parents.getD g.parents.size [] = parentsOf args ps := by
    obtain ⟨rest, hrest⟩ := hgrows
    rw [Array.getD_eq_getD_getElem?, ← Array.getElem?_toList, ← hrest]
    simp
  have hseed : g.parents.size ≠ seed := Nat.pos_iff_ne_zero.mp h.pos
  change G.tangent g.parents.size = _
  rw [G.tangent_eq hG hseed, hget]

end

end Backsweep
