import Mathlib
import Backsweep.Proofs.Run.Confinement
import Backsweep.Proofs.Run.Erasure

/-!
# Recording does not disturb a run

A gradient runs the function on a machine that records a graph, and sweeps the graph.
If the function calls nothing, it ends like a plain run, and the sweep stays inside of
its table.

* `Job.gradient_param`, `Job.runFresh_recorded`: a gradient and a plain run, both as the
  run that records;
* `Graph.derivative?`: a sweep that fails where it leaves its table;
* `Graph.derivative?_eq_some`: on the graph of a run it never does;
* `Job.gradient_undisturbed`: gradients and plain runs end alike.
-/

namespace Backsweep

variable {R : Type}

/-! ## Seeds -/

/-- The arguments of a gradient: the one at `i` has the node of the seed. -/
def seedArg (args : List (Value R)) (i : Nat) (arg : Value R) : List (Slot R) :=
  (args.map ({ value := · })).set i { value := arg, node := some Graph.seed }

/-- A new machine that records a graph. -/
def Func.recording (f : Func) (world : World R) : Machine R :=
  { Machine.new f world with graph := some Graph.seeded }

/-- Only the argument at `i` has a node. -/
theorem mem_zip_seedArg {params : List Var} {args : List (Value R)} {i k : Nat} {arg : Value R}
    {v : Var} {s : Slot R} (hmem : (v, s) ∈ params.zip (seedArg args i arg))
    (hk : s.node = some k) : params[i]? = some v ∧ k = Graph.seed := by
  obtain ⟨p, hp⟩ := List.mem_iff_getElem?.mp hmem
  rw [List.getElem?_zip_eq_some] at hp
  obtain ⟨hv, hslot⟩ := hp
  rw [seedArg, List.getElem?_set] at hslot
  split at hslot
  · rename_i hip
    subst hip
    split at hslot
    · cases hslot
      cases hk
      exact ⟨hv, rfl⟩
    · cases hslot
  · rw [List.getElem?_map] at hslot
    obtain ⟨value, -, rfl⟩ := Option.map_eq_some_iff.mp hslot
    cases hk

theorem map_plain_seedArg {args : List (Value R)} {i : Nat} {arg : Value R}
    (h : args[i]? = some arg) :
    (seedArg args i arg).map Slot.plain = args.map ({ value := · }) := by
  refine List.ext_getElem? fun n => ?_
  simp only [seedArg, List.getElem?_map, List.getElem?_set, List.length_map]
  split
  · rename_i hn
    subst hn
    rw [if_pos (List.getElem?_eq_some_iff.mp h).1, h]
    rfl
  · cases args[n]? <;> rfl

theorem Wrt.seed_real {args : List (Value R)} {i : Nat} {x : R} (h : args[i]? = some (.real x))
    (H : Heap R) : (Wrt.param i).seed args H = .ok (seedArg args i (.real x), .seeded) := by
  simp only [Wrt.seed, h]
  rfl

theorem Wrt.seed_param {i : Nat} {args : List (Value R)} {H : Heap R} {slots : List (Slot R)}
    {G : Graph R} (h : (Wrt.param i).seed args H = .ok (slots, G)) :
    ∃ x, args[i]? = some (.real x) ∧ slots = seedArg args i (.real x) ∧ G = Graph.seeded := by
  unfold Wrt.seed at h
  cases harg : args[i]? with
  | none => simp only [harg] at h; cases h
  | some arg =>
    simp only [harg] at h
    cases arg with
    | real x =>
      cases h
      exact ⟨x, rfl, rfl, rfl⟩
    | _ => cases h

theorem Func.var_recording (f : Func) (world : World R) (v : Var) :
    (f.recording world).var v = none := by
  simp only [Machine.var, Func.recording, Machine.new, Array.getD_eq_getD_getElem?,
    Array.getElem?_replicate]
  split <;> rfl

theorem Func.confined_recording (f : Func) (world : World R) (Z : Zone) :
    Confined Z (f.recording world) := by
  have hvar : ∀ v s, (f.recording world).var v ≠ some s := fun v s h => by
    rw [f.var_recording] at h
    cases h
  refine ⟨⟨.seeded, rfl, Graph.ordered_seeded, ?_, ?_, ?_⟩, ?_, ?_⟩
  · exact fun p hp => absurd hp List.not_mem_nil
  · exact fun v s k hs => absurd hs (hvar v s)
  · exact fun t s hs => absurd hs List.not_mem_nil
  · exact fun v s k hs => absurd hs (hvar v s)
  · exact fun t s hs => absurd hs List.not_mem_nil

/-- The run of a gradient starts with the seed in one parameter only. -/
theorem Func.seed_admitted (f : Func) (world : World R) {Z : Zone} {i : Nat}
    (hZ : ∀ v, f.params[i]? = some v → v.idx < f.vars.size → Z.var v) (args : List (Value R))
    (arg : Value R) : ∀ v s k, (v, s) ∈ f.params.zip (seedArg args i arg) → s.node = some k →
      (v.idx < (f.recording world).vars.size → Z.var v) ∧ (f.recording world).Knows s := by
  intro v s k hmem hk
  obtain ⟨hv, rfl⟩ := mem_zip_seedArg hmem hk
  refine ⟨fun hin => hZ v hv (by simpa [Func.recording, Machine.new] using hin),
    fun k' hk' g hg => ?_⟩
  cases hg
  rw [(mem_zip_seedArg hmem hk').2]
  exact Nat.one_pos

/-! ## Sweeps -/

namespace Graph

variable [Scalar R]

/-- Adds to the adjoint of a parent, unless there is none in the table. -/
def contribute? (a : R) (adjoints : Array R) (parent : Nat × R) : Option (Array R) :=
  if parent.1 < adjoints.size then some (contribute a adjoints parent) else none

/-- Hands the adjoint of a node on to its parents, unless it or one of them is not in
the table, or the node not in the graph. -/
def sweepNode? (g : Graph R) (adjoints : Array R) (node : Nat) : Option (Array R) :=
  let a := adjoints.getD node (Scalar.lit 0.0)
  if node < adjoints.size ∧ node < g.parents.size then
    if Scalar.isZero a then some adjoints
    else (g.parents.getD node []).foldlM (contribute? a) adjoints
  else none

def sweep? (g : Graph R) : Nat → Array R → Option (Array R)
  | 0, adjoints => g.sweepNode? adjoints 0
  | node + 1, adjoints => do g.sweep? node (← g.sweepNode? adjoints (node + 1))

/-- The derivative of node `output` by node `input`, none if the sweep leaves its
table. -/
def derivative? (g : Graph R) (output input : Nat) : Option R := do
  let zero : R := Scalar.lit 0.0
  let adjoints := (Array.replicate (output + 1) zero).setIfInBounds output (Scalar.lit 1.0)
  return (← g.sweep? output adjoints).getD input zero

theorem foldlM_contribute? (a : R) (ps : List (Nat × R)) {adjoints : Array R}
    (hps : ∀ p ∈ ps, p.1 < adjoints.size) :
    ps.foldlM (contribute? a) adjoints = some (ps.foldl (contribute a) adjoints) ∧
      (ps.foldl (contribute a) adjoints).size = adjoints.size := by
  induction ps generalizing adjoints with
  | nil => exact ⟨rfl, rfl⟩
  | cons p ps ih =>
    have hsize := size_contribute a adjoints p
    have hone : contribute? a adjoints p = some (contribute a adjoints p) :=
      if_pos (hps p (by simp))
    obtain ⟨hfold, hsizes⟩ := ih fun q hq => by
      rw [hsize]
      exact hps q (by simp [hq])
    rw [List.foldlM_cons, List.foldl_cons, hone]
    exact ⟨hfold, hsizes.trans hsize⟩

theorem sweepNode?_eq_some {g : Graph R} (h : g.Ordered) {adjoints : Array R} {node : Nat}
    (htable : node < adjoints.size) (hgraph : node < g.parents.size) :
    g.sweepNode? adjoints node = some (g.sweepNode adjoints node) ∧
      (g.sweepNode adjoints node).size = adjoints.size := by
  have hall := foldlM_contribute? (adjoints.getD node (Scalar.lit 0.0))
    (g.parents.getD node []) fun p hp => Nat.lt_trans (h.older node p hp) htable
  rw [sweepNode?, if_pos ⟨htable, hgraph⟩, sweepNode]
  by_cases hzero : Scalar.isZero (adjoints.getD node (Scalar.lit 0.0)) = true
  · rw [if_pos hzero, if_pos hzero]
    exact ⟨rfl, rfl⟩
  · rw [if_neg hzero, if_neg hzero]
    exact hall

theorem sweep?_eq_some {g : Graph R} (h : g.Ordered) {node : Nat} {adjoints : Array R}
    (htable : node < adjoints.size) (hgraph : node < g.parents.size) :
    g.sweep? node adjoints = some (g.sweep node adjoints) := by
  induction node generalizing adjoints with
  | zero => exact (sweepNode?_eq_some h htable hgraph).1
  | succ node ih =>
    obtain ⟨hnode, hsize⟩ := sweepNode?_eq_some h htable hgraph
    rw [sweep?, hnode, sweep]
    exact ih (by rw [hsize]; omega) (by omega)

/-- **The sweep from a node of an ordered graph stays inside of its table.** -/
theorem derivative?_eq_some {g : Graph R} (h : g.Ordered) {output : Nat}
    (hgraph : output < g.parents.size) (input : Nat) :
    g.derivative? output input = some (g.derivative output input) := by
  unfold derivative?
  dsimp only
  rw [sweep?_eq_some h (by simp) hgraph]
  rfl

end Graph

/-! ## Gradients -/

/-- There is a derivative exactly if the first result is a real. -/
theorem Gradient.ofResult_iff [Scalar R] (slots : List (Slot R)) (graph : Option (Graph R))
    (y : R) :
    (∃ d, Gradient.ofResult slots graph = .ok ⟨y, d⟩) ↔
      ∃ vals, Slot.values slots = .real y :: vals := by
  cases slots with
  | nil => constructor <;> rintro ⟨_, h⟩ <;> cases h
  | cons s slots =>
    obtain ⟨value, node⟩ := s
    cases value with
    | real x =>
      have hvalue : ∃ d, Gradient.ofResult ({ value := .real x, node } :: slots) graph =
          .ok ⟨x, d⟩ := by
        cases node <;> cases graph <;> exact ⟨_, rfl⟩
      obtain ⟨d, hd⟩ := hvalue
      constructor
      · rintro ⟨d', h⟩
        rw [hd] at h
        cases h
        exact ⟨_, rfl⟩
      · rintro ⟨vals, h⟩
        cases h
        exact ⟨d, hd⟩
    | _ => constructor <;> rintro ⟨_, h⟩ <;> cases h

namespace Job

variable [Scalar R] {j : Job R} {args : List (Value R)} {i : Nat} {x : R}

theorem gradient_param (j : Job R) (harg : args[i]? = some (.real x)) (world : World R) :
    j.gradient args (.param i) world =
      match j.runSlots (seedArg args i (.real x)) (j.func.recording world) with
      | .error e m => .error e m.world
      | .ok vals m => match Gradient.ofResult vals m.graph with
        | .ok g => .ok g m.world
        | .error e => .error e m.world := by
  unfold gradient
  rw [Wrt.seed_real harg]
  rfl

/-- A plain run ends like the run of a gradient, without the nodes. -/
theorem runFresh_recorded (hcalls : j.func.CallsNothing) (harg : args[i]? = some (.real x))
    (world : World R) :
    j.runFresh args world =
      match j.runSlots (seedArg args i (.real x)) (j.func.recording world) with
      | .error e m => .error e m.world
      | .ok vals m => .ok (Slot.values vals) m.world := by
  have herases := j.runSlots_erases hcalls (seedArg args i (.real x)) (j.func.recording world)
  rw [map_plain_seedArg harg, Func.recording, Machine.plain_new] at herases
  unfold runFresh run
  rw [bind_apply, herases, ← Func.recording]
  cases j.runSlots (seedArg args i (.real x)) (j.func.recording world) with
  | error e m => rfl
  | ok vals m =>
    change EStateM.Result.ok (Slot.values (vals.map Slot.plain)) m.world = _
    rw [Slot.values_plain]

/-- What the run of a gradient records is ordered, and holds the nodes of the results. -/
theorem runSlots_recorded (hcalls : j.func.CallsNothing) (i : Nat) (args : List (Value R))
    (arg : Value R) (world : World R) :
    Ends (j.runSlots (seedArg args i arg) (j.func.recording world))
      (fun vals m => ∃ g, m.graph = some g ∧ g.Ordered ∧
        ∀ s ∈ vals, ∀ k, s.node = some k → k < g.parents.size)
      (fun _ m => ∃ g, m.graph = some g ∧ g.Ordered) := by
  by_cases hlen : (seedArg args i arg).length = j.func.params.length
  swap
  · rw [j.runSlots_arity _ hlen]
    exact ⟨.seeded, rfl, Graph.ordered_seeded⟩
  have hconfined := (j.func.confined_recording world .all).enter
    (j.func.seed_admitted world (i := i) (fun _ _ _ => trivial) args arg)
  have hbody := hconfined.execBlock (j := j) fun a ha => Zone.all_admits (hcalls a ha) _
  rw [j.runSlots_eq _ hlen]
  cases hexec : j.execBlock j.func.body
      ((j.func.recording world).enter j.func.params (seedArg args i arg)) with
  | error e m =>
    rw [hexec] at hbody
    obtain ⟨g, hg, ho, -⟩ := hbody.graph
    exact ⟨g, hg, ho⟩
  | ok flow m =>
    rw [hexec] at hbody
    obtain ⟨hheld, hm⟩ := hbody
    obtain ⟨g, hg, ho, -⟩ := hm.graph
    cases flow with
    | next => exact ⟨g, hg, ho⟩
    | ret vals =>
      refine ⟨g, hg, ho, fun s hs k hk => ?_⟩
      obtain ⟨v, hv⟩ := hheld vals rfl s hs
      exact hm.knows_var hv k hk g hg

end Job

/-- **Recording a graph does not disturb a run.** For a function that calls nothing and
a real argument, the gradient has a value exactly if a plain run returns a real first:
then it is that real, and both leave the same records. A plain run that fails makes the
gradient fail, with the same error and the same records. However the run of a gradient
ends, parents are older than their nodes in its graph, so the sweep from a result stays
inside of its table. -/
theorem Job.gradient_undisturbed [Scalar R] {j : Job R} (hcalls : j.func.CallsNothing)
    {args : List (Value R)} {i : Nat} {x : R} (harg : args[i]? = some (.real x))
    (world : World R) :
    (∀ y w, (∃ d, j.gradient args (.param i) world = .ok ⟨y, d⟩ w) ↔
      ∃ vals, j.runFresh args world = .ok (.real y :: vals) w) ∧
    (∀ e w, j.runFresh args world = .error e w →
      j.gradient args (.param i) world = .error e w) ∧
    ∃ slots graph, (Wrt.param i).seed args world.heap = .ok (slots, graph) ∧
      Ends (j.runSlots slots { Machine.new j.func world with graph := some graph })
        (fun vals m => ∃ g, m.graph = some g ∧ g.Ordered ∧ ∀ s ∈ vals, ∀ k, s.node = some k →
          g.derivative? k Graph.seed = some (g.derivative k Graph.seed))
        (fun _ m => ∃ g, m.graph = some g ∧ g.Ordered) := by
  rw [j.gradient_param harg, runFresh_recorded hcalls harg]
  refine ⟨fun y w => ?_, fun e w h => ?_, _, _, Wrt.seed_real harg _, ?_⟩
  · cases j.runSlots (seedArg args i (.real x)) (j.func.recording world) with
    | error e m => simp
    | ok slots m =>
      have hiff := Gradient.ofResult_iff slots m.graph y
      dsimp only
      constructor
      · rintro ⟨d, h⟩
        split at h <;> cases h
        rename_i hd
        obtain ⟨vals, hvals⟩ := hiff.mp ⟨d, hd⟩
        exact ⟨vals, by rw [hvals]⟩
      · rintro ⟨vals, h⟩
        injection h with hvals hw
        obtain ⟨d, hd⟩ := hiff.mpr ⟨vals, hvals⟩
        exact ⟨d, by rw [hd, hw]⟩
  · cases hrun : j.runSlots (seedArg args i (.real x)) (j.func.recording world) with
    | ok vals m => rw [hrun] at h; cases h
    | error e' m => rw [hrun] at h; cases h; rfl
  · refine (runSlots_recorded hcalls i args (.real x) world).mono ?_ fun _ _ h => h
    rintro vals m ⟨g, hg, ho, hknown⟩
    exact ⟨g, hg, ho, fun s hs k hk => Graph.derivative?_eq_some ho (hknown s hs k hk) _⟩

/-- The powers of a real up to the first one that is not small. All others end on a
tape. -/
def Func.powers : Func where
  name := "powers"
  attrs := []
  params := [⟨0⟩]
  returns := [.real]
  vars := #[⟨"x", .real, false⟩, ⟨"limit", .real, false⟩, ⟨"y", .real, true⟩,
    ⟨"small", .bool, false⟩]
  body := [.define ⟨1⟩ true (.const (.real 10.0)), .define ⟨2⟩ true (.copy ⟨0⟩),
    .loop [.define ⟨3⟩ true (.op .flt [⟨2⟩, ⟨1⟩])] ⟨3⟩
      [.push ⟨.values, 1⟩ ⟨2⟩, .define ⟨2⟩ false (.op .fmul [⟨2⟩, ⟨0⟩])],
    .ret [⟨2⟩]]

theorem powers_returns : (match (⟨.powers, .none, 100⟩ : Job ℚ).runFresh [.real 2] {} with
    | .ok [.real y] _ => y == 16
    | _ => false) = true := by decide +kernel

/-- The gradient at two has the value of the plain run. -/
theorem powers_gradient_undisturbed : ∃ (w : World ℚ) (d : ℚ),
    (⟨.powers, .none, 100⟩ : Job ℚ).runFresh [.real 2] {} = .ok [.real 16] w ∧
    (⟨.powers, .none, 100⟩ : Job ℚ).gradient [.real 2] (.param 0) {} = .ok ⟨16, d⟩ w := by
  have hreturns := powers_returns
  obtain ⟨w, hrun⟩ : ∃ w,
      (⟨.powers, .none, 100⟩ : Job ℚ).runFresh [.real 2] {} = .ok [.real 16] w := by
    split at hreturns
    · rename_i y w hrun
      rw [hrun, beq_iff_eq.mp hreturns]
      exact ⟨w, rfl⟩
    · cases hreturns
  have harg : ([.real 2] : List (Value ℚ))[0]? = some (.real 2) := rfl
  obtain ⟨d, hd⟩ := ((Job.gradient_undisturbed (j := ⟨.powers, .none, 100⟩) (by decide) harg
    {}).1 16 w).mpr ⟨[], hrun⟩
  exact ⟨w, d, hrun, hd⟩

end Backsweep
