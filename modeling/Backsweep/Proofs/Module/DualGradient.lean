import Mathlib
import Backsweep.Proofs.Diff.Gradient
import Backsweep.Proofs.Module.Transfer
import Backsweep.Proofs.Run.ForwardMode

/-!
# Gradients in forward mode

The derivative that a gradient reads off its graph is the tangent of the result when the
function is run on dual numbers.

* `Wrt.dualArgs`, `Wrt.dualHeap`: the tangent is one at the seed and zero elsewhere;
* `Wrt.seed_dual`: a gradient starts there;
* `Job.gradient_dual`: a gradient is a run on dual numbers, if calls are.
-/

namespace Backsweep

/-! ## Where a gradient starts -/

section
variable {R : Type} [Field R]

/-- The value with a tangent. -/
def Value.withTangent (t : R) (v : Value R) : Value (Dual R R) := v.map fun x => ⟨x, t⟩

/-- The field is the seed. -/
def Wrt.isField (wrt : Wrt) (args : List (Value R)) (h : Nat) (field : String) : Bool :=
  match wrt with
  | .param _ => false
  | .property i name =>
    match args[i]? with
    | some (.obj o) => h == o && field == name
    | _ => false

/-- The arguments, with tangent one at the seed. -/
def Wrt.dualArgs (wrt : Wrt) (args : List (Value R)) : List (Value (Dual R R)) :=
  args.mapIdx fun i v => v.withTangent (if wrt = .param i then 1 else 0)

/-- The records, with tangent one at the seed. -/
def Wrt.dualHeap (wrt : Wrt) (args : List (Value R)) (H : Heap R) : Heap (Dual R R) :=
  ⟨H.records.mapIdx fun h r =>
    r.map fun p => (p.1, p.2.withTangent (if wrt.isField args h p.1 then 1 else 0))⟩

theorem lookup_map_field {S S' : Type} (φ : String → Value S → Value S') (r : Record S)
    (field : String) :
    (r.map fun p => (p.1, φ p.1 p.2)).lookup field = (r.lookup field).map (φ field) := by
  induction r with
  | nil => rfl
  | cons p r ih =>
    rw [List.map_cons, List.lookup_cons, List.lookup_cons]
    by_cases hname : field = p.1
    · subst hname
      simp
    · have : (field == p.1) = false := by simpa using hname
      rw [this]
      exact ih

theorem Wrt.load_dualHeap (wrt : Wrt) (args : List (Value R)) (H : Heap R) (h : Nat)
    (field : String) : (wrt.dualHeap args H).load h field =
      (H.load h field).map (Value.withTangent (if wrt.isField args h field then 1 else 0)) := by
  rw [Heap.load_eq, Heap.load_eq, Wrt.dualHeap, Array.getElem?_mapIdx]
  cases H.records[h]? with
  | none => rfl
  | some r =>
    have hlookup := lookup_map_field
      (fun name v => v.withTangent (if wrt.isField args h name then (1 : R) else 0)) r field
    simp only [Option.map_some, hlookup]
    cases r.lookup field <;> rfl

omit [Field R] in
theorem Wrt.isField_property {i o : Nat} {args : List (Value R)} (harg : args[i]? = some (.obj o))
    (name : String) (h : Nat) (field : String) :
    (Wrt.property i name).isField args h field = (h == o && field == name) := by
  rw [Wrt.isField]
  simp only [harg]

theorem Wrt.dualArgs_property (i : Nat) (field : String) (args : List (Value R)) :
    (Wrt.property i field).dualArgs args = args.map (Value.withTangent 0) := by
  refine List.ext_getElem? fun k => ?_
  simp [Wrt.dualArgs]

variable [LawfulScalar R]

/-- A gradient starts with the dual numbers of its arguments and records. -/
theorem Wrt.seed_dual {wrt : Wrt} {args : List (Value R)} {H : Heap R} {slots : List (Slot R)}
    {G : Graph R} (h : wrt.seed args H = .ok (slots, G)) :
    G.Recorded H (wrt.dualHeap args H) ∧
      (∀ s ∈ slots, (tangentCoupling R).fits (some G) s) ∧
      (wrt.dualArgs args).map ({ value := · }) = slots.map (Slot.dual (some G)) := by
  have hsize : (wrt.dualHeap args H).records.size = H.records.size := by simp [Wrt.dualHeap]
  have hplain (G : Graph R) (v : Value R) :
      ({ value := v.withTangent 0 } : Slot (Dual R R)) = Slot.dual (some G) { value := v } := by
    rw [Slot.dual, Slot.tangentIn_plain]
    rfl
  cases wrt with
  | param i =>
    obtain ⟨x, harg, rfl, rfl⟩ := Wrt.seed_param h
    refine ⟨⟨Graph.ordered_seeded, fun o field k hk => ?_, hsize, fun o field => ?_⟩, ?_, ?_⟩
    · cases hk
    · rw [Wrt.load_dualHeap]
      rfl
    · intro s hs G hG k hk
      cases hG
      rcases List.mem_or_eq_of_mem_set hs with hs | rfl
      · obtain ⟨v, -, rfl⟩ := List.mem_map.mp hs
        cases hk
      · cases hk
        exact Graph.ordered_seeded.pos
    · refine List.ext_getElem? fun k => ?_
      simp only [Wrt.dualArgs, seedArg, List.getElem?_map, List.getElem?_mapIdx, List.getElem?_set,
        List.length_map]
      by_cases hk : i = k
      · subst hk
        have hi := (List.getElem?_eq_some_iff.mp harg).1
        have hseed : Slot.tangentIn (some Graph.seeded)
            { value := .real x, node := some Graph.seed } = 1 := Graph.tangent_seed _
        rw [harg]
        simp only [Option.map_some, if_true, hi, Slot.dual, hseed]
        rfl
      · cases hv : args[k]? with
        | none => simp [hk]
        | some v => simpa [hk] using hplain _ v
  | property i field =>
    obtain ⟨o, harg, rfl, rfl⟩ := Wrt.seed_property h
    have hordered : (Graph.seeded.setField o field (some Graph.seed) : Graph R).Ordered :=
      Graph.ordered_seeded.setField o field _
    refine ⟨⟨hordered, fun o' other k hk => ?_, hsize, fun o' other => ?_⟩, ?_, ?_⟩
    · rw [Graph.field?_setField] at hk
      split at hk
      · cases hk
        exact hordered.pos
      · cases hk
    · rw [Wrt.load_dualHeap, Graph.field?_setField, Wrt.isField_property harg]
      by_cases hat : o' = o ∧ other = field
      · obtain ⟨rfl, rfl⟩ := hat
        simp only [beq_self_eq_true, Bool.and_self, and_self, if_true, Option.map_some,
          Option.getD_some, Graph.tangent_seed]
        rfl
      · have : (o' == o && other == field) = false := by simpa using hat
        rw [if_neg hat, this]
        rfl
    · intro s hs G hG k hk
      obtain ⟨v, -, rfl⟩ := List.mem_map.mp hs
      cases hk
    · rw [Wrt.dualArgs_property, List.map_map, List.map_map]
      exact List.map_congr_left fun v _ => hplain _ v

/-! ## Gradients and runs on dual numbers -/

/-- **A gradient is a run on dual numbers**, if the calls of the function are. -/
theorem Job.gradient_dual {j : Job R} {k : Job (Dual R R)} (hfunc : k.func = j.func)
    (hlimit : k.limit = j.limit)
    (hcall : ∀ callee, j.func.Calls callee → ∀ args node,
      (tangentCoupling R).EvalInStep True j k (.call callee args node))
    {args : List (Value R)} {wrt : Wrt} {world w : World R} {r : Gradient R}
    (h : j.gradient args wrt world = .ok r w) :
    ∃ vs n, k.run (wrt.dualArgs args) (.new j.func { heap := wrt.dualHeap args world.heap }) =
      .ok (.real ⟨r.value, r.derivative⟩ :: vs) n := by
  unfold Job.gradient at h
  cases hseed : wrt.seed args world.heap with
  | error e => simp only [hseed] at h; cases h
  | ok start =>
    obtain ⟨slots, G⟩ := start
    obtain ⟨hrec, hfits, hargs⟩ := Wrt.seed_dual hseed
    simp only [hseed] at h
    have hbody : (tangentCoupling R).InStep True (j.execBlock j.func.body)
        (k.execBlock j.func.body) := by
      refine Coupling.block hlimit fun a ha => ?_
      refine Coupling.atom (blockAtoms_atomic _ a ha) ?_ ?_
      · rintro dst decl e rfl
        cases e with
        | op op args => exact tangent_op op args
        | call callee args node => exact hcall callee ⟨dst, decl, args, node, ha⟩ args node
        | load obj field => exact tangent_load obj field
        | _ => exact Coupling.eval_plain (by simp) (by simp) (by simp)
      · rintro obj field val rfl
        exact tangent_store obj field val
    have hnew : (tangentCoupling R).machines { Machine.new j.func world with graph := some G }
        (.new j.func { heap := wrt.dualHeap args world.heap }) :=
      Coupling.machines_new j.func ⟨G, rfl, hrec⟩
    have hrun := Coupling.runSlots hfunc hbody hnew hfits
    cases hslots : j.runSlots slots { Machine.new j.func world with graph := some G } with
    | error e m => simp only [hslots] at h; cases h
    | ok vals m =>
      rw [hslots] at hrun
      obtain ⟨_, n, hk, rfl, hmn⟩ := hrun.of_ok
      obtain ⟨G', hG', hrec'⟩ := hmn.shared
      cases hresult : Gradient.ofResult vals m.graph with
      | error e => simp only [hslots, hresult] at h; cases h
      | ok r' =>
        simp only [hslots, hresult] at h
        cases h
        cases vals with
        | nil => cases hresult
        | cons slot rest =>
          have hfirst : Gradient.ofResult [slot] m.graph = .ok r := hresult
          have hvalue := Gradient.ofResult_value hfirst
          rw [hG'] at hfirst
          have hderivative := Gradient.ofResult_derivative hrec'.ordered hfirst
          have hdual : (slot.dual m.graph).value = .real ⟨r.value, r.derivative⟩ := by
            rw [hderivative, hG', Slot.dual, hvalue]
            rfl
          refine ⟨Slot.values (rest.map (Slot.dual m.graph)), n, ?_⟩
          have hk' : k.runSlots (slots.map (Slot.dual (some G)))
              (.new j.func { heap := wrt.dualHeap args world.heap }) =
              .ok (slot.dual m.graph :: rest.map (Slot.dual m.graph)) n := hk
          rw [Job.run, bind_apply, hargs, hk', ← hdual]
          rfl

end

end Backsweep
