import Mathlib
import Backsweep.Proofs.Diff.Fixpoint
import Backsweep.Proofs.Run.Recording
import Backsweep.Proofs.Syntax.Typing

/-!
# Activity covers dependence

While a gradient runs, nodes of its graph mark what depends on the seed. They are only
where the analysis says so, on every machine on the way.

* `Analysis.Covers.admits`: the statements of a valid function keep nodes in closed sets;
* `Activity.analyze_sound`: so nodes are only in what is active.
-/

namespace Backsweep

/-- Where nodes may be if these variables and tapes are active. Records hold none. -/
def Zone.active (V : Set Var) (T : Set Tape) : Zone where
  var v := v ∈ V
  tape t := t ∈ T ∧ t.kind ≠ .decisions
  field := False

/-- **Statements keep nodes in closed sets,** if they are allowed. It is a matter of
types that variables are not pushed as decisions, and that everything else popped is a
real. -/
theorem Analysis.Covers.admits {a : Analysis} {V : Set Var} {T : Set Tape} (hc : a.Covers V T)
    (hallowed : ∀ s ∈ blockAtoms a.func.body, ¬a.Violates V s)
    (hfits : blockFits a.func a.func.body) (hcalls : a.func.CallsNothing) {s : Stmt}
    (hs : s ∈ blockAtoms a.func.body) : (Zone.active V T).Admits a.func.vars.size s := by
  have hty := hfits.atom hs
  cases s with
  | define dst decl e =>
    refine ⟨?_, fun hcarries hin => hc.define dst decl e hs hin ?_⟩
    · rintro callee args node rfl
      exact hcalls.not_mem dst decl callee args node hs
    · cases e with
      | copy src => exact hcarries
      | op opcode args => exact hcarries
      | pop t => exact ⟨hcarries.2, hty.trans (Tape.content_of_ne hcarries.2), hcarries.1⟩
      | const c => exact hcarries.elim
      | load obj field => exact hcarries.elim
      | call callee args node => exact hcarries.elim
      | topIs t d => exact hcarries.elim
  | store obj field val => exact fun hval => hallowed _ hs (.inr hval)
  | push t val => exact fun hval => ⟨hc.push t val hs hty.1 hval, hty.1⟩
  | cond arms other | loop header test body | doLoop body test | block body | pushDecision t d
  | unreachable | ret vals => trivial

/-- **Activity covers dependence.** Take a valid function that calls nothing, and a
parameter for which the analysis accepts it. A gradient by this parameter runs the
function on a machine that records a graph. On every machine that this run meets, and it
ends on one of them, variables with a node are active, tapes that hold a node are active,
and no field of a record has a node. -/
theorem Activity.analyze_sound {R : Type} [Scalar R] {f : Func} (hvalid : f.isValid = true)
    (hcalls : f.CallsNothing) {i : Nat} {v : Var} (hv : f.params[i]? = some v)
    {withTapes : Bool} {act : Activity} (hact : analyze f (.param v) withTapes = .ok act)
    {j : Job R} (hj : j.func = f) {args : List (Value R)} {world : World R}
    {slots : List (Slot R)} {graph : Graph R}
    (hseed : (Wrt.param i).seed args world.heap = .ok (slots, graph)) :
    Ends (j.runSlots slots { Machine.new f world with graph := some graph })
      (fun _ => j.Reaches slots { Machine.new f world with graph := some graph })
      (fun _ => j.Reaches slots { Machine.new f world with graph := some graph }) ∧
    ∀ m, j.Reaches slots { Machine.new f world with graph := some graph } m →
      (∀ w s k, m.var w = some s → s.node = some k → act.marks.isActive w = true) ∧
      (∀ t, ∀ s ∈ m.stack t, ∀ k, s.node = some k → act.marks.isActiveTape t = true) ∧
      ∃ g, m.graph = some g ∧ g.fields = [] := by
  refine ⟨j.runSlots_reaches _ _, fun m hm => ?_⟩
  subst hj
  obtain ⟨x, -, rfl, rfl⟩ := Wrt.seed_param hseed
  obtain ⟨-, hclosed⟩ := analyze_closed hact
  obtain ⟨hcovers, hallowed⟩ := hclosed.covers (a := ⟨j.func, .param v, withTapes⟩)
  have hstart := j.func.confined_recording world (.active act.marks.varSet act.marks.tapeSet)
  have hconfined := hstart.reaches
    (j.func.seed_admitted world (i := i) (fun w hw hin => ?_) args (.real x))
    (fun a ha => ?_) hm
  · obtain ⟨g, hg, -, hfields, -⟩ := hconfined.graph
    refine ⟨hconfined.vars, fun t s hs k hk => (hconfined.tapes t s hs k hk).1, g, hg, ?_⟩
    exact List.eq_nil_iff_forall_not_mem.mpr fun p hp => (hfields p hp).1
  · rw [hv] at hw
    cases hw
    exact hcovers.input v rfl hin
  · have hadmits := hcovers.admits hallowed (Func.fits_of_isValid hvalid) hcalls ha
    simpa [Func.recording, Machine.new] using hadmits

theorem powers_records : (match (⟨.powers, .none, 100⟩ : Job ℚ).runSlots
      [⟨.real 2, some Graph.seed⟩] (Func.powers.recording {}) with
    | .ok _ m => (m.stack ⟨.values, 1⟩).map Slot.node == [some 2, some 1, some 0]
    | _ => false) = true := by decide +kernel

/-- The powers of two end on a tape that is active, with their nodes. The limit is not
active, and never gets a node. -/
theorem powers_analyze_sound : ∃ act,
    Activity.analyze .powers (.param ⟨0⟩) true = .ok act ∧
    act.marks.isActiveTape ⟨.values, 1⟩ = true ∧ act.marks.isActive ⟨1⟩ = false ∧
    ∃ vals m, (⟨.powers, .none, 100⟩ : Job ℚ).runSlots [⟨.real 2, some Graph.seed⟩]
        (Func.powers.recording {}) = .ok vals m ∧
      (m.stack ⟨.values, 1⟩).map Slot.node = [some 2, some 1, some 0] ∧
      ∀ m', (⟨.powers, .none, 100⟩ : Job ℚ).Reaches [⟨.real 2, some Graph.seed⟩]
        (Func.powers.recording {}) m' → ∀ s, m'.var ⟨1⟩ = some s → s.node = none := by
  have hact : Activity.analyze .powers (.param ⟨0⟩) true =
      .ok ⟨.param ⟨0⟩, ⟨#[true, false, true, false], [⟨.values, 1⟩]⟩, 2⟩ := by rfl
  have hrecords := powers_records
  have hseed : (Wrt.param 0).seed [.real 2] ({} : World ℚ).heap =
      .ok ([⟨.real 2, some Graph.seed⟩], .seeded) := rfl
  have hsound := Activity.analyze_sound (f := .powers) (by decide +kernel) (by decide) rfl hact
    (j := ⟨.powers, .none, 100⟩) rfl hseed
  refine ⟨_, hact, by decide, by decide, ?_⟩
  split at hrecords
  · rename_i vals m hrun
    refine ⟨vals, m, hrun, beq_iff_eq.mp hrecords, fun m' hm' s hs => ?_⟩
    cases hk : s.node with
    | none => rfl
    | some k => exact absurd ((hsound.2 m' hm').1 ⟨1⟩ s k hs hk) (by decide)
  · cases hrecords

end Backsweep
