import Mathlib
import Backsweep.Module.Calls
import Backsweep.Proofs.Run.Coupling
import Backsweep.Proofs.Run.Dual

/-!
# Modules over different scalars

A function without records that only calls such functions of its module does the same
over any scalars: a map that the operations respect maps its results, too.

* `Module.Reaches`: the calls that a function leads to;
* `Module.SelfContained`: they are calls of functions of the module without records;
* `ScalarHom.coupling`: the machines over both scalars;
* `Module.externs_alike`: calls respect maps between scalars.
-/

namespace Backsweep

/-! ## What functions call -/

/-- The function has a call of that name. -/
def Func.Calls (f : Func) (name : String) : Prop :=
  ∃ dst decl args node, Stmt.define dst decl (.call name args node) ∈ blockAtoms f.body

/-- The statement neither reads nor writes a record. -/
def Stmt.usesRecords : Stmt → Bool
  | .define _ _ (.load _ _) => true
  | .store _ _ _ => true
  | _ => false

def Func.UsesRecords (f : Func) : Prop := ∃ a ∈ blockAtoms f.body, a.usesRecords = true

namespace Module

/-- The names that are called by the function, or by functions of the module that it
leads to. -/
inductive Reaches (m : Module) (f : Func) : String → Prop
  | direct {name : String} : f.Calls name → Reaches m f name
  | step {name name' : String} {g : Func} : Reaches m f name → m.function? name = some g →
      g.Calls name' → Reaches m f name'

/-- All calls are calls of functions of the module, by their names. What is called uses
no records. -/
structure SelfContained (m : Module) (f : Func) : Prop where
  reverse : ∀ name, m.Reaches f name → callee? m.markers.reverseCall name = none
  dynamic : ∀ name, m.Reaches f name → callee? dynamicCall name = none
  known : ∀ name, m.Reaches f name → ∃ g, m.function? name = some g
  plain : ∀ name g, m.Reaches f name → m.function? name = some g → ¬g.UsesRecords

end Module

/-! ## Machines over both scalars -/

section
variable {S S' : Type} [Scalar S] [Scalar S']

/-- Both calls return, the second one the mapped value, or both fail. The records stay
as they are. -/
def ScalarHom.Alike (h : ScalarHom S S') (H : Heap S) (H' : Heap S') :
    EStateM.Result RunError (World S) (Value S) → EStateM.Result RunError (World S') (Value S') → Prop
  | .ok v w, .ok v' w' => v' = v.map h.toFun ∧ w.heap = H ∧ w'.heap = H'
  | .error _ _, .error _ _ => True
  | _, _ => False

/-- The operations named answer alike. -/
def ScalarHom.Respects (h : ScalarHom S S') (names : String → Prop) (x : Externs S)
    (x' : Externs S') : Prop :=
  ∀ name, names name → ∀ args w w',
    h.Alike w.heap w'.heap (x.call name args w) (x'.call name (args.map (Value.map h.toFun)) w')

namespace ScalarHom

variable (h : ScalarHom S S') (H : Heap S) (H' : Heap S')

/-- The second machine holds the mapped values, and the records of neither one
change. -/
def coupling : Coupling S S' where
  slot _ s := { value := s.value.map h.toFun }
  fits _ _ := True
  shared g w w' := g = none ∧ w.heap = H ∧ w'.heap = H'
  toBool _ s := Operation.toBool_map _ s.value
  toInt _ s := Operation.toInt_map _ s.value
  toObj _ s := Operation.toObj_map _ s.value
  fits_plain _ _ := trivial
  const _ c := by
    cases c with
    | real x => exact congrArg (fun y => ({ value := .real y } : Slot S')) (h.lit x)
    | int n => rfl
    | bool b => rfl

variable {h H H'}

theorem values_slot (g : Option (Graph S)) (ss : List (Slot S)) :
    Slot.values (ss.map ((h.coupling H H').slot g)) = (Slot.values ss).map (Value.map h.toFun) := by
  induction ss with
  | nil => rfl
  | cons s ss ih => exact congrArg (s.value.map h.toFun :: ·) ih

variable {loose : Prop} {names : String → Prop} {j : Job S} {k : Job S'}

theorem op_inStep (op : Opcode) (args : List Var) :
    (h.coupling H H').EvalInStep loose j k (.op op args) := by
  intro m n hmn
  rw [Job.eval_op, Job.eval_op]
  refine (Coupling.readAll hmn args).bind fun ss ss' m' n' hss hmn' => ?_
  have hplain : m'.graph = none := hmn'.shared.1
  rw [hss.2, Job.operate_apply, Job.operate_apply, values_slot, op.eval_map h, hplain, hmn'.plain]
  cases op.eval (Slot.values ss) with
  | error e => trivial
  | ok value => exact ⟨⟨trivial, rfl⟩, hmn'⟩

theorem call_inStep (hx : h.Respects names j.externs k.externs) {callee : String}
    (hcallee : names callee) (args : List Var) (node : Option String) :
    (h.coupling H H').EvalInStep loose j k (.call callee args node) := by
  intro m n hmn
  rw [Job.eval_call, Job.eval_call]
  refine (Coupling.readAll hmn args).bind fun ss ss' m' n' hss hmn' => ?_
  obtain ⟨hplain, hH, hH'⟩ := hmn'.shared
  have halike := hx callee hcallee (Slot.values ss) m'.world n'.world
  rw [hss.2, Job.call_apply, Job.call_apply, values_slot, hplain, hmn'.plain]
  cases hj : j.externs.call callee (Slot.values ss) m'.world with
  | error e w =>
    cases hk : k.externs.call callee ((Slot.values ss).map (Value.map h.toFun)) n'.world with
    | error e' w' => trivial
    | ok v' w' =>
      rw [hj, hk] at halike
      exact halike.elim
  | ok v w =>
    cases hk : k.externs.call callee ((Slot.values ss).map (Value.map h.toFun)) n'.world with
    | error e' w' =>
      rw [hj, hk] at halike
      exact halike.elim
    | ok v' w' =>
      rw [hj, hk] at halike
      obtain ⟨rfl, hw, hw'⟩ := halike
      refine ⟨⟨trivial, rfl⟩, ?_⟩
      have hupdate := hmn'.update m'.graph w w' (fun _ _ => ⟨trivial, rfl⟩)
        ⟨hplain, hw.trans hH, hw'.trans hH'⟩
      simpa [hplain, hmn'.plain] using hupdate

/-- A function without records whose calls answer alike. -/
theorem body_inStep (hlimit : k.limit = j.limit) (hx : h.Respects names j.externs k.externs)
    {f : Func} (hcalls : ∀ name, f.Calls name → names name) (hrecords : ¬f.UsesRecords) :
    (h.coupling H H').InStep loose (j.execBlock f.body) (k.execBlock f.body) := by
  refine Coupling.block hlimit fun a ha => ?_
  refine Coupling.atom (blockAtoms_atomic _ a ha) ?_ ?_
  · rintro dst decl e rfl
    cases e with
    | op op args => exact op_inStep op args
    | call callee args node =>
      exact call_inStep hx (hcalls callee ⟨dst, decl, args, node, ha⟩) args node
    | load obj field => exact absurd ⟨_, ha, rfl⟩ hrecords
    | _ => exact Coupling.eval_plain (by simp) (by simp) (by simp)
  · rintro obj field val rfl
    exact absurd ⟨_, ha, rfl⟩ hrecords

end ScalarHom

/-! ## Calls of a module -/

namespace ScalarHom

variable {h : ScalarHom S S'} {names : String → Prop} {j : Job S} {k : Job S'}

/-- Runs on values respect the map. -/
theorem run_coupled (hfunc : k.func = j.func) (hlimit : k.limit = j.limit)
    (hx : h.Respects names j.externs k.externs) (hcalls : ∀ name, j.func.Calls name → names name)
    (hrecords : ¬j.func.UsesRecords) (args : List (Value S)) (w : World S) (w' : World S') :
    Coupled (h.coupling w.heap w'.heap) False (fun _ vs vs' => vs' = vs.map (Value.map h.toFun))
      (j.run args (.new j.func w)) (k.run (args.map (Value.map h.toFun)) (.new j.func w')) := by
  have hnew : (h.coupling w.heap w'.heap).machines (.new j.func w) (.new j.func w') :=
    Coupling.machines_new j.func ⟨rfl, rfl, rfl⟩
  have hslots : (args.map (Value.map h.toFun)).map ({ value := · } : Value S' → Slot S') =
      (args.map ({ value := · })).map ((h.coupling w.heap w'.heap).slot none) := by
    rw [List.map_map, List.map_map]
    rfl
  unfold Job.run
  rw [hslots]
  refine (Coupling.runSlots hfunc (body_inStep hlimit hx hcalls hrecords) hnew
    fun _ _ => trivial).bind fun ss ss' m n hss hmn => ?_
  rw [hss]
  exact ⟨values_slot _ ss, hmn⟩

end ScalarHom

namespace Module

variable {m : Module} {f : Func}

theorem SelfContained.call_eq (hm : m.SelfContained f) {name : String} (hname : m.Reaches f name)
    {g : Func} (hg : m.function? name = some g) {x user : Externs S} {args : List (Value S)} :
    m.call x user name args =
      (do ofExcept (first (← ({ func := g, externs := x } : Job S).runFresh args))) := by
  unfold call runNamed
  rw [hm.reverse name hname, hm.dynamic name hname]
  simp [hg]

/-- **Calls respect maps between scalars.** -/
theorem externs_alike (hm : m.SelfContained f) (h : ScalarHom S S') (user : Externs S)
    (user' : Externs S') (depth : Nat) :
    h.Respects (m.Reaches f) (m.externs user depth) (m.externs user' depth) := by
  induction depth with
  | zero => exact fun _ _ _ _ _ => trivial
  | succ depth ih =>
    intro name hname args w w'
    obtain ⟨g, hg⟩ := hm.known name hname
    change h.Alike _ _ (m.call (m.externs user depth) user name args w)
      (m.call (m.externs user' depth) user' name (args.map (Value.map h.toFun)) w')
    rw [hm.call_eq hname hg, hm.call_eq hname hg]
    have hrun := h.run_coupled (j := { func := g, externs := m.externs user depth })
      (k := { func := g, externs := m.externs user' depth }) rfl rfl ih
      (fun name' hcalls => .step hname hg hcalls) (hm.plain name g hname hg) args w w'
    generalize hr : ({ func := g, externs := m.externs user depth } : Job S).run args (.new g w) = r
      at hrun
    generalize hr' : ({ func := g, externs := m.externs user' depth } : Job S').run
      (args.map (Value.map h.toFun)) (.new g w') = r' at hrun
    rw [bind_apply, bind_apply, Job.runFresh, Job.runFresh, hr, hr']
    cases r with
    | error e m₁ =>
      cases r' with
      | error e' n₁ => trivial
      | ok vs' n₁ => exact hrun.elim
    | ok vs m₁ =>
      obtain ⟨_, n₁, rfl, rfl, hmn⟩ := hrun.of_ok
      cases vs with
      | nil => trivial
      | cons v vs => exact ⟨rfl, hmn.shared.2⟩

end Module

end

end Backsweep
