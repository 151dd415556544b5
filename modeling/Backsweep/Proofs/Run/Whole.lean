import Mathlib
import Backsweep.Proofs.Run.Lockstep
import Backsweep.Proofs.Syntax.Scope
import Backsweep.Proofs.Syntax.Table

/-!
# Whole runs

A run of a function sets the parameters and runs the body.

* `blockScoped.within`: scoped code only mentions its variables;
* `Machine.enter`: the machine when a run starts;
* `Job.runSlots_eq`: a run is the body from there, up to the values returned;
* `PairLaw.runSlots`: bodies that are run in step make runs in step.
-/

namespace Backsweep

variable {w : Window} {b : Block} {D : Finset Var} {f : Func}

/-! ## What a function mentions -/

/-- What the window has to show to run a block in it. -/
structure Window.Shows (w : Window) (b : Block) : Prop where
  decls : ∀ v ∈ allDecls b, w.var v
  tapes : ∀ t ∈ blockTapes b, w.tape t
  calls : w.erase = true → ∀ dst decl callee args node,
    Stmt.define dst decl (.call callee args node) ∉ blockAtoms b

theorem Window.Shows.of_subset {a : Block} (h : w.Shows b) (hab : blockAtoms a ⊆ blockAtoms b) :
    w.Shows a where
  decls v hv := h.decls v (allDecls_subset hab hv)
  tapes t ht := by
    obtain ⟨s, hs, hst⟩ := (mem_blockTapes a).mp ht
    exact h.tapes t ((mem_blockTapes b).mpr ⟨s, hab hs, hst⟩)
  calls he dst decl callee args node ha := h.calls he dst decl callee args node (hab ha)

theorem Window.Shows.scope (h : w.Shows b) (hD : ∀ v ∈ D, w.var v) :
    ∀ v ∈ blockScope D b, w.var v := by
  intro v hv
  rw [blockScope, Finset.mem_union, List.mem_toFinset] at hv
  rcases hv with hv | hv
  · exact hD v hv
  · exact h.decls v (blockDecls_subset b hv)

theorem Stmt.Scoped.within {s : Stmt} (h : s.Scoped f D) (hs : s.isControlFlow = false)
    (hw : w.Shows [s]) (hD : ∀ v ∈ D, w.var v) : s.Within w := by
  have hatom : s ∈ blockAtoms [s] := by simp [blockAtoms, Stmt.atoms_of_not_controlFlow hs]
  cases s, hs using Stmt.atomCases with
  | define dst decl e =>
    have htape : ∀ t ∈ e.tape?, w.tape t := fun t ht =>
      hw.tapes t (by simpa [blockTapes, Stmt.tapes] using ht)
    have hcall (he : w.erase = true) (callee : String) (args : List Var) (node : Option String) :
        e ≠ .call callee args node := by
      rintro rfl
      exact hw.calls he dst decl callee args node hatom
    cases decl with
    | true =>
      have hdst : w.var dst := hw.decls dst (mem_allDecls.mpr ⟨e, hatom⟩)
      exact ⟨hdst, fun v hv => hD v (h.1 v hv), htape, hcall⟩
    | false => exact ⟨hD dst h.2.2.1, fun v hv => hD v (h.1 v hv), htape, hcall⟩
  | store obj field val => exact ⟨hD obj h.1, hD val h.2⟩
  | push t val => exact ⟨hw.tapes t (by simp [blockTapes, Stmt.tapes]), hD val h⟩
  | pushDecision t d => exact hw.tapes t (by simp [blockTapes, Stmt.tapes])
  | unreachable => trivial
  | ret vals => exact fun v hv => hD v (h v hv)

/-- **Scoped code only mentions its variables.** -/
theorem blockScoped.within (h : blockScoped f D b) (hw : w.Shows b) (hD : ∀ v ∈ D, w.var v) :
    blockWithin w b := by
  have behind {s : Stmt} {ss : Block} (hw : w.Shows (s :: ss)) {D : Finset Var}
      (hD : ∀ v ∈ D, w.var v) : ∀ v ∈ blockScope D [s], w.var v :=
    (hw.of_subset (by simp [blockAtoms])).scope hD
  induction b using blockInduction generalizing D with
  | nil => trivial
  | atom s ss hs ih =>
    exact ⟨h.1.within hs (hw.of_subset (by simp [blockAtoms])) hD,
      ih h.2 (hw.of_subset (by simp [blockAtoms])) (behind hw hD)⟩
  | cond arms other ss iha iho ih =>
    obtain ⟨⟨harms, hother⟩, hss⟩ := h
    rw [armsScoped_iff] at harms
    refine ⟨⟨armsWithin_iff.mpr fun arm harm => ⟨hD _ (harms arm harm).1, ?_⟩, ?_⟩,
      ih hss (hw.of_subset (by simp [blockAtoms])) (behind hw hD)⟩
    · refine iha arm harm (harms arm harm).2 (hw.of_subset fun a ha => ?_) hD
      simp only [blockAtoms, Stmt.atoms, List.mem_append, mem_armsAtoms]
      exact .inl (.inl ⟨arm, harm, ha⟩)
    · refine iho hother (hw.of_subset fun a ha => ?_) hD
      simp [blockAtoms, Stmt.atoms, ha]
  | loop header test body ss ihh ihb ih =>
    obtain ⟨⟨hheader, htest, -, hbody⟩, hss⟩ := h
    have hwh : w.Shows header := hw.of_subset fun a ha => by simp [blockAtoms, Stmt.atoms, ha]
    have hwb : w.Shows body := hw.of_subset fun a ha => by simp [blockAtoms, Stmt.atoms, ha]
    exact ⟨⟨ihh hheader hwh hD, hwh.scope hD test htest, ihb hbody hwb (hwh.scope hD)⟩,
      ih hss (hw.of_subset (by simp [blockAtoms])) (behind hw hD)⟩
  | doLoop body test ss ihb ih =>
    obtain ⟨⟨hbody, htest⟩, hss⟩ := h
    have hwb : w.Shows body := hw.of_subset fun a ha => by simp [blockAtoms, Stmt.atoms, ha]
    exact ⟨⟨ihb hbody hwb hD, hwb.scope hD test htest⟩,
      ih hss (hw.of_subset (by simp [blockAtoms])) (behind hw hD)⟩
  | block body ss ihb ih =>
    have hwb : w.Shows body := hw.of_subset fun a ha => by simp [blockAtoms, Stmt.atoms, ha]
    exact ⟨ihb h.1 hwb hD, ih h.2 (hw.of_subset (by simp [blockAtoms])) (behind hw hD)⟩

/-! ## Starting a run -/

variable {R : Type}

/-- The machine when a run starts: the parameters hold the arguments. -/
def Machine.enter (m : Machine R) (params : List Var) (args : List (Slot R)) : Machine R :=
  (params.zip args).foldl (fun m p => m.setVar p.1 p.2) m

namespace Machine

variable {m : Machine R} {v : Var} {s : Slot R} {params : List Var} {args : List (Slot R)}

@[simp] theorem enter_nil (args : List (Slot R)) : m.enter [] args = m := rfl

@[simp] theorem enter_cons :
    m.enter (v :: params) (s :: args) = (m.setVar v s).enter params args := rfl

theorem enter_append (h : params.length = args.length) (v : Var) (s : Slot R) :
    m.enter (params ++ [v]) (args ++ [s]) = (m.enter params args).setVar v s := by
  rw [enter, List.zip_append h, List.foldl_append]
  rfl

/-- Starting a run only changes variables. -/
theorem enter_keeps (m : Machine R) (params : List Var) (args : List (Slot R)) :
    (m.enter params args).tapes = m.tapes ∧ (m.enter params args).world = m.world ∧
      (m.enter params args).graph = m.graph ∧ (m.enter params args).steps = m.steps ∧
      (m.enter params args).vars.size = m.vars.size := by
  induction params generalizing m args with
  | nil => exact ⟨rfl, rfl, rfl, rfl, rfl⟩
  | cons v params ih =>
    cases args with
    | nil => exact ⟨rfl, rfl, rfl, rfl, rfl⟩
    | cons s args =>
      obtain ⟨htapes, hworld, hgraph, hsteps, hsize⟩ := ih (m.setVar v s) args
      exact ⟨htapes, hworld, hgraph, hsteps, hsize.trans (size_setVar _ _ _)⟩

@[simp] theorem size_enter : (m.enter params args).vars.size = m.vars.size :=
  (enter_keeps m params args).2.2.2.2

/-- A variable holds what it held before, or an argument. -/
theorem enter_cases {w : Var} {slot : Slot R} (h : (m.enter params args).var w = some slot) :
    m.var w = some slot ∨ (w, slot) ∈ params.zip args := by
  induction params generalizing m args with
  | nil => exact .inl h
  | cons v params ih =>
    cases args with
    | nil => exact .inl h
    | cons s args =>
      rcases ih h with h | h
      · rw [var_setVar] at h
        split at h
        · rename_i hv
          cases h
          obtain rfl := hv.1
          exact .inr List.mem_cons_self
        · exact .inl h
      · exact .inr (List.mem_cons_of_mem _ h)

theorem enter_other {w : Var} (hw : w ∉ params) : (m.enter params args).var w = m.var w := by
  induction params generalizing m args with
  | nil => rfl
  | cons v params ih =>
    rw [List.mem_cons, not_or] at hw
    cases args with
    | nil => rfl
    | cons s args => rw [enter_cons, ih hw.2, var_setVar_ne _ _ _ _ (Ne.symm hw.1)]

/-- A parameter holds its argument. -/
theorem enter_param (hnodup : params.Nodup) (hsize : ∀ v ∈ params, v.idx < m.vars.size) {i : Nat}
    (hv : params[i]? = some v) (hs : args[i]? = some s) : (m.enter params args).var v = some s := by
  induction params generalizing m args i with
  | nil => simp at hv
  | cons w params ih =>
    cases args with
    | nil => simp at hs
    | cons a args =>
      rw [List.nodup_cons] at hnodup
      have hrest (x : Var) (hx : x ∈ params) : x.idx < (m.setVar w a).vars.size := by
        rw [size_setVar]
        exact hsize x (List.mem_cons_of_mem _ hx)
      cases i with
      | zero =>
        cases hv
        cases hs
        rw [enter_cons, enter_other hnodup.1, var_setVar_self _ _ _ (hsize _ List.mem_cons_self)]
      | succ i => exact ih hnodup.2 hrest (by simpa using hv) (by simpa using hs)

@[simp] theorem stack_enter {t : Tape} : (m.enter params args).stack t = m.stack t := by
  rw [stack, (enter_keeps m params args).1]
  rfl

end Machine

/-- A new machine when a run of the function starts. -/
def Func.entered (f : Func) (world : World R) (args : List (Value R)) : Machine R :=
  (Machine.new f world).enter f.params (args.map ({ value := · }))

theorem Func.stack_entered (f : Func) (world : World R) (args : List (Value R)) (t : Tape) :
    (f.entered world args).stack t = [] := by
  rw [Func.entered, Machine.stack_enter]
  rfl

theorem Func.size_entered (f : Func) (world : World R) (args : List (Value R)) :
    (f.entered world args).vars.size = f.vars.size := by
  rw [Func.entered, Machine.size_enter]
  simp [Machine.new]

/-- Agreeing machines still agree when a run starts. -/
theorem Agree.enter {m n : Machine R} {params : List Var} (h : Agree w m n)
    (hp : ∀ v ∈ params, w.var v) (args : List (Slot R)) :
    Agree w (m.enter params args) (n.enter params (args.map w.slot)) := by
  induction params generalizing m n args with
  | nil => exact h
  | cons v params ih =>
    cases args with
    | nil => exact h
    | cons s args =>
      exact ih (h.setVar (hp v (List.mem_cons_self ..)) s) (fun u hu => hp u (List.mem_cons_of_mem _ hu))
        args

/-- A variable that is not shown may change. -/
theorem Agree.setHidden {m n : Machine R} (h : Agree w m n) {v : Var} (hv : ¬w.var v) (s : Slot R) :
    Agree w m (n.setVar v s) := by
  refine ⟨fun u hu => ?_, h.left, fun u hu => by simpa using h.right u hu, h.stack, h.world, h.graph,
    h.steps⟩
  have hne : v ≠ u := by
    rintro rfl
    exact hv hu
  rw [Machine.var_setVar_ne _ _ _ _ hne, h.var u hu]

/-- A machine agrees with itself. -/
theorem Agree.refl (he : w.erase = false) {m : Machine R} (hv : ∀ v, w.var v → v.idx < m.vars.size) :
    Agree w m m := by
  have hslot : (w.slot : Slot R → Slot R) = id := funext fun s => Window.slot_keep he s
  refine ⟨fun v _ => ?_, hv, hv, fun t _ => ?_, rfl, ?_, rfl⟩
  · rw [hslot, Option.map_id_fun, id]
  · rw [hslot, List.map_id]
  · simp [he]

/-- New machines agree. -/
theorem Agree.new {g : Func} (hf : ∀ v, w.var v → v.idx < f.vars.size)
    (hg : ∀ v, w.var v → v.idx < g.vars.size) (world : World R) :
    Agree w (.new f world) (.new g world) := by
  have hvar (f : Func) (v : Var) : (Machine.new f world).var v = none := by
    simp only [Machine.var, Machine.new, Array.getD_eq_getD_getElem?, Array.getElem?_replicate]
    split <;> rfl
  refine ⟨fun v _ => by rw [hvar, hvar]; rfl, fun v hv => by simpa [Machine.new] using hf v hv,
    fun v hv => by simpa [Machine.new] using hg v hv, fun _ _ => rfl, rfl, ?_, rfl⟩
  simp [Machine.new]

/-- The values returned, if the body returned any. -/
def Flow.results {α : Type} :
    EStateM.Result RunError α (Flow R) → EStateM.Result RunError α (List (Slot R))
  | .ok (.ret vals) m => .ok vals m
  | .ok .next m => .error .missingReturn m
  | .error e m => .error e m

variable {m' : Machine R}

namespace Job

theorem writeAll_apply (m : Machine R) (params : List Var) (args : List (Slot R)) :
    writeAll (params.zip args) m = .ok () (m.enter params args) := by
  induction params generalizing m args with
  | nil => rfl
  | cons v params ih =>
    cases args with
    | nil => rfl
    | cons s args => exact ih (m.setVar v s) args

variable [Scalar R] (j : Job R) (m : Machine R)
variable {args : List (Slot R)}

/-- **A run sets the parameters and runs the body.** -/
theorem runSlots_eq (h : args.length = j.func.params.length) :
    j.runSlots args m = Flow.results (j.execBlock j.func.body (m.enter j.func.params args)) := by
  unfold runSlots
  rw [if_neg (by simpa using h)]
  dsimp only
  rw [bind_ok (writeAll_apply m j.func.params args), bind_apply]
  cases j.execBlock j.func.body (m.enter j.func.params args) with
  | ok flow m' => cases flow <;> rfl
  | error e m' => rfl

theorem runSlots_arity (h : args.length ≠ j.func.params.length) :
    j.runSlots args m = .error (.arity j.func.params.length args.length) m := by
  unfold runSlots
  rw [if_pos h]
  rfl

theorem runSlots_args {vals : List (Slot R)} (h : j.runSlots args m = .ok vals m') :
    args.length = j.func.params.length := by
  by_contra hne
  rw [j.runSlots_arity m hne] at h
  cases h

theorem run_eq_ok {args vals : List (Value R)} :
    j.run args m = .ok vals m' ↔ ∃ slots,
      j.runSlots (args.map ({ value := · })) m = .ok slots m' ∧ vals = Slot.values slots := by
  unfold run
  rw [bind_eq_ok]
  constructor
  · rintro ⟨slots, m₁, hrun, h⟩
    cases h
    exact ⟨slots, hrun, rfl⟩
  · rintro ⟨slots, hrun, rfl⟩
    exact ⟨slots, m', hrun, rfl⟩

theorem run_eq_error {args : List (Value R)} {e : RunError} :
    j.run args m = .error e m' ↔ j.runSlots (args.map ({ value := · })) m = .error e m' := by
  unfold run
  rw [bind_apply]
  cases j.runSlots (args.map ({ value := · })) m with
  | ok slots m₁ =>
    constructor
    · intro h
      cases h
    · intro h
      cases h
  | error e' m₁ =>
    constructor
    · intro h
      cases h
      rfl
    · intro h
      cases h
      rfl

end Job

/-- **Bodies that are run in step make runs in step.** -/
theorem PairLaw.runSlots {S S' : Type} [Scalar S] [Scalar S'] {law : PairLaw S S'} {j : Job S}
    {k : Job S'} {A B : Machine S → Machine S' → Prop}
    (hparams : k.func.params.length = j.func.params.length)
    (hbody : law.InStep A B (j.execBlock j.func.body) (k.execBlock k.func.body))
    (hend : ∀ m n, B m n → law.fail .missingReturn m .missingReturn n) {args : List (Slot S)}
    {args' : List (Slot S')} (hargs : args'.length = args.length) {m : Machine S}
    {n : Machine S'} (hstart : ∀ e, law.fail e m e n)
    (henter : args.length = j.func.params.length →
      A (m.enter j.func.params args) (n.enter k.func.params args')) :
    law.Ends (fun vals m' vals' n' => vals' = law.vals m' vals ∧ law.done m' n')
      (j.runSlots args m) (k.runSlots args' n) := by
  by_cases hlength : args.length = j.func.params.length
  · have hrun := hbody.ends _ _ (henter hlength)
    rw [j.runSlots_eq m hlength, k.runSlots_eq n (by rw [hargs, hparams, hlength])]
    generalize j.execBlock j.func.body _ = r at hrun
    generalize k.execBlock k.func.body _ = r' at hrun
    cases r with
    | ok flow m' =>
      cases r' with
      | ok flow' n' =>
        obtain ⟨rfl, hmn⟩ := hrun
        cases flow with
        | next => exact hend m' n' hmn
        | ret vals => exact ⟨rfl, hmn⟩
      | error e' n' =>
        cases flow with
        | next => exact law.right_fail hrun _ m' n'
        | ret vals => exact hrun
    | error e m' =>
      cases r' with
      | ok flow' n' =>
        cases flow' with
        | next => exact law.left_fail hrun _
        | ret vals => exact hrun
      | error e' n' => exact hrun
  · rw [j.runSlots_arity m hlength, k.runSlots_arity n (by rwa [hargs, hparams]), hargs, hparams]
    exact hstart _

end Backsweep
