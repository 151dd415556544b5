import Mathlib
import Backsweep.Proofs.Run.Reuse
import Backsweep.Proofs.Syntax.Renumbering

/-!
# Runs of renumbered functions

A run does not depend on where a function keeps its variables, as long as it keeps no two
of them in one place.

* `Machine.Moved`: a machine that holds the same, with variables in other places;
* `Job.Renames.execBlock`: code with its variables replaced does the same on such a machine;
* `Func.Renumbers.runFresh`: runs of renumbered functions end the same way.
-/

namespace Backsweep

variable {R : Type} {σ : Var → Var} {D : List Var}

/-! ## Machines -/

/-- The second machine holds what the first one does, the variables `D` in other places. -/
structure Machine.Moved (σ : Var → Var) (D : List Var) (m n : Machine R) : Prop where
  bare : n.bare = m.bare
  left : ∀ v ∈ D, v.idx < m.vars.size
  right : ∀ v ∈ D, (σ v).idx < n.vars.size
  var : ∀ v ∈ D, n.var (σ v) = m.var v

namespace Machine.Moved

variable {m n : Machine R}

theorem world (h : m.Moved σ D n) : n.world = m.world := (congrArg Machine.world h.bare :)

/-- Setting a variable keeps the others apart from it. -/
theorem setVar (h : m.Moved σ D n) (hσ : ∀ v ∈ D, ∀ w ∈ D, σ v = σ w → v = w) {v : Var}
    (hv : v ∈ D) (s : Slot R) : (m.setVar v s).Moved σ D (n.setVar (σ v) s) := by
  refine ⟨h.bare, fun w hw => by simpa using h.left w hw, fun w hw => by simpa using h.right w hw,
    fun w hw => ?_⟩
  by_cases heq : v = w
  · subst heq
    rw [Machine.var_setVar_self _ _ _ (h.right v hv), Machine.var_setVar_self _ _ _ (h.left v hv)]
  · have hne : σ v ≠ σ w := fun hsame => heq (hσ v hv w hw hsame)
    rw [Machine.var_setVar_ne _ _ _ _ hne, Machine.var_setVar_ne _ _ _ _ heq]
    exact h.var w hw

theorem enter (h : m.Moved σ D n) (hσ : ∀ v ∈ D, ∀ w ∈ D, σ v = σ w → v = w) {params : List Var}
    (hparams : ∀ v ∈ params, v ∈ D) (args : List (Slot R)) :
    (m.enter params args).Moved σ D (n.enter (params.map σ) args) := by
  induction params generalizing m n args with
  | nil => exact h
  | cons v params ih =>
    cases args with
    | nil => exact h
    | cons s args =>
      exact ih (h.setVar hσ (hparams v List.mem_cons_self) s)
        (fun w hw => hparams w (List.mem_cons_of_mem v hw)) args

theorem aligned : Aligned (R := R) σ (· ∈ D) (Machine.Moved σ D) (Machine.Moved σ D) where
  bare h := h.bare
  var h := h.var
  vars h hvars := by
    refine ⟨rfl, hvars ▸ h.left, h.right, fun v hv => ?_⟩
    rw [Machine.var, Machine.var, hvars]
    exact h.var v hv
  done h := h

end Machine.Moved

/-! ## Code -/

/-- Two runs that do the same, the second one with variables in other places. -/
abbrev moving (R : Type) (σ : Var → Var) (D : List Var) : PairLaw R R := .same (Machine.Moved σ D)

/-- The actions do the same, the second one with variables in other places. -/
abbrev Parallel (σ : Var → Var) (D : List Var) (x y : Exec R (Flow R)) : Prop :=
  (moving R σ D).InStep (Machine.Moved σ D) (Machine.Moved σ D) x y

namespace Job.Renames

variable [Scalar R] {j k : Job R} {m n : Machine R}

theorem moved (hjk : Job.Renames σ (· ∈ D) j k) {s : Stmt} (hs : s.isControlFlow = false)
    (hvars : ∀ v ∈ s.vars, v ∈ D) : Parallel σ D (j.exec s) (k.exec (s.rename σ)) := by
  have hreads : s.ReadsIn (· ∈ D) := by
    cases s, hs using Stmt.atomCases with
    | define dst decl e => exact fun v hv => hvars v (List.mem_cons_of_mem dst hv)
    | store obj field val => exact ⟨hvars obj (by simp [Stmt.vars]), hvars val (by simp [Stmt.vars])⟩
    | push t val => exact hvars val (by simp [Stmt.vars])
    | ret vals => exact hvars
    | _ => trivial
  refine hjk.atom Machine.Moved.aligned hs hreads ?_ fun _ _ _ h => h
  rintro dst decl e rfl m n slot h
  exact h.setVar hjk.injective (hvars dst List.mem_cons_self) slot

/-- **Code does the same with its variables in other places.** -/
theorem execBlock (hjk : Job.Renames σ (· ∈ D) j k) {b : Block} (hvars : ∀ v ∈ blockVars b, v ∈ D) :
    Parallel σ D (j.execBlock b) (k.execBlock (renameBlock σ b)) := by
  have hcovers : (moving R σ D).Covers j k σ (fun _ => Machine.Moved σ D)
      fun _ b => ∀ v ∈ blockVars b, v ∈ D := by
    have htests {v : Var} (hv : v ∈ D) := hjk.tests Machine.Moved.aligned hv
    refine ⟨fun _ _ _ h => h, fun _ => hjk.paces Machine.Moved.aligned, ?_, ?_, ?_, ?_, ?_⟩
    · intro _ s ss hs hvars
      exact ⟨hjk.moved hs fun v hv => hvars v (List.mem_append_left _ hv),
        fun v hv => hvars v (List.mem_append_right _ hv)⟩
    · intro _ arms other ss hvars
      simp only [blockVars, Stmt.vars, armsVars_eq, List.mem_append, List.mem_flatMap] at hvars
      refine ⟨fun arm harm => ⟨htests ?_, fun v hv => ?_⟩, fun v hv => hvars v (.inl (.inr hv)),
        fun v hv => hvars v (.inr hv)⟩
      · exact hvars arm.1 (.inl (.inl ⟨arm, harm, List.mem_cons_self⟩))
      · exact hvars v (.inl (.inl ⟨arm, harm, List.mem_cons_of_mem _ hv⟩))
    · intro _ header test body ss hvars
      simp only [blockVars, Stmt.vars, List.mem_append, List.mem_cons] at hvars
      exact ⟨fun v hv => hvars v (.inl (.inl hv)), htests (hvars test (.inl (.inr (.inl rfl)))),
        fun v hv => hvars v (.inl (.inr (.inr hv))), fun v hv => hvars v (.inr hv)⟩
    · intro _ body test ss hvars
      simp only [blockVars, Stmt.vars, List.mem_append, List.mem_singleton] at hvars
      exact ⟨fun v hv => hvars v (.inl (.inl hv)), htests (hvars test (.inl (.inr rfl))),
        fun v hv => hvars v (.inr hv)⟩
    · intro _ body ss hvars
      simp only [blockVars, Stmt.vars, List.mem_append] at hvars
      exact ⟨fun v hv => hvars v (.inl hv), fun v hv => hvars v (.inr hv)⟩
  exact hcovers.execBlock (D := ∅) hvars

/-! ## Runs -/

theorem runSlots (hjk : Job.Renames σ (· ∈ D) j k) (hparams : k.func.params = j.func.params.map σ)
    (hbody : k.func.body = renameBlock σ j.func.body) (hD : ∀ v ∈ j.func.occurring, v ∈ D)
    (h : m.Moved σ D n) (args : List (Slot R)) :
    SameEnd (Machine.Moved σ D) (Machine.Moved σ D) (j.runSlots args m) (k.runSlots args n) := by
  have hblock := hjk.execBlock fun v hv => hD v (List.mem_append_right _ hv)
  rw [← hbody] at hblock
  refine PairLaw.runSlots (by rw [hparams, List.length_map]) hblock (fun _ _ h => ⟨rfl, h⟩) rfl
    (fun _ => ⟨rfl, h⟩) fun _ => ?_
  rw [hparams]
  exact h.enter hjk.injective (fun v hv => hD v (List.mem_append_left _ hv)) args

end Job.Renames

/-- **Runs do not depend on how the variables of a function are numbered.** They end with
the same values or the same error, and leave the same records behind. -/
theorem Func.Renumbers.runFresh [Scalar R] {f g : Func} (h : f.Renumbers σ g)
    (hf : ∀ v ∈ f.occurring, v.idx < f.vars.size)
    (hg : ∀ v ∈ f.occurring, (σ v).idx < g.vars.size) (externs : Externs R) (limit : Nat)
    (args : List (Value R)) (world : World R) :
    (⟨g, externs, limit⟩ : Job R).runFresh args world =
      (⟨f, externs, limit⟩ : Job R).runFresh args world := by
  have hjk : Job.Renames σ (· ∈ f.occurring) (⟨f, externs, limit⟩ : Job R) ⟨g, externs, limit⟩ :=
    ⟨rfl, rfl, fun v hv => congrArg VarInfo.name (h.info v hv), h.injective⟩
  have hnew : (Machine.new f world : Machine R).Moved σ f.occurring (.new g world) := by
    refine ⟨rfl, fun v hv => ?_, fun v hv => ?_, fun v hv => ?_⟩
    · simpa [Machine.new] using hf v hv
    · simpa [Machine.new] using hg v hv
    · have hnone (f : Func) (v : Var) : (Machine.new f world : Machine R).var v = none := by
        simp only [Machine.new, Machine.var, Array.getD_eq_getD_getElem?, Array.getElem?_replicate]
        split <;> rfl
      rw [hnone, hnone]
  have hrun : SameEnd (Machine.Moved σ f.occurring) (Machine.Moved σ f.occurring)
      ((⟨f, externs, limit⟩ : Job R).run args (.new f world))
      ((⟨g, externs, limit⟩ : Job R).run args (.new g world)) :=
    (hjk.runSlots h.params h.body (fun _ hv => hv) hnew _).bind fun _ _ _ hend => ⟨rfl, hend⟩
  unfold Job.runFresh
  generalize (⟨f, externs, limit⟩ : Job R).run args (.new f world) = r at hrun ⊢
  generalize (⟨g, externs, limit⟩ : Job R).run args (.new g world) = r' at hrun ⊢
  cases r with
  | ok vals m =>
    cases r' with
    | ok vals' n =>
      obtain ⟨rfl, hend⟩ := hrun
      exact congrArg (EStateM.Result.ok vals') hend.world
    | error e n => exact hrun.elim
  | error e m =>
    cases r' with
    | ok vals n => exact hrun.elim
    | error e' n =>
      obtain ⟨rfl, hend⟩ := hrun
      exact congrArg (EStateM.Result.error e') hend.world

end Backsweep
