import Mathlib
import Backsweep.Proofs.Run.Recording

/-!
# Machines can be used again

A run leaves values in variables, and nothing clears them at the end of a block or before the
next run. Valid functions never see them: on every path, what is read was set by the same run.

* `Machine.AlikeOn`: two machines that hold the same, but for variables outside of a scope;
* `Blind`: actions that have nothing to do with variables;
* `Aligned`: what code needs of two machines to do the same on both, if the second one may keep
  variables in other places;
* `Job.Renames.atom`: such code does the same, statement by statement;
* `Repeats`: actions that do the same on machines that are alike on a scope;
* `Job.execBlock_repeats`: scoped code is such an action;
* `valid_run_repeats`: whole runs of valid functions.
-/

namespace Backsweep

variable {R : Type}

/-! ## Machines but for their variables -/

namespace Machine

def withVars (m : Machine R) (vars : Array (Option (Slot R))) : Machine R := { m with vars }

/-- The tapes with their counters, what is shared with the caller, the graph, and the step
count. -/
def bare (m : Machine R) : Machine R := m.withVars #[]

/-- The machines hold the same, but for variables outside of `D`. -/
structure AlikeOn (D : Finset Var) (m n : Machine R) : Prop where
  bare : n.bare = m.bare
  size : n.vars.size = m.vars.size
  var : ∀ v ∈ D, n.var v = m.var v

namespace AlikeOn

variable {D D' : Finset Var} {m n : Machine R}

theorem narrow (h : m.AlikeOn D n) (hD : D' ⊆ D) : m.AlikeOn D' n :=
  ⟨h.bare, h.size, fun v hv => h.var v (hD hv)⟩

/-- A variable that both machines set is no longer outside of the scope. -/
theorem setVar (h : m.AlikeOn D n) (v : Var) (s : Slot R) :
    (m.setVar v s).AlikeOn (insert v D) (n.setVar v s) := by
  have outside (m : Machine R) (hv : ¬v.idx < m.vars.size) : m.var v = none := by
    simp [Machine.var, hv]
  refine ⟨h.bare, by simpa using h.size, fun w hw => ?_⟩
  rw [var_setVar, var_setVar, h.size]
  split
  · rfl
  rename_i hset
  rcases Finset.mem_insert.mp hw with rfl | hw
  · -- not an entry of the table, so neither machine has set it
    have hout : ¬w.idx < m.vars.size := fun hlt => hset ⟨rfl, hlt⟩
    rw [outside m hout, outside n (by rwa [h.size])]
  · exact h.var w hw

theorem enter (h : m.AlikeOn D n) {params : List Var} {args : List (Slot R)}
    (hargs : args.length = params.length) :
    (m.enter params args).AlikeOn (D ∪ params.toFinset) (n.enter params args) := by
  induction params generalizing D m n args with
  | nil => simpa using h
  | cons v params ih =>
    cases args with
    | nil => cases hargs
    | cons s args =>
      refine (ih (h.setVar v s) (Nat.succ.inj hargs)).narrow fun w hw => ?_
      simp only [Finset.mem_union, List.mem_toFinset, List.mem_cons, Finset.mem_insert] at hw ⊢
      tauto

end AlikeOn

end Machine

/-! ## Actions -/

section
variable {α β : Type}

def resultWithVars (vars : Array (Option (Slot R))) :
    EStateM.Result RunError (Machine R) α → EStateM.Result RunError (Machine R) α
  | .ok x m => .ok x (m.withVars vars)
  | .error e m => .error e (m.withVars vars)

/-- The result, and what the machine it was reached on holds besides variables. -/
def bareResult : EStateM.Result RunError (Machine R) α → EStateM.Result RunError (Machine R) α :=
  resultWithVars #[]

/-- The same value or error. The machines are in the relation `K`, or in `E` after an error. -/
abbrev SameEnd (K E : Machine R → Machine R → Prop) :
    EStateM.Result RunError (Machine R) α → EStateM.Result RunError (Machine R) α → Prop :=
  (PairLaw.same E).Ends fun x m y n => y = x ∧ K m n

theorem SameEnd.bare {r r' : EStateM.Result RunError (Machine R) α}
    (h : SameEnd (Machine.AlikeOn ∅) (Machine.AlikeOn ∅) r r') : bareResult r = bareResult r' := by
  cases r with
  | ok x m =>
    cases r' with
    | ok y n =>
      obtain ⟨rfl, hmn⟩ := h
      exact congrArg (EStateM.Result.ok y) hmn.bare.symm
    | error e n => exact h.elim
  | error e m =>
    cases r' with
    | ok y n => exact h.elim
    | error e' n =>
      obtain ⟨rfl, hmn⟩ := h
      exact congrArg (EStateM.Result.error e') hmn.bare.symm

theorem SameEnd.bind {K E : Machine R → Machine R → Prop} {q : β → Machine R → β → Machine R → Prop}
    {x y : Exec R α} {f g : α → Exec R β} {m n : Machine R} (h : SameEnd K E (x m) (y n))
    (hf : ∀ a m' n', K m' n' → (PairLaw.same E).Ends q (f a m') (g a n')) :
    (PairLaw.same E).Ends q ((x >>= f) m) ((y >>= g) n) := by
  apply PairLaw.Ends.bind h fun _ => PairLaw.same_alone _
  rintro _ m' a n' ⟨rfl, hmn⟩
  exact hf a m' n' hmn

/-- The action neither reads nor sets variables. -/
def Blind (act : Exec R α) : Prop :=
  ∀ m vars, act (m.withVars vars) = resultWithVars vars (act m)

/-- What has to do with the world and the graph only has nothing to do with variables. -/
theorem Blind.of_share {act : Exec R α} (h : ∀ m n : Machine R, act (m.share n) = m.relay (act n)) :
    Blind act := by
  intro m vars
  have hkept : act m = m.relay (act m) := h m m
  have hmoved : act (m.withVars vars) = (m.withVars vars).relay (act m) := h (m.withVars vars) m
  rw [hmoved]
  cases hact : act m with
  | ok a m' =>
    rw [hact] at hkept
    have hm' : m' = m.share m' := (EStateM.Result.ok.inj hkept).2
    exact congrArg (fun k : Machine R => EStateM.Result.ok a (k.withVars vars)) hm'.symm
  | error e m' =>
    rw [hact] at hkept
    have hm' : m' = m.share m' := (EStateM.Result.error.inj hkept).2
    exact congrArg (fun k : Machine R => EStateM.Result.error e (k.withVars vars)) hm'.symm

/-- Machines in the relation `K` differ in their variables only, and what the first one keeps in
a variable of `D`, the second one keeps where `σ` says. After an error, `E` is what counts. -/
structure Aligned (σ : Var → Var) (D : Var → Prop) (K E : Machine R → Machine R → Prop) : Prop where
  bare : ∀ {m n}, K m n → n.bare = m.bare
  var : ∀ {m n}, K m n → ∀ v, D v → n.var (σ v) = m.var v
  vars : ∀ {m n m'}, K m n → m'.vars = m.vars → K m' (m'.withVars n.vars)
  done : ∀ {m n}, K m n → E m n

theorem Blind.same {act : Exec R α} (h : Blind act) {σ : Var → Var} {D : Var → Prop}
    {K E : Machine R → Machine R → Prop} (hK : Aligned σ D K E) {m n : Machine R} (hmn : K m n) :
    SameEnd K E (act m) (act n) := by
  have hn : n = m.withVars n.vars := congrArg (·.withVars n.vars) (hK.bare hmn)
  have hm : act m = resultWithVars m.vars (act m) := h m m.vars
  rw [hn, h m n.vars]
  cases hact : act m with
  | ok a m' =>
    rw [hact] at hm
    exact ⟨rfl, hK.vars hmn (congrArg Machine.vars (EStateM.Result.ok.inj hm).2 :)⟩
  | error e m' =>
    rw [hact] at hm
    exact ⟨rfl, hK.done (hK.vars hmn (congrArg Machine.vars (EStateM.Result.error.inj hm).2 :))⟩

end

namespace Job

variable (j : Job R)

theorem blind_ofExcept {α : Type} (x : Except RunError α) : Blind (ofExcept x : Exec R α) := by
  cases x with
  | ok a => exact fun _ _ => rfl
  | error e => exact fun _ _ => rfl

theorem blind_push (t : Tape) (s : Slot R) : Blind (push t s) := fun _ _ => rfl

theorem blind_pop (t : Tape) : Blind (pop t : Exec R (Slot R)) := by
  intro m vars
  have hst : (m.withVars vars).stack t = m.stack t := rfl
  cases h : m.stack t with
  | nil => rw [pop_nil m h, pop_nil _ (hst.trans h)]; rfl
  | cons s st => rw [pop_cons m h, pop_cons _ (hst.trans h)]; rfl

theorem blind_tick : Blind j.tick := by
  intro m vars
  have hsteps : (m.withVars vars).steps = m.steps := rfl
  rw [tick_apply, tick_apply, hsteps]
  split <;> rfl

theorem blind_load (h : Nat) (field : String) : Blind (load h field : Exec R (Slot R)) := by
  intro m vars
  have hworld : (m.withVars vars).world = m.world := rfl
  rw [load_apply, load_apply, hworld]
  cases m.world.heap.load h field <;> rfl

theorem blind_store (h : Nat) (field : String) (s : Slot R) : Blind (store h field s) := by
  intro m vars
  have hworld : (m.withVars vars).world = m.world := rfl
  rw [store_apply, store_apply, hworld]
  cases m.world.heap.store h field s.value <;> rfl

end Job

/-! ## Statements -/

/-- The variables that an atomic statement reads are in `D`. -/
def Stmt.ReadsIn (D : Var → Prop) : Stmt → Prop
  | .define _ _ e => ∀ v ∈ e.uses, D v
  | .store obj _ val => D obj ∧ D val
  | .push _ val => D val
  | .ret vals => ∀ v ∈ vals, D v
  | _ => True

/-- The second job is the first one with the variables `D` of its code replaced, no two by
the same. -/
structure Job.Renames (σ : Var → Var) (D : Var → Prop) (j k : Job R) : Prop where
  externs : k.externs = j.externs
  limit : k.limit = j.limit
  name : ∀ v, D v → k.func.varName (σ v) = j.func.varName v
  injective : ∀ v, D v → ∀ w, D w → σ v = σ w → v = w

namespace Job.Renames

variable {σ : Var → Var} {D : Var → Prop} {K E : Machine R → Machine R → Prop} {j k : Job R}
  {m n : Machine R} {v : Var}

theorem refl (j : Job R) (D : Var → Prop) : Job.Renames id D j j :=
  ⟨rfl, rfl, fun _ _ => rfl, fun _ _ _ _ h => h⟩

variable (hjk : Job.Renames σ D j k) (hK : Aligned σ D K E)
include hjk hK

theorem read (h : K m n) (hv : D v) : SameEnd K E (j.read v m) (k.read (σ v) n) := by
  have hn := hK.var h v hv
  cases hm : m.var v with
  | none =>
    rw [hm] at hn
    rw [j.read_none m hm, k.read_none n hn, hjk.name v hv]
    exact ⟨rfl, hK.done h⟩
  | some s =>
    rw [hm] at hn
    rw [j.read_some m hm, k.read_some n hn]
    exact ⟨rfl, h⟩

theorem readBool (h : K m n) (hv : D v) : SameEnd K E (j.readBool v m) (k.readBool (σ v) n) :=
  (hjk.read hK h hv).bind fun s _ _ h => (blind_ofExcept s.value.toBool).same hK h

theorem readObj (h : K m n) (hv : D v) : SameEnd K E (j.readObj v m) (k.readObj (σ v) n) :=
  (hjk.read hK h hv).bind fun s _ _ h => (blind_ofExcept s.value.toObj).same hK h

theorem readAll (h : K m n) {vs : List Var} (hvs : ∀ v ∈ vs, D v) :
    SameEnd K E (j.readAll vs m) (k.readAll (vs.map σ) n) := by
  induction vs generalizing m n with
  | nil => exact ⟨rfl, h⟩
  | cons v vs ih =>
    refine (hjk.read hK h (hvs v List.mem_cons_self)).bind fun s m' n' h' => ?_
    refine (ih h' fun w hw => hvs w (List.mem_cons_of_mem _ hw)).bind fun ss m'' n'' h'' => ?_
    exact ⟨rfl, h''⟩

theorem tests (hv : D v) : (PairLaw.same E).Tests K (j.readBool v) (k.readBool (σ v)) :=
  ⟨fun _ _ h => hjk.readBool hK h hv, PairLaw.same_alone _⟩

theorem paces : (PairLaw.same E).Paces j k K := by
  have htick : k.tick = j.tick := by
    unfold Job.tick
    rw [hjk.limit]
  refine ⟨⟨fun m n h => ?_, PairLaw.same_alone _⟩, fun _ _ h => ⟨rfl, hK.done h⟩⟩
  rw [htick]
  exact (j.blind_tick.same hK h).mono fun _ _ _ _ h => h.2

variable [Scalar R]

theorem eval (h : K m n) {e : Expr} (huses : ∀ v ∈ e.uses, D v) :
    SameEnd K E (j.eval e m) (k.eval (e.mapVars σ) n) := by
  cases e with
  | const c => exact ⟨rfl, h⟩
  | copy v => exact hjk.read hK h (huses v List.mem_cons_self)
  | load obj field =>
    exact (hjk.readObj hK h (huses obj List.mem_cons_self)).bind fun handle _ _ h =>
      (blind_load handle field).same hK h
  | op op args =>
    exact (hjk.readAll hK h huses).bind fun ss _ _ h =>
      (Blind.of_share (operate_share op ss)).same hK h
  | call callee args node =>
    have hcall (ss : List (Slot R)) : k.call callee ss = j.call callee ss := by
      unfold Job.call
      rw [hjk.externs]
    refine (hjk.readAll hK h huses).bind fun ss _ _ h => ?_
    rw [hcall]
    exact (Blind.of_share (call_share rfl callee ss)).same hK h
  | pop t => exact (blind_pop t).same hK h
  | topIs t d =>
    have heval (j : Job R) (m : Machine R) :
        j.eval (.topIs t d) m = .ok { value := .bool (m.tapes.topIs t d) } m := rfl
    have htapes : n.tapes = m.tapes := (congrArg Machine.tapes (hK.bare h) :)
    rw [Expr.mapVars, heval, heval, htapes]
    exact ⟨rfl, h⟩

/-- A statement does the same with its variables in other places. Only a definition can change
what the machines have in common. -/
theorem atom {K' : Machine R → Machine R → Prop} {s : Stmt} (hs : s.isControlFlow = false)
    (hreads : s.ReadsIn D)
    (hset : ∀ dst decl e, s = .define dst decl e → ∀ m n slot, K m n →
      K' (m.setVar dst slot) (n.setVar (σ dst) slot))
    (hkeep : s.decl? = none → ∀ m n, K m n → K' m n) :
    (PairLaw.same E).InStep K K' (j.exec s) (k.exec (s.rename σ)) := by
  refine ⟨fun m n h => ?_, PairLaw.same_alone _⟩
  cases s, hs using Stmt.atomCases with
  | define dst decl e =>
    exact (hjk.eval hK h hreads).bind fun s m' n' h' => ⟨rfl, hset dst decl e rfl m' n' s h'⟩
  | store obj field val =>
    refine (hjk.readObj hK h hreads.1).bind fun handle _ _ h => ?_
    refine (hjk.read hK h hreads.2).bind fun s _ _ h => ?_
    exact ((blind_store handle field s).same hK h).bind fun _ _ _ h => ⟨rfl, hkeep rfl _ _ h⟩
  | push t val =>
    refine (hjk.read hK h hreads).bind fun s _ _ h => ?_
    exact ((blind_push t s).same hK h).bind fun _ _ _ h => ⟨rfl, hkeep rfl _ _ h⟩
  | pushDecision t d =>
    exact ((blind_push t { value := .int d }).same hK h).bind fun _ _ _ h =>
      ⟨rfl, hkeep rfl _ _ h⟩
  | unreachable => exact ⟨rfl, hK.done h⟩
  | ret vals => exact (hjk.readAll hK h hreads).bind fun ss _ _ h => ⟨rfl, hK.done h⟩

end Job.Renames

/-! ## Blocks -/

/-- Two runs that do the same. When they have ended, no variable counts. -/
abbrev reuse (R : Type) : PairLaw R R := .same (Machine.AlikeOn ∅)

/-- The action does the same on machines that are alike on `D`, and where it goes on they are
alike on `D'`. -/
abbrev Repeats (D D' : Finset Var) (act : Exec R (Flow R)) : Prop :=
  (reuse R).InStep (Machine.AlikeOn D) (Machine.AlikeOn D') act act

namespace Job

variable {j : Job R} {D : Finset Var}

theorem aligned_alikeOn (D : Finset Var) :
    Aligned id (· ∈ D) (Machine.AlikeOn (R := R) D) (Machine.AlikeOn ∅) where
  bare h := h.bare
  var h := h.var
  vars h hvars := by
    refine ⟨rfl, hvars ▸ h.size, fun v hv => ?_⟩
    rw [Machine.var, Machine.var, hvars]
    exact h.var v hv
  done h := h.narrow (Finset.empty_subset D)

theorem tests_repeat {v : Var} (hv : v ∈ D) :
    (reuse R).Tests (Machine.AlikeOn D) (j.readBool v) (j.readBool v) :=
  (Renames.refl j (· ∈ D)).tests (aligned_alikeOn D) hv

variable [Scalar R] {f : Func}

theorem atom_repeats {s : Stmt} (hs : s.isControlFlow = false) (hscoped : s.Scoped f D) :
    (reuse R).InStep (Machine.AlikeOn D) (Machine.AlikeOn (blockScope D [s])) (j.exec s)
      (j.exec (s.rename id)) := by
  have hreads : s.ReadsIn (· ∈ D) := by
    cases s, hs using Stmt.atomCases with
    | define dst decl e => exact hscoped.uses
    | pushDecision t d => trivial
    | unreachable => trivial
    | _ => exact hscoped
  refine (Renames.refl j (· ∈ D)).atom (aligned_alikeOn D) hs hreads ?_ fun hdecl m n h => ?_
  · rintro dst decl e rfl m n slot h
    apply (h.setVar dst slot).narrow
    cases decl with
    | true => rw [blockScope_declare]
    | false => rw [blockScope_same D rfl]; exact Finset.subset_insert dst D
  · rwa [blockScope_same D hdecl]

/-- **Scoped code does not depend on variables out of scope.** -/
theorem execBlock_repeats {b : Block} (h : blockScoped f D b) :
    Repeats D (blockScope D b) (j.execBlock b) := by
  have hcovers : (reuse R).Covers j j id Machine.AlikeOn (blockScoped f) := by
    refine ⟨fun hD _ _ h => h.narrow hD, fun D => (Renames.refl j (· ∈ D)).paces (aligned_alikeOn D),
      fun hs h => ⟨atom_repeats hs h.1, h.2⟩, ?_, ?_, ?_, ?_⟩
    · rintro D arms other ss ⟨⟨harms, hother⟩, hss⟩
      rw [armsScoped_iff] at harms
      rw [blockScope_controlFlow D rfl] at hss
      exact ⟨fun arm harm => ⟨tests_repeat (harms arm harm).1, (harms arm harm).2⟩, hother, hss⟩
    · rintro D header test body ss ⟨⟨hheader, htest, -, hbody⟩, hss⟩
      rw [blockScope_controlFlow D rfl] at hss
      exact ⟨hheader, tests_repeat htest, hbody, hss⟩
    · rintro D body test ss ⟨⟨hbody, htest⟩, hss⟩
      rw [blockScope_controlFlow D rfl] at hss
      exact ⟨hbody, tests_repeat htest, hss⟩
    · rintro D body ss ⟨hbody, hss⟩
      rw [blockScope_controlFlow D rfl] at hss
      exact ⟨hbody, hss⟩
  exact hcovers.sameBlock h

/-! ## Runs -/

theorem runSlots_same (hvalid : j.func.isValid = true) {m n : Machine R} (h : m.AlikeOn ∅ n)
    (args : List (Slot R)) :
    SameEnd (Machine.AlikeOn ∅) (Machine.AlikeOn ∅) (j.runSlots args m) (j.runSlots args n) := by
  have hbody := execBlock_repeats (j := j) (Func.scoped_of_isValid hvalid)
  refine PairLaw.runSlots rfl hbody (fun _ _ h => ⟨rfl, h.narrow (Finset.empty_subset _)⟩) rfl
    (fun _ => ⟨rfl, h⟩) fun hargs => ?_
  have henter := h.enter hargs
  rwa [Finset.empty_union] at henter

theorem run_same (hvalid : j.func.isValid = true) {m n : Machine R} (h : m.AlikeOn ∅ n)
    (args : List (Value R)) :
    SameEnd (Machine.AlikeOn ∅) (Machine.AlikeOn ∅) (j.run args m) (j.run args n) :=
  (runSlots_same hvalid h _).bind fun _ _ _ h => ⟨rfl, h⟩

theorem size_run (args : List (Value R)) (m : Machine R) :
    Ends (j.run args m) (fun _ m' => m'.vars.size = m.vars.size)
      (fun _ m' => m'.vars.size = m.vars.size) := by
  have hrun : Ends (j.runSlots (args.map ({ value := · })) m)
      (fun _ m' => m'.vars.size = m.vars.size) (fun _ m' => m'.vars.size = m.vars.size) := by
    by_cases hargs : (args.map fun a => ({ value := a } : Slot R)).length = j.func.params.length
    · have hbody := j.execBlock_frame (b := j.func.body) (V := fun _ => False) (T := fun _ => False)
        (fun _ _ _ h => h.elim) (fun _ h => h.elim)
        (m.enter j.func.params (args.map ({ value := · })))
      rw [j.runSlots_eq m hargs]
      generalize j.execBlock j.func.body _ = r at hbody
      cases r with
      | ok flow m' =>
        have hsize := hbody.size.trans Machine.size_enter
        cases flow <;> exact hsize
      | error e m' => exact hbody.size.trans Machine.size_enter
    · rw [j.runSlots_arity m hargs]
      rfl
  rw [run, ends_bind]
  exact hrun.mono (fun _ _ h => h) fun _ _ h => h

/-- The machine that runs leave behind one after the other, whether they fail or not. -/
def after (j : Job R) : List (List (Value R)) → Machine R → Machine R
  | [], m => m
  | args :: history, m => j.after history (endState (j.run args m))

theorem size_after (history : List (List (Value R))) (m : Machine R) :
    (j.after history m).vars.size = m.vars.size := by
  induction history generalizing m with
  | nil => rfl
  | cons args history ih => exact (ih _).trans (size_run args m).endState

end Job

/-- **Runs of a valid function do not depend on what variables held before.** On any two machines
for it that hold the same otherwise, runs end with the same results or the same error, and leave
the same tapes, records and step count. So after any history of runs, a run goes as it does with
the variables of a new machine. -/
theorem valid_run_repeats [Scalar R] {j : Job R} (hvalid : j.func.isValid = true)
    (args : List (Value R)) :
    (∀ m n : Machine R, m.vars.size = j.func.vars.size → n.vars.size = j.func.vars.size →
      m.bare = n.bare → bareResult (j.run args m) = bareResult (j.run args n)) ∧
    ∀ (history : List (List (Value R))) (world : World R),
      bareResult (j.run args (j.after history (.new j.func world))) =
        bareResult (j.run args
          ((j.after history (.new j.func world)).withVars (Machine.new j.func world).vars)) := by
  have same (m n : Machine R) (hm : m.vars.size = j.func.vars.size)
      (hn : n.vars.size = j.func.vars.size) (hbare : m.bare = n.bare) :
      bareResult (j.run args m) = bareResult (j.run args n) :=
    (Job.run_same hvalid ⟨hbare.symm, hn.trans hm.symm, by simp⟩ args).bare
  have hnew (world : World R) : (Machine.new j.func world).vars.size = j.func.vars.size := by
    simp [Machine.new]
  refine ⟨same, fun history world => same _ _ ?_ (hnew world) rfl⟩
  rw [Job.size_after, hnew]

/-- After a run that returned and one that failed, the powers of three are those that a new
machine finds. They do not depend on variables that hold values of other types either. -/
theorem powers_run_repeats :
    let j : Job ℚ := ⟨.powers, .none, 100⟩
    let new : Machine ℚ := .new .powers {}
    let m := j.after [[.real 2], [.bool true]] new
    m.vars ≠ new.vars ∧
      bareResult (j.run [.real 3] m) = bareResult (j.run [.real 3] (m.withVars new.vars)) ∧
      bareResult (j.run [.real 3] new) = bareResult (j.run [.real 3]
        (new.withVars (.replicate 4 (some { value := .bool true })))) := by
  intro j new m
  have hrepeats := valid_run_repeats (j := j) (by decide +kernel) [.real 3]
  have hleft : (m.vars.getD 0 none).isSome = true := by decide +kernel
  refine ⟨fun hvars => ?_, hrepeats.2 _ _, hrepeats.1 _ _ rfl rfl rfl⟩
  rw [hvars] at hleft
  exact absurd hleft (by decide +kernel)

end Backsweep
