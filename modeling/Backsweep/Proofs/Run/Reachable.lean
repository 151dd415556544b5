import Mathlib
import Backsweep.Proofs.Run.Whole

/-!
# Machines on the way

What a run meets before it ends. A machine changes when a loop starts a round, when an
expression is evaluated and when a statement ends, also by failing.

* `Job.Passes`: the machines that a block meets;
* `Job.Reaches`: the machines that a run of the function meets;
* `Job.Passes.obeys`: a law of atomic statements, evaluations and ticks holds between the
  first machine and every other one;
* `Job.execBlock_passes`, `Job.runSlots_reaches`: a run ends on a machine that it meets.
-/

namespace Backsweep

variable {R : Type}

/-- The action ends on this machine, with a result or with an error. -/
def EndsAt {α : Type} (r : EStateM.Result RunError (Machine R) α) (m : Machine R) : Prop :=
  Ends r (fun _ m' => m' = m) (fun _ m' => m' = m)

theorem EndsAt.of_ends {α : Type} {r : EStateM.Result RunError (Machine R) α} {m : Machine R}
    (h : EndsAt r m) {P : Machine R → Prop} (hP : Ends r (fun _ => P) (fun _ => P)) : P m := by
  cases r with
  | ok x m' => cases h; exact hP
  | error e m' => cases h; exact hP

variable [Scalar R]

/-- A block that starts on the first machine meets the second one. -/
inductive Job.Passes (j : Job R) : Block → Machine R → Machine R → Prop
  | start {b m} : Passes j b m m
  /-- The value of a definition is there, and not written yet. -/
  | value {dst decl e ss m m'} (ends : EndsAt (j.eval e m) m') :
      Passes j (.define dst decl e :: ss) m m'
  | atom {s ss m m'} (atomic : s.isControlFlow = false) (ends : EndsAt (j.exec s m) m') :
      Passes j (s :: ss) m m'
  | later {s ss m m₁ m'} (first : j.exec s m = .ok .next m₁) (rest : Passes j ss m₁ m') :
      Passes j (s :: ss) m m'
  | block {body ss m m'} (inside : Passes j body m m') : Passes j (.block body :: ss) m m'
  | taken {test body arms other ss m m₁ m'} (holds : j.readBool test m = .ok true m₁)
      (inside : Passes j body m₁ m') : Passes j (.cond ((test, body) :: arms) other :: ss) m m'
  | skipped {test body arms other ss m m₁ m'} (fails : j.readBool test m = .ok false m₁)
      (rest : Passes j (.cond arms other :: ss) m₁ m') :
      Passes j (.cond ((test, body) :: arms) other :: ss) m m'
  | other {other ss m m'} (inside : Passes j other m m') : Passes j (.cond [] other :: ss) m m'
  | tick {header test body ss m m'} (ends : EndsAt (j.tick m) m') :
      Passes j (.loop header test body :: ss) m m'
  | header {header test body ss m m₁ m'} (started : j.tick m = .ok () m₁)
      (inside : Passes j header m₁ m') : Passes j (.loop header test body :: ss) m m'
  | body {header test body ss m m₁ m₂ m₃ m'} (started : j.tick m = .ok () m₁)
      (tested : j.execBlock header m₁ = .ok .next m₂) (holds : j.readBool test m₂ = .ok true m₃)
      (inside : Passes j body m₃ m') : Passes j (.loop header test body :: ss) m m'
  | again {header test body ss m m₁ m₂ m₃ m₄ m'} (started : j.tick m = .ok () m₁)
      (tested : j.execBlock header m₁ = .ok .next m₂) (holds : j.readBool test m₂ = .ok true m₃)
      (done : j.execBlock body m₃ = .ok .next m₄)
      (rest : Passes j (.loop header test body :: ss) m₄ m') :
      Passes j (.loop header test body :: ss) m m'
  | doLoop {body test ss m m'} (rounds : Passes j (.loop body test [] :: ss) m m') :
      Passes j (.doLoop body test :: ss) m m'

/-- A run of the function that starts on `m` meets the machine: while the parameters are
set, or later. -/
inductive Job.Reaches (j : Job R) (args : List (Slot R)) (m : Machine R) : Machine R → Prop
  | start : Reaches j args m m
  | entering (n : Nat) (arity : args.length = j.func.params.length) :
      Reaches j args m (m.enter (j.func.params.take n) (args.take n))
  | running {m'} (arity : args.length = j.func.params.length)
      (body : j.Passes j.func.body (m.enter j.func.params args) m') : Reaches j args m m'

/-! ## Laws -/

/-- The statement obeys the law, and so does the evaluation of what it defines. -/
structure RunLaw.Governs (law : RunLaw R) (j : Job R) (s : Stmt) : Prop where
  exec : law.Obeys (j.exec s)
  eval : ∀ dst decl e, s = .define dst decl e → ∀ m,
    Ends (j.eval e m) (fun _ m' => law.step m m') (fun _ m' => law.step m m')

section
variable (law : RunLaw R) {j : Job R} {b : Block} {m m' : Machine R}

theorem RunLaw.step_of_block (h : ∀ a ∈ blockAtoms b, law.Governs j a) {flow : Flow R}
    (hrun : j.execBlock b m = .ok flow m') : law.step m m' :=
  ((RunLaw.block j b fun a ha => (h a ha).exec) m |>.of_ok hrun).2

/-- **What atomic statements, evaluations and ticks respect holds of every machine on the
way.** -/
theorem Job.Passes.obeys (hpass : j.Passes b m m') (h : ∀ a ∈ blockAtoms b, law.Governs j a) :
    law.step m m' := by
  induction hpass with
  | start => exact law.refl _
  | @value dst decl e ss m m' ends =>
    have hs := h (.define dst decl e) (by simp [blockAtoms, Stmt.atoms])
    exact ends.of_ends (hs.eval dst decl e rfl m)
  | @atom s ss m m' atomic ends =>
    have hs := h s (by simp [blockAtoms, Stmt.atoms_of_not_controlFlow atomic])
    exact ends.of_ends ((hs.exec m).mono (fun _ _ h => h.2) fun _ _ h => h.2)
  | @later s ss m m₁ m' first rest ih =>
    have hs : ∀ a ∈ blockAtoms [s], law.Governs j a := fun a ha => h a (by
      simp only [blockAtoms, List.append_nil] at ha
      simp [blockAtoms, ha])
    refine law.trans (law.step_of_block hs ((j.execBlock_singleton s m).trans first))
      (ih fun a ha => h a ?_)
    simp [blockAtoms, ha]
  | block inside ih => exact ih fun a ha => h a (by simp [blockAtoms, Stmt.atoms, ha])
  | taken holds inside ih =>
    cases (j.readBool_ends _ _).of_ok holds
    exact ih fun a ha => h a (by simp [blockAtoms, Stmt.atoms, armsAtoms, ha])
  | skipped fails rest ih =>
    cases (j.readBool_ends _ _).of_ok fails
    refine ih fun a ha => h a ?_
    simp only [blockAtoms, Stmt.atoms, armsAtoms, List.append_assoc, List.mem_append] at ha ⊢
    exact .inr ha
  | other inside ih => exact ih fun a ha => h a (by simp [blockAtoms, Stmt.atoms, armsAtoms, ha])
  | tick ends =>
    exact ends.of_ends ((law.tick_ends j _).mono (fun _ _ h => h) fun _ _ h => h.2)
  | header started inside ih =>
    exact law.trans ((law.tick_ends j _).of_ok started)
      (ih fun a ha => h a (by simp [blockAtoms, Stmt.atoms, ha]))
  | body started tested holds inside ih =>
    cases (j.readBool_ends _ _).of_ok holds
    have hheader := law.step_of_block
      (fun a ha => h a (by simp [blockAtoms, Stmt.atoms, ha])) tested
    exact law.trans ((law.tick_ends j _).of_ok started) (law.trans hheader
      (ih fun a ha => h a (by simp [blockAtoms, Stmt.atoms, ha])))
  | again started tested holds done rest ih =>
    cases (j.readBool_ends _ _).of_ok holds
    have hheader := law.step_of_block
      (fun a ha => h a (by simp [blockAtoms, Stmt.atoms, ha])) tested
    have hbody := law.step_of_block
      (fun a ha => h a (by simp [blockAtoms, Stmt.atoms, ha])) done
    exact law.trans ((law.tick_ends j _).of_ok started)
      (law.trans hheader (law.trans hbody (ih h)))
  | doLoop rounds ih =>
    refine ih fun a ha => h a ?_
    simpa [blockAtoms, Stmt.atoms] using ha

end

/-! ## Ends of runs -/

namespace Job

variable (j : Job R)

/-- The block ends on a machine that it meets. -/
def BlockMeetsEnd (b : Block) : Prop :=
  ∀ m, Ends (j.execBlock b m) (fun _ => j.Passes b m) (fun _ => j.Passes b m)

/-- The statement ends on a machine that a block meets if it starts with the statement. -/
def StmtMeetsEnd (s : Stmt) : Prop :=
  ∀ ss m, Ends (j.exec s m) (fun _ => j.Passes (s :: ss) m) (fun _ => j.Passes (s :: ss) m)

variable {j}

theorem stmtMeetsEnd_cond {arms : List (Var × Block)} {other : Block}
    (harms : ∀ arm ∈ arms, j.BlockMeetsEnd arm.2) (hother : j.BlockMeetsEnd other) :
    j.StmtMeetsEnd (.cond arms other) := by
  induction arms with
  | nil => exact fun ss m => (hother m).mono (fun _ _ h => .other h) fun _ _ h => .other h
  | cons arm arms ih =>
    obtain ⟨test, body⟩ := arm
    intro ss m
    change Ends ((j.readBool test >>= fun go =>
      if go then j.execBlock body else j.execArms arms (j.execBlock other)) m) _ _
    rw [ends_bind]
    refine (j.readBool_ends m test).known.mono ?_ fun _ m' hm' => hm' ▸ .start
    rintro go m' ⟨hread, rfl⟩
    cases go with
    | true =>
      exact (harms (test, body) (by simp) m').mono (fun _ _ h => .taken hread h)
        fun _ _ h => .taken hread h
    | false =>
      exact (ih (fun arm harm => harms arm (by simp [harm])) ss m').mono
        (fun _ _ h => .skipped hread h) fun _ _ h => .skipped hread h

theorem stmtMeetsEnd_loop {header body : Block} {test : Var}
    (hheader : j.BlockMeetsEnd header) (hbody : j.BlockMeetsEnd body) :
    j.StmtMeetsEnd (.loop header test body) := by
  intro ss m
  change Ends (j.whileRounds (j.execBlock header) (j.readBool test) (j.execBlock body)
    (j.limit - m.steps + 1) m) _ _
  generalize j.limit - m.steps + 1 = n
  induction n generalizing m with
  | zero => exact .start
  | succ n ih =>
    rw [whileRounds_succ, round, ends_bind]
    cases hstart : j.tick m with
    | error e m₁ => exact .tick (by rw [hstart]; rfl)
    | ok _ m₁ =>
      rw [ends_ok, ends_bind]
      refine (hheader m₁).known.mono ?_ fun _ _ h => .header hstart h
      rintro flow m₂ ⟨htested, hpass⟩
      cases flow with
      | ret vals => exact .header hstart hpass
      | next =>
        rw [ends_bind]
        refine (j.readBool_ends m₂ test).known.mono ?_ fun _ m₃ h => h ▸ .header hstart hpass
        rintro go m₃ ⟨hread, rfl⟩
        cases go with
        | false => exact .header hstart hpass
        | true =>
          rw [if_pos rfl, ends_bind]
          refine (hbody m₃).known.mono ?_ fun _ _ h => .body hstart htested hread h
          rintro flow m₄ ⟨hdone, hpass⟩
          cases flow with
          | ret vals => exact .body hstart htested hread hpass
          | next =>
            exact (ih m₄).mono (fun _ _ h => .again hstart htested hread hdone h)
              fun _ _ h => .again hstart htested hread hdone h

theorem StmtMeetsEnd.cons {s : Stmt} {ss : Block} (hs : j.StmtMeetsEnd s)
    (hss : j.BlockMeetsEnd ss) : j.BlockMeetsEnd (s :: ss) := by
  intro m
  change Ends ((j.exec s >>= _) m) _ _
  rw [ends_bind]
  refine (hs ss m).known.mono ?_ fun _ _ h => h
  rintro flow m₁ ⟨hrun, hpass⟩
  cases flow with
  | ret vals => exact hpass
  | next => exact (hss m₁).mono (fun _ _ h => .later hrun h) fun _ _ h => .later hrun h

/-- **A block ends on a machine that it meets.** -/
theorem execBlock_passes (j : Job R) (b : Block) : j.BlockMeetsEnd b := by
  induction b using blockInduction with
  | nil => exact fun _ => .start
  | atom s ss hs ih =>
    have hend : j.StmtMeetsEnd s := by
      intro ss m
      cases hrun : j.exec s m with
      | ok flow m' => exact .atom hs (by rw [hrun]; rfl)
      | error e m' => exact .atom hs (by rw [hrun]; rfl)
    exact hend.cons ih
  | cond arms other ss iha iho ih => exact (stmtMeetsEnd_cond iha iho).cons ih
  | loop header test body ss ihh ihb ih => exact (stmtMeetsEnd_loop ihh ihb).cons ih
  | doLoop body test ss ihb ih =>
    have hempty : j.BlockMeetsEnd [] := fun _ => .start
    have hend : j.StmtMeetsEnd (.doLoop body test) := by
      intro ss m
      rw [exec_doLoop]
      exact (stmtMeetsEnd_loop ihb hempty ss m).mono (fun _ _ h => .doLoop h)
        fun _ _ h => .doLoop h
    exact hend.cons ih
  | block body ss ihb ih =>
    have hend : j.StmtMeetsEnd (.block body) := fun ss m =>
      (ihb m).mono (fun _ _ h => .block h) fun _ _ h => .block h
    exact hend.cons ih

/-- **A run of the function ends on a machine that it meets.** -/
theorem runSlots_reaches (j : Job R) (args : List (Slot R)) (m : Machine R) :
    Ends (j.runSlots args m) (fun _ => j.Reaches args m) (fun _ => j.Reaches args m) := by
  by_cases hlen : args.length = j.func.params.length
  · have hbody := j.execBlock_passes j.func.body (m.enter j.func.params args)
    rw [j.runSlots_eq m hlen]
    cases hrun : j.execBlock j.func.body (m.enter j.func.params args) with
    | error e m' =>
      rw [hrun] at hbody
      exact .running hlen hbody
    | ok flow m' =>
      rw [hrun] at hbody
      cases flow <;> exact .running hlen hbody
  · rw [j.runSlots_arity m hlen]
    exact .start

end Job

end Backsweep
