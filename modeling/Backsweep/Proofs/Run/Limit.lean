import Mathlib
import Backsweep.Proofs.Run.History
import Backsweep.Proofs.Run.Recording

/-!
# The step limit

Loops of a machine share one count of rounds, which is carried over from run to run. The limit
cuts runs off and does nothing else.

* `Job.EndsAtLimit`: the run is cut off by its own limit, not by an error of a call;
* `Trace.standing`: how the rounds of a trace stand to the limit, by the way it ends;
* `Job.endsAtLimit_iff`: a run is cut off exactly if it starts a round beyond the limit;
* `cutting`: two runs under different limits, of which the first one may be cut off;
* `Job.runSlots_cuts`: a lower limit cuts a run off, or makes no difference;
* `Job.limit_cuts_off`: both together, for whole runs.
-/

namespace Backsweep

variable {R : Type}
variable {limit : Nat} {o : Option RunError}

/-! ## Rounds -/

def Mark.isRound : Mark R → Bool
  | round => true
  | push _ _ | pop _ _ | refusal _ _ => false

/-- The loop rounds among the marks. -/
def roundsIn (l : List (Mark R)) : Nat := l.countP Mark.isRound

@[simp] theorem roundsIn_append (l l' : List (Mark R)) :
    roundsIn (l ++ l') = roundsIn l + roundsIn l' := List.countP_append

/-- No operation outside of the function failed. -/
def Unrefused (l : List (Mark R)) : Prop := ∀ callee e, Mark.refusal callee e ∉ l

variable {l : List (Mark R)} {m' : Machine R}

@[simp] theorem unrefused_append {l' : List (Mark R)} :
    Unrefused (l ++ l') ↔ Unrefused l ∧ Unrefused l' := by
  simp only [Unrefused, List.mem_append, not_or]
  exact ⟨fun h => ⟨fun c e => (h c e).1, fun c e => (h c e).2⟩, fun h c e => ⟨h.1 c e, h.2 c e⟩⟩

/-- The step count grows by the rounds that are started. -/
theorem Act.steps {m : Machine R} (h : Act limit m l m' o) : m'.steps = m.steps + roundsIn l := by
  cases h with
  | quiet _ steps | push _ _ _ steps | pop _ _ steps | failure _ _ steps
  | refusal _ _ _ steps => exact steps
  | round | cut => rfl

theorem Trace.steps {m : Machine R} (h : Trace limit m l m' o) :
    m'.steps = m.steps + roundsIn l := by
  induction h with
  | done => rfl
  | last act => exact act.steps
  | step act _ ih =>
    have := act.steps
    rw [roundsIn_append]
    omega

/-! ## One limit -/

/-- How a trace that ends on `m'` stands to the limit. One that goes on started no round beyond
it. One that fails did, and fails for that, or did not, and a failure at a limit is that of a
call. -/
def Standing (limit : Nat) (l : List (Mark R)) (m' : Machine R) : Option RunError → Prop
  | none => Unrefused l ∧ (roundsIn l = 0 ∨ m'.steps ≤ limit)
  | some e => (e = .stepLimit ∧ Unrefused l ∧ 0 < roundsIn l ∧ limit < m'.steps) ∨
      ((e = .stepLimit → ∃ callee, Mark.refusal callee .stepLimit ∈ l) ∧
        (roundsIn l = 0 ∨ m'.steps ≤ limit))

theorem Act.standing {m : Machine R} (h : Act limit m l m' o) : Standing limit l m' o := by
  cases h with
  | quiet | push | pop => exact ⟨by simp [Unrefused], .inl rfl⟩
  | round room => exact ⟨by simp [Unrefused], .inr room⟩
  | failure error => exact .inr ⟨fun he => absurd he error, .inl rfl⟩
  | refusal callee e => exact .inr ⟨fun he => ⟨callee, by simp [he]⟩, .inl rfl⟩
  | cut full => exact .inl ⟨rfl, by simp [Unrefused], by simp [roundsIn, Mark.isRound],
      Nat.lt_succ_of_le full⟩

theorem Trace.standing {m : Machine R} (h : Trace limit m l m' o) : Standing limit l m' o := by
  induction h with
  | done => exact ⟨by simp [Unrefused], .inl rfl⟩
  | last act => exact act.standing
  | @step m l m₁ l' m' o act rest ih =>
    obtain ⟨hunrefused, hroom⟩ := act.standing
    have hsteps := rest.steps
    -- Where the rest starts no round, the step count is the one before it.
    have hroom' : roundsIn l' = 0 ∨ m'.steps ≤ limit →
        roundsIn (l ++ l') = 0 ∨ m'.steps ≤ limit := by
      rw [roundsIn_append]
      omega
    cases o with
    | none => exact ⟨unrefused_append.mpr ⟨hunrefused, ih.1⟩, hroom' ih.2⟩
    | some e =>
      rcases ih with ⟨he, hrest, hpos, hbeyond⟩ | ⟨he, hrest⟩
      · refine .inl ⟨he, unrefused_append.mpr ⟨hunrefused, hrest⟩, ?_, hbeyond⟩
        rw [roundsIn_append]
        omega
      · refine .inr ⟨fun hlimit => ?_, hroom' hrest⟩
        obtain ⟨callee, hcallee⟩ := he hlimit
        exact ⟨callee, List.mem_append_right _ hcallee⟩

namespace Job

variable [Scalar R] (j : Job R) (args : List (Slot R)) (m : Machine R)

/-- The loop rounds that a run starts, with the one that is refused if it is cut off: evaluations
of a header and of the body of a loop with its test at the end, however loops are nested. -/
def rounds : Nat := roundsIn (j.marks args m)

/-- The run fails at a limit, and it is not the one of an operation that it called. -/
def EndsAtLimit : Prop :=
  (∃ m', j.runSlots args m = .error .stepLimit m') ∧
    ∀ callee, Mark.refusal callee .stepLimit ∉ j.marks args m

theorem steps_runSlots : (endState (j.runSlots args m)).steps = m.steps + j.rounds args m :=
  ((j.runSlots_follows args m).mono (fun _ _ h => h.steps) fun _ _ h => h.steps).endState

/-- **A run is cut off exactly if it starts a round beyond the limit.** -/
theorem endsAtLimit_iff :
    j.EndsAtLimit args m ↔ 0 < j.rounds args m ∧ j.limit < m.steps + j.rounds args m := by
  have hfollows := j.runSlots_follows args m
  have hsteps := j.steps_runSlots args m
  rw [EndsAtLimit]
  unfold rounds at hsteps ⊢
  cases hrun : j.runSlots args m with
  | ok vals m' =>
    rw [hrun] at hfollows hsteps
    have hroom := (Trace.standing hfollows).2
    change m'.steps = _ at hsteps
    constructor
    · rintro ⟨⟨_, hm⟩, -⟩
      cases hm
    · omega
  | error e m' =>
    rw [hrun] at hfollows hsteps
    change m'.steps = _ at hsteps
    rcases Trace.standing hfollows with ⟨rfl, hunrefused, hpos, hbeyond⟩ | ⟨hrefused, hroom⟩
    · constructor
      · exact fun _ => ⟨hpos, by omega⟩
      · exact fun _ => ⟨⟨m', rfl⟩, fun callee => hunrefused callee _⟩
    · constructor
      · rintro ⟨⟨m₁, hm₁⟩, hnone⟩
        cases hm₁
        obtain ⟨callee, hcallee⟩ := hrefused rfl
        exact absurd hcallee (hnone callee)
      · omega

end Job

/-! ## Two limits -/

/-- Two runs under limits of their own. They do the same, until the lower limit `L` cuts the
first one off. Then both have started a round since the count was `c`, and their counts are
beyond `L`. -/
def cutting (R : Type) (c L : Nat) : PairLaw R R where
  fail e m e' n := (e' = e ∧ n = m) ∨ e = .stepLimit ∧ max c L < m.steps ∧ max c L < n.steps
  left e m n := e = .stepLimit ∧ max c L < m.steps ∧ max c L < n.steps
  right _ := False
  left_fail h _ := .inr h
  right_fail h := h.elim
  vals _ vals := vals
  done m n := n = m ∧ c ≤ m.steps

/-- What the second run does alone does not take its count back. -/
theorem cutting_alone {c L : Nat} {α : Type} {y : Exec R α}
    (h : ∀ n, Ends (y n) (fun _ n' => n.steps ≤ n'.steps) fun _ n' => n.steps ≤ n'.steps) :
    (cutting R c L).Alone y := by
  rintro e m n ⟨he, hm, hn⟩
  exact ⟨he, hm, Nat.lt_of_lt_of_le hn (h n).endState⟩

namespace Job

/-- The same job with another limit. -/
def within (j : Job R) (limit : Nat) : Job R := { j with limit }

theorem readAll_within (j : Job R) (L : Nat) (vs : List Var) :
    (j.within L).readAll vs = j.readAll vs := by
  induction vs with
  | nil => rfl
  | cons v vs ih =>
    rw [readAll, readAll, ih]
    rfl

variable {j : Job R} {c L L' : Nat}

/-- A round that the higher limit refuses, the lower one refuses, too. -/
theorem paces_cut (hle : L ≤ L') :
    (cutting R c L).Paces (j.within L) (j.within L') (cutting R c L).done := by
  refine ⟨⟨?_, cutting_alone fun n => ?_⟩, fun _ _ h => .inl ⟨rfl, h.1⟩⟩
  · rintro _ m ⟨rfl, hc⟩
    have hcount : m.ticked.steps = m.steps + 1 := rfl
    have hlimit (L : Nat) : (j.within L).limit = L := rfl
    rw [tick_apply, tick_apply, hlimit, hlimit]
    by_cases hfull : L < m.steps + 1
    · rw [if_pos hfull]
      by_cases hfull' : L' < m.steps + 1
      · rw [if_pos hfull']
        exact .inl ⟨rfl, rfl⟩
      · rw [if_neg hfull']
        exact ⟨rfl, by omega, by omega⟩
    · have hfull' : ¬L' < m.steps + 1 := by omega
      rw [if_neg hfull, if_neg hfull']
      exact ⟨rfl, by omega⟩
  · rw [tick_apply]
    split <;> exact Nat.le_succ n.steps

theorem tests_cut (v : Var) :
    (cutting R c L).Tests (cutting R c L).done ((j.within L).readBool v)
      ((j.within L').readBool v) := by
  refine ⟨?_, cutting_alone fun n => ?_⟩
  swap
  · exact ((j.within L').readBool_ends n v).mono (fun _ _ h => h ▸ Nat.le_refl _)
      fun _ _ h => h ▸ Nat.le_refl _
  rintro _ m ⟨rfl, hc⟩
  change (cutting R c L).Ends _ ((j.within L).readBool v m) ((j.within L).readBool v m)
  cases hrun : (j.within L).readBool v m with
  | ok go m' =>
    obtain rfl := ((j.within L).readBool_ends m v).of_ok hrun
    exact ⟨rfl, rfl, hc⟩
  | error e m' => exact .inl ⟨rfl, rfl⟩

variable [Scalar R]

theorem eval_within (j : Job R) (L : Nat) (e : Expr) : (j.within L).eval e = j.eval e := by
  cases e with
  | const | copy | load | pop | topIs => rfl
  | op op args => rw [eval_op, eval_op, readAll_within]
  | call callee args node =>
    rw [eval_call, eval_call, readAll_within]
    rfl

/-- Atomic statements know nothing of the limit. -/
theorem exec_within (j : Job R) (L : Nat) {a : Stmt} (ha : a.isControlFlow = false) :
    (j.within L).exec a = j.exec a := by
  cases a with
  | define dst decl e => rw [exec_define, exec_define, eval_within]
  | store | push | pushDecision | unreachable => rfl
  | ret vals => rw [exec_ret, exec_ret, readAll_within]
  | cond | loop | doLoop | block => cases ha

theorem exec_steps (j : Job R) (a : Stmt) (m : Machine R) :
    Ends (j.exec a m) (fun _ m' => m.steps ≤ m'.steps) fun _ m' => m.steps ≤ m'.steps := by
  rw [← j.execBlock_singleton a]
  exact j.execBlock_steps [a] m

theorem atom_cut {a : Stmt} (ha : a.isControlFlow = false) :
    (cutting R c L).InStep (cutting R c L).done (cutting R c L).done ((j.within L).exec a)
      ((j.within L').exec a) := by
  rw [exec_within j L ha, exec_within j L' ha]
  refine PairLaw.inStep_of (fun _ _ h => h) ⟨?_, cutting_alone (j.exec_steps a)⟩
  rintro _ m ⟨rfl, hc⟩
  have hsteps := j.exec_steps a m
  cases hrun : j.exec a m with
  | ok flow m' => exact ⟨flow.map_id.symm, rfl, Nat.le_trans hc (hsteps.of_ok hrun)⟩
  | error e m' => exact .inl ⟨rfl, rfl⟩

/-- **A lower limit cuts a run off, or makes no difference to it.** -/
theorem runSlots_cuts (j : Job R) (hle : L ≤ L') (args : List (Slot R)) (m : Machine R) :
    (j.within L').runSlots args m = (j.within L).runSlots args m ∨
      max m.steps L < (endState ((j.within L).runSlots args m)).steps ∧
        max m.steps L < (endState ((j.within L').runSlots args m)).steps := by
  have hbody : (cutting R m.steps L).InStep (cutting R m.steps L).done (cutting R m.steps L).done
      ((j.within L).execBlock j.func.body) ((j.within L').execBlock j.func.body) :=
    PairLaw.block (paces_cut hle) tests_cut fun a ha => atom_cut (blockAtoms_atomic _ a ha)
  have hrun : (cutting R m.steps L).Ends
      (fun vals m' vals' n' => vals' = vals ∧ n' = m' ∧ m.steps ≤ m'.steps)
      ((j.within L).runSlots args m) ((j.within L').runSlots args m) := by
    refine PairLaw.runSlots (j := j.within L) (k := j.within L') rfl hbody
      (fun _ _ h => .inl ⟨rfl, h.1⟩) rfl (fun _ => .inl ⟨rfl, rfl⟩) fun _ => ⟨rfl, ?_⟩
    exact Nat.le_of_eq (Machine.enter_keeps m _ args).2.2.2.1.symm
  generalize (j.within L).runSlots args m = r at hrun ⊢
  generalize (j.within L').runSlots args m = r' at hrun ⊢
  cases r with
  | ok vals m₁ =>
    cases r' with
    | ok vals' n₁ =>
      obtain ⟨rfl, rfl, -⟩ := hrun
      exact .inl rfl
    | error e' n₁ => exact hrun.elim
  | error e m₁ =>
    cases r' with
    | ok vals' n₁ => exact .inr hrun.2
    | error e' n₁ =>
      rcases hrun with ⟨rfl, rfl⟩ | ⟨-, hcut⟩
      · exact .inl rfl
      · exact .inr hcut

end Job

/-- **The step limit only cuts runs off.** Unless a run is cut off by its limit, it ends with the
same result or error on the same machine under any higher one. It is cut off exactly if it starts
rounds at all, here or under a higher limit, and these exceed the limit together with the count
that the machine came with. The count that it leaves behind is both together. -/
theorem Job.limit_cuts_off [Scalar R] (j : Job R) (args : List (Slot R)) (m : Machine R)
    {L L' : Nat} (hle : L ≤ L') :
    (¬(j.within L).EndsAtLimit args m →
      (j.within L').runSlots args m = (j.within L).runSlots args m) ∧
    ((j.within L).EndsAtLimit args m ↔
      0 < (j.within L').rounds args m ∧ L < m.steps + (j.within L').rounds args m) ∧
    (endState ((j.within L).runSlots args m)).steps = m.steps + (j.within L).rounds args m := by
  have hiff := (j.within L).endsAtLimit_iff args m
  have hsteps := (j.within L).steps_runSlots args m
  have hsteps' := (j.within L').steps_runSlots args m
  have hlimit : (j.within L).limit = L := rfl
  rcases j.runSlots_cuts hle args m with hsame | ⟨hcut, hcut'⟩
  · have hrounds : (j.within L').rounds args m = (j.within L).rounds args m := by
      rw [hsame] at hsteps'
      omega
    rw [hrounds]
    exact ⟨fun _ => hsame, hiff, hsteps⟩
  · have hends : (j.within L).EndsAtLimit args m := hiff.mpr ⟨by omega, by omega⟩
    exact ⟨fun h => absurd hends h, iff_of_true hends ⟨by omega, by omega⟩, hsteps⟩

/-- The powers of two take four rounds. Two are too few, and more than four make no difference. -/
theorem powers_limit_cuts_off :
    let j : Job ℚ := ⟨.powers, .none, 0⟩
    let args : List (Slot ℚ) := [{ value := .real 2 }]
    let m : Machine ℚ := .new .powers {}
    (j.within 9).rounds args m = 4 ∧ (j.within 2).EndsAtLimit args m ∧
      ¬(j.within 4).EndsAtLimit args m ∧
      (j.within 9).runSlots args m = (j.within 4).runSlots args m ∧
      (endState ((j.within 9).runSlots args m)).steps = 4 := by
  intro j args m
  have hrounds : (j.within 9).rounds args m = 4 := by decide +kernel
  have hlow := (j.limit_cuts_off args m (show 2 ≤ 9 by decide)).2.1
  obtain ⟨hsame, hfour, -⟩ := j.limit_cuts_off args m (show 4 ≤ 9 by decide)
  have hsteps := (j.limit_cuts_off args m (Nat.le_refl 9)).2.2
  have hnew : m.steps = 0 := rfl
  rw [hrounds, hnew] at hlow hfour hsteps
  have hfits : ¬(j.within 4).EndsAtLimit args m := fun h => absurd (hfour.mp h).2 (by decide)
  exact ⟨hrounds, hlow.mpr (by decide), hfits, hsame hfits, hsteps⟩

/-- Waits as long as it is told to, and returns. -/
def Func.waiting : Func where
  name := "waiting"
  attrs := []
  params := [⟨0⟩]
  returns := [.int]
  vars := #[⟨"go", .bool, false⟩, ⟨"n", .int, false⟩]
  body := [.define ⟨1⟩ true (.const (.int 7)), .cond [(⟨0⟩, [.loop [] ⟨0⟩ []])] [], .ret [⟨1⟩]]

/-- The count of earlier runs alone does not end a run. A machine whose first run was cut off has
a count beyond the limit, and runs what starts no round. -/
theorem waiting_returns_beyond_limit :
    let j : Job ℚ := ⟨.waiting, .none, 0⟩
    let spent := endState (j.run [.bool true] (.new .waiting {}))
    let args : List (Slot ℚ) := [{ value := .bool false }]
    ¬(j.EndsAtLimit args spent ↔ j.limit < spent.steps + j.rounds args spent) := by
  intro j spent args hiff
  have hbeyond : j.limit < spent.steps + j.rounds args spent := by decide +kernel
  have hnone : j.rounds args spent = 0 := by decide +kernel
  have hsome := ((j.endsAtLimit_iff args spent).mp (hiff.mpr hbeyond)).1
  omega

end Backsweep
