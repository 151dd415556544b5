import Mathlib
import Backsweep.Proofs.Run.Frame
import Backsweep.Proofs.Syntax.Scope

/-!
# Induction over two runs

Code is run on two machines side by side. What atomic statements, tests and ticks keep of
both machines, a run of any block keeps.

* `PairLaw`: what is said of two runs that have failed or returned;
* `PairLaw.same`: both end alike;
* `PairLaw.InStep`: two actions lead from machines in one relation to machines in another;
* `PairLaw.Covers`: what is to be shown of a block and of the blocks inside of it;
* `PairLaw.Covers.execBlock`: such a block is run in step, however often its loops go round;
* `PairLaw.block`: a block is run in step if its atomic statements are;
* `Job.execBlock_congr`: so it does not matter which job runs it, if that does not matter to them.
-/

namespace Backsweep

variable {S S' : Type}

def Flow.map (f : List (Slot S) → List (Slot S')) : Flow S → Flow S'
  | .next => .next
  | .ret vals => .ret (f vals)

theorem Flow.map_id (flow : Flow S) : flow.map (fun vals => vals) = flow := by
  cases flow <;> rfl

/-- What two runs respect: what is said of them when one of them or both have failed, and
when both have returned. -/
structure PairLaw (S S' : Type) where
  /-- Both have failed. -/
  fail : RunError → Machine S → RunError → Machine S' → Prop
  /-- The first one has failed, while the second one has come to its machine. -/
  left : RunError → Machine S → Machine S' → Prop
  /-- The second one has failed, while the first one goes on. -/
  right : RunError → Prop
  left_fail : ∀ {e m n}, left e m n → ∀ e', fail e m e' n
  right_fail : ∀ {e'}, right e' → ∀ e m n, fail e m e' n
  /-- What the second one returns, if the first one returns these values. -/
  vals : Machine S → List (Slot S) → List (Slot S')
  done : Machine S → Machine S' → Prop

namespace PairLaw

variable {law : PairLaw S S'} {α β γ δ : Type} {A B C : Machine S → Machine S' → Prop}
variable (law) in
/-- Both actions end as the law has it. Where both have results, `q` holds. -/
def Ends (q : α → Machine S → β → Machine S' → Prop) :
    EStateM.Result RunError (Machine S) α → EStateM.Result RunError (Machine S') β → Prop
  | .ok a m, .ok b n => q a m b n
  | .error e m, .error e' n => law.fail e m e' n
  | .error e m, .ok _ n => law.left e m n
  | .ok _ _, .error e' _ => law.right e'

variable (law) in
/-- What is said of a first run that has failed stays true when the second one goes on
with the action. -/
def Alone (y : Exec S' β) : Prop := ∀ e m n, law.left e m n → law.left e m (endState (y n))

theorem alone_pure (b : β) : law.Alone (pure b : Exec S' β) := fun _ _ _ h => h

theorem alone_throw (e : RunError) : law.Alone (throw e : Exec S' β) := fun _ _ _ h => h

theorem Alone.bind {y : Exec S' β} {g : β → Exec S' δ} (hy : law.Alone y)
    (hg : ∀ b, law.Alone (g b)) : law.Alone (y >>= g) := by
  intro e m n h
  have hend := hy e m n h
  rw [bind_apply]
  cases hyn : y n with
  | ok b n' =>
    rw [hyn] at hend
    exact hg b e m n' hend
  | error e' n' =>
    rw [hyn] at hend
    exact hend

theorem Ends.mono {q q' : α → Machine S → β → Machine S' → Prop}
    {r : EStateM.Result RunError (Machine S) α} {r' : EStateM.Result RunError (Machine S') β}
    (h : law.Ends q r r') (hq : ∀ a m b n, q a m b n → q' a m b n) : law.Ends q' r r' := by
  cases r with
  | ok a m =>
    cases r' with
    | ok b n => exact hq a m b n h
    | error e' n => exact h
  | error e m => cases r' <;> exact h

theorem Ends.bind {q : α → Machine S → β → Machine S' → Prop}
    {q' : γ → Machine S → δ → Machine S' → Prop} {x : Exec S α} {y : Exec S' β}
    {f : α → Exec S γ} {g : β → Exec S' δ} {m : Machine S} {n : Machine S'}
    (h : law.Ends q (x m) (y n)) (hg : ∀ b, law.Alone (g b))
    (hf : ∀ a m' b n', q a m' b n' → law.Ends q' (f a m') (g b n')) :
    law.Ends q' ((x >>= f) m) ((y >>= g) n) := by
  rw [bind_apply, bind_apply]
  cases hx : x m with
  | ok a m' =>
    cases hy : y n with
    | ok b n' =>
      rw [hx, hy] at h
      exact hf a m' b n' h
    | error e' n' =>
      rw [hx, hy] at h
      dsimp only
      -- the second run has failed, whatever the first one comes to
      cases f a m' with
      | ok c m'' => exact h
      | error e m'' => exact law.right_fail h e m'' n'
  | error e m' =>
    cases hy : y n with
    | ok b n' =>
      rw [hx, hy] at h
      have hend := hg b e m' n' h
      dsimp only
      cases hgn : g b n' with
      | ok d n'' =>
        rw [hgn] at hend
        exact hend
      | error e' n'' =>
        rw [hgn] at hend
        exact law.left_fail hend e'
    | error e' n' =>
      rw [hx, hy] at h
      exact h

/-- Runs that end alike: both return the same values or fail with the same error, on machines
in the relation `E`. -/
def same (E : Machine S → Machine S → Prop) : PairLaw S S where
  fail e m e' n := e' = e ∧ E m n
  left _ _ _ := False
  right _ := False
  left_fail h := h.elim
  right_fail h := h.elim
  vals _ vals := vals
  done := E

theorem same_alone {E : Machine S → Machine S → Prop} (y : Exec S β) : (same E).Alone y :=
  fun _ _ _ h => h

/-! ## Actions in step -/

variable (law) in
/-- Run on machines in the relation `A`, both actions end as the law has it. -/
structure Pairs (A : Machine S → Machine S' → Prop) (q : α → Machine S → β → Machine S' → Prop)
    (x : Exec S α) (y : Exec S' β) : Prop where
  ends : ∀ m n, A m n → law.Ends q (x m) (y n)
  alone : law.Alone y

theorem Pairs.bind [Nonempty α] {q : α → Machine S → β → Machine S' → Prop}
    {q' : γ → Machine S → δ → Machine S' → Prop} {x : Exec S α} {y : Exec S' β}
    {f : α → Exec S γ} {g : β → Exec S' δ} (h : law.Pairs A q x y)
    (hf : ∀ a b, law.Pairs (fun m n => q a m b n) q' (f a) (g b)) :
    law.Pairs A q' (x >>= f) (y >>= g) := by
  have halone (b : β) : law.Alone (g b) := (hf (Classical.arbitrary α) b).alone
  constructor
  · intro m n hmn
    exact (h.ends m n hmn).bind halone fun a m' b n' hab => (hf a b).ends m' n' hab
  · exact h.alone.bind halone

variable (law) in
/-- Both blocks come to their end on machines in the relation `B`, or both return. -/
def Flows (B : Machine S → Machine S' → Prop) (flow : Flow S) (m : Machine S) (flow' : Flow S')
    (n : Machine S') : Prop :=
  flow' = flow.map (law.vals m) ∧
    match flow with
    | .next => B m n
    | .ret _ => law.done m n

variable (law) in
/-- The actions lead from machines in the relation `A` to machines in the relation `B`. -/
abbrev InStep (A B : Machine S → Machine S' → Prop) (x : Exec S (Flow S))
    (y : Exec S' (Flow S')) : Prop := law.Pairs A (law.Flows B) x y

variable (law) in
/-- Both tests have the same outcome. -/
abbrev Tests (A : Machine S → Machine S' → Prop) (x : Exec S Bool) (y : Exec S' Bool) : Prop :=
  law.Pairs A (fun a m b n => b = a ∧ A m n) x y

theorem inStep_next : law.InStep A A (pure .next) (pure .next) :=
  ⟨fun _ _ h => ⟨rfl, h⟩, alone_pure _⟩

/-- Where returning needs what going on needs, the flows need not be told apart. -/
theorem inStep_of {x : Exec S (Flow S)} {y : Exec S' (Flow S')} (hdone : ∀ m n, B m n → law.done m n)
    (h : law.Pairs A (fun flow m flow' n => flow' = flow.map (law.vals m) ∧ B m n) x y) :
    law.InStep A B x y := by
  refine ⟨fun m n hmn => (h.ends m n hmn).mono ?_, h.alone⟩
  rintro flow m' flow' n' ⟨hflow, hmn'⟩
  cases flow with
  | next => exact ⟨hflow, hmn'⟩
  | ret vals => exact ⟨hflow, hdone m' n' hmn'⟩

theorem InStep.to_done {x : Exec S (Flow S)} {y : Exec S' (Flow S')}
    (h : law.InStep A law.done x y) :
    law.Pairs A (fun flow m flow' n => flow' = flow.map (law.vals m) ∧ law.done m n) x y := by
  refine ⟨fun m n hmn => (h.ends m n hmn).mono ?_, h.alone⟩
  rintro flow m' flow' n' ⟨hflow, hmn'⟩
  cases flow <;> exact ⟨hflow, hmn'⟩

theorem InStep.weaken {x : Exec S (Flow S)} {y : Exec S' (Flow S')} (h : law.InStep A B x y)
    (hB : ∀ m n, B m n → C m n) : law.InStep A C x y := by
  refine ⟨fun m n hmn => (h.ends m n hmn).mono ?_, h.alone⟩
  rintro flow m' flow' n' ⟨hflow, hmn'⟩
  cases flow with
  | next => exact ⟨hflow, hB m' n' hmn'⟩
  | ret vals => exact ⟨hflow, hmn'⟩

theorem InStep.andThen {x x' : Exec S (Flow S)} {y y' : Exec S' (Flow S')}
    (h : law.InStep A B x y) (h' : law.InStep B C x' y') :
    law.InStep A C
      (x >>= fun flow => match flow with | .ret vals => pure (.ret vals) | .next => x')
      (y >>= fun flow => match flow with | .ret vals => pure (.ret vals) | .next => y') := by
  have : Nonempty (Flow S) := ⟨.next⟩
  refine Pairs.bind h fun flow flow' => ⟨?_, ?_⟩
  · rintro m n ⟨rfl, hmn⟩
    cases flow with
    | next => exact h'.ends m n hmn
    | ret vals => exact ⟨rfl, hmn⟩
  · cases flow' with
    | next => exact h'.alone
    | ret vals => exact alone_pure _

theorem InStep.choose {p : Exec S Bool} {p' : Exec S' Bool} {x x' : Exec S (Flow S)}
    {y y' : Exec S' (Flow S')} (ht : law.Tests A p p') (h : law.InStep A B x y)
    (h' : law.InStep A B x' y') :
    law.InStep A B (p >>= fun go => if go then x else x') (p' >>= fun go => if go then y else y') := by
  refine Pairs.bind ht fun go go' => ⟨?_, ?_⟩
  · rintro m n ⟨rfl, hmn⟩
    cases go' with
    | true => exact h.ends m n hmn
    | false => exact h'.ends m n hmn
  · cases go' with
    | true => exact h.alone
    | false => exact h'.alone

/-! ## Loops -/

variable {j : Job S} {k : Job S'}
variable (law j k) in
/-- Rounds are counted in step, and may be refused on both machines. -/
structure Paces (A : Machine S → Machine S' → Prop) : Prop where
  tick : law.Pairs A (fun _ m _ n => A m n) j.tick k.tick
  limit : ∀ m n, A m n → law.fail .stepLimit m .stepLimit n

/-- The header leads from `A` to `B`, where the test is made, and the body back to `A`. -/
theorem whileRounds {header body : Exec S (Flow S)} {header' body' : Exec S' (Flow S')}
    {p : Exec S Bool} {p' : Exec S' Bool} (hpaces : law.Paces j k A)
    (hh : law.InStep A B header header') (ht : law.Tests B p p') (hb : law.InStep B A body body')
    (hBA : ∀ m n, B m n → A m n) (fuel : Nat) :
    law.InStep A A (j.whileRounds header p body fuel) (k.whileRounds header' p' body' fuel) := by
  induction fuel with
  | zero => exact ⟨fun m n h => hpaces.limit m n h, alone_throw _⟩
  | succ fuel ih =>
    have hround := hh.andThen (InStep.choose ht (hb.andThen ih) (inStep_next.weaken hBA))
    exact hpaces.tick.bind fun _ _ => hround

variable [Scalar S] [Scalar S']

theorem cons {s : Stmt} {s' : Stmt} {ss ss' : Block} (hs : law.InStep A B (j.exec s) (k.exec s'))
    (hss : law.InStep B C (j.execBlock ss) (k.execBlock ss')) :
    law.InStep A C (j.execBlock (s :: ss)) (k.execBlock (s' :: ss')) := hs.andThen hss

theorem arms {as as' : List (Var × Block)} {x : Exec S (Flow S)} {y : Exec S' (Flow S')}
    (h : List.Forall₂ (fun a a' => law.Tests A (j.readBool a.1) (k.readBool a'.1) ∧
      law.InStep A B (j.execBlock a.2) (k.execBlock a'.2)) as as')
    (ho : law.InStep A B x y) : law.InStep A B (j.execArms as x) (k.execArms as' y) := by
  induction h with
  | nil => exact ho
  | cons ha _ ih => exact InStep.choose ha.1 ha.2 ih

/-- A loop may be run with any fuel that is enough for both machines. -/
theorem loop {header body header' body' : Block} {test test' : Var} (hpaces : law.Paces j k A)
    (hh : law.InStep A B (j.execBlock header) (k.execBlock header'))
    (ht : law.Tests B (j.readBool test) (k.readBool test'))
    (hb : law.InStep B A (j.execBlock body) (k.execBlock body')) (hBA : ∀ m n, B m n → A m n) :
    law.InStep A A (j.exec (.loop header test body)) (k.exec (.loop header' test' body')) := by
  have hrounds := whileRounds hpaces hh ht hb hBA
  constructor
  · intro m n hmn
    rw [← j.whileRounds_eq header body test
        (max (j.limit - m.steps + 1) (k.limit - n.steps + 1)) m (Nat.le_max_left _ _),
      ← k.whileRounds_eq header' body' test'
        (max (j.limit - m.steps + 1) (k.limit - n.steps + 1)) n (Nat.le_max_right _ _)]
    exact (hrounds _).ends m n hmn
  · intro e m n h
    rw [← k.whileRounds_eq header' body' test' _ n (Nat.le_refl _)]
    exact (hrounds _).alone e m n h

/-! ## Blocks -/

variable (law j k) in
/-- What `P` says of a block where the variables `D` are in scope, it says of the blocks
inside of it, and what such a block does first is done in step. On machines in the relation
`place D`, the second job runs the code with its variables replaced. -/
structure Covers (σ : Var → Var) (place : Finset Var → Machine S → Machine S' → Prop)
    (P : Finset Var → Block → Prop) : Prop where
  narrow : ∀ {D D'}, D ⊆ D' → ∀ m n, place D' m n → place D m n
  paces : ∀ D, law.Paces j k (place D)
  atom : ∀ {D s ss}, s.isControlFlow = false → P D (s :: ss) →
    law.InStep (place D) (place (blockScope D [s])) (j.exec s) (k.exec (s.rename σ)) ∧
      P (blockScope D [s]) ss
  cond : ∀ {D arms other ss}, P D (.cond arms other :: ss) →
    (∀ arm ∈ arms, law.Tests (place D) (j.readBool arm.1) (k.readBool (σ arm.1)) ∧ P D arm.2) ∧
      P D other ∧ P D ss
  loop : ∀ {D header test body ss}, P D (.loop header test body :: ss) →
    P D header ∧
      law.Tests (place (blockScope D header)) (j.readBool test) (k.readBool (σ test)) ∧
      P (blockScope D header) body ∧ P D ss
  doLoop : ∀ {D body test ss}, P D (.doLoop body test :: ss) →
    P D body ∧ law.Tests (place (blockScope D body)) (j.readBool test) (k.readBool (σ test)) ∧
      P D ss
  block : ∀ {D body ss}, P D (.block body :: ss) → P D body ∧ P D ss

variable {σ : Var → Var} {place : Finset Var → Machine S → Machine S' → Prop}
  {P : Finset Var → Block → Prop}

/-- **A block is run in step if what it does first always is.** -/
theorem Covers.execBlock (h : law.Covers j k σ place P) {D : Finset Var} {b : Block} (hb : P D b) :
    law.InStep (place D) (place (blockScope D b)) (j.execBlock b)
      (k.execBlock (renameBlock σ b)) := by
  have inner {D : Finset Var} {b : Block} {x : Exec S (Flow S)} {y : Exec S' (Flow S')}
      (hxy : law.InStep (place D) (place (blockScope D b)) x y) :
      law.InStep (place D) (place D) x y := hxy.weaken (h.narrow (subset_blockScope D b))
  -- control flow declares nothing itself, so what follows it has the scope it started with
  have control {D : Finset Var} {s : Stmt} {ss : Block} (hs : s.isControlFlow = true)
      (hstmt : law.InStep (place D) (place D) (j.exec s) (k.exec (s.rename σ)))
      (hss : law.InStep (place D) (place (blockScope D ss)) (j.execBlock ss)
        (k.execBlock (renameBlock σ ss))) :
      law.InStep (place D) (place (blockScope D (s :: ss))) (j.execBlock (s :: ss))
        (k.execBlock (renameBlock σ (s :: ss))) := by
    rw [blockScope_cons, blockScope_controlFlow D hs]
    exact cons hstmt hss
  induction b using blockInduction generalizing D with
  | nil =>
    rw [blockScope_nil]
    exact inStep_next
  | atom s ss hs ih =>
    obtain ⟨hatom, hss⟩ := h.atom hs hb
    rw [blockScope_cons]
    exact cons hatom (ih hss)
  | cond as other ss iha iho ih =>
    obtain ⟨has, hother, hss⟩ := h.cond hb
    refine control rfl (arms ?_ (inner (iho hother))) (ih hss)
    rw [renameArms_eq, List.forall₂_map_right_iff, List.forall₂_same]
    exact fun arm harm => ⟨(has arm harm).1, inner (iha arm harm (has arm harm).2)⟩
  | loop header test body ss ihh ihb ih =>
    obtain ⟨hheader, htest, hbody, hss⟩ := h.loop hb
    have hnarrow := h.narrow (subset_blockScope D header)
    refine control rfl (PairLaw.loop (h.paces D) (ihh hheader) htest ?_ hnarrow) (ih hss)
    exact (inner (ihb hbody)).weaken hnarrow
  | doLoop body test ss ihb ih =>
    obtain ⟨hbody, htest, hss⟩ := h.doLoop hb
    have hnarrow := h.narrow (subset_blockScope D body)
    refine control rfl ?_ (ih hss)
    rw [Stmt.rename, Job.exec_doLoop, Job.exec_doLoop]
    exact PairLaw.loop (h.paces D) (ihb hbody) htest (inStep_next.weaken hnarrow) hnarrow
  | block body ss ihb ih =>
    obtain ⟨hbody, hss⟩ := h.block hb
    exact control rfl (inner (ihb hbody)) (ih hss)

theorem Covers.sameBlock (h : law.Covers j k id place P) {D : Finset Var} {b : Block}
    (hb : P D b) :
    law.InStep (place D) (place (blockScope D b)) (j.execBlock b) (k.execBlock b) := by
  have hblock := h.execBlock hb
  rwa [renameBlock_id] at hblock

/-- **A block is run in step if its atomic statements are**, with machines in one relation
all along. -/
theorem block (hpaces : law.Paces j k A) (htests : ∀ v, law.Tests A (j.readBool v) (k.readBool v))
    {b : Block} (h : ∀ a ∈ blockAtoms b, law.InStep A A (j.exec a) (k.exec a)) :
    law.InStep A A (j.execBlock b) (k.execBlock b) := by
  have hcovers : law.Covers j k id (fun _ => A) fun _ b =>
      ∀ a ∈ blockAtoms b, law.InStep A A (j.exec a) (k.exec a) := by
    refine ⟨fun _ _ _ h => h, fun _ => hpaces, ?_, ?_, ?_, ?_, ?_⟩
    · intro D s ss hs h
      simp only [blockAtoms, Stmt.atoms_of_not_controlFlow hs, List.mem_append,
        List.mem_singleton] at h
      rw [Stmt.rename_id hs]
      exact ⟨h s (.inl rfl), fun a ha => h a (.inr ha)⟩
    · intro D as other ss h
      simp only [blockAtoms, Stmt.atoms, List.mem_append, mem_armsAtoms] at h
      exact ⟨fun arm harm => ⟨htests _, fun a ha => h a (.inl (.inl ⟨arm, harm, ha⟩))⟩,
        fun a ha => h a (.inl (.inr ha)), fun a ha => h a (.inr ha)⟩
    · intro D header test body ss h
      simp only [blockAtoms, Stmt.atoms, List.mem_append] at h
      exact ⟨fun a ha => h a (.inl (.inl ha)), htests _, fun a ha => h a (.inl (.inr ha)),
        fun a ha => h a (.inr ha)⟩
    · intro D body test ss h
      simp only [blockAtoms, Stmt.atoms, List.mem_append] at h
      exact ⟨fun a ha => h a (.inl ha), htests _, fun a ha => h a (.inr ha)⟩
    · intro D body ss h
      simp only [blockAtoms, Stmt.atoms, List.mem_append] at h
      exact ⟨fun a ha => h a (.inl ha), fun a ha => h a (.inr ha)⟩
  exact hcovers.sameBlock (D := ∅) h

end PairLaw

/-- Jobs that do the same at ticks, tests and atomic statements do the same at blocks. -/
theorem Job.execBlock_congr [Scalar S] {j k : Job S} (htick : k.tick = j.tick)
    (htest : ∀ v, k.readBool v = j.readBool v) {b : Block}
    (h : ∀ a ∈ blockAtoms b, k.exec a = j.exec a) : k.execBlock b = j.execBlock b := by
  have hself {α : Type} (x : Exec S α) :
      (PairLaw.same Eq).Pairs Eq (fun a m b n => b = a ∧ m = n) x x := by
    refine ⟨?_, PairLaw.same_alone x⟩
    rintro m _ rfl
    cases x m <;> exact ⟨rfl, rfl⟩
  have hpaces : (PairLaw.same Eq).Paces j k Eq := by
    refine ⟨?_, fun _ _ h => ⟨rfl, h⟩⟩
    rw [htick]
    exact ⟨fun m n h => ((hself j.tick).ends m n h).mono fun _ _ _ _ h => h.2, (hself _).alone⟩
  have hblock : (PairLaw.same Eq).InStep Eq Eq (j.execBlock b) (k.execBlock b) := by
    refine PairLaw.block hpaces (fun v => ?_) fun a ha => ?_
    · rw [htest]
      exact hself _
    · rw [h a ha]
      refine PairLaw.inStep_of (fun _ _ h => h) ⟨fun m n h => ?_, (hself _).alone⟩
      exact ((hself (j.exec a)).ends m n h).mono fun flow _ _ _ h => ⟨flow.map_id.symm ▸ h.1, h.2⟩
  funext m
  have hend := hblock.to_done.ends m m rfl
  generalize j.execBlock b m = r at hend ⊢
  generalize k.execBlock b m = r' at hend ⊢
  cases r with
  | ok flow m' =>
    cases r' with
    | ok flow' n =>
      obtain ⟨rfl, rfl⟩ := hend
      exact congrArg (EStateM.Result.ok · m') flow.map_id
    | error e n => exact hend.elim
  | error e m' =>
    cases r' with
    | ok flow' n => exact hend.elim
    | error e' n =>
      obtain ⟨rfl, rfl⟩ := hend
      rfl

end Backsweep
