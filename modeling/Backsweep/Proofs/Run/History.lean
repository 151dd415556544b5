import Mathlib
import Backsweep.Proofs.Run.Outcome
import Backsweep.Proofs.Run.Whole

/-!
# What happened on a run

A run leaves marks: the rounds that loops start, what goes on and off tapes, and operations
outside of the function that fail. The marks are read off the run itself, so a run that fails has
the marks up to there.

* `Job.marks`: the marks of a run, in order;
* `Act`: what a single action can do, to tapes and step count, and which mark it leaves;
* `Trace`: actions one after the other;
* `Job.runSlots_follows`: **every run is a trace with its marks.** What actions keep, runs keep.
-/

namespace Backsweep

/-- What a run does apart from computing values. -/
inductive Mark (R : Type) where
  /-- A loop starts a round, or would if the limit allowed it. -/
  | round
  | push (tape : Tape) (slot : Slot R)
  | pop (tape : Tape) (slot : Slot R)
  /-- An operation outside of the function fails. -/
  | refusal (callee : String) (error : RunError)

variable {R : Type}

/-! ## Marks of a run -/

/-- The marks of what comes behind an action, if that ends well. -/
def behind {α : Type} (act : Exec R α) (rest : α → Machine R → List (Mark R)) (m : Machine R) :
    List (Mark R) :=
  match act m with
  | .ok x m' => rest x m'
  | .error _ _ => []

/-- The marks of what comes behind a block, unless that returns. -/
def unlessReturned (rest : Machine R → List (Mark R)) : Flow R → Machine R → List (Mark R)
  | .next, m => rest m
  | .ret _, _ => []

/-- A block that is run, with its marks. -/
structure Marked (R : Type) where
  run : Exec R (Flow R)
  marks : Machine R → List (Mark R)

namespace Job

/-- The marks of loop rounds. -/
def roundMarks (j : Job R) (header : Marked R) (test : Exec R Bool) (body : Marked R) :
    Nat → Machine R → List (Mark R)
  | 0, _ => []
  | n + 1, m => [.round] ++ behind j.tick (fun _ m =>
      header.marks m ++ behind header.run (unlessReturned (behind test fun go m =>
        if go then body.marks m ++ behind body.run
          (unlessReturned (j.roundMarks header test body n)) m
        else [])) m) m

variable [Scalar R]

/-- The mark of an atomic statement. -/
def atomMarks (j : Job R) (m : Machine R) : Stmt → List (Mark R)
  | .define _ _ (.pop t) =>
    match j.eval (.pop t) m with
    | .ok s _ => [.pop t s]
    | .error _ _ => []
  | .define _ _ (.call callee args _) =>
    match j.readAll args m with
    | .ok slots _ =>
      match j.externs.call callee (Slot.values slots) m.world with
      | .ok _ _ => []
      | .error e _ => [.refusal callee e]
    | .error _ _ => []
  | .push t val =>
    match j.read val m with
    | .ok s _ => [.push t s]
    | .error _ _ => []
  | .pushDecision t d => [.push t { value := .int d }]
  | _ => []

mutual

def stmtMarks (j : Job R) : Stmt → Machine R → List (Mark R)
  | .cond arms other, m => j.armsMarks arms (j.blockMarks other) m
  | .loop header test body, m =>
    j.roundMarks ⟨j.execBlock header, j.blockMarks header⟩ (j.readBool test)
      ⟨j.execBlock body, j.blockMarks body⟩ (j.limit - m.steps + 1) m
  | .doLoop body test, m =>
    j.roundMarks ⟨j.execBlock body, j.blockMarks body⟩ (j.readBool test)
      ⟨pure .next, fun _ => []⟩ (j.limit - m.steps + 1) m
  | .block body, m => j.blockMarks body m
  | .define dst decl e, m => j.atomMarks m (.define dst decl e)
  | .store obj field val, m => j.atomMarks m (.store obj field val)
  | .push t val, m => j.atomMarks m (.push t val)
  | .pushDecision t d, m => j.atomMarks m (.pushDecision t d)
  | .unreachable, m => j.atomMarks m .unreachable
  | .ret vals, m => j.atomMarks m (.ret vals)

def blockMarks (j : Job R) : List Stmt → Machine R → List (Mark R)
  | [], _ => []
  | s :: ss, m => j.stmtMarks s m ++ behind (j.exec s) (unlessReturned (j.blockMarks ss)) m

def armsMarks (j : Job R) : List (Var × List Stmt) → (Machine R → List (Mark R)) → Machine R →
    List (Mark R)
  | [], other, m => other m
  | (test, body) :: arms, other, m => behind (j.readBool test) (fun go m =>
      if go then j.blockMarks body m else j.armsMarks arms other m) m

end

/-- The marks of a run of the function. -/
def marks (j : Job R) (args : List (Slot R)) (m : Machine R) : List (Mark R) :=
  if args.length = j.func.params.length then
    j.blockMarks j.func.body (m.enter j.func.params args)
  else []

theorem stmtMarks_of_not_controlFlow (j : Job R) {s : Stmt} (hs : s.isControlFlow = false)
    (m : Machine R) : j.stmtMarks s m = j.atomMarks m s := by
  cases s <;> first | rfl | cases hs

theorem stmtMarks_doLoop (j : Job R) (body : Block) (test : Var) (m : Machine R) :
    j.stmtMarks (.doLoop body test) m = j.stmtMarks (.loop body test []) m := by
  have hempty : (⟨pure .next, fun _ => []⟩ : Marked R) = ⟨j.execBlock [], j.blockMarks []⟩ := rfl
  rw [stmtMarks, stmtMarks, hempty]

end Job

/-! ## Actions -/

/-- A single action: the machine before, its mark, the machine after, and its error if it fails.
Only tapes and step count are followed. -/
inductive Act (limit : Nat) :
    Machine R → List (Mark R) → Machine R → Option RunError → Prop
  | quiet {m m'} (tapes : m'.tapes = m.tapes) (steps : m'.steps = m.steps) :
      Act limit m [] m' none
  | push {m m'} (t : Tape) (s : Slot R) (tapes : m'.tapes = m.tapes.push t s)
      (steps : m'.steps = m.steps) : Act limit m [.push t s] m' none
  | pop {m m' t s st} (top : m.stack t = s :: st) (tapes : m'.tapes = (m.dropTape t st).tapes)
      (steps : m'.steps = m.steps) : Act limit m [.pop t s] m' none
  | round {m} (room : m.steps < limit) : Act limit m [.round] m.ticked none
  | failure {m m' e} (error : e ≠ .stepLimit) (tapes : m'.tapes = m.tapes)
      (steps : m'.steps = m.steps) : Act limit m [] m' (some e)
  | refusal {m m'} (callee : String) (e : RunError) (tapes : m'.tapes = m.tapes)
      (steps : m'.steps = m.steps) : Act limit m [.refusal callee e] m' (some e)
  | cut {m} (full : limit ≤ m.steps) : Act limit m [.round] m.ticked (some .stepLimit)

/-- Actions one after the other. -/
inductive Trace (limit : Nat) :
    Machine R → List (Mark R) → Machine R → Option RunError → Prop
  | done {m} : Trace limit m [] m none
  | last {m l m' e} (act : Act limit m l m' (some e)) : Trace limit m l m' (some e)
  | step {m l m₁ l' m' o} (act : Act limit m l m₁ none) (rest : Trace limit m₁ l' m' o) :
      Trace limit m (l ++ l') m' o

namespace Trace

variable {limit : Nat} {m m₁ m' : Machine R} {l l' : List (Mark R)} {o : Option RunError}

theorem act (h : Act limit m l m' o) : Trace limit m l m' o := by
  cases o with
  | none => exact List.append_nil l ▸ .step h .done
  | some e => exact .last h

theorem trans (h : Trace limit m l m₁ none) (h' : Trace limit m₁ l' m' o) :
    Trace limit m (l ++ l') m' o := by
  generalize ho : (none : Option RunError) = first at h
  induction h with
  | done => exact h'
  | last => cases ho
  | step act _ ih => exact List.append_assoc _ _ l' ▸ .step act (ih h' ho)

end Trace

/-- The action goes through a trace with these marks, and ends as that does. -/
def Follows {α : Type} (limit : Nat) (m : Machine R) (l : List (Mark R))
    (r : EStateM.Result RunError (Machine R) α) : Prop :=
  Ends r (fun _ m' => Trace limit m l m' none) (fun e m' => Trace limit m l m' (some e))

namespace Follows

variable {α β : Type} {limit : Nat} {m : Machine R} {l : List (Mark R)}

theorem ok {x : α} : Follows limit m [] (.ok x m) := Trace.done

theorem bind {x : Exec R α} {f : α → Exec R β} {rest : α → Machine R → List (Mark R)}
    (hx : Follows limit m l (x m))
    (hf : ∀ a m', x m = .ok a m' → Follows limit m' (rest a m') (f a m')) :
    Follows limit m (l ++ behind x rest m) ((x >>= f) m) := by
  rw [Follows, ends_bind, behind]
  cases h : x m with
  | error e m' =>
    rw [h] at hx
    exact (List.append_nil l).symm ▸ hx
  | ok a m' =>
    rw [h] at hx
    exact (hf a m' h).mono (fun _ _ => hx.trans) fun _ _ => hx.trans

/-- An action without marks, and what comes behind it. -/
theorem bind_quiet {x : Exec R α} {f : α → Exec R β} {rest : α → Machine R → List (Mark R)}
    (hx : Follows limit m [] (x m))
    (hf : ∀ a m', x m = .ok a m' → Follows limit m' (rest a m') (f a m')) :
    Follows limit m (behind x rest m) ((x >>= f) m) :=
  hx.bind hf

end Follows

/-- The action leaves tapes and step count alone, and does not fail at a limit. -/
def Quiet {α : Type} (m : Machine R) (r : EStateM.Result RunError (Machine R) α) : Prop :=
  Ends r (fun _ m' => m'.tapes = m.tapes ∧ m'.steps = m.steps)
    (fun e m' => e ≠ .stepLimit ∧ m'.tapes = m.tapes ∧ m'.steps = m.steps)

namespace Quiet

variable {α β : Type} {limit : Nat} {m : Machine R}

theorem bind {x : Exec R α} {f : α → Exec R β} (hx : Quiet m (x m))
    (hf : ∀ a m', Quiet m' (f a m')) : Quiet m ((x >>= f) m) := by
  rw [Quiet, ends_bind]
  refine Ends.mono hx (fun a m' h => ?_) fun _ _ h => h
  exact (hf a m').mono (fun _ _ h' => ⟨h'.1.trans h.1, h'.2.trans h.2⟩)
    fun _ _ h' => ⟨h'.1, h'.2.1.trans h.1, h'.2.2.trans h.2⟩

theorem follows {r : EStateM.Result RunError (Machine R) α} (h : Quiet m r) :
    Follows limit m [] r :=
  Ends.mono h (fun _ _ h => .act (.quiet h.1 h.2)) fun _ _ h => .act (.failure h.1 h.2.1 h.2.2)

end Quiet

/-! ## Atomic statements -/

namespace Job

variable (j : Job R) (m : Machine R)

theorem ofExcept_quiet {α : Type} {x : Except RunError α} (hx : x ≠ .error .stepLimit) :
    Quiet m ((ofExcept x : Exec R α) m) := by
  cases x with
  | ok a => exact ⟨rfl, rfl⟩
  | error e => exact ⟨fun he => hx (he ▸ rfl), rfl, rfl⟩

theorem read_quiet (v : Var) : Quiet m (j.read v m) := by
  cases h : m.var v with
  | none =>
    rw [j.read_none m h]
    exact ⟨by simp, rfl, rfl⟩
  | some s =>
    rw [j.read_some m h]
    exact ⟨rfl, rfl⟩

theorem readAll_quiet (vs : List Var) : Quiet m (j.readAll vs m) := by
  refine (j.readAll_ends m vs).mono (fun _ m' h => h ▸ ⟨rfl, rfl⟩) fun e m' h => ?_
  obtain ⟨rfl, x, rfl⟩ := h
  exact ⟨by simp, rfl, rfl⟩

theorem readBool_quiet (v : Var) : Quiet m (j.readBool v m) := by
  refine (j.read_quiet m v).bind fun s m' => ofExcept_quiet m' ?_
  cases s.value <;> simp [Value.toBool, Value.mismatch]

theorem readObj_quiet (v : Var) : Quiet m (j.readObj v m) := by
  refine (j.read_quiet m v).bind fun s m' => ofExcept_quiet m' ?_
  cases s.value <;> simp [Value.toObj, Value.mismatch]

theorem load_quiet (handle : Nat) (field : String) : Quiet m (load handle field m) := by
  rw [load_apply, Heap.load_eq]
  cases m.world.heap.records[handle]? with
  | none => exact ⟨by simp, rfl, rfl⟩
  | some r =>
    dsimp only
    cases r.lookup field with
    | none => exact ⟨by simp, rfl, rfl⟩
    | some v => exact ⟨rfl, rfl⟩

theorem store_quiet (handle : Nat) (field : String) (s : Slot R) :
    Quiet m (store handle field s m) := by
  rw [store_apply]
  unfold Heap.store Heap.record
  cases m.world.heap.records[handle]? with
  | none => exact ⟨by simp, rfl, rfl⟩
  | some r => exact ⟨rfl, rfl⟩

theorem record_quiet (value : Value R) (args : List (Slot R)) (ps : List R) :
    Quiet m ((record args ps >>= fun node => pure ({ value, node } : Slot R)) m) := by
  rw [Quiet, ends_bind, record_apply]
  cases m.graph with
  | none => exact ⟨rfl, rfl⟩
  | some g => exact ⟨rfl, rfl⟩

theorem write_quiet (dst : Var) (s : Slot R) :
    Quiet m ((write dst s >>= fun _ => pure .next : Exec R (Flow R)) m) := ⟨rfl, rfl⟩

theorem tick_follows : Follows j.limit m [.round] (j.tick m) := by
  rw [tick_apply]
  split
  · exact .act (.cut (by omega))
  · exact .act (.round (by omega))

variable [Scalar R]

theorem operate_quiet (op : Opcode) (args : List (Slot R)) : Quiet m (operate op args m) := by
  have hsteps := operate_frame op [] args m
  refine ((operate_ends op args m).and hsteps).mono (fun _ m' h => ⟨h.1.2.2, h.2.steps⟩)
    fun e m' h => ⟨?_, h.1.2.2, h.2.steps⟩
  rcases Opcode.eval_error h.1.1 with ⟨a, b, rfl⟩ | ⟨a, b, rfl⟩ <;> simp

/-- Only pops and calls leave marks. -/
theorem eval_quiet {e : Expr} (hpop : ∀ t, e ≠ .pop t)
    (hcall : ∀ callee args node, e ≠ .call callee args node) : Quiet m (j.eval e m) := by
  cases e with
  | const c => exact ⟨rfl, rfl⟩
  | copy v => exact j.read_quiet m v
  | load obj field => exact (j.readObj_quiet m obj).bind fun h m' => load_quiet m' h field
  | op op args => exact (j.readAll_quiet m args).bind fun ss m' => operate_quiet m' op ss
  | call callee args node => exact absurd rfl (hcall callee args node)
  | pop t => exact absurd rfl (hpop t)
  | topIs t d => exact ⟨rfl, rfl⟩

/-- A call fails where it is made, or in asking for partial derivatives. -/
theorem call_follows (dst : Var) (decl : Bool) (callee : String) (args : List Var)
    (node : Option String) :
    Follows j.limit m (j.atomMarks m (.define dst decl (.call callee args node)))
      (j.exec (.define dst decl (.call callee args node)) m) := by
  rw [exec_define, eval_call]
  cases hread : j.readAll args m with
  | error e m' =>
    have hquiet := j.readAll_quiet m args
    rw [hread] at hquiet
    rw [bind_error (bind_error hread)]
    simp only [atomMarks, hread]
    exact Quiet.follows hquiet
  | ok slots m' =>
    obtain ⟨-, rfl⟩ := (j.readAll_eq_ok m).mp hread
    simp only [atomMarks, hread]
    cases hcall : j.externs.call callee (Slot.values slots) m'.world with
    | error e world =>
      have hfails : j.call callee slots m' = .error e { m' with world } := by
        rw [call_apply, hcall]
      rw [bind_error ((bind_ok hread).trans hfails)]
      exact .act (.refusal callee e rfl rfl)
    | ok value world =>
      have hquiet : Quiet m' (j.call callee slots m') := by
        rw [call_apply, hcall]
        dsimp only
        split
        · cases (j.externs.partials callee (Slot.values slots) world.trace).1 with
          | none => exact ⟨by simp, rfl, rfl⟩
          | some ps => exact record_quiet _ value slots ps
        · exact ⟨rfl, rfl⟩
      refine Quiet.follows (Quiet.bind ?_ fun s m₁ => write_quiet m₁ dst s)
      rw [bind_ok hread]
      exact hquiet

/-- **An atomic statement is a single action with its mark.** -/
theorem atom_follows {a : Stmt} (ha : a.isControlFlow = false) :
    Follows j.limit m (j.atomMarks m a) (j.exec a m) := by
  cases a, ha using Stmt.atomCases with
  | define dst decl e =>
    have plain (hpop : ∀ t, e ≠ .pop t) (hcall : ∀ callee args node, e ≠ .call callee args node) :
        Follows j.limit m [] (j.exec (.define dst decl e) m) :=
      ((j.eval_quiet m hpop hcall).bind fun s m' => write_quiet m' dst s).follows
    cases e with
    | const | copy | load | op | topIs => exact plain (by simp) (by simp)
    | call callee args node => exact j.call_follows m dst decl callee args node
    | pop t =>
      have heval : j.eval (.pop t) m = pop t m := rfl
      rw [exec_define, atomMarks]
      cases h : m.stack t with
      | nil =>
        rw [bind_error (heval.trans (pop_nil m h)), heval, pop_nil m h]
        exact .act (.failure (by simp) rfl rfl)
      | cons s st =>
        rw [bind_ok (heval.trans (pop_cons m h)), heval, pop_cons m h]
        exact .act (.pop h rfl rfl)
  | store obj field val =>
    refine Quiet.follows ((j.readObj_quiet m obj).bind fun handle m' => ?_)
    refine (j.read_quiet m' val).bind fun s m' => ?_
    exact (store_quiet m' handle field s).bind fun _ _ => ⟨rfl, rfl⟩
  | push t val =>
    rw [exec_push, atomMarks]
    cases h : m.var val with
    | none =>
      rw [bind_error (j.read_none m h), j.read_none m h]
      exact .act (.failure (by simp) rfl rfl)
    | some s =>
      rw [bind_ok (j.read_some m h), j.read_some m h]
      exact .act (.push t s rfl rfl)
  | pushDecision t d => exact .act (.push t _ rfl rfl)
  | unreachable => exact .act (.failure (by simp) rfl rfl)
  | ret vals => exact Quiet.follows ((j.readAll_quiet m vals).bind fun _ _ => ⟨rfl, rfl⟩)

/-! ## Blocks and runs -/

variable {j}

/-- The block goes through a trace with its marks, wherever it starts. -/
def BlockFollows (j : Job R) (b : Block) : Prop :=
  ∀ m, Follows j.limit m (j.blockMarks b m) (j.execBlock b m)

theorem arms_follow {arms : List (Var × Block)} {other : Block}
    (harms : ∀ arm ∈ arms, j.BlockFollows arm.2) (hother : j.BlockFollows other) (m : Machine R) :
    Follows j.limit m (j.armsMarks arms (j.blockMarks other) m)
      (j.execArms arms (j.execBlock other) m) := by
  induction arms generalizing m with
  | nil => exact hother m
  | cons arm arms ih =>
    obtain ⟨test, body⟩ := arm
    rw [armsMarks, execArms]
    refine (j.readBool_quiet m test).follows.bind_quiet fun go m' _ => ?_
    cases go with
    | true => exact harms (test, body) (by simp) m'
    | false => exact ih (fun arm harm => harms arm (by simp [harm])) m'

/-- As many rounds as can be started leave the marks of a trace. -/
theorem rounds_follow {header body : Block} (test : Var) (hheader : j.BlockFollows header)
    (hbody : j.BlockFollows body) (n : Nat) (m : Machine R) (hn : j.limit - m.steps < n) :
    Follows j.limit m
      (j.roundMarks ⟨j.execBlock header, j.blockMarks header⟩ (j.readBool test)
        ⟨j.execBlock body, j.blockMarks body⟩ n m)
      (j.whileRounds (j.execBlock header) (j.readBool test) (j.execBlock body) n m) := by
  induction n generalizing m with
  | zero => omega
  | succ n ih =>
    rw [whileRounds_succ, round, roundMarks]
    refine (j.tick_follows m).bind fun _ m₁ htick => ?_
    have hroom : m.steps < j.limit ∧ m₁ = m.ticked := by
      rw [tick_apply] at htick
      split at htick
      · cases htick
      · cases htick
        exact ⟨by omega, rfl⟩
    obtain ⟨hroom, rfl⟩ := hroom
    refine (hheader _).bind fun flow m₂ htested => ?_
    have hsteps₂ := (j.execBlock_steps header _).of_ok htested
    cases flow with
    | ret vals => exact .done
    | next =>
      refine (j.readBool_quiet m₂ test).follows.bind_quiet fun go m₃ hread => ?_
      cases (j.readBool_ends m₂ test).of_ok hread
      cases go with
      | false => exact .done
      | true =>
        refine (hbody m₂).bind fun flow m₄ hdone => ?_
        have hsteps₄ := (j.execBlock_steps body _).of_ok hdone
        cases flow with
        | ret vals => exact .done
        | next =>
          rw [Machine.steps_ticked] at hsteps₂
          exact ih m₄ (by omega)

/-- **Every block goes through a trace with its marks.** -/
theorem execBlock_follows (j : Job R) (b : Block) : j.BlockFollows b := by
  have cons {s : Stmt} {ss : Block} (hs : ∀ m, Follows j.limit m (j.stmtMarks s m) (j.exec s m))
      (hss : j.BlockFollows ss) : j.BlockFollows (s :: ss) := by
    intro m
    rw [blockMarks, execBlock]
    refine (hs m).bind fun flow m' _ => ?_
    cases flow with
    | ret vals => exact .done
    | next => exact hss m'
  induction b using blockInduction with
  | nil => exact fun _ => .done
  | atom s ss hs ih =>
    refine cons (fun m => ?_) ih
    rw [stmtMarks_of_not_controlFlow j hs]
    exact j.atom_follows m hs
  | cond arms other ss iha iho ih => exact cons (arms_follow iha iho) ih
  | loop header test body ss ihh ihb ih =>
    exact cons (fun m => rounds_follow test ihh ihb _ m (Nat.lt_succ_self _)) ih
  | doLoop body test ss ihb ih =>
    have hempty : j.BlockFollows [] := fun _ => .done
    refine cons (fun m => ?_) ih
    rw [stmtMarks_doLoop, exec_doLoop]
    exact rounds_follow test ihb hempty _ m (Nat.lt_succ_self _)
  | block body ss ihb ih => exact cons ihb ih

/-- **Every run is a trace with its marks.** -/
theorem runSlots_follows (j : Job R) (args : List (Slot R)) (m : Machine R) :
    Follows j.limit m (j.marks args m) (j.runSlots args m) := by
  rw [marks]
  split
  · rename_i hargs
    have hbody := j.execBlock_follows j.func.body (m.enter j.func.params args)
    have henter : Trace j.limit m [] (m.enter j.func.params args) none :=
      .act (.quiet (m.enter_keeps _ _).1 (m.enter_keeps _ _).2.2.2.1)
    rw [j.runSlots_eq m hargs]
    generalize j.blockMarks j.func.body _ = l at hbody ⊢
    cases hrun : j.execBlock j.func.body (m.enter j.func.params args) with
    | error e m' =>
      rw [hrun] at hbody
      exact henter.trans hbody
    | ok flow m' =>
      rw [hrun] at hbody
      have htrace : Trace j.limit m l m' none := henter.trans hbody
      cases flow with
      | ret vals => exact htrace
      | next => exact List.append_nil l ▸ htrace.trans (.act (.failure (by simp) rfl rfl))
  · rename_i hargs
    rw [j.runSlots_arity m hargs]
    exact .act (.failure (by simp) rfl rfl)

end Job

end Backsweep
