import Mathlib
import Backsweep.Proofs.Run.Operation
import Backsweep.Proofs.Run.Pair

/-!
# Runs in lockstep

The same code, run on two machines that agree on what the code can see, keeps
them in agreement. One machine may record a graph that the other one lacks, hold
tapes the code does not mention, and have a step limit of its own.

* `Window`: what is compared;
* `Agree`: two machines look the same through a window;
* `lockstep`: two results look the same, unless a step limit cut one of them off;
* `Twins.execBlock`: agreeing machines give matching results.
-/

namespace Backsweep

variable {R : Type}

/-- What two machines are compared on. With `erase` only the first one may record
a graph. -/
structure Window where
  erase : Bool
  var : Var → Prop
  tape : Tape → Prop

/-- What the second machine holds in place of a slot. -/
def Window.slot (w : Window) (s : Slot R) : Slot R := if w.erase then { value := s.value } else s

@[simp] theorem Window.value_slot (w : Window) (s : Slot R) : (w.slot s).value = s.value := by
  unfold Window.slot
  split <;> rfl

theorem Window.slot_keep {w : Window} (h : w.erase = false) (s : Slot R) : w.slot s = s := by
  simp [Window.slot, h]

theorem Window.slot_plain (w : Window) (v : Value R) : w.slot { value := v } = { value := v } := by
  unfold Window.slot
  split <;> rfl

theorem Window.values_map (w : Window) (ss : List (Slot R)) :
    Slot.values (ss.map w.slot) = Slot.values ss := by
  induction ss with
  | nil => rfl
  | cons s ss ih => simp [Slot.values, ih]

/-! ## What code mentions -/

namespace Expr

/-- The expression only mentions what the window shows. -/
def Within (w : Window) (e : Expr) : Prop :=
  (∀ v ∈ e.uses, w.var v) ∧ (∀ t ∈ e.tape?, w.tape t) ∧
    (w.erase = true → ∀ callee args node, e ≠ .call callee args node)

end Expr

mutual

/-- The statement only mentions what the window shows. -/
def Stmt.Within (w : Window) : Stmt → Prop
  | .define dst _ e => w.var dst ∧ e.Within w
  | .store obj _ val => w.var obj ∧ w.var val
  | .cond arms other => armsWithin w arms ∧ blockWithin w other
  | .loop header test body => blockWithin w header ∧ w.var test ∧ blockWithin w body
  | .doLoop body test => blockWithin w body ∧ w.var test
  | .block body => blockWithin w body
  | .push t val => w.tape t ∧ w.var val
  | .pushDecision t _ => w.tape t
  | .unreachable => True
  | .ret vals => ∀ v ∈ vals, w.var v

def blockWithin (w : Window) : List Stmt → Prop
  | [] => True
  | s :: ss => s.Within w ∧ blockWithin w ss

def armsWithin (w : Window) : List (Var × List Stmt) → Prop
  | [] => True
  | (test, body) :: arms => w.var test ∧ blockWithin w body ∧ armsWithin w arms

end

theorem blockWithin_append {w : Window} {a b : Block} :
    blockWithin w (a ++ b) ↔ blockWithin w a ∧ blockWithin w b := by
  induction a with
  | nil => simp [blockWithin]
  | cons s a ih => simp [blockWithin, ih, and_assoc]

theorem armsWithin_iff {w : Window} {arms : List (Var × Block)} :
    armsWithin w arms ↔ ∀ arm ∈ arms, w.var arm.1 ∧ blockWithin w arm.2 := by
  induction arms with
  | nil => simp [armsWithin]
  | cons arm arms ih => simp [armsWithin, ih, and_assoc]

/-! ## Agreement -/

/-- The second machine looks like the first one. -/
structure Agree (w : Window) (m n : Machine R) : Prop where
  var : ∀ v, w.var v → n.var v = (m.var v).map w.slot
  left : ∀ v, w.var v → v.idx < m.vars.size
  right : ∀ v, w.var v → v.idx < n.vars.size
  stack : ∀ t, w.tape t → n.stack t = (m.stack t).map w.slot
  world : n.world = m.world
  graph : n.graph = if w.erase then none else m.graph
  steps : n.steps = m.steps

namespace Agree

variable {w : Window} {m n : Machine R}

theorem setVar (h : Agree w m n) {v : Var} (hv : w.var v) (s : Slot R) :
    Agree w (m.setVar v s) (n.setVar v (w.slot s)) := by
  refine ⟨fun u hu => ?_, fun u hu => by simpa using h.left u hu,
    fun u hu => by simpa using h.right u hu, h.stack, h.world, h.graph, h.steps⟩
  by_cases hvu : v = u
  · subst hvu
    rw [Machine.var_setVar_self _ _ _ (h.right v hv), Machine.var_setVar_self _ _ _ (h.left v hv)]
    rfl
  · rw [Machine.var_setVar_ne _ _ _ _ hvu, Machine.var_setVar_ne _ _ _ _ hvu]
    exact h.var u hu

theorem pushTape (h : Agree w m n) (t : Tape) (s : Slot R) :
    Agree w (m.pushTape t s) (n.pushTape t (w.slot s)) := by
  refine ⟨h.var, h.left, h.right, fun u hu => ?_, h.world, h.graph, h.steps⟩
  by_cases hut : u = t
  · subst hut
    simp [h.stack u hu]
  · simp [hut, h.stack u hu]

theorem dropTape (h : Agree w m n) (t : Tape) (st : List (Slot R)) :
    Agree w (m.dropTape t st) (n.dropTape t (st.map w.slot)) := by
  refine ⟨h.var, h.left, h.right, fun u hu => ?_, h.world, h.graph, h.steps⟩
  by_cases hut : u = t
  · subst hut
    simp
  · simp [hut, h.stack u hu]

/-- A tape outside of the window does not show. -/
theorem pushHidden (h : Agree w m n) {t : Tape} (ht : ¬w.tape t) (s : Slot R) :
    Agree w m (n.pushTape t s) := by
  refine ⟨h.var, h.left, h.right, fun u hu => ?_, h.world, h.graph, h.steps⟩
  have hut : u ≠ t := fun hut => ht (hut ▸ hu)
  simp [hut, h.stack u hu]

theorem pushAllHidden (h : Agree w m n) {t : Tape} (ht : ¬w.tape t)
    (ss : List (Slot R)) : Agree w m (n.pushAll t ss) := by
  induction ss generalizing n with
  | nil => exact h
  | cons s ss ih => exact ih (h.pushHidden ht s)

theorem ticked (h : Agree w m n) : Agree w m.ticked n.ticked :=
  ⟨h.var, h.left, h.right, h.stack, h.world, h.graph, congrArg (· + 1) h.steps⟩

theorem setWorld (h : Agree w m n) (world : World R) :
    Agree w { m with world } { n with world } :=
  ⟨h.var, h.left, h.right, h.stack, rfl, h.graph, h.steps⟩

/-- The first machine may record what the second one does not see. -/
theorem recordLeft (h : Agree w m n) (he : w.erase = true) (g : Option (Graph R)) :
    Agree w { m with graph := g } n :=
  ⟨h.var, h.left, h.right, h.stack, h.world, by rw [h.graph, he]; rfl, h.steps⟩

theorem recordBoth (h : Agree w m n) (he : w.erase = false) (g : Option (Graph R)) :
    Agree w { m with graph := g } { n with graph := g } :=
  ⟨h.var, h.left, h.right, h.stack, h.world, by simp [he], h.steps⟩

theorem graph_keep (h : Agree w m n) (he : w.erase = false) : n.graph = m.graph := by
  rw [h.graph, he]; rfl

theorem graph_erase (h : Agree w m n) (he : w.erase = true) : n.graph = none := by
  rw [h.graph, he]; rfl

end Agree

/-! ## Matching results -/

/-- The same error, or reads of two variables that are not defined. -/
def Similar (e e' : RunError) : Prop :=
  e' = e ∨ ∃ x y, e = .undefinedVar x ∧ e' = .undefinedVar y

theorem Similar.refl (e : RunError) : Similar e e := .inl rfl

theorem similar_undefinedVar (x y : String) : Similar (.undefinedVar x) (.undefinedVar y) :=
  .inr ⟨x, y, rfl, rfl⟩

/-- How a block ends, as the second machine sees it. -/
abbrev Window.flow (w : Window) : Flow R → Flow R := Flow.map (List.map w.slot)

/-- Both runs fail alike, on machines with the same records. Where `cut` holds, one of them
may have exceeded its step limit instead. -/
def lockstep (R : Type) (w : Window) (cut : Prop) : PairLaw R R where
  fail e m e' n := Similar e e' ∧ n.world = m.world ∨ cut ∧ (e = .stepLimit ∨ e' = .stepLimit)
  left e _ _ := cut ∧ e = .stepLimit
  right e' := cut ∧ e' = .stepLimit
  left_fail h _ := .inr ⟨h.1, .inl h.2⟩
  right_fail h _ _ _ := .inr ⟨h.1, .inr h.2⟩
  vals _ := List.map w.slot
  done := Agree w

theorem lockstep_alone {w : Window} {cut : Prop} {α : Type} (y : Exec R α) :
    (lockstep R w cut).Alone y := fun _ _ _ h => h

/-- Two results match if they are related and leave machines that agree. -/
abbrev Matched {α β : Type} (w : Window) (cut : Prop) (q : α → β → Prop) :
    EStateM.Result RunError (Machine R) α → EStateM.Result RunError (Machine R) β → Prop :=
  (lockstep R w cut).Ends fun a m b n => q a b ∧ Agree w m n

theorem Matched.fail {α β : Type} {w : Window} {cut : Prop} {q : α → β → Prop} (e : RunError)
    {m n : Machine R} (h : n.world = m.world) : Matched w cut q (.error e m) (.error e n) :=
  .inl ⟨.refl e, h⟩

theorem Matched.bind {α β γ δ : Type} {w : Window} {cut : Prop} {q : α → β → Prop}
    {q' : γ → δ → Prop} {x : Exec R α} {y : Exec R β} {f : α → Exec R γ} {g : β → Exec R δ}
    {m n : Machine R} (h : Matched w cut q (x m) (y n))
    (hf : ∀ a b m' n', q a b → Agree w m' n' → Matched w cut q' (f a m') (g b n')) :
    Matched w cut q' ((x >>= f) m) ((y >>= g) n) :=
  PairLaw.Ends.bind h (fun _ => lockstep_alone _) fun a m' b n' hab => hf a b m' n' hab.1 hab.2

/-- The results of a block match. -/
abbrev FlowsMatch (w : Window) (cut : Prop)
    (r r' : EStateM.Result RunError (Machine R) (Flow R)) : Prop :=
  Matched w cut (fun flow flow' => flow' = w.flow flow) r r'

/-- Two jobs that run code in lockstep. -/
structure Twins (cut : Prop) (j k : Job R) : Prop where
  externs : k.externs = j.externs
  limit : k.limit = j.limit ∨ cut

/-! ## Reading and writing -/

namespace Twins

variable {w : Window} {cut : Prop} {j k : Job R} {m n : Machine R}

theorem read (_ : Twins cut j k) (h : Agree w m n) {v : Var} (hv : w.var v) :
    Matched w cut (fun s s' => s' = w.slot s) (j.read v m) (k.read v n) := by
  have hn := h.var v hv
  cases hm : m.var v with
  | none =>
    rw [hm] at hn
    rw [Job.read_none j m hm, Job.read_none k n hn]
    exact .inl ⟨similar_undefinedVar _ _, h.world⟩
  | some s =>
    rw [hm] at hn
    rw [Job.read_some j m hm, Job.read_some k n hn]
    exact ⟨rfl, h⟩

theorem ofExcept {α : Type} (h : Agree w m n) (x : Except RunError α) :
    Matched w cut (fun a b => b = a) ((Job.ofExcept x : Exec R α) m)
      ((Job.ofExcept x : Exec R α) n) := by
  cases x with
  | ok a => exact ⟨rfl, h⟩
  | error e => exact .fail e h.world

theorem readBool (t : Twins cut j k) (h : Agree w m n) {v : Var} (hv : w.var v) :
    Matched w cut (fun b b' => b' = b) (j.readBool v m) (k.readBool v n) := by
  refine (t.read h hv).bind fun s s' m' n' hs h' => ?_
  rw [hs, Window.value_slot]
  exact ofExcept h' _

theorem readObj (t : Twins cut j k) (h : Agree w m n) {v : Var} (hv : w.var v) :
    Matched w cut (fun o o' => o' = o) (j.readObj v m) (k.readObj v n) := by
  refine (t.read h hv).bind fun s s' m' n' hs h' => ?_
  rw [hs, Window.value_slot]
  exact ofExcept h' _

theorem readAll (t : Twins cut j k) {vs : List Var} (h : Agree w m n) (hvs : ∀ v ∈ vs, w.var v) :
    Matched w cut (fun ss ss' => ss' = ss.map w.slot) (j.readAll vs m) (k.readAll vs n) := by
  induction vs generalizing m n with
  | nil => exact ⟨rfl, h⟩
  | cons v vs ih =>
    refine (t.read h (hvs v (by simp))).bind fun s s' m' n' hs h' => ?_
    refine (ih h' fun v hv => hvs v (by simp [hv])).bind fun ss ss' m'' n'' hss h'' => ?_
    exact ⟨by rw [hs, hss]; rfl, h''⟩

theorem tick (t : Twins cut j k) (h : Agree w m n) :
    Matched w cut (fun _ _ => True) (j.tick m) (k.tick n) := by
  rw [Job.tick_apply, Job.tick_apply, h.steps]
  rcases t.limit with hl | hc
  · rw [hl]
    split
    · exact .fail _ h.world
    · exact ⟨trivial, h.ticked⟩
  · split <;> split
    · exact .fail _ h.world
    · exact ⟨hc, rfl⟩
    · exact ⟨hc, rfl⟩
    · exact ⟨trivial, h.ticked⟩

/-- Runs of an action on agreeing machines match. -/
abbrev InStep (w : Window) (cut : Prop) (x y : Exec R (Flow R)) : Prop :=
  (lockstep R w cut).InStep (Agree w) (Agree w) x y

theorem inStep_of {x y : Exec R (Flow R)}
    (h : ∀ m n, Agree w m n → FlowsMatch w cut (x m) (y n)) : InStep w cut x y :=
  PairLaw.inStep_of (fun _ _ h => h) ⟨h, lockstep_alone y⟩

theorem tests (t : Twins cut j k) {v : Var} (hv : w.var v) :
    (lockstep R w cut).Tests (Agree w) (j.readBool v) (k.readBool v) :=
  ⟨fun _ _ h => t.readBool h hv, lockstep_alone _⟩

theorem paces (t : Twins cut j k) : (lockstep R w cut).Paces j k (Agree w) where
  tick := ⟨fun _ _ h => (t.tick h).mono fun _ _ _ _ h => h.2, lockstep_alone _⟩
  limit _ _ h := .inl ⟨.refl _, h.world⟩

/-! ## Expressions -/

/-- A node is recorded on both machines alike, or on the first one only. -/
theorem record (h : Agree w m n) (value : Value R) (args : List (Slot R)) (ps : List R)
    (he : w.erase = false) :
    Matched w cut (fun s s' => s' = w.slot s)
      ((Job.record args ps >>= fun node => pure ({ value, node } : Slot R)) m)
      ((Job.record args ps >>= fun node => pure ({ value, node } : Slot R)) n) := by
  simp only [bind_apply, Job.record_apply, h.graph_keep he]
  cases m.graph with
  | none => exact ⟨(Window.slot_keep he _).symm, h⟩
  | some g => exact ⟨(Window.slot_keep he _).symm, h.recordBoth he _⟩

theorem call (t : Twins cut j k) (h : Agree w m n) (he : w.erase = false) (callee : String)
    (args : List (Slot R)) :
    Matched w cut (fun s s' => s' = w.slot s) (j.call callee args m)
      (k.call callee args n) := by
  rw [Job.call_apply, Job.call_apply, t.externs, h.world,
    show n.graph.isSome = m.graph.isSome by rw [h.graph_keep he]]
  cases j.externs.call callee (Slot.values args) m.world with
  | error e world => exact .fail e rfl
  | ok value world =>
    dsimp only
    split
    · cases (j.externs.partials callee (Slot.values args) world.trace).1 with
      | none => exact .fail _ rfl
      | some ps => exact record (h.setWorld _) value args ps he
    · exact ⟨(Window.slot_keep he _).symm, h.setWorld world⟩

variable [Scalar R]

theorem operate (h : Agree w m n) (op : Opcode) (args : List (Slot R)) :
    Matched w cut (fun s s' => s' = w.slot s) (Job.operate op args m)
      (Job.operate op (args.map w.slot) n) := by
  rw [Job.operate_apply, Job.operate_apply, Window.values_map]
  cases hv : op.eval (Slot.values args) with
  | error e => exact .fail e h.world
  | ok value =>
    dsimp only
    cases he : w.erase with
    | false =>
      have hargs : args.map w.slot = args := by
        simpa using List.map_congr_left (g := id) fun s (_ : s ∈ args) => w.slot_keep he s
      rw [h.graph_keep he, hargs]
      split
      · cases value.toReal.bind (op.partials (Slot.values args)) with
        | error e => exact .fail e h.world
        | ok ps => exact record h value args ps he
      · exact ⟨(Window.slot_plain w _).symm, h⟩
    | true =>
      have hplain (node : Option Nat) : ({ value } : Slot R) = w.slot { value, node } := by
        simp [Window.slot, he]
      rw [h.graph_erase he]
      simp only [Option.isSome_none, Bool.false_and, Bool.false_eq_true, ite_false]
      split
      · rename_i hc
        -- partial derivatives are there, so recording them is all the first machine does
        have hd : op.isDifferentiable = true := by simp only [Bool.and_eq_true] at hc; exact hc.2
        obtain ⟨xs, y, ps, -, rfl, hps, -⟩ := Opcode.eval_differentiable hd hv
        have hb : (Value.real y).toReal.bind (op.partials (Slot.values args)) = .ok ps := hps
        rw [hb]
        simp only [bind_apply, Job.record_apply]
        cases m.graph with
        | none => exact ⟨hplain _, h⟩
        | some g => exact ⟨hplain _, h.recordLeft he _⟩
      · exact ⟨hplain none, h⟩

/-- Expressions have the same values on both machines. -/
theorem eval (t : Twins cut j k) (h : Agree w m n) {e : Expr} (he : e.Within w) :
    Matched w cut (fun s s' => s' = w.slot s) (j.eval e m) (k.eval e n) := by
  obtain ⟨huses, htape, hcall⟩ := he
  cases e with
  | const c => exact ⟨(w.slot_plain _).symm, h⟩
  | copy v => exact t.read h (huses v (by simp [Expr.uses]))
  | load obj field =>
    rw [Job.eval_load, Job.eval_load]
    refine (t.readObj h (huses obj (by simp [Expr.uses]))).bind fun o o' m' n' ho h' => ?_
    rw [ho, Job.load_apply, Job.load_apply, h'.world]
    cases m'.world.heap.load o field with
    | error e => exact .fail e h'.world
    | ok value =>
      refine ⟨?_, h'⟩
      cases hw : w.erase with
      | false => rw [w.slot_keep hw, h'.graph_keep hw]
      | true => simp [Window.slot, hw, h'.graph_erase hw]
  | op op args =>
    rw [Job.eval_op, Job.eval_op]
    refine (t.readAll h huses).bind fun ss ss' m' n' hss h' => ?_
    rw [hss]
    exact operate h' op ss
  | call callee args node =>
    have hw : w.erase = false := by
      cases hw : w.erase with
      | false => rfl
      | true => exact absurd rfl (hcall hw callee args node)
    rw [Job.eval_call, Job.eval_call]
    refine (t.readAll h huses).bind fun ss ss' m' n' hss h' => ?_
    have hargs : ss' = ss := by
      rw [hss]
      simpa using List.map_congr_left (g := id) fun s (_ : s ∈ ss) => w.slot_keep hw s
    rw [hargs]
    exact t.call h' hw callee ss
  | pop tape =>
    change Matched w cut (fun s s' => s' = w.slot s) (Job.pop tape m) (Job.pop tape n)
    have hst := h.stack tape (htape tape (by simp [Expr.tape?]))
    cases hm : m.stack tape with
    | nil =>
      rw [hm] at hst
      rw [Job.pop_nil m hm, Job.pop_nil n hst]
      exact .fail _ h.world
    | cons s st =>
      rw [hm] at hst
      rw [Job.pop_cons m hm, Job.pop_cons n hst]
      exact ⟨rfl, h.dropTape tape st⟩
  | topIs tape d =>
    refine ⟨?_, h⟩
    have hst := h.stack tape (htape tape (by simp [Expr.tape?]))
    have htop : n.tapes.topIs tape d = m.tapes.topIs tape d := by
      rw [Machine.topIs_eq, Machine.topIs_eq, hst]
      cases m.stack tape with
      | nil => rfl
      | cons s st =>
        obtain ⟨value, node⟩ := s
        cases hw : w.erase <;> cases value <;> simp [Window.slot, hw]
    dsimp only
    rw [w.slot_plain, htop]

/-! ## Statements -/

/-- Atomic statements do the same on both machines. -/
theorem atom (t : Twins cut j k) (h : Agree w m n) {s : Stmt} (hs : s.isControlFlow = false)
    (hw : s.Within w) : FlowsMatch w cut (j.exec s m) (k.exec s n) := by
  cases s, hs using Stmt.atomCases with
  | define dst decl e =>
    rw [Job.exec_define, Job.exec_define]
    refine (t.eval h hw.2).bind fun s s' m' n' hs h' => ?_
    rw [hs]
    exact ⟨rfl, h'.setVar hw.1 s⟩
  | store obj field val =>
    rw [Job.exec_store, Job.exec_store]
    refine (t.readObj h hw.1).bind fun o o' m' n' ho h' => ?_
    refine (t.read h' hw.2).bind fun s s' m'' n'' hs h'' => ?_
    rw [ho, hs]
    simp only [bind_apply, Job.store_apply, h''.world, Window.value_slot]
    cases m''.world.heap.store o field s.value with
    | error e => exact .fail e h''.world
    | ok heap =>
      refine ⟨rfl, h''.var, h''.left, h''.right, h''.stack, rfl, ?_, h''.steps⟩
      cases he : w.erase with
      | false => simp [h''.graph_keep he, w.slot_keep he]
      | true => simp [h''.graph_erase he]
  | push tape val =>
    rw [Job.exec_push, Job.exec_push]
    refine (t.read h hw.2).bind fun s s' m' n' hs h' => ?_
    rw [hs]
    exact ⟨rfl, h'.pushTape tape s⟩
  | pushDecision tape d =>
    rw [Job.exec_pushDecision, Job.exec_pushDecision]
    refine ⟨rfl, ?_⟩
    simpa only [w.slot_plain] using h.pushTape tape { value := .int d }
  | unreachable => exact .fail _ h.world
  | ret vals =>
    rw [Job.exec_ret, Job.exec_ret]
    refine (t.readAll h hw).bind fun ss ss' m' n' hss h' => ?_
    exact ⟨by rw [hss]; rfl, h'⟩

/-- **The same code on agreeing machines gives matching results.** -/
theorem execBlock (t : Twins cut j k) {b : Block} (hw : blockWithin w b) :
    InStep w cut (j.execBlock b) (k.execBlock b) := by
  have hcovers : (lockstep R w cut).Covers j k id (fun _ => Agree w) fun _ => blockWithin w := by
    refine ⟨fun _ _ _ h => h, fun _ => t.paces, ?_, ?_, ?_, ?_, ?_⟩
    · intro D s ss hs hw
      rw [Stmt.rename_id hs]
      exact ⟨inStep_of fun m n h => t.atom h hs hw.1, hw.2⟩
    · intro D arms other ss hw
      have harms := armsWithin_iff.mp hw.1.1
      exact ⟨fun arm harm => ⟨t.tests (harms arm harm).1, (harms arm harm).2⟩, hw.1.2, hw.2⟩
    · exact fun hw => ⟨hw.1.1, t.tests hw.1.2.1, hw.1.2.2, hw.2⟩
    · exact fun hw => ⟨hw.1.1, t.tests hw.1.2, hw.2⟩
    · exact fun hw => hw
  exact hcovers.sameBlock (D := ∅) hw

end Twins

end Backsweep
