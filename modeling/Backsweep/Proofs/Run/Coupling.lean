import Mathlib
import Backsweep.Proofs.Run.Whole

/-!
# Runs over different scalars

The same code is run on two machines whose scalars differ. What is kept by every
atomic statement is kept by every block, as long as both machines decide the same
tests.

* `Coupling`: what is said of the two machines;
* `Coupled`: what is said of the two results;
* `Coupling.block`: coupled atomic statements make coupled blocks;
* `Coupling.runSlots`: coupled bodies make coupled runs.
-/

namespace Backsweep

variable {S S' : Type} [Scalar S] [Scalar S']

/-- How what one machine holds is read by another one. What a slot stands for depends
on the graph that the first machine records, if it does. -/
structure Coupling (S S' : Type) [Scalar S] [Scalar S'] where
  slot : Option (Graph S) → Slot S → Slot S'
  /-- What a machine with that graph can hold. -/
  fits : Option (Graph S) → Slot S → Prop
  shared : Option (Graph S) → World S → World S' → Prop
  toBool : ∀ g s, (slot g s).value.toBool = s.value.toBool
  toInt : ∀ g s, (slot g s).value.toInt = s.value.toInt
  toObj : ∀ g s, (slot g s).value.toObj = s.value.toObj
  fits_plain : ∀ g value, fits g { value }
  const : ∀ g c, slot g { value := .ofConst c } = { value := .ofConst c }

/-- The second machine holds what the first one does, and records no graph. -/
structure Coupling.machines (C : Coupling S S') (m : Machine S) (n : Machine S') : Prop where
  size : n.vars.size = m.vars.size
  var : ∀ v, n.var v = (m.var v).map (C.slot m.graph)
  stack : ∀ t, n.stack t = (m.stack t).map (C.slot m.graph)
  var_fits : ∀ v s, m.var v = some s → C.fits m.graph s
  stack_fits : ∀ t, ∀ s ∈ m.stack t, C.fits m.graph s
  shared : C.shared m.graph m.world n.world
  steps : n.steps = m.steps
  plain : n.graph = none

/-- How a block ends, as the second machine has it. -/
abbrev Coupling.flow (C : Coupling S S') (m : Machine S) : Flow S → Flow S' :=
  Flow.map (List.map (C.slot m.graph))

/-- Both runs return, or both fail. With `loose`, the second one may go on although the first
one has failed. -/
def Coupling.law (C : Coupling S S') (loose : Prop) : PairLaw S S' where
  fail _ _ _ _ := True
  left _ _ _ := loose
  right _ := False
  left_fail _ _ := trivial
  right_fail _ _ _ _ := trivial
  vals m := List.map (C.slot m.graph)
  done := C.machines

theorem Coupling.alone {C : Coupling S S'} {loose : Prop} {β : Type} (y : Exec S' β) :
    (C.law loose).Alone y := fun _ _ _ h => h

/-- Both results are values that satisfy `q`, or both are errors. With `loose`, the
second one may be a value although the first one is an error. -/
abbrev Coupled {α β : Type} (C : Coupling S S') (loose : Prop) (q : Machine S → α → β → Prop) :
    EStateM.Result RunError (Machine S) α → EStateM.Result RunError (Machine S') β → Prop :=
  (C.law loose).Ends fun a m b n => q m a b ∧ C.machines m n

section
variable {C : Coupling S S'} {loose : Prop} {α β γ δ : Type}

theorem Coupled.bind {q : Machine S → α → β → Prop} {q' : Machine S → γ → δ → Prop} {x : Exec S α}
    {y : Exec S' β} {f : α → Exec S γ} {g : β → Exec S' δ} {m : Machine S} {n : Machine S'}
    (h : Coupled C loose q (x m) (y n))
    (hf : ∀ a b m' n', q m' a b → C.machines m' n' → Coupled C loose q' (f a m') (g b n')) :
    Coupled C loose q' ((x >>= f) m) ((y >>= g) n) :=
  PairLaw.Ends.bind h (fun _ => Coupling.alone _) fun a m' b n' hab => hf a b m' n' hab.1 hab.2

theorem Coupled.of_ok {q : Machine S → α → β → Prop} {m : Machine S} {a : α}
    {r' : EStateM.Result RunError (Machine S') β} (h : Coupled C loose q (.ok a m) r') :
    ∃ b n, r' = .ok b n ∧ q m a b ∧ C.machines m n := by
  cases r' with
  | ok b n => exact ⟨b, n, rfl, h.1, h.2⟩
  | error e n => exact h.elim

end

namespace Coupling

variable {C : Coupling S S'} {loose : Prop} {j : Job S} {k : Job S'} {m : Machine S}
  {n : Machine S'}

/-! ## Changes of both machines -/

namespace machines

theorem ticked (h : C.machines m n) : C.machines m.ticked n.ticked :=
  ⟨h.size, h.var, h.stack, h.var_fits, h.stack_fits, h.shared, congrArg (· + 1) h.steps, h.plain⟩

theorem setVar (h : C.machines m n) (v : Var) {s : Slot S} (hs : C.fits m.graph s) :
    C.machines (m.setVar v s) (n.setVar v (C.slot m.graph s)) := by
  refine ⟨by simpa using h.size, fun w => ?_, h.stack, fun w s' hs' => ?_, h.stack_fits, h.shared,
    h.steps, h.plain⟩
  · rw [Machine.var_setVar, Machine.var_setVar, h.size]
    split
    · rfl
    · exact h.var w
  · rw [Machine.var_setVar] at hs'
    split at hs'
    · cases hs'
      exact hs
    · exact h.var_fits w s' hs'

theorem pushTape (h : C.machines m n) (t : Tape) {s : Slot S} (hs : C.fits m.graph s) :
    C.machines (m.pushTape t s) (n.pushTape t (C.slot m.graph s)) := by
  refine ⟨h.size, h.var, fun u => ?_, h.var_fits, fun u s' hs' => ?_, h.shared, h.steps, h.plain⟩
  · rw [Machine.stack_pushTape, Machine.stack_pushTape]
    split
    · rw [h.stack t]
      rfl
    · exact h.stack u
  · rw [Machine.stack_pushTape] at hs'
    split at hs'
    · rcases List.mem_cons.mp hs' with rfl | hs'
      · exact hs
      · exact h.stack_fits t s' hs'
    · exact h.stack_fits u s' hs'

theorem dropTape (h : C.machines m n) {t : Tape} {s : Slot S} {st : List (Slot S)}
    (hst : m.stack t = s :: st) :
    C.machines (m.dropTape t st) (n.dropTape t (st.map (C.slot m.graph))) := by
  refine ⟨h.size, h.var, fun u => ?_, h.var_fits, fun u s' hs' => ?_, h.shared, h.steps, h.plain⟩
  · rw [Machine.stack_dropTape, Machine.stack_dropTape]
    split
    · rfl
    · exact h.stack u
  · rw [Machine.stack_dropTape] at hs'
    split at hs'
    · exact h.stack_fits t s' (by rw [hst]; exact List.mem_cons_of_mem _ hs')
    · exact h.stack_fits u s' hs'

/-- The shared records and the graph may change if slots stand for what they stood
for. -/
theorem update (h : C.machines m n) (g : Option (Graph S)) (world : World S) (world' : World S')
    (hslot : ∀ s, C.fits m.graph s → C.fits g s ∧ C.slot g s = C.slot m.graph s)
    (hshared : C.shared g world world') :
    C.machines { m with graph := g, world } { n with world := world' } := by
  refine ⟨h.size, fun v => ?_, fun t => ?_, fun v s hs => (hslot s (h.var_fits v s hs)).1,
    fun t s hs => (hslot s (h.stack_fits t s hs)).1, hshared, h.steps, h.plain⟩
  · change n.var v = (m.var v).map (C.slot g)
    rw [h.var v]
    cases hv : m.var v with
    | none => rfl
    | some s => exact congrArg some (hslot s (h.var_fits v s hv)).2.symm
  · change n.stack t = (m.stack t).map (C.slot g)
    rw [h.stack t]
    exact List.map_congr_left fun s hs => (hslot s (h.stack_fits t s hs)).2.symm

end machines

/-! ## Reading -/

/-- The second slot is the image of the first one, which fits. -/
def slots (C : Coupling S S') (m : Machine S) (s : Slot S) (s' : Slot S') : Prop :=
  C.fits m.graph s ∧ s' = C.slot m.graph s

theorem read (h : C.machines m n) (v : Var) :
    Coupled C loose C.slots (j.read v m) (k.read v n) := by
  have hn := h.var v
  cases hm : m.var v with
  | none =>
    rw [hm] at hn
    rw [Job.read_none j m hm, Job.read_none k n hn]
    trivial
  | some s =>
    rw [hm] at hn
    rw [Job.read_some j m hm, Job.read_some k n hn]
    exact ⟨⟨h.var_fits v s hm, rfl⟩, h⟩

theorem readAll (h : C.machines m n) (vs : List Var) :
    Coupled C loose (fun m ss ss' => (∀ s ∈ ss, C.fits m.graph s) ∧ ss' = ss.map (C.slot m.graph))
      (j.readAll vs m) (k.readAll vs n) := by
  have hn : vs.map n.var = (vs.map m.var).map (Option.map (C.slot m.graph)) := by
    rw [List.map_map]
    exact List.map_congr_left fun v _ => h.var v
  cases hm : j.readAll vs m with
  | ok ss m' =>
    obtain ⟨hss, rfl⟩ := (j.readAll_eq_ok m).mp hm
    rw [hss, List.map_map] at hn
    have hk : k.readAll vs n = .ok (ss.map (C.slot m'.graph)) n :=
      (k.readAll_eq_ok n).mpr ⟨by rw [hn, List.map_map]; rfl, rfl⟩
    rw [hk]
    refine ⟨⟨fun s hs => ?_, rfl⟩, h⟩
    have hmem : some s ∈ vs.map m'.var := hss ▸ List.mem_map_of_mem hs
    obtain ⟨v, -, hv⟩ := List.mem_map.mp hmem
    exact h.var_fits v s hv
  | error e m' =>
    cases hk : k.readAll vs n with
    | error e' n' => trivial
    | ok ss' n' =>
      -- what the second machine reads, the first one has, too
      obtain ⟨hss', -⟩ := (k.readAll_eq_ok n).mp hk
      have hset (v : Var) (hv : v ∈ vs) : m.var v ≠ none := by
        intro hnone
        have hmem : n.var v ∈ ss'.map some := hss' ▸ List.mem_map_of_mem hv
        rw [h.var v, hnone] at hmem
        simp at hmem
      obtain ⟨ss, hss⟩ := Machine.exists_slots hset
      rw [(j.readAll_eq_ok m).mpr ⟨hss, rfl⟩] at hm
      cases hm

theorem ofExcept {α : Type} (h : C.machines m n) (x : Except RunError α) :
    Coupled C loose (fun _ a b => b = a) ((Job.ofExcept x : Exec S α) m)
      ((Job.ofExcept x : Exec S' α) n) := by
  cases x with
  | ok a => exact ⟨rfl, h⟩
  | error e => trivial

theorem readBool (h : C.machines m n) (v : Var) :
    Coupled C loose (fun _ b b' => b' = b) (j.readBool v m) (k.readBool v n) := by
  refine (C.read h v).bind fun s s' m' n' hs h' => ?_
  rw [hs.2, C.toBool]
  exact ofExcept h' _

theorem readObj (h : C.machines m n) (v : Var) :
    Coupled C loose (fun _ o o' => o' = o) (j.readObj v m) (k.readObj v n) := by
  refine (C.read h v).bind fun s s' m' n' hs h' => ?_
  rw [hs.2, C.toObj]
  exact ofExcept h' _

theorem tick (hlimit : k.limit = j.limit) (h : C.machines m n) :
    Coupled C loose (fun _ _ _ => True) (j.tick m) (k.tick n) := by
  rw [Job.tick_apply, Job.tick_apply, h.steps, hlimit]
  split
  · trivial
  · exact ⟨trivial, h.ticked⟩

/-! ## Atomic statements -/

variable (C loose j k) in
/-- Both jobs evaluate the expression alike. -/
def EvalInStep (e : Expr) : Prop :=
  ∀ m n, C.machines m n → Coupled C loose C.slots (j.eval e m) (k.eval e n)

theorem topIs (h : C.machines m n) (t : Tape) (d : Int) : n.tapes.topIs t d = m.tapes.topIs t d := by
  rw [Machine.topIs_eq, Machine.topIs_eq, h.stack t]
  cases m.stack t with
  | nil => rfl
  | cons s st =>
    have hint := C.toInt m.graph s
    rw [List.map_cons]
    generalize C.slot m.graph s = s' at hint
    obtain ⟨value, node⟩ := s
    obtain ⟨value', node'⟩ := s'
    cases value <;> cases value' <;> simp_all [Value.toInt, Value.mismatch]

/-- Expressions that compute nothing are evaluated alike. -/
theorem eval_plain {e : Expr} (hop : ∀ op args, e ≠ .op op args)
    (hload : ∀ obj field, e ≠ .load obj field)
    (hcall : ∀ callee args node, e ≠ .call callee args node) : C.EvalInStep loose j k e := by
  intro m n h
  cases e with
  | const c => exact ⟨⟨C.fits_plain m.graph _, (C.const m.graph c).symm⟩, h⟩
  | copy v => exact C.read h v
  | load obj field => exact absurd rfl (hload obj field)
  | op op args => exact absurd rfl (hop op args)
  | call callee args node => exact absurd rfl (hcall callee args node)
  | pop t =>
    change Coupled C loose C.slots (Job.pop t m) (Job.pop t n)
    cases hst : m.stack t with
    | nil =>
      have hn : n.stack t = [] := by rw [h.stack t, hst]; rfl
      rw [Job.pop_nil m hst, Job.pop_nil n hn]
      trivial
    | cons s st =>
      have hn : n.stack t = C.slot m.graph s :: st.map (C.slot m.graph) := by rw [h.stack t, hst]; rfl
      rw [Job.pop_cons m hst, Job.pop_cons n hn]
      exact ⟨⟨h.stack_fits t s (by simp [hst]), rfl⟩, h.dropTape hst⟩
  | topIs t d =>
    refine ⟨⟨C.fits_plain m.graph _, ?_⟩, h⟩
    rw [C.topIs h t d]
    exact (C.const m.graph (.bool _)).symm

/-! ## Blocks -/

variable (C loose) in
/-- Runs of both actions on coupled machines are coupled. -/
def InStep (x : Exec S (Flow S)) (y : Exec S' (Flow S')) : Prop :=
  ∀ m n, C.machines m n → Coupled C loose (fun m f f' => f' = C.flow m f) (x m) (y n)

/-- Atomic statements are run alike if expressions and stores are. -/
theorem atom {a : Stmt} (ha : a.isControlFlow = false)
    (heval : ∀ dst decl e, a = .define dst decl e → C.EvalInStep loose j k e)
    (hstore : ∀ obj field val, a = .store obj field val → C.InStep loose (j.exec a) (k.exec a)) :
    C.InStep loose (j.exec a) (k.exec a) := by
  intro m n h
  cases a, ha using Stmt.atomCases with
  | define dst decl e =>
    rw [Job.exec_define, Job.exec_define]
    refine (heval dst decl e rfl m n h).bind fun s s' m' n' hs h' => ?_
    rw [hs.2]
    exact ⟨rfl, h'.setVar dst hs.1⟩
  | store obj field val => exact hstore obj field val rfl m n h
  | push t val =>
    rw [Job.exec_push, Job.exec_push]
    refine (C.read h val).bind fun s s' m' n' hs h' => ?_
    rw [hs.2]
    exact ⟨rfl, h'.pushTape t hs.1⟩
  | pushDecision t d =>
    rw [Job.exec_pushDecision, Job.exec_pushDecision]
    have hconst : C.slot m.graph { value := .int d } = { value := .int d } :=
      C.const m.graph (.int d)
    have hpush := h.pushTape t (C.fits_plain m.graph (.int d))
    rw [hconst] at hpush
    exact ⟨rfl, hpush⟩
  | unreachable => trivial
  | ret vals =>
    rw [Job.exec_ret, Job.exec_ret]
    refine (C.readAll h vals).bind fun ss ss' m' n' hss h' => ?_
    rw [hss.2]
    exact ⟨rfl, h'⟩

/-- **Coupled atomic statements make coupled blocks.** -/
theorem block (hlimit : k.limit = j.limit) {b : Block}
    (h : ∀ a ∈ blockAtoms b, C.InStep loose (j.exec a) (k.exec a)) :
    C.InStep loose (j.execBlock b) (k.execBlock b) := by
  have hpaces : (C.law loose).Paces j k C.machines := by
    refine ⟨⟨fun m n h => ?_, alone _⟩, fun _ _ _ => trivial⟩
    exact (C.tick hlimit h).mono fun _ _ _ _ h => h.2
  have hblock : (C.law loose).InStep C.machines C.machines (j.execBlock b) (k.execBlock b) :=
    PairLaw.block hpaces (fun v => ⟨fun m n h => C.readBool h v, alone _⟩) fun a ha =>
      PairLaw.inStep_of (fun _ _ h => h) ⟨h a ha, alone _⟩
  exact hblock.to_done.ends

/-! ## Runs -/

theorem machines.enter (h : C.machines m n) (params : List Var) {args : List (Slot S)}
    (hargs : ∀ s ∈ args, C.fits m.graph s) :
    C.machines (m.enter params args) (n.enter params (args.map (C.slot m.graph))) := by
  induction params generalizing m n args with
  | nil => exact h
  | cons v params ih =>
    cases args with
    | nil => exact h
    | cons s args =>
      exact ih (h.setVar v (hargs s (List.mem_cons_self ..))) fun s' hs' =>
        hargs s' (List.mem_cons_of_mem _ hs')

/-- New machines are coupled if what they share is. -/
theorem machines_new (f : Func) {g : Option (Graph S)} {world : World S} {world' : World S'}
    (h : C.shared g world world') :
    C.machines { Machine.new f world with graph := g } (.new f world') := by
  have hvar {S : Type} (world : World S) (v : Var) : (Machine.new f world).var v = none := by
    simp only [Machine.var, Machine.new, Array.getD_eq_getD_getElem?, Array.getElem?_replicate]
    split <;> rfl
  refine ⟨by simp [Machine.new], fun v => ?_, fun _ => rfl, fun v s hs => ?_, fun t s hs => ?_, h,
    rfl, rfl⟩
  · have hnone : ({ Machine.new f world with graph := g } : Machine S).var v = none := hvar world v
    rw [hvar, hnone]
    rfl
  · have hnone : ({ Machine.new f world with graph := g } : Machine S).var v = none := hvar world v
    rw [hnone] at hs
    cases hs
  · cases hs

/-- **Coupled bodies make coupled runs.** -/
theorem runSlots (hfunc : k.func = j.func)
    (hbody : C.InStep loose (j.execBlock j.func.body) (k.execBlock j.func.body))
    (h : C.machines m n) {args : List (Slot S)} (hargs : ∀ s ∈ args, C.fits m.graph s) :
    Coupled C loose (fun m ss ss' => ss' = ss.map (C.slot m.graph)) (j.runSlots args m)
      (k.runSlots (args.map (C.slot m.graph)) n) := by
  have hstep : (C.law loose).InStep C.machines C.machines (j.execBlock j.func.body)
      (k.execBlock k.func.body) := by
    rw [hfunc]
    exact PairLaw.inStep_of (fun _ _ h => h) ⟨hbody, alone _⟩
  refine PairLaw.runSlots (by rw [hfunc]) hstep (fun _ _ _ => trivial) (List.length_map _)
    (fun _ => trivial) fun _ => ?_
  rw [hfunc]
  exact h.enter j.func.params hargs

end Coupling

end Backsweep
