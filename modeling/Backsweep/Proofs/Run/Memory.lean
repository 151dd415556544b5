import Mathlib
import Backsweep.Run.Gradient

/-!
# Machines seen through their variables and tapes

How the primitive actions of a run change what variables and tapes hold.

* `Ends`: what holds when an action ends, by itself or with an error;
* `Machine.var`, `Machine.stack`: the contents of variables and tapes, with one
  equation for every way to change them;
* one equation for each primitive action of `Job`, after which the actions are
  not unfolded again.
-/

namespace Backsweep

/-! ## How an action ends -/

section
variable {ε σ α β : Type}

/-- `ok` holds of the result and the state an action ends in, or `err` of its
error and that state. -/
def Ends (r : EStateM.Result ε σ α) (ok : α → σ → Prop) (err : ε → σ → Prop) : Prop :=
  match r with
  | .ok x s => ok x s
  | .error e s => err e s

@[simp] theorem ends_ok {x : α} {s : σ} {ok : α → σ → Prop} {err : ε → σ → Prop} :
    Ends (.ok x s) ok err ↔ ok x s := Iff.rfl

@[simp] theorem ends_error {e : ε} {s : σ} {ok : α → σ → Prop} {err : ε → σ → Prop} :
    Ends (.error e s) ok err ↔ err e s := Iff.rfl

theorem Ends.mono {r : EStateM.Result ε σ α} {ok ok' : α → σ → Prop} {err err' : ε → σ → Prop}
    (h : Ends r ok err) (hok : ∀ x s, ok x s → ok' x s) (herr : ∀ e s, err e s → err' e s) :
    Ends r ok' err' := by
  cases r with
  | ok x s => exact hok x s h
  | error e s => exact herr e s h

theorem Ends.of_ok {r : EStateM.Result ε σ α} {ok : α → σ → Prop} {err : ε → σ → Prop} {x : α}
    {s : σ} (h : Ends r ok err) (hr : r = .ok x s) : ok x s := by
  subst hr; exact h

theorem Ends.and {r : EStateM.Result ε σ α} {ok ok' : α → σ → Prop} {err err' : ε → σ → Prop}
    (h : Ends r ok err) (h' : Ends r ok' err') :
    Ends r (fun x s => ok x s ∧ ok' x s) (fun e s => err e s ∧ err' e s) := by
  cases r with
  | ok x s => exact ⟨h, h'⟩
  | error e s => exact ⟨h, h'⟩

/-- An action that ends well ended with its result. -/
theorem Ends.known {r : EStateM.Result ε σ α} {ok : α → σ → Prop} {err : ε → σ → Prop}
    (h : Ends r ok err) : Ends r (fun x s => r = .ok x s ∧ ok x s) err := by
  cases r with
  | ok x s => exact ⟨rfl, h⟩
  | error e s => exact h

/-- The state an action leaves behind, also one that fails. -/
def endState : EStateM.Result ε σ α → σ
  | .ok _ s => s
  | .error _ s => s

theorem Ends.endState {r : EStateM.Result ε σ α} {P : σ → Prop}
    (h : Ends r (fun _ s => P s) fun _ s => P s) : P (endState r) := by
  cases r with
  | ok x s => exact h
  | error e s => exact h

theorem bind_apply (x : EStateM ε σ α) (f : α → EStateM ε σ β) (s : σ) :
    (x >>= f) s = match x s with
      | .ok a s => f a s
      | .error e s => .error e s := rfl

theorem ends_bind {x : EStateM ε σ α} {f : α → EStateM ε σ β} {s : σ} {ok : β → σ → Prop}
    {err : ε → σ → Prop} :
    Ends ((x >>= f) s) ok err ↔ Ends (x s) (fun a s' => Ends (f a s') ok err) err := by
  rw [bind_apply]
  cases x s <;> rfl

@[simp] theorem pure_apply (x : α) (s : σ) : (pure x : EStateM ε σ α) s = .ok x s := rfl

@[simp] theorem throw_apply (e : ε) (s : σ) : (throw e : EStateM ε σ α) s = .error e s := rfl

theorem get_bind (f : σ → EStateM ε σ β) (s : σ) : (get >>= f) s = f s s := rfl

/-- A sequence ends well exactly if both of its parts do. -/
theorem bind_eq_ok {x : EStateM ε σ α} {f : α → EStateM ε σ β} {s s' : σ} {b : β} :
    (x >>= f) s = .ok b s' ↔ ∃ a t, x s = .ok a t ∧ f a t = .ok b s' := by
  rw [bind_apply]
  cases h : x s with
  | ok a t =>
    constructor
    · intro hb; exact ⟨a, t, rfl, hb⟩
    · rintro ⟨a', t', h', hb⟩; cases h'; exact hb
  | error e t =>
    constructor
    · intro hb; cases hb
    · rintro ⟨a', t', h', _⟩; cases h'

theorem bind_ok {x : EStateM ε σ α} {f : α → EStateM ε σ β} {s t : σ} {a : α}
    (h : x s = .ok a t) : (x >>= f) s = f a t := by
  rw [bind_apply, h]

theorem bind_congr_ok {x : EStateM ε σ α} {f g : α → EStateM ε σ β} {s : σ}
    (h : ∀ a t, x s = .ok a t → f a t = g a t) : (x >>= f) s = (x >>= g) s := by
  rw [bind_apply, bind_apply]
  cases hx : x s with
  | ok a t => exact h a t hx
  | error e t => rfl

theorem bind_error {x : EStateM ε σ α} {f : α → EStateM ε σ β} {s t : σ} {e : ε}
    (h : x s = .error e t) : (x >>= f) s = .error e t := by
  rw [bind_apply, h]

end

/-! ## Tapes -/

namespace Tapes

variable {R : Type}

theorem cell_nil (t : Tape) : Tapes.cell ([] : Tapes R) t = {} := rfl

theorem cell_cons (u : Tape) (c : TapeCell R) (ts : Tapes R) (t : Tape) :
    Tapes.cell ((u, c) :: ts) t = if u = t then c else ts.cell t := by
  unfold Tapes.cell
  rw [List.lookup_cons]
  by_cases h : u = t
  · subst h; simp
  · have hb : (t == u) = false := beq_eq_false_iff_ne.mpr (Ne.symm h)
    simp [h, hb]

theorem cell_put (ts : Tapes R) (t u : Tape) (c : TapeCell R) :
    (ts.put t c).cell u = if u = t then c else ts.cell u := by
  induction ts with
  | nil =>
    simp only [Tapes.put, cell_cons, cell_nil]
    by_cases h : t = u
    · simp [h]
    · simp [h, Ne.symm h]
  | cons p ts ih =>
    obtain ⟨w, d⟩ := p
    simp only [Tapes.put]
    by_cases hw : w = t
    · subst hw
      simp only [ite_true, cell_cons]
      by_cases h : w = u
      · simp [h]
      · simp [h, Ne.symm h]
    · simp only [hw, ite_false, cell_cons, ih]
      by_cases hu : u = t
      · subst hu; simp [hw]
      · simp [hu]

/-- Pushing puts back what a tape held, with one value more. -/
theorem push_eq_put (ts : Tapes R) (t : Tape) (s : Slot R) :
    ts.push t s = ts.put t ((ts.cell t).push s) := by
  induction ts with
  | nil => simp [Tapes.push, Tapes.put, cell_nil]
  | cons p ts ih =>
    obtain ⟨w, c⟩ := p
    by_cases hw : w = t
    · simp [Tapes.push, Tapes.put, cell_cons, hw]
    · simp [Tapes.push, Tapes.put, cell_cons, hw, ih]

theorem cell_push (ts : Tapes R) (t u : Tape) (s : Slot R) :
    (ts.push t s).cell u = if u = t then (ts.cell t).push s else ts.cell u := by
  rw [push_eq_put, cell_put]

end Tapes

/-! ## Variables and stacks of a machine -/

namespace Machine

variable {R : Type}

/-- What a variable holds. -/
def var (m : Machine R) (v : Var) : Option (Slot R) := m.vars.getD v.idx none

/-- The contents of a tape, top first. -/
def stack (m : Machine R) (t : Tape) : List (Slot R) := (m.tapes.cell t).stack

def setVar (m : Machine R) (v : Var) (s : Slot R) : Machine R :=
  { m with vars := m.vars.setIfInBounds v.idx (some s) }

def pushTape (m : Machine R) (t : Tape) (s : Slot R) : Machine R :=
  { m with tapes := m.tapes.push t s }

/-- The machine without the top of a tape, which is then no longer than `stack`. -/
def dropTape (m : Machine R) (t : Tape) (stack : List (Slot R)) : Machine R :=
  { m with tapes := m.tapes.put t
            { m.tapes.cell t with stack, pops := (m.tapes.cell t).pops + 1 } }

def ticked (m : Machine R) : Machine R := { m with steps := m.steps + 1 }

section
variable (m : Machine R) (v w : Var) (s : Slot R) (t u : Tape) (st : List (Slot R))

theorem var_setVar :
    (m.setVar v s).var w = if v = w ∧ v.idx < m.vars.size then some s else m.var w := by
  obtain ⟨i⟩ := v
  obtain ⟨k⟩ := w
  simp only [var, setVar, Array.getD_eq_getD_getElem?, Array.getElem?_setIfInBounds, Var.mk.injEq]
  by_cases h : i = k
  · subst h
    by_cases hi : i < m.vars.size
    · simp [hi]
    · simp [hi]
  · simp [h]

@[simp] theorem var_setVar_self (h : v.idx < m.vars.size) : (m.setVar v s).var v = some s := by
  simp [var_setVar, h]

@[simp] theorem var_setVar_ne (h : v ≠ w) : (m.setVar v s).var w = m.var w := by
  simp [var_setVar, h]

@[simp] theorem size_setVar : (m.setVar v s).vars.size = m.vars.size := by simp [setVar]
@[simp] theorem tapes_setVar : (m.setVar v s).tapes = m.tapes := rfl
@[simp] theorem stack_setVar : (m.setVar v s).stack t = m.stack t := rfl
@[simp] theorem world_setVar : (m.setVar v s).world = m.world := rfl
@[simp] theorem graph_setVar : (m.setVar v s).graph = m.graph := rfl
@[simp] theorem steps_setVar : (m.setVar v s).steps = m.steps := rfl

theorem stack_pushTape : (m.pushTape t s).stack u = if u = t then s :: m.stack t else m.stack u := by
  simp only [stack, pushTape, Tapes.cell_push]
  split <;> rfl

@[simp] theorem stack_pushTape_self : (m.pushTape t s).stack t = s :: m.stack t := by
  simp [stack_pushTape]

@[simp] theorem stack_pushTape_ne (h : u ≠ t) : (m.pushTape t s).stack u = m.stack u := by
  simp [stack_pushTape, h]

@[simp] theorem var_pushTape : (m.pushTape t s).var v = m.var v := rfl
@[simp] theorem vars_pushTape : (m.pushTape t s).vars = m.vars := rfl
@[simp] theorem world_pushTape : (m.pushTape t s).world = m.world := rfl
@[simp] theorem graph_pushTape : (m.pushTape t s).graph = m.graph := rfl
@[simp] theorem steps_pushTape : (m.pushTape t s).steps = m.steps := rfl

theorem stack_dropTape : (m.dropTape t st).stack u = if u = t then st else m.stack u := by
  simp only [stack, dropTape, Tapes.cell_put]
  split <;> rfl

@[simp] theorem stack_dropTape_self : (m.dropTape t st).stack t = st := by simp [stack_dropTape]

@[simp] theorem stack_dropTape_ne (h : u ≠ t) : (m.dropTape t st).stack u = m.stack u := by
  simp [stack_dropTape, h]

@[simp] theorem var_dropTape : (m.dropTape t st).var v = m.var v := rfl
@[simp] theorem vars_dropTape : (m.dropTape t st).vars = m.vars := rfl
@[simp] theorem world_dropTape : (m.dropTape t st).world = m.world := rfl
@[simp] theorem graph_dropTape : (m.dropTape t st).graph = m.graph := rfl
@[simp] theorem steps_dropTape : (m.dropTape t st).steps = m.steps := rfl

@[simp] theorem var_ticked : m.ticked.var v = m.var v := rfl
@[simp] theorem vars_ticked : m.ticked.vars = m.vars := rfl
@[simp] theorem tapes_ticked : m.ticked.tapes = m.tapes := rfl
@[simp] theorem stack_ticked : m.ticked.stack t = m.stack t := rfl
@[simp] theorem world_ticked : m.ticked.world = m.world := rfl
@[simp] theorem graph_ticked : m.ticked.graph = m.graph := rfl
@[simp] theorem steps_ticked : m.ticked.steps = m.steps + 1 := rfl

end

/-- The machine after pushing slots one after the other. -/
def pushAll (m : Machine R) (t : Tape) (ss : List (Slot R)) : Machine R :=
  ss.foldl (fun m s => m.pushTape t s) m

section
variable (m : Machine R) (t u : Tape) (ss : List (Slot R)) (v : Var)

@[simp] theorem vars_pushAll : (m.pushAll t ss).vars = m.vars := by
  induction ss generalizing m with
  | nil => rfl
  | cons s ss ih => exact ih (m.pushTape t s)

@[simp] theorem var_pushAll : (m.pushAll t ss).var v = m.var v := by simp [var]

@[simp] theorem world_pushAll : (m.pushAll t ss).world = m.world := by
  induction ss generalizing m with
  | nil => rfl
  | cons s ss ih => exact ih (m.pushTape t s)

@[simp] theorem graph_pushAll : (m.pushAll t ss).graph = m.graph := by
  induction ss generalizing m with
  | nil => rfl
  | cons s ss ih => exact ih (m.pushTape t s)

@[simp] theorem steps_pushAll : (m.pushAll t ss).steps = m.steps := by
  induction ss generalizing m with
  | nil => rfl
  | cons s ss ih => exact ih (m.pushTape t s)

@[simp] theorem stack_pushAll_self : (m.pushAll t ss).stack t = ss.reverse ++ m.stack t := by
  induction ss generalizing m with
  | nil => rfl
  | cons s ss ih =>
    change ((m.pushTape t s).pushAll t ss).stack t = _
    simp [ih]

@[simp] theorem stack_pushAll_ne (h : u ≠ t) : (m.pushAll t ss).stack u = m.stack u := by
  induction ss generalizing m with
  | nil => rfl
  | cons s ss ih =>
    change ((m.pushTape t s).pushAll t ss).stack u = _
    simp [ih, h]

end

/-- Variables that are defined hold slots. -/
theorem exists_slots {m : Machine R} {vs : List Var} (h : ∀ v ∈ vs, m.var v ≠ none) :
    ∃ ss : List (Slot R), vs.map m.var = ss.map some := by
  induction vs with
  | nil => exact ⟨[], rfl⟩
  | cons v vs ih =>
    obtain ⟨s, hs⟩ := Option.ne_none_iff_exists'.mp (h v (by simp))
    obtain ⟨ss, hss⟩ := ih fun v hv => h v (by simp [hv])
    exact ⟨s :: ss, by simp [hs, hss]⟩

theorem topIs_eq (m : Machine R) (t : Tape) (d : Int) :
    m.tapes.topIs t d = match m.stack t with
      | ⟨.int n, _⟩ :: _ => n == d
      | _ => false := rfl

end Machine

/-! ## Primitive actions -/

namespace Job

variable {R : Type} (j : Job R) (m : Machine R)
variable {v : Var} {s : Slot R} {m' : Machine R}

theorem read_some (h : m.var v = some s) : j.read v m = .ok s m := by
  unfold read
  rw [get_bind, show m.vars.getD v.idx none = some s from h]
  rfl

theorem read_none (h : m.var v = none) :
    j.read v m = .error (.undefinedVar (j.func.varName v)) m := by
  unfold read
  rw [get_bind, show m.vars.getD v.idx none = none from h]
  rfl

theorem read_eq_ok : j.read v m = .ok s m' ↔ m.var v = some s ∧ m' = m := by
  cases h : m.var v with
  | none => simp [read_none j m h]
  | some s' => simp [read_some j m h, eq_comm]

@[simp] theorem write_apply (v : Var) (s : Slot R) : write v s m = .ok () (m.setVar v s) := rfl

@[simp] theorem push_apply (t : Tape) (s : Slot R) : push t s m = .ok () (m.pushTape t s) := rfl

theorem pop_cons {t : Tape} {st : List (Slot R)} (h : m.stack t = s :: st) :
    pop t m = .ok s (m.dropTape t st) := by
  have h' : (m.tapes.cell t).stack = s :: st := h
  have hp : m.tapes.pop? t = some (s, (m.dropTape t st).tapes) := by
    simp only [Tapes.pop?, h', Machine.dropTape]
  unfold pop
  rw [get_bind, hp]
  rfl

theorem pop_nil {t : Tape} (h : m.stack t = []) : pop t m = .error (.emptyTape t) m := by
  have h' : (m.tapes.cell t).stack = [] := h
  have hp : m.tapes.pop? t = none := by simp only [Tapes.pop?, h']
  unfold pop
  rw [get_bind, hp]
  rfl

theorem tick_apply :
    j.tick m = if j.limit < m.steps + 1 then .error .stepLimit m.ticked else .ok () m.ticked := by
  change (if j.limit < m.ticked.steps then (throw .stepLimit : Exec R Unit) else pure ()) m.ticked = _
  rw [Machine.steps_ticked]
  split <;> rfl

theorem readBool_some (h : m.var v = some s) :
    j.readBool v m = match s.value.toBool with
      | .ok b => .ok b m
      | .error e => .error e m := by
  change (j.read v >>= fun s => ofExcept s.value.toBool) m = _
  rw [bind_ok (read_some j m h)]
  cases s.value.toBool <;> rfl

theorem readBool_none (h : m.var v = none) :
    j.readBool v m = .error (.undefinedVar (j.func.varName v)) m := by
  change (j.read v >>= fun s => ofExcept s.value.toBool) m = _
  exact bind_error (read_none j m h)

/-- Reading a test does not change the machine. -/
theorem readBool_ends (v : Var) : Ends (j.readBool v m) (fun _ m' => m' = m) (fun _ m' => m' = m) := by
  cases h : m.var v with
  | none => rw [readBool_none j m h]; rfl
  | some s =>
    rw [readBool_some j m h]
    cases s.value.toBool <;> rfl

theorem readBool_eq_ok {b : Bool} :
    j.readBool v m = .ok b m' ↔ (∃ s, m.var v = some s ∧ s.value = .bool b) ∧ m' = m := by
  cases h : m.var v with
  | none => simp [readBool_none j m h]
  | some s =>
    rw [readBool_some j m h]
    cases hv : s.value <;> simp [Value.toBool, Value.mismatch, hv, @eq_comm _ m']

theorem readAll_eq_ok {vs : List Var} {ss : List (Slot R)} :
    j.readAll vs m = .ok ss m' ↔ vs.map m.var = ss.map some ∧ m' = m := by
  induction vs generalizing ss m' with
  | nil =>
    change EStateM.Result.ok [] m = .ok ss m' ↔ _
    cases ss <;> simp [@eq_comm _ m']
  | cons v vs ih =>
    change (j.read v >>= fun s => j.readAll vs >>= fun ss => pure (s :: ss)) m = _ ↔ _
    constructor
    · intro h
      obtain ⟨s, t, hread, hrest⟩ := bind_eq_ok.mp h
      obtain ⟨hs, rfl⟩ := (read_eq_ok j m).mp hread
      obtain ⟨rest, t', hreads, hpure⟩ := bind_eq_ok.mp hrest
      obtain ⟨hr, rfl⟩ := ih.mp hreads
      cases hpure
      simp [hs, hr]
    · rintro ⟨h, rfl⟩
      cases ss with
      | nil => simp at h
      | cons s ss =>
        simp only [List.map_cons, List.cons.injEq] at h
        rw [bind_ok (read_some j _ h.1), bind_ok (ih.mpr ⟨h.2, rfl⟩)]
        rfl

/-- Reading variables does not change the machine. -/
theorem readAll_ends (vs : List Var) :
    Ends (j.readAll vs m) (fun _ m' => m' = m) (fun e m' => m' = m ∧ ∃ x, e = .undefinedVar x) := by
  induction vs with
  | nil => exact rfl
  | cons v vs ih =>
    change Ends ((j.read v >>= fun s => j.readAll vs >>= fun ss => pure (s :: ss)) m) _ _
    rw [ends_bind]
    cases h : m.var v with
    | none => rw [read_none j m h]; exact ⟨rfl, _, rfl⟩
    | some s =>
      rw [read_some j m h, ends_ok, ends_bind]
      exact ih.mono (fun _ _ h => h) (fun _ _ h => h)

end Job

end Backsweep
