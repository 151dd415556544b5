import Mathlib
import Backsweep.Proofs.Run.History
import Backsweep.Proofs.Run.Reachable
import Backsweep.Proofs.Run.Lawful

/-!
# Tapes and their counters

Tapes outlive runs, also those that fail. Their counters are those of all that ever happened on
the machine, and their contents are what was pushed and not popped.

* `Unwound`: marks in which everything that goes on a tape comes off again;
* `Stacked`: the contents of a tape, as its marks have it;
* `PopsLast`: every pop returned the most recent value that was not popped yet;
* `Accounted`: tapes as the marks of a machine have them;
* `Act.accounted`, `Trace.accounted`: one action keeps account, and so does every trace;
* `Tapes.Counted.isBalanced_iff`: tapes are balanced exactly if their counters are;
* `tapes_accounted`: what holds after any runs on a machine, and in the middle of one more.
-/

namespace Backsweep

variable {R : Type}

/-! ## Marks on one tape -/

variable {x : Mark R} {m m' : Machine R}

namespace Mark

/-- The tape that something was put on or taken off. -/
def tape? : Mark R → Option Tape
  | push t _ | pop t _ => some t
  | round | refusal _ _ => none

def isPush (t : Tape) : Mark R → Bool
  | push u _ => u = t
  | pop _ _ | round | refusal _ _ => false

def isPop (t : Tape) : Mark R → Bool
  | pop u _ => u = t
  | push _ _ | round | refusal _ _ => false

/-- Marks elsewhere do not count. -/
theorem not_counted {t : Tape} (h : x.tape? ≠ some t) : x.isPush t = false ∧ x.isPop t = false := by
  cases x with
  | push u s | pop u s =>
    have hne : u ≠ t := fun hu => h (congrArg some hu)
    simp [isPush, isPop, hne]
  | round | refusal => exact ⟨rfl, rfl⟩

end Mark

/-- Whatever goes on the tape comes off again, the last value first. -/
inductive Unwound (t : Tape) : List (Mark R) → Prop
  | nil : Unwound t []
  | elsewhere {x l} (other : x.tape? ≠ some t) (rest : Unwound t l) : Unwound t (x :: l)
  | pair {s l l'} (between : Unwound t l) (rest : Unwound t l') :
      Unwound t (.push t s :: (l ++ .pop t s :: l'))

namespace Unwound

variable {t : Tape} {l l' : List (Mark R)}

theorem append (h : Unwound t l) (h' : Unwound t l') : Unwound t (l ++ l') := by
  induction h with
  | nil => exact h'
  | elsewhere other _ ih => exact .elsewhere other ih
  | pair between _ _ ih => simpa using between.pair ih

theorem single (h : x.tape? ≠ some t) : Unwound t [x] := .elsewhere h .nil

/-- Every push is popped, so there are as many. -/
theorem count (h : Unwound t l) : l.countP (Mark.isPush t) = l.countP (Mark.isPop t) := by
  induction h with
  | nil => rfl
  | elsewhere other _ ih => simpa [List.countP_cons, Mark.not_counted other] using ih
  | pair _ _ ihb ihr =>
    simp only [List.countP_cons, List.countP_append, Mark.isPush, Mark.isPop, decide_true,
      Bool.false_eq_true, ite_true, ite_false]
    omega

end Unwound

/-- The marks leave this on the tape, top first: behind the push of each value, everything that
went on top of it came off again, up to the push of the next one. -/
def Stacked (t : Tape) : List (Slot R) → List (Mark R) → Prop
  | [], l => Unwound t l
  | s :: st, l => ∃ a b, l = a ++ .push t s :: b ∧ Unwound t b ∧ Stacked t st a

namespace Stacked

variable {t : Tape} {st : List (Slot R)} {l : List (Mark R)} {s : Slot R}

theorem append {b : List (Mark R)} (h : Stacked t st l) (hb : Unwound t b) :
    Stacked t st (l ++ b) := by
  cases st with
  | nil => exact Unwound.append h hb
  | cons s st =>
    obtain ⟨a, c, rfl, hc, ha⟩ := h
    exact ⟨a, c ++ b, by simp, hc.append hb, ha⟩

theorem push (h : Stacked t st l) (s : Slot R) : Stacked t (s :: st) (l ++ [.push t s]) :=
  ⟨l, [], rfl, .nil, h⟩

theorem pop (h : Stacked t (s :: st) l) : Stacked t st (l ++ [.pop t s]) := by
  obtain ⟨a, b, rfl, hb, ha⟩ := h
  have hpair : Unwound t (.push t s :: (b ++ [.pop t s])) := .pair hb .nil
  simpa using ha.append hpair

theorem count (h : Stacked t st l) :
    l.countP (Mark.isPush t) = l.countP (Mark.isPop t) + st.length := by
  induction st generalizing l with
  | nil => simpa using Unwound.count h
  | cons s st ih =>
    obtain ⟨a, b, rfl, hb, ha⟩ := h
    have hbelow := ih ha
    have habove := hb.count
    simp only [List.countP_append, List.countP_cons, Mark.isPush, Mark.isPop, decide_true,
      Bool.false_eq_true, ite_true, ite_false, List.length_cons]
    omega

end Stacked

/-- Every pop returned the value of the most recent push that was not popped before. -/
def PopsLast (l : List (Mark R)) : Prop :=
  ∀ before t s after, l = before ++ .pop t s :: after →
    ∃ a b, before = a ++ .push t s :: b ∧ Unwound t b

theorem popsLast_nil : PopsLast ([] : List (Mark R)) := by
  intro before t s after h
  simp at h

theorem PopsLast.concat {l : List (Mark R)} (h : PopsLast l)
    (hx : ∀ t s, x = .pop t s → ∃ a b, l = a ++ .push t s :: b ∧ Unwound t b) :
    PopsLast (l ++ [x]) := by
  intro before t s after hsplit
  rcases List.eq_nil_or_concat after with rfl | ⟨after, y, rfl⟩
  · obtain ⟨rfl, hlast⟩ := List.append_inj' hsplit rfl
    exact hx t s (by simpa using hlast)
  · have hsplit' : l ++ [x] = (before ++ .pop t s :: after) ++ [y] := by
      simpa using hsplit
    exact h before t s after (List.append_inj' hsplit' rfl).1

/-! ## Keeping account -/

/-- The tapes are as the marks have it. -/
structure Accounted (l : List (Mark R)) (ts : Tapes R) : Prop where
  nodup : (ts.map (·.1)).Nodup
  pushes : ∀ t, (ts.cell t).pushes = l.countP (Mark.isPush t)
  pops : ∀ t, (ts.cell t).pops = l.countP (Mark.isPop t)
  stack : ∀ t, Stacked t (ts.cell t).stack l
  last : PopsLast l

namespace Accounted

variable {l : List (Mark R)} {ts : Tapes R}

theorem nil : Accounted ([] : List (Mark R)) [] where
  nodup := List.nodup_nil
  pushes _ := rfl
  pops _ := rfl
  stack _ := .nil
  last := popsLast_nil

theorem counted (h : Accounted l ts) : ts.Counted := by
  refine ⟨h.nodup, fun t => ?_⟩
  rw [h.pushes, h.pops]
  exact (h.stack t).count

variable {t : Tape}

/-- A tape keeps account if the mark is elsewhere. -/
theorem elsewhere (h : Accounted l ts) (hx : x.tape? ≠ some t) :
    (ts.cell t).pushes = (l ++ [x]).countP (Mark.isPush t) ∧
      (ts.cell t).pops = (l ++ [x]).countP (Mark.isPop t) ∧
      Stacked t (ts.cell t).stack (l ++ [x]) := by
  obtain ⟨hpush, hpop⟩ := Mark.not_counted hx
  refine ⟨?_, ?_, (h.stack t).append (.single hx)⟩
  · simp [h.pushes, hpush]
  · simp [h.pops, hpop]

/-- A mark on no tape. -/
theorem mark (h : Accounted l ts) (hx : x.tape? = none) : Accounted (l ++ [x]) ts := by
  have hall (t : Tape) := h.elsewhere (x := x) (t := t) (by simp [hx])
  refine ⟨h.nodup, fun t => (hall t).1, fun t => (hall t).2.1, fun t => (hall t).2.2,
    h.last.concat ?_⟩
  rintro t s rfl
  cases hx

/-- A mark on a tape that gets new contents and counters, which are as the mark has it. -/
theorem change (h : Accounted l ts) {c : TapeCell R} {ts' : Tapes R} (hx : x.tape? = some t)
    (hcell : ∀ u, ts'.cell u = if u = t then c else ts.cell u) (hnodup : (ts'.map (·.1)).Nodup)
    (hpushes : c.pushes = (l ++ [x]).countP (Mark.isPush t))
    (hpops : c.pops = (l ++ [x]).countP (Mark.isPop t)) (hstack : Stacked t c.stack (l ++ [x]))
    (hlast : PopsLast (l ++ [x])) : Accounted (l ++ [x]) ts' := by
  have hall (u : Tape) : (ts'.cell u).pushes = (l ++ [x]).countP (Mark.isPush u) ∧
      (ts'.cell u).pops = (l ++ [x]).countP (Mark.isPop u) ∧
      Stacked u (ts'.cell u).stack (l ++ [x]) := by
    rw [hcell]
    split
    · next hu =>
      subst hu
      exact ⟨hpushes, hpops, hstack⟩
    · next hu =>
      exact h.elsewhere fun hxu => hu (Option.some.inj (hxu.symm.trans hx))
  exact ⟨hnodup, fun u => (hall u).1, fun u => (hall u).2.1, fun u => (hall u).2.2, hlast⟩

theorem push (h : Accounted l ts) (t : Tape) (s : Slot R) :
    Accounted (l ++ [.push t s]) (ts.push t s) := by
  refine h.change rfl (ts.cell_push t · s) (h.counted.push t s).nodup ?_ ?_
    ((h.stack t).push s) (h.last.concat ?_)
  · simp [TapeCell.push, h.pushes, Mark.isPush]
  · simp [TapeCell.push, h.pops, Mark.isPop]
  · rintro u s' hpop
    cases hpop

theorem pop (h : Accounted l ts) {s : Slot R} {st : List (Slot R)}
    (htop : (ts.cell t).stack = s :: st) :
    Accounted (l ++ [.pop t s])
      (ts.put t { ts.cell t with stack := st, pops := (ts.cell t).pops + 1 }) := by
  have hstack : Stacked t (s :: st) l := htop ▸ h.stack t
  refine h.change rfl (ts.cell_put t · _) (h.counted.pop htop).nodup ?_ ?_ hstack.pop
    (h.last.concat ?_)
  · simp [h.pushes, Mark.isPush]
  · simp [h.pops, Mark.isPop]
  · -- The value on top is the one of the last push that is still open.
    intro u s' hpop
    cases hpop
    obtain ⟨a, b, hl, hb, -⟩ := hstack
    exact ⟨a, b, hl, hb⟩

end Accounted

/-- **One action keeps account.** -/
theorem Act.accounted {limit : Nat} {l h : List (Mark R)} {o : Option RunError}
    (act : Act limit m l m' o) (hm : Accounted h m.tapes) : Accounted (h ++ l) m'.tapes := by
  cases act with
  | quiet tapes | failure _ tapes => simpa [tapes] using hm
  | push t s tapes =>
    rw [tapes]
    exact hm.push t s
  | pop top tapes =>
    rw [tapes]
    exact hm.pop top
  | refusal callee e tapes =>
    rw [tapes]
    exact hm.mark rfl
  | round | cut => exact hm.mark rfl

/-- **So does every trace.** -/
theorem Trace.accounted {limit : Nat} {l h : List (Mark R)} {o : Option RunError}
    (trace : Trace limit m l m' o) (hm : Accounted h m.tapes) : Accounted (h ++ l) m'.tapes := by
  induction trace generalizing h with
  | done => simpa using hm
  | last act => exact act.accounted hm
  | step act _ ih =>
    rw [← List.append_assoc]
    exact ih (act.accounted hm)

/-- Tapes are balanced exactly if every tape that was used has as many pops as pushes. -/
theorem Tapes.Counted.isBalanced_iff {ts : Tapes R} (h : ts.Counted) :
    ts.isBalanced = true ↔ ∀ p ∈ ts.sorted, p.2.pushes = p.2.pops := by
  rw [Tapes.isBalanced, List.all_eq_true]
  refine forall_congr' fun p => ?_
  rw [Tapes.sorted, List.mem_mergeSort]
  refine imp_congr_right fun hp => ?_
  have hcount := h.count p.1
  rw [h.cell_of_mem hp] at hcount
  rw [List.isEmpty_iff, ← List.length_eq_zero_iff]
  omega

/-! ## Runs one after the other -/

/-- A run to be made on a machine, of any function and under any limit. -/
structure Turn (R : Type) where
  job : Job R
  args : List (Slot R)

section
variable [Scalar R]

/-- The machine that runs leave behind, whether they fail or not. -/
def Machine.afterTurns (m : Machine R) : List (Turn R) → Machine R
  | [] => m
  | turn :: turns => (endState (turn.job.runSlots turn.args m)).afterTurns turns

/-- The marks of all these runs. -/
def Machine.history (m : Machine R) : List (Turn R) → List (Mark R)
  | [] => []
  | turn :: turns => turn.job.marks turn.args m ++
      (endState (turn.job.runSlots turn.args m)).history turns

theorem Machine.afterTurns_accounted (turns : List (Turn R)) {l : List (Mark R)}
    (h : Accounted l m.tapes) : Accounted (l ++ m.history turns) (m.afterTurns turns).tapes := by
  induction turns generalizing m l with
  | nil => simpa [history, afterTurns] using h
  | cons turn turns ih =>
    have hrun := turn.job.runSlots_follows turn.args m
    have hend : Accounted (l ++ turn.job.marks turn.args m)
        (endState (turn.job.runSlots turn.args m)).tapes := by
      refine Ends.endState (P := fun m' : Machine R => Accounted _ m'.tapes) ?_
      exact Ends.mono hrun (fun _ _ trace => trace.accounted h) fun _ _ trace => trace.accounted h
    rw [history, afterTurns, ← List.append_assoc]
    exact ih hend

/-- Tapes keep count in the middle of a run, too. -/
theorem Job.Reaches.counted {j : Job R} {args : List (Slot R)} (h : j.Reaches args m m')
    (hm : m.tapes.Counted) : m'.tapes.Counted := by
  have henter (params : List Var) (slots : List (Slot R)) :
      (m.enter params slots).tapes.Counted := (m.enter_keeps params slots).1.symm ▸ hm
  cases h with
  | start => exact hm
  | entering n arity => exact henter _ _
  | running arity body =>
    refine body.obeys (countLaw R) (fun a ha => ⟨?_, fun dst decl e _ m => ?_⟩) (henter _ _)
    · exact atom_obeys_count j (blockAtoms_atomic _ a ha)
    · exact counted_of_counted fun hc => eval_counted j e hc

/-- **Tapes are accounted for.** After any runs on a machine, of any functions and with any ends,
the counters of every tape are the numbers of pushes and pops that happened, and every pop
returned the most recent value that was not popped yet: what was pushed behind that value had
come off again. Here and in the middle of one more run, the pushes of every tape are its pops and
its length together, and the tapes are balanced exactly if the counters of all listed ones are. -/
theorem tapes_accounted (f : Func) (world : World R) (graph : Option (Graph R))
    (turns : List (Turn R)) :
    let start : Machine R := { Machine.new f world with graph }
    let history := start.history turns
    let m := start.afterTurns turns
    (∀ t, (m.tapes.cell t).pushes = history.countP (Mark.isPush t) ∧
      (m.tapes.cell t).pops = history.countP (Mark.isPop t)) ∧
    (∀ before t s after, history = before ++ .pop t s :: after →
      ∃ a b, before = a ++ .push t s :: b ∧ Unwound t b) ∧
    ∀ (j : Job R) args m', j.Reaches args m m' →
      (∀ t, (m'.tapes.cell t).pushes = (m'.tapes.cell t).pops + (m'.tapes.cell t).stack.length) ∧
      (m'.tapes.isBalanced = true ↔ ∀ p ∈ m'.tapes.sorted, p.2.pushes = p.2.pops) := by
  intro start history m
  have haccounted : Accounted history m.tapes := by
    simpa using start.afterTurns_accounted turns .nil
  refine ⟨fun t => ⟨haccounted.pushes t, haccounted.pops t⟩, haccounted.last,
    fun j args m' hreaches => ?_⟩
  have hcounted := hreaches.counted haccounted.counted
  exact ⟨hcounted.count, hcounted.isBalanced_iff⟩

end

/-- Takes one of two values off a tape again, and then one off another tape, which fails. -/
def Func.spilling : Func where
  name := "spilling"
  attrs := []
  params := [⟨0⟩]
  returns := []
  vars := #[⟨"x", .real, false⟩, ⟨"y", .real, false⟩, ⟨"z", .real, false⟩]
  body := [.push ⟨.values, 1⟩ ⟨0⟩, .push ⟨.values, 1⟩ ⟨0⟩, .define ⟨1⟩ true (.pop ⟨.values, 1⟩),
    .define ⟨2⟩ true (.pop ⟨.values, 2⟩)]

/-- Two runs that fail leave a value each, so that the tapes are not balanced. -/
theorem spilling_accounted :
    let turn : Turn ℚ := ⟨⟨.spilling, .none, 0⟩, [{ value := .real 3 }]⟩
    let m := (Machine.new .spilling {}).afterTurns [turn, turn]
    let cell := m.tapes.cell ⟨.values, 1⟩
    cell.pushes = 4 ∧ cell.pops = 2 ∧ cell.stack.length = 2 ∧ m.tapes.isBalanced = false := by
  intro turn m cell
  obtain ⟨hcounters, -, hreached⟩ := tapes_accounted .spilling ({} : World ℚ) none [turn, turn]
  obtain ⟨hcount, hbalanced⟩ := hreached turn.job turn.args m .start
  have hpushes : cell.pushes = 4 := (hcounters _).1.trans (by decide +kernel)
  have hpops : cell.pops = 2 := (hcounters _).2.trans (by decide +kernel)
  have hlength : cell.pushes = cell.pops + cell.stack.length := hcount _
  have huneven : ¬∀ p ∈ m.tapes.sorted, p.2.pushes = p.2.pops := by decide +kernel
  exact ⟨hpushes, hpops, by omega, Bool.eq_false_iff.mpr (mt hbalanced.mp huneven)⟩

end Backsweep
