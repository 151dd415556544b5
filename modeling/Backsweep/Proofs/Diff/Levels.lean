import Mathlib
import Backsweep.Proofs.Run.Whole

/-!
# Levels never meet

A context hands out one level after another. As long as levels do not run out, a new one is
above all that were handed out before and above every tape that the function names, so a run
of the function leaves the tapes of the new level alone.

* `Stmt.Mentions`: a statement names a tape, at any depth;
* `mem_blockTapes_iff`: the tapes of a block are those that its statements mention;
* `lt_levelAbove`: no tape is at or above the level after the highest one;
* `Context.freshAll_below`: a context is beyond the levels that it handed out;
* `Context.fresh_apart`: what holds of every level in every sequence.
-/

namespace Backsweep

variable {t : Tape} {s : Stmt}

/-! ## Tapes of a function -/

/-- The statement names the tape, itself or at any depth in its blocks. -/
inductive Stmt.Mentions (t : Tape) : Stmt → Prop
  | push {val} : Mentions t (.push t val)
  | decision {d} : Mentions t (.pushDecision t d)
  | pop {dst decl} : Mentions t (.define dst decl (.pop t))
  | top {dst decl d} : Mentions t (.define dst decl (.topIs t d))
  | arm {arms other arm s} (taken : arm ∈ arms) (inside : s ∈ arm.2) (names : Mentions t s) :
      Mentions t (.cond arms other)
  | other {arms other s} (inside : s ∈ other) (names : Mentions t s) :
      Mentions t (.cond arms other)
  | header {header test body s} (inside : s ∈ header) (names : Mentions t s) :
      Mentions t (.loop header test body)
  | body {header test body s} (inside : s ∈ body) (names : Mentions t s) :
      Mentions t (.loop header test body)
  | doBody {body test s} (inside : s ∈ body) (names : Mentions t s) :
      Mentions t (.doLoop body test)
  | block {body s} (inside : s ∈ body) (names : Mentions t s) : Mentions t (.block body)

/-- The function names the tape somewhere in its body. -/
def Func.Mentions (f : Func) (t : Tape) : Prop := ∃ s ∈ f.body, s.Mentions t

theorem mem_blockTapes_of_mem {b : Block} (hs : s ∈ b) (ht : t ∈ s.tapes) : t ∈ blockTapes b := by
  induction b with
  | nil => cases hs
  | cons s' b ih =>
    rw [blockTapes, List.mem_append]
    rcases List.mem_cons.mp hs with rfl | hs
    · exact .inl ht
    · exact .inr (ih hs)

theorem Stmt.Mentions.mem_tapes (h : s.Mentions t) : t ∈ s.tapes := by
  induction h with
  | push | decision | pop | top => simp [Stmt.tapes, Expr.tape?]
  | arm taken inside _ ih =>
    rw [Stmt.tapes, List.mem_append, mem_armsTapes]
    exact .inl ⟨_, taken, mem_blockTapes_of_mem inside ih⟩
  | other inside _ ih =>
    rw [Stmt.tapes, List.mem_append]
    exact .inr (mem_blockTapes_of_mem inside ih)
  | header inside _ ih =>
    rw [Stmt.tapes, List.mem_append]
    exact .inl (mem_blockTapes_of_mem inside ih)
  | body inside _ ih =>
    rw [Stmt.tapes, List.mem_append]
    exact .inr (mem_blockTapes_of_mem inside ih)
  | doBody inside _ ih | block inside _ ih => exact mem_blockTapes_of_mem inside ih

/-- An atomic statement mentions the one tape that it names. -/
theorem Stmt.mentions_of_atomic (hs : s.isControlFlow = false) (ht : t ∈ s.tapes) :
    s.Mentions t := by
  cases s with
  | define dst decl e =>
    cases e with
    | pop u =>
      obtain rfl : t = u := by simpa [Stmt.tapes, Expr.tape?] using ht
      exact .pop
    | topIs u d =>
      obtain rfl : t = u := by simpa [Stmt.tapes, Expr.tape?] using ht
      exact .top
    | const | copy | load | op | call => simp [Stmt.tapes, Expr.tape?] at ht
  | push u val =>
    obtain rfl : t = u := by simpa [Stmt.tapes] using ht
    exact .push
  | pushDecision u d =>
    obtain rfl : t = u := by simpa [Stmt.tapes] using ht
    exact .decision
  | store | unreachable | ret => simp [Stmt.tapes] at ht
  | cond | loop | doLoop | block => cases hs

/-- **The tapes of a block are those that its statements mention.** -/
theorem mem_blockTapes_iff {b : Block} : t ∈ blockTapes b ↔ ∃ s ∈ b, s.Mentions t := by
  constructor
  · intro ht
    -- A tape is named by the first statement, or further on.
    induction b using blockInduction with
    | nil => cases ht
    | atom s ss hs ih =>
      rw [blockTapes, List.mem_append] at ht
      exact (List.exists_mem_cons_iff _ _ _).mpr (ht.imp (Stmt.mentions_of_atomic hs) ih)
    | cond arms other ss iha iho ih =>
      rw [blockTapes, Stmt.tapes, List.mem_append, List.mem_append, mem_armsTapes] at ht
      refine (List.exists_mem_cons_iff _ _ _).mpr (ht.imp ?_ ih)
      rintro (⟨arm, harm, ht⟩ | ht)
      · obtain ⟨s, hs, h⟩ := iha arm harm ht
        exact .arm harm hs h
      · obtain ⟨s, hs, h⟩ := iho ht
        exact .other hs h
    | loop header test body ss ihh ihb ih =>
      rw [blockTapes, Stmt.tapes, List.mem_append, List.mem_append] at ht
      refine (List.exists_mem_cons_iff _ _ _).mpr (ht.imp ?_ ih)
      rintro (ht | ht)
      · obtain ⟨s, hs, h⟩ := ihh ht
        exact .header hs h
      · obtain ⟨s, hs, h⟩ := ihb ht
        exact .body hs h
    | doLoop body test ss ihb ih =>
      rw [blockTapes, Stmt.tapes, List.mem_append] at ht
      refine (List.exists_mem_cons_iff _ _ _).mpr (ht.imp (fun ht => ?_) ih)
      obtain ⟨s, hs, h⟩ := ihb ht
      exact .doBody hs h
    | block body ss ihb ih =>
      rw [blockTapes, Stmt.tapes, List.mem_append] at ht
      refine (List.exists_mem_cons_iff _ _ _).mpr (ht.imp (fun ht => ?_) ih)
      obtain ⟨s, hs, h⟩ := ihb ht
      exact .block hs h
  · rintro ⟨s, hs, h⟩
    exact mem_blockTapes_of_mem hs h.mem_tapes

/-! ## The level after the highest one -/

/-- The highest level is that of some tape, and no tape is above it. -/
theorem highestLevel_greatest {ts : List Tape} (hne : ts ≠ []) :
    ∃ t ∈ ts, highestLevel ts = some t.level ∧ ∀ u ∈ ts, u.level ≤ t.level := by
  induction ts with
  | nil => exact absurd rfl hne
  | cons t ts ih =>
    by_cases hts : ts = []
    · subst hts
      exact ⟨t, by simp, by simp [highestLevel], by simp⟩
    obtain ⟨t', ht', hhighest, hbelow⟩ := ih hts
    by_cases hle : t'.level ≤ t.level
    · refine ⟨t, by simp, by simp [highestLevel, hhighest, hle], fun u hu => ?_⟩
      rcases List.mem_cons.mp hu with rfl | hu
      · exact Nat.le_refl _
      · exact (hbelow u hu).trans hle
    · refine ⟨t', by simp [ht'], by simp [highestLevel, hhighest]; omega, fun u hu => ?_⟩
      rcases List.mem_cons.mp hu with rfl | hu
      · omega
      · exact hbelow u hu

/-- The level after a level that is not the last one. -/
theorem nextLevel_of_lt {n : Nat} (h : n < 2 ^ 32 - 1) : nextLevel n = n + 1 := by
  unfold nextLevel
  omega

theorem lt_levelAbove {ts : List Tape} (h : ∀ t ∈ ts, t.level < 2 ^ 32 - 1) (ht : t ∈ ts) :
    t.level < levelAbove ts := by
  obtain ⟨top, htop, hhighest, hbelow⟩ := highestLevel_greatest (List.ne_nil_of_mem ht)
  have habove : levelAbove ts = top.level + 1 := by
    rw [levelAbove, hhighest]
    exact nextLevel_of_lt (h top htop)
  have := hbelow t ht
  omega

/-! ## Contexts -/

namespace Context

/-- The levels for derivatives of functions, one after the other. -/
def freshAll (c : Context) : List Func → List Level × Context
  | [] => ([], c)
  | f :: fs => ((c.fresh f).1 :: ((c.fresh f).2.freshAll fs).1, ((c.fresh f).2.freshAll fs).2)

theorem next_le_fresh (c : Context) (f : Func) : c.next ≤ (c.fresh f).1.val :=
  Nat.le_max_left _ _

theorem levelAbove_le_fresh (c : Context) (f : Func) :
    levelAbove (blockTapes f.body) ≤ (c.fresh f).1.val :=
  Nat.le_max_right _ _

/-- A context never goes back, and is beyond the levels that it handed out. -/
theorem freshAll_below (fs : List Func) (c : Context)
    (h : ∀ l ∈ (c.freshAll fs).1, l.val < 2 ^ 32 - 1) :
    c.next ≤ (c.freshAll fs).2.next ∧
      ∀ l ∈ (c.freshAll fs).1, l.val < (c.freshAll fs).2.next := by
  induction fs generalizing c with
  | nil =>
    constructor
    · exact Nat.le_refl _
    · simp [freshAll]
  | cons f fs ih =>
    obtain ⟨hnext, hbelow⟩ := ih (c.fresh f).2 fun l hl => h l (List.mem_cons_of_mem _ hl)
    have hstep : (c.fresh f).2.next = (c.fresh f).1.val + 1 :=
      nextLevel_of_lt (h (c.fresh f).1 List.mem_cons_self)
    have hfirst := c.next_le_fresh f
    change c.next ≤ ((c.fresh f).2.freshAll fs).2.next ∧
      ∀ l ∈ (c.fresh f).1 :: ((c.fresh f).2.freshAll fs).1,
        l.val < ((c.fresh f).2.freshAll fs).2.next
    constructor
    · omega
    · intro l hl
      rcases List.mem_cons.mp hl with rfl | hl
      · omega
      · exact hbelow l hl

end Context

/-- The tapes of a level. -/
def Level.tapes (l : Level) : List Tape := [l.values, l.decisions, l.adjoints]

theorem Level.level_of_mem_tapes {l : Level} (h : t ∈ l.tapes) : t.level = l.val := by
  simp only [tapes, List.mem_cons, List.not_mem_nil, or_false] at h
  rcases h with rfl | rfl | rfl <;> rfl

/-- A run of a function leaves the tapes alone that the function does not mention. -/
theorem Job.runSlots_unmentioned {R : Type} [Scalar R] (j : Job R) (ht : ¬j.func.Mentions t)
    (args : List (Slot R)) (m : Machine R) :
    (endState (j.runSlots args m)).tapes.cell t = m.tapes.cell t := by
  by_cases hargs : args.length = j.func.params.length
  · have hbody := j.execBlock_frame (b := j.func.body) (V := fun _ => False) (T := (· = t))
      (fun _ _ _ h => h.elim) (fun u hu hmem => ht (hu ▸ mem_blockTapes_iff.mp hmem))
      (m.enter j.func.params args)
    have henter : (m.enter j.func.params args).tapes = m.tapes := (m.enter_keeps _ _).1
    rw [j.runSlots_eq m hargs]
    generalize j.execBlock j.func.body _ = r at hbody
    cases r with
    | ok flow m' =>
      have hcell := henter ▸ hbody.tapes t rfl
      cases flow <;> exact hcell
    | error e m' => exact henter ▸ hbody.tapes t rfl
  · rw [j.runSlots_arity m hargs]
    rfl

/-- **Derivatives never share tapes.** Whatever levels a context has handed out, none of them the
last one there is, the next one is above all of them, and above the tapes that the function
mentions, if none of these is at the last level. So the function mentions no tape of the new
level, and its runs leave them as they are, also runs that fail. -/
theorem Context.fresh_apart (c : Context) (earlier : List Func) (f : Func)
    (hids : ∀ l ∈ (c.freshAll earlier).1, l.val < 2 ^ 32 - 1)
    (htapes : ∀ t, f.Mentions t → t.level < 2 ^ 32 - 1) :
    let new := ((c.freshAll earlier).2.fresh f).1
    (∀ l ∈ (c.freshAll earlier).1, l.val < new.val) ∧
      (∀ t, f.Mentions t → t.level < new.val) ∧
      ∀ t ∈ new.tapes, ¬f.Mentions t ∧
        ∀ {R : Type} [Scalar R] (j : Job R), j.func = f → ∀ args m,
          (endState (j.runSlots args m)).tapes.cell t = m.tapes.cell t := by
  intro new
  have hmentioned : ∀ t, f.Mentions t → t.level < new.val := by
    intro t ht
    refine (lt_levelAbove (fun u hu => htapes u (mem_blockTapes_iff.mp hu))
      (mem_blockTapes_iff.mpr ht)).trans_le ?_
    exact levelAbove_le_fresh _ f
  refine ⟨fun l hl => ?_, hmentioned, fun t ht => ?_⟩
  · exact ((freshAll_below earlier c hids).2 l hl).trans_le (next_le_fresh _ f)
  · have hfree : ¬f.Mentions t := by
      intro hm
      have := hmentioned t hm
      rw [Level.level_of_mem_tapes ht] at this
      exact Nat.lt_irrefl _ this
    refine ⟨hfree, fun j hj args m => ?_⟩
    exact j.runSlots_unmentioned (hj ▸ hfree) args m

/-- A function with tapes of four levels: in the header and the body of a loop, in a loop with
its test at the end, in an arm, and in a block. -/
def Func.layered : Func where
  name := "layered"
  attrs := []
  params := [⟨0⟩]
  returns := [.bool]
  vars := #[⟨"c", .bool, false⟩, ⟨"x", .bool, false⟩, ⟨"d", .bool, true⟩]
  body := [
    .loop [.push ⟨.values, 3⟩ ⟨0⟩] ⟨0⟩ [.define ⟨1⟩ true (.pop ⟨.values, 3⟩)],
    .doLoop [.define ⟨2⟩ true (.topIs ⟨.decisions, 7⟩ 1)] ⟨2⟩,
    .cond [(⟨0⟩, [.pushDecision ⟨.decisions, 2⟩ 5])] [.block [.push ⟨.adjoints, 9⟩ ⟨0⟩]],
    .ret [⟨0⟩]]

/-- The third level for this function is above the first two, and above the tape in its
innermost block. -/
theorem layered_fresh_apart :
    let earlier := Context.freshAll {} [.layered, .layered]
    let new := (earlier.2.fresh .layered).1
    earlier.1 = [⟨10⟩, ⟨11⟩] ∧ new = ⟨12⟩ ∧ Func.layered.Mentions ⟨.adjoints, 9⟩ ∧
      (∀ l ∈ earlier.1, l.val < new.val) ∧ (∀ t, Func.layered.Mentions t → t.level < new.val) ∧
      ∀ t ∈ new.tapes, ¬Func.layered.Mentions t ∧
        ∀ {R : Type} [Scalar R] (j : Job R), j.func = .layered → ∀ args m,
          (endState (j.runSlots args m)).tapes.cell t = m.tapes.cell t := by
  have hlevels : ∀ t ∈ blockTapes Func.layered.body, t.level < 2 ^ 32 - 1 := by decide
  refine ⟨by decide, by decide, mem_blockTapes_iff.mp (by decide), ?_⟩
  exact Context.fresh_apart {} [.layered, .layered] .layered (by decide)
    fun t ht => hlevels t (mem_blockTapes_iff.mpr ht)

end Backsweep
