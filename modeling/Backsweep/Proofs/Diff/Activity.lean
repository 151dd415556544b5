import Mathlib
import Backsweep.Diff.Activity
import Backsweep.Proofs.Syntax.Scope

/-!
# Activity is a fixed point

Every visit of the body marks more, and what can be marked is finite.

* `Analysis.block_eq_atoms`: a block is visited like its atomic statements;
* `Analysis.Settles`: visits without a bound on their number;
* `Analysis.iterate_settles`: the rounds of the analysis are enough for them;
* `Activity.Closed`: what such marks say about every statement of the function;
* `Activity.analyze_closed`: the result of an analysis is closed.
-/

namespace Backsweep

theorem except_bind_eq_ok {ε α β : Type} {x : Except ε α} {f : α → Except ε β} {b : β} :
    (x >>= f) = .ok b ↔ ∃ a, x = .ok a ∧ f a = .ok b := by
  cases x with
  | ok a =>
    constructor
    · intro h; exact ⟨a, rfl, h⟩
    · rintro ⟨a', h, hb⟩; cases h; exact hb
  | error e =>
    constructor
    · intro h; cases h
    · rintro ⟨a', h, _⟩; cases h

/-! ## The order of marks -/

namespace Marks

/-- The second marks have the marks of the first, and maybe more. -/
structure Le (m m' : Marks) : Prop where
  size : m'.vars.size = m.vars.size
  vars : ∀ v, m.isActive v = true → m'.isActive v = true
  tapes : m.tapes <+: m'.tapes

theorem Le.refl (m : Marks) : Le m m := ⟨rfl, fun _ h => h, List.prefix_refl _⟩

theorem Le.trans {a b c : Marks} (h : Le a b) (h' : Le b c) : Le a c :=
  ⟨h'.size.trans h.size, fun v hv => h'.vars v (h.vars v hv), List.IsPrefix.trans h.tapes h'.tapes⟩

theorem Le.antisymm {m m' : Marks} (h : Le m m') (h' : Le m' m) : m = m' := by
  obtain ⟨vars, tapes⟩ := m
  obtain ⟨vars', tapes'⟩ := m'
  have hv : vars = vars' := by
    refine Array.ext h'.size fun i hi hi' => ?_
    have h₁ := h.vars ⟨i⟩
    have h₂ := h'.vars ⟨i⟩
    simp only [isActive, Array.getD_eq_getD_getElem?, hi, hi', getElem?_pos, Option.getD_some]
      at h₁ h₂
    exact Bool.eq_iff_iff.mpr ⟨h₁, h₂⟩
  have ht : tapes = tapes' := h.tapes.eq_of_length (Nat.le_antisymm h.tapes.length_le
    h'.tapes.length_le)
  rw [hv, ht]

theorem isActive_mark (m : Marks) (v w : Var) :
    (m.mark v).isActive w = if v = w ∧ v.idx < m.vars.size then true else m.isActive w := by
  obtain ⟨i⟩ := v
  obtain ⟨k⟩ := w
  simp only [isActive, mark, Array.getD_eq_getD_getElem?, Array.getElem?_setIfInBounds,
    Var.mk.injEq]
  by_cases h : i = k
  · subst h
    by_cases hi : i < m.vars.size
    · simp [hi]
    · simp [hi]
  · simp [h]

theorem le_mark (m : Marks) (v : Var) : Le m (m.mark v) := by
  refine ⟨by simp [mark], fun w hw => ?_, List.prefix_refl _⟩
  rw [isActive_mark]
  split
  · rfl
  · exact hw

theorem le_markTape (m : Marks) (t : Tape) : Le m (m.markTape t) := by
  unfold markTape
  split
  · exact .refl m
  · exact ⟨rfl, fun _ h => h, List.prefix_append _ _⟩

/-- How much is marked. -/
def measure (m : Marks) : Nat :=
  ((Finset.range m.vars.size).filter fun i => m.isActive ⟨i⟩ = true).card + m.tapes.length

theorem isActive_lt {m : Marks} {v : Var} (h : m.isActive v = true) : v.idx < m.vars.size := by
  by_contra hv
  simp only [isActive, Array.getD_eq_getD_getElem?] at h
  rw [Array.getElem?_eq_none (by omega)] at h
  cases h

theorem Le.measure_lt {m m' : Marks} (h : Le m m') (hne : m' ≠ m) : m.measure < m'.measure := by
  have hsub : ((Finset.range m.vars.size).filter fun i => m.isActive ⟨i⟩ = true) ⊆
      (Finset.range m'.vars.size).filter fun i => m'.isActive ⟨i⟩ = true := by
    intro i hi
    rw [Finset.mem_filter, Finset.mem_range] at hi ⊢
    exact ⟨by rw [h.size]; exact hi.1, h.vars _ hi.2⟩
  have hcard := Finset.card_le_card hsub
  have hlen := h.tapes.length_le
  by_contra hge
  unfold measure at hge
  -- neither a variable nor a tape was added, so the marks are the same
  have heq := Finset.eq_of_subset_of_card_le hsub (by omega)
  refine hne (Le.antisymm ⟨h.size.symm, fun v hv => ?_, ?_⟩ h)
  · have hmem : v.idx ∈ (Finset.range m'.vars.size).filter fun i => m'.isActive ⟨i⟩ = true := by
      rw [Finset.mem_filter, Finset.mem_range]
      exact ⟨isActive_lt hv, hv⟩
    rw [← heq, Finset.mem_filter] at hmem
    exact hmem.2
  · rw [h.tapes.eq_of_length (by omega)]

end Marks

/-! ## Visits -/

/-- The tapes that are pushed to in a block. -/
def pushedTapes (b : Block) : List Tape :=
  (blockAtoms b).filterMap fun
    | .push t _ => some t
    | _ => none

theorem armsPushCount_eq (arms : List (Var × Block)) :
    armsPushCount arms = (arms.map fun arm => blockPushCount arm.2).sum := by
  induction arms with
  | nil => rfl
  | cons arm arms ih => simp [armsPushCount, ih]

theorem pushedTapes_length (b : Block) : (pushedTapes b).length = blockPushCount b := by
  unfold pushedTapes
  induction b using blockInduction with
  | nil => rfl
  | atom s ss hs ih =>
    simp only [blockAtoms, blockPushCount, Stmt.atoms_of_not_controlFlow hs, List.filterMap_append,
      List.length_append, ih]
    cases s <;> first | rfl | cases hs
  | cond arms other ss iha iho ih =>
    have harms : ((armsAtoms arms).filterMap fun | .push t _ => some t | _ => none).length =
        armsPushCount arms := by
      rw [armsAtoms_eq, armsPushCount_eq]
      clear iho ih
      induction arms with
      | nil => rfl
      | cons arm arms ih' =>
        simp only [List.flatMap_cons, List.filterMap_append, List.length_append, List.map_cons,
          List.sum_cons]
        rw [iha arm (by simp), ih' fun a ha => iha a (by simp [ha])]
    simp only [blockAtoms, Stmt.atoms, blockPushCount, Stmt.pushCount, List.filterMap_append,
      List.length_append, harms, iho, ih]
  | loop header test body ss ihh ihb ih =>
    simp only [blockAtoms, Stmt.atoms, blockPushCount, Stmt.pushCount, List.filterMap_append,
      List.length_append, ihh, ihb, ih]
  | doLoop body test ss ihb ih | block body ss ihb ih =>
    simp only [blockAtoms, Stmt.atoms, blockPushCount, Stmt.pushCount, List.filterMap_append,
      List.length_append, ihb, ih]

namespace Analysis

variable {a : Analysis}

/-- A block is visited like its atomic statements, one after the other. -/
theorem block_eq_atoms (b : Block) (m : Marks) :
    a.block b m = (blockAtoms b).foldlM (fun m s => a.stmt s m) m := by
  have cons (s : Stmt) (ss : Block) (m : Marks) :
      a.block (s :: ss) m = a.stmt s m >>= fun m => a.block ss m := rfl
  induction b using blockInduction generalizing m with
  | nil => rfl
  | atom s ss hs ih =>
    rw [cons, blockAtoms, Stmt.atoms_of_not_controlFlow hs, List.singleton_append, List.foldlM_cons]
    simp only [ih]
  | cond arms other ss iha iho ih =>
    have harms (m : Marks) : a.arms arms m = (armsAtoms arms).foldlM (fun m s => a.stmt s m) m := by
      clear iho ih
      induction arms generalizing m with
      | nil => rfl
      | cons arm arms ih' =>
        have hcons : a.arms (arm :: arms) m = a.block arm.2 m >>= fun m => a.arms arms m := rfl
        rw [hcons, armsAtoms, List.foldlM_append, iha arm (by simp) m]
        simp only [ih' fun arm harm => iha arm (by simp [harm])]
    have hstmt : a.stmt (.cond arms other) m = a.arms arms m >>= fun m => a.block other m := rfl
    rw [cons, hstmt, blockAtoms, Stmt.atoms, List.foldlM_append, List.foldlM_append, harms]
    simp only [iho, ih]
  | loop header test body ss ihh ihb ih =>
    have hstmt : a.stmt (.loop header test body) m =
        a.block header m >>= fun m => a.block body m := rfl
    rw [cons, hstmt, blockAtoms, Stmt.atoms, List.foldlM_append, List.foldlM_append, ihh]
    simp only [ihb, ih]
  | doLoop body test ss ihb ih | block body ss ihb ih =>
    rw [cons, blockAtoms, Stmt.atoms, List.foldlM_append]
    simp only [stmt, ihb, ih]

/-- What a visit of an atomic statement can do. -/
theorem atom_cases {s : Stmt} (hs : s.isControlFlow = false) {m m' : Marks}
    (h : a.stmt s m = .ok m') :
    m' = m ∨ (∃ dst decl e, s = .define dst decl e ∧ a.expr m dst e = .ok true ∧
      m' = m.mark dst) ∨ ∃ t val, s = .push t val ∧ m' = m.markTape t := by
  cases s, hs using Stmt.atomCases with
  | define dst decl e =>
    obtain ⟨b, hb, hm⟩ := except_bind_eq_ok.mp h
    cases b with
    | true => cases hm; exact .inr (.inl ⟨dst, decl, e, rfl, hb, rfl⟩)
    | false => cases hm; exact .inl rfl
  | store obj field val =>
    simp only [stmt] at h
    split at h
    · cases h
    · cases h; exact .inl rfl
  | push t val =>
    obtain ⟨_, -, hm⟩ := except_bind_eq_ok.mp h
    cases hm
    split
    · exact .inr (.inr ⟨t, val, rfl, rfl⟩)
    · exact .inl rfl
  | pushDecision t d =>
    obtain ⟨_, -, hm⟩ := except_bind_eq_ok.mp h
    cases hm; exact .inl rfl
  | _ => cases h; exact .inl rfl

theorem atom_le {s : Stmt} (hs : s.isControlFlow = false) {m m' : Marks}
    (h : a.stmt s m = .ok m') : Marks.Le m m' := by
  rcases atom_cases hs h with rfl | ⟨dst, decl, e, -, -, rfl⟩ | ⟨t, val, -, rfl⟩
  · exact .refl _
  · exact Marks.le_mark _ _
  · exact Marks.le_markTape _ _

/-- Visits of atomic statements keep what each of them keeps. -/
theorem atoms_keep {P : Marks → Prop} {ss : List Stmt}
    (hP : ∀ s ∈ ss, ∀ m m', P m → a.stmt s m = .ok m' → P m') {m m' : Marks} (hm : P m)
    (h : ss.foldlM (fun m s => a.stmt s m) m = .ok m') : P m' := by
  induction ss generalizing m with
  | nil => cases h; exact hm
  | cons s ss ih =>
    rw [List.foldlM_cons] at h
    obtain ⟨m₁, h₁, h₂⟩ := except_bind_eq_ok.mp h
    exact ih (fun s hs => hP s (by simp [hs])) (hP s (by simp) m m₁ hm h₁) h₂

theorem atoms_le {ss : List Stmt} (hss : ∀ s ∈ ss, s.isControlFlow = false) {m m' : Marks}
    (h : ss.foldlM (fun m s => a.stmt s m) m = .ok m') : Marks.Le m m' :=
  atoms_keep (P := fun m' => Marks.Le m m')
    (fun s hs _ _ hle h => hle.trans (atom_le (hss s hs) h)) (.refl m) h

/-- Marks that visits leave unchanged in the end are unchanged by each of them. -/
theorem atoms_fixed {ss : List Stmt} (hss : ∀ s ∈ ss, s.isControlFlow = false) {m : Marks}
    (h : ss.foldlM (fun m s => a.stmt s m) m = .ok m) : ∀ s ∈ ss, a.stmt s m = .ok m := by
  induction ss with
  | nil => simp
  | cons s ss ih =>
    rw [List.foldlM_cons] at h
    obtain ⟨m₁, h₁, h₂⟩ := except_bind_eq_ok.mp h
    have hback := atoms_le (fun s hs => hss s (by simp [hs])) h₂
    have heq : m = m₁ := (atom_le (hss s (by simp)) h₁).antisymm hback
    subst heq
    intro t ht
    rcases List.mem_cons.mp ht with rfl | ht
    · exact h₁
    · exact ih (fun s hs => hss s (by simp [hs])) h₂ t ht

/-! ## Rounds -/

/-- Marks of the variables and tapes of the function. -/
structure Bounded (a : Analysis) (m : Marks) : Prop where
  size : m.vars.size = a.func.vars.size
  nodup : m.tapes.Nodup
  pushed : m.tapes ⊆ pushedTapes a.func.body

theorem Bounded.measure_le {m : Marks} (h : a.Bounded m) :
    m.measure ≤ a.func.vars.size + blockPushCount a.func.body := by
  have hvars := Finset.card_filter_le (Finset.range m.vars.size) fun i => m.isActive ⟨i⟩ = true
  have htapes := (h.nodup.subperm h.pushed).length_le
  rw [Finset.card_range, h.size] at hvars
  rw [pushedTapes_length] at htapes
  unfold Marks.measure
  rw [h.size]
  omega

theorem Bounded.atom {s : Stmt} (hs : s ∈ blockAtoms a.func.body) {m m' : Marks}
    (hm : a.Bounded m) (h : a.stmt s m = .ok m') : a.Bounded m' := by
  rcases atom_cases (blockAtoms_atomic _ s hs) h with rfl | ⟨dst, decl, e, -, -, rfl⟩ |
    ⟨t, val, rfl, rfl⟩
  · exact hm
  · exact ⟨by simpa [Marks.mark] using hm.size, hm.nodup, hm.pushed⟩
  · unfold Marks.markTape
    split
    · exact hm
    · rename_i ht
      have htm : t ∉ m.tapes := by simpa [Marks.isActiveTape] using ht
      refine ⟨hm.size, ?_, ?_⟩
      · rw [List.nodup_append]
        refine ⟨hm.nodup, List.nodup_singleton t, fun u hu w hw huw => ?_⟩
        rw [List.mem_singleton] at hw
        exact htm (by rw [← hw, ← huw]; exact hu)
      · intro u hu
        rcases List.mem_append.mp hu with hu | hu
        · exact hm.pushed hu
        · rw [List.mem_singleton] at hu
          subst hu
          exact List.mem_filterMap.mpr ⟨_, hs, rfl⟩

/-- The body is visited, starting with the given marks, until a visit fails or
changes nothing. -/
inductive Settles (a : Analysis) : Marks → Except DiffError Marks → Prop
  | fails {m e} : a.block a.func.body m = .error e → Settles a m (.error e)
  | done {m} : a.block a.func.body m = .ok m → Settles a m (.ok m)
  | again {m next r} : a.block a.func.body m = .ok next → next ≠ m → Settles a next r →
      Settles a m r

/-- With more rounds left than marks can be added, the visits come to an end. -/
theorem iterate_settles (fuel rounds : Nat) {m : Marks} (hm : a.Bounded m)
    (hfuel : a.func.vars.size + blockPushCount a.func.body < m.measure + fuel) :
    a.Settles m ((a.iterate fuel rounds m).map Prod.fst) := by
  induction fuel generalizing rounds m with
  | zero =>
    have := hm.measure_le
    omega
  | succ fuel ih =>
    have hsucc : a.iterate (fuel + 1) rounds m = a.block a.func.body m >>= fun next =>
        if next = m then pure (m, rounds + 1) else a.iterate fuel (rounds + 1) next := rfl
    rw [hsucc]
    cases hnext : a.block a.func.body m with
    | error e => exact .fails hnext
    | ok next =>
      change a.Settles m (Except.map Prod.fst
        (if next = m then pure (m, rounds + 1) else a.iterate fuel (rounds + 1) next))
      split
      · rename_i heq
        subst heq
        exact .done hnext
      · rename_i hne
        have hatoms := (block_eq_atoms _ _).symm.trans hnext
        have hlt := (atoms_le (blockAtoms_atomic _) hatoms).measure_lt hne
        have hkeep := atoms_keep (fun s hs _ _ hm h => Bounded.atom hs hm h) hm hatoms
        exact .again hnext hne (ih _ hkeep (by omega))

/-- Marks that visits end with are fixed, and have what every visit keeps. -/
theorem Settles.fixed {P : Marks → Prop}
    (hP : ∀ s ∈ blockAtoms a.func.body, ∀ m m', P m → a.stmt s m = .ok m' → P m') {m m' : Marks}
    (h : a.Settles m (.ok m')) (hm : P m) :
    a.block a.func.body m' = .ok m' ∧ P m' ∧ Marks.Le m m' := by
  generalize hr : Except.ok m' = r at h
  induction h with
  | fails _ => cases hr
  | done hfix => cases hr; exact ⟨hfix, hm, .refl _⟩
  | again hnext _ _ ih =>
    have hatoms := (block_eq_atoms _ _).symm.trans hnext
    obtain ⟨hfix, hp, hle⟩ := ih (atoms_keep hP hm hatoms) hr
    exact ⟨hfix, hp, (atoms_le (blockAtoms_atomic _) hatoms).trans hle⟩

theorem start_bounded (a : Analysis) : a.Bounded a.start := by
  unfold start
  split
  · exact ⟨by simp [Marks.mark], List.nodup_nil, by simp [Marks.mark]⟩
  · exact ⟨by simp, List.nodup_nil, by simp⟩

end Analysis

namespace Activity

/-- Marks that no statement of the function changes. -/
structure Closed (f : Func) (input : ActiveInput) (withTapes : Bool) (m : Marks) : Prop where
  size : m.vars.size = f.vars.size
  start : Marks.Le (⟨f, input, withTapes⟩ : Analysis).start m
  atoms : ∀ s ∈ blockAtoms f.body, (⟨f, input, withTapes⟩ : Analysis).stmt s m = .ok m
  pushed : m.tapes ⊆ pushedTapes f.body

/-- The rounds that are allowed for are enough for the visits to come to an end. -/
theorem analyze_settles (f : Func) (input : ActiveInput) (withTapes : Bool) :
    (⟨f, input, withTapes⟩ : Analysis).Settles (⟨f, input, withTapes⟩ : Analysis).start
      ((analyze f input withTapes).map Activity.marks) := by
  have hsettles := Analysis.iterate_settles (f.vars.size + blockPushCount f.body + 1) 0
    (Analysis.start_bounded ⟨f, input, withTapes⟩) (by dsimp only; omega)
  unfold analyze
  dsimp only
  cases hit : (⟨f, input, withTapes⟩ : Analysis).iterate (f.vars.size + blockPushCount f.body + 1) 0
      (⟨f, input, withTapes⟩ : Analysis).start with
  | error e => rw [hit] at hsettles; exact hsettles
  | ok p => rw [hit] at hsettles; exact hsettles

theorem analyze_fixed {P : Marks → Prop} {f : Func} {input : ActiveInput} {withTapes : Bool}
    (hstart : P (⟨f, input, withTapes⟩ : Analysis).start)
    (hP : ∀ s ∈ blockAtoms f.body, ∀ m m', P m →
      (⟨f, input, withTapes⟩ : Analysis).stmt s m = .ok m' → P m')
    {act : Activity} (h : analyze f input withTapes = .ok act) :
    act.input = input ∧ Closed f input withTapes act.marks ∧ P act.marks := by
  have hin : act.input = input := by
    obtain ⟨⟨marks, rounds⟩, -, h⟩ := except_bind_eq_ok.mp h
    cases h
    rfl
  have hsettles := analyze_settles f input withTapes
  rw [h] at hsettles
  obtain ⟨hfix, ⟨hp, hbound⟩, hle⟩ := hsettles.fixed
    (P := fun m => P m ∧ Analysis.Bounded ⟨f, input, withTapes⟩ m)
    (fun s hs m m' hm h => ⟨hP s hs m m' hm.1 h, hm.2.atom hs h⟩)
    ⟨hstart, Analysis.start_bounded _⟩
  exact ⟨hin, ⟨hbound.size, hle, Analysis.atoms_fixed (blockAtoms_atomic _)
    ((Analysis.block_eq_atoms _ _).symm.trans hfix), hbound.pushed⟩, hp⟩

/-- **The result of an analysis is closed.** -/
theorem analyze_closed {f : Func} {input : ActiveInput} {withTapes : Bool} {act : Activity}
    (h : analyze f input withTapes = .ok act) :
    act.input = input ∧ Closed f input withTapes act.marks := by
  obtain ⟨hin, hc, -⟩ := analyze_fixed (P := fun _ => True) trivial (fun _ _ _ _ _ _ => trivial) h
  exact ⟨hin, hc⟩

end Activity

end Backsweep
