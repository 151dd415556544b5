import Mathlib
import Backsweep.Proofs.Diff.Discipline
import Backsweep.Proofs.Diff.Levels

/-!
# Derivatives of derivatives

A pullback with a fixed upstream derivative is a function like any other. It has
the tapes of one level, only one of which is pushed to with values.

* `Generation.unbox_tapes`: the tapes of an unboxed pullback;
* `Generation.unbox_tabled`: its variables are in its table;
* `Generation.oneTape_of_unbox`: it can be differentiated once more;
* `Diff.secondOrder_eq_ok`: how second derivatives are generated.
-/

namespace Backsweep

/-! ## Headers -/

theorem headers_atoms {h b : Block} (hh : h ∈ blockLoopHeaders b) : blockAtoms h ⊆ blockAtoms b := by
  induction b using blockInduction with
  | nil => simp [blockLoopHeaders] at hh
  | atom s ss hs ih =>
    have hnone : s.loopHeaders = [] := by cases s <;> first | rfl | cases hs
    rw [blockLoopHeaders, hnone, List.nil_append] at hh
    exact List.Subset.trans (ih hh) (List.subset_append_right _ _)
  | cond arms other ss iha iho ih =>
    simp only [blockLoopHeaders, Stmt.loopHeaders, List.mem_append, mem_armsLoopHeaders] at hh
    intro a ha
    simp only [blockAtoms, Stmt.atoms, List.mem_append, mem_armsAtoms]
    rcases hh with (⟨arm, harm, hh⟩ | hh) | hh
    · exact .inl (.inl ⟨arm, harm, iha arm harm hh ha⟩)
    · exact .inl (.inr (iho hh ha))
    · exact .inr (ih hh ha)
  | loop header test body ss ihh ihb ih =>
    simp only [blockLoopHeaders, Stmt.loopHeaders, List.mem_append, List.mem_cons] at hh
    intro a ha
    simp only [blockAtoms, Stmt.atoms, List.mem_append]
    rcases hh with ((rfl | hh) | hh) | hh
    · exact .inl (.inl ha)
    · exact .inl (.inl (ihh hh ha))
    · exact .inl (.inr (ihb hh ha))
    · exact .inr (ih hh ha)
  | doLoop body test ss ihb ih | block body ss ihb ih =>
    simp only [blockLoopHeaders, Stmt.loopHeaders, List.mem_append] at hh
    intro a ha
    simp only [blockAtoms, Stmt.atoms, List.mem_append]
    rcases hh with hh | hh
    · exact .inl (ihb hh ha)
    · exact .inr (ih hh ha)

/-- The headers of a plan are headers of its statements. -/
theorem stepsHeaders_source {ss : List Step} {h : Block × Var} (hh : h ∈ stepsHeaders ss) :
    h.1 ∈ blockLoopHeaders (stepsSource ss) := by
  induction ss using stepsInduction with
  | nil => simp [stepsHeaders] at hh
  | leaf s ss hs ih =>
    have hnone : s.headers = [] := by cases s <;> first | rfl | cases hs
    rw [stepsHeaders, hnone, List.nil_append] at hh
    rw [stepsSource, blockLoopHeaders_append]
    exact List.mem_append_right _ (ih hh)
  | block decls steps ss ihs ih =>
    simp only [stepsHeaders, Step.headers, List.mem_append] at hh
    simp only [stepsSource, Step.source, blockLoopHeaders_append, blockLoopHeaders,
      Stmt.loopHeaders, List.append_nil, List.mem_append]
    exact hh.imp ihs ih
  | cond arms decls steps ss iha ihs ih =>
    simp only [stepsHeaders, Step.headers, List.mem_append, Placed.mem_armsHeaders] at hh
    simp only [stepsSource, Step.source, blockLoopHeaders_append, blockLoopHeaders,
      Stmt.loopHeaders, List.append_nil, List.mem_append, mem_armsLoopHeaders, armsSource_eq,
      List.mem_map]
    rcases hh with (⟨arm, harm, hh⟩ | hh) | hh
    · exact .inl (.inl ⟨_, ⟨arm, harm, rfl⟩, iha arm harm hh⟩)
    · exact .inl (.inr (ihs hh))
    · exact .inr (ih hh)
  | loop id header test decls steps ss ihs ih =>
    simp only [stepsHeaders, Step.headers, List.mem_append, List.mem_cons] at hh
    simp only [stepsSource, Step.source, blockLoopHeaders_append, blockLoopHeaders,
      Stmt.loopHeaders, List.append_nil, List.mem_append, List.mem_cons]
    rcases hh with (rfl | hh) | hh
    · exact .inl (.inl (.inl rfl))
    · exact .inl (.inr (ihs hh))
    · exact .inr (ih hh)

theorem forwardArms_headers {l : Level} {arms : List (Var × List Var × List Step)}
    (ih : ∀ arm ∈ arms, blockLoopHeaders (l.forwardSteps arm.2.2) =
      blockLoopHeaders (stepsSource arm.2.2)) (index : Nat) :
    armsLoopHeaders (l.forwardArms index arms) = armsLoopHeaders (armsSource arms) := by
  induction arms generalizing index with
  | nil => rfl
  | cons arm arms iha =>
    obtain ⟨test, decls, steps⟩ := arm
    have hsteps := ih (test, decls, steps) (List.mem_cons_self ..)
    have harms := iha (fun arm harm => ih arm (List.mem_cons_of_mem _ harm)) (index + 1)
    simp [Level.forwardArms, armsSource, armsLoopHeaders, blockLoopHeaders_append, blockLoopHeaders,
      Level.record, Stmt.loopHeaders, hsteps, harms]

/-- The forward section has the headers of the function. -/
theorem forward_headers (l : Level) (ss : List Step) :
    blockLoopHeaders (l.forwardSteps ss) = blockLoopHeaders (stepsSource ss) := by
  induction ss using stepsInduction with
  | nil => rfl
  | leaf s ss hs ih =>
    have hsame : blockLoopHeaders (l.forwardStep s) = blockLoopHeaders s.source := by
      cases s, hs using Step.leafCases with
      | call c =>
        have hcall : ∀ s ∈ l.forwardCall c, s.isControlFlow = false := by
          intro s hs
          simp only [Level.forwardCall, List.mem_append, List.mem_map, List.mem_cons] at hs
          rcases hs with ⟨v, -, rfl⟩ | rfl | hs
          · rfl
          · rfl
          · split at hs
            · rw [List.mem_singleton.mp hs]
              rfl
            · cases hs
        exact blockLoopHeaders_atomic hcall
      | _ => rfl
    rw [Level.forwardSteps, stepsSource, blockLoopHeaders_append, blockLoopHeaders_append, hsame, ih]
  | block decls steps ss ihs ih =>
    simp [Level.forwardSteps, Level.forwardStep, stepsSource, Step.source, blockLoopHeaders,
      Stmt.loopHeaders, ihs, ih]
  | cond arms decls steps ss iha ihs ih =>
    simp [Level.forwardSteps, Level.forwardStep, stepsSource, Step.source, blockLoopHeaders,
      blockLoopHeaders_append, Stmt.loopHeaders, Level.record, ihs, ih, forwardArms_headers iha]
  | loop id header test decls steps ss ihs ih =>
    simp [Level.forwardSteps, Level.forwardStep, stepsSource, Step.source, blockLoopHeaders,
      blockLoopHeaders_append, Stmt.loopHeaders, Level.record, ihs, ih]

/-! ## Levels -/

theorem nextLevel_ne (n : Nat) : nextLevel n ≠ n := by
  unfold nextLevel
  omega

theorem highestLevel_of_level {ts : List Tape} {l : Nat} (hne : ts ≠ [])
    (h : ∀ t ∈ ts, t.level = l) : highestLevel ts = some l := by
  obtain ⟨t, ht, hhighest, -⟩ := highestLevel_greatest hne
  rw [hhighest, h t ht]

/-- A level that is handed out after `l` is apart from `l`. -/
theorem fresh_ne {context : Context} {f : Func} {l : Nat} (hnext : context.next = nextLevel l)
    (h : ∀ t ∈ blockTapes f.body, t.level = l) : (context.fresh f).1.val ≠ l := by
  have hval : (context.fresh f).1.val = nextLevel l := by
    change max context.next (levelAbove (blockTapes f.body)) = nextLevel l
    rw [hnext, levelAbove]
    by_cases hne : blockTapes f.body = []
    · rw [hne]
      simp [highestLevel]
    · rw [highestLevel_of_level hne h]
      simp
  rw [hval]
  exact nextLevel_ne l

/-! ## Unboxed pullbacks -/

namespace Generation

variable {c : Catalogue} {f g : Func} {input : ActiveInput} {mode : ReturnMode}
  (d : Generation c f input false mode g) (one : Float)

include d in
theorem unbox_params : (g.unbox one).params = f.params := by
  unfold Func.unbox
  rw [d.params]
  simp

theorem unbox_vars : (g.unbox one).vars = d.final.vars := by
  rw [← d.vars]
  unfold Func.unbox
  split <;> rfl

theorem unbox_body :
    (g.unbox one).body = .define d.upstream true (.const (.real one)) :: g.body := by
  unfold Func.unbox
  rw [d.params]
  simp

/-- The atomic statements of an unboxed pullback. -/
theorem unbox_atoms {a : Stmt} (h : a ∈ blockAtoms (g.unbox one).body) :
    a = .define d.upstream true (.const (.real one)) ∨ a ∈ blockAtoms d.forward ∨
      a ∈ blockAtoms d.inits ∨ a ∈ blockAtoms d.code ∨ a = .ret (d.plan.results d.acc mode) := by
  rw [d.unbox_body, d.body_eq] at h
  simpa [blockAtoms, blockAtoms_append, Stmt.atoms, or_assoc] using h

/-- **An unboxed pullback has tapes for values and decisions, of one level.** -/
theorem unbox_tapes (hc : c.Sound) {t : Tape} (h : t ∈ blockTapes (g.unbox one).body) :
    t = d.level.values ∨ t = d.level.decisions := by
  obtain ⟨a, ha, hta⟩ := (mem_blockTapes _).mp h
  rcases d.unbox_atoms one ha with rfl | ha | ha | ha | rfl
  · cases hta
  · rcases forward_atoms ha with ha | ⟨v, rfl⟩ | ⟨i, rfl⟩
    · exact absurd ((mem_blockTapes _).mpr ⟨a, d.source_atoms ha, hta⟩) (d.closed.tapeless t)
    · exact .inl (List.mem_singleton.mp hta)
    · exact .inr (List.mem_singleton.mp hta)
  · exact absurd ((mem_blockTapes _).mpr ⟨a, ha, hta⟩) (d.inits_tapes t)
  · rcases code_tapes hc ((mem_blockTapes _).mpr ⟨a, ha, hta⟩) with ht | ht | ⟨-, u, hu⟩
    · exact .inl ht
    · exact .inr ht
    · rw [d.not_isActiveTape u] at hu
      cases hu
  · cases hta

theorem unbox_level (hc : c.Sound) : ∀ t ∈ blockTapes (g.unbox one).body, t.level = d.level.val := by
  intro t ht
  rcases d.unbox_tapes one hc ht with rfl | rfl <;> rfl

/-- Only values are pushed. -/
theorem unbox_push (hc : c.Sound) {t : Tape} {v : Var}
    (h : Stmt.push t v ∈ blockAtoms (g.unbox one).body) : t = d.level.values := by
  rcases d.unbox_atoms one h with h | h | h | h | h
  · cases h
  · rcases forward_atoms h with h | ⟨w, hw⟩ | ⟨i, hi⟩
    · exact absurd ((mem_blockTapes _).mpr ⟨_, d.source_atoms h, List.mem_singleton_self t⟩)
        (d.closed.tapeless t)
    · cases hw
      rfl
    · cases hi
  · exact absurd ((mem_blockTapes _).mpr ⟨_, h, List.mem_singleton_self t⟩) (d.inits_tapes t)
  · obtain ⟨rfl, ht⟩ : t = d.level.adjoints ∧ d.reversal.tapes t := (emitted (d := d) hc).atoms _ h
    rcases ht with ht | ht | ⟨-, u, hu⟩
    · exact ht
    · cases ht
    · rw [d.not_isActiveTape u] at hu
      cases hu
  · cases h

/-- What a header of an unboxed pullback uses is no tape for values. -/
theorem unbox_headers (hc : c.Sound) {h : Block}
    (hh : h ∈ blockLoopHeaders (g.unbox one).body) {t : Tape} (ht : t ∈ blockTapes h) :
    t = d.level.decisions := by
  rw [d.unbox_body, d.body_eq, blockLoopHeaders, blockLoopHeaders_append, blockLoopHeaders_append,
    blockLoopHeaders_append, forward, forward_headers] at hh
  simp only [Stmt.loopHeaders, List.nil_append, List.mem_append, blockLoopHeaders,
    List.append_nil] at hh
  have hinits : blockLoopHeaders d.inits = [] := by
    rw [d.inits_eq]
    apply blockLoopHeaders_atomic
    intro s hs
    rcases List.mem_cons.mp hs with rfl | hs
    · rfl
    · obtain ⟨p, -, rfl⟩ := List.mem_map.mp hs
      rfl
  rcases hh with hh | hh | hh
  · obtain ⟨a, ha, hta⟩ := (mem_blockTapes _).mp ht
    exact absurd ((mem_blockTapes _).mpr ⟨a, d.source_atoms (headers_atoms hh ha), hta⟩)
      (d.closed.tapeless t)
  · rw [hinits] at hh
    cases hh
  · obtain ⟨a, id, rfl⟩ := (emitted (d := d) hc).headers h hh
    exact List.mem_singleton.mp ht

include d in
/-- **The variables of an unboxed pullback are in its table.** -/
theorem unbox_tabled (hc : c.Sound) (hf : f.Tabled) : (g.unbox one).Tabled := by
  have hle := d.vars_extend hc
  have hgrown := (emitted (d := d) hc).le.size
  have hsize := d.locals_size
  have hvars := d.unbox_vars one
  constructor
  · intro v hv
    rw [d.unbox_params] at hv
    rw [hvars]
    exact Nat.lt_of_lt_of_le (hf.params v hv) hle.size
  · intro v hv
    rw [hvars]
    obtain ⟨e, he⟩ := mem_allDecls.mp hv
    rcases d.unbox_atoms one he with h | h | h | h | h
    · cases h
      rw [d.upstream_eq]
      simp only
      omega
    · rcases forward_atoms h with h | ⟨w, hw⟩ | ⟨i, hi⟩
      · exact Nat.lt_of_lt_of_le (hf.decls v (mem_allDecls.mpr ⟨e, d.source_atoms h⟩)) hle.size
      · cases hw
      · cases hi
    · rw [d.inits_eq] at h
      obtain ⟨s, hs, ha⟩ := mem_blockAtoms.mp h
      rcases List.mem_cons.mp hs with rfl | hs
      · cases List.mem_singleton.mp ha
        rw [d.acc_eq]
        simp only
        omega
      · obtain ⟨p, hp, rfl⟩ := List.mem_map.mp hs
        cases List.mem_singleton.mp ha
        have := (mem_freshVars.mp (List.of_mem_zip hp).2).2
        omega
    · exact ((emitted (d := d) hc).atoms _ h).2.1
    · cases h
  · intro v hv
    rw [d.unbox_params] at hv
    change ((g.unbox one).vars.getD v.idx default).mutable = false
    rw [hvars, hle.getD (hf.params v hv)]
    exact hf.immutable v hv

variable {d one} {h : Func} {d₂ : Generation c (g.unbox one) input true .valueAndDerivative h}

/-- **An unboxed pullback can be differentiated once more.** -/
theorem oneTape_of_unbox (hc : c.Sound) (hlevel : d₂.level.val ≠ d.level.val) :
    d₂.OneTape d.level.values where
  apart t ht := by
    rw [d.unbox_level one hc t ht]
    exact hlevel.symm
  single t ht := by
    obtain ⟨v, hv⟩ := exists_push_of_active ht
    exact d.unbox_push one hc hv
  kind := by simp [Level.values]
  headers p hp t ht := by
    have hsource := stepsHeaders_source hp
    have hbody : (g.unbox one).body = stepsSource d₂.plan.body.2 ++ [.ret [d₂.plan.ret]] :=
      d₂.fine.body
    have hmem : p.1 ∈ blockLoopHeaders (g.unbox one).body := by
      rw [hbody, blockLoopHeaders_append]
      exact List.mem_append_left _ hsource
    cases hact : d₂.lo.isActiveTape t with
    | false => rfl
    | true =>
      obtain ⟨v, hv⟩ := exists_push_of_active hact
      have hvalues := d.unbox_push one hc hv
      rw [d.unbox_headers one hc hmem ht] at hvalues
      cases hvalues

end Generation

/-! ## Generating second derivatives -/

/-- **Where a second derivative is generated, it is made from an unboxed pullback.** -/
theorem Diff.secondOrder_eq_ok {c : Catalogue} {f h : Func} {input : ActiveInput}
    {st st' : Session} (hc : c.Sound) (hh : secondOrder c f input st = .ok h st') :
    ∃ (g : Func) (d : Generation c f input false .derivative g)
      (d₂ : Generation c (g.unbox st.context.one) input true .valueAndDerivative h),
      d₂.level.val ≠ d.level.val ∧ d.zero = st.context.zero ∧ d₂.zero = st.context.zero ∧
      ∃ st₁, reverse c f input false .derivative (f.name ++ ".reverse") st = .ok g st₁ := by
  unfold secondOrder at hh
  rw [bind_eq_ok] at hh
  obtain ⟨g, st₁, hfirst, hh⟩ := hh
  obtain ⟨d, hlevel, hzero, hst₁⟩ := reverse_eq_ok hfirst
  rw [bind_eq_ok] at hh
  obtain ⟨_, _, hget, hh⟩ := hh
  cases hget
  rw [bind_eq_ok] at hh
  obtain ⟨_, st₂, hemit, hh⟩ := hh
  cases hemit
  have hone : st₁.context.one = st.context.one := by rw [hst₁]; rfl
  rw [hone] at hh
  obtain ⟨d₂, hlevel₂, hzero₂, -⟩ := reverse_eq_ok hh
  refine ⟨g, d, d₂, ?_, hzero, ?_, st₁, hfirst⟩
  · rw [hlevel₂]
    refine fresh_ne ?_ (d.unbox_level _ hc)
    rw [hlevel]
    exact congrArg Context.next hst₁
  · rw [hzero₂]
    change st₁.context.zero = _
    rw [hst₁]
    rfl

end Backsweep
