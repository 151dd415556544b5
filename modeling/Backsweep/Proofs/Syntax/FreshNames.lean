import Mathlib
import Backsweep.Syntax.Builder

/-!
# Names of their own

A builder names variables after bases that it is asked for. Bases may be asked for again and
again, may look like numbered names themselves, and may be keywords.

* `firstFree_least`: a search through numbered names ends, at the least number that is free;
* `IsNameFor`: the name that a base gets where some names are used;
* `Locals.Knows`: a supply of names knows the names that are used, and what it remembers about
  a base is so;
* `Locals.Knows.fresh`: one step, after which the supply knows the new name, too;
* `Builder.serve_isNameFor`: every request to a builder is such a step;
* `Builder.serve_unused`: what holds of every name in every sequence of requests.
-/

namespace Backsweep

/-! ## Numbered names -/

theorem numbered_injective (base : String) : Function.Injective (numbered base) := by
  intro i j h
  exact Nat.repr_inj.mp ((String.append_right_inj _).mp h)

/-- No keyword has an underscore. -/
theorem isKeyword_numbered (base : String) (n : Nat) : isKeyword (numbered base n) = false := by
  have hkeywords : ∀ k ∈ keywords, '_' ∉ k.toList := by decide
  have hmark : '_' ∈ (numbered base n).toList := by simp [numbered]
  rw [isKeyword, List.contains_eq_mem, decide_eq_false_iff_not]
  intro hmem
  exact hkeywords _ hmem hmark

/-- All numbers before the one found are used. The one found is free if the search did not run
to its end. -/
theorem firstFree_spec (used : List String) (base : String) (k n : Nat) :
    n ≤ firstFree used base k n ∧ firstFree used base k n ≤ n + k ∧
      (∀ i, n ≤ i → i < firstFree used base k n → numbered base i ∈ used) ∧
      (firstFree used base k n < n + k → numbered base (firstFree used base k n) ∉ used) := by
  induction k generalizing n with
  | zero =>
    refine ⟨Nat.le_refl n, Nat.le_refl n, fun i hi hlt => ?_, fun hlt => ?_⟩
    · exact absurd hlt (Nat.not_lt.mpr hi)
    · exact absurd hlt (Nat.lt_irrefl n)
  | succ k ih =>
    obtain ⟨hlow, hhigh, hused, hfree⟩ := ih (n + 1)
    by_cases hn : numbered base n ∈ used
    · have hstep : firstFree used base (k + 1) n = firstFree used base k (n + 1) := by
        simp [firstFree, hn]
      rw [hstep]
      refine ⟨by omega, by omega, fun i hi hlt => ?_, fun hlt => hfree (by omega)⟩
      by_cases hin : i = n
      · exact hin ▸ hn
      · exact hused i (by omega) hlt
    · have hstop : firstFree used base (k + 1) n = n := by simp [firstFree, hn]
      rw [hstop]
      exact ⟨Nat.le_refl n, by omega, fun i hi hlt => absurd hlt (Nat.not_lt.mpr hi), fun _ => hn⟩

/-- Of one number more than there are names, one is free. -/
theorem exists_free (used : List String) (base : String) (n : Nat) :
    ∃ i, n ≤ i ∧ i ≤ n + used.length ∧ numbered base i ∉ used := by
  by_contra hnone
  push Not at hnone
  have hsubset : (List.range' n (used.length + 1)).map (numbered base) ⊆ used := by
    intro x hx
    obtain ⟨i, hi, rfl⟩ := List.mem_map.mp hx
    rw [List.mem_range'_1] at hi
    exact hnone i hi.1 (by omega)
  have hnodup : ((List.range' n (used.length + 1)).map (numbered base)).Nodup :=
    (List.nodup_range' _).map (numbered_injective base)
  have hlength := (List.subperm_of_subset hnodup hsubset).length_le
  simp at hlength

/-- **A search through numbered names ends, at the least number that is free.** -/
theorem firstFree_least (used : List String) (base : String) (n : Nat) :
    IsLeast {i | n ≤ i ∧ numbered base i ∉ used} (firstFree used base used.length n) ∧
      firstFree used base used.length n ≤ n + used.length := by
  obtain ⟨hlow, hhigh, hused, hfree⟩ := firstFree_spec used base used.length n
  refine ⟨⟨⟨hlow, ?_⟩, fun i hi => ?_⟩, hhigh⟩
  · by_cases hlt : firstFree used base used.length n < n + used.length
    · exact hfree hlt
    · -- All numbers but the last were tried in vain, so the last one is free.
      obtain ⟨i, hni, hi, hunused⟩ := exists_free used base n
      by_cases hlast : i < firstFree used base used.length n
      · exact absurd (hused i hni hlast) hunused
      · have heq : firstFree used base used.length n = i := by omega
        exact heq ▸ hunused
  · by_contra hlt
    exact hi.2 (hused i hi.1 (Nat.not_le.mp hlt))

/-! ## The name for a base -/

/-- The base can not be a name itself where these names are used. -/
def Taken (names : List String) (base : String) : Prop := isKeyword base = true ∨ base ∈ names

/-- What is named after a base where these names are used: the base itself if it can be a name,
otherwise the base with the least number from one on that is free. -/
structure IsNameFor (names : List String) (base given : String) : Prop where
  plain : ¬Taken names base → given = base
  least : Taken names base → ∃ n, given = numbered base n ∧ n ≤ names.length + 1 ∧
    IsLeast {k | 1 ≤ k ∧ numbered base k ∉ names} n

namespace IsNameFor

variable {names : List String} {base given : String}

theorem not_mem (h : IsNameFor names base given) : given ∉ names := by
  by_cases htaken : Taken names base
  · obtain ⟨n, rfl, -, hn⟩ := h.least htaken
    exact hn.1.2
  · rw [h.plain htaken]
    exact fun hmem => htaken (.inr hmem)

theorem not_keyword (h : IsNameFor names base given) : isKeyword given = false := by
  by_cases htaken : Taken names base
  · obtain ⟨n, rfl, -⟩ := h.least htaken
    exact isKeyword_numbered base n
  · rw [h.plain htaken]
    exact Bool.eq_false_iff.mpr fun hkeyword => htaken (.inl hkeyword)

end IsNameFor

/-! ## The supply of names -/

namespace Locals

/-- The base can not be a name, and no number below `n` is free for it. -/
structure Spent (names : List String) (base : String) (n : Nat) : Prop where
  taken : Taken names base
  pos : 1 ≤ n
  below : ∀ k, 1 ≤ k → k < n → numbered base k ∈ names

/-- The supply knows that these names are used. -/
structure Knows (l : Locals) (names : List String) : Prop where
  used : l.used.Perm names
  tried : ∀ base n, l.tried.lookup base = some n → Spent names base n

theorem Spent.mono {names names' : List String} {base : String} {n : Nat}
    (h : Spent names base n) (hsubset : names ⊆ names') : Spent names' base n where
  taken := h.taken.imp_right (hsubset ·)
  pos := h.pos
  below k hk hlt := hsubset (h.below k hk hlt)

theorem lookup_setTried (base b : String) (n : Nat) (ts : List (String × Nat)) :
    (setTried base n ts).lookup b = if b = base then some n else ts.lookup b := by
  induction ts with
  | nil => by_cases hb : b = base <;> simp [setTried, List.lookup_cons, beq_eq_decide, hb]
  | cons t ts ih =>
    obtain ⟨c, m⟩ := t
    by_cases hc : c = base
    · by_cases hb : b = base <;> simp [setTried, List.lookup_cons, beq_eq_decide, hc, hb]
    · by_cases hbc : b = c
      · simp [setTried, hc, hbc]
      · simp [setTried, List.lookup_cons, beq_eq_decide, hc, hbc, ih]

variable {l : Locals} {names : List String} {base : String}

/-- A search from a number below which none is free gives the least number of all. -/
theorem Knows.takeNumbered (h : l.Knows names) {n : Nat} (hspent : Spent names base n) :
    IsNameFor names base (l.takeNumbered base n).1 ∧
      (l.takeNumbered base n).2.Knows (names ++ [(l.takeNumbered base n).1]) := by
  obtain ⟨⟨⟨hlow, hfree⟩, hmin⟩, -⟩ := firstFree_least l.used base n
  rw [h.used.mem_iff] at hfree
  set m := firstFree l.used base l.used.length n with hm
  have hleast : IsLeast {k | 1 ≤ k ∧ numbered base k ∉ names} m := by
    refine ⟨⟨hspent.pos.trans hlow, hfree⟩, fun k hk => ?_⟩
    by_cases hkn : k < n
    · exact absurd (hspent.below k hk.1 hkn) hk.2
    · exact hmin ⟨Nat.not_lt.mp hkn, fun hmem => hk.2 (h.used.mem_iff.mp hmem)⟩
  constructor
  · refine ⟨fun htaken => absurd hspent.taken htaken, fun _ => ⟨m, rfl, ?_, hleast⟩⟩
    obtain ⟨i, hi, hbound, hunused⟩ := exists_free names base 1
    have := hleast.2 ⟨hi, hunused⟩
    omega
  · refine ⟨(h.used.cons _).trans (List.perm_append_singleton _ _).symm, fun b k hb => ?_⟩
    change (setTried base (m + 1) l.tried).lookup b = some k at hb
    rw [lookup_setTried] at hb
    have hsubset : names ⊆ names ++ [numbered base m] := List.subset_append_left _ _
    by_cases hbase : b = base
    · subst hbase
      obtain rfl : m + 1 = k := by simpa using hb
      refine ⟨(hspent.mono hsubset).taken, by omega, fun i hi hlt => ?_⟩
      by_cases him : i = m
      · exact him ▸ List.mem_append_right _ (List.mem_singleton.mpr rfl)
      · by_contra hunused
        have := hleast.2 ⟨hi, fun hmem => hunused (hsubset hmem)⟩
        omega
    · rw [if_neg hbase] at hb
      exact (h.tried b k hb).mono hsubset

/-- **The supply hands out the name for the base, and knows it from then on.** -/
theorem Knows.fresh (h : l.Knows names) (base : String) :
    IsNameFor names base (l.fresh base).1 ∧
      (l.fresh base).2.Knows (names ++ [(l.fresh base).1]) := by
  unfold Locals.fresh
  cases htried : l.tried.lookup base with
  | some n => exact h.takeNumbered (h.tried base n htried)
  | none =>
    by_cases htaken : Taken names base
    · have hcond : (isKeyword base || l.used.contains base) = true := by
        simpa [Taken, h.used.mem_iff] using htaken
      dsimp only
      rw [if_pos hcond]
      exact h.takeNumbered ⟨htaken, Nat.le_refl 1, fun k hk hlt => by omega⟩
    · have hcond : ¬(isKeyword base || l.used.contains base) = true := by
        simpa [Taken, h.used.mem_iff] using htaken
      dsimp only
      rw [if_neg hcond]
      refine ⟨⟨fun _ => rfl, fun h => absurd h htaken⟩,
        (h.used.cons _).trans (List.perm_append_singleton _ _).symm, fun b n hb => ?_⟩
      exact (h.tried b n hb).mono (List.subset_append_left _ _)

/-- The names of a function, some of which it may have more than once. -/
theorem knows_ofFunc (f : Func) : (ofFunc f).Knows (f.vars.toList.map (·.name)) where
  used := .refl _
  tried _ _ h := by cases h

end Locals

/-! ## Requests -/

/-- What a builder can be asked that needs a name. -/
inductive Request where
  | fresh (base : String)
  | declare (base : String) (ty : Ty) (mutable : Bool)
  | param (base : String) (ty : Ty)
  | define (base : String) (ty : Ty) (mutable : Bool) (e : Expr)
  | op (base : String) (opcode : Opcode) (args : List Var)

def Request.base : Request → String
  | fresh base | declare base _ _ | param base _ | define base _ _ _ | op base _ _ => base

namespace Builder

/-- The name that the table has for a variable. -/
def varName (b : Builder) (v : Var) : String := (b.locals.vars.getD v.idx default).name

/-- Answers a request. The name of a variable is the one in the table. -/
def serve (b : Builder) : Request → String × Builder
  | .fresh base => b.fresh base
  | .declare base ty mutable =>
    let (v, b) := b.declare base ty mutable
    (b.varName v, b)
  | .param base ty =>
    let (v, b) := b.param base ty
    (b.varName v, b)
  | .define base ty mutable e =>
    let (v, b) := b.define base ty mutable e
    (b.varName v, b)
  | .op base opcode args =>
    let (v, b) := b.op base opcode args
    (b.varName v, b)

/-- The names given to requests, one after the other. -/
def serveAll (b : Builder) : List Request → List String × Builder
  | [] => ([], b)
  | r :: rs => ((b.serve r).1 :: ((b.serve r).2.serveAll rs).1, ((b.serve r).2.serveAll rs).2)

/-- A new variable has the name that the supply handed out. -/
theorem varName_declare (b : Builder) (base : String) (ty : Ty) (mutable : Bool) :
    (b.declare base ty mutable).2.varName (b.declare base ty mutable).1 =
      (b.locals.fresh base).1 := by
  change ((((b.locals.fresh base).2.vars.push ⟨(b.locals.fresh base).1, ty, mutable⟩).getD
    (b.locals.fresh base).2.vars.size default).name = _)
  simp [Array.getD_eq_getD_getElem?]

/-- **Every request takes one name from the supply.** -/
theorem serve_eq (b : Builder) (r : Request) :
    (b.serve r).1 = (b.locals.fresh r.base).1 ∧
      (b.serve r).2.locals.used = (b.locals.fresh r.base).2.used ∧
      (b.serve r).2.locals.tried = (b.locals.fresh r.base).2.tried := by
  cases r with
  | fresh base => exact ⟨rfl, rfl, rfl⟩
  | declare base ty mutable => exact ⟨b.varName_declare base ty mutable, rfl, rfl⟩
  | param base ty => exact ⟨b.varName_declare base ty false, rfl, rfl⟩
  | define base ty mutable e => exact ⟨b.varName_declare base ty mutable, rfl, rfl⟩
  | op base opcode args => exact ⟨b.varName_declare base opcode.result false, rfl, rfl⟩

theorem serve_isNameFor {b : Builder} {names : List String} (h : b.locals.Knows names)
    (r : Request) :
    IsNameFor names r.base (b.serve r).1 ∧
      (b.serve r).2.locals.Knows (names ++ [(b.serve r).1]) := by
  obtain ⟨hname, hused, htried⟩ := b.serve_eq r
  obtain ⟨hfor, hknows⟩ := h.fresh r.base
  rw [hname]
  exact ⟨hfor, hused ▸ hknows.used, htried ▸ hknows.tried⟩

theorem serveAll_knows (rs : List Request) {b : Builder} {names : List String}
    (h : b.locals.Knows names) :
    (b.serveAll rs).2.locals.Knows (names ++ (b.serveAll rs).1) := by
  induction rs generalizing b names with
  | nil => simpa [serveAll] using h
  | cons r rs ih => simpa [serveAll] using ih (serve_isNameFor h r).2

/-- **Names are never given twice.** On the variable table of any function, also one with repeated
names, and after any requests, the name for the next request is none of the function's and none
that was given before, and is no keyword. It is the base itself if that is neither used nor a
keyword. Otherwise it is the base with the least number from one on that is not used, and this is
found among one number more than there are names. -/
theorem serve_unused (name : String) (f : Func) (earlier : List Request) (r : Request) :
    let served := (onVarsOf name f).serveAll earlier
    let names := f.vars.toList.map (·.name) ++ served.1
    let new := (served.2.serve r).1
    new ∉ names ∧ isKeyword new = false ∧
      (r.base ∉ names → isKeyword r.base = false → new = r.base) ∧
      (r.base ∈ names ∨ isKeyword r.base = true → ∃ n, new = numbered r.base n ∧
        n ≤ names.length + 1 ∧ IsLeast {k | 1 ≤ k ∧ numbered r.base k ∉ names} n) := by
  intro served names new
  have hknows : served.2.locals.Knows names := serveAll_knows earlier (Locals.knows_ofFunc f)
  have hnew : IsNameFor names r.base new := (serve_isNameFor hknows r).1
  refine ⟨hnew.not_mem, hnew.not_keyword, fun hfree hplain => hnew.plain ?_,
    fun htaken => hnew.least htaken.symm⟩
  rintro (hkeyword | hmem)
  · rw [hplain] at hkeyword
    cases hkeyword
  · exact hfree hmem

/-- A table with a repeated name, bases that look like numbered names, and a keyword. -/
example : ((onVarsOf "g" ⟨"f", [], [], [], #[⟨"x", .real, false⟩, ⟨"x", .int, true⟩], []⟩).serveAll
    [.fresh "x", .param "x_1" .real, .declare "x" .int true, .fresh "let", .fresh "x_1"]).1 =
      ["x_1", "x_1_1", "x_2", "let_1", "x_1_2"] := by decide +kernel

end Builder

end Backsweep
