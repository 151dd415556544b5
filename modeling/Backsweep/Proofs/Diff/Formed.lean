import Mathlib
import Backsweep.Proofs.Diff.Classification
import Backsweep.Proofs.Diff.Generation
import Backsweep.Proofs.Diff.Registration
import Backsweep.Proofs.Syntax.Validity

/-!
# Well-formed reverse code

Reverse code reads variables in scope only, assigns to accumulators only, and declares
variables of its own. Its types fit as long as the rules it is made of compute with reals.

* `Formed`: well-formed code, generated while the variable table grew;
* `Rule.Sits`: a place where a rule may be inlined;
* `Rule.inline_formed`: there, inlined rules are well formed.
-/

namespace Backsweep

variable {e : Expr} {v : Var} {stmts : Block}

/-! ## Code that declares new variables -/

/-- All variables in scope are in the table. -/
def Below (D : Finset Var) (l : Locals) : Prop := ∀ v ∈ D, v.idx < l.vars.size

/-- Code of the function `g` that is in order where `D` is in scope, generated while the
table grew from `l` to `l'`. -/
structure Formed (g : Func) (D : Finset Var) (l l' : Locals) (code : Block) : Prop where
  le : l.Le l'
  decls : ∀ v ∈ allDecls code, l.vars.size ≤ v.idx ∧ v.idx < l'.vars.size
  nodup : (allDecls code).Nodup
  scope : blockScoped g D code
  fits : blockFits g code

/-- A variable that sums contributions. -/
structure IsAccumulator (g : Func) (D : Finset Var) (a : Var) : Prop where
  scope : a ∈ D
  real : g.varTy a = .real
  mutable : (g.info a).mutable = true

theorem IsAccumulator.mono {g : Func} {D D' : Finset Var} {a : Var} (h : IsAccumulator g D a)
    (hD : D ⊆ D') : IsAccumulator g D' a :=
  ⟨hD h.scope, h.real, h.mutable⟩

namespace Formed

variable {g : Func} {D : Finset Var} {l l₁ l' : Locals} {a b : Block}

theorem nil (g : Func) (D : Finset Var) (l : Locals) : Formed g D l l [] :=
  ⟨.refl l, by simp [allDecls, blockAtoms], List.nodup_nil, trivial, trivial⟩

theorem append (ha : Formed g D l l₁ a) (hb : Formed g (blockScope D a) l₁ l' b) :
    Formed g D l l' (a ++ b) := by
  have hle := ha.le.size
  have hle' := hb.le.size
  constructor
  · exact ha.le.trans hb.le
  · intro v hv
    rw [allDecls_append, List.mem_append] at hv
    rcases hv with hv | hv
    · have := ha.decls v hv
      omega
    · have := hb.decls v hv
      omega
  · rw [allDecls_append, List.nodup_append]
    refine ⟨ha.nodup, hb.nodup, ?_⟩
    rintro v hv w hw rfl
    have := ha.decls v hv
    have := hb.decls v hw
    omega
  · exact blockScoped_append.mpr ⟨ha.scope, hb.scope⟩
  · exact blockFits_append.mpr ⟨ha.fits, hb.fits⟩

/-- What is in scope behind the code is in the table. -/
theorem below (h : Formed g D l l' a) (hD : Below D l) : Below (blockScope D a) l' := by
  intro v hv
  have hle := h.le.size
  rw [blockScope, Finset.mem_union, List.mem_toFinset] at hv
  rcases hv with hv | hv
  · have := hD v hv
    omega
  · exact (h.decls v (blockDecls_subset a hv)).2

/-- A definition of the variable that was just added to the table. -/
theorem declare (hD : Below D l) (hle : l.Le l') (hsize : l'.vars.size = l.vars.size + 1)
    (huses : ∀ v ∈ e.uses, v ∈ D) (hfits : e.Fits g ⟨l.vars.size⟩) :
    Formed g D l l' [.define ⟨l.vars.size⟩ true e] := by
  have hdecls : allDecls [.define ⟨l.vars.size⟩ true e] = [⟨l.vars.size⟩] := rfl
  constructor
  · exact hle
  · intro v hv
    rw [hdecls, List.mem_singleton] at hv
    subst hv
    exact ⟨Nat.le_refl _, by simp [hsize]⟩
  · rw [hdecls]
    exact List.nodup_singleton _
  · refine ⟨⟨huses, hfits.typed, fun hin => ?_⟩, trivial⟩
    exact Nat.lt_irrefl _ (hD _ hin)
  · exact ⟨hfits, trivial⟩

/-- A statement that declares nothing. -/
theorem quiet {s : Stmt} (hs : allDecls [s] = []) (hscope : s.Scoped g D) (hfits : s.Fits g) :
    Formed g D l l [s] :=
  ⟨.refl l, by simp [hs], by simp [hs], ⟨hscope, trivial⟩, ⟨hfits, trivial⟩⟩

/-- An assignment to an accumulator. -/
theorem assign (hv : IsAccumulator g D v) (huses : ∀ u ∈ e.uses, u ∈ D) (hfits : e.Fits g v) :
    Formed g D l l [.define v false e] :=
  quiet rfl ⟨huses, hfits.typed, hv.scope, hv.mutable⟩ hfits

theorem push {t : Tape} (ht : t.kind ≠ .decisions) (hv : v ∈ D) (hreal : g.varTy v = .real) :
    Formed g D l l [.push t v] :=
  quiet rfl hv ⟨ht, hreal⟩

theorem block (h : Formed g D l l' a) : Formed g D l l' [.block a] := by
  have hdecls : allDecls [.block a] = allDecls a := by simp [allDecls, blockAtoms, Stmt.atoms]
  exact ⟨h.le, hdecls ▸ h.decls, hdecls ▸ h.nodup, ⟨h.scope, trivial⟩, ⟨h.fits, trivial⟩⟩

theorem loop {test : Var} (ha : Formed g D l l₁ a) (htest : test ∈ blockScope D a)
    (hbool : g.varTy test = .bool) (hb : Formed g (blockScope D a) l₁ l' b) :
    Formed g D l l' [.loop a test b] := by
  have hdecls : allDecls [.loop a test b] = allDecls (a ++ b) := by
    simp [allDecls, blockAtoms, Stmt.atoms, blockAtoms_append]
  have hab := ha.append hb
  exact ⟨hab.le, hdecls ▸ hab.decls, hdecls ▸ hab.nodup,
    ⟨⟨ha.scope, htest, hbool, hb.scope⟩, trivial⟩, ⟨⟨ha.fits, hbool, hb.fits⟩, trivial⟩⟩

end Formed

/-- Blocks that are generated one after the other, each where `D` is in scope. -/
structure FormedAll (g : Func) (D : Finset Var) (l l' : Locals) (blocks : List Block) : Prop where
  le : l.Le l'
  decls : ∀ v ∈ blocks.flatMap allDecls, l.vars.size ≤ v.idx ∧ v.idx < l'.vars.size
  nodup : (blocks.flatMap allDecls).Nodup
  each : ∀ b ∈ blocks, blockScoped g D b ∧ blockFits g b

namespace FormedAll

variable {g : Func} {D : Finset Var} {l l₁ l' : Locals} {blocks more : List Block}

theorem nil (g : Func) (D : Finset Var) (l : Locals) : FormedAll g D l l [] :=
  ⟨.refl l, by simp, List.nodup_nil, by simp⟩

theorem append (h : FormedAll g D l l₁ blocks) (h' : FormedAll g D l₁ l' more) :
    FormedAll g D l l' (blocks ++ more) := by
  have hle := h.le.size
  have hle' := h'.le.size
  constructor
  · exact h.le.trans h'.le
  · intro v hv
    rw [List.flatMap_append, List.mem_append] at hv
    rcases hv with hv | hv
    · have := h.decls v hv
      omega
    · have := h'.decls v hv
      omega
  · rw [List.flatMap_append, List.nodup_append]
    refine ⟨h.nodup, h'.nodup, ?_⟩
    rintro v hv w hw rfl
    have := h.decls v hv
    have := h'.decls v hw
    omega
  · intro b hb
    exact (List.mem_append.mp hb).elim (h.each b) (h'.each b)

theorem single {b : Block} (h : Formed g D l l' b) : FormedAll g D l l' [b] :=
  ⟨h.le, by simpa using h.decls, by simpa using h.nodup, by simpa using ⟨h.scope, h.fits⟩⟩

/-- A choice between the blocks. -/
theorem cond (h : FormedAll g D l l' blocks) {tests : List Var}
    (htests : ∀ t ∈ tests, t ∈ D ∧ g.varTy t = .bool) :
    Formed g D l l' [.cond (tests.zip blocks) [.unreachable]] := by
  -- blocks beyond the tests are dropped
  have hsub : (allDecls [.cond (tests.zip blocks) [.unreachable]]).Sublist
      (blocks.flatMap allDecls) := by
    have hdecls : allDecls [.cond (tests.zip blocks) [.unreachable]] =
        (tests.zip blocks).flatMap fun arm => allDecls arm.2 := by
      simp [allDecls, blockAtoms, Stmt.atoms, Checker.armsAtoms_decls, Stmt.decl?]
    rw [hdecls]
    clear h htests hdecls
    induction tests generalizing blocks with
    | nil => exact List.nil_sublist _
    | cons t tests ih =>
      cases blocks with
      | nil => exact List.nil_sublist _
      | cons b blocks => exact (List.Sublist.refl _).append ih
  have harms : ∀ arm ∈ tests.zip blocks, arm.1 ∈ tests ∧ arm.2 ∈ blocks :=
    fun arm harm => List.of_mem_zip harm
  constructor
  · exact h.le
  · exact fun v hv => h.decls v (hsub.subset hv)
  · exact h.nodup.sublist hsub
  · refine ⟨⟨armsScoped_iff.mpr fun arm harm => ?_, trivial, trivial⟩, trivial⟩
    exact ⟨(htests _ (harms arm harm).1).1, (h.each _ (harms arm harm).2).1⟩
  · refine ⟨⟨armsFit_iff.mpr fun arm harm => ?_, trivial, trivial⟩, trivial⟩
    exact ⟨(htests _ (harms arm harm).1).2, (h.each _ (harms arm harm).2).2⟩

end FormedAll

/-! ## Types of new variables -/

/-- What is in the table of a function stays there. -/
theorem Locals.Le.info {l : Locals} {g : Func} (h : l.Le (.ofFunc g)) (hv : v.idx < l.vars.size) :
    g.info v = l.vars.getD v.idx default :=
  h.getD hv default

theorem Locals.declare_info {l : Locals} {g : Func} (base : String) (ty : Ty) (mutable : Bool)
    (h : (l.declare base ty mutable).2.Le (.ofFunc g)) :
    g.varTy ⟨l.vars.size⟩ = ty ∧ (g.info ⟨l.vars.size⟩).mutable = mutable := by
  obtain ⟨-, name, hvars⟩ := l.declare_eq base ty mutable
  have hinfo : g.info ⟨l.vars.size⟩ = ⟨name, ty, mutable⟩ := by
    rw [h.info (v := ⟨l.vars.size⟩) (by simp [hvars]), hvars]
    simp [Array.getD_eq_getD_getElem?]
  exact ⟨congrArg VarInfo.ty hinfo, congrArg VarInfo.mutable hinfo⟩

namespace Sweep

variable {s : Sweep} {g : Func} {D : Finset Var} {l l' : Locals}

theorem declare_info {base : String} {ty : Ty} {mutable : Bool}
    (h : declare base ty mutable l = .ok (v, l')) (hg : l'.Le (.ofFunc g)) :
    g.varTy v = ty ∧ (g.info v).mutable = mutable := by
  have hdeclare : l.declare base ty mutable = (v, l') := Except.ok.inj h
  obtain ⟨rfl, -, -⟩ := declare_eq_ok h
  apply l.declare_info base ty mutable
  rw [hdeclare]
  exact hg

/-! ## What the generators make -/

/-- A new variable and its definition. -/
theorem declare_formed {base : String} {ty : Ty} {mutable : Bool} (hD : Below D l)
    (h : declare base ty mutable l = .ok (v, l')) (huses : ∀ u ∈ e.uses, u ∈ D) (hfits : e.Fits g v) :
    Formed g D l l' [.define v true e] ∧
      v ∈ blockScope D [.define v true e] := by
  obtain ⟨rfl, hle, hsize⟩ := declare_eq_ok h
  refine ⟨.declare hD hle hsize huses hfits, ?_⟩
  rw [blockScope_declare]
  exact Finset.mem_insert_self _ _

theorem zeroExpr_fits (s : Sweep) {a : Var} (h : g.varTy a = .real) : s.zeroExpr.Fits g a := h

theorem declareAccs_formed {init : Var → Expr} {vs : List Var} {new : List (Var × Var)}
    (hD : Below D l) (hg : l'.Le (.ofFunc g)) (huses : ∀ v ∈ vs, ∀ u ∈ (init v).uses, u ∈ D)
    (hfits : ∀ v ∈ vs, ∀ a, g.varTy a = .real → (init v).Fits g a)
    (h : s.declareAccs init vs l = .ok ((stmts, new), l')) :
    Formed g D l l' stmts ∧ ∀ p ∈ new, IsAccumulator g (blockScope D stmts) p.2 := by
  induction vs generalizing D l stmts new with
  | nil =>
    obtain ⟨hp, rfl⟩ := emit_pure_eq_ok.mp h
    cases hp
    exact ⟨.nil g D _, by simp⟩
  | cons v vs ih =>
    obtain ⟨⟨a, stmt⟩, l₁, h₁, h₂⟩ := emit_bind_eq_ok.mp h
    obtain ⟨a', l₂, hdecl, h₃⟩ := emit_bind_eq_ok.mp h₁
    obtain ⟨hp, rfl⟩ := emit_pure_eq_ok.mp h₃
    cases hp
    obtain ⟨⟨stmts', new'⟩, l₃, hrest, h₄⟩ := emit_bind_eq_ok.mp h₂
    obtain ⟨hp, rfl⟩ := emit_pure_eq_ok.mp h₄
    cases hp
    have hle := (declareAccs_eq_ok hrest).1
    obtain ⟨hreal, hmutable⟩ := declare_info hdecl (hle.trans hg)
    obtain ⟨hfirst, hin⟩ := declare_formed hD hdecl (huses v List.mem_cons_self)
      (hfits v List.mem_cons_self _ hreal)
    have hsub := subset_blockScope D [.define a true (init v)]
    obtain ⟨hothers, hnew⟩ := ih (hfirst.below hD)
      (fun w hw u hu => hsub (huses w (List.mem_cons_of_mem _ hw) u hu))
      (fun w hw => hfits w (List.mem_cons_of_mem _ hw)) hrest
    have hscope : blockScope D (.define a true (init v) :: stmts') =
        blockScope (blockScope D [.define a true (init v)]) stmts' := blockScope_cons _ _ _
    refine ⟨hfirst.append hothers, fun p hp => ?_⟩
    rw [hscope]
    rcases List.mem_cons.mp hp with rfl | hp
    · exact ⟨subset_blockScope _ _ hin, hreal, hmutable⟩
    · exact hnew p hp

theorem popSaved_formed {vs : List Var} {saved : List (Var × Var)} (hD : Below D l)
    (hg : l'.Le (.ofFunc g)) (h : s.popSaved vs l = .ok ((stmts, saved), l')) :
    Formed g D l l' stmts ∧
      ∀ p ∈ saved, p.2 ∈ blockScope D stmts ∧ g.varTy p.2 = .real := by
  induction vs generalizing D l stmts saved with
  | nil =>
    obtain ⟨hp, rfl⟩ := emit_pure_eq_ok.mp h
    cases hp
    exact ⟨.nil g D _, by simp⟩
  | cons v vs ih =>
    obtain ⟨a, l₁, hdecl, h₁⟩ := emit_bind_eq_ok.mp h
    obtain ⟨⟨stmts', saved'⟩, l₂, hrest, h₂⟩ := emit_bind_eq_ok.mp h₁
    obtain ⟨hp, rfl⟩ := emit_pure_eq_ok.mp h₂
    cases hp
    have hle := (popSaved_eq_ok hrest).1
    obtain ⟨hreal, -⟩ := declare_info hdecl (hle.trans hg)
    obtain ⟨hfirst, hin⟩ := declare_formed (e := .pop s.level.values) hD hdecl (by simp [Expr.uses])
      hreal
    obtain ⟨hothers, hsaved⟩ := ih (hfirst.below hD) hrest
    refine ⟨hfirst.append hothers, fun p hp => ?_⟩
    rw [blockScope_cons]
    rcases List.mem_cons.mp hp with rfl | hp
    · exact ⟨subset_blockScope _ _ hin, hreal⟩
    · exact hsaved p hp

theorem branchTests_formed {taken : Var} {n index : Nat} {tests : List Var} (hD : Below D l)
    (hg : l'.Le (.ofFunc g)) (htaken : taken ∈ D) (hint : g.varTy taken = .int)
    (h : branchTests taken n index l = .ok ((stmts, tests), l')) :
    Formed g D l l' stmts ∧
      ∀ t ∈ tests, t ∈ blockScope D stmts ∧ g.varTy t = .bool := by
  induction n generalizing D l index stmts tests with
  | zero =>
    obtain ⟨hp, rfl⟩ := emit_pure_eq_ok.mp h
    cases hp
    exact ⟨.nil g D _, by simp⟩
  | succ n ih =>
    obtain ⟨i, l₁, hdecl, h₁⟩ := emit_bind_eq_ok.mp h
    obtain ⟨test, l₂, hdecl', h₂⟩ := emit_bind_eq_ok.mp h₁
    obtain ⟨⟨stmts₁, tests₁⟩, l₃, hrest, h₃⟩ := emit_bind_eq_ok.mp h₂
    obtain ⟨hp, rfl⟩ := emit_pure_eq_ok.mp h₃
    cases hp
    obtain ⟨-, hle', -⟩ := declare_eq_ok hdecl'
    have hle := Locals.Le.trans (branchTests_le hrest) hg
    obtain ⟨hindex, -⟩ := declare_info hdecl (hle'.trans hle)
    obtain ⟨hbool, -⟩ := declare_info hdecl' hle
    obtain ⟨hfirst, hi⟩ := declare_formed (e := .const (.int index)) hD hdecl (by simp [Expr.uses])
      hindex
    obtain ⟨hsecond, ht⟩ := declare_formed (e := .op .ieq [taken, i]) (hfirst.below hD) hdecl'
      (by
        intro u hu
        rcases List.mem_cons.mp hu with rfl | hu
        · exact subset_blockScope _ _ htaken
        · rw [List.mem_singleton.mp hu]
          exact hi)
      ⟨by simp [hint, hindex]; rfl, hbool⟩
    have hboth := hfirst.append hsecond
    have hscope := blockScope_append D [.define i true (.const (.int index))]
      [.define test true (.op .ieq [taken, i])]
    rw [List.singleton_append] at hscope hboth
    obtain ⟨hothers, htests⟩ := ih (hboth.below hD) (subset_blockScope _ _ htaken) hrest
    refine ⟨hboth.append hothers, fun t htmem => ?_⟩
    have hall := blockScope_append D [.define i true (.const (.int index)),
      .define test true (.op .ieq [taken, i])] stmts₁
    rw [List.cons_append, List.singleton_append] at hall
    rw [hall]
    rcases List.mem_cons.mp htmem with rfl | htmem
    · refine ⟨subset_blockScope _ _ ?_, hbool⟩
      rw [hscope]
      exact ht
    · exact htests t htmem

theorem takeAdjoint_formed {c : ActiveCall} {acc upstream : Var} (hD : Below D l)
    (hg : l'.Le (.ofFunc g)) (hacc : IsAccumulator g D acc)
    (h : s.takeAdjoint c acc l = .ok ((stmts, upstream), l')) :
    Formed g D l l' stmts ∧ upstream ∈ blockScope D stmts ∧ g.varTy upstream = .real := by
  unfold takeAdjoint at h
  cases hd : c.decl with
  | true =>
    rw [hd] at h
    obtain ⟨hp, rfl⟩ := emit_pure_eq_ok.mp h
    cases hp
    refine ⟨.nil g D _, ?_, hacc.real⟩
    rw [blockScope_nil]
    exact hacc.scope
  | false =>
    rw [hd] at h
    obtain ⟨adjoint, l₁, hdecl, h₁⟩ := emit_bind_eq_ok.mp h
    obtain ⟨hp, rfl⟩ := emit_pure_eq_ok.mp h₁
    cases hp
    obtain ⟨hreal, -⟩ := declare_info hdecl hg
    obtain ⟨hcopy, hin⟩ := declare_formed (e := .copy acc) hD hdecl
      (by simpa [Expr.uses] using hacc.scope) (hacc.real.trans hreal.symm)
    have hreset : Formed g (blockScope D [.define upstream true (.copy acc)]) l' l' [s.reset acc] :=
      .assign (hacc.mono (subset_blockScope _ _)) (by simp [zeroExpr, Expr.uses])
        (s.zeroExpr_fits hacc.real)
    refine ⟨hcopy.append hreset, ?_, hreal⟩
    rw [blockScope_cons]
    exact subset_blockScope _ _ hin

theorem takePrimal_formed {c : ActiveCall} {primal : Var} (hD : Below D l) (hg : l'.Le (.ofFunc g))
    (h : s.takePrimal c l = .ok ((stmts, primal), l')) :
    Formed g D l l' stmts ∧
      (c.primal = .saved ∧ primal ∈ blockScope D stmts ∧ g.varTy primal = .real ∨
        c.primal ≠ .saved ∧ primal = c.dst) := by
  unfold takePrimal at h
  split at h
  · rename_i hp
    obtain ⟨v, l₁, hdecl, h₁⟩ := emit_bind_eq_ok.mp h
    obtain ⟨hpair, rfl⟩ := emit_pure_eq_ok.mp h₁
    cases hpair
    obtain ⟨hreal, -⟩ := declare_info hdecl hg
    obtain ⟨hpop, hin⟩ := declare_formed (e := .pop s.level.values) hD hdecl (by simp [Expr.uses])
      hreal
    exact ⟨hpop, .inl ⟨hp, hin, hreal⟩⟩
  · rename_i hp
    obtain ⟨hpair, rfl⟩ := emit_pure_eq_ok.mp h
    cases hpair
    exact ⟨.nil g D _, .inr ⟨hp, rfl⟩⟩

end Sweep

/-! ## Inlined rules -/

/-- The variables that an expression needs at a certain type. What it only passes to an
operation outside of the function may be anything. -/
def Expr.computes : Expr → List Var
  | .copy v => [v]
  | .load v _ => [v]
  | .op _ args => args
  | .const _ | .call _ _ _ | .pop _ | .topIs _ _ => []

theorem Expr.computes_subset (e : Expr) : e.computes ⊆ e.uses := by
  cases e <;> simp [computes, uses]

/-- An expression in other variables of the same types. -/
theorem Expr.Fits.mapVars {f g : Func} {σ : Var → Var} {dst : Var} (h : e.Fits f dst)
    (hv : g.varTy v = f.varTy dst) (hσ : ∀ u ∈ e.computes, g.varTy (σ u) = f.varTy u) :
    (e.mapVars σ).Fits g v := by
  cases e with
  | const k => exact hv.trans h
  | copy src => exact (hσ src (by simp [computes])).trans (Eq.trans h hv.symm)
  | load obj field => exact (hσ obj (by simp [computes])).trans h
  | op opcode args =>
    obtain ⟨hargs, hresult⟩ := h
    constructor
    · rw [← hargs, List.map_map]
      exact List.map_congr_left hσ
    · exact hv.trans hresult
  | call callee args node => trivial
  | pop t => exact hv.trans h
  | topIs t d => exact ⟨h.1, hv.trans h.2⟩

theorem Expr.uses_mapVars (σ : Var → Var) (e : Expr) : (e.mapVars σ).uses = e.uses.map σ := by
  cases e <;> rfl

/-- A definition of a rule is inlined at the type it has in the rule. -/
theorem inlineSteps_info {f g : Func} {dst : Var} {decl : Bool} {ss : Block} {m m' : Rule.Subst}
    {l l' : Locals} (h : Rule.inlineSteps f (.define dst decl e :: ss) m l = (stmts, m', l'))
    (hg : l'.Le (.ofFunc g)) : g.varTy ⟨l.vars.size⟩ = f.varTy dst := by
  rw [Rule.inlineSteps] at h
  generalize hd : l.declare (f.info dst).name (f.info dst).ty false = d at h
  obtain ⟨v, l₁⟩ := d
  dsimp only at h
  generalize hi : Rule.inlineSteps f ss (m.set dst v) l₁ = rest at h
  obtain ⟨stmts₁, m₁, l₂⟩ := rest
  cases h
  apply (l.declare_info (f.info dst).name (f.info dst).ty false _).1
  rw [hd]
  exact (inlineSteps_le hi).trans hg

namespace Rule

/-- The variables that a block of definitions computes with. -/
def computesOf : Block → List Var
  | [] => []
  | .define _ _ e :: ss => e.computes ++ computesOf ss
  | _ :: ss => computesOf ss

/-- The variables that the rule computes with. -/
def computes (r : Rule) : List Var := r.result :: computesOf r.func.body

theorem computesOf_subset (ss : Block) : computesOf ss ⊆ readsOf ss := by
  induction ss with
  | nil => exact List.Subset.refl _
  | cons s ss ih =>
    cases s with
    | define dst decl e =>
      exact List.append_subset.mpr ⟨fun v hv => List.mem_append_left _ (e.computes_subset hv),
        fun v hv => List.mem_append_right _ (ih hv)⟩
    | _ => exact ih

theorem computes_subset (r : Rule) : r.computes ⊆ r.reads :=
  List.cons_subset_cons _ (computesOf_subset r.func.body)

theorem computesOf_append (a b : Block) : computesOf (a ++ b) = computesOf a ++ computesOf b := by
  induction a with
  | nil => rfl
  | cons s a ih =>
    cases s with
    | define dst decl e => rw [List.cons_append, computesOf, computesOf, ih, List.append_assoc]
    | _ => exact ih

/-- What stands for the variables `E` of a rule is in scope where the rule reads it, and has
the type it has in the rule where the rule computes with it. -/
structure Stands (f g : Func) (r : Rule) (E : Finset Var) (σ : Subst) (D : Finset Var) : Prop where
  scope : ∀ v ∈ E, v ∈ r.reads → σ v ∈ D
  types : ∀ v ∈ E, v ∈ r.computes → g.varTy (σ v) = f.varTy v

variable {f g : Func} {r : Rule} {E D : Finset Var} {σ σ' : Subst} {l l' : Locals}

theorem Stands.set (h : Stands f g r E σ D) {dst : Var} (hv : g.varTy v = f.varTy dst) :
    Stands f g r (insert dst E) (σ.set dst v) (insert v D) := by
  constructor
  · intro u hu hread
    rw [Subst.set]
    by_cases heq : u = dst
    · rw [if_pos heq]
      exact Finset.mem_insert_self _ _
    · rw [if_neg heq]
      exact Finset.mem_insert_of_mem (h.scope u ((Finset.mem_insert.mp hu).resolve_left heq) hread)
  · intro u hu hcompute
    rw [Subst.set]
    by_cases heq : u = dst
    · rw [if_pos heq, heq]
      exact hv
    · rw [if_neg heq]
      exact h.types u ((Finset.mem_insert.mp hu).resolve_left heq) hcompute

theorem inlineSteps_formed {ss : Block} (hsteps : ∀ s ∈ ss, isStep s = true)
    (hscoped : blockScoped f E ss) (hfits : blockFits f ss) (hreads : readsOf ss ⊆ r.reads)
    (hcomputes : computesOf ss ⊆ r.computes) (hD : Below D l) (hg : l'.Le (.ofFunc g))
    (h : Stands f g r E σ D) (hinline : inlineSteps f ss σ l = (stmts, σ', l')) :
    Formed g D l l' stmts ∧ Stands f g r (blockScope E ss) σ' (blockScope D stmts) := by
  induction ss generalizing E D σ l stmts with
  | nil =>
    cases hinline
    rw [blockScope_nil, blockScope_nil]
    exact ⟨.nil g D _, h⟩
  | cons s ss ih =>
    obtain ⟨dst, e, rfl⟩ := exists_define_of_isStep (hsteps s List.mem_cons_self)
    obtain ⟨⟨huses, -, -⟩, hscoped⟩ := hscoped
    obtain ⟨hexpr, hfits⟩ := hfits
    rw [readsOf, List.append_subset] at hreads
    rw [computesOf, List.append_subset] at hcomputes
    have hty := inlineSteps_info hinline hg
    obtain ⟨l₁, stmts₁, hle, hsize, hrest, rfl⟩ := inlineSteps_define hinline
    have hfirst : Formed g D l l₁ [.define ⟨l.vars.size⟩ true (e.mapVars σ)] := by
      apply Formed.declare hD hle hsize
      · intro u hu
        rw [Expr.uses_mapVars] at hu
        obtain ⟨w, hw, rfl⟩ := List.mem_map.mp hu
        exact h.scope w (huses w hw) (hreads.1 hw)
      · refine Expr.Fits.mapVars hexpr hty fun u hu => ?_
        exact h.types u (huses u (e.computes_subset hu)) (hcomputes.1 hu)
    have hset := h.set hty
    rw [← blockScope_declare E dst e, ← blockScope_declare D _ (e.mapVars σ)] at hset
    obtain ⟨hothers, hstands⟩ := ih (fun s hs => hsteps s (List.mem_cons_of_mem _ hs)) hscoped hfits
      hreads.2 hcomputes.2 (hfirst.below hD) hset hrest
    rw [blockScope_cons E, blockScope_cons D]
    exact ⟨hfirst.append hothers, hstands⟩

/-- The parameters of a rule are distinct. -/
theorem Accepted.distinct {steps : Block} (hr : Accepted f r steps) :
    r.upstream ∉ r.inputs ∧ r.upstream ≠ r.primal ∧ r.inputs.Nodup ∧ r.primal ∉ r.inputs := by
  have hnodup : f.params.Nodup := (List.nodup_append.mp (f.nodup_of_isValid hr.valid)).1
  rw [hr.params, List.cons_append, List.nodup_cons, List.mem_append, List.mem_singleton, not_or,
    List.nodup_append] at hnodup
  obtain ⟨⟨hup, hne⟩, hdistinct, -, hapart⟩ := hnodup
  exact ⟨hup, hne, hdistinct, fun hmem => hapart _ hmem _ List.mem_cons_self rfl⟩

section
variable {inputs : List Var} {steps : Block} (hr : Accepted f r steps) (upstream primal : Var)
include hr

theorem Accepted.start_upstream : r.start upstream inputs primal r.upstream = upstream := by
  obtain ⟨hup, hne, -, -⟩ := hr.distinct
  rw [start, setAll_of_notMem hup, Subst.set, if_neg hne, Subst.set, if_pos rfl]

theorem Accepted.start_primal : r.start upstream inputs primal r.primal = primal := by
  rw [start, setAll_of_notMem hr.distinct.2.2.2, Subst.set, if_pos rfl]

theorem Accepted.start_getElem? {i : Nat} {w : Var} (hv : r.inputs[i]? = some v)
    (hw : inputs[i]? = some w) : r.start upstream inputs primal v = w :=
  setAll_of_getElem? hr.distinct.2.2.1 hv hw

/-- What stands for the parameters of a rule at the start. -/
theorem Accepted.start_cases (hinputs : inputs.length = r.inputs.length) (hv : v ∈ f.params) :
    v = r.upstream ∧ r.start upstream inputs primal v = upstream ∨
      (∃ w, (v, w) ∈ r.inputs.zip inputs ∧ r.start upstream inputs primal v = w) ∨
      v = r.primal ∧ r.start upstream inputs primal v = primal := by
  rw [hr.params] at hv
  simp only [List.cons_append, List.mem_cons, List.mem_append, List.not_mem_nil, or_false] at hv
  rcases hv with rfl | hv | rfl
  · exact .inl ⟨rfl, hr.start_upstream upstream primal⟩
  · obtain ⟨i, hi⟩ := List.mem_iff_getElem?.mp hv
    have hlt : i < r.inputs.length := (List.getElem?_eq_some_iff.mp hi).1
    obtain ⟨w, hw⟩ : ∃ w, inputs[i]? = some w := ⟨_, List.getElem?_eq_getElem (by omega)⟩
    exact .inr (.inl ⟨w, List.mem_of_getElem? (List.getElem?_zip_eq_some.mpr ⟨hi, hw⟩),
      hr.start_getElem? upstream primal hi hw⟩)
  · exact .inr (.inr ⟨rfl, hr.start_primal upstream primal⟩)

end

theorem ofFunc_returns (h : ofFunc f = .ok r) : f.returns = [.real] := by
  unfold ofFunc at h
  dsimp only at h
  split at h
  · cases h
  rename_i hreturns
  exact not_ne_iff.mp hreturns

/-- What a rule returns is real. -/
theorem result_real (h : ofFunc r.func = .ok r) : r.func.varTy r.result = .real := by
  obtain ⟨steps, hr⟩ := accepted_of_ofFunc h
  have hfits := r.func.fits_of_isValid hr.valid
  rw [hr.body, blockFits_append] at hfits
  have hret : [r.result].map r.func.varTy = r.func.returns := hfits.2.1
  rw [ofFunc_returns h] at hret
  exact (List.cons.inj hret).1

/-- The variables that a rule is inlined for are in scope where the rule reads them, and real
where it computes with them. -/
structure Sits (r : Rule) (g : Func) (D : Finset Var) (upstream : Var) (inputs : List Var)
    (primal : Var) : Prop where
  upstream : upstream ∈ D ∧ g.varTy upstream = .real
  count : inputs.length = r.inputs.length
  inputs : ∀ p ∈ r.inputs.zip inputs, (p.1 ∈ r.reads → p.2 ∈ D) ∧
    (p.1 ∈ r.computes → g.varTy p.2 = .real)
  primal : (r.primal ∈ r.reads → primal ∈ D) ∧ (r.primal ∈ r.computes → g.varTy primal = .real)

theorem Sits.mono {D' : Finset Var} {upstream primal : Var} {inputs : List Var}
    (h : r.Sits g D upstream inputs primal) (hD : D ⊆ D') : r.Sits g D' upstream inputs primal where
  upstream := ⟨hD h.upstream.1, h.upstream.2⟩
  count := h.count
  inputs := fun p hp => ⟨fun hread => hD ((h.inputs p hp).1 hread), (h.inputs p hp).2⟩
  primal := ⟨fun hread => hD (h.primal.1 hread), h.primal.2⟩

theorem Sits.stands {upstream primal : Var} {inputs : List Var} (hr : ofFunc r.func = .ok r)
    (h : r.Sits g D upstream inputs primal) :
    Stands r.func g r r.func.params.toFinset (r.start upstream inputs primal) D := by
  obtain ⟨steps, haccepted⟩ := accepted_of_ofFunc hr
  have hreal := (ofFunc_params hr).2
  constructor
  · intro v hv hread
    rw [List.mem_toFinset] at hv
    rcases haccepted.start_cases upstream primal h.count hv with
      ⟨-, hstart⟩ | ⟨w, hw, hstart⟩ | ⟨rfl, hstart⟩
    · rw [hstart]
      exact h.upstream.1
    · rw [hstart]
      exact (h.inputs _ hw).1 hread
    · rw [hstart]
      exact h.primal.1 hread
  · intro v hv hcompute
    rw [List.mem_toFinset] at hv
    rw [hreal v hv]
    rcases haccepted.start_cases upstream primal h.count hv with
      ⟨-, hstart⟩ | ⟨w, hw, hstart⟩ | ⟨rfl, hstart⟩
    · rw [hstart]
      exact h.upstream.2
    · rw [hstart]
      exact (h.inputs _ hw).2 hcompute
    · rw [hstart]
      exact h.primal.2 hcompute

/-- **Inlined rules are well formed**, and their result is a real in scope. -/
theorem inline_formed {upstream primal out : Var} {inputs : List Var} (hr : ofFunc r.func = .ok r)
    (h : r.Sits g D upstream inputs primal) (hD : Below D l) (hg : l'.Le (.ofFunc g))
    (hinline : r.inline l upstream inputs primal = (stmts, out, l')) :
    Formed g D l l' stmts ∧ out ∈ blockScope D stmts ∧ g.varTy out = .real := by
  obtain ⟨steps, haccepted⟩ := accepted_of_ofFunc hr
  obtain ⟨σ', hsteps, rfl⟩ := inline_eq_iff.mp hinline
  have hscoped := r.func.scoped_of_isValid haccepted.valid
  have hfits := r.func.fits_of_isValid haccepted.valid
  rw [haccepted.body, inlineSteps_concat_ret] at hsteps
  rw [haccepted.body, blockScoped_append] at hscoped
  rw [haccepted.body, blockFits_append] at hfits
  have hreads : readsOf steps ⊆ r.reads := by
    intro v hv
    rw [reads, haccepted.body, readsOf_append]
    exact List.mem_cons_of_mem _ (List.mem_append_left _ hv)
  have hcomputes : computesOf steps ⊆ r.computes := by
    intro v hv
    rw [computes, haccepted.body, computesOf_append]
    exact List.mem_cons_of_mem _ (List.mem_append_left _ hv)
  obtain ⟨hformed, hstands⟩ := inlineSteps_formed haccepted.steps hscoped.1 hfits.1 hreads hcomputes
    hD hg (h.stands hr) hsteps
  have hresult : r.result ∈ blockScope r.func.params.toFinset steps :=
    hscoped.2.1 r.result List.mem_cons_self
  refine ⟨hformed, hstands.scope _ hresult List.mem_cons_self, ?_⟩
  rw [hstands.types _ hresult List.mem_cons_self, result_real hr]

end Rule

end Backsweep
