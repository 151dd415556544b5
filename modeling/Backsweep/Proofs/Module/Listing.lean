import Mathlib
import Backsweep.Proofs.Module.Isolation
import Backsweep.Proofs.Run.Renaming
import Backsweep.Proofs.Syntax.Resolution
import Backsweep.Proofs.Syntax.RoundTrip

/-!
# Texts of modules

The text of a module lists its functions. It reads as the functions of the module, with
their variables numbered in the order of the text, if all names in it mean their variables.

* `Func.rule_of_readAll`, `Func.readAll_of_tokens`: lists of functions and their tokens;
* `Func.Alike`: two functions that differ in how their variables are numbered;
* `Func.Agrees`: two functions whose runs end the same way;
* `Module.text_reads_back_iff`: which texts of modules mean the module.
-/

namespace Backsweep

/-! ## Lists of functions -/

namespace Reader

/-- The functions of a list obey the rules. It is known at its end whether all of the text
was valid, unless the fuel came to an end. -/
theorem ensures_funcs {c : Cursor} {L : List Lexeme} {E : Env} (h : c.At L E) (n : Nat) :
    Ensures (funcs n) c fun fs c' => (∀ f ∈ fs, f.Rule) ∧
      (fs.length < n → (c'.invalid = false ↔ ∀ l ∈ L, l.token ≠ none)) := by
  induction n generalizing c E with
  | zero => exact ensures_pure ⟨by simp, fun hlt => absurd hlt (Nat.lt_irrefl 0)⟩
  | succ n ih =>
    intro fs c' hfuncs
    unfold funcs at hfuncs
    obtain ⟨t, c₁, hpeek, hfuncs⟩ := bind_eq_ok hfuncs
    cases t with
    | none =>
      cases hfuncs
      exact ⟨by simp, fun _ => valid_iff h hpeek⟩
    | some t =>
      obtain ⟨f, c₂, hfunc, hfuncs⟩ := bind_eq_ok hfuncs
      obtain ⟨fs', c₃, hrest, hfuncs⟩ := bind_eq_ok hfuncs
      cases hfuncs
      obtain ⟨hc₁, -⟩ := ensures_peek h _ _ hpeek
      obtain ⟨hf, E₂, hc₂⟩ := ensures_func hc₁ f c₂ hfunc
      obtain ⟨hfs, hvalid⟩ := ih hc₂ fs' _ hrest
      refine ⟨fun g hg => ?_, fun hlt => hvalid (Nat.lt_of_succ_lt_succ hlt)⟩
      rcases List.mem_cons.mp hg with rfl | hg
      · exact hf
      · exact hfs g hg

theorem length_tokens (f : Func) : 0 < f.tokens.length := by
  simp [Func.tokens, Func.coreTokens]

theorem length_flatMap_tokens (fs : List Func) : fs.length ≤ (fs.flatMap Func.tokens).length := by
  induction fs with
  | nil => exact Nat.le_refl 0
  | cons f fs ih =>
    have hf := length_tokens f
    rw [List.flatMap_cons, List.length_append, List.length_cons]
    omega

/-- **The tokens of functions read as these functions**, up to the choice of NaN. -/
theorem yields_funcs {fs : List Func} (hrule : ∀ f ∈ fs, f.Rule)
    (hreals : ∀ f ∈ fs, RealsReadBack f.body) :
    ∃ gs, List.Forall₂ (fun f g : Func => g.canonical = f.canonical) fs gs ∧
      ∀ E n, fs.length < n → ∃ E', Yields (funcs n) E (fs.flatMap Func.tokens) gs E' [] := by
  induction fs with
  | nil =>
    refine ⟨[], .nil, fun E n hn => ⟨E, ?_⟩⟩
    obtain ⟨n, rfl⟩ := Nat.exists_eq_succ_of_ne_zero (Nat.pos_iff_ne_zero.mp hn)
    unfold funcs
    exact yields_peek_nil.bind (yields_pure [])
  | cons f fs ih =>
    obtain ⟨gs, hcanonical, hgs⟩ := ih (fun f' hf' => hrule f' (List.mem_cons_of_mem f hf'))
      fun f' hf' => hreals f' (List.mem_cons_of_mem f hf')
    obtain ⟨g, E₁, hg, hfunc⟩ := yields_func (hrule f List.mem_cons_self)
      (hreals f List.mem_cons_self)
    refine ⟨g :: gs, .cons hg hcanonical, fun E n hn => ?_⟩
    obtain ⟨n, rfl⟩ := Nat.exists_eq_succ_of_ne_zero (Nat.pos_iff_ne_zero.mp (Nat.zero_lt_of_lt hn))
    obtain ⟨E', hrest⟩ := hgs E₁ n (Nat.lt_of_succ_lt_succ hn)
    obtain ⟨t, ts, htokens⟩ := List.exists_cons_of_length_pos (length_tokens f)
    refine ⟨E', ?_⟩
    unfold funcs
    have hpeek : Yields peek E ((f :: fs).flatMap Func.tokens) (some t) E
        (f.tokens ++ fs.flatMap Func.tokens) := by
      rw [List.flatMap_cons, htokens, List.cons_append]
      exact yields_peek t
    refine hpeek.bind ?_
    refine (hfunc E _).bind ?_
    exact hrest.bind (yields_pure (g :: gs))

end Reader

namespace Func

/-- **Functions of a list that was read obey the rules.** -/
theorem rule_of_readAll {text : String} {fs : List Func} (h : Func.readAll text = .ok fs) :
    ∀ f ∈ fs, f.Rule := by
  obtain ⟨c, hc⟩ := Reader.run_eq_ok h
  unfold Reader.all at hc
  obtain ⟨n, c₁, hfuel, hc⟩ := Reader.bind_eq_ok hc
  cases hfuel
  obtain ⟨fs', c₂, hfuncs, hc⟩ := Reader.bind_eq_ok hc
  obtain ⟨c₃, c₄, hget, hc⟩ := Reader.bind_eq_ok hc
  cases hget
  have hfs : fs' = fs := by
    split at hc
    · obtain ⟨_, _, hfail, -⟩ := Reader.bind_eq_ok hc
      cases hfail
    · cases hc
      rfl
  subst hfs
  exact (Reader.ensures_funcs (Reader.start_at text) _ _ _ hfuncs).1

/-- Tokens that read as a list of functions. -/
theorem readAll_of_tokens {fs : List Func} (hrule : ∀ f ∈ fs, f.Rule)
    (hreals : ∀ f ∈ fs, RealsReadBack f.body) {text : String}
    (htext : Token.tokens text.toList = (fs.flatMap Func.tokens).map some) :
    ∃ gs, Func.readAll text = .ok gs ∧
      List.Forall₂ (fun f g : Func => g.canonical = f.canonical) fs gs := by
  obtain ⟨gs, hcanonical, hyields⟩ := Reader.yields_funcs hrule hreals
  refine ⟨gs, ?_, hcanonical⟩
  have hlex : (Reader.start text).rest.map Lexeme.token = (fs.flatMap Func.tokens).map some := htext
  have hlength : fs.length < (Reader.start text).rest.length + 1 := by
    have hrest := congrArg List.length hlex
    simp only [List.length_map] at hrest
    have hfs := Reader.length_flatMap_tokens fs
    omega
  obtain ⟨E', hfuncs⟩ := hyields ⟨#[], []⟩ _ hlength
  obtain ⟨c', hread, -⟩ := hfuncs (Reader.start text) ⟨rfl, hlex⟩
  have hvalid : ∀ l ∈ Token.lex text, l.token ≠ none := by
    intro l hl hnone
    have hmem : none ∈ (fs.flatMap Func.tokens).map some := by
      rw [← hlex, ← hnone]
      exact List.mem_map_of_mem hl
    simp at hmem
  have hinvalid : c'.invalid = false := by
    refine ((Reader.ensures_funcs (Reader.start_at text) _ _ _ hread).2 ?_).mpr hvalid
    rw [← hcanonical.length_eq]
    exact hlength
  have hfuel : Reader.fuel (Reader.start text) =
      .ok ((Reader.start text).rest.length + 1, Reader.start text) := rfl
  have hget : (get : Reader.Read Reader.Cursor) c' = .ok (c', c') := rfl
  have hall : Reader.all (Reader.start text) = .ok (gs, c') := by
    unfold Reader.all
    rw [Reader.bind_of_ok hfuel, Reader.bind_of_ok hread, Reader.bind_of_ok hget, hinvalid]
    rfl
  exact Reader.run_of_ok hall

/-! ## Functions with other numbers -/

/-- The second function is the first one with its variables numbered differently, up to the
choice of NaN. -/
def Alike (f g : Func) : Prop := ∃ σ, f.canonical.Renumbers σ g.canonical

/-- Runs of both functions end with the same values or the same error and leave the same
records behind, whatever the scalars and the operations outside of them. -/
def Agrees (f g : Func) : Prop :=
  ∀ (R : Type) [Scalar R] (externs : Externs R) (limit : Nat) (args : List (Value R))
    (world : World R), (⟨g.canonical, externs, limit⟩ : Job R).runFresh args world =
      (⟨f.canonical, externs, limit⟩ : Job R).runFresh args world

variable {f g : Func}

theorem Rule.resolves (h : f.Rule) : f.Resolves := f.renumbers_self.resolves h

theorem Alike.resolves (h : f.Alike g) (hg : g.Rule) : f.Resolves := by
  obtain ⟨σ, hσ⟩ := h
  exact (hσ.resolves hg.canonical).of_canonical

theorem Alike.agrees (h : f.Alike g) (hf : f.Resolves) : f.Agrees g := by
  obtain ⟨σ, hσ⟩ := h
  have hword : ∀ v ∈ f.canonical.occurring, isWord (f.canonical.varName v) = true := by
    rw [f.occurring_canonical]
    exact hf.word
  intro R _ externs limit args world
  refine hσ.runFresh (fun v hv => lt_of_isWord (hword v hv)) (fun v hv => ?_) externs limit args
    world
  apply lt_of_isWord (f := g.canonical)
  rw [varName, hσ.info v hv]
  exact hword v hv

theorem realsReadBack_renumber (h : RealsReadBack f.body) : RealsReadBack f.renumber.body := by
  intro dst decl x hmem
  have hatoms : Stmt.define dst decl (.const (.real x)) ∈ (blockAtoms f.body).map
      (Stmt.rename f.number) := by
    rw [← blockAtoms_renameBlock]
    exact hmem
  obtain ⟨s, hs, heq⟩ := List.mem_map.mp hatoms
  cases s with
  | define dst' decl' e =>
    cases e with
    | const c =>
      cases heq
      exact h dst' decl x hs
    | _ => cases heq
  | _ => cases heq

theorem Resolves.closes (h : f.Resolves) (hreals : RealsReadBack f.body) :
    Closes f.text f.renumber.tokens := by
  rw [← h.renumbers.text]
  exact writes_annotated h.rule (realsReadBack_renumber hreals) (fun _ => writes_pure (.inl rfl)) ()

end Func

/-! ## Modules -/

namespace Module

theorem closes_texts {fs : List Func} (h : ∀ f ∈ fs, Closes f.text f.renumber.tokens) :
    Closes ("\n".intercalate (fs.map Func.text))
      ((fs.map Func.renumber).flatMap Func.tokens) := by
  induction fs with
  | nil => exact closes_empty
  | cons f fs ih =>
    have hf := h f List.mem_cons_self
    have hfs := ih fun f' hf' => h f' (List.mem_cons_of_mem f hf')
    cases fs with
    | nil =>
      have hlast := hf.append closes_empty
      rwa [String.append_empty] at hlast
    | cons f' fs =>
      rw [List.map_cons, List.map_cons, String.intercalate_cons_cons]
      have hall := (hf.append closes_newline).append hfs
      rwa [List.append_nil] at hall

/-- The texts of functions whose names mean their variables, one behind the other, read as
these functions with other numbers. -/
theorem readAll_texts {fs : List Func} (h : ∀ f ∈ fs, f.Resolves)
    (hreals : ∀ f ∈ fs, RealsReadBack f.body) :
    ∃ gs, Func.readAll ("\n".intercalate (fs.map Func.text)) = .ok gs ∧
      List.Forall₂ Func.Alike fs gs := by
  have htokens := closes_texts (fun f hf => (h f hf).closes (hreals f hf)) []
  rw [List.append_nil, Token.tokens_nil, List.append_nil] at htokens
  have hrules : ∀ g ∈ fs.map Func.renumber, g.Rule := by
    intro g hg
    obtain ⟨f, hf, rfl⟩ := List.mem_map.mp hg
    exact (h f hf).rule
  have hback : ∀ g ∈ fs.map Func.renumber, RealsReadBack g.body := by
    intro g hg
    obtain ⟨f, hf, rfl⟩ := List.mem_map.mp hg
    exact Func.realsReadBack_renumber (hreals f hf)
  obtain ⟨gs, hgs, hcanonical⟩ := Func.readAll_of_tokens hrules hback htokens
  refine ⟨gs, hgs, ?_⟩
  rw [List.forall₂_map_left_iff] at hcanonical
  refine ((List.forall₂_and_left _ _).mpr ⟨h, hcanonical⟩).imp fun f g hfg => ⟨f.number, ?_⟩
  rw [hfg.2]
  exact hfg.1.renumbers.canonical

theorem resolves_of_alike {fs gs : List Func} (h : List.Forall₂ Func.Alike fs gs)
    (hgs : ∀ g ∈ gs, g.Rule) : ∀ f ∈ fs, f.Resolves := by
  induction h with
  | nil => simp
  | cons hfg _ ih =>
    intro f' hf'
    rcases List.mem_cons.mp hf' with rfl | hf'
    · exact hfg.resolves (hgs _ List.mem_cons_self)
    · exact ih (fun g hg => hgs g (List.mem_cons_of_mem _ hg)) f' hf'

theorem primals_optimize {c : Catalogue} {o : Options} {primals : List Func} {M : Module}
    {events events' : Array Event} (h : Module.optimize c o primals events = .ok M events') :
    M.primals = primals := by
  cases hfuncs : optimizeFuncs c o primals events with
  | error e events₁ =>
    rw [optimize, bind_apply, hfuncs] at h
    cases h
  | ok r events₁ =>
    rw [optimize_of_funcs hfuncs] at h
    split at h
    · cases h
    · cases h
      rfl

/-- **The text of a module means the module exactly if the names in what was generated mean
their variables.** Then it reads as the same functions in the same order, and what it reads
as computes the same. -/
theorem text_reads_back_iff {c : Catalogue} {o : Options} {text : String} {primals : List Func}
    {M : Module} {events events' : Array Event} (hread : Func.readAll text = .ok primals)
    (h : Module.optimize c o primals events = .ok M events')
    (hreals : ∀ f ∈ M.functions, RealsReadBack f.body) :
    ((∃ fs, Func.readAll M.text = .ok fs ∧ List.Forall₂ Func.Alike M.functions fs) ↔
      ∀ f ∈ M.generated, f.Resolves) ∧
    ∀ fs, Func.readAll M.text = .ok fs → List.Forall₂ Func.Alike M.functions fs →
      List.Forall₂ Func.Agrees M.functions fs := by
  have hresolves {fs : List Func} (hfs : Func.readAll M.text = .ok fs)
      (halike : List.Forall₂ Func.Alike M.functions fs) : ∀ f ∈ M.functions, f.Resolves :=
    resolves_of_alike halike (Func.rule_of_readAll hfs)
  refine ⟨⟨?_, fun hgenerated => ?_⟩, fun fs hfs halike => ?_⟩
  · rintro ⟨fs, hfs, halike⟩ f hf
    exact hresolves hfs halike f (List.mem_append_right _ hf)
  · -- what was read resolves, and so does what was generated
    have hall : ∀ f ∈ M.functions, f.Resolves := by
      intro f hf
      rcases List.mem_append.mp hf with hf | hf
      · rw [primals_optimize h] at hf
        exact (Func.rule_of_readAll hread f hf).resolves
      · exact hgenerated f hf
    exact readAll_texts hall hreals
  · exact ((List.forall₂_and_left _ _).mpr ⟨hresolves hfs halike, halike⟩).imp fun f g hfg =>
      hfg.2.agrees hfg.1

/-- The module that the functions of a text are differentiated to. -/
def ofText? (c : Catalogue) (o : Options) (text : String) : Option Module :=
  match Func.readAll text with
  | .error _ => none
  | .ok primals => match Module.optimize c o primals #[] with
    | .error _ _ => none
    | .ok M _ => some M

theorem ofText?_eq_some {c : Catalogue} {o : Options} {text : String} {M : Module}
    (h : ofText? c o text = some M) : ∃ primals events,
      Func.readAll text = .ok primals ∧ Module.optimize c o primals #[] = .ok M events := by
  unfold ofText? at h
  split at h
  · cases h
  · rename_i primals hread
    split at h
    · cases h
    · rename_i M' events hoptimize
      cases h
      exact ⟨primals, events, hread, hoptimize⟩

/-- Names that are used again in blocks of their own, one of them that of the parameter. -/
def Nested.text : String :=
  "@optimize(x) function %f(x: real, n: int) -> real {
    let mut i: int = copy n
    while { let c: bool = ilt n, i } -> c { let x: int = isub i, n i = copy x }
    while { let c: bool = ilt n, i } -> c { i = isub i, n }
    return x
  }"

theorem nested_text_reads_back : ∃ M, ofText? .builtin {} Nested.text = some M ∧
    (∀ f ∈ M.functions, RealsReadBack f.body) ∧ (∀ f ∈ M.generated, f.Resolves) ∧
    ∃ fs, Func.readAll M.text = .ok fs ∧ List.Forall₂ Func.Alike M.functions fs ∧
      List.Forall₂ Func.Agrees M.functions fs := by
  have hcheck : (ofText? .builtin {} Nested.text).any (fun M =>
      decide (∀ f ∈ M.generated, f.Resolves) &&
        M.functions.all fun f => (blockAtoms f.body).all (!Scopes.isReal ·)) = true := by
    decide +kernel
  generalize Catalogue.builtin = c at hcheck ⊢
  obtain ⟨M, hM, hcheck⟩ := (Option.any_eq_true _ _).mp hcheck
  simp only [Bool.and_eq_true, decide_eq_true_eq, List.all_eq_true, Bool.not_eq_true'] at hcheck
  obtain ⟨hresolves, hplain⟩ := hcheck
  obtain ⟨primals, events, hread, hoptimize⟩ := ofText?_eq_some hM
  have hreals : ∀ f ∈ M.functions, RealsReadBack f.body := by
    intro f hf dst decl x hx
    cases hplain f hf _ hx
  obtain ⟨hiff, hagrees⟩ := text_reads_back_iff hread hoptimize hreals
  obtain ⟨fs, hfs, halike⟩ := hiff.mpr hresolves
  exact ⟨M, hM, hreals, hresolves, fs, hfs, halike, hagrees fs hfs halike⟩

/-- A declaration that takes the name of the parameter, in the block that the derivative
reads the parameter in. -/
def Shadowed.text : String :=
  "@optimize function %f(x: real) -> real { let x: real = fmul x, x return x }"

/-- The text does not read as the module: behind the declaration, the name of the parameter
means something else. -/
theorem shadowed_text_differs : ∃ M, ofText? .builtin {} Shadowed.text = some M ∧
    ∀ fs, Func.readAll M.text = .ok fs → ¬List.Forall₂ Func.Alike M.functions fs := by
  have hcheck : (ofText? .builtin {} Shadowed.text).any (fun M =>
      !decide (∀ f ∈ M.generated, f.Resolves)) = true := by
    decide +kernel
  generalize Catalogue.builtin = c at hcheck ⊢
  obtain ⟨M, hM, hcheck⟩ := (Option.any_eq_true _ _).mp hcheck
  simp only [Bool.not_eq_true', decide_eq_false_iff_not] at hcheck
  refine ⟨M, hM, fun fs hfs halike => hcheck fun f hf => ?_⟩
  exact resolves_of_alike halike (Func.rule_of_readAll hfs) f (List.mem_append_right _ hf)

end Module

end Backsweep
