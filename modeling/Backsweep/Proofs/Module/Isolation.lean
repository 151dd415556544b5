import Mathlib
import Backsweep.Module.Optimize
import Backsweep.Proofs.Diff.Emission

/-!
# Failures stay in their function

Every marked function is differentiated on its own. What becomes of it is said here
without the loop over the module, and the module is put together from that.

* `Module.Derives`, `Module.Fails`: a function alone, in one new session;
* `Module.Adds`: what a marked function adds to the module;
* `Func.Forwards`: a function that only calls for a derivative with a graph;
* `Module.optimizeFuncs_ok`, `Module.optimizeFuncs_failed`: the loop over the module;
* `Module.optimize_isolates`: how a module is differentiated.
-/

namespace Backsweep

/-! ## Marks -/

namespace Func

def isMarked (f : Func) (m : Markers) : Bool :=
  (f.attr? m.optimize).isSome || (f.attr? m.secondOrder).isSome

/-- The arguments that select the input. Those of the mark for second derivatives only
count if it is the only mark. -/
inductive Selects (f : Func) (m : Markers) : List String → Prop
  | first {a} (mark : f.attr? m.optimize = some a) : Selects f m a.args
  | second {a} (alone : f.attr? m.optimize = none) (mark : f.attr? m.secondOrder = some a) :
      Selects f m a.args

theorem markerArgs?_eq_some {f : Func} {m : Markers} {args : List String} :
    f.markerArgs? m = some args ↔ f.Selects m args := by
  unfold markerArgs?
  constructor
  · intro h
    obtain ⟨a, ha, rfl⟩ := Option.map_eq_some_iff.mp h
    cases hfirst : f.attr? m.optimize with
    | some b =>
      rw [hfirst] at ha
      cases ha
      exact .first hfirst
    | none =>
      rw [hfirst] at ha
      exact .second hfirst ha
  · rintro (hfirst | ⟨hfirst, hsecond⟩)
    · rw [hfirst]
      rfl
    · rw [hfirst, hsecond]
      rfl

theorem markerArgs?_eq_none {f : Func} {m : Markers} :
    f.markerArgs? m = none ↔ f.isMarked m = false := by
  unfold markerArgs? isMarked
  cases f.attr? m.optimize <;> cases f.attr? m.secondOrder <;> simp

end Func

/-! ## One function -/

/-- A session in which nothing was generated yet. -/
def Options.session (o : Options) : Session := { context := { zero := o.zero, one := o.one } }

namespace Module

section
variable (c : Catalogue) (o : Options) (f : Func)

/-- What the marks of a function ask for can be generated: its pullback, and in the same
session its second derivative if there is a mark for it. -/
inductive Derives : Func → Option Func → Prop
  | first {args input g st} (marked : f.Selects o.markers args)
      (select : ActiveInput.select f args = .ok input)
      (pullback : Diff.pullback c f input o.session = .ok g st)
      (once : f.attr? o.markers.secondOrder = none) : Derives g none
  | second {args input g st a g' st'} (marked : f.Selects o.markers args)
      (select : ActiveInput.select f args = .ok input)
      (pullback : Diff.pullback c f input o.session = .ok g st)
      (twice : f.attr? o.markers.secondOrder = some a)
      (secondOrder : Diff.secondOrder c f input st = .ok g' st') : Derives g (some g')

/-- The function is marked, and the first step that fails has this error. -/
inductive Fails : DiffError → Prop
  | select {args e} (marked : f.Selects o.markers args)
      (select : ActiveInput.select f args = .error e) : Fails e
  | pullback {args input e st} (marked : f.Selects o.markers args)
      (select : ActiveInput.select f args = .ok input)
      (pullback : Diff.pullback c f input o.session = .error e st) : Fails e
  | secondOrder {args input g st a e st'} (marked : f.Selects o.markers args)
      (select : ActiveInput.select f args = .ok input)
      (pullback : Diff.pullback c f input o.session = .ok g st)
      (twice : f.attr? o.markers.secondOrder = some a)
      (secondOrder : Diff.secondOrder c f input st = .error e st') : Fails e

end

variable {c : Catalogue} {o : Options} {f : Func}

theorem attempt_of_selects {args : List String} (h : f.Selects o.markers args) :
    attempt c o f =
      some (match differentiate c f args (f.attr? o.markers.secondOrder).isSome o.session with
        | .ok g _ => .ok g
        | .error e _ => .error e) := by
  rw [attempt, Func.markerArgs?_eq_some.mpr h]
  rfl

theorem differentiate_apply (c : Catalogue) (f : Func) (args : List String) (second : Bool)
    (st : Session) :
    differentiate c f args second st = match ActiveInput.select f args with
      | .error e => .error e st
      | .ok input => match Diff.pullback c f input st with
        | .error e st => .error e st
        | .ok g st =>
          if second then match Diff.secondOrder c f input st with
            | .error e st => .error e st
            | .ok g' st => .ok (input, g, some g') st
          else .ok (input, g, none) st := by
  unfold differentiate
  cases ActiveInput.select f args with
  | error e => rfl
  | ok input =>
    change (Diff.pullback c f input >>= _) st = _
    rw [bind_apply]
    dsimp only
    cases Diff.pullback c f input st with
    | error e st => rfl
    | ok g st =>
      cases second with
      | false => rfl
      | true =>
        dsimp only
        change (Diff.secondOrder c f input >>= _) st = _
        rw [bind_apply, if_pos rfl]
        cases Diff.secondOrder c f input st <;> rfl

theorem Derives.attempt {g : Func} {second : Option Func} (h : Derives c o f g second) :
    ∃ input, attempt c o f = some (.ok (input, g, second)) := by
  cases h with
  | @first _ input _ _ marked select pullback once =>
    refine ⟨input, ?_⟩
    rw [attempt_of_selects marked, differentiate_apply, select]
    simp only [pullback, once]
    rfl
  | @second _ input _ _ _ _ _ marked select pullback twice secondOrder =>
    refine ⟨input, ?_⟩
    rw [attempt_of_selects marked, differentiate_apply, select]
    simp only [pullback, twice, Option.isSome_some, if_true, secondOrder]

theorem Fails.attempt {e : DiffError} (h : Fails c o f e) : attempt c o f = some (.error e) := by
  cases h with
  | select marked select => rw [attempt_of_selects marked, differentiate_apply, select]
  | pullback marked select pullback =>
    rw [attempt_of_selects marked, differentiate_apply, select]
    simp only [pullback]
  | secondOrder marked select pullback twice secondOrder =>
    rw [attempt_of_selects marked, differentiate_apply, select]
    simp only [pullback, twice, Option.isSome_some, if_true, secondOrder]

/-- A function is not marked, or what is asked for can be generated, or it fails. -/
theorem attempt_cases (c : Catalogue) (o : Options) (f : Func) :
    (f.isMarked o.markers = false ∧ attempt c o f = none) ∨
      (f.isMarked o.markers = true ∧
        ((∃ g second, Derives c o f g second) ∨ ∃ e, Fails c o f e)) := by
  cases hargs : f.markerArgs? o.markers with
  | none =>
    refine .inl ⟨Func.markerArgs?_eq_none.mp hargs, ?_⟩
    rw [attempt, hargs]
    rfl
  | some args =>
    have hmarked : f.isMarked o.markers = true := by
      rw [← Bool.not_eq_false, ← Func.markerArgs?_eq_none, hargs]
      simp
    refine .inr ⟨hmarked, ?_⟩
    have hselects := Func.markerArgs?_eq_some.mp hargs
    cases hselect : ActiveInput.select f args with
    | error e => exact .inr ⟨e, .select hselects hselect⟩
    | ok input =>
      cases hpullback : Diff.pullback c f input o.session with
      | error e st => exact .inr ⟨e, .pullback hselects hselect hpullback⟩
      | ok g st =>
        cases htwice : f.attr? o.markers.secondOrder with
        | none => exact .inl ⟨g, none, .first hselects hselect hpullback htwice⟩
        | some a =>
          cases hsecond : Diff.secondOrder c f input st with
          | error e st' =>
            exact .inr ⟨e, .secondOrder hselects hselect hpullback htwice hsecond⟩
          | ok g' st' =>
            exact .inl ⟨g, some g', .second hselects hselect hpullback htwice hsecond⟩

theorem fails_iff {e : DiffError} : Fails c o f e ↔ attempt c o f = some (.error e) := by
  refine ⟨Fails.attempt, fun h => ?_⟩
  rcases attempt_cases c o f with ⟨-, hnone⟩ | ⟨-, ⟨g, second, hd⟩ | ⟨e', he⟩⟩
  · rw [hnone] at h
    cases h
  · obtain ⟨input, hattempt⟩ := hd.attempt
    rw [hattempt] at h
    cases h
  · rw [he.attempt] at h
    cases h
    exact he

/-- A function fails by itself, however failures are taken. -/
theorem fails_flag (flag : Bool) {e : DiffError} :
    Fails c { o with failOnError := flag } f e ↔ Fails c o f e := by
  rw [fails_iff, fails_iff]
  exact Iff.rfl

end Module

/-! ## Calls for a graph -/

/-- `w` takes the parameters of `f` and a real, calls for the derivative of `f` with all
of them, and returns what the call gives. -/
structure Func.Forwards (f w : Func) : Prop where
  name : w.name = f.name ++ ".pullback"
  attrs : w.attrs = []
  types : w.params.map w.varTy = f.params.map f.varTy ++ [.real]
  returns : w.returns = [.real]
  nodup : w.params.Nodup
  body : ∃ d, d ∉ w.params ∧ w.varTy d = .real ∧
    w.body = [.define d true (.call ("dynamic_ad." ++ f.name) w.params none), .ret [d]]

theorem freshVars_concat (n k : Nat) : freshVars n (k + 1) = freshVars n k ++ [⟨n + k⟩] := by
  simp [freshVars, List.range'_1_concat]

theorem Func.map_varTy_freshVars {f : Func} {infos rest : List VarInfo}
    (h : f.vars.toList = infos ++ rest) :
    (freshVars 0 infos.length).map f.varTy = infos.map VarInfo.ty := by
  refine List.ext_getElem (by simp [freshVars]) fun k hk hk' => ?_
  have hinfo : f.vars[k]? = infos[k]? := by
    rw [← Array.getElem?_toList, h, List.getElem?_append_left (by simpa using hk')]
  simp [freshVars, Func.varTy, Func.info, Array.getD_eq_getD_getElem?, hinfo,
    List.getElem?_eq_getElem (l := infos) (by simpa using hk')]

theorem Builder.param_eq (b : Builder) (base : String) (ty : Ty) :
    (b.param base ty).1 = ⟨b.locals.vars.size⟩ ∧
      (b.param base ty).2.params = b.params ++ [⟨b.locals.vars.size⟩] ∧
      (b.param base ty).2.name = b.name ∧ (b.param base ty).2.current = b.current ∧
      ∃ name, (b.param base ty).2.locals.vars = b.locals.vars.push ⟨name, ty, false⟩ := by
  obtain ⟨hvar, name, hvars⟩ := b.locals.declare_eq base ty false
  exact ⟨hvar, congrArg (fun v => b.params ++ [v]) hvar, rfl, rfl, name, hvars⟩

/-- The parameters of a function come one behind the other, with its types. -/
theorem Func.addParams_eq (f : Func) (ps : List Var) (b : Builder) :
    (f.addParams ps b).1 = freshVars b.locals.vars.size ps.length ∧
      (f.addParams ps b).2.params = b.params ++ freshVars b.locals.vars.size ps.length ∧
      (f.addParams ps b).2.name = b.name ∧ (f.addParams ps b).2.current = b.current ∧
      ∃ infos, infos.map VarInfo.ty = ps.map f.varTy ∧
        (f.addParams ps b).2.locals.vars.toList = b.locals.vars.toList ++ infos := by
  induction ps generalizing b with
  | nil => exact ⟨rfl, by simp [addParams, freshVars], rfl, rfl, [], rfl, by simp [addParams]⟩
  | cons p ps ih =>
    obtain ⟨hvar, hparams, hname, hcurrent, name, hvars⟩ := b.param_eq (f.varName p) (f.varTy p)
    obtain ⟨ihvar, ihparams, ihname, ihcurrent, infos, htypes, ihvars⟩ :=
      ih (b.param (f.varName p) (f.varTy p)).2
    rw [hvars, Array.size_push] at ihvar ihparams
    rw [hvars, Array.toList_push] at ihvars
    rw [hparams] at ihparams
    have hcons : f.addParams (p :: ps) b =
        ((b.param (f.varName p) (f.varTy p)).1 ::
          (f.addParams ps (b.param (f.varName p) (f.varTy p)).2).1,
        (f.addParams ps (b.param (f.varName p) (f.varTy p)).2).2) := rfl
    rw [hcons]
    refine ⟨?_, ?_, ihname.trans hname, ihcurrent.trans hcurrent, ⟨name, f.varTy p, false⟩ :: infos,
      by simp [htypes], ?_⟩
    · rw [hvar, ihvar, List.length_cons, freshVars_succ]
    · rw [ihparams, List.length_cons, freshVars_succ, List.append_assoc, List.singleton_append]
    · rw [ihvars, List.append_assoc, List.singleton_append]

/-- The variables of the call for a graph are those of the parameters, then the upstream
derivative and the result. -/
theorem Func.fallbackPullback_eq (f : Func) :
    ∃ infos upstream derivative, infos.map VarInfo.ty = f.params.map f.varTy ∧
      f.fallbackPullback = {
        name := f.name ++ ".pullback", attrs := [], returns := [.real]
        params := freshVars 0 (f.params.length + 1)
        vars := (infos ++ [⟨upstream, .real, false⟩, ⟨derivative, .real, false⟩]).toArray
        body := [.define ⟨f.params.length + 1⟩ true (.call ("dynamic_ad." ++ f.name)
          (freshVars 0 (f.params.length + 1)) none), .ret [⟨f.params.length + 1⟩]] } := by
  let b₁ := (f.addParams f.params { name := f.name ++ ".pullback" }).2
  let b₂ := (b₁.param "upstream" .real).2
  obtain ⟨hargs, hparams₁, hname₁, hcurrent₁, infos, htypes, hvars₁⟩ :=
    f.addParams_eq f.params { name := f.name ++ ".pullback" }
  obtain ⟨hupstream, hparams₂, hname₂, hcurrent₂, upstream, hvars₂⟩ :=
    b₁.param_eq "upstream" .real
  obtain ⟨hderivative, derivative, hvars₃⟩ := b₂.locals.declare_eq "derivative" .real false
  have hsize₁ : b₁.locals.vars.size = f.params.length := by
    rw [← Array.length_toList, hvars₁]
    simpa using congrArg List.length htypes
  have hsize₂ : b₂.locals.vars.size = f.params.length + 1 := by
    rw [hvars₂, Array.size_push, hsize₁]
  refine ⟨infos, upstream, derivative, htypes, ?_⟩
  have hfinish : f.fallbackPullback = {
      name := b₂.name, attrs := [], returns := [.real], params := b₂.params
      vars := (b₂.locals.declare "derivative" .real false).2.vars
      body := b₂.current ++
        [.define (b₂.locals.declare "derivative" .real false).1 true
          (.call ("dynamic_ad" ++ "." ++ f.name)
            ((f.addParams f.params { name := f.name ++ ".pullback" }).1 ++
              [(b₁.param "upstream" .real).1]) none)] ++
        [.ret [(b₂.locals.declare "derivative" .real false).1]] } := rfl
  have hname : b₂.name = f.name ++ ".pullback" := hname₂.trans hname₁
  have hcurrent : b₂.current = [] := hcurrent₂.trans hcurrent₁
  have hvars : (b₂.locals.declare "derivative" .real false).2.vars =
      (infos ++ [VarInfo.mk upstream .real false, VarInfo.mk derivative .real false]).toArray := by
    apply Array.toList_inj.mp
    rw [hvars₃, Array.toList_push, hvars₂, Array.toList_push, hvars₁]
    simp
  rw [hfinish, hname, hvars, hcurrent, hderivative, hsize₂, hparams₂, hparams₁, hargs, hupstream,
    hsize₁, freshVars_concat]
  simp

/-- **A function that can not be differentiated gets a call for a graph.** -/
theorem Func.fallbackPullback_forwards (f : Func) : f.Forwards f.fallbackPullback := by
  obtain ⟨infos, upstream, derivative, htypes, heq⟩ := f.fallbackPullback_eq
  have hlength : infos.length = f.params.length := by simpa using congrArg List.length htypes
  have hvars : f.fallbackPullback.vars.toList =
      (infos ++ [⟨upstream, .real, false⟩]) ++ [⟨derivative, .real, false⟩] := by
    rw [heq]
    simp
  have htable := Func.map_varTy_freshVars hvars
  have hparams : f.fallbackPullback.params = freshVars 0 (f.params.length + 1) := by rw [heq]
  refine ⟨by rw [heq], by rw [heq], ?_, by rw [heq], ?_, ⟨f.params.length + 1⟩, ?_, ?_, ?_⟩
  · rw [hparams, ← hlength]
    simpa [htypes] using htable
  · rw [hparams, freshVars]
    exact List.Nodup.map (fun _ _ h => by cases h; rfl) List.nodup_range'
  · rw [hparams, mem_freshVars]
    dsimp only
    omega
  · rw [heq, Func.varTy, Func.info, Array.getD_eq_getD_getElem?]
    simp [← hlength]
  · rw [heq]

/-! ## Modules -/

namespace Module

section
variable (c : Catalogue) (o : Options) (f : Func)

/-- What a marked function adds to a module: the functions that are generated for it, and
how its derivative is computed. -/
inductive Adds : List Func → Derivative → Prop
  | optimized {g second} (derives : Derives c o f g second) :
      Adds (g :: second.toList) ⟨f.name, .optimized second.isSome⟩
  | fallback {e w wrt} (fails : Fails c o f e) (forwards : f.Forwards w)
      (input : ∀ args, f.Selects o.markers args →
        wrt = (ActiveInput.select f args).toOption.bind f.wrt?) :
      Adds [w] ⟨f.name, .fallback wrt e⟩

/-- What the loop over a module adds for one function. -/
def part : Option (List Func × Derivative) :=
  (attempt c o f).map fun
    | .ok (_, pullback, second) =>
      (pullback :: second.toList, ⟨f.name, .optimized second.isSome⟩)
    | .error e => ([f.fallbackPullback], ⟨f.name, .fallback (fallbackWrt o f) e⟩)

end

variable {c : Catalogue} {o : Options} {f : Func} {fs : List Func}

/-- Marked functions add a part, and only optimized ones can be generated. -/
theorem part_spec (c : Catalogue) (o : Options) (f : Func) :
    (f.isMarked o.markers = false ∧ part c o f = none) ∨
      (f.isMarked o.markers = true ∧ ∃ p, part c o f = some p ∧ Adds c o f p.1 p.2 ∧
        ((∃ second, p.2.strategy = .optimized second) ↔ ∃ g second, Derives c o f g second)) := by
  rcases attempt_cases c o f with ⟨hmarked, hnone⟩ | ⟨hmarked, ⟨g, second, hd⟩ | ⟨e, he⟩⟩
  · exact .inl ⟨hmarked, by rw [part, hnone]; rfl⟩
  · obtain ⟨input, hattempt⟩ := hd.attempt
    refine .inr ⟨hmarked, _, by rw [part, hattempt]; rfl, .optimized hd, ?_⟩
    exact ⟨fun _ => ⟨g, second, hd⟩, fun _ => ⟨_, rfl⟩⟩
  · refine .inr ⟨hmarked, _, by rw [part, he.attempt]; rfl,
      .fallback he f.fallbackPullback_forwards fun args hargs => ?_, ?_⟩
    · rw [fallbackWrt, Func.markerArgs?_eq_some.mpr hargs]
      rfl
    · refine ⟨fun ⟨_, h⟩ => (nomatch h), fun ⟨g, second, hd⟩ => ?_⟩
      obtain ⟨input, hattempt⟩ := hd.attempt
      rw [he.attempt] at hattempt
      cases hattempt

theorem parts_spec (c : Catalogue) (o : Options) (fs : List Func) :
    List.Forall₂ (fun f p => Adds c o f p.1 p.2 ∧
        ((∃ second, p.2.strategy = .optimized second) ↔ ∃ g second, Derives c o f g second))
      (fs.filter (·.isMarked o.markers)) (fs.filterMap (part c o)) := by
  induction fs with
  | nil => exact .nil
  | cons f fs ih =>
    rcases part_spec c o f with ⟨hmarked, hnone⟩ | ⟨hmarked, p, hp, hadds⟩
    · rwa [List.filter_cons_of_neg (by simp [hmarked]), List.filterMap_cons_none hnone]
    · rw [List.filter_cons_of_pos (by simpa using hmarked), List.filterMap_cons_some hp]
      exact .cons hadds ih

/-- One round of the loop that does not fail. -/
theorem optimizeFunc_ok (h : o.failOnError = false ∨ ∀ e, ¬Fails c o f e) (log : Array Event) :
    ∃ log', optimizeFunc c o f log =
      .ok ((part c o f).toList.flatMap (·.1), (part c o f).toList.map (·.2)) log' := by
  unfold optimizeFunc part
  rcases attempt_cases c o f with ⟨-, hnone⟩ | ⟨-, ⟨g, second, hd⟩ | ⟨e, he⟩⟩
  · rw [hnone]
    exact ⟨_, rfl⟩
  · obtain ⟨input, hattempt⟩ := hd.attempt
    rw [hattempt]
    simp only [Option.map_some, Option.toList_some, List.flatMap_singleton, List.map_singleton]
    exact ⟨_, rfl⟩
  · rcases h with hoff | hnot
    · rw [he.attempt]
      simp only [hoff]
      exact ⟨_, rfl⟩
    · exact absurd he (hnot e)

/-- **The loop over a module puts the parts together.** -/
theorem optimizeFuncs_ok (fs : List Func) (h : o.failOnError = false ∨ ∀ f ∈ fs, ∀ e, ¬Fails c o f e)
    (log : Array Event) :
    ∃ log', optimizeFuncs c o fs log =
      .ok ((fs.filterMap (part c o)).flatMap (·.1), (fs.filterMap (part c o)).map (·.2)) log' := by
  induction fs generalizing log with
  | nil => exact ⟨log, rfl⟩
  | cons f fs ih =>
    obtain ⟨log₁, hfirst⟩ := optimizeFunc_ok (f := f) (h.imp id fun h => h f (by simp)) log
    obtain ⟨log₂, hrest⟩ := ih (h.imp id fun h g hg => h g (by simp [hg])) log₁
    refine ⟨log₂, ?_⟩
    rw [optimizeFuncs, bind_apply, hfirst]
    dsimp only
    rw [bind_apply, hrest]
    cases hp : part c o f with
    | none => rw [List.filterMap_cons_none hp]; rfl
    | some p => rw [List.filterMap_cons_some hp]; simp

/-- **The loop stops at the first function that fails,** if it is told so. -/
theorem optimizeFuncs_failed (hon : o.failOnError = true) {before : List Func}
    (after : List Func) {e : DiffError} (hbefore : ∀ g ∈ before, ∀ e, ¬Fails c o g e) (hf : Fails c o f e)
    (log : Array Event) :
    ∃ log', optimizeFuncs c o (before ++ f :: after) log = .error (.failed f.name e) log' := by
  induction before generalizing log with
  | nil =>
    refine ⟨log, ?_⟩
    have hfirst : optimizeFunc c o f log = .error (.failed f.name e) log := by
      rw [optimizeFunc, hf.attempt]
      simp only [hon]
      rfl
    rw [List.nil_append, optimizeFuncs, bind_apply, hfirst]
  | cons g before ih =>
    obtain ⟨log₁, hfirst⟩ :=
      optimizeFunc_ok (f := g) (.inr (hbefore g (by simp))) log
    obtain ⟨log₂, hrest⟩ := ih (fun g hg => hbefore g (by simp [hg])) log₁
    refine ⟨log₂, ?_⟩
    rw [List.cons_append, optimizeFuncs, bind_apply, hfirst]
    dsimp only
    rw [bind_apply, hrest]

/-- Where nothing fails, it makes no difference what failures are taken for. -/
theorem optimizeFuncs_congr (h : ∀ f ∈ fs, ∀ e, ¬Fails c o f e) :
    optimizeFuncs c { o with failOnError := true } fs =
      optimizeFuncs c { o with failOnError := false } fs := by
  induction fs with
  | nil => rfl
  | cons f fs ih =>
    have hfirst : optimizeFunc c { o with failOnError := true } f =
        optimizeFunc c { o with failOnError := false } f := by
      have hattempt (flag : Bool) : attempt c { o with failOnError := flag } f = attempt c o f := rfl
      unfold optimizeFunc
      rw [hattempt true, hattempt false]
      rcases attempt_cases c o f with ⟨-, hnone⟩ | ⟨-, ⟨g, second, hd⟩ | ⟨e, he⟩⟩
      · rw [hnone]
      · obtain ⟨input, hok⟩ := hd.attempt
        rw [hok]
      · exact absurd he (h f (by simp) e)
    rw [optimizeFuncs, optimizeFuncs, hfirst, ih fun g hg => h g (by simp [hg])]

/-- The name that is reported occurs twice, and one is reported if there is any. -/
theorem redefined?_spec (seen names : List String) (hseen : seen.Nodup) :
    match redefined? seen names with
    | none => (seen ++ names).Nodup
    | some name => 1 < (seen ++ names).count name := by
  induction names generalizing seen with
  | nil => simpa [redefined?] using hseen
  | cons name names ih =>
    rw [redefined?]
    by_cases hmem : seen.contains name = true
    · rw [if_pos hmem]
      have hcount := List.count_pos_iff.mpr (List.contains_iff_mem.mp hmem)
      simp only [List.count_append, List.count_cons_self]
      omega
    · rw [if_neg hmem]
      have hperm : (name :: seen ++ names).Perm (seen ++ name :: names) :=
        List.perm_middle.symm
      have hspec := ih (name :: seen) (List.nodup_cons.mpr ⟨by simpa using hmem, hseen⟩)
      split at hspec
      · exact hperm.nodup hspec
      · rwa [hperm.count_eq] at hspec

theorem optimize_of_funcs {generated : List Func} {derivatives : List Derivative}
    {log log' : Array Event} (h : optimizeFuncs c o fs log = .ok (generated, derivatives) log') :
    optimize c o fs log = match redefined? [] ((fs ++ generated).map Func.name) with
      | some name => .error (.redefined name) log'
      | none => .ok ⟨fs, generated, derivatives, o.markers⟩ log' := by
  rw [optimize, bind_apply, h]
  dsimp only
  cases redefined? [] ((fs ++ generated).map Func.name) <;> rfl

/-- **Failures stay in their function.** The marked functions of a module add one part
each, in order: what was asked for if it could be generated from this function alone, and
a call for a graph otherwise. If failures are accepted, a module is refused exactly if two
of its functions then have the same name, and otherwise it is the functions it was,
followed by the parts. If they are not, the first function that fails is reported, and
where none does nothing changes. -/
theorem optimize_isolates (c : Catalogue) (o : Options) (fs : List Func) (log : Array Event) :
    ∃ parts : List (List Func × Derivative),
      List.Forall₂ (fun f p => Adds c o f p.1 p.2 ∧
          ((∃ second, p.2.strategy = .optimized second) ↔ ∃ g second, Derives c o f g second))
        (fs.filter (·.isMarked o.markers)) parts ∧
      ((∃ e log', optimize c { o with failOnError := false } fs log = .error e log') ↔
        ¬((fs ++ parts.flatMap (·.1)).map Func.name).Nodup) ∧
      (∀ e log', optimize c { o with failOnError := false } fs log = .error e log' →
        ∃ name, e = .redefined name ∧
          1 < ((fs ++ parts.flatMap (·.1)).map Func.name).count name) ∧
      (∀ m log', optimize c { o with failOnError := false } fs log = .ok m log' →
        m = ⟨fs, parts.flatMap (·.1), parts.map (·.2), o.markers⟩) ∧
      (∀ before f after e, fs = before ++ f :: after →
        (∀ g ∈ before, ∀ e, ¬Fails c o g e) → Fails c o f e →
        ∃ log', optimize c { o with failOnError := true } fs log = .error (.failed f.name e) log') ∧
      ((∀ f ∈ fs, ∀ e, ¬Fails c o f e) →
        optimize c { o with failOnError := true } fs log =
          optimize c { o with failOnError := false } fs log) := by
  obtain ⟨log₁, hparts⟩ :=
    optimizeFuncs_ok (c := c) (o := { o with failOnError := false }) fs (.inl rfl) log
  have hoptimize := optimize_of_funcs hparts
  refine ⟨fs.filterMap (part c o), parts_spec c o fs, ?_⟩
  change optimize c { o with failOnError := false } fs log =
    match redefined? [] ((fs ++ (fs.filterMap (part c o)).flatMap (·.1)).map Func.name) with
    | some name => .error (.redefined name) log₁
    | none => .ok ⟨fs, (fs.filterMap (part c o)).flatMap (·.1),
        (fs.filterMap (part c o)).map (·.2), o.markers⟩ log₁ at hoptimize
  generalize fs.filterMap (part c o) = parts at hoptimize ⊢
  have hspec := redefined?_spec [] ((fs ++ parts.flatMap (·.1)).map Func.name) List.nodup_nil
  refine ⟨?_, ?_, ?_, ?_, ?_⟩
  · cases hname : redefined? [] ((fs ++ parts.flatMap (·.1)).map Func.name) with
    | none =>
      rw [hname] at hspec hoptimize
      simpa [hoptimize] using hspec
    | some name =>
      rw [hname] at hspec hoptimize
      refine ⟨fun _ hnodup => ?_, fun _ => ⟨_, _, hoptimize⟩⟩
      have hcount := List.nodup_iff_count_le_one.mp hnodup name
      exact absurd hspec (by simpa using hcount)
  · intro e log' h
    rw [hoptimize] at h
    split at h
    · rename_i name hname
      cases h
      rw [hname] at hspec
      exact ⟨name, rfl, hspec⟩
    · cases h
  · intro m log' h
    rw [hoptimize] at h
    split at h
    · cases h
    · cases h
      rfl
  · rintro before f after e rfl hbefore hf
    obtain ⟨log₂, hfailed⟩ := optimizeFuncs_failed (o := { o with failOnError := true }) rfl
      after (fun g hg e => mt (fails_flag true).mp (hbefore g hg e))
      ((fails_flag true).mpr hf) log
    exact ⟨log₂, by rw [optimize, bind_apply, hfailed]⟩
  · intro h
    rw [optimize, optimize, optimizeFuncs_congr h]

end Module

end Backsweep
