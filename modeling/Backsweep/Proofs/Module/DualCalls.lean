import Mathlib
import Backsweep.Proofs.Module.DualGradient

/-!
# Gradients across calls

For a call, the graph holds one gradient for each argument. That is enough, as the
tangent of what is called is linear in the tangents of the arguments.

* `Dual.combination`: the linear map that takes the tangents of arguments;
* `Module.call_linear`: a call on dual numbers combines the gradients of the function
  that is called;
* `Module.call_inStep`: graphs and dual numbers agree on calls, at any depth;
* `Module.gradient_eq_tangent`: gradients of a module are runs on dual numbers.
-/

namespace Backsweep

variable {R : Type} [Field R] [LawfulScalar R]

/-! ## Tangents of all arguments at once -/

/-- Every argument has a tangent of its own. -/
def basis (args : List (Value R)) : List (Value (Dual R (ℕ → R))) :=
  args.mapIdx fun i v => v.map fun x => ⟨x, Pi.single i 1⟩

omit [LawfulScalar R] in
theorem basis_param (args : List (Value R)) (i : Nat) :
    (basis args).map (Value.map (Dual.map (LinearMap.proj i))) = (Wrt.param i).dualArgs args := by
  refine List.ext_getElem? fun k => ?_
  simp only [basis, Wrt.dualArgs, List.getElem?_map, List.getElem?_mapIdx, Option.map_map]
  refine congrArg (Option.map · args[k]?) (funext fun v => ?_)
  cases v with
  | real x =>
    by_cases hik : i = k
    · subst hik
      simp [Value.map, Value.withTangent, Dual.map]
    · simp [Value.map, Value.withTangent, Dual.map, hik]
  | _ => rfl

/-- The arguments from index `i` on give their tangents as weights. -/
def Dual.combination : Nat → List (Value (Dual R R)) → (ℕ → R) →ₗ[R] R
  | _, [] => 0
  | i, v :: vs => v.tangent • LinearMap.proj i + combination (i + 1) vs

namespace Dual

omit [LawfulScalar R]

theorem combination_single_of_lt {i k : Nat} (h : k < i) (vs : List (Value (Dual R R))) :
    combination i vs (Pi.single k 1) = 0 := by
  induction vs generalizing i with
  | nil => rfl
  | cons v vs ih =>
    have hne : i ≠ k := by omega
    simp [combination, ih (Nat.lt_succ_of_lt h), hne]

theorem combination_single (i : Nat) {k : Nat} {vs : List (Value (Dual R R))}
    {v : Value (Dual R R)} (hv : vs[k]? = some v) :
    combination i vs (Pi.single (i + k) 1) = v.tangent := by
  induction vs generalizing i k with
  | nil => cases hv
  | cons v' vs ih =>
    cases k with
    | zero =>
      cases hv
      simp [combination, combination_single_of_lt (Nat.lt_succ_self i)]
    | succ k =>
      have hrest := ih (i + 1) hv
      have hindex : i + 1 + k = i + (k + 1) := by omega
      rw [hindex] at hrest
      simp [combination, hrest]

/-- Any tangents are a combination of the basis. -/
theorem basis_combination (vs : List (Value (Dual R R))) :
    (basis (vs.map (Value.map Dual.value))).map (Value.map (Dual.map (combination 0 vs))) = vs := by
  refine List.ext_getElem? fun k => ?_
  simp only [basis, List.getElem?_map, List.getElem?_mapIdx, Option.map_map]
  cases hv : vs[k]? with
  | none => rfl
  | some v =>
    have hk := combination_single 0 hv
    rw [Nat.zero_add] at hk
    refine congrArg some ?_
    cases v with
    | real x => exact congrArg Value.real (Dual.ext rfl hk)
    | _ => rfl

end Dual

/-! ## The partial derivatives of a call -/

/-- The derivatives by the real arguments from index `i` on, and zero for the others. -/
def realParts (τ : ℕ → R) : Nat → List (Value R) → List R
  | _, [] => []
  | i, v :: vs => (if v.ty = .real then τ i else 0) :: realParts τ (i + 1) vs

namespace Module

omit [Field R] [LawfulScalar R] in
theorem partialsFrom_real [Scalar R] (j : Job R) (args : List (Value R)) (i : Nat) (x : R)
    (vs : List (Value R)) (w : World R) :
    partialsFrom j args i (.real x :: vs) w = match j.gradient args (.param i) w with
      | .ok g w => ((partialsFrom j args (i + 1) vs w).1.map (g.derivative :: ·),
          (partialsFrom j args (i + 1) vs w).2)
      | .error _ w => (none, w) := by
  rw [partialsFrom]
  change (match j.gradient args (.param i) w with
    | .ok g w => _
    | .error _ w => _ : StateM (World R) (Option (List R))) w = _
  cases j.gradient args (.param i) w <;> rfl

/-- What a module records for a call. -/
theorem partialsFrom_eq {j : Job R} {args : List (Value R)} {τ : ℕ → R}
    (hτ : ∀ i world r w, j.gradient args (.param i) world = .ok r w → r.derivative = τ i)
    {i : Nat} {vs : List (Value R)} {w w' : World R} {ps : List R}
    (h : partialsFrom j args i vs w = (some ps, w')) : ps = realParts τ i vs := by
  induction vs generalizing i w ps with
  | nil =>
    cases h
    rfl
  | cons v vs ih =>
    cases v with
    | real x =>
      rw [partialsFrom_real] at h
      cases hr : j.gradient args (.param i) w with
      | error e w₁ => rw [hr] at h; cases h
      | ok r w₁ =>
        rw [hr] at h
        obtain ⟨hps, hw⟩ := Prod.mk.inj h
        obtain ⟨ps', hps', rfl⟩ := Option.map_eq_some_iff.mp hps
        rw [hτ i w r w₁ hr, ih (Prod.ext hps' hw)]
        rfl
    | int _ | bool _ | obj _ =>
      obtain ⟨hps, hw⟩ := Prod.mk.inj h
      obtain ⟨ps', hps', rfl⟩ := Option.map_eq_some_iff.mp hps
      rw [LawfulScalar.lit_zero, ih (Prod.ext hps' hw)]
      rfl

end Module

omit [LawfulScalar R] in
/-- The tangent of a node for a call is the combination of the tangents of the
arguments. -/
theorem combination_slots (g : Option (Graph R)) (τ : ℕ → R) (i : Nat) (ss : List (Slot R)) :
    Dual.combination i (Slot.values (ss.map (Slot.dual g))) τ =
      ((ss.zip (realParts τ i (Slot.values ss))).map fun p => p.2 * p.1.tangentIn g).sum := by
  induction ss generalizing i with
  | nil => rfl
  | cons s ss ih =>
    have hfirst : (s.dual g).value.tangent * τ i =
        (if s.value.ty = .real then τ i else 0) * s.tangentIn g := by
      unfold Slot.dual
      cases s.value with
      | real x => exact mul_comm _ _
      | _ => exact (zero_mul _).trans (zero_mul _).symm
    simp only [List.map_cons, Slot.values, Dual.combination, realParts, List.zip_cons_cons,
      List.sum_cons, LinearMap.add_apply, LinearMap.smul_apply, LinearMap.proj_apply, smul_eq_mul,
      hfirst, ih (i + 1)]

/-! ## Calls -/

namespace Module

variable {m : Module} {f g : Func} {name : String}

theorem SelfContained.call_eq_ok {S : Type} [Scalar S] (hm : m.SelfContained f)
    (hname : m.Reaches f name) (hg : m.function? name = some g) {user : Externs S} {depth : Nat}
    {args : List (Value S)} {w w' : World S} {v : Value S}
    (h : (m.externs user (depth + 1)).call name args w = .ok v w') :
    ∃ vs n, ({ func := g, externs := m.externs user depth } : Job S).run args (.new g w) =
      .ok (v :: vs) n := by
  change m.call (m.externs user depth) user name args w = _ at h
  rw [hm.call_eq hname hg, bind_apply, Job.runFresh] at h
  dsimp only at h
  generalize hr : ({ func := g, externs := m.externs user depth } : Job S).run args (.new g w) = r
    at h ⊢
  cases r with
  | error e n => cases h
  | ok vs n =>
    cases vs with
    | nil => cases h
    | cons v' vs =>
      cases h
      exact ⟨vs, n, rfl⟩

theorem partials_eq {S : Type} [Scalar S] (hg : m.function? name = some g) (user : Externs S)
    (depth : Nat) (args : List (Value S)) (trace : Array (DynamicDerivative S)) :
    ((m.externs user (depth + 1)).partials name args trace).1 =
      (partialsFrom { func := g, externs := m.externs user depth } args 0 args { trace }).1 := by
  change (m.partials (m.externs user depth) user name args trace).1 = _
  simp only [partials, hg]
  rfl

variable (m g) in
/-- Gradients of the function by its parameters are runs on dual numbers. -/
def ForwardAt (R : Type) [Field R] [LawfulScalar R] (depth : Nat) : Prop :=
  ∀ (args : List (Value R)) (i : Nat) (world w : World R) (r : Gradient R),
    ({ func := g, externs := m.externs .none depth } : Job R).gradient args (.param i) world =
      .ok r w →
    ∃ vs world' n, ({ func := g, externs := m.externs .none depth } : Job (Dual R R)).run
      ((Wrt.param i).dualArgs args) (.new g world') = .ok (.real ⟨r.value, r.derivative⟩ :: vs) n

/-- **The tangent of a call is linear in those of its arguments.** -/
theorem call_linear (hm : m.SelfContained f) (hname : m.Reaches f name)
    (hg : m.function? name = some g) {depth : Nat} (hforward : ForwardAt m g R depth)
    {vs : List (Value (Dual R R))} {w w' : World (Dual R R)} {d : Dual R R}
    (h : (m.externs .none (depth + 1)).call name vs w = .ok (.real d) w') :
    ∃ τ : ℕ → R, d.tangent = Dual.combination 0 vs τ ∧ ∀ i world r w,
      ({ func := g, externs := m.externs .none depth } : Job R).gradient
        (vs.map (Value.map Dual.value)) (.param i) world = .ok r w → r.derivative = τ i := by
  -- the function is called with all tangents at once
  have halike := m.externs_alike hm (Dual.mapHom (Dual.combination 0 vs)) .none .none (depth + 1)
    name hname (basis (vs.map (Value.map Dual.value))) {} w
  have hbasis := Dual.basis_combination vs
  change (basis _).map (Value.map (Dual.mapHom (Dual.combination 0 vs)).toFun) = vs at hbasis
  rw [hbasis, h] at halike
  cases hall : (m.externs .none (depth + 1)).call name (basis (vs.map (Value.map Dual.value))) {}
    with
  | error e w₁ =>
    rw [hall] at halike
    exact halike.elim
  | ok v w₁ =>
    rw [hall] at halike
    cases v with
    | real y =>
      have hd : d = Dual.map (Dual.combination 0 vs) y := Value.real.inj halike.1
      refine ⟨y.tangent, congrArg Dual.tangent hd, fun i world r w₂ hr => ?_⟩
      -- the tangents for one argument are a projection
      obtain ⟨rest, n, hrun⟩ := hm.call_eq_ok hname hg hall
      obtain ⟨rest', world', n', hrun'⟩ := hforward _ i world w₂ r hr
      have hproj := (Dual.mapHom (LinearMap.proj i : (ℕ → R) →ₗ[R] R)).run_coupled
        (j := { func := g, externs := m.externs .none depth })
        (k := { func := g, externs := m.externs .none depth }) rfl rfl
        (m.externs_alike hm _ .none .none depth) (fun _ hcalls => .step hname hg hcalls)
        (hm.plain name g hname hg) (basis (vs.map (Value.map Dual.value))) {} world'
      have hparam : (basis (vs.map (Value.map Dual.value))).map
          (Value.map (Dual.mapHom (LinearMap.proj i : (ℕ → R) →ₗ[R] R)).toFun) = _ :=
        basis_param (vs.map (Value.map Dual.value)) i
      rw [hparam] at hproj
      dsimp only at hproj
      rw [hrun, hrun'] at hproj
      have hfirst := (List.cons.inj hproj.1).1
      exact congrArg Dual.tangent (Value.real.inj hfirst)
    | _ => cases halike.1

/-- A result that is not recorded has no tangent. -/
theorem plain_coupled {mach : Machine R} {n : Machine (Dual R R)}
    (hmn : (tangentCoupling R).machines mach n) {w : World R} {w' : World (Dual R R)}
    (hw : w.heap = mach.world.heap) (hw' : w'.heap = n.world.heap) {value : Value R}
    {v' : Value (Dual R R)} (hv' : v' = value.map fun x => ⟨x, 0⟩) :
    Coupled (tangentCoupling R) True (tangentCoupling R).slots
      (.ok { value } { mach with world := w }) (.ok { value := v' } { n with world := w' }) := by
  obtain ⟨G, hG, hrec⟩ := hmn.shared
  refine ⟨⟨(tangentCoupling R).fits_plain _ _, ?_⟩,
    hmn.update mach.graph w w' (fun _ hs => ⟨hs, rfl⟩) ⟨G, hG, by rw [hw, hw']; exact hrec⟩⟩
  change _ = Slot.dual mach.graph { value }
  rw [hv', Slot.dual, Slot.tangentIn_plain]

omit [LawfulScalar R] in
theorem sum_nodeless {G : Graph R} {ss : List (Slot R)} (h : ∀ s ∈ ss, s.node = none)
    (ps : List R) : ((ss.zip ps).map fun p => p.2 * p.1.tangentIn (some G)).sum = 0 := by
  refine List.sum_eq_zero fun y hy => ?_
  obtain ⟨p, hp, rfl⟩ := List.mem_map.mp hy
  have hnode := h p.1 (List.of_mem_zip hp).1
  exact (congrArg (p.2 * ·) (Slot.tangent_none hnode)).trans (mul_zero _)

/-- Graphs and dual numbers agree on calls. -/
theorem call_inStep (hm : m.SelfContained f) (hname : m.Reaches f name)
    (hg : m.function? name = some g) {depth : Nat} (hforward : ForwardAt m g R depth)
    {j : Job R} {k : Job (Dual R R)} (hj : j.externs = m.externs .none (depth + 1))
    (hk : k.externs = m.externs .none (depth + 1)) (args : List Var) (node : Option String) :
    (tangentCoupling R).EvalInStep True j k (.call name args node) := by
  intro mach n hmn
  rw [Job.eval_call, Job.eval_call]
  refine (Coupling.readAll hmn args).bind fun ss ss' m' n' hss hmn' => ?_
  obtain ⟨hfits, rfl⟩ := hss
  obtain ⟨G, hG, -⟩ := hmn'.shared
  have hvalues : (Slot.values (ss.map ((tangentCoupling R).slot m'.graph))).map
      (Value.map Dual.value) = Slot.values ss := values_dual ss
  have halike := m.externs_alike hm (Dual.valueHom R R) .none .none (depth + 1) name hname
    (Slot.values (ss.map ((tangentCoupling R).slot m'.graph))) n'.world m'.world
  change (Dual.valueHom R R).Alike _ _ _ (Externs.call _ _ ((Slot.values _).map
    (Value.map Dual.value)) _) at halike
  rw [hvalues] at halike
  have hsome : m'.graph.isSome = true := by rw [hG]; rfl
  have hnone : n'.graph.isSome = false := by rw [hmn'.plain]; rfl
  rw [Job.call_apply, Job.call_apply, hj, hk]
  cases hcall : (m.externs .none (depth + 1)).call name (Slot.values ss) m'.world with
  | error e w => exact .error_left _ _ _
  | ok value w =>
    cases hcall' : (m.externs .none (depth + 1)).call name
        (Slot.values (ss.map ((tangentCoupling R).slot m'.graph))) n'.world with
    | error e w' =>
      rw [hcall, hcall'] at halike
      exact halike.elim
    | ok v' w' =>
      rw [hcall, hcall'] at halike
      obtain ⟨hv, hw', hw⟩ := halike
      simp only [hsome, hnone, Bool.true_and, Bool.false_and, Bool.false_eq_true, if_false]
      cases value with
      | real x =>
        obtain ⟨t, rfl⟩ := Value.eq_real_of_map hv.symm
        obtain ⟨τ, ht, hτ⟩ := call_linear hm hname hg hforward hcall'
        rw [hvalues] at hτ
        have hsum := ht.trans (combination_slots m'.graph τ 0 ss)
        split
        · split
          · rename_i ps hps
            rw [partials_eq hg] at hps
            have hps' : ps = realParts τ 0 (Slot.values ss) := partialsFrom_eq hτ (Prod.ext hps rfl)
            subst hps'
            generalize (m.externs .none (depth + 1)).partials name (Slot.values ss) w.trace = asked
            exact record_coupled (w := { w with trace := asked.2 }) hmn' hfits rfl hw hw' hsum
          · exact .error_left _ _ _
        · rename_i hnodes
          refine plain_coupled hmn' hw hw' (congrArg Value.real (Dual.ext rfl (hsum.trans ?_)))
          rw [hG]
          refine sum_nodeless (fun s hs => ?_) _
          simp only [Value.ty, beq_self_eq_true, Bool.true_and, List.any_eq_true, not_exists,
            not_and, Option.not_isSome_iff_eq_none] at hnodes
          exact hnodes s hs
      | int _ | bool _ | obj _ =>
        exact plain_coupled hmn' hw hw' (Value.eq_of_map hv.symm (by rintro ⟨⟩) _)

/-- Graphs and dual numbers agree on calls, however deep they are. -/
theorem calls_inStep (hm : m.SelfContained f) (depth : Nat) {j : Job R} {k : Job (Dual R R)}
    (hj : j.externs = m.externs .none depth) (hk : k.externs = m.externs .none depth)
    (hname : m.Reaches f name) (args : List Var) (node : Option String) :
    (tangentCoupling R).EvalInStep True j k (.call name args node) := by
  induction depth generalizing j k name args node with
  | zero =>
    intro mach n hmn
    rw [Job.eval_call, Job.eval_call]
    refine (Coupling.readAll hmn args).bind fun ss ss' m' n' hss hmn' => ?_
    rw [Job.call_apply, hj]
    exact .error_left _ _ _
  | succ depth ih =>
    obtain ⟨g, hg⟩ := hm.known name hname
    refine call_inStep hm hname hg (fun args i world w r hr => ?_) hj hk args node
    obtain ⟨vs, n, hrun⟩ := Job.gradient_dual (k := { func := g, externs := m.externs .none depth })
      rfl rfl (fun callee hcalls => ih rfl rfl (.step hname hg hcalls)) hr
    exact ⟨vs, _, n, hrun⟩

/-! ## A module with calls -/

namespace CallSample

/-- The product of both arguments. -/
def scale : Func where
  name := "scale"
  attrs := []
  params := [⟨0⟩, ⟨1⟩]
  returns := [.real]
  vars := #[⟨"x", .real, false⟩, ⟨"y", .real, false⟩, ⟨"p", .real, false⟩]
  body := [.define ⟨2⟩ true (.op .fmul [⟨0⟩, ⟨1⟩]), .ret [⟨2⟩]]

def square : Func where
  name := "square"
  attrs := []
  params := [⟨0⟩]
  returns := [.real]
  vars := #[⟨"x", .real, false⟩, ⟨"p", .real, false⟩]
  body := [.define ⟨1⟩ true (.call "scale" [⟨0⟩, ⟨0⟩] none), .ret [⟨1⟩]]

/-- Squares a field, scales it by an argument and returns it by way of the record. -/
def grow : Func where
  name := "grow"
  attrs := []
  params := [⟨0⟩, ⟨1⟩]
  returns := [.real]
  vars := #[⟨"o", .obj, false⟩, ⟨"x", .real, false⟩, ⟨"k", .real, false⟩, ⟨"q", .real, false⟩,
    ⟨"p", .real, false⟩, ⟨"r", .real, false⟩]
  body := [.define ⟨2⟩ true (.load ⟨0⟩ "k"), .define ⟨3⟩ true (.call "square" [⟨2⟩] none),
    .define ⟨4⟩ true (.call "scale" [⟨3⟩, ⟨1⟩] none), .store ⟨0⟩ "k" ⟨4⟩,
    .define ⟨5⟩ true (.load ⟨0⟩ "k"), .ret [⟨5⟩]]

def growth : Module where
  primals := [scale, square, grow]
  generated := []
  derivatives := []
  markers := {}

theorem reaches {name : String} (h : growth.Reaches grow name) :
    name = "square" ∨ name = "scale" := by
  induction h with
  | direct hcalls =>
    obtain ⟨dst, decl, args, node, ha⟩ := hcalls
    simp only [grow, blockAtoms, Stmt.atoms, List.cons_append, List.nil_append, List.mem_cons,
      Stmt.define.injEq, Expr.call.injEq, List.not_mem_nil, reduceCtorEq, and_false, false_or,
      or_false] at ha
    rcases ha with ⟨-, -, rfl, -⟩ | ⟨-, -, rfl, -⟩
    · exact .inl rfl
    · exact .inr rfl
  | step _ hg hcalls ih =>
    obtain ⟨dst, decl, args, node, ha⟩ := hcalls
    rcases ih with rfl | rfl
    · cases hg.symm.trans (by rfl : growth.function? "square" = some square)
      simp only [square, blockAtoms, Stmt.atoms, List.cons_append, List.nil_append, List.mem_cons,
        Stmt.define.injEq, Expr.call.injEq, List.not_mem_nil, reduceCtorEq, or_false] at ha
      exact .inr ha.2.2.1
    · cases hg.symm.trans (by rfl : growth.function? "scale" = some scale)
      simp [scale, blockAtoms, Stmt.atoms] at ha

theorem selfContained : growth.SelfContained grow where
  reverse name h := by rcases reaches h with rfl | rfl <;> decide +kernel
  dynamic name h := by rcases reaches h with rfl | rfl <;> decide +kernel
  known name h := by
    rcases reaches h with rfl | rfl
    · exact ⟨square, rfl⟩
    · exact ⟨scale, rfl⟩
  plain name g h hg := by
    rintro ⟨a, ha, huses⟩
    rcases reaches h with rfl | rfl
    · cases hg.symm.trans (by rfl : growth.function? "square" = some square)
      simp only [square, blockAtoms, Stmt.atoms, List.cons_append, List.nil_append, List.mem_cons,
        List.not_mem_nil, or_false] at ha
      rcases ha with rfl | rfl <;> cases huses
    · cases hg.symm.trans (by rfl : growth.function? "scale" = some scale)
      simp only [scale, blockAtoms, Stmt.atoms, List.cons_append, List.nil_append, List.mem_cons,
        List.not_mem_nil, or_false] at ha
      rcases ha with rfl | rfl <;> cases huses

/-- A record whose field is three. -/
def world : World ℚ where
  heap := ⟨#[[("k", .real 3)]]⟩

/-- The job of the sample, over any scalars. -/
def job (S : Type) [Scalar S] : Job S :=
  { func := grow, externs := growth.externs .none 3, limit := 100 }

theorem gradient_grow : ∃ w, (job ℚ).gradient [.obj 0, .real 5] (.property 0 "k") world =
    .ok ⟨45, 30⟩ w := by
  have h : (match (job ℚ).gradient [.obj 0, .real 5] (.property 0 "k") world with
      | .ok r _ => decide (r.value = 45 ∧ r.derivative = 30)
      | .error _ _ => false) = true := by decide +kernel
  cases hr : (job ℚ).gradient [.obj 0, .real 5] (.property 0 "k") world with
  | error e w => rw [hr] at h; cases h
  | ok r w =>
    rw [hr] at h
    obtain ⟨hvalue, hderivative⟩ := of_decide_eq_true h
    obtain ⟨value, derivative⟩ := r
    cases hvalue
    cases hderivative
    exact ⟨w, rfl⟩

end CallSample

/-! ## Gradients of modules -/

/-- **Gradients are tangents.** Where the gradient of a function of a module is known, the
function returns on dual numbers, and its first result has the derivative as its
tangent. -/
theorem gradient_eq_tangent (hm : m.SelfContained f) (depth limit : Nat) (args : List (Value R))
    (wrt : Wrt) (world w : World R) (r : Gradient R)
    (h : ({ func := f, externs := m.externs .none depth, limit } : Job R).gradient args wrt world =
      .ok r w) :
    ∃ vs n, ({ func := f, externs := m.externs .none depth, limit } : Job (Dual R R)).run
        (wrt.dualArgs args) (.new f { heap := wrt.dualHeap args world.heap }) =
      .ok (.real ⟨r.value, r.derivative⟩ :: vs) n :=
  Job.gradient_dual (k := { func := f, externs := m.externs .none depth, limit }) rfl rfl
    (fun _ hcalls => calls_inStep hm depth rfl rfl (.direct hcalls)) h

/-- The field `k` and the argument five give `5 * k * k`, by the record and two levels of
calls. -/
theorem growth_gradient_eq_tangent : CallSample.growth.SelfContained CallSample.grow ∧
    (∃ w, (CallSample.job ℚ).gradient [.obj 0, .real 5] (.property 0 "k") CallSample.world =
      .ok ⟨45, 30⟩ w) ∧
    ∃ vs n, (CallSample.job (Dual ℚ ℚ)).run
        ((Wrt.property 0 "k").dualArgs [.obj 0, .real 5])
        (.new CallSample.grow
          { heap := (Wrt.property 0 "k").dualHeap [.obj 0, .real 5] CallSample.world.heap }) =
      .ok (.real ⟨45, 30⟩ :: vs) n := by
  obtain ⟨w, hw⟩ := CallSample.gradient_grow
  exact ⟨CallSample.selfContained, ⟨w, hw⟩, gradient_eq_tangent CallSample.selfContained 3 100
    [.obj 0, .real 5] (.property 0 "k") CallSample.world w ⟨45, 30⟩ hw⟩

end Module

end Backsweep
