import Mathlib
import Backsweep.Proofs.Diff.Derivative

/-!
# Derivatives by a property

A load is from the input if it names the parameter and the field. The graph follows the
record instead. Both agree as long as the field of this record is accessed through the
parameter only. What else may hold the record is `Func.MayHold`.

* `property_pullback_gradient`: pullbacks by a property return the gradient then;
* `aliased_pullback_gradient`: through a copy of the parameter, they do not.
-/

namespace Backsweep

namespace Generation

variable {c : Catalogue} {f g : Func} {o : Var} {name : String} {withTapes : Bool}
  {mode : ReturnMode} {R : Type} {world : World R} {args : List (Value R)} {slots : List (Slot R)}
  {G : Graph R} {i : Nat}

/-- A gradient by a property starts on its seed. -/
theorem seeded_property (d : Generation c f (.property o name) withTapes mode g) (hc : c.Sound)
    (hf : f.Tabled) (ho : f.params[i]? = some o)
    (hsole : ∀ k, args[i]? = some (.obj k) → (f.holders args world.heap k).Sole o name)
    (hseed : (Wrt.property i name).seed args world.heap = .ok (slots, G)) :
    ((g.recordingOn world G).enter f.params slots).Seeded f (.property o name) := by
  obtain ⟨k, harg, rfl, rfl⟩ := Wrt.seed_property hseed
  exact f.seeded_property g world (List.nodup_append.mp (f.nodup_of_isValid d.valid)).1
    (fun w hw => Nat.lt_of_lt_of_le (hf.params w hw) (d.vars_le hc)) ho harg (hsole k harg)

end Generation

section
variable {R : Type} [Field R] [LawfulScalar R]

/-- **A pullback by a property returns the upstream derivative times the gradient**, if
every variable through which the function accesses a field of this name, and which may
hold the record, is the parameter itself. Whatever the arguments, the records and the
upstream derivative are: where the gradient by the property exists, the pullback returns
nothing else, and leaves the records as the function does, unless it runs into its step
limit. -/
theorem property_pullback_gradient {f g : Func} {o : Var} {name : String} {i : Nat}
    {st st' : Session} (hf : f.IsRead) (hcalls : f.CallsNothing) (ho : f.params[i]? = some o)
    (hzero : st.context.zero = 0.0)
    (hg : Diff.pullback .builtin f (.property o name) st = .ok g st') {x : Externs R} {limit : Nat}
    {args : List (Value R)} {world w : World R} {r : Gradient R}
    (hsole : ∀ k v, args[i]? = some (.obj k) → f.Accesses v name →
      f.MayHold args world.heap k (.var v) → v = o)
    (h : (⟨f, x, limit⟩ : Job R).gradient args (.property i name) world = .ok r w) (u : R)
    (limit' : Nat) :
    (∃ m, (⟨f, x, limit⟩ : Job R).run args (.new f world) = .ok [.real r.value] m ∧ m.world = w) ∧
      Ends ((⟨g, x, limit'⟩ : Job R).run (args ++ [.real u]) (.new g world))
        (fun vals m => vals = [.real (u * r.derivative)] ∧ m.world = w)
        (fun e _ => e = .stepLimit) := by
  obtain ⟨d, -, hdzero, -⟩ := Diff.reverse_eq_ok hg
  have hlit : Scalar.lit d.zero = (0 : R) := by
    rw [hdzero, hzero]
    exact LawfulScalar.lit_zero
  refine Generation.derivative_run rfl hf.tabled d.oneTape_of_tapeless hcalls
    (List.mem_of_getElem? ho) hlit ?_ ?_ h u limit'
  · intro slots G hseed
    exact d.seeded_property Catalogue.IsBuilt.builtin.sound hf.tabled ho
      (fun k hk v => hsole k v hk) hseed
  · exact fun slots G m slot hprimal t _ => hprimal.clear t

end

/-! ## Two records, and one record twice -/

/-- Reads one field of its first record through a copy and another one directly, and
the same field of its second record. -/
def Records.text : String :=
  "function %f(o: obj, q: obj) -> real {
    let p: obj = copy o
    let k: real = load p.k
    let x: real = load o.w
    let z: real = load q.w
    let y: real = fmul x, x
    let s: real = fmul y, k
    let r: real = fadd s, z
    return r
  }"

/-- Two records. -/
def Records.world : World ℚ where
  heap := ⟨#[[("w", .real 3), ("k", .real 2)], [("w", .real 5)]]⟩

def Records.works : Bool :=
  match Func.read Records.text with
  | .error _ => false
  | .ok f =>
    match Diff.pullback .builtin f (.property ⟨0⟩ "w") {} with
    | .error _ _ => false
    | .ok g _ =>
      match (⟨g, .none, 100⟩ : Job ℚ).run [.obj 0, .obj 1, .real 1] (.new g Records.world),
        (⟨f, .none, 100⟩ : Job ℚ).gradient [.obj 0, .obj 1] (.property 0 "w") Records.world with
      | .ok _ _, .ok _ _ =>
        decide (f.CallsNothing ∧ f.isValid ∧ f.params = [⟨0⟩, ⟨1⟩] ∧ f.accessors "w" = [⟨0⟩, ⟨1⟩])
      | _, _ => false

theorem Records.works_eq : Records.works = true := by decide +kernel

theorem Records.exists_pullback : ∃ f g st, Func.read Records.text = .ok f ∧
    Diff.pullback .builtin f (.property ⟨0⟩ "w") {} = .ok g st ∧
    (∃ vals m, (⟨g, .none, 100⟩ : Job ℚ).run [.obj 0, .obj 1, .real 1] (.new g Records.world) =
      .ok vals m) ∧
    (∃ r w, (⟨f, .none, 100⟩ : Job ℚ).gradient [.obj 0, .obj 1] (.property 0 "w") Records.world =
      .ok r w) ∧
    f.CallsNothing ∧ f.isValid ∧ f.params = [⟨0⟩, ⟨1⟩] ∧ f.accessors "w" = [⟨0⟩, ⟨1⟩] := by
  have h := Records.works_eq
  unfold Records.works at h
  split at h
  · cases h
  rename_i f hf
  split at h
  · cases h
  rename_i g st hg
  split at h
  swap
  · cases h
  rename_i hrun hr
  exact ⟨f, g, st, hf, hg, ⟨_, _, hrun⟩, ⟨_, _, hr⟩, of_decide_eq_true h⟩

/-- The second record is not the first one, so its field may have the same name. -/
theorem records_pullback_gradient : ∃ f g st, Func.read Records.text = .ok f ∧
    Diff.pullback .builtin f (.property ⟨0⟩ "w") {} = .ok g st ∧
    ∃ (r : Gradient ℚ) (w : World ℚ) (m m' : Machine ℚ),
      (⟨f, .none, 100⟩ : Job ℚ).gradient [.obj 0, .obj 1] (.property 0 "w") Records.world =
        .ok r w ∧
      (⟨f, .none, 100⟩ : Job ℚ).run [.obj 0, .obj 1] (.new f Records.world) =
        .ok [.real r.value] m ∧
      (⟨g, .none, 100⟩ : Job ℚ).run [.obj 0, .obj 1, .real 1] (.new g Records.world) =
        .ok [.real (1 * r.derivative)] m' ∧ m'.world = m.world := by
  obtain ⟨f, g, st, hf, hg, ⟨vals, m', hrun⟩, ⟨r, w, hr⟩, hcalls, hvalid, hparams, haccess⟩ :=
    Records.exists_pullback
  have hread : f.IsRead := .inl ⟨_, hf⟩
  have hsole (k : Nat) (v : Var) (hk : [Value.obj 0, .obj 1][0]? = some (Value.obj k : Value ℚ))
      (hv : f.Accesses v "w")
      (hm : f.MayHold [.obj 0, .obj 1] Records.world.heap k (.var v)) : v = ⟨0⟩ := by
    have hmem := hv.mem_accessors
    rw [haccess] at hmem
    have hparam : v ∈ f.params := by rwa [hparams]
    obtain ⟨n, hn, hgiven⟩ := hm.given ((f.scoped_of_isValid hvalid).not_defined
      (List.mem_toFinset.mpr hparam) (hread.tabled.immutable v hparam))
    cases hk
    rw [hparams] at hn
    rcases n with _ | _ | n
    · simpa using hn.symm
    · simp at hgiven
    · simp at hn
  obtain ⟨⟨m, hplain, hm⟩, hends⟩ :=
    property_pullback_gradient hread hcalls (by rw [hparams]; rfl) rfl hg hsole hr 1 100
  have hends : Ends ((⟨g, .none, 100⟩ : Job ℚ).run [.obj 0, .obj 1, .real 1] (.new g Records.world))
      (fun vals m => vals = [.real (1 * r.derivative)] ∧ m.world = w)
      (fun e _ => e = .stepLimit) := hends
  rw [hrun] at hends
  obtain ⟨rfl, hw⟩ := hends
  exact ⟨f, g, st, hf, hg, r, w, m, m', hr, hplain, hrun, hw.trans hm.symm⟩

/-- Reads the field of its record through a copy. -/
def Aliased.text : String :=
  "function %f(o: obj) -> real {
    let p: obj = copy o
    let y: real = load p.w
    return y
  }"

def Aliased.world : World ℚ where
  heap := ⟨#[[("w", .real 3)]]⟩

def Aliased.differs : Bool :=
  match Func.read Aliased.text with
  | .error _ => false
  | .ok f =>
    match Diff.pullback .builtin f (.property ⟨0⟩ "w") {} with
    | .error _ _ => false
    | .ok g _ =>
      match (⟨g, .none, 100⟩ : Job ℚ).run [.obj 0, .real 1] (.new g Aliased.world),
        (⟨f, .none, 100⟩ : Job ℚ).gradient [.obj 0] (.property 0 "w") Aliased.world with
      | .ok [.real y] _, .ok r _ => decide (y = 0 ∧ r.derivative = 1)
      | _, _ => false

theorem Aliased.differs_eq : Aliased.differs = true := by decide +kernel

/-- Through a copy of the parameter, the pullback returns zero where the gradient is
one. -/
theorem aliased_pullback_gradient : ∃ f g st, Func.read Aliased.text = .ok f ∧
    Diff.pullback .builtin f (.property ⟨0⟩ "w") {} = .ok g st ∧
    ∃ (r : Gradient ℚ) (w : World ℚ) (m : Machine ℚ),
      (⟨f, .none, 100⟩ : Job ℚ).gradient [.obj 0] (.property 0 "w") Aliased.world = .ok r w ∧
      (⟨g, .none, 100⟩ : Job ℚ).run [.obj 0, .real 1] (.new g Aliased.world) = .ok [.real 0] m ∧
      1 * r.derivative ≠ 0 := by
  have h := Aliased.differs_eq
  unfold Aliased.differs at h
  split at h
  · cases h
  rename_i f hf
  split at h
  · cases h
  rename_i g st hg
  split at h
  swap
  · cases h
  rename_i y m r w hrun hr
  obtain ⟨rfl, hone⟩ := of_decide_eq_true h
  exact ⟨f, g, st, hf, hg, r, w, m, hr, hrun, by simp [hone]⟩

end Backsweep
