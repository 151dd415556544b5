import Mathlib
import Backsweep.Proofs.Syntax.Renumbering
import Backsweep.Proofs.Syntax.Rereading

/-!
# Names that mean their variables

In a function a variable is its entry of the table, in a text it is a name, which means the
innermost variable that has it. A text means the function it shows if every name in it
means the variable it was written for.

* `Frames`: the variables of the scopes that are open;
* `Func.Means`: what the name of a variable means;
* `blockResolved`: all names of a block mean their variables;
* `Func.Resolves`: all names of a function do;
* `Func.resolves_iff`: these are the functions that can be numbered as the reader does it.
-/

namespace Backsweep

variable {v : Var} {s : Stmt} {b ss : Block} {vs : List Var} {e : Expr}
variable {w : Var}

/-! ## Scopes -/

/-- The variables declared in each open scope, the innermost one first, and in it the
latest one. -/
abbrev Frames := List (List Var)

namespace Frames

def enter (S : Frames) : Frames := [] :: S

def declare (S : Frames) (v : Var) : Frames := (v :: S.headD []) :: S.tail

/-- The scopes behind a statement. -/
def after (S : Frames) (s : Stmt) : Frames :=
  match s.decl? with
  | some v => S.declare v
  | none => S

/-- The scopes at the end of a block. -/
def behind (S : Frames) (b : Block) : Frames := b.foldl after S

theorem tail_after (S : Frames) (s : Stmt) : (S.after s).tail = S.tail := by
  unfold after
  split <;> rfl

theorem tail_behind (S : Frames) (b : Block) : (S.behind b).tail = S.tail := by
  induction b generalizing S with
  | nil => rfl
  | cons s b ih => exact (ih (S.after s)).trans (S.tail_after s)

theorem tail_behind_enter (S : Frames) (b : Block) : (S.enter.behind b).tail = S :=
  tail_behind S.enter b

variable {S : Frames}

theorem mem_declare : w ∈ (S.declare v).flatten ↔ w = v ∨ w ∈ S.flatten := by
  cases S with
  | nil => simp [declare]
  | cons frame S => simp [declare]

theorem mem_after : w ∈ (S.after s).flatten ↔ s.decl? = some w ∨ w ∈ S.flatten := by
  unfold after
  split
  · rename_i v hv
    rw [mem_declare, hv, Option.some.injEq, eq_comm]
  · rename_i hv
    simp [hv]

theorem mem_behind : w ∈ (S.behind b).flatten ↔ w ∈ blockDecls b ∨ w ∈ S.flatten := by
  induction b generalizing S with
  | nil => simp [behind, blockDecls]
  | cons s b ih =>
    have hstep : S.behind (s :: b) = (S.after s).behind b := rfl
    rw [hstep, ih, mem_after]
    simp only [blockDecls, List.mem_filterMap, List.exists_mem_cons_iff, or_assoc, or_left_comm]

end Frames

namespace Func

/-- The name of the variable means the variable. -/
structure Means (f : Func) (S : Frames) (v : Var) : Prop where
  word : isWord (f.varName v) = true
  free : isKeyword (f.varName v) = false
  found : S.flatten.find? (f.varName · == f.varName v) = some v

/-- The variable can be declared in the innermost scope. -/
structure Fresh (f : Func) (S : Frames) (v : Var) : Prop where
  word : isWord (f.varName v) = true
  free : isKeyword (f.varName v) = false
  new : ∀ w ∈ S.headD [], f.varName w ≠ f.varName v

theorem Means.mem {f : Func} {S : Frames} (h : f.Means S v) : v ∈ S.flatten :=
  List.mem_of_find?_eq_some h.found

end Func

/-! ## Code -/

/-- All names of an expression mean their variables, and what else is in it has a text. -/
def Expr.Resolved (f : Func) (S : Frames) : Expr → Prop
  | .const (.int n) => IsInt32 n
  | .const (.real _) | .const (.bool _) => True
  | .copy v => f.Means S v
  | .load v field => f.Means S v ∧ isWord field = true
  | .op opcode args => args.length = opcode.arity ∧ ∀ v ∈ args, f.Means S v
  | .call callee args node => isSigiled isNameChar callee = true ∧ (∀ v ∈ args, f.Means S v) ∧
      ∀ s ∈ node, isWord s = true
  | .pop t => t.level ≤ Token.maxIndex
  | .topIs t d => t.level ≤ Token.maxIndex ∧ IsInt32 d

mutual

/-- All names of a statement mean their variables. -/
def Stmt.Resolved (f : Func) (S : Frames) : Stmt → Prop
  | .define dst true e => e.Resolved f S ∧ f.Fresh S dst
  | .define dst false e => e.Resolved f S ∧ f.Means S dst
  | .store obj field val => f.Means S obj ∧ f.Means S val ∧ isWord field = true
  | .cond arms other => arms ≠ [] ∧ armsResolved f S arms ∧ blockResolved f S.enter other
  | .loop header test body => blockResolved f S.enter header ∧
      f.Means (S.enter.behind header) test ∧
      blockResolved f (S.enter.behind header).enter body
  | .doLoop body test => blockResolved f S.enter body ∧ f.Means (S.enter.behind body) test
  | .block body => blockResolved f S.enter body
  | .push t val => t.level ≤ Token.maxIndex ∧ f.Means S val
  | .pushDecision t d => t.level ≤ Token.maxIndex ∧ IsInt32 d
  | .unreachable => True
  | .ret vals => ∀ v ∈ vals, f.Means S v

/-- All names of a block mean their variables. A return without values comes last: what
follows it would be read as its values. -/
def blockResolved (f : Func) (S : Frames) : List Stmt → Prop
  | [] => True
  | s :: ss => s.Resolved f S ∧ (s = .ret [] → ss = []) ∧ blockResolved f (S.after s) ss

def armsResolved (f : Func) (S : Frames) : List (Var × List Stmt) → Prop
  | [] => True
  | (test, body) :: arms => f.Means S test ∧ blockResolved f S.enter body ∧ armsResolved f S arms

end

theorem armsResolved_iff {f : Func} {S : Frames} {arms : List (Var × Block)} :
    armsResolved f S arms ↔ ∀ arm ∈ arms, f.Means S arm.1 ∧ blockResolved f S.enter arm.2 := by
  induction arms with
  | nil => simp [armsResolved]
  | cons arm arms ih => simp [armsResolved, ih, and_assoc]

/-- The parameters can be declared one after the other. A text has no mutable ones. -/
def paramsResolved (f : Func) (S : Frames) : List Var → Prop
  | [] => True
  | v :: vs => f.Fresh S v ∧ (f.info v).mutable = false ∧ paramsResolved f (S.declare v) vs

/-- All names of a function mean their variables, and what else is in it has a text. -/
structure Func.Resolves (f : Func) : Prop where
  name : isSigiled isNameChar f.name = true
  attrs : ∀ a ∈ f.attrs, a.Rule
  once : (f.params ++ allDecls f.body).Nodup
  params : paramsResolved f [[]] f.params
  body : blockResolved f (f.params.foldl Frames.declare [[]]).enter f.body

/-! ## Deciding it -/

section
variable (f : Func) (S : Frames)

instance (n : Int) : Decidable (IsInt32 n) := inferInstanceAs (Decidable (_ ∧ _))

instance (a : Attr) : Decidable a.Rule :=
  decidable_of_iff (isSigiled Token.isWordChar a.name = true ∧
    ∀ s ∈ a.args, ∀ w ∈ pathWords s, isWord w = true)
    ⟨fun h => ⟨h.1, h.2⟩, fun h => ⟨h.name, h.args⟩⟩

instance (v : Var) : Decidable (f.Means S v) :=
  decidable_of_iff (isWord (f.varName v) = true ∧ isKeyword (f.varName v) = false ∧
    S.flatten.find? (f.varName · == f.varName v) = some v)
    ⟨fun h => ⟨h.1, h.2.1, h.2.2⟩, fun h => ⟨h.word, h.free, h.found⟩⟩

instance (v : Var) : Decidable (f.Fresh S v) :=
  decidable_of_iff (isWord (f.varName v) = true ∧ isKeyword (f.varName v) = false ∧
    ∀ w ∈ S.headD [], f.varName w ≠ f.varName v)
    ⟨fun h => ⟨h.1, h.2.1, h.2.2⟩, fun h => ⟨h.word, h.free, h.new⟩⟩

instance : (e : Expr) → Decidable (e.Resolved f S)
  | .const (.int n) => inferInstanceAs (Decidable (IsInt32 n))
  | .const (.real _) => .isTrue trivial
  | .const (.bool _) => .isTrue trivial
  | .copy v => inferInstanceAs (Decidable (f.Means S v))
  | .load v field => inferInstanceAs (Decidable (f.Means S v ∧ isWord field = true))
  | .op opcode args =>
    inferInstanceAs (Decidable (args.length = opcode.arity ∧ ∀ v ∈ args, f.Means S v))
  | .call callee args node => inferInstanceAs (Decidable (isSigiled isNameChar callee = true ∧
      (∀ v ∈ args, f.Means S v) ∧ ∀ s ∈ node, isWord s = true))
  | .pop t => inferInstanceAs (Decidable (t.level ≤ Token.maxIndex))
  | .topIs t d => inferInstanceAs (Decidable (t.level ≤ Token.maxIndex ∧ IsInt32 d))

end

instance : (s : Stmt) → Decidable (s = .ret [])
  | .ret [] => .isTrue rfl
  | .ret (_ :: _) => .isFalse (by simp)
  | .define _ _ _ => .isFalse (by simp)
  | .store _ _ _ => .isFalse (by simp)
  | .cond _ _ => .isFalse (by simp)
  | .loop _ _ _ => .isFalse (by simp)
  | .doLoop _ _ => .isFalse (by simp)
  | .block _ => .isFalse (by simp)
  | .push _ _ => .isFalse (by simp)
  | .pushDecision _ _ => .isFalse (by simp)
  | .unreachable => .isFalse (by simp)

mutual

def Stmt.decideResolved (f : Func) (S : Frames) : (s : Stmt) → Decidable (s.Resolved f S)
  | .define dst true e => inferInstanceAs (Decidable (e.Resolved f S ∧ f.Fresh S dst))
  | .define dst false e => inferInstanceAs (Decidable (e.Resolved f S ∧ f.Means S dst))
  | .store obj field val =>
    inferInstanceAs (Decidable (f.Means S obj ∧ f.Means S val ∧ isWord field = true))
  | .cond arms other =>
    have := decideArms f S arms
    have := decideBlock f S.enter other
    inferInstanceAs (Decidable (arms ≠ [] ∧ _ ∧ _))
  | .loop header test body =>
    have := decideBlock f S.enter header
    have := decideBlock f (S.enter.behind header).enter body
    inferInstanceAs (Decidable (_ ∧ f.Means (S.enter.behind header) test ∧ _))
  | .doLoop body test =>
    have := decideBlock f S.enter body
    inferInstanceAs (Decidable (_ ∧ f.Means (S.enter.behind body) test))
  | .block body => decideBlock f S.enter body
  | .push t val => inferInstanceAs (Decidable (t.level ≤ Token.maxIndex ∧ f.Means S val))
  | .pushDecision t d => inferInstanceAs (Decidable (t.level ≤ Token.maxIndex ∧ IsInt32 d))
  | .unreachable => .isTrue trivial
  | .ret vals => inferInstanceAs (Decidable (∀ v ∈ vals, f.Means S v))

def decideBlock (f : Func) (S : Frames) : (b : List Stmt) → Decidable (blockResolved f S b)
  | [] => .isTrue trivial
  | s :: ss =>
    have := s.decideResolved f S
    have := decideBlock f (S.after s) ss
    inferInstanceAs (Decidable (_ ∧ (s = .ret [] → ss = []) ∧ _))

def decideArms (f : Func) (S : Frames) :
    (arms : List (Var × List Stmt)) → Decidable (armsResolved f S arms)
  | [] => .isTrue trivial
  | (test, body) :: arms =>
    have := decideBlock f S.enter body
    have := decideArms f S arms
    inferInstanceAs (Decidable (f.Means S test ∧ _ ∧ _))

end

instance (f : Func) (S : Frames) (b : Block) : Decidable (blockResolved f S b) := decideBlock f S b

def decideParams (f : Func) (S : Frames) : (vs : List Var) → Decidable (paramsResolved f S vs)
  | [] => .isTrue trivial
  | v :: vs =>
    have := decideParams f (S.declare v) vs
    inferInstanceAs (Decidable (f.Fresh S v ∧ (f.info v).mutable = false ∧ _))

instance (f : Func) (S : Frames) (vs : List Var) : Decidable (paramsResolved f S vs) :=
  decideParams f S vs

instance (f : Func) : Decidable f.Resolves :=
  decidable_of_iff (isSigiled isNameChar f.name = true ∧ (∀ a ∈ f.attrs, a.Rule) ∧
    (f.params ++ allDecls f.body).Nodup ∧ paramsResolved f [[]] f.params ∧
    blockResolved f (f.params.foldl Frames.declare [[]]).enter f.body)
    ⟨fun h => ⟨h.1, h.2.1, h.2.2.1, h.2.2.2.1, h.2.2.2.2⟩,
      fun h => ⟨h.name, h.attrs, h.once, h.params, h.body⟩⟩

/-! ## From numbers to names -/

section
variable {f : Func} {σ : Var → Var} {S : Frames} {V : Array VarInfo}

/-- The scopes as the reader has them when the variables are replaced. -/
def Frames.scopes (f : Func) (σ : Var → Var) (S : Frames) : List Reader.Scope :=
  S.map fun frame => frame.map fun v => (f.varName v, σ v)

theorem findIn_map (name : String) (frame : List Var) :
    Reader.findIn name (frame.map fun v => (f.varName v, σ v)) =
      (frame.find? (f.varName · == name)).map σ := by
  rw [Reader.findIn, List.find?_map, Option.map_map]
  rfl

theorem find?_scopes (name : String) :
    (S.scopes f σ).findSome? (Reader.findIn name) =
      (S.flatten.find? (f.varName · == name)).map σ := by
  induction S with
  | nil => rfl
  | cons frame S ih =>
    have hcons : Frames.scopes f σ (frame :: S) =
        (frame.map fun v => (f.varName v, σ v)) :: Frames.scopes f σ S := rfl
    rw [hcons, List.findSome?_cons, findIn_map, List.flatten_cons, List.find?_append, ih]
    cases frame.find? (f.varName · == name) <;> rfl

theorem headD_scopes : (S.scopes f σ).headD [] = (S.headD []).map fun v => (f.varName v, σ v) := by
  cases S <;> rfl

theorem tail_scopes : (S.scopes f σ).tail = Frames.scopes f σ S.tail := by
  cases S <;> rfl

/-- What the reader has in front of code when the variables are replaced. -/
def Frames.env (f : Func) (σ : Var → Var) (V : Array VarInfo) (S : Frames) : Env :=
  ⟨V, S.scopes f σ⟩

/-- The table has the variables that are in scope. -/
def Covered (f : Func) (σ : Var → Var) (V : Array VarInfo) (S : Frames) : Prop :=
  ∀ v ∈ S.flatten, V[(σ v).idx]? = some (f.info v)

/-- The variables are replaced by the ones from `n` on. -/
def Numbers (σ : Var → Var) (n : Nat) (vs : List Var) : Prop :=
  vs.map (fun v => (σ v).idx) = List.range' n vs.length

/-- The table with more variables. -/
def tabled (f : Func) (V : Array VarInfo) (vs : List Var) : Array VarInfo :=
  V ++ (vs.map f.info).toArray

theorem size_tabled (f : Func) (V : Array VarInfo) (vs : List Var) :
    (tabled f V vs).size = V.size + vs.length := by
  simp [tabled]

theorem tabled_append (f : Func) (V : Array VarInfo) (vs ws : List Var) :
    tabled f V (vs ++ ws) = tabled f (tabled f V vs) ws := by
  simp [tabled]

theorem tabled_nil (f : Func) (V : Array VarInfo) : tabled f V [] = V := by simp [tabled]

theorem tabled_singleton (f : Func) (V : Array VarInfo) (v : Var) :
    tabled f V [v] = V.push (f.info v) := by simp [tabled]

theorem Numbers.append {n : Nat} {ws : List Var} :
    Numbers σ n (vs ++ ws) ↔ Numbers σ n vs ∧ Numbers σ (n + vs.length) ws := by
  unfold Numbers
  rw [List.map_append, List.length_append, ← List.range'_append_1]
  constructor
  · intro h
    exact List.append_inj h (by simp)
  · rintro ⟨hvs, hws⟩
    rw [hvs, hws]

theorem getElem?_tabled {i : Nat} {info : VarInfo} (h : V[i]? = some info) (vs : List Var) :
    (tabled f V vs)[i]? = some info := by
  obtain ⟨hi, -⟩ := Array.getElem?_eq_some_iff.mp h
  rw [tabled, Array.getElem?_append_left hi, h]

theorem Numbers.getElem? (h : Numbers σ V.size vs) (hv : v ∈ vs) :
    (tabled f V vs)[(σ v).idx]? = some (f.info v) := by
  obtain ⟨i, hi, rfl⟩ := List.mem_iff_getElem.mp hv
  have hidx : (σ vs[i]).idx = V.size + i := by
    have hget := congrArg (·[i]?) h
    simpa [hi] using hget
  rw [hidx, tabled, Array.getElem?_append_right (by omega)]
  simp [hi]

theorem Numbers.singleton {n : Nat} (h : Numbers σ n [v]) : σ v = ⟨n⟩ := by
  have hidx : (σ v).idx = n := by simpa [Numbers] using h
  rw [← hidx]

theorem Covered.enter (h : Covered f σ V S) : Covered f σ V S.enter := h

theorem Covered.tabled (h : Covered f σ V S) (vs : List Var) : Covered f σ (tabled f V vs) S :=
  fun v hv => getElem?_tabled (h v hv) vs

theorem Covered.after (h : Covered f σ V S) (hs : Numbers σ V.size (allDecls [s])) :
    Covered f σ (Backsweep.tabled f V (allDecls [s])) (S.after s) := by
  intro v hv
  rcases Frames.mem_after.mp hv with hdecl | hv
  · exact hs.getElem? (blockDecls_subset [s] (by simp [blockDecls, hdecl]))
  · exact h.tabled _ v hv

theorem Covered.behind (h : Covered f σ V S) (hb : Numbers σ V.size (allDecls b)) :
    Covered f σ (Backsweep.tabled f V (allDecls b)) (S.behind b) := by
  intro v hv
  rcases Frames.mem_behind.mp hv with hdecl | hv
  · exact hb.getElem? (blockDecls_subset b hdecl)
  · exact h.tabled _ v hv

theorem Func.Means.env (hS : Covered f σ V S) (h : f.Means S v) : (S.env f σ V).Means (σ v) := by
  have hplace := hS v h.mem
  obtain ⟨hlt, -⟩ := Array.getElem?_eq_some_iff.mp hplace
  have hname : (S.env f σ V).varName (σ v) = f.varName v := by
    change (V.getD (σ v).idx default).name = _
    rw [Array.getD_eq_getD_getElem?, hplace]
    rfl
  refine ⟨hlt, hname ▸ h.word, hname ▸ h.free, ?_⟩
  rw [hname]
  change (S.scopes f σ).findSome? _ = _
  rw [find?_scopes, h.found]
  rfl

theorem Func.Fresh.env (h : f.Fresh S v) : (S.env f σ V).Free (f.info v).name := by
  refine ⟨h.word, h.free, ?_⟩
  change Reader.findIn _ ((S.scopes f σ).headD []) = none
  rw [headD_scopes, findIn_map, Option.map_eq_none_iff, List.find?_eq_none]
  intro w hw
  exact fun heq => h.new w hw (beq_iff_eq.mp heq)

theorem declare_env (hv : σ v = ⟨V.size⟩) :
    (S.env f σ V).declare (f.info v) = (S.declare v).env f σ (V.push (f.info v)) := by
  simp only [Env.declare, Frames.env, headD_scopes, tail_scopes, ← hv]
  rfl

theorem leave_env (b : Block) : ((S.enter.behind b).env f σ V).leave = S.env f σ V := by
  simp only [Env.leave, Frames.env, tail_scopes, Frames.tail_behind_enter]

/-! ## Resolved code obeys the rules -/

theorem Expr.Resolved.rule (hS : Covered f σ V S) (h : e.Resolved f S) :
    ExprRule (S.env f σ V) (e.mapVars σ) := by
  have hargs {args : List Var} (hmeans : ∀ v ∈ args, f.Means S v) :
      ∀ w ∈ args.map σ, (S.env f σ V).Means w := by
    intro w hw
    obtain ⟨v, hv, rfl⟩ := List.mem_map.mp hw
    exact (hmeans v hv).env hS
  cases e with
  | const c =>
    cases c with
    | int n => exact h
    | real x => trivial
    | bool b => trivial
  | copy v => exact Func.Means.env hS h
  | load v field => exact ⟨h.1.env hS, h.2⟩
  | op opcode args => exact ⟨(List.length_map σ).trans h.1, hargs h.2⟩
  | call callee args node => exact ⟨h.1, hargs h.2.1, h.2.2⟩
  | pop t => exact h
  | topIs t d => exact h

theorem atom_ruled (hs : s.isControlFlow = false) (hS : Covered f σ V S)
    (hdecl : Numbers σ V.size (allDecls [s])) (h : s.Resolved f S) :
    StmtRule (S.env f σ V) (s.rename σ) ((S.after s).env f σ (tabled f V (allDecls [s]))) := by
  cases s, hs using Stmt.atomCases with
  | define dst decl e =>
    cases decl with
    | true =>
      have hdst : σ dst = ⟨V.size⟩ := hdecl.singleton
      have hrule := StmtRule.declare (h.1.rule hS) (h.2.env (σ := σ) (V := V))
      rw [declare_env hdst] at hrule
      change StmtRule _ (.define (σ dst) true _) ((S.declare dst).env f σ (tabled f V [dst]))
      rw [hdst, tabled_singleton]
      exact hrule
    | false => exact (tabled_nil f V).symm ▸ StmtRule.assign (h.2.env hS) (h.1.rule hS)
  | store obj field val =>
    exact (tabled_nil f V).symm ▸ StmtRule.store (h.1.env hS) (h.2.1.env hS) h.2.2
  | push t val => exact (tabled_nil f V).symm ▸ StmtRule.push h.1 (h.2.env hS)
  | pushDecision t d => exact (tabled_nil f V).symm ▸ StmtRule.pushDecision h.1 h.2
  | unreachable => exact (tabled_nil f V).symm ▸ StmtRule.unreachable
  | ret vals =>
    refine (tabled_nil f V).symm ▸ StmtRule.ret fun w hw => ?_
    obtain ⟨v, hv, rfl⟩ := List.mem_map.mp hw
    exact (h v hv).env hS

/-- What is resolved obeys the rules when its declarations are numbered in order. -/
def Rules (f : Func) (σ : Var → Var) (b : Block) : Prop :=
  ∀ (S : Frames) (V : Array VarInfo), blockResolved f S b → Covered f σ V S →
    Numbers σ V.size (allDecls b) → BlockRule (S.env f σ V) (renameBlock σ b)
      ((S.behind b).env f σ (tabled f V (allDecls b)))

theorem Rules.inner (hb : Rules f σ b) (h : blockResolved f S.enter b) (hS : Covered f σ V S)
    (hdecl : Numbers σ V.size (allDecls b)) :
    BlockRule (S.env f σ V).enter (renameBlock σ b)
      ((S.enter.behind b).env f σ (tabled f V (allDecls b))) :=
  hb S.enter V h hS.enter hdecl

theorem arms_ruled {arms : List (Var × Block)} {other : Block} (hne : arms ≠ [])
    (ha : ∀ arm ∈ arms, Rules f σ arm.2) (ho : Rules f σ other) (h : armsResolved f S arms)
    (hother : blockResolved f S.enter other) (hS : Covered f σ V S)
    (hdecl : Numbers σ V.size (allDecls [.cond arms other])) :
    ArmsRule (S.env f σ V) (renameArms σ arms) (renameBlock σ other)
      (S.env f σ (tabled f V (allDecls [.cond arms other]))) := by
  induction arms generalizing V with
  | nil => exact absurd rfl hne
  | cons arm arms ih =>
    obtain ⟨test, body⟩ := arm
    obtain ⟨htest, hbody, hrest⟩ := h
    rw [Reader.allDecls_cond_cons, Numbers.append] at hdecl
    rw [Reader.allDecls_cond_cons, tabled_append]
    have hb := (ha _ List.mem_cons_self).inner hbody hS hdecl.1
    have hS₁ := hS.tabled (allDecls body)
    have hnext := hdecl.2
    rw [← size_tabled f] at hnext
    cases arms with
    | nil =>
      rw [Reader.allDecls_cond_nil] at hnext ⊢
      have hlast := ho.inner hother hS₁ hnext
      rw [← leave_env body] at hlast
      have hrule := ArmsRule.last (htest.env hS) hb hlast
      rw [leave_env] at hrule
      exact hrule
    | cons arm arms =>
      have hmore := ih (by simp) (fun a h => ha a (List.mem_cons_of_mem _ h)) hrest hS₁ hnext
      rw [← leave_env body] at hmore
      exact .cons (htest.env hS) hb hmore

theorem rules_cons (hs : ∀ (S : Frames) (V : Array VarInfo), s.Resolved f S → Covered f σ V S →
      Numbers σ V.size (allDecls [s]) →
      StmtRule (S.env f σ V) (s.rename σ) ((S.after s).env f σ (tabled f V (allDecls [s]))))
    (hss : Rules f σ ss) : Rules f σ (s :: ss) := by
  intro S V h hS hdecl
  obtain ⟨hfirst, hlast, hrest⟩ := h
  rw [Reader.allDecls_cons, Numbers.append] at hdecl
  rw [Reader.allDecls_cons, tabled_append]
  refine .cons (hs S V hfirst hS hdecl.1) (fun hret => ?_) ?_
  · have hs : s = .ret [] := by
      cases s with
      | ret vals =>
        cases vals with
        | nil => rfl
        | cons v vals => cases hret
      | _ => cases hret
    rw [hlast hs]
    rfl
  · refine hss (S.after s) _ hrest (hS.after hdecl.1) ?_
    rw [size_tabled]
    exact hdecl.2

/-- **Resolved code obeys the rules** when its declarations are numbered in order. -/
theorem block_rules (f : Func) (σ : Var → Var) (b : Block) : Rules f σ b := by
  induction b using blockInduction with
  | nil =>
    intro S V _ _ _
    exact (tabled_nil f V).symm ▸ BlockRule.nil
  | atom s ss hs ih => exact rules_cons (fun S V h hS hdecl => atom_ruled hs hS hdecl h) ih
  | cond arms other ss iha iho ih =>
    refine rules_cons (fun S V h hS hdecl => ?_) ih
    exact .cond (arms_ruled h.1 iha iho h.2.1 h.2.2 hS hdecl)
  | loop header test body ss ihh ihb ih =>
    refine rules_cons (fun S V h hS hdecl => ?_) ih
    obtain ⟨hheader, htest, hbody⟩ := h
    rw [Reader.allDecls_loop, Numbers.append] at hdecl
    rw [Reader.allDecls_loop, tabled_append]
    have hS₁ := hS.enter.behind hdecl.1
    have hnext := hdecl.2
    rw [← size_tabled f] at hnext
    have hrule := StmtRule.loop (ihh.inner hheader hS hdecl.1) (htest.env hS₁)
      (ihb.inner hbody hS₁ hnext)
    rw [leave_env, leave_env] at hrule
    exact hrule
  | doLoop body test ss ihb ih =>
    refine rules_cons (fun S V h hS hdecl => ?_) ih
    obtain ⟨hbody, htest⟩ := h
    rw [Reader.allDecls_doLoop] at hdecl ⊢
    have hrule := StmtRule.doLoop (ihb.inner hbody hS hdecl) (htest.env (hS.enter.behind hdecl))
    rw [leave_env] at hrule
    exact hrule
  | block body ss ihb ih =>
    refine rules_cons (fun S V h hS hdecl => ?_) ih
    rw [Reader.allDecls_block] at hdecl ⊢
    have hrule := StmtRule.block (ihb.inner h hS hdecl)
    rw [leave_env] at hrule
    exact hrule

/-! ## Numbering in order -/

theorem Covered.declare (h : Covered f σ V S) (hv : σ v = ⟨V.size⟩) :
    Covered f σ (V.push (f.info v)) (S.declare v) := by
  intro w hw
  rcases Frames.mem_declare.mp hw with rfl | hw
  · simp [hv]
  · rw [← tabled_singleton]
    exact h.tabled _ w hw

theorem params_ruled (h : paramsResolved f S vs) (hS : Covered f σ V S) (hvs : Numbers σ V.size vs) :
    ParamsRule (S.env f σ V) (vs.map σ) ((vs.foldl Frames.declare S).env f σ (tabled f V vs)) ∧
      Covered f σ (tabled f V vs) (vs.foldl Frames.declare S) := by
  induction vs generalizing S V with
  | nil =>
    rw [tabled_nil]
    exact ⟨.nil, hS⟩
  | cons v vs ih =>
    obtain ⟨hfresh, himmutable, hrest⟩ := h
    have hsplit : Numbers σ V.size ([v] ++ vs) := hvs
    obtain ⟨hfirst, hnext⟩ := Numbers.append.mp hsplit
    have hv : σ v = ⟨V.size⟩ := hfirst.singleton
    have htable : tabled f V (v :: vs) = tabled f (V.push (f.info v)) vs := by
      rw [← tabled_singleton, ← tabled_append]
      rfl
    have hdeclare := declare_env (f := f) (S := S) hv
    have hinfo : (⟨(f.info v).name, f.varTy v, false⟩ : VarInfo) = f.info v := by
      rw [← himmutable]
      rfl
    obtain ⟨hrule, hplaced⟩ := ih hrest (hS.declare hv) (by simpa using hnext)
    rw [List.map_cons, hv, htable]
    refine ⟨.cons (t := f.varTy v) hfresh.env ?_, hplaced⟩
    rw [hinfo, hdeclare]
    exact hrule

end

namespace Func

variable {f g : Func}

/-- The parameters of a function and its declarations, in the order of the text. -/
def declared (f : Func) : List Var := f.params ++ allDecls f.body

/-- The number of a variable in the order of the text. -/
def number (f : Func) (v : Var) : Var := ⟨f.declared.idxOf v⟩

/-- The function with its table in the order of the text. -/
def renumber (f : Func) : Func where
  name := f.name
  attrs := f.attrs
  params := f.params.map f.number
  returns := f.returns
  vars := tabled f #[] f.declared
  body := renameBlock f.number f.body

theorem numbers_declared (h : f.declared.Nodup) : Numbers f.number 0 f.declared := by
  unfold Numbers
  apply List.ext_getElem
  · simp
  · intro i hi _
    have hi' : i < f.declared.length := by simpa using hi
    simp [number, List.Nodup.idxOf_getElem h i hi']

theorem Resolves.rule (h : f.Resolves) : f.renumber.Rule := by
  have hnumbers := numbers_declared h.once
  obtain ⟨hparams, hdecls⟩ := Numbers.append.mp hnumbers
  have hempty : Covered f f.number #[] [[]] := by
    intro v hv
    cases hv
  obtain ⟨hp, hplaced⟩ := params_ruled h.params hempty hparams
  have hb := (block_rules f f.number f.body).inner h.body hplaced
    (by simpa [size_tabled] using hdecls)
  refine ⟨h.name, h.attrs, _, _, hp, hb, ?_⟩
  exact (tabled_append f #[] f.params (allDecls f.body)).symm

end Func

/-! ## Code that obeys the rules is resolved -/

section
variable {f g : Func} {σ : Var → Var} {E E' : Env} {S : Frames}

/-- What the reader has in scope is what is in scope, with the variables replaced. -/
structure Shows (f : Func) (σ : Var → Var) (E : Env) (S : Frames) : Prop where
  scopes : E.scopes = S.scopes f σ
  occurs : ∀ v ∈ S.flatten, v ∈ f.occurring

theorem Shows.enter (h : Shows f σ E S) : Shows f σ E.enter S.enter :=
  ⟨congrArg ([] :: ·) h.scopes, h.occurs⟩

theorem Shows.leave (h : Shows f σ E (S.enter.behind b)) (hS : ∀ v ∈ S.flatten, v ∈ f.occurring) :
    Shows f σ E.leave S := by
  refine ⟨?_, hS⟩
  change E.scopes.tail = _
  rw [h.scopes, tail_scopes, Frames.tail_behind_enter]

theorem Shows.declare (h : Shows f σ E S) (hv : v ∈ f.occurring) (hnumber : σ v = ⟨E.vars.size⟩) :
    Shows f σ (E.declare (f.info v)) (S.declare v) := by
  refine ⟨?_, fun w hw => ?_⟩
  · simp only [Env.declare, h.scopes, headD_scopes, tail_scopes, ← hnumber]
    rfl
  · rcases Frames.mem_declare.mp hw with rfl | hw
    · exact hv
    · exact h.occurs w hw

namespace Func.Renumbers

theorem means (hg : f.Renumbers σ g) (h : Shows f σ E S) (hv : v ∈ f.occurring) (hm : E.Means (σ v))
    (hE : Reader.Within E g) : f.Means S v := by
  have hname : E.varName (σ v) = f.varName v :=
    (hE.varName hm.lt).symm.trans (congrArg VarInfo.name (hg.info v hv))
  refine ⟨hname ▸ hm.word, hname ▸ hm.free, ?_⟩
  have hfound := hm.found
  rw [Env.find?, h.scopes, find?_scopes, hname] at hfound
  obtain ⟨w, hw, heq⟩ := Option.map_eq_some_iff.mp hfound
  have hmem := h.occurs w (List.mem_of_find?_eq_some hw)
  rw [hw, hg.injective w hmem v hv heq]

theorem fresh (h : Shows f σ E S) (hfree : E.Free (f.info v).name) : f.Fresh S v := by
  refine ⟨hfree.word, hfree.free, fun w hw heq => ?_⟩
  have hnew := hfree.new
  rw [h.scopes, headD_scopes, findIn_map, Option.map_eq_none_iff, List.find?_eq_none] at hnew
  exact hnew w hw (beq_iff_eq.mpr heq)

theorem expr (hg : f.Renumbers σ g) (hE : Reader.Within E g) (h : Shows f σ E S)
    (he : ∀ v ∈ e.uses, v ∈ f.occurring) (hrule : ExprRule E (e.mapVars σ)) : e.Resolved f S := by
  have hargs {args : List Var} (hocc : ∀ v ∈ args, v ∈ f.occurring)
      (hmeans : ∀ w ∈ args.map σ, E.Means w) : ∀ v ∈ args, f.Means S v :=
    fun v hv => hg.means h (hocc v hv) (hmeans (σ v) (List.mem_map_of_mem hv)) hE
  cases e with
  | const c =>
    cases c with
    | int n => exact hrule
    | real x => trivial
    | bool b => trivial
  | copy v => exact hg.means h (he v List.mem_cons_self) hrule hE
  | load v field => exact ⟨hg.means h (he v List.mem_cons_self) hrule.1 hE, hrule.2⟩
  | op opcode args => exact ⟨(List.length_map σ).symm.trans hrule.1, hargs he hrule.2⟩
  | call callee args node => exact ⟨hrule.1, hargs he hrule.2.1, hrule.2.2⟩
  | pop t => exact hrule
  | topIs t d => exact hrule

theorem atom (hg : f.Renumbers σ g) (hs : s.isControlFlow = false)
    (hvars : ∀ v ∈ s.vars, v ∈ f.occurring) (hE' : Reader.Within E' g) (h : Shows f σ E S)
    (hrule : StmtRule E (s.rename σ) E') : s.Resolved f S ∧ Shows f σ E' (S.after s) := by
  have hE : Reader.Within E g := (Reader.grows_stmt hrule).trans hE'
  cases s, hs using Stmt.atomCases with
  | define dst decl e =>
    have hdst := hvars dst List.mem_cons_self
    have huses : ∀ v ∈ e.uses, v ∈ f.occurring := fun v hv => hvars v (List.mem_cons_of_mem dst hv)
    rw [Stmt.rename] at hrule
    generalize hw : σ dst = w at hrule
    cases hrule with
    | assign hv he => exact ⟨⟨hg.expr hE h huses he, hg.means h hdst (hw ▸ hv) hE⟩, h⟩
    | declare he hfree =>
      have hinfo := hg.info dst hdst
      rw [hw, hE'.info] at hinfo
      subst hinfo
      exact ⟨⟨hg.expr hE h huses he, fresh h hfree⟩, h.declare hdst hw⟩
  | store obj field val =>
    cases hrule with
    | store hobj hval hfield =>
      exact ⟨⟨hg.means h (hvars obj (by simp [Stmt.vars])) hobj hE,
        hg.means h (hvars val (by simp [Stmt.vars])) hval hE, hfield⟩, h⟩
  | push t val =>
    cases hrule with
    | push ht hval => exact ⟨⟨ht, hg.means h (hvars val (by simp [Stmt.vars])) hval hE⟩, h⟩
  | pushDecision t d =>
    cases hrule with
    | pushDecision ht hd => exact ⟨⟨ht, hd⟩, h⟩
  | unreachable =>
    cases hrule with
    | unreachable => exact ⟨trivial, h⟩
  | ret vals =>
    cases hrule with
    | ret hvals =>
      exact ⟨fun v hv => hg.means h (hvars v hv) (hvals (σ v) (List.mem_map_of_mem hv)) hE, h⟩

/-- What obeys the rules after its variables are replaced is resolved. -/
def Recovers (f : Func) (σ : Var → Var) (g : Func) (b : Block) : Prop :=
  ∀ (S : Frames) (E E' : Env), (∀ v ∈ blockVars b, v ∈ f.occurring) → Reader.Within E' g →
    Shows f σ E S → BlockRule E (renameBlock σ b) E' →
    blockResolved f S b ∧ Shows f σ E' (S.behind b)

theorem recovers_cons
    (hs : ∀ (S : Frames) (E E' : Env), (∀ v ∈ s.vars, v ∈ f.occurring) → Reader.Within E' g →
      Shows f σ E S → StmtRule E (s.rename σ) E' → s.Resolved f S ∧ Shows f σ E' (S.after s))
    (hss : Recovers f σ g ss) : Recovers f σ g (s :: ss) := by
  intro S E E' hvars hE' h hrule
  simp only [blockVars, List.mem_append] at hvars
  cases hrule with
  | cons hfirst hlast hrest =>
    have hE₁ := (Reader.grows_block hrest).trans hE'
    obtain ⟨hresolved, h₁⟩ := hs S E _ (fun v hv => hvars v (.inl hv)) hE₁ h hfirst
    obtain ⟨hmore, h₂⟩ := hss _ _ E' (fun v hv => hvars v (.inr hv)) hE' h₁ hrest
    refine ⟨⟨hresolved, fun hret => ?_, hmore⟩, h₂⟩
    have hnil := hlast (by rw [hret]; rfl)
    cases ss with
    | nil => rfl
    | cons s' ss => cases hnil

theorem Recovers.inner (hb : Recovers f σ g b) (hvars : ∀ v ∈ blockVars b, v ∈ f.occurring)
    (h : Shows f σ E S) (hrule : BlockRule E.enter (renameBlock σ b) E') (hE' : Reader.Within E' g) :
    blockResolved f S.enter b ∧ Shows f σ E' (S.enter.behind b) :=
  hb S.enter E.enter E' hvars hE' h.enter hrule

theorem arms (hg : f.Renumbers σ g) {arms : List (Var × Block)} {other : Block}
    (ha : ∀ arm ∈ arms, Recovers f σ g arm.2) (ho : Recovers f σ g other)
    (hvars : ∀ v ∈ armsVars arms, v ∈ f.occurring)
    (hother : ∀ v ∈ blockVars other, v ∈ f.occurring) (hE' : Reader.Within E' g)
    (h : Shows f σ E S) (hrule : ArmsRule E (renameArms σ arms) (renameBlock σ other) E') :
    arms ≠ [] ∧ armsResolved f S arms ∧ blockResolved f S.enter other ∧ Shows f σ E' S := by
  have hE : Reader.Within E g := (Reader.grows_arms hrule).trans hE'
  induction arms generalizing E with
  | nil => cases hrule
  | cons arm arms ih =>
    obtain ⟨test, body⟩ := arm
    simp only [armsVars, List.mem_cons, List.mem_append] at hvars
    have hbody := ha _ List.mem_cons_self
    have hbodyVars : ∀ v ∈ blockVars body, v ∈ f.occurring := fun v hv => hvars v (.inr (.inl hv))
    rw [renameArms] at hrule
    generalize hrenamed : renameArms σ arms = arms' at hrule
    cases hrule with
    | last htest hb hlast =>
      have hE₁ := (Reader.grows_block hlast).trans hE'
      obtain ⟨hfirst, h₁⟩ := hbody.inner hbodyVars h hb hE₁
      obtain ⟨hsecond, h₂⟩ := ho.inner hother (h₁.leave h.occurs) hlast hE'
      have harms : arms = [] := by
        cases arms with
        | nil => rfl
        | cons arm arms => cases hrenamed
      subst harms
      exact ⟨by simp, ⟨hg.means h (hvars test (.inl rfl)) htest hE, hfirst, trivial⟩, hsecond,
        h₂.leave h.occurs⟩
    | cons htest hb hrest =>
      have hE₁ := (Reader.grows_arms hrest).trans hE'
      obtain ⟨hfirst, h₁⟩ := hbody.inner hbodyVars h hb hE₁
      obtain ⟨-, hmore, hlast, h₂⟩ := ih (fun a harm => ha a (List.mem_cons_of_mem _ harm))
        (fun v hv => hvars v (.inr (.inr hv))) (h₁.leave h.occurs) (hrenamed ▸ hrest) hE₁
      exact ⟨by simp, ⟨hg.means h (hvars test (.inl rfl)) htest hE, hfirst, hmore⟩, hlast, h₂⟩

/-- **Code that obeys the rules after its variables are replaced is resolved.** -/
theorem recovers (hg : f.Renumbers σ g) (b : Block) : Recovers f σ g b := by
  induction b using blockInduction with
  | nil =>
    intro S E E' _ _ h hrule
    cases hrule with
    | nil => exact ⟨trivial, h⟩
  | atom s ss hs ih =>
    exact recovers_cons (fun S E E' hvars hE' h hrule => hg.atom hs hvars hE' h hrule) ih
  | cond as other ss iha iho ih =>
    refine recovers_cons (fun S E E' hvars hE' h hrule => ?_) ih
    simp only [Stmt.vars, List.mem_append] at hvars
    cases hrule with
    | cond hrule =>
      obtain ⟨hne, has, hother, h'⟩ := hg.arms iha iho (fun v hv => hvars v (.inl hv))
        (fun v hv => hvars v (.inr hv)) hE' h hrule
      exact ⟨⟨hne, has, hother⟩, h'⟩
  | loop header test body ss ihh ihb ih =>
    refine recovers_cons (fun S E E' hvars hE' h hrule => ?_) ih
    simp only [Stmt.vars, List.mem_append, List.mem_cons] at hvars
    cases hrule with
    | loop hheader htest hbody =>
      have hE₁ := (Reader.grows_block hbody).trans hE'
      obtain ⟨hh, h₁⟩ := ihh.inner (fun v hv => hvars v (.inl hv)) h hheader hE₁
      obtain ⟨hb, h₂⟩ := ihb.inner (fun v hv => hvars v (.inr (.inr hv))) h₁ hbody hE'
      have ht := hg.means h₁ (hvars test (.inr (.inl rfl))) htest hE₁
      exact ⟨⟨hh, ht, hb⟩, (h₂.leave h₁.occurs).leave h.occurs⟩
  | doLoop body test ss ihb ih =>
    refine recovers_cons (fun S E E' hvars hE' h hrule => ?_) ih
    simp only [Stmt.vars, List.mem_append, List.mem_singleton] at hvars
    cases hrule with
    | doLoop hbody htest =>
      obtain ⟨hb, h₁⟩ := ihb.inner (fun v hv => hvars v (.inl hv)) h hbody hE'
      exact ⟨⟨hb, hg.means h₁ (hvars test (.inr rfl)) htest hE'⟩, h₁.leave h.occurs⟩
  | block body ss ihb ih =>
    refine recovers_cons (fun S E E' hvars hE' h hrule => ?_) ih
    cases hrule with
    | block hbody =>
      obtain ⟨hb, h₁⟩ := ihb.inner hvars h hbody hE'
      exact ⟨hb, h₁.leave h.occurs⟩

theorem parameters (hg : f.Renumbers σ g) (hvs : ∀ v ∈ vs, v ∈ f.occurring)
    (hE' : Reader.Within E' g) (h : Shows f σ E S) (hrule : ParamsRule E (vs.map σ) E') :
    paramsResolved f S vs ∧ Shows f σ E' (vs.foldl Frames.declare S) := by
  induction vs generalizing S E with
  | nil =>
    cases hrule with
    | nil => exact ⟨trivial, h⟩
  | cons v vs ih =>
    rw [List.map_cons] at hrule
    generalize hw : σ v = w at hrule
    cases hrule with
    | cons hfree hrest =>
      have hv := hvs v List.mem_cons_self
      have hE₁ : Reader.Within _ g := (Reader.grows_params hrest).trans hE'
      have hinfo := hg.info v hv
      rw [hw, hE₁.info] at hinfo
      have hfree' : E.Free (f.info v).name := by rwa [← hinfo]
      have hmutable : (f.info v).mutable = false := by rw [← hinfo]
      have h₁ := h.declare hv hw
      rw [← hinfo] at h₁
      obtain ⟨hmore, h₂⟩ := ih (fun u hu => hvs u (List.mem_cons_of_mem v hu)) h₁ hrest
      exact ⟨⟨fresh h hfree', hmutable, hmore⟩, h₂⟩

theorem resolves (hg : f.Renumbers σ g) (hrule : g.Rule) : f.Resolves := by
  obtain ⟨E₁, E₂, hparams, hbody, hvars⟩ := hrule.body
  have hE₂ : Reader.Within E₂ g := by
    rw [Reader.Within, hvars]
    exact .refl _
  have hE₁ : Reader.Within E₁ g := (Reader.grows_block hbody).trans hE₂
  have hstart : Shows f σ ⟨#[], [[]]⟩ [[]] := ⟨rfl, fun v hv => by cases hv⟩
  rw [hg.params] at hparams
  rw [hg.body] at hbody
  obtain ⟨hp, h₁⟩ := hg.parameters (fun v hv => List.mem_append_left _ hv) hE₁ hstart hparams
  obtain ⟨hb, -⟩ := (hg.recovers f.body).inner (fun v hv => List.mem_append_right _ hv) h₁ hbody hE₂
  refine ⟨hg.name ▸ hrule.name, hg.attrs ▸ hrule.attrs, ?_, hp, hb⟩
  have htable := hrule.table
  rw [hg.params, hg.body, allDecls_renameBlock, ← List.map_append] at htable
  have hnodup : (((f.params ++ allDecls f.body).map σ).map Var.idx).Nodup :=
    htable ▸ List.nodup_range
  exact (hnodup.of_map _).of_map _

end Func.Renumbers

end

/-! ## The order of the text -/

section
variable {f : Func}
variable {S : Frames}

theorem Expr.Resolved.uses (h : e.Resolved f S) : ∀ v ∈ e.uses, v ∈ S.flatten := by
  intro v hv
  cases e with
  | const c => cases hv
  | copy w => exact List.mem_singleton.mp hv ▸ Func.Means.mem h
  | load w field => exact List.mem_singleton.mp hv ▸ h.1.mem
  | op opcode args => exact (h.2 v hv).mem
  | call callee args node => exact (h.2.1 v hv).mem
  | pop t => cases hv
  | topIs t d => cases hv

theorem Stmt.Resolved.atom_vars (hs : s.isControlFlow = false) (h : s.Resolved f S) :
    ∀ v ∈ s.vars, v ∈ (S.after s).flatten := by
  intro v hv
  rw [Frames.mem_after]
  cases s, hs using Stmt.atomCases with
  | define dst decl e =>
    cases decl with
    | true =>
      rcases List.mem_cons.mp hv with rfl | huse
      · exact .inl rfl
      · exact .inr (h.1.uses v huse)
    | false =>
      rcases List.mem_cons.mp hv with rfl | huse
      · exact .inr h.2.mem
      · exact .inr (h.1.uses v huse)
  | store obj field val =>
    rcases List.mem_pair.mp hv with rfl | rfl
    · exact .inr h.1.mem
    · exact .inr h.2.1.mem
  | push t val => exact .inr (List.mem_singleton.mp hv ▸ h.2.mem)
  | ret vals => exact .inr (h v hv).mem
  | _ => cases hv

/-- The variables are in scope or declared in the block. -/
def Known (S : Frames) (b : Block) (vs : List Var) : Prop :=
  ∀ v ∈ vs, v ∈ S.flatten ∨ v ∈ allDecls b

theorem Known.inner {a : Block} (h : Known S.enter a vs) (hsub : blockAtoms a ⊆ blockAtoms b) :
    Known S b vs :=
  fun v hv => (h v hv).imp_right fun hdecl => allDecls_subset hsub hdecl

theorem Known.behind {a : Block} (h : Known (S.behind a) b vs) : Known S (a ++ b) vs := by
  intro v hv
  rw [allDecls_append, List.mem_append]
  rcases h v hv with hscope | hdecl
  · rcases Frames.mem_behind.mp hscope with hdecl | hscope
    · exact .inr (.inl (blockDecls_subset a hdecl))
    · exact .inl hscope
  · exact .inr (.inr hdecl)

theorem known_cons (hs : Known S [s] s.vars) (hss : Known (S.after s) ss (blockVars ss)) :
    Known S (s :: ss) (blockVars (s :: ss)) := by
  have hrest := Known.behind (a := [s]) hss
  intro v hv
  rcases List.mem_append.mp hv with hv | hv
  · refine (hs v hv).imp_right fun hdecl => ?_
    rw [Reader.allDecls_cons]
    exact List.mem_append_left _ hdecl
  · exact hrest v hv

/-- Every variable that occurs in resolved code is in scope or declared in it. -/
theorem blockResolved.known (h : blockResolved f S b) : Known S b (blockVars b) := by
  induction b using blockInduction generalizing S with
  | nil => exact fun v hv => by cases hv
  | atom s ss hs ih =>
    have hfirst : Known (S.behind [s]) [] s.vars := fun v hv => .inl (h.1.atom_vars hs v hv)
    exact known_cons hfirst.behind (ih h.2.2)
  | cond arms other ss iha iho ih =>
    obtain ⟨⟨-, harms, hother⟩, -, hrest⟩ := h
    rw [armsResolved_iff] at harms
    refine known_cons (fun v hv => ?_) (ih hrest)
    simp only [Stmt.vars, armsVars_eq, List.mem_append, List.mem_flatMap, List.mem_cons] at hv
    rcases hv with ⟨arm, harm, rfl | hv⟩ | hv
    · exact .inl (harms arm harm).1.mem
    · refine (iha arm harm (harms arm harm).2).inner (fun a ha => ?_) v hv
      simp only [blockAtoms, Stmt.atoms, List.mem_append, mem_armsAtoms]
      exact .inl (.inl ⟨arm, harm, ha⟩)
    · exact (iho hother).inner (fun a ha => by simp [blockAtoms, Stmt.atoms, ha]) v hv
  | loop header test body ss ihh ihb ih =>
    obtain ⟨⟨hheader, htest, hbody⟩, -, hrest⟩ := h
    have hall : blockAtoms (header ++ body) ⊆ blockAtoms [.loop header test body] := by
      simp [blockAtoms_append, blockAtoms, Stmt.atoms]
    have htest : Known (S.enter.behind header) body [test] :=
      fun v hv => .inl (List.mem_singleton.mp hv ▸ htest.mem)
    have hbody : Known (S.enter.behind header) body (blockVars body) :=
      (ihb hbody).inner fun _ ha => ha
    refine known_cons (fun v hv => ?_) (ih hrest)
    simp only [Stmt.vars, List.mem_append, List.mem_cons] at hv
    rcases hv with hv | rfl | hv
    · exact (ihh hheader).inner (fun a ha => by simp [blockAtoms, Stmt.atoms, ha]) v hv
    · exact htest.behind.inner hall v List.mem_cons_self
    · exact hbody.behind.inner hall v hv
  | doLoop body test ss ihb ih =>
    obtain ⟨⟨hbody, htest⟩, -, hrest⟩ := h
    have htest : Known (S.enter.behind body) [] [test] :=
      fun v hv => .inl (List.mem_singleton.mp hv ▸ htest.mem)
    refine known_cons (fun v hv => ?_) (ih hrest)
    simp only [Stmt.vars, List.mem_append, List.mem_singleton] at hv
    rcases hv with hv | rfl
    · exact (ihb hbody).inner (fun a ha => by simp [blockAtoms, Stmt.atoms, ha]) v hv
    · exact htest.behind.inner (by simp [blockAtoms, Stmt.atoms]) v List.mem_cons_self
  | block body ss ihb ih =>
    obtain ⟨hbody, -, hrest⟩ := h
    refine known_cons ?_ (ih hrest)
    exact (ihb hbody).inner fun a ha => by simp [blockAtoms, Stmt.atoms, ha]

/-- Every statement of resolved code is resolved in some scopes. -/
theorem blockResolved.atoms (h : blockResolved f S b) :
    ∀ a ∈ blockAtoms b, ∃ S' : Frames, a.Resolved f S' := by
  refine atoms_of_blocks (Q := fun b => ∃ S, blockResolved f S b) ?_ ?_ ?_ ?_ ?_ ⟨S, h⟩
  · rintro s ss hs ⟨S, hfirst, -, hrest⟩
    exact ⟨⟨S, hfirst⟩, _, hrest⟩
  · rintro arms other ss ⟨S, ⟨-, harms, hother⟩, -, hrest⟩
    rw [armsResolved_iff] at harms
    exact ⟨fun arm harm => ⟨_, (harms arm harm).2⟩, ⟨_, hother⟩, _, hrest⟩
  · rintro header test body ss ⟨S, ⟨hheader, -, hbody⟩, -, hrest⟩
    exact ⟨⟨_, hheader⟩, ⟨_, hbody⟩, _, hrest⟩
  · rintro body test ss ⟨S, ⟨hbody, -⟩, -, hrest⟩
    exact ⟨⟨_, hbody⟩, _, hrest⟩
  · rintro body ss ⟨S, hbody, -, hrest⟩
    exact ⟨⟨_, hbody⟩, _, hrest⟩

theorem paramsResolved.word (h : paramsResolved f S vs) :
    ∀ v ∈ vs, isWord (f.varName v) = true := by
  intro v hv
  induction vs generalizing S with
  | nil => cases hv
  | cons w vs ih =>
    rcases List.mem_cons.mp hv with rfl | hv
    · exact h.1.word
    · exact ih h.2.2 hv

theorem mem_foldl_declare : v ∈ (vs.foldl Frames.declare S).flatten ↔ v ∈ vs ∨ v ∈ S.flatten := by
  induction vs generalizing S with
  | nil => simp
  | cons w vs ih => rw [List.foldl_cons, ih, Frames.mem_declare, List.mem_cons, or_left_comm, or_assoc]

namespace Func

theorem Resolves.declared (h : f.Resolves) : ∀ v ∈ f.occurring, v ∈ f.declared := by
  intro v hv
  rcases List.mem_append.mp hv with hparam | hbody
  · exact List.mem_append_left _ hparam
  · rcases h.body.known v hbody with hscope | hdecl
    · have hparam : v ∈ f.params := by simpa using mem_foldl_declare.mp hscope
      exact List.mem_append_left _ hparam
    · exact List.mem_append_right _ hdecl

theorem Resolves.word (h : f.Resolves) : ∀ v ∈ f.occurring, isWord (f.varName v) = true := by
  intro v hv
  rcases List.mem_append.mp (h.declared v hv) with hparam | hdecl
  · exact h.params.word v hparam
  · obtain ⟨e, he⟩ := mem_allDecls.mp hdecl
    obtain ⟨S, -, hfresh⟩ := h.body.atoms _ he
    exact hfresh.word

/-- What is not in the table has no name. -/
theorem lt_of_isWord (h : isWord (f.varName v) = true) : v.idx < f.vars.size := by
  by_contra hlt
  have hdefault : f.info v = default := by simp [info, hlt]
  rw [varName, hdefault] at h
  cases h

theorem Resolves.renumbers (h : f.Resolves) : f.Renumbers f.number f.renumber := by
  refine ⟨rfl, rfl, rfl, rfl, rfl, fun v hv => ?_, fun v hv w hw heq => ?_⟩
  · have hplace : f.renumber.vars[(f.number v).idx]? = some (f.info v) :=
      Numbers.getElem? (V := #[]) (numbers_declared h.once) (h.declared v hv)
    change f.renumber.vars.getD _ _ = _
    rw [Array.getD_eq_getD_getElem?, hplace]
    rfl
  · have hidx : f.declared.idxOf v = f.declared.idxOf w := congrArg Var.idx heq
    exact (List.idxOf_inj (h.declared v hv)).mp hidx

/-- **The names of a function mean their variables exactly if some numbering of its
variables obeys the rules.** The numbering in the order of the text is one then. -/
theorem resolves_iff : f.Resolves ↔ ∃ σ g, f.Renumbers σ g ∧ g.Rule :=
  ⟨fun h => ⟨f.number, f.renumber, h.renumbers, h.rule⟩, fun ⟨_, _, hg, hrule⟩ => hg.resolves hrule⟩

end Func

end

/-! ## One NaN -/

theorem ExprRule.canonical {E : Env} (h : ExprRule E e) : ExprRule E e.canonical := by
  cases e with
  | const c =>
    cases c with
    | real x => trivial
    | int n => exact h
    | bool b => exact h
  | _ => exact h

mutual

theorem StmtRule.canonical {E E' : Env} {s : Stmt} : StmtRule E s E' → StmtRule E s.canonical E'
  | .assign hv he => .assign hv he.canonical
  | .declare he hfree => .declare he.canonical hfree
  | .store hobj hval hfield => .store hobj hval hfield
  | .cond harms => .cond harms.canonical
  | .loop hheader htest hbody => .loop hheader.canonical htest hbody.canonical
  | .doLoop hbody htest => .doLoop hbody.canonical htest
  | .block hbody => .block hbody.canonical
  | .push ht hval => .push ht hval
  | .pushDecision ht hd => .pushDecision ht hd
  | .unreachable => .unreachable
  | .ret hvals => .ret hvals

theorem BlockRule.canonical {E E' : Env} {b : Block} :
    BlockRule E b E' → BlockRule E (canonicalBlock b) E'
  | .nil => .nil
  | .cons (s := s) hs hlast hss => .cons hs.canonical (fun hret => by
      have hs : s = .ret [] := by cases s <;> first | exact hret | cases hret
      rw [hlast hs]
      rfl) hss.canonical

theorem ArmsRule.canonical {E E' : Env} {arms : List (Var × Block)} {other : Block} :
    ArmsRule E arms other E' → ArmsRule E (canonicalArms arms) (canonicalBlock other) E'
  | .last htest hbody hother => .last htest hbody.canonical hother.canonical
  | .cons htest hbody harms => .cons htest hbody.canonical harms.canonical

end

theorem Func.Rule.canonical {f : Func} (h : f.Rule) : f.canonical.Rule := by
  obtain ⟨E, E', hparams, hbody, hvars⟩ := h.body
  exact ⟨h.name, h.attrs, E, E', hparams, hbody.canonical, hvars⟩

section
variable {f : Func}
variable {S : Frames}

theorem Func.Means.of_canonical (h : f.canonical.Means S v) : f.Means S v :=
  ⟨h.word, h.free, h.found⟩

theorem Func.Fresh.of_canonical (h : f.canonical.Fresh S v) : f.Fresh S v :=
  ⟨h.word, h.free, h.new⟩

theorem Expr.Resolved.of_canonical (h : e.canonical.Resolved f.canonical S) : e.Resolved f S := by
  cases e with
  | const c =>
    cases c with
    | real x => trivial
    | int n => exact h
    | bool b => exact h
  | copy v => exact Func.Means.of_canonical h
  | load v field => exact ⟨h.1.of_canonical, h.2⟩
  | op opcode args => exact ⟨h.1, fun v hv => (h.2 v hv).of_canonical⟩
  | call callee args node => exact ⟨h.1, fun v hv => (h.2.1 v hv).of_canonical, h.2.2⟩
  | pop t => exact h
  | topIs t d => exact h

theorem Stmt.Resolved.of_canonical (hs : s.isControlFlow = false)
    (h : s.canonical.Resolved f.canonical S) : s.Resolved f S := by
  cases s, hs using Stmt.atomCases with
  | define dst decl e =>
    cases decl with
    | true => exact ⟨h.1.of_canonical, h.2.of_canonical⟩
    | false => exact ⟨h.1.of_canonical, h.2.of_canonical⟩
  | store obj field val => exact ⟨h.1.of_canonical, h.2.1.of_canonical, h.2.2⟩
  | push t val => exact ⟨h.1, h.2.of_canonical⟩
  | pushDecision t d => exact h
  | unreachable => trivial
  | ret vals => exact fun v hv => (h v hv).of_canonical

theorem Frames.after_canonical (S : Frames) (s : Stmt) : S.after s.canonical = S.after s := by
  rw [Frames.after, s.decl?_canonical, Frames.after]

theorem Frames.behind_canonical (S : Frames) (b : Block) :
    S.behind (canonicalBlock b) = S.behind b := by
  induction b generalizing S with
  | nil => rfl
  | cons s b ih =>
    change (S.after s.canonical).behind (canonicalBlock b) = (S.after s).behind b
    rw [S.after_canonical, ih]

theorem blockResolved.cons_canonical (hs : s.canonical.Resolved f.canonical S → s.Resolved f S)
    (hss : blockResolved f.canonical (S.after s) (canonicalBlock ss) →
      blockResolved f (S.after s) ss) (h : blockResolved f.canonical S (canonicalBlock (s :: ss))) :
    blockResolved f S (s :: ss) := by
  obtain ⟨hfirst, hlast, hrest⟩ := h
  rw [S.after_canonical] at hrest
  refine ⟨hs hfirst, fun hret => ?_, hss hrest⟩
  have hnil := hlast (by rw [hret]; rfl)
  cases ss with
  | nil => rfl
  | cons s' ss => cases hnil

theorem blockResolved.of_canonical (h : blockResolved f.canonical S (canonicalBlock b)) :
    blockResolved f S b := by
  induction b using blockInduction generalizing S with
  | nil => trivial
  | atom s ss hs ih => exact h.cons_canonical (·.of_canonical hs) fun h => ih h
  | cond arms other ss iha iho ih =>
    refine h.cons_canonical (fun h => ?_) fun h => ih h
    obtain ⟨hne, harms, hother⟩ := h
    rw [canonicalArms_eq] at hne harms
    rw [armsResolved_iff] at harms
    refine ⟨fun hnil => hne (by rw [hnil]; rfl), armsResolved_iff.mpr fun arm harm => ?_, iho hother⟩
    obtain ⟨htest, hbody⟩ := harms _ (List.mem_map_of_mem harm)
    exact ⟨htest.of_canonical, iha arm harm hbody⟩
  | loop header test body ss ihh ihb ih =>
    refine h.cons_canonical (fun h => ?_) fun h => ih h
    obtain ⟨hheader, htest, hbody⟩ := h
    rw [Frames.behind_canonical] at htest hbody
    exact ⟨ihh hheader, htest.of_canonical, ihb hbody⟩
  | doLoop body test ss ihb ih =>
    refine h.cons_canonical (fun h => ?_) fun h => ih h
    obtain ⟨hbody, htest⟩ := h
    rw [Frames.behind_canonical] at htest
    exact ⟨ihb hbody, htest.of_canonical⟩
  | block body ss ihb ih => exact h.cons_canonical (fun h => ihb h) fun h => ih h

theorem paramsResolved.of_canonical (h : paramsResolved f.canonical S vs) :
    paramsResolved f S vs := by
  induction vs generalizing S with
  | nil => trivial
  | cons v vs ih => exact ⟨h.1.of_canonical, h.2.1, ih h.2.2⟩

theorem Func.Resolves.of_canonical (h : f.canonical.Resolves) : f.Resolves := by
  refine ⟨h.name, h.attrs, ?_, h.params.of_canonical, h.body.of_canonical⟩
  have honce : (f.params ++ allDecls (canonicalBlock f.body)).Nodup := h.once
  rwa [allDecls_canonical] at honce

end

end Backsweep
