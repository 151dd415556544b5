import Mathlib
import Backsweep.Proofs.Syntax.Scope
import Backsweep.Syntax.Reader

/-!
# Variable tables of functions that were read

Only declarations add to the variable table while a function is read, and each
one is for the entry it adds.

* `Reader.Grows`: an action keeps the entries of the table that are there;
* `Func.IsRead`: the function comes from a text;
* `Func.Tabled`: all declared variables are in the table, and no parameter is
  mutable;
* `Func.IsRead.tabled`: functions that were read are tabled.
-/

open Std.Do

set_option mvcgen.warning false

namespace Backsweep

namespace Reader

variable {V : Array VarInfo}

/-! ## Actions that leave the table alone -/

@[spec] theorem failHere_throws {α : Type} (fault : Fault) :
    ⦃⌜True⌝⦄ (failHere fault : Read α) ⦃⇓? _ => ⌜False⌝⦄ := by
  intro c h
  exact trivial

@[spec] theorem fail_throws {α : Type} (line : Nat) (fault : Fault) :
    ⦃⌜True⌝⦄ (fail line fault : Read α) ⦃⇓? _ => ⌜False⌝⦄ := by
  intro c h
  exact trivial

@[spec] theorem unexpected_throws {α : Type} (what : String) :
    ⦃⌜True⌝⦄ (unexpected what : Read α) ⦃⇓? _ => ⌜False⌝⦄ := by
  intro c h
  exact trivial

@[spec] theorem peek_quiet : ⦃fun c => ⌜c.vars = V⌝⦄ peek ⦃⇓? _ c => ⌜c.vars = V⌝⦄ := by
  mvcgen [peek]

@[spec] theorem advance_quiet : ⦃fun c => ⌜c.vars = V⌝⦄ advance ⦃⇓? _ c => ⌜c.vars = V⌝⦄ := by
  mvcgen [advance]

@[spec] theorem fuel_quiet : ⦃fun c => ⌜c.vars = V⌝⦄ fuel ⦃⇓? _ c => ⌜c.vars = V⌝⦄ := by
  mvcgen [fuel]

@[spec] theorem openScope_quiet : ⦃fun c => ⌜c.vars = V⌝⦄ openScope ⦃⇓? _ c => ⌜c.vars = V⌝⦄ := by
  mvcgen [openScope]

@[spec] theorem closeScope_quiet :
    ⦃fun c => ⌜c.vars = V⌝⦄ closeScope ⦃⇓? _ c => ⌜c.vars = V⌝⦄ := by
  mvcgen [closeScope]

@[spec] theorem accept_quiet (t : Token) :
    ⦃fun c => ⌜c.vars = V⌝⦄ accept t ⦃⇓? _ c => ⌜c.vars = V⌝⦄ := by
  mvcgen [accept] <;> simp_all

@[spec] theorem expect_quiet (t : Token) (what : String) :
    ⦃fun c => ⌜c.vars = V⌝⦄ expect t what ⦃⇓? _ c => ⌜c.vars = V⌝⦄ := by
  mvcgen [expect] <;> simp_all

@[spec] theorem word_quiet (what : String) :
    ⦃fun c => ⌜c.vars = V⌝⦄ word what ⦃⇓? _ c => ⌜c.vars = V⌝⦄ := by
  mvcgen [word] <;> simp_all

@[spec] theorem name_quiet (what : String) :
    ⦃fun c => ⌜c.vars = V⌝⦄ name what ⦃⇓? _ c => ⌜c.vars = V⌝⦄ := by
  mvcgen [name] <;> simp_all

@[spec] theorem tape_quiet (what : String) :
    ⦃fun c => ⌜c.vars = V⌝⦄ tape what ⦃⇓? _ c => ⌜c.vars = V⌝⦄ := by
  mvcgen [tape] <;> simp_all

@[spec] theorem int_quiet (what : String) :
    ⦃fun c => ⌜c.vars = V⌝⦄ int what ⦃⇓? _ c => ⌜c.vars = V⌝⦄ := by
  mvcgen [int] <;> simp_all

@[spec] theorem realOfText_quiet (s : String) :
    ⦃fun c => ⌜c.vars = V⌝⦄ realOfText s ⦃⇓? _ c => ⌜c.vars = V⌝⦄ := by
  mvcgen [realOfText] <;> simp_all

@[spec] theorem real_quiet (what : String) :
    ⦃fun c => ⌜c.vars = V⌝⦄ real what ⦃⇓? _ c => ⌜c.vars = V⌝⦄ := by
  mvcgen [real] <;> simp_all

@[spec] theorem ty_quiet : ⦃fun c => ⌜c.vars = V⌝⦄ ty ⦃⇓? _ c => ⌜c.vars = V⌝⦄ := by
  mvcgen [ty] <;> simp_all

@[spec] theorem lookup_quiet (name : String) :
    ⦃fun c => ⌜c.vars = V⌝⦄ lookup name ⦃⇓? _ c => ⌜c.vars = V⌝⦄ := by
  mvcgen [lookup]
  simp

@[spec] theorem var_quiet (what : String) :
    ⦃fun c => ⌜c.vars = V⌝⦄ var what ⦃⇓? _ c => ⌜c.vars = V⌝⦄ := by
  mvcgen [var]
  simp_all

@[spec] theorem field_quiet : ⦃fun c => ⌜c.vars = V⌝⦄ field ⦃⇓? _ c => ⌜c.vars = V⌝⦄ := by
  mvcgen [field]
  simp_all

@[spec] theorem link_quiet : ⦃fun c => ⌜c.vars = V⌝⦄ link ⦃⇓? _ c => ⌜c.vars = V⌝⦄ := by
  mvcgen [link] <;> simp_all

@[spec] theorem bool_quiet : ⦃fun c => ⌜c.vars = V⌝⦄ bool ⦃⇓? _ c => ⌜c.vars = V⌝⦄ := by
  mvcgen [bool] <;> simp_all

theorem separated_quiet {α : Type} {item : Read α}
    (h : ∀ V, ⦃fun c => ⌜c.vars = V⌝⦄ item ⦃⇓? _ c => ⌜c.vars = V⌝⦄) (close : Token)
    (what : String) (n : Nat) :
    ⦃fun c => ⌜c.vars = V⌝⦄ separated item close what n ⦃⇓? _ c => ⌜c.vars = V⌝⦄ := by
  induction n generalizing V with
  | zero => mvcgen [separated]; simp
  | succ n ih => mvcgen [separated, h, ih] <;> simp_all

theorem commaSeparated_quiet {α : Type} {item : Read α}
    (h : ∀ V, ⦃fun c => ⌜c.vars = V⌝⦄ item ⦃⇓? _ c => ⌜c.vars = V⌝⦄) (n : Nat) :
    ⦃fun c => ⌜c.vars = V⌝⦄ commaSeparated item n ⦃⇓? _ c => ⌜c.vars = V⌝⦄ := by
  induction n generalizing V with
  | zero => mvcgen [commaSeparated]
  | succ n ih => mvcgen [commaSeparated, h, ih] <;> simp_all

@[spec] theorem call_quiet : ⦃fun c => ⌜c.vars = V⌝⦄ call ⦃⇓? _ c => ⌜c.vars = V⌝⦄ := by
  have args {V : Array VarInfo} (close : Token) (what : String) (n : Nat) :=
    separated_quiet (V := V) (fun _ => var_quiet "argument") close what n
  mvcgen [call, args] <;> simp_all

@[spec] theorem operands_quiet (n : Nat) :
    ⦃fun c => ⌜c.vars = V⌝⦄ operands n ⦃⇓? _ c => ⌜c.vars = V⌝⦄ := by
  induction n using operands.induct generalizing V with
  | case1 => mvcgen [operands]
  | case2 =>
    mvcgen [operands]
    simp_all
  | case3 n hn ih =>
    cases n with
    | zero => exact absurd rfl hn
    | succ n =>
      mvcgen [operands, ih]
      simp_all

@[spec] theorem expr_quiet : ⦃fun c => ⌜c.vars = V⌝⦄ expr ⦃⇓? _ c => ⌜c.vars = V⌝⦄ := by
  mvcgen [expr] <;> simp_all

@[spec] theorem storeStmt_quiet :
    ⦃fun c => ⌜c.vars = V⌝⦄ storeStmt ⦃⇓? s c => ⌜c.vars = V ∧ allDecls [s] = []⌝⦄ := by
  mvcgen [storeStmt]
  simp_all [allDecls, blockAtoms, Stmt.atoms, Stmt.decl?]

@[spec] theorem pushStmt_quiet :
    ⦃fun c => ⌜c.vars = V⌝⦄ pushStmt ⦃⇓? s c => ⌜c.vars = V ∧ allDecls [s] = []⌝⦄ := by
  mvcgen [pushStmt] <;> simp_all [allDecls, blockAtoms, Stmt.atoms, Stmt.decl?]

@[spec] theorem returnStmt_quiet :
    ⦃fun c => ⌜c.vars = V⌝⦄ returnStmt ⦃⇓? s c => ⌜c.vars = V ∧ allDecls [s] = []⌝⦄ := by
  have vals {V : Array VarInfo} (n : Nat) :=
    commaSeparated_quiet (V := V) (fun _ => var_quiet "return value") n
  mvcgen [returnStmt, vals] <;> simp_all [allDecls, blockAtoms, Stmt.atoms, Stmt.decl?]

@[spec] theorem assignment_quiet (s : String) :
    ⦃fun c => ⌜c.vars = V⌝⦄ assignment s ⦃⇓? s c => ⌜c.vars = V ∧ allDecls [s] = []⌝⦄ := by
  mvcgen [assignment]
  simp_all [allDecls, blockAtoms, Stmt.atoms, Stmt.decl?]

/-! ## Declarations -/

/-- The second table has the entries of the first, and maybe more. -/
def Extends (V W : Array VarInfo) : Prop := V.toList <+: W.toList

theorem Extends.refl (V : Array VarInfo) : Extends V V := List.prefix_refl _

theorem Extends.trans {U V W : Array VarInfo} (h : Extends U V) (h' : Extends V W) : Extends U W :=
  List.IsPrefix.trans h h'

theorem Extends.push (V : Array VarInfo) (i : VarInfo) : Extends V (V.push i) := by
  simp [Extends]

theorem Extends.size {V W : Array VarInfo} (h : Extends V W) : V.size ≤ W.size := by
  simpa using h.length_le

theorem Extends.getD {V W : Array VarInfo} (h : Extends V W) {i : Nat} (hi : i < V.size) :
    W.getD i default = V.getD i default := by
  obtain ⟨t, ht⟩ := h
  have hW : W.toList[i]? = V.toList[i]? := by
    rw [← ht]
    exact List.getElem?_append_left (by simpa using hi)
  simpa [Array.getD_eq_getD_getElem?] using congrArg (·.getD default) hW

@[spec] theorem declare_grows (name : String) (ty : Ty) (mutable : Bool) (line : Nat) :
    ⦃fun c => ⌜c.vars = V⌝⦄ declare name ty mutable line
    ⦃⇓? v c => ⌜c.vars = V.push ⟨name, ty, mutable⟩ ∧ v.idx = V.size⌝⦄ := by
  mvcgen [declare]
  simp_all +zetaDelta

/-- The second table extends the first one, and has the given variables. -/
def Adds (V W : Array VarInfo) (vs : List Var) : Prop := Extends V W ∧ ∀ v ∈ vs, v.idx < W.size

theorem Adds.nil (V : Array VarInfo) : Adds V V [] := ⟨.refl V, by simp⟩

theorem Adds.append {U V W : Array VarInfo} {vs ws : List Var} (h : Adds U V vs)
    (h' : Adds V W ws) : Adds U W (vs ++ ws) := by
  refine ⟨h.1.trans h'.1, fun v hv => ?_⟩
  rcases List.mem_append.mp hv with hv | hv
  · exact Nat.lt_of_lt_of_le (h.2 v hv) h'.1.size
  · exact h'.2 v hv

theorem Adds.declare (V : Array VarInfo) (i : VarInfo) {v : Var} (hv : v.idx = V.size) :
    Adds V (V.push i) [v] := ⟨.push V i, by simp [hv]⟩

/-- Reading a block adds the variables it declares to the table. -/
def Grows (act : Read Block) : Prop :=
  ∀ V, ⦃fun c => ⌜c.vars = V⌝⦄ act ⦃⇓? b c => ⌜Adds V c.vars (allDecls b)⌝⦄

theorem allDecls_cons (s : Stmt) (b : Block) : allDecls (s :: b) = allDecls [s] ++ allDecls b :=
  allDecls_append [s] b

theorem allDecls_nil : allDecls [] = [] := rfl

theorem allDecls_unreachable : allDecls [.unreachable] = [] := rfl

theorem allDecls_cond_cons (test : Var) (body other : Block) (arms : List (Var × Block)) :
    allDecls [.cond ((test, body) :: arms) other] =
      allDecls body ++ allDecls [.cond arms other] := by
  simp [allDecls, blockAtoms, Stmt.atoms, armsAtoms]

theorem allDecls_cond_nil (other : Block) : allDecls [.cond [] other] = allDecls other := by
  simp [allDecls, blockAtoms, Stmt.atoms, armsAtoms]

theorem allDecls_loop (header body : Block) (test : Var) :
    allDecls [.loop header test body] = allDecls header ++ allDecls body := by
  simp [allDecls, blockAtoms, Stmt.atoms]

theorem allDecls_doLoop (body : Block) (test : Var) :
    allDecls [.doLoop body test] = allDecls body := by
  simp [allDecls, blockAtoms, Stmt.atoms]

theorem allDecls_block (body : Block) : allDecls [.block body] = allDecls body := by
  simp [allDecls, blockAtoms, Stmt.atoms]

theorem allDecls_let (v : Var) (e : Expr) : allDecls [.define v true e] = [v] := rfl

@[spec] theorem letStmt_grows :
    ⦃fun c => ⌜c.vars = V⌝⦄ letStmt ⦃⇓? s c => ⌜Adds V c.vars (allDecls [s])⌝⦄ := by
  mvcgen [letStmt]
  simp_all [allDecls_let, Adds.declare]

theorem block_grows {stmts : Read Block} (h : Grows stmts) : Grows (block stmts) := by
  intro V
  have hstmts (V) := h V
  mvcgen [block, hstmts]
  simp_all

theorem arms_grows {stmts : Read Block} (h : Grows stmts) (n : Nat) :
    ⦃fun c => ⌜c.vars = V⌝⦄ arms stmts n
    ⦃⇓? r c => ⌜Adds V c.vars (allDecls [.cond r.1 r.2])⌝⦄ := by
  induction n generalizing V with
  | zero => mvcgen [arms]; simp
  | succ n ih =>
    have hblock (V) := block_grows h V
    mvcgen [arms, ih, hblock] <;>
      grind [Adds.append, allDecls_cond_cons, allDecls_cond_nil]

theorem whileStmt_grows {stmts : Read Block} (h : Grows stmts) :
    ⦃fun c => ⌜c.vars = V⌝⦄ whileStmt stmts ⦃⇓? s c => ⌜Adds V c.vars (allDecls [s])⌝⦄ := by
  have hstmts (V) := h V
  have hblock (V) := block_grows h V
  mvcgen [whileStmt, hstmts, hblock]
  grind [Adds.append, allDecls_loop]

theorem doStmt_grows {stmts : Read Block} (h : Grows stmts) :
    ⦃fun c => ⌜c.vars = V⌝⦄ doStmt stmts ⦃⇓? s c => ⌜Adds V c.vars (allDecls [s])⌝⦄ := by
  have hstmts (V) := h V
  mvcgen [doStmt, hstmts]
  grind [allDecls_doLoop]

theorem stmt_grows {stmts : Read Block} (h : Grows stmts) (n : Nat) :
    ⦃fun c => ⌜c.vars = V⌝⦄ stmt stmts n ⦃⇓? s c => ⌜Adds V c.vars (allDecls [s])⌝⦄ := by
  have hblock (V) := block_grows h V
  have harms {V : Array VarInfo} := arms_grows (V := V) h
  have hwhile {V : Array VarInfo} := whileStmt_grows (V := V) h
  have hdo {V : Array VarInfo} := doStmt_grows (V := V) h
  mvcgen [stmt, hblock, harms, hwhile, hdo] <;>
    grind [Adds.nil, allDecls_block, allDecls_unreachable]

theorem stmts_grows (n : Nat) : Grows (stmts n) := by
  induction n with
  | zero => intro V; mvcgen [stmts]; simp
  | succ n ih =>
    intro V
    have hstmts (V) := ih V
    have hstmt {V : Array VarInfo} := stmt_grows (V := V) ih
    mvcgen [stmts, hstmts, hstmt] <;>
      grind [Adds.nil, Adds.append, allDecls_nil, allDecls_cons]

/-! ## Functions -/

theorem of_triple {α : Type} {act : Read α} {post : α → Prop}
    (h : ⦃⌜True⌝⦄ act ⦃⇓? x => ⌜post x⌝⦄) {c c' : Cursor} {x : α} (hx : act c = .ok (x, c')) :
    post x := by
  have hc := h c trivial
  change ((wp (act c)).apply (fun r => ⌜post r.1⌝, ExceptConds.true)).down at hc
  rw [hx] at hc
  exact hc

theorem any_triple {α : Type} (act : Read α) : ⦃⌜True⌝⦄ act ⦃⇓? _ => ⌜True⌝⦄ := by
  intro c h
  change ((wp (act c)).apply (fun _ => ⌜True⌝, ExceptConds.true)).down
  cases act c with
  | ok r => exact trivial
  | error e => exact trivial

@[spec] theorem returns_quiet : ⦃fun c => ⌜c.vars = V⌝⦄ returns ⦃⇓? _ c => ⌜c.vars = V⌝⦄ := by
  have tys {V : Array VarInfo} (n : Nat) := commaSeparated_quiet (V := V) (fun _ => ty_quiet) n
  mvcgen [returns, tys] <;> simp_all

/-- Parameters are immutable entries of the table. -/
def Parameters (V W : Array VarInfo) (vs : List Var) : Prop :=
  Adds V W vs ∧ ∀ v ∈ vs, (W.getD v.idx default).mutable = false

@[spec] theorem param_grows :
    ⦃fun c => ⌜c.vars = V⌝⦄ param ⦃⇓? v c => ⌜Parameters V c.vars [v]⌝⦄ := by
  mvcgen [param]
  simp_all [Parameters, Adds.declare]

theorem Parameters.cons {U V W : Array VarInfo} {v : Var} {vs : List Var}
    (h : Parameters U V [v]) (h' : Parameters V W vs) : Parameters U W (v :: vs) := by
  refine ⟨h.1.append h'.1, fun w hw => ?_⟩
  rcases List.mem_cons.mp hw with rfl | hw
  · rw [h'.1.1.getD (h.1.2 w (by simp))]
    exact h.2 w (by simp)
  · exact h'.2 w hw

theorem separated_params (close : Token) (what : String) (n : Nat) :
    ⦃fun c => ⌜c.vars = V⌝⦄ separated param close what n
    ⦃⇓? vs c => ⌜Parameters V c.vars vs⌝⦄ := by
  induction n generalizing V with
  | zero => mvcgen [separated]; simp
  | succ n ih => mvcgen [separated, ih] <;> grind [Parameters.cons]

@[spec] theorem params_grows :
    ⦃fun c => ⌜c.vars = V⌝⦄ params ⦃⇓? vs c => ⌜Parameters V c.vars vs⌝⦄ := by
  have list {V : Array VarInfo} := separated_params (V := V)
  have none (V : Array VarInfo) : Parameters V V [] := ⟨.nil V, by simp⟩
  mvcgen [params, list] <;> simp_all

end Reader

/-- All declared variables are in the table, and no parameter is mutable. -/
structure Func.Tabled (f : Func) : Prop where
  params : ∀ v ∈ f.params, v.idx < f.vars.size
  decls : ∀ v ∈ allDecls f.body, v.idx < f.vars.size
  immutable : ∀ v ∈ f.params, (f.info v).mutable = false

namespace Reader

theorem func_tabled : ⦃⌜True⌝⦄ func ⦃⇓? f => ⌜f.Tabled⌝⦄ := by
  have hattrs (n : Nat) := any_triple (attrs n)
  have hbody {V : Array VarInfo} (n : Nat) := block_grows (stmts_grows n) V
  mvcgen [func, hattrs, hbody]
  rename_i params c₁ hparams _ c₂ h₂ _ c₃ h₃ body c₄ hbody
  rw [h₃, h₂] at hbody
  obtain ⟨hadds, himm⟩ := hparams
  have hall := hadds.append hbody
  refine ⟨fun v hv => hall.2 v (by simp [hv]), fun v hv => hall.2 v (by simp [hv]), fun v hv => ?_⟩
  change (c₄.vars.getD v.idx default).mutable = false
  rw [hbody.1.getD (hadds.2 v hv)]
  exact himm v hv

theorem funcs_tabled (n : Nat) : ⦃⌜True⌝⦄ funcs n ⦃⇓? fs => ⌜∀ f ∈ fs, f.Tabled⌝⦄ := by
  have hfunc := func_tabled
  induction n with
  | zero => mvcgen [funcs]; simp
  | succ n ih => mvcgen [funcs, hfunc, ih] <;> simp_all

theorem single_tabled : ⦃⌜True⌝⦄ single ⦃⇓? f => ⌜f.Tabled⌝⦄ := by
  have hfunc := func_tabled
  mvcgen [single, hfunc]

theorem all_tabled : ⦃⌜True⌝⦄ all ⦃⇓? fs => ⌜∀ f ∈ fs, f.Tabled⌝⦄ := by
  have hfuncs := funcs_tabled
  mvcgen [all, hfuncs]

end Reader

/-- The function is what a text reads as, alone or among others. -/
def Func.IsRead (f : Func) : Prop :=
  (∃ text, Func.read text = .ok f) ∨ ∃ text fs, Func.readAll text = .ok fs ∧ f ∈ fs

/-- Running an action from a cursor and dropping the cursor. -/
theorem Reader.run_eq_ok {α : Type} {act : Reader.Read α} {c : Reader.Cursor} {x : α}
    (h : act.run' c = .ok x) : ∃ c', act c = .ok (x, c') := by
  change (fun r : α × Reader.Cursor => r.1) <$> act c = .ok x at h
  cases hc : act c with
  | error e => rw [hc] at h; cases h
  | ok r =>
    rw [hc] at h
    cases h
    exact ⟨r.2, rfl⟩

/-- **Functions that were read have their variables in the table.** -/
theorem Func.IsRead.tabled {f : Func} (h : f.IsRead) : f.Tabled := by
  rcases h with ⟨text, h⟩ | ⟨text, fs, h, hf⟩
  · obtain ⟨c, hc⟩ := Reader.run_eq_ok h
    exact Reader.of_triple Reader.single_tabled hc
  · obtain ⟨c, hc⟩ := Reader.run_eq_ok h
    exact Reader.of_triple Reader.all_tabled hc f hf

end Backsweep
