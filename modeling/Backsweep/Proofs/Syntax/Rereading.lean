import Mathlib
import Backsweep.Proofs.Run.Execution
import Backsweep.Proofs.Syntax.Accepted

/-!
# Reading the tokens of a function

The tokens of a function that obeys the rules read as that function.

* `Reader.Yields`: what an action makes of some tokens;
* `Reader.yields_expr`: expressions;
* `Reader.yields_stmt`, `Reader.yields_stmts`, `Reader.yields_arms`: statements, by
  the rules they obey;
* `Reader.yields_func`: functions.
-/

namespace Backsweep

variable {t : Token} {n : Nat} {v test : Var} {vs : List Var} {e : Expr} {body other : Block}
  {as : List (Var × Block)}

/-- The real reads back from its text, up to the choice of NaN. -/
def Real64.ReadsBack (x : Float) : Prop :=
  ∃ y, Decimal.read? (Real64.literal x) = some y ∧ Real64.canonical y = Real64.canonical x

/-- All reals of the block read back. -/
def RealsReadBack (b : Block) : Prop :=
  ∀ dst decl x, Stmt.define dst decl (.const (.real x)) ∈ blockAtoms b → Real64.ReadsBack x

namespace Reader

/-! ## Actions on tokens -/

/-- The cursor stands behind `E` and in front of the tokens. -/
structure Cursor.Stands (c : Cursor) (E : Env) (ts : List Token) : Prop where
  env : c.env = E
  ahead : c.rest.map Lexeme.token = ts.map some

/-- What the action makes of the tokens. -/
def Yields {α : Type} (act : Read α) (E : Env) (ts : List Token) (a : α) (E' : Env)
    (ts' : List Token) : Prop :=
  ∀ c : Cursor, c.Stands E ts → ∃ c' : Cursor, act c = .ok (a, c') ∧ c'.Stands E' ts'

section
variable {α β : Type} {E E₁ E₂ : Env} {ts ts₁ ts₂ : List Token}

theorem Yields.bind {act : Read α} {f : α → Read β} {a : α} {b : β}
    (h : Yields act E ts a E₁ ts₁) (hf : Yields (f a) E₁ ts₁ b E₂ ts₂) :
    Yields (act >>= f) E ts b E₂ ts₂ := by
  intro c hc
  obtain ⟨c₁, hact, hc₁⟩ := h c hc
  obtain ⟨c₂, hfa, hc₂⟩ := hf c₁ hc₁
  exact ⟨c₂, (bind_of_ok hact).trans hfa, hc₂⟩

theorem yields_pure (a : α) : Yields (pure a) E ts a E ts := fun c hc => ⟨c, rfl, hc⟩

theorem Cursor.Stands.cons {c : Cursor} (h : c.Stands E (t :: ts)) :
    ∃ line rest, c.rest = ⟨line, some t⟩ :: rest ∧ rest.map Lexeme.token = ts.map some := by
  have hahead := h.ahead
  cases hrest : c.rest with
  | nil => rw [hrest] at hahead; cases hahead
  | cons l rest =>
    rw [hrest] at hahead
    obtain ⟨hl, hts⟩ := List.cons.inj hahead
    obtain ⟨line, token⟩ := l
    cases hl
    exact ⟨line, rest, rfl, hts⟩

theorem yields_peek (t : Token) : Yields peek E (t :: ts) (some t) E (t :: ts) := by
  intro c hc
  obtain ⟨line, rest, hrest, hts⟩ := hc.cons
  exact ⟨_, peek_token hrest, hc.env, hc.ahead⟩

theorem yields_peek_nil : Yields peek E [] none E [] := by
  intro c hc
  have hrest : c.rest = [] := by simpa using hc.ahead
  exact ⟨c, peek_nil hrest, hc⟩

theorem yields_advance (t : Token) : Yields advance E (t :: ts) () E ts := by
  intro c hc
  obtain ⟨line, rest, hrest, hts⟩ := hc.cons
  refine ⟨_, rfl, hc.env, ?_⟩
  change (c.rest.tail).map Lexeme.token = _
  rw [hrest]
  exact hts

theorem yields_fuel : Yields fuel E ts (ts.length + 1) E ts := by
  intro c hc
  have hlength : c.rest.length = ts.length := by simpa using congrArg List.length hc.ahead
  refine ⟨c, ?_, hc⟩
  change Except.ok (c.rest.length + 1, c) = _
  rw [hlength]

theorem yields_get {act : Cursor → Read α} {a : α} (h : ∀ c, Yields (act c) E ts a E₁ ts₁) :
    Yields (get >>= act) E ts a E₁ ts₁ := fun c hc => h c c hc

theorem yields_accept (t : Token) : Yields (accept t) E (t :: ts) true E ts := by
  unfold accept
  refine (yields_peek t).bind ?_
  rw [if_pos (by simp)]
  exact (yields_advance t).bind (yields_pure true)

theorem yields_accept_ne {t' : Token} (h : t' ≠ t) :
    Yields (accept t) E (t' :: ts) false E (t' :: ts) := by
  unfold accept
  refine (yields_peek t').bind ?_
  rw [if_neg (by simpa using h)]
  exact yields_pure false

theorem yields_expect (t : Token) (what : String) : Yields (expect t what) E (t :: ts) () E ts := by
  unfold expect
  exact (yields_accept t).bind (yields_pure ())

theorem yields_word (s what : String) : Yields (word what) E (.word s :: ts) s E ts := by
  unfold word
  exact (yields_peek _).bind ((yields_advance _).bind (yields_pure s))

theorem yields_name (s what : String) : Yields (name what) E (.name s :: ts) s E ts := by
  unfold name
  exact (yields_peek _).bind ((yields_advance _).bind (yields_pure s))

theorem yields_tape (t : Tape) (what : String) : Yields (tape what) E (.tape t :: ts) t E ts := by
  unfold tape
  exact (yields_peek _).bind ((yields_advance _).bind (yields_pure t))

theorem sign_toDigits (n : Nat) : Decimal.sign (Nat.toDigits 10 n) = (false, Nat.toDigits 10 n) := by
  cases hcs : Nat.toDigits 10 n with
  | nil => rfl
  | cons c cs =>
    have hc : c.isDigit = true := isDigit_toDigits (n := n) (by simp [hcs])
    unfold Decimal.sign
    split
    · rename_i heq
      obtain ⟨rfl, -⟩ := List.cons.inj heq
      cases hc
    · rename_i heq
      obtain ⟨rfl, -⟩ := List.cons.inj heq
      cases hc
    · rfl

theorem intValue_toString (n : Int) : intValue (toString n) = n := by
  unfold intValue
  rw [toList_int]
  split
  · rename_i hn
    rw [sign_toDigits]
    change ((Token.natOf (Nat.toDigits 10 n.toNat) : Nat) : Int) = n
    rw [natOf_toDigits]
    omega
  · rename_i hn
    change -((Token.natOf (Nat.toDigits 10 (-n).toNat) : Nat) : Int) = n
    rw [natOf_toDigits]
    omega

theorem yields_int {n : Int} (hn : IsInt32 n) (what : String) :
    Yields (int what) E (.integer (toString n) :: ts) n E ts := by
  have hread : int32? (toString n) = some n := int32?_eq_some.mpr ⟨intValue_toString n, hn⟩
  unfold int
  refine (yields_peek _).bind ((yields_advance _).bind ?_)
  rw [hread]
  exact yields_pure n

theorem yields_real {s : String} {x : Float} (h : Decimal.read? s = some x) (what : String) :
    Yields (real what) E (.float s :: ts) x E ts := by
  unfold real
  refine (yields_peek _).bind ?_
  change Yields (realOfText s) _ _ _ _ _
  unfold realOfText
  refine (yields_advance _).bind ?_
  rw [h]
  exact yields_pure x

theorem yields_ty (t : Ty) : Yields ty E (.word t.name :: ts) t E ts := by
  have hname : Ty.ofName? t.name = some t := by cases t <;> decide
  unfold ty
  refine (yields_word _ _).bind ?_
  rw [hname]
  exact yields_pure t

/-! ## Lists -/

/-- Items up to a closing token. Each one ends in front of a comma or that token. -/
theorem yields_separated {item : Read α} {toks : α → List Token} {close : Token}
    (hclose : close ≠ .comma) {as : List α} (has : as ≠ [])
    (hitem : ∀ a ∈ as, ∀ r : List Token, (∃ t r', r = t :: r' ∧ (t = .comma ∨ t = close)) →
      Yields item E (toks a ++ r) a E r) (what : String) (hn : as.length ≤ n) :
    Yields (separated item close what n) E (commas (as.map toks) ++ close :: ts) as E ts := by
  induction as generalizing n with
  | nil => exact absurd rfl has
  | cons a as ih =>
    obtain ⟨n, rfl⟩ : ∃ m, n = m + 1 := ⟨n - 1, by simp at hn; omega⟩
    have ha := hitem a List.mem_cons_self
    unfold separated
    cases as with
    | nil =>
      refine (ha (close :: ts) ⟨close, ts, rfl, .inr rfl⟩).bind ?_
      exact (yields_accept close).bind (yields_pure [a])
    | cons a' as =>
      have hrest := ih (by simp) (fun b hb => hitem b (List.mem_cons_of_mem a hb))
        (n := n) (by simpa using hn)
      have htokens : commas ((a :: a' :: as).map toks) ++ close :: ts =
          toks a ++ .comma :: (commas ((a' :: as).map toks) ++ close :: ts) := by
        simp [commas]
      rw [htokens]
      refine (ha _ ⟨_, _, rfl, .inl rfl⟩).bind ?_
      refine (yields_accept_ne (Ne.symm hclose)).bind ?_
      refine (yields_expect _ _).bind ?_
      exact hrest.bind (yields_pure (a :: a' :: as))

/-- Items with no comma behind the last one. -/
theorem yields_commaSeparated {item : Read α} {toks : α → List Token} {as : List α} (has : as ≠ [])
    (hitem : ∀ a ∈ as, ∀ r : List Token, Yields item E (toks a ++ r) a E r) (ht : t ≠ .comma)
    (hn : as.length ≤ n) :
    Yields (commaSeparated item n) E (commas (as.map toks) ++ t :: ts) as E (t :: ts) := by
  induction as generalizing n with
  | nil => exact absurd rfl has
  | cons a as ih =>
    obtain ⟨n, rfl⟩ : ∃ m, n = m + 1 := ⟨n - 1, by simp at hn; omega⟩
    have ha := hitem a List.mem_cons_self
    unfold commaSeparated
    cases as with
    | nil =>
      refine (ha (t :: ts)).bind ?_
      exact (yields_accept_ne ht).bind (yields_pure [a])
    | cons a' as =>
      have hrest := ih (by simp) (fun b hb => hitem b (List.mem_cons_of_mem a hb))
        (n := n) (by simpa using hn)
      have htokens : commas ((a :: a' :: as).map toks) ++ t :: ts =
          toks a ++ .comma :: (commas ((a' :: as).map toks) ++ t :: ts) := by
        simp [commas]
      rw [htokens]
      refine (ha _).bind ?_
      refine (yields_accept _).bind ?_
      exact hrest.bind (yields_pure (a :: a' :: as))

theorem length_commas {items : List (List Token)} (h : ∀ i ∈ items, i ≠ []) :
    items.length ≤ (commas items).length := by
  induction items with
  | nil => exact Nat.le_refl 0
  | cons i items ih =>
    have hi : 0 < i.length := List.length_pos_iff.mpr (h i List.mem_cons_self)
    have hrest := ih fun j hj => h j (List.mem_cons_of_mem i hj)
    cases items with
    | nil => exact hi
    | cons j items =>
      simp only [commas, List.length_append, List.length_cons] at hrest ⊢
      omega

/-! ## Variables -/

theorem yields_lookup (hv : E.Means v) : Yields (lookup (E.varName v)) E ts v E ts := by
  intro c hc
  refine ⟨c, ?_, hc⟩
  have hscopes : c.scopes = E.scopes := congrArg Env.scopes hc.env
  have hfound : c.scopes.findSome? (findIn (E.varName v)) = some v := by
    rw [hscopes]
    exact hv.found
  rw [lookup_apply, hfound]

theorem yields_openScope : Yields openScope E ts () E.enter ts := by
  intro c hc
  refine ⟨_, rfl, ?_, hc.ahead⟩
  rw [← hc.env]
  rfl

theorem yields_closeScope : Yields closeScope E ts () E.leave ts := by
  intro c hc
  refine ⟨_, rfl, ?_, hc.ahead⟩
  rw [← hc.env]
  rfl

theorem yields_declare {name : String} (h : E.Free name) (t : Ty) (mutable : Bool) (line : Nat) :
    Yields (declare name t mutable line) E ts ⟨E.vars.size⟩ (E.declare ⟨name, t, mutable⟩) ts := by
  intro c hc
  obtain ⟨henv, hahead⟩ := hc
  subst henv
  have hnew : findIn name (c.scopes.headD []) = none := h.new
  refine ⟨{ c with
    vars := c.vars.push ⟨name, t, mutable⟩
    scopes := ((name, ⟨c.vars.size⟩) :: c.scopes.headD []) :: c.scopes.tail }, ?_, rfl, hahead⟩
  unfold declare
  rw [h.free]
  change (if (findIn name (c.scopes.headD [])).isSome then fail line (.redeclared name) >>= _
    else _ : Read Var) c = _
  rw [hnew]
  rfl

end

/-! ## Expressions -/

section
variable {f : Func} {E : Env} {r : List Token}

/-- The table of the function goes on from the variables so far. -/
def Within (E : Env) (f : Func) : Prop := Extends E.vars f.vars

theorem Within.varName (hE : Within E f) (hv : v.idx < E.vars.size) :
    f.varName v = E.varName v := congrArg VarInfo.name (Extends.getD hE hv)

theorem Within.info {info : VarInfo} (hE : Within (E.declare info) f) :
    f.info ⟨E.vars.size⟩ = info := by
  have h := Extends.getD hE (i := E.vars.size) (by simp [Env.declare])
  exact h.trans (by simp [Env.declare, Array.getD_eq_getD_getElem?])

theorem yields_var (hE : Within E f) (hv : E.Means v) (what : String) :
    Yields (var what) E (.word (f.varName v) :: r) v E r := by
  unfold var
  rw [hE.varName hv.lt]
  exact (yields_word _ _).bind (yields_lookup hv)

theorem length_argTokens (args : List Var) : args.length ≤ (f.argTokens args).length := by
  have hne : ∀ i ∈ args.map fun v => [Token.word (f.varName v)], i ≠ [] := by simp
  simpa [Func.argTokens] using length_commas hne

theorem argTokens_cons (f : Func) (v : Var) (vs : List Var) :
    ∃ ts, f.argTokens (v :: vs) = .word (f.varName v) :: ts := by
  cases vs with
  | nil => exact ⟨[], rfl⟩
  | cons v' vs => exact ⟨_, rfl⟩

theorem yields_operands (hE : Within E f) (hvs : ∀ v ∈ vs, E.Means v) :
    Yields (operands vs.length) E (f.argTokens vs ++ r) vs E r := by
  induction vs with
  | nil => exact yields_pure []
  | cons v vs ih =>
    have hv := yields_var (r := r) hE (hvs v List.mem_cons_self) "operand"
    cases vs with
    | nil => exact hv.bind (yields_pure [v])
    | cons v' vs =>
      have hrest := ih fun w hw => hvs w (List.mem_cons_of_mem v hw)
      rw [List.length_cons, List.length_cons, operands]
      · refine (yields_var hE (hvs v List.mem_cons_self) _).bind ?_
        refine (yields_expect _ _).bind ?_
        exact hrest.bind (yields_pure (v :: v' :: vs))
      · simp

theorem yields_field (hE : Within E f) (hv : E.Means v) (field : String) :
    Yields Reader.field E (.word (f.varName v) :: .dot :: .word field :: r) (v, field) E r := by
  unfold Reader.field
  refine (yields_var hE hv _).bind ?_
  refine (yields_expect _ _).bind ?_
  exact (yields_word _ _).bind (yields_pure (v, field))

/-- A statement can follow, or the end of the block. -/
def Starts (r : List Token) : Prop :=
  ∃ t r', r = t :: r' ∧ (t = .rbrace ∨ t = .lbrace ∨ ∃ s, t = .word s)

theorem yields_link (node : Option String) (hr : Starts r) :
    Yields link E (Func.linkTokens node ++ r) node E r := by
  unfold link
  cases node with
  | none =>
    obtain ⟨t, r', rfl, ht⟩ := hr
    have hne : t ≠ .lbracket := by
      rintro rfl
      simp at ht
    exact (yields_accept_ne hne).bind (yields_pure none)
  | some s =>
    refine (yields_accept _).bind ?_
    refine (yields_expect _ _).bind ?_
    refine (yields_word _ _).bind ?_
    exact (yields_expect _ _).bind (yields_pure (some s))

theorem yields_call (hE : Within E f) {callee : String} {args : List Var}
    (hargs : ∀ v ∈ args, E.Means v) (node : Option String) (hr : Starts r) :
    Yields call E (.name callee :: .lpar ::
      (f.argTokens args ++ .rpar :: (Func.linkTokens node ++ r))) (.call callee args node) E r := by
  unfold call
  refine (yields_name _ _).bind ?_
  refine (yields_expect _ _).bind ?_
  cases args with
  | nil =>
    refine (yields_accept _).bind ?_
    refine (yields_pure []).bind ?_
    exact (yields_link node hr).bind (yields_pure _)
  | cons v vs =>
    have hlength := length_argTokens (f := f) (v :: vs)
    have haccept (ts : List Token) : Yields (accept .rpar) E (f.argTokens (v :: vs) ++ ts) false E
        (f.argTokens (v :: vs) ++ ts) := by
      obtain ⟨ts', hts'⟩ := argTokens_cons f v vs
      rw [hts']
      exact yields_accept_ne (by simp)
    refine (haccept _).bind ?_
    refine yields_fuel.bind ?_
    refine (yields_separated (by simp) (by simp) (fun w hw r' _ => yields_var hE (hargs w hw) _) _
      ?_).bind ?_
    · simp only [List.length_append]
      omega
    · exact (yields_link node hr).bind (yields_pure _)

theorem yields_bool (b : Bool) : Yields bool E (.word (toString b) :: r) b E r := by
  unfold bool
  cases b with
  | true => exact (yields_word _ _).bind (yields_pure true)
  | false => exact (yields_word _ _).bind (yields_pure false)

theorem yields_operation (hE : Within E f) {op : Opcode} {args : List Var}
    (he : ExprRule E (.op op args)) (r : List Token) :
    Yields (match Opcode.ofName? op.name with
      | some opcode => operands opcode.arity >>= fun vs => pure (Expr.op opcode vs)
      | none => failHere (.unknownOpcode op.name)) E (f.argTokens args ++ r) (.op op args) E r := by
  have hop : Opcode.ofName? op.name = some op := by cases op <;> decide
  have hargs := yields_operands (r := r) hE he.2
  rw [he.1] at hargs
  rw [hop]
  exact hargs.bind (yields_pure _)

/-- **Expressions read as they are**, up to the choice of NaN. -/
theorem yields_expr (hE : Within E f) (he : ExprRule E e)
    (hreal : ∀ x, e = .const (.real x) → Real64.ReadsBack x) :
    ∃ e', e'.canonical = e.canonical ∧ ∀ r, Starts r →
      Yields expr E (f.exprTokens e ++ r) e' E r := by
  cases e with
  | const k =>
    cases k with
    | real x =>
      obtain ⟨y, hy, hcanonical⟩ := hreal x rfl
      refine ⟨.const (.real y), congrArg (fun z => Expr.const (.real z)) hcanonical, fun r hr => ?_⟩
      unfold expr
      exact (yields_word _ _).bind ((yields_real hy _).bind (yields_pure _))
    | int n =>
      refine ⟨_, rfl, fun r hr => ?_⟩
      unfold expr
      exact (yields_word _ _).bind ((yields_int he _).bind (yields_pure _))
    | bool b =>
      refine ⟨_, rfl, fun r hr => ?_⟩
      unfold expr
      exact (yields_word _ _).bind ((yields_bool b).bind (yields_pure _))
  | copy v =>
    refine ⟨_, rfl, fun r hr => ?_⟩
    unfold expr
    exact (yields_word _ _).bind ((yields_var hE he _).bind (yields_pure _))
  | load v field =>
    refine ⟨_, rfl, fun r hr => ?_⟩
    unfold expr
    exact (yields_word _ _).bind ((yields_field hE he.1 field).bind (yields_pure _))
  | op op args =>
    refine ⟨_, rfl, fun r hr => ?_⟩
    unfold expr
    have hoperands := yields_operation hE he r
    refine (yields_word _ _).bind ?_
    cases op <;> exact hoperands
  | call callee args node =>
    refine ⟨_, rfl, fun r hr => ?_⟩
    have htokens : f.exprTokens (.call callee args node) ++ r = .word "call" :: .name callee ::
        .lpar :: (f.argTokens args ++ .rpar :: (Func.linkTokens node ++ r)) := by
      simp [Func.exprTokens]
    rw [htokens]
    unfold expr
    exact (yields_word _ _).bind (yields_call hE he.2.1 node hr)
  | pop t =>
    refine ⟨_, rfl, fun r hr => ?_⟩
    unfold expr
    exact (yields_word _ _).bind ((yields_tape t _).bind (yields_pure _))
  | topIs t d =>
    refine ⟨_, rfl, fun r hr => ?_⟩
    unfold expr
    exact (yields_word _ _).bind ((yields_tape t _).bind ((yields_expect _ _).bind
      ((yields_int he.2 _).bind (yields_pure _))))

end

/-! ## Growing tables -/

mutual

theorem grows_stmt {E E' : Env} {s : Stmt} : StmtRule E s E' → Extends E.vars E'.vars
  | .assign _ _ | .store _ _ _ | .push _ _ | .pushDecision _ _ | .unreachable | .ret _ => .refl _
  | .declare _ _ => .push _ _
  | .cond harms => grows_arms harms
  | .loop hheader _ hbody => by
    have hfirst := grows_block hheader
    have hsecond := grows_block hbody
    exact hfirst.trans hsecond
  | .doLoop hbody _ => by
    have h := grows_block hbody
    exact h
  | .block hbody => by
    have h := grows_block hbody
    exact h

theorem grows_block {E E' : Env} {ss : Block} : BlockRule E ss E' → Extends E.vars E'.vars
  | .nil => .refl _
  | .cons hs _ hss => (grows_stmt hs).trans (grows_block hss)

theorem grows_arms {E E' : Env} {arms : List (Var × Block)} {other : Block} :
    ArmsRule E arms other E' → Extends E.vars E'.vars
  | .last _ hbody hother => by
    have hfirst := grows_block hbody
    have hsecond := grows_block hother
    exact hfirst.trans hsecond
  | .cons _ hbody harms => by
    have hfirst := grows_block hbody
    have hsecond := grows_arms harms
    exact hfirst.trans hsecond

end

/-! ## Statements -/

section
variable {f : Func} {E E₁ E₂ : Env}

theorem starts_rbrace (r : List Token) : Starts (.rbrace :: r) := ⟨_, r, rfl, .inl rfl⟩

/-- Statements start with a word or a brace. -/
theorem stmtTokens_start (f : Func) (s : Stmt) :
    ∃ t ts, f.stmtTokens s = t :: ts ∧ (t = .lbrace ∨ ∃ w, t = .word w) := by
  cases s with
  | define dst decl e =>
    cases decl with
    | true => exact ⟨_, _, rfl, .inr ⟨_, rfl⟩⟩
    | false => exact ⟨_, _, rfl, .inr ⟨_, rfl⟩⟩
  | cond arms other =>
    cases arms with
    | nil => exact ⟨.word "else", _, by simp [Func.stmtTokens, Func.armsTokens]; rfl, .inr ⟨_, rfl⟩⟩
    | cons arm arms =>
      exact ⟨.word "if", _, by simp [Func.stmtTokens, Func.armsTokens]; rfl, .inr ⟨_, rfl⟩⟩
  | loop header test body =>
    exact ⟨.word "while", _, by simp [Func.stmtTokens]; rfl, .inr ⟨_, rfl⟩⟩
  | doLoop body test => exact ⟨.word "do", _, by simp [Func.stmtTokens]; rfl, .inr ⟨_, rfl⟩⟩
  | block body => exact ⟨.lbrace, _, by simp [Func.stmtTokens, Func.bracedTokens]; rfl, .inl rfl⟩
  | store obj field val => exact ⟨_, _, by rw [Func.stmtTokens], .inr ⟨_, rfl⟩⟩
  | push t val => exact ⟨_, _, by rw [Func.stmtTokens], .inr ⟨_, rfl⟩⟩
  | pushDecision t d => exact ⟨_, _, by rw [Func.stmtTokens], .inr ⟨_, rfl⟩⟩
  | unreachable => exact ⟨_, _, by rw [Func.stmtTokens], .inr ⟨_, rfl⟩⟩
  | ret vals => exact ⟨_, _, by rw [Func.stmtTokens], .inr ⟨_, rfl⟩⟩

theorem starts_stmt (f : Func) (s : Stmt) (r : List Token) : Starts (f.stmtTokens s ++ r) := by
  obtain ⟨t, ts, hts, ht⟩ := stmtTokens_start f s
  exact ⟨t, ts ++ r, by rw [hts, List.cons_append], .inr ht⟩

theorem starts_block (f : Func) (ss : Block) (r : List Token) :
    Starts (f.blockTokens ss ++ .rbrace :: r) := by
  cases ss with
  | nil => exact starts_rbrace r
  | cons s ss =>
    rw [Func.blockTokens, List.append_assoc]
    exact starts_stmt f s _

/-- The tokens of the statement read as that statement. -/
def StmtYields (f : Func) (E : Env) (s : Stmt) (E' : Env) : Prop :=
  ∃ s', s'.canonical = s.canonical ∧ ∀ m r, Starts r →
    (s = .ret [] → ∃ r', r = .rbrace :: r') → (f.stmtTokens s ++ r).length ≤ m + 1 →
      Yields (stmt (stmts m) m) E (f.stmtTokens s ++ r) s' E' r

/-- The tokens of the block read as that block. -/
def BlockYields (f : Func) (E : Env) (ss : Block) (E' : Env) : Prop :=
  ∃ ss', canonicalBlock ss' = canonicalBlock ss ∧ ∀ n r,
    (f.blockTokens ss ++ .rbrace :: r).length ≤ n →
      Yields (stmts n) E (f.blockTokens ss ++ .rbrace :: r) ss' E' r

/-- The tokens behind the first `if` read as the arms of the conditional. -/
def ArmsYields (f : Func) (E : Env) (as : List (Var × Block)) (other : Block) (E' : Env) : Prop :=
  ∃ as' other', canonicalArms as' = canonicalArms as ∧ canonicalBlock other' = canonicalBlock other ∧
    ∀ m k r ts, f.armsTokens as ++ .word "else" ::
      (Func.bracedTokens (f.blockTokens other) ++ r) = .word "if" :: ts → ts.length ≤ m →
      ts.length ≤ k → Yields (arms (stmts m) k) E ts (as', other') E' r

/-- A statement that starts with a word. -/
theorem yields_stmt_word {s' : Stmt} {w : String} {ts r : List Token} {m : Nat} {act : Read Stmt}
    (hact : (match w with
        | "let" => letStmt
        | "if" => do
          let (arms, other) ← arms (stmts m) m
          return .cond arms other
        | "while" => whileStmt (stmts m)
        | "do" => doStmt (stmts m)
        | "store" => storeStmt
        | "push" => pushStmt
        | "unreachable" => return .unreachable
        | "return" => returnStmt
        | s => assignment s) = act) (h : Yields act E ts s' E₁ r) :
    Yields (stmt (stmts m) m) E (.word w :: ts) s' E₁ r := by
  subst hact
  unfold stmt
  exact (yields_peek _).bind ((yields_advance _).bind h)

theorem yields_store (hE : Within E f) {obj val : Var} (hobj : E.Means obj) (hval : E.Means val)
    (field : String) : StmtYields f E (.store obj field val) E := by
  refine ⟨_, rfl, fun m r hr _ _ => yields_stmt_word rfl ?_⟩
  unfold storeStmt
  refine (yields_field hE hobj field).bind ?_
  refine (yields_expect _ _).bind ?_
  exact (yields_var hE hval _).bind (yields_pure _)

theorem yields_push (hE : Within E f) {val : Var} (hval : E.Means val) (t : Tape) :
    StmtYields f E (.push t val) E := by
  refine ⟨_, rfl, fun m r hr _ _ => yields_stmt_word rfl ?_⟩
  unfold pushStmt
  refine (yields_tape t _).bind ?_
  refine (yields_expect _ _).bind ?_
  refine (yields_peek _).bind ?_
  exact (yields_var hE hval _).bind (yields_pure _)

theorem yields_pushDecision (t : Tape) {d : Int} (hd : IsInt32 d) :
    StmtYields f E (.pushDecision t d) E := by
  refine ⟨_, rfl, fun m r hr _ _ => yields_stmt_word rfl ?_⟩
  unfold pushStmt
  refine (yields_tape t _).bind ?_
  refine (yields_expect _ _).bind ?_
  refine (yields_peek _).bind ?_
  exact (yields_int hd _).bind (yields_pure _)

theorem yields_unreachable : StmtYields f E .unreachable E :=
  ⟨_, rfl, fun _ _ _ _ _ => yields_stmt_word rfl (yields_pure _)⟩

theorem yields_ret (hE : Within E f) {vals : List Var} (hvals : ∀ v ∈ vals, E.Means v) :
    StmtYields f E (.ret vals) E := by
  refine ⟨_, rfl, fun m r hr hlast _ => ?_⟩
  cases vals with
  | nil =>
    obtain ⟨r', rfl⟩ := hlast rfl
    refine yields_stmt_word rfl ?_
    unfold returnStmt
    exact (yields_peek _).bind (yields_pure _)
  | cons v vs =>
    have hlength := length_argTokens (f := f) (v :: vs)
    obtain ⟨ts, hts⟩ := argTokens_cons f v vs
    have hpeek : Yields peek E (f.argTokens (v :: vs) ++ r) (some (.word (f.varName v))) E
        (f.argTokens (v :: vs) ++ r) := by
      rw [hts]
      exact yields_peek _
    obtain ⟨t, r', rfl, ht⟩ := hr
    have hne : t ≠ .comma := by
      rintro rfl
      simp at ht
    refine yields_stmt_word rfl ?_
    unfold returnStmt
    refine hpeek.bind ?_
    rw [if_neg (by simp)]
    refine yields_fuel.bind ?_
    refine (yields_commaSeparated (by simp) (fun w hw r' => yields_var hE (hvals w hw) _) hne
      ?_).bind (yields_pure _)
    simp only [List.length_append]
    omega

theorem yields_assign (hE : Within E f) (hv : E.Means v) (he : ExprRule E e)
    (hreal : ∀ x, e = .const (.real x) → Real64.ReadsBack x) :
    StmtYields f E (.define v false e) E := by
  obtain ⟨e', hcanonical, hyields⟩ := yields_expr hE he hreal
  refine ⟨.define v false e', congrArg (Stmt.define v false) hcanonical, fun m r hr _ _ => ?_⟩
  have hname := hE.varName hv.lt
  -- the name of a variable is no keyword
  have hact : (match f.varName v with
      | "let" => letStmt
      | "if" => do
        let (arms, other) ← arms (stmts m) m
        return .cond arms other
      | "while" => whileStmt (stmts m)
      | "do" => doStmt (stmts m)
      | "store" => storeStmt
      | "push" => pushStmt
      | "unreachable" => return .unreachable
      | "return" => returnStmt
      | s => assignment s) = assignment (f.varName v) := by
    have hfree := hv.free
    rw [← hname] at hfree
    split
    all_goals first
      | rfl
      | (rename_i heq; rw [heq] at hfree; exact absurd hfree (by decide))
  have htokens : f.stmtTokens (.define v false e) ++ r =
      .word (f.varName v) :: .equal :: (f.exprTokens e ++ r) := by
    simp [Func.stmtTokens, Func.dstTokens]
  rw [htokens]
  refine yields_stmt_word hact ?_
  unfold assignment
  rw [hname]
  refine (yields_lookup hv).bind ?_
  refine (yields_expect _ _).bind ?_
  exact (hyields r hr).bind (yields_pure _)

theorem yields_let {info : VarInfo} (hE : Within (E.declare info) f) (he : ExprRule E e)
    (hfree : E.Free info.name) (hreal : ∀ x, e = .const (.real x) → Real64.ReadsBack x) :
    StmtYields f E (.define ⟨E.vars.size⟩ true e) (E.declare info) := by
  have hE' : Within E f := (Extends.push _ _).trans hE
  obtain ⟨e', hcanonical, hyields⟩ := yields_expr hE' he hreal
  have hinfo : f.info ⟨E.vars.size⟩ = info := hE.info
  refine ⟨.define ⟨E.vars.size⟩ true e', congrArg (Stmt.define _ true) hcanonical,
    fun m r hr _ _ => ?_⟩
  have hend (ts : List Token) (hts : ts = .word info.name :: .colon :: .word info.ty.name :: .equal ::
      (f.exprTokens e ++ r)) : Yields (do
        let s ← word "variable name"
        let line := (← get).line
        expect .colon "':' after variable name"
        let t ← ty
        expect .equal "'='"
        let e ← expr
        return .define (← declare s t info.mutable line) true e) E ts
      (Stmt.define ⟨E.vars.size⟩ true e') (E.declare info) r := by
    subst hts
    refine (yields_word _ _).bind (yields_get fun c => ?_)
    refine (yields_expect _ _).bind ?_
    refine (yields_ty _).bind ?_
    refine (yields_expect _ _).bind ?_
    refine (hyields r hr).bind ?_
    exact (yields_declare hfree info.ty info.mutable c.line).bind (yields_pure _)
  cases hmutable : info.mutable with
  | true =>
    rw [hmutable] at hend
    have htokens : f.stmtTokens (.define ⟨E.vars.size⟩ true e) ++ r = .word "let" :: .word "mut" ::
        .word info.name :: .colon :: .word info.ty.name :: .equal :: (f.exprTokens e ++ r) := by
      simp [Func.stmtTokens, Func.dstTokens, hinfo, hmutable, Func.varName, Func.varTy]
    rw [htokens]
    refine yields_stmt_word rfl ?_
    unfold letStmt
    exact (yields_accept _).bind (hend _ rfl)
  | false =>
    rw [hmutable] at hend
    have htokens : f.stmtTokens (.define ⟨E.vars.size⟩ true e) ++ r = .word "let" ::
        .word info.name :: .colon :: .word info.ty.name :: .equal :: (f.exprTokens e ++ r) := by
      simp [Func.stmtTokens, Func.dstTokens, hinfo, hmutable, Func.varName, Func.varTy]
    have hne : Token.word info.name ≠ .word "mut" := by
      intro heq
      have hkeyword := hfree.free
      rw [Token.word.inj heq] at hkeyword
      exact absurd hkeyword (by decide)
    rw [htokens]
    refine yields_stmt_word rfl ?_
    unfold letStmt
    exact (yields_accept_ne hne).bind (hend _ rfl)

/-! ## Blocks -/

theorem bracedTokens_append (ts r : List Token) :
    Func.bracedTokens ts ++ r = .lbrace :: (ts ++ .rbrace :: r) := by
  simp [Func.bracedTokens]

theorem yields_braced {ss ss' : Block} (h : ∀ n r, (f.blockTokens ss ++ .rbrace :: r).length ≤ n →
      Yields (stmts n) E.enter (f.blockTokens ss ++ .rbrace :: r) ss' E₁ r) {m : Nat}
    {r : List Token} (hm : (Func.bracedTokens (f.blockTokens ss) ++ r).length ≤ m + 1) :
    Yields (block (stmts m)) E (Func.bracedTokens (f.blockTokens ss) ++ r) ss' E₁.leave r := by
  rw [bracedTokens_append] at hm ⊢
  unfold block
  refine (yields_expect _ _).bind ?_
  refine yields_openScope.bind ?_
  refine (h m r (Nat.le_of_succ_le_succ hm)).bind ?_
  exact yields_closeScope.bind (yields_pure _)

theorem yields_blockStmt (hbody : BlockYields f E.enter body E₁) :
    StmtYields f E (.block body) E₁.leave := by
  obtain ⟨body', hcanonical, hyields⟩ := hbody
  refine ⟨.block body', by rw [Stmt.canonical, Stmt.canonical, hcanonical], fun m r hr _ hm => ?_⟩
  have hblock := yields_braced (E := E) (m := m) (r := r) hyields
  rw [Func.stmtTokens] at hm ⊢
  have hread := hblock hm
  unfold stmt
  have hpeek : Yields peek E (Func.bracedTokens (f.blockTokens body) ++ r) (some .lbrace) E
      (Func.bracedTokens (f.blockTokens body) ++ r) := by
    rw [bracedTokens_append]
    exact yields_peek _
  exact hpeek.bind (hread.bind (yields_pure _))

theorem yields_loop {header : Block} (htest : E₁.Means test) (hE : Within E₁ f)
    (hheader : BlockYields f E.enter header E₁) (hbody : BlockYields f E₁.enter body E₂) :
    StmtYields f E (.loop header test body) E₂.leave.leave := by
  obtain ⟨header', hcanonical, hyields⟩ := hheader
  obtain ⟨body', hcanonical', hyields'⟩ := hbody
  refine ⟨.loop header' test body', by rw [Stmt.canonical, Stmt.canonical, hcanonical, hcanonical'],
    fun m r hr _ hm => ?_⟩
  have htokens : f.stmtTokens (.loop header test body) ++ r = .word "while" :: .lbrace ::
      (f.blockTokens header ++ .rbrace :: .arrow :: .word (f.varName test) ::
        (Func.bracedTokens (f.blockTokens body) ++ r)) := by
    simp [Func.stmtTokens, Func.bracedTokens]
  rw [htokens] at hm ⊢
  simp only [List.length_cons, List.length_append] at hm
  refine yields_stmt_word rfl ?_
  unfold whileStmt
  refine (yields_expect _ _).bind ?_
  refine yields_openScope.bind ?_
  refine (hyields m _ (by simp only [List.length_cons, List.length_append]; omega)).bind ?_
  refine (yields_expect _ _).bind ?_
  refine (yields_var hE htest _).bind ?_
  refine (yields_braced hyields' (by simp only [List.length_append]; omega)).bind ?_
  exact yields_closeScope.bind (yields_pure _)

theorem yields_doLoop (hE : Within E₁ f) (htest : E₁.Means test)
    (hbody : BlockYields f E.enter body E₁) : StmtYields f E (.doLoop body test) E₁.leave := by
  obtain ⟨body', hcanonical, hyields⟩ := hbody
  refine ⟨.doLoop body' test, by rw [Stmt.canonical, Stmt.canonical, hcanonical],
    fun m r hr _ hm => ?_⟩
  have htokens : f.stmtTokens (.doLoop body test) ++ r = .word "do" :: .lbrace ::
      (f.blockTokens body ++ .rbrace :: .word "while" :: .word (f.varName test) :: r) := by
    simp [Func.stmtTokens, Func.bracedTokens]
  rw [htokens] at hm ⊢
  simp only [List.length_cons, List.length_append] at hm
  refine yields_stmt_word rfl ?_
  unfold doStmt
  refine (yields_expect _ _).bind ?_
  refine yields_openScope.bind ?_
  refine (hyields m _ (by simp only [List.length_cons, List.length_append]; omega)).bind ?_
  refine (yields_expect _ _).bind ?_
  refine (yields_var hE htest _).bind ?_
  exact yields_closeScope.bind (yields_pure _)

/-! ## Conditionals -/

theorem yields_lastArm (hE : Within E f) (htest : E.Means test)
    (hbody : BlockYields f E.enter body E₁) (hother : BlockYields f E₁.leave.enter other E₂) :
    ArmsYields f E [(test, body)] other E₂.leave := by
  obtain ⟨body', hcanonical, hyields⟩ := hbody
  obtain ⟨other', hcanonical', hyields'⟩ := hother
  refine ⟨[(test, body')], other', by simp [canonicalArms, hcanonical], hcanonical',
    fun m k r ts hts hm hk => ?_⟩
  have htokens : ts = .word (f.varName test) :: (Func.bracedTokens (f.blockTokens body) ++
      .word "else" :: (Func.bracedTokens (f.blockTokens other) ++ r)) := by
    have hsplit : f.armsTokens [(test, body)] ++ .word "else" ::
        (Func.bracedTokens (f.blockTokens other) ++ r) = .word "if" :: .word (f.varName test) ::
          (Func.bracedTokens (f.blockTokens body) ++ .word "else" ::
            (Func.bracedTokens (f.blockTokens other) ++ r)) := by
      simp [Func.armsTokens]
    exact (List.cons.inj (hts.symm.trans hsplit)).2
  subst htokens
  obtain ⟨k, rfl⟩ : ∃ k', k = k' + 1 := ⟨k - 1, by simp at hk; omega⟩
  simp only [List.length_cons, List.length_append] at hm
  unfold arms
  refine (yields_var hE htest _).bind ?_
  refine (yields_braced hyields (by simp only [List.length_cons, List.length_append]; omega)).bind ?_
  refine (yields_expect _ _).bind ?_
  have haccept : Yields (accept (.word "if")) E₁.leave
      (Func.bracedTokens (f.blockTokens other) ++ r) false E₁.leave
      (Func.bracedTokens (f.blockTokens other) ++ r) := by
    rw [bracedTokens_append]
    exact yields_accept_ne (by simp)
  refine haccept.bind ?_
  exact (yields_braced hyields' (by simp only [List.length_append]; omega)).bind (yields_pure _)

theorem armsTokens_cons (h : as ≠ []) : ∃ ts, f.armsTokens as = .word "if" :: ts := by
  cases as with
  | nil => exact absurd rfl h
  | cons arm as => exact ⟨_, by simp [Func.armsTokens]; rfl⟩

theorem yields_consArm (has : as ≠ []) (hE : Within E f) (htest : E.Means test)
    (hbody : BlockYields f E.enter body E₁) (harms : ArmsYields f E₁.leave as other E₂) :
    ArmsYields f E ((test, body) :: as) other E₂ := by
  obtain ⟨body', hcanonical, hyields⟩ := hbody
  obtain ⟨as', other', hcanonical', hcanonical'', hyields'⟩ := harms
  refine ⟨(test, body') :: as', other', by simp [canonicalArms, hcanonical, hcanonical'],
    hcanonical'', fun m k r ts hts hm hk => ?_⟩
  obtain ⟨ts', hts'⟩ := armsTokens_cons (f := f) has
  have hrest : f.armsTokens as ++ .word "else" :: (Func.bracedTokens (f.blockTokens other) ++ r) =
      .word "if" :: (ts' ++ .word "else" :: (Func.bracedTokens (f.blockTokens other) ++ r)) := by
    rw [hts', List.cons_append]
  have htokens : ts = .word (f.varName test) :: (Func.bracedTokens (f.blockTokens body) ++
      .word "else" :: .word "if" :: (ts' ++ .word "else" ::
        (Func.bracedTokens (f.blockTokens other) ++ r))) := by
    have hempty : as.isEmpty = false := by simpa using has
    have hsplit : f.armsTokens ((test, body) :: as) ++ .word "else" ::
        (Func.bracedTokens (f.blockTokens other) ++ r) = .word "if" :: .word (f.varName test) ::
          (Func.bracedTokens (f.blockTokens body) ++ .word "else" :: (f.armsTokens as ++
            .word "else" :: (Func.bracedTokens (f.blockTokens other) ++ r))) := by
      simp [Func.armsTokens, hempty]
    rw [hrest] at hsplit
    exact (List.cons.inj (hts.symm.trans hsplit)).2
  subst htokens
  obtain ⟨k, rfl⟩ : ∃ k', k = k' + 1 := ⟨k - 1, by simp at hk; omega⟩
  simp only [List.length_cons, List.length_append] at hm hk
  unfold arms
  refine (yields_var hE htest _).bind ?_
  refine (yields_braced hyields (by simp only [List.length_cons, List.length_append]; omega)).bind ?_
  refine (yields_expect _ _).bind ?_
  refine (yields_accept _).bind ?_
  refine (hyields' m k r _ hrest ?_ ?_).bind (yields_pure _)
  · simp only [List.length_cons, List.length_append]
    omega
  · simp only [List.length_cons, List.length_append]
    omega

theorem yields_cond (has : as ≠ []) (harms : ArmsYields f E as other E₁) :
    StmtYields f E (.cond as other) E₁ := by
  obtain ⟨as', other', hcanonical, hcanonical', hyields⟩ := harms
  refine ⟨.cond as' other', by rw [Stmt.canonical, Stmt.canonical, hcanonical, hcanonical'],
    fun m r hr _ hm => ?_⟩
  obtain ⟨ts, hts⟩ := armsTokens_cons (f := f) has
  have hrest : f.armsTokens as ++ .word "else" :: (Func.bracedTokens (f.blockTokens other) ++ r) =
      .word "if" :: (ts ++ .word "else" :: (Func.bracedTokens (f.blockTokens other) ++ r)) := by
    rw [hts, List.cons_append]
  have htokens : f.stmtTokens (.cond as other) ++ r =
      .word "if" :: (ts ++ .word "else" :: (Func.bracedTokens (f.blockTokens other) ++ r)) := by
    rw [← hrest]
    simp [Func.stmtTokens]
  rw [htokens] at hm ⊢
  have hlength := Nat.le_of_succ_le_succ hm
  refine yields_stmt_word rfl ?_
  exact (hyields m m r _ hrest hlength hlength).bind (yields_pure _)

/-! ## Statements in order -/

theorem yields_nil : BlockYields f E [] E := by
  refine ⟨[], rfl, fun n r hn => ?_⟩
  obtain ⟨n, rfl⟩ : ∃ m, n = m + 1 := ⟨n - 1, by simp [Func.blockTokens] at hn; omega⟩
  unfold stmts
  exact (yields_accept _).bind (yields_pure _)

theorem yields_cons {s : Stmt} {ss : Block} (hlast : s = .ret [] → ss = [])
    (hs : StmtYields f E s E₁) (hss : BlockYields f E₁ ss E₂) : BlockYields f E (s :: ss) E₂ := by
  obtain ⟨s', hcanonical, hyields⟩ := hs
  obtain ⟨ss', hcanonical', hyields'⟩ := hss
  refine ⟨s' :: ss', by rw [canonicalBlock, canonicalBlock, hcanonical, hcanonical'],
    fun n r hn => ?_⟩
  obtain ⟨t, ts, hts, ht⟩ := stmtTokens_start f s
  have htokens : f.blockTokens (s :: ss) ++ .rbrace :: r =
      f.stmtTokens s ++ (f.blockTokens ss ++ .rbrace :: r) := by
    rw [Func.blockTokens, List.append_assoc]
  rw [htokens] at hn ⊢
  have hlength : (f.stmtTokens s).length = ts.length + 1 := by rw [hts]; rfl
  obtain ⟨n, rfl⟩ : ∃ m, n = m + 1 := ⟨n - 1, by simp only [List.length_append] at hn; omega⟩
  have hpeek (r' : List Token) :
      Yields peek E (f.stmtTokens s ++ r') (some t) E (f.stmtTokens s ++ r') := by
    rw [hts]
    exact yields_peek t
  have haccept (r' : List Token) :
      Yields (accept .rbrace) E (f.stmtTokens s ++ r') false E (f.stmtTokens s ++ r') := by
    rw [hts]
    refine yields_accept_ne ?_
    rintro rfl
    simp at ht
  unfold stmts
  refine (haccept _).bind ?_
  refine (hpeek _).bind ?_
  -- the statement ends where the next one starts, or at the brace
  have hfirst := hyields n (f.blockTokens ss ++ .rbrace :: r) (starts_block f ss r)
    (fun hret => ⟨r, by rw [hlast hret]; rfl⟩) hn
  refine hfirst.bind ?_
  refine (hyields' n r ?_).bind (yields_pure _)
  simp only [List.length_append] at hn ⊢
  omega

end

/-! ## Statements that obey the rules -/

theorem ne_nil_of_rule {E E' : Env} (h : ArmsRule E as other E') : as ≠ [] := by
  cases h <;> simp

theorem readsBack_subset {b b' : Block} (h : RealsReadBack b)
    (hsub : ∀ a ∈ blockAtoms b', a ∈ blockAtoms b) : RealsReadBack b' :=
  fun dst decl x hx => h dst decl x (hsub _ hx)

theorem readsBack_define {decl : Bool} (h : RealsReadBack [.define v decl e]) (x : Float)
    (hx : e = .const (.real x)) : Real64.ReadsBack x := by
  subst hx
  exact h v decl x (by simp [blockAtoms, Stmt.atoms])

mutual

theorem yields_stmt {f : Func} {E E' : Env} {s : Stmt} :
    StmtRule E s E' → Within E' f → RealsReadBack [s] → StmtYields f E s E'
  | .assign hv he, hE, hreals => yields_assign hE hv he (readsBack_define hreals)
  | .declare he hfree, hE, hreals => yields_let hE he hfree (readsBack_define hreals)
  | .store hobj hval _, hE, _ => yields_store hE hobj hval _
  | .cond harms, hE, hreals => yields_cond (ne_nil_of_rule harms) (yields_arms harms hE hreals)
  | .loop hheader htest hbody, hE, hreals => by
    have hgrows := grows_block hbody
    have hE₁ := hgrows.trans hE
    refine yields_loop htest hE₁ (yields_stmts hheader hE₁ (readsBack_subset hreals ?_))
      (yields_stmts hbody hE (readsBack_subset hreals ?_))
    · simp +contextual [blockAtoms, Stmt.atoms]
    · simp +contextual [blockAtoms, Stmt.atoms]
  | .doLoop hbody htest, hE, hreals => by
    refine yields_doLoop hE htest (yields_stmts hbody hE (readsBack_subset hreals ?_))
    simp [blockAtoms, Stmt.atoms]
  | .block hbody, hE, hreals => by
    refine yields_blockStmt (yields_stmts hbody hE (readsBack_subset hreals ?_))
    simp [blockAtoms, Stmt.atoms]
  | .push _ hval, hE, _ => yields_push hE hval _
  | .pushDecision _ hd, _, _ => yields_pushDecision _ hd
  | .unreachable, _, _ => yields_unreachable
  | .ret hvals, hE, _ => yields_ret hE hvals

theorem yields_stmts {f : Func} {E E' : Env} {ss : Block} :
    BlockRule E ss E' → Within E' f → RealsReadBack ss → BlockYields f E ss E'
  | .nil, _, _ => yields_nil
  | .cons hs hlast hss, hE, hreals => by
    have hE₁ := (grows_block hss).trans hE
    refine yields_cons hlast (yields_stmt hs hE₁ (readsBack_subset hreals ?_))
      (yields_stmts hss hE (readsBack_subset hreals ?_))
    · simp +contextual [blockAtoms]
    · simp +contextual [blockAtoms]

theorem yields_arms {f : Func} {E E' : Env} {as : List (Var × Block)} {other : Block} :
    ArmsRule E as other E' → Within E' f → RealsReadBack [.cond as other] →
      ArmsYields f E as other E'
  | .last htest hbody hother, hE, hreals => by
    have hgrows := grows_block hother
    have hE₁ := hgrows.trans hE
    have hE₀ := (grows_block hbody).trans hE₁
    refine yields_lastArm hE₀ htest (yields_stmts hbody hE₁ (readsBack_subset hreals ?_))
      (yields_stmts hother hE (readsBack_subset hreals ?_))
    · simp +contextual [blockAtoms, Stmt.atoms, armsAtoms]
    · simp +contextual [blockAtoms, Stmt.atoms, armsAtoms]
  | .cons htest hbody harms, hE, hreals => by
    have hgrows := grows_arms harms
    have hE₁ := hgrows.trans hE
    have hE₀ := (grows_block hbody).trans hE₁
    refine yields_consArm (ne_nil_of_rule harms) hE₀ htest
      (yields_stmts hbody hE₁ (readsBack_subset hreals ?_))
      (yields_arms harms hE (readsBack_subset hreals ?_))
    · simp +contextual [blockAtoms, Stmt.atoms, armsAtoms]
    · simp +contextual [blockAtoms, Stmt.atoms, armsAtoms]

end

/-! ## Attributes -/

section
variable {E : Env} {r : List Token}

theorem pathTokens_cons (w : String) (ws : List String) :
    Func.pathTokens (w :: ws) = .word w :: ws.flatMap fun w => [.dot, .word w] := by
  induction ws generalizing w with
  | nil => rfl
  | cons w' ws ih =>
    rw [Func.pathTokens, ih w']
    · rfl
    · simp

/-- A path is put together from its words. -/
theorem pathWords_cons (s : String) : ∃ w ws, pathWords s = w :: ws ∧
    s = w ++ String.join (ws.map ("." ++ ·)) := by
  cases hws : pathWords s with
  | nil =>
    have hne := List.splitOn_ne_nil '.' s.toList
    simp [pathWords, hne] at hws
  | cons w ws =>
    refine ⟨w, ws, rfl, String.toList_injective ?_⟩
    have hparts : (w :: ws).map String.toList = s.toList.splitOn '.' := by
      rw [← hws, pathWords, List.map_map]
      simp
    rw [toList_path, hparts, List.intercalate_splitOn]

theorem yields_pathTail (ws : List String) (hn : ws.length ≤ n) (ht : t ≠ .dot) :
    Yields (pathTail n) E ((ws.flatMap fun w => [.dot, .word w]) ++ t :: r)
      (String.join (ws.map ("." ++ ·))) E (t :: r) := by
  induction ws generalizing n with
  | nil =>
    cases n with
    | zero => exact yields_pure ""
    | succ n =>
      unfold pathTail
      exact (yields_accept_ne ht).bind (yields_pure "")
  | cons w ws ih =>
    obtain ⟨n, rfl⟩ : ∃ m, n = m + 1 := ⟨n - 1, by simp at hn; omega⟩
    unfold pathTail
    refine (yields_accept _).bind ?_
    refine (yields_word _ _).bind ?_
    refine (ih (by simpa using hn)).bind ?_
    rw [List.map_cons, String.join_cons]
    exact yields_pure _

theorem yields_path (s : String) (hr : ∃ t r', r = t :: r' ∧ t ≠ .dot) :
    Yields path E (Func.pathTokens (pathWords s) ++ r) s E r := by
  obtain ⟨w, ws, hws, hs⟩ := pathWords_cons s
  obtain ⟨t, r', rfl, ht⟩ := hr
  rw [hws, pathTokens_cons, List.cons_append]
  unfold path
  refine (yields_word _ _).bind ?_
  refine yields_fuel.bind ?_
  refine (yields_pathTail ws ?_ ht).bind ?_
  · have hlength : ws.length ≤ (ws.flatMap fun w => [Token.dot, .word w]).length := by
      simp only [List.length_flatMap, List.length_cons, List.length_nil, List.map_const',
        List.sum_replicate_nat]
      omega
    simp only [List.length_append]
    omega
  · rw [← hs]
    exact yields_pure s

theorem yields_attrArgs (args : List String) (hr : ∃ t r', r = t :: r' ∧ t ≠ .lpar) :
    Yields attrArgs E ((if args.isEmpty then [] else
      .lpar :: commas (args.map fun s => Func.pathTokens (pathWords s)) ++ [.rpar]) ++ r) args E r := by
  unfold attrArgs
  cases args with
  | nil =>
    obtain ⟨t, r', rfl, ht⟩ := hr
    exact (yields_accept_ne ht).bind (yields_pure [])
  | cons s args =>
    have hne : ∀ i ∈ (s :: args).map fun s => Func.pathTokens (pathWords s), i ≠ [] := by
      intro i hi
      obtain ⟨s', -, rfl⟩ := List.mem_map.mp hi
      obtain ⟨w, ws, hws, -⟩ := pathWords_cons s'
      rw [hws, pathTokens_cons]
      simp
    have hlength := length_commas hne
    have htokens : (if (s :: args).isEmpty then [] else .lpar ::
        commas ((s :: args).map fun s => Func.pathTokens (pathWords s)) ++ [.rpar]) ++ r =
        .lpar :: (commas ((s :: args).map fun s => Func.pathTokens (pathWords s)) ++ .rpar :: r) := by
      simp
    have haccept : Yields (accept .rpar) E
        (commas ((s :: args).map fun s => Func.pathTokens (pathWords s)) ++ .rpar :: r) false E
        (commas ((s :: args).map fun s => Func.pathTokens (pathWords s)) ++ .rpar :: r) := by
      obtain ⟨w, ws, hws, -⟩ := pathWords_cons s
      have hhead : ∃ ts, commas ((s :: args).map fun s => Func.pathTokens (pathWords s)) =
          .word w :: ts := by
        cases args with
        | nil => exact ⟨_, by rw [List.map_cons, hws, pathTokens_cons]; rfl⟩
        | cons s' args => exact ⟨_, by rw [List.map_cons, hws, pathTokens_cons]; rfl⟩
      obtain ⟨ts, hts⟩ := hhead
      rw [hts]
      exact yields_accept_ne (by simp)
    rw [htokens]
    refine (yields_accept _).bind ?_
    refine haccept.bind ?_
    refine yields_fuel.bind ?_
    refine yields_separated (by simp) (by simp) (fun s' _ r' hr' => yields_path s' ?_) _ ?_
    · obtain ⟨t, r'', rfl, ht⟩ := hr'
      refine ⟨t, r'', rfl, ?_⟩
      rintro rfl
      simp at ht
    · simp only [List.length_map] at hlength
      simp only [List.length_append]
      omega

theorem yields_attrs (as : List Attr) (hn : as.length ≤ n) :
    Yields (attrs n) E (as.flatMap Func.attrTokens ++ .word "function" :: r) as E
      (.word "function" :: r) := by
  induction as generalizing n with
  | nil =>
    cases n with
    | zero => exact yields_pure []
    | succ n =>
      unfold attrs
      exact (yields_peek _).bind (yields_pure [])
  | cons a as ih =>
    obtain ⟨n, rfl⟩ : ∃ m, n = m + 1 := ⟨n - 1, by simp at hn; omega⟩
    have htokens : (a :: as).flatMap Func.attrTokens ++ .word "function" :: r = .attr a.name ::
        ((if a.args.isEmpty then [] else
          .lpar :: commas (a.args.map fun s => Func.pathTokens (pathWords s)) ++ [.rpar]) ++
        (as.flatMap Func.attrTokens ++ .word "function" :: r)) := by
      simp [Func.attrTokens]
    have hnext : ∃ t r', as.flatMap Func.attrTokens ++ .word "function" :: r = t :: r' ∧
        t ≠ .lpar := by
      cases as with
      | nil => exact ⟨_, _, rfl, by simp⟩
      | cons a' as => exact ⟨.attr a'.name, _, by simp [Func.attrTokens]; rfl, by simp⟩
    rw [htokens]
    unfold attrs
    refine (yields_peek _).bind ?_
    refine (yields_advance _).bind ?_
    refine (yields_attrArgs a.args hnext).bind ?_
    exact (ih (by simpa using hn)).bind (yields_pure (a :: as))

end

/-! ## Functions -/

section
variable {f : Func} {E E' : Env} {r : List Token}

theorem grows_params (h : ParamsRule E vs E') : Extends E.vars E'.vars := by
  induction h with
  | nil => exact .refl _
  | cons _ _ ih => exact (Extends.push _ _).trans ih

theorem yields_param {name : String} {t : Ty} (hfree : E.Free name)
    (hE : Within (E.declare ⟨name, t, false⟩) f) :
    Yields param E (f.paramTokens ⟨E.vars.size⟩ ++ r) ⟨E.vars.size⟩
      (E.declare ⟨name, t, false⟩) r := by
  have hinfo : f.info ⟨E.vars.size⟩ = ⟨name, t, false⟩ := hE.info
  have htokens : f.paramTokens ⟨E.vars.size⟩ ++ r = .word name :: .colon :: .word t.name :: r := by
    simp [Func.paramTokens, Func.varName, Func.varTy, hinfo]
  rw [htokens]
  unfold param
  refine (yields_word _ _).bind ?_
  refine (yields_expect _ _).bind ?_
  refine (yields_ty _).bind ?_
  exact yields_get fun c => yields_declare hfree t false c.line

theorem yields_separated_param (h : ParamsRule E vs E') (hvs : vs ≠ []) (hE : Within E' f)
    (what : String) (hn : vs.length ≤ n) :
    Yields (separated param .rpar what n) E (commas (vs.map f.paramTokens) ++ .rpar :: r) vs E'
      r := by
  induction h generalizing n with
  | nil => exact absurd rfl hvs
  | @cons E E' name t vs hfree hrule ih =>
    obtain ⟨n, rfl⟩ : ∃ m, n = m + 1 := ⟨n - 1, by simp at hn; omega⟩
    have hE₁ : Within (E.declare ⟨name, t, false⟩) f := (grows_params hrule).trans hE
    unfold separated
    cases vs with
    | nil =>
      cases hrule
      refine (yields_param hfree hE₁).bind ?_
      exact (yields_accept _).bind (yields_pure _)
    | cons v vs =>
      have htokens : commas ((⟨E.vars.size⟩ :: v :: vs).map f.paramTokens) ++ .rpar :: r =
          f.paramTokens ⟨E.vars.size⟩ ++ .comma ::
            (commas ((v :: vs).map f.paramTokens) ++ .rpar :: r) := by
        simp [commas]
      rw [htokens]
      refine (yields_param hfree hE₁).bind ?_
      refine (yields_accept_ne (by simp)).bind ?_
      refine (yields_expect _ _).bind ?_
      exact (ih (by simp) hE (by simpa using hn)).bind (yields_pure _)

theorem yields_params (h : ParamsRule E vs E') (hE : Within E' f) :
    Yields params E (.lpar :: (commas (vs.map f.paramTokens) ++ .rpar :: r)) vs E' r := by
  unfold params
  refine (yields_expect _ _).bind ?_
  cases vs with
  | nil =>
    cases h
    exact (yields_accept _).bind (yields_pure [])
  | cons v vs =>
    have hne : ∀ i ∈ (v :: vs).map f.paramTokens, i ≠ [] := by simp [Func.paramTokens]
    have hlength := length_commas hne
    have haccept : Yields (accept .rpar) E
        (commas ((v :: vs).map f.paramTokens) ++ .rpar :: r) false E
        (commas ((v :: vs).map f.paramTokens) ++ .rpar :: r) := by
      cases vs with
      | nil => exact yields_accept_ne (by simp)
      | cons v' vs => exact yields_accept_ne (by simp)
    refine haccept.bind ?_
    refine yields_fuel.bind ?_
    refine yields_separated_param h (by simp) hE _ ?_
    simp only [List.length_map] at hlength
    simp only [List.length_append]
    omega

theorem returnTokens_cons (t : Ty) (tys : List Ty) : Func.returnTokens (t :: tys) =
    .arrow :: commas ((t :: tys).map fun t => [.word t.name]) := rfl

theorem yields_returns (tys : List Ty) :
    Yields returns E (Func.returnTokens tys ++ .lbrace :: r) tys E (.lbrace :: r) := by
  unfold returns
  cases tys with
  | nil => exact (yields_accept_ne (by simp)).bind (yields_pure [])
  | cons t tys =>
    have hne : ∀ i ∈ (t :: tys).map fun t => [Token.word t.name], i ≠ [] := by simp
    have hlength := length_commas hne
    rw [returnTokens_cons, List.cons_append]
    refine (yields_accept _).bind ?_
    refine yields_fuel.bind ?_
    refine yields_commaSeparated (by simp) (fun t' _ r' => yields_ty t') (by simp) ?_
    simp only [List.length_map] at hlength
    simp only [List.length_append]
    omega

/-- The variables so far. -/
theorem yields_vars {α : Type} (make : Array VarInfo → α) :
    Yields (get >>= fun c => pure (make c.vars)) E r (make E.vars) E r := by
  intro c hc
  refine ⟨c, ?_, hc⟩
  rw [← hc.env]
  rfl

theorem tokens_append (f : Func) (r : List Token) : f.tokens ++ r =
    f.attrs.flatMap Func.attrTokens ++ .word "function" :: .name f.name :: .lpar ::
      (commas (f.params.map f.paramTokens) ++ .rpar ::
        (Func.returnTokens f.returns ++ .lbrace :: (f.blockTokens f.body ++ .rbrace :: r))) := by
  simp only [Func.tokens, Func.coreTokens, Func.bracedTokens, List.append_assoc, List.cons_append,
    List.nil_append]

theorem length_attrs (as : List Attr) : as.length ≤ (as.flatMap Func.attrTokens).length := by
  induction as with
  | nil => exact Nat.le_refl _
  | cons a as ih =>
    simp only [List.flatMap_cons, List.length_append, List.length_cons, Func.attrTokens]
    omega

theorem yields_reset (ts : List Token) :
    Yields (modify fun c => { c with vars := #[], scopes := [[]] }) E ts () ⟨#[], [[]]⟩ ts :=
  fun _ hc => ⟨_, rfl, rfl, hc.ahead⟩

/-- **The tokens of a function read as that function**, up to the choice of NaN. -/
theorem yields_func (hf : f.Rule) (hreals : RealsReadBack f.body) : ∃ g E',
    g.canonical = f.canonical ∧ ∀ E r, Yields func E (f.tokens ++ r) g E' r := by
  obtain ⟨E₁, E₂, hparams, hbody, hvars⟩ := hf.body
  have hE₂ : Within E₂ f := by
    rw [Within, hvars]
    exact .refl _
  have hE₁ : Within E₁ f := (grows_block hbody).trans hE₂
  -- only the body can come back with other NaNs
  obtain ⟨body', hcanonical, hyields⟩ := yields_stmts hbody hE₂ hreals
  refine ⟨{ f with body := body' }, E₂.leave, ?_, fun E r => ?_⟩
  · rw [Func.canonical, Func.canonical, hcanonical]
  rw [tokens_append]
  unfold func
  refine yields_fuel.bind ?_
  refine (yields_attrs f.attrs ?_).bind ?_
  · have hlength := length_attrs f.attrs
    rw [List.length_append]
    omega
  refine (yields_expect _ _).bind ?_
  refine (yields_name _ _).bind ?_
  refine (yields_reset _).bind ?_
  refine (yields_params hparams hE₁).bind ?_
  refine (yields_returns f.returns).bind ?_
  refine yields_fuel.bind ?_
  have hblock := yields_braced (E := E₁) (r := r) hyields
    (m := (Token.lbrace :: (f.blockTokens f.body ++ .rbrace :: r)).length + 1)
  rw [bracedTokens_append] at hblock
  refine (hblock (by omega)).bind ?_
  have hlast := yields_vars (E := E₂.leave) (r := r) fun vars =>
    ({ f with vars, body := body' } : Func)
  have hE₂vars : E₂.leave.vars = f.vars := hvars
  rw [hE₂vars] at hlast
  exact hlast

end

end Reader

/-- Tokens that read as a function. -/
theorem Func.read_of_tokens {f : Func} (hf : f.Rule) (hreals : RealsReadBack f.body) {text : String}
    (htext : Token.tokens text.toList = f.tokens.map some) :
    ∃ g, Func.read text = .ok g ∧ g.canonical = f.canonical := by
  obtain ⟨g, E', hcanonical, hyields⟩ := Reader.yields_func hf hreals
  refine ⟨g, ?_, hcanonical⟩
  have hstart : (Reader.start text).Stands ⟨#[], []⟩ (f.tokens ++ []) := by
    refine ⟨rfl, ?_⟩
    rw [List.append_nil]
    exact htext
  have hsingle : Reader.Yields Reader.single ⟨#[], []⟩ (f.tokens ++ []) g E' [] := by
    unfold Reader.single
    refine (hyields _ []).bind ?_
    exact Reader.yields_peek_nil.bind (Reader.yields_pure g)
  obtain ⟨c, hc, -⟩ := hsingle _ hstart
  exact Reader.run_of_ok hc

end Backsweep
