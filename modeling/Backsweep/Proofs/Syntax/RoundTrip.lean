import Mathlib
import Backsweep.Proofs.Syntax.Rereading

/-!
# Reading undoes printing

The text of a function that was read is made of the tokens of that function, with or
without notes behind its statements. So it reads as the same function.

* `Writes`: what an action that writes text can write;
* `lexes_expr`, `writes_stmt`, `writes_block`, `writes_arms`: the text of expressions
  and statements;
* `writes_annotated`: the text of functions;
* `Func.read_annotated`: reading undoes printing.
-/

namespace Backsweep

open Token

variable {v test : Var} {body : Block}

/-! ## Pieces of text -/

section
variable {s t : String} {ts us : List Token}

/-- A word and a blank. -/
theorem closes_lead (hs : isWord s = true) (ht : s ++ " " = t) : Closes t [.word s] :=
  ht ▸ closes_word hs

/-- Text goes on with punctuation. -/
theorem Lexes.punctuate (hs : Lexes s ts) (ht : Closes t us)
    (hstop : t.toList ≠ [] ∧ stops t.toList = true) : Closes (s ++ t) (ts ++ us) :=
  hs.close ht hstop.1 hstop.2

theorem closes_separator : Closes ", " [.comma] :=
  closes_comma.append closes_blank

theorem closes_ascription : Closes ": " [.colon] :=
  closes_colon.append closes_blank

theorem closes_define : Closes " = " [.equal] :=
  closes_blank.append (closes_equal.append closes_blank)

theorem closes_arrows : Closes " -> " [.arrow] :=
  closes_blank.append (closes_arrow.append closes_blank)

theorem closes_between (hs : isWord s = true) (ht : " " ++ (s ++ " ") = t) : Closes t [.word s] :=
  ht ▸ closes_blank.append (closes_word hs)

theorem stops_blank (s : String) : stops (" " ++ s).toList = true := by
  rw [String.toList_append]
  rfl

theorem lexes_empty : Lexes "" [] := closes_empty.lexes

theorem lexes_commaJoin {α : Type} {w : α → String} {k : α → List Token} {l : List α}
    (h : ∀ x ∈ l, Lexes (w x) (k x)) : Lexes (commaJoin (l.map w)) (commas (l.map k)) := by
  induction l with
  | nil => exact lexes_empty
  | cons x xs ih =>
    have hx := h x List.mem_cons_self
    have hxs := ih fun x' hx' => h x' (List.mem_cons_of_mem x hx')
    cases xs with
    | nil =>
      rw [commaJoin, List.map_cons, List.map_nil, String.intercalate_singleton]
      exact hx
    | cons x' xs =>
      rw [commaJoin, List.map_cons, List.map_cons, String.intercalate_cons_cons]
      have hall := (hx.punctuate closes_separator (by decide)).lexes_append hxs
      rw [List.append_assoc] at hall
      exact hall

theorem closes_braced (indent : Nat) (h : Closes s ts) :
    Closes (braced indent s) (Func.bracedTokens ts) := by
  have hopen : Closes "\x7b\n" [.lbrace] := closes_lbrace.append closes_newline
  have hall := ((hopen.append h).append (closes_pad indent)).append closes_rbrace
  rw [List.append_nil] at hall
  exact hall

end

theorem isWord_ty (t : Ty) : isWord t.name = true := by
  cases t <;> decide

theorem isWord_opcode (o : Opcode) : isWord o.name = true := by
  cases o <;> decide

/-! ## Expressions -/

section
variable {f : Func} {E : Env}

theorem isWord_var (hv : E.Means v) (hE : Reader.Within E f) : isWord (f.varName v) = true := by
  rw [hE.varName hv.lt]
  exact hv.word

theorem lexes_var (hE : Reader.Within E f) (hv : E.Means v) :
    Lexes (f.varName v) [.word (f.varName v)] := lexes_word (isWord_var hv hE)

theorem lexes_args {args : List Var} (hE : Reader.Within E f) (hargs : ∀ v ∈ args, E.Means v) :
    Lexes (f.argsText args) (f.argTokens args) :=
  lexes_commaJoin fun v hv => lexes_var hE (hargs v hv)

theorem lexes_operands {s : String} {args : List Var} (hs : isWord s = true)
    (hE : Reader.Within E f) (hargs : ∀ v ∈ args, E.Means v) :
    Lexes (s ++ f.operandsText args) (.word s :: f.argTokens args) := by
  cases args with
  | nil => exact (lexes_word hs).append lexes_empty rfl
  | cons v args =>
    have hblank := closes_blank.lexes_append (lexes_args hE hargs)
    exact (lexes_word hs).append hblank (stops_blank _)

/-- A field of a variable, behind a word. -/
theorem lexes_field {s lead field : String} (hs : Closes lead [.word s]) (hE : Reader.Within E f)
    (hv : E.Means v) (hfield : isWord field = true) :
    Lexes (lead ++ f.varName v ++ "." ++ field)
      [.word s, .word (f.varName v), .dot, .word field] := by
  -- a point does not stop a name, so it is closed together with the word in front of it
  have hname := hs.append (closes_word_dot (isWord_var hv hE))
  rw [← String.append_assoc] at hname
  exact hname.lexes_append (lexes_word hfield)

theorem lexes_link (node : Option String) : (∀ s ∈ node, isWord s = true) →
    Lexes (match node with
      | some node => " [node " ++ node ++ "]"
      | none => "") (Func.linkTokens node) := by
  intro hnode
  cases node with
  | none => exact lexes_empty
  | some s =>
    have hopen : Closes " [node " [.lbracket, .word "node"] :=
      closes_blank.append (closes_lbracket.append (closes_lead (s := "node") (by decide) rfl))
    have hs := hopen.lexes_append (lexes_word (hnode s rfl))
    exact (hs.punctuate closes_rbracket (by decide)).lexes

theorem lexes_expr {e : Expr} (hE : Reader.Within E f) (he : ExprRule E e)
    (hreal : ∀ x, e = .const (.real x) → Real64.ReadsBack x) :
    Lexes (f.exprText e) (f.exprTokens e) := by
  cases e with
  | const k =>
    cases k with
    | real x =>
      obtain ⟨y, hy, -⟩ := hreal x rfl
      exact (closes_lead (s := "fconst") (by decide) rfl).lexes_append (lexes_literal hy)
    | int n => exact (closes_lead (s := "iconst") (by decide) rfl).lexes_append (lexes_int n)
    | bool b =>
      have hword : isWord (toString b) = true := by cases b <;> decide
      exact (closes_lead (s := "bconst") (by decide) rfl).lexes_append (lexes_word hword)
  | copy v => exact (closes_lead (s := "copy") (by decide) rfl).lexes_append (lexes_var hE he)
  | load v field =>
    exact lexes_field (closes_lead (s := "load") (by decide) rfl) hE he.1 he.2
  | op opcode args => exact lexes_operands (isWord_opcode opcode) hE he.2
  | call callee args node =>
    have hcallee := (closes_lead (s := "call") (by decide) rfl).lexes_append (lexes_name he.1)
    rw [← String.append_assoc] at hcallee
    have hargs := (hcallee.punctuate closes_lpar (by decide)).lexes_append (lexes_args hE he.2.1)
    exact (hargs.punctuate closes_rpar (by decide)).lexes_append (lexes_link node he.2.2)
  | pop t => exact (closes_lead (s := "pop") (by decide) rfl).lexes_append (lexes_tape he)
  | topIs t d =>
    have htape := (closes_lead (s := "top_is") (by decide) rfl).lexes_append (lexes_tape he.1)
    exact (htape.punctuate closes_separator (by decide)).lexes_append (lexes_int d)

end

/-! ## Statements -/

/-- What the action can write. -/
def Writes {σ : Type} (act : StateM σ String) (P : String → Prop) : Prop :=
  ∀ st, P (act.run st).1

section
variable {σ : Type} {P Q : String → Prop}

theorem writes_pure {s : String} (h : P s) : Writes (pure s : StateM σ String) P := fun _ => h

theorem Writes.bind {act : StateM σ String} {k : String → StateM σ String} (h : Writes act P)
    (hk : ∀ s, P s → Writes (k s) Q) : Writes (act >>= k) Q :=
  fun st => hk _ (h st) _

end

section
variable {σ : Type} {f : Func} {E E₁ E₂ : Env} {note : Stmt → StateM σ String} {indent : Nat}

theorem lexes_dst {dst : Var} {decl : Bool} (h : isWord (f.varName dst) = true) :
    Lexes (f.dstText dst decl) (f.dstTokens dst decl) := by
  have hname : Lexes (f.info dst).name [.word (f.varName dst)] := lexes_word h
  have hty : Lexes (f.info dst).ty.name [.word (f.varTy dst).name] := lexes_word (isWord_ty _)
  have hlet : Closes "let " [.word "let"] := closes_lead (by decide) rfl
  have hmut : Closes (if (f.info dst).mutable then "mut " else "")
      (if (f.info dst).mutable then [.word "mut"] else []) := by
    split
    · exact closes_lead (by decide) rfl
    · exact closes_empty
  cases decl with
  | false => exact hname
  | true =>
    have hall := (((hlet.append hmut).lexes_append hname).punctuate closes_ascription
      (by decide)).lexes_append hty
    rw [List.append_assoc, List.append_assoc] at hall
    exact hall

theorem lexes_define {dst : Var} {decl : Bool} {e : Expr} (h : isWord (f.varName dst) = true)
    (he : Lexes (f.exprText e) (f.exprTokens e)) :
    Lexes (f.dstText dst decl ++ " = " ++ f.exprText e) (f.stmtTokens (.define dst decl e)) := by
  rw [Func.stmtTokens]
  exact ((lexes_dst h).punctuate closes_define (by decide)).lexes_append he

theorem writes_loop {header : Block} (htest : isWord (f.varName test) = true)
    (hheader : Writes (f.linesTextM note (indent + 4) header) (Closes · (f.blockTokens header)))
    (hbody : Writes (f.linesTextM note (indent + 4) body) (Closes · (f.blockTokens body))) :
    Writes (f.stmtTextM note indent (.loop header test body))
      (Lexes · (f.stmtTokens (.loop header test body))) := by
  rw [Func.stmtTextM, Func.stmtTokens]
  refine hheader.bind fun header' hheader' => hbody.bind fun body' hbody' => writes_pure ?_
  have hlead : Closes "while " [.word "while"] := closes_lead (by decide) rfl
  have hopen := (hlead.append (closes_braced indent hheader')).append closes_arrows
  have hword := (hopen.lexes_append (lexes_word htest)).punctuate closes_blank (by decide)
  have hall := (hword.append (closes_braced indent hbody')).lexes
  simpa only [List.append_assoc, List.cons_append, List.nil_append] using hall

theorem writes_doLoop (htest : isWord (f.varName test) = true)
    (hbody : Writes (f.linesTextM note (indent + 4) body) (Closes · (f.blockTokens body))) :
    Writes (f.stmtTextM note indent (.doLoop body test))
      (Lexes · (f.stmtTokens (.doLoop body test))) := by
  rw [Func.stmtTextM, Func.stmtTokens]
  refine hbody.bind fun body' hbody' => writes_pure ?_
  have hlead : Closes "do " [.word "do"] := closes_lead (by decide) rfl
  have hwhile : Closes " while " [.word "while"] := closes_between (by decide) rfl
  have hall := ((hlead.append (closes_braced indent hbody')).append hwhile).lexes_append
    (lexes_word htest)
  simpa only [List.append_assoc, List.cons_append, List.nil_append] using hall

theorem writes_blockStmt
    (hbody : Writes (f.linesTextM note (indent + 4) body) (Closes · (f.blockTokens body))) :
    Writes (f.stmtTextM note indent (.block body)) (Lexes · (f.stmtTokens (.block body))) := by
  rw [Func.stmtTextM, Func.stmtTokens]
  exact hbody.bind fun body' hbody' => writes_pure (closes_braced indent hbody').lexes

theorem writes_cond {arms : List (Var × Block)} {other : Block}
    (harms : Writes (f.armsTextM note indent true arms) (Closes · (f.armsTokens arms)))
    (hother : Writes (f.linesTextM note (indent + 4) other) (Closes · (f.blockTokens other))) :
    Writes (f.stmtTextM note indent (.cond arms other))
      (Lexes · (f.stmtTokens (.cond arms other))) := by
  rw [Func.stmtTextM, Func.stmtTokens]
  refine harms.bind fun arms' harms' => hother.bind fun other' hother' => writes_pure ?_
  have helse : Closes " else " [.word "else"] := closes_between (by decide) rfl
  exact ((harms'.append helse).append (closes_braced indent hother')).lexes

theorem writes_cons {s : Stmt} {ss : Block} (hnote : ∀ s, Writes (note s) IsNote)
    (hs : Writes (f.stmtTextM note indent s) (Lexes · (f.stmtTokens s)))
    (hss : Writes (f.linesTextM note indent ss) (Closes · (f.blockTokens ss))) :
    Writes (f.linesTextM note indent (s :: ss)) (Closes · (f.blockTokens (s :: ss))) := by
  rw [Func.linesTextM, Func.blockTokens]
  refine hs.bind fun line hline => (hnote s).bind fun comment hcomment =>
    hss.bind fun rest hrest => writes_pure ?_
  -- what stops the statement is its note, or the end of the line if there is none
  have hend : (comment ++ "\n").toList ≠ [] := by simp
  have hclosed := ((closes_pad indent).lexes_append hline).close hcomment.closes hend hcomment.stops
  rw [← String.append_assoc, List.append_nil] at hclosed
  exact hclosed.append hrest

/-- An arm, and those behind it. -/
theorem writes_consArm {arms : List (Var × Block)} (first : Bool)
    (htest : isWord (f.varName test) = true)
    (hbody : Writes (f.linesTextM note (indent + 4) body) (Closes · (f.blockTokens body)))
    (harms : Writes (f.armsTextM note indent false arms)
      (Closes · ((if arms.isEmpty then [] else [.word "else"]) ++ f.armsTokens arms))) :
    Writes (f.armsTextM note indent first ((test, body) :: arms))
      (Closes · ((if first then [] else [.word "else"]) ++ f.armsTokens ((test, body) :: arms))) := by
  rw [Func.armsTextM, Func.armsTokens]
  refine hbody.bind fun body' hbody' => harms.bind fun arms' harms' => writes_pure ?_
  have helse : Closes (if first then "" else " else ") (if first then [] else [.word "else"]) := by
    split
    · exact closes_empty
    · exact closes_between (by decide) rfl
  have hif : Closes "if " [.word "if"] := closes_lead (by decide) rfl
  have hword := ((helse.append hif).lexes_append (lexes_word htest)).punctuate closes_blank (by decide)
  have hall := (hword.append (closes_braced indent hbody')).append harms'
  simpa only [List.append_assoc, List.cons_append, List.nil_append, List.append_nil] using hall

end

mutual

/-- **Statements are written as their tokens.** -/
theorem writes_stmt {σ : Type} {f : Func} {note : Stmt → StateM σ String}
    (hnote : ∀ s, Writes (note s) IsNote) (indent : Nat) {E E' : Env} {s : Stmt} :
    StmtRule E s E' → Reader.Within E' f → RealsReadBack [s] →
      Writes (f.stmtTextM note indent s) (Lexes · (f.stmtTokens s))
  | .assign hv he, hE, hreals => by
    have he' := lexes_expr hE he (Reader.readsBack_define hreals)
    rw [Func.stmtTextM]
    exact writes_pure (lexes_define (isWord_var hv hE) he')
  | .declare he hfree, hE, hreals => by
    have hword := hfree.word
    rw [← hE.info] at hword
    have he' := lexes_expr ((Reader.Extends.push _ _).trans hE) he (Reader.readsBack_define hreals)
    rw [Func.stmtTextM]
    exact writes_pure (lexes_define hword he')
  | .store hobj hval hfield, hE, _ => by
    rw [Func.stmtTextM, Func.stmtTokens]
    have hlead : Closes "store " [.word "store"] := closes_lead (by decide) rfl
    have hplace := (lexes_field hlead hE hobj hfield).punctuate closes_separator (by decide)
    exact writes_pure (hplace.lexes_append (lexes_var hE hval))
  | .cond harms, hE, hreals => by
    have hwrites := writes_arms hnote indent harms hE hreals
    exact writes_cond (hwrites.1 true) hwrites.2
  | .loop hheader htest hbody, hE, hreals => by
    have hgrows := Reader.grows_block hbody
    have hE₁ := hgrows.trans hE
    refine writes_loop (isWord_var htest hE₁)
      (writes_block hnote _ hheader hE₁ (Reader.readsBack_subset hreals ?_))
      (writes_block hnote _ hbody hE (Reader.readsBack_subset hreals ?_))
    · simp +contextual [blockAtoms, Stmt.atoms]
    · simp +contextual [blockAtoms, Stmt.atoms]
  | .doLoop hbody htest, hE, hreals => by
    refine writes_doLoop (isWord_var htest hE)
      (writes_block hnote _ hbody hE (Reader.readsBack_subset hreals ?_))
    simp [blockAtoms, Stmt.atoms]
  | .block hbody, hE, hreals => by
    refine writes_blockStmt (writes_block hnote _ hbody hE (Reader.readsBack_subset hreals ?_))
    simp [blockAtoms, Stmt.atoms]
  | .push ht hval, hE, _ => by
    rw [Func.stmtTextM, Func.stmtTokens]
    have hlead : Closes "push " [.word "push"] := closes_lead (by decide) rfl
    have htape := (hlead.lexes_append (lexes_tape ht)).punctuate closes_separator (by decide)
    exact writes_pure (htape.lexes_append (lexes_var hE hval))
  | .pushDecision ht hd, _, _ => by
    rw [Func.stmtTextM, Func.stmtTokens]
    have hlead : Closes "push " [.word "push"] := closes_lead (by decide) rfl
    have htape := (hlead.lexes_append (lexes_tape ht)).punctuate closes_separator (by decide)
    exact writes_pure (htape.lexes_append (lexes_int _))
  | .unreachable, _, _ => by
    rw [Func.stmtTextM, Func.stmtTokens]
    exact writes_pure (lexes_word (by decide))
  | .ret hvals, hE, _ => by
    rw [Func.stmtTextM, Func.stmtTokens]
    exact writes_pure (lexes_operands (by decide) hE hvals)

theorem writes_block {σ : Type} {f : Func} {note : Stmt → StateM σ String}
    (hnote : ∀ s, Writes (note s) IsNote) (indent : Nat) {E E' : Env} {ss : Block} :
    BlockRule E ss E' → Reader.Within E' f → RealsReadBack ss →
      Writes (f.linesTextM note indent ss) (Closes · (f.blockTokens ss))
  | .nil, _, _ => by
    rw [Func.linesTextM, Func.blockTokens]
    exact writes_pure closes_empty
  | .cons hs _ hss, hE, hreals => by
    have hE₁ := (Reader.grows_block hss).trans hE
    refine writes_cons hnote (writes_stmt hnote _ hs hE₁ (Reader.readsBack_subset hreals ?_))
      (writes_block hnote _ hss hE (Reader.readsBack_subset hreals ?_))
    · simp +contextual [blockAtoms]
    · simp +contextual [blockAtoms]

/-- The arms of a conditional, and its last block. -/
theorem writes_arms {σ : Type} {f : Func} {note : Stmt → StateM σ String}
    (hnote : ∀ s, Writes (note s) IsNote) (indent : Nat) {E E' : Env} {arms : List (Var × Block)}
    {other : Block} :
    ArmsRule E arms other E' → Reader.Within E' f → RealsReadBack [.cond arms other] →
      (∀ first, Writes (f.armsTextM note indent first arms)
        (Closes · ((if first then [] else [.word "else"]) ++ f.armsTokens arms))) ∧
      Writes (f.linesTextM note (indent + 4) other) (Closes · (f.blockTokens other))
  | .last htest hbody hother, hE, hreals => by
    have hgrows := Reader.grows_block hother
    have hE₁ := hgrows.trans hE
    have hE₀ := (Reader.grows_block hbody).trans hE₁
    refine ⟨fun first => writes_consArm first (isWord_var htest hE₀)
      (writes_block hnote _ hbody hE₁ (Reader.readsBack_subset hreals ?_)) ?_,
      writes_block hnote _ hother hE (Reader.readsBack_subset hreals ?_)⟩
    · simp +contextual [blockAtoms, Stmt.atoms, armsAtoms]
    · rw [Func.armsTextM, Func.armsTokens]
      exact writes_pure closes_empty
    · simp +contextual [blockAtoms, Stmt.atoms, armsAtoms]
  | .cons htest hbody harms, hE, hreals => by
    have hgrows := Reader.grows_arms harms
    have hE₁ := hgrows.trans hE
    have hE₀ := (Reader.grows_block hbody).trans hE₁
    have hrest := writes_arms hnote indent harms hE (Reader.readsBack_subset hreals
      (by simp +contextual [blockAtoms, Stmt.atoms, armsAtoms]))
    refine ⟨fun first => writes_consArm first (isWord_var htest hE₀)
      (writes_block hnote _ hbody hE₁ (Reader.readsBack_subset hreals ?_)) ?_, hrest.2⟩
    · simp +contextual [blockAtoms, Stmt.atoms, armsAtoms]
    · have hne := Reader.ne_nil_of_rule harms
      rw [List.isEmpty_eq_false_iff.mpr hne]
      exact hrest.1 false

end

/-! ## Functions -/

section
variable {f : Func} {E E' : Env}

theorem lexes_pathTail {ws : List String} (h : ∀ w ∈ ws, isWord w = true) {s : String}
    (hs : isWord s = true) : Lexes (s ++ String.join (ws.map ("." ++ ·)))
      (.word s :: ws.flatMap fun w => [.dot, .word w]) := by
  induction ws generalizing s with
  | nil => exact (lexes_word hs).append lexes_empty rfl
  | cons w ws ih =>
    have hrest := ih (fun w' hw' => h w' (List.mem_cons_of_mem w hw')) (h w List.mem_cons_self)
    have hall := (closes_word_dot hs).lexes_append hrest
    rw [List.map_cons, String.join_cons]
    simpa only [String.append_assoc, List.flatMap_cons, List.cons_append, List.nil_append] using hall

theorem lexes_path {s : String} (h : ∀ w ∈ pathWords s, isWord w = true) :
    Lexes s (Func.pathTokens (pathWords s)) := by
  obtain ⟨w, ws, hws, hs⟩ := Reader.pathWords_cons s
  rw [hws] at h ⊢
  rw [Reader.pathTokens_cons, hs]
  exact lexes_pathTail (fun w' hw' => h w' (List.mem_cons_of_mem w hw')) (h w List.mem_cons_self)

theorem closes_attr {a : Attr} (h : a.Rule) : Closes (Func.attrText a) (Func.attrTokens a) := by
  have hargs := lexes_commaJoin (w := id) (l := a.args) fun s hs => lexes_path (h.args s hs)
  rw [List.map_id] at hargs
  unfold Func.attrText Func.attrTokens
  cases hempty : a.args.isEmpty with
  | true =>
    have hname := (lexes_attr h.name).append lexes_empty rfl
    exact hname.punctuate closes_newline (by decide)
  | false =>
    have hopen := ((lexes_attr h.name).punctuate closes_lpar (by decide)).lexes_append hargs
    have hall := (hopen.punctuate closes_rpar (by decide)).append closes_newline
    simpa only [String.append_assoc, List.append_assoc, List.cons_append, List.nil_append,
      List.append_nil, Bool.false_eq_true, if_false, id_eq] using hall

theorem closes_attrs {as : List Attr} (h : ∀ a ∈ as, a.Rule) :
    Closes (String.join (as.map Func.attrText)) (as.flatMap Func.attrTokens) := by
  induction as with
  | nil => exact closes_empty
  | cons a as ih =>
    rw [List.map_cons, String.join_cons, List.flatMap_cons]
    exact (closes_attr (h a List.mem_cons_self)).append
      (ih fun a' ha' => h a' (List.mem_cons_of_mem a ha'))

theorem isWord_params {vs : List Var} (h : ParamsRule E vs E') (hE : Reader.Within E' f) :
    ∀ v ∈ vs, isWord (f.varName v) = true := by
  induction h with
  | nil => simp
  | cons hfree hvs ih =>
    intro v hv
    rcases List.mem_cons.mp hv with rfl | hv
    · have hinfo := Reader.Within.info ((Reader.grows_params hvs).trans hE)
      rw [Func.varName, hinfo]
      exact hfree.word
    · exact ih hE v hv

theorem lexes_params {vs : List Var} (h : ∀ v ∈ vs, isWord (f.varName v) = true) :
    Lexes (commaJoin (vs.map fun v => f.varName v ++ ": " ++ (f.varTy v).name))
      (commas (vs.map f.paramTokens)) :=
  lexes_commaJoin fun v hv => ((lexes_word (h v hv)).punctuate closes_ascription
    (by decide)).lexes_append (lexes_word (isWord_ty _))

theorem closes_returns (tys : List Ty) :
    Closes (Func.returnsText tys ++ " ") (Func.returnTokens tys) := by
  cases tys with
  | nil => exact closes_empty.append closes_blank
  | cons t tys =>
    have hnames := lexes_commaJoin (l := t :: tys) fun t' _ => lexes_word (isWord_ty t')
    have hall := (closes_arrows.lexes_append hnames).punctuate closes_blank (by decide)
    rw [List.append_nil] at hall
    exact hall

/-- **A function that obeys the rules is written as its tokens**, whatever the notes. -/
theorem writes_annotated {σ : Type} {note : Stmt → StateM σ String} (hf : f.Rule)
    (hreals : RealsReadBack f.body) (hnote : ∀ s, Writes (note s) IsNote) :
    Writes (f.annotated note) (Closes · f.tokens) := by
  obtain ⟨E₁, E₂, hparams, hbody, hvars⟩ := hf.body
  have hE₂ : Reader.Within E₂ f := by
    rw [Reader.Within, hvars]
    exact .refl _
  have hE₁ : Reader.Within E₁ f := (Reader.grows_block hbody).trans hE₂
  refine (writes_block hnote 4 hbody hE₂ hreals).bind fun body hbody => writes_pure ?_
  have hlead : Closes "function " [.word "function"] := closes_lead (by decide) rfl
  have hname : Lexes ("function %" ++ f.name) [.word "function", .name f.name] := by
    have h := hlead.lexes_append (lexes_name hf.name)
    rw [← String.append_assoc] at h
    exact h
  have hopen := (((closes_attrs hf.attrs).lexes_append hname).punctuate closes_lpar
    (by decide)).lexes_append (lexes_params (isWord_params hparams hE₁))
  have hhead := (hopen.punctuate closes_rpar (by decide)).append (closes_returns f.returns)
  have hall := (hhead.append (closes_braced 0 hbody)).append closes_newline
  unfold Func.headText Func.tokens Func.coreTokens
  simpa only [String.append_assoc, List.append_assoc, List.cons_append, List.nil_append,
    List.append_nil] using hall

end

/-- **Reading undoes printing.** What was read from some text is read again from its own
text, and from its own text with notes. -/
theorem Func.read_annotated {σ : Type} {text : String} {f : Func} (h : Func.read text = .ok f)
    (hreals : RealsReadBack f.body) :
    (∃ g, Func.read f.text = .ok g ∧ g.canonical = f.canonical) ∧
    ∀ note : Stmt → StateM σ String, (∀ s, Writes (note s) IsNote) → ∀ st,
      ∃ g, Func.read ((f.annotated note).run' st) = .ok g ∧ g.canonical = f.canonical := by
  have hrule := Func.rule_of_read h
  have hread {σ : Type} {note : Stmt → StateM σ String} (hnote : ∀ s, Writes (note s) IsNote)
      (st : σ) : ∃ g, Func.read ((f.annotated note).run' st) = .ok g ∧
        g.canonical = f.canonical := by
    have htokens := writes_annotated hrule hreals hnote st []
    rw [List.append_nil, tokens_nil, List.append_nil] at htokens
    exact Func.read_of_tokens hrule hreals htokens
  exact ⟨hread (fun _ => writes_pure (.inl rfl)) (), fun note hnote st => hread hnote st⟩

/-- Shadowed names, a chain of conditionals and one inside another, the scope of a loop
header, tapes, a negative decision, a path and a return without values. -/
def Scopes.text : String :=
  "@keep(a.b, c) function %f(x: bool, y: int) -> bool {
    if x { let x: int = copy y push values0, x } else if x { }
    else { if x { push decisions12, -3 } else { return } }
    while { let x: bool = copy x } -> x { }
    return x
  }"

def Scopes.isReal : Stmt → Bool
  | .define _ _ (.const (.real _)) => true
  | _ => false

theorem Scopes.reads : (match Func.read Scopes.text with
    | .ok f => (blockAtoms f.body).all (!Scopes.isReal ·)
    | .error _ => false) = true := by decide +kernel

/-- A note behind every other statement. -/
def Scopes.note (_ : Stmt) : StateM Nat String := do
  modify (· + 1)
  return if (← get) % 2 == 0 then "" else " ; odd"

theorem Scopes.isNote (s : Stmt) : Writes (Scopes.note s) IsNote := by
  intro n
  change IsNote (if (n + 1) % 2 == 0 then "" else " ; odd")
  split
  · exact .inl rfl
  · exact .inr ⟨" odd".toList, rfl, by decide⟩

theorem scopes_read_annotated : ∃ f, Func.read Scopes.text = .ok f ∧
    (∃ g, Func.read f.text = .ok g ∧ g.canonical = f.canonical) ∧
    ∃ g, Func.read ((f.annotated Scopes.note).run' 0) = .ok g ∧ g.canonical = f.canonical := by
  have hreads := Scopes.reads
  cases hread : Func.read Scopes.text with
  | error e =>
    rw [hread] at hreads
    cases hreads
  | ok f =>
    rw [hread] at hreads
    have hreals : RealsReadBack f.body := by
      intro dst decl x hx
      have hnone := List.all_eq_true.mp hreads _ hx
      cases hnone
    obtain ⟨hplain, hnoted⟩ := Func.read_annotated hread hreals
    exact ⟨f, rfl, hplain, hnoted Scopes.note Scopes.isNote 0⟩

end Backsweep
