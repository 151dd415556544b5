import Mathlib
import Backsweep.Proofs.Syntax.Lexing
import Backsweep.Proofs.Syntax.Table

/-!
# What the reader accepts

A function that was read obeys the rules of the grammar.

* `Reader.Cursor.At`: the tokens ahead were scanned, and the scopes have the names of
  their variables;
* `Reader.stmts_ruled`: blocks that were read obey the rules;
* `Func.rule_of_read`: so do functions;
* `Func.readAll_singleton_iff`: one function, and lists of one function.
-/

namespace Backsweep

variable {f : Func}

/-- The scopes have the names of their variables, which can be used. -/
def Env.Fits (E : Env) : Prop :=
  ∀ scope ∈ E.scopes, ∀ p ∈ scope, p.2.idx < E.vars.size ∧ E.varName p.2 = p.1 ∧
    isWord p.1 = true ∧ isKeyword p.1 = false

namespace Env.Fits

variable {E : Env}

theorem means (h : E.Fits) {name : String} {v : Var} (hv : E.find? name = some v) : E.Means v := by
  obtain ⟨scope, hscope, hfind⟩ := List.exists_of_findSome?_eq_some hv
  unfold Reader.findIn at hfind
  obtain ⟨p, hp, rfl⟩ := Option.map_eq_some_iff.mp hfind
  have hname : p.1 = name := by simpa using List.find?_some hp
  obtain ⟨hlt, heq, hword, hfree⟩ := h scope hscope p (List.mem_of_find?_eq_some hp)
  refine ⟨hlt, heq ▸ hword, heq ▸ hfree, ?_⟩
  rw [heq, hname]
  exact hv

theorem enter (h : E.Fits) : E.enter.Fits := by
  intro scope hscope p hp
  rcases List.mem_cons.mp hscope with rfl | hscope
  · cases hp
  · exact h scope hscope p hp

theorem leave (h : E.Fits) : E.leave.Fits :=
  fun scope hscope => h scope (List.mem_of_mem_tail hscope)

theorem declare (h : E.Fits) {info : VarInfo} (hfree : E.Free info.name) :
    (E.declare info).Fits := by
  have hold (p : String × Var) (hp : p.2.idx < E.vars.size ∧ E.varName p.2 = p.1 ∧
      isWord p.1 = true ∧ isKeyword p.1 = false) : p.2.idx < (E.declare info).vars.size ∧
      (E.declare info).varName p.2 = p.1 ∧ isWord p.1 = true ∧ isKeyword p.1 = false := by
    obtain ⟨hlt, hname, hword⟩ := hp
    refine ⟨?_, ?_, hword⟩
    · simp only [Env.declare, Array.size_push]
      omega
    · rw [← hname]
      simp [Env.varName, Env.declare, Array.getD_eq_getD_getElem?, Array.getElem?_push, hlt.ne]
  intro scope hscope p hp
  rcases List.mem_cons.mp hscope with rfl | hscope
  · rcases List.mem_cons.mp hp with rfl | hp
    · refine ⟨by simp [Env.declare], ?_, hfree.word, hfree.free⟩
      simp [Env.varName, Env.declare, Array.getD_eq_getD_getElem?]
    · cases hE : E.scopes with
      | nil => rw [hE] at hp; cases hp
      | cons scope scopes =>
        rw [hE] at hp
        exact hold p (h scope (by simp [hE]) p hp)
  · exact hold p (h scope (List.mem_of_mem_tail hscope) p hp)

end Env.Fits

namespace Reader

variable {t : Token} {s : String} {c' : Cursor}

/-! ## Actions -/

theorem bind_eq_ok {α β : Type} {act : Read α} {k : α → Read β} {c c₂ : Cursor} {b : β}
    (h : (act >>= k) c = .ok (b, c₂)) : ∃ a c₁, act c = .ok (a, c₁) ∧ k a c₁ = .ok (b, c₂) := by
  change (act c).bind (fun r => k r.1 r.2) = _ at h
  cases hact : act c with
  | error e => rw [hact] at h; cases h
  | ok r =>
    rw [hact] at h
    exact ⟨r.1, r.2, rfl, h⟩

theorem bind_of_ok {α β : Type} {act : Read α} {k : α → Read β} {c c₁ : Cursor} {a : α}
    (h : act c = .ok (a, c₁)) : (act >>= k) c = k a c₁ := by
  change (act c).bind (fun r => k r.1 r.2) = _
  rw [h]
  rfl

/-- Where the action succeeds, the result and the cursor are as said. -/
def Ensures {α : Type} (act : Read α) (c : Cursor) (post : α → Cursor → Prop) : Prop :=
  ∀ a c', act c = .ok (a, c') → post a c'

section
variable {α β : Type} {act : Read α} {c : Cursor} {post : α → Cursor → Prop}

theorem Ensures.bind {f : α → Read β} {post' : β → Cursor → Prop} (h : Ensures act c post)
    (hf : ∀ a c', post a c' → Ensures (f a) c' post') : Ensures (act >>= f) c post' := by
  intro b c' hb
  obtain ⟨a, c₁, hact, hb⟩ := bind_eq_ok hb
  exact hf a c₁ (h a c₁ hact) b c' hb

theorem Ensures.mono {post' : α → Cursor → Prop} (h : Ensures act c post)
    (himp : ∀ a c', post a c' → post' a c') : Ensures act c post' :=
  fun a c' ha => himp a c' (h a c' ha)

theorem ensures_pure {a : α} (h : post a c) : Ensures (pure a) c post := by
  intro a' c' ha
  cases ha
  exact h

theorem ensures_failHere (fault : Fault) : Ensures (failHere fault) c post := by
  intro a c' ha
  cases ha

theorem ensures_unexpected (what : String) : Ensures (unexpected what) c post := by
  intro a c' ha
  cases ha

end

/-! ## Cursors -/

/-- The variables and scopes so far. -/
def Cursor.env (c : Cursor) : Env := ⟨c.vars, c.scopes⟩

/-- The next token, unless there is an invalid character. -/
def Cursor.next? (c : Cursor) : Option Token := c.rest.head?.bind Lexeme.token

/-- The cursor stands behind `E` in the text, and the tokens ahead were scanned. Invalid
characters that were passed over are remembered. -/
structure Cursor.At (c : Cursor) (L : List Lexeme) (E : Env) : Prop where
  env : c.env = E
  lexed : ∀ l ∈ c.rest, ∀ t, l.token = some t → t.IsLexed
  fits : E.Fits
  seen : ∃ done, L = done ++ c.rest ∧ (c.invalid = false ↔ ∀ l ∈ done, l.token ≠ none)

theorem peek_nil {c : Cursor} (h : c.rest = []) : peek c = .ok (none, c) := by
  obtain ⟨rest, line, invalid, vars, scopes⟩ := c
  cases h
  rfl

theorem peek_invalid {c : Cursor} {line : Nat} {rest : List Lexeme}
    (h : c.rest = ⟨line, none⟩ :: rest) :
    peek c = .ok (none, { c with rest, line, invalid := true }) := by
  obtain ⟨rest', line', invalid, vars, scopes⟩ := c
  cases h
  rfl

theorem peek_token {c : Cursor} {line : Nat} {rest : List Lexeme}
    (h : c.rest = ⟨line, some t⟩ :: rest) : peek c = .ok (some t, { c with line }) := by
  obtain ⟨rest', line', invalid, vars, scopes⟩ := c
  cases h
  rfl

section
variable {L : List Lexeme} {E : Env} {c : Cursor}

theorem ensures_peek (h : c.At L E) : Ensures peek c fun t c' =>
    c'.At L E ∧ (∀ t', t = some t' → t'.IsLexed ∧ c'.next? = some t') ∧ (c.next? ≠ none → t = c.next?) := by
  intro t c' hpeek
  cases hrest : c.rest with
  | nil =>
    rw [peek_nil hrest] at hpeek
    cases hpeek
    exact ⟨h, by simp, by simp [Cursor.next?, hrest]⟩
  | cons l rest =>
    obtain ⟨line, token⟩ := l
    cases token with
    | none =>
      rw [peek_invalid hrest] at hpeek
      cases hpeek
      obtain ⟨done, hdone, -⟩ := h.seen
      refine ⟨⟨h.env, fun l hl => h.lexed l ?_, h.fits, done ++ [⟨line, none⟩], ?_, ?_⟩, by simp,
        by simp [Cursor.next?, hrest]⟩
      · rw [hrest]
        exact List.mem_cons_of_mem _ hl
      · rw [hdone, hrest, List.append_assoc]
        rfl
      · simp
    | some t' =>
      rw [peek_token hrest] at hpeek
      cases hpeek
      refine ⟨⟨h.env, h.lexed, h.fits, h.seen⟩, fun t'' ht'' => ?_, by simp [Cursor.next?, hrest]⟩
      cases ht''
      exact ⟨h.lexed ⟨line, some t'⟩ (by simp [hrest]) t' rfl, by simp [Cursor.next?, hrest]⟩

theorem ensures_advance (h : c.At L E) (hnext : c.next? = some t) :
    Ensures advance c fun _ c' => c'.At L E := by
  intro a c' hadvance
  cases hadvance
  obtain ⟨done, hdone, hvalid⟩ := h.seen
  refine ⟨h.env, fun l hl => h.lexed l (List.mem_of_mem_tail hl), h.fits, ?_⟩
  cases hrest : c.rest with
  | nil => simp [Cursor.next?, hrest] at hnext
  | cons l rest =>
    have hl : l.token = some t := by simpa [Cursor.next?, hrest] using hnext
    refine ⟨done ++ [l], by simp [hdone, hrest], ?_⟩
    simp [hvalid, or_imp, forall_and, hl]

theorem ensures_fuel (h : c.At L E) : Ensures fuel c fun n c' => c'.At L E ∧ 0 < n := by
  intro n c' hfuel
  cases hfuel
  exact ⟨h, Nat.succ_pos _⟩

/-- A token that is next is taken. -/
theorem ensures_accept (h : c.At L E) (t : Token) : Ensures (accept t) c fun b c' =>
    c'.At L E ∧ (c.next? = some t → b = true) := by
  unfold accept
  refine (ensures_peek h).bind fun t' c' ht' => ?_
  split
  · rename_i heq
    have hnext := (ht'.2.1 t (by simpa using heq)).2
    exact (ensures_advance ht'.1 hnext).bind fun _ c'' hc'' => ensures_pure ⟨hc'', fun _ => rfl⟩
  · rename_i hne
    refine ensures_pure ⟨ht'.1, fun hnext => ?_⟩
    have ht := ht'.2.2 (by simp [hnext])
    rw [ht, hnext] at hne
    simp at hne

theorem ensures_expect (h : c.At L E) (t : Token) (what : String) :
    Ensures (expect t what) c fun _ c' => c'.At L E := by
  unfold expect
  refine (ensures_accept h t).bind fun b c' hb => ?_
  split
  · exact ensures_pure hb.1
  · exact ensures_unexpected what

theorem ensures_word (h : c.At L E) (what : String) :
    Ensures (word what) c fun s c' => c'.At L E ∧ isWord s = true := by
  unfold word
  refine (ensures_peek h).bind fun t c' ht => ?_
  split
  · obtain ⟨hword, hnext⟩ := ht.2.1 _ rfl
    exact (ensures_advance ht.1 hnext).bind fun _ c'' hc'' => ensures_pure ⟨hc'', hword⟩
  · exact ensures_unexpected what

theorem ensures_name (h : c.At L E) (what : String) :
    Ensures (name what) c fun s c' => c'.At L E ∧ isSigiled isNameChar s = true := by
  unfold name
  refine (ensures_peek h).bind fun t c' ht => ?_
  split
  · obtain ⟨hname, hnext⟩ := ht.2.1 _ rfl
    exact (ensures_advance ht.1 hnext).bind fun _ c'' hc'' => ensures_pure ⟨hc'', hname⟩
  · exact ensures_unexpected what

theorem ensures_tape (h : c.At L E) (what : String) :
    Ensures (tape what) c fun t c' => c'.At L E ∧ t.level ≤ Token.maxIndex := by
  unfold tape
  refine (ensures_peek h).bind fun t c' ht => ?_
  split
  · obtain ⟨htape, hnext⟩ := ht.2.1 _ rfl
    exact (ensures_advance ht.1 hnext).bind fun _ c'' hc'' => ensures_pure ⟨hc'', htape⟩
  · exact ensures_unexpected what

/-- The number that an integer token stands for, before its range is checked. -/
def intValue (s : String) : Int :=
  if (Decimal.sign s.toList).1 then -(Token.natOf (Decimal.sign s.toList).2 : Int)
  else Token.natOf (Decimal.sign s.toList).2

theorem int32?_eq_some {n : Int} : int32? s = some n ↔ intValue s = n ∧ IsInt32 n := by
  have heq : int32? s = (fun m : Int => if -0x80000000 ≤ m && m < 0x80000000 then some m else none)
      (intValue s) := rfl
  rw [heq]
  generalize intValue s = m
  dsimp only
  split
  · rename_i hrange
    simp only [Bool.and_eq_true, decide_eq_true_eq] at hrange
    constructor
    · intro h
      cases h
      exact ⟨rfl, hrange⟩
    · rintro ⟨rfl, -⟩
      rfl
  · rename_i hrange
    simp only [Bool.and_eq_true, decide_eq_true_eq] at hrange
    constructor
    · intro h
      cases h
    · rintro ⟨rfl, h⟩
      exact absurd h hrange

theorem ensures_int (h : c.At L E) (what : String) :
    Ensures (int what) c fun n c' => c'.At L E ∧ IsInt32 n := by
  unfold int
  refine (ensures_peek h).bind fun t c' ht => ?_
  split
  · refine (ensures_advance ht.1 (ht.2.1 _ rfl).2).bind fun _ c'' hc'' => ?_
    split
    · rename_i hn
      exact ensures_pure ⟨hc'', (int32?_eq_some.mp hn).2⟩
    · exact ensures_failHere _
  · exact ensures_unexpected what

theorem ensures_realOfText (h : c.At L E) (hnext : c.next? = some t) (s : String) :
    Ensures (realOfText s) c fun _ c' => c'.At L E := by
  unfold realOfText
  refine (ensures_advance h hnext).bind fun _ c' hc' => ?_
  split
  · exact ensures_pure hc'
  · exact ensures_failHere _

theorem ensures_real (h : c.At L E) (what : String) :
    Ensures (real what) c fun _ c' => c'.At L E := by
  unfold real
  refine (ensures_peek h).bind fun t c' ht => ?_
  split
  · exact ensures_realOfText ht.1 (ht.2.1 _ rfl).2 _
  · exact ensures_realOfText ht.1 (ht.2.1 _ rfl).2 _
  · exact ensures_unexpected what

theorem ensures_ty (h : c.At L E) : Ensures ty c fun _ c' => c'.At L E := by
  unfold ty
  refine (ensures_word h _).bind fun s c' hs => ?_
  split
  · exact ensures_pure hs.1
  · exact ensures_failHere _

theorem ensures_separated {α : Type} {item : Read α} {good : α → Prop}
    (hitem : ∀ c : Cursor, c.At L E → Ensures item c fun a c' => c'.At L E ∧ good a) (h : c.At L E)
    (close : Token) (what : String) (n : Nat) :
    Ensures (separated item close what n) c fun as c' => c'.At L E ∧ ∀ a ∈ as, good a := by
  induction n generalizing c with
  | zero => exact ensures_unexpected what
  | succ n ih =>
    unfold separated
    refine (hitem c h).bind fun a c₁ ha => ?_
    refine (ensures_accept ha.1 close).bind fun b c₂ hb => ?_
    split
    · exact ensures_pure ⟨hb.1, by simpa using ha.2⟩
    · refine (ensures_expect hb.1 _ _).bind fun _ c₃ hc₃ => ?_
      refine (ih hc₃).bind fun as c₄ has => ?_
      exact ensures_pure ⟨has.1, by simpa using ⟨ha.2, has.2⟩⟩

theorem ensures_commaSeparated {α : Type} {item : Read α} {good : α → Prop}
    (hitem : ∀ c : Cursor, c.At L E → Ensures item c fun a c' => c'.At L E ∧ good a) (h : c.At L E)
    (n : Nat) : Ensures (commaSeparated item n) c fun as c' =>
      c'.At L E ∧ (∀ a ∈ as, good a) ∧ (0 < n → as ≠ []) := by
  induction n generalizing c with
  | zero => exact ensures_pure ⟨h, by simp, by simp⟩
  | succ n ih =>
    unfold commaSeparated
    refine (hitem c h).bind fun a c₁ ha => ?_
    refine (ensures_accept ha.1 .comma).bind fun b c₂ hb => ?_
    split
    · refine (ih hb.1).bind fun as c₃ has => ?_
      exact ensures_pure ⟨has.1, by simpa using ⟨ha.2, has.2.1⟩, by simp⟩
    · exact ensures_pure ⟨hb.1, by simpa using ha.2, by simp⟩

/-! ## Variables -/

theorem lookup_apply (name : String) (c : Cursor) :
    lookup name c = match c.scopes.findSome? (findIn name) with
      | some v => .ok (v, c)
      | none => failHere (.undefined name) c := by
  have hget (f : Cursor → Read Var) : (get >>= f) c = f c c := rfl
  unfold lookup
  rw [hget]
  cases c.scopes.findSome? (findIn name) <;> rfl

theorem ensures_lookup (h : c.At L E) (name : String) :
    Ensures (lookup name) c fun v c' => c'.At L E ∧ E.Means v := by
  intro v c' hv
  have hE : c.scopes = E.scopes := congrArg Env.scopes h.env
  rw [lookup_apply] at hv
  cases hfind : c.scopes.findSome? (findIn name) with
  | none => rw [hfind] at hv; cases hv
  | some v' =>
    rw [hfind] at hv
    cases hv
    rw [hE] at hfind
    exact ⟨h, h.fits.means hfind⟩

theorem ensures_var (h : c.At L E) (what : String) :
    Ensures (var what) c fun v c' => c'.At L E ∧ E.Means v := by
  unfold var
  exact (ensures_word h what).bind fun s c' hs => ensures_lookup hs.1 s

theorem ensures_openScope (h : c.At L E) : Ensures openScope c fun _ c' => c'.At L E.enter := by
  intro a c' ha
  cases ha
  refine ⟨?_, h.lexed, h.fits.enter, h.seen⟩
  rw [← h.env]
  rfl

theorem ensures_closeScope (h : c.At L E) : Ensures closeScope c fun _ c' => c'.At L E.leave := by
  intro a c' ha
  cases ha
  refine ⟨?_, h.lexed, h.fits.leave, h.seen⟩
  rw [← h.env]
  rfl

theorem ensures_declare (h : c.At L E) {name : String} (hname : isWord name = true) (t : Ty)
    (mutable : Bool) (line : Nat) : Ensures (declare name t mutable line) c fun v c' =>
      v = ⟨E.vars.size⟩ ∧ E.Free name ∧ c'.At L (E.declare ⟨name, t, mutable⟩) := by
  intro v c' hv
  obtain ⟨henv, hlexed, hfits, hseen⟩ := h
  subst henv
  unfold declare at hv
  split at hv
  · cases hv
  · rename_i hkeyword
    change (if (findIn name (c.scopes.headD [])).isSome then fail line (.redeclared name) >>= _
      else _ : Read Var) c = _ at hv
    split at hv
    · cases hv
    · rename_i hnew
      cases hv
      have hfree : c.env.Free name :=
        ⟨hname, by simpa using hkeyword, by simpa [Cursor.env] using hnew⟩
      exact ⟨rfl, hfree, rfl, hlexed, hfits.declare hfree, hseen⟩

/-! ## Expressions -/

theorem ensures_field (h : c.At L E) :
    Ensures field c fun p c' => c'.At L E ∧ E.Means p.1 ∧ isWord p.2 = true := by
  unfold field
  refine (ensures_var h _).bind fun v c₁ hv => ?_
  refine (ensures_expect hv.1 _ _).bind fun _ c₂ hc₂ => ?_
  refine (ensures_word hc₂ _).bind fun s c₃ hs => ?_
  exact ensures_pure ⟨hs.1, hv.2, hs.2⟩

theorem ensures_link (h : c.At L E) :
    Ensures link c fun node c' => c'.At L E ∧ ∀ s ∈ node, isWord s = true := by
  unfold link
  refine (ensures_accept h _).bind fun b c₁ hb => ?_
  split
  · refine (ensures_expect hb.1 _ _).bind fun _ c₂ hc₂ => ?_
    refine (ensures_word hc₂ _).bind fun s c₃ hs => ?_
    refine (ensures_expect hs.1 _ _).bind fun _ c₄ hc₄ => ?_
    exact ensures_pure ⟨hc₄, by simpa using hs.2⟩
  · exact ensures_pure ⟨hb.1, by simp⟩

theorem ensures_call (h : c.At L E) : Ensures call c fun e c' => c'.At L E ∧ ExprRule E e := by
  unfold call
  refine (ensures_name h _).bind fun callee c₁ hcallee => ?_
  refine (ensures_expect hcallee.1 _ _).bind fun _ c₂ hc₂ => ?_
  refine (ensures_accept hc₂ _).bind fun b c₃ hb => ?_
  have hend (args : List Var) (hargs : ∀ v ∈ args, E.Means v) (c₄ : Cursor) (hc₄ : c₄.At L E) :
      Ensures (link >>= fun node => pure (Expr.call callee args node)) c₄ fun e c' =>
        c'.At L E ∧ ExprRule E e :=
    (ensures_link hc₄).bind fun node c₅ hnode =>
      ensures_pure ⟨hnode.1, hcallee.2, hargs, hnode.2⟩
  split
  · have hnone : Ensures (pure ([] : List Var)) c₃ fun args c' => args = [] ∧ c'.At L E :=
      ensures_pure ⟨rfl, hb.1⟩
    exact hnone.bind fun args c₄ hargs => hend args (by simp [hargs.1]) c₄ hargs.2
  · refine (ensures_fuel hb.1).bind fun n c₄ hn => ?_
    exact (ensures_separated (fun c hc => ensures_var hc _) hn.1 _ _ n).bind
      fun args c₅ hargs => hend args hargs.2 c₅ hargs.1

theorem ensures_operands (h : c.At L E) (n : Nat) :
    Ensures (operands n) c fun vs c' => c'.At L E ∧ vs.length = n ∧ ∀ v ∈ vs, E.Means v := by
  induction n using operands.induct generalizing c with
  | case1 => exact ensures_pure ⟨h, rfl, by simp⟩
  | case2 =>
    exact (ensures_var h _).bind fun v c₁ hv => ensures_pure ⟨hv.1, rfl, by simpa using hv.2⟩
  | case3 n hn ih =>
    rw [operands]
    · refine (ensures_var h _).bind fun v c₁ hv => ?_
      refine (ensures_expect hv.1 _ _).bind fun _ c₂ hc₂ => ?_
      refine (ih hc₂).bind fun vs c₃ hvs => ?_
      exact ensures_pure ⟨hvs.1, by simp [hvs.2.1], by simpa using ⟨hv.2, hvs.2.2⟩⟩
    · exact hn

theorem ensures_bool (h : c.At L E) : Ensures bool c fun _ c' => c'.At L E := by
  unfold bool
  refine (ensures_word h _).bind fun s c' hs => ?_
  split
  · exact ensures_pure hs.1
  · exact ensures_pure hs.1
  · exact ensures_failHere _

theorem ensures_expr (h : c.At L E) : Ensures expr c fun e c' => c'.At L E ∧ ExprRule E e := by
  unfold expr
  refine (ensures_word h _).bind fun s c₁ hs => ?_
  obtain ⟨hc₁, -⟩ := hs
  split
  · exact (ensures_real hc₁ _).bind fun x c₂ hx => ensures_pure ⟨hx, trivial⟩
  · exact (ensures_int hc₁ _).bind fun n c₂ hn => ensures_pure hn
  · exact (ensures_bool hc₁).bind fun b c₂ hb => ensures_pure ⟨hb, trivial⟩
  · exact (ensures_var hc₁ _).bind fun v c₂ hv => ensures_pure hv
  · exact (ensures_field hc₁).bind fun p c₂ hp => ensures_pure hp
  · exact ensures_call hc₁
  · exact (ensures_tape hc₁ _).bind fun t c₂ ht => ensures_pure ht
  · refine (ensures_tape hc₁ _).bind fun t c₂ ht => ?_
    refine (ensures_expect ht.1 _ _).bind fun _ c₃ hc₃ => ?_
    exact (ensures_int hc₃ _).bind fun d c₄ hd => ensures_pure ⟨hd.1, ht.2, hd.2⟩
  · split
    · exact (ensures_operands hc₁ _).bind fun vs c₂ hvs => ensures_pure hvs
    · exact ensures_failHere _

/-! ## Statements -/

/-- The statement obeys the rules. A return without values is the last one of its
block. -/
def Statement (L : List Lexeme) (E : Env) (s : Stmt) (c : Cursor) : Prop :=
  (∃ E', c.At L E' ∧ StmtRule E s E') ∧ (s = .ret [] → c.next? = some .rbrace)

/-- Blocks that are read obey the rules. Where a brace is next, there are none. -/
def Ruled (stmts : Read Block) : Prop :=
  ∀ (L : List Lexeme) (E : Env) (c : Cursor), c.At L E → Ensures stmts c fun ss c' =>
    (∃ E', c'.At L E' ∧ BlockRule E ss E') ∧ (c.next? = some .rbrace → ss = [])

theorem ensures_letStmt (h : c.At L E) : Ensures letStmt c (Statement L E) := by
  unfold letStmt
  refine (ensures_accept h _).bind fun mutable c₁ hm => ?_
  refine (ensures_word hm.1 _).bind fun s c₂ hs => ?_
  have hget : Ensures (get : Read Cursor) c₂ fun _ c' => c'.At L E := by
    intro a c' ha
    cases ha
    exact hs.1
  refine hget.bind fun d c₃ hc₃ => ?_
  refine (ensures_expect hc₃ _ _).bind fun _ c₄ hc₄ => ?_
  refine (ensures_ty hc₄).bind fun t c₅ hc₅ => ?_
  refine (ensures_expect hc₅ _ _).bind fun _ c₆ hc₆ => ?_
  refine (ensures_expr hc₆).bind fun e c₇ he => ?_
  refine (ensures_declare he.1 hs.2 t mutable d.line).bind fun v c₈ hv => ?_
  obtain ⟨rfl, hfree, hc₈⟩ := hv
  exact ensures_pure ⟨⟨_, hc₈, .declare he.2 hfree⟩, nofun⟩

theorem ensures_storeStmt (h : c.At L E) : Ensures storeStmt c (Statement L E) := by
  unfold storeStmt
  refine (ensures_field h).bind fun p c₁ hp => ?_
  refine (ensures_expect hp.1 _ _).bind fun _ c₂ hc₂ => ?_
  refine (ensures_var hc₂ _).bind fun v c₃ hv => ?_
  exact ensures_pure ⟨⟨E, hv.1, .store hp.2.1 hv.2 hp.2.2⟩, nofun⟩

theorem ensures_pushStmt (h : c.At L E) : Ensures pushStmt c (Statement L E) := by
  unfold pushStmt
  refine (ensures_tape h _).bind fun t c₁ ht => ?_
  refine (ensures_expect ht.1 _ _).bind fun _ c₂ hc₂ => ?_
  refine (ensures_peek hc₂).bind fun t' c₃ ht' => ?_
  split
  · refine (ensures_int ht'.1 _).bind fun d c₄ hd => ?_
    exact ensures_pure ⟨⟨E, hd.1, .pushDecision ht.2 hd.2⟩, nofun⟩
  · refine (ensures_var ht'.1 _).bind fun v c₄ hv => ?_
    exact ensures_pure ⟨⟨E, hv.1, .push ht.2 hv.2⟩, nofun⟩

theorem ensures_returnStmt (h : c.At L E) : Ensures returnStmt c (Statement L E) := by
  unfold returnStmt
  refine (ensures_peek h).bind fun t c₁ ht => ?_
  split
  · rename_i hbrace
    have hnext := (ht.2.1 _ (by simpa using hbrace)).2
    exact ensures_pure ⟨⟨E, ht.1, .ret (by simp)⟩, fun _ => hnext⟩
  · refine (ensures_fuel ht.1).bind fun n c₂ hn => ?_
    refine (ensures_commaSeparated (fun c hc => ensures_var hc _) hn.1 n).bind fun vs c₃ hvs => ?_
    refine ensures_pure ⟨⟨E, hvs.1, .ret hvs.2.1⟩, fun hnone => ?_⟩
    cases hnone
    exact absurd rfl (hvs.2.2 hn.2)

theorem ensures_assignment (h : c.At L E) (s : String) : Ensures (assignment s) c (Statement L E) := by
  unfold assignment
  refine (ensures_lookup h s).bind fun v c₁ hv => ?_
  refine (ensures_expect hv.1 _ _).bind fun _ c₂ hc₂ => ?_
  refine (ensures_expr hc₂).bind fun e c₃ he => ?_
  exact ensures_pure ⟨⟨E, he.1, .assign hv.2 he.2⟩, nofun⟩

variable {stmts : Read Block}

theorem ensures_block (hstmts : Ruled stmts) (h : c.At L E) : Ensures (block stmts) c fun ss c' =>
    ∃ E₁, BlockRule E.enter ss E₁ ∧ c'.At L E₁.leave := by
  unfold block
  refine (ensures_expect h _ _).bind fun _ c₁ hc₁ => ?_
  refine (ensures_openScope hc₁).bind fun _ c₂ hc₂ => ?_
  refine (hstmts L E.enter c₂ hc₂).bind fun ss c₃ hss => ?_
  obtain ⟨⟨E₁, hc₃, hrule⟩, -⟩ := hss
  exact (ensures_closeScope hc₃).bind fun _ c₄ hc₄ => ensures_pure ⟨E₁, hrule, hc₄⟩

theorem ensures_arms (hstmts : Ruled stmts) (h : c.At L E) (n : Nat) :
    Ensures (arms stmts n) c fun r c' => ∃ E', c'.At L E' ∧ ArmsRule E r.1 r.2 E' := by
  induction n generalizing c E with
  | zero => exact ensures_unexpected _
  | succ n ih =>
    unfold arms
    refine (ensures_var h _).bind fun test c₁ htest => ?_
    refine (ensures_block hstmts htest.1).bind fun body c₂ hbody => ?_
    obtain ⟨E₁, hbody, hc₂⟩ := hbody
    refine (ensures_expect hc₂ _ _).bind fun _ c₃ hc₃ => ?_
    refine (ensures_accept hc₃ _).bind fun b c₄ hb => ?_
    split
    · refine (ih hb.1).bind fun r c₅ hr => ?_
      obtain ⟨E₂, hc₅, harms⟩ := hr
      exact ensures_pure ⟨E₂, hc₅, .cons htest.2 hbody harms⟩
    · refine (ensures_block hstmts hb.1).bind fun other c₅ hother => ?_
      obtain ⟨E₂, hother, hc₅⟩ := hother
      exact ensures_pure ⟨E₂.leave, hc₅, .last htest.2 hbody hother⟩

theorem ensures_whileStmt (hstmts : Ruled stmts) (h : c.At L E) :
    Ensures (whileStmt stmts) c (Statement L E) := by
  unfold whileStmt
  refine (ensures_expect h _ _).bind fun _ c₁ hc₁ => ?_
  refine (ensures_openScope hc₁).bind fun _ c₂ hc₂ => ?_
  refine (hstmts L E.enter c₂ hc₂).bind fun header c₃ hheader => ?_
  obtain ⟨⟨E₁, hc₃, hheader⟩, -⟩ := hheader
  refine (ensures_expect hc₃ _ _).bind fun _ c₄ hc₄ => ?_
  refine (ensures_var hc₄ _).bind fun test c₅ htest => ?_
  refine (ensures_block hstmts htest.1).bind fun body c₆ hbody => ?_
  obtain ⟨E₂, hbody, hc₆⟩ := hbody
  refine (ensures_closeScope hc₆).bind fun _ c₇ hc₇ => ?_
  exact ensures_pure ⟨⟨_, hc₇, .loop hheader htest.2 hbody⟩, nofun⟩

theorem ensures_doStmt (hstmts : Ruled stmts) (h : c.At L E) :
    Ensures (doStmt stmts) c (Statement L E) := by
  unfold doStmt
  refine (ensures_expect h _ _).bind fun _ c₁ hc₁ => ?_
  refine (ensures_openScope hc₁).bind fun _ c₂ hc₂ => ?_
  refine (hstmts L E.enter c₂ hc₂).bind fun body c₃ hbody => ?_
  obtain ⟨⟨E₁, hc₃, hbody⟩, -⟩ := hbody
  refine (ensures_expect hc₃ _ _).bind fun _ c₄ hc₄ => ?_
  refine (ensures_var hc₄ _).bind fun test c₅ htest => ?_
  refine (ensures_closeScope htest.1).bind fun _ c₆ hc₆ => ?_
  exact ensures_pure ⟨⟨_, hc₆, .doLoop hbody htest.2⟩, nofun⟩

theorem ensures_stmt (hstmts : Ruled stmts) (h : c.At L E) (n : Nat) :
    Ensures (stmt stmts n) c (Statement L E) := by
  unfold stmt
  refine (ensures_peek h).bind fun t c₁ ht => ?_
  split
  · refine (ensures_block hstmts ht.1).bind fun body c₂ hbody => ?_
    obtain ⟨E₁, hbody, hc₂⟩ := hbody
    exact ensures_pure ⟨⟨_, hc₂, .block hbody⟩, nofun⟩
  · refine (ensures_advance ht.1 (ht.2.1 _ rfl).2).bind fun _ c₂ hc₂ => ?_
    split
    · exact ensures_letStmt hc₂
    · refine (ensures_arms hstmts hc₂ n).bind fun r c₃ hr => ?_
      obtain ⟨E', hc₃, harms⟩ := hr
      exact ensures_pure ⟨⟨E', hc₃, .cond harms⟩, nofun⟩
    · exact ensures_whileStmt hstmts hc₂
    · exact ensures_doStmt hstmts hc₂
    · exact ensures_storeStmt hc₂
    · exact ensures_pushStmt hc₂
    · exact ensures_pure ⟨⟨E, hc₂, .unreachable⟩, nofun⟩
    · exact ensures_returnStmt hc₂
    · exact ensures_assignment hc₂ _
  · exact ensures_unexpected _

/-- **Blocks that were read obey the rules.** -/
theorem stmts_ruled (n : Nat) : Ruled (Reader.stmts n) := by
  induction n with
  | zero => exact fun L E c h => ensures_unexpected _
  | succ n ih =>
    intro L E c h
    unfold Reader.stmts
    refine (ensures_accept h _).bind fun b c₁ hb => ?_
    split
    · exact ensures_pure ⟨⟨E, hb.1, .nil⟩, fun _ => rfl⟩
    · rename_i hfalse
      refine (ensures_peek hb.1).bind fun t c₂ ht => ?_
      have hstmt : Ensures (stmt (Reader.stmts n) n >>= fun s => Reader.stmts n >>= fun ss =>
          pure (s :: ss)) c₂ fun ss c' => (∃ E', c'.At L E' ∧ BlockRule E ss E') ∧
            (c.next? = some .rbrace → ss = []) := by
        refine (ensures_stmt ih ht.1 n).bind fun s c₃ hs => ?_
        obtain ⟨⟨E₁, hc₃, hrule⟩, hlast⟩ := hs
        refine (ih L E₁ c₃ hc₃).bind fun ss c₄ hss => ?_
        obtain ⟨⟨E₂, hc₄, hrest⟩, hnone⟩ := hss
        -- behind a return without values stands the closing brace
        refine ensures_pure ⟨⟨E₂, hc₄, .cons hrule (fun hret => hnone (hlast hret)) hrest⟩, ?_⟩
        exact fun hnext => absurd (hb.2 hnext) hfalse
      split
      · exact ensures_unexpected _
      · exact hstmt

/-! ## Functions -/

theorem not_mem_of_isWord (h : isWord s = true) : '.' ∉ s.toList := by
  unfold isWord at h
  split at h
  · cases h
  · rename_i d ds hcs
    simp only [Bool.and_eq_true, List.all_eq_true] at h
    rw [hcs, List.mem_cons, not_or]
    constructor
    · rintro rfl
      cases h.1.1
    · intro hmem
      cases h.1.2 '.' hmem

theorem toList_path (s : String) (ws : List String) :
    (s ++ String.join (ws.map ("." ++ ·))).toList =
      ['.'].intercalate ((s :: ws).map String.toList) := by
  induction ws generalizing s with
  | nil => simp [String.join_nil]
  | cons w ws ih =>
    have hrest := ih w
    rw [List.map_cons, String.join_cons, String.append_assoc, String.toList_append,
      String.toList_append, hrest, List.map_cons, List.map_cons, List.map_cons,
      List.intercalate_cons_cons, List.append_assoc]
    rfl

/-- The words of a path that is put together. -/
theorem pathWords_join (hs : isWord s = true) {ws : List String} (hws : ∀ w ∈ ws, isWord w = true) :
    pathWords (s ++ String.join (ws.map ("." ++ ·))) = s :: ws := by
  rw [pathWords, toList_path, List.splitOn_intercalate]
  · simp
  · intro l hl
    obtain ⟨w, hw, rfl⟩ := List.mem_map.mp hl
    rcases List.mem_cons.mp hw with rfl | hw
    · exact not_mem_of_isWord hs
    · exact not_mem_of_isWord (hws w hw)
  · simp

theorem ensures_pathTail (h : c.At L E) (n : Nat) : Ensures (pathTail n) c fun s c' =>
    c'.At L E ∧ ∃ ws : List String, (∀ w ∈ ws, isWord w = true) ∧
      s = String.join (ws.map ("." ++ ·)) := by
  have hnone : ∃ ws : List String, (∀ w ∈ ws, isWord w = true) ∧
      "" = String.join (ws.map ("." ++ ·)) := ⟨[], by simp, rfl⟩
  induction n generalizing c with
  | zero => exact ensures_pure ⟨h, hnone⟩
  | succ n ih =>
    unfold pathTail
    refine (ensures_accept h _).bind fun b c₁ hb => ?_
    split
    · refine (ensures_word hb.1 _).bind fun w c₂ hw => ?_
      refine (ih hw.1).bind fun s c₃ hs => ?_
      obtain ⟨hc₃, ws, hws, rfl⟩ := hs
      refine ensures_pure ⟨hc₃, w :: ws, by simpa using ⟨hw.2, hws⟩, ?_⟩
      rw [List.map_cons, String.join_cons]
    · exact ensures_pure ⟨hb.1, hnone⟩

theorem ensures_path (h : c.At L E) :
    Ensures path c fun s c' => c'.At L E ∧ ∀ w ∈ pathWords s, isWord w = true := by
  unfold path
  refine (ensures_word h _).bind fun s c₁ hs => ?_
  refine (ensures_fuel hs.1).bind fun n c₂ hn => ?_
  refine (ensures_pathTail hn.1 n).bind fun tail c₃ htail => ?_
  obtain ⟨hc₃, ws, hws, rfl⟩ := htail
  refine ensures_pure ⟨hc₃, ?_⟩
  rw [pathWords_join hs.2 hws]
  simpa using ⟨hs.2, hws⟩

theorem ensures_attrArgs (h : c.At L E) : Ensures attrArgs c fun args c' =>
    c'.At L E ∧ ∀ s ∈ args, ∀ w ∈ pathWords s, isWord w = true := by
  unfold attrArgs
  refine (ensures_accept h _).bind fun b c₁ hb => ?_
  split
  · refine (ensures_accept hb.1 _).bind fun b' c₂ hb' => ?_
    split
    · exact ensures_pure ⟨hb'.1, by simp⟩
    · refine (ensures_fuel hb'.1).bind fun n c₃ hn => ?_
      exact ensures_separated (fun c hc => ensures_path hc) hn.1 _ _ n
  · exact ensures_pure ⟨hb.1, by simp⟩

theorem ensures_attrs (h : c.At L E) (n : Nat) :
    Ensures (attrs n) c fun as c' => c'.At L E ∧ ∀ a ∈ as, a.Rule := by
  induction n generalizing c with
  | zero => exact ensures_pure ⟨h, by simp⟩
  | succ n ih =>
    unfold attrs
    refine (ensures_peek h).bind fun t c₁ ht => ?_
    split
    · have hname := (ht.2.1 _ rfl).1
      refine (ensures_advance ht.1 (ht.2.1 _ rfl).2).bind fun _ c₂ hc₂ => ?_
      refine (ensures_attrArgs hc₂).bind fun args c₃ hargs => ?_
      refine (ih hargs.1).bind fun as c₄ has => ?_
      exact ensures_pure ⟨has.1, by simpa using ⟨⟨hname, hargs.2⟩, has.2⟩⟩
    · exact ensures_pure ⟨ht.1, by simp⟩

theorem ensures_param (h : c.At L E) : Ensures param c fun v c' => ∃ name t,
    v = ⟨E.vars.size⟩ ∧ E.Free name ∧ c'.At L (E.declare ⟨name, t, false⟩) := by
  unfold param
  refine (ensures_word h _).bind fun s c₁ hs => ?_
  refine (ensures_expect hs.1 _ _).bind fun _ c₂ hc₂ => ?_
  refine (ensures_ty hc₂).bind fun t c₃ hc₃ => ?_
  have hget : Ensures (get : Read Cursor) c₃ fun _ c' => c'.At L E := by
    intro a c' ha
    cases ha
    exact hc₃
  refine hget.bind fun d c₄ hc₄ => ?_
  exact (ensures_declare hc₄ hs.2 t false d.line).mono fun v c₅ hv => ⟨s, t, hv⟩

theorem ensures_separated_param (h : c.At L E) (close : Token) (what : String) (n : Nat) :
    Ensures (separated param close what n) c fun vs c' => ∃ E', c'.At L E' ∧ ParamsRule E vs E' := by
  induction n generalizing c E with
  | zero => exact ensures_unexpected what
  | succ n ih =>
    unfold separated
    refine (ensures_param h).bind fun v c₁ hv => ?_
    obtain ⟨name, t, rfl, hfree, hc₁⟩ := hv
    refine (ensures_accept hc₁ close).bind fun b c₂ hb => ?_
    split
    · exact ensures_pure ⟨_, hb.1, .cons hfree .nil⟩
    · refine (ensures_expect hb.1 _ _).bind fun _ c₃ hc₃ => ?_
      refine (ih hc₃).bind fun vs c₄ hvs => ?_
      obtain ⟨E', hc₄, hrule⟩ := hvs
      exact ensures_pure ⟨E', hc₄, .cons hfree hrule⟩

theorem ensures_params (h : c.At L E) :
    Ensures params c fun vs c' => ∃ E', c'.At L E' ∧ ParamsRule E vs E' := by
  unfold params
  refine (ensures_expect h _ _).bind fun _ c₁ hc₁ => ?_
  refine (ensures_accept hc₁ _).bind fun b c₂ hb => ?_
  split
  · exact ensures_pure ⟨E, hb.1, .nil⟩
  · exact (ensures_fuel hb.1).bind fun n c₃ hn => ensures_separated_param hn.1 _ _ n

theorem ensures_returns (h : c.At L E) : Ensures returns c fun _ c' => c'.At L E := by
  have hty (c : Cursor) (hc : c.At L E) : Ensures ty c fun _ c' => c'.At L E ∧ True :=
    (ensures_ty hc).mono fun _ _ h => ⟨h, trivial⟩
  unfold returns
  refine (ensures_accept h _).bind fun b c₁ hb => ?_
  split
  · refine (ensures_fuel hb.1).bind fun n c₂ hn => ?_
    exact (ensures_commaSeparated hty hn.1 n).mono fun _ _ h => h.1
  · exact ensures_pure hb.1

theorem ensures_func (h : c.At L E) : Ensures func c fun f c' => f.Rule ∧ ∃ E', c'.At L E' := by
  unfold func
  refine (ensures_fuel h).bind fun n c₁ hn => ?_
  refine (ensures_attrs hn.1 n).bind fun as c₂ has => ?_
  refine (ensures_expect has.1 _ _).bind fun _ c₃ hc₃ => ?_
  refine (ensures_name hc₃ _).bind fun name c₄ hname => ?_
  have hreset : Ensures (modify fun c => { c with vars := #[], scopes := [[]] } : Read Unit) c₄
      fun _ c' => c'.At L ⟨#[], [[]]⟩ := by
    intro a c' ha
    cases ha
    refine ⟨rfl, hname.1.lexed, fun scope hscope p hp => ?_, hname.1.seen⟩
    cases List.mem_singleton.mp hscope
    cases hp
  refine hreset.bind fun _ c₅ hc₅ => ?_
  refine (ensures_params hc₅).bind fun params c₆ hparams => ?_
  obtain ⟨E₁, hc₆, hparams⟩ := hparams
  refine (ensures_returns hc₆).bind fun returns c₇ hc₇ => ?_
  refine (ensures_fuel hc₇).bind fun m c₈ hm => ?_
  refine (ensures_block (stmts_ruled m) hm.1).bind fun body c₉ hbody => ?_
  obtain ⟨E₂, hbody, hc₉⟩ := hbody
  have hget : Ensures (get : Read Cursor) c₉ fun c c' => c.vars = E₂.vars ∧ c'.At L E₂.leave := by
    intro a c' ha
    cases ha
    exact ⟨congrArg Env.vars hc₉.env, hc₉⟩
  refine hget.bind fun c₁₀ _ hlast => ?_
  exact ensures_pure ⟨⟨hname.2, has.2, E₁, E₂, hparams, hbody, hlast.1.symm⟩, _, hlast.2⟩

end

/-! ## One function, and lists of functions -/

theorem run_of_ok {α : Type} {act : Read α} {c : Cursor} {a : α} (h : act c = .ok (a, c')) :
    act.run' c = .ok a := by
  change (fun r : α × Cursor => r.1) <$> act c = .ok a
  rw [h]
  rfl

theorem start_at (text : String) : (start text).At (Token.lex text) ⟨#[], []⟩ := by
  refine ⟨rfl, fun l hl t ht => lexFrom_isLexed hl ht, ?_, [], rfl, ?_⟩
  · intro scope hscope
    cases hscope
  · simp [start]

/-- At the end of the text it is known whether all of it was valid. -/
theorem valid_iff {L : List Lexeme} {E : Env} {c : Cursor} (h : c.At L E)
    (hpeek : peek c = .ok (none, c')) : c'.invalid = false ↔ ∀ l ∈ L, l.token ≠ none := by
  obtain ⟨done, hdone, hvalid⟩ := h.seen
  cases hrest : c.rest with
  | nil =>
    rw [peek_nil hrest] at hpeek
    cases hpeek
    rw [hdone, hrest, List.append_nil]
    exact hvalid
  | cons l rest =>
    obtain ⟨line, token⟩ := l
    cases token with
    | none =>
      rw [peek_invalid hrest] at hpeek
      cases hpeek
      constructor
      · intro h
        cases h
      · intro hall
        exact absurd rfl (hall ⟨line, none⟩ (by simp [hdone, hrest]))
    | some t =>
      rw [peek_token hrest] at hpeek
      cases hpeek

/-- There is no function at the end of the text. -/
theorem rest_of_func {c : Cursor} (h : func c = .ok (f, c')) : c.rest ≠ [] := by
  intro hrest
  unfold func at h
  obtain ⟨n, c₁, hfuel, h⟩ := bind_eq_ok h
  cases hfuel
  obtain ⟨as, c₂, hattrs, h⟩ := bind_eq_ok h
  obtain ⟨_, c₃, hexpect, -⟩ := bind_eq_ok h
  unfold attrs at hattrs
  rw [bind_of_ok (peek_nil hrest)] at hattrs
  cases hattrs
  unfold expect accept at hexpect
  obtain ⟨b, c₄, haccept, hexpect⟩ := bind_eq_ok hexpect
  rw [bind_of_ok (peek_nil hrest)] at haccept
  cases haccept
  cases hexpect

/-- A function is read the same way after a look at its first token. -/
theorem func_peek {c c₁ : Cursor} (h : peek c = .ok (some t, c₁)) : func c₁ = func c := by
  cases hrest : c.rest with
  | nil => rw [peek_nil hrest] at h; cases h
  | cons l rest =>
    obtain ⟨line, token⟩ := l
    cases token with
    | none => rw [peek_invalid hrest] at h; cases h
    | some t' =>
      rw [peek_token hrest] at h
      cases h
      have hagain : peek { c with line } = .ok (some t, { c with line }) := peek_token hrest
      have hattrs (n : Nat) : attrs (n + 1) { c with line } = attrs (n + 1) c := by
        unfold attrs
        rw [bind_of_ok hagain, bind_of_ok (peek_token hrest)]
      have hfuel (c : Cursor) : fuel c = .ok (c.rest.length + 1, c) := rfl
      unfold func
      rw [bind_of_ok (hfuel _), bind_of_ok (hfuel _)]
      change (attrs (c.rest.length + 1) { c with line }).bind _ =
        (attrs (c.rest.length + 1) c).bind _
      rw [hattrs]

theorem funcs_nil_iff {n : Nat} {c : Cursor} :
    funcs (n + 1) c = .ok ([], c') ↔ peek c = .ok (none, c') := by
  unfold funcs
  constructor
  · intro h
    obtain ⟨t, c₁, hpeek, h⟩ := bind_eq_ok h
    cases t with
    | none =>
      cases h
      exact hpeek
    | some t =>
      obtain ⟨f, c₂, -, h⟩ := bind_eq_ok h
      obtain ⟨fs, c₃, -, h⟩ := bind_eq_ok h
      cases h
  · intro h
    rw [bind_of_ok h]
    rfl

/-- What it takes to read one function. -/
theorem single_eq_ok {c : Cursor} : single c = .ok (f, c') ↔
    ∃ c₁, func c = .ok (f, c₁) ∧ peek c₁ = .ok (none, c') := by
  unfold single
  constructor
  · intro h
    obtain ⟨f', c₁, hfunc, h⟩ := bind_eq_ok h
    obtain ⟨t, c₂, hpeek, h⟩ := bind_eq_ok h
    cases t with
    | none =>
      cases h
      exact ⟨c₁, hfunc, hpeek⟩
    | some t =>
      obtain ⟨_, _, hfail, -⟩ := bind_eq_ok h
      cases hfail
  · rintro ⟨c₁, hfunc, hpeek⟩
    rw [bind_of_ok hfunc, bind_of_ok hpeek]
    rfl

/-- What it takes to read a list of one function. -/
theorem all_eq_ok {c : Cursor} : all c = .ok ([f], c') ↔
    ∃ t c₁ c₂, peek c = .ok (some t, c₁) ∧ func c = .ok (f, c₂) ∧ peek c₂ = .ok (none, c') ∧
      c'.invalid = false := by
  have hfuel : fuel c = .ok (c.rest.length + 1, c) := rfl
  -- there is fuel for a look behind the function, as there was a token to start with
  have hmore {t : Token} {c₁ : Cursor} (h : peek c = .ok (some t, c₁)) :
      ∃ m, c.rest.length = m + 1 := by
    cases hrest : c.rest with
    | nil => rw [peek_nil hrest] at h; cases h
    | cons l rest => exact ⟨rest.length, rfl⟩
  unfold all
  rw [bind_of_ok hfuel]
  constructor
  · intro h
    obtain ⟨fs, c₃, hfuncs, h⟩ := bind_eq_ok h
    have hend : fs = [f] ∧ c₃ = c' ∧ c'.invalid = false := by
      obtain ⟨c₄, c₅, hget, h⟩ := bind_eq_ok h
      cases hget
      split at h
      · obtain ⟨_, _, hfail, -⟩ := bind_eq_ok h
        cases hfail
      · rename_i hinvalid
        cases h
        exact ⟨rfl, rfl, by simpa using hinvalid⟩
    obtain ⟨rfl, rfl, hinvalid⟩ := hend
    unfold funcs at hfuncs
    obtain ⟨t, c₁, hpeek, hfuncs⟩ := bind_eq_ok hfuncs
    cases t with
    | none => cases hfuncs
    | some t =>
      obtain ⟨f', c₂, hfunc, hfuncs⟩ := bind_eq_ok hfuncs
      obtain ⟨fs, c₄, hrest, hfuncs⟩ := bind_eq_ok hfuncs
      cases hfuncs
      rw [func_peek hpeek] at hfunc
      obtain ⟨m, hm⟩ := hmore hpeek
      rw [hm, funcs_nil_iff] at hrest
      exact ⟨t, c₁, c₂, hpeek, hfunc, hrest, hinvalid⟩
  · rintro ⟨t, c₁, c₂, hpeek, hfunc, hend, hinvalid⟩
    obtain ⟨m, hm⟩ := hmore hpeek
    have hfuncs : funcs (c.rest.length + 1) c = .ok ([f], c') := by
      unfold funcs
      rw [bind_of_ok hpeek]
      rw [← func_peek hpeek] at hfunc
      change (func >>= fun f => funcs c.rest.length >>= fun fs => pure (f :: fs)) c₁ = _
      rw [bind_of_ok hfunc, hm, bind_of_ok (funcs_nil_iff.mpr hend)]
      rfl
    have hget : (get : Read Cursor) c' = .ok (c', c') := rfl
    rw [bind_of_ok hfuncs, bind_of_ok hget, hinvalid]
    rfl

end Reader

/-- **Functions that were read obey the rules.** -/
theorem Func.rule_of_read {text : String} (h : Func.read text = .ok f) : f.Rule := by
  obtain ⟨c, hc⟩ := Reader.run_eq_ok h
  obtain ⟨c₁, hfunc, -⟩ := Reader.single_eq_ok.mp hc
  exact (Reader.ensures_func (Reader.start_at text) f c₁ hfunc).1

/-- **A text is a list of one function if it is that function and has no invalid
characters.** A single function is also read from a text with some: behind it, an invalid
character passes for the end of the text. -/
theorem Func.readAll_singleton_iff {text : String} {f : Func} : Func.readAll text = .ok [f] ↔
    Func.read text = .ok f ∧ ∀ l ∈ Token.lex text, l.token ≠ none := by
  constructor
  · intro h
    obtain ⟨c, hc⟩ := Reader.run_eq_ok h
    obtain ⟨t, c₁, c₂, -, hfunc, hend, hinvalid⟩ := Reader.all_eq_ok.mp hc
    obtain ⟨-, E, hc₂⟩ := Reader.ensures_func (Reader.start_at text) f c₂ hfunc
    exact ⟨Reader.run_of_ok (Reader.single_eq_ok.mpr ⟨c₂, hfunc, hend⟩),
      (Reader.valid_iff hc₂ hend).mp hinvalid⟩
  · rintro ⟨h, hvalid⟩
    obtain ⟨c, hc⟩ := Reader.run_eq_ok h
    obtain ⟨c₂, hfunc, hend⟩ := Reader.single_eq_ok.mp hc
    obtain ⟨-, E, hc₂⟩ := Reader.ensures_func (Reader.start_at text) f c₂ hfunc
    have hinvalid := (Reader.valid_iff hc₂ hend).mpr hvalid
    obtain ⟨t, c₁, hpeek⟩ : ∃ t c₁, Reader.peek (Reader.start text) = .ok (some t, c₁) := by
      cases hrest : (Reader.start text).rest with
      | nil => exact absurd hrest (Reader.rest_of_func hfunc)
      | cons l rest =>
        obtain ⟨line, token⟩ := l
        cases token with
        | none => exact absurd rfl (hvalid ⟨line, none⟩ (by
            change _ ∈ (Reader.start text).rest
            simp [hrest]))
        | some t => exact ⟨t, _, Reader.peek_token hrest⟩
    exact Reader.run_of_ok (Reader.all_eq_ok.mpr ⟨t, c₁, c₂, hpeek, hfunc, hend, hinvalid⟩)

example : (Func.read "function %f() { } $").isOk = true ∧
    (Func.readAll "function %f() { } $").isOk = false := by decide +kernel

end Backsweep
