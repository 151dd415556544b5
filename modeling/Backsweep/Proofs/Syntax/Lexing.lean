import Mathlib
import Backsweep.Proofs.Syntax.Grammar

/-!
# Scanning

Texts are scanned piece by piece, as long as a piece does not go on in the next one.

* `Token.tokens`: the tokens of a text, without their lines;
* `Closes`: the pieces that end by themselves;
* `Lexes`: the pieces that end where a blank or a bracket follows;
* `lex_isLexed`: what scanned tokens can be.
-/

namespace Backsweep

variable {c : Char} {cs rest : List Char} {n : Nat}

namespace Token

/-! ## Tokens of a text -/

theorem numberChars_length (afterMark : Bool) (cs : List Char) :
    (numberChars afterMark cs).2.length ≤ cs.length := by
  induction cs generalizing afterMark with
  | nil => exact Nat.le_refl 0
  | cons c cs ih =>
    unfold numberChars
    split
    · exact Nat.le_succ_of_le (ih _)
    · exact Nat.le_refl _

theorem numberChars_digit (hc : c.isDigit = true) (afterMark : Bool) (cs : List Char) :
    (numberChars afterMark (c :: cs)).2.length ≤ cs.length := by
  rw [numberChars, hc]
  exact numberChars_length _ cs

theorem scanNumber_eq (signs cs : List Char) : scanNumber signs cs =
    (some (ofNumber signs (numberChars false cs).1), (numberChars false cs).2) := rfl

theorem scanSigned_length (c : Char) (cs : List Char) : (scanSigned c cs).2.length ≤ cs.length := by
  unfold scanSigned
  split
  · simp
    omega
  · simp
    omega
  · split
    · rw [scanNumber_eq]
      exact numberChars_length false _
    · exact Nat.le_refl _
  · exact Nat.le_refl _

theorem scan_length (c : Char) (cs : List Char) : (scan c cs).2.length ≤ cs.length := by
  have hdrop (p : Char → Bool) : (cs.dropWhile p).length ≤ cs.length := List.length_dropWhile_le p cs
  unfold scan
  split
  all_goals try exact Nat.le_refl _
  · exact scanSigned_length _ _
  · split
    · simp
    · exact scanSigned_length _ _
  · exact hdrop _
  · exact hdrop _
  · split
    · rename_i hdigit
      rw [scanNumber_eq]
      exact numberChars_digit hdigit _ _
    · split
      · exact hdrop _
      · exact Nat.le_refl _

/-- The tokens do not depend on the fuel and the line. -/
theorem lexFrom_tokens {fuel fuel' : Nat} (line line' : Nat) (h : cs.length ≤ fuel)
    (h' : cs.length ≤ fuel') :
    (lexFrom fuel line cs).map Lexeme.token = (lexFrom fuel' line' cs).map Lexeme.token := by
  induction fuel generalizing fuel' line line' cs with
  | zero =>
    cases cs with
    | nil => cases fuel' <;> rfl
    | cons c cs => cases h
  | succ fuel ih =>
    cases cs with
    | nil => cases fuel' <;> rfl
    | cons c cs =>
      cases fuel' with
      | zero => cases h'
      | succ fuel' =>
        -- every branch of the scanner goes on with a shorter text
        have hcs := Nat.le_of_succ_le_succ h
        have hcs' := Nat.le_of_succ_le_succ h'
        have hdrop := List.length_dropWhile_le (· != '\n') cs
        have hscan := scan_length c cs
        simp only [lexFrom]
        split
        · exact ih _ _ hcs hcs'
        · split
          · exact ih _ _ hcs hcs'
          · split
            · exact ih _ _ (hdrop.trans hcs) (hdrop.trans hcs')
            · simp only [List.map_cons]
              rw [ih line line' (hscan.trans hcs) (hscan.trans hcs')]

/-- The tokens of a text, none for an invalid character. -/
def tokens (cs : List Char) : List (Option Token) := (lexFrom cs.length 1 cs).map Lexeme.token

@[simp] theorem tokens_nil : tokens [] = [] := rfl

theorem tokens_skip (hc : c = '\n' ∨ isBlank c = true) (cs : List Char) :
    tokens (c :: cs) = tokens cs := by
  unfold tokens
  rw [List.length_cons, lexFrom]
  split
  · exact lexFrom_tokens _ _ (Nat.le_refl _) (Nat.le_refl _)
  · rename_i hline
    have hblank : isBlank c = true := hc.resolve_left (by simpa using hline)
    rw [if_pos hblank]

theorem tokens_comment (cs : List Char) :
    tokens (';' :: cs) = tokens (cs.dropWhile (· != '\n')) := by
  unfold tokens
  rw [List.length_cons, lexFrom]
  exact lexFrom_tokens _ _ (List.length_dropWhile_le _ cs) (Nat.le_refl _)

theorem tokens_scan (hblank : isBlank c = false) (hcomment : c ≠ ';') (cs : List Char) :
    tokens (c :: cs) = (scan c cs).1 :: tokens (scan c cs).2 := by
  have hline : (c == '\n') = false := by
    by_contra h
    have hc : c = '\n' := by simpa using h
    rw [hc] at hblank
    cases hblank
  unfold tokens
  rw [List.length_cons, lexFrom]
  simp only [hline, hblank, beq_iff_eq, hcomment, if_false, Bool.false_eq_true, List.map_cons]
  rw [lexFrom_tokens 1 1 (scan_length c cs) (Nat.le_refl _)]

end Token

open Token

/-! ## Pieces of text -/

/-- A character that ends every piece. -/
def isStop (c : Char) : Bool := !isNameChar c && c != '+' && c != '-'

/-- Nothing in front of the text goes on in it. -/
def stops : List Char → Bool
  | [] => true
  | c :: _ => isStop c

/-- The text is made of these tokens, whatever follows it. -/
def Closes (s : String) (ts : List Token) : Prop :=
  ∀ rest, tokens (s.toList ++ rest) = ts.map some ++ tokens rest

/-- The text is made of these tokens if it stops behind them. -/
def Lexes (s : String) (ts : List Token) : Prop :=
  ∀ rest, stops rest = true → tokens (s.toList ++ rest) = ts.map some ++ tokens rest

section
variable {s t : String} {ts us : List Token}

theorem Closes.lexes (h : Closes s ts) : Lexes s ts := fun rest _ => h rest

theorem closes_empty : Closes "" [] := fun _ => rfl

theorem Closes.append (hs : Closes s ts) (ht : Closes t us) : Closes (s ++ t) (ts ++ us) := by
  intro rest
  rw [String.toList_append, List.append_assoc, hs, ht, List.map_append, List.append_assoc]

theorem Closes.lexes_append (hs : Closes s ts) (ht : Lexes t us) : Lexes (s ++ t) (ts ++ us) := by
  intro rest hrest
  rw [String.toList_append, List.append_assoc, hs, ht rest hrest, List.map_append, List.append_assoc]

theorem stops_append (hcs : stops cs = true) (hrest : stops rest = true) :
    stops (cs ++ rest) = true := by
  cases cs with
  | nil => exact hrest
  | cons c cs => exact hcs

theorem Lexes.append (hs : Lexes s ts) (ht : Lexes t us) (hstop : stops t.toList = true) :
    Lexes (s ++ t) (ts ++ us) := by
  intro rest hrest
  rw [String.toList_append, List.append_assoc, hs _ (stops_append hstop hrest), ht rest hrest,
    List.map_append, List.append_assoc]

theorem Lexes.close (hs : Lexes s ts) (ht : Closes t us) (hne : t.toList ≠ [])
    (hstop : stops t.toList = true) : Closes (s ++ t) (ts ++ us) := by
  intro rest
  have hrest : stops (t.toList ++ rest) = true := by
    cases hcs : t.toList with
    | nil => exact absurd hcs hne
    | cons c cs =>
      rw [hcs] at hstop
      exact hstop
  rw [String.toList_append, List.append_assoc, hs _ hrest, ht, List.map_append, List.append_assoc]

end

/-! ## Blanks, brackets and notes -/

theorem closes_blank : Closes " " [] := fun rest => tokens_skip (.inr rfl) rest

theorem closes_newline : Closes "\n" [] := fun rest => tokens_skip (.inl rfl) rest

theorem closes_pad (n : Nat) : Closes (pad n) [] := by
  intro rest
  have h : tokens (List.replicate n ' ' ++ rest) = tokens rest := by
    induction n with
    | zero => rfl
    | succ n ih =>
      rw [List.replicate_succ, List.cons_append, tokens_skip (.inr rfl)]
      exact ih
  simpa [pad] using h

theorem closes_lpar : Closes "(" [.lpar] := fun rest => tokens_scan rfl (by decide) rest
theorem closes_rpar : Closes ")" [.rpar] := fun rest => tokens_scan rfl (by decide) rest
theorem closes_lbrace : Closes "\x7b" [.lbrace] := fun rest => tokens_scan rfl (by decide) rest
theorem closes_rbrace : Closes "\x7d" [.rbrace] := fun rest => tokens_scan rfl (by decide) rest
theorem closes_lbracket : Closes "[" [.lbracket] := fun rest => tokens_scan rfl (by decide) rest
theorem closes_rbracket : Closes "]" [.rbracket] := fun rest => tokens_scan rfl (by decide) rest
theorem closes_comma : Closes "," [.comma] := fun rest => tokens_scan rfl (by decide) rest
theorem closes_dot : Closes "." [.dot] := fun rest => tokens_scan rfl (by decide) rest
theorem closes_colon : Closes ":" [.colon] := fun rest => tokens_scan rfl (by decide) rest
theorem closes_equal : Closes "=" [.equal] := fun rest => tokens_scan rfl (by decide) rest
theorem closes_arrow : Closes "->" [.arrow] := fun rest => tokens_scan rfl (by decide) ('>' :: rest)

/-- What can be written behind a statement. -/
def IsNote (s : String) : Prop :=
  s = "" ∨ ∃ cs, s.toList = ' ' :: ';' :: cs ∧ '\n' ∉ cs

theorem IsNote.closes {s : String} (h : IsNote s) : Closes (s ++ "\n") [] := by
  rcases h with rfl | ⟨cs, hs, hline⟩
  · exact closes_newline
  · intro rest
    have hdrop : (cs ++ '\n' :: rest).dropWhile (· != '\n') = '\n' :: rest := by
      rw [List.dropWhile_append_of_pos]
      · rfl
      · intro c hc
        simpa using fun h : c = '\n' => hline (h ▸ hc)
    rw [String.toList_append, hs, List.append_assoc]
    change tokens (' ' :: ';' :: (cs ++ '\n' :: rest)) = _
    rw [tokens_skip (.inr rfl), tokens_comment, hdrop, tokens_skip (.inl rfl)]
    rfl

theorem IsNote.stops {s : String} (h : IsNote s) : Backsweep.stops (s ++ "\n").toList = true := by
  rcases h with rfl | ⟨cs, hs, -⟩
  · rfl
  · rw [String.toList_append, hs]
    rfl

/-! ## Words and names -/

theorem not_isWordChar_of_isStop (h : isStop c = true) : isWordChar c = false := by
  simp only [isStop, isNameChar, Bool.and_eq_true, Bool.not_eq_true', Bool.or_eq_false_iff] at h
  exact h.1.1.1

theorem not_isNameChar_of_isStop (h : isStop c = true) : isNameChar c = false := by
  simp only [isStop, Bool.and_eq_true, Bool.not_eq_true'] at h
  exact h.1.1

theorem takeWhile_append_stop {p : Char → Bool} (hcs : cs.all p = true)
    (hrest : ∀ c ∈ rest.head?, p c = false) :
    (cs ++ rest).takeWhile p = cs ∧ (cs ++ rest).dropWhile p = rest := by
  have hall : ∀ c ∈ cs, p c = true := by simpa using hcs
  rw [List.takeWhile_append_of_pos hall, List.dropWhile_append_of_pos hall]
  cases rest with
  | nil => simp
  | cons c rest =>
    have hc := hrest c rfl
    simp [hc]

theorem isWordStart_toNat (hc : isWordStart c = true) : 65 ≤ c.toNat := by
  simp only [isWordStart, Char.isAlpha, Char.isUpper, Char.isLower, Bool.or_eq_true,
    Bool.and_eq_true, decide_eq_true_eq, beq_iff_eq, ge_iff_le, UInt32.le_iff_toNat_le] at hc
  rcases hc with rfl | ⟨h, -⟩ | ⟨h, -⟩
  · decide
  · exact h
  · exact Nat.le_trans (by decide) h

theorem isDigit_toNat (hc : c.isDigit = true) : 48 ≤ c.toNat ∧ c.toNat ≤ 57 := by
  simp only [Char.isDigit, Bool.and_eq_true, decide_eq_true_eq, ge_iff_le,
    UInt32.le_iff_toNat_le] at hc
  exact hc

theorem isBlank_toNat (hc : isBlank c = true) : c.toNat ≤ 32 := by
  simp only [isBlank, Bool.or_eq_true, Bool.and_eq_true, decide_eq_true_eq, beq_iff_eq] at hc
  rcases hc with rfl | ⟨-, h⟩
  · decide
  · exact Nat.le_trans h (by decide)

/-- Characters that start a word have no other meaning. -/
theorem scan_word (hc : isWordStart c = true) (cs : List Char) :
    tokens (c :: cs) =
      some (ofWord (c :: cs.takeWhile isWordChar)) :: tokens (cs.dropWhile isWordChar) := by
  have hle := isWordStart_toNat hc
  have hblank : isBlank c = false := by
    by_contra h
    have := isBlank_toNat (by simpa using h)
    omega
  have hdigit : c.isDigit = false := by
    by_contra h
    have := isDigit_toNat (by simpa using h)
    omega
  have hcomment : c ≠ ';' := by
    rintro rfl
    cases hc
  have hscan : scan c cs =
      (some (ofWord (c :: cs.takeWhile isWordChar)), cs.dropWhile isWordChar) := by
    unfold scan
    split
    all_goals try cases hc
    rw [hdigit, if_neg Bool.false_ne_true, if_pos hc]
  rw [tokens_scan hblank hcomment, hscan]

theorem tokens_wordChars (hc : isWordStart c = true) (hcs : cs.all isWordChar = true)
    (hrest : ∀ c ∈ rest.head?, isWordChar c = false) :
    tokens (c :: cs ++ rest) = some (ofWord (c :: cs)) :: tokens rest := by
  obtain ⟨htake, hdrop⟩ := takeWhile_append_stop hcs hrest
  rw [List.cons_append, scan_word hc, htake, hdrop]

theorem tokens_word {s : String} (hs : isWord s = true)
    (hrest : ∀ c ∈ rest.head?, isWordChar c = false) :
    tokens (s.toList ++ rest) = some (.word s) :: tokens rest := by
  unfold isWord at hs
  split at hs
  · cases hs
  · rename_i c cs hcs
    simp only [Bool.and_eq_true, beq_iff_eq] at hs
    obtain ⟨⟨hc, hall⟩, hword⟩ := hs
    rw [hcs, tokens_wordChars hc hall hrest, hword]

theorem not_isWordChar_of_stops (h : stops rest = true) :
    ∀ c ∈ rest.head?, isWordChar c = false := by
  intro c hc
  cases rest with
  | nil => cases hc
  | cons c' rest =>
    cases hc
    exact not_isWordChar_of_isStop h

theorem lexes_word {s : String} (hs : isWord s = true) : Lexes s [.word s] :=
  fun _ hrest => tokens_word hs (not_isWordChar_of_stops hrest)

/-- A word in front of a point. -/
theorem closes_word_dot {s : String} (hs : isWord s = true) : Closes (s ++ ".") [.word s, .dot] := by
  intro rest
  rw [String.toList_append, List.append_assoc, tokens_word hs (by simp; decide)]
  exact congrArg _ (closes_dot rest)

/-- A word in front of a blank. -/
theorem closes_word {s : String} (hs : isWord s = true) : Closes (s ++ " ") [.word s] :=
  (lexes_word hs).close closes_blank (by simp) rfl

/-- A sigil and a name. -/
theorem lexes_sigil {token : String → Token} {p : Char → Bool} {s : String}
    (hblank : isBlank c = false) (hcomment : c ≠ ';')
    (hscan : ∀ cs, scan c cs = scanSigil token p cs) (hstop : ∀ d, isStop d = true → p d = false)
    (hs : isSigiled p s = true) : Lexes (String.ofList [c] ++ s) [token s] := by
  intro rest hrest
  simp only [isSigiled, Bool.and_eq_true, Bool.not_eq_true'] at hs
  have hhead : ∀ d ∈ rest.head?, p d = false := by
    intro d hd
    cases rest with
    | nil => cases hd
    | cons d' rest =>
      cases hd
      exact hstop d hrest
  obtain ⟨htake, hdrop⟩ := takeWhile_append_stop hs.2 hhead
  rw [String.toList_append, String.toList_ofList, List.append_assoc, List.singleton_append,
    tokens_scan hblank hcomment, hscan, scanSigil]
  simp only [htake, hdrop, hs.1, Bool.false_eq_true, if_false, String.ofList_toList, List.map_cons,
    List.map_nil, List.singleton_append]

theorem lexes_name {s : String} (hs : isSigiled isNameChar s = true) :
    Lexes ("%" ++ s) [.name s] :=
  lexes_sigil rfl (by decide) (fun _ => rfl) (fun _ => not_isNameChar_of_isStop) hs

theorem lexes_attr {s : String} (hs : isSigiled isWordChar s = true) :
    Lexes ("@" ++ s) [.attr s] :=
  lexes_sigil rfl (by decide) (fun _ => rfl) (fun _ => not_isWordChar_of_isStop) hs

/-! ## Numbers -/

/-- The characters make up one number. -/
def isNumber (cs : List Char) : Bool := cs.head?.any Char.isDigit && numberChars false cs == (cs, [])

theorem numberChars_stop (hc : isStop c = true) (afterMark : Bool) (cs : List Char) :
    numberChars afterMark (c :: cs) = ([], c :: cs) := by
  simp only [isStop, isNameChar, isWordChar, Char.isAlphanum, Bool.and_eq_true, Bool.not_eq_true',
    Bool.or_eq_false_iff, bne_iff_ne, ne_eq, beq_eq_false_iff_ne] at hc
  obtain ⟨⟨⟨⟨-, halpha, hdigit⟩, hpoint⟩, hplus⟩, hminus⟩ := hc
  have he : c ≠ 'e' := by
    rintro rfl
    cases halpha
  have hE : c ≠ 'E' := by
    rintro rfl
    cases halpha
  rw [numberChars, if_neg]
  simp [hdigit, hpoint, he, hE, hplus, hminus]

theorem numberChars_append {afterMark : Bool} (hcs : numberChars afterMark cs = (cs, []))
    (hrest : stops rest = true) : numberChars afterMark (cs ++ rest) = (cs, rest) := by
  induction cs generalizing afterMark with
  | nil =>
    cases rest with
    | nil => rfl
    | cons c rest => exact numberChars_stop hrest afterMark rest
  | cons c cs ih =>
    rw [numberChars] at hcs
    split at hcs
    · rename_i hc
      simp only [Prod.mk.injEq, List.cons.injEq, true_and] at hcs
      rw [List.cons_append, numberChars, if_pos hc, ih (Prod.ext hcs.1 hcs.2)]
    · cases hcs

theorem isNumber_cons (h : isNumber cs = true) :
    ∃ d ds, cs = d :: ds ∧ d.isDigit = true ∧ numberChars false cs = (cs, []) := by
  simp only [isNumber, Bool.and_eq_true, beq_iff_eq] at h
  cases cs with
  | nil => cases h.1
  | cons d ds => exact ⟨d, ds, rfl, h.1, h.2⟩

/-- A number without a sign. -/
theorem tokens_number (hcs : isNumber cs = true) (hrest : stops rest = true) :
    tokens (cs ++ rest) = some (ofNumber [] cs) :: tokens rest := by
  obtain ⟨d, ds, rfl, hd, htaken⟩ := isNumber_cons hcs
  have hrange := isDigit_toNat hd
  have hblank : isBlank d = false := by
    by_contra h
    have := isBlank_toNat (by simpa using h)
    omega
  have hcomment : d ≠ ';' := by
    rintro rfl
    cases hd
  have hscan : scan d (ds ++ rest) = scanNumber [] (d :: ds ++ rest) := by
    unfold scan
    split
    all_goals try cases hd
    exact if_pos hd
  rw [List.cons_append, tokens_scan hblank hcomment, hscan, scanNumber_eq,
    numberChars_append htaken hrest]

theorem scan_minus (cs : List Char) : scan '-' cs = match cs with
    | '>' :: cs => (some arrow, cs)
    | cs => scanSigned '-' cs := rfl

/-- A number with a sign. -/
theorem tokens_negative (hcs : isNumber cs = true) (hrest : stops rest = true) :
    tokens ('-' :: (cs ++ rest)) = some (ofNumber ['-'] cs) :: tokens rest := by
  obtain ⟨d, ds, rfl, hd, htaken⟩ := isNumber_cons hcs
  -- a digit follows the sign, so it is neither an arrow nor an infinity
  have hscan : scan '-' (d :: ds ++ rest) = scanNumber ['-'] (d :: ds ++ rest) := by
    rw [scan_minus]
    split
    · rename_i heq
      cases heq
      cases hd
    · unfold scanSigned
      split
      · rename_i heq
        obtain ⟨rfl, -⟩ := List.cons.inj heq
        cases hd
      · rename_i heq
        obtain ⟨rfl, -⟩ := List.cons.inj heq
        cases hd
      · rename_i heq
        cases heq
        rw [if_pos hd]
        rfl
      · rename_i heq
        cases heq
  rw [tokens_scan rfl (by decide), hscan, scanNumber_eq, numberChars_append htaken hrest]

theorem numberChars_digits (h : ∀ c ∈ cs, c.isDigit = true) (afterMark : Bool) :
    numberChars afterMark cs = (cs, []) := by
  induction cs generalizing afterMark with
  | nil => rfl
  | cons c cs ih =>
    rw [numberChars, if_pos (by simp [h c List.mem_cons_self]),
      ih (fun d hd => h d (List.mem_cons_of_mem c hd))]

theorem isDigit_toDigits (hc : c ∈ Nat.toDigits 10 n) : c.isDigit = true :=
  Nat.isDigit_of_mem_toDigits (by decide) (Nat.le_refl 10) hc

theorem isNumber_toDigits (n : Nat) : isNumber (Nat.toDigits 10 n) = true := by
  have hall : ∀ c ∈ Nat.toDigits 10 n, c.isDigit = true := fun c hc => isDigit_toDigits hc
  rw [isNumber, numberChars_digits hall]
  cases hcs : Nat.toDigits 10 n with
  | nil => exact absurd hcs Nat.toDigits_ne_nil
  | cons c cs => simp [hall c (by simp [hcs])]

theorem ofNumber_toDigits (signs : List Char) (n : Nat) :
    ofNumber signs (Nat.toDigits 10 n) = .integer (String.ofList (signs ++ Nat.toDigits 10 n)) := by
  have hnone : (Nat.toDigits 10 n).any (fun c => c == '.' || c == 'e' || c == 'E') = false := by
    rw [List.any_eq_false]
    intro c hc h
    have hdigit := isDigit_toDigits hc
    simp only [Bool.or_eq_true, beq_iff_eq] at h
    rcases h with (rfl | rfl) | rfl <;> cases hdigit
  simp only [ofNumber, hnone, Bool.false_eq_true, if_false]

/-- The characters of an integer. -/
theorem toList_int (n : Int) : (toString n).toList =
    if 0 ≤ n then Nat.toDigits 10 n.toNat else '-' :: Nat.toDigits 10 (-n).toNat := by
  rw [Int.toString_eq_repr, Int.repr_eq_if]
  split
  · exact Nat.toList_repr
  · rw [String.toList_append, Nat.toList_repr]
    rfl

theorem lexes_int (n : Int) : Lexes (toString n) [.integer (toString n)] := by
  intro rest hrest
  have hback : toString n = String.ofList (toString n).toList := String.ofList_toList.symm
  rw [toList_int] at hback ⊢
  split
  · rename_i hn
    rw [if_pos hn] at hback
    rw [tokens_number (isNumber_toDigits _) hrest, ofNumber_toDigits, hback]
    rfl
  · rename_i hn
    rw [if_neg hn] at hback
    rw [List.cons_append, tokens_negative (isNumber_toDigits _) hrest, ofNumber_toDigits, hback]
    rfl

/-! ## Tapes -/

theorem natOf_toDigits (n : Nat) : natOf (Nat.toDigits 10 n) = n :=
  (Nat.ofDigitChars_eq_foldl).symm.trans (Nat.ofDigitChars_toDigits (by decide) (Nat.le_refl 10))

/-- A number has no leading zero unless it is zero. -/
theorem head_toDigits (hn : 0 < n) : (Nat.toDigits 10 n).head? ≠ some '0' := by
  induction n using Nat.strong_induction_on with
  | _ n ih =>
    by_cases hlt : n < 10
    · rw [Nat.toDigits_of_lt_base hlt]
      interval_cases n <;> decide
    · have hdiv := ih (n / 10) (by omega) (by omega)
      rw [Nat.toDigits_of_base_le (by decide) (by omega)]
      cases hcs : Nat.toDigits 10 (n / 10) with
      | nil => exact absurd hcs Nat.toDigits_ne_nil
      | cons c cs =>
        rw [hcs] at hdiv
        exact hdiv

theorem tape?_text {kind : List Char} {last : Char} (hlast : last.isDigit = false)
    (hn : n ≤ maxIndex) {k : TapeKind}
    (hk : TapeKind.ofName? (String.ofList (kind ++ [last])) = some k) :
    tape? (kind ++ [last] ++ Nat.toDigits 10 n) = some ⟨k, n⟩ := by
  have hall : (Nat.toDigits 10 n).reverse.all Char.isDigit = true := by
    simpa using fun c hc => isDigit_toDigits hc
  have hstop : ∀ c ∈ (last :: kind.reverse).head?, c.isDigit = false := by
    intro c hc
    cases hc
    exact hlast
  obtain ⟨htake, hdrop⟩ := takeWhile_append_stop hall hstop
  have hreverse : (kind ++ [last] ++ Nat.toDigits 10 n).reverse =
      (Nat.toDigits 10 n).reverse ++ last :: kind.reverse := by simp
  have hzero : ¬(1 < (Nat.toDigits 10 n).length ∧ (Nat.toDigits 10 n).head? = some '0') := by
    rintro ⟨hlen, hhead⟩
    rcases Nat.eq_zero_or_pos n with rfl | hpos
    · rw [Nat.toDigits_zero] at hlen
      exact absurd hlen (by decide)
    · exact head_toDigits hpos hhead
  unfold tape?
  rw [hreverse, htake, hdrop]
  simp only [List.reverse_reverse, List.reverse_cons, natOf_toDigits, hk]
  rw [if_neg]
  · rfl
  · have hne : (Nat.toDigits 10 n).isEmpty = false := by simp
    simp only [hne, Bool.false_or, Bool.or_eq_true, Bool.and_eq_true, decide_eq_true_eq, beq_iff_eq,
      not_or]
    exact ⟨hzero, by omega⟩

theorem ofWord_tape {t : Tape} (h : tape? cs = some t) : ofWord cs = .tape t := by
  have hne (s : String) (hs : tape? s.toList = none) : (String.ofList cs == s) = false := by
    simp only [beq_eq_false_iff_ne]
    rintro rfl
    rw [String.toList_ofList, h] at hs
    cases hs
  unfold ofWord
  simp only [hne "inf" (by decide), hne "NaN" (by decide), Bool.or_self, Bool.false_eq_true,
    if_false, h]

theorem isWordChar_digit (hc : c.isDigit = true) : isWordChar c = true := by
  simp [isWordChar, Char.isAlphanum, hc]

theorem lexes_tape {t : Tape} (ht : t.level ≤ maxIndex) : Lexes t.text [.tape t] := by
  intro rest hrest
  -- the name of a kind is a word that ends in no digit
  obtain ⟨c, kind, last, hname, hc, hkind, hlast⟩ : ∃ c kind last,
      t.kind.name.toList = c :: kind ++ [last] ∧ isWordStart c = true ∧
      (kind ++ [last]).all isWordChar = true ∧ last.isDigit = false := by
    cases t.kind
    · exact ⟨'v', "alue".toList, 's', by decide, by decide, by decide, by decide⟩
    · exact ⟨'d', "ecision".toList, 's', by decide, by decide, by decide, by decide⟩
    · exact ⟨'a', "djoint".toList, 's', by decide, by decide, by decide, by decide⟩
  have htext : t.text.toList = c :: kind ++ [last] ++ Nat.toDigits 10 t.level := by
    rw [Tape.text, String.toList_append, hname, Nat.toString_eq_repr, Nat.toList_repr]
  have hk : TapeKind.ofName? (String.ofList (c :: kind ++ [last])) = some t.kind := by
    rw [← hname, String.ofList_toList]
    cases t.kind <;> decide
  have hall : (kind ++ [last] ++ Nat.toDigits 10 t.level).all isWordChar = true := by
    rw [List.all_append, hkind, Bool.true_and, List.all_eq_true]
    exact fun d hd => isWordChar_digit (isDigit_toDigits hd)
  have hword : ofWord (c :: (kind ++ [last] ++ Nat.toDigits 10 t.level)) = .tape t :=
    ofWord_tape (tape?_text hlast ht hk)
  rw [htext]
  change tokens (c :: (kind ++ [last] ++ Nat.toDigits 10 t.level) ++ rest) = _
  rw [tokens_wordChars hc hall (not_isWordChar_of_stops hrest), hword]
  rfl

/-! ## Reals -/

/-- The characters make up one number that is no integer. -/
def isReal (cs : List Char) : Bool :=
  isNumber cs && cs.any fun c => c == '.' || c == 'e' || c == 'E'

theorem ofNumber_real {signs : List Char} (h : isReal cs = true) :
    ofNumber signs cs = .float (String.ofList (signs ++ cs)) := by
  simp only [isReal, Bool.and_eq_true] at h
  simp only [ofNumber, h.2, if_true]

theorem lexes_real (h : isReal cs = true) :
    Lexes (String.ofList cs) [.float (String.ofList cs)] := by
  intro rest hrest
  have hnumber : isNumber cs = true := (Bool.and_eq_true_iff.mp h).1
  rw [String.toList_ofList, tokens_number hnumber hrest, ofNumber_real h]
  rfl

theorem lexes_negative (h : isReal cs = true) :
    Lexes ("-" ++ String.ofList cs) [.float ("-" ++ String.ofList cs)] := by
  intro rest hrest
  have hnumber : isNumber cs = true := (Bool.and_eq_true_iff.mp h).1
  have htext : String.ofList (['-'] ++ cs) = "-" ++ String.ofList cs := String.ofList_append
  rw [← htext, String.toList_ofList, List.append_assoc, List.singleton_append,
    tokens_negative hnumber hrest, ofNumber_real h]
  rfl

theorem numberChars_cons (hc : c.isDigit = true ∨ c = '.') (h : numberChars false cs = (cs, []))
    (afterMark : Bool) : numberChars afterMark (c :: cs) = (c :: cs, []) := by
  have hmark : (c == 'e' || c == 'E') = false := by
    by_contra hmark
    simp only [Bool.not_eq_false, Bool.or_eq_true, beq_iff_eq] at hmark
    rcases hmark with rfl | rfl <;> rcases hc with hc | hc <;> cases hc
  have htaken : (c.isDigit || c == '.' || c == 'e' || c == 'E' ||
      (afterMark && (c == '-' || c == '+'))) = true := by
    rcases hc with hc | rfl
    · simp [hc]
    · rfl
  rw [numberChars, if_pos htaken, hmark, h]

theorem numberChars_append_digits {ds : List Char} (hds : ∀ d ∈ ds, d.isDigit = true)
    (h : numberChars false cs = (cs, [])) : numberChars false (ds ++ cs) = (ds ++ cs, []) := by
  induction ds with
  | nil => exact h
  | cons d ds ih =>
    exact numberChars_cons (.inl (hds d List.mem_cons_self))
      (ih fun d' hd' => hds d' (List.mem_cons_of_mem d hd')) false

theorem numberChars_exponent (e : Int) :
    numberChars false ('e' :: (toString e).toList) = ('e' :: (toString e).toList, []) := by
  have hdigits (n : Nat) (afterMark : Bool) :=
    numberChars_digits (fun c hc => isDigit_toDigits (n := n) hc) afterMark
  rw [toList_int]
  split
  · rw [numberChars, if_pos (by decide), hdigits]
  · rw [numberChars, if_pos (by decide), show ('e' == 'e' || 'e' == 'E') = true from rfl,
      numberChars, if_pos (by decide), hdigits]

/-- Digits, and something with a point or an exponent behind them. -/
theorem isReal_append {ds : List Char} (hds : ∀ d ∈ ds, d.isDigit = true) (hne : ds ≠ [])
    (htaken : numberChars false cs = (cs, [])) (hc : c ∈ cs) (hmark : c = '.' ∨ c = 'e') :
    isReal (ds ++ cs) = true := by
  have hany : (ds ++ cs).any (fun c => c == '.' || c == 'e' || c == 'E') = true := by
    rw [List.any_eq_true]
    refine ⟨c, List.mem_append_right ds hc, ?_⟩
    rcases hmark with rfl | rfl <;> rfl
  have hnumber : isNumber (ds ++ cs) = true := by
    rw [isNumber, numberChars_append_digits hds htaken]
    cases ds with
    | nil => exact absurd rfl hne
    | cons d ds => simp [hds d List.mem_cons_self]
  rw [isReal, hnumber, hany]
  rfl

theorem isDigit_zeros (hc : c ∈ Decimal.zeros n) : c.isDigit = true := by
  rw [List.eq_of_mem_replicate hc]
  rfl

theorem isReal_positional {d : Decimal} (hd : ∀ c ∈ d.digits, c.isDigit = true) :
    isReal (d.positional .literal) = true := by
  have hpoint {cs : List Char} (hcs : ∀ c ∈ cs, c.isDigit = true) :
      numberChars false ('.' :: cs) = ('.' :: cs, []) :=
    numberChars_cons (.inr rfl) (numberChars_digits hcs false) false
  have hzero : ∀ c ∈ ['0'], c.isDigit = true := List.forall_mem_singleton.mpr rfl
  unfold Decimal.positional
  dsimp only
  split
  · -- zeros in front of the digits
    change isReal (['0'] ++ '.' :: (Decimal.zeros (-d.point).toNat ++ d.digits)) = true
    refine isReal_append hzero (List.cons_ne_nil _ _) (hpoint fun c hc => ?_) List.mem_cons_self
      (.inl rfl)
    rcases List.mem_append.mp hc with hc | hc
    · exact isDigit_zeros hc
    · exact hd c hc
  · split
    · -- zeros behind the digits
      rename_i hpos hle
      have hfront : ∀ c ∈ d.digits ++ Decimal.zeros (d.point - d.digits.length).toNat,
          c.isDigit = true := by
        intro c hc
        rcases List.mem_append.mp hc with hc | hc
        · exact hd c hc
        · exact isDigit_zeros hc
      refine isReal_append hfront (fun hnil => ?_) (hpoint hzero) List.mem_cons_self (.inl rfl)
      have hlength := congrArg List.length hnil
      simp only [List.length_append, Decimal.zeros, List.length_replicate, List.length_nil] at hlength
      omega
    · -- the point is among the digits
      rename_i hpos hlt
      refine isReal_append (fun c hc => hd c (List.mem_of_mem_take hc)) (fun hnil => ?_)
        (hpoint fun c hc => hd c (List.mem_of_mem_drop hc)) List.mem_cons_self (.inl rfl)
      have hlength := congrArg List.length hnil
      simp only [List.length_take, List.length_nil] at hlength
      omega

theorem isReal_scientific {d : Decimal} (hd : ∀ c ∈ d.digits, c.isDigit = true)
    (hne : d.digits ≠ []) : isReal d.scientific = true := by
  have hexponent := numberChars_exponent (d.point - 1)
  unfold Decimal.scientific
  dsimp only
  rw [List.append_assoc]
  have hfirst : d.digits.take 1 ≠ [] := by
    cases hds : d.digits with
    | nil => exact absurd hds hne
    | cons c cs => simp
  refine isReal_append (c := 'e') (fun c hc => hd c (List.mem_of_mem_take hc)) hfirst ?_ (by simp)
    (.inr rfl)
  have htail : ∀ c ∈ d.digits.drop 1, c.isDigit = true := fun c hc => hd c (List.mem_of_mem_drop hc)
  split
  · exact hexponent
  · exact numberChars_cons (.inr rfl) (numberChars_append_digits htail hexponent) false

theorem isDigit_shortest (i : Decimal.Interval) :
    ∀ c ∈ (Decimal.shortest i).digits, c.isDigit = true := by
  intro c hc
  have hmem : c ∈ Nat.toDigits 10 (i.coarsest (Nat.toDigits 10 i.value).length).1 := by
    have := List.mem_reverse.mp hc
    exact List.mem_reverse.mp ((List.dropWhile_sublist _).subset this)
  exact isDigit_toDigits hmem

/-- An exponent alone is no number. -/
theorem unsigned?_exponent (cs : List Char) : Decimal.unsigned? ('e' :: cs) = none := by
  have hlower (s : String) (hs : s.toList.head? ≠ some 'e') : Decimal.lower ('e' :: cs) ≠ s := by
    rintro rfl
    simp [Decimal.lower] at hs
  unfold Decimal.unsigned?
  split
  · rename_i h
    exact absurd h (hlower _ (by decide))
  · rename_i h
    exact absurd h (hlower _ (by decide))
  · rename_i h
    exact absurd h (hlower _ (by decide))
  · rfl

/-- What is written is a number, unless it is an exponent alone. -/
theorem isReal_write {d : Decimal} (hd : ∀ c ∈ d.digits, c.isDigit = true)
    (hne : ∀ cs, d.write .literal ≠ 'e' :: cs) : isReal (d.write .literal) = true := by
  unfold Decimal.write at hne ⊢
  split
  · exact isReal_positional hd
  · rename_i hpositional
    refine isReal_scientific hd fun hnil => hne (toString (d.point - 1)).toList ?_
    rw [if_neg hpositional]
    simp [Decimal.scientific, hnil]

theorem lexes_nan : Lexes "NaN" [.float "NaN"] := fun _ hrest =>
  tokens_wordChars (by decide) (by decide) (not_isWordChar_of_stops hrest)

theorem lexes_inf : Lexes "inf" [.float "inf"] := fun _ hrest =>
  tokens_wordChars (by decide) (by decide) (not_isWordChar_of_stops hrest)

theorem lexes_negative_inf : Lexes "-inf" [.float "-inf"] :=
  fun rest _ => tokens_scan rfl (by decide) ('i' :: 'n' :: 'f' :: rest)

/-- A real that can be read back is written as one token. -/
theorem lexes_literal {x y : Float} (h : Decimal.read? (Real64.literal x) = some y) :
    Lexes (Real64.literal x) [.float (Real64.literal x)] := by
  have hzero : isReal "0.0".toList = true := by decide
  unfold Real64.literal Real64.write at h ⊢
  cases hnan : x.isNaN with
  | true => exact lexes_nan
  | false =>
    simp only [hnan, Bool.false_eq_true, if_false] at h ⊢
    cases hinf : x.isInf with
    | true =>
      cases Real64.isNegative x with
      | true => exact lexes_negative_inf
      | false => exact lexes_inf
    | false =>
      simp only [hinf, Bool.false_eq_true, if_false] at h ⊢
      cases hz : x == 0.0 with
      | true =>
        cases Real64.isNegative x with
        | true => exact lexes_negative hzero
        | false => exact lexes_real hzero
      | false =>
        simp only [hz, Bool.false_eq_true, if_false] at h ⊢
        -- without digits there would only be an exponent, which does not read back
        have hreal : isReal ((Decimal.shortest (Real64.interval x)).write .literal) = true := by
          refine isReal_write (isDigit_shortest _) fun cs hcs => ?_
          rw [hcs] at h
          cases hneg : Real64.isNegative x with
          | true =>
            rw [hneg] at h
            have hnone : Decimal.read? ("-" ++ String.ofList ('e' :: cs)) = none := by
              simp [Decimal.read?, Decimal.sign, unsigned?_exponent]
            cases hnone.symm.trans h
          | false =>
            rw [hneg] at h
            have hnone : Decimal.read? (String.ofList ('e' :: cs)) = none := by
              simp [Decimal.read?, Decimal.sign, unsigned?_exponent]
            cases hnone.symm.trans h
        cases Real64.isNegative x with
        | true => exact lexes_negative hreal
        | false => exact lexes_real hreal

/-! ## What tokens can be -/

theorem level_tape? {t : Tape} (h : tape? cs = some t) : t.level ≤ maxIndex := by
  unfold tape? at h
  dsimp only at h
  split at h
  · cases h
  · rename_i hlevel
    obtain ⟨k, -, rfl⟩ := Option.map_eq_some_iff.mp h
    simp only [Bool.or_eq_true, decide_eq_true_eq, not_or, Nat.not_lt] at hlevel
    exact hlevel.2

theorem ofWord_isLexed (hc : isWordStart c = true) (hcs : cs.all isWordChar = true) :
    (ofWord (c :: cs)).IsLexed := by
  rw [ofWord]
  split
  · trivial
  · rename_i hspecial
    split
    · rename_i ht
      exact level_tape? ht
    · rename_i ht
      have hword : ofWord (c :: cs) = .word (String.ofList (c :: cs)) := by
        rw [ofWord]
        simp only [if_neg hspecial, ht]
      simp [IsLexed, isWord, hc, hcs, hword]

theorem ofNumber_isLexed (signs cs : List Char) : (ofNumber signs cs).IsLexed := by
  unfold ofNumber
  dsimp only
  split <;> trivial

theorem scanSigned_isLexed {t : Token} (h : (scanSigned c cs).1 = some t) : t.IsLexed := by
  unfold scanSigned at h
  split at h
  · cases h
    trivial
  · cases h
    trivial
  · split at h
    · cases h
      exact ofNumber_isLexed _ _
    · cases h
  · cases h

theorem scanSigil_isLexed {token : String → Token} {p : Char → Bool} {t : Token}
    (h : (scanSigil token p cs).1 = some t) : ∃ s, t = token s ∧ isSigiled p s = true := by
  unfold scanSigil at h
  dsimp only at h
  split at h
  · cases h
  · rename_i hne
    cases h
    refine ⟨_, rfl, ?_⟩
    simp only [isSigiled, String.toList_ofList, Bool.and_eq_true, Bool.not_eq_true', hne, true_and]
    exact List.all_takeWhile

theorem scan_isLexed {t : Token} (h : (scan c cs).1 = some t) : t.IsLexed := by
  unfold scan at h
  split at h
  all_goals try (cases h; trivial)
  · exact scanSigned_isLexed h
  · split at h
    · cases h
      trivial
    · exact scanSigned_isLexed h
  · obtain ⟨s, rfl, hs⟩ := scanSigil_isLexed h
    exact hs
  · obtain ⟨s, rfl, hs⟩ := scanSigil_isLexed h
    exact hs
  · split at h
    · cases h
      exact ofNumber_isLexed _ _
    · split at h
      · rename_i hc
        cases h
        exact ofWord_isLexed hc List.all_takeWhile
      · cases h

theorem lexFrom_isLexed {fuel line : Nat} {l : Lexeme} (hl : l ∈ lexFrom fuel line cs) {t : Token}
    (ht : l.token = some t) : t.IsLexed := by
  induction fuel generalizing line cs with
  | zero => cases hl
  | succ fuel ih =>
    cases cs with
    | nil => cases hl
    | cons c cs =>
      simp only [lexFrom] at hl
      split at hl
      · exact ih hl
      · split at hl
        · exact ih hl
        · split at hl
          · exact ih hl
          · rcases List.mem_cons.mp hl with rfl | hl
            · exact scan_isLexed ht
            · exact ih hl

end Backsweep
