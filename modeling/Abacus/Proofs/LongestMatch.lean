import Abacus.Proofs.TokenPattern

/-!
# Tokenizing by longest match

`Lexes cs column r` reads the text `cs`, whose first character stands at byte offset `column`, by
longest match. A blank is skipped. Anywhere else the longest text that a token pattern matches is
cut off, and the token it stands for is put at the byte offset where it starts. Where no pattern
matches at all, reading stops with an error that names the character there and its offset.

`Marked previous raw marked` then says which `-` takes one operand: one that comes first, or
whose token before it in the text is an operator or an opening parenthesis (`OperandDue`).

Main statements: each step of the scan is one of the three moves of `Lexes` (`scanFrom_step`),
so the scan gives exactly what reading by longest match gives (`scanFrom_eq_iff_lexes`); and
tokenizing a text succeeds exactly when the text is read by longest match to its end, gives the
lexemes read, with unary minus marked, at increasing byte offsets, and fails exactly with the
error where reading stops (`tokenize_longest_match`).
-/
namespace Abacus.Syntax

/-- Reading a text by longest match, from the byte offset of its first character. -/
inductive Lexes : List Char → Nat → Except Error (List Lexeme) → Prop
  | done {column : Nat} : Lexes [] column (.ok [])
  | blank {c : Char} {rest : List Char} {column : Nat} {r : Except Error (List Lexeme)} :
      Token.isSpacing c = true → Lexes rest (column + c.utf8Size) r → Lexes (c :: rest) column r
  | token {p rest : List Char} {column : Nat} {t : Token} {r : Except Error (List Lexeme)} :
      IsLongest p (p ++ rest) → Denotes p t →
      Lexes rest (column + (String.ofList p).utf8ByteSize) r →
      Lexes (p ++ rest) column (r.map (⟨t, column⟩ :: ·))
  | stuck {c : Char} {rest : List Char} {column : Nat} :
      Token.isSpacing c = false → (∀ q, q <+: c :: rest → ¬IsToken q) →
      Lexes (c :: rest) column (.error (.unexpectedToken (String.singleton c) column))

/-! ### One step of the scan -/

/-- The scan skips a blank and goes on one byte further. -/
theorem scanFrom_blank {c : Char} {rest : List Char} {column : Nat}
    (spacing : Token.isSpacing c = true) : scanFrom (c :: rest) column = scanFrom rest (column + 1) := by
  rw [scanFrom, if_pos spacing]
  rcases rest with _ | ⟨d, rest⟩
  · simp
  · -- the scan skips the whole run of blanks at once
    by_cases next : Token.isSpacing d = true
    · conv => rhs; rw [scanFrom, if_pos next]
      simp only [List.takeWhile_cons_of_pos next, List.dropWhile_cons_of_pos next, List.length_cons]
      congr 1
      omega
    · simp [List.takeWhile_cons_of_neg next, List.dropWhile_cons_of_neg next]

theorem isDigits_cons_takeWhile {c : Char} (digit : c.isDigit = true) (rest : List Char) :
    IsDigits (c :: rest.takeWhile Char.isDigit) := by
  refine ⟨List.cons_ne_nil _ _, fun d mem => ?_⟩
  rcases List.mem_cons.mp mem with rfl | mem
  · exact digit
  · exact List.mem_takeWhile_imp mem

/-- Each step of the scan skips a blank, takes the longest token at the head of the text, or
stops where no token starts. -/
theorem scanFrom_step (c : Char) (rest : List Char) (column : Nat) :
    (Token.isSpacing c = true ∧ scanFrom (c :: rest) column = scanFrom rest (column + 1)) ∨
      (∃ p rest' t, c :: rest = p ++ rest' ∧ IsLongest p (c :: rest) ∧ Denotes p t ∧
        scanFrom (c :: rest) column = (scanFrom rest' (column + p.length)).map (⟨t, column⟩ :: ·)) ∨
      (Token.isSpacing c = false ∧ (∀ q, q <+: c :: rest → ¬IsToken q) ∧
        scanFrom (c :: rest) column = .error (.unexpectedToken (String.singleton c) column)) := by
  by_cases spacing : Token.isSpacing c = true
  · exact .inl ⟨spacing, scanFrom_blank spacing⟩
  refine .inr ?_
  rw [scanFrom, if_neg spacing]
  split
  · next t symbol =>
    obtain ⟨longest, denotes⟩ := @longest_symbol c t rest symbol
    exact .inl ⟨[c], rest, t, rfl, longest, denotes, rfl⟩
  · next no_symbol =>
    split
    · next digit =>
      obtain ⟨frac, n, e, h⟩ : ∃ frac n e,
          Token.afterDigits (rest.dropWhile Char.isDigit) = (frac, n, e) := ⟨_, _, _, rfl⟩
      obtain ⟨longest, denotes, within⟩ :=
        longest_number (isDigits_cons_takeWhile digit rest) (head_dropWhile_eq_false rest) h
      have whole : c :: rest = c :: rest.takeWhile Char.isDigit ++ rest.dropWhile Char.isDigit := by
        rw [List.cons_append, List.takeWhile_append_dropWhile]
      refine .inl ⟨_, (rest.dropWhile Char.isDigit).drop n, _, ?_, whole ▸ longest, denotes, ?_⟩
      · rw [List.append_assoc, List.take_append_drop, ← whole]
      · simp only [h, List.length_append, List.length_take, Nat.min_eq_left within, Nat.add_assoc]
    · next not_digit =>
      split
      · next point =>
        simp only [Bool.and_eq_true, beq_iff_eq] at point
        obtain ⟨rfl, start⟩ := point
        obtain ⟨n, e, h⟩ : ∃ n e, Token.exponent (rest.dropWhile Char.isDigit) = (n, e) :=
          ⟨_, _, rfl⟩
        obtain ⟨longest, denotes, within⟩ := longest_fraction start h
        refine .inl ⟨_, (rest.dropWhile Char.isDigit).drop n, _, ?_, longest, denotes, ?_⟩
        · conv => lhs; rw [← List.takeWhile_append_dropWhile (p := Char.isDigit) (l := rest)]
          rw [List.cons_append, List.append_assoc, List.take_append_drop]
        · simp only [h, List.length_cons, List.length_append, List.length_take,
            Nat.min_eq_left within]
          congr 2
          omega
      · next not_fraction =>
        split
        · next alpha =>
          obtain ⟨longest, denotes⟩ := @longest_name c rest alpha
          refine .inl ⟨_, rest.dropWhile Token.isNameChar, _, ?_, longest, denotes, rfl⟩
          rw [List.cons_append, List.takeWhile_append_dropWhile]
        · next not_alpha =>
          exact .inr ⟨by simpa using spacing,
            not_isToken_of_stuck no_symbol not_digit not_fraction not_alpha, rfl⟩

/-! ### The scan reads by longest match -/

theorem scanFrom_nil (column : Nat) : scanFrom [] column = .ok [] := by
  rw [scanFrom]

/-- What the scan gives is what reading by longest match gives. -/
theorem lexes_scanFrom : (cs : List Char) → (column : Nat) → Lexes cs column (scanFrom cs column)
  | [], column => scanFrom_nil column ▸ .done
  | c :: rest, column => by
    rcases scanFrom_step c rest column with ⟨spacing, step⟩ |
      ⟨p, rest', t, split, longest, denotes, step⟩ | ⟨spacing, stuck, step⟩
    · rw [step]
      refine .blank spacing ?_
      rw [utf8Size_of_ascii (spacing_facts spacing).2.2.2.2]
      exact lexes_scanFrom rest (column + 1)
    · have shorter : rest'.length < (c :: rest).length := by
        rw [split, List.length_append]
        have := List.length_pos_iff.mpr longest.token.ne_nil
        omega
      rw [step, split]
      refine .token (split ▸ longest) denotes ?_
      rw [utf8ByteSize_of_isToken longest.token]
      exact lexes_scanFrom rest' (column + p.length)
    · rw [step]
      exact .stuck spacing stuck
termination_by cs => cs.length
decreasing_by
  · exact Nat.lt_succ_self _
  · exact shorter

/-- Reading by longest match gives one result, the scan's. -/
theorem Lexes.eq_scanFrom {cs : List Char} {column : Nat} {r : Except Error (List Lexeme)}
    (h : Lexes cs column r) : r = scanFrom cs column := by
  induction h with
  | done => rw [scanFrom_nil]
  | blank spacing _ ih =>
    rw [scanFrom_blank spacing, ih, utf8Size_of_ascii (spacing_facts spacing).2.2.2.2]
  | @token p rest column t r longest denotes _ ih =>
    obtain ⟨c, p', rfl⟩ := List.exists_cons_of_ne_nil longest.token.ne_nil
    rcases scanFrom_step c (p' ++ rest) column with ⟨spacing, -⟩ |
      ⟨q, rest', t', split, longest', denotes', step⟩ | ⟨-, stuck, -⟩
    · -- no token starts with a blank
      exact absurd spacing (by simp [isSpacing_head_of_isToken longest.token c rfl])
    · -- the longest token at the head is unique, and stands for one token
      have same : c :: p' = q := longest.unique longest'
      subst same
      have rest_same : rest = rest' := @List.append_cancel_left _ (c :: p') rest rest' split
      subst rest_same
      rw [List.cons_append, step, ← denotes.unique denotes', ih, utf8ByteSize_of_isToken longest.token]
    · exact absurd longest.token (stuck _ longest.head)
  | @stuck c rest column spacing stuck =>
    rcases scanFrom_step c rest column with ⟨spacing', -⟩ | ⟨q, rest', t', -, longest', -, -⟩ |
      ⟨-, -, step⟩
    · simp [spacing] at spacing'
    · exact absurd longest'.token (stuck q longest'.head)
    · exact step.symm

theorem scanFrom_eq_iff_lexes {cs : List Char} {column : Nat} {r : Except Error (List Lexeme)} :
    scanFrom cs column = r ↔ Lexes cs column r :=
  ⟨fun h => h ▸ lexes_scanFrom cs column, fun h => h.eq_scanFrom.symm⟩

/-- The lexemes read by longest match stand at increasing byte offsets, none before the first
one's. -/
theorem Lexes.columns_increasing {cs : List Char} {column : Nat} {r : Except Error (List Lexeme)}
    (h : Lexes cs column r) :
    ∀ ls, r = .ok ls → (ls.map Lexeme.column).Pairwise (· < ·) ∧ ∀ l ∈ ls, column ≤ l.column := by
  induction h with
  | done =>
    intro ls h
    cases h
    exact ⟨List.Pairwise.nil, fun _ mem => by cases mem⟩
  | blank _ _ ih =>
    intro ls h
    obtain ⟨increasing, after⟩ := ih ls h
    exact ⟨increasing, fun l mem => Nat.le_trans (Nat.le_add_right _ _) (after l mem)⟩
  | @token p rest column t r longest _ _ ih =>
    intro ls h
    cases r with
    | error => cases h
    | ok ls' =>
      simp only [Except.map, Except.ok.injEq] at h
      subst h
      -- a token takes at least one byte, so the lexemes after it stand further on
      have size : 0 < (String.ofList p).utf8ByteSize := by
        rw [utf8ByteSize_of_isToken longest.token]
        exact List.length_pos_iff.mpr longest.token.ne_nil
      obtain ⟨increasing, after⟩ := ih ls' rfl
      refine ⟨List.pairwise_cons.mpr ⟨fun k mem => ?_, increasing⟩, fun l mem => ?_⟩
      · obtain ⟨l, mem_l, rfl⟩ := List.mem_map.mp mem
        have := after l mem_l
        show column < l.column
        omega
      · rcases List.mem_cons.mp mem with rfl | mem
        · exact Nat.le_refl _
        · have := after l mem
          omega
  | stuck =>
    intro ls h
    cases h

/-! ### Unary minus -/

/-- The places where a `-` takes one operand: the start of the text, and after an operator or an
opening parenthesis. -/
inductive OperandDue : Option Token → Prop
  | start : OperandDue none
  | plus : OperandDue (some .plus)
  | minus : OperandDue (some .minus)
  | negate : OperandDue (some .negate)
  | star : OperandDue (some .star)
  | slash : OperandDue (some .slash)
  | caret : OperandDue (some .caret)
  | lparen : OperandDue (some .lparen)

theorem operandDue_iff {previous : Option Token} :
    OperandDue previous ↔ previous.all Token.expectsOperand = true := by
  constructor
  · intro h
    cases h <;> rfl
  · intro h
    rcases previous with _ | t
    · exact .start
    · cases t with
      | number | name | rparen => cases h
      | plus => exact .plus
      | minus => exact .minus
      | negate => exact .negate
      | star => exact .star
      | slash => exact .slash
      | caret => exact .caret
      | lparen => exact .lparen

/-- `Marked previous raw marked`: `marked` is `raw` with each `-` read as taking one operand
exactly when the token before it in the text, `previous` for the first one, leaves an operand
due. -/
inductive Marked : Option Token → List Lexeme → List Lexeme → Prop
  | nil {previous : Option Token} : Marked previous [] []
  | unary {previous : Option Token} {column : Nat} {raw marked : List Lexeme} :
      OperandDue previous → Marked (some .minus) raw marked →
      Marked previous (⟨.minus, column⟩ :: raw) (⟨.negate, column⟩ :: marked)
  | binary {previous : Option Token} {column : Nat} {raw marked : List Lexeme} :
      ¬OperandDue previous → Marked (some .minus) raw marked →
      Marked previous (⟨.minus, column⟩ :: raw) (⟨.minus, column⟩ :: marked)
  | other {previous : Option Token} {l : Lexeme} {raw marked : List Lexeme} :
      l.token ≠ .minus → Marked (some l.token) raw marked → Marked previous (l :: raw) (l :: marked)

/-- Marking looks at the token it wrote last, a `-` or a `~` where the text has a `-`; an operand
is due after both, so it marks as the rule on the text says. -/
theorem marked_markUnary (raw : List Lexeme) :
    ∀ {previous written : Option Token}, (OperandDue previous ↔ OperandDue written) →
      Marked previous raw (markUnary written raw) := by
  induction raw with
  | nil =>
    intro _ _ _
    exact .nil
  | cons l raw ih =>
    intro previous written same
    obtain ⟨token, column⟩ := l
    cases token
    case minus =>
      by_cases due : OperandDue previous
      · have written_due := operandDue_iff.mp (same.mp due)
        simp only [markUnary, written_due, if_true]
        exact .unary due (ih (iff_of_true .minus .negate))
      · have written_due : written.all Token.expectsOperand = false := by
          simpa [operandDue_iff] using mt same.mpr due
        simp only [markUnary, written_due, Bool.false_eq_true, if_false]
        exact .binary due (ih Iff.rfl)
    all_goals exact .other (by simp) (ih Iff.rfl)

theorem Marked.unique {previous : Option Token} {raw marked marked' : List Lexeme}
    (h : Marked previous raw marked) (h' : Marked previous raw marked') : marked = marked' := by
  induction h generalizing marked' with
  | nil =>
    cases h'
    rfl
  | unary due _ ih =>
    cases h' with
    | unary _ rest => rw [ih rest]
    | binary not_due _ => exact absurd due not_due
    | other not_minus _ => exact absurd rfl not_minus
  | binary not_due _ ih =>
    cases h' with
    | unary due _ => exact absurd due not_due
    | binary _ rest => rw [ih rest]
    | other not_minus _ => exact absurd rfl not_minus
  | other not_minus _ ih =>
    cases h' with
    | unary => exact absurd rfl not_minus
    | binary => exact absurd rfl not_minus
    | other _ rest => rw [ih rest]

theorem Marked.columns {previous : Option Token} {raw marked : List Lexeme}
    (h : Marked previous raw marked) : marked.map Lexeme.column = raw.map Lexeme.column := by
  induction h with
  | nil => rfl
  | unary _ _ ih | binary _ _ ih | other _ _ ih => simp [ih]

/-! ### Tokenizing -/

/-- Tokenizing reads a text by longest match. It succeeds exactly when the text reads to its end,
and gives the lexemes read, each `-` marked by the rule on the token before it; the lexemes stand
at increasing byte offsets. It fails exactly with the error where reading stops: at the first
character where no blank and no token starts, named with its byte offset. -/
theorem tokenize_longest_match (s : String) :
    (∀ ls, tokenize s = .ok ls ↔ ∃ raw, Lexes s.toList 0 (.ok raw) ∧ Marked none raw ls) ∧
      (∀ e, tokenize s = .error e ↔ Lexes s.toList 0 (.error e)) ∧
      ∀ ls, tokenize s = .ok ls → (ls.map Lexeme.column).Pairwise (· < ·) := by
  unfold tokenize
  cases scan : scanFrom s.toList 0 with
  | error e' =>
    have lexes := (@scanFrom_eq_iff_lexes s.toList 0 _).mp scan
    refine ⟨fun ls => ⟨fun h => (nomatch h), fun ⟨raw, lexes', _⟩ => (nomatch lexes'.eq_scanFrom.trans scan)⟩,
      fun e => ⟨fun h => ?_, fun h => ?_⟩, fun ls h => (nomatch h)⟩
    · cases h
      exact lexes
    · cases h.eq_scanFrom.trans scan
      rfl
  | ok raw =>
    have lexes := (@scanFrom_eq_iff_lexes s.toList 0 _).mp scan
    have marked := @marked_markUnary raw none none Iff.rfl
    refine ⟨fun ls => ⟨fun h => ?_, fun ⟨raw', lexes', marked'⟩ => ?_⟩,
      fun e => ⟨fun h => (nomatch h), fun h => (nomatch h.eq_scanFrom.trans scan)⟩, fun ls h => ?_⟩
    · cases h
      exact ⟨raw, lexes, marked⟩
    · cases lexes'.eq_scanFrom.trans scan
      rw [marked'.unique marked]
      rfl
    · cases h
      rw [marked.columns]
      exact (lexes.columns_increasing raw rfl).1

/-- A text that is one number is read as that number alone. -/
theorem tokenize_of_denotes_number {cs : List Char} {v : Float} (h : Denotes cs (.number v)) :
    tokenize (String.ofList cs) = .ok [⟨.number v, 0⟩] := by
  have longest : IsLongest cs (cs ++ []) :=
    ⟨by simp, h.isToken, fun q hq _ => by simpa using hq.length_le⟩
  have lexes := Lexes.token longest h (@Lexes.done (0 + _))
  unfold tokenize
  rw [String.toList_ofList, ← List.append_nil cs, scanFrom_eq_iff_lexes.mpr lexes]
  rfl

end Abacus.Syntax
