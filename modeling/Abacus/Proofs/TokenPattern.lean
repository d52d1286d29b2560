import Abacus.Syntax.Token
import Mathlib

/-!
# Token patterns

The patterns of the tokens, as predicates on texts, and the longest token at the head of a text.

* A number has one of four forms (`IsNumber`): digits; digits, a point and digits; a point and
  digits; digits and an exponent. The two forms with a point may end in an exponent, which is
  `e` or `E`, an optional sign and digits (`IsExponent`).
* A name is an ASCII letter followed by ASCII letters, digits and underscores (`IsName`).
* Each of `+ - ~ * / ^ ( )` is a token of one character.

`Denotes p t` says which token the text `p` of a token stands for; a number stands for its text
read as a decimal numeral. `IsLongest p cs` says that `p` is the longest text at the head of `cs`
that a pattern matches.

Main statements: the character at the head of a text decides which pattern can match there
(`isNumber_of_isToken` and its siblings); for each kind of head, the text that the scan of the
lexer takes is the longest token there and stands for the token the scan gives
(`longest_number`, `longest_fraction`, `longest_name`, `longest_symbol`); and where the scan stops
with an error, no pattern matches at all (`not_isToken_of_stuck`). Every token text is ASCII, so
its byte length is its length (`utf8ByteSize_of_isToken`).
-/
namespace Abacus.Syntax

open Text

/-! ### Characters -/

theorem isDigit_iff_toNat {c : Char} : c.isDigit = true ↔ 48 ≤ c.toNat ∧ c.toNat ≤ 57 := by
  have val : c.toNat = c.val.toNat := rfl
  simp only [Char.isDigit, Bool.and_eq_true, decide_eq_true_eq, UInt32.le_iff_toNat_le, val]
  rfl

theorem isAlpha_iff_toNat {c : Char} :
    c.isAlpha = true ↔ (65 ≤ c.toNat ∧ c.toNat ≤ 90) ∨ (97 ≤ c.toNat ∧ c.toNat ≤ 122) := by
  have val : c.toNat = c.val.toNat := rfl
  simp only [Char.isAlpha, Char.isUpper, Char.isLower, Bool.or_eq_true, Bool.and_eq_true,
    decide_eq_true_eq, UInt32.le_iff_toNat_le, val]
  rfl

theorem isAlpha_eq_false_of_isDigit {c : Char} (h : c.isDigit = true) : c.isAlpha = false := by
  have digit := isDigit_iff_toNat.mp h
  cases alpha : c.isAlpha
  · rfl
  · have := isAlpha_iff_toNat.mp alpha
    omega

theorem ne_point_of_isDigit {c : Char} (h : c.isDigit = true) : c ≠ '.' := by
  rintro rfl
  cases h

theorem eq_of_ofSymbol? {c : Char} {t : Token} (h : Token.ofSymbol? c = some t) :
    c = '+' ∨ c = '-' ∨ c = '~' ∨ c = '*' ∨ c = '/' ∨ c = '^' ∨ c = '(' ∨ c = ')' := by
  unfold Token.ofSymbol? at h
  split at h <;> simp_all

/-- An operator symbol is no digit, letter, point or blank, and is ASCII. -/
theorem symbol_facts {c : Char} {t : Token} (h : Token.ofSymbol? c = some t) :
    c.isDigit = false ∧ c.isAlpha = false ∧ c ≠ '.' ∧ Token.isSpacing c = false ∧ c.toNat < 128 := by
  rcases eq_of_ofSymbol? h with rfl | rfl | rfl | rfl | rfl | rfl | rfl | rfl <;> decide

/-- A blank between tokens is no digit, letter, point or operator symbol, and is ASCII. -/
theorem spacing_facts {c : Char} (h : Token.isSpacing c = true) :
    c.isDigit = false ∧ c.isAlpha = false ∧ c ≠ '.' ∧ Token.ofSymbol? c = none ∧ c.toNat < 128 := by
  simp only [Token.isSpacing, Bool.or_eq_true, beq_iff_eq] at h
  rcases h with ((((rfl | rfl) | rfl) | rfl) | rfl) <;> decide

/-- An ASCII character takes one byte. -/
theorem utf8Size_of_ascii {c : Char} (ascii : c.toNat < 128) : c.utf8Size = 1 := by
  rw [Char.utf8Size_eq_one_iff, UInt32.le_iff_toNat_le]
  simp only [UInt32.reduceToNat]
  exact Nat.le_of_lt_succ ascii

/-- A text of ASCII characters takes one byte per character. -/
theorem utf8ByteSize_ofList_of_ascii {cs : List Char} (ascii : ∀ c ∈ cs, c.toNat < 128) :
    (String.ofList cs).utf8ByteSize = cs.length := by
  induction cs with
  | nil => rfl
  | cons c cs ih =>
    rw [String.ofList_cons, String.utf8ByteSize_append, String.utf8ByteSize_singleton,
      utf8Size_of_ascii (ascii c (by simp)), ih fun d mem => ascii d (by simp [mem]),
      List.length_cons, Nat.add_comm]

/-! ### Runs at the head of a text -/

section Runs

variable {p : Char → Bool}

/-- A run of `p`-characters at the head of a text is no longer than the longest one. -/
theorem length_le_takeWhile {q cs : List Char} (h : q <+: cs) (all : ∀ c ∈ q, p c = true) :
    q.length ≤ (cs.takeWhile p).length := by
  induction q generalizing cs with
  | nil => exact Nat.zero_le _
  | cons c q ih =>
    obtain ⟨d, cs, rfl⟩ := List.exists_cons_of_ne_nil (List.ne_nil_of_length_pos
      (Nat.lt_of_lt_of_le (Nat.succ_pos _) h.length_le))
    obtain ⟨rfl, tail⟩ := List.cons_prefix_cons.mp h
    rw [List.takeWhile_cons_of_pos (all c (by simp)), List.length_cons, List.length_cons]
    exact Nat.succ_le_succ (ih tail fun d mem => all d (by simp [mem]))

/-- A run of `p`-characters followed by a character that fails `p`, or by nothing, is the
longest run. -/
theorem takeWhile_append_of_stop {q rest : List Char} (all : ∀ c ∈ q, p c = true)
    (stop : ∀ c ∈ rest.head?, p c = false) :
    (q ++ rest).takeWhile p = q ∧ (q ++ rest).dropWhile p = rest := by
  rw [List.takeWhile_append_of_pos all, List.dropWhile_append_of_pos all]
  cases rest with
  | nil => simp
  | cons c r =>
    have fails := stop c rfl
    simp [List.takeWhile_cons_of_neg, List.dropWhile_cons_of_neg, fails]

/-- A run of `p`-characters that some character failing `p` follows, at the head of a text, is
the longest run there. -/
theorem takeWhile_eq_of_stop {q x cs : List Char} (all : ∀ c ∈ q, p c = true)
    (stop : ∀ c ∈ x.head?, p c = false) (nonempty : x ≠ []) (h : q ++ x <+: cs) :
    cs.takeWhile p = q := by
  obtain ⟨t, rfl⟩ := h
  obtain ⟨c, x, rfl⟩ := List.exists_cons_of_ne_nil nonempty
  rw [List.append_assoc]
  exact (takeWhile_append_of_stop all (by simpa using stop)).1

theorem head_dropWhile_eq_false (cs : List Char) : ∀ c ∈ (cs.dropWhile p).head?, p c = false := by
  intro c mem
  have stop := List.head?_dropWhile_not p cs
  rw [Option.mem_def.mp mem] at stop
  exact stop

end Runs

theorem head?_of_isPrefix {q cs : List Char} {c : Char} (h : q <+: c :: cs) (nonempty : q ≠ []) :
    q.head? = some c := by
  obtain ⟨d, q, rfl⟩ := List.exists_cons_of_ne_nil nonempty
  rw [(List.cons_prefix_cons.mp h).1]
  rfl

/-! ### The patterns -/

/-- A nonempty run of ASCII digits. -/
structure IsDigits (ds : List Char) : Prop where
  ne_nil : ds ≠ []
  digit : ∀ c ∈ ds, c.isDigit = true

/-- An exponent: `e` or `E`, an optional sign and digits. -/
inductive IsExponent : List Char → Prop
  | unsigned {mark : Char} {ds : List Char} :
      mark = 'e' ∨ mark = 'E' → IsDigits ds → IsExponent (mark :: ds)
  | signed {mark sign : Char} {ds : List Char} :
      mark = 'e' ∨ mark = 'E' → sign = '+' ∨ sign = '-' → IsDigits ds →
        IsExponent (mark :: sign :: ds)

/-- The four forms of a number. -/
inductive IsNumber : List Char → Prop
  | integer {ws : List Char} : IsDigits ws → IsNumber ws
  | decimal {ws fs ex : List Char} : IsDigits ws → IsDigits fs → (ex = [] ∨ IsExponent ex) →
      IsNumber (ws ++ '.' :: (fs ++ ex))
  | fraction {fs ex : List Char} : IsDigits fs → (ex = [] ∨ IsExponent ex) →
      IsNumber ('.' :: (fs ++ ex))
  | scientific {ws ex : List Char} : IsDigits ws → IsExponent ex → IsNumber (ws ++ ex)

/-- A name: an ASCII letter, then ASCII letters, digits and underscores. -/
inductive IsName : List Char → Prop
  | mk {c : Char} {r : List Char} : c.isAlpha = true → (∀ d ∈ r, Token.isNameChar d = true) →
      IsName (c :: r)

/-- The texts that a token pattern matches. -/
inductive IsToken : List Char → Prop
  | number {cs : List Char} : IsNumber cs → IsToken cs
  | name {cs : List Char} : IsName cs → IsToken cs
  | symbol {c : Char} {t : Token} : Token.ofSymbol? c = some t → IsToken [c]

/-- The token that the text of a token stands for: a number stands for its text read as a decimal
numeral, a name for its text, and an operator symbol for its operator. -/
inductive Denotes : List Char → Token → Prop
  | number {cs : List Char} {v : Float} : IsNumber cs → Decimal.read? (String.ofList cs) = some v →
      Denotes cs (.number v)
  | name {cs : List Char} : IsName cs → Denotes cs (.name (String.ofList cs))
  | symbol {c : Char} {t : Token} : Token.ofSymbol? c = some t → Denotes [c] t

theorem Denotes.isToken {p : List Char} {t : Token} (h : Denotes p t) : IsToken p := by
  cases h with
  | number number _ => exact .number number
  | name name => exact .name name
  | symbol symbol => exact .symbol symbol

/-- `p` is the longest text at the head of `cs` that a token pattern matches. -/
structure IsLongest (p cs : List Char) : Prop where
  head : p <+: cs
  token : IsToken p
  longest : ∀ q, q <+: cs → IsToken q → q.length ≤ p.length

/-! ### What the head of a token decides -/

theorem IsDigits.head {ds : List Char} (h : IsDigits ds) :
    ∃ c r, ds = c :: r ∧ c.isDigit = true := by
  obtain ⟨c, r, rfl⟩ := List.exists_cons_of_ne_nil h.ne_nil
  exact ⟨c, r, rfl, h.digit c (by simp)⟩

theorem IsDigits.start {ws : List Char} (whole : IsDigits ws) (after : List Char) :
    ∀ c ∈ (ws ++ after).head?, c.isDigit = true ∨ c = '.' := by
  intro c mem
  obtain ⟨w, r, rfl, digit⟩ := whole.head
  simp only [List.cons_append, List.head?_cons, Option.mem_def, Option.some.injEq] at mem
  exact .inl (mem ▸ digit)

theorem isDigit_of_mark {mark : Char} (h : mark = 'e' ∨ mark = 'E') : mark.isDigit = false := by
  rcases h with rfl | rfl <;> rfl

theorem mark_stop {mark : Char} (is_mark : mark = 'e' ∨ mark = 'E') (t : List Char) :
    ∀ c ∈ (mark :: t).head?, c.isDigit = false := by
  intro c mem
  cases Option.mem_some_iff.mp mem
  exact isDigit_of_mark is_mark

theorem IsExponent.head {ex : List Char} (h : IsExponent ex) :
    ∃ mark r, ex = mark :: r ∧ (mark = 'e' ∨ mark = 'E') := by
  cases h with
  | unsigned mark _ => exact ⟨_, _, rfl, mark⟩
  | signed mark _ _ => exact ⟨_, _, rfl, mark⟩

/-- A number starts with a digit or a point. -/
theorem IsNumber.head {q : List Char} (h : IsNumber q) :
    ∃ c r, q = c :: r ∧ (c.isDigit = true ∨ c = '.') := by
  cases h with
  | integer whole | decimal whole _ _ | scientific whole _ =>
    obtain ⟨c, r, rfl, digit⟩ := whole.head
    exact ⟨c, _, rfl, .inl digit⟩
  | fraction => exact ⟨'.', _, rfl, .inr rfl⟩

/-- No number starts with an operator symbol. -/
theorem IsNumber.ofSymbol?_head {c : Char} {r : List Char} (h : IsNumber (c :: r)) :
    Token.ofSymbol? c = none := by
  obtain ⟨d, r', same, start⟩ := h.head
  cases (List.cons.inj same).1
  cases symbol : Token.ofSymbol? c with
  | none => rfl
  | some t =>
    have facts := symbol_facts symbol
    rcases start with digit | point
    · exact absurd digit (by simp [facts.1])
    · exact absurd point facts.2.2.1

theorem IsToken.ne_nil {q : List Char} (h : IsToken q) : q ≠ [] := by
  cases h with
  | number h =>
    obtain ⟨c, r, rfl, -⟩ := h.head
    exact List.cons_ne_nil c r
  | name h =>
    cases h
    exact List.cons_ne_nil _ _
  | symbol => exact List.cons_ne_nil _ _

/-- No token starts with a blank. -/
theorem isSpacing_head_of_isToken {q : List Char} (h : IsToken q) :
    ∀ c ∈ q.head?, Token.isSpacing c = false := by
  intro c mem
  cases spacing : Token.isSpacing c
  · rfl
  · have facts := spacing_facts spacing
    cases h with
    | number h =>
      obtain ⟨d, r, rfl, start⟩ := h.head
      cases Option.mem_some_iff.mp mem
      rcases start with digit | point
      · exact absurd digit (by simp [facts.1])
      · exact absurd point facts.2.2.1
    | name h =>
      cases h with
      | mk alpha _ =>
        cases Option.mem_some_iff.mp mem
        exact absurd alpha (by simp [facts.2.1])
    | symbol symbol =>
      cases Option.mem_some_iff.mp mem
      exact absurd symbol (by simp [facts.2.2.2.1])

/-- A token that starts with a digit or a point is a number. -/
theorem isNumber_of_isToken {q : List Char} (h : IsToken q)
    (start : ∀ c ∈ q.head?, c.isDigit = true ∨ c = '.') : IsNumber q := by
  cases h with
  | number h => exact h
  | name h =>
    cases h with
    | mk alpha _ =>
      rcases start _ rfl with digit | rfl
      · exact absurd alpha (by simp [isAlpha_eq_false_of_isDigit digit])
      · cases alpha
  | symbol symbol =>
    have facts := symbol_facts symbol
    rcases start _ rfl with digit | point
    · exact absurd digit (by simp [facts.1])
    · exact absurd point facts.2.2.1

/-- A token that starts with a letter is a name. -/
theorem isName_of_isToken {q : List Char} (h : IsToken q) (start : ∀ c ∈ q.head?, c.isAlpha = true) :
    IsName q := by
  cases h with
  | number h =>
    obtain ⟨c, r, rfl, digit | rfl⟩ := h.head
    · exact absurd (start c rfl) (by simp [isAlpha_eq_false_of_isDigit digit])
    · exact absurd (start '.' rfl) (by decide)
  | name h => exact h
  | symbol symbol => exact absurd (start _ rfl) (by simp [(symbol_facts symbol).2.1])

/-- A token that starts with an operator symbol is that symbol alone. -/
theorem eq_singleton_of_isToken {q : List Char} {c : Char} {t : Token} (h : IsToken q)
    (start : q.head? = some c) (symbol : Token.ofSymbol? c = some t) : q = [c] := by
  cases h with
  | number h =>
    obtain ⟨d, r, rfl, -⟩ := h.head
    cases Option.some.inj start
    exact absurd symbol (by simp [h.ofSymbol?_head])
  | name h =>
    cases h with
    | mk alpha _ =>
      cases Option.some.inj start
      exact absurd alpha (by simp [(symbol_facts symbol).2.1])
  | symbol => cases Option.some.inj start; rfl

/-! ### Exponents -/

/-- An optional exponent with its value: no exponent counts as `0`. -/
inductive ExponentValue : List Char → Int → Prop
  | none : ExponentValue [] 0
  | some {mark : Char} {r : List Char} {x : Int} : IsExponent (mark :: r) →
      Decimal.exponent? r = some x → ExponentValue (mark :: r) x

theorem ExponentValue.isExponent {ex : List Char} {x : Int} (h : ExponentValue ex x) :
    ex = [] ∨ IsExponent ex := by
  cases h with
  | none => exact .inl rfl
  | some h _ => exact .inr h

theorem ExponentValue.head {ex : List Char} {x : Int} (h : ExponentValue ex x) :
    ∀ c ∈ ex.head?, c = 'e' ∨ c = 'E' := by
  intro c mem
  cases h with
  | none => cases mem
  | some h _ =>
    obtain ⟨mark, r, same, is_mark⟩ := h.head
    cases Option.mem_some_iff.mp mem
    exact (List.cons.inj same).1 ▸ is_mark

theorem digitRun?_of_isDigits {ds : List Char} (h : IsDigits ds) :
    Decimal.digitRun? ds = some (Decimal.digitsValue ds) := by
  simp [Decimal.digitRun?, h.ne_nil, List.all_eq_true.mpr h.digit]

theorem isDigits_takeWhile {t : List Char} (nonempty : ¬(t.takeWhile Char.isDigit).isEmpty = true) :
    IsDigits (t.takeWhile Char.isDigit) :=
  ⟨by simpa using nonempty, fun _ mem => List.mem_takeWhile_imp mem⟩

theorem take_takeWhile (p : Char → Bool) (t : List Char) :
    t.take (t.takeWhile p).length = t.takeWhile p :=
  (List.prefix_iff_eq_take.mp (List.takeWhile_prefix p)).symm

/-- After its mark, an exponent that no sign follows is the run of digits there. -/
theorem exponent_of_unsigned {mark : Char} {r : List Char}
    (is_mark : (mark == 'e' || mark == 'E') = true) (unsigned : ∀ c ∈ r.head?, c ≠ '+' ∧ c ≠ '-') :
    Token.exponent (mark :: r) =
      if (r.takeWhile Char.isDigit).isEmpty then (0, 0)
      else (1 + (r.takeWhile Char.isDigit).length,
        (Decimal.digitsValue (r.takeWhile Char.isDigit) : Int)) := by
  simp only [Token.exponent, is_mark, if_true]
  split
  · exact absurd rfl (unsigned '+' rfl).1
  · exact absurd rfl (unsigned '-' rfl).2
  · simp

/-- After its mark and a sign, an exponent takes the run of digits there, negated after `-`. -/
theorem exponent_of_signed {mark sign : Char} {t : List Char}
    (is_mark : (mark == 'e' || mark == 'E') = true) (signed : sign = '+' ∨ sign = '-') :
    Token.exponent (mark :: sign :: t) =
      if (t.takeWhile Char.isDigit).isEmpty then (0, 0)
      else (1 + 1 + (t.takeWhile Char.isDigit).length,
        if sign = '-' then -(Decimal.digitsValue (t.takeWhile Char.isDigit) : Int)
        else Decimal.digitsValue (t.takeWhile Char.isDigit)) := by
  have plus_ne_minus : ('+' : Char) ≠ '-' := by decide
  rcases signed with rfl | rfl
  · simp only [Token.exponent, is_mark, if_true, Bool.false_eq_true, if_false, plus_ne_minus]
  · simp only [Token.exponent, is_mark, if_true]

/-- The exponent at the head of a text: the text it takes, which lies within the text, with its
value. -/
theorem exponent_spec (t : List Char) :
    ExponentValue (t.take (Token.exponent t).1) (Token.exponent t).2 ∧
      (Token.exponent t).1 ≤ t.length := by
  rcases t with _ | ⟨mark, r⟩
  · exact ⟨.none, Nat.le_refl 0⟩
  by_cases is_mark : (mark == 'e' || mark == 'E') = true
  · have mark' : mark = 'e' ∨ mark = 'E' := by simpa using is_mark
    -- the sign, if any, decides where the digits start and the sign of the value
    by_cases unsigned : ∀ c ∈ r.head?, c ≠ '+' ∧ c ≠ '-'
    · rw [exponent_of_unsigned is_mark unsigned]
      split
      · exact ⟨.none, Nat.zero_le _⟩
      · next nonempty =>
        have digits := isDigits_takeWhile nonempty
        have within := (List.takeWhile_prefix Char.isDigit (l := r)).length_le
        refine ⟨?_, by simp only [List.length_cons]; omega⟩
        rw [show 1 + (r.takeWhile Char.isDigit).length = (r.takeWhile Char.isDigit).length + 1 by omega]
        simp only [List.take_succ_cons, take_takeWhile]
        have value : Decimal.exponent? (r.takeWhile Char.isDigit) =
            some (Decimal.digitsValue (r.takeWhile Char.isDigit) : Int) := by
          unfold Decimal.exponent?
          split
          · next plus => exact absurd (digits.digit '+' (by simp [plus])) (by decide)
          · next minus => exact absurd (digits.digit '-' (by simp [minus])) (by decide)
          · simp [digitRun?_of_isDigits digits]
        exact .some (.unsigned mark' digits) value
    · obtain ⟨sign, t, rfl, signed⟩ : ∃ sign t, r = sign :: t ∧ (sign = '+' ∨ sign = '-') := by
        rcases r with _ | ⟨sign, t⟩
        · simp at unsigned
        · refine ⟨sign, t, rfl, ?_⟩
          by_contra neither
          exact unsigned fun c mem => by
            cases Option.mem_some_iff.mp mem
            exact not_or.mp neither
      rw [exponent_of_signed is_mark signed]
      split
      · exact ⟨.none, Nat.zero_le _⟩
      · next nonempty =>
        have digits := isDigits_takeWhile nonempty
        have within := (List.takeWhile_prefix Char.isDigit (l := t)).length_le
        refine ⟨?_, by simp only [List.length_cons]; omega⟩
        rw [show 1 + 1 + (t.takeWhile Char.isDigit).length =
          (t.takeWhile Char.isDigit).length + 1 + 1 by omega]
        simp only [List.take_succ_cons, take_takeWhile]
        refine .some (.signed mark' signed digits) ?_
        -- the sign is read back by the exponent's reader
        rcases signed with rfl | rfl <;> simp [Decimal.exponent?, digitRun?_of_isDigits digits]
  · simp only [Token.exponent, is_mark]
    exact ⟨.none, Nat.zero_le _⟩

/-- The exponent that the lexer takes is the longest one at the head of the text. -/
theorem exponent_longest {t ex : List Char} (h : ex <+: t) (hx : IsExponent ex) :
    ex.length ≤ (Token.exponent t).1 := by
  obtain ⟨u, rfl⟩ := h
  cases hx with
  | @unsigned m ds mark digits =>
    have is_mark : (m == 'e' || m == 'E') = true := by simpa using mark
    obtain ⟨d, ds, rfl, digit⟩ := digits.head
    -- a digit follows the mark, so no sign does
    have unsigned : ∀ c ∈ (d :: ds ++ u).head?, c ≠ '+' ∧ c ≠ '-' := by
      intro c mem
      cases Option.mem_some_iff.mp mem
      exact ⟨fun plus => absurd (plus ▸ digit) (by decide),
        fun minus => absurd (minus ▸ digit) (by decide)⟩
    have run := length_le_takeWhile (List.prefix_append ds u)
      fun c mem => digits.digit c (List.mem_cons_of_mem d mem)
    rw [List.cons_append, exponent_of_unsigned is_mark unsigned, List.cons_append,
      List.takeWhile_cons_of_pos digit]
    simp only [List.isEmpty_cons, Bool.false_eq_true, if_false, List.length_cons]
    omega
  | @signed m sign ds mark signed digits =>
    have is_mark : (m == 'e' || m == 'E') = true := by simpa using mark
    obtain ⟨d, ds, rfl, digit⟩ := digits.head
    have run := length_le_takeWhile (List.prefix_append ds u)
      fun c mem => digits.digit c (List.mem_cons_of_mem d mem)
    rw [List.cons_append, List.cons_append, exponent_of_signed is_mark signed, List.cons_append,
      List.takeWhile_cons_of_pos digit]
    simp only [List.isEmpty_cons, Bool.false_eq_true, if_false, List.length_cons]
    omega

/-! ### The value of a number -/

theorem point_stop (t : List Char) : ∀ c ∈ ('.' :: t).head?, c.isDigit = false := by
  intro c mem
  cases Option.mem_some_iff.mp mem
  rfl

/-- A number with a point is read as its digits, scaled by the digits after the point and the
exponent. -/
theorem unsigned?_point {ws fs ex : List Char} {x : Int} (whole : ∀ c ∈ ws, c.isDigit = true)
    (frac : IsDigits fs) (exp : ExponentValue ex x) :
    Decimal.unsigned? (ws ++ '.' :: (fs ++ ex)) =
      some (Decimal.scientific (Decimal.digitsValue (ws ++ fs)) (x - fs.length)) := by
  have split_whole := @takeWhile_append_of_stop Char.isDigit ws ('.' :: (fs ++ ex)) whole (point_stop _)
  have split_frac := @takeWhile_append_of_stop Char.isDigit fs ex frac.digit
    fun c mem => isDigit_of_mark (exp.head c mem)
  unfold Decimal.unsigned?
  have nonempty : (ws.isEmpty && fs.isEmpty) = false := by simp [frac.ne_nil]
  simp only [split_whole.1, split_whole.2, split_frac.1, split_frac.2, nonempty]
  cases exp with
  | none => rfl
  | @some mark r x hx value =>
    obtain ⟨_, _, same, is_mark⟩ := hx.head
    cases (List.cons.inj same).1
    rcases is_mark with rfl | rfl <;> simp [value]

/-- A number without a point is read as its digits, scaled by the exponent. -/
theorem unsigned?_plain {ws ex : List Char} {x : Int} (whole : IsDigits ws) (exp : ExponentValue ex x) :
    Decimal.unsigned? (ws ++ ex) = some (Decimal.scientific (Decimal.digitsValue ws) x) := by
  have split_whole := @takeWhile_append_of_stop Char.isDigit ws ex whole.digit
    fun c mem => isDigit_of_mark (exp.head c mem)
  unfold Decimal.unsigned?
  simp only [split_whole.1, split_whole.2]
  cases exp with
  | none => simp [whole.ne_nil]
  | @some mark r x hx value =>
    obtain ⟨_, _, same, is_mark⟩ := hx.head
    cases (List.cons.inj same).1
    rcases is_mark with rfl | rfl <;> simp [whole.ne_nil, value]

/-- A text that starts with a digit or a point is read as a decimal numeral without a sign. -/
theorem read?_of_unsigned? {cs : List Char} {x : Float}
    (start : ∀ c ∈ cs.head?, c.isDigit = true ∨ c = '.') (h : Decimal.unsigned? cs = some x) :
    Decimal.read? (String.ofList cs) = some x := by
  unfold Decimal.read?
  rw [String.toList_ofList]
  split
  next neg rest sign =>
  split at sign
  · exact absurd (start '-' rfl) (by decide)
  · exact absurd (start '+' rfl) (by decide)
  · obtain ⟨rfl, rfl⟩ := Prod.mk.inj sign
    simp [h]

/-- The token of a number with a point: its text read as a decimal numeral. -/
theorem denotes_point {ws fs ex : List Char} {e : Int} (whole : ∀ c ∈ ws, c.isDigit = true)
    (frac : IsDigits fs) (exp : ExponentValue ex e) :
    Denotes (ws ++ '.' :: (fs ++ ex)) (Token.numberOf ws fs e) := by
  have number : IsNumber (ws ++ '.' :: (fs ++ ex)) := by
    rcases ws with _ | ⟨w, ws⟩
    · exact .fraction frac exp.isExponent
    · exact .decimal ⟨List.cons_ne_nil w ws, whole⟩ frac exp.isExponent
  refine .number number (read?_of_unsigned? ?_ (unsigned?_point whole frac exp))
  intro c mem
  rcases ws with _ | ⟨w, ws⟩
  · exact .inr (Option.mem_some_iff.mp mem).symm
  · cases Option.mem_some_iff.mp mem
    exact .inl (whole _ (by simp))

/-- The token of a number without a point: its text read as a decimal numeral. -/
theorem denotes_plain {ws ex : List Char} {e : Int} (whole : IsDigits ws) (exp : ExponentValue ex e) :
    Denotes (ws ++ ex) (Token.numberOf ws [] e) := by
  have number : IsNumber (ws ++ ex) := by
    rcases exp.isExponent with rfl | exponent
    · exact .integer (by simpa using whole)
    · exact .scientific whole exponent
  have read := read?_of_unsigned? (whole.start ex) (unsigned?_plain whole exp)
  simpa [Token.numberOf] using Denotes.number number read

/-! ### Numbers at the head of a text -/

/-- After a point that a digit follows, the lexer takes the digits there and then the longest
exponent: no fraction, with or without an exponent, that the text starts with is longer. -/
theorem fraction_spec {r : List Char} (start : Token.startsWithDigit r = true) :
    IsDigits (r.takeWhile Char.isDigit) ∧
      ∀ fs ex, IsDigits fs → (ex = [] ∨ IsExponent ex) → fs ++ ex <+: r →
        fs.length + ex.length ≤
          (r.takeWhile Char.isDigit).length + (Token.exponent (r.dropWhile Char.isDigit)).1 := by
  refine ⟨isDigits_takeWhile ?_, ?_⟩
  · obtain ⟨d, r, rfl⟩ : ∃ d t, r = d :: t := by
      rcases r with _ | ⟨d, t⟩
      · cases start
      · exact ⟨d, t, rfl⟩
    have digit : d.isDigit = true := by simpa [Token.startsWithDigit] using start
    simp [List.takeWhile_cons_of_pos digit]
  · intro fs ex frac exp h
    rcases exp with rfl | exp
    · have := length_le_takeWhile (by simpa using h) frac.digit
      simp only [List.length_nil, Nat.add_zero]
      omega
    · obtain ⟨mark, t, rfl, is_mark⟩ := exp.head
      -- the exponent's mark ends the digits, so the fraction is the whole run of digits
      have same : r.takeWhile Char.isDigit = fs :=
        takeWhile_eq_of_stop frac.digit (mark_stop is_mark t) (List.cons_ne_nil _ _) h
      have split := List.takeWhile_append_dropWhile (p := Char.isDigit) (l := r)
      rw [same] at split
      rw [← split] at h
      have := exponent_longest ((List.prefix_append_right_inj fs).mp h) exp
      rw [same]
      omega

/-- A number at the head of a text that starts with the digits `ws` and then no digit is these
digits alone, or these digits, a point and a fraction, or these digits and an exponent. -/
theorem number_cases {ws after q : List Char} (whole : IsDigits ws)
    (stop : ∀ c ∈ after.head?, c.isDigit = false) (h : q <+: ws ++ after) (hq : IsNumber q) :
    q.length ≤ ws.length ∨
      (∃ fs ex r, after = '.' :: r ∧ IsDigits fs ∧ (ex = [] ∨ IsExponent ex) ∧ fs ++ ex <+: r ∧
        q.length = ws.length + 1 + (fs.length + ex.length)) ∨
      (∃ ex, IsExponent ex ∧ ex <+: after ∧ q.length = ws.length + ex.length) := by
  have run := (takeWhile_append_of_stop whole.digit stop).1
  cases hq with
  | integer digits =>
    exact .inl (run ▸ length_le_takeWhile h digits.digit)
  | @decimal ws' fs ex digits frac exp =>
    -- the point ends the integer digits
    have same : ws = ws' := run.symm.trans
      (takeWhile_eq_of_stop digits.digit (point_stop _) (List.cons_ne_nil _ _) h)
    subst same
    obtain ⟨u, hu⟩ := h
    simp only [List.append_assoc, List.cons_append, List.append_cancel_left_eq] at hu
    refine .inr (.inl ⟨fs, ex, fs ++ (ex ++ u), hu.symm, frac, exp, ⟨u, List.append_assoc _ _ _⟩, ?_⟩)
    simp only [List.length_append, List.length_cons]
    omega
  | fraction =>
    obtain ⟨d, r, rfl, digit⟩ := whole.head
    rw [List.cons_append] at h
    have point := (List.cons_prefix_cons.mp h).1
    exact absurd point.symm (ne_point_of_isDigit digit)
  | @scientific ws' ex digits exp =>
    obtain ⟨mark, t, rfl, is_mark⟩ := exp.head
    have same : ws = ws' := run.symm.trans
      (takeWhile_eq_of_stop digits.digit (mark_stop is_mark t) (List.cons_ne_nil _ _) h)
    subst same
    exact .inr (.inr ⟨_, exp, (List.prefix_append_right_inj ws).mp h, List.length_append⟩)

/-- A token at the head of a text that starts with a digit or a point is a number. -/
theorem isNumber_of_isPrefix {q cs : List Char} (h : q <+: cs)
    (start : ∀ c ∈ cs.head?, c.isDigit = true ∨ c = '.') (hq : IsToken q) : IsNumber q :=
  isNumber_of_isToken hq fun c mem => by
    obtain ⟨u, rfl⟩ := h
    exact start c (by simp [List.head?_append, Option.mem_def.mp mem])

/-- At digits that a point and a digit follow, the lexer's number is the longest token there. -/
theorem longest_number_point {ws r : List Char} {n : Nat} {e : Int} (whole : IsDigits ws)
    (start : Token.startsWithDigit r = true) (h : Token.exponent (r.dropWhile Char.isDigit) = (n, e)) :
    IsLongest (ws ++ '.' :: (r.takeWhile Char.isDigit ++ (r.dropWhile Char.isDigit).take n))
        (ws ++ '.' :: r) ∧
      Denotes (ws ++ '.' :: (r.takeWhile Char.isDigit ++ (r.dropWhile Char.isDigit).take n))
        (Token.numberOf ws (r.takeWhile Char.isDigit) e) ∧ n ≤ (r.dropWhile Char.isDigit).length := by
  obtain ⟨digits, longest⟩ := fraction_spec start
  obtain ⟨value, within⟩ := exponent_spec (r.dropWhile Char.isDigit)
  rw [h] at value within longest
  have denotes := denotes_point whole.digit digits value
  have whole_run := List.takeWhile_append_dropWhile (p := Char.isDigit) (l := r)
  refine ⟨⟨?_, ?_, ?_⟩, denotes, within⟩
  · refine List.prefix_append_right_inj ws |>.mpr (List.cons_prefix_cons.mpr ⟨rfl, ?_⟩)
    conv => rhs; rw [← whole_run]
    exact (List.prefix_append_right_inj _).mpr (List.take_prefix n _)
  · exact denotes.isToken
  · intro q hq token
    have number := isNumber_of_isPrefix hq (whole.start _) token
    rcases number_cases whole (point_stop r) hq number with short | ⟨fs, ex, r', same, frac, exp, hr, length⟩ |
      ⟨ex, exp, hex, -⟩
    · simp only [List.length_append, List.length_cons]
      omega
    · cases (List.cons.inj same).2
      have := longest fs ex frac exp hr
      simp only [List.length_append, List.length_cons, List.length_take, Nat.min_eq_left within]
      omega
    · -- an exponent cannot start with the point
      obtain ⟨mark, t, rfl, is_mark⟩ := exp.head
      have point := (List.cons_prefix_cons.mp hex).1
      rcases is_mark with rfl | rfl <;> cases point

/-- At digits that neither a digit nor a point and a digit follow, the lexer's number, the digits
and the longest exponent after them, is the longest token there. -/
theorem longest_number_plain {ws after : List Char} {n : Nat} {e : Int} (whole : IsDigits ws)
    (stop : ∀ c ∈ after.head?, c.isDigit = false)
    (no_fraction : ∀ r, after = '.' :: r → Token.startsWithDigit r = false)
    (h : Token.exponent after = (n, e)) :
    IsLongest (ws ++ after.take n) (ws ++ after) ∧ Denotes (ws ++ after.take n) (Token.numberOf ws [] e) ∧
      n ≤ after.length := by
  obtain ⟨value, within⟩ := exponent_spec after
  rw [h] at value within
  have denotes := denotes_plain whole value
  refine ⟨⟨(List.prefix_append_right_inj ws).mpr (List.take_prefix n after), ?_, ?_⟩, denotes, within⟩
  · exact denotes.isToken
  · intro q hq token
    have number := isNumber_of_isPrefix hq (whole.start _) token
    rcases number_cases whole stop hq number with short | ⟨fs, ex, r, rfl, frac, -, hr, -⟩ |
      ⟨ex, exp, hex, length⟩
    · simp only [List.length_append]
      omega
    · -- a point that a digit follows would have been read as a fraction
      obtain ⟨d, ds, rfl, digit⟩ := frac.head
      obtain ⟨u, rfl⟩ := hr
      have := no_fraction _ rfl
      simp [Token.startsWithDigit, digit] at this
    · have := exponent_longest hex exp
      rw [h] at this
      simp only [List.length_append, List.length_take, Nat.min_eq_left within]
      omega

/-- At a digit, the lexer takes the longest token there, a number, and reads it. -/
theorem longest_number {ws after frac : List Char} {n : Nat} {e : Int} (whole : IsDigits ws)
    (stop : ∀ c ∈ after.head?, c.isDigit = false) (h : Token.afterDigits after = (frac, n, e)) :
    IsLongest (ws ++ after.take n) (ws ++ after) ∧
      Denotes (ws ++ after.take n) (Token.numberOf ws frac e) ∧ n ≤ after.length := by
  unfold Token.afterDigits at h
  split at h
  · next r =>
    split at h
    · next start =>
      -- a point and a fraction follow the digits
      generalize exp : Token.exponent (r.dropWhile Char.isDigit) = x at h
      obtain ⟨n', e'⟩ := x
      obtain ⟨rfl, rfl, rfl⟩ : r.takeWhile Char.isDigit = frac ∧
          1 + (r.takeWhile Char.isDigit).length + n' = n ∧ e' = e := by
        simpa using h
      have point := longest_number_point whole start exp
      have slice : ('.' :: r).take (1 + (r.takeWhile Char.isDigit).length + n') =
          '.' :: (r.takeWhile Char.isDigit ++ (r.dropWhile Char.isDigit).take n') := by
        rw [show 1 + (r.takeWhile Char.isDigit).length + n' =
          (r.takeWhile Char.isDigit).length + n' + 1 by omega, List.take_succ_cons]
        congr 1
        calc r.take ((r.takeWhile Char.isDigit).length + n')
            = (r.takeWhile Char.isDigit ++ r.dropWhile Char.isDigit).take
                ((r.takeWhile Char.isDigit).length + n') := by
              rw [List.takeWhile_append_dropWhile]
          _ = r.takeWhile Char.isDigit ++ (r.dropWhile Char.isDigit).take n' :=
              List.take_length_add_append n'
      have length : (r.dropWhile Char.isDigit).length + (r.takeWhile Char.isDigit).length = r.length := by
        rw [Nat.add_comm, ← List.length_append, List.takeWhile_append_dropWhile]
      rw [slice]
      refine ⟨point.1, point.2.1, ?_⟩
      simp only [List.length_cons]
      omega
    · next no_digit =>
      obtain ⟨rfl, exp⟩ : [] = frac ∧ Token.exponent ('.' :: r) = (n, e) := by simpa using h
      exact longest_number_plain whole stop (fun r' same => by cases same; simpa using no_digit) exp
  · next not_point =>
    obtain ⟨rfl, exp⟩ : [] = frac ∧ Token.exponent after = (n, e) := by simpa using h
    exact longest_number_plain whole stop (fun r same => absurd same (not_point r)) exp

theorem startsWithDigit_of_isPrefix {fs ex rest : List Char} (frac : IsDigits fs) (h : fs ++ ex <+: rest) :
    Token.startsWithDigit rest = true := by
  obtain ⟨d, ds, rfl, digit⟩ := frac.head
  obtain ⟨u, rfl⟩ := h
  simp [Token.startsWithDigit, digit]

/-- At a point that a digit follows, the lexer takes the longest token there, a number, and reads
it. -/
theorem longest_fraction {rest : List Char} {n : Nat} {e : Int}
    (start : Token.startsWithDigit rest = true) (h : Token.exponent (rest.dropWhile Char.isDigit) = (n, e)) :
    IsLongest ('.' :: (rest.takeWhile Char.isDigit ++ (rest.dropWhile Char.isDigit).take n)) ('.' :: rest) ∧
      Denotes ('.' :: (rest.takeWhile Char.isDigit ++ (rest.dropWhile Char.isDigit).take n))
        (Token.numberOf [] (rest.takeWhile Char.isDigit) e) ∧ n ≤ (rest.dropWhile Char.isDigit).length := by
  obtain ⟨digits, longest⟩ := fraction_spec start
  obtain ⟨value, within⟩ := exponent_spec (rest.dropWhile Char.isDigit)
  rw [h] at value within longest
  have denotes : Denotes ('.' :: (rest.takeWhile Char.isDigit ++ (rest.dropWhile Char.isDigit).take n))
      (Token.numberOf [] (rest.takeWhile Char.isDigit) e) :=
    @denotes_point [] _ _ _ (fun _ mem => by cases mem) digits value
  refine ⟨⟨?_, denotes.isToken, ?_⟩, denotes, within⟩
  · refine List.cons_prefix_cons.mpr ⟨rfl, ?_⟩
    conv => rhs; rw [← List.takeWhile_append_dropWhile (p := Char.isDigit) (l := rest)]
    exact (List.prefix_append_right_inj _).mpr (List.take_prefix n _)
  · intro q hq token
    have number := isNumber_of_isPrefix hq (fun c mem => .inr (Option.mem_some_iff.mp mem).symm) token
    -- of the four forms only a fraction starts with a point
    have not_digits : ∀ {ws x : List Char}, IsDigits ws → ¬ws ++ x <+: '.' :: rest := by
      intro ws x whole hx
      obtain ⟨w, r, rfl, digit⟩ := whole.head
      exact ne_point_of_isDigit digit (List.cons_prefix_cons.mp hx).1
    cases number with
    | integer whole => exact absurd (by simpa using hq) (not_digits (x := []) whole)
    | decimal whole => exact absurd hq (not_digits whole)
    | scientific whole => exact absurd hq (not_digits whole)
    | @fraction fs ex frac exp =>
      have := longest fs ex frac exp (List.cons_prefix_cons.mp hq).2
      simp only [List.length_cons, List.length_append, List.length_take, Nat.min_eq_left within]
      omega

/-- At a letter, the lexer takes the longest token there, a name. -/
theorem longest_name {c : Char} {rest : List Char} (alpha : c.isAlpha = true) :
    IsLongest (c :: rest.takeWhile Token.isNameChar) (c :: rest) ∧
      Denotes (c :: rest.takeWhile Token.isNameChar)
        (.name (String.ofList (c :: rest.takeWhile Token.isNameChar))) := by
  have name : IsName (c :: rest.takeWhile Token.isNameChar) :=
    .mk alpha fun _ mem => List.mem_takeWhile_imp mem
  refine ⟨⟨List.cons_prefix_cons.mpr ⟨rfl, List.takeWhile_prefix _⟩, .name name, ?_⟩, .name name⟩
  intro q hq token
  have start : ∀ d ∈ q.head?, d.isAlpha = true := by
    rw [head?_of_isPrefix hq token.ne_nil]
    intro d mem
    cases Option.mem_some_iff.mp mem
    exact alpha
  cases isName_of_isToken token start with
  | mk _ chars =>
    have := length_le_takeWhile (List.cons_prefix_cons.mp hq).2 chars
    simp only [List.length_cons]
    omega

/-- At an operator symbol, the lexer takes the longest token there, the symbol alone. -/
theorem longest_symbol {c : Char} {t : Token} {rest : List Char} (symbol : Token.ofSymbol? c = some t) :
    IsLongest [c] (c :: rest) ∧ Denotes [c] t := by
  refine ⟨⟨List.cons_prefix_cons.mpr ⟨rfl, List.nil_prefix⟩, .symbol symbol, ?_⟩, .symbol symbol⟩
  intro q hq token
  rw [eq_singleton_of_isToken token (head?_of_isPrefix hq token.ne_nil) symbol]

/-- Where the lexer stops with an error, no token starts: at a character that is no operator
symbol, digit or letter, nor a point that a digit follows, no token pattern matches. -/
theorem not_isToken_of_stuck {c : Char} {rest : List Char} (symbol : Token.ofSymbol? c = none)
    (digit : ¬c.isDigit = true) (point : ¬(c == '.' && Token.startsWithDigit rest) = true)
    (alpha : ¬c.isAlpha = true) : ∀ q, q <+: c :: rest → ¬IsToken q := by
  intro q hq token
  have start := head?_of_isPrefix hq token.ne_nil
  have not_digits : ∀ {ws x : List Char}, IsDigits ws → ws ++ x = q → False := by
    intro ws x whole same
    obtain ⟨w, r, rfl, digit'⟩ := whole.head
    rw [← same] at start
    cases Option.some.inj start
    exact digit digit'
  cases token with
  | number number =>
    cases number with
    | integer whole => exact not_digits (x := []) whole (List.append_nil _)
    | decimal whole => exact not_digits whole rfl
    | scientific whole => exact not_digits whole rfl
    | fraction frac =>
      cases Option.some.inj start
      exact point (by simp [startsWithDigit_of_isPrefix frac (List.cons_prefix_cons.mp hq).2])
  | name name =>
    cases name with
    | mk letter _ =>
      cases Option.some.inj start
      exact alpha letter
  | symbol symbol' =>
    cases Option.some.inj start
    rw [symbol] at symbol'
    cases symbol'

/-! ### Every token is ASCII, and stands for one token -/

theorem IsDigits.ascii {ds : List Char} (h : IsDigits ds) : ∀ c ∈ ds, c.toNat < 128 := by
  intro c mem
  have := isDigit_iff_toNat.mp (h.digit c mem)
  omega

theorem IsExponent.ascii {ex : List Char} (h : IsExponent ex) : ∀ c ∈ ex, c.toNat < 128 := by
  intro c mem
  cases h with
  | unsigned mark digits =>
    rcases List.mem_cons.mp mem with rfl | mem
    · rcases mark with rfl | rfl <;> decide
    · exact digits.ascii c mem
  | signed mark sign digits =>
    rcases List.mem_cons.mp mem with rfl | mem
    · rcases mark with rfl | rfl <;> decide
    rcases List.mem_cons.mp mem with rfl | mem
    · rcases sign with rfl | rfl <;> decide
    · exact digits.ascii c mem

theorem ascii_of_isNameChar {c : Char} (h : Token.isNameChar c = true) : c.toNat < 128 := by
  simp only [Token.isNameChar, Char.isAlphanum, Bool.or_eq_true, beq_iff_eq] at h
  rcases h with (alpha | digit) | rfl
  · have := isAlpha_iff_toNat.mp alpha
    omega
  · have := isDigit_iff_toNat.mp digit
    omega
  · decide

theorem IsToken.ascii {q : List Char} (h : IsToken q) : ∀ c ∈ q, c.toNat < 128 := by
  intro c mem
  cases h with
  | number number =>
    have exponent : ∀ {ex : List Char}, (ex = [] ∨ IsExponent ex) → c ∈ ex → c.toNat < 128 := by
      rintro ex (rfl | exp) mem
      · cases mem
      · exact exp.ascii c mem
    cases number with
    | integer whole => exact whole.ascii c mem
    | decimal whole frac exp =>
      simp only [List.mem_append, List.mem_cons] at mem
      rcases mem with mem | rfl | mem | mem
      · exact whole.ascii c mem
      · decide
      · exact frac.ascii c mem
      · exact exponent exp mem
    | fraction frac exp =>
      simp only [List.mem_cons, List.mem_append] at mem
      rcases mem with rfl | mem | mem
      · decide
      · exact frac.ascii c mem
      · exact exponent exp mem
    | scientific whole exp =>
      rcases List.mem_append.mp mem with mem | mem
      · exact whole.ascii c mem
      · exact exp.ascii c mem
  | name name =>
    cases name with
    | mk alpha chars =>
      rcases List.mem_cons.mp mem with rfl | mem
      · have := isAlpha_iff_toNat.mp alpha
        omega
      · exact ascii_of_isNameChar (chars c mem)
  | symbol symbol =>
    cases List.mem_singleton.mp mem
    exact (symbol_facts symbol).2.2.2.2

/-- The text of a token takes one byte per character. -/
theorem utf8ByteSize_of_isToken {q : List Char} (h : IsToken q) :
    (String.ofList q).utf8ByteSize = q.length :=
  utf8ByteSize_ofList_of_ascii h.ascii

theorem not_isName_of_isNumber {q : List Char} (h : IsNumber q) : ¬IsName q := by
  intro name
  cases name with
  | mk alpha _ =>
    obtain ⟨d, r, same, digit | point⟩ := h.head
    · cases (List.cons.inj same).1
      exact absurd alpha (by simp [isAlpha_eq_false_of_isDigit digit])
    · cases (List.cons.inj same).1
      cases point
      cases alpha

/-- The text of a token stands for one token only. -/
theorem Denotes.unique {p : List Char} {t t' : Token} (h : Denotes p t) (h' : Denotes p t') :
    t = t' := by
  cases h with
  | number number read =>
    cases h' with
    | number _ read' => rw [Option.some.inj (read.symm.trans read')]
    | name name => exact absurd name (not_isName_of_isNumber number)
    | symbol symbol => exact absurd symbol (by simp [number.ofSymbol?_head])
  | name name =>
    cases h' with
    | number number _ => exact absurd name (not_isName_of_isNumber number)
    | name => rfl
    | symbol symbol =>
      cases name with
      | mk alpha _ => exact absurd alpha (by simp [(symbol_facts symbol).2.1])
  | symbol symbol =>
    cases h' with
    | number number _ => exact absurd symbol (by simp [number.ofSymbol?_head])
    | name name =>
      cases name with
      | mk alpha _ => exact absurd alpha (by simp [(symbol_facts symbol).2.1])
    | symbol symbol' => exact Option.some.inj (symbol.symm.trans symbol')

/-- A text has one longest token at its head. -/
theorem IsLongest.unique {p p' cs : List Char} (h : IsLongest p cs) (h' : IsLongest p' cs) :
    p = p' := by
  have same : p.length = p'.length :=
    Nat.le_antisymm (h'.longest p h.head h.token) (h.longest p' h'.head h'.token)
  rw [List.prefix_iff_eq_take.mp h.head, List.prefix_iff_eq_take.mp h'.head, same]

end Abacus.Syntax
