import Abacus.Syntax.Instruction
import Abacus.Proofs.Line
import Mathlib

/-!
# Canonical lines of instructions

Each instruction has a canonical line: `name = expression;` for an assignment, `? name;` for a
query, `expression =;` for an evaluation and `expression => _base;` for a conversion
(`Instruction.render`). Classifying the canonical line of an instruction that classification
gave returns that instruction again (`classify_render_of_classify`).

The proof goes through the instructions classification can give (`Instruction.Canonical`): its
expressions are not empty, have no blank at either end and hold no `=>` (the first `=>` of a
line makes it a conversion); an evaluation's expression does not start with `?` (the line would
be a query); an assignment's does not end with `=` (the line would be an evaluation); names are
variable names and bases lie between 2 and 16. Classification gives only canonical instructions
(`canonical_of_classify`), and each canonical instruction is the classification of its canonical
line (`classify_render`), so the canonical instructions are exactly the image of classification
(`exists_classify_iff_canonical`).
-/
namespace Abacus.Text

/-- A text with no blank at either end. -/
structure Trimmed (cs : List Char) : Prop where
  head : ∀ c ∈ cs.head?, isBlank c = false
  last : ∀ c ∈ cs.getLast?, isBlank c = false

theorem dropBlanks_eq_self {cs : List Char} (h : ∀ c ∈ cs.head?, isBlank c = false) :
    dropBlanks cs = cs := by
  cases cs with
  | nil => rfl
  | cons c r => simp [dropBlanks, h c rfl]

theorem dropTrailingBlanks_eq_self {cs : List Char} (h : ∀ c ∈ cs.getLast?, isBlank c = false) :
    dropTrailingBlanks cs = cs := by
  have kept : dropBlanks cs.reverse = cs.reverse :=
    dropBlanks_eq_self (by simpa only [List.head?_reverse] using h)
  unfold dropTrailingBlanks
  rw [show cs.reverse.dropWhile isBlank = cs.reverse from kept, List.reverse_reverse]

/-- Trimming cuts a text into leading blanks, the trimmed text and trailing blanks. -/
theorem eq_append_trim (cs : List Char) :
    ∃ pre post, cs = pre ++ dropTrailingBlanks (dropBlanks cs) ++ post ∧
      (∀ c ∈ pre, isBlank c = true) ∧ ∀ c ∈ post, isBlank c = true := by
  let rest := dropBlanks cs
  have front : cs = cs.takeWhile isBlank ++ rest := List.takeWhile_append_dropWhile.symm
  have back : rest = dropTrailingBlanks rest ++ (rest.reverse.takeWhile isBlank).reverse := by
    rw [dropTrailingBlanks, ← List.reverse_append, List.takeWhile_append_dropWhile,
      List.reverse_reverse]
  refine ⟨cs.takeWhile isBlank, (rest.reverse.takeWhile isBlank).reverse, ?_,
    fun c mem => List.mem_takeWhile_imp mem,
    fun c mem => List.mem_takeWhile_imp (List.mem_reverse.mp mem)⟩
  rw [List.append_assoc, ← back]
  exact front

theorem head_dropBlanks (cs : List Char) : ∀ c ∈ (dropBlanks cs).head?, isBlank c = false := by
  intro c mem
  have := List.head?_dropWhile_not isBlank cs
  rw [show (cs.dropWhile isBlank).head? = some c from mem] at this
  exact this

theorem trimmed_trim (cs : List Char) : Trimmed (dropTrailingBlanks (dropBlanks cs)) where
  head c mem := by
    -- the trimmed text is a prefix of the text without leading blanks
    obtain ⟨rest, eq⟩ : dropTrailingBlanks (dropBlanks cs) <+: dropBlanks cs :=
      List.reverse_prefix.mpr (List.dropWhile_suffix isBlank) |>.trans (by simp)
    apply head_dropBlanks cs c
    rw [← eq, List.head?_append, show (dropTrailingBlanks (dropBlanks cs)).head? = some c from mem]
    rfl
  last c mem := by
    have := head_dropBlanks (dropBlanks cs).reverse c
    simp only [dropTrailingBlanks, List.getLast?_reverse] at mem
    exact this mem

theorem trim_of_trimmed {cs : List Char} (h : Trimmed cs) :
    dropTrailingBlanks (dropBlanks cs) = cs := by
  rw [dropBlanks_eq_self h.head, dropTrailingBlanks_eq_self h.last]

/-- Trimming keeps a first character that is no blank. -/
theorem head_trim {cs : List Char} {c : Char} (head : cs.head? = some c) (kept : isBlank c = false) :
    (dropTrailingBlanks (dropBlanks cs)).head? = some c := by
  obtain ⟨pre, post, split, blankPre, blankPost⟩ := eq_append_trim cs
  generalize dropTrailingBlanks (dropBlanks cs) = t at split ⊢
  subst split
  cases pre with
  | cons d _ =>
    simp only [List.cons_append, List.head?_cons, Option.some.injEq] at head
    exact absurd (blankPre d (by simp)) (by rw [head, kept]; decide)
  | nil =>
    cases t with
    | nil =>
      have mem := List.mem_of_mem_head? (show c ∈ ([] ++ [] ++ post).head? from head)
      exact absurd (blankPost c (by simpa using mem)) (by rw [kept]; decide)
    | cons d _ => simpa using head

/-- Trimming keeps a last character that is no blank. -/
theorem getLast_trim {cs : List Char} {c : Char} (last : cs.getLast? = some c)
    (kept : isBlank c = false) : (dropTrailingBlanks (dropBlanks cs)).getLast? = some c := by
  obtain ⟨pre, post, split, blankPre, blankPost⟩ := eq_append_trim cs
  generalize dropTrailingBlanks (dropBlanks cs) = t at split ⊢
  subst split
  rcases List.eq_nil_or_concat post with rfl | ⟨post', d, rfl⟩
  · rcases List.eq_nil_or_concat t with rfl | ⟨t', e, rfl⟩
    · have mem := List.mem_of_getLast? last
      exact absurd (blankPre c (by simpa using mem)) (by rw [kept]; decide)
    · simpa using last
  · have same : d = c := by simpa using last
    exact absurd (blankPost d (by simp)) (by rw [same, kept]; decide)

/-! ### Cuts at a character or a separator -/

theorem stripLast?_concat (c : Char) (cs : List Char) : stripLast? c (cs ++ [c]) = some cs := by
  simp [stripLast?]

theorem eq_concat_of_stripLast? {c : Char} {cs s : List Char} (h : stripLast? c cs = some s) :
    cs = s ++ [c] := by
  unfold stripLast? at h
  split at h
  · next last =>
    cases h
    obtain ⟨ys, rfl⟩ := List.getLast?_eq_some_iff.mp (by simpa using last)
    simp
  · cases h

theorem getLast_ne_of_stripLast? {c : Char} {cs : List Char} (h : stripLast? c cs = none) :
    cs.getLast? ≠ some c := by
  unfold stripLast? at h
  split at h
  · cases h
  · next last => simpa using last

theorem stripLast?_of_getLast_ne {c : Char} {cs : List Char} (h : cs.getLast? ≠ some c) :
    stripLast? c cs = none := by
  simp [stripLast?, h]

theorem head_ne_of_stripFirst? {c : Char} {cs : List Char} (h : stripFirst? c cs = none) :
    cs.head? ≠ some c := by
  cases cs with
  | nil => simp
  | cons d r =>
    simp only [stripFirst?] at h
    split at h
    · cases h
    · next differs => simpa using differs

theorem stripFirst?_of_head_ne {c : Char} {cs : List Char} (h : cs.head? ≠ some c) :
    stripFirst? c cs = none := by
  cases cs with
  | nil => rfl
  | cons d r =>
    have : d ≠ c := by simpa using h
    simp [stripFirst?, this]

/-- No cut is found exactly when the separator does not occur. -/
theorem splitOnce?_eq_none_iff {sep cs : List Char} (sep_ne : sep ≠ []) :
    splitOnce? sep cs = none ↔ ¬ sep <:+: cs := by
  induction cs with
  | nil => simpa [splitOnce?] using sep_ne
  | cons c rest ih =>
    rw [List.infix_cons_iff, not_or, ← ih, ← List.isPrefixOf_iff_prefix]
    by_cases found : sep.isPrefixOf (c :: rest) = true
    · simp [splitOnce?, sep_ne, found]
    · simp [splitOnce?, found]

theorem splitOnce?_nil (cs : List Char) : splitOnce? [] cs = none := by
  induction cs with
  | nil => rfl
  | cons c rest ih => simp [splitOnce?, ih]

/-- A cut is taken at the first occurrence: the separator does not occur before it. -/
theorem eq_append_of_splitOnce? {sep cs a b : List Char} (h : splitOnce? sep cs = some (a, b)) :
    cs = a ++ sep ++ b ∧ ¬ sep <:+: a := by
  have sep_ne : sep ≠ [] := by
    rintro rfl
    rw [splitOnce?_nil] at h
    cases h
  induction cs generalizing a with
  | nil => cases h
  | cons c rest ih =>
    unfold splitOnce? at h
    split at h
    · next found =>
      cases h
      obtain ⟨t, ht⟩ := List.isPrefixOf_iff_prefix.mp found.2
      refine ⟨by simp [← ht], fun inf => found.1 (List.eq_nil_of_infix_nil inf)⟩
    · next missing =>
      obtain ⟨⟨a', b'⟩, cut, eq⟩ := Option.map_eq_some_iff.mp h
      cases eq
      obtain ⟨rfl, before⟩ := ih cut
      refine ⟨rfl, fun inf => ?_⟩
      rcases List.infix_cons_iff.mp inf with pre | inf
      · apply missing
        refine ⟨sep_ne, List.isPrefixOf_iff_prefix.mpr ?_⟩
        exact pre.trans (by simp)
      · exact before inf

/-- A separator that does not start before a given place is cut there. -/
theorem splitOnce?_append {sep a b : List Char} (sep_ne : sep ≠ [])
    (first : ¬ sep <:+: (a ++ sep).dropLast) : splitOnce? sep (a ++ sep ++ b) = some (a, b) := by
  induction a with
  | nil =>
    obtain ⟨c, rest, rfl⟩ := List.exists_cons_of_ne_nil sep_ne
    simp [splitOnce?]
  | cons c a ih =>
    have joined : (c :: a ++ sep).dropLast = c :: (a ++ sep).dropLast :=
      List.dropLast_cons_of_ne_nil (by simp [sep_ne])
    have later : ¬ sep <:+: (a ++ sep).dropLast := fun inf =>
      first (joined ▸ List.infix_cons inf)
    -- an occurrence at `c` would end before the last character of `sep` placed after `a`
    have notHere : sep.isPrefixOf (c :: a ++ sep ++ b) = false := by
      rw [Bool.eq_false_iff]
      intro pre
      have before : (c :: a ++ sep).dropLast <+: c :: a ++ sep ++ b :=
        (List.dropLast_prefix _).trans (List.prefix_append _ _)
      have short : sep.length ≤ (c :: a ++ sep).dropLast.length := by simp
      exact first (List.prefix_of_prefix_length_le (List.isPrefixOf_iff_prefix.mp pre) before
        short).isInfix
    have tail := ih later
    simp only [List.cons_append, List.append_assoc, Bool.eq_false_iff] at notHere tail
    simp [splitOnce?, notHere, tail]

/-- A two-character separator occurs in a joined text only within a part or across the
joint. -/
theorem not_pair_infix_append {x y : Char} {l₁ l₂ : List Char} (h₁ : ¬ [x, y] <:+: l₁)
    (h₂ : ¬ [x, y] <:+: l₂) (joint : l₁.getLast? = some x → l₂.head? ≠ some y) :
    ¬ [x, y] <:+: l₁ ++ l₂ := by
  induction l₁ with
  | nil => simpa using h₂
  | cons c l ih =>
    intro inf
    rw [List.cons_append, List.infix_cons_iff] at inf
    rcases inf with pre | inf
    · -- the occurrence starts at `c`
      obtain ⟨rfl, rest⟩ := List.cons_prefix_cons.mp pre
      cases l with
      | nil =>
        obtain ⟨t, rfl⟩ := rest
        exact joint rfl (by simp)
      | cons d l =>
        obtain ⟨rfl, -⟩ := List.cons_prefix_cons.mp rest
        exact h₁ (List.IsPrefix.isInfix (by simp))
    · refine ih (fun i => h₁ (List.infix_cons i)) (fun last => joint ?_) inf
      simp [List.getLast?_cons, last]

theorem dropBlanks_blank_append {pre : List Char} (cs : List Char)
    (blank : ∀ c ∈ pre, isBlank c = true) : dropBlanks (pre ++ cs) = dropBlanks cs := by
  induction pre with
  | nil => rfl
  | cons c pre ih =>
    simp only [List.mem_cons, forall_eq_or_imp] at blank
    have rest := ih blank.2
    simp only [dropBlanks] at rest
    simp [dropBlanks, blank.1, rest]

theorem dropTrailingBlanks_append_blank {post : List Char} (cs : List Char)
    (blank : ∀ c ∈ post, isBlank c = true) :
    dropTrailingBlanks (cs ++ post) = dropTrailingBlanks cs := by
  have := @dropBlanks_blank_append post.reverse cs.reverse (by simpa using blank)
  simp only [dropBlanks] at this
  simp [dropTrailingBlanks, this]

/-- Trimming removes exactly the blanks padding a trimmed text. -/
theorem trim_pad {pre s post : List Char} (h : Trimmed s) (blankPre : ∀ c ∈ pre, isBlank c = true)
    (blankPost : ∀ c ∈ post, isBlank c = true) :
    dropTrailingBlanks (dropBlanks (pre ++ s ++ post)) = s := by
  rw [List.append_assoc, dropBlanks_blank_append _ blankPre]
  cases s with
  | nil =>
    rw [List.nil_append, ← List.append_nil post, dropBlanks_blank_append _ blankPost]
    rfl
  | cons c s =>
    rw [dropBlanks_eq_self (by simpa using h.head), dropTrailingBlanks_append_blank _ blankPost,
      dropTrailingBlanks_eq_self h.last]

theorem trim_isInfix (cs : List Char) : dropTrailingBlanks (dropBlanks cs) <:+: cs := by
  obtain ⟨pre, post, split, -, -⟩ := eq_append_trim cs
  exact ⟨pre, post, split.symm⟩

theorem trimmed_of_forall {cs : List Char} (h : ∀ c ∈ cs, isBlank c = false) : Trimmed cs where
  head c mem := h c (List.mem_of_mem_head? mem)
  last c mem := h c (List.mem_of_getLast? mem)

/-- A text joined from trimmed outer parts is trimmed, whatever stands between them. -/
theorem Trimmed.append {a m b : List Char} (ha : Trimmed a) (hb : Trimmed b) (a_ne : a ≠ [])
    (b_ne : b ≠ []) : Trimmed (a ++ m ++ b) where
  head c mem := by
    obtain ⟨x, a', rfl⟩ := List.exists_cons_of_ne_nil a_ne
    exact ha.head c (by simpa using mem)
  last c mem := by
    obtain ⟨b', y, rfl⟩ := (List.eq_nil_or_concat b).resolve_left b_ne
    exact hb.last c (by simpa using mem)

end Abacus.Text

namespace Abacus.Syntax

open Text

/-- The statement of a trimmed line is trimmed. -/
theorem trimmed_statementOf {t : List Char} (h : Trimmed t) : Trimmed (statementOf t) := by
  unfold statementOf
  split
  · next s cut =>
    rw [eq_concat_of_stripLast? cut] at h
    -- without its `;` the line keeps its first character, when it has one
    have head : ∀ c ∈ s.head?, isBlank c = false := fun c mem =>
      h.head c (by simp [show s.head? = some c from mem])
    simpa only [dropBlanks_eq_self head] using trimmed_trim s
  · exact h

/-- The statement of a line `s;`, for a trimmed `s`, is `s`. -/
theorem statementOf_terminated {s : List Char} (h : Trimmed s) (ne : s ≠ []) :
    statementOf (dropTrailingBlanks (dropBlanks (s ++ [';']))) = s := by
  have line : Trimmed (s ++ [';']) := by
    constructor
    · intro c mem
      obtain ⟨d, r, rfl⟩ := List.exists_cons_of_ne_nil ne
      exact h.head c (by simpa using mem)
    · intro c mem
      obtain rfl : ';' = c := by simpa using mem
      decide
  rw [trim_of_trimmed line, statementOf, stripLast?_concat]
  exact dropTrailingBlanks_eq_self h.last

/-- A character of a name is no blank, and neither `=` nor `?`. -/
theorem nameChar_facts {c : Char} (h : c.isAlphanum = true ∨ c = '_') :
    isBlank c = false ∧ c ≠ '=' ∧ c ≠ '?' := by
  have range : (48 ≤ c.toNat ∧ c.toNat ≤ 57) ∨ (65 ≤ c.toNat ∧ c.toNat ≤ 90) ∨
      (97 ≤ c.toNat ∧ c.toNat ≤ 122) ∨ c.toNat = 95 := by
    rcases h with h | rfl
    · have val : c.toNat = c.val.toNat := rfl
      simp [Char.isAlphanum, Char.isAlpha, Char.isUpper, Char.isLower, Char.isDigit,
        UInt32.le_iff_toNat_le] at h
      omega
    · decide
  refine ⟨?_, ?_, ?_⟩
  · unfold isBlank
    simp
    omega
  · rintro rfl
    simp at range
  · rintro rfl
    simp at range

/-- A variable name is not empty and made of characters that are no blank, `=` or `?`. -/
theorem name_facts {name : String} (h : isVariableName name = true) :
    name.toList ≠ [] ∧ ∀ c ∈ name.toList, isBlank c = false ∧ c ≠ '=' ∧ c ≠ '?' := by
  simp only [isVariableName, isValidIdentifier, Bool.and_eq_true] at h
  obtain ⟨ident, -⟩ := h
  unfold Numeral.isIdentifier at ident
  split at ident
  · next first rest eq =>
    simp only [Bool.and_eq_true, List.all_eq_true, Bool.or_eq_true, beq_iff_eq] at ident
    refine ⟨by simp [eq], fun c mem => nameChar_facts ?_⟩
    rw [eq, List.mem_cons] at mem
    rcases mem with rfl | mem
    · exact .inl (by simp [Char.isAlphanum, ident.1])
    · exact ident.2 c mem
  · cases ident

theorem trimmed_of_name {name : String} (h : isVariableName name = true) :
    Trimmed name.toList :=
  trimmed_of_forall fun c mem => ((name_facts h).2 c mem).1

theorem variableName_of_isVariableName {name : String} (h : isVariableName name = true) :
    variableName name.toList = .ok name := by
  simp [variableName, String.ofList_toList, h]

/-- A base between 2 and 16 is written in digits, and read back. -/
theorem base_text {base : Nat} (low : Numeral.minBase ≤ base) (high : base ≤ Numeral.maxBase) :
    (toString base).toList ≠ [] ∧ (toString base).toList.all Char.isDigit ∧
      Numeral.parseBase (toString base) = .ok base := by
  simp only [Numeral.minBase, Numeral.maxBase] at low high
  interval_cases base <;> exact ⟨by decide, by decide, rfl⟩

theorem bounds_of_parseBase {text : String} {base : Nat} (h : Numeral.parseBase text = .ok base) :
    Numeral.minBase ≤ base ∧ base ≤ Numeral.maxBase := by
  unfold Numeral.parseBase at h
  split at h
  · split at h
    · next bounds =>
      cases h
      exact bounds
    · cases h
  · cases h

/-- The canonical line of an instruction. -/
def Instruction.render : Instruction → String
  | .assignment name expression => name ++ " = " ++ expression ++ ";"
  | .query name => "? " ++ name ++ ";"
  | .bareExpression expression => expression ++ " =;"
  | .baseConversion expression base => expression ++ " => _" ++ toString base ++ ";"

/-- What classification leaves of an expression: not empty, no blank at either end, and no
`=>`. -/
structure ExpressionText (cs : List Char) : Prop where
  ne_nil : cs ≠ []
  trimmed : Trimmed cs
  no_arrow : ¬ "=>".toList <:+: cs

/-- The instructions that classification gives. -/
def Instruction.Canonical : Instruction → Prop
  | .assignment name expression => isVariableName name = true ∧
      ExpressionText expression.toList ∧ expression.toList.getLast? ≠ some '='
  | .query name => isVariableName name = true
  | .bareExpression expression =>
      ExpressionText expression.toList ∧ expression.toList.head? ≠ some '?'
  | .baseConversion expression base =>
      ExpressionText expression.toList ∧ Numeral.minBase ≤ base ∧ base ≤ Numeral.maxBase

theorem arrow_toList : "=>".toList = ['=', '>'] := rfl

theorem not_arrow_infix_of_name {name : String} (h : isVariableName name = true) :
    ¬ ['=', '>'] <:+: name.toList := fun inf =>
  ((name_facts h).2 '=' (inf.subset (by simp))).2.1 rfl

/-- An expression followed by ` =` holds no `=>`, as `=` is not followed by `>` there. -/
theorem not_arrow_infix_spaced {e : List Char} (h : ExpressionText e) :
    ¬ ['=', '>'] <:+: e ++ [' ', '='] :=
  not_pair_infix_append (arrow_toList ▸ h.no_arrow) (by decide) (fun _ => by decide)

/-- Every canonical instruction is the classification of its canonical line. -/
theorem classify_render {i : Instruction} (hc : i.Canonical) :
    Instruction.classify i.render = .ok i := by
  cases i with
  | assignment name expression =>
    obtain ⟨nameOk, expr, lastNe⟩ := hc
    obtain ⟨nameNe, nameChars⟩ := name_facts nameOk
    obtain ⟨n, ns, nameEq⟩ := List.exists_cons_of_ne_nil nameNe
    -- the statement, written as cut at its first `=`
    have line : (Instruction.render (.assignment name expression)).toList =
        (name.toList ++ [' ']) ++ ['='] ++ (' ' :: expression.toList) ++ [';'] := by
      simp [Instruction.render]
    have stmt : Trimmed ((name.toList ++ [' ']) ++ ['='] ++ (' ' :: expression.toList)) := by
      simpa using Trimmed.append (m := [' ', '=', ' ']) (trimmed_of_name nameOk) expr.trimmed
        nameNe expr.ne_nil
    have noArrow : splitOnce? "=>".toList
        ((name.toList ++ [' ']) ++ ['='] ++ (' ' :: expression.toList)) = none := by
      rw [splitOnce?_eq_none_iff (by decide), arrow_toList]
      have spaced : ¬ ['=', '>'] <:+: name.toList ++ [' ', '=', ' '] :=
        not_pair_infix_append (not_arrow_infix_of_name nameOk) (by decide) (fun _ => by decide)
      simpa using not_pair_infix_append spaced (arrow_toList ▸ expr.no_arrow) (by simp)
    have noQuery : stripFirst? '?' ((name.toList ++ [' ']) ++ ['='] ++ (' ' :: expression.toList))
        = none := by
      apply stripFirst?_of_head_ne
      simp only [nameEq, List.cons_append, List.head?_cons, ne_eq, Option.some.injEq]
      exact (nameChars n (by simp [nameEq])).2.2
    have noEval : stripLast? '=' ((name.toList ++ [' ']) ++ ['='] ++ (' ' :: expression.toList))
        = none := by
      apply stripLast?_of_getLast_ne
      obtain ⟨es, e, exprEq⟩ := (List.eq_nil_or_concat _).resolve_left expr.ne_nil
      simpa [exprEq, List.getLast?_cons] using lastNe
    have cut : splitOnce? ['='] ((name.toList ++ [' ']) ++ ['='] ++ (' ' :: expression.toList)) =
        some (name.toList ++ [' '], ' ' :: expression.toList) := by
      apply splitOnce?_append (by decide)
      intro inf
      have mem := inf.subset (List.mem_singleton_self '=')
      simp only [List.dropLast_concat, List.mem_append, List.mem_singleton] at mem
      rcases mem with mem | eq
      · exact (nameChars '=' mem).2.1 rfl
      · cases eq
    have trimName : dropTrailingBlanks (dropBlanks (name.toList ++ [' '])) = name.toList := by
      simpa using @trim_pad [] _ [' '] (trimmed_of_name nameOk) (by simp)
        (List.forall_mem_singleton.mpr (by decide))
    have trimExpr : dropTrailingBlanks (dropBlanks (' ' :: expression.toList)) =
        expression.toList := by
      simpa using @trim_pad [' '] _ [] expr.trimmed (List.forall_mem_singleton.mpr (by decide))
        (by simp)
    unfold Instruction.classify
    simp only [line, statementOf_terminated stmt (by simp), noArrow, noQuery, noEval, cut,
      trimName, trimExpr, variableName_of_isVariableName nameOk, String.ofList_toList]
    rfl
  | query name =>
    have line : (Instruction.render (.query name)).toList = ['?'] ++ [' '] ++ name.toList ++ [';'] := by
      simp [Instruction.render]
    have stmt : Trimmed (['?'] ++ [' '] ++ name.toList) :=
      Trimmed.append (trimmed_of_forall (List.forall_mem_singleton.mpr (by decide)))
        (trimmed_of_name hc) (by simp) (name_facts hc).1
    have noArrow : splitOnce? "=>".toList (['?'] ++ [' '] ++ name.toList) = none := by
      rw [splitOnce?_eq_none_iff (by decide), arrow_toList]
      exact not_pair_infix_append (by decide) (not_arrow_infix_of_name hc) (by simp)
    have trimName : dropTrailingBlanks (dropBlanks (' ' :: name.toList)) = name.toList := by
      simpa using @trim_pad [' '] _ [] (trimmed_of_name hc)
        (List.forall_mem_singleton.mpr (by decide)) (by simp)
    unfold Instruction.classify
    rw [line, statementOf_terminated stmt (by simp)]
    simp only [noArrow]
    simp only [List.cons_append, List.nil_append, stripFirst?, beq_self_eq_true, if_true,
      trimName, variableName_of_isVariableName hc]
    rfl
  | bareExpression expression =>
    obtain ⟨expr, headNe⟩ := hc
    have line : (Instruction.render (.bareExpression expression)).toList =
        expression.toList ++ [' '] ++ ['='] ++ [';'] := by
      simp [Instruction.render]
    have stmt : Trimmed (expression.toList ++ [' '] ++ ['=']) :=
      Trimmed.append expr.trimmed (trimmed_of_forall (List.forall_mem_singleton.mpr (by decide)))
        expr.ne_nil (by simp)
    have noArrow : splitOnce? "=>".toList (expression.toList ++ [' '] ++ ['=']) = none := by
      rw [splitOnce?_eq_none_iff (by decide), arrow_toList]
      simpa using not_arrow_infix_spaced expr
    have noQuery : stripFirst? '?' (expression.toList ++ [' '] ++ ['=']) = none := by
      apply stripFirst?_of_head_ne
      obtain ⟨e, es, exprEq⟩ := List.exists_cons_of_ne_nil expr.ne_nil
      simpa [exprEq] using headNe
    have trimExpr : dropTrailingBlanks (dropBlanks (expression.toList ++ [' '])) =
        expression.toList := by
      simpa using @trim_pad [] _ [' '] expr.trimmed (by simp) (List.forall_mem_singleton.mpr (by decide))
    have nonempty : expression.toList.isEmpty = false := List.isEmpty_eq_false_iff.mpr expr.ne_nil
    unfold Instruction.classify
    simp only [line, statementOf_terminated stmt (by simp), noArrow, noQuery, stripLast?_concat,
      trimExpr, nonempty, String.ofList_toList]
    rfl
  | baseConversion expression base =>
    obtain ⟨expr, low, high⟩ := hc
    obtain ⟨digitsNe, digits, read⟩ := base_text low high
    have digitsTrimmed : Trimmed (toString base).toList := trimmed_of_forall fun c mem =>
      (nameChar_facts (.inl (by simp [Char.isAlphanum, List.all_eq_true.mp digits c mem]))).1
    have line : (Instruction.render (.baseConversion expression base)).toList =
        (expression.toList ++ [' ']) ++ ['=', '>'] ++ ([' ', '_'] ++ (toString base).toList) ++
          [';'] := by
      simp [Instruction.render]
    have stmt : Trimmed ((expression.toList ++ [' ']) ++ ['=', '>'] ++
        ([' ', '_'] ++ (toString base).toList)) := by
      simpa using Trimmed.append (m := [' ', '=', '>', ' ', '_']) expr.trimmed digitsTrimmed
        expr.ne_nil digitsNe
    have cut : splitOnce? "=>".toList ((expression.toList ++ [' ']) ++ ['=', '>'] ++
        ([' ', '_'] ++ (toString base).toList)) =
        some (expression.toList ++ [' '], [' ', '_'] ++ (toString base).toList) := by
      rw [arrow_toList]
      apply splitOnce?_append (by decide)
      simpa using not_arrow_infix_spaced expr
    have trimTarget : dropTrailingBlanks (dropBlanks ([' ', '_'] ++ (toString base).toList)) =
        '_' :: (toString base).toList := by
      have target : Trimmed (['_'] ++ [] ++ (toString base).toList) :=
        Trimmed.append (trimmed_of_forall (List.forall_mem_singleton.mpr (by decide))) digitsTrimmed
          (by simp) digitsNe
      simpa using @trim_pad [' '] _ [] target (List.forall_mem_singleton.mpr (by decide)) (by simp)
    have trimExpr : dropTrailingBlanks (dropBlanks (expression.toList ++ [' '])) =
        expression.toList := by
      simpa using @trim_pad [] _ [' '] expr.trimmed (by simp) (List.forall_mem_singleton.mpr (by decide))
    have nonempty : expression.toList.isEmpty = false := List.isEmpty_eq_false_iff.mpr expr.ne_nil
    unfold Instruction.classify
    rw [line, statementOf_terminated stmt (by simp)]
    simp only [cut]
    simp only [trimTarget, stripFirst?, beq_self_eq_true, if_true, trim_of_trimmed digitsTrimmed,
      String.ofList_toList, read, trimExpr, nonempty]
    rfl

/-- The expression classification keeps of a text without `=>`, once trimmed and not empty. -/
theorem expressionText_trim {cs : List Char} (ne : ¬ (dropTrailingBlanks (dropBlanks cs)).isEmpty)
    (noArrow : ¬ "=>".toList <:+: cs) : ExpressionText (dropTrailingBlanks (dropBlanks cs)) where
  ne_nil := by simpa using ne
  trimmed := trimmed_trim cs
  no_arrow inf := noArrow (inf.trans (trim_isInfix cs))

/-- Classification gives only canonical instructions. -/
theorem canonical_of_classify {line : String} {i : Instruction}
    (h : Instruction.classify line = .ok i) : i.Canonical := by
  unfold Instruction.classify at h
  have trimmed := trimmed_statementOf (trimmed_trim line.toList)
  generalize statementOf (dropTrailingBlanks (dropBlanks line.toList)) = st at h trimmed
  dsimp only at h
  split at h
  · -- a conversion: its expression stands before the first `=>`
    next expression target arrow =>
    have noArrow := (eq_append_of_splitOnce? arrow).2
    split at h
    · next base _ =>
      cases read : Numeral.parseBase (String.ofList (dropTrailingBlanks (dropBlanks base))) with
      | error err => simp [read, bind, Except.bind] at h
      | ok b =>
        simp only [read, bind, Except.bind, pure, Except.pure] at h
        split at h
        · cases h
        · next ne =>
          cases h
          refine ⟨?_, bounds_of_parseBase read⟩
          rw [String.toList_ofList]
          exact expressionText_trim ne noArrow
    · cases h
  · next noArrow =>
    have noArrow := (splitOnce?_eq_none_iff (by decide)).mp noArrow
    split at h
    · -- a query
      next rest _ =>
      cases named : variableName (dropTrailingBlanks (dropBlanks rest)) with
      | error err => simp [named, bind, Except.bind] at h
      | ok name =>
        simp only [named, bind, Except.bind, pure, Except.pure, Except.ok.injEq] at h
        subst h
        exact Session.isVariableName_of_variableName named
    · next noQuery =>
      have headNe := head_ne_of_stripFirst? noQuery
      split at h
      · -- an evaluation: the statement is its expression and a last `=`
        next e0 evaluated =>
        have split := eq_concat_of_stripLast? evaluated
        split at h
        · cases h
        · next ne =>
          cases h
          have noArrow' : ¬ "=>".toList <:+: e0 := fun inf =>
            noArrow (inf.trans (split ▸ List.infix_append_left))
          refine ⟨by simpa using expressionText_trim ne noArrow', ?_⟩
          -- the expression starts with the statement's first character
          obtain ⟨c, r, e0Eq⟩ := List.exists_cons_of_ne_nil
            (show e0 ≠ [] by rintro rfl; exact ne rfl)
          have head : st.head? = some c := by simp [split, e0Eq]
          rw [String.toList_ofList, @head_trim e0 c (by simp [e0Eq]) (trimmed.head c head)]
          rwa [head] at headNe
      · next noEval =>
        have lastNe := getLast_ne_of_stripLast? noEval
        split at h
        · -- an assignment: the name stands before the first `=`
          next n0 e0 cut =>
          have split := (eq_append_of_splitOnce? cut).1
          cases named : variableName (dropTrailingBlanks (dropBlanks n0)) with
          | error err => simp [named, bind, Except.bind] at h
          | ok name =>
            simp only [named, bind, Except.bind, pure, Except.pure, Except.ok.injEq] at h
            subst h
            -- the expression ends with the statement's last character, which is no `=`
            obtain ⟨es, c, e0Eq⟩ := (List.eq_nil_or_concat e0).resolve_left
              (by rintro rfl; simp [split] at lastNe)
            have last : st.getLast? = some c := by simp [split, e0Eq, List.getLast?_cons]
            have trimLast := @getLast_trim e0 c (by simp [e0Eq]) (trimmed.last c last)
            have noArrow' : ¬ "=>".toList <:+: e0 := fun inf =>
              noArrow (inf.trans (split ▸ (List.suffix_append _ _).isInfix))
            have expr := expressionText_trim
              (by simpa using List.ne_nil_of_mem (List.mem_of_getLast? trimLast)) noArrow'
            refine ⟨Session.isVariableName_of_variableName named, by simpa using expr, ?_⟩
            rw [String.toList_ofList, trimLast]
            rwa [last] at lastNe
        · cases h

/-- Classification is stable on its image: the canonical line of an instruction that
classification gave is classified as that same instruction. -/
theorem classify_render_of_classify {line : String} {i : Instruction}
    (h : Instruction.classify line = .ok i) : Instruction.classify i.render = .ok i :=
  classify_render (canonical_of_classify h)

/-- A conversion whose expression ends with `=` is cut at the first `=>` and written back with a
blank before it. -/
theorem classify_render_of_classify_arrow_after_equals :
    Instruction.classify "a==>_2" = .ok (.baseConversion "a=" 2) ∧
      Instruction.classify (Instruction.baseConversion "a=" 2).render =
        .ok (.baseConversion "a=" 2) :=
  ⟨by rfl, @classify_render_of_classify "a==>_2" _ (by rfl)⟩

/-- The canonical instructions are exactly the instructions classification gives. -/
theorem exists_classify_iff_canonical {i : Instruction} :
    (∃ line, Instruction.classify line = .ok i) ↔ i.Canonical :=
  ⟨fun ⟨_, h⟩ => canonical_of_classify h, fun hc => ⟨i.render, classify_render hc⟩⟩

end Abacus.Syntax
