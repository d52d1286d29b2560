import Abacus.Syntax.Parse

/-!
# The grammar of expressions

The parser reads exactly the sentences of the grammar

    sum     := product | sum ("+" | "-") product
    product := power | product ("*" | "/") power
    power   := atom | atom "^" power
    atom    := "(" sum ")" | "~" atom | number

Its left-recursive rules make `+ - * /` group to the left, the right-recursive power makes `^`
group to the right, and `~` takes the atom after it. `Derives r ts e` says that the tokens `ts`
derive from the rule `r` with the tree `e`: the tree is part of the derivation.

Main statements: `parse` succeeds on a list of lexemes exactly when their tokens are a sentence,
and then returns the tree of its only derivation (`parse_eq_ok_iff_sentence`); a tree written with
parentheses only where the grammar needs them parses back to itself.

Each parsing function is first described by what its success means in terms of the functions it
calls (`atom_ok_iff` and the rest), with the bounds on the rest of the input forgotten. The two
directions of the main statement then never unfold the parser: soundness goes by strong induction
on the number of lexemes, completeness by induction on the derivation.
-/
namespace Abacus.Syntax

/-- The four rules of the grammar, from the tightest. -/
inductive Rule where
  | atom
  | power
  | product
  | sum
  deriving DecidableEq, Repr

/-- Derivations of token lists, with their trees. -/
inductive Derives : Rule → List Token → Expr → Prop
  | group {ts e} : Derives .sum ts e → Derives .atom (.lparen :: ts ++ [.rparen]) e
  | negate {ts e} : Derives .atom ts e → Derives .atom (.negate :: ts) (.neg e)
  | number (value : Float) : Derives .atom [.number value] (.num value)
  | powerOfAtom {ts e} : Derives .atom ts e → Derives .power ts e
  | powerStep {ts us a b} : Derives .atom ts a → Derives .power us b →
      Derives .power (ts ++ .caret :: us) (.binary .pow a b)
  | productOfPower {ts e} : Derives .power ts e → Derives .product ts e
  | productStep {ts us t op a b} : Derives .product ts a → t.productOp? = some op →
      Derives .power us b → Derives .product (ts ++ t :: us) (.binary op a b)
  | sumOfProduct {ts e} : Derives .product ts e → Derives .sum ts e
  | sumStep {ts us t op a b} : Derives .sum ts a → t.sumOp? = some op →
      Derives .product us b → Derives .sum (ts ++ t :: us) (.binary op a b)

/-- Whether a token right after a complete `r` continues it: `^` continues a power, `*` and `/`
a product, `+` and `-` a sum, and each rule also what continues the rules below it. Nothing
continues an atom. -/
def Rule.continuedBy : Rule → Token → Bool
  | .atom, _ => false
  | .power, t => (t matches .caret)
  | .product, t => (t matches .caret) || t.productOp?.isSome
  | .sum, t => (t matches .caret) || t.productOp?.isSome || t.sumOp?.isSome

/-- The lexemes `rest` can follow a complete `r`: their first token does not continue it. -/
def Rule.stopsBefore (r : Rule) (rest : List Lexeme) : Prop :=
  ∀ l ∈ rest.head?, r.continuedBy l.token = false

@[simp]
theorem Rule.stopsBefore_nil (r : Rule) : r.stopsBefore [] := by
  simp [Rule.stopsBefore]

@[simp]
theorem Rule.stopsBefore_cons (r : Rule) (l : Lexeme) (ls : List Lexeme) :
    r.stopsBefore (l :: ls) ↔ r.continuedBy l.token = false := by
  simp [Rule.stopsBefore]

/-- A parse result with the bound on the rest of the input forgotten. -/
def forget {p : List Lexeme → Prop} : Except Error (Expr × Subtype p) → Except Error (Expr × List Lexeme)
  | .ok (e, rest) => .ok (e, rest.val)
  | .error err => .error err

@[simp]
theorem forget_ok {p : List Lexeme → Prop} (e : Expr) (rest : Subtype p) :
    forget (.ok (e, rest)) = .ok (e, rest.val) := rfl

@[simp]
theorem forget_error {p : List Lexeme → Prop} (err : Error) :
    forget (.error err : Except Error (Expr × Subtype p)) = .error err := rfl

theorem forget_eq_ok {p : List Lexeme → Prop} {x : Except Error (Expr × Subtype p)}
    {e : Expr} {rest : List Lexeme} :
    forget x = .ok (e, rest) ↔ ∃ h : p rest, x = .ok (e, ⟨rest, h⟩) := by
  constructor
  · intro hx
    match x, hx with
    | .ok (e', ⟨rest', h⟩), hx =>
      simp only [forget_ok, Except.ok.injEq, Prod.mk.injEq] at hx
      obtain ⟨rfl, rfl⟩ := hx
      exact ⟨h, rfl⟩
  · rintro ⟨h, rfl⟩
    rfl

/-- The parsing function of each rule, with the bound on the rest forgotten. -/
def Rule.run : Rule → List Lexeme → Except Error (Expr × List Lexeme)
  | .atom, ls => forget (Syntax.atom ls)
  | .power, ls => forget (Syntax.power ls)
  | .product, ls => forget (Syntax.product ls)
  | .sum, ls => forget (Syntax.sum ls)

/-- The loop that reads further operands of a product after `acc`. -/
def productLoop (acc : Expr) (ls : List Lexeme) : Except Error (Expr × List Lexeme) :=
  forget (productRest acc ls)

/-- The loop that reads further operands of a sum after `acc`. -/
def sumLoop (acc : Expr) (ls : List Lexeme) : Except Error (Expr × List Lexeme) :=
  forget (sumRest acc ls)

/-! ## What success of each parsing function means -/

theorem atom_lparen_ok {c : Nat} {r : List Lexeme} {e : Expr} {rest : List Lexeme} :
    Rule.atom.run (⟨.lparen, c⟩ :: r) = .ok (e, rest) ↔
      ∃ c', Rule.sum.run r = .ok (e, ⟨.rparen, c'⟩ :: rest) := by
  rw [Rule.run, atom]
  split
  · next e' c' r' h inner => simp [Rule.run, inner]
  · next result unclosed inner =>
    obtain ⟨e', ⟨r', h⟩⟩ := result
    simp only [Rule.run, forget_error, reduceCtorEq, inner, forget_ok, Except.ok.injEq,
      Prod.mk.injEq, false_iff, not_exists, not_and]
    rintro c' rfl rfl
    exact unclosed e' c' rest h rfl
  · next err inner => simp [Rule.run, inner]

theorem atom_negate_ok {c : Nat} {r : List Lexeme} {e : Expr} {rest : List Lexeme} :
    Rule.atom.run (⟨.negate, c⟩ :: r) = .ok (e, rest) ↔
      ∃ a, e = .neg a ∧ Rule.atom.run r = .ok (a, rest) := by
  rw [Rule.run, atom]
  split
  · next a r' h inner =>
    simp only [Rule.run, inner, forget_ok, Except.ok.injEq, Prod.mk.injEq]
    constructor
    · rintro ⟨rfl, rfl⟩
      exact ⟨a, rfl, rfl, rfl⟩
    · rintro ⟨a', rfl, rfl, rfl⟩
      exact ⟨rfl, rfl⟩
  · next err inner => simp [Rule.run, inner]

@[simp]
theorem atom_number (value : Float) (c : Nat) (r : List Lexeme) :
    Rule.atom.run (⟨.number value, c⟩ :: r) = .ok (.num value, r) := by
  simp [Rule.run, atom]

theorem atom_ok_cases {ls : List Lexeme} {e : Expr} {rest : List Lexeme}
    (h : Rule.atom.run ls = .ok (e, rest)) :
    (∃ c r c', ls = ⟨.lparen, c⟩ :: r ∧ Rule.sum.run r = .ok (e, ⟨.rparen, c'⟩ :: rest)) ∨
    (∃ c r a, ls = ⟨.negate, c⟩ :: r ∧ e = .neg a ∧ Rule.atom.run r = .ok (a, rest)) ∨
    (∃ c v, ls = ⟨.number v, c⟩ :: rest ∧ e = .num v) := by
  match ls, h with
  | ⟨.lparen, c⟩ :: r, h =>
    obtain ⟨c', inner⟩ := atom_lparen_ok.mp h
    exact .inl ⟨c, r, c', rfl, inner⟩
  | ⟨.negate, c⟩ :: r, h =>
    obtain ⟨a, rfl, inner⟩ := atom_negate_ok.mp h
    exact .inr (.inl ⟨c, r, a, rfl, rfl, inner⟩)
  | ⟨.number v, c⟩ :: r, h =>
    simp only [atom_number, Except.ok.injEq, Prod.mk.injEq] at h
    obtain ⟨rfl, rfl⟩ := h
    exact .inr (.inr ⟨c, v, rfl, rfl⟩)
  | [], h | ⟨.name _, _⟩ :: _, h | ⟨.plus, _⟩ :: _, h | ⟨.minus, _⟩ :: _, h
  | ⟨.star, _⟩ :: _, h | ⟨.slash, _⟩ :: _, h | ⟨.caret, _⟩ :: _, h
  | ⟨.rparen, _⟩ :: _, h => simp [Rule.run, atom] at h

theorem power_caret {ls : List Lexeme} {a b : Expr} {c : Nat} {r rest : List Lexeme}
    (base : Rule.atom.run ls = .ok (a, ⟨.caret, c⟩ :: r))
    (exponent : Rule.power.run r = .ok (b, rest)) :
    Rule.power.run ls = .ok (.binary .pow a b, rest) := by
  unfold Rule.run at base exponent
  obtain ⟨h, base⟩ := forget_eq_ok.mp base
  obtain ⟨h', exponent⟩ := forget_eq_ok.mp exponent
  rw [Rule.run, power, base]
  simp [exponent]

theorem power_stop {ls : List Lexeme} {a : Expr} {rest : List Lexeme}
    (base : Rule.atom.run ls = .ok (a, rest)) (stops : Rule.power.stopsBefore rest) :
    Rule.power.run ls = .ok (a, rest) := by
  unfold Rule.run at base
  obtain ⟨h, base⟩ := forget_eq_ok.mp base
  rw [Rule.run, power, base]
  match rest, h, stops with
  | [], _, _ => rfl
  | ⟨t, c⟩ :: r, _, stops =>
    cases t
    case caret => simp [Rule.continuedBy] at stops
    all_goals rfl

theorem power_ok_cases {ls : List Lexeme} {e : Expr} {rest : List Lexeme}
    (h : Rule.power.run ls = .ok (e, rest)) :
    ∃ a r, Rule.atom.run ls = .ok (a, r) ∧ r.length < ls.length ∧
      ((∃ c r' b, r = ⟨.caret, c⟩ :: r' ∧ e = .binary .pow a b ∧
          Rule.power.run r' = .ok (b, rest)) ∨
        (e = a ∧ rest = r ∧ Rule.power.stopsBefore r)) := by
  rw [Rule.run, power] at h
  split at h
  · next a c r hr base =>
    split at h
    · next b r' h' exponent =>
      simp only [forget_ok, Except.ok.injEq, Prod.mk.injEq] at h
      obtain ⟨rfl, rfl⟩ := h
      exact ⟨a, _, by simp [Rule.run, base], hr, .inl ⟨c, r, b, rfl, rfl, by simp [Rule.run, exponent]⟩⟩
    · simp at h
  · next parsed no_caret base =>
    obtain ⟨a, ⟨r, hr⟩⟩ := parsed
    simp only [forget_ok, Except.ok.injEq, Prod.mk.injEq] at h
    obtain ⟨rfl, rfl⟩ := h
    have stops : Rule.power.stopsBefore r := by
      cases r with
      | nil => simp
      | cons l r' =>
        obtain ⟨t, c⟩ := l
        cases t
        case caret => exact (no_caret a c r' hr rfl).elim
        all_goals simp [Rule.continuedBy]
    exact ⟨a, r, by simp [Rule.run, base], hr, .inr ⟨rfl, rfl, stops⟩⟩
  · simp at h

@[simp]
theorem productLoop_nil (acc : Expr) : productLoop acc [] = .ok (acc, []) := by
  simp [productLoop, productRest]

theorem productLoop_stop {acc : Expr} {l : Lexeme} {r : List Lexeme}
    (none : l.token.productOp? = none) :
    productLoop acc (l :: r) = .ok (acc, l :: r) := by
  simp [productLoop, productRest, none]

theorem productLoop_step {acc a e : Expr} {l : Lexeme} {op : Op} {r r' rest : List Lexeme}
    (some : l.token.productOp? = some op) (operand : Rule.power.run r = .ok (a, r'))
    (more : productLoop (.binary op acc a) r' = .ok (e, rest)) :
    productLoop acc (l :: r) = .ok (e, rest) := by
  unfold Rule.run at operand
  rw [productLoop] at more ⊢
  obtain ⟨h, operand⟩ := forget_eq_ok.mp operand
  obtain ⟨h', more⟩ := forget_eq_ok.mp more
  simp [productRest, some, operand, more]

theorem productLoop_ok_cases {acc e : Expr} {ls rest : List Lexeme}
    (h : productLoop acc ls = .ok (e, rest)) :
    (∃ l r op a r', ls = l :: r ∧ l.token.productOp? = some op ∧
      Rule.power.run r = .ok (a, r') ∧ r'.length < r.length ∧
      productLoop (.binary op acc a) r' = .ok (e, rest)) ∨
    (e = acc ∧ rest = ls ∧ ∀ l ∈ ls.head?, l.token.productOp? = none) := by
  match ls with
  | [] =>
    simp only [productLoop_nil, Except.ok.injEq, Prod.mk.injEq] at h
    exact .inr ⟨h.1.symm, h.2.symm, by simp⟩
  | l :: r =>
    rw [productLoop, productRest] at h
    split at h
    · next op some =>
      split at h
      · next a r' h' operand =>
        split at h
        · next e' r'' h'' more =>
          simp only [forget_ok, Except.ok.injEq, Prod.mk.injEq] at h
          obtain ⟨rfl, rfl⟩ := h
          exact .inl ⟨l, r, op, a, r', rfl, some, by simp [Rule.run, operand], h', by simp [productLoop, more]⟩
        · simp at h
      · simp at h
    · next none =>
      simp only [forget_ok, Except.ok.injEq, Prod.mk.injEq] at h
      exact .inr ⟨h.1.symm, h.2.symm, by simpa using none⟩

theorem product_of {ls : List Lexeme} {a e : Expr} {r rest : List Lexeme}
    (first : Rule.power.run ls = .ok (a, r)) (more : productLoop a r = .ok (e, rest)) :
    Rule.product.run ls = .ok (e, rest) := by
  unfold Rule.run at first ⊢
  rw [productLoop] at more
  obtain ⟨h, first⟩ := forget_eq_ok.mp first
  obtain ⟨h', more⟩ := forget_eq_ok.mp more
  simp [product, first, more]

theorem product_ok_cases {ls : List Lexeme} {e : Expr} {rest : List Lexeme}
    (h : Rule.product.run ls = .ok (e, rest)) :
    ∃ a r, Rule.power.run ls = .ok (a, r) ∧ r.length < ls.length ∧
      productLoop a r = .ok (e, rest) := by
  rw [Rule.run, product] at h
  split at h
  · next a r hr first =>
    split at h
    · next e' r' h' more =>
      simp only [forget_ok, Except.ok.injEq, Prod.mk.injEq] at h
      obtain ⟨rfl, rfl⟩ := h
      exact ⟨a, r, by simp [Rule.run, first], hr, by simp [productLoop, more]⟩
    · simp at h
  · simp at h

@[simp]
theorem sumLoop_nil (acc : Expr) : sumLoop acc [] = .ok (acc, []) := by
  simp [sumLoop, sumRest]

theorem sumLoop_stop {acc : Expr} {l : Lexeme} {r : List Lexeme}
    (none : l.token.sumOp? = none) :
    sumLoop acc (l :: r) = .ok (acc, l :: r) := by
  simp [sumLoop, sumRest, none]

theorem sumLoop_step {acc a e : Expr} {l : Lexeme} {op : Op} {r r' rest : List Lexeme}
    (some : l.token.sumOp? = some op) (operand : Rule.product.run r = .ok (a, r'))
    (more : sumLoop (.binary op acc a) r' = .ok (e, rest)) :
    sumLoop acc (l :: r) = .ok (e, rest) := by
  unfold Rule.run at operand
  rw [sumLoop] at more ⊢
  obtain ⟨h, operand⟩ := forget_eq_ok.mp operand
  obtain ⟨h', more⟩ := forget_eq_ok.mp more
  simp [sumRest, some, operand, more]

theorem sumLoop_ok_cases {acc e : Expr} {ls rest : List Lexeme}
    (h : sumLoop acc ls = .ok (e, rest)) :
    (∃ l r op a r', ls = l :: r ∧ l.token.sumOp? = some op ∧
      Rule.product.run r = .ok (a, r') ∧ r'.length < r.length ∧
      sumLoop (.binary op acc a) r' = .ok (e, rest)) ∨
    (e = acc ∧ rest = ls ∧ ∀ l ∈ ls.head?, l.token.sumOp? = none) := by
  match ls with
  | [] =>
    simp only [sumLoop_nil, Except.ok.injEq, Prod.mk.injEq] at h
    exact .inr ⟨h.1.symm, h.2.symm, by simp⟩
  | l :: r =>
    rw [sumLoop, sumRest] at h
    split at h
    · next op some =>
      split at h
      · next a r' h' operand =>
        split at h
        · next e' r'' h'' more =>
          simp only [forget_ok, Except.ok.injEq, Prod.mk.injEq] at h
          obtain ⟨rfl, rfl⟩ := h
          exact .inl ⟨l, r, op, a, r', rfl, some, by simp [Rule.run, operand], h', by simp [sumLoop, more]⟩
        · simp at h
      · simp at h
    · next none =>
      simp only [forget_ok, Except.ok.injEq, Prod.mk.injEq] at h
      exact .inr ⟨h.1.symm, h.2.symm, by simpa using none⟩

theorem sum_of {ls : List Lexeme} {a e : Expr} {r rest : List Lexeme}
    (first : Rule.product.run ls = .ok (a, r)) (more : sumLoop a r = .ok (e, rest)) :
    Rule.sum.run ls = .ok (e, rest) := by
  unfold Rule.run at first ⊢
  rw [sumLoop] at more
  obtain ⟨h, first⟩ := forget_eq_ok.mp first
  obtain ⟨h', more⟩ := forget_eq_ok.mp more
  simp [sum, first, more]

theorem sum_ok_cases {ls : List Lexeme} {e : Expr} {rest : List Lexeme}
    (h : Rule.sum.run ls = .ok (e, rest)) :
    ∃ a r, Rule.product.run ls = .ok (a, r) ∧ r.length < ls.length ∧
      sumLoop a r = .ok (e, rest) := by
  rw [Rule.run, sum] at h
  split at h
  · next a r hr first =>
    split at h
    · next e' r' h' more =>
      simp only [forget_ok, Except.ok.injEq, Prod.mk.injEq] at h
      obtain ⟨rfl, rfl⟩ := h
      exact ⟨a, r, by simp [Rule.run, first], hr, by simp [sumLoop, more]⟩
    · simp at h
  · simp at h

theorem parse_ok_iff {ls : List Lexeme} {e : Expr} :
    parse ls = .ok e ↔ Rule.sum.run ls = .ok (e, []) := by
  rw [parse]
  split
  · next e' h whole => simp [Rule.run, whole]
  · next e' l r h whole => simp [Rule.run, whole]
  · next err whole => simp [Rule.run, whole]

/-! ## Completeness: the lexemes of every derivation are parsed to its tree -/

theorem Rule.continuedBy_rparen (r : Rule) : r.continuedBy .rparen = false := by
  cases r <;> rfl

theorem Rule.power_not_continued_of_productOp {t : Token} {op : Op}
    (h : t.productOp? = some op) : Rule.power.continuedBy t = false := by
  cases t <;> simp_all [Rule.continuedBy, Token.productOp?]

theorem Rule.product_not_continued_of_sumOp {t : Token} {op : Op}
    (h : t.sumOp? = some op) : Rule.product.continuedBy t = false := by
  cases t <;> simp_all [Rule.continuedBy, Token.productOp?, Token.sumOp?]

theorem Rule.stopsBefore.power_of_product {rest : List Lexeme}
    (h : Rule.product.stopsBefore rest) : Rule.power.stopsBefore rest := by
  match rest, h with
  | [], _ => simp
  | l :: _, h =>
    simp only [Rule.stopsBefore_cons, Rule.continuedBy, Bool.or_eq_false_iff] at h ⊢
    exact h.1

theorem productLoop_of_stops {acc : Expr} {rest : List Lexeme}
    (h : Rule.product.stopsBefore rest) : productLoop acc rest = .ok (acc, rest) := by
  match rest, h with
  | [], _ => simp
  | l :: _, h =>
    simp only [Rule.stopsBefore_cons, Rule.continuedBy, Bool.or_eq_false_iff,
      Option.isSome_eq_false_iff, Option.isNone_iff_eq_none] at h
    exact productLoop_stop h.2

/-- What the parser does on the lexemes `ls` of a derivation from `r` with tree `e`, followed by
`rest`: an atom and a power return their tree, while a product and a sum hand it to the loop
that reads further operands, whatever that loop then returns. -/
def Completes : Rule → List Lexeme → Expr → List Lexeme → Prop
  | .atom, ls, e, rest => Rule.atom.run (ls ++ rest) = .ok (e, rest)
  | .power, ls, e, rest =>
    Rule.power.stopsBefore rest → Rule.power.run (ls ++ rest) = .ok (e, rest)
  | .product, ls, e, rest => Rule.power.stopsBefore rest → ∀ e' rest',
    productLoop e rest = .ok (e', rest') → Rule.product.run (ls ++ rest) = .ok (e', rest')
  | .sum, ls, e, rest => Rule.product.stopsBefore rest → ∀ e' rest',
    sumLoop e rest = .ok (e', rest') → Rule.sum.run (ls ++ rest) = .ok (e', rest')

theorem completes_of_derives {r : Rule} {ts : List Token} {e : Expr} (d : Derives r ts e) :
    ∀ ls rest, ls.map Lexeme.token = ts → Completes r ls e rest := by
  induction d with
  | group _ ih =>
    intro ls rest tokens
    obtain ⟨⟨t, c⟩, ls', rfl, rfl, after_open⟩ := List.map_eq_cons_iff.mp tokens
    obtain ⟨inner, close, rfl, inner_tokens, close_tokens⟩ := List.map_eq_append_iff.mp after_open
    obtain ⟨⟨t', c'⟩, rfl, rfl⟩ := List.map_eq_singleton_iff.mp close_tokens
    have stops : Rule.product.stopsBefore (⟨.rparen, c'⟩ :: rest) := by
      simp [Rule.continuedBy_rparen]
    have closed := ih inner (⟨.rparen, c'⟩ :: rest) inner_tokens stops _ _ (sumLoop_stop rfl)
    simp only [Completes, List.cons_append, List.append_assoc]
    exact atom_lparen_ok.mpr ⟨c', closed⟩
  | negate _ ih =>
    intro ls rest tokens
    obtain ⟨⟨t, c⟩, ls', rfl, rfl, operand_tokens⟩ := List.map_eq_cons_iff.mp tokens
    exact atom_negate_ok.mpr ⟨_, rfl, ih ls' rest operand_tokens⟩
  | number value =>
    intro ls rest tokens
    obtain ⟨⟨t, c⟩, rfl, rfl⟩ := List.map_eq_singleton_iff.mp tokens
    simp [Completes]
  | powerOfAtom _ ih =>
    intro ls rest tokens stops
    exact power_stop (ih ls rest tokens) stops
  | powerStep _ _ ih_base ih_exponent =>
    intro ls rest tokens stops
    obtain ⟨base, more, rfl, base_tokens, more_tokens⟩ := List.map_eq_append_iff.mp tokens
    obtain ⟨⟨t, c⟩, exponent, rfl, rfl, exponent_tokens⟩ := List.map_eq_cons_iff.mp more_tokens
    simp only [List.append_assoc, List.cons_append]
    exact power_caret (ih_base base (⟨.caret, c⟩ :: (exponent ++ rest)) base_tokens)
      (ih_exponent exponent rest exponent_tokens stops)
  | productOfPower _ ih =>
    intro ls rest tokens stops e' rest' more
    exact product_of (ih ls rest tokens stops) more
  | productStep _ some _ ih_left ih_right =>
    intro ls rest tokens stops e' rest' more
    obtain ⟨left, more_ls, rfl, left_tokens, more_tokens⟩ := List.map_eq_append_iff.mp tokens
    obtain ⟨⟨t, c⟩, right, rfl, rfl, right_tokens⟩ := List.map_eq_cons_iff.mp more_tokens
    have stops_left : Rule.power.stopsBefore (⟨t, c⟩ :: (right ++ rest)) := by
      simpa using Rule.power_not_continued_of_productOp some
    simp only [List.append_assoc, List.cons_append]
    refine ih_left left _ left_tokens stops_left e' rest' ?_
    exact productLoop_step some (ih_right right rest right_tokens stops) more
  | sumOfProduct _ ih =>
    intro ls rest tokens stops e' rest' more
    exact sum_of (ih ls rest tokens stops.power_of_product _ _ (productLoop_of_stops stops)) more
  | sumStep _ some _ ih_left ih_right =>
    intro ls rest tokens stops e' rest' more
    obtain ⟨left, more_ls, rfl, left_tokens, more_tokens⟩ := List.map_eq_append_iff.mp tokens
    obtain ⟨⟨t, c⟩, right, rfl, rfl, right_tokens⟩ := List.map_eq_cons_iff.mp more_tokens
    have stops_left : Rule.product.stopsBefore (⟨t, c⟩ :: (right ++ rest)) := by
      simpa using Rule.product_not_continued_of_sumOp some
    simp only [List.append_assoc, List.cons_append]
    refine ih_left left _ left_tokens stops_left e' rest' ?_
    have operand := ih_right right rest right_tokens stops.power_of_product _ _
      (productLoop_of_stops stops)
    exact sumLoop_step some operand more

/-- A sentence is parsed to its tree. -/
theorem parse_of_derives {ls : List Lexeme} {e : Expr} (d : Derives .sum (ls.map Lexeme.token) e) :
    parse ls = .ok e := by
  have whole := completes_of_derives d ls [] rfl (by simp) e [] (by simp)
  rw [List.append_nil] at whole
  exact parse_ok_iff.mpr whole

/-! ## Soundness: what the parser returns is the tree of a derivation -/

theorem Rule.atom_stopsBefore (rest : List Lexeme) : Rule.atom.stopsBefore rest := by
  simp [Rule.stopsBefore, Rule.continuedBy]

theorem Rule.product_stopsBefore {ls : List Lexeme} (stops : Rule.power.stopsBefore ls)
    (none : ∀ l ∈ ls.head?, l.token.productOp? = none) : Rule.product.stopsBefore ls := by
  match ls, stops, none with
  | [], _, _ => simp
  | l :: _, stops, none =>
    simp only [Rule.stopsBefore_cons, Rule.continuedBy] at stops ⊢
    simp [stops, none l rfl]

theorem Rule.sum_stopsBefore {ls : List Lexeme} (stops : Rule.product.stopsBefore ls)
    (none : ∀ l ∈ ls.head?, l.token.sumOp? = none) : Rule.sum.stopsBefore ls := by
  match ls, stops, none with
  | [], _, _ => simp
  | l :: _, stops, none =>
    simp only [Rule.stopsBefore_cons, Rule.continuedBy, Bool.or_eq_false_iff] at stops ⊢
    simp [stops, none l rfl]

/-- A run of `r` on `ls` that returns `e` and `rest` took lexemes deriving `e` from `r`, and the
first lexeme of `rest` cannot continue `r`. -/
def Accepts (r : Rule) (ls : List Lexeme) (e : Expr) (rest : List Lexeme) : Prop :=
  ∃ pre, ls = pre ++ rest ∧ Derives r (pre.map Lexeme.token) e ∧ r.stopsBefore rest

/-- Every successful run of `r` on `ls` is accepted. -/
def RunSound (r : Rule) (ls : List Lexeme) : Prop :=
  ∀ e rest, r.run ls = .ok (e, rest) → Accepts r ls e rest

/-- The loop of `r` on `ls`, started after a left operand `acc` derived from `ts` and on lexemes
that cannot continue the operand rule `operand`, extends that derivation by the lexemes it
takes. -/
def LoopSound (r operand : Rule) (loop : Expr → List Lexeme → Except Error (Expr × List Lexeme))
    (ls : List Lexeme) : Prop :=
  ∀ ts acc e rest, Derives r ts acc → operand.stopsBefore ls → loop acc ls = .ok (e, rest) →
    ∃ pre, ls = pre ++ rest ∧ Derives r (ts ++ pre.map Lexeme.token) e ∧ r.stopsBefore rest

/-- Soundness of every parsing function on `ls`. -/
def Sound (ls : List Lexeme) : Prop :=
  (∀ r, RunSound r ls) ∧ LoopSound .product .power productLoop ls ∧
    LoopSound .sum .product sumLoop ls

section Soundness

variable {ls : List Lexeme}
variable (ih : ∀ shorter : List Lexeme, shorter.length < ls.length → Sound shorter)
include ih

theorem atom_sound : RunSound .atom ls := by
  intro e rest h
  rcases atom_ok_cases h with ⟨c, r, c', rfl, inner⟩ | ⟨c, r, a, rfl, rfl, inner⟩ | ⟨c, v, rfl, rfl⟩
  · obtain ⟨pre, rfl, d, -⟩ := (ih r (by simp)).1 .sum _ _ inner
    refine ⟨⟨.lparen, c⟩ :: pre ++ [⟨.rparen, c'⟩], by simp, ?_, Rule.atom_stopsBefore rest⟩
    simpa using d.group
  · obtain ⟨pre, rfl, d, -⟩ := (ih r (by simp)).1 .atom _ _ inner
    exact ⟨⟨.negate, c⟩ :: pre, by simp, by simpa using d.negate, Rule.atom_stopsBefore rest⟩
  · exact ⟨[⟨.number v, c⟩], by simp, .number v, Rule.atom_stopsBefore rest⟩

theorem power_sound : RunSound .power ls := by
  intro e rest h
  obtain ⟨a, r, base, shorter, caret | stop⟩ := power_ok_cases h
  · obtain ⟨c, r', b, rfl, rfl, exponent⟩ := caret
    have shorter' : r'.length < ls.length := by simp at shorter; omega
    obtain ⟨pre, rfl, d, -⟩ := atom_sound ih a _ base
    obtain ⟨pre', rfl, d', stops⟩ := (ih r' shorter').1 .power _ _ exponent
    refine ⟨pre ++ ⟨.caret, c⟩ :: pre', by simp, ?_, stops⟩
    simpa using d.powerStep d'
  · obtain ⟨rfl, rfl, stops⟩ := stop
    obtain ⟨pre, rfl, d, -⟩ := atom_sound ih e rest base
    exact ⟨pre, rfl, d.powerOfAtom, stops⟩

theorem productLoop_sound : LoopSound .product .power productLoop ls := by
  intro ts acc e rest left stops h
  rcases productLoop_ok_cases h with ⟨l, r, op, b, r', rfl, some, operand, shorter, more⟩ |
    ⟨rfl, rfl, none⟩
  · obtain ⟨pre, rfl, right, stops'⟩ := (ih r (by simp)).1 .power _ _ operand
    have step := left.productStep some right
    have shorter' : r'.length < (l :: (pre ++ r')).length := by
      simp only [List.length_cons, List.length_append]
      omega
    obtain ⟨pre', rfl, whole, stops''⟩ := (ih r' shorter').2.1 _ _ _ _ step stops' more
    exact ⟨l :: pre ++ pre', by simp, by simpa using whole, stops''⟩
  · exact ⟨[], by simp, by simpa using left, Rule.product_stopsBefore stops none⟩

theorem product_sound : RunSound .product ls := by
  intro e rest h
  obtain ⟨a, r, first, shorter, more⟩ := product_ok_cases h
  obtain ⟨pre, rfl, d, stops⟩ := power_sound ih a r first
  obtain ⟨pre', rfl, whole, stops'⟩ := (ih _ shorter).2.1 _ _ _ _ d.productOfPower stops more
  exact ⟨pre ++ pre', by simp, by simpa using whole, stops'⟩

theorem sumLoop_sound : LoopSound .sum .product sumLoop ls := by
  intro ts acc e rest left stops h
  rcases sumLoop_ok_cases h with ⟨l, r, op, b, r', rfl, some, operand, shorter, more⟩ |
    ⟨rfl, rfl, none⟩
  · obtain ⟨pre, rfl, right, stops'⟩ := (ih r (by simp)).1 .product _ _ operand
    have step := left.sumStep some right
    have shorter' : r'.length < (l :: (pre ++ r')).length := by
      simp only [List.length_cons, List.length_append]
      omega
    obtain ⟨pre', rfl, whole, stops''⟩ := (ih r' shorter').2.2 _ _ _ _ step stops' more
    exact ⟨l :: pre ++ pre', by simp, by simpa using whole, stops''⟩
  · exact ⟨[], by simp, by simpa using left, Rule.sum_stopsBefore stops none⟩

theorem sum_sound : RunSound .sum ls := by
  intro e rest h
  obtain ⟨a, r, first, shorter, more⟩ := sum_ok_cases h
  obtain ⟨pre, rfl, d, stops⟩ := product_sound ih a r first
  obtain ⟨pre', rfl, whole, stops'⟩ := (ih _ shorter).2.2 _ _ _ _ d.sumOfProduct stops more
  exact ⟨pre ++ pre', by simp, by simpa using whole, stops'⟩

end Soundness

/-- Every parsing function is sound, by strong induction on the number of lexemes: each function
calls the others on fewer lexemes, or on as many but at a tighter rule. -/
theorem sound (ls : List Lexeme) : Sound ls :=
  have ih : ∀ shorter : List Lexeme, shorter.length < ls.length → Sound shorter :=
    fun shorter _ => sound shorter
  ⟨fun
    | .atom => atom_sound ih
    | .power => power_sound ih
    | .product => product_sound ih
    | .sum => sum_sound ih,
    productLoop_sound ih, sumLoop_sound ih⟩
termination_by ls.length

/-- What the parser returns is the tree of a derivation of the whole token list. -/
theorem derives_of_parse {ls : List Lexeme} {e : Expr} (h : parse ls = .ok e) :
    Derives .sum (ls.map Lexeme.token) e := by
  obtain ⟨pre, rfl, d, -⟩ := (sound ls).1 .sum e [] (parse_ok_iff.mp h)
  simpa using d

/-- The grammar is unambiguous: a token list has at most one tree. -/
theorem Derives.unique {ts : List Token} {e e' : Expr} (d : Derives .sum ts e)
    (d' : Derives .sum ts e') : e = e' := by
  let ls : List Lexeme := ts.map fun t => ⟨t, 0⟩
  have tokens : ls.map Lexeme.token = ts := by simp [ls, Function.comp_def]
  have parsed := parse_of_derives (tokens ▸ d)
  rw [parse_of_derives (tokens ▸ d')] at parsed
  exact (Except.ok.inj parsed).symm

/-! ## Writing trees with the fewest parentheses -/

/-- The position of a rule from the tightest. -/
def Rule.rank : Rule → Nat
  | .atom => 0
  | .power => 1
  | .product => 2
  | .sum => 3

/-- A derivation from a rule is one from every looser rule. -/
theorem Derives.lift {r r' : Rule} {ts : List Token} {e : Expr} (d : Derives r ts e)
    (h : r.rank ≤ r'.rank) : Derives r' ts e :=
  match r, r', d with
  | .atom, .atom, d => d
  | .atom, .power, d => d.powerOfAtom
  | .atom, .product, d => d.powerOfAtom.productOfPower
  | .atom, .sum, d => d.powerOfAtom.productOfPower.sumOfProduct
  | .power, .power, d => d
  | .power, .product, d => d.productOfPower
  | .power, .sum, d => d.productOfPower.sumOfProduct
  | .product, .product, d => d
  | .product, .sum, d => d.sumOfProduct
  | .sum, .sum, d => d
  | .power, .atom, _ | .product, .atom, _ | .product, .power, _ | .sum, .atom, _
  | .sum, .power, _ | .sum, .product, _ => absurd h (by simp [Rule.rank])

/-- The tightest rule that derives a tree without parentheses around it. -/
def Expr.rule : Expr → Rule
  | .num _ | .neg _ => .atom
  | .binary .pow _ _ => .power
  | .binary .mul _ _ | .binary .div _ _ => .product
  | .binary .add _ _ | .binary .sub _ _ => .sum

/-- The token of an operation. -/
def Op.token : Op → Token
  | .add => .plus
  | .sub => .minus
  | .mul => .star
  | .div => .slash
  | .pow => .caret

/-- The rules of the two operands of an operation: `^` takes an atom and a power, `*` and `/` a
product and a power, `+` and `-` a sum and a product. -/
def Op.operandRules : Op → Rule × Rule
  | .pow => (.atom, .power)
  | .mul | .div => (.product, .power)
  | .add | .sub => (.sum, .product)

/-- The tokens `ts` of a tree derived from `inner`, put in parentheses unless `outer` derives
them as they are. -/
def enclose (inner outer : Rule) (ts : List Token) : List Token :=
  if inner.rank ≤ outer.rank then ts else .lparen :: ts ++ [.rparen]

/-- The tokens of a tree, with parentheses exactly around the operands that the rule of their
position does not derive without them. -/
def Expr.tokens : Expr → List Token
  | .num value => [.number value]
  | .neg a => .negate :: enclose a.rule .atom a.tokens
  | .binary op a b =>
    enclose a.rule op.operandRules.1 a.tokens ++ op.token :: enclose b.rule op.operandRules.2 b.tokens

theorem Derives.enclose {inner outer : Rule} {ts : List Token} {e : Expr}
    (d : Derives inner ts e) : Derives outer (enclose inner outer ts) e := by
  unfold Syntax.enclose
  split
  · next fits => exact d.lift fits
  · have whole : Derives .sum ts e := d.lift (by cases inner <;> simp [Rule.rank])
    exact whole.group.lift (by simp [Rule.rank])

theorem derives_tokens (t : Expr) : Derives t.rule t.tokens t := by
  induction t with
  | num value => exact .number value
  | neg a ih => exact ih.enclose.negate
  | binary op a b iha ihb =>
    cases op
    case pow => exact iha.enclose.powerStep ihb.enclose
    case mul | div => exact iha.enclose.productStep rfl ihb.enclose
    case add | sub => exact iha.enclose.sumStep rfl ihb.enclose

/-- The parser reads exactly the sentences of the grammar: it succeeds on a list of lexemes when
their tokens derive from `sum`, and then returns the one tree they derive. A tree written with
the fewest parentheses is read back as itself. -/
theorem parse_eq_ok_iff_sentence :
    (∀ (ls : List Lexeme) (e : Expr), parse ls = .ok e ↔
      Derives .sum (ls.map Lexeme.token) e ∧
        ∀ e', Derives .sum (ls.map Lexeme.token) e' → e' = e) ∧
    ∀ (t : Expr) (ls : List Lexeme), ls.map Lexeme.token = t.tokens → parse ls = .ok t := by
  refine ⟨fun ls e => ⟨fun h => ?_, fun ⟨d, _⟩ => parse_of_derives d⟩, fun t ls h => ?_⟩
  · have d := derives_of_parse h
    exact ⟨d, fun e' d' => d'.unique d⟩
  · have d : Derives .sum t.tokens t := (derives_tokens t).lift (by cases t.rule <;> simp [Rule.rank])
    exact parse_of_derives (h ▸ d)

end Abacus.Syntax
