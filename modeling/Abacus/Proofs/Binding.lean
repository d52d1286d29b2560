import Abacus.Proofs.Resolution
import Abacus.Proofs.Echo

/-!
# Binding one more name

Binding a name that has no value leaves every other name its value, so an expression that waits
for its names keeps an evaluation that has resolved or failed: the evaluation read only names
that had values, and they keep them. Binding one more name can only turn a pending evaluation
into a resolved or a failed one (`evaluate_bind_of_waitsForNames`).

An evaluation waits for the first name that the lexer finds in the expanded text
(`Environment.evaluate_eq_pending`), so the lone name `A`, which no literal absorbs, waits for
itself.
-/
namespace Abacus.Session

open Syntax Environment

/-- An evaluation whose expanded text passes the character check and lexes to tokens with a name
among them waits for the first such name. -/
theorem Environment.evaluate_eq_pending {env : Environment} {e expanded missing : String}
    {tokens : List Lexeme}
    (expands : Numeral.expandLiterals (substitute env (stripTerminator e)) = .ok expanded)
    (checked : checkCharacters expanded = .ok ()) (lexes : tokenize expanded = .ok tokens)
    (named : firstName? tokens = some missing) : env.evaluate e = .pending missing := by
  simp only [Environment.evaluate, Environment.attempt, expands, checked, lexes, named, Bind.bind,
    Except.bind, Pure.pure, Except.pure]

/-- Binding a name that has no value leaves every other name its value. -/
theorem Environment.extends_bind {env : Environment} {n : String}
    (unvalued : env.resolved? n = none) (b : Binding) : env.Extends (env.bind n b) :=
  extends_of_frame unvalued fun _ other => get?_bind_of_ne env b other

/-- For an expression that waits for its names, binding a name that has no value to a value keeps
an evaluation that has resolved, with the same value, and one that has failed, with the same
error: it can only turn a pending evaluation into a resolved or a failed one. -/
theorem evaluate_bind_of_waitsForNames {env : Environment} {e n : String}
    (waits : WaitsForNames e) (unvalued : env.resolved? n = none) (x : Float) :
    (∀ v, env.evaluate e = .resolved v → (env.bind n (.resolved x)).evaluate e = .resolved v) ∧
      ∀ err, env.evaluate e = .fatal err → (env.bind n (.resolved x)).evaluate e = .fatal err :=
  ⟨fun _ value => evaluate_resolved_of_extends waits (extends_bind unvalued _) value,
    fun _ fails => evaluate_fatal_of_extends waits (extends_bind unvalued _) fails⟩

theorem evaluate_bind_of_waitsForNames_other_name :
    WaitsForNames "A" ∧ (Environment.empty.bind "A" (.resolved 2)).resolved? "B" = none ∧
      (∀ v, (Environment.empty.bind "A" (.resolved 2)).evaluate "A" = .resolved v →
        ((Environment.empty.bind "A" (.resolved 2)).bind "B" (.resolved 3)).evaluate "A" =
          .resolved v) ∧
      ∀ err, (Environment.empty.bind "A" (.resolved 2)).evaluate "A" = .fatal err →
        ((Environment.empty.bind "A" (.resolved 2)).bind "B" (.resolved 3)).evaluate "A" =
          .fatal err := by
  have names : mentions "A" = ["A"] := by decide +kernel
  -- with no value for `A`, the text `A` reaches the lexer as it is and lexes to the name `A`
  have waits : WaitsForNames "A" := by
    rintro env ⟨n, mem, unvalued⟩
    rw [names, List.mem_singleton] at mem
    subst mem
    have same : env.evaluate "A" = Environment.empty.evaluate "A" := by
      refine evaluate_congr fun m mem => ?_
      rw [names, List.mem_singleton] at mem
      subst mem
      rw [unvalued]
      rfl
    obtain ⟨tokens, lexes, named⟩ :
        ∃ tokens, tokenize "A" = .ok tokens ∧ firstName? tokens = some "A" := by
      have found : (tokenize "A").toOption.map firstName? = some (some "A") := by decide +kernel
      revert found
      cases tokenize "A" with
      | error err => simp [Except.toOption]
      | ok tokens => simp [Except.toOption]
    exact ⟨"A", same.trans (Environment.evaluate_eq_pending
      (eq_ok_of_toOption_eq_some (by decide +kernel))
      (eq_ok_of_toOption_eq_some (by decide +kernel)) lexes named)⟩
  have unvalued : (Environment.empty.bind "A" (.resolved 2)).resolved? "B" = none := by
    simp [resolved?]
  exact ⟨waits, unvalued, evaluate_bind_of_waitsForNames waits unvalued 3⟩

end Abacus.Session
