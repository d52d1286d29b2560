import Abacus.Session.Evaluator
import Abacus.Proofs.Environment

/-!
# What an evaluation reads of its environment

The substitution pass looks up exactly the names it finds in the expression: the maximal runs of
an ASCII letter followed by ASCII letters, digits and underscores that do not follow a letter, a
digit, `_` or `.`. Evaluation therefore depends on the environment only through the values of
those names (`evaluate_congr`).

An expression *waits for its names* when every environment that leaves one of them without a
value finds it pending. For such an expression, binding more names never changes an evaluation
that has resolved or failed (`evaluate_of_extends`): it had all its names already, and the new
bindings are of other names.
-/
namespace Abacus.Session

open Text

/-- The names that the substitution pass finds in `cs`, after the character `previous`. -/
def namesFrom (previous : Option Char) : List Char → List String
  | [] => []
  | c :: rest =>
    if c.isAlpha && !previous.any continuesLiteral then
      let name := c :: rest.takeWhile isNameChar
      String.ofList name :: namesFrom name.getLast? (rest.dropWhile isNameChar)
    else namesFrom (some c) rest
termination_by cs => cs.length
decreasing_by
  all_goals
    have := length_dropWhile_le isNameChar rest
    simp only [List.length_cons]
    omega

/-- The names an expression mentions, as the substitution pass finds them after the terminator
pass. -/
def mentions (expression : String) : List String :=
  namesFrom none (stripTerminator expression).toList

namespace Environment

/-- `env'` gives every name that has a value in `env` the same value. -/
def Extends (env env' : Environment) : Prop :=
  ∀ n x, env.resolved? n = some x → env'.resolved? n = some x

theorem Extends.refl (env : Environment) : env.Extends env := fun _ _ h => h

theorem substituteFrom_congr {env env' : Environment} {previous : Option Char}
    {out cs : List Char}
    (same : ∀ n ∈ namesFrom previous cs, env.resolved? n = env'.resolved? n) :
    substituteFrom env previous out cs = substituteFrom env' previous out cs := by
  fun_induction substituteFrom env previous out cs with
  | case1 previous out => simp [substituteFrom]
  | case2 previous out c rest starts name out' ih =>
    have head : env.resolved? (String.ofList name) = env'.resolved? (String.ofList name) := by
      apply same
      rw [namesFrom, if_pos starts]
      exact List.mem_cons_self
    have tail : ∀ n ∈ namesFrom name.getLast? (rest.dropWhile isNameChar),
        env.resolved? n = env'.resolved? n := by
      intro n mem
      apply same
      rw [namesFrom, if_pos starts]
      exact List.mem_cons_of_mem _ mem
    rw [substituteFrom, if_pos starts]
    simp only [out', head] at ih ⊢
    exact ih tail
  | case3 previous out c rest other ih =>
    rw [substituteFrom, if_neg other]
    apply ih
    intro n mem
    apply same
    rw [namesFrom, if_neg other]
    exact mem

/-- Evaluation reads only the values of the names the expression mentions. -/
theorem evaluate_congr {env env' : Environment} {e : String}
    (same : ∀ n ∈ mentions e, env.resolved? n = env'.resolved? n) :
    env.evaluate e = env'.evaluate e := by
  have substituted : substitute env (stripTerminator e) = substitute env' (stripTerminator e) := by
    unfold substitute
    rw [substituteFrom_congr same]
  simp only [evaluate, attempt, substituted]

end Environment

/-- An expression waits for its names: wherever one of them has no value, it is pending. -/
def WaitsForNames (expression : String) : Prop :=
  ∀ env : Environment, (∃ n ∈ mentions expression, env.resolved? n = none) →
    ∃ missing, env.evaluate expression = .pending missing

namespace Environment

/-- For an expression that waits for its names, an evaluation that resolved or failed is the
same in every environment that extends the one it ran in. -/
theorem evaluate_of_extends {env env' : Environment} {e : String} (waits : WaitsForNames e)
    (ext : env.Extends env') (committed : ∀ missing, env.evaluate e ≠ .pending missing) :
    env'.evaluate e = env.evaluate e := by
  have bound : ∀ n ∈ mentions e, ∃ x, env.resolved? n = some x := by
    intro n mem
    cases found : env.resolved? n with
    | some x => exact ⟨x, rfl⟩
    | none =>
      obtain ⟨missing, pending⟩ := waits env ⟨n, mem, found⟩
      exact absurd pending (committed missing)
  refine evaluate_congr fun n mem => ?_
  obtain ⟨x, found⟩ := bound n mem
  rw [found, ext n x found]

theorem evaluate_resolved_of_extends {env env' : Environment} {e : String} {x : Float}
    (waits : WaitsForNames e) (ext : env.Extends env') (value : env.evaluate e = .resolved x) :
    env'.evaluate e = .resolved x := by
  rw [evaluate_of_extends waits ext, value]
  intro missing pending
  rw [value] at pending
  cases pending

theorem evaluate_fatal_of_extends {env env' : Environment} {e : String} {err : Error}
    (waits : WaitsForNames e) (ext : env.Extends env') (fails : env.evaluate e = .fatal err) :
    env'.evaluate e = .fatal err := by
  rw [evaluate_of_extends waits ext, fails]
  intro missing pending
  rw [fails] at pending
  cases pending

end Environment

end Abacus.Session
