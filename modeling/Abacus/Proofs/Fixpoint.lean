import Abacus.Proofs.Echo
import Abacus.Proofs.Session

/-!
# Resolution stops at a fixed point

Resolving the waiting assignments runs passes over them until a pass changes nothing. From an
environment with distinct names, a pass that changes something resolves or drops at least one of
them, so the passes stop within one more than there are waiting assignments, and a larger bound
on the passes gives the same result (`resolvePasses_fuel_stable`). The last pass changed
nothing, so every expression still waiting is pending in the final environment
(`resolvePasses_stuck`).

Along the passes the run keeps an invariant (`Resolves`): a binding that did not wait at the
start is as it was, and each assignment that waited at the start still waits with its expression
and is not reported, or is reported once, resolved with the value it is now bound to or failed
with the assignment as stored and its name dropped.
-/
namespace Abacus.Session

open Environment

/-- A run of passes from `start`, with `report` the report of each name and `outs` the outcomes
so far: the names are distinct, every binding that did not wait at the start is as it was, each
assignment that waited at the start stands as its report says, and the outcomes are the reports
in some order. -/
structure Resolves (start : Environment) (report : String → Option Outcome) (outs : List Outcome)
    (env : Environment) : Prop where
  nodup : env.names.Nodup
  frame : ∀ n, (∀ e, start.get? n ≠ some (.pending e)) → env.get? n = start.get? n
  stands : ∀ n e, (n, e) ∈ start.pending → Stands env s!"{n} = {e}" n e (report n)
  perm : outs.Perm (start.pending.filterMap fun p => report p.1)

/-- How an assignment stands once tried, in the three ways it can: resolved and reported with
its value, dropped and reported failed with the assignment as stored, or still waiting and not
reported. -/
theorem Stands.trichotomy {env : Environment} {n e : String} {slot : Option Outcome}
    (stands : Stands env s!"{n} = {e}" n e slot) :
    (∃ v, slot = some (.assigned n v) ∧ env.get? n = some (.resolved v)) ∨
      (∃ err, slot = some (.failed s!"{n} = {e}" err) ∧ env.get? n = none) ∨
      (slot = none ∧ env.get? n = some (.pending e)) := by
  cases slot with
  | none => exact .inr (.inr ⟨rfl, stands⟩)
  | some o =>
    cases o with
    | assigned m v =>
      obtain ⟨rfl, bound⟩ := stands
      exact .inl ⟨v, rfl, bound⟩
    | failed l err =>
      obtain ⟨unbound, line⟩ := stands
      have same : l = s!"{n} = {e}" := line.elim id id
      exact .inr (.inl ⟨err, by rw [same], unbound⟩)
    | _ => exact stands.elim

section Run

variable {start : Environment} (nodup : start.names.Nodup) {report : String → Option Outcome}
  {outs : List Outcome} {env : Environment}

include nodup

theorem resolves_start : Resolves start (fun _ => none) [] start where
  nodup := nodup
  frame _ _ := rfl
  stands _ _ mem := (mem_pending_iff nodup).mp mem
  perm := by simp

/-- An assignment waiting during the run waited at the start and has no report yet. -/
theorem Resolves.waiting (run : Resolves start report outs env) {n e : String}
    (waiting : env.get? n = some (.pending e)) : (n, e) ∈ start.pending ∧ report n = none := by
  by_cases waited : ∃ e₀, start.get? n = some (.pending e₀)
  · obtain ⟨e₀, waited⟩ := waited
    have mem := (mem_pending_iff nodup).mpr waited
    have stands := run.stands n e₀ mem
    cases slot : report n with
    | none =>
      rw [slot, Stands, waiting, Option.some.injEq, Binding.pending.injEq] at stands
      exact ⟨stands ▸ mem, rfl⟩
    | some o =>
      rw [slot] at stands
      cases o <;> simp_all [Stands, Reports]
  · have same := run.frame n fun e₀ found => waited ⟨e₀, found⟩
    rw [same] at waiting
    exact absurd ⟨e, waiting⟩ waited

/-- Trying a waiting assignment keeps the invariant: it is resolved and reported with its value,
still waits, or is dropped and reported failed with the assignment as stored. -/
theorem Resolves.settle (run : Resolves start report outs env) {n e : String}
    (waiting : env.get? n = some (.pending e)) :
    ∃ report', Resolves start report' (outs ++ env.settleReport n e) (env.settle n e) := by
  obtain ⟨mem, unreported⟩ := run.waiting nodup waiting
  have frame : ∀ m, m ≠ n → (env.settle n e).get? m = env.get? m :=
    fun m other => get?_settle_of_ne other
  -- a report for `n` changes only its slot, and goes after the outcomes so far
  have update : ∀ o, Stands (env.settle n e) s!"{n} = {e}" n e (some o) →
      Resolves start (fun m => if m = n then some o else report m) (outs ++ [o])
        (env.settle n e) := by
    intro o stands
    refine ⟨nodup_names_settle run.nodup n e, fun m never => ?_, fun m e' mem' => ?_, ?_⟩
    · have other : m ≠ n := fun same => never e (same ▸ (mem_pending_iff nodup).mp mem)
      rw [frame m other]
      exact run.frame m never
    · by_cases here : m = n
      · subst here
        -- distinct names: the assignment of `m` at the start is the one tried
        have same : e' = e := by
          have found := (mem_pending_iff nodup).mp mem'
          rw [(mem_pending_iff nodup).mp mem, Option.some.injEq, Binding.pending.injEq] at found
          exact found.symm
        subst same
        simpa using stands
      · simp only [if_neg here]
        exact (run.stands m e' mem').congr (frame m here)
    · exact (run.perm.append_right [o]).trans
        (filterMap_report_perm (nodup_pending_names nodup) unreported ⟨(n, e), mem, rfl⟩ o).symm
  cases value : env.evaluate e with
  | resolved v =>
    have reported : env.settleReport n e = [.assigned n v] := by simp [settleReport, value]
    rw [reported]
    exact ⟨_, update _ (by simp [Stands, Reports, Environment.settle, value])⟩
  | pending missing =>
    have unchanged : env.settle n e = env := by simp [Environment.settle, value]
    have silent : env.settleReport n e = [] := by simp [settleReport, value]
    rw [unchanged, silent, List.append_nil]
    exact ⟨report, run⟩
  | fatal err =>
    have reported : env.settleReport n e = [.failed s!"{n} = {e}" err] := by
      simp [settleReport, value]
    rw [reported]
    exact ⟨_, update _ (by simp [Stands, Reports, Environment.settle, value])⟩

/-- The passes keep the invariant. -/
theorem Resolves.resolvePasses (run : Resolves start report outs env) (k : Nat) :
    ∃ report', Resolves start report' (outs ++ (env.resolvePasses k).1) (env.resolvePasses k).2 :=
  resolvePasses_induction (fun outs env => ∃ report', Resolves start report' outs env)
    (fun ⟨_, run⟩ waiting => run.settle nodup waiting) (fun ⟨_, run⟩ => run.nodup)
    ⟨report, run⟩ k

end Run

/-- Resolving what waits in an evaluator whose names are distinct stops within one pass more than
there are waiting assignments: a larger bound on the passes gives the same result. It binds no
name anew and keeps every value. Each assignment that waited is resolved and reported once with
the value it is bound to, dropped and reported once as failed with the assignment as stored, or
still waits with its expression and is not reported; and every expression still waiting is
pending in the final environment. -/
theorem resolvePending_fixed_point (ev : Evaluator) (nodup : ev.env.names.Nodup) :
    let result := ev.resolvePending
    (∀ k, ev.env.pending.length < k → ev.env.resolvePasses k = ev.env.resolvePending) ∧
      result.2.env.names.Sublist ev.env.names ∧
      (∀ n x, ev.env.get? n = some (.resolved x) → result.2.env.get? n = some (.resolved x)) ∧
      (∃ report : String → Option Outcome,
        result.1.Perm (ev.env.pending.filterMap fun p => report p.1) ∧
        ∀ n e, (n, e) ∈ ev.env.pending →
          (∃ v, report n = some (.assigned n v) ∧ result.2.env.get? n = some (.resolved v)) ∨
          (∃ err, report n = some (.failed s!"{n} = {e}" err) ∧ result.2.env.get? n = none) ∨
          (report n = none ∧ result.2.env.get? n = some (.pending e))) ∧
      Stuck result.2.env := by
  intro result
  have final : result.2.env = ev.env.resolvePending.2 := rfl
  have outcomes : result.1 = ev.env.resolvePending.1 := rfl
  obtain ⟨report, run⟩ := (resolves_start nodup).resolvePasses nodup (ev.env.pending.length + 1)
  rw [List.nil_append, ← Environment.resolvePending, ← outcomes, ← final] at run
  refine ⟨fun k enough => ?_, ?_, fun n x found => ?_, ⟨report, run.perm, ?_⟩, ?_⟩
  · -- every bound beyond the number of waiting assignments gives the same passes
    obtain ⟨extra, rfl⟩ := Nat.exists_eq_add_of_le enough
    exact resolvePasses_fuel_stable nodup (Nat.lt_succ_self _) extra
  · rw [final]
    exact names_resolvePending_sublist nodup
  · rw [run.frame n fun e waited => by rw [found] at waited; cases waited]
    exact found
  · intro n e mem
    exact (run.stands n e mem).trichotomy
  · rw [final]
    exact resolvePasses_stuck nodup (Nat.lt_succ_self _)

theorem resolvePending_fixed_point_chain :
    let ev : Evaluator :=
      ⟨.standard, ⟨[("A", .pending "B + 1"), ("B", .pending "C * 2"), ("C", .resolved 1)]⟩⟩
    let result := ev.resolvePending
    ev.env.names.Nodup ∧
      (∀ k, ev.env.pending.length < k → ev.env.resolvePasses k = ev.env.resolvePending) ∧
      result.2.env.names.Sublist ev.env.names ∧
      (∀ n x, ev.env.get? n = some (.resolved x) → result.2.env.get? n = some (.resolved x)) ∧
      (∃ report : String → Option Outcome,
        result.1.Perm (ev.env.pending.filterMap fun p => report p.1) ∧
        ∀ n e, (n, e) ∈ ev.env.pending →
          (∃ v, report n = some (.assigned n v) ∧ result.2.env.get? n = some (.resolved v)) ∨
          (∃ err, report n = some (.failed s!"{n} = {e}" err) ∧ result.2.env.get? n = none) ∨
          (report n = none ∧ result.2.env.get? n = some (.pending e))) ∧
      Stuck result.2.env := by
  intro ev result
  have nodup : ev.env.names.Nodup := by decide
  exact ⟨nodup, resolvePending_fixed_point ev nodup⟩

end Abacus.Session
