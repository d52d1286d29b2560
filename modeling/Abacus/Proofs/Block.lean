import Abacus.Proofs.Resolution
import Abacus.Proofs.Line

/-!
# The order of a block's assignments

Processing a line changes the environment only when the line is an assignment that passes its
checks, and then as `Environment.assign` says (`processLines_env`). A block whose lines are
assignments of distinct names, each of whose expressions waits for its names, therefore ends in
the same environment in every order of its lines, and both orders succeed, or both fail listing
the same waiting assignments (`processBlock_order_independent`). The expressions must wait for
their names: an expression that fails, or reads a name as part of a literal, while one of its
names has no value commits to an evaluation that the later binding would have changed.
-/
namespace Abacus.Session

open Syntax

/-- The assignment a block carries out for a line: none for a blank line, for a line that fails
its checks or its classification, and for a line of another kind. -/
def carried? (line : String) : Option (String × String) :=
  if Text.isBlankText line then none
  else
    match Evaluator.instruction line with
    | .ok (.assignment name expression) => some (name, expression)
    | _ => none

theorem classify_of_carried? {line : String} {p : String × String} (h : carried? line = some p) :
    Instruction.classify line = .ok (.assignment p.1 p.2) := by
  unfold carried? at h
  split at h
  · cases h
  · split at h
    · next name expression read =>
      cases h
      exact Evaluator.classify_of_instruction read
    · cases h

namespace Evaluator

/-- A line changes the environment only by the assignment it carries out. -/
theorem process_env (ev : Evaluator) (line : String) (blank : Text.isBlankText line = false) :
    (ev.process line).2.env =
      match carried? line with
      | some (name, expression) => ev.env.assign name expression
      | none => ev.env := by
  simp only [carried?, blank, Bool.false_eq_true, if_false]
  cases read : instruction line with
  | error err => rw [process_of_error read]
  | ok instruction =>
    cases instruction with
    | assignment name expression =>
      rw [process_assignment read]
      simp only [Environment.assign]
      cases ev.env.evaluate expression <;> rfl
    | query name => rw [process_snd_of_not_assignment read (by simp)]
    | bareExpression expression => rw [process_snd_of_not_assignment read (by simp)]
    | baseConversion expression base => rw [process_snd_of_not_assignment read (by simp)]

theorem processLines_cons (ev : Evaluator) (line : String) (rest : List String) :
    (ev.processLines (line :: rest)).2 =
      ((if Text.isBlankText line then ev else (ev.process line).2).processLines rest).2 := by
  simp only [processLines, processLine]
  split
  · rfl
  · rcases ev.process line with ⟨_ | _, ev'⟩ <;> rfl

/-- The lines of a block carry out their assignments in order. -/
theorem processLines_env (ev : Evaluator) (lines : List String) :
    (ev.processLines lines).2.env =
      (lines.filterMap carried?).foldl (fun env p => env.assign p.1 p.2) ev.env := by
  induction lines generalizing ev with
  | nil => rfl
  | cons line rest ih =>
    rw [processLines_cons, ih]
    by_cases blank : Text.isBlankText line
    · have skipped : carried? line = none := by simp [carried?, blank]
      rw [if_pos blank, List.filterMap_cons_none skipped]
    · rw [if_neg blank, process_env ev line (by simpa using blank)]
      cases found : carried? line with
      | none => rw [List.filterMap_cons_none found]
      | some p => rw [List.filterMap_cons_some found, List.foldl_cons]

theorem processBlock_env (ev : Evaluator) (lines : List String) :
    (ev.processBlock lines).2.env = (ev.processLines lines).2.env.resolvePending.2 := by
  simp only [processBlock, resolvePending]
  split <;> rfl

/-- A block succeeds when nothing waits at its end, and otherwise fails listing what waits. -/
theorem processBlock_verdict (ev : Evaluator) (lines : List String) :
    ((ev.processBlock lines).2.env.pending = [] ∧
        ∃ outcomes, (ev.processBlock lines).1 = .ok outcomes) ∨
      ((ev.processBlock lines).2.env.pending ≠ [] ∧
        (ev.processBlock lines).1 =
          .error (.unresolvedBlock (ev.processBlock lines).2.env.pending)) := by
  simp only [processBlock]
  split
  · next empty => exact .inl ⟨empty, _, rfl⟩
  · next waiting =>
    exact .inr ⟨waiting, rfl⟩

end Evaluator

/-- Two verdicts of a block agree: both succeed, or both fail listing the same waiting
assignments, perhaps in another order. -/
def SameVerdict : Except Error (List Outcome) → Except Error (List Outcome) → Prop
  | .ok _, .ok _ => True
  | .error (.unresolvedBlock waiting), .error (.unresolvedBlock waiting') => waiting.Perm waiting'
  | _, _ => False

theorem sameVerdict_processBlock (ev ev' : Evaluator) (lines lines' : List String)
    (perm : (ev.processBlock lines).2.env.pending.Perm (ev'.processBlock lines').2.env.pending) :
    SameVerdict (ev.processBlock lines).1 (ev'.processBlock lines').1 := by
  rcases ev.processBlock_verdict lines with ⟨empty, outcomes, ok⟩ | ⟨waiting, failed⟩ <;>
    rcases ev'.processBlock_verdict lines' with
      ⟨empty', outcomes', ok'⟩ | ⟨waiting', failed'⟩
  · rw [ok, ok']
    trivial
  · rw [empty] at perm
    exact absurd perm.nil_eq.symm waiting'
  · rw [empty'] at perm
    exact absurd perm.eq_nil waiting
  · rw [failed, failed']
    exact perm

/-- The assignments carried out for lines that all classify as assignments are some of them, in
order. -/
theorem filterMap_carried?_sublist {lines : List String} {block : List (String × String)}
    (assignments : lines.map Instruction.classify = block.map fun p => .ok (.assignment p.1 p.2)) :
    (lines.filterMap carried?).Sublist block := by
  induction lines generalizing block with
  | nil =>
    simp only [List.map_nil] at assignments
    simp
  | cons line rest ih =>
    cases block with
    | nil => simp at assignments
    | cons p block =>
      simp only [List.map_cons, List.cons.injEq] at assignments
      obtain ⟨classified, later⟩ := assignments
      cases found : carried? line with
      | none =>
        rw [List.filterMap_cons_none found]
        exact (ih later).cons p
      | some q =>
        rw [List.filterMap_cons_some found]
        have same : q = p := by
          have := classify_of_carried? found
          rw [classified] at this
          simp only [Except.ok.injEq, Instruction.assignment.injEq] at this
          exact Prod.ext this.1.symm this.2.symm
        rw [same]
        exact (ih later).cons_cons p

/-- A block's run from a fresh evaluator keeps the invariant over the assignments it carried
out, and ends stuck. -/
theorem tracks_processBlock (settings : Settings) {A : List (String × String)}
    (waits : ∀ p ∈ A, WaitsForNames p.2) (distinct : (A.map Prod.fst).Nodup)
    {lines : List String} (perm : (lines.filterMap carried?).Perm A) :
    Tracks A A ((Evaluator.fresh settings).processBlock lines).2.env ∧
      Stuck ((Evaluator.fresh settings).processBlock lines).2.env := by
  have lined : Tracks A (lines.filterMap carried?)
      ((Evaluator.fresh settings).processLines lines).2.env := by
    rw [Evaluator.processLines_env]
    have run := (tracks_empty A).foldl_assign waits
      (fun p (mem : p ∈ lines.filterMap carried?) => perm.subset mem)
      (by simpa using (perm.map Prod.fst).nodup_iff.mpr distinct)
    simpa [Evaluator.fresh] using run
  rw [Evaluator.processBlock_env]
  exact (lined.of_perm waits perm).resolvePending waits distinct

/-- A block of assignment lines with distinct names, each of whose expressions waits for its
names, ends in the same environment in every order of its lines, and both orders succeed, or
both fail listing the same waiting assignments. -/
theorem processBlock_order_independent (settings : Settings) {lines lines' : List String}
    {block : List (String × String)} (perm : lines.Perm lines')
    (assignments : lines.map Instruction.classify = block.map fun p => .ok (.assignment p.1 p.2))
    (distinct : (block.map Prod.fst).Nodup) (waits : ∀ p ∈ block, WaitsForNames p.2) :
    (∀ n, ((Evaluator.fresh settings).processBlock lines).2.env.get? n =
        ((Evaluator.fresh settings).processBlock lines').2.env.get? n) ∧
      SameVerdict ((Evaluator.fresh settings).processBlock lines).1
        ((Evaluator.fresh settings).processBlock lines').1 := by
  -- the assignments carried out in either order are the same ones, some of the block's
  let A := lines.filterMap carried?
  have within : A.Sublist block := filterMap_carried?_sublist assignments
  have distinctA : (A.map Prod.fst).Nodup := (within.map Prod.fst).nodup distinct
  have waitsA : ∀ p ∈ A, WaitsForNames p.2 := fun p mem => waits p (within.subset mem)
  obtain ⟨tracks, stuck⟩ := tracks_processBlock settings waitsA distinctA (List.Perm.refl A)
  obtain ⟨tracks', stuck'⟩ :=
    tracks_processBlock settings waitsA distinctA (perm.filterMap carried?).symm
  have same := get?_eq_of_settled distinctA tracks stuck tracks' stuck'
  exact ⟨same, sameVerdict_processBlock _ _ lines lines'
    (Environment.pending_perm tracks.nodup tracks'.nodup same)⟩

/-- An expression that mentions no name waits for its names. -/
theorem waitsForNames_of_mentions_nil {expression : String} (none : mentions expression = []) :
    WaitsForNames expression := by
  rintro env ⟨n, mem, -⟩
  rw [none] at mem
  cases mem

theorem processBlock_order_independent_forward_reference :
    ["A = B", "B = 2"].Perm ["B = 2", "A = B"] ∧
    ["A = B", "B = 2"].map Instruction.classify =
      [("A", "B"), ("B", "2")].map (fun p => .ok (.assignment p.1 p.2)) ∧
    ([("A", "B"), ("B", "2")].map Prod.fst).Nodup ∧
    (∀ p ∈ [("A", "B"), ("B", "2")], WaitsForNames p.2) ∧
    (∀ n, ((Evaluator.fresh .standard).processBlock ["A = B", "B = 2"]).2.env.get? n =
        ((Evaluator.fresh .standard).processBlock ["B = 2", "A = B"]).2.env.get? n) ∧
      SameVerdict ((Evaluator.fresh .standard).processBlock ["A = B", "B = 2"]).1
        ((Evaluator.fresh .standard).processBlock ["B = 2", "A = B"]).1 := by
  have perm : ["A = B", "B = 2"].Perm ["B = 2", "A = B"] := by decide
  have assignments : ["A = B", "B = 2"].map Instruction.classify =
      [("A", "B"), ("B", "2")].map (fun p => .ok (.assignment p.1 p.2)) := by rfl
  have distinct : ([("A", "B"), ("B", "2")].map Prod.fst).Nodup := by decide
  -- `B` alone reads only the value of `B`, and without one it waits for `B`
  have waitsB : WaitsForNames "B" := by
    have mentioned : mentions "B" = ["B"] := by decide +kernel
    rintro env ⟨n, mem, unbound⟩
    rw [mentioned, List.mem_singleton] at mem
    subst mem
    have same : env.evaluate "B" = Environment.empty.evaluate "B" := by
      apply Environment.evaluate_congr
      intro m mem
      rw [mentioned, List.mem_singleton] at mem
      subst mem
      rw [unbound]
      rfl
    exact ⟨"B", same.trans (by with_unfolding_all rfl)⟩
  have waits : ∀ p ∈ [("A", "B"), ("B", "2")], WaitsForNames p.2 := by
    intro p mem
    simp only [List.mem_cons, List.not_mem_nil, or_false] at mem
    rcases mem with rfl | rfl
    · exact waitsB
    · exact waitsForNames_of_mentions_nil (by decide +kernel)
  exact ⟨perm, assignments, distinct, waits,
    processBlock_order_independent .standard perm assignments distinct waits⟩

end Abacus.Session
