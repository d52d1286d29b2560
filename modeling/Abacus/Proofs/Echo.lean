import Abacus.Proofs.Block
import Abacus.Proofs.Line

/-!
# What a block echoes

A block of assignment lines with distinct names that succeeds reports each line exactly once:
the line's name with the value the name ends with, or a failure, reported with the line itself
or, when the assignment failed while it was retried, with the name and the expression as stored
(`Reports`). The report of a line comes from the line itself or from the pass that resolved or
dropped its assignment; an assignment stops waiting when it is reported, and a block succeeds
only when nothing waits, so no report is lost or given twice.

Provided each expression waits for its names, the names are echoed in an order of the reference
graph: when a name is echoed, every name its expression mentions was echoed before it
(`EchoesInOrder`). The expression had a value, so all of its names had values, and a name gets
a value only together with its echo (`processBlock_echoes`).
-/
namespace Abacus.Session

open Syntax Environment

/-- The outcome that reports an assignment line in an environment: its name bound to the value
reported, or left unbound by a failure reported with the line or with the assignment as
stored. -/
def Reports (env : Environment) (line name expression : String) : Outcome → Prop
  | .assigned n v => n = name ∧ env.get? name = some (.resolved v)
  | .failed l _ => env.get? name = none ∧ (l = line ∨ l = s!"{name} = {expression}")
  | _ => False

/-- How an assignment line stands during its block: waiting with no report yet, or reported. -/
def Stands (env : Environment) (line name expression : String) : Option Outcome → Prop
  | none => env.get? name = some (.pending expression)
  | some o => Reports env line name expression o

/-- Every echoed name comes after each name that its expression mentions. -/
def EchoesInOrder (block : List (String × String)) (outs : List Outcome) : Prop :=
  ∀ (i : Nat) a v, outs[i]? = some (.assigned a v) → ∀ e, (a, e) ∈ block →
    ∀ b ∈ mentions e, ∃ j < i, ∃ w, outs[j]? = some (.assigned b w)

theorem Stands.congr {env env' : Environment} {line name expression : String}
    {slot : Option Outcome} (same : env'.get? name = env.get? name)
    (stands : Stands env line name expression slot) : Stands env' line name expression slot := by
  cases slot with
  | none => simpa [Stands, same] using stands
  | some o => cases o <;> simp_all [Stands, Reports]

theorem echoesInOrder_nil (block : List (String × String)) : EchoesInOrder block [] := by
  unfold EchoesInOrder
  intro i a v found
  simp at found

/-- Appending outcomes keeps the order when every name they echo has each name its expression
mentions echoed already. -/
theorem EchoesInOrder.append {block : List (String × String)} {outs : List Outcome}
    (ordered : EchoesInOrder block outs) (new : List Outcome)
    (ready : ∀ a v, .assigned a v ∈ new → ∀ e, (a, e) ∈ block → ∀ b ∈ mentions e,
      ∃ w, .assigned b w ∈ outs) :
    EchoesInOrder block (outs ++ new) := by
  unfold EchoesInOrder
  intro i a v found e mem b mentioned
  by_cases inside : i < outs.length
  · rw [List.getElem?_append_left inside] at found
    obtain ⟨j, before, w, echoed⟩ := ordered i a v found e mem b mentioned
    exact ⟨j, before, w, by rw [List.getElem?_append_left (by omega)]; exact echoed⟩
  · rw [List.getElem?_append_right (by omega)] at found
    obtain ⟨w, echoed⟩ := ready a v (List.mem_of_getElem? found) e mem b mentioned
    obtain ⟨j, bound, at_j⟩ := List.getElem_of_mem echoed
    refine ⟨j, by omega, w, ?_⟩
    rw [List.getElem?_append_left bound, List.getElem?_eq_getElem bound, at_j]

/-- The run of a block over the lines `done` carried out so far, each a line with the name and
the expression of its assignment: each line stands as `report` says, the outcomes so far are the
reports in some order, no other name is bound, and the echoes come in order. -/
structure Echoes (block : List (String × String)) (done : List (String × String × String))
    (report : String → Option Outcome) (outs : List Outcome) (env : Environment) : Prop where
  nodup : env.names.Nodup
  stands : ∀ q ∈ done, Stands env q.1 q.2.1 q.2.2 (report q.2.1)
  perm : outs.Perm (done.filterMap fun q => report q.2.1)
  unbound : ∀ n, (∀ q ∈ done, q.2.1 ≠ n) → env.get? n = none
  ordered : EchoesInOrder block outs

theorem echoes_empty (block : List (String × String)) :
    Echoes block [] (fun _ => none) [] Environment.empty where
  nodup := List.nodup_nil
  stands _ mem := absurd mem List.not_mem_nil
  perm := List.Perm.refl _
  unbound _ _ := rfl
  ordered := echoesInOrder_nil block

section Run

variable {block : List (String × String)} {done : List (String × String × String)}
  {report : String → Option Outcome} {outs : List Outcome} {env : Environment}

/-- A name with a value has been echoed with that value. -/
theorem Echoes.assigned_mem (echoes : Echoes block done report outs env) {b : String} {w : Float}
    (found : env.get? b = some (.resolved w)) : .assigned b w ∈ outs := by
  by_cases named : ∃ q ∈ done, q.2.1 = b
  · obtain ⟨q, mem, rfl⟩ := named
    have stands := echoes.stands q mem
    cases slot : report q.2.1 with
    | none =>
      rw [slot, Stands, found] at stands
      cases stands
    | some o =>
      rw [slot] at stands
      cases o with
      | assigned n v =>
        obtain ⟨rfl, bound⟩ := stands
        rw [found, Option.some.injEq, Binding.resolved.injEq] at bound
        subst bound
        exact echoes.perm.symm.subset (List.mem_filterMap.mpr ⟨q, mem, slot⟩)
      | failed l err =>
        have unbound := stands.1
        rw [found] at unbound
        cases unbound
      | _ => exact stands.elim
  · have unbound := echoes.unbound b fun q mem same => named ⟨q, mem, same⟩
    rw [unbound] at found
    cases found

/-- An expression that waits for its names has a value only when each of its names was
echoed. -/
theorem Echoes.ready (echoes : Echoes block done report outs env) {e : String} {v : Float}
    (waits : WaitsForNames e) (value : env.evaluate e = .resolved v) :
    ∀ b ∈ mentions e, ∃ w, .assigned b w ∈ outs := by
  intro b mentioned
  cases found : env.resolved? b with
  | none =>
    obtain ⟨missing, still⟩ := waits env ⟨b, mentioned, found⟩
    rw [value] at still
    cases still
  | some w => exact ⟨w, echoes.assigned_mem (resolved?_eq_some.mp found)⟩

/-- Carrying out the assignment of a name not yet carried out keeps the invariant, once the new
line stands as `slot` says. -/
theorem Echoes.extend {env' : Environment} {line a e : String} (slot : Option Outcome)
    (echoes : Echoes block done report outs env) (fresh : ∀ q ∈ done, q.2.1 ≠ a)
    (nodup : env'.names.Nodup) (frame : ∀ n, n ≠ a → env'.get? n = env.get? n)
    (stands : Stands env' line a e slot)
    (ready : ∀ a' v, .assigned a' v ∈ slot.toList → ∀ e', (a', e') ∈ block →
      ∀ b ∈ mentions e', ∃ w, .assigned b w ∈ outs) :
    Echoes block (done ++ [(line, a, e)]) (fun n => if n = a then slot else report n)
      (outs ++ slot.toList) env' where
  nodup := nodup
  stands q mem := by
    rcases List.mem_append.mp mem with old | new
    · have other := fresh q old
      simp only [if_neg other]
      exact (echoes.stands q old).congr (frame _ other)
    · rw [List.mem_singleton] at new
      subst new
      simpa using stands
  perm := by
    have same : (done.filterMap fun q => if q.2.1 = a then slot else report q.2.1) =
        done.filterMap fun q => report q.2.1 :=
      List.filterMap_congr fun q mem => if_neg (fresh q mem)
    rw [List.filterMap_append, same]
    cases slot with
    | none => simpa using echoes.perm
    | some o => simpa using echoes.perm.append_right [o]
  unbound n absent := by
    have other : n ≠ a := fun same => absent (line, a, e) (by simp) same.symm
    rw [frame n other]
    exact echoes.unbound n fun q mem => absent q (List.mem_append_left _ mem)
  ordered := echoes.ordered.append _ ready

/-- Reporting a waiting assignment puts its report at the end of the reports, where each item
of `done` is reported under its name `key q`. -/
theorem filterMap_report_perm {α : Type} {key : α → String} {done : List α}
    (names : (done.map key).Nodup) {report : String → Option Outcome} {a : String}
    (waiting : report a = none) (named : ∃ q ∈ done, key q = a) (o : Outcome) :
    (done.filterMap fun q => if key q = a then some o else report (key q)).Perm
      ((done.filterMap fun q => report (key q)) ++ [o]) := by
  induction done with
  | nil =>
    obtain ⟨q, mem, -⟩ := named
    cases mem
  | cons q rest ih =>
    rw [List.map_cons, List.nodup_cons] at names
    by_cases here : key q = a
    · -- no later item is named `a`, so the update changes only this report
      have absent : ∀ q' ∈ rest, key q' ≠ a := by
        intro q' mem same
        exact names.1 (here ▸ same ▸ List.mem_map_of_mem mem)
      have same : (rest.filterMap fun q' => if key q' = a then some o else report (key q')) =
          rest.filterMap fun q' => report (key q') :=
        List.filterMap_congr fun q' mem => if_neg (absent q' mem)
      rw [List.filterMap_cons, List.filterMap_cons, if_pos here, here, waiting, same]
      exact (List.perm_append_singleton o _).symm
    · have named' : ∃ q' ∈ rest, key q' = a := by
        obtain ⟨q', mem, same⟩ := named
        rcases List.mem_cons.mp mem with rfl | later
        · exact absurd same here
        · exact ⟨q', later, same⟩
      rw [List.filterMap_cons, List.filterMap_cons, if_neg here]
      cases report (key q) with
      | none => exact ih names.2 named'
      | some x => exact (ih names.2 named').cons x

/-- Reporting a waiting assignment keeps the invariant, once its line stands reported. -/
theorem Echoes.update {env' : Environment} {q : String × String × String} {o : Outcome}
    (echoes : Echoes block done report outs env) (names : (done.map (·.2.1)).Nodup)
    (mem : q ∈ done) (waiting : report q.2.1 = none)
    (nodup : env'.names.Nodup) (frame : ∀ n, n ≠ q.2.1 → env'.get? n = env.get? n)
    (stands : Stands env' q.1 q.2.1 q.2.2 (some o))
    (ready : ∀ a v, .assigned a v ∈ [o] → ∀ e, (a, e) ∈ block →
      ∀ b ∈ mentions e, ∃ w, .assigned b w ∈ outs) :
    Echoes block done (fun n => if n = q.2.1 then some o else report n) (outs ++ [o]) env' where
  nodup := nodup
  stands q' mem' := by
    by_cases here : q'.2.1 = q.2.1
    · -- distinct names: the line named so is `q` itself
      have same : q' = q := List.inj_on_of_nodup_map names mem' mem here
      subst same
      rw [if_pos rfl]
      exact stands
    · simp only [if_neg here]
      exact (echoes.stands q' mem').congr (frame _ here)
  perm := (echoes.perm.append_right [o]).trans
    (filterMap_report_perm names waiting ⟨q, mem, rfl⟩ o).symm
  unbound n absent := by
    have other : n ≠ q.2.1 := fun same => absent q mem same.symm
    rw [frame n other]
    exact echoes.unbound n absent
  ordered := echoes.ordered.append [o] ready

/-- With nothing waiting, every line carried out has its report. -/
theorem Echoes.reported (echoes : Echoes block done report outs env) (settled : env.pending = [])
    {q : String × String × String} (mem : q ∈ done) : (report q.2.1).isSome := by
  have stands := echoes.stands q mem
  cases slot : report q.2.1 with
  | none =>
    rw [slot, Stands, ← mem_pending_iff echoes.nodup, settled] at stands
    cases stands
  | some o => rfl

end Run

namespace Evaluator

theorem processLine_of_ok {ev ev' : Evaluator} {line : String} {outcomes : List Outcome}
    (blank : Text.isBlankText line = false) (h : ev.process line = (.ok outcomes, ev')) :
    ev.processLine line = (outcomes, ev') := by
  simp only [processLine, blank, h, Bool.false_eq_true, if_false]

theorem processLine_of_error {ev ev' : Evaluator} {line : String} {err : Error}
    (blank : Text.isBlankText line = false) (h : ev.process line = (.error err, ev')) :
    ev.processLine line = ([.failed line err], ev') := by
  simp only [processLine, blank, h, Bool.false_eq_true, if_false]

theorem processLines_cons_eq (ev : Evaluator) (line : String) (rest : List String) :
    ev.processLines (line :: rest) =
      ((ev.processLine line).1 ++ ((ev.processLine line).2.processLines rest).1,
        ((ev.processLine line).2.processLines rest).2) := rfl

/-- A block that succeeds reports what its lines and then its resolution report, and ends with
nothing waiting. -/
theorem processBlock_ok {ev : Evaluator} {lines : List String} {outcomes : List Outcome}
    (ok : (ev.processBlock lines).1 = .ok outcomes) :
    outcomes = (ev.processLines lines).1 ++ (ev.processLines lines).2.env.resolvePending.1 ∧
      (ev.processBlock lines).2.env.pending = [] := by
  unfold processBlock resolvePending at ok ⊢
  generalize ev.processLines lines = carried at ok ⊢
  obtain ⟨later, ev'⟩ := carried
  dsimp only at ok ⊢
  generalize ev'.env.resolvePending = resolved at ok ⊢
  obtain ⟨resolved, env⟩ := resolved
  dsimp only at ok ⊢
  split at ok
  · next empty =>
    rw [Except.ok.injEq] at ok
    exact ⟨ok.symm, empty⟩
  · cases ok

end Evaluator

section Block

variable {block : List (String × String)} {done : List (String × String × String)}
  {report : String → Option Outcome} {outs : List Outcome} {env : Environment}
  (distinct : (block.map Prod.fst).Nodup) (waits : ∀ p ∈ block, WaitsForNames p.2)

include distinct waits

/-- A name echoed with the value of its expression has each name of the expression echoed
already. -/
theorem Echoes.ready_assigned (echoes : Echoes block done report outs env) {a e : String}
    {v : Float} (mem : (a, e) ∈ block) (value : env.evaluate e = .resolved v) :
    ∀ (a' : String) (v' : Float), Outcome.assigned a' v' ∈ [Outcome.assigned a v] →
      ∀ e', (a', e') ∈ block →
      ∀ b ∈ mentions e', ∃ w, .assigned b w ∈ outs := by
  intro a' v' echoed e' mem'
  rw [List.mem_singleton, Outcome.assigned.injEq] at echoed
  obtain ⟨rfl, -⟩ := echoed
  rw [expression_unique distinct mem' mem]
  exact echoes.ready (waits (_, e) mem) value

/-- A line of the block keeps the invariant: it is echoed, stored as waiting, or reported
failed with the line itself. -/
theorem Echoes.processLine {ev : Evaluator} (echoes : Echoes block done report outs ev.env)
    {line a e : String} (classified : Instruction.classify line = .ok (.assignment a e))
    (mem : (a, e) ∈ block) (fresh : ∀ q ∈ done, q.2.1 ≠ a) :
    ∃ report', Echoes block (done ++ [(line, a, e)]) report' (outs ++ (ev.processLine line).1)
      (ev.processLine line).2.env := by
  have unbound : ev.env.get? a = none := echoes.unbound a fresh
  have notBlank : Text.isBlankText line = false := by
    cases blank : Text.isBlankText line
    · rfl
    · rw [classify_of_blank blank] at classified
      cases classified
  -- a line that fails binds nothing and is reported with the line
  have failed : ∀ err, ev.process line = (.error err, ev) →
      ∃ report', Echoes block (done ++ [(line, a, e)]) report'
        (outs ++ (ev.processLine line).1) (ev.processLine line).2.env := by
    intro err fails
    rw [Evaluator.processLine_of_error notBlank fails]
    exact ⟨_, echoes.extend (some (.failed line err)) fresh echoes.nodup
      (fun _ _ => rfl) (by simp [Stands, Reports, unbound]) (fun a' v echoed => by simp at echoed)⟩
  cases read : Evaluator.instruction line with
  | error err => exact failed err (Evaluator.process_of_error read)
  | ok i =>
    have same := Evaluator.classify_of_instruction read
    rw [classified, Except.ok.injEq] at same
    subst same
    cases value : ev.env.evaluate e with
    | resolved v =>
      have step : ev.process line =
          (.ok [.assigned a v], { ev with env := ev.env.bind a (.resolved v) }) := by
        rw [Evaluator.process_assignment read, value]
      rw [Evaluator.processLine_of_ok notBlank step]
      exact ⟨_, echoes.extend (some (.assigned a v)) fresh
        (nodup_names_bind echoes.nodup _ _) (fun n other => get?_bind_of_ne _ _ other)
        (by simp [Stands, Reports]) (echoes.ready_assigned distinct waits mem value)⟩
    | pending missing =>
      have step : ev.process line =
          (.ok [], { ev with env := ev.env.bind a (.pending e) }) := by
        rw [Evaluator.process_assignment read, value]
      rw [Evaluator.processLine_of_ok notBlank step]
      exact ⟨_, echoes.extend none fresh (nodup_names_bind echoes.nodup _ _)
        (fun n other => get?_bind_of_ne _ _ other) (by simp [Stands])
        (fun a' v echoed => by simp at echoed)⟩
    | fatal err => exact failed err (by rw [Evaluator.process_assignment read, value])

/-- The lines of the block keep the invariant, each line carried out with its assignment. -/
theorem Echoes.processLines {ev : Evaluator} (echoes : Echoes block done report outs ev.env)
    {lines : List String} {items : List (String × String)}
    (classified : lines.map Instruction.classify = items.map fun p => .ok (.assignment p.1 p.2))
    (within : ∀ p ∈ items, p ∈ block) (fresh : (done.map (·.2.1) ++ items.map Prod.fst).Nodup) :
    ∃ report', Echoes block (done ++ lines.zip items) report' (outs ++ (ev.processLines lines).1)
      (ev.processLines lines).2.env := by
  induction lines generalizing items done report outs ev with
  | nil => exact ⟨report, by simpa [Evaluator.processLines] using echoes⟩
  | cons line rest ih =>
    cases items with
    | nil => simp at classified
    | cons p items =>
      obtain ⟨a, e⟩ := p
      simp only [List.map_cons, List.cons.injEq] at classified
      obtain ⟨first, later⟩ := classified
      have names : (done.map (·.2.1) ++ a :: items.map Prod.fst).Nodup := by simpa using fresh
      have unnamed : ∀ q ∈ done, q.2.1 ≠ a := by
        intro q mem same
        exact List.disjoint_of_nodup_append names (List.mem_map_of_mem mem)
          (same ▸ List.mem_cons_self)
      obtain ⟨report1, echoes1⟩ :=
        echoes.processLine distinct waits first (within (a, e) List.mem_cons_self) unnamed
      have fresh' : ((done ++ [(line, a, e)]).map (·.2.1) ++ items.map Prod.fst).Nodup := by
        simpa using names
      obtain ⟨report2, echoes2⟩ :=
        ih echoes1 later (fun p mem => within p (List.mem_cons_of_mem _ mem)) fresh'
      refine ⟨report2, ?_⟩
      rw [Evaluator.processLines_cons_eq, List.zip_cons_cons]
      simpa only [List.append_assoc, List.singleton_append, List.cons_append, List.nil_append]
        using echoes2

/-- Trying a waiting assignment keeps the invariant: it is echoed, still waits, or is dropped and
reported failed with the assignment as stored. -/
theorem Echoes.settle (echoes : Echoes block done report outs env)
    (names : (done.map (·.2.1)).Nodup) (within : ∀ q ∈ done, (q.2.1, q.2.2) ∈ block)
    {a e : String} (waiting : env.get? a = some (.pending e)) :
    ∃ report', Echoes block done report' (outs ++ env.settleReport a e) (env.settle a e) := by
  -- the waiting assignment is that of a line not yet reported
  have named : ∃ q ∈ done, q.2.1 = a := by
    by_cases named : ∃ q ∈ done, q.2.1 = a
    · exact named
    · have unbound := echoes.unbound a fun q mem same => named ⟨q, mem, same⟩
      rw [unbound] at waiting
      cases waiting
  obtain ⟨q, mem, rfl⟩ := named
  have stands := echoes.stands q mem
  have unreported : report q.2.1 = none ∧ e = q.2.2 := by
    cases slot : report q.2.1 with
    | none =>
      rw [slot, Stands, waiting, Option.some.injEq, Binding.pending.injEq] at stands
      exact ⟨rfl, stands⟩
    | some o =>
      rw [slot, Stands] at stands
      cases o <;> simp_all [Reports]
  obtain ⟨unreported, rfl⟩ := unreported
  cases value : env.evaluate q.2.2 with
  | resolved v =>
    simp only [settleReport, Environment.settle, value]
    exact ⟨_, echoes.update names mem unreported (nodup_names_bind echoes.nodup _ _)
      (fun n other => get?_bind_of_ne _ _ other) (by simp [Stands, Reports])
      (echoes.ready_assigned distinct waits (within q mem) value)⟩
  | pending missing =>
    simp only [settleReport, Environment.settle, value]
    exact ⟨report, by simpa using echoes⟩
  | fatal err =>
    simp only [settleReport, Environment.settle, value]
    exact ⟨_, echoes.update names mem unreported (nodup_names_remove echoes.nodup _)
      (fun n other => get?_remove_of_ne _ other) (by simp [Stands, Reports])
      (fun a' v echoed => by simp at echoed)⟩

/-- The passes that resolve what waits keep the invariant. -/
theorem Echoes.resolvePasses (echoes : Echoes block done report outs env)
    (names : (done.map (·.2.1)).Nodup) (within : ∀ q ∈ done, (q.2.1, q.2.2) ∈ block) (k : Nat) :
    ∃ report', Echoes block done report' (outs ++ (env.resolvePasses k).1)
      (env.resolvePasses k).2 :=
  resolvePasses_induction (fun outs env => ∃ report', Echoes block done report' outs env)
    (fun ⟨_, echoes⟩ waiting => echoes.settle distinct waits names within waiting)
    (fun ⟨_, echoes⟩ => echoes.nodup) ⟨report, echoes⟩ k

/-- A block of assignment lines with distinct names, each of whose expressions waits for its names,
that succeeds echoes each line exactly once, with the value its name ends with or as failed, and
echoes each name after every name its expression mentions. -/
theorem processBlock_echoes (settings : Settings) {lines : List String}
    (assignments : lines.map Instruction.classify = block.map fun p => .ok (.assignment p.1 p.2))
    {outcomes : List Outcome} (ok : ((Evaluator.fresh settings).processBlock lines).1 = .ok outcomes) :
    (∃ report : String → Outcome, outcomes.Perm (block.map fun p => report p.1) ∧
      ∀ q ∈ lines.zip block,
        Reports ((Evaluator.fresh settings).processBlock lines).2.env q.1 q.2.1 q.2.2 (report q.2.1)) ∧
      EchoesInOrder block outcomes := by
  obtain ⟨outs, settled⟩ := Evaluator.processBlock_ok ok
  have length : lines.length = block.length := by simpa using congrArg List.length assignments
  have paired : (lines.zip block).map Prod.snd = block := List.map_snd_zip (by omega)
  have named : ((lines.zip block).map (·.2.1)).Nodup := by
    have same : (lines.zip block).map (·.2.1) = block.map Prod.fst := by
      calc (lines.zip block).map (·.2.1)
          = ((lines.zip block).map Prod.snd).map Prod.fst := by simp
        _ = block.map Prod.fst := by rw [paired]
    rw [same]
    exact distinct
  have within : ∀ q ∈ lines.zip block, (q.2.1, q.2.2) ∈ block :=
    fun q mem => (List.of_mem_zip mem).2
  -- the lines, then the passes, keep the invariant from the fresh environment on
  have start : Echoes block [] (fun _ => none) [] (Evaluator.fresh settings).env :=
    echoes_empty block
  obtain ⟨report1, lined⟩ :=
    start.processLines distinct waits assignments (fun p mem => mem) (by simpa using distinct)
  rw [List.nil_append, List.nil_append] at lined
  obtain ⟨report, passed⟩ :=
    lined.resolvePasses distinct waits named within
      ((Evaluator.fresh settings).processLines lines).2.env.pending.length.succ
  rw [← Environment.resolvePending, ← outs, ← Evaluator.processBlock_env] at passed
  -- nothing waits at the end, so every line has its report
  have reported : ∀ q ∈ lines.zip block, ∃ o, report q.2.1 = some o :=
    fun q mem => Option.isSome_iff_exists.mp (passed.reported settled mem)
  let echo : String → Outcome := fun n => (report n).getD default
  have total : ((lines.zip block).filterMap fun q => report q.2.1) = block.map fun p => echo p.1 := by
    calc ((lines.zip block).filterMap fun q => report q.2.1)
        = (lines.zip block).map fun q => echo q.2.1 := by
          refine List.filterMap_eq_map_iff_forall_eq_some.mpr fun q mem => ?_
          obtain ⟨o, slot⟩ := reported q mem
          simp [echo, slot]
      _ = ((lines.zip block).map Prod.snd).map fun p => echo p.1 := by simp
      _ = block.map fun p => echo p.1 := by rw [paired]
  refine ⟨⟨echo, total ▸ passed.perm, fun q mem => ?_⟩, passed.ordered⟩
  have stands := passed.stands q mem
  obtain ⟨o, slot⟩ := reported q mem
  rw [slot, Stands] at stands
  simpa [echo, slot] using stands

end Block

theorem eq_ok_of_toOption_eq_some {ε α : Type} {x : Except ε α} {a : α} (h : x.toOption = some a) :
    x = .ok a := by
  cases x <;> simp_all [Except.toOption]

/-- An evaluation whose expanded text lexes to tokens naming nothing never waits. -/
theorem Environment.evaluate_ne_pending {env : Environment} {e expanded : String}
    {tokens : List Lexeme}
    (expands : Numeral.expandLiterals (substitute env (stripTerminator e)) = .ok expanded)
    (lexes : tokenize expanded = .ok tokens) (unnamed : firstName? tokens = none) (m : String) :
    env.evaluate e ≠ .pending m := by
  simp only [Environment.evaluate, Environment.attempt, expands, lexes, unnamed, Bind.bind,
    Except.bind, Pure.pure, Except.pure]
  -- what is left fails or resolves, whatever the character check and the parse give
  cases checkCharacters expanded with
  | error err => simp
  | ok u => cases parse tokens <;> simp

theorem processBlock_echoes_value_and_failure :
    ["B = 2", "C = 2 $"].map Instruction.classify =
        [("B", "2"), ("C", "2 $")].map (fun p => .ok (.assignment p.1 p.2)) ∧
      ([("B", "2"), ("C", "2 $")].map Prod.fst).Nodup ∧
      (∀ p ∈ [("B", "2"), ("C", "2 $")], WaitsForNames p.2) ∧
      ∃ outcomes,
        ((Evaluator.fresh .standard).processBlock ["B = 2", "C = 2 $"]).1 = .ok outcomes ∧
        (∃ report : String → Outcome,
          outcomes.Perm ([("B", "2"), ("C", "2 $")].map fun p => report p.1) ∧
          ∀ q ∈ ["B = 2", "C = 2 $"].zip [("B", "2"), ("C", "2 $")],
            Reports ((Evaluator.fresh .standard).processBlock ["B = 2", "C = 2 $"]).2.env
              q.1 q.2.1 q.2.2 (report q.2.1)) ∧
        EchoesInOrder [("B", "2"), ("C", "2 $")] outcomes := by
  have assignments : ["B = 2", "C = 2 $"].map Instruction.classify =
      [("B", "2"), ("C", "2 $")].map (fun p => .ok (.assignment p.1 p.2)) := by rfl
  have distinct : ([("B", "2"), ("C", "2 $")].map Prod.fst).Nodup := by decide
  have waits : ∀ p ∈ [("B", "2"), ("C", "2 $")], WaitsForNames p.2 := by
    intro p mem
    simp only [List.mem_cons, List.not_mem_nil, or_false] at mem
    rcases mem with rfl | rfl <;> exact waitsForNames_of_mentions_nil (by decide +kernel)
  -- `2` names nothing, so the line of `B` binds a value or fails, and the line of `C` fails its
  -- character check: nothing waits at the end
  have constant : ∀ m, Environment.empty.evaluate "2" ≠ .pending m := by
    obtain ⟨tokens, lexes, unnamed⟩ : ∃ tokens, tokenize "2" = .ok tokens ∧ firstName? tokens = none := by
      have found : (tokenize "2").toOption.map firstName? = some none := by decide +kernel
      revert found
      cases tokenize "2" with
      | error err => simp [Except.toOption]
      | ok tokens => simp [Except.toOption]
    exact Environment.evaluate_ne_pending (eq_ok_of_toOption_eq_some (by decide +kernel)) lexes unnamed
  have settled :
      ((Evaluator.fresh .standard).processBlock ["B = 2", "C = 2 $"]).2.env.pending = [] := by
    have carriedB : carried? "B = 2" = some ("B", "2") := by decide +kernel
    have carriedC : carried? "C = 2 $" = none := by decide +kernel
    rw [Evaluator.processBlock_env, Evaluator.processLines_env, List.filterMap_cons_some carriedB,
      List.filterMap_cons_none carriedC]
    show (Environment.empty.assign "B" "2").resolvePending.2.pending = []
    unfold Environment.assign
    cases value : Environment.empty.evaluate "2" with
    | resolved v => rfl
    | pending m => exact absurd value (constant m)
    | fatal err => rfl
  obtain ⟨outcomes, ok⟩ : ∃ outcomes,
      ((Evaluator.fresh .standard).processBlock ["B = 2", "C = 2 $"]).1 = .ok outcomes := by
    rcases Evaluator.processBlock_verdict (Evaluator.fresh .standard) ["B = 2", "C = 2 $"] with
      ⟨-, ok⟩ | ⟨waiting, -⟩
    · exact ok
    · exact absurd settled waiting
  exact ⟨assignments, distinct, waits, outcomes, ok,
    processBlock_echoes distinct waits .standard assignments ok⟩

end Abacus.Session
