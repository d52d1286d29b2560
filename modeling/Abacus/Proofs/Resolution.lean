import Abacus.Proofs.Waiting

/-!
# Resolving a block of assignments

A block of assignment lines with distinct names ends in the same environment whatever the order
of its lines, provided each expression waits for its names. The run is read as the computation
of a least fixed point.

An environment is *closed* under the block's assignments when every assignment whose expression
has a value there binds its name to that value. The run keeps an invariant (`Tracks`): each
binding accounts for an assignment carried out (a value is the value of its expression, a
waiting expression is its own, an unbound name is one whose expression failed), and no binding
gives a value that some closed environment lacks. Line after line and pass after pass keep it;
the resolution stops after a pass that changes nothing, so every waiting expression is still
pending at the end, and the final environment is closed. Two closed environments that both give
no value beyond every closed environment give the same values, and then, with the invariant,
the same bindings.

The passes are taken apart once for every invariant: whatever trying one waiting assignment
keeps, a pass and a run of passes keep (`resolvePass_induction`, `resolvePasses_induction`).
From an environment with distinct names and fewer waiting assignments than passes, the passes
end stuck (`resolvePasses_stuck`), and more passes change nothing (`resolvePasses_fuel_stable`).
-/
namespace Abacus.Session

namespace Environment

/-- The environment after an assignment line: the name bound to the value of the expression, or
to the expression while it waits; unchanged when the evaluation fails. -/
def assign (env : Environment) (name expression : String) : Environment :=
  match env.evaluate expression with
  | .resolved v => env.bind name (.resolved v)
  | .pending _ => env.bind name (.pending expression)
  | .fatal _ => env

/-- The environment after a pass tries a waiting assignment: bound to the value, unchanged while
it still waits, the name dropped when it fails. -/
def settle (env : Environment) (name expression : String) : Environment :=
  match env.evaluate expression with
  | .resolved v => env.bind name (.resolved v)
  | .pending _ => env
  | .fatal _ => env.remove name

/-- Whether a pass resolves or drops an assignment with this expression. -/
def moves (env : Environment) (expression : String) : Bool :=
  match env.evaluate expression with
  | .pending _ => false
  | _ => true

theorem resolvePass_nil (env : Environment) : (env.resolvePass []).2 = (env, false) := rfl

theorem resolvePass_cons (env : Environment) (name expression : String)
    (rest : List (String × String)) :
    (env.resolvePass ((name, expression) :: rest)).2 =
      (((env.settle name expression).resolvePass rest).2.1,
        env.moves expression || ((env.settle name expression).resolvePass rest).2.2) := by
  simp only [resolvePass.eq_2, settle, moves]
  cases env.evaluate expression <;> rfl

theorem resolvePasses_succ (env : Environment) (k : Nat) :
    (env.resolvePasses (k + 1)).2 =
      if (env.resolvePass env.pending).2.2 then
        ((env.resolvePass env.pending).2.1.resolvePasses k).2
      else (env.resolvePass env.pending).2.1 := by
  simp only [resolvePasses]
  split <;> rfl

/-- What a pass reports when it tries a waiting assignment. -/
def settleReport (env : Environment) (name expression : String) : List Outcome :=
  match env.evaluate expression with
  | .resolved v => [.assigned name v]
  | .pending _ => []
  | .fatal err => [.failed s!"{name} = {expression}" err]

theorem resolvePass_cons_fst (env : Environment) (name expression : String)
    (rest : List (String × String)) :
    (env.resolvePass ((name, expression) :: rest)).1 =
      env.settleReport name expression ++ ((env.settle name expression).resolvePass rest).1 := by
  simp only [resolvePass.eq_2, settleReport, settle]
  cases env.evaluate expression <;> rfl

theorem resolvePasses_succ_fst (env : Environment) (k : Nat) :
    (env.resolvePasses (k + 1)).1 =
      if (env.resolvePass env.pending).2.2 then
        (env.resolvePass env.pending).1 ++ ((env.resolvePass env.pending).2.1.resolvePasses k).1
      else (env.resolvePass env.pending).1 := by
  simp only [resolvePasses]
  split <;> rfl

@[simp]
theorem resolved?_bind_resolved (env : Environment) (name m : String) (v : Float) :
    (env.bind name (.resolved v)).resolved? m = if m = name then some v else env.resolved? m := by
  by_cases h : m = name <;> simp [resolved?, h]

@[simp]
theorem resolved?_bind_pending (env : Environment) (name m e : String) :
    (env.bind name (.pending e)).resolved? m = if m = name then none else env.resolved? m := by
  by_cases h : m = name <;> simp [resolved?, h]

@[simp]
theorem resolved?_remove (env : Environment) (name m : String) :
    (env.remove name).resolved? m = if m = name then none else env.resolved? m := by
  by_cases h : m = name <;> simp [resolved?, h]

theorem get?_settle_of_ne {env : Environment} {n m e : String} (h : m ≠ n) :
    (env.settle n e).get? m = env.get? m := by
  unfold settle
  cases env.evaluate e <;> simp [h]

theorem nodup_names_settle {env : Environment} (h : env.names.Nodup) (n e : String) :
    (env.settle n e).names.Nodup := by
  unfold settle
  cases env.evaluate e
  · exact nodup_names_bind h _ _
  · exact h
  · exact nodup_names_remove h _

/-- Trying a waiting assignment leaves one fewer waiting when the pass moves it. -/
theorem pending_length_settle {env : Environment} (nodup : env.names.Nodup) {n e : String}
    (waiting : env.get? n = some (.pending e)) :
    (env.settle n e).pending.length + (env.moves e).toNat = env.pending.length := by
  unfold settle moves
  cases env.evaluate e with
  | resolved v => simpa using pending_length_bind_resolved waiting v
  | pending missing => simp
  | fatal err => simpa using pending_length_remove nodup waiting

/-- A name without a value keeps having none in an environment that changes only its binding,
so the old environment's values all stay. -/
theorem extends_of_frame {env env' : Environment} {n : String} (fresh : env.resolved? n = none)
    (frame : ∀ m, m ≠ n → env'.get? m = env.get? m) : env.Extends env' := by
  intro m x found
  by_cases hm : m = n
  · subst hm
    rw [fresh] at found
    cases found
  · rw [resolved?_eq_some, frame m hm]
    exact resolved?_eq_some.mp found

/-- An environment that changes only the binding of `n` stays below `env''` when its value of
`n`, if any, is the one `env''` gives. -/
theorem Extends.of_frame {env env' env'' : Environment} {n : String} (ext : env.Extends env'')
    (frame : ∀ m, m ≠ n → env'.get? m = env.get? m)
    (atName : ∀ x, env'.resolved? n = some x → env''.resolved? n = some x) :
    env'.Extends env'' := by
  intro m x found
  by_cases hm : m = n
  · subst hm
    exact atName x found
  · apply ext m x
    rw [resolved?_eq_some, ← frame m hm]
    exact resolved?_eq_some.mp found

/-- Assignments of distinct names, each waiting in `env`: what a pass goes over. -/
def WaitingIn (env : Environment) (items : List (String × String)) : Prop :=
  (items.map Prod.fst).Nodup ∧ ∀ p ∈ items, env.get? p.1 = some (.pending p.2)

theorem waitingIn_pending {env : Environment} (nodup : env.names.Nodup) :
    env.WaitingIn env.pending :=
  ⟨nodup_pending_names nodup, fun _ mem => (mem_pending_iff nodup).mp mem⟩

/-- Trying the first of the waiting assignments leaves the others waiting. -/
theorem WaitingIn.settle {env : Environment} {n e : String} {rest : List (String × String)}
    (waiting : env.WaitingIn ((n, e) :: rest)) : (env.settle n e).WaitingIn rest := by
  obtain ⟨distinct, found⟩ := waiting
  simp only [List.map_cons, List.nodup_cons, List.mem_map] at distinct
  refine ⟨distinct.2, fun p later => ?_⟩
  have other : p.1 ≠ n := fun same => distinct.1 ⟨p, later, same⟩
  rw [get?_settle_of_ne other]
  exact found p (List.mem_cons_of_mem _ later)

/-- A pass that moves nothing leaves the environment as it was, with every assignment it tried
still waiting. -/
theorem resolvePass_still {env : Environment} {items : List (String × String)}
    (still : (env.resolvePass items).2.2 = false) :
    (env.resolvePass items).2.1 = env ∧
      ∀ p ∈ items, ∃ missing, env.evaluate p.2 = .pending missing := by
  induction items with
  | nil => exact ⟨rfl, by simp⟩
  | cons item rest ih =>
    obtain ⟨n, e⟩ := item
    rw [resolvePass_cons] at still ⊢
    simp only [Bool.or_eq_false_iff] at still
    obtain ⟨stays, restStill⟩ := still
    cases value : env.evaluate e with
    | resolved v => simp [moves, value] at stays
    | fatal err => simp [moves, value] at stays
    | pending missing =>
      -- the first assignment still waits, so the rest of the pass starts from `env`
      have same : env.settle n e = env := by simp [settle, value]
      rw [same] at restStill ⊢
      obtain ⟨unchanged, waiting⟩ := ih restStill
      refine ⟨unchanged, fun p mem => ?_⟩
      rcases List.mem_cons.mp mem with rfl | later
      · exact ⟨missing, value⟩
      · exact waiting p later

/-- A pass never adds waiting assignments, and one that moves something leaves fewer. -/
theorem resolvePass_pending_length {env : Environment} (nodup : env.names.Nodup)
    {items : List (String × String)} (waiting : env.WaitingIn items) :
    (env.resolvePass items).2.1.pending.length + (env.resolvePass items).2.2.toNat ≤
      env.pending.length := by
  induction items generalizing env with
  | nil => simp [resolvePass_nil]
  | cons item rest ih =>
    obtain ⟨n, e⟩ := item
    rw [resolvePass_cons]
    have first := pending_length_settle nodup (waiting.2 (n, e) List.mem_cons_self)
    have later := ih (nodup_names_settle nodup n e) waiting.settle
    have or_le : ∀ a b : Bool, (a || b).toNat ≤ a.toNat + b.toNat := by decide
    have := or_le (env.moves e) ((env.settle n e).resolvePass rest).2.2
    dsimp only at first ⊢
    omega

theorem nodup_names_resolvePass {env : Environment} (nodup : env.names.Nodup)
    (items : List (String × String)) : (env.resolvePass items).2.1.names.Nodup := by
  induction items generalizing env with
  | nil => exact nodup
  | cons item rest ih =>
    obtain ⟨n, e⟩ := item
    rw [resolvePass_cons]
    exact ih (nodup_names_settle nodup n e)

/-- Passes from an environment with fewer waiting assignments than passes stop before the bound:
more passes give the same outcomes and environment. -/
theorem resolvePasses_fuel_stable {env : Environment} (nodup : env.names.Nodup) {k : Nat}
    (enough : env.pending.length < k) (extra : Nat) :
    env.resolvePasses (k + extra) = env.resolvePasses k := by
  induction k generalizing env with
  | zero => exact absurd enough (Nat.not_lt_zero _)
  | succ k ih =>
    have shorter := resolvePass_pending_length nodup (waitingIn_pending nodup)
    have nodup' := nodup_names_resolvePass nodup env.pending
    rw [Nat.add_right_comm]
    rcases pass : env.resolvePass env.pending with ⟨outs, next, moved⟩
    simp only [pass] at shorter nodup'
    cases moved with
    | true =>
      -- the pass moved an assignment, so fewer wait and the passes left still suffice
      rw [Bool.toNat_true] at shorter
      simp only [resolvePasses, pass, if_true, ih nodup' (by omega)]
    | false => simp only [resolvePasses, pass, Bool.false_eq_true, if_false]

section Induction

variable (P : List Outcome → Environment → Prop)
  (step : ∀ {outs : List Outcome} {env : Environment} {n e : String}, P outs env →
    env.get? n = some (.pending e) → P (outs ++ env.settleReport n e) (env.settle n e))

include step

/-- What holds of the outcomes so far and the environment, and survives trying any waiting
assignment, holds after a pass over waiting assignments. -/
theorem resolvePass_induction {outs : List Outcome} {env : Environment} (start : P outs env)
    {items : List (String × String)} (waiting : env.WaitingIn items) :
    P (outs ++ (env.resolvePass items).1) (env.resolvePass items).2.1 := by
  induction items generalizing outs env with
  | nil => simpa [resolvePass] using start
  | cons item rest ih =>
    obtain ⟨n, e⟩ := item
    have first := step start (waiting.2 (n, e) List.mem_cons_self)
    rw [resolvePass_cons_fst, resolvePass_cons, ← List.append_assoc]
    exact ih first waiting.settle

/-- What survives trying any waiting assignment, and keeps the names distinct, holds after any
number of passes. -/
theorem resolvePasses_induction (nodup : ∀ {outs env}, P outs env → env.names.Nodup)
    {outs : List Outcome} {env : Environment} (start : P outs env) (k : Nat) :
    P (outs ++ (env.resolvePasses k).1) (env.resolvePasses k).2 := by
  induction k generalizing outs env with
  | zero => simpa [resolvePasses] using start
  | succ k ih =>
    have passed := resolvePass_induction P step start (waitingIn_pending (nodup start))
    rw [resolvePasses_succ_fst, resolvePasses_succ]
    cases moved : (env.resolvePass env.pending).2.2 with
    | true =>
      rw [if_pos rfl, if_pos rfl, ← List.append_assoc]
      exact ih passed
    | false =>
      rw [if_neg Bool.false_ne_true, if_neg Bool.false_ne_true]
      exact passed

end Induction

/-- Two environments each giving every value of the other give the same values. -/
theorem Extends.resolved?_eq {env env' : Environment} (ext : env.Extends env')
    (ext' : env'.Extends env) (m : String) : env.resolved? m = env'.resolved? m := by
  cases found : env.resolved? m with
  | some x => exact (ext m x found).symm
  | none =>
    cases found' : env'.resolved? m with
    | none => rfl
    | some y =>
      have back := ext' m y found'
      rw [found] at back
      cases back

end Environment

open Environment

/-- Every assignment of `A` whose expression has a value in `env` binds its name to that value. -/
def Closed (A : List (String × String)) (env : Environment) : Prop :=
  ∀ n e x, (n, e) ∈ A → env.evaluate e = .resolved x → env.resolved? n = some x

/-- How the binding of `n` accounts for the assignments `done`: a value is the value of an
assignment of `n`, a waiting expression is one assigned to `n`, and an assignment of `n` left
without binding fails. -/
structure Accounts (done : List (String × String)) (env : Environment) (n : String) : Prop where
  resolved : ∀ x, env.get? n = some (.resolved x) →
    ∃ e, (n, e) ∈ done ∧ env.evaluate e = .resolved x
  pending : ∀ e, env.get? n = some (.pending e) → (n, e) ∈ done
  failed : ∀ e, (n, e) ∈ done → env.get? n = none → ∃ err, env.evaluate e = .fatal err

/-- The invariant of a block run, with `A` the block's assignments and `done` those carried out:
the names are distinct, every binding accounts for `done`, and no binding gives a value that an
environment closed under `A` lacks. -/
structure Tracks (A done : List (String × String)) (env : Environment) : Prop where
  nodup : env.names.Nodup
  within : ∀ p ∈ done, p ∈ A
  accounts : ∀ n, Accounts done env n
  least : ∀ env', Closed A env' → env.Extends env'

/-- Every waiting assignment still waits: a pass over them changes nothing. -/
def Stuck (env : Environment) : Prop :=
  ∀ n e, env.get? n = some (.pending e) → ∃ missing, env.evaluate e = .pending missing

/-- Passes from an environment with fewer waiting assignments than passes end stuck: the last
pass moved nothing. -/
theorem resolvePasses_stuck {env : Environment} (nodup : env.names.Nodup) {k : Nat}
    (enough : env.pending.length < k) : Stuck (env.resolvePasses k).2 := by
  induction k generalizing env with
  | zero => exact absurd enough (Nat.not_lt_zero _)
  | succ k ih =>
    rw [resolvePasses_succ]
    cases moved : (env.resolvePass env.pending).2.2 with
    | true =>
      have shorter := resolvePass_pending_length nodup (waitingIn_pending nodup)
      rw [moved, Bool.toNat_true] at shorter
      rw [if_pos rfl]
      exact ih (nodup_names_resolvePass nodup _) (by omega)
    | false =>
      obtain ⟨unchanged, still⟩ := resolvePass_still moved
      rw [if_neg Bool.false_ne_true, unchanged]
      exact fun n e found => still (n, e) ((mem_pending_iff nodup).mpr found)

theorem tracks_empty (A : List (String × String)) : Tracks A [] Environment.empty where
  nodup := by simp [names, Environment.empty]
  within _ mem := absurd mem List.not_mem_nil
  accounts _ :=
    ⟨fun _ found => by simp at found, fun _ found => by simp at found,
      fun _ mem _ => absurd mem List.not_mem_nil⟩
  least _ _ _ _ found := by simp [resolved?] at found

/-- A binding that is the same in a larger environment accounts for the same assignments. -/
theorem Accounts.transfer {done done' : List (String × String)} {env env' : Environment}
    {n : String} (acc : Accounts done env n) (waits : ∀ e, (n, e) ∈ done → WaitsForNames e)
    (ext : env.Extends env') (same : env'.get? n = env.get? n)
    (grows : ∀ e, (n, e) ∈ done' ↔ (n, e) ∈ done) : Accounts done' env' n where
  resolved x found := by
    rw [same] at found
    obtain ⟨e, mem, value⟩ := acc.resolved x found
    exact ⟨e, (grows e).mpr mem, evaluate_resolved_of_extends (waits e mem) ext value⟩
  pending e found := by
    rw [same] at found
    exact (grows e).mpr (acc.pending e found)
  failed e mem unbound := by
    rw [same] at unbound
    have mem' := (grows e).mp mem
    obtain ⟨err, fails⟩ := acc.failed e mem' unbound
    exact ⟨err, evaluate_fatal_of_extends (waits e mem') ext fails⟩

/-- A name none of whose assignments is carried out is unbound. -/
theorem Accounts.get?_eq_none {done : List (String × String)} {env : Environment} {n : String}
    (acc : Accounts done env n) (fresh : ∀ e, (n, e) ∉ done) : env.get? n = none := by
  cases found : env.get? n with
  | none => rfl
  | some b =>
    cases b with
    | resolved x =>
      obtain ⟨e, assigned, -⟩ := acc.resolved x found
      exact absurd assigned (fresh e)
    | pending e => exact absurd (acc.pending e found) (fresh e)

/-- With distinct names, two assignments to one name are the same assignment. -/
theorem expression_unique {A : List (String × String)} (distinct : (A.map Prod.fst).Nodup)
    {n e e' : String} (mem : (n, e) ∈ A) (mem' : (n, e') ∈ A) : e = e' := by
  have := List.inj_on_of_nodup_map distinct mem mem' rfl
  simpa using this

section Invariant

variable {A : List (String × String)} (waits : ∀ p ∈ A, WaitsForNames p.2)

include waits

/-- The invariant survives a step that changes only the binding of `n`, once the new binding
of `n` accounts for the assignments and gives no value beyond a closed environment. -/
theorem Tracks.update {done done' : List (String × String)} {env env' : Environment} {n : String}
    (tracks : Tracks A done env) (nodup : env'.names.Nodup) (within : ∀ p ∈ done', p ∈ A)
    (grows : ∀ m, m ≠ n → ∀ e, (m, e) ∈ done' ↔ (m, e) ∈ done)
    (ext : env.Extends env') (frame : ∀ m, m ≠ n → env'.get? m = env.get? m)
    (atName : Accounts done' env' n)
    (least : ∀ x, env'.resolved? n = some x → ∀ env'', Closed A env'' →
      env''.resolved? n = some x) :
    Tracks A done' env' where
  nodup := nodup
  within := within
  accounts m := by
    by_cases hm : m = n
    · subst hm
      exact atName
    · exact (tracks.accounts m).transfer (fun e mem => waits (m, e) (tracks.within _ mem)) ext
        (frame m hm) (grows m hm)
  least env'' closed := (tracks.least env'' closed).of_frame frame fun x found =>
    least x found env'' closed

/-- Binding a name without a value to the value of one of its assignments keeps the invariant. -/
theorem Tracks.bind_resolved {done done' : List (String × String)} {env : Environment}
    {n e : String} {v : Float} (tracks : Tracks A done env) (within : ∀ p ∈ done', p ∈ A)
    (grows : ∀ m, m ≠ n → ∀ e, (m, e) ∈ done' ↔ (m, e) ∈ done)
    (mem : (n, e) ∈ done')
    (unvalued : env.resolved? n = none) (value : env.evaluate e = .resolved v) :
    Tracks A done' (env.bind n (.resolved v)) := by
  have frame := fun m (hm : m ≠ n) => get?_bind_of_ne env (.resolved v) hm
  have ext := extends_of_frame unvalued frame
  have waitsE := waits (n, e) (within _ mem)
  refine tracks.update waits (nodup_names_bind tracks.nodup _ _) within grows ext frame ?_ ?_
  · refine ⟨fun x found => ?_, fun e' found => ?_, fun e' _ unbound => ?_⟩
    · simp only [get?_bind, if_true, Option.some.injEq, Binding.resolved.injEq] at found
      subst found
      exact ⟨e, mem, evaluate_resolved_of_extends waitsE ext value⟩
    · simp at found
    · simp at unbound
  · intro x found env'' closed
    simp only [resolved?_bind_resolved, if_true, Option.some.injEq] at found
    subst found
    exact closed n e v (within _ mem)
      (evaluate_resolved_of_extends waitsE (tracks.least env'' closed) value)

/-- Carrying out an assignment of a name not yet assigned keeps the invariant. -/
theorem Tracks.assign {done : List (String × String)} {env : Environment} {n e : String}
    (tracks : Tracks A done env) (mem : (n, e) ∈ A) (fresh : ∀ e', (n, e') ∉ done) :
    Tracks A (done ++ [(n, e)]) (env.assign n e) := by
  have unbound := (tracks.accounts n).get?_eq_none fresh
  have unvalued : env.resolved? n = none := by simp [resolved?, unbound]
  have within : ∀ p ∈ done ++ [(n, e)], p ∈ A := by
    intro p assigned
    rcases List.mem_append.mp assigned with old | new
    · exact tracks.within p old
    · rw [List.mem_singleton.mp new]
      exact mem
  have grows : ∀ m, m ≠ n → ∀ e', (m, e') ∈ done ++ [(n, e)] ↔ (m, e') ∈ done := by
    intro m hm e'
    simp [hm]
  have only : ∀ e', (n, e') ∈ done ++ [(n, e)] → e' = e := by
    intro e' assigned
    simpa [fresh e'] using assigned
  cases value : env.evaluate e with
  | resolved v =>
    simp only [Environment.assign, value]
    exact tracks.bind_resolved waits within grows (by simp) unvalued value
  | pending missing =>
    simp only [Environment.assign, value]
    have frame := fun m (hm : m ≠ n) => get?_bind_of_ne env (.pending e) hm
    refine tracks.update waits (nodup_names_bind tracks.nodup _ _) within grows
      (extends_of_frame unvalued frame) frame ?_ ?_
    · refine ⟨fun x found => ?_, fun e' found => ?_, fun e' _ unbound => ?_⟩
      · simp at found
      · simp only [get?_bind, if_true, Option.some.injEq, Binding.pending.injEq] at found
        simp [found]
      · simp at unbound
    · intro x found
      simp at found
  | fatal err =>
    simp only [Environment.assign, value]
    refine tracks.update waits tracks.nodup within grows (Extends.refl env) (fun _ _ => rfl)
      ⟨fun x found => ?_, fun e' found => ?_, fun e' assigned _ => ?_⟩ ?_
    · rw [unbound] at found
      cases found
    · rw [unbound] at found
      cases found
    · exact ⟨err, only e' assigned ▸ value⟩
    · intro x found
      rw [unvalued] at found
      cases found

/-- The invariant reads the assignments carried out only as a set. -/
theorem Tracks.of_perm {done done' : List (String × String)} {env : Environment}
    (tracks : Tracks A done env) (perm : done.Perm done') : Tracks A done' env where
  nodup := tracks.nodup
  within p mem := tracks.within p (perm.mem_iff.mpr mem)
  accounts n := (tracks.accounts n).transfer (fun e mem => waits (n, e) (tracks.within _ mem))
    (Extends.refl env) rfl fun _ => perm.mem_iff.symm
  least := tracks.least

/-- Carrying out assignments of distinct names, one after another, keeps the invariant. -/
theorem Tracks.foldl_assign {done : List (String × String)} {env : Environment}
    (tracks : Tracks A done env) {todo : List (String × String)} (within : ∀ p ∈ todo, p ∈ A)
    (fresh : ((done ++ todo).map Prod.fst).Nodup) :
    Tracks A (done ++ todo) (todo.foldl (fun env p => env.assign p.1 p.2) env) := by
  induction todo generalizing done env with
  | nil => simpa using tracks
  | cons item rest ih =>
    obtain ⟨n, e⟩ := item
    have unassigned : ∀ e', (n, e') ∉ done := by
      intro e' mem
      have split : (done ++ (n, e) :: rest).map Prod.fst =
          done.map Prod.fst ++ n :: rest.map Prod.fst := by simp
      rw [split, List.nodup_append] at fresh
      exact fresh.2.2 n (List.mem_map_of_mem (f := Prod.fst) mem) n List.mem_cons_self rfl
    have step := tracks.assign waits (within (n, e) List.mem_cons_self) unassigned
    have rest' :=
      ih step (fun p mem => within p (List.mem_cons_of_mem _ mem)) (by simpa using fresh)
    simpa using rest'

variable (distinct : (A.map Prod.fst).Nodup)

include distinct

/-- Trying a waiting assignment of the block keeps the invariant. -/
theorem Tracks.settle {env : Environment} {n e : String} (tracks : Tracks A A env)
    (waiting : env.get? n = some (.pending e)) : Tracks A A (env.settle n e) := by
  have mem : (n, e) ∈ A := (tracks.accounts n).pending e waiting
  have unvalued : env.resolved? n = none := by simp [resolved?, waiting]
  have grows : ∀ m, m ≠ n → ∀ e', (m, e') ∈ A ↔ (m, e') ∈ A := fun _ _ _ => Iff.rfl
  cases value : env.evaluate e with
  | resolved v =>
    simp only [Environment.settle, value]
    exact tracks.bind_resolved waits tracks.within grows mem unvalued value
  | pending missing =>
    simp only [Environment.settle, value]
    exact tracks
  | fatal err =>
    simp only [Environment.settle, value]
    have frame := fun m (hm : m ≠ n) => get?_remove_of_ne env hm
    have ext := extends_of_frame unvalued frame
    refine tracks.update waits (nodup_names_remove tracks.nodup _) tracks.within grows ext frame
      ⟨fun x found => ?_, fun e' found => ?_, fun e' assigned _ => ?_⟩ ?_
    · simp at found
    · simp at found
    · rw [expression_unique distinct assigned mem]
      exact ⟨err, evaluate_fatal_of_extends (waits (n, e) mem) ext value⟩
    · intro x found
      simp at found

/-- Passes over the waiting assignments keep the invariant. -/
theorem Tracks.resolvePasses {env : Environment} (tracks : Tracks A A env) (k : Nat) :
    Tracks A A (env.resolvePasses k).2 :=
  -- the invariant does not read the outcomes, so the passes start from none
  @resolvePasses_induction (fun _ env => Tracks A A env)
    (fun tracks waiting => tracks.settle waits distinct waiting) (fun tracks => tracks.nodup)
    [] env tracks k

/-- Resolving the waiting assignments ends stuck, keeping the invariant. -/
theorem Tracks.resolvePending {env : Environment} (tracks : Tracks A A env) :
    Tracks A A env.resolvePending.2 ∧ Stuck env.resolvePending.2 :=
  ⟨tracks.resolvePasses waits distinct _, resolvePasses_stuck tracks.nodup (Nat.lt_succ_self _)⟩

end Invariant

/-- A run that has carried out every assignment and is stuck is closed: every assignment whose
expression has a value binds its name to it. -/
theorem Tracks.closed {A : List (String × String)} (distinct : (A.map Prod.fst).Nodup)
    {env : Environment} (tracks : Tracks A A env) (stuck : Stuck env) : Closed A env := by
  intro n e x mem value
  have acc := tracks.accounts n
  cases found : env.get? n with
  | none =>
    obtain ⟨err, fails⟩ := acc.failed e mem found
    rw [value] at fails
    cases fails
  | some b =>
    cases b with
    | resolved y =>
      obtain ⟨e', mem', value'⟩ := acc.resolved y found
      rw [← expression_unique distinct mem mem', value] at value'
      cases value'
      exact resolved?_eq_some.mpr found
    | pending e' =>
      obtain ⟨missing, still⟩ := stuck n e' found
      rw [← expression_unique distinct mem (acc.pending e' found), value] at still
      cases still

/-- In two runs over the same assignments that give the same values, with the first stuck, a
binding of the first is a binding of the second. -/
theorem get?_of_settled {A : List (String × String)} (distinct : (A.map Prod.fst).Nodup)
    {env env' : Environment} (tracks : Tracks A A env) (stuck : Stuck env)
    (tracks' : Tracks A A env') (views : ∀ m, env.resolved? m = env'.resolved? m) {n : String}
    {b : Binding} (found : env.get? n = some b) : env'.get? n = some b := by
  cases b with
  | resolved x =>
    rw [← resolved?_eq_some, ← views]
    exact resolved?_eq_some.mpr found
  | pending e =>
    -- the expression waits in `env`, so also in `env'`, which must then keep it waiting
    have mem := (tracks.accounts n).pending e found
    obtain ⟨missing, still⟩ := stuck n e found
    have still' : env'.evaluate e = .pending missing := by
      rw [← evaluate_congr fun m _ => views m]
      exact still
    cases found' : env'.get? n with
    | none =>
      obtain ⟨err, fails⟩ := (tracks'.accounts n).failed e mem found'
      rw [still'] at fails
      cases fails
    | some b' =>
      cases b' with
      | resolved y =>
        have valued : env.resolved? n = some y := by
          rw [views]
          exact resolved?_eq_some.mpr found'
        rw [resolved?_eq_some, found] at valued
        cases valued
      | pending e' => rw [expression_unique distinct ((tracks'.accounts n).pending e' found') mem]

/-- Two runs over the same assignments that carried them all out and are stuck bind every name
alike: each is closed, so each gives no value beyond the other. -/
theorem get?_eq_of_settled {A : List (String × String)} (distinct : (A.map Prod.fst).Nodup)
    {env env' : Environment} (tracks : Tracks A A env) (stuck : Stuck env)
    (tracks' : Tracks A A env') (stuck' : Stuck env') (n : String) :
    env.get? n = env'.get? n := by
  have views := Extends.resolved?_eq (tracks.least env' (tracks'.closed distinct stuck'))
    (tracks'.least env (tracks.closed distinct stuck))
  cases found : env.get? n with
  | some b => exact (get?_of_settled distinct tracks stuck tracks' views found).symm
  | none =>
    cases found' : env'.get? n with
    | none => rfl
    | some b =>
      have back := get?_of_settled distinct tracks' stuck' tracks (fun m => (views m).symm) found'
      rw [found] at back
      cases back

end Abacus.Session
