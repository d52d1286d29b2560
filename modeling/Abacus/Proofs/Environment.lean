import Abacus.Session.Environment
import Mathlib.Data.List.Nodup

/-!
# Environments as finite maps

An environment is read through `get?`: binding a name changes its binding and no other, and
removing a name drops its binding and no other. Binding and removing keep the bound names
distinct, and with distinct names the waiting assignments are exactly the pending bindings, so
two environments that bind every name alike list the same waiting assignments, perhaps in
another order.
-/
namespace Abacus.Session.Environment

/-- The bound names, in order. -/
def names (env : Environment) : List String := env.entries.map Prod.fst

@[simp]
theorem get?_empty (n : String) : empty.get? n = none := rfl

theorem get?_bindIn (entries : List (String × Binding)) (name m : String) (b : Binding) :
    ((bindIn name b entries).find? fun e => e.1 == m).map (·.2) =
      if m = name then some b else (entries.find? fun e => e.1 == m).map (·.2) := by
  induction entries with
  | nil =>
    by_cases h : m = name
    · simp [bindIn, h]
    · simp [bindIn, h, Ne.symm h]
  | cons entry rest ih =>
    obtain ⟨n, old⟩ := entry
    by_cases bound : n = name
    · subst bound
      by_cases h : m = n
      · simp [bindIn, h]
      · simp [bindIn, h, Ne.symm h]
    · by_cases h : n = m
      · subst h
        simp [bindIn, bound]
      · simp [bindIn, bound, h, ih]

@[simp]
theorem get?_bind (env : Environment) (name m : String) (b : Binding) :
    (env.bind name b).get? m = if m = name then some b else env.get? m :=
  get?_bindIn env.entries name m b

@[simp]
theorem get?_remove (env : Environment) (name m : String) :
    (env.remove name).get? m = if m = name then none else env.get? m := by
  unfold get? remove
  by_cases h : m = name
  · subst h
    simp [List.find?_filter, List.find?_eq_none]
  · simp only [h, if_false, List.find?_filter]
    congr 2
    funext e
    by_cases hm : e.1 = m
    · simp [hm, h]
    · simp [hm]

theorem get?_bind_of_ne (env : Environment) {name m : String} (b : Binding) (h : m ≠ name) :
    (env.bind name b).get? m = env.get? m := by
  simp [h]

theorem get?_remove_of_ne (env : Environment) {name m : String} (h : m ≠ name) :
    (env.remove name).get? m = env.get? m := by
  simp [h]

theorem resolved?_eq_some {env : Environment} {n : String} {x : Float} :
    env.resolved? n = some x ↔ env.get? n = some (.resolved x) := by
  unfold resolved?
  split <;> simp_all

theorem names_bind (env : Environment) (name : String) (b : Binding) :
    (env.bind name b).names = if name ∈ env.names then env.names else env.names ++ [name] := by
  unfold names bind
  induction env.entries with
  | nil => simp [bindIn]
  | cons entry rest ih =>
    obtain ⟨n, old⟩ := entry
    by_cases bound : n = name
    · simp [bindIn, bound]
    · by_cases inRest : name ∈ rest.map Prod.fst
      · simp_all [bindIn]
      · simp_all [bindIn, Ne.symm bound]

/-- The names listed are exactly the bound ones. -/
theorem mem_names_iff (env : Environment) (n : String) : n ∈ env.names ↔ (env.get? n).isSome := by
  unfold names get?
  rw [Option.isSome_map, List.find?_isSome, List.mem_map]
  simp only [beq_iff_eq]

theorem names_remove (env : Environment) (name : String) :
    (env.remove name).names = env.names.filter (· != name) := by
  simp only [names, remove, List.filter_map]
  rfl

theorem nodup_names_bind {env : Environment} (h : env.names.Nodup) (name : String)
    (b : Binding) : (env.bind name b).names.Nodup := by
  rw [names_bind]
  split
  · exact h
  · next fresh =>
    refine List.nodup_append.mpr ⟨h, List.nodup_singleton name, ?_⟩
    intro a mem b single same
    rw [List.mem_singleton] at single
    exact fresh (single ▸ same ▸ mem)

theorem nodup_names_remove {env : Environment} (h : env.names.Nodup) (name : String) :
    (env.remove name).names.Nodup := by
  rw [names_remove]
  exact h.filter _

theorem find?_eq_some_iff {entries : List (String × Binding)} (h : (entries.map Prod.fst).Nodup)
    {n : String} {b : Binding} :
    ((entries.find? fun e => e.1 == n).map (·.2)) = some b ↔ (n, b) ∈ entries := by
  induction entries with
  | nil => simp
  | cons entry rest ih =>
    obtain ⟨k, old⟩ := entry
    simp only [List.map_cons, List.nodup_cons] at h
    by_cases hk : k = n
    · subst hk
      have absent : (k, b) ∉ rest := fun mem => h.1 (List.mem_map.mpr ⟨_, mem, rfl⟩)
      simp [absent, eq_comm]
    · simp [hk, Ne.symm hk, ih h.2]

theorem get?_eq_some_iff {env : Environment} (h : env.names.Nodup) {n : String}
    {b : Binding} : env.get? n = some b ↔ (n, b) ∈ env.entries :=
  find?_eq_some_iff h

theorem mem_pending_iff {env : Environment} (h : env.names.Nodup) {n e : String} :
    (n, e) ∈ env.pending ↔ env.get? n = some (.pending e) := by
  rw [get?_eq_some_iff h]
  unfold pending
  constructor
  · intro mem
    obtain ⟨⟨k, b⟩, inEntries, found⟩ := List.mem_filterMap.mp mem
    cases b with
    | resolved v => simp at found
    | pending e' =>
      simp only [Option.some.injEq, Prod.mk.injEq] at found
      obtain ⟨rfl, rfl⟩ := found
      exact inEntries
  · intro mem
    exact List.mem_filterMap.mpr ⟨(n, .pending e), mem, rfl⟩

theorem pending_names_sublist (env : Environment) :
    (env.pending.map Prod.fst).Sublist env.names := by
  unfold pending names
  induction env.entries with
  | nil => simp
  | cons entry rest ih =>
    obtain ⟨k, b⟩ := entry
    cases b with
    | resolved v => simpa using ih.cons k
    | pending e => simpa using ih.cons_cons k

theorem nodup_pending_names {env : Environment} (h : env.names.Nodup) :
    (env.pending.map Prod.fst).Nodup :=
  env.pending_names_sublist.nodup h

theorem nodup_pending {env : Environment} (h : env.names.Nodup) : env.pending.Nodup :=
  List.Nodup.of_map Prod.fst (nodup_pending_names h)

/-- Resolving a waiting assignment leaves one fewer waiting. -/
theorem pending_length_bind_resolved {env : Environment} {n e : String}
    (h : env.get? n = some (.pending e)) (x : Float) :
    (env.bind n (.resolved x)).pending.length + 1 = env.pending.length := by
  obtain ⟨entries⟩ := env
  simp only [get?, bind, pending] at h ⊢
  induction entries with
  | nil => simp at h
  | cons entry rest ih =>
    obtain ⟨k, old⟩ := entry
    by_cases hk : k = n
    · subst hk
      simp only [List.find?_cons, beq_self_eq_true, Option.map_some, Option.some.injEq] at h
      subst h
      simp [bindIn]
    · have other : (k == n) = false := by simpa using hk
      simp only [List.find?_cons, other] at h
      cases old <;> simp [bindIn, hk, ih h]

/-- Dropping a waiting assignment leaves one fewer waiting. -/
theorem pending_length_remove {env : Environment} (nodup : env.names.Nodup) {n e : String}
    (h : env.get? n = some (.pending e)) :
    (env.remove n).pending.length + 1 = env.pending.length := by
  obtain ⟨entries⟩ := env
  simp only [names, get?, remove, pending] at nodup h ⊢
  induction entries with
  | nil => simp at h
  | cons entry rest ih =>
    obtain ⟨k, old⟩ := entry
    simp only [List.map_cons, List.nodup_cons] at nodup
    by_cases hk : k = n
    · subst hk
      simp only [List.find?_cons, beq_self_eq_true, Option.map_some, Option.some.injEq] at h
      subst h
      have kept : rest.filter (fun entry => entry.1 != k) = rest := by
        refine List.filter_eq_self.mpr fun entry mem => ?_
        have : entry.1 ≠ k := fun same => nodup.1 (same ▸ List.mem_map_of_mem mem)
        simpa using this
      simp [kept]
    · have other : (k == n) = false := by simpa using hk
      simp only [List.find?_cons, other] at h
      cases old <;> simp [hk, ih nodup.2 h]

/-- Environments with distinct names that bind every name alike wait for the same assignments. -/
theorem pending_perm {env env' : Environment} (h : env.names.Nodup) (h' : env'.names.Nodup)
    (same : ∀ n, env.get? n = env'.get? n) : env.pending.Perm env'.pending := by
  refine (List.perm_ext_iff_of_nodup (nodup_pending h) (nodup_pending h')).mpr ?_
  intro ⟨n, e⟩
  rw [mem_pending_iff h, mem_pending_iff h', same]

end Abacus.Session.Environment
