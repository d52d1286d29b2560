import Abacus.Script
import Mathlib.Tactic.SplitIfs

/-!
# The blocks of a script

The blocks of a script are the maximal runs of lines that are not blank (`runs`: the pieces
between blank lines, the empty ones left out), taken among the lines that are read
(`ReadLines`): every line up to the first one whose text, trailing blanks aside, ends in `close`
in any ASCII case (`ClosesWith`), and that one without the word.

Main statement (`blocks_split`): the blocks of every script are the runs of its read lines. So
no block is empty, no line of a block is blank, and the blocks together hold exactly the read
lines that are not blank, in their order.
-/

namespace Abacus.Script

open Text

/-- `line` ends in `close`, in any ASCII case, before its trailing blanks, and `rest` is the text
before the word. -/
def ClosesWith (line rest : String) : Prop :=
  ∃ word : List Char, word.map Char.toLower = "close".toList ∧
    dropTrailingBlanks line.toList = rest.toList ++ word

/-- The lines of a script that are read: all of them up to the first that closes, which is read
without its `close`. -/
inductive ReadLines : List String → List String → Prop
  | nil : ReadLines [] []
  | close {line rest : String} {after : List String} :
      ClosesWith line rest → ReadLines (line :: after) [rest]
  | keep {line : String} {after read : List String} :
      (∀ rest, ¬ ClosesWith line rest) → ReadLines after read →
        ReadLines (line :: after) (line :: read)

/-- The maximal runs of consecutive lines that are not blank. -/
def runs (lines : List String) : List (List String) :=
  (lines.splitOnP isBlankText).filter fun run => !run.isEmpty

section Runs

variable {α : Type} (p : α → Bool)

/-- No piece between separators holds a separator. -/
theorem not_of_mem_splitOnP (xs : List α) :
    ∀ piece ∈ xs.splitOnP p, ∀ x ∈ piece, p x = false := by
  induction xs with
  | nil => simp
  | cons y ys ih =>
    rw [List.splitOnP_cons_eq_if_modifyHead]
    split_ifs with sep
    · simpa using ih
    · -- `y` joins the first piece of the rest
      obtain ⟨first, later, split⟩ := List.exists_cons_of_ne_nil (List.splitOnP_ne_nil p ys)
      rw [split] at ih ⊢
      simp only [List.modifyHead_cons, List.mem_cons, forall_eq_or_imp] at ih ⊢
      exact ⟨⟨by simpa using sep, ih.1⟩, ih.2⟩

/-- The pieces between separators hold, in order, exactly the elements that are no separators. -/
theorem flatten_splitOnP (xs : List α) :
    (xs.splitOnP p).flatten = xs.filter fun x => !p x := by
  induction xs with
  | nil => simp
  | cons y ys ih =>
    rw [List.splitOnP_cons_eq_if_modifyHead]
    split_ifs with sep
    · simp [sep, ih]
    · obtain ⟨first, later, split⟩ := List.exists_cons_of_ne_nil (List.splitOnP_ne_nil p ys)
      rw [split] at ih ⊢
      simp [sep, ← ih]

end Runs

/-- A run is not empty and holds no blank line. -/
theorem mem_runs {lines : List String} {run : List String} (mem : run ∈ runs lines) :
    run ≠ [] ∧ ∀ line ∈ run, isBlankText line = false := by
  simp only [runs, List.mem_filter, Bool.not_eq_true', List.isEmpty_eq_false_iff] at mem
  exact ⟨mem.2, not_of_mem_splitOnP isBlankText lines run mem.1⟩

/-- The runs hold, in order, exactly the lines that are not blank. -/
theorem flatten_runs (lines : List String) :
    (runs lines).flatten = lines.filter fun line => !isBlankText line := by
  rw [runs, List.flatten_filter_not_isEmpty, flatten_splitOnP]

/-- Lines that are not blank, and nothing after them, are one run, unless there are none. -/
theorem runs_of_solid {current : List String}
    (solid : ∀ line ∈ current, isBlankText line = false) :
    runs current = closeBlock current := by
  rw [runs, List.splitOnP_eq_singleton solid]
  cases current <;> simp [closeBlock]

/-- A blank line ends the run of the lines that are not blank before it. -/
theorem runs_of_solid_blank {current : List String}
    (solid : ∀ line ∈ current, isBlankText line = false) {blank : String}
    (isBlank : isBlankText blank = true) (after : List String) :
    runs (current ++ blank :: after) = closeBlock current ++ runs after := by
  rw [runs, List.splitOnP_append_cons_of_forall_mem solid blank isBlank after, List.filter_cons]
  cases current <;> simp [closeBlock, runs]

/-- A line that is not blank keeps an open block free of blank lines. -/
theorem solid_append {current : List String} (solid : ∀ line ∈ current, isBlankText line = false)
    {line : String} (notBlank : isBlankText line = false) :
    ∀ l ∈ current ++ [line], isBlankText l = false := by
  intro l mem
  rcases List.mem_append.1 mem with old | new
  · exact solid l old
  · rw [List.mem_singleton.1 new]
    exact notBlank

/-- A line ends in `close` exactly as `stripClose?` finds it. -/
theorem stripClose?_eq_some_iff {line rest : String} :
    stripClose? line = some rest ↔ ClosesWith line rest := by
  simp only [stripClose?, ClosesWith]
  generalize dropTrailingBlanks line.toList = t
  constructor
  · intro found
    split_ifs at found with ends
    cases found
    exact ⟨t.drop (t.length - 5), ends.2, by rw [String.toList_ofList, List.take_append_drop]⟩
  · rintro ⟨word, lower, split⟩
    have five : word.length = 5 := by simpa using congrArg List.length lower
    have cut : t.length - 5 = rest.toList.length := by rw [split]; simp [five]
    have ends : 5 ≤ t.length ∧ (t.drop (t.length - 5)).map Char.toLower = "close".toList := by
      refine ⟨by rw [split]; simp [five], ?_⟩
      rw [cut, split, List.drop_left]
      exact lower
    rw [if_pos ends, cut, split, List.take_left, String.ofList_toList]

/-- The blocks after an open block of lines that are not blank are the runs of that block
followed by the lines read. -/
theorem blocksFrom_eq_runs (current : List String)
    (solid : ∀ line ∈ current, isBlankText line = false) (lines : List String) :
    ∃ read, ReadLines lines read ∧ blocksFrom current lines = runs (current ++ read) := by
  induction lines generalizing current with
  | nil => exact ⟨[], .nil, by simp [blocksFrom, runs_of_solid solid]⟩
  | cons line after ih =>
    cases closing : stripClose? line with
    | some rest =>
      -- a closing line is the last one read, without its `close`
      refine ⟨[rest], .close (stripClose?_eq_some_iff.1 closing), ?_⟩
      by_cases isBlank : isBlankText rest = true
      · have ends : runs (current ++ [rest]) = closeBlock current := by
          rw [runs_of_solid_blank solid isBlank []]
          simp [runs]
        simp [blocksFrom, closing, isBlank, ends, closeBlock]
      · have solid' := solid_append solid (by simpa using isBlank)
        simp [blocksFrom, closing, isBlank, runs_of_solid solid']
    | none =>
      have keep : ∀ rest, ¬ ClosesWith line rest := fun rest closes => by
        rw [← stripClose?_eq_some_iff, closing] at closes
        cases closes
      by_cases isBlank : isBlankText line = true
      · -- a blank line closes the open block, and a new one starts empty
        obtain ⟨read, reads, rest⟩ := ih [] (by simp)
        refine ⟨line :: read, .keep keep reads, ?_⟩
        simp only [blocksFrom, closing, Option.getD_none, isBlank, ↓reduceIte, Option.isSome_none,
          Bool.false_eq_true, List.nil_append, rest, runs_of_solid_blank solid isBlank]
      · -- a line that is not blank joins the open block
        have solid' := solid_append solid (by simpa using isBlank)
        obtain ⟨read, reads, rest⟩ := ih (current ++ [line]) solid'
        refine ⟨line :: read, .keep keep reads, ?_⟩
        simp only [blocksFrom, closing, Option.getD_none, isBlank, ↓reduceIte, Option.isSome_none,
          Bool.false_eq_true, List.nil_append, rest, List.append_assoc, List.singleton_append]

/-- The blocks of a script are the maximal runs of its read lines that are not blank: no block
is empty, no line of a block is blank, and together the blocks hold exactly the read lines that
are not blank, in order. -/
theorem blocks_split (script : String) :
    ∃ read, ReadLines (lines script) read ∧ blocks script = runs read ∧
      (∀ block ∈ blocks script, block ≠ [] ∧ ∀ line ∈ block, isBlankText line = false) ∧
      (blocks script).flatten = read.filter fun line => !isBlankText line := by
  obtain ⟨read, reads, split⟩ := blocksFrom_eq_runs [] (by simp) (lines script)
  have runs_read : blocks script = runs read := split
  refine ⟨read, reads, runs_read, fun block mem => mem_runs (runs_read ▸ mem), ?_⟩
  rw [runs_read, flatten_runs]

end Abacus.Script
