import Mathlib.Data.List.Basic
import Mathlib.Logic.Function.Basic

/-!
# The KV cache shared by the sessions of one engine

A row has a cell for every position and a committed length. A cell keeps its
value when the length is moved back, and the next prefill overwrites it. What
the engine reads is the view: the committed cells of every row, the all-empty
flag that tells a first prefill from an append, and the active batch size.

## Implementation notes

Prefill and decode write the cells and commit the lengths in one operation
here. Lengths only grow by what was written, so a length is never ahead of the
cells it covers.
-/

namespace JetsonVoice.Runtime

/-- One batch row: the token written at each position, and the committed length. -/
structure KvRow where
  cells : Nat → Int := fun _ => 0
  length : Nat := 0

namespace KvRow

/-- The tokens the engine reads of the row. -/
def committed (r : KvRow) : List Int :=
  (List.range r.length).map r.cells

/-- Write tokens after the committed ones and commit them. -/
def push (r : KvRow) (tokens : List Int) : KvRow where
  cells p := if r.length ≤ p then (tokens[p - r.length]?).getD (r.cells p) else r.cells p
  length := r.length + tokens.length

/-- Overwrite the committed length; the cells stay. -/
def withLength (r : KvRow) (n : Nat) : KvRow := { r with length := n }

@[simp] theorem committed_length (r : KvRow) : r.committed.length = r.length := by
  simp [committed]

@[simp] theorem push_length (r : KvRow) (tokens : List Int) :
    (r.push tokens).length = r.length + tokens.length := rfl

@[simp] theorem withLength_length (r : KvRow) (n : Nat) : (r.withLength n).length = n := rfl

@[simp] theorem withLength_self (r : KvRow) : r.withLength r.length = r := rfl

/-- A push leaves every committed cell alone. -/
theorem push_cells_of_lt (r : KvRow) (tokens : List Int) {p : Nat} (h : p < r.length) :
    (r.push tokens).cells p = r.cells p := by
  simp [push, Nat.not_le.mpr h]

/-- A push appends its tokens to the committed ones. -/
theorem push_committed (r : KvRow) (tokens : List Int) :
    (r.push tokens).committed = r.committed ++ tokens := by
  apply List.ext_getElem
  · simp
  · intro p hp _
    rw [committed_length, push_length] at hp
    rw [List.getElem_append]
    by_cases h : p < r.length
    · simp [committed, push_cells_of_lt r tokens h, h]
    · have ht : p - r.length < tokens.length := by omega
      simp [committed, push, h, ht]

/-- Moving the length back recovers what was committed at that length. -/
theorem withLength_committed {r r' : KvRow} (h : ∀ p < r.length, r'.cells p = r.cells p) :
    (r'.withLength r.length).committed = r.committed := by
  apply List.map_congr_left
  intro p hp
  exact h p (List.mem_range.mp hp)

theorem committed_eq_nil {r : KvRow} : r.committed = [] ↔ r.length = 0 := by
  rw [← List.length_eq_zero_iff, committed_length]

end KvRow

/-- What the engine reads of the cache. -/
structure KvView where
  committed : Nat → List Int
  allEmpty : Bool
  activeBatch : Nat

/-- `HybridCacheManager`: the rows, the all-empty flag and the active batch,
which never exceeds the rows the cache was allocated with. -/
structure KvCache where
  rows : Nat → KvRow := fun _ => {}
  allEmpty : Bool := true
  activeBatch : Nat := 0
  maxBatch : Nat
  activeBatch_le : activeBatch ≤ maxBatch := by omega

namespace KvCache

variable (c : KvCache)

/-- The part of the cache the engine reads. -/
def view : KvView where
  committed i := (c.rows i).committed
  allEmpty := c.allEmpty
  activeBatch := c.activeBatch

/-- Replace one row. -/
def setRow (i : Nat) (r : KvRow) : KvCache := { c with rows := Function.update c.rows i r }

/-- Seat `n` empty rows; the rows beyond keep their lengths. -/
def resetForNewSequences (n : Nat) (h : n ≤ c.maxBatch) : KvCache where
  rows i := if i < n then (c.rows i).withLength 0 else c.rows i
  allEmpty := true
  activeBatch := n
  maxBatch := c.maxBatch
  activeBatch_le := h

/-- Empty one row in place. Other rows may hold tokens, so the flag is cleared. -/
def resetLane (lane : Nat) : KvCache :=
  { c.setRow lane ((c.rows lane).withLength 0) with allEmpty := false }

/-- Write one span for each row from row 0 on and commit the lengths. -/
def commit (spans : List (List Int)) : KvCache where
  rows i := match spans[i]? with
    | some span => (c.rows i).push span
    | none => c.rows i
  allEmpty := false
  activeBatch := c.activeBatch
  maxBatch := c.maxBatch
  activeBatch_le := c.activeBatch_le

/-- The length of a lane, readable only inside the active batch. -/
def peekKvCacheLength (lane : Nat) : Option Nat :=
  if lane < c.activeBatch then some (c.rows lane).length else none

/-- Write a saved length back; a lane outside the cache is only logged. -/
def restoreKvCacheLength (lane savedLen : Nat) : KvCache :=
  if lane < c.maxBatch then c.setRow lane ((c.rows lane).withLength savedLen) else c

/-- Change the active batch size within the allocated rows. -/
def setActiveBatchSize (n : Nat) (h : n ≤ c.maxBatch) : KvCache where
  rows := c.rows
  allEmpty := c.allEmpty
  activeBatch := n
  maxBatch := c.maxBatch
  activeBatch_le := h

variable {c}

@[simp] theorem setRow_same (i : Nat) (r : KvRow) : (c.setRow i r).rows i = r := by
  simp [setRow]

theorem setRow_ne {i j : Nat} (r : KvRow) (h : j ≠ i) : (c.setRow i r).rows j = c.rows j := by
  simp [setRow, h]

@[simp] theorem setRow_allEmpty (i : Nat) (r : KvRow) : (c.setRow i r).allEmpty = c.allEmpty := rfl

@[simp] theorem setRow_activeBatch (i : Nat) (r : KvRow) :
    (c.setRow i r).activeBatch = c.activeBatch := rfl

@[simp] theorem setRow_maxBatch (i : Nat) (r : KvRow) : (c.setRow i r).maxBatch = c.maxBatch := rfl

@[simp] theorem commit_allEmpty (spans : List (List Int)) : (c.commit spans).allEmpty = false := rfl

@[simp] theorem commit_activeBatch (spans : List (List Int)) :
    (c.commit spans).activeBatch = c.activeBatch := rfl

@[simp] theorem commit_maxBatch (spans : List (List Int)) :
    (c.commit spans).maxBatch = c.maxBatch := rfl

/-- A row without a span is left alone. -/
theorem commit_rows_of_le {spans : List (List Int)} {i : Nat} (h : spans.length ≤ i) :
    (c.commit spans).rows i = c.rows i := by
  simp [commit, h]

@[simp] theorem commit_row_zero (span : List Int) :
    (c.commit [span]).rows 0 = (c.rows 0).push span := rfl

@[simp] theorem commit_row_succ (span : List Int) (i : Nat) :
    (c.commit [span]).rows (i + 1) = c.rows (i + 1) := rfl

/-- Every row is extended by its span. -/
theorem commit_committed (spans : List (List Int)) (i : Nat) :
    ((c.commit spans).rows i).committed = (c.rows i).committed ++ spans[i]?.getD [] := by
  cases hs : spans[i]? with
  | none => simp [commit, hs]
  | some span => simp [commit, hs, KvRow.push_committed]

theorem resetForNewSequences_committed (n : Nat) (h : n ≤ c.maxBatch) (i : Nat) :
    ((c.resetForNewSequences n h).rows i).committed =
      if i < n then [] else (c.rows i).committed := by
  simp only [resetForNewSequences]
  split <;> rfl

theorem resetLane_committed (lane i : Nat) : ((c.resetLane lane).rows i).committed =
    Function.update (fun i => (c.rows i).committed) lane [] i := by
  by_cases h : i = lane
  · subst h
    rw [Function.update_self]
    exact congrArg KvRow.committed (setRow_same i _)
  · rw [Function.update_of_ne h]
    exact congrArg KvRow.committed (setRow_ne _ h)

/-- What the engine reads after a commit is a function of what it read before. -/
theorem commit_view {c' : KvCache} (h : c.view = c'.view) (spans : List (List Int)) :
    (c.commit spans).view = (c'.commit spans).view := by
  have hrow : ∀ i, (c.rows i).committed = (c'.rows i).committed :=
    fun i => congrFun (congrArg KvView.committed h) i
  have hrows : ∀ i, ((c.commit spans).rows i).committed = ((c'.commit spans).rows i).committed := by
    intro i
    cases hs : spans[i]? with
    | none => simp only [commit, hs, hrow]
    | some span => simp only [commit, hs, KvRow.push_committed, hrow]
  have hactive : c.activeBatch = c'.activeBatch := congrArg KvView.activeBatch h
  simp only [view, hrows, commit_allEmpty, commit_activeBatch, hactive]

theorem peekKvCacheLength_eq_some {lane n : Nat} :
    c.peekKvCacheLength lane = some n ↔ lane < c.activeBatch ∧ (c.rows lane).length = n := by
  simp [peekKvCacheLength]

end KvCache

/-- A cache of two rows. -/
def twoRows : KvCache := { maxBatch := 2 }

end JetsonVoice.Runtime
