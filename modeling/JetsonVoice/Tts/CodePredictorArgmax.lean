import JetsonVoice.Foundation.Launch
import JetsonVoice.Foundation.Selection
import Mathlib.Algebra.Order.Group.Abs
import Mathlib.Algebra.Order.Ring.Rat
import Mathlib.Tactic.NormNum

/-!
# The argmax of the code predictor

One block of 256 threads selects the next token of a codebook group. Each thread
scans a stride of the logits, and the best of the threads are put together in
shared memory.

## Implementation notes

The value of a finite `float` is a rational number, and two zeros of different
sign are one number, as they are to `==`. The counter of the scan is an `int32_t`:
a run in which it would reach 2 ^ 31 is undefined, which `none` stands for.
-/

namespace JetsonVoice.Tts

open Foundation Foundation.Selection

/-- `FLT_MAX`. -/
def fltMax : ℚ := (2 ^ 24 - 1) * 2 ^ 104

/-- The numbers in the range of the finite floats. -/
abbrev FiniteFloat := {v : ℚ // |v| ≤ fltMax}

/-- `-FLT_MAX`. -/
def negFltMax : FiniteFloat := ⟨-fltMax, by norm_num [fltMax, abs_of_nonneg]⟩

def kThreads : Nat := 256

/-- What thread `tid` has found when it enters the reduction. -/
def scanned (groupLogits : Nat → FiniteFloat) (codebookSize tid : Nat) : FiniteFloat × Nat :=
  ((strides tid kThreads codebookSize).map fun idx => (groupLogits idx, idx)).foldl keep
    (negFltMax, 0)

/-- The logits of a group. -/
def groupLogits (logits : Nat → FiniteFloat) (codebookSize group idx : Nat) : FiniteFloat :=
  logits (group * codebookSize + idx)

/-- `qwen3TtsCpArgmaxKernel`: the index the first thread writes. -/
def argmaxKernel (logits : Nat → FiniteFloat) (codebookSize group : Nat) : Nat :=
  (treeFold keep 8 (scanned (groupLogits logits codebookSize group) codebookSize) 0).2

/-- `qwen3TtsCpArgmax`. -/
def qwen3TtsCpArgmax? (logits : Nat → FiniteFloat) (codebookSize group : Nat)
    (selectedTokens : Nat → Nat) : Option (Nat → Nat) :=
  if ∀ tid < kThreads, strideEnd tid kThreads codebookSize < 2 ^ 31 then
    some (Function.update selectedTokens group (argmaxKernel logits codebookSize group))
  else none

/-- The first index of a greatest value. -/
def FirstMaximum (value : Nat → FiniteFloat) (size idx : Nat) : Prop :=
  IsLeast {i | i < size ∧ ∀ j < size, value j ≤ value i} idx

/-- The token of the group is the first index of its greatest logit, and no other token
is written. -/
def SelectsFirst (logits : Nat → FiniteFloat) (codebookSize group : Nat)
    (selectedTokens : Nat → Nat) : Prop :=
  ∃ tokens, qwen3TtsCpArgmax? logits codebookSize group selectedTokens = some tokens ∧
    FirstMaximum (groupLogits logits codebookSize group) codebookSize (tokens group) ∧
    ∀ other ≠ group, tokens other = selectedTokens other

section Selecting
variable {value logits : Nat → FiniteFloat} {codebookSize group tid : Nat}
  {selectedTokens : Nat → Nat}

theorem negFltMax_le (v : FiniteFloat) : negFltMax ≤ v := (abs_le.mp v.property).1

/-- A thread that has scanned nothing holds a candidate that is not better than any. -/
theorem sentinel_le (v : FiniteFloat) : key (negFltMax, 0) ≤ key (v, 0) :=
  Prod.Lex.toLex_mono (Prod.mk_le_mk.mpr ⟨negFltMax_le v, le_rfl⟩)

/-- A thread ends with the best of its candidates and of the one it starts with. -/
theorem scanned_isGreatest (value : Nat → FiniteFloat) (codebookSize tid : Nat) :
    IsGreatest {c | c = key (negFltMax, 0) ∨
        ∃ idx ∈ strides tid kThreads codebookSize, c = key (value idx, idx)}
      (key (scanned value codebookSize tid)) := by
  have hset : {c | c = key (negFltMax, 0) ∨
      ∃ idx ∈ strides tid kThreads codebookSize, c = key (value idx, idx)} =
      {c | c = key (negFltMax, 0) ∨
        c ∈ (((strides tid kThreads codebookSize).map fun idx => (value idx, idx)).map key)} := by
    ext c
    simp [eq_comm]
  rw [scanned, map_foldl key_keep, hset]
  exact foldl_max_isGreatest _ _

/-- Every index is in the stride of one thread. -/
theorem mem_strides_mod {idx : Nat} (h : idx < codebookSize) :
    idx ∈ strides (idx % kThreads) kThreads codebookSize := by
  have hdiv := Nat.mod_add_div idx kThreads
  have hsub : idx - idx % kThreads = kThreads * (idx / kThreads) := by omega
  exact (mem_strides (by decide)).mpr ⟨Nat.mod_le _ _, h, by rw [hsub, Nat.mul_mod_right]⟩

/-- The block ends with the best of all candidates. -/
theorem argmaxKernel_firstMaximum (hn : 0 < codebookSize) :
    FirstMaximum (groupLogits logits codebookSize group) codebookSize
      (argmaxKernel logits codebookSize group) := by
  rw [argmaxKernel]
  generalize groupLogits logits codebookSize group = value
  have htree := treeFold_max_isGreatest 8 fun tid => key (scanned value codebookSize tid)
  rw [← map_treeFold key_keep] at htree
  obtain ⟨⟨tid, -, hbest⟩, hle⟩ := htree
  have hall {idx : Nat} (h : idx < codebookSize) :
      key (value idx, idx) ≤ key (treeFold keep 8 (scanned value codebookSize) 0) :=
    ((scanned_isGreatest value codebookSize _).2 (.inr ⟨idx, mem_strides_mod h, rfl⟩)).trans
      (hle ⟨idx % kThreads, Nat.mod_lt idx (by decide), rfl⟩)
  refine isLeast_of_isGreatest (v := (treeFold keep 8 (scanned value codebookSize) 0).1)
    ⟨?_, by rintro _ ⟨idx, h, rfl⟩; exact hall h⟩
  rcases (scanned_isGreatest value codebookSize tid).1 with h | ⟨idx, hidx, h⟩
  · -- Only where all logits are `-FLT_MAX` does an idle thread win, with the index 0.
    exact ⟨0, hn, le_antisymm (hall hn) ((hbest.symm.trans h).le.trans (sentinel_le _))⟩
  · exact ⟨idx, ((mem_strides (by decide)).mp hidx).2.1, h.symm.trans hbest⟩

/-- The counters of the threads stay below 2 ^ 31 if the one that reaches the last
logit does. -/
theorem counters_fit_iff (hn : 0 < codebookSize) :
    (∀ tid < kThreads, strideEnd tid kThreads codebookSize < 2 ^ 31) ↔
      codebookSize + 255 < 2 ^ 31 := by
  constructor
  · intro h
    have hlast := h ((codebookSize - 1) % kThreads) (Nat.mod_lt _ (by decide))
    rw [strideEnd_of_last (by decide) hn rfl, kThreads] at hlast
    omega
  · intro h tid htid
    have hle := strideEnd_le tid codebookSize (show 0 < kThreads by decide)
    rw [kThreads] at hle htid ⊢
    omega

/-- The kernel selects the first of the greatest logits where its counters do not
overflow. -/
theorem argmax_selects_first_iff (hn : 0 < codebookSize) (logits : Nat → FiniteFloat)
    (group : Nat) (selectedTokens : Nat → Nat) :
    SelectsFirst logits codebookSize group selectedTokens ↔ codebookSize + 255 < 2 ^ 31 := by
  rw [← counters_fit_iff hn]
  constructor
  · rintro ⟨tokens, hrun, -⟩
    by_contra hover
    rw [qwen3TtsCpArgmax?, if_neg hover] at hrun
    cases hrun
  · intro hfit
    refine ⟨_, if_pos hfit, ?_, fun other hother => Function.update_of_ne hother _ _⟩
    rw [Function.update_self]
    exact argmaxKernel_firstMaximum hn

def zeroFloat : FiniteFloat := ⟨0, by norm_num [fltMax]⟩

/-- Three logits, the greatest of them twice. -/
theorem argmax_selects_first_tied :
    SelectsFirst (fun idx => if idx = 0 then negFltMax else zeroFloat) 3 0 (fun _ => 7) ↔
      3 + 255 < 2 ^ 31 :=
  argmax_selects_first_iff (by decide) _ _ _

/-- The greatest codebook an `int32_t` can name is not scanned to its end. -/
theorem largest_codebook_overflows :
    ¬ SelectsFirst (fun _ => negFltMax) (2 ^ 31 - 1) 0 fun _ => 0 := by
  rintro ⟨tokens, hrun, -⟩
  have hover : ¬ ∀ tid < kThreads, strideEnd tid kThreads (2 ^ 31 - 1) < 2 ^ 31 := by
    rw [counters_fit_iff (by decide)]
    decide
  rw [qwen3TtsCpArgmax?, if_neg hover] at hrun
  cases hrun

end Selecting

end JetsonVoice.Tts
