import Mathlib.Data.List.Induction
import Mathlib.Order.Nat

/-!
# Regrouping a stream of blocks

Blocks of items come in one after another, the last of them marked. The first
is passed on as it is, the later ones together, when there are enough items.
-/

namespace JetsonVoice.Foundation

/-- What a regrouping has kept back. -/
structure Regroup (α : Type*) where
  started : Bool := false
  buffer : List α := []

namespace Regroup
variable {α : Type*} {steady : Option Int} {r : Regroup α} {blocks : List (List α × Bool)}
  {block : List α} {last : Bool} {k f : Int}

/-- Take the next block. Without a size every block is passed on. With one the
first block is passed on, later ones together when there are as many items, and
the last one with whatever has been kept back. -/
def feed (steady : Option Int) (r : Regroup α) (block : List α) (last : Bool) :
    Regroup α × Option (List α) :=
  match steady with
  | none => (r, some block)
  | some k =>
      if r.started then
        let buffer := r.buffer ++ block
        if last ∨ k ≤ buffer.length then ({ r with buffer := [] }, some buffer)
        else ({ r with buffer := buffer }, none)
      else ({ r with started := true }, some block)

theorem feed_none : r.feed none block last = (r, some block) := rfl

theorem feed_first (h : r.started = false) :
    r.feed (some k) block last = ({ r with started := true }, some block) := by
  simp [feed, h]

theorem feed_full (h : r.started = true) (hk : last = true ∨ k ≤ (r.buffer ++ block).length) :
    r.feed (some k) block last = ({ r with buffer := [] }, some (r.buffer ++ block)) := by
  rw [feed, if_pos h, if_pos hk]

theorem feed_keep (h : r.started = true) (hk : ¬ (last = true ∨ k ≤ (r.buffer ++ block).length)) :
    r.feed (some k) block last = ({ r with buffer := r.buffer ++ block }, none) := by
  rw [feed, if_pos h, if_neg hk]

/-- Regroup a list of blocks, each marked whether it is the last one. -/
def run (steady : Option Int) (blocks : List (List α × Bool)) :
    Regroup α × List (List α × Bool) :=
  blocks.foldl (fun acc b =>
    let (r, out) := acc.1.feed steady b.1 b.2
    (r, acc.2 ++ (out.map fun o => (o, b.2)).toList)) ({}, [])

theorem run_snoc (steady : Option Int) (blocks : List (List α × Bool)) (b : List α × Bool) :
    run steady (blocks ++ [b]) =
      (((run steady blocks).1.feed steady b.1 b.2).1, (run steady blocks).2 ++
        (((run steady blocks).1.feed steady b.1 b.2).2.map fun o => (o, b.2)).toList) := by
  rw [run, List.foldl_append]
  rfl

/-- Without a size the blocks are passed on as they are. -/
theorem run_none (blocks : List (List α × Bool)) : run none blocks = ({}, blocks) := by
  induction blocks using List.reverseRecOn with
  | nil => rfl
  | append_singleton blocks b ih =>
      rw [run_snoc, ih]
      rfl

/-- With a size, a run has started and passed on a first block when it has taken one. -/
structure Begun (blocks : List (List α × Bool)) (acc : Regroup α × List (List α × Bool)) : Prop where
  started : acc.1.started = true ↔ blocks ≠ []
  buffer : acc.1.started = false → acc.1.buffer = []
  head : acc.2.head? = blocks.head?

theorem Begun.eq_nil {acc : Regroup α × List (List α × Bool)} (h : Begun blocks acc)
    (hs : acc.1.started = false) : blocks = [] := by
  by_contra hne
  rw [h.started.mpr hne] at hs
  cases hs

theorem Begun.passed {acc : Regroup α × List (List α × Bool)} (h : Begun blocks acc)
    (hs : acc.1.started = true) : acc.2 ≠ [] := by
  intro hnil
  have hhead := h.head
  rw [hnil] at hhead
  obtain ⟨first, rest, rfl⟩ := List.exists_cons_of_ne_nil (h.started.mp hs)
  cases hhead

theorem run_begun (k : Int) (blocks : List (List α × Bool)) :
    Begun blocks (run (some k) blocks) := by
  induction blocks using List.reverseRecOn with
  | nil => exact ⟨by simp [run], fun _ => rfl, rfl⟩
  | append_singleton blocks b ih =>
      rw [run_snoc]
      cases hs : (run (some k) blocks).1.started with
      | false =>
          obtain rfl := ih.eq_nil hs
          rw [feed_first hs]
          exact ⟨by simp, nofun, by simp [run]⟩
      | true =>
          obtain ⟨o, os, ho⟩ := List.exists_cons_of_ne_nil (ih.passed hs)
          obtain ⟨first, rest, rfl⟩ := List.exists_cons_of_ne_nil (ih.started.mp hs)
          have hhead := ih.head
          rw [ho] at hhead
          by_cases hk : b.2 = true ∨ k ≤ ((run (some k) (first :: rest)).1.buffer ++ b.1).length
          · rw [feed_full hs hk, ho]
            exact ⟨by simp [hs], by simp [hs], by simpa using hhead⟩
          · rw [feed_keep hs hk, ho]
            exact ⟨by simp [hs], by simp [hs], by simpa using hhead⟩

/-- No item is lost, repeated or moved. -/
theorem run_items (steady : Option Int) (blocks : List (List α × Bool)) :
    (run steady blocks).2.flatMap Prod.fst ++ (run steady blocks).1.buffer =
      blocks.flatMap Prod.fst := by
  cases steady with
  | none => simp [run_none]
  | some k =>
      induction blocks using List.reverseRecOn with
      | nil => rfl
      | append_singleton blocks b ih =>
          have hb := run_begun k blocks
          have hblocks : (blocks ++ [b]).flatMap Prod.fst = blocks.flatMap Prod.fst ++ b.1 := by simp
          rw [run_snoc, hblocks, ← ih]
          cases hs : (run (some k) blocks).1.started with
          | false =>
              rw [feed_first hs]
              simp [hb.buffer hs]
          | true =>
              by_cases hk : b.2 = true ∨ k ≤ ((run (some k) blocks).1.buffer ++ b.1).length
              · rw [feed_full hs hk]
                simp
              · rw [feed_keep hs hk]
                simp

/-- The last block closes the regrouping and leaves nothing behind. -/
theorem run_last (steady : Option Int) (blocks : List (List α × Bool)) (block : List α) :
    (∃ out, (run steady (blocks ++ [(block, true)])).2 = (run steady blocks).2 ++ [(out, true)]) ∧
      (run steady (blocks ++ [(block, true)])).1.buffer = [] := by
  rw [run_snoc]
  cases steady with
  | none => simp [run_none, feed_none]
  | some k =>
      cases hs : (run (some k) blocks).1.started with
      | false =>
          rw [feed_first hs]
          exact ⟨⟨block, rfl⟩, (run_begun k blocks).buffer hs⟩
      | true =>
          rw [feed_full hs (.inl rfl)]
          exact ⟨⟨_, rfl⟩, rfl⟩

/-- Blocks that are not the last pass on nothing marked. -/
theorem run_unmarked (steady : Option Int) (h : ∀ b ∈ blocks, b.2 = false) :
    ∀ o ∈ (run steady blocks).2, o.2 = false := by
  induction blocks using List.reverseRecOn with
  | nil => nofun
  | append_singleton blocks b ih =>
      intro o ho
      rw [run_snoc, List.mem_append] at ho
      rcases ho with ho | ho
      · exact ih (fun b hb => h b (List.mem_append_left _ hb)) o ho
      · rw [Option.mem_toList, Option.map_eq_some_iff] at ho
        obtain ⟨items, -, rfl⟩ := ho
        exact h b (by simp)

/-- From blocks of one size, every group after the first has as many items as
asked for, and not a block more. -/
theorem run_sizes (hk : 0 < k) (h : ∀ b ∈ blocks, b.2 = false ∧ b.1.length = f) :
    ((run (some k) blocks).1.buffer.length : Int) < k ∧
      ∀ o ∈ (run (some k) blocks).2.tail, k ≤ o.1.length ∧ (o.1.length : Int) < k + f := by
  induction blocks using List.reverseRecOn with
  | nil => exact ⟨by simpa [run] using hk, nofun⟩
  | append_singleton blocks b ih =>
      obtain ⟨hbuffer, hsizes⟩ := ih fun b hb => h b (List.mem_append_left _ hb)
      obtain ⟨hlast, hlen⟩ := h b (by simp)
      have hb := run_begun k blocks
      rw [run_snoc]
      cases hs : (run (some k) blocks).1.started with
      | false =>
          obtain rfl := hb.eq_nil hs
          rw [feed_first hs]
          exact ⟨by simpa [run] using hk, by simp [run]⟩
      | true =>
          by_cases hfull : b.2 = true ∨ k ≤ ((run (some k) blocks).1.buffer ++ b.1).length
          · rw [feed_full hs hfull]
            have hfull : k ≤ ((run (some k) blocks).1.buffer ++ b.1).length :=
              hfull.resolve_left (by simp [hlast])
            refine ⟨by simpa using hk, fun o ho => ?_⟩
            rw [Option.map_some, Option.toList_some, List.tail_append_of_ne_nil (hb.passed hs),
              List.mem_append, List.mem_singleton] at ho
            rcases ho with ho | rfl
            · exact hsizes o ho
            · rw [List.length_append] at hfull ⊢
              exact ⟨hfull, by push_cast; omega⟩
          · rw [feed_keep hs hfull]
            exact ⟨Int.not_le.mp (not_or.mp hfull).2, by simpa using hsizes⟩

/-- The same with a last block of any size: only the last group can be smaller. -/
theorem run_last_sizes (hk : f < k) (h : ∀ b ∈ blocks, b.2 = false ∧ b.1.length = f) (block : List α) :
    ∀ o ∈ (run (some k) (blocks ++ [(block, true)])).2.tail, o.2 = false →
      k ≤ o.1.length ∧ (o.1.length : Int) < k + f := by
  intro o ho hlast
  obtain ⟨⟨out, hout⟩, -⟩ := run_last (some k) blocks block
  rw [hout] at ho
  by_cases hnil : (run (some k) blocks).2 = []
  · rw [hnil] at ho
    cases ho
  · rw [List.tail_append_of_ne_nil hnil, List.mem_append, List.mem_singleton] at ho
    rcases ho with ho | rfl
    · obtain ⟨b, rest, hb⟩ := List.exists_cons_of_ne_nil fun hblocks : blocks = [] => by
        rw [hblocks] at hnil
        exact hnil rfl
      have hlen := (h b (by simp [hb])).2
      exact (run_sizes (by omega) h).2 o ho
    · cases hlast

end Regroup

end JetsonVoice.Foundation
