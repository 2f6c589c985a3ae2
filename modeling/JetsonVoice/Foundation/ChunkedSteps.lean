import JetsonVoice.Foundation.Streaming
import Mathlib.Algebra.GroupWithZero.Nat
import Mathlib.Data.List.DropRight

/-!
# Steps with carried state, run over chunks

A step takes the items of one chunk and the state the chunks before it left; it
fails where the code raises. When both the state and the output after a prefix
are functions of that prefix, they do not depend on how the prefix was cut.

## Implementation notes

A step also sees the offset of its chunk and whether the chunk is the last one.
Most steps ignore one of the two or both.
-/

namespace JetsonVoice.Foundation

section Steps
variable {S A B : Type*}

/-- Concatenate what the chunks gave; there must be at least one piece. -/
def cat (pieces : List (List B)) : Option (List B) :=
  if pieces.isEmpty then none else some pieces.flatten

/-- Run a step over non-empty chunks in order, from an offset and a state. -/
def runChunks (step : Nat → S → List A → Option (List B × S)) :
    Nat → S → List (List A) → Option (List (List B) × S)
  | _, s, [] => some ([], s)
  | offset, s, chunk :: chunks =>
      (step offset s chunk).bind fun (y, s') =>
        (runChunks step (offset + chunk.length) s' chunks).map fun (ys, t) => (y :: ys, t)

/-- Cut `x` at the given chunk lengths and hand every part that has items to the
step, with its offset and whether its chunk length is the last of the list. The
result holds the outputs, the offset reached and the state. -/
def chunkLoop (step : Bool → Nat → S → List A → Option (List B × S)) (x : List A) :
    Nat → S → List Nat → Option (List (List B) × Nat × S)
  | offset, s, [] => some ([], offset, s)
  | offset, s, chunk :: chunks =>
      let part := slice x offset (offset + chunk)
      if part.isEmpty then chunkLoop step x offset s chunks
      else
        (step chunks.isEmpty offset s part).bind fun (y, s') =>
          (chunkLoop step x (offset + chunk) s' chunks).map fun (ys, t) => (y :: ys, t)

/-- The loop over all of `x`: the chunks must cover it, and the outputs are
concatenated. -/
def streamChunks (step : Bool → Nat → S → List A → Option (List B × S)) (s : S) (x : List A)
    (chunks : List Nat) : Option (List B) :=
  (chunkLoop step x 0 s chunks).bind fun (ys, offset, _) =>
    if offset = x.length then cat ys else none

/-- What holds of every step holds of every chunk and the piece it gave. -/
theorem runChunks_forall₂ {step : Nat → S → List A → Option (List B × S)}
    {P : List A → List B → Prop}
    (hstep : ∀ {offset s c y s'}, step offset s c = some (y, s') → P c y) {offset : Nat} {s t : S}
    {cs : List (List A)} {ys : List (List B)} (h : runChunks step offset s cs = some (ys, t)) :
    List.Forall₂ P cs ys := by
  induction cs generalizing offset s ys with
  | nil =>
      obtain ⟨rfl, -⟩ : [] = ys ∧ s = t := by simpa [runChunks] using h
      exact List.Forall₂.nil
  | cons c cs ih =>
      obtain ⟨⟨y, s'⟩, hfirst, hrest⟩ := Option.bind_eq_some_iff.mp h
      obtain ⟨⟨zs, t'⟩, hrun, heq⟩ := Option.map_eq_some_iff.mp hrest
      obtain ⟨rfl, rfl⟩ := Prod.mk.inj heq
      exact List.Forall₂.cons (hstep hfirst) (ih hrun)

section Loop
variable {step : Bool → Nat → S → List A → Option (List B × S)}
  {Inv Post : List A → S → List (List B) → Prop}

/-- The loop from any point it can be at. -/
theorem chunkLoop_from
    (hstep : ∀ {p c s ys}, Inv p s ys → c ≠ [] →
      ∃ y s', step false p.length s c = some (y, s') ∧ Inv (p ++ c) s' (ys ++ [y]))
    (hlast : ∀ {p c s ys}, Inv p s ys → c ≠ [] →
      ∃ y s', step true p.length s c = some (y, s') ∧ Post (p ++ c) s' (ys ++ [y]))
    {p r : List A} {s : S} {ys : List (List B)} (h : Inv p s ys) {chunks : List Nat}
    (hsum : chunks.sum = r.length) :
    ∃ zs t, chunkLoop step (p ++ r) p.length s chunks = some (zs, (p ++ r).length, t) ∧
      if chunks.getLast?.getD 0 = 0 then Inv (p ++ r) t (ys ++ zs)
      else Post (p ++ r) t (ys ++ zs) := by
  induction chunks generalizing p r s ys with
  | nil =>
      obtain rfl : r = [] := List.length_eq_zero_iff.mp hsum.symm
      exact ⟨[], s, by simp [chunkLoop], by simpa using h⟩
  | cons chunk chunks ih =>
      rw [List.sum_cons] at hsum
      have hpart : slice (p ++ r) p.length (p.length + chunk) = r.take chunk := by
        have hshift : slice (p ++ r) (p.length + 0) (p.length + chunk) = slice r 0 chunk :=
          slice_append_add
        rwa [Nat.add_zero, slice_zero] at hshift
      have hle : chunk ≤ r.length := by omega
      have hsplit : (p ++ r.take chunk) ++ r.drop chunk = p ++ r := by
        rw [List.append_assoc, List.take_append_drop]
      have hoff : (p ++ r.take chunk).length = p.length + chunk := by
        rw [List.length_append, List.length_take, min_eq_left hle]
      have hrest : chunks.sum = (r.drop chunk).length := by
        rw [List.length_drop]
        omega
      by_cases hzero : chunk = 0
      · obtain ⟨zs, t, hloop, hinv⟩ := ih h (r := r) (by omega)
        refine ⟨zs, t, by simpa [chunkLoop, hpart, hzero] using hloop, ?_⟩
        cases chunks <;> simpa [hzero] using hinv
      · have hne : r.take chunk ≠ [] := by
          intro hnil
          have hlen := congrArg List.length hnil
          rw [List.length_take, min_eq_left hle, List.length_nil] at hlen
          exact hzero hlen
        cases chunks with
        | nil =>
            -- The only chunk that is told it is the last one.
            obtain ⟨y, t, hrun, hpost⟩ := hlast h hne
            have hdrop : r.drop chunk = [] := List.length_eq_zero_iff.mp hrest.symm
            rw [hdrop, List.append_nil] at hsplit
            rw [hsplit] at hoff hpost
            exact ⟨[y], t, by simp [chunkLoop, hpart, hne, hrun, hoff], by simpa [hzero] using hpost⟩
        | cons next chunks =>
            obtain ⟨y, s', hrun, hinv⟩ := hstep h hne
            obtain ⟨zs, t, hloop, hend⟩ := ih hinv hrest
            rw [hsplit, hoff] at hloop
            refine ⟨y :: zs, t, ?_, ?_⟩
            · rw [chunkLoop, hpart]
              simp [hne, hrun, hloop]
            · simpa [hsplit] using hend

/-- Chunks that add up to an input run through a loop whose steps keep `Inv`; the
last chunk of the list, if it has items, ends in `Post`. -/
theorem chunkLoop_spec (step : Bool → Nat → S → List A → Option (List B × S))
    (Inv Post : List A → S → List (List B) → Prop)
    (hstep : ∀ {p c s ys}, Inv p s ys → c ≠ [] →
      ∃ y s', step false p.length s c = some (y, s') ∧ Inv (p ++ c) s' (ys ++ [y]))
    (hlast : ∀ {p c s ys}, Inv p s ys → c ≠ [] →
      ∃ y s', step true p.length s c = some (y, s') ∧ Post (p ++ c) s' (ys ++ [y]))
    {x : List A} {s : S} (h : Inv [] s []) {chunks : List Nat} (hsum : chunks.sum = x.length) :
    ∃ ys t, chunkLoop step x 0 s chunks = some (ys, x.length, t) ∧
      if chunks.getLast?.getD 0 = 0 then Inv x t ys else Post x t ys :=
  chunkLoop_from hstep hlast h hsum

end Loop

/-- A loop that covers the input gives the pieces of its chunks. -/
theorem streamChunks_eq {step : Bool → Nat → S → List A → Option (List B × S)} {s t : S}
    {x : List A} {chunks : List Nat} {ys : List (List B)}
    (h : chunkLoop step x 0 s chunks = some (ys, x.length, t)) :
    streamChunks step s x chunks = cat ys := by
  simp only [streamChunks, h, Option.bind_some, if_true]

/-- From the state of a prefix, the step gives the state of the longer prefix
and exactly what the output grows by. -/
def Resumes (step : Nat → S → List A → Option (List B × S)) (state : List A → S)
    (output : List A → List B) : Prop :=
  ∀ p c, c ≠ [] → ∃ y, step p.length (state p) c = some (y, state (p ++ c)) ∧
    output (p ++ c) = output p ++ y

variable {state : List A → S} {output : List A → List B}

/-- The pieces of a run make up the output, and the state is that of the input. -/
theorem Resumes.run {step : Nat → S → List A → Option (List B × S)}
    (h : Resumes step state output) (p : List A) {cs : List (List A)} (hcs : ∀ c ∈ cs, c ≠ []) :
    ∃ ys, runChunks step p.length (state p) cs = some (ys, state (p ++ cs.flatten)) ∧
      output (p ++ cs.flatten) = output p ++ ys.flatten ∧ ys.length = cs.length := by
  induction cs generalizing p with
  | nil => exact ⟨[], by simp [runChunks]⟩
  | cons c cs ih =>
      obtain ⟨y, hstep, hy⟩ := h p c (hcs c (by simp))
      obtain ⟨ys, hrun, hys, hlen⟩ := ih (p ++ c) fun c hc => hcs c (by simp [hc])
      refine ⟨y :: ys, ?_, ?_, by simp [hlen]⟩
      · rw [List.length_append] at hrun
        simp [runChunks, hstep, hrun]
      · rw [List.flatten_cons, ← List.append_assoc, hys, hy]
        simp

/-- The pieces of a run that starts with no input. -/
theorem Resumes.run_cat {step : Nat → S → List A → Option (List B × S)}
    (h : Resumes step state output) (hnil : output [] = []) {cs : List (List A)}
    (hcs : ∀ c ∈ cs, c ≠ []) :
    ∃ ys, runChunks step 0 (state []) cs = some (ys, state cs.flatten) ∧
      cat ys = if cs.flatten = [] then none else some (output cs.flatten) := by
  obtain ⟨ys, hrun, hout, hlen⟩ := h.run [] hcs
  rw [List.nil_append] at hrun hout
  refine ⟨ys, hrun, ?_⟩
  rw [hnil, List.nil_append] at hout
  have hempty : ys = [] ↔ cs.flatten = [] := by
    rw [← List.length_eq_zero_iff, hlen, List.length_eq_zero_iff, List.flatten_eq_nil_iff]
    constructor
    · rintro rfl
      simp
    · intro hall
      apply List.eq_nil_iff_forall_not_mem.mpr
      intro c hc
      exact hcs c hc (hall c hc)
  simp only [cat, List.isEmpty_iff, hempty, hout]

/-- Chunk lengths that add up to the length of the input, some of them zero
perhaps, give the output of the input. -/
theorem Resumes.stream {step : Nat → S → List A → Option (List B × S)}
    (h : Resumes step state output) (hnil : output [] = []) {x : List A}
    {chunks : List Nat} (hsum : chunks.sum = x.length) :
    streamChunks (fun _ => step) (state []) x chunks =
      if x = [] then none else some (output x) := by
  let Inv (p : List A) (s : S) (ys : List (List B)) : Prop :=
    s = state p ∧ ys.flatten = output p ∧ (ys = [] ↔ p = [])
  have hinv : ∀ {p c s ys}, Inv p s ys → c ≠ [] →
      ∃ y s', step p.length s c = some (y, s') ∧ Inv (p ++ c) s' (ys ++ [y]) := by
    rintro p c s ys ⟨rfl, hys, hempty⟩ hc
    obtain ⟨y, hstep, hy⟩ := h p c hc
    refine ⟨y, _, hstep, rfl, ?_, by simp [hc]⟩
    rw [List.flatten_append, hys, hy]
    simp
  have hstart : Inv [] (state []) [] := ⟨rfl, hnil.symm, by simp⟩
  obtain ⟨ys, t, hloop, hend⟩ := chunkLoop_spec (fun _ => step) Inv Inv hinv hinv hstart hsum
  rw [ite_self] at hend
  obtain ⟨-, hout, hempty⟩ := hend
  simp only [streamChunks_eq hloop, cat, List.isEmpty_iff, hempty, hout]

end Steps

section Windows
variable {A B : Type*} {p : Nat} {g : List A → B} {a b c : List A}

/-- Apply `g` to every window of `p + 1` items. -/
def windows (p : Nat) (g : List A → B) (x : List A) : List B :=
  (List.range (x.length - p)).map fun t => g (slice x t (t + p + 1))

/-- The last items depend only on a long enough end of what comes before. -/
theorem rtake_rtake_append : (a.rtake p ++ c).rtake p = (a ++ c).rtake p := by
  have hdrop : a.rtake p ++ c = (a ++ c).drop (a.length - p) := by
    rw [List.rtake, List.drop_append_of_le_length (Nat.sub_le _ _)]
  rw [hdrop, List.rtake, List.rtake, List.drop_drop, List.length_drop, List.length_append]
  congr 1
  omega

/-- The windows of an extension are those of the front, then those that see the
last `p` items of the front and what was added. -/
theorem windows_append (hp : p ≤ a.length) :
    windows p g (a ++ c) = windows p g a ++ windows p g (a.rtake p ++ c) := by
  have hlen : (a.rtake p ++ c).length - p = c.length := by
    rw [List.length_append, List.rtake, List.length_drop]
    omega
  have hsum : (a ++ c).length - p = (a.length - p) + c.length := by
    rw [List.length_append]
    omega
  rw [windows, hsum, List.range_add, List.map_append, List.map_map, windows, windows, hlen]
  congr 1
  · apply List.map_congr_left
    intro t ht
    rw [List.mem_range] at ht
    rw [slice_append_left (by omega)]
  · apply List.map_congr_left
    intro t _
    have hrdrop : (a.rdrop p).length = a.length - p := by
      rw [List.rdrop, List.length_take, min_eq_left (Nat.sub_le _ _)]
    have hsplit : a.rdrop p ++ (a.rtake p ++ c) = a ++ c := by
      rw [← List.append_assoc, List.rdrop, List.rtake, List.take_append_drop]
    rw [Function.comp_apply, ← hsplit, ← hrdrop, Nat.add_assoc, Nat.add_assoc,
      slice_append_add, Nat.add_assoc]

/-- Windows of one item. -/
theorem windows_zero : windows 0 g a = a.map fun x => g [x] := by
  apply List.ext_getElem?
  intro i
  rw [windows, List.getElem?_map, List.getElem?_map, Nat.sub_zero]
  by_cases hi : i < a.length
  · rw [List.getElem?_range hi, List.getElem?_eq_getElem hi, Option.map_some, Option.map_some,
      slice, Nat.add_zero, Nat.add_sub_cancel_left, List.drop_eq_getElem_cons hi, List.take_succ_cons,
      List.take_zero]
  · rw [List.getElem?_eq_none (by simpa using hi), List.getElem?_eq_none (by simpa using hi),
      Option.map_none, Option.map_none]

end Windows

end JetsonVoice.Foundation
