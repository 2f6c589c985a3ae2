import JetsonVoice.Foundation.TransitionSystem
import Mathlib.Data.List.Induction

/-!
# Lines out of a buffered stream

A loop reads a stream in pieces of any length into a buffer, hands over every
terminated line of it in turn and keeps the rest. What has been handed over,
and what the buffer and the unread stream still hold, make up the lines of the
stream.

## Implementation notes

The stream is everything that will ever be written to the input. How it is cut
is the choice of the labels that read. An exception in the handler of a line
ends the loop for good, and so does a failure of the input.
-/

namespace JetsonVoice.Foundation

section Lines
variable {α : Type*} [DecidableEq α] {sep : α} {line s : List α}

/-- The terminated lines of a stream that are not empty, in order. -/
def terminatedLines (sep : α) (s : List α) : List (List α) :=
  (s.splitOn sep).dropLast.filter fun line => !line.isEmpty

theorem terminatedLines_of_not_mem (h : sep ∉ s) : terminatedLines sep s = [] := by
  rw [terminatedLines, List.splitOn_eq_singleton h]
  rfl

/-- The first line of a stream and the lines behind it. -/
theorem terminatedLines_line (h : sep ∉ line) :
    terminatedLines sep (line ++ sep :: s) =
      (if line.isEmpty then [] else [line]) ++ terminatedLines sep s := by
  rw [terminatedLines, List.splitOn_append_cons_self_of_not_mem h,
    List.dropLast_cons_of_ne_nil (List.splitOn_ne_nil sep s), List.filter_cons]
  by_cases hempty : line.isEmpty = true
  · simp [hempty, terminatedLines]
  · simp [hempty, terminatedLines]

/-- A separator that is found splits the list there. -/
theorem split_of_idxOf? {pos : Nat} (h : s.idxOf? sep = some pos) :
    s = s.take pos ++ sep :: s.drop (pos + 1) ∧ sep ∉ s.take pos := by
  induction s generalizing pos with
  | nil => cases h
  | cons c s ih =>
      rw [List.idxOf?_cons] at h
      split_ifs at h with hc
      · cases h
        obtain rfl : c = sep := by simpa using hc
        simp
      · obtain ⟨pos, hpos, rfl⟩ := Option.map_eq_some_iff.mp h
        obtain ⟨hs, hnot⟩ := ih hpos
        refine ⟨congrArg (c :: ·) hs, ?_⟩
        rw [List.take_succ_cons, List.mem_cons]
        rintro (rfl | hmem)
        · exact hc (beq_self_eq_true _)
        · exact hnot hmem

end Lines

/-- A loop that reads a stream and hands over its lines. -/
structure LineLoop (α S C L : Type*) where
  sep : α
  /-- The most one read returns. -/
  maxRead : Nat
  start : S
  /-- The body of the loop for one line, with what the outside world answers
  meanwhile; `none` when an exception escapes it. -/
  handle : S → C → List α → Option S
  /-- What the loop does between the reads. -/
  idle : S → L → S

/-- Where the loop is. -/
inductive LoopPhase where
  | polling
  | scanning
  | left
  | thrown
  deriving DecidableEq

/-- The state of the loop, with the stream it has not read and the lines it has
handed over. -/
structure LineReader (α S : Type*) where
  input : List α
  buffer : List α
  handed : List (List α)
  worker : S
  phase : LoopPhase

/-- The loop has thrown, or it has left at the end of the stream. -/
def LineReader.Over {α S : Type*} (r : LineReader α S) : Prop :=
  r.phase = .thrown ∨ r.phase = .left ∧ r.input = []

namespace LineLoop

/-- What the loop does next. -/
inductive Label (C L : Type*) where
  /-- The poll was interrupted. -/
  | again
  /-- The poll timed out. -/
  | timeout (l : L)
  /-- The poll reports neither input nor a hang-up. -/
  | silent
  | read (n : Nat)
  /-- The read finds the end of the stream. -/
  | eof
  /-- The poll or the read fails. -/
  | failed
  | line (c : C)
  /-- No line is left in the buffer. -/
  | scanned (l : L)

variable {α S C L : Type*} [DecidableEq α] (R : LineLoop α S C L)

/-- Take the line that ends at `pos` out of the buffer and hand it over. -/
def hand (r : LineReader α S) (c : C) (pos : Nat) : LineReader α S :=
  let line := r.buffer.take pos
  let r' := { r with buffer := r.buffer.drop (pos + 1) }
  if line.isEmpty then r'
  else
    match R.handle r.worker c line with
    | some w => { r' with handed := r.handed ++ [line], worker := w }
    | none => { r' with handed := r.handed ++ [line], phase := .thrown }

/-- The loop on a stream. -/
def system (s : List α) : TransitionSystem (LineReader α S) (Label C L) where
  start := ⟨s, [], [], R.start, .polling⟩
  step r l :=
    match r.phase, l with
    | .polling, .again => some r
    | .polling, .timeout l => some { r with worker := R.idle r.worker l }
    | .polling, .silent => some { r with phase := .scanning }
    | .polling, .read n =>
        if 0 < n ∧ n ≤ R.maxRead ∧ n ≤ r.input.length then
          some { r with
            input := r.input.drop n
            buffer := r.buffer ++ r.input.take n
            phase := .scanning }
        else none
    | .polling, .eof => if r.input.isEmpty then some { r with phase := .left } else none
    | .polling, .failed => some { r with phase := .left }
    | .scanning, .line c => (r.buffer.idxOf? R.sep).map (R.hand r c)
    | .scanning, .scanned l =>
        if R.sep ∈ r.buffer then none
        else some { r with worker := R.idle r.worker l, phase := .polling }
    | _, _ => none

/-- What has been handed over and what follows make up the lines, however the
stream goes on behind what was read. Outside the scan the buffer holds no line. -/
structure Framed (s : List α) (r : LineReader α S) : Prop where
  lines : ∃ read, s = read ++ r.input ∧ ∀ u, terminatedLines R.sep (read ++ u) =
    r.handed ++ terminatedLines R.sep (r.buffer ++ u)
  scanned : r.phase = .polling ∨ r.phase = .left → R.sep ∉ r.buffer

/-- A line is one that `good` says is handled, or no further line follows it. -/
def Keeps (good : S → C → List α → Prop) (r : LineReader α S) (l : Label C L) : Prop :=
  ∀ c pos, l = .line c → r.buffer.idxOf? R.sep = some pos →
    good r.worker c (r.buffer.take pos) ∨
      terminatedLines R.sep (r.buffer.drop (pos + 1) ++ r.input) = []

/-- The loop has thrown with lines still to come. -/
def Lost (r : LineReader α S) : Prop :=
  r.phase = .thrown ∧ terminatedLines R.sep (r.buffer ++ r.input) ≠ []

variable {R} {s : List α} {r r' : LineReader α S} {l : Label C L} {c : C} {pos : Nat}

/-- Taking a line out of the buffer moves it to what was handed over. -/
theorem hand_spec (h : r.buffer.idxOf? R.sep = some pos) :
    (R.hand r c pos).input = r.input ∧ ∀ u,
      r.handed ++ terminatedLines R.sep (r.buffer ++ u) =
        (R.hand r c pos).handed ++ terminatedLines R.sep ((R.hand r c pos).buffer ++ u) := by
  obtain ⟨hsplit, hnot⟩ := split_of_idxOf? h
  have hlines (u : List α) : terminatedLines R.sep (r.buffer ++ u) =
      (if (r.buffer.take pos).isEmpty then [] else [r.buffer.take pos]) ++
        terminatedLines R.sep (r.buffer.drop (pos + 1) ++ u) := by
    rw [← terminatedLines_line hnot, ← List.cons_append, ← List.append_assoc, ← hsplit]
  simp only [hlines, hand]
  by_cases hempty : (r.buffer.take pos).isEmpty = true
  · simp [hempty]
  · cases R.handle r.worker c (r.buffer.take pos) with
    | none => simp [hempty]
    | some w => simp [hempty]

omit [DecidableEq α] in
theorem hand_phase (r : LineReader α S) (c : C) (pos : Nat) :
    (R.hand r c pos).phase = r.phase ∨ (R.hand r c pos).phase = .thrown := by
  simp only [hand]
  split
  · exact .inl rfl
  · split
    · exact .inl rfl
    · exact .inr rfl

theorem framed_start (s : List α) : R.Framed s (R.system s).start :=
  ⟨⟨[], rfl, fun _ => rfl⟩, fun _ => List.not_mem_nil⟩

theorem framed_step (hr : R.Framed s r) (h : (R.system s).step r l = some r') :
    R.Framed s r' := by
  obtain ⟨⟨read, hs, hlines⟩, hscanned⟩ := hr
  simp only [system] at h
  split at h
  · cases h
    exact ⟨⟨read, hs, hlines⟩, hscanned⟩
  · cases h
    exact ⟨⟨read, hs, hlines⟩, fun _ => hscanned (.inl ‹_›)⟩
  · cases h
    exact ⟨⟨read, hs, hlines⟩, by simp⟩
  · rename_i n hphase
    split_ifs at h
    cases h
    refine ⟨⟨read ++ r.input.take n, ?_, fun u => ?_⟩, by simp⟩
    · rw [List.append_assoc, List.take_append_drop, hs]
    · rw [List.append_assoc, hlines, List.append_assoc]
  · split_ifs at h
    cases h
    exact ⟨⟨read, hs, hlines⟩, fun _ => hscanned (.inl ‹_›)⟩
  · cases h
    exact ⟨⟨read, hs, hlines⟩, fun _ => hscanned (.inl ‹_›)⟩
  · rename_i c hphase
    obtain ⟨pos, hpos, rfl⟩ := Option.map_eq_some_iff.mp h
    obtain ⟨hinput, hhand⟩ := hand_spec (c := c) hpos
    refine ⟨⟨read, hinput ▸ hs, fun u => (hlines u).trans (hhand u)⟩, fun hp => ?_⟩
    rcases hand_phase (R := R) r c pos with hsame | hthrown
    · rw [hsame, hphase] at hp
      simp at hp
    · rw [hthrown] at hp
      simp at hp
  · split_ifs at h with hsep
    cases h
    exact ⟨⟨read, hs, hlines⟩, fun _ => hsep⟩
  · cases h

theorem framed_of_reachable (h : (R.system s).Reachable r) : R.Framed s r :=
  h.preserves (framed_start s) framed_step

/-- The lines handed over when the scan is over are those of what was read. -/
theorem Framed.handed_eq (hr : R.Framed s r) (hp : r.phase = .polling ∨ r.phase = .left) :
    ∃ read, s = read ++ r.input ∧ r.handed = terminatedLines R.sep read := by
  obtain ⟨read, hs, hlines⟩ := hr.lines
  refine ⟨read, hs, ?_⟩
  have hread := hlines []
  rw [List.append_nil, List.append_nil, terminatedLines_of_not_mem (hr.scanned hp),
    List.append_nil] at hread
  exact hread.symm

theorem Framed.stream (hr : R.Framed s r) :
    terminatedLines R.sep s = r.handed ++ terminatedLines R.sep (r.buffer ++ r.input) := by
  obtain ⟨read, hs, hlines⟩ := hr.lines
  rw [hs, hlines]

theorem step_thrown (h : r.phase = .thrown) : (R.system s).step r l = none := by
  simp [system, h]

/-- When the loop is over, all lines have been handed over or some are lost. -/
theorem Framed.handed_eq_iff (hr : R.Framed s r) (hover : r.Over) :
    r.handed = terminatedLines R.sep s ↔ ¬ R.Lost r := by
  rw [hr.stream, Lost]
  rcases hover with hp | ⟨hp, hinput⟩
  · simp [hp]
  · simp [hp, hinput, terminatedLines_of_not_mem (hr.scanned (.inr hp))]

section Good
variable {good : S → C → List α → Prop}
  (hgood : ∀ w c line, line.isEmpty = false → ((R.handle w c line).isSome = true ↔ good w c line))
  (hempty : ∀ w c line, line.isEmpty = true → good w c line)
include hgood hempty

theorem hand_lost_iff (hp : r.phase = .scanning) : R.Lost (R.hand r c pos) ↔
    ¬ (good r.worker c (r.buffer.take pos) ∨
      terminatedLines R.sep (r.buffer.drop (pos + 1) ++ r.input) = []) := by
  simp only [hand, Lost]
  cases he : (r.buffer.take pos).isEmpty with
  | true => simp [hp, hempty _ _ _ he]
  | false =>
      rw [← hgood _ _ _ he]
      cases R.handle r.worker c (r.buffer.take pos) with
      | none => simp
      | some w => simp [hp]

/-- A step loses lines if and only if it hands over a line that is not good, with
more of them to follow. -/
theorem keeps_iff (h : (R.system s).step r l = some r') : R.Keeps good r l ↔ ¬ R.Lost r' := by
  have hother (hl : ∀ c, l ≠ .line c) (hp : r'.phase ≠ .thrown) :
      R.Keeps good r l ↔ ¬ R.Lost r' :=
    iff_of_true (fun c _ he => absurd he (hl c)) fun hlost => hp hlost.1
  simp only [system] at h
  split at h
  · cases h
    exact hother (by simp) (by simp [*])
  · cases h
    exact hother (by simp) (by simp [*])
  · cases h
    exact hother (by simp) (by simp)
  · split_ifs at h
    cases h
    exact hother (by simp) (by simp)
  · split_ifs at h
    cases h
    exact hother (by simp) (by simp)
  · cases h
    exact hother (by simp) (by simp)
  · rename_i c hp
    obtain ⟨pos, hpos, rfl⟩ := Option.map_eq_some_iff.mp h
    rw [hand_lost_iff hgood hempty hp, not_not]
    constructor
    · intro hkeeps
      exact hkeeps c pos rfl hpos
    · intro hline c' pos' hc hpos'
      cases hc
      obtain rfl : pos = pos' := Option.some.inj (hpos.symm.trans hpos')
      exact hline
  · split_ifs at h
    cases h
    exact hother (by simp) (by simp)
  · cases h

open Classical in
/-- The steps of a run all keep the lines if and only if none is lost at its end. -/
theorem guard_run_iff {ls : List (Label C L)}
    (h : (R.system s).run (R.system s).start ls = some r) :
    ((R.system s).guard (R.Keeps good)).run (R.system s).start ls = some r ↔ ¬ R.Lost r := by
  induction ls using List.reverseRecOn generalizing r with
  | nil =>
      cases h
      exact iff_of_true rfl fun hlost => absurd hlost.1 (by simp [system])
  | append_singleton ls l ih =>
      obtain ⟨u, hu, hstep⟩ := TransitionSystem.run_snoc.mp h
      rw [TransitionSystem.run_snoc]
      constructor
      · rintro ⟨u', -, hstep'⟩
        obtain ⟨hkeeps, hstep'⟩ := TransitionSystem.guard_step.mp hstep'
        exact (keeps_iff hgood hempty hstep').mp hkeeps
      · intro hnot
        refine ⟨u, (ih hu).mpr fun hlost => ?_, TransitionSystem.guard_step.mpr
          ⟨(keeps_iff hgood hempty hstep).mpr hnot, hstep⟩⟩
        rw [step_thrown hlost.1] at hstep
        cases hstep

end Good

/-- What the loop still has to do. -/
def work (r : LineReader α S) : Nat :=
  3 * r.input.length + r.buffer.length + if r.phase = .scanning then 1 else 0

/-- A loop that has not left goes on to its end when its input does not fail. -/
theorem leads_over [Inhabited C] [Inhabited L] (hmax : 0 < R.maxRead)
    (hp : r.phase ≠ .left) : ∃ r', (R.system s).Leads r r' ∧ r'.Over := by
  induction hn : work r using Nat.strongRecOn generalizing r with
  | ind n ih =>
      subst hn
      have hstep {l : Label C L} {r₁ : LineReader α S} (hs : (R.system s).step r l = some r₁)
          (hleft : r₁.phase ≠ .left) (hlt : work r₁ < work r) :
          ∃ r', (R.system s).Leads r r' ∧ r'.Over := by
        obtain ⟨r', hleads, hover⟩ := ih (work r₁) hlt hleft rfl
        exact ⟨r', hleads.head hs, hover⟩
      cases hphase : r.phase with
      | thrown => exact ⟨r, .refl, .inl hphase⟩
      | left => exact absurd hphase hp
      | polling =>
          cases hinput : r.input with
          | nil =>
              have hs : (R.system s).step r .eof = some { r with phase := .left } := by
                simp [system, hphase, hinput]
              exact ⟨{ r with phase := .left }, .single hs, .inr ⟨rfl, hinput⟩⟩
          | cons a input =>
              have hs : (R.system s).step r (.read 1) =
                  some ⟨input, r.buffer ++ [a], r.handed, r.worker, .scanning⟩ := by
                simp [system, hphase, hinput, Nat.one_le_iff_ne_zero, Nat.ne_of_gt hmax]
              refine hstep hs (by simp) ?_
              simp only [work, hphase, hinput, List.length_cons, List.length_append,
                List.length_nil, if_true, if_neg (show LoopPhase.polling ≠ .scanning by decide)]
              omega
      | scanning =>
          cases hpos : r.buffer.idxOf? R.sep with
          | none =>
              have hsep : R.sep ∉ r.buffer := List.idxOf?_eq_none_iff.mp hpos
              have hs : (R.system s).step r (.scanned default) =
                  some { r with worker := R.idle r.worker default, phase := .polling } := by
                simp [system, hphase, hsep]
              refine hstep hs (by simp) ?_
              simp [work, hphase]
          | some pos =>
              have hlen := congrArg List.length (split_of_idxOf? hpos).1
              have hs : (R.system s).step r (.line default) = some (R.hand r default pos) := by
                simp [system, hphase, hpos]
              have hleft : (R.hand r default pos).phase ≠ .left := by
                rcases hand_phase (R := R) r default pos with h | h
                · simp [h, hphase]
                · simp [h]
              have hinput := (hand_spec (c := default) hpos).1
              have hbuffer : (R.hand r default pos).buffer = r.buffer.drop (pos + 1) := by
                simp only [hand]
                split_ifs
                · rfl
                · split <;> rfl
              refine hstep hs hleft ?_
              rw [List.length_append, List.length_cons] at hlen
              simp only [work, hinput, hbuffer, hphase, if_true]
              split_ifs <;> omega

end LineLoop

end JetsonVoice.Foundation
