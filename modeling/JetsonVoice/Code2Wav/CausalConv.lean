import JetsonVoice.Foundation.ChunkedSteps
import Mathlib.Algebra.BigOperators.Fin

/-!
# Streaming causal convolution

The causal convolutions of Code2Wav pad zeros on the left of a whole utterance.
In streaming mode that left pad becomes explicit input history.

## Implementation notes

A signal is a list of frames, and a frame holds a value for each channel of each
group. Values are taken from any semiring, so that a batch is a function into it.
A convolution of an input shorter than its span raises.
-/

namespace JetsonVoice.Code2Wav

open Foundation

/-- One time step of a signal, its channels sorted by the groups of a convolution. -/
abbrev Frame (R : Type*) (groups channels : Nat) := Fin groups → Fin channels → R

structure CausalConv1d (R : Type*) (groups inChannels outChannels : Nat) where
  kernelSize : Nat
  dilation : Nat
  stride : Nat
  weight : Fin groups → Fin outChannels → Fin inChannels → Fin kernelSize → R
  bias : Option (Frame R groups outChannels)

structure CausalConvState (R : Type*) (groups channels : Nat) where
  history : List (Frame R groups channels)

variable {R : Type*} [Semiring R] {G I O : Nat}

namespace CausalConv1d
variable (m : CausalConv1d R G I O) {x p c : List (Frame R G I)}

/-- The number of input frames from the first tap to the last. -/
def span : Nat := (m.kernelSize - 1) * m.dilation + 1

/-- The zeros the module puts before a whole utterance. -/
def padding : Nat := m.span - m.stride

/-- The output frame whose first tap is at `start`. -/
def outputAt (x : List (Frame R G I)) (start : Nat) : Frame R G O := fun g o =>
  ∑ i, ∑ j, m.weight g o i j * x.getD (start + j * m.dilation) 0 g i + m.bias.getD 0 g o

/-- The convolution without any padding. -/
def conv (x : List (Frame R G I)) : Option (List (Frame R G O)) :=
  if x.length < m.span then none
  else some <| (List.range ((x.length - m.span) / m.stride + 1)).map fun t =>
    m.outputAt x (t * m.stride)

/-- The zeros a stream starts from. -/
def zeroHistory : List (Frame R G I) := List.replicate m.padding 0

/-- The convolution of a whole utterance. -/
def forward (x : List (Frame R G I)) : Option (List (Frame R G O)) :=
  m.conv (m.zeroHistory ++ x)

/-- The last frames of a padded prefix, as many as the padding has. -/
def historyOf (p : List (Frame R G I)) : List (Frame R G I) :=
  (m.zeroHistory ++ p).rtake m.padding

/-- What the frames of a prefix give, one output frame for each. -/
def outputsOf (p : List (Frame R G I)) : List (Frame R G O) :=
  windows m.padding (m.outputAt · 0) (m.zeroHistory ++ p)

end CausalConv1d

/-- Run one streaming step for `CausalConv1d`. -/
def causalConvStep (m : CausalConv1d R G I O) (x : List (Frame R G I))
    (state : CausalConvState R G I) : Option (List (Frame R G O) × CausalConvState R G I) :=
  if m.stride ≠ 1 then none
  else if m.padding = 0 then (m.conv x).map fun y => (y, ⟨[]⟩)
  else
    let padded := state.history ++ x
    (m.conv padded).map fun y => (y, ⟨padded.rtake m.padding⟩)

def causalConvStream (m : CausalConv1d R G I O) (x : List (Frame R G I)) (chunks : List Nat) :
    Option (List (Frame R G O)) :=
  streamChunks (fun _ _ state part => causalConvStep m part state) ⟨m.zeroHistory⟩ x chunks

/-- The step of the exported module, whose state is a bare tensor. -/
def exportCausalConvStep (m : CausalConv1d R G I O) (x state : List (Frame R G I)) :
    Option (List (Frame R G O) × List (Frame R G I)) :=
  if m.padding = 0 then (m.conv x).map fun y => (y, state)
  else
    let padded := state ++ x
    (m.conv padded).map fun y => (y, padded.rtake m.padding)

namespace CausalConv1d
variable {m : CausalConv1d R G I O} {x p c : List (Frame R G I)}

/-- An output frame sees the span from its first tap on and nothing else. -/
theorem outputAt_slice {start : Nat} :
    m.outputAt (slice x start (start + m.span)) 0 = m.outputAt x start := by
  ext g o
  simp only [outputAt, List.getD_eq_getElem?_getD, Nat.zero_add]
  congr 1
  apply Finset.sum_congr rfl
  intro i _
  apply Finset.sum_congr rfl
  intro j _
  have hj : j * m.dilation < m.span := by
    have := Nat.mul_le_mul_right m.dilation (Nat.le_sub_one_of_lt j.isLt)
    rw [span]
    omega
  rw [getElem?_slice, if_pos (by omega)]

omit [Semiring R] in
theorem span_eq (hstride : m.stride = 1) : m.span = m.padding + 1 := by
  rw [padding, hstride, span, Nat.add_sub_cancel]

/-- With stride one, the convolution is a map over the windows of the input. -/
theorem conv_eq_windows (hstride : m.stride = 1) :
    m.conv x = if x.length ≤ m.padding then none
      else some (windows m.padding (m.outputAt · 0) x) := by
  have hspan := span_eq hstride
  by_cases hlen : x.length ≤ m.padding
  · rw [conv, if_pos (by omega), if_pos hlen]
  · have hcount : (x.length - m.span) / m.stride + 1 = x.length - m.padding := by
      rw [hstride, Nat.div_one]
      omega
    rw [conv, if_neg (by omega), if_neg hlen, hcount, windows]
    congr 1
    apply List.map_congr_left
    intro t _
    rw [hstride, Nat.mul_one, Nat.add_assoc, ← hspan, outputAt_slice]

@[simp] theorem length_zeroHistory : m.zeroHistory.length = m.padding := by
  rw [zeroHistory, List.length_replicate]

@[simp] theorem historyOf_nil : m.historyOf [] = m.zeroHistory := by
  rw [historyOf, List.append_nil, List.rtake, length_zeroHistory, Nat.sub_self, List.drop_zero]

@[simp] theorem outputsOf_nil : m.outputsOf [] = [] := by
  simp [outputsOf, windows]

theorem length_historyOf : (m.historyOf p).length = m.padding := by
  rw [historyOf, List.rtake, List.length_drop, List.length_append, length_zeroHistory]
  omega

/-- The offline convolution. It raises on an input without frames. -/
theorem forward_eq (hstride : m.stride = 1) :
    m.forward x = if x = [] then none else some (m.outputsOf x) := by
  have hlen : (m.zeroHistory ++ x).length ≤ m.padding ↔ x = [] := by
    rw [List.length_append, length_zeroHistory, ← List.length_eq_zero_iff]
    omega
  rw [forward, conv_eq_windows hstride]
  simp only [hlen, outputsOf]

/-- The history of a prefix, moved on by a chunk. -/
theorem historyOf_append : (m.historyOf p ++ c).rtake m.padding = m.historyOf (p ++ c) := by
  rw [historyOf, rtake_rtake_append, List.append_assoc, historyOf]

/-- From the history of a prefix, the convolution gives what a chunk adds to the output. -/
theorem conv_historyOf (hstride : m.stride = 1) (hc : c ≠ []) :
    ∃ y, m.conv (m.historyOf p ++ c) = some y ∧ m.outputsOf (p ++ c) = m.outputsOf p ++ y := by
  have hpos : 0 < c.length := List.length_pos_iff.mpr hc
  have hlen : m.padding < (m.historyOf p ++ c).length := by
    rw [List.length_append, length_historyOf]
    omega
  have hfit : m.padding ≤ (m.zeroHistory ++ p).length := by
    rw [List.length_append, length_zeroHistory]
    omega
  refine ⟨windows m.padding (m.outputAt · 0) (m.historyOf p ++ c), ?_, ?_⟩
  · rw [conv_eq_windows hstride, if_neg (by omega)]
  · rw [outputsOf, ← List.append_assoc, windows_append hfit]
    rfl

/-- Without padding there is no history. -/
theorem historyOf_eq_nil (hpad : m.padding = 0) : m.historyOf p = [] := by
  apply List.eq_nil_of_length_eq_zero
  rw [length_historyOf, hpad]

theorem causalConvStep_resumes (hstride : m.stride = 1) :
    Resumes (fun _ state x => causalConvStep m x state) (fun p => ⟨m.historyOf p⟩)
      m.outputsOf := by
  intro p c hc
  obtain ⟨y, hconv, hy⟩ := conv_historyOf (p := p) hstride hc
  refine ⟨y, ?_, hy⟩
  by_cases hpad : m.padding = 0
  · rw [historyOf_eq_nil hpad, List.nil_append] at hconv
    simp [causalConvStep, hstride, hpad, hconv, historyOf_eq_nil]
  · simp [causalConvStep, hstride, hpad, hconv, historyOf_append]

theorem exportCausalConvStep_resumes (hstride : m.stride = 1) :
    Resumes (fun _ state x => exportCausalConvStep m x state) m.historyOf m.outputsOf := by
  intro p c hc
  obtain ⟨y, hconv, hy⟩ := conv_historyOf (p := p) hstride hc
  refine ⟨y, ?_, hy⟩
  by_cases hpad : m.padding = 0
  · rw [historyOf_eq_nil hpad, List.nil_append] at hconv
    simp [exportCausalConvStep, hpad, hconv, historyOf_eq_nil]
  · simp [exportCausalConvStep, hpad, hconv, historyOf_append]

/-- Steps over non-empty chunks give the offline convolution piece by piece. -/
theorem run_eq_forward {S : Type*} {step : Nat → S → List (Frame R G I) →
    Option (List (Frame R G O) × S)} {state : List (Frame R G I) → S}
    (h : Resumes step state m.outputsOf) (hstride : m.stride = 1)
    {cs : List (List (Frame R G I))} (hcs : ∀ c ∈ cs, c ≠ []) :
    ∃ ys, runChunks step 0 (state []) cs = some (ys, state cs.flatten) ∧
      cat ys = m.forward cs.flatten := by
  obtain ⟨ys, hrun, hcat⟩ := h.run_cat outputsOf_nil hcs
  exact ⟨ys, hrun, by rw [hcat, forward_eq hstride]⟩

end CausalConv1d

/-- However a signal is cut, streaming it gives its offline convolution, and the
history that is carried is that of the frames so far. -/
theorem causal_conv_streaming (m : CausalConv1d R G I O) (hstride : m.stride = 1) :
    (∀ x chunks, chunks.sum = x.length → causalConvStream m x chunks = m.forward x) ∧
    (∀ cs : List (List (Frame R G I)), (∀ c ∈ cs, c ≠ []) →
      ∃ ys, runChunks (fun _ state x => causalConvStep m x state) 0 ⟨m.zeroHistory⟩ cs =
          some (ys, ⟨m.historyOf cs.flatten⟩) ∧ cat ys = m.forward cs.flatten) ∧
    ∀ cs : List (List (Frame R G I)), (∀ c ∈ cs, c ≠ []) →
      ∃ ys, runChunks (fun _ state x => exportCausalConvStep m x state) 0 m.zeroHistory cs =
          some (ys, m.historyOf cs.flatten) ∧ cat ys = m.forward cs.flatten := by
  have hstep := CausalConv1d.causalConvStep_resumes hstride
  have hexport := CausalConv1d.exportCausalConvStep_resumes hstride
  refine ⟨fun x chunks hsum => ?_, fun cs hcs => ?_, fun cs hcs => ?_⟩
  · have hstream := hstep.stream CausalConv1d.outputsOf_nil hsum
    rw [CausalConv1d.historyOf_nil] at hstream
    rw [causalConvStream, hstream, CausalConv1d.forward_eq hstride]
  · simpa using CausalConv1d.run_eq_forward hstep hstride hcs
  · simpa using CausalConv1d.run_eq_forward hexport hstride hcs

/-- Every frame minus the one two before it. -/
def twoStepDifference : CausalConv1d Int 1 1 1 where
  kernelSize := 2
  dilation := 2
  stride := 1
  weight := fun _ _ _ tap => if tap = 0 then -1 else 1
  bias := none

/-- Three frames, cut with an empty chunk in the middle. -/
theorem causal_conv_streaming_of_two_chunks :
    twoStepDifference.stride = 1 ∧ ([1, 0, 2] : List Nat).sum = 3 ∧
      causalConvStream twoStepDifference [fun _ _ => 5, fun _ _ => 7, fun _ _ => 11] [1, 0, 2] =
        some [fun _ _ => 5, fun _ _ => 7, fun _ _ => 6] := by
  refine ⟨rfl, rfl, ?_⟩
  rw [(causal_conv_streaming twoStepDifference rfl).1 _ _ rfl]
  decide

end JetsonVoice.Code2Wav
