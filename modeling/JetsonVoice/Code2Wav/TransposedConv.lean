import JetsonVoice.Code2Wav.CausalConv
import JetsonVoice.Foundation.OverlapAdd

/-!
# Streaming transposed convolution

A transposed convolution spreads every input frame over `kernelSize` output
frames, so the chunks of a stream overlap at their seams. The reference either
collects the raw segments or emits the samples that are stable; the exported
step carries the samples that are still open.

## Implementation notes

The convolutions have no padding, no output padding and dilation one; the module
trims both sides itself. A transposed convolution of no frames raises.
-/

namespace JetsonVoice.Code2Wav

open Foundation

structure CausalTransposeConv1d (R : Type*) (groups inChannels outChannels : Nat) where
  kernelSize : Nat
  stride : Nat
  leftPad : Nat
  rightPad : Nat
  weight : Fin groups → Fin inChannels → Fin outChannels → Fin kernelSize → R
  bias : Option (Frame R groups outChannels)
  stride_pos : 0 < stride
  stride_le : stride ≤ kernelSize

structure TransposeConvChunk (R : Type*) (groups channels : Nat) where
  start : Nat
  raw : List (Frame R groups channels)

structure TransposeConvEmitState (R : Type*) (groups channels : Nat) where
  raw : List (Frame R groups channels)
  emittedTrimmed : Nat
  inputOffset : Nat

/-- The right end of a slice of `n` items; a negative one counts from the end. -/
def sliceEnd (n : Nat) (right : Int) : Nat := (if right < 0 then n + right else right).toNat

variable {R : Type*} [Semiring R] {G I O : Nat}

namespace CausalTransposeConv1d
variable (m : CausalTransposeConv1d R G I O)

/-- What an input frame gives to the output frame `k` steps after its first one. -/
def tap (frame : Frame R G I) (k : Nat) : Frame R G O := fun g o =>
  if h : k < m.kernelSize then ∑ i, frame g i * m.weight g i o ⟨k, h⟩ else 0

/-- The transposed convolution, without a bias. -/
def convTranspose (x : List (Frame R G I)) : Option (List (Frame R G O)) :=
  if x.isEmpty then none
  else some (tabulate (overlapAt m.tap m.stride x) 0 ((x.length - 1) * m.stride + m.kernelSize))

def withBias (frame : Frame R G O) : Frame R G O :=
  match m.bias with
  | none => frame
  | some bias => frame + bias

/-- The left and right trim of the full module. -/
def trim (y : List (Frame R G O)) : List (Frame R G O) :=
  slice y m.leftPad (sliceEnd y.length ((y.length : Int) - m.rightPad))

/-- The module on a whole sequence. -/
def forward (x : List (Frame R G I)) : Option (List (Frame R G O)) :=
  (m.convTranspose x).map fun raw => m.trim (raw.map m.withBias)

end CausalTransposeConv1d

/-- Reference streaming via overlap-add: every chunk contributes a raw segment
placed at `start`, and the trim is that of the full module. -/
def transposedConvStreamCollect (m : CausalTransposeConv1d R G I O) (x : List (Frame R G I))
    (chunks : List Nat) : Option (List (Frame R G O)) :=
  let collect := fun (_ : Bool) inputOffset rawLen part =>
    (m.convTranspose part).map fun raw =>
      let start := inputOffset * m.stride
      ([TransposeConvChunk.mk start raw], max rawLen (start + raw.length))
  (chunkLoop collect x 0 0 chunks).bind fun (pieces, inputOffset, rawLen) =>
    if inputOffset = x.length then
      let fullRaw := pieces.flatten.foldl (fun full piece => addAt full piece.start piece.raw)
        (List.replicate rawLen 0)
      some (m.trim (fullRaw.map m.withBias))
    else none

/-- Add a chunk to the raw samples and emit those that no later chunk changes. -/
def transposedConvEmitStep (m : CausalTransposeConv1d R G I O) (x : List (Frame R G I))
    (state : TransposeConvEmitState R G O) (final : Bool) :
    Option (List (Frame R G O) × TransposeConvEmitState R G O) :=
  (m.convTranspose x).map fun raw =>
    let start := state.inputOffset * m.stride
    let rawLen := max state.raw.length (start + raw.length)
    let grown := state.raw ++ List.replicate (rawLen - state.raw.length) 0
    let rawAccum := addAt grown start raw
    let nextInputOffset := state.inputOffset + x.length
    let stableTrimmedEnd :=
      if final then rawAccum.length - m.rightPad - m.leftPad
      else nextInputOffset * m.stride - m.leftPad
    let emitStart := state.emittedTrimmed
    let emitEnd := max emitStart stableTrimmedEnd
    let y := slice rawAccum (m.leftPad + emitStart) (m.leftPad + emitEnd)
    (y.map m.withBias, ⟨rawAccum, emitEnd, nextInputOffset⟩)

def transposedConvStreamEmit (m : CausalTransposeConv1d R G I O) (x : List (Frame R G I))
    (chunks : List Nat) : Option (List (Frame R G O)) :=
  streamChunks (fun final _ state part => transposedConvEmitStep m part state final) ⟨[], 0, 0⟩ x
    chunks

/-- The step of the exported module, whose state has a fixed width. -/
def exportTransposedConvStep (m : CausalTransposeConv1d R G I O) (x : List (Frame R G I))
    (pending : List (Frame R G O)) : Option (List (Frame R G O) × List (Frame R G O)) :=
  (m.convTranspose x).bind fun raw =>
    -- The slice that takes the pending samples must have their shape.
    if raw.length < pending.length then none
    else
      let raw := if pending.length > 0 then addAt raw 0 pending else raw
      let emitLen := x.length * m.stride
      some ((slice raw 0 emitLen).map m.withBias, raw.drop emitLen)

/-- The initial state of the exported step. -/
def zeroPending (m : CausalTransposeConv1d R G I O) : List (Frame R G O) :=
  List.replicate m.rightPad 0

namespace CausalTransposeConv1d
variable {m : CausalTransposeConv1d R G I O} {x p c : List (Frame R G I)} {n u : Nat}

/-- The raw sample at a position, before the bias. -/
abbrev rawAt (m : CausalTransposeConv1d R G I O) (p : List (Frame R G I)) : Nat → Frame R G O :=
  overlapAt m.tap m.stride p

/-- The sample at a position. -/
abbrev sampleAt (m : CausalTransposeConv1d R G I O) (p : List (Frame R G I)) (u : Nat) :
    Frame R G O :=
  m.withBias (m.rawAt p u)

/-- The number of raw samples of `n` frames. -/
abbrev rawSpan (m : CausalTransposeConv1d R G I O) (n : Nat) : Nat :=
  overlapSpan m.stride m.kernelSize n

theorem tap_eq_zero (frame : Frame R G I) (k : Nat) (hk : m.kernelSize ≤ k) :
    m.tap frame k = 0 := by
  ext g o
  rw [tap, dif_neg (by omega), Pi.zero_apply, Pi.zero_apply]

theorem convTranspose_eq (hx : x ≠ []) :
    m.convTranspose x = some (tabulate (m.rawAt x) 0 (m.rawSpan x.length)) := by
  have hlen : x.length ≠ 0 := fun h => hx (List.length_eq_zero_iff.mp h)
  rw [convTranspose, if_neg (by simpa using hx), rawSpan, overlapSpan, if_neg hlen]

omit [Semiring R] in
theorem rawSpan_eq (hx : x ≠ []) :
    m.rawSpan x.length = x.length * m.stride + (m.kernelSize - m.stride) :=
  overlapSpan_eq m.stride_le fun h => hx (List.length_eq_zero_iff.mp h)

omit [Semiring R] in
theorem rawSpan_append (hc : c ≠ []) :
    m.rawSpan (p ++ c).length = p.length * m.stride + m.rawSpan c.length := by
  rw [List.length_append]
  exact overlapSpan_add fun h => hc (List.length_eq_zero_iff.mp h)

omit [Semiring R] in
theorem rawSpan_le_append (hc : c ≠ []) : m.rawSpan p.length ≤ m.rawSpan (p ++ c).length := by
  by_cases hp : p = []
  · rw [hp, List.length_nil, rawSpan, overlapSpan, if_pos rfl]
    exact Nat.zero_le _
  · rw [rawSpan_append hc, rawSpan_eq hp, rawSpan_eq hc]
    omega

/-- Zeros after the raw samples are raw samples. -/
theorem grow_raw (hn : m.rawSpan p.length ≤ n) :
    tabulate (m.rawAt p) 0 (m.rawSpan p.length) ++
        List.replicate (n - m.rawSpan p.length) 0 = tabulate (m.rawAt p) 0 n := by
  have hzero : tabulate (m.rawAt p) (m.rawSpan p.length) n =
      List.replicate (n - m.rawSpan p.length) 0 := by
    rw [← tabulate_const]
    exact tabulate_congr fun u hu _ => overlapAt_of_span_le tap_eq_zero hu
  rw [← hzero, tabulate_append_tabulate (Nat.zero_le _) hn]

/-- Samples before the first position of a chunk do not see it. -/
theorem sampleAt_append (hn : n ≤ p.length * m.stride) {a : Nat} :
    tabulate (m.sampleAt (p ++ c)) a n = tabulate (m.sampleAt p) a n := by
  apply tabulate_congr
  intro u _ hu
  rw [sampleAt, sampleAt, rawAt, overlapAt_append_of_lt (by omega)]

/-- The trim of at most a kernel leaves a range of samples. -/
theorem forward_eq (hright : m.rightPad ≤ m.kernelSize) (hx : x ≠ []) :
    m.forward x =
      some (tabulate (m.sampleAt x) m.leftPad (m.rawSpan x.length - m.rightPad)) := by
  have hspan : m.kernelSize ≤ m.rawSpan x.length := by
    have hlen : 0 < x.length := List.length_pos_iff.mpr hx
    have hmul : m.stride ≤ x.length * m.stride := Nat.le_mul_of_pos_left _ hlen
    rw [rawSpan_eq hx]
    omega
  have hend : sliceEnd (m.rawSpan x.length) ((m.rawSpan x.length : Int) - m.rightPad) =
      m.rawSpan x.length - m.rightPad := by
    rw [sliceEnd, if_neg (by omega)]
    omega
  rw [forward, convTranspose_eq hx, Option.map_some, map_tabulate, trim, length_tabulate,
    Nat.sub_zero, hend, slice_tabulate (by omega), Nat.zero_add, Nat.zero_add]

/-- The state of the emitter after a prefix that has not been flushed. -/
def emitStateOf (m : CausalTransposeConv1d R G I O) (p : List (Frame R G I)) :
    TransposeConvEmitState R G O where
  raw := tabulate (m.rawAt p) 0 (m.rawSpan p.length)
  emittedTrimmed := p.length * m.stride - m.leftPad
  inputOffset := p.length

/-- The samples that are stable after a prefix. -/
def stableOf (m : CausalTransposeConv1d R G I O) (p : List (Frame R G I)) :
    List (Frame R G O) :=
  tabulate (m.sampleAt p) m.leftPad (p.length * m.stride)

/-- One step of the emitter from the state of a prefix, up to the sample `stop`
that the samples emitted so far do not pass. -/
theorem emitStep_eq (final : Bool) {stop : Nat} (hc : c ≠ [])
    (hstop : stop = if final then m.rawSpan (p ++ c).length - m.rightPad
      else (p ++ c).length * m.stride)
    (hfrom : p.length * m.stride ≤ stop) :
    ∃ y, transposedConvEmitStep m c (m.emitStateOf p) final =
        some (y, { raw := tabulate (m.rawAt (p ++ c)) 0 (m.rawSpan (p ++ c).length)
                   emittedTrimmed := stop - m.leftPad
                   inputOffset := (p ++ c).length }) ∧
      m.stableOf p ++ y = tabulate (m.sampleAt (p ++ c)) m.leftPad stop := by
  have hspan : m.rawSpan (p ++ c).length = p.length * m.stride + m.rawSpan c.length :=
    rawSpan_append hc
  have hle : stop ≤ m.rawSpan (p ++ c).length := by
    cases final with
    | true =>
        rw [hstop, if_pos rfl]
        exact Nat.sub_le _ _
    | false =>
        rw [hstop, if_neg Bool.false_ne_true, rawSpan_eq (by simp [hc])]
        exact Nat.le_add_right _ _
  have hraw : max (m.rawSpan p.length) (p.length * m.stride + m.rawSpan c.length) =
      m.rawSpan (p ++ c).length := by
    rw [← hspan]
    exact max_eq_right (rawSpan_le_append hc)
  have haccum : addAt (tabulate (m.rawAt p) 0 (m.rawSpan p.length) ++
      List.replicate (m.rawSpan (p ++ c).length - m.rawSpan p.length) 0) (p.length * m.stride)
      (tabulate (m.rawAt c) 0 (m.rawSpan c.length)) =
      tabulate (m.rawAt (p ++ c)) 0 (m.rawSpan (p ++ c).length) := by
    rw [grow_raw (rawSpan_le_append hc)]
    exact addAt_overlap tap_eq_zero
  have hend : max (p.length * m.stride - m.leftPad)
      (if final then m.rawSpan (p ++ c).length - m.rightPad - m.leftPad
        else (p ++ c).length * m.stride - m.leftPad) = stop - m.leftPad := by
    cases final <;> simp only [hstop, Bool.false_eq_true, if_false, if_true] at hfrom ⊢ <;> omega
  refine ⟨(slice (tabulate (m.rawAt (p ++ c)) 0 (m.rawSpan (p ++ c).length))
    (m.leftPad + (p.length * m.stride - m.leftPad)) (m.leftPad + (stop - m.leftPad))).map
      m.withBias, ?_, ?_⟩
  · rw [transposedConvEmitStep, convTranspose_eq hc, Option.map_some]
    simp only [emitStateOf, length_tabulate, Nat.sub_zero, hraw, haccum, ← List.length_append,
      hend]
  · rw [stableOf, ← sampleAt_append le_rfl, map_slice, map_tabulate,
      tabulate_append_slice hfrom hle]

/-- A step that is not the last one goes on to the stable samples of the longer prefix. -/
theorem emitStep_kept (hc : c ≠ []) :
    ∃ y, transposedConvEmitStep m c (m.emitStateOf p) false = some (y, m.emitStateOf (p ++ c)) ∧
      m.stableOf (p ++ c) = m.stableOf p ++ y := by
  have hmono : p.length * m.stride ≤ (p ++ c).length * m.stride :=
    Nat.mul_le_mul_right _ (by simp)
  obtain ⟨y, hstep, hy⟩ := emitStep_eq false hc rfl hmono
  exact ⟨y, hstep, hy.symm⟩

/-- The last step flushes what is left before the right trim. -/
theorem emitStep_final (hright : m.rightPad ≤ m.kernelSize) (hc : c ≠ []) :
    ∃ y s, transposedConvEmitStep m c (m.emitStateOf p) true = some (y, s) ∧
      some (m.stableOf p ++ y) = m.forward (p ++ c) := by
  have hfrom : p.length * m.stride ≤ m.rawSpan (p ++ c).length - m.rightPad := by
    have hlen : 0 < c.length := List.length_pos_iff.mpr hc
    have hmul : m.stride ≤ c.length * m.stride := Nat.le_mul_of_pos_left _ hlen
    have hle := m.stride_le
    rw [rawSpan_append hc, rawSpan_eq hc]
    omega
  obtain ⟨y, hstep, hy⟩ := emitStep_eq true hc rfl hfrom
  exact ⟨y, _, hstep, by rw [hy, forward_eq hright (by simp [hc]), if_pos rfl]⟩

/-- The emitter gives the trimmed transposed convolution, unless the last chunk
is empty, which leaves the flush out, and there is something to flush. -/
theorem streamEmit_eq_forward {chunks : List Nat} (hsum : chunks.sum = x.length)
    (hpad : m.rightPad = m.kernelSize - m.stride ∨
      m.rightPad ≤ m.kernelSize ∧ chunks.getLast? ≠ some 0) :
    transposedConvStreamEmit m x chunks = m.forward x := by
  have hright : m.rightPad ≤ m.kernelSize := by
    rcases hpad with heq | ⟨hle, -⟩
    · omega
    · exact hle
  obtain ⟨ys, s, hloop, hend⟩ := chunkLoop_spec
    (fun final _ state part => transposedConvEmitStep m part state final)
    (fun p s ys => s = m.emitStateOf p ∧ ys.flatten = m.stableOf p ∧ (ys = [] ↔ p = []))
    (fun p _ ys => some ys.flatten = m.forward p ∧ ys ≠ [] ∧ p ≠ [])
    (by
      rintro p c s ys ⟨rfl, hys, hempty⟩ hc
      obtain ⟨y, hstep, hy⟩ := emitStep_kept hc
      exact ⟨y, _, hstep, rfl, by simp [hys, hy], by simp [hc]⟩)
    (by
      rintro p c s ys ⟨rfl, hys, -⟩ hc
      obtain ⟨y, t, hstep, hy⟩ := emitStep_final hright hc
      exact ⟨y, t, hstep, by simpa [hys] using hy, by simp, by simp [hc]⟩)
    (x := x) (s := ⟨[], 0, 0⟩) (by simp [emitStateOf, stableOf, overlapSpan, tabulate_of_le]) hsum
  rw [transposedConvStreamEmit, streamChunks_eq hloop, cat]
  by_cases hlast : chunks.getLast?.getD 0 = 0
  · rw [if_pos hlast] at hend
    obtain ⟨-, hys, hempty⟩ := hend
    by_cases hx : x = []
    · rw [if_pos (by simp [hempty, hx]), hx]
      rfl
    · have hstop : m.rawSpan x.length - m.rightPad = x.length * m.stride := by
        have hne : chunks ≠ [] := by
          rintro rfl
          exact hx (List.length_eq_zero_iff.mp hsum.symm)
        have hkernel : m.rightPad = m.kernelSize - m.stride := by
          apply hpad.resolve_right
          rintro ⟨-, hnot⟩
          rw [List.getLast?_eq_some_getLast hne] at hlast hnot
          exact hnot (congrArg some hlast)
        rw [rawSpan_eq hx]
        omega
      rw [if_neg (by simp [hempty, hx]), hys, forward_eq hright hx, hstop, stableOf]
  · rw [if_neg hlast] at hend
    obtain ⟨hys, hempty, hx⟩ := hend
    rw [if_neg (by simpa using hempty), hys]

/-- Adding up the collected segments gives the raw samples; without any frames
there is nothing to trim. -/
theorem streamCollect_eq {chunks : List Nat} (hsum : chunks.sum = x.length) :
    transposedConvStreamCollect m x chunks =
      some (m.trim (tabulate (m.sampleAt x) 0 (m.rawSpan x.length))) := by
  let Inv (p : List (Frame R G I)) (rawLen : Nat) (pieces : List (List (TransposeConvChunk R G O))) :
      Prop :=
    rawLen = m.rawSpan p.length ∧ ∀ n,
      pieces.flatten.foldl (fun full piece => addAt full piece.start piece.raw)
        (List.replicate n 0) = tabulate (m.rawAt p) 0 n
  have hstart : Inv [] 0 [] := by
    refine ⟨rfl, fun n => ?_⟩
    calc
      List.replicate n 0 = tabulate (fun _ => (0 : Frame R G O)) 0 n := by
        rw [tabulate_const, Nat.sub_zero]
      _ = tabulate (m.rawAt []) 0 n := tabulate_congr fun u _ _ => overlapAt_nil.symm
  have hstep : ∀ {p c rawLen pieces}, Inv p rawLen pieces → c ≠ [] →
      ∃ y t, ((m.convTranspose c).map fun raw =>
          ([TransposeConvChunk.mk (p.length * m.stride) raw],
            max rawLen (p.length * m.stride + raw.length))) = some (y, t) ∧
        Inv (p ++ c) t (pieces ++ [y]) := by
    rintro p c rawLen pieces ⟨rfl, hsegments⟩ hc
    rw [convTranspose_eq hc]
    refine ⟨_, _, rfl, ?_, fun n => ?_⟩
    · rw [length_tabulate, Nat.sub_zero, ← rawSpan_append hc,
        max_eq_right (rawSpan_le_append hc)]
    · rw [List.flatten_append, List.foldl_append, hsegments n]
      exact addAt_overlap tap_eq_zero
  obtain ⟨pieces, rawLen, hloop, hend⟩ := chunkLoop_spec
    (fun _ inputOffset rawLen part => (m.convTranspose part).map fun raw =>
      ([TransposeConvChunk.mk (inputOffset * m.stride) raw],
        max rawLen (inputOffset * m.stride + raw.length)))
    Inv Inv hstep hstep hstart hsum
  rw [ite_self] at hend
  obtain ⟨rfl, hsegments⟩ := hend
  simp only [transposedConvStreamCollect, hloop, Option.bind_some, if_true, hsegments,
    map_tabulate]

/-- Collecting a sequence that has frames is the module on the whole sequence. -/
theorem streamCollect_eq_forward {chunks : List Nat} (hsum : chunks.sum = x.length)
    (hx : x ≠ []) : transposedConvStreamCollect m x chunks = m.forward x := by
  rw [streamCollect_eq hsum, forward, convTranspose_eq hx, Option.map_some, map_tabulate]

end CausalTransposeConv1d

/-- The emitter, the module on the whole sequence and, when there are frames, the
collected segments give the same samples. -/
theorem transposed_conv_emit (m : CausalTransposeConv1d R G I O) (x : List (Frame R G I))
    (chunks : List Nat) (hsum : chunks.sum = x.length)
    (hpad : m.rightPad = m.kernelSize - m.stride ∨
      m.rightPad ≤ m.kernelSize ∧ chunks.getLast? ≠ some 0) :
    transposedConvStreamEmit m x chunks = m.forward x ∧
      (x ≠ [] → transposedConvStreamEmit m x chunks = transposedConvStreamCollect m x chunks) := by
  have hemit := CausalTransposeConv1d.streamEmit_eq_forward hsum hpad
  refine ⟨hemit, fun hx => ?_⟩
  rw [hemit, CausalTransposeConv1d.streamCollect_eq_forward hsum hx]

/-- A kernel of five taps at stride two, trimmed on the right as the model does. -/
def fiveTaps : CausalTransposeConv1d Int 1 1 1 where
  kernelSize := 5
  stride := 2
  leftPad := 0
  rightPad := 3
  weight := fun _ _ _ tap => tap + 1
  bias := some fun _ _ => 10
  stride_pos := by decide
  stride_le := by decide

/-- Two frames in chunks of one, with empty chunks between and after them. -/
theorem transposed_conv_emit_of_two_chunks :
    ([1, 0, 1, 0] : List Nat).sum = 2 ∧ fiveTaps.rightPad = fiveTaps.kernelSize - fiveTaps.stride ∧
      transposedConvStreamEmit fiveTaps [fun _ _ => 1, fun _ _ => 100] [1, 0, 1, 0] =
        some [fun _ _ => 11, fun _ _ => 12, fun _ _ => 113, fun _ _ => 214] := by
  refine ⟨rfl, rfl, ?_⟩
  rw [(transposed_conv_emit fiveTaps [fun _ _ => 1, fun _ _ => 100] [1, 0, 1, 0] rfl (.inl rfl)).1]
  decide

/-- Without any frames there is nothing to concatenate, while collecting gives an
empty sequence. -/
theorem transposed_conv_emit_fails_on_no_frames :
    ¬ ∀ (m : CausalTransposeConv1d Int 1 1 1) (x : List (Frame Int 1 1)) (chunks : List Nat),
      m.rightPad = m.kernelSize - m.stride → chunks.sum = x.length →
        transposedConvStreamEmit m x chunks = transposedConvStreamCollect m x chunks := by
  intro h
  have hempty : transposedConvStreamEmit fiveTaps [] [] = transposedConvStreamCollect fiveTaps [] [] :=
    h fiveTaps [] [] rfl rfl
  revert hempty
  decide

namespace CausalTransposeConv1d
variable {m : CausalTransposeConv1d R G I O} {x p c : List (Frame R G I)}

/-- The raw samples after the stable ones, which the next chunk still adds to. -/
def pendingOf (m : CausalTransposeConv1d R G I O) (p : List (Frame R G I)) : List (Frame R G O) :=
  tabulate (fun u => m.rawAt p (p.length * m.stride + u)) 0 (m.kernelSize - m.stride)

theorem length_pendingOf : (m.pendingOf p).length = m.kernelSize - m.stride := by
  rw [pendingOf, length_tabulate, Nat.sub_zero]

theorem pendingOf_nil : m.pendingOf [] = List.replicate (m.kernelSize - m.stride) 0 := by
  calc
    m.pendingOf [] = tabulate (fun _ => 0) 0 (m.kernelSize - m.stride) :=
      tabulate_congr fun u _ _ => overlapAt_nil
    _ = List.replicate (m.kernelSize - m.stride) 0 := by rw [tabulate_const, Nat.sub_zero]

/-- The samples of a prefix that no later frame reaches, `stride` for each frame. -/
def outputsOf (m : CausalTransposeConv1d R G I O) (p : List (Frame R G I)) :
    List (Frame R G O) :=
  tabulate (m.sampleAt p) 0 (p.length * m.stride)

theorem exportStep_resumes :
    Resumes (fun _ pending x => exportTransposedConvStep m x pending) m.pendingOf m.outputsOf := by
  intro p c hc
  have hspan : m.rawSpan c.length = c.length * m.stride + (m.kernelSize - m.stride) :=
    rawSpan_eq hc
  have hoff : (p ++ c).length * m.stride = p.length * m.stride + c.length * m.stride := by
    rw [List.length_append, Nat.add_mul]
  have hadded : (if (m.pendingOf p).length > 0 then
      addAt (tabulate (m.rawAt c) 0 (m.rawSpan c.length)) 0 (m.pendingOf p)
      else tabulate (m.rawAt c) 0 (m.rawSpan c.length)) =
      tabulate (fun u => m.rawAt (p ++ c) (p.length * m.stride + u)) 0 (m.rawSpan c.length) := by
    rw [← addAt_pending tap_eq_zero m.stride_le]
    by_cases hpos : (m.pendingOf p).length > 0
    · rw [if_pos hpos, pendingOf]
    · have hnil : m.pendingOf p = [] := List.length_eq_zero_iff.mp (by omega)
      rw [if_neg hpos, ← pendingOf, hnil, addAt_nil]
  have hpending : (tabulate (fun u => m.rawAt (p ++ c) (p.length * m.stride + u)) 0
      (m.rawSpan c.length)).drop (c.length * m.stride) = m.pendingOf (p ++ c) := by
    rw [drop_tabulate, hspan, pendingOf, tabulate_shift, tabulate_shift, hoff]
    congr 1 <;> omega
  refine ⟨tabulate (m.sampleAt (p ++ c)) (p.length * m.stride) ((p ++ c).length * m.stride), ?_, ?_⟩
  · have hfit : ¬ (tabulate (m.rawAt c) 0 (m.rawSpan c.length)).length < (m.pendingOf p).length := by
      rw [length_tabulate, length_pendingOf]
      omega
    have hemitted : (slice (tabulate (fun u => m.rawAt (p ++ c) (p.length * m.stride + u)) 0
        (m.rawSpan c.length)) 0 (c.length * m.stride)).map m.withBias =
        tabulate (m.sampleAt (p ++ c)) (p.length * m.stride) ((p ++ c).length * m.stride) := by
      rw [slice_tabulate (by omega), map_tabulate, tabulate_shift (f := m.sampleAt (p ++ c)), hoff]
      congr 1
      omega
    simp only [exportTransposedConvStep, convTranspose_eq hc, Option.bind_some, if_neg hfit,
      hadded, hemitted, hpending]
  · calc
      m.outputsOf (p ++ c) = tabulate (m.sampleAt (p ++ c)) 0 (p.length * m.stride) ++
          tabulate (m.sampleAt (p ++ c)) (p.length * m.stride) ((p ++ c).length * m.stride) :=
        (tabulate_append_tabulate (Nat.zero_le _) (by omega)).symm
      _ = m.outputsOf p ++ _ := by rw [sampleAt_append le_rfl, outputsOf]

theorem forward_eq_outputsOf (hleft : m.leftPad = 0) (hright : m.rightPad = m.kernelSize - m.stride) :
    m.forward x = if x = [] then none else some (m.outputsOf x) := by
  by_cases hx : x = []
  · rw [if_pos hx, hx]
    rfl
  · have hstop : m.rawSpan x.length - m.rightPad = x.length * m.stride := by
      rw [rawSpan_eq hx]
      omega
    rw [if_neg hx, forward_eq (by omega) hx, hstop, hleft, outputsOf]

/-- Every step of the exported module emits `stride` frames for each frame it gets. -/
theorem length_exportStep {pending pending' : List (Frame R G O)} {y : List (Frame R G O)}
    (h : exportTransposedConvStep m x pending = some (y, pending')) :
    y.length = x.length * m.stride := by
  have hx : x ≠ [] := by
    rintro rfl
    simp [exportTransposedConvStep, convTranspose] at h
  obtain ⟨raw, hraw, hrest⟩ := Option.bind_eq_some_iff.mp h
  have hlen : raw.length = x.length * m.stride + (m.kernelSize - m.stride) := by
    rw [convTranspose_eq hx, Option.some_inj] at hraw
    rw [← hraw, length_tabulate, Nat.sub_zero, rawSpan_eq hx]
  split at hrest
  · cases hrest
  · obtain ⟨rfl, -⟩ := Prod.mk.inj (Option.some.inj hrest)
    rw [List.length_map, length_slice, Nat.sub_zero]
    split
    · rw [length_addAt]
      omega
    · omega

end CausalTransposeConv1d

/-- Over chunks that have frames, the exported step emits the trimmed transposed
convolution, `stride` frames for each frame, and what it carries has a fixed width. -/
theorem transposed_conv_step_overlap_adds (m : CausalTransposeConv1d R G I O)
    (hleft : m.leftPad = 0) (hright : m.rightPad = m.kernelSize - m.stride)
    (cs : List (List (Frame R G I))) (hcs : ∀ c ∈ cs, c ≠ []) :
    ∃ ys pending, runChunks (fun _ pending x => exportTransposedConvStep m x pending) 0
        (zeroPending m) cs = some (ys, pending) ∧
      cat ys = m.forward cs.flatten ∧
      List.Forall₂ (fun c y => y.length = c.length * m.stride) cs ys ∧
      pending.length = m.kernelSize - m.stride ∧ pending = m.pendingOf cs.flatten := by
  have hnil : m.outputsOf [] = [] := by
    rw [CausalTransposeConv1d.outputsOf, List.length_nil, Nat.zero_mul, tabulate_of_le le_rfl]
  have hzero : zeroPending m = m.pendingOf [] := by
    rw [zeroPending, hright, CausalTransposeConv1d.pendingOf_nil]
  obtain ⟨ys, hrun, hcat⟩ := CausalTransposeConv1d.exportStep_resumes.run_cat hnil hcs
  rw [← CausalTransposeConv1d.forward_eq_outputsOf hleft hright] at hcat
  refine ⟨ys, _, hzero ▸ hrun, hcat, ?_, CausalTransposeConv1d.length_pendingOf, rfl⟩
  exact runChunks_forall₂ CausalTransposeConv1d.length_exportStep hrun

/-- A kernel of more than two strides, and chunks shorter than what is carried. -/
theorem transposed_conv_step_overlap_adds_of_two_chunks :
    fiveTaps.leftPad = 0 ∧ fiveTaps.rightPad = fiveTaps.kernelSize - fiveTaps.stride ∧
      ∃ ys pending, runChunks (fun _ pending x => exportTransposedConvStep fiveTaps x pending) 0
          (zeroPending fiveTaps) [[fun _ _ => 1], [fun _ _ => 100]] = some (ys, pending) ∧
        cat ys = some [fun _ _ => 11, fun _ _ => 12, fun _ _ => 113, fun _ _ => 214] ∧
        pending.length = 3 := by
  obtain ⟨ys, pending, hrun, hcat, -, hlen, -⟩ :=
    transposed_conv_step_overlap_adds fiveTaps rfl rfl [[fun _ _ => 1], [fun _ _ => 100]]
      (by simp)
  refine ⟨rfl, rfl, ys, pending, hrun, hcat.trans ?_, hlen⟩
  decide

end JetsonVoice.Code2Wav
