import JetsonVoice.Code2Wav.StatePlumbing
import JetsonVoice.Code2Wav.TransposedConv
import JetsonVoice.Foundation.StreamedPass

/-!
# Streaming through the exported module

One call of `forward` decodes one chunk of codes. A session calls it chunk by
chunk, hands every call the states of the one before and moves the offset on. When
its layers are what they are in the decoder, the waveform and the states after the
last chunk do not depend on how the codes were cut.

## Implementation notes

What the layers of the decoder do is stated of the fields that stand for them: a
convolution sees the window behind its first tap, a transposed convolution adds up
what every frame gives to the samples from its own on, a layer of the transformer
sees the frame and the keys and values in its window.
-/

set_option linter.unusedSectionVars false

namespace JetsonVoice.Code2Wav

open Foundation

variable {C E : Type*} [AddCommMonoid E]

/-- The zeros that `initial_states` makes. -/
def zeroState (spec : StateSpec) : Tensor E where
  channels := spec.shape.channels
  headDim := spec.shape.headDim
  frames := List.replicate spec.shape.length 0

/-- What flows between two layers: frames of so many channels, so many for each code. -/
structure Flow where
  channels : Nat
  pace : Nat
  pos : 0 < pace

namespace Flow

def port (s : Flow) : Port E (Tensor E) where
  present frames := { channels := s.channels, frames := frames }
  pace := s.pace
  pos := s.pos

def toChannels (s : Flow) (channels : Nat) : Flow := { s with channels := channels }

def faster (s : Flow) (channels stride : Nat) (h : 0 < stride) : Flow where
  channels := channels
  pace := stride * s.pace
  pos := Nat.mul_pos h s.pos

end Flow

section Convolutions
variable {m : CausalConvNet E} {s : Flow}

/-- A convolution with stride one, padded by all of its window but the last frame. -/
structure CausalConvNet.Causal (m : CausalConvNet E) : Prop where
  stride : m.stride = 1
  span : m.span = m.padding + 1
  local_ : ∀ x i, i + m.span ≤ x.length → m.outputAt x i = m.outputAt (slice x i (i + m.span)) 0

theorem CausalConvNet.Causal.conv_eq (hm : m.Causal) {x : List E} (hx : m.padding < x.length) :
    m.conv { channels := m.inChannels, frames := x } =
      some { channels := m.outChannels, frames := windows m.padding (m.outputAt · 0) x } := by
  have hspan := hm.span
  have hcount : (x.length - m.span) / m.stride + 1 = x.length - m.padding := by
    rw [hm.stride, Nat.div_one]
    omega
  rw [CausalConvNet.conv, if_pos ⟨rfl, show m.span ≤ x.length by omega⟩, hcount, windows]
  congr 2
  apply List.map_congr_left
  intro t ht
  rw [List.mem_range] at ht
  rw [hm.local_ x t (by omega), hspan, Nat.add_assoc]

/-- The state after a prefix: its last frames, behind the zeros that the stream starts with. -/
def CausalConvNet.history (m : CausalConvNet E) (x : List E) : Tensor E where
  channels := m.inChannels
  frames := (List.replicate m.padding 0 ++ x).rtake m.padding

theorem zeroState_convSpec : zeroState (convSpec site m) = m.history [] := by
  simp [zeroState, convSpec, CausalConvNet.history, List.rtake]

theorem CausalConvNet.length_history (x : List E) : (m.history x).frames.length = m.padding := by
  simp only [history, List.rtake, List.length_drop, List.length_append, List.length_replicate]
  omega

/-- The frames that see the history of a prefix. -/
theorem CausalConvNet.Causal.step_eq (hm : m.Causal) (hpad : m.padding ≠ 0) (x : List E)
    {c : List E} (hc : c ≠ []) :
    m.causalConvStep { channels := m.inChannels, frames := c } (m.history x) = some (
      { channels := m.outChannels
        frames := windows m.padding (m.outputAt · 0) ((m.history x).frames ++ c) },
      m.history (x ++ c)) := by
  have hcat : (m.history x).cat { channels := m.inChannels, frames := c } =
      some { channels := m.inChannels, frames := (m.history x).frames ++ c } :=
    if_pos ⟨rfl, rfl⟩
  have hfit : m.padding < ((m.history x).frames ++ c).length := by
    rw [List.length_append, length_history]
    exact Nat.lt_add_of_pos_right (List.length_pos_iff.mpr hc)
  rw [causalConvStep, if_neg hpad, hcat, Option.bind_some, hm.conv_eq hfit, Option.map_some]
  simp only [history, rtake_rtake_append, List.append_assoc]

/-- All frames of a prefix. -/
def CausalConvNet.outputs (m : CausalConvNet E) (x : List E) : List E :=
  windows m.padding (m.outputAt · 0) (List.replicate m.padding 0 ++ x)

theorem CausalConvNet.outputs_append (x c : List E) :
    m.outputs (x ++ c) =
      m.outputs x ++ windows m.padding (m.outputAt · 0) ((m.history x).frames ++ c) := by
  rw [outputs, ← List.append_assoc, windows_append (by simp)]
  rfl

theorem CausalConvNet.length_windows_history (x c : List E) :
    (windows m.padding (m.outputAt · 0) ((m.history x).frames ++ c)).length = c.length := by
  rw [windows, List.length_map, List.length_range, List.length_append, length_history,
    Nat.add_sub_cancel_left]

theorem convState_streams (site : Site) (hm : m.Causal) (hin : s.channels = m.inChannels) :
    Streams s.port (s.toChannels m.outChannels).port ((addConv site m).map zeroState)
      fun states _ x w => convState (positional states) site m x w := by
  simp only [convState, addConv]
  by_cases hpad : m.padding = 0
  · simp only [hpad, if_true, List.map_nil]
    refine .stateless (φ := fun a => m.outputAt [a] 0) rfl fun c hc => ?_
    have hlen : m.padding < c.length := by
      rw [hpad]
      exact List.length_pos_iff.mpr hc
    simp only [Flow.port, hin]
    rw [hm.conv_eq hlen, hpad, windows_zero]
    rfl
  · simp only [hpad, if_false, List.map_cons, List.map_nil]
    rw [zeroState_convSpec]
    refine .use 1 m.outputs Nat.one_pos (one_mul _).symm
      (by simp [CausalConvNet.outputs, windows]) fun x c hc =>
        ⟨_, m.outputs_append x c, by rw [m.length_windows_history, one_mul], ?_⟩
    rw [Flow.port, hin]
    exact hm.step_eq hpad x hc

end Convolutions

section Transposed
variable {m : CausalTransConvNet E} {tap : E → Nat → E} {s : Flow}

/-- A transposed convolution that adds up what every frame gives to the samples from its own on,
`tap` of them, and whose right trim is what the last frame reaches beyond its stride. -/
structure CausalTransConvNet.OverlapAdds (m : CausalTransConvNet E) (tap : E → Nat → E) : Prop where
  stride_pos : 0 < m.stride
  stride_le : m.stride ≤ m.kernelSize
  dilation : m.dilation = 1
  padding : m.padding = 0
  outputPadding : m.outputPadding = 0
  rightPad : m.rightPad = m.kernelSize - m.stride
  tap_eq_zero : ∀ a k, m.kernelSize ≤ k → tap a k = 0
  rawAt : ∀ x u, m.rawAt x u = overlapAt tap m.stride x u

namespace CausalTransConvNet.OverlapAdds
variable (hm : m.OverlapAdds tap)
include hm

theorem convTranspose_eq {c : List E} (hc : c ≠ []) :
    m.convTranspose { channels := m.inChannels, frames := c } = some {
      channels := m.outChannels
      frames := tabulate (overlapAt tap m.stride c) 0
        (overlapSpan m.stride m.kernelSize c.length) } := by
  have hpos : 0 < c.length := List.length_pos_iff.mpr hc
  have hle := hm.stride_le
  have hstride := hm.stride_pos
  have hraw : m.rawLength c.length = overlapSpan m.stride m.kernelSize c.length := by
    rw [rawLength, hm.dilation, hm.padding, hm.outputPadding, overlapSpan, if_neg (by omega)]
    omega
  have hspan : 0 < m.rawLength c.length := by
    rw [hraw, overlapSpan, if_neg (by omega)]
    omega
  rw [convTranspose, if_pos ⟨rfl, hc, hspan⟩, hraw, tabulate, Nat.sub_zero, List.range_eq_range',
    funext (hm.rawAt c)]

/-- The samples that the frames of a prefix have settled. -/
theorem step_eq (x : List E) {c : List E} (hc : c ≠ []) :
    m.transposedConvStep { channels := m.inChannels, frames := c }
        { channels := m.outChannels, frames := pendingAt tap m.stride m.kernelSize x } = some (
      { channels := m.outChannels
        frames := tabulate (fun u => m.withBias (overlapAt tap m.stride (x ++ c) u))
          (x.length * m.stride) ((x ++ c).length * m.stride) },
      { channels := m.outChannels, frames := pendingAt tap m.stride m.kernelSize (x ++ c) }) := by
  obtain ⟨htake, hdrop⟩ := addAt_pending_split (p := x) hm.tap_eq_zero hm.stride_le hc
  have hspan : overlapSpan m.stride m.kernelSize c.length =
      c.length * m.stride + (m.kernelSize - m.stride) :=
    overlapSpan_eq hm.stride_le fun h => hc (List.length_eq_zero_iff.mp h)
  have hfit : (pendingAt tap m.stride m.kernelSize x).length ≤
      (tabulate (overlapAt tap m.stride c) 0
        (overlapSpan m.stride m.kernelSize c.length)).length := by
    rw [length_pendingAt, length_tabulate]
    omega
  have hadd : addPending
      { channels := m.outChannels
        frames := tabulate (overlapAt tap m.stride c) 0
          (overlapSpan m.stride m.kernelSize c.length) }
      { channels := m.outChannels, frames := pendingAt tap m.stride m.kernelSize x } = some {
        channels := m.outChannels
        frames := addAt (tabulate (overlapAt tap m.stride c) 0
          (overlapSpan m.stride m.kernelSize c.length)) 0
            (pendingAt tap m.stride m.kernelSize x) } := by
    rw [addAt_zero hfit, addPending]
    split
    · rename_i hnil
      simp only [List.length_eq_zero_iff] at hnil
      simp [hnil]
    · rw [if_pos ⟨rfl, rfl, hfit⟩]
  rw [transposedConvStep, hm.convTranspose_eq hc, Option.bind_some, hadd, Option.map_some]
  simp only [htake, hdrop, map_tabulate]

end CausalTransConvNet.OverlapAdds

theorem tconvState_streams (site : Site) (hm : m.OverlapAdds tap) (hin : s.channels = m.inChannels) :
    Streams s.port (s.faster m.outChannels m.stride hm.stride_pos).port
      ((addTconv site m).map zeroState)
      fun states _ x w => tconvState (positional states) site m x w := by
  have hpresent (c : List E) : s.port.present c = { channels := m.inChannels, frames := c } := by
    rw [Flow.port, hin]
  let out (x : List E) : List E :=
    tabulate (fun u => m.withBias (overlapAt tap m.stride x u)) 0 (x.length * m.stride)
  have hnil : out [] = [] := by simp [out, tabulate]
  have hout (x c : List E) : out (x ++ c) = out x ++ tabulate (fun u =>
      m.withBias (overlapAt tap m.stride (x ++ c) u)) (x.length * m.stride)
        ((x ++ c).length * m.stride) := by
    have hle : x.length * m.stride ≤ (x ++ c).length * m.stride :=
      Nat.mul_le_mul_right _ (by rw [List.length_append]; omega)
    simp only [out]
    rw [← tabulate_append_tabulate (Nat.zero_le _) hle]
    congr 1
    exact tabulate_congr fun u _ hu => by rw [overlapAt_append_of_lt hu]
  have hlen (x c : List E) : (tabulate (fun u => m.withBias (overlapAt tap m.stride (x ++ c) u))
      (x.length * m.stride) ((x ++ c).length * m.stride)).length = m.stride * c.length := by
    rw [length_tabulate, List.length_append, Nat.add_mul, Nat.add_sub_cancel_left, mul_comm]
  simp only [tconvState, addTconv]
  by_cases hpad : m.rightPad = 0
  · simp only [hpad, if_true, List.map_nil]
    refine .free m.stride out hm.stride_pos rfl hnil fun x c hc =>
      ⟨_, hout x c, hlen x c, ?_⟩
    have hpending (x : List E) : pendingAt tap m.stride m.kernelSize x = [] := by
      apply List.eq_nil_of_length_eq_zero
      rw [length_pendingAt, ← hm.rightPad, hpad]
    have hstep := hm.step_eq x hc
    rw [hpending, CausalTransConvNet.transposedConvStep, hm.convTranspose_eq hc] at hstep
    rw [hpresent, CausalTransConvNet.transposedConvNoState, hm.convTranspose_eq hc]
    simp only [Option.bind_some, addPending, List.length_nil, if_true, Option.map_some,
      Option.some.injEq, Prod.mk.injEq] at hstep ⊢
    exact hstep.1
  · simp only [hpad, if_false, List.map_cons, List.map_nil]
    let pending (x : List E) : Tensor E :=
      { channels := m.outChannels, frames := pendingAt tap m.stride m.kernelSize x }
    have hstart : zeroState (tconvSpec site m) = pending [] := by
      simp [zeroState, tconvSpec, pending, pendingAt_nil, hm.rightPad]
    rw [hstart]
    refine .use m.stride out hm.stride_pos rfl hnil fun x c hc =>
      ⟨_, hout x c, hlen x c, ?_⟩
    rw [hpresent, hm.step_eq x hc]
    rfl

end Transposed

section Blocks
variable {s s' : Flow}

/-- The blocks of an upsampling stage fit what flows in. -/
def upsampleJoins (s : Flow) (blocks : (CausalTransConvNet E × ConvNeXtBlock E) × Nat) (s' : Flow) :
    Prop :=
  ∃ tap, ∃ h : blocks.1.1.OverlapAdds tap, s.channels = blocks.1.1.inChannels ∧
    blocks.1.2.dwconv.Causal ∧ blocks.1.2.dwconv.inChannels = blocks.1.1.outChannels ∧
    blocks.1.2.dwconv.outChannels = blocks.1.1.outChannels ∧
    s' = s.faster blocks.1.1.outChannels blocks.1.1.stride h.stride_pos

/-- A residual unit for so many channels. -/
structure DecoderUnit.Fits (unit : DecoderUnit E) (channels : Nat) : Prop where
  causal1 : unit.conv1.Causal
  causal2 : unit.conv2.Causal
  in1 : channels = unit.conv1.inChannels
  in2 : unit.conv1.outChannels = unit.conv2.inChannels
  out : unit.conv2.outChannels = channels

def decoderJoins (s : Flow) : DecoderBlock E × Nat → Flow → Prop
  | (.causalConvNet m, _), s' => m.Causal ∧ s.channels = m.inChannels ∧ s' = s.toChannels m.outChannels
  | (.decoderDecoderBlock _ tconv units, _), s' =>
      ∃ tap, ∃ h : tconv.OverlapAdds tap, s.channels = tconv.inChannels ∧
        (∀ unit ∈ units, unit.Fits tconv.outChannels) ∧
        s' = s.faster tconv.outChannels tconv.stride h.stride_pos
  | (.snakeBeta _, _), s' => s' = s

theorem map_present (s : Flow) (f : E → E) (c : List E) :
    (s.port.present c).map f = s.port.present (c.map f) := rfl

theorem add_present (s : Flow) {c y : List E} (h : y.length = c.length) :
    (s.port.present c).add (s.port.present y) =
      some (s.port.present (List.zipWith (· + ·) c y)) := by
  rw [Tensor.add, if_pos]
  · rfl
  · simp [Tensor.shape, Flow.port, h]

theorem convnextStep_streams (idx : Nat) (block : ConvNeXtBlock E) (hm : block.dwconv.Causal)
    (hin : s.channels = block.dwconv.inChannels) (hout : block.dwconv.outChannels = s.channels) :
    Streams s.port s.port ((addConv (.upsampleConvnextDw idx) block.dwconv).map zeroState)
      fun states _ x w => convnextStep (positional states) idx block x w := by
  have hconv := convState_streams (.upsampleConvnextDw idx) hm hin
  rw [Flow.toChannels, hout] at hconv
  refine hconv.join (G := fun x y => x.add (y.map block.rest)) (φ := fun a b => a + block.rest b)
    rfl rfl fun c y _ hlen => ?_
  rw [map_present, add_present s (by simpa using hlen), List.zipWith_map_right]

theorem upsampleStep_streams (blocks : (CausalTransConvNet E × ConvNeXtBlock E) × Nat)
    (h : upsampleJoins s blocks s') :
    Streams s.port s'.port ((upsampleSpecs blocks).map zeroState)
      fun states _ x w => upsampleStep (positional states) blocks x w := by
  obtain ⟨tap, htap, hin, hm, hmin, hmout, rfl⟩ := h
  rw [upsampleSpecs, List.map_append]
  exact (tconvState_streams _ htap hin).bind
    (convnextStep_streams blocks.2 blocks.1.2 hm hmin.symm hmout)

theorem decoderUnitStep_streams (idx : Nat) (unit : DecoderUnit E × Nat)
    (h : unit.1.Fits s.channels) :
    Streams s.port s.port ((unitSpecs idx unit).map zeroState)
      fun states _ x w => decoderUnitStep (positional states) idx unit x w := by
  have hfirst := (convState_streams (s := s) (.decoderUnitConv1 idx unit.2) h.causal1
    h.in1).premap (o := s.port) (F := fun x => x.map unit.1.act1) (φ := unit.1.act1) rfl
      (map_present s unit.1.act1)
  have hsecond := (convState_streams (s := s.toChannels unit.1.conv1.outChannels)
    (.decoderUnitConv2 idx unit.2) h.causal2 h.in2).premap
      (o := (s.toChannels unit.1.conv1.outChannels).port) (F := fun x => x.map unit.1.act2)
      (φ := unit.1.act2) rfl (map_present _ unit.1.act2)
  have hboth := hfirst.bind hsecond
  simp only [Flow.toChannels, h.out] at hboth
  have hjoin := hboth.join (r := s.port) (G := fun x y => y.add x) (φ := fun a b => b + a) rfl rfl
    fun c y _ hlen => by
      have hadd := add_present (E := E) s (c := y) (y := c) hlen.symm
      rwa [List.zipWith_comm] at hadd
  rw [unitSpecs, List.map_append]
  simp only [Option.bind_assoc] at hjoin
  exact hjoin

theorem decoderStep_streams (block : DecoderBlock E × Nat) (h : decoderJoins s block s') :
    Streams s.port s'.port ((decoderSpecs block).map zeroState)
      fun states _ x w => decoderStep (positional states) block x w := by
  obtain ⟨block, idx⟩ := block
  cases block with
  | causalConvNet m =>
      obtain ⟨hm, hin, rfl⟩ := h
      exact convState_streams _ hm hin
  | decoderDecoderBlock act tconv units =>
      obtain ⟨tap, htap, hin, hunits, rfl⟩ := h
      have htconv := (tconvState_streams (.decoderTconv idx) htap hin).premap
        (o := s.port) (F := fun x => x.map act) (φ := act) rfl (map_present s act)
      let port (s : Flow) : Port E (Tensor E) := s.port
      have hpass := Streams.pass port (fun s unit s' => s = s' ∧ unit.1.Fits s.channels)
        (fun unit => (unitSpecs idx unit).map zeroState)
        (fun states _ => decoderUnitStep (positional states) idx)
        (fun j unit j' hj => hj.1 ▸ decoderUnitStep_streams idx unit hj.2)
        (Streams.joined_of_forall (s.faster tconv.outChannels tconv.stride htap.stride_pos)
          (units.zipIdx 2) fun unit hunit => hunits unit.1 (List.fst_mem_of_mem_zipIdx hunit))
      rw [decoderSpecs, List.map_append, List.map_flatMap]
      exact htconv.bind hpass
  | snakeBeta act =>
      obtain rfl : s' = s := h
      exact .stateless (F := fun x : Tensor E => some (x.map act)) (φ := act) rfl fun c _ => rfl

end Blocks

section Attention
variable {layer : TransformerLayer E} {keep : Nat} {see : Nat → E → List (E × E) → E}

/-- A layer whose query at an absolute position sees the keys and values of its window: `keep`
positions before it, those before the start of the stream left out, and its own. -/
def TransformerLayer.Windowed (layer : TransformerLayer E) (keep : Nat)
    (see : Nat → E → List (E × E) → E) : Prop :=
  ∀ ⦃offset hidden keys values i x⦄, hidden[i]? = some x →
    keys.length = keep + hidden.length → values.length = keep + hidden.length →
    layer.attend offset hidden keys values i =
      see (offset + i) x (slice (keys.zip values) (max i (keep - offset)) (keep + i + 1))

namespace TransformerLayer

/-- The keys and values of frames whose first one is at the position `start`. -/
def entries (layer : TransformerLayer E) (start : Nat) (x : List E) : List (E × E) :=
  (x.map layer.inputLayernorm).mapIdx fun i a => (layer.key (start + i) a, layer.value (start + i) a)

/-- The keys and values of a prefix, behind the zeros that the stream starts with. -/
def padded (layer : TransformerLayer E) (keep : Nat) (x : List E) : List (E × E) :=
  List.replicate keep 0 ++ layer.entries 0 x

/-- The frames that a layer makes of a prefix. -/
def frames (layer : TransformerLayer E) (keep : Nat) (see : Nat → E → List (E × E) → E)
    (x : List E) : List E :=
  x.mapIdx fun q a => layer.finish a
    (see q (layer.inputLayernorm a) (slice (layer.entries 0 x) (q - keep) (q + 1)))

theorem length_entries (start : Nat) (x : List E) : (layer.entries start x).length = x.length := by
  rw [entries, List.length_mapIdx, List.length_map]

theorem entries_append (x c : List E) :
    layer.entries 0 (x ++ c) = layer.entries 0 x ++ layer.entries x.length c := by
  rw [entries, List.map_append, List.mapIdx_append, List.length_map, entries, entries]
  congr 2
  funext i a
  rw [Nat.zero_add, Nat.add_comm i]

theorem padded_append (x c : List E) :
    layer.padded keep (x ++ c) = layer.padded keep x ++ layer.entries x.length c := by
  rw [padded, padded, entries_append, List.append_assoc]

theorem length_padded (x : List E) : (layer.padded keep x).length = keep + x.length := by
  rw [padded, List.length_append, List.length_replicate, length_entries]

/-- The keys and values that a chunk finds and those of its own. -/
theorem rtake_padded_append (x c : List E) :
    (layer.padded keep x).rtake keep ++ layer.entries x.length c =
      (layer.padded keep (x ++ c)).drop x.length := by
  rw [padded_append, List.rtake, length_padded, Nat.add_sub_cancel_left,
    List.drop_append_of_le_length (by rw [length_padded]; omega)]

/-- The window of a query among the keys and values of its chunk. -/
theorem slice_padded (x c : List E) (i : Nat) :
    slice ((layer.padded keep (x ++ c)).drop x.length) (max i (keep - x.length)) (keep + i + 1) =
      slice (layer.entries 0 (x ++ c)) (x.length + i - keep) (x.length + i + 1) := by
  have hshift : slice (List.replicate keep 0 ++ layer.entries 0 (x ++ c))
      ((List.replicate keep (0 : E × E)).length + (x.length + i - keep))
      ((List.replicate keep (0 : E × E)).length + (x.length + i + 1)) =
        slice (layer.entries 0 (x ++ c)) (x.length + i - keep) (x.length + i + 1) :=
    slice_append_add
  rw [List.length_replicate] at hshift
  have hlo : x.length + max i (keep - x.length) = keep + (x.length + i - keep) := by omega
  have hhi : x.length + (keep + i + 1) = keep + (x.length + i + 1) := by omega
  rw [slice, List.drop_drop, ← Nat.add_sub_add_left x.length, ← slice, hlo, hhi, padded, hshift]

theorem frames_append (x c : List E) :
    layer.frames keep see (x ++ c) = layer.frames keep see x ++ c.mapIdx fun i a =>
      layer.finish a (see (x.length + i) (layer.inputLayernorm a)
        (slice (layer.entries 0 (x ++ c)) (x.length + i - keep) (x.length + i + 1))) := by
  rw [frames, List.mapIdx_append, frames]
  congr 1
  · apply List.mapIdx_eq_mapIdx_iff.mpr
    intro q hq
    rw [entries_append, slice_append_left (by rw [length_entries]; omega)]
  · congr 1
    funext i a
    rw [Nat.add_comm i]

end TransformerLayer

/-- Hidden frames between the layers of the transformer. -/
def hiddenPort : Port E (List E) := ⟨id, 1, Nat.one_pos⟩

namespace Code2WavModel
variable {C : Type*} (model : Code2WavModel C E)

/-- The state a layer keeps of one half of the keys and values of a prefix. -/
def kvState (layer : TransformerLayer E) (half : E × E → E) (x : List E) : Tensor E where
  channels := model.numKeyValueHeads
  headDim := some model.headDim
  frames := ((layer.padded model.keep x).rtake model.keep).map half

theorem attentionStep_eq (hkeep : model.keep ≠ 0) (hlayer : layer.Windowed model.keep see)
    (x c : List E) :
    model.attentionStep layer (c.map layer.inputLayernorm) (model.kvState layer Prod.fst x)
        (model.kvState layer Prod.snd x) x.length = some (
      c.mapIdx fun i a => see (x.length + i) (layer.inputLayernorm a)
        (slice (layer.entries 0 (x ++ c)) (x.length + i - model.keep) (x.length + i + 1)),
      model.kvState layer Prod.fst (x ++ c), model.kvState layer Prod.snd (x ++ c)) := by
  have hcat (half : E × E → E) (f : Nat → E → E)
      (hf : ∀ n a, half (layer.key n a, layer.value n a) = f n a) :
      (model.kvState layer half x).cat {
        channels := model.numKeyValueHeads
        headDim := some model.headDim
        frames := (c.map layer.inputLayernorm).mapIdx fun i a => f (x.length + i) a } = some {
          channels := model.numKeyValueHeads
          headDim := some model.headDim
          frames := ((layer.padded model.keep (x ++ c)).drop x.length).map half } := by
    rw [Tensor.cat, if_pos ⟨rfl, rfl⟩, ← TransformerLayer.rtake_padded_append, List.map_append,
      TransformerLayer.entries, List.mapIdx_eq_zipIdx_map, List.mapIdx_eq_zipIdx_map, List.map_map]
    simp only [kvState, Function.comp_def, hf]
  have hlast (half : E × E → E) :
      model.lastKept {
        channels := model.numKeyValueHeads
        headDim := some model.headDim
        frames := ((layer.padded model.keep (x ++ c)).drop x.length).map half } =
          model.kvState layer half (x ++ c) := by
    simp only [lastKept, kvState, lastItems, if_neg hkeep]
    rw [rtake_map, ← TransformerLayer.rtake_padded_append, rtake_rtake_append,
      TransformerLayer.padded_append]
  have hwindow : (c.map layer.inputLayernorm).mapIdx (fun i _ =>
      layer.attend x.length (c.map layer.inputLayernorm)
        (((layer.padded model.keep (x ++ c)).drop x.length).map Prod.fst)
        (((layer.padded model.keep (x ++ c)).drop x.length).map Prod.snd) i) =
      c.mapIdx fun i a => see (x.length + i) (layer.inputLayernorm a)
        (slice (layer.entries 0 (x ++ c)) (x.length + i - model.keep) (x.length + i + 1)) := by
    have hlen (half : E × E → E) :
        (((layer.padded model.keep (x ++ c)).drop x.length).map half).length =
          model.keep + (c.map layer.inputLayernorm).length := by
      rw [List.length_map, List.length_drop, TransformerLayer.length_padded, List.length_append,
        List.length_map]
      omega
    apply List.ext_getElem?
    intro i
    rw [List.getElem?_mapIdx, List.getElem?_mapIdx, List.getElem?_map, Option.map_map]
    cases hi : (c)[i]? with
    | none => rfl
    | some a =>
        have ha : (c.map layer.inputLayernorm)[i]? = some (layer.inputLayernorm a) := by
          rw [List.getElem?_map, hi, Option.map_some]
        rw [Option.map_some, Option.map_some, Function.comp_apply,
          hlayer ha (hlen Prod.fst) (hlen Prod.snd), List.zip_map', List.map_id',
          TransformerLayer.slice_padded]
  simp only [attentionStep]
  rw [hcat Prod.fst layer.key fun _ _ => rfl, Option.bind_some,
    hcat Prod.snd layer.value fun _ _ => rfl, Option.map_some, hlast, hlast, hwindow]

theorem layerStep_streams (idx : Nat) (hkeep : model.keep ≠ 0)
    (hlayer : layer.Windowed model.keep see) :
    Streams hiddenPort hiddenPort ((model.attnSpecs idx).map zeroState)
      fun states n x w => model.layerStep (positional states) n (layer, idx) x w := by
  have hstart (half : E × E → E) (hhalf : half 0 = 0) (site : Site) :
      zeroState ⟨site, model.kvShape⟩ = model.kvState layer half [] := by
    simp [zeroState, kvShape, kvState, TransformerLayer.padded, TransformerLayer.entries,
      List.rtake, hhalf]
  rw [attnSpecs, List.map_cons, List.map_cons, List.map_nil, hstart Prod.fst rfl,
    hstart Prod.snd rfl]
  refine .useTwo (layer.frames model.keep see) rfl rfl rfl fun x c _ =>
    ⟨_, layer.frames_append x c, List.length_mapIdx, ?_⟩
  have hfinish (f : Nat → E → E) :
      List.zipWith layer.finish c (c.mapIdx f) = c.mapIdx fun i a => layer.finish a (f i a) := by
    apply List.ext_getElem
    · simp
    · intro i hi hi'
      rw [List.getElem_zipWith, List.getElem_mapIdx, List.getElem_mapIdx]
  rw [show hiddenPort.present c = c from rfl, model.attentionStep_eq hkeep hlayer, Option.map_some,
    hfinish]
  rfl

theorem preTransformerStep_streams {s : Flow} (hpace : s.pace = 1) (hkeep : model.keep ≠ 0)
    (hlayers : ∀ layer ∈ model.preTransformer.layers, ∃ see, layer.Windowed model.keep see) :
    Streams s.port (s.toChannels model.preTransformer.outChannels).port
      (model.attentionSpecs.map zeroState)
      fun states n x w => model.preTransformerStep (positional states) n x w := by
  have hlayer (layer : TransformerLayer E × Nat) (h : ∃ see, layer.1.Windowed model.keep see) :
      Streams hiddenPort hiddenPort ((model.attnSpecs layer.2).map zeroState)
        fun states n x w => model.layerStep (positional states) n layer x w := by
    obtain ⟨see, hsee⟩ := h
    exact model.layerStep_streams layer.2 hkeep hsee
  have hpass := Streams.pass (V := Tensor E) (fun _ : Unit => hiddenPort)
    (fun j layer j' => j = j' ∧ ∃ see, layer.1.Windowed model.keep see)
    (fun layer => (model.attnSpecs layer.2).map zeroState)
    (fun states n => model.layerStep (positional states) n)
    (fun _ layer _ hj => hlayer layer hj.2)
    (Streams.joined_of_forall () model.preTransformer.layers.zipIdx fun layer h =>
      hlayers layer.1 (List.fst_mem_of_mem_zipIdx h))
  have hin := hpass.premap (o := s.port) (F := fun hidden =>
    hidden.frames.map model.preTransformer.inputProj) hpace.symm fun _ => rfl
  rw [attentionSpecs_eq, List.map_flatMap]
  have hout := hin.bind (r := (s.toChannels model.preTransformer.outChannels).port)
    (.stateless (φ := model.preTransformer.outputProj)
      (F := fun hidden => some (model.preTransformer.output hidden)) hpace fun _ _ => rfl)
  rwa [List.append_nil] at hout

end Code2WavModel

end Attention

section Module
variable {F : Type*} {model : Code2WavModel (List F) E} {embed : F → E} {s s' : Flow}

theorem Code2WavModel.synthesisStep_streams
    (hup : Streams.Joined upsampleJoins s model.upsample.zipIdx s')
    {t : Flow} (hdec : Streams.Joined decoderJoins s' model.decoder.zipIdx t) :
    Streams s.port t.port (model.synthesisSpecs.map zeroState)
      fun states _ x w => model.synthesisStep (positional states) x w := by
  have hup := Streams.pass (V := Tensor E) (fun s : Flow => s.port (E := E)) upsampleJoins
    (fun blocks => (upsampleSpecs blocks).map zeroState)
    (fun states _ => upsampleStep (positional states))
    (fun _ blocks _ h => upsampleStep_streams blocks h) hup
  have hdec := Streams.pass (V := Tensor E) (fun s : Flow => s.port (E := E)) decoderJoins
    (fun block => (decoderSpecs block).map zeroState)
    (fun states _ => decoderStep (positional states))
    (fun _ block _ h => decoderStep_streams block h) hdec
  rw [synthesisSpecs, List.map_append, List.map_flatMap, List.map_flatMap]
  exact hup.bind hdec

/-- The layers of the decoder. Each takes the channels that the one before it gives, and `last` is
what flows out of the last one. -/
structure Code2WavModel.Layered (model : Code2WavModel (List F) E) (embed : F → E) (last : Flow) :
    Prop where
  quantizer : ∀ codes, codes ≠ [] → model.quantizerDecode codes = some {
    channels := model.preConv.inChannels
    frames := codes.map embed }
  keep : model.keep ≠ 0
  preConv : model.preConv.Causal
  preConv_padding : model.preConv.padding ≠ 0
  layers : ∀ layer ∈ model.preTransformer.layers, ∃ see, layer.Windowed model.keep see
  synthesis : ∃ mid, Streams.Joined upsampleJoins
    ⟨model.preTransformer.outChannels, 1, Nat.one_pos⟩ model.upsample.zipIdx mid ∧
      Streams.Joined decoderJoins mid model.decoder.zipIdx last

/-- One call of `forward`, as a step on the states of the stream. -/
def Code2WavModel.chunkStep (model : Code2WavModel (List F) E) (offset : Nat)
    (states : List (Tensor E)) (codes : List F) : Option (List E × List (Tensor E)) :=
  (model.forward codes offset states).map fun r => (r.1.frames, r.2)

theorem Code2WavModel.forward_eq_some {C : Type*} {model : Code2WavModel C E} {codes : C}
    {offset cursor cursor' : Nat} {states attn outputs : List (Tensor E)}
    {hidden state first nextState second wave : Tensor E}
    (hquantizer : model.quantizerDecode codes = some hidden)
    (hat : states[2 * model.preTransformer.layers.length]? = some state)
    (hconv : model.preConv.causalConvStep hidden state = some (first, nextState))
    (hpre : model.preTransformerStep (positional states) offset first (0, []) =
      some (second, cursor, attn))
    (hsyn : model.synthesisStep (positional states) second
      (2 * model.preTransformer.layers.length + 1, attn ++ [nextState]) =
        some (wave, cursor', outputs)) :
    model.forward codes offset states = some (wave.map model.clamp, outputs) := by
  simp only [forward, hquantizer, hat, hconv, hpre, hsyn, Option.bind_eq_bind, Option.bind_some]

/-- What the calls leave behind and what they have given are functions of the codes. -/
theorem Code2WavModel.Layered.resumes (h : model.Layered embed s) :
    ∃ state output, state [] = model.stateSpecs.map zeroState ∧ output [] = [] ∧
      (∀ codes, (output codes).length = s.pace * codes.length) ∧
      Resumes model.chunkStep state output := by
  obtain ⟨mid, hup, hdec⟩ := h.synthesis
  obtain ⟨rate, outPre, heldPre, -, hpacePre, hinitPre, hpre⟩ :=
    model.preTransformerStep_streams (s := ⟨model.preConv.outChannels, 1, Nat.one_pos⟩) rfl h.keep
      h.layers
  obtain ⟨rate', outSyn, heldSyn, -, hpaceSyn, hinitSyn, hsyn⟩ :=
    Code2WavModel.synthesisStep_streams hup hdec
  obtain rfl : rate = 1 := (hpacePre.trans (mul_one _)).symm
  obtain rfl : s.pace = rate' := hpaceSyn.trans (mul_one _)
  let frames (codes : List F) : List E := model.preConv.outputs (codes.map embed)
  have hlenFrames (codes : List F) : (frames codes).length = codes.length := by
    simp [frames, CausalConvNet.outputs, windows]
  have hnil : frames [] = [] := List.eq_nil_of_length_eq_zero (hlenFrames [])
  refine ⟨fun codes => heldPre (frames codes) ++
      ([model.preConv.history (codes.map embed)] ++ heldSyn (outPre (frames codes))),
    fun codes => (outSyn (outPre (frames codes))).map model.clamp, ?_, ?_, ?_, ?_⟩
  · simp only [hnil, hpre.nil, hinitPre, hinitSyn, stateSpecs, addConv, if_neg h.preConv_padding,
      List.map_append, List.map_cons, List.map_nil, zeroState_convSpec]
  · simp only [hnil, hpre.nil, hsyn.nil, List.map_nil]
  · intro codes
    rw [List.length_map, hsyn.length_out, hpre.length_out, hlenFrames, one_mul]
  · intro p c hc
    have hconv := h.preConv.step_eq h.preConv_padding (p.map embed) (c := c.map embed)
      (by simpa using hc)
    set z := p.map embed with hz
    set y := windows model.preConv.padding (model.preConv.outputAt · 0)
      ((model.preConv.history z).frames ++ c.map embed) with hy
    have hframes : frames (p ++ c) = frames p ++ y := by
      simp only [frames, List.map_append]
      exact model.preConv.outputs_append z (c.map embed)
    have hlen : y.length = c.length := by
      rw [hy, CausalConvNet.length_windows_history, List.length_map]
    have hne : y ≠ [] := List.length_pos_iff.mp (hlen ▸ List.length_pos_iff.mpr hc)
    obtain ⟨y', hy', hlen', hpreStep⟩ := hpre.step (frames p) y p.length hne
      ((hlenFrames p).trans (one_mul _).symm)
    have hne' : y' ≠ [] :=
      List.length_pos_iff.mp (hlen'.trans (one_mul _) ▸ List.length_pos_iff.mpr hne)
    obtain ⟨y'', hy'', -, hsynStep⟩ := hsyn.step (outPre (frames p)) y' p.length hne'
      ((hpre.length_out _).trans (congrArg _ (hlenFrames p)))
    have hcursor : (heldPre (frames p)).length = 2 * model.preTransformer.layers.length := by
      rw [hpre.width, hinitPre, List.length_map, length_attentionSpecs]
    let states := heldPre (frames p) ++
      ([model.preConv.history z] ++ heldSyn (outPre (frames p)))
    have hat : states[2 * model.preTransformer.layers.length]? = some (model.preConv.history z) := by
      rw [← hcursor, List.getElem?_append_right le_rfl, Nat.sub_self]
      rfl
    have hrest : states.drop (2 * model.preTransformer.layers.length + 1) =
        heldSyn (outPre (frames p)) ++ [] := by
      rw [← hcursor, ← List.drop_drop, List.drop_left, List.append_nil]
      rfl
    have hstart : states.drop 0 = heldPre (frames p) ++ _ := List.drop_zero
    have hforward := forward_eq_some (h.quantizer c hc) hat hconv (hpreStep hstart)
      (hsynStep hrest)
    refine ⟨y''.map model.clamp, ?_, ?_⟩
    · rw [chunkStep, hforward, Option.map_some, ← hy', ← hframes, List.nil_append, hz,
        ← List.map_append, List.append_assoc]
      rfl
    · simp only [hframes, hy', hy'', List.map_append]

/-- However the codes are cut, the calls of `forward` give the waveform of one call on all of them,
so many samples for each code, and leave the states that it leaves. -/
theorem module_streaming (h : model.Layered embed s) (cs : List (List F))
    (hcs : ∀ c ∈ cs, c ≠ []) (hne : cs ≠ []) :
    ∃ waveform states pieces,
      model.forward cs.flatten 0 (model.stateSpecs.map zeroState) = some (waveform, states) ∧
      runChunks model.chunkStep 0 (model.stateSpecs.map zeroState) cs = some (pieces, states) ∧
      pieces.flatten = waveform.frames ∧ waveform.frames.length = s.pace * cs.flatten.length := by
  obtain ⟨state, output, hstart, hnil, hlen, hstep⟩ := h.resumes
  have hflat : cs.flatten ≠ [] := by
    obtain ⟨c, hc⟩ := List.exists_mem_of_ne_nil cs hne
    exact fun hflat => hcs c hc (List.flatten_eq_nil_iff.mp hflat c hc)
  obtain ⟨pieces, hrun, hpieces, -⟩ := hstep.run [] hcs
  obtain ⟨y, hall, hy⟩ := hstep [] cs.flatten hflat
  obtain ⟨⟨waveform, states⟩, hforward, heq⟩ := Option.map_eq_some_iff.mp hall
  obtain ⟨rfl, rfl⟩ := Prod.mk.inj heq
  rw [hnil, List.nil_append, List.nil_append] at hpieces hy
  rw [hstart] at hrun hforward
  refine ⟨waveform, _, pieces, hforward, hrun, hpieces.symm.trans hy, ?_⟩
  rw [← hlen, hy]

end Module

section Layers
variable {R S X Y : Type*} {G I O H D : Nat}

/-- The convolution of the module whose frames are read and written so. -/
def CausalConv1d.net [Semiring R] (m : CausalConv1d R G I O) (read : E → Frame R G I)
    (write : Frame R G O → E) : CausalConvNet E where
  inChannels := G * I
  outChannels := G * O
  padding := m.padding
  span := m.span
  stride := m.stride
  outputAt x t := write (m.outputAt (x.map read) (t * m.stride))

theorem CausalConv1d.net_causal [Semiring R] (m : CausalConv1d R G I O) (hstride : m.stride = 1)
    (read : E → Frame R G I) (write : Frame R G O → E) : (m.net read write).Causal where
  stride := hstride
  span := by
    simp only [net, padding, span, hstride]
    omega
  local_ x i _ := by
    simp only [net, hstride, Nat.mul_one, map_slice]
    rw [m.outputAt_slice]

/-- The transposed convolution of the module, which trims nothing on the left. -/
def CausalTransposeConv1d.net [Semiring R] (m : CausalTransposeConv1d R G I O)
    (read : E → Frame R G I) (write : Frame R G O →+ E) (withBias : E → E) :
    CausalTransConvNet E where
  inChannels := G * I
  outChannels := G * O
  kernelSize := m.kernelSize
  stride := m.stride
  padding := 0
  outputPadding := 0
  dilation := 1
  rightPad := m.rightPad
  rawAt x u := write (overlapAt m.tap m.stride (x.map read) u)
  withBias := withBias

theorem CausalTransposeConv1d.net_overlapAdds [Semiring R] (m : CausalTransposeConv1d R G I O)
    (hright : m.rightPad = m.kernelSize - m.stride) (read : E → Frame R G I)
    (write : Frame R G O →+ E) (withBias : E → E) :
    (m.net read write withBias).OverlapAdds fun a k => write (m.tap (read a) k) where
  stride_pos := m.stride_pos
  stride_le := m.stride_le
  dilation := rfl
  padding := rfl
  outputPadding := rfl
  rightPad := hright
  tap_eq_zero a k hk := by rw [m.tap_eq_zero _ k hk, map_zero]
  rawAt x u := map_overlapAt write read x

/-- The keys of an exported step, at their positions. -/
def SlidingWindowAttention.exportEntries (m : SlidingWindowAttention R S X Y H G D) (offset : Nat)
    (kv : List (Frame R H D × Frame R H D)) : List (Int × Frame R H D × Frame R H D) :=
  kv.mapIdx fun j kv => ((offset : Int) - (m.slidingWindow - 1 : Nat) + j, kv)

/-- The layer of the module around the exported attention. -/
def SlidingWindowAttention.layer [DivisionRing R] [AddZeroClass S]
    (m : SlidingWindowAttention R S X E H G D) (inputLayernorm : E → E) (finish : E → E → E)
    (read : E → X) (pack : Frame R H D → E) (unpack : E → Frame R H D) : TransformerLayer E where
  inputLayernorm := inputLayernorm
  key n a := pack (m.key n (read a))
  value _ a := pack (m.vProj (read a))
  attend offset hidden keys values i :=
    (m.attend m.exportVisible (hidden.map read) (arange offset hidden.length) (.ofEntries
      (m.exportEntries offset ((keys.map unpack).zip (values.map unpack))))).getD i 0
  finish := finish

/-- The position of a key that a query attends to is not looked at. -/
theorem SlidingWindowAttention.attendTo_snd [DivisionRing R] [AddZeroClass S]
    (m : SlidingWindowAttention R S X Y H G D) (q : Int) (x : X)
    (l : List (Int × Frame R H D × Frame R H D)) :
    m.attendTo q x ((l.map Prod.snd).map fun kv => (0, kv)) = m.attendTo q x l := by
  simp only [attendTo, List.map_map, Function.comp_def]

theorem SlidingWindowAttention.layer_windowed [DivisionRing R] [AddZeroClass S]
    (m : SlidingWindowAttention R S X E H G D) (hmask : ∀ s, m.exp (s + m.minimum) = 0)
    (hwindow : 0 < m.slidingWindow) (inputLayernorm : E → E) (finish : E → E → E) (read : E → X)
    (pack : Frame R H D → E) (unpack : E → Frame R H D) :
    (m.layer inputLayernorm finish read pack unpack).Windowed (m.slidingWindow - 1) fun q a kv =>
      m.attendTo q (read a) (kv.map fun kv => (0, unpack kv.1, unpack kv.2)) := by
  intro offset hidden keys values i a ha _ _
  have hmapped : (hidden.map read)[i]? = some (read a) := by rw [List.getElem?_map, ha, Option.map_some]
  let kv := (keys.map unpack).zip (values.map unpack)
  have hseen : (m.exportEntries offset kv).filter
        (fun entry => m.exportVisible (offset + i) entry.1) =
      slice (m.exportEntries offset kv) (max i (m.slidingWindow - 1 - offset))
        (m.slidingWindow - 1 + i + 1) := by
    apply filter_mapIdx
    intro j entry
    simp only [exportVisible, visible, Bool.and_eq_true, decide_eq_true_eq]
    omega
  have hsnd : (m.exportEntries offset kv).map Prod.snd = kv := by
    rw [exportEntries, List.mapIdx_eq_zipIdx_map, List.map_map]
    exact List.zipIdx_map_fst 0 kv
  have hlen : hidden.length = (hidden.map read).length := (List.length_map _).symm
  calc
    _ = m.attendTo (offset + i) (read a) (slice (m.exportEntries offset kv)
        (max i (m.slidingWindow - 1 - offset)) (m.slidingWindow - 1 + i + 1)) := by
      simp only [layer]
      rw [hlen, attend_entries hmask, List.getD_eq_getElem?_getD, List.getElem?_mapIdx, hmapped,
        Option.map_some, Option.getD_some, hseen]
    _ = _ := by
      have hkv : kv = (keys.zip values).map (Prod.map unpack unpack) := List.zip_map
      rw [← attendTo_snd, map_slice, hsnd, hkv, ← map_slice, List.map_map]
      simp only [Nat.cast_add]
      rfl

end Layers

/-- Every frame minus the one before it. -/
def stepDifference : CausalConvNet ℚ :=
  ({ kernelSize := 2, dilation := 1, stride := 1, bias := none
     weight := fun _ _ _ tap => if tap.val = 0 then -1 else 1 } : CausalConv1d ℚ 1 1 1).net
    (fun a _ _ => a) fun frame => frame (Fin.last 0) (Fin.last 0)

/-- Three taps at stride two. -/
def spreadTaps : CausalTransposeConv1d ℚ 1 1 1 where
  kernelSize := 3
  stride := 2
  leftPad := 0
  rightPad := 1
  weight := fun _ _ _ tap => tap + 1
  bias := none
  stride_pos := Nat.two_pos
  stride_le := by decide

/-- The value of a frame with one channel. -/
def onlyValue : Frame ℚ 1 1 →+ ℚ :=
  (Pi.evalAddMonoidHom (fun _ : Fin 1 => ℚ) (Fin.last 0)).comp
    (Pi.evalAddMonoidHom (fun _ => Fin 1 → ℚ) (Fin.last 0))

def spread : CausalTransConvNet ℚ := spreadTaps.net (fun a _ _ => a) onlyValue id

/-- A model with layers of every kind. -/
def streamedModel : Code2WavModel (List ℚ) ℚ where
  slidingWindow := 2
  slidingWindow_pos := Nat.two_pos
  numKeyValueHeads := 1
  headDim := 1
  quantizerDecode codes := some { channels := 1, frames := codes }
  preConv := stepDifference
  preTransformer := {
    inputProj := id
    layers := [meanOfTwo.layer id (· + ·) id (fun kv => kv (Fin.last 0) (Fin.last 0))
      fun a _ _ => a]
    outputProj := id
    outChannels := 1 }
  upsample := [(spread, { dwconv := stepDifference, rest := (2 * ·) })]
  decoder := [.snakeBeta (3 * ·),
    .decoderDecoderBlock id spread [⟨id, stepDifference, id, stepDifference⟩],
    .causalConvNet stepDifference]
  clamp := id

theorem module_streaming_of_three_codes :
    streamedModel.Layered id ⟨1, 4, by decide⟩ ∧
    ∃ waveform states pieces,
      streamedModel.forward [1, 3, 5] 0 (streamedModel.stateSpecs.map zeroState) =
        some (waveform, states) ∧
      runChunks streamedModel.chunkStep 0 (streamedModel.stateSpecs.map zeroState) [[1], [3, 5]] =
        some (pieces, states) ∧
      pieces.flatten = waveform.frames ∧ waveform.frames.length = 12 := by
  have hstep : stepDifference.Causal := CausalConv1d.net_causal _ rfl _ _
  have hspread : spread.OverlapAdds _ := spreadTaps.net_overlapAdds rfl _ onlyValue id
  have hlayered : streamedModel.Layered id ⟨1, 4, by decide⟩ := {
    quantizer := fun codes _ => by rw [List.map_id]; rfl
    keep := Nat.one_ne_zero
    preConv := hstep
    preConv_padding := by decide
    layers := fun layer hlayer => by
      obtain rfl := List.mem_singleton.mp hlayer
      exact ⟨_, meanOfTwo.layer_windowed (fun s => by
        rw [show s + meanOfTwo.minimum = ⊥ from WithBot.add_bot s]; rfl) (by decide) _ _ _ _ _⟩
    synthesis := ⟨_, ⟨_, ⟨_, hspread, rfl, hstep, rfl, rfl, rfl⟩, rfl⟩,
      _, rfl, _, ⟨_, hspread, rfl, fun unit hunit => by
        obtain rfl := List.mem_singleton.mp hunit
        exact ⟨hstep, hstep, rfl, rfl, rfl⟩, rfl⟩, _, ⟨hstep, rfl, rfl⟩, rfl⟩ }
  exact ⟨hlayered, module_streaming hlayered [[1], [3, 5]] (by decide) (by decide)⟩

end JetsonVoice.Code2Wav
