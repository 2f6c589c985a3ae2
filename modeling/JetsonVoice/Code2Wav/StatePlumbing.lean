import JetsonVoice.Code2Wav.Attention
import JetsonVoice.Foundation.Plumbing

/-!
# State plumbing of the exported module

The exported module takes the states of all its layers as one list of tensors and
returns the next ones as another. `_build_state_specs` walks the module and lists
the states; `forward` walks it again and takes them at a cursor. A convolution
without a left pad and a transposed convolution without a right pad have no state,
and both walks leave them out, except for the first convolution in `forward`.

## Implementation notes

What a tensor holds at one time step is opaque, and layers that work on one time
step are functions of it. `forward` goes over its layers through an `Access`, which
is told the spec of the state it is about to take. By position the spec is not
read, as in the source; by name it says whose state a layer gets. A decoder block
of another class raises and is left out, as is a window of no frames.
-/

namespace JetsonVoice.Code2Wav

open Foundation

/-- `(1, channels, length)`, or `(1, channels, length, headDim)`. -/
structure Shape where
  channels : Nat
  length : Nat
  headDim : Option Nat := none
  deriving DecidableEq, Repr

structure Tensor (E : Type*) where
  channels : Nat
  headDim : Option Nat := none
  frames : List E
  deriving DecidableEq, Repr

/-- Whose state it is. -/
inductive Site
  | attnK (layer : Nat)
  | attnV (layer : Nat)
  | preConv
  | upsampleTconv (idx : Nat)
  | upsampleConvnextDw (idx : Nat)
  | decoderConv (idx : Nat)
  | decoderTconv (idx : Nat)
  | decoderUnitConv1 (idx unit : Nat)
  | decoderUnitConv2 (idx unit : Nat)
  deriving DecidableEq, Repr

def Site.name : Site → String
  | .attnK layer => s!"attn_{layer}_k"
  | .attnV layer => s!"attn_{layer}_v"
  | .preConv => "pre_conv_state"
  | .upsampleTconv idx => s!"upsample_{idx}_tconv_pending"
  | .upsampleConvnextDw idx => s!"upsample_{idx}_convnext_dw_state"
  | .decoderConv idx => s!"decoder_{idx}_conv_state"
  | .decoderTconv idx => s!"decoder_{idx}_tconv_pending"
  | .decoderUnitConv1 idx unit => s!"decoder_{idx}_unit_{unit}_conv1_state"
  | .decoderUnitConv2 idx unit => s!"decoder_{idx}_unit_{unit}_conv2_state"

structure StateSpec where
  site : Site
  shape : Shape
  deriving DecidableEq, Repr

variable {C E W : Type*}

namespace Tensor

def shape (x : Tensor E) : Shape := ⟨x.channels, x.frames.length, x.headDim⟩

def map (f : E → E) (x : Tensor E) : Tensor E := { x with frames := x.frames.map f }

/-- `torch.cat` along the time axis. -/
def cat (x y : Tensor E) : Option (Tensor E) :=
  if x.channels = y.channels ∧ x.headDim = y.headDim then
    some { x with frames := x.frames ++ y.frames }
  else none

/-- The sum of two tensors of one shape. -/
def add [Add E] (x y : Tensor E) : Option (Tensor E) :=
  if x.shape = y.shape then some { x with frames := List.zipWith (· + ·) x.frames y.frames }
  else none

end Tensor

/-- A convolution whose left padding the caller supplies. `span` is the number of
frames from its first tap to its last. -/
structure CausalConvNet (E : Type*) where
  inChannels : Nat
  outChannels : Nat
  padding : Nat
  span : Nat
  stride : Nat
  outputAt : List E → Nat → E

namespace CausalConvNet
variable (m : CausalConvNet E)

def conv (x : Tensor E) : Option (Tensor E) :=
  if x.channels = m.inChannels ∧ m.span ≤ x.frames.length then
    some {
      channels := m.outChannels
      frames := (List.range ((x.frames.length - m.span) / m.stride + 1)).map
        (m.outputAt x.frames) }
  else none

def causalConvStep (x state : Tensor E) : Option (Tensor E × Tensor E) :=
  if m.padding = 0 then (m.conv x).map fun y => (y, state)
  else (state.cat x).bind fun padded =>
    (m.conv padded).map fun y => (y, { padded with frames := padded.frames.rtake m.padding })

end CausalConvNet

/-- The samples kept open are added to the first ones, which must be as many. -/
def addPending [Add E] (raw pending : Tensor E) : Option (Tensor E) :=
  let pendingLen := pending.frames.length
  if pendingLen = 0 then some raw
  else if pending.channels = raw.channels ∧ pending.headDim = raw.headDim ∧
      pendingLen ≤ raw.frames.length then
    some { raw with
      frames := List.zipWith (· + ·) (raw.frames.take pendingLen) pending.frames ++
        raw.frames.drop pendingLen }
  else none

structure CausalTransConvNet (E : Type*) where
  inChannels : Nat
  outChannels : Nat
  kernelSize : Nat
  stride : Nat
  padding : Nat
  outputPadding : Nat
  dilation : Nat
  rightPad : Nat
  rawAt : List E → Nat → E
  withBias : E → E

namespace CausalTransConvNet
variable (m : CausalTransConvNet E)

def rawLength (frames : Nat) : Nat :=
  (frames - 1) * m.stride + m.dilation * (m.kernelSize - 1) + m.outputPadding + 1 - 2 * m.padding

/-- What the taps of the last input frame reach beyond its stride. -/
def overhang : Nat :=
  m.dilation * (m.kernelSize - 1) + m.outputPadding + 1 - 2 * m.padding - m.stride

/-- The transposed convolution, without a bias. -/
def convTranspose (x : Tensor E) : Option (Tensor E) :=
  if x.channels = m.inChannels ∧ x.frames ≠ [] ∧ 0 < m.rawLength x.frames.length then
    some {
      channels := m.outChannels
      frames := (List.range (m.rawLength x.frames.length)).map (m.rawAt x.frames) }
  else none

def transposedConvStep [Add E] (x pending : Tensor E) :
    Option (Tensor E × Tensor E) :=
  (m.convTranspose x).bind fun raw => (addPending raw pending).map fun raw =>
    let emitLen := x.frames.length * m.stride
    ({ raw with frames := (raw.frames.take emitLen).map m.withBias },
      { raw with frames := raw.frames.drop emitLen })

def transposedConvNoState (x : Tensor E) : Option (Tensor E) :=
  (m.convTranspose x).map fun raw =>
    { raw with frames := (raw.frames.take (x.frames.length * m.stride)).map m.withBias }

end CausalTransConvNet

/-- A layer of the transformer. `attend` is the attention output at an index, from
the position offset, the hidden frames and all keys and values; `finish` adds it to
the residual and applies the second half of the layer. -/
structure TransformerLayer (E : Type*) where
  inputLayernorm : E → E
  key : Nat → E → E
  value : Nat → E → E
  attend : Nat → List E → List E → List E → Nat → E
  finish : E → E → E

structure PreTransformer (E : Type*) where
  inputProj : E → E
  layers : List (TransformerLayer E)
  outputProj : E → E
  outChannels : Nat

def PreTransformer.output (m : PreTransformer E) (hidden : List E) : Tensor E :=
  { channels := m.outChannels, frames := hidden.map m.outputProj }

/-- `rest` is what follows the depthwise convolution before the residual sum. -/
structure ConvNeXtBlock (E : Type*) where
  dwconv : CausalConvNet E
  rest : E → E

structure DecoderUnit (E : Type*) where
  act1 : E → E
  conv1 : CausalConvNet E
  act2 : E → E
  conv2 : CausalConvNet E

inductive DecoderBlock (E : Type*)
  | causalConvNet (m : CausalConvNet E)
  | decoderDecoderBlock (act : E → E) (tconv : CausalTransConvNet E) (units : List (DecoderUnit E))
  | snakeBeta (act : E → E)

/-- The decoder model with the parts of its configuration that are read. -/
structure Code2WavModel (C E : Type*) where
  slidingWindow : Nat
  slidingWindow_pos : 0 < slidingWindow
  numKeyValueHeads : Nat
  headDim : Nat
  quantizerDecode : C → Option (Tensor E)
  preConv : CausalConvNet E
  preTransformer : PreTransformer E
  upsample : List (CausalTransConvNet E × ConvNeXtBlock E)
  decoder : List (DecoderBlock E)
  clamp : E → E

section Specs

def convSpec (site : Site) (m : CausalConvNet E) : StateSpec :=
  ⟨site, { channels := m.inChannels, length := m.padding }⟩

def tconvSpec (site : Site) (m : CausalTransConvNet E) : StateSpec :=
  ⟨site, { channels := m.outChannels, length := m.rightPad }⟩

def addConv (site : Site) (m : CausalConvNet E) : List StateSpec :=
  if m.padding = 0 then [] else [convSpec site m]

def addTconv (site : Site) (m : CausalTransConvNet E) : List StateSpec :=
  if m.rightPad = 0 then [] else [tconvSpec site m]

def unitSpecs (idx : Nat) (unit : DecoderUnit E × Nat) : List StateSpec :=
  addConv (.decoderUnitConv1 idx unit.2) unit.1.conv1 ++
    addConv (.decoderUnitConv2 idx unit.2) unit.1.conv2

def upsampleSpecs (blocks : (CausalTransConvNet E × ConvNeXtBlock E) × Nat) : List StateSpec :=
  addTconv (.upsampleTconv blocks.2) blocks.1.1 ++
    addConv (.upsampleConvnextDw blocks.2) blocks.1.2.dwconv

def decoderSpecs : DecoderBlock E × Nat → List StateSpec
  | (.causalConvNet m, idx) => addConv (.decoderConv idx) m
  | (.decoderDecoderBlock _ tconv units, idx) =>
      addTconv (.decoderTconv idx) tconv ++ (units.zipIdx 2).flatMap (unitSpecs idx)
  | (.snakeBeta _, _) => []

namespace Code2WavModel
variable (model : Code2WavModel C E)

def keep : Nat := model.slidingWindow - 1

def kvShape : Shape :=
  { channels := model.numKeyValueHeads, length := model.keep, headDim := some model.headDim }

def attnSpecs (layer : Nat) : List StateSpec :=
  [⟨.attnK layer, model.kvShape⟩, ⟨.attnV layer, model.kvShape⟩]

def attentionSpecs : List StateSpec :=
  (List.range model.preTransformer.layers.length).flatMap model.attnSpecs

def synthesisSpecs : List StateSpec :=
  model.upsample.zipIdx.flatMap upsampleSpecs ++ model.decoder.zipIdx.flatMap decoderSpecs

/-- `_build_state_specs`. -/
def stateSpecs : List StateSpec :=
  model.attentionSpecs ++ (addConv .preConv model.preConv ++ model.synthesisSpecs)

theorem attentionSpecs_eq : model.attentionSpecs =
    model.preTransformer.layers.zipIdx.flatMap fun layer => model.attnSpecs layer.2 := by
  calc
    model.attentionSpecs =
        (model.preTransformer.layers.zipIdx.map Prod.snd).flatMap model.attnSpecs := by
      rw [attentionSpecs, List.zipIdx_map_snd, List.range_eq_range']
    _ = _ := List.flatMap_map _ _ _

theorem length_attentionSpecs :
    model.attentionSpecs.length = 2 * model.preTransformer.layers.length := by
  simp [attentionSpecs, attnSpecs, List.length_flatMap, Nat.mul_comm]

end Code2WavModel

end Specs

section Forward
variable [Add E] (a : Access StateSpec (Tensor E) W)

/-- A convolution takes and leaves a state unless it has no padding. -/
def convState (site : Site) (m : CausalConvNet E) (hidden : Tensor E) (w : W) :
    Option (Tensor E × W) :=
  if m.padding = 0 then (m.conv hidden).map fun y => (y, w)
  else a.use (convSpec site m) (m.causalConvStep hidden) w

def tconvState (site : Site) (m : CausalTransConvNet E) (hidden : Tensor E) (w : W) :
    Option (Tensor E × W) :=
  if m.rightPad = 0 then (m.transposedConvNoState hidden).map fun y => (y, w)
  else a.use (tconvSpec site m) (m.transposedConvStep hidden) w

def convnextStep (idx : Nat) (block : ConvNeXtBlock E) (hidden : Tensor E) (w : W) :
    Option (Tensor E × W) :=
  (convState a (.upsampleConvnextDw idx) block.dwconv hidden w).bind fun p =>
    (hidden.add (p.1.map block.rest)).map fun y => (y, p.2)

def upsampleStep (blocks : (CausalTransConvNet E × ConvNeXtBlock E) × Nat) (hidden : Tensor E)
    (w : W) : Option (Tensor E × W) :=
  (tconvState a (.upsampleTconv blocks.2) blocks.1.1 hidden w).bind fun p =>
    convnextStep a blocks.2 blocks.1.2 p.1 p.2

def decoderUnitStep (idx : Nat) (unit : DecoderUnit E × Nat) (hidden : Tensor E) (w : W) :
    Option (Tensor E × W) :=
  (convState a (.decoderUnitConv1 idx unit.2) unit.1.conv1 (hidden.map unit.1.act1) w).bind
    fun p =>
      (convState a (.decoderUnitConv2 idx unit.2) unit.1.conv2 (p.1.map unit.1.act2) p.2).bind
        fun q => (q.1.add hidden).map fun y => (y, q.2)

def decoderStep : DecoderBlock E × Nat → Tensor E → W → Option (Tensor E × W)
  | (.causalConvNet m, idx), hidden, w => convState a (.decoderConv idx) m hidden w
  | (.decoderDecoderBlock act tconv units, idx), hidden, w =>
      (tconvState a (.decoderTconv idx) tconv (hidden.map act) w).bind fun p =>
        pass (decoderUnitStep a idx) (units.zipIdx 2) p.1 p.2
  | (.snakeBeta act, _), hidden, w => (some (hidden.map act)).map fun y => (y, w)

namespace Code2WavModel
variable (model : Code2WavModel C E)

/-- The slice `[:, :, -keep:]` is the whole tensor when `keep` is zero. -/
def lastKept (x : Tensor E) : Tensor E := { x with frames := lastItems model.keep x.frames }

def attentionStep (layer : TransformerLayer E) (hidden : List E) (kState vState : Tensor E)
    (positionOffset : Nat) : Option (List E × Tensor E × Tensor E) :=
  let entries (f : Nat → E → E) : Tensor E :=
    { channels := model.numKeyValueHeads
      headDim := some model.headDim
      frames := hidden.mapIdx fun i x => f (positionOffset + i) x }
  (kState.cat (entries layer.key)).bind fun allK =>
    (vState.cat (entries layer.value)).map fun allV =>
      (hidden.mapIdx fun i _ => layer.attend positionOffset hidden allK.frames allV.frames i,
        model.lastKept allK, model.lastKept allV)

def layerStep (positionOffset : Nat) (layer : TransformerLayer E × Nat) (hidden : List E) (w : W) :
    Option (List E × W) :=
  a.useTwo ⟨.attnK layer.2, model.kvShape⟩ ⟨.attnV layer.2, model.kvShape⟩ (fun kState vState =>
    (model.attentionStep layer.1 (hidden.map layer.1.inputLayernorm) kState vState
      positionOffset).map fun r => (List.zipWith layer.1.finish hidden r.1, r.2)) w

def preTransformerStep (positionOffset : Nat) (hidden : Tensor E) (w : W) :
    Option (Tensor E × W) :=
  (pass (model.layerStep a positionOffset) model.preTransformer.layers.zipIdx
    (hidden.frames.map model.preTransformer.inputProj) w).bind fun p =>
      (some (model.preTransformer.output p.1)).map fun y => (y, p.2)

/-- The two loops behind the transformer. -/
def synthesisStep (hidden : Tensor E) (w : W) : Option (Tensor E × W) :=
  (pass (upsampleStep a) model.upsample.zipIdx hidden w).bind fun p =>
    pass (decoderStep a) model.decoder.zipIdx p.1 p.2

/-- One chunk. The state of the first convolution lies behind the attention states,
which are consumed after it and whose outputs come before its own. -/
def forward (codes : C) (positionOffset : Nat) (states : List (Tensor E)) :
    Option (Tensor E × List (Tensor E)) := do
  let hidden ← model.quantizerDecode codes
  let cursor := 2 * model.preTransformer.layers.length
  let state ← states[cursor]?
  let (hidden, nextState) ← model.preConv.causalConvStep hidden state
  let (hidden, _, preOutputs) ←
    model.preTransformerStep (positional states) positionOffset hidden (0, [])
  let (hidden, _, outputs) ←
    model.synthesisStep (positional states) hidden (cursor + 1, preOutputs ++ [nextState])
  some (hidden.map model.clamp, outputs)

/-- One chunk with the states by name: every layer that has a state gets its own and
leaves its next one, in the order in which `forward` returns them. -/
def forwardNamed (codes : C) (positionOffset : Nat) (state : StateSpec → Tensor E) :
    Option (Tensor E × List (StateSpec × Tensor E)) := do
  let hidden ← model.quantizerDecode codes
  let (hidden, preNext) ← convState (named state) .preConv model.preConv hidden []
  let (hidden, attnNext) ← model.preTransformerStep (named state) positionOffset hidden []
  let (hidden, next) ← model.synthesisStep (named state) hidden (attnNext ++ preNext)
  some (hidden.map model.clamp, next)

end Code2WavModel

end Forward

/-- A state has the shape its spec lists. -/
def Fits (spec : StateSpec) (x : Tensor E) : Prop := x.shape = spec.shape

section Layers
variable {state : StateSpec → Tensor E} {states : List (Tensor E)} {pre : Prop}

theorem CausalConvNet.conv_frames {m : CausalConvNet E} {x y : Tensor E}
    (h : m.conv x = some y) : y.frames ≠ [] := by
  obtain ⟨-, heq⟩ := Option.ite_none_right_eq_some.mp h
  cases heq
  simp

/-- The next state of a convolution has the shape of the one it was given. -/
theorem CausalConvNet.step_fits {m : CausalConvNet E} {site : Site} {x y prior next : Tensor E}
    (hpad : m.padding ≠ 0) (hprior : Fits (convSpec site m) prior)
    (h : m.causalConvStep x prior = some (y, next)) :
    y.frames ≠ [] ∧ Fits (convSpec site m) next := by
  rw [causalConvStep, if_neg hpad] at h
  obtain ⟨padded, hcat, h⟩ := Option.bind_eq_some_iff.mp h
  obtain ⟨-, hpadded⟩ := Option.ite_none_right_eq_some.mp hcat
  cases hpadded
  obtain ⟨y, hy, heq⟩ := Option.map_eq_some_iff.mp h
  obtain ⟨rfl, rfl⟩ := Prod.mk.inj heq
  refine ⟨conv_frames hy, ?_⟩
  obtain ⟨hchannels, hlength, hhead⟩ := Shape.mk.inj hprior
  have hrtake : ((prior.frames ++ x.frames).rtake m.padding).length = m.padding := by
    have hlen : prior.frames.length = m.padding := hlength
    rw [List.rtake, List.length_drop, List.length_append]
    omega
  simp only [Fits, Tensor.shape, convSpec, hrtake, hchannels, hhead]

/-- An attention state of the listed shape is followed by one exactly when the
window keeps any frame. -/
theorem lastKept_fits (model : Code2WavModel C E) {spec : StateSpec} {prior entries all : Tensor E}
    (hspec : spec.shape = model.kvShape) (hprior : Fits spec prior)
    (hentries : entries.frames ≠ []) (hcat : prior.cat entries = some all) :
    Fits spec (model.lastKept all) ↔ model.keep ≠ 0 := by
  obtain ⟨-, heq⟩ := Option.ite_none_right_eq_some.mp hcat
  cases heq
  rw [Fits, hspec] at hprior ⊢
  obtain ⟨hchannels, hlength, hhead⟩ := Shape.mk.inj hprior
  have hpos := List.length_pos_iff.mpr hentries
  have hkept : (lastItems model.keep (prior.frames ++ entries.frames)).length = model.keep ↔
      model.keep ≠ 0 := by
    unfold lastItems
    split
    · next hzero =>
      rw [List.length_append]
      omega
    · next hkeep =>
      rw [List.rtake, List.length_drop, List.length_append]
      omega
  rw [← hkept]
  constructor
  · intro h
    exact (Shape.mk.inj h).2.1
  · intro h
    simp only [Tensor.shape, Code2WavModel.lastKept, h, hchannels, hhead]
    rfl

theorem addPending_shape [Add E] {raw pending sum : Tensor E}
    (h : addPending raw pending = some sum) : sum.shape = raw.shape := by
  simp only [addPending] at h
  split at h
  · cases h
    rfl
  · obtain ⟨⟨-, -, hle⟩, heq⟩ := Option.ite_none_right_eq_some.mp h
    cases heq
    have hlength : (List.zipWith (· + ·) (raw.frames.take pending.frames.length) pending.frames ++
        raw.frames.drop pending.frames.length).length = raw.frames.length := by
      rw [List.length_append, List.length_zipWith, List.length_take, List.length_drop]
      omega
    rw [Tensor.shape, hlength]
    rfl

/-- The samples a transposed convolution keeps open are those of its overhang. -/
theorem CausalTransConvNet.step_shape [Add E] {m : CausalTransConvNet E}
    {x y pending next : Tensor E} (h : m.transposedConvStep x pending = some (y, next)) :
    next.shape = { channels := m.outChannels, length := m.overhang } := by
  obtain ⟨raw, hraw, h⟩ := Option.bind_eq_some_iff.mp h
  obtain ⟨⟨-, hx, -⟩, heq⟩ := Option.ite_none_right_eq_some.mp hraw
  cases heq
  obtain ⟨sum, hsum, heq⟩ := Option.map_eq_some_iff.mp h
  obtain ⟨-, rfl⟩ := Prod.mk.inj heq
  obtain ⟨hchannels, hlength, hhead⟩ := Shape.mk.inj (addPending_shape hsum)
  simp only [List.length_map, List.length_range] at hlength
  have hpos : 0 < x.frames.length := List.length_pos_iff.mpr hx
  have hemit : x.frames.length * m.stride = (x.frames.length - 1) * m.stride + m.stride := by
    rw [← Nat.succ_mul, Nat.succ_eq_add_one, Nat.sub_add_cancel hpos]
  have hopen : m.rawLength x.frames.length - x.frames.length * m.stride = m.overhang := by
    rw [rawLength, overhang, hemit]
    omega
  rw [Tensor.shape, List.length_drop, hlength, hopen, hchannels, hhead]

theorem convState_plumbed (site : Site) (m : CausalConvNet E) (hidden : Tensor E) :
    Plumbed Fits state states (addConv site m) pre (fun y => y.frames ≠ []) True
      (convState (positional states) site m hidden) (convState (named state) site m hidden) := by
  unfold convState addConv
  by_cases hpad : m.padding = 0
  · simp only [if_pos hpad]
    exact Plumbed.stateless fun _ y hy => CausalConvNet.conv_frames hy
  · simp only [if_neg hpad]
    apply Plumbed.use
    intro _ y next hprior hstep
    obtain ⟨hy, hnext⟩ := CausalConvNet.step_fits hpad hprior hstep
    exact ⟨hy, iff_of_true hnext trivial⟩

/-- A transposed convolution leaves out its state, or keeps it as wide as listed. -/
def CausalTransConvNet.Aligned (m : CausalTransConvNet E) : Prop :=
  m.rightPad = 0 ∨ m.rightPad = m.overhang

theorem tconvState_plumbed [Add E] (site : Site) (m : CausalTransConvNet E) (hidden : Tensor E) :
    Plumbed Fits state states (addTconv site m) pre (fun _ => True) m.Aligned
      (tconvState (positional states) site m hidden)
      (tconvState (named state) site m hidden) := by
  unfold tconvState addTconv
  by_cases hright : m.rightPad = 0
  · have haligned : m.Aligned = True := eq_true (.inl hright)
    simp only [if_pos hright, haligned]
    exact Plumbed.stateless fun _ _ _ => trivial
  · simp only [if_neg hright]
    apply Plumbed.use
    intro _ y next _ hstep
    refine ⟨trivial, ?_⟩
    rw [Fits, CausalTransConvNet.step_shape hstep, CausalTransConvNet.Aligned,
      or_iff_right hright]
    constructor
    · intro h
      exact (Shape.mk.inj h).2.1.symm
    · intro h
      rw [tconvSpec, h]

section Transformer
variable (model : Code2WavModel C E)

theorem layerStep_plumbed (positionOffset : Nat) (layer : TransformerLayer E × Nat)
    (hidden : List E) :
    Plumbed Fits state states (model.attnSpecs layer.2) (hidden ≠ []) (· ≠ []) (model.keep ≠ 0)
      (model.layerStep (positional states) positionOffset layer hidden)
      (model.layerStep (named state) positionOffset layer hidden) := by
  unfold Code2WavModel.layerStep Code2WavModel.attnSpecs
  apply Plumbed.useTwo
  intro hne y k v hk hv hstep
  obtain ⟨⟨out, k', v'⟩, hattn, heq⟩ := Option.map_eq_some_iff.mp hstep
  cases heq
  obtain ⟨allK, hK, hattn⟩ := Option.bind_eq_some_iff.mp hattn
  obtain ⟨allV, hV, heq⟩ := Option.map_eq_some_iff.mp hattn
  cases heq
  have hentries (f : Nat → E → E) : ((hidden.map layer.1.inputLayernorm).mapIdx
      fun i x => f (positionOffset + i) x) ≠ [] := by simpa using hne
  refine ⟨by simpa using hne, ?_⟩
  rw [lastKept_fits model rfl hk (hentries _) hK, lastKept_fits model rfl hv (hentries _) hV,
    and_self_iff]

theorem preTransformerStep_plumbed (positionOffset : Nat) (hidden : Tensor E) :
    Plumbed Fits state states model.attentionSpecs
      (hidden.frames.map model.preTransformer.inputProj ≠ []) (fun _ => True)
      (∀ layer ∈ model.preTransformer.layers.zipIdx, model.keep ≠ 0)
      (model.preTransformerStep (positional states) positionOffset hidden)
      (model.preTransformerStep (named state) positionOffset hidden) :=
  model.attentionSpecs_eq ▸ (Plumbed.pass
    (fun layer _ x => layerStep_plumbed model positionOffset layer x)
    (hidden.frames.map model.preTransformer.inputProj)).andThen
    (fun out => some (model.preTransformer.output out)) fun _ _ _ _ => trivial

end Transformer

variable [Add E]

theorem convnextStep_plumbed (idx : Nat) (block : ConvNeXtBlock E) (hidden : Tensor E) :
    Plumbed Fits state states (addConv (.upsampleConvnextDw idx) block.dwconv) pre
      (fun _ => True) True (convnextStep (positional states) idx block hidden)
      (convnextStep (named state) idx block hidden) := by
  exact (convState_plumbed _ block.dwconv hidden).andThen
    (fun y => hidden.add (y.map block.rest)) fun _ _ _ _ => trivial

theorem upsampleStep_plumbed (blocks : (CausalTransConvNet E × ConvNeXtBlock E) × Nat)
    (hidden : Tensor E) :
    Plumbed Fits state states (upsampleSpecs blocks) pre (fun _ => True) (blocks.1.1.Aligned ∧ True)
      (upsampleStep (positional states) blocks hidden)
      (upsampleStep (named state) blocks hidden) :=
  (tconvState_plumbed _ _ hidden).bind fun y => convnextStep_plumbed _ _ y

theorem decoderUnitStep_plumbed (idx : Nat) (unit : DecoderUnit E × Nat) (hidden : Tensor E) :
    Plumbed Fits state states (unitSpecs idx unit) pre (fun _ => True) (True ∧ True)
      (decoderUnitStep (positional states) idx unit hidden)
      (decoderUnitStep (named state) idx unit hidden) :=
  (convState_plumbed _ _ _).bind fun y =>
    (convState_plumbed _ _ (y.map unit.1.act2)).andThen (fun z => z.add hidden)
      fun _ _ _ _ => trivial

/-- The transposed convolution of a decoder block. -/
def DecoderBlock.transposed : DecoderBlock E → List (CausalTransConvNet E)
  | .decoderDecoderBlock _ tconv _ => [tconv]
  | .causalConvNet _ | .snakeBeta _ => []

theorem decoderBlock_plumbed (act : E → E) (tconv : CausalTransConvNet E)
    (units : List (DecoderUnit E)) (idx : Nat) (hidden : Tensor E) :
    Plumbed Fits state states (decoderSpecs (.decoderDecoderBlock act tconv units, idx)) pre
      (fun _ => True) (tconv.Aligned ∧ ∀ unit ∈ units.zipIdx 2, True ∧ True)
      (decoderStep (positional states) (.decoderDecoderBlock act tconv units, idx) hidden)
      (decoderStep (named state) (.decoderDecoderBlock act tconv units, idx) hidden) :=
  (tconvState_plumbed _ _ _).bind fun y =>
    Plumbed.pass (fun unit _ x => decoderUnitStep_plumbed idx unit x) y

theorem decoderStep_plumbed (block : DecoderBlock E × Nat) (hidden : Tensor E) :
    Plumbed Fits state states (decoderSpecs block) pre (fun _ => True)
      (∀ t ∈ block.1.transposed, t.Aligned) (decoderStep (positional states) block hidden)
      (decoderStep (named state) block hidden) := by
  obtain ⟨block, idx⟩ := block
  cases block with
  | causalConvNet m =>
      apply Plumbed.congr ((convState_plumbed _ m hidden).weaken fun _ _ => trivial)
      simp [DecoderBlock.transposed]
  | decoderDecoderBlock act tconv units =>
      apply (decoderBlock_plumbed act tconv units idx hidden).congr
      simp [DecoderBlock.transposed]
  | snakeBeta act =>
      have hact : Plumbed Fits state states [] pre (fun _ => True) True
          (fun w => (some (hidden.map act)).map fun y => (y, w))
          fun next => (some (hidden.map act)).map fun y => (y, next) :=
        Plumbed.stateless fun _ _ _ => trivial
      apply hact.congr
      simp [DecoderBlock.transposed]

theorem synthesisStep_plumbed (model : Code2WavModel C E) (hidden : Tensor E) :
    Plumbed Fits state states model.synthesisSpecs True (fun _ => True)
      ((∀ blocks ∈ model.upsample.zipIdx, blocks.1.1.Aligned ∧ True) ∧
        ∀ block ∈ model.decoder.zipIdx, ∀ t ∈ block.1.transposed, t.Aligned)
      (model.synthesisStep (positional states) hidden)
      (model.synthesisStep (named state) hidden) :=
  (Plumbed.pass (fun blocks _ x => upsampleStep_plumbed blocks x) hidden).bind fun y =>
    Plumbed.pass (fun block _ x => decoderStep_plumbed block x) y

end Layers

section Exported

/-- All transposed convolutions of a model. -/
def Code2WavModel.transposed (model : Code2WavModel C E) : List (CausalTransConvNet E) :=
  model.upsample.map (fun blocks => blocks.1) ++ model.decoder.flatMap DecoderBlock.transposed

/-- The first convolution has a left pad, the window of an attention layer is more than
its own frame, and the open samples of a transposed convolution are those listed. -/
def Code2WavModel.Plumbable (model : Code2WavModel C E) : Prop :=
  model.preConv.padding ≠ 0 ∧ (model.preTransformer.layers ≠ [] → 2 ≤ model.slidingWindow) ∧
    ∀ t ∈ model.transposed, t.Aligned

theorem aligned_iff (model : Code2WavModel C E) :
    ((∀ blocks ∈ model.upsample.zipIdx, blocks.1.1.Aligned ∧ True) ∧
      ∀ block ∈ model.decoder.zipIdx, ∀ t ∈ block.1.transposed, t.Aligned) ↔
    ∀ t ∈ model.transposed, t.Aligned := by
  have hmem {A : Type _} (l : List A) (p : A → Prop) :
      (∀ x ∈ l.zipIdx, p x.1) ↔ ∀ a ∈ l, p a := by
    rw [← List.forall_mem_map, List.zipIdx_map_fst]
  rw [Code2WavModel.transposed, List.forall_mem_append, List.forall_mem_map,
    List.forall_mem_flatMap, hmem model.upsample fun blocks => blocks.1.Aligned ∧ True,
    hmem model.decoder fun block => ∀ t ∈ block.transposed, t.Aligned]
  simp only [and_true]

theorem keep_iff (model : Code2WavModel C E) :
    (∀ layer ∈ model.preTransformer.layers.zipIdx, model.keep ≠ 0) ↔
    (model.preTransformer.layers ≠ [] → 2 ≤ model.slidingWindow) := by
  have hkeep : model.keep ≠ 0 ↔ 2 ≤ model.slidingWindow := by
    rw [Code2WavModel.keep]
    omega
  rw [hkeep]
  cases model.preTransformer.layers with
  | nil => simp
  | cons layer layers =>
      constructor
      · exact fun h _ => h (layer, 0) (by simp)
      · exact fun h _ _ => h (List.cons_ne_nil _ _)

variable [Add E] (model : Code2WavModel C E)

/-- For one chunk `forward` agrees with `forwardNamed`: the states it is given in the
order of `_build_state_specs` are those the layers own, and so are the next states it
returns, with the shapes of the specs. -/
structure StatesMatch (codes : C) (positionOffset : Nat) (state : StateSpec → Tensor E)
    (waveform : Tensor E) (next : List (StateSpec × Tensor E)) : Prop where
  returned : model.forward codes positionOffset (model.stateSpecs.map state) =
    some (waveform, next.map Prod.snd)
  order : next.map Prod.fst = model.stateSpecs
  shapes : ∀ r ∈ next, Fits r.1 r.2

variable {model : Code2WavModel C E} {codes : C} {positionOffset : Nat}
  {state : StateSpec → Tensor E} {waveform : Tensor E} {next : List (StateSpec × Tensor E)}

/-- By name the next states come in the order of the specs, and they have the listed
shapes under the conditions on the window and the transposed convolutions. -/
theorem forwardNamed_records (hstate : ∀ spec ∈ model.stateSpecs, Fits spec (state spec))
    (h : model.forwardNamed codes positionOffset state = some (waveform, next)) :
    next.map Prod.fst = model.stateSpecs ∧
      ((∀ r ∈ next, Fits r.1 r.2) ↔
        (model.preTransformer.layers ≠ [] → 2 ≤ model.slidingWindow) ∧
          ∀ t ∈ model.transposed, t.Aligned) := by
  simp only [Code2WavModel.forwardNamed, Option.bind_eq_bind, Option.bind_eq_some_iff] at h
  obtain ⟨hidden, -, ⟨conv, preNext⟩, hpre, ⟨out, attnNext⟩, hattn, ⟨wave, all⟩, hsynth, heq⟩ := h
  cases heq
  obtain ⟨hattnFits, hstate⟩ := List.forall_mem_append.mp hstate
  obtain ⟨hpreFits, hsynthFits⟩ := List.forall_mem_append.mp hstate
  have convPart : Plumbed Fits state [] _ True _ _ _ _ :=
    convState_plumbed .preConv model.preConv hidden
  have attnPart : Plumbed Fits state [] _ _ _ _ _ _ :=
    preTransformerStep_plumbed model positionOffset conv
  have synthPart : Plumbed Fits state [] _ _ _ _ _ _ := synthesisStep_plumbed model out
  obtain ⟨hconv, preMade, rfl, hpreKeys, hpreSound⟩ := convPart.records trivial hpreFits hpre
  obtain ⟨-, attnMade, rfl, hattnKeys, hattnSound⟩ :=
    attnPart.records (by simpa using hconv) hattnFits hattn
  obtain ⟨-, synthMade, rfl, hsynthKeys, hsynthSound⟩ :=
    synthPart.records trivial hsynthFits hsynth
  rw [keep_iff] at hattnSound
  rw [aligned_iff] at hsynthSound
  simp only [List.map_append, List.forall_mem_append, hattnKeys, hpreKeys, hsynthKeys,
    hattnSound, hpreSound, hsynthSound, and_true, List.append_assoc, true_and,
    Code2WavModel.stateSpecs]

/-- With a left pad at the first convolution every state is taken where its spec is
listed. -/
theorem forward_eq_named (hpad : model.preConv.padding ≠ 0)
    (h : model.forwardNamed codes positionOffset state = some (waveform, next)) :
    model.forward codes positionOffset (model.stateSpecs.map state) =
      some (waveform, next.map Prod.snd) := by
  simp only [Code2WavModel.forwardNamed, Option.bind_eq_bind, Option.bind_eq_some_iff] at h
  obtain ⟨hidden, hdec, ⟨_, preNext⟩, hpre, ⟨out, attnNext⟩, hattn, ⟨wave, all⟩, hsynth, heq⟩ := h
  cases heq
  rw [convState, if_neg hpad] at hpre
  obtain ⟨⟨conv, nextState⟩, hconv, heq⟩ := Option.map_eq_some_iff.mp hpre
  obtain ⟨rfl, rfl⟩ := Prod.mk.inj heq
  generalize hdef : model.stateSpecs.map state = states
  have hstates : states = model.attentionSpecs.map state ++
      state (convSpec .preConv model.preConv) :: model.synthesisSpecs.map state := by
    rw [← hdef, Code2WavModel.stateSpecs, addConv, if_neg hpad, List.map_append,
      List.singleton_append, List.map_cons]
  have hlen : (model.attentionSpecs.map state).length =
      2 * model.preTransformer.layers.length := by
    rw [List.length_map, model.length_attentionSpecs]
  have hat : states[2 * model.preTransformer.layers.length]? =
      some (state (convSpec .preConv model.preConv)) := by
    rw [hstates, ← hlen, List.getElem?_append_right (Nat.le_refl _), Nat.sub_self]
    rfl
  have hsynthAt : states.drop (2 * model.preTransformer.layers.length + 1) =
      model.synthesisSpecs.map state ++ [] := by
    rw [hstates, ← hlen, ← List.drop_drop, List.drop_left, List.append_nil]
    rfl
  have attnPart : Plumbed Fits state states _ _ _ _ _ _ :=
    preTransformerStep_plumbed model positionOffset conv
  have synthPart : Plumbed Fits state states _ _ _ _ _ _ := synthesisStep_plumbed model out
  have hconvAt : model.preConv.causalConvStep hidden (state (convSpec .preConv model.preConv)) =
      some (conv, nextState) := hconv
  have hattnPos : model.preTransformerStep (positional states) positionOffset conv (0, []) =
      some (out, 0 + model.attentionSpecs.length, attnNext.map Prod.snd) :=
    attnPart.follows (List.drop_zero.trans hstates) hattn
  have hsynthPos := synthPart.follows hsynthAt hsynth
  rw [List.map_append] at hsynthPos
  simp only [Code2WavModel.forward, hdec, Option.bind_eq_bind, Option.bind_some, hat, hconvAt,
    hattnPos]
  exact Option.bind_eq_some_iff.mpr ⟨_, hsynthPos, rfl⟩

/-- Without a left pad there `forward` returns one state more than the specs list. -/
theorem length_forward_of_no_padding (hpad : model.preConv.padding = 0)
    {states outputs : List (Tensor E)}
    (h : model.forward codes positionOffset states = some (waveform, outputs)) :
    outputs.length = model.stateSpecs.length + 1 := by
  simp only [Code2WavModel.forward, Option.bind_eq_bind, Option.bind_eq_some_iff] at h
  obtain ⟨hidden, -, prior, -, ⟨conv, nextState⟩, -, ⟨out, _, preOutputs⟩, hattn, ⟨wave, _, all⟩,
    hsynth, heq⟩ := h
  cases heq
  have attnPart : Plumbed Fits (fun _ => prior) states _ _ _ _ _ _ :=
    preTransformerStep_plumbed model positionOffset conv
  have synthPart : Plumbed Fits (fun _ => prior) states _ _ _ _ _ _ :=
    synthesisStep_plumbed model out
  calc
    all.length = (preOutputs ++ [nextState]).length + model.synthesisSpecs.length :=
      synthPart.counts hsynth
    _ = model.attentionSpecs.length + 1 + model.synthesisSpecs.length := by
      rw [List.length_append, attnPart.counts hattn, List.length_nil, List.length_singleton,
        Nat.zero_add]
    _ = model.stateSpecs.length + 1 := by
      rw [Code2WavModel.stateSpecs, addConv, if_pos hpad, List.nil_append, List.length_append]
      omega

/-- For a chunk on which every layer accepts its own state, of the listed shape, the
exported module takes and returns the states as its specs list them exactly when its
first convolution has a left pad, its attention window is more than one frame wide, and
its transposed convolutions keep open what is listed. -/
theorem state_plumbing_iff (hstate : ∀ spec ∈ model.stateSpecs, Fits spec (state spec))
    (h : model.forwardNamed codes positionOffset state = some (waveform, next)) :
    StatesMatch model codes positionOffset state waveform next ↔ model.Plumbable := by
  obtain ⟨horder, hshapes⟩ := forwardNamed_records hstate h
  constructor
  · intro hmatch
    refine ⟨fun hpad => ?_, hshapes.mp hmatch.shapes⟩
    have hlong := length_forward_of_no_padding hpad hmatch.returned
    have hlisted := congrArg List.length horder
    rw [List.length_map] at hlong hlisted
    omega
  · rintro ⟨hpad, hsound⟩
    exact ⟨forward_eq_named hpad h, horder, hshapes.mpr hsound⟩

end Exported

section Distinct

/-- States of different sites stay distinct when their lists are joined. -/
theorem nodup_append_of_site {l l' : List StateSpec} {p : Site → Bool} (hl : l.Nodup)
    (hl' : l'.Nodup) (h : ∀ spec ∈ l, p spec.site = true) (h' : ∀ spec ∈ l', p spec.site = false) :
    (l ++ l').Nodup := by
  apply hl.append hl'
  intro spec hs hs'
  exact Bool.noConfusion ((h spec hs).symm.trans (h' spec hs'))

/-- The index of the block a state belongs to. -/
def Site.idx : Site → Nat
  | .attnK idx | .attnV idx | .upsampleTconv idx | .upsampleConvnextDw idx | .decoderConv idx
  | .decoderTconv idx | .decoderUnitConv1 idx _ | .decoderUnitConv2 idx _ => idx
  | .preConv => 0

/-- The index of a residual unit in its decoder block. -/
def Site.unit : Site → Nat
  | .decoderUnitConv1 _ unit | .decoderUnitConv2 _ unit => unit
  | _ => 0

/-- The part of the module a state belongs to, in the order of the specs. -/
def Site.part : Site → Nat
  | .attnK _ | .attnV _ => 0
  | .preConv => 1
  | .upsampleTconv _ | .upsampleConvnextDw _ => 2
  | .decoderConv _ | .decoderTconv _ | .decoderUnitConv1 _ _ | .decoderUnitConv2 _ _ => 3

/-- Blocks with states of their own, listed by index, list every state once. -/
theorem nodup_flatMap_zipIdx {A : Type*} {f : A × Nat → List StateSpec} {p : Site → Nat}
    (hnodup : ∀ a, (f a).Nodup) (hp : ∀ a, ∀ spec ∈ f a, p spec.site = a.2)
    (blocks : List A) (start : Nat) : ((blocks.zipIdx start).flatMap f).Nodup := by
  rw [List.nodup_flatMap]
  refine ⟨fun a _ => hnodup a, ?_⟩
  have hindices : ((blocks.zipIdx start).map Prod.snd).Nodup := by
    rw [List.zipIdx_map_snd]
    exact List.nodup_range'
  apply (List.pairwise_map.mp hindices).imp
  intro a b hne spec ha hb
  exact hne ((hp a spec ha).symm.trans (hp b spec hb))

theorem mem_addConv {site : Site} {m : CausalConvNet E} {spec : StateSpec}
    (h : spec ∈ addConv site m) : spec.site = site := by
  unfold addConv at h
  split at h
  · cases h
  · rw [List.mem_singleton.mp h]
    rfl

theorem mem_addTconv {site : Site} {m : CausalTransConvNet E} {spec : StateSpec}
    (h : spec ∈ addTconv site m) : spec.site = site := by
  unfold addTconv at h
  split at h
  · cases h
  · rw [List.mem_singleton.mp h]
    rfl

theorem nodup_addConv (site : Site) (m : CausalConvNet E) : (addConv site m).Nodup := by
  unfold addConv
  split <;> simp

theorem nodup_addTconv (site : Site) (m : CausalTransConvNet E) : (addTconv site m).Nodup := by
  unfold addTconv
  split <;> simp

theorem unitSpecs_distinct (idx : Nat) (unit : DecoderUnit E × Nat) :
    (unitSpecs idx unit).Nodup ∧ ∀ spec ∈ unitSpecs idx unit,
      spec.site = .decoderUnitConv1 idx unit.2 ∨ spec.site = .decoderUnitConv2 idx unit.2 := by
  constructor
  · apply nodup_append_of_site (p := fun site => site = .decoderUnitConv1 idx unit.2)
      (nodup_addConv _ _) (nodup_addConv _ _)
    · intro spec h
      simp [mem_addConv h]
    · intro spec h
      simp [mem_addConv h]
  · intro spec h
    exact (List.mem_append.mp h).imp mem_addConv mem_addConv

theorem upsampleSpecs_distinct (blocks : (CausalTransConvNet E × ConvNeXtBlock E) × Nat) :
    (upsampleSpecs blocks).Nodup ∧ ∀ spec ∈ upsampleSpecs blocks,
      spec.site.part = 2 ∧ spec.site.idx = blocks.2 := by
  constructor
  · apply nodup_append_of_site (p := fun site => site = .upsampleTconv blocks.2)
      (nodup_addTconv _ _) (nodup_addConv _ _)
    · intro spec h
      simp [mem_addTconv h]
    · intro spec h
      simp [mem_addConv h]
  · intro spec h
    obtain h | h := List.mem_append.mp h
    · rw [mem_addTconv h]
      exact ⟨rfl, rfl⟩
    · rw [mem_addConv h]
      exact ⟨rfl, rfl⟩

theorem decoderSpecs_distinct (block : DecoderBlock E × Nat) :
    (decoderSpecs block).Nodup ∧ ∀ spec ∈ decoderSpecs block,
      spec.site.part = 3 ∧ spec.site.idx = block.2 := by
  obtain ⟨block, idx⟩ := block
  cases block with
  | causalConvNet m =>
      refine ⟨nodup_addConv _ _, fun spec h => ?_⟩
      rw [mem_addConv h]
      exact ⟨rfl, rfl⟩
  | decoderDecoderBlock act tconv units =>
      have hunit (spec : StateSpec) (h : spec ∈ (units.zipIdx 2).flatMap (unitSpecs idx)) :
          ∃ unit, spec.site = .decoderUnitConv1 idx unit ∨
            spec.site = .decoderUnitConv2 idx unit := by
        obtain ⟨unit, -, h⟩ := List.mem_flatMap.mp h
        exact ⟨unit.2, (unitSpecs_distinct idx unit).2 spec h⟩
      constructor
      · apply nodup_append_of_site (p := fun site => site = .decoderTconv idx)
          (nodup_addTconv _ _)
        · apply nodup_flatMap_zipIdx (p := Site.unit)
            (fun unit => (unitSpecs_distinct idx unit).1)
          intro unit spec h
          obtain hs | hs := (unitSpecs_distinct idx unit).2 spec h <;> rw [hs] <;> rfl
        · intro spec h
          simp [mem_addTconv h]
        · intro spec h
          obtain ⟨unit, hs | hs⟩ := hunit spec h <;> simp [hs]
      · intro spec h
        obtain h | h := List.mem_append.mp h
        · rw [mem_addTconv h]
          exact ⟨rfl, rfl⟩
        · obtain ⟨unit, hs | hs⟩ := hunit spec h <;> rw [hs] <;> exact ⟨rfl, rfl⟩
  | snakeBeta act => exact ⟨List.nodup_nil, fun spec h => nomatch h⟩

theorem attnSpecs_distinct (model : Code2WavModel C E) (layer : Nat) :
    (model.attnSpecs layer).Nodup ∧ ∀ spec ∈ model.attnSpecs layer,
      spec.site.part = 0 ∧ spec.site.idx = layer := by
  simp [Code2WavModel.attnSpecs, Site.part, Site.idx]

/-- The blocks of one part of the module list every state once. -/
theorem part_distinct {A : Type*} {f : A × Nat → List StateSpec} {part : Nat}
    (h : ∀ a, (f a).Nodup ∧ ∀ spec ∈ f a, spec.site.part = part ∧ spec.site.idx = a.2)
    (blocks : List A) : (blocks.zipIdx.flatMap f).Nodup ∧
      ∀ spec ∈ blocks.zipIdx.flatMap f, spec.site.part = part := by
  constructor
  · exact nodup_flatMap_zipIdx (p := Site.idx) (fun a => (h a).1)
      (fun a spec hs => ((h a).2 spec hs).2) blocks 0
  · intro spec hs
    obtain ⟨a, -, hs⟩ := List.mem_flatMap.mp hs
    exact ((h a).2 spec hs).1

/-- No state is listed twice. -/
theorem stateSpecs_nodup (model : Code2WavModel C E) : model.stateSpecs.Nodup := by
  obtain ⟨hattn, inAttn⟩ := part_distinct (fun layer => attnSpecs_distinct model layer.2)
    model.preTransformer.layers
  obtain ⟨hup, inUp⟩ := part_distinct upsampleSpecs_distinct model.upsample
  obtain ⟨hdec, inDec⟩ := part_distinct decoderSpecs_distinct model.decoder
  rw [← model.attentionSpecs_eq] at hattn inAttn
  have hsynth : model.synthesisSpecs.Nodup := by
    apply nodup_append_of_site (p := fun site => site.part = 2) hup hdec
    · exact fun spec h => decide_eq_true (inUp spec h)
    · exact fun spec h => by simp [inDec spec h]
  have inSynth (spec) (h : spec ∈ model.synthesisSpecs) : 2 ≤ spec.site.part := by
    obtain h | h := List.mem_append.mp h
    · rw [inUp spec h]
    · rw [inDec spec h]
      decide
  have hrest : (addConv .preConv model.preConv ++ model.synthesisSpecs).Nodup := by
    apply nodup_append_of_site (p := fun site => site.part = 1) (nodup_addConv _ _) hsynth
    · exact fun spec h => by simp [mem_addConv h, Site.part]
    · intro spec h
      have := inSynth spec h
      exact decide_eq_false (by omega)
  apply nodup_append_of_site (p := fun site => site.part = 0) hattn hrest
  · exact fun spec h => decide_eq_true (inAttn spec h)
  · intro spec h
    obtain h | h := List.mem_append.mp h
    · simp [mem_addConv h, Site.part]
    · have := inSynth spec h
      exact decide_eq_false (by omega)

/-- Tensors of the listed shapes are the states of some naming. -/
theorem exists_state (model : Code2WavModel C E) {states : List (Tensor E)}
    (h : List.Forall₂ Fits model.stateSpecs states) :
    ∃ state : StateSpec → Tensor E, model.stateSpecs.map state = states ∧
      ∀ spec ∈ model.stateSpecs, Fits spec (state spec) := by
  have hnonempty : Nonempty (Tensor E) := ⟨{ channels := 0, frames := [] }⟩
  obtain ⟨state, rfl⟩ := exists_map_of_nodup (stateSpecs_nodup model) h.length_eq
  rw [List.forall₂_map_right_iff] at h
  exact ⟨state, rfl, List.forall₂_same.mp h⟩

end Distinct

section Runs

/-- A convolution of kernel one, which pads nothing. -/
def pointwise : CausalConvNet Int where
  inChannels := 1
  outChannels := 1
  padding := 0
  span := 1
  stride := 1
  outputAt x i := x.getD i 0

/-- A convolution that subtracts each frame from the next. -/
def difference : CausalConvNet Int where
  inChannels := 1
  outChannels := 1
  padding := 1
  span := 2
  stride := 1
  outputAt x i := x.getD (i + 1) 0 - x.getD i 0

/-- Two output frames for each input frame, and one more. -/
def doubling : CausalTransConvNet Int where
  inChannels := 1
  outChannels := 1
  kernelSize := 3
  stride := 2
  padding := 0
  outputPadding := 0
  dilation := 1
  rightPad := 1
  rawAt x i := x.getD (i / 2) 0
  withBias := id

/-- A model with one layer, one upsampling stage and one decoder convolution. -/
def smallModel (preConv : CausalConvNet Int) : Code2WavModel (List Int) Int where
  slidingWindow := 2
  slidingWindow_pos := Nat.two_pos
  numKeyValueHeads := 1
  headDim := 1
  quantizerDecode codes := some { channels := 1, frames := codes }
  preConv := preConv
  preTransformer := {
    inputProj := id
    layers := [{
      inputLayernorm := id
      key := fun _ x => x
      value := fun _ x => x
      attend := fun _ _ keys _ i => keys.getD i 0
      finish := fun x y => x + y }]
    outputProj := id
    outChannels := 1 }
  upsample := [(doubling, { dwconv := pointwise, rest := id })]
  decoder := [.causalConvNet difference, .snakeBeta id]
  clamp := id

/-- The states a stream starts from. -/
def initialState (spec : StateSpec) : Tensor Int where
  channels := spec.shape.channels
  headDim := spec.shape.headDim
  frames := List.replicate spec.shape.length 0

theorem initialState_fits (spec : StateSpec) : Fits spec (initialState spec) := by
  simp [Fits, initialState, Tensor.shape]

theorem state_plumbing_iff_small_model :
    ∃ waveform next, (smallModel difference).forwardNamed [3, 5] 0 initialState =
        some (waveform, next) ∧
      StatesMatch (smallModel difference) [3, 5] 0 initialState waveform next := by
  refine ⟨_, _, rfl, ?_⟩
  have hplumbable : (smallModel difference).Plumbable := by
    refine ⟨by decide, fun _ => Nat.le_refl 2, ?_⟩
    intro t ht
    obtain rfl : t = doubling := by
      simpa [Code2WavModel.transposed, smallModel, DecoderBlock.transposed] using ht
    exact .inr rfl
  exact (state_plumbing_iff (fun spec _ => initialState_fits spec) rfl).mpr hplumbable

/-- Without a left pad at the first convolution `forward` takes one state more than
there are, though every layer accepts its own. -/
theorem unpadded_first_conv_takes_too_many :
    (∃ waveform next, (smallModel pointwise).forwardNamed [3, 5] 0 initialState =
      some (waveform, next) ∧
      ¬ StatesMatch (smallModel pointwise) [3, 5] 0 initialState waveform next) ∧
    (smallModel pointwise).forward [3, 5] 0 ((smallModel pointwise).stateSpecs.map initialState) =
      none := by
  refine ⟨⟨_, _, rfl, fun hmatch => ?_⟩, rfl⟩
  exact absurd hmatch.returned (by decide)

end Runs

end JetsonVoice.Code2Wav
