import JetsonVoice.Foundation.Collections
import JetsonVoice.Foundation.TransitionSystem
import Mathlib.Data.List.Induction

/-!
# The stateful Code2Wav runner

The runner feeds chunks of codes to an engine with state. Every state has a
buffer the engine reads and one it writes, and the two are swapped after a chunk
that has gone through.

## Implementation notes

What the engine and the device do in a call comes with the call: which of the
copies, shapes and runs succeed, and what a failed run leaves in the buffers it
writes. Buffers are numbered cells of a memory. Binding the address of a tensor
that the engine has does not fail.
-/

namespace JetsonVoice.Code2Wav

open Foundation

inductive TensorIOMode
  | input
  | output
  deriving DecidableEq

inductive DataType
  | int64
  | int32
  | bool
  | float
  deriving DecidableEq

/-- What a run of the engine reads besides its state. -/
structure ChunkInputs where
  codes : List (List Int)
  positionOffset : Option Int
  isFinal : Option Bool

structure StatefulCode2WavConfig where
  numQuantizers : Nat
  upsampleRate : Int
  sampleRate : Int
  maxWaveformLen : Int

/-- An engine over values `V` of a state tensor. `output` gives the value of a
state output from the values of the state inputs. -/
structure Engine (V : Type*) where
  ioTensors : List (String × TensorIOMode)
  dataType : String → DataType
  castInt32 : Int → Option Int
  zero : V
  output : ChunkInputs → List (String × V) → String → V
  names_nodup : (ioTensors.map Prod.fst).Nodup

structure StateBinding where
  inputName : String
  outputName : String
  read : Nat
  write : Nat

structure StatefulCode2WavRunner (V : Type*) where
  positionOffset : Int
  states : List StateBinding
  address : String → Nat
  memory : Nat → V
  inputs : ChunkInputs

/-- How the calls out of `generateChunk` end; `left` is what a failed run leaves
in a state output. -/
structure EngineOutcome (V : Type*) where
  reshaped : Bool
  codesCopied : Bool
  offsetCopied : Bool
  finalCopied : Bool
  shapesSet : Bool
  enqueued : Bool
  left : String → V
  waveformDims : List Int
  synchronized : Bool

/-- How a call fails: it returns false or throws. -/
inductive Stop
  | refused
  | raised
  deriving DecidableEq

inductive ChunkResult
  | audio (waveformLen sampleRate : Int)
  | stopped (stop : Stop)
  deriving DecidableEq

def endsWith (value suffix : String) : Bool := suffix.toList.isSuffixOf value.toList

def replaceSuffix (value oldSuffix newSuffix : String) : String :=
  String.ofList (value.toList.take (value.length - oldSuffix.length)) ++ newSuffix

variable {V : Type*}

namespace Engine
variable (engine : Engine V)

def outputNames : List String :=
  (engine.ioTensors.filter fun tensor => tensor.2 = .output).map Prod.fst

/-- The state inputs that have a matching output. -/
def stateNames : List String :=
  (engine.ioTensors.filter fun tensor =>
    tensor.2 = .input && endsWith tensor.1 "_in" &&
      engine.outputNames.contains (replaceSuffix tensor.1 "_in" "_out")).map Prod.fst

def hasInput (name : String) : Bool := engine.ioTensors.contains (name, .input)

/-- The position offset as the engine wants it. -/
def positionInput (positionOffset : Int) : Except Stop (Option Int) :=
  if engine.hasInput "position_offset" then
    match engine.dataType "position_offset" with
    | .int64 => .ok (some positionOffset)
    | .int32 =>
        match engine.castInt32 positionOffset with
        | some value => .ok (some value)
        | none => .error .raised
    | _ => .error .refused
  else .ok none

def finalInput (isFinal : Bool) : Except Stop (Option Bool) :=
  if engine.hasInput "is_final" then
    match engine.dataType "is_final" with
    | .int32 => .ok (some isFinal)
    | .bool => .ok (some isFinal)
    | _ => .error .refused
  else .ok none

/-- What the engine reads for a chunk at an offset, where its inputs can be given. -/
def inputsFor (positionOffset : Int) (codes : List (List Int)) (isFinal : Bool) : ChunkInputs where
  codes := codes
  positionOffset := (engine.positionInput positionOffset).toOption.join
  isFinal := (engine.finalInput isFinal).toOption.join

/-- The state function of the engine: what it makes of the state in one run. -/
def next (inputs : ChunkInputs) (states : List (String × V)) : List (String × V) :=
  states.map fun state =>
    (state.1, engine.output inputs states (replaceSuffix state.1 "_in" "_out"))

end Engine

namespace StatefulCode2WavRunner

/-- Buffers for every state, two each, bound to the tensors of the state. -/
def allocateBuffers (engine : Engine V) (memory : Nat → V) : StatefulCode2WavRunner V :=
  let states := engine.stateNames.zipIdx.map fun (inputName, i) =>
    StateBinding.mk inputName (replaceSuffix inputName "_in" "_out") (2 * i) (2 * i + 1)
  { positionOffset := 0
    states := states
    address := assign (fun _ => 0) (states.flatMap fun state =>
      [(state.inputName, state.read), (state.outputName, state.write)])
    memory := memory
    inputs := ⟨[], none, none⟩ }

def reset (engine : Engine V) (r : StatefulCode2WavRunner V) : StatefulCode2WavRunner V :=
  { r with
    positionOffset := 0
    memory := assign r.memory (r.states.flatMap fun state =>
      [(state.read, engine.zero), (state.write, engine.zero)]) }

/-- The runner as constructed, whatever its fresh memory holds. -/
def create (engine : Engine V) (memory : Nat → V) : StatefulCode2WavRunner V :=
  reset engine (allocateBuffers engine memory)

def prepareCodes (cfg : StatefulCode2WavConfig) (codes : List (List Int))
    (outcome : EngineOutcome V) (r : StatefulCode2WavRunner V) :
    StatefulCode2WavRunner V × Option Stop :=
  match codes with
  | [] => (r, some .refused)
  | first :: layers =>
      if first.isEmpty then (r, some .refused)
      else if codes.length ≠ cfg.numQuantizers then (r, some .refused)
      else if layers.any fun layer => layer.length ≠ first.length then (r, some .refused)
      else if !outcome.reshaped then (r, some .refused)
      else if !outcome.codesCopied then (r, some .raised)
      else ({ r with inputs := { r.inputs with codes := codes } }, none)

def prepareScalarInputs (engine : Engine V) (isFinal : Bool) (outcome : EngineOutcome V)
    (r : StatefulCode2WavRunner V) : StatefulCode2WavRunner V × Option Stop :=
  match engine.positionInput r.positionOffset with
  | .error stop => (r, some stop)
  | .ok position =>
      if position.isSome && !outcome.offsetCopied then (r, some .raised)
      else
        let r := { r with inputs := { r.inputs with positionOffset := position } }
        match engine.finalInput isFinal with
        | .error stop => (r, some stop)
        | .ok final =>
            if final.isSome && !outcome.finalCopied then (r, some .raised)
            else ({ r with inputs := { r.inputs with isFinal := final } }, none)

/-- The states as the engine reads them, at the addresses bound to its inputs. -/
def bound (r : StatefulCode2WavRunner V) : List (String × V) :=
  r.states.map fun state => (state.inputName, r.memory (r.address state.inputName))

def infer (engine : Engine V) (outcome : EngineOutcome V) (r : StatefulCode2WavRunner V) :
    StatefulCode2WavRunner V × Option Stop :=
  if !outcome.shapesSet then (r, some .refused)
  else
    -- A run that fails on the device is noticed when the waveform is copied.
    let outputs :=
      if outcome.enqueued && outcome.synchronized then engine.output r.inputs r.bound
      else outcome.left
    let memory := assign r.memory (r.states.map fun state =>
      (r.address state.outputName, outputs state.outputName))
    ({ r with memory := memory }, if outcome.enqueued then none else some .refused)

/-- Swap the buffers of every state and bind them again. -/
def swapStateBuffers (r : StatefulCode2WavRunner V) : StatefulCode2WavRunner V :=
  let states := r.states.map fun state => { state with read := state.write, write := state.read }
  { r with
    states := states
    address := assign r.address (states.flatMap fun state =>
      [(state.inputName, state.read), (state.outputName, state.write)]) }

/-- The frames of a chunk, which every layer of codes has. -/
def frames (codes : List (List Int)) : Int := (codes.headD []).length

def waveformLen (cfg : StatefulCode2WavConfig) (codes : List (List Int))
    (waveformDims : List Int) : Int :=
  match waveformDims with
  | _ :: _ :: samples :: _ => if samples > 0 then samples else frames codes * cfg.upsampleRate
  | _ => frames codes * cfg.upsampleRate

def generateChunk (cfg : StatefulCode2WavConfig) (engine : Engine V) (codes : List (List Int))
    (isFinal : Bool) (outcome : EngineOutcome V) (r : StatefulCode2WavRunner V) :
    StatefulCode2WavRunner V × ChunkResult :=
  match prepareCodes cfg codes outcome r with
  | (r, some stop) => (r, .stopped stop)
  | (r, none) =>
  match prepareScalarInputs engine isFinal outcome r with
  | (r, some stop) => (r, .stopped stop)
  | (r, none) =>
  match infer engine outcome r with
  | (r, some stop) => (r, .stopped stop)
  | (r, none) =>
      let waveformLen := waveformLen cfg codes outcome.waveformDims
      if waveformLen < 0 || waveformLen > cfg.maxWaveformLen then (r, .stopped .refused)
      else if !outcome.synchronized then (r, .stopped .raised)
      else
        let r := { r with positionOffset := r.positionOffset + frames codes }
        (swapStateBuffers r, .audio waveformLen cfg.sampleRate)

/-- The states of the buffers that are read next. -/
def readable (r : StatefulCode2WavRunner V) : List (String × V) :=
  r.states.map fun state => (state.inputName, r.memory state.read)

variable {cfg : StatefulCode2WavConfig} {engine : Engine V} {codes : List (List Int)}
  {isFinal : Bool} {outcome : EngineOutcome V} {r r' : StatefulCode2WavRunner V}

theorem prepareCodes_cases :
    (∃ stop, prepareCodes cfg codes outcome r = (r, some stop)) ∨
      prepareCodes cfg codes outcome r =
        ({ r with inputs := { r.inputs with codes := codes } }, none) := by
  unfold prepareCodes
  split
  · exact .inl ⟨_, rfl⟩
  · split_ifs
    all_goals first
      | exact .inl ⟨_, rfl⟩
      | exact .inr rfl

theorem prepareScalarInputs_cases :
    (∃ inputs stop, prepareScalarInputs engine isFinal outcome r =
      ({ r with inputs := inputs }, some stop)) ∨
    ∃ position final, engine.positionInput r.positionOffset = .ok position ∧
      engine.finalInput isFinal = .ok final ∧ prepareScalarInputs engine isFinal outcome r =
        ({ r with inputs := ⟨r.inputs.codes, position, final⟩ }, none) := by
  unfold prepareScalarInputs
  split
  · exact .inl ⟨_, _, rfl⟩
  · rename_i position hposition
    split_ifs
    · exact .inl ⟨_, _, rfl⟩
    · dsimp only
      split
      · exact .inl ⟨_, _, rfl⟩
      · rename_i final hfinal
        split_ifs
        · exact .inl ⟨_, _, rfl⟩
        · exact .inr ⟨position, final, hposition, hfinal, rfl⟩

/-- Nothing but the device inputs and the buffers that are written has changed. -/
structure Keeps (r r' : StatefulCode2WavRunner V) : Prop where
  positionOffset : r'.positionOffset = r.positionOffset
  states : r'.states = r.states
  address : r'.address = r.address
  memory : ∀ buffer, buffer ∉ (r.states.map fun state => r.address state.outputName) →
    r'.memory buffer = r.memory buffer

theorem Keeps.of_inputs {inputs : ChunkInputs} : Keeps r { r with inputs := inputs } :=
  ⟨rfl, rfl, rfl, fun _ _ => rfl⟩

/-- Writing at the addresses of the state outputs. -/
theorem Keeps.of_write {inputs : ChunkInputs} {outputs : String → V} :
    Keeps r { r with
      inputs := inputs
      memory := assign r.memory (r.states.map fun state =>
        (r.address state.outputName, outputs state.outputName)) } := by
  refine ⟨rfl, rfl, rfl, fun buffer hbuffer => ?_⟩
  apply assign_of_notMem
  rwa [List.map_map]

/-- The runner after a chunk that has gone through. -/
def committed (engine : Engine V) (codes : List (List Int)) (isFinal : Bool)
    (r : StatefulCode2WavRunner V) : StatefulCode2WavRunner V :=
  let inputs := engine.inputsFor r.positionOffset codes isFinal
  swapStateBuffers { r with
    positionOffset := r.positionOffset + frames codes
    memory := assign r.memory (r.states.map fun state =>
      (r.address state.outputName, engine.output inputs r.bound state.outputName))
    inputs := inputs }

/-- A call either fails before anything is committed or commits the chunk. -/
theorem generateChunk_cases (cfg : StatefulCode2WavConfig) (engine : Engine V)
    (codes : List (List Int)) (isFinal : Bool) (outcome : EngineOutcome V)
    (r : StatefulCode2WavRunner V) :
    (∃ stop r', generateChunk cfg engine codes isFinal outcome r = (r', .stopped stop) ∧
      Keeps r r') ∨
    ∃ len, generateChunk cfg engine codes isFinal outcome r =
      (committed engine codes isFinal r, .audio len cfg.sampleRate) := by
  unfold generateChunk
  rcases prepareCodes_cases with ⟨stop, hcodes⟩ | hcodes
  · rw [hcodes]
    exact .inl ⟨stop, r, rfl, .of_inputs⟩
  rw [hcodes]
  dsimp only
  rcases prepareScalarInputs_cases with ⟨inputs, stop, hscalar⟩ |
    ⟨position, final, hposition, hfinal, hscalar⟩
  · rw [hscalar]
    exact .inl ⟨stop, _, rfl, .of_inputs⟩
  rw [hscalar]
  dsimp only [infer]
  by_cases hshapes : outcome.shapesSet = true
  · by_cases henqueued : outcome.enqueued = true
    · by_cases hlen : (waveformLen cfg codes outcome.waveformDims < 0 ||
          waveformLen cfg codes outcome.waveformDims > cfg.maxWaveformLen) = true
      · simp only [hshapes, henqueued, hlen, Bool.not_true, Bool.false_eq_true, if_false, if_true]
        exact .inl ⟨_, _, rfl, .of_write⟩
      · by_cases hsync : outcome.synchronized = true
        · have hinputs : engine.inputsFor r.positionOffset codes isFinal =
              ⟨codes, position, final⟩ := by
            dsimp only at hposition
            rw [Engine.inputsFor, hposition, hfinal]
            rfl
          simp only [hshapes, henqueued, hlen, hsync, Bool.not_true, Bool.false_eq_true, if_false,
            if_true, Bool.and_self]
          refine .inr ⟨waveformLen cfg codes outcome.waveformDims, ?_⟩
          rw [committed, hinputs]
          rfl
        · simp only [hshapes, henqueued, hlen, hsync, Bool.not_true, Bool.false_eq_true, if_false,
            if_true, Bool.not_false]
          exact .inl ⟨_, _, rfl, .of_write⟩
    · simp only [hshapes, henqueued, Bool.not_true, Bool.false_eq_true, if_false, Bool.false_and]
      exact .inl ⟨_, _, rfl, .of_write⟩
  · simp only [hshapes, Bool.not_false, if_true]
    exact .inl ⟨_, _, rfl, .of_inputs⟩

/-- Every state has two buffers of its own, bound to its two tensors. -/
structure WellBound (engine : Engine V) (r : StatefulCode2WavRunner V) : Prop where
  names : r.states.map (fun state => state.inputName) = engine.stateNames
  matching : ∀ state ∈ r.states, state.outputName = replaceSuffix state.inputName "_in" "_out"
  apart : (r.states.map (fun state => state.read) ++ r.states.map fun state => state.write).Nodup
  input : ∀ state ∈ r.states, r.address state.inputName = state.read
  output : ∀ state ∈ r.states, r.address state.outputName = state.write

theorem WellBound.read_ne_write (h : WellBound engine r) {a b : StateBinding}
    (ha : a ∈ r.states) (hb : b ∈ r.states) : a.read ≠ b.write := by
  apply (List.nodup_append.mp h.apart).2.2
  · exact List.mem_map_of_mem ha
  · exact List.mem_map_of_mem hb

/-- The addresses written by a run are those of the write buffers. -/
theorem WellBound.written (h : WellBound engine r) :
    (r.states.map fun state => r.address state.outputName) =
      r.states.map fun state => state.write :=
  List.map_congr_left h.output

theorem WellBound.bound_eq (h : WellBound engine r) : r.bound = r.readable := by
  apply List.map_congr_left
  intro state hstate
  rw [h.input state hstate]

theorem WellBound.keeps (h : WellBound engine r) (hkeep : Keeps r r') : WellBound engine r' := by
  constructor
  · rw [hkeep.states, h.names]
  · rw [hkeep.states]
    exact h.matching
  · rw [hkeep.states]
    exact h.apart
  · rw [hkeep.states, hkeep.address]
    exact h.input
  · rw [hkeep.states, hkeep.address]
    exact h.output

/-- What a failed call has written is not what is read next. -/
theorem WellBound.readable_keeps (h : WellBound engine r) (hkeep : Keeps r r') :
    r'.readable = r.readable := by
  rw [readable, hkeep.states, readable]
  apply List.map_congr_left
  intro state hstate
  rw [hkeep.memory]
  rw [h.written]
  intro hwritten
  obtain ⟨other, hother, heq⟩ := List.mem_map.mp hwritten
  exact h.read_ne_write hstate hother heq.symm

/-- Names with the old suffix keep apart when it is replaced. -/
theorem replaceSuffix_inj {a b oldSuffix newSuffix : String} (ha : endsWith a oldSuffix = true)
    (hb : endsWith b oldSuffix = true)
    (h : replaceSuffix a oldSuffix newSuffix = replaceSuffix b oldSuffix newSuffix) : a = b := by
  have hsplit : ∀ {value}, endsWith value oldSuffix = true →
      value.toList = value.toList.take (value.length - oldSuffix.length) ++ oldSuffix.toList := by
    intro value hvalue
    obtain ⟨front, hfront⟩ := List.isSuffixOf_iff_suffix.mp hvalue
    have hlen : value.length - oldSuffix.length = front.length := by
      rw [← String.length_toList, ← String.length_toList, ← hfront, List.length_append,
        Nat.add_sub_cancel]
    rw [hlen, ← hfront, List.take_left]
  have htake : a.toList.take (a.length - oldSuffix.length) =
      b.toList.take (b.length - oldSuffix.length) := by
    have hlist := congrArg String.toList h
    rw [replaceSuffix, replaceSuffix, String.toList_append, String.toList_append,
      String.toList_ofList, String.toList_ofList] at hlist
    exact List.append_cancel_right hlist
  rw [← String.toList_inj, hsplit ha, hsplit hb, htake]

theorem mem_stateNames {engine : Engine V} {name : String} (h : name ∈ engine.stateNames) :
    (name, .input) ∈ engine.ioTensors ∧ endsWith name "_in" = true ∧
      (replaceSuffix name "_in" "_out", .output) ∈ engine.ioTensors := by
  obtain ⟨⟨_, mode⟩, htensor, rfl⟩ := List.mem_map.mp h
  obtain ⟨hmem, hcond⟩ := List.mem_filter.mp htensor
  simp only [Bool.and_eq_true, decide_eq_true_eq, List.contains_iff_mem] at hcond
  obtain ⟨⟨rfl, hends⟩, hout⟩ := hcond
  obtain ⟨⟨_, mode⟩, htensor, heq⟩ := List.mem_map.mp hout
  obtain ⟨hmem', hmode⟩ := List.mem_filter.mp htensor
  simp only [decide_eq_true_eq] at hmode
  subst hmode heq
  exact ⟨hmem, hends, hmem'⟩

/-- The names of the tensors of an engine's states do not clash. -/
theorem bindings_nodup (engine : Engine V) : (engine.stateNames ++
    engine.stateNames.map fun name => replaceSuffix name "_in" "_out").Nodup := by
  have hnames : engine.stateNames.Nodup :=
    (List.filter_sublist.map Prod.fst).nodup engine.names_nodup
  refine List.nodup_append.mpr ⟨hnames, ?_, ?_⟩
  · apply List.Nodup.map_on _ hnames
    intro a ha b hb heq
    exact replaceSuffix_inj (mem_stateNames ha).2.1 (mem_stateNames hb).2.1 heq
  · intro name hname other hother heq
    subst heq
    obtain ⟨source, hsource, heq⟩ := List.mem_map.mp hother
    have hout := (mem_stateNames hsource).2.2
    rw [heq] at hout
    -- One name has one mode.
    cases List.inj_on_of_nodup_map engine.names_nodup (mem_stateNames hname).1 hout rfl

/-- Binding every tensor of every state, from any addresses. -/
theorem rebind (states : List StateBinding) (address : String → Nat)
    (hnodup : (states.map (fun state => state.inputName) ++
      states.map fun state => state.outputName).Nodup) :
    ∀ state ∈ states,
      assign address (states.flatMap fun state =>
        [(state.inputName, state.read), (state.outputName, state.write)]) state.inputName =
          state.read ∧
      assign address (states.flatMap fun state =>
        [(state.inputName, state.read), (state.outputName, state.write)]) state.outputName =
          state.write := by
  have hkeys : ((states.flatMap fun state =>
      [(state.inputName, state.read), (state.outputName, state.write)]).map Prod.fst).Nodup := by
    rw [List.map_flatMap]
    refine (List.Perm.nodup_iff ?_).mp hnodup
    have hperm := List.map_append_flatMap_perm states (fun state => state.inputName)
      fun state => [state.outputName]
    rwa [← List.map_eq_flatMap] at hperm
  intro state hstate
  constructor
  · apply assign_of_mem hkeys
    exact List.mem_flatMap_of_mem hstate (by simp)
  · apply assign_of_mem hkeys
    exact List.mem_flatMap_of_mem hstate (by simp)

theorem allocateBuffers_wellBound (engine : Engine V) (memory : Nat → V) :
    WellBound engine (allocateBuffers engine memory) := by
  have hnames : (allocateBuffers engine memory).states.map (fun state => state.inputName) =
      engine.stateNames := by
    rw [allocateBuffers, List.map_map]
    exact List.zipIdx_map_fst 0 _
  have houtputs : (allocateBuffers engine memory).states.map (fun state => state.outputName) =
      engine.stateNames.map fun name => replaceSuffix name "_in" "_out" := by
    rw [← hnames, List.map_map, allocateBuffers, List.map_map, List.map_map]
    rfl
  have hreads : (allocateBuffers engine memory).states.map (fun state => state.read) =
      (List.range engine.stateNames.length).map (2 * ·) := by
    rw [List.range_eq_range', ← List.zipIdx_map_snd, allocateBuffers, List.map_map, List.map_map]
    rfl
  have hwrites : (allocateBuffers engine memory).states.map (fun state => state.write) =
      (List.range engine.stateNames.length).map (2 * · + 1) := by
    rw [List.range_eq_range', ← List.zipIdx_map_snd, allocateBuffers, List.map_map, List.map_map]
    rfl
  have hrebind := rebind (allocateBuffers engine memory).states (fun _ => 0) (by
    rw [hnames, houtputs]
    exact bindings_nodup engine)
  refine ⟨hnames, ?_, ?_, fun state hstate => (hrebind state hstate).1,
    fun state hstate => (hrebind state hstate).2⟩
  · intro state hstate
    obtain ⟨source, _, rfl⟩ := List.mem_map.mp hstate
    rfl
  · rw [hreads, hwrites]
    refine List.nodup_append.mpr ⟨?_, ?_, ?_⟩
    · exact List.nodup_range.map fun a b h => by omega
    · exact List.nodup_range.map fun a b h => by omega
    · intro a ha b hb
      obtain ⟨i, _, rfl⟩ := List.mem_map.mp ha
      obtain ⟨j, _, rfl⟩ := List.mem_map.mp hb
      omega

theorem WellBound.tensors_nodup (h : WellBound engine r) :
    (r.states.map (fun state => state.inputName) ++
      r.states.map fun state => state.outputName).Nodup := by
  have houtputs : r.states.map (fun state => state.outputName) =
      engine.stateNames.map fun name => replaceSuffix name "_in" "_out" := by
    rw [← h.names, List.map_map]
    exact List.map_congr_left h.matching
  rw [h.names, houtputs]
  exact bindings_nodup engine

theorem swap_wellBound (h : WellBound engine r) : WellBound engine (swapStateBuffers r) := by
  let swapped := r.states.map fun state => { state with read := state.write, write := state.read }
  have hrebind := rebind swapped r.address (by
    rw [List.map_map, List.map_map]
    exact h.tensors_nodup)
  refine ⟨?_, ?_, ?_, fun state hstate => (hrebind state hstate).1,
    fun state hstate => (hrebind state hstate).2⟩
  · rw [← h.names, swapStateBuffers, List.map_map]
    rfl
  · intro state hstate
    obtain ⟨source, hsource, rfl⟩ := List.mem_map.mp hstate
    exact h.matching source hsource
  · rw [swapStateBuffers, List.map_map, List.map_map]
    exact (List.perm_append_comm.nodup_iff).mp h.apart

theorem committed_wellBound (h : WellBound engine r) :
    WellBound engine (committed engine codes isFinal r) :=
  swap_wellBound ⟨h.names, h.matching, h.apart, h.input, h.output⟩

/-- What is read after a chunk is what the engine made of the state before it. -/
theorem WellBound.readable_committed (h : WellBound engine r) :
    (committed engine codes isFinal r).readable =
      engine.next (engine.inputsFor r.positionOffset codes isFinal) r.readable := by
  have hkeys : ((r.states.map fun state => (r.address state.outputName,
      engine.output (engine.inputsFor r.positionOffset codes isFinal) r.bound
        state.outputName)).map Prod.fst).Nodup := by
    rw [List.map_map]
    exact h.written ▸ (List.nodup_append.mp h.apart).2.1
  rw [committed, swapStateBuffers, readable, List.map_map, Engine.next]
  nth_rewrite 2 [readable]
  rw [List.map_map]
  apply List.map_congr_left
  intro state hstate
  dsimp only [Function.comp_apply]
  rw [assign_of_mem hkeys]
  rw [← h.matching state hstate, ← h.bound_eq, ← h.output state hstate]
  exact List.mem_map_of_mem hstate

theorem reset_wellBound (h : WellBound engine r) : WellBound engine (reset engine r) :=
  ⟨h.names, h.matching, h.apart, h.input, h.output⟩

theorem WellBound.readable_reset (h : WellBound engine r) :
    (reset engine r).readable =
      engine.stateNames.map fun name => (name, engine.zero) := by
  have hkeys : ((r.states.flatMap fun state =>
      [(state.read, engine.zero), (state.write, engine.zero)]).map Prod.fst).Nodup := by
    rw [List.map_flatMap]
    refine (List.Perm.nodup_iff ?_).mp h.apart
    have hperm := List.map_append_flatMap_perm r.states (fun state => state.read)
      fun state => [state.write]
    rwa [← List.map_eq_flatMap] at hperm
  rw [← h.names, List.map_map, readable]
  apply List.map_congr_left
  intro state hstate
  dsimp only [reset, Function.comp_apply]
  rw [assign_of_mem hkeys]
  exact List.mem_flatMap_of_mem hstate (by simp)

end StatefulCode2WavRunner

/-- A call of the runner's owner. -/
inductive Call (V : Type*)
  | reset
  | generateChunk (codes : List (List Int)) (isFinal : Bool) (outcome : EngineOutcome V)

structure Chunk where
  codes : List (List Int)
  isFinal : Bool

/-- A runner with the chunks that have gone through since the last reset. -/
structure Session (V : Type*) where
  runner : StatefulCode2WavRunner V
  chunks : List Chunk

namespace Session
open StatefulCode2WavRunner

def perform (cfg : StatefulCode2WavConfig) (engine : Engine V) (s : Session V) :
    Call V → Session V
  | .reset => ⟨reset engine s.runner, []⟩
  | .generateChunk codes isFinal outcome =>
      match generateChunk cfg engine codes isFinal outcome s.runner with
      | (runner, .audio _ _) => ⟨runner, s.chunks ++ [⟨codes, isFinal⟩]⟩
      | (runner, .stopped _) => ⟨runner, s.chunks⟩

/-- Calls in any order on a new runner. -/
def system (cfg : StatefulCode2WavConfig) (engine : Engine V) (memory : Nat → V) :
    TransitionSystem (Session V) (Call V) where
  start := ⟨create engine memory, []⟩
  step s call := some (perform cfg engine s call)

/-- Offset and state when the engine's state function is applied to the chunks in
order, from no frames and a state of zeros. -/
def folded (engine : Engine V) (chunks : List Chunk) : Int × List (String × V) :=
  chunks.foldl
    (fun (offset, states) chunk => (offset + frames chunk.codes,
      engine.next (engine.inputsFor offset chunk.codes chunk.isFinal) states))
    (0, engine.stateNames.map fun name => (name, engine.zero))

variable {cfg : StatefulCode2WavConfig} {engine : Engine V} {memory : Nat → V} {s : Session V}

theorem folded_offset (chunks : List Chunk) :
    (folded engine chunks).1 = (chunks.map fun chunk => frames chunk.codes).sum := by
  induction chunks using List.reverseRecOn with
  | nil => rfl
  | append_singleton chunks chunk ih =>
      rw [folded, List.foldl_append, List.map_append, List.sum_append, ← ih]
      simp [folded]

/-- The buffers are well bound and hold what the chunks that went through have made. -/
def Tracks (engine : Engine V) (s : Session V) : Prop :=
  WellBound engine s.runner ∧
    (s.runner.positionOffset, s.runner.readable) = folded engine s.chunks

theorem tracks_invariant (cfg : StatefulCode2WavConfig) (engine : Engine V) (memory : Nat → V) :
    (system cfg engine memory).Invariant (Tracks engine) where
  start := by
    have hbound := allocateBuffers_wellBound engine memory
    refine ⟨reset_wellBound hbound, ?_⟩
    exact Prod.ext rfl hbound.readable_reset
  step := by
    rintro s call t ⟨hbound, hfold⟩ hstep
    obtain rfl : perform cfg engine s call = t := Option.some.inj hstep
    cases call with
    | reset => exact ⟨reset_wellBound hbound, Prod.ext rfl hbound.readable_reset⟩
    | generateChunk codes isFinal outcome =>
        rcases generateChunk_cases cfg engine codes isFinal outcome s.runner with
          ⟨stop, r, hcall, hkeep⟩ | ⟨len, hcall⟩
        · simp only [perform, hcall]
          exact ⟨hbound.keeps hkeep, by
            rw [hkeep.positionOffset, hbound.readable_keeps hkeep, hfold]⟩
        · simp only [perform, hcall]
          refine ⟨committed_wellBound hbound, ?_⟩
          rw [folded, List.foldl_append, ← folded, ← hfold, hbound.readable_committed]
          rfl

end Session

section Atomicity

open StatefulCode2WavRunner

/-- In every reachable state the buffers that are read are not written, a call that
fails leaves offset and readable state alone, and both are those of the chunks that
have gone through since the last reset. -/
theorem code2wav_runner_atomic (cfg : StatefulCode2WavConfig) (engine : Engine V)
    (memory : Nat → V) {s : Session V} (h : (Session.system cfg engine memory).Reachable s) :
    (s.runner.states.map (fun state => state.read) ++
      s.runner.states.map fun state => state.write).Nodup ∧
    s.runner.bound = s.runner.readable ∧
    (∀ codes isFinal outcome r stop,
      generateChunk cfg engine codes isFinal outcome s.runner = (r, .stopped stop) →
        r.positionOffset = s.runner.positionOffset ∧ r.readable = s.runner.readable) ∧
    s.runner.positionOffset = (s.chunks.map fun chunk => frames chunk.codes).sum ∧
    s.runner.readable = (Session.folded engine s.chunks).2 := by
  obtain ⟨hbound, hfold⟩ := (Session.tracks_invariant cfg engine memory).of_reachable h
  refine ⟨hbound.apart, hbound.bound_eq, fun codes isFinal outcome r stop hcall => ?_, ?_, ?_⟩
  · rcases generateChunk_cases cfg engine codes isFinal outcome s.runner with
      ⟨stop', r', hcases, hkeep⟩ | ⟨len, hcases⟩
    · obtain ⟨rfl, -⟩ := Prod.mk.inj (hcases.symm.trans hcall)
      exact ⟨hkeep.positionOffset, hbound.readable_keeps hkeep⟩
    · cases (Prod.mk.inj (hcases.symm.trans hcall)).2
  · rw [← Session.folded_offset, ← hfold]
  · rw [← hfold]

end Atomicity

/-- An engine whose state is the sum of the codes and offsets so far. -/
def summing : Engine Int where
  ioTensors := [("codes", .input), ("position_offset", .input), ("sum_in", .input),
    ("waveform", .output), ("sum_out", .output)]
  dataType := fun _ => .int64
  castInt32 := fun _ => none
  zero := 0
  output := fun inputs states _ =>
    (states.map Prod.snd).sum + inputs.codes.flatten.sum + inputs.positionOffset.getD 0
  names_nodup := by decide

def oneLayer : StatefulCode2WavConfig := ⟨1, 480, 24000, 9600⟩

/-- Everything succeeds, or the run fails and leaves 77 behind. -/
def outcomeOf (enqueued : Bool) : EngineOutcome Int :=
  ⟨true, true, true, true, true, enqueued, fun _ => 77, [1, 1, 960], true⟩

/-- Two chunks with a failed one between them. -/
theorem code2wav_runner_atomic_after_failure :
    ∃ s, (Session.system oneLayer summing fun _ => 5).Reachable s ∧
      s.runner.positionOffset = 3 ∧ s.runner.readable = [("sum_in", 18)] := by
  let calls := [Call.generateChunk [[3, 4]] false (outcomeOf true),
    .generateChunk [[6]] false (outcomeOf false), .generateChunk [[9]] true (outcomeOf true)]
  let s := calls.foldl (Session.perform oneLayer summing)
    (Session.system oneLayer summing fun _ => 5).start
  have hreach : (Session.system oneLayer summing fun _ => 5).Reachable s :=
    TransitionSystem.reachable_of_run calls rfl
  obtain ⟨-, -, -, hoffset, hstate⟩ := code2wav_runner_atomic oneLayer summing (fun _ => 5) hreach
  have hchunks : s.chunks = [⟨[[3, 4]], false⟩, ⟨[[9]], true⟩] := rfl
  rw [hchunks] at hoffset hstate
  exact ⟨s, hreach, hoffset, hstate.trans (by decide)⟩

end JetsonVoice.Code2Wav
