import JetsonVoice.Foundation.Logged
import JetsonVoice.Moss.Request

/-!
# The frame loop of a MOSS request

`handleRequest` of the runtime's own worker, which looks at no cancel flag: the
prompt is prefilled, then frames are sampled, collected and decoded to audio
until the sampler stops or the budget is spent. The log holds the buffers the
calls touched, the frames sampled, the batches decoded and the lines written.

## Implementation notes

The engines and the clock answer through a `RequestAnswer`. A call that throws is
given by its position among the calls of its function, and the buffers it was to
touch count as touched. The codec engine is a function of the state it keeps
between batches. The dumps of the diagnostic binary are left out.
-/

namespace JetsonVoice.Moss

open Foundation Protocol

/-- The sizes fixed when the runtime is constructed. -/
structure RuntimeDims where
  /-- `mMaxSeqLen`, by which the buffers of a slot are allocated. -/
  maxSeqLen : Nat
  maxSeqLen_pos : 0 < maxSeqLen
  /-- `mNumVq`, also `mCodecNumQuantizers`; a row of the prompt is one longer. -/
  numVq : Nat
  codecDownsampleRate : Nat
  /-- The longest `past_key_*` in the profile of the decode engine. -/
  profileMaxPast : Nat
  profileMaxPast_pos : 0 < profileMaxPast

/-- The codec engine: from its state and the codes of a batch the next state,
`audio_lengths`, and the contents of the audio buffer, channel first. -/
structure Codec (σ α : Type) where
  reset : σ
  decodeStep : σ → List (List Int) → σ × Int × (Nat → α)
  /-- A sample as `floatToPcm16` rounds it. -/
  pcm16 : α → Int

/-- A buffer of a slot and the rows of it that a call touches, from its first row on. -/
inductive Access where
  | inputIds (rows : Nat)
  | attentionMask (rows : Nat)
  | pastValidLengths
  /-- The cache as the decode engine reads it. -/
  | pastKey (rows : Int)
  /-- The scratch that an engine writes `present_*` to. -/
  | present (rows : Int)
  /-- Keys or values of one layer, copied from the scratch into the cache. -/
  | layerKv (layer kvIdx : Nat) (rows : Int)
  deriving DecidableEq, Repr

/-- A line the request writes. -/
inductive Line where
  | ready
  | chunk (frameIndex : Nat) (pcm : List Int)
  | done (totalSamples : Nat) (ttfaMs wallMs : Int)
  deriving DecidableEq, Repr

/-- The event of a line; `encode` is the base64 encoding of the bytes of the samples. -/
def Line.event (c : Config) (id : String) (encode : List Int → String) : Line → Json
  | .ready => readyEvent c id
  | .chunk frameIndex pcm => Protocol.event "chunk"
      [("id", .str id), ("ok", .bool true), ("audio_b64", .str (encode pcm)),
        ("frame_index", .int frameIndex), ("samples", .int pcm.length)]
  | .done totalSamples ttfaMs wallMs => Protocol.event "done"
      [("id", .str id), ("ok", .bool true), ("total_samples", .int totalSamples),
        ("ttfa_ms", .int ttfaMs), ("wall_ms", .int wallMs)]

/-- What a request does, as it is logged. -/
inductive Entry (α : Type) where
  | access (a : Access)
  /-- A frame the sampler produced, with generation to go on. -/
  | sampled (frame : List Int)
  /-- A batch that `decodeFrames` decoded, and the samples it appended. -/
  | decoded (frames : List (List Int)) (pcm : List α)
  | emit (line : Line)
  deriving DecidableEq

/-- What the calls of `prefill` or `decodeStep` return. -/
structure StepAnswer where
  /-- The call that throws, and the text. -/
  fault : Option (Nat × String) := none
  /-- `getTensorShape("present_key_0").d[1]`, if the tensor has that dimension. -/
  present : Option Int := none

/-- What the calls around one frame return. -/
structure FrameAnswer where
  /-- The codes `sampleFrame` read, if generation is to go on. -/
  sample : Except String (Option (Nat → Int)) := .ok none
  /-- What the codec calls throw, if the frame leads to a decode. -/
  codec : Option String := none
  now : Int := 0
  decode : StepAnswer := {}

/-- What the calls of one request return. -/
structure RequestAnswer where
  refRows : Option Nat := none
  textTokens : Nat := 0
  /-- What the calls before the prefill throw. -/
  setup : Option String := none
  prefill : StepAnswer := {}
  frame : Nat → FrameAnswer := fun _ => {}
  /-- The codec and the clock at the flush after the loop. -/
  last : FrameAnswer := {}
  requestStart : Int := 0
  doneAt : Int := 0

section Model
variable {σ α : Type}

/-- Calls in order, the first one numbered `k`, up to the one that throws. -/
def issue (fault : Option (Nat × String)) : Nat → List (List Access) →
    Logged (Entry α) String PUnit
  | _, [] => pure ⟨⟩
  | k, call :: calls =>
      match fault with
      | none => do
          Logged.tells (call.map .access)
          issue none (k + 1) calls
      | some (n, what) => do
          Logged.tells (call.map .access)
          if n = k then Logged.raise what else issue (some (n, what)) (k + 1) calls

def kGlobalLayers : Nat := 12

/-- The copies of every layer from the scratch into the cache. -/
def layerCopies (presentSeqLen : Int) : List (List Access) :=
  (List.range kGlobalLayers).flatMap fun layer =>
    [[.layerKv layer 0 presentSeqLen], [.layerKv layer 1 presentSeqLen]]

/-- The lengths a slot keeps between calls. -/
structure MossTtsNanoSlot where
  /-- As the engine reported it last. -/
  pastLen : Int := 0
  cumulativePastLen : Nat := 0
  deriving DecidableEq, Repr

def prefill (d : RuntimeDims) (inputIds attentionMask : Nat) (slot : MossTtsNanoSlot)
    (a : StepAnswer) : Logged (Entry α) String MossTtsNanoSlot :=
  let seqLen := inputIds / 17
  let presentSeqLen := a.present.getD seqLen
  if inputIds = 0 ∨ inputIds % 17 ≠ 0 then
    Logged.raise "MOSS prefill inputIds size must be multiple of row_width=17"
  else if seqLen = 0 ∨ d.maxSeqLen < seqLen then
    Logged.raise "MOSS prefill seqLen out of range"
  else if attentionMask ≠ seqLen then
    Logged.raise "MOSS prefill attentionMask size must equal seqLen"
  else if slot.pastLen ≠ 0 then
    Logged.raise "MOSS prefill requires an empty global KV cache"
  else do
    issue a.fault 0 ([[.inputIds seqLen], [.attentionMask seqLen], [.pastValidLengths], [],
      [.present presentSeqLen]] ++ layerCopies presentSeqLen)
    return { pastLen := presentSeqLen, cumulativePastLen := seqLen }

def decodeStep (d : RuntimeDims) (inputIds : Nat) (slot : MossTtsNanoSlot) (a : StepAnswer) :
    Logged (Entry α) String MossTtsNanoSlot :=
  let presentSeqLen := a.present.getD 1
  if inputIds ≠ 17 then
    Logged.raise "MOSS decodeStep requires exactly row_width=17 int32s for one token"
  else if slot.pastLen ≤ 0 ∨ (d.maxSeqLen : Int) ≤ slot.pastLen then
    Logged.raise "MOSS decodeStep pastLen out of range"
  else do
    issue a.fault 0
      [[.inputIds 1], [.attentionMask (slot.cumulativePastLen + 1)], [.pastValidLengths]]
    -- `setInputShape` refuses a shape outside the profile
    if (d.profileMaxPast : Int) < slot.pastLen then
      Logged.raise "TensorRT failure in MOSS runtime: set past_key_0 shape"
    else do
      issue a.fault 3 [[.pastKey slot.pastLen], [.present presentSeqLen]]
      if presentSeqLen ≤ 0 ∨ (d.maxSeqLen : Int) < presentSeqLen then
        Logged.raise "MOSS decode present_seq_len out of range"
      else do
        issue a.fault 5 (layerCopies presentSeqLen)
        return { pastLen := presentSeqLen, cumulativePastLen := slot.cumulativePastLen + 1 }

/-- The two channels of a decoded batch, interleaved. -/
def interleave (audioLength : Nat) (audio : Nat → α) : List α :=
  (List.range audioLength).flatMap fun i => [audio i, audio (audioLength + i)]

/-- The next codec state and the samples appended to `pcmOut`. -/
def decodeFrames (d : RuntimeDims) (codec : Codec σ α) (state : σ) (frameRows : List (List Int))
    (throws : Option String) : Logged (Entry α) String (σ × List α) :=
  if frameRows.length = 0 then pure (state, [])
  else if 8 < frameRows.length then
    Logged.raise "MOSS codec decodeFrames exceeds maxFrames"
  else if frameRows.any (·.length ≠ d.numVq) then
    Logged.raise "MOSS codec frame row must contain num_quantizers codes"
  else match throws with
    | some what => Logged.raise what
    | none =>
        let (next, audioLength, audio) := codec.decodeStep state frameRows
        if audioLength < 0 ∨ frameRows.length * d.codecDownsampleRate < audioLength then
          Logged.raise "MOSS codec audio_lengths out of range"
        else do
          let pcm := interleave audioLength.toNat audio
          Logged.tell (.decoded frameRows pcm)
          return (next, pcm)

/-- The locals of the loop, and the state of the slot's codec. -/
structure Loop (σ α : Type) where
  slot : MossTtsNanoSlot
  codec : σ
  frameBuffer : List (List Int) := []
  pcmOut : List α := []
  emittedSamples : Nat := 0
  chunkIdx : Nat := 0
  ttfaMs : Int := -1

/-- The frames that make `flushBuffer` decode without being forced. -/
def Loop.budget (g : Generation) (s : Loop σ α) : Int :=
  if s.chunkIdx = 0 then g.firstChunkBudget else g.chunkBudget

def floatToPcm16 (codec : Codec σ α) (samples : List α) (start : Nat) : List Int :=
  if samples.length ≤ start then [] else (samples.drop start).map codec.pcm16

def flushBuffer (d : RuntimeDims) (codec : Codec σ α) (g : Generation) (requestStart : Int)
    (force : Bool) (a : FrameAnswer) (s : Loop σ α) : Logged (Entry α) String (Loop σ α) :=
  if !force ∧ (s.frameBuffer.length : Int) < s.budget g then pure s
  else if s.frameBuffer = [] then pure s
  else do
    let (state, samples) ← decodeFrames d codec s.codec s.frameBuffer a.codec
    let pcmOut := s.pcmOut ++ samples
    let ttfaMs := if s.ttfaMs < 0 then elapsedMs requestStart a.now else s.ttfaMs
    Logged.tell (.emit (.chunk s.chunkIdx (floatToPcm16 codec pcmOut s.emittedSamples)))
    return { s with
      codec := state
      frameBuffer := []
      pcmOut := pcmOut
      emittedSamples := pcmOut.length
      chunkIdx := s.chunkIdx + 1
      ttfaMs := ttfaMs }

/-- The loop with `left` iterations to go, at the iteration `frameIdx`. -/
def frameLoop (d : RuntimeDims) (codec : Codec σ α) (g : Generation) (requestStart : Int)
    (a : Nat → FrameAnswer) : Nat → Nat → Loop σ α → Logged (Entry α) String (Loop σ α)
  | 0, _, s => pure s
  | left + 1, frameIdx, s =>
      match (a frameIdx).sample with
      | .error what => Logged.raise what
      | .ok none => pure s
      | .ok (some codes) => do
          let frameTokens := (List.range d.numVq).map codes
          Logged.tell (.sampled frameTokens)
          let s ← flushBuffer d codec g requestStart false (a frameIdx)
            { s with frameBuffer := s.frameBuffer ++ [frameTokens] }
          if left = 0 then pure s
          else do
            let slot ← decodeStep d (d.numVq + 1) s.slot (a frameIdx).decode
            frameLoop d codec g requestStart a left (frameIdx + 1) { s with slot := slot }

theorem frameLoop_sampled {d : RuntimeDims} {codec : Codec σ α} {g : Generation} {t0 : Int}
    {a : Nat → FrameAnswer} {left i : Nat} {s : Loop σ α} {codes : Nat → Int}
    (h : (a i).sample = .ok (some codes)) : frameLoop d codec g t0 a (left + 1) i s = (do
      Logged.tell (.sampled ((List.range d.numVq).map codes))
      let s ← flushBuffer d codec g t0 false (a i)
        { s with frameBuffer := s.frameBuffer ++ [(List.range d.numVq).map codes] }
      if left = 0 then pure s
      else do
        let slot ← decodeStep d (d.numVq + 1) s.slot (a i).decode
        frameLoop d codec g t0 a left (i + 1) { s with slot := slot }) := by
  rw [frameLoop, h]

/-- From the prefill of a prompt of `rows` rows to the terminal event. -/
def generateAudio (d : RuntimeDims) (codec : Codec σ α) (g : Generation) (rows : Nat)
    (a : RequestAnswer) : Logged (Entry α) String PUnit := do
  let slot ← prefill d (rows * (d.numVq + 1)) rows {} a.prefill
  let s ← frameLoop d codec g a.requestStart a.frame g.maxNewFrames 0 
    { slot := slot, codec := codec.reset }
  let s ← flushBuffer d codec g a.requestStart true a.last s
  Logged.tell (.emit (.done s.pcmOut.length s.ttfaMs (elapsedMs a.requestStart a.doneAt)))

/-- `handleRequest`, with the exceptions left to its caller. -/
def handleRequest (c : Config) (d : RuntimeDims) (codec : Codec σ α) (item : Json)
    (slotId : Nat) (a : RequestAnswer) : Logged (Entry α) String PUnit := do
  Logged.lift (validate item)
  Logged.tell (.emit .ready)
  let rows := promptRows c (referenceRows c item a.refRows) a.textTokens
  match a.setup with
  | some what => Logged.raise what
  | none => do
      let g ← Logged.lift (readBudgets item slotId rows)
      generateAudio d codec g rows a

end Model

section Budgets
variable {item : Json} {slotId rows : Nat} {g : Generation}

/-- The budgets of a request, as it may set them. -/
theorem readBudgets_eq (h : readBudgets item slotId rows = .ok g) :
    ∃ first chunk maxNew : Int, g =
      { slot := slotId
        firstChunkBudget := max 1 (min first kCodecMaxFramesPerBatch)
        chunkBudget := max 1 (min chunk kCodecMaxFramesPerBatch)
        maxNewFrames := (min (max 1 maxNew) (max 0 (kKvProfileMaxPast - rows))).toNat } := by
  unfold readBudgets at h
  cases hf : read (item.valueInt "first_chunk_frames" 4) with
  | error e => rw [hf] at h; cases h
  | ok first =>
      cases hc : read (item.valueInt "chunk_frames" 8) with
      | error e => rw [hf, hc] at h; cases h
      | ok chunk =>
          cases hn : read (item.valueInt "max_new_frames" 1000) with
          | error e => rw [hf, hc, hn] at h; cases h
          | ok maxNew =>
              rw [hf, hc, hn] at h
              exact ⟨first, chunk, maxNew, (Except.ok.inj h).symm⟩

/-- The budgets of a batch fit the codec engine. -/
theorem Loop.budget_le {σ α : Type} (h : readBudgets item slotId rows = .ok g) (s : Loop σ α) :
    1 ≤ s.budget g ∧ s.budget g ≤ 8 := by
  obtain ⟨first, chunk, maxNew, rfl⟩ := readBudgets_eq h
  unfold Loop.budget kCodecMaxFramesPerBatch
  dsimp only
  split <;> constructor <;> omega

theorem maxNewFrames_le (h : readBudgets item slotId rows = .ok g) :
    g.maxNewFrames ≤ 512 - rows := by
  obtain ⟨first, chunk, maxNew, rfl⟩ := readBudgets_eq h
  unfold kKvProfileMaxPast
  dsimp only
  omega

end Budgets

section Flush
variable {σ α : Type} {d : RuntimeDims} {codec : Codec σ α} {g : Generation} {t0 : Int}

/-- What the codec engine makes of a batch: the next state, and the samples interleaved. -/
def Codec.batch (codec : Codec σ α) (state : σ) (frames : List (List Int)) : σ × List α :=
  let (next, audioLength, audio) := codec.decodeStep state frames
  (next, interleave audioLength.toNat audio)

/-- The codec engine reports no more samples than the frames stand for. -/
def Codec.InRange (d : RuntimeDims) (codec : Codec σ α) : Prop :=
  ∀ state frames, 0 ≤ (codec.decodeStep state frames).2.1 ∧
    (codec.decodeStep state frames).2.1 ≤ frames.length * d.codecDownsampleRate

/-- The loop's locals after a batch was decoded and its chunk written. -/
def Loop.flushed (codec : Codec σ α) (t0 : Int) (a : FrameAnswer) (s : Loop σ α) : Loop σ α :=
  let r := codec.batch s.codec s.frameBuffer
  { s with
    codec := r.1
    frameBuffer := []
    pcmOut := s.pcmOut ++ r.2
    emittedSamples := (s.pcmOut ++ r.2).length
    chunkIdx := s.chunkIdx + 1
    ttfaMs := if s.ttfaMs < 0 then elapsedMs t0 a.now else s.ttfaMs }

/-- What a flush does: nothing, an exception before anything is decoded, or one
batch of all the collected frames and one chunk. -/
inductive Flush (d : RuntimeDims) (codec : Codec σ α) (g : Generation) (t0 : Int) (force : Bool)
    (a : FrameAnswer) (s : Loop σ α) : Logged (Entry α) String (Loop σ α) → Prop
  | kept (h : s.frameBuffer = [] ∨ force = false ∧ (s.frameBuffer.length : Int) < s.budget g) :
      Flush d codec g t0 force a s (pure s)
  | failed (what : String) (h : a.codec = none → codec.InRange d → s.frameBuffer.length ≤ 8 →
      ¬ ∀ row ∈ s.frameBuffer, row.length = d.numVq) :
      Flush d codec g t0 force a s (Logged.raise what)
  | made (hne : s.frameBuffer ≠ []) (hle : s.frameBuffer.length ≤ 8) :
      Flush d codec g t0 force a s
        ⟨[.decoded s.frameBuffer (codec.batch s.codec s.frameBuffer).2,
          .emit (.chunk s.chunkIdx
            (floatToPcm16 codec (s.flushed codec t0 a).pcmOut s.emittedSamples))],
          .ok (s.flushed codec t0 a)⟩

theorem decodeFrames_cases (d : RuntimeDims) (codec : Codec σ α) (state : σ)
    (throws : Option String) {frameRows : List (List Int)} (hne : frameRows ≠ []) :
    (∃ what, decodeFrames d codec state frameRows throws = Logged.raise what ∧
      (throws = none → codec.InRange d → frameRows.length ≤ 8 →
        ¬ ∀ row ∈ frameRows, row.length = d.numVq)) ∨
    frameRows.length ≤ 8 ∧ decodeFrames d codec state frameRows throws =
      ⟨[.decoded frameRows (codec.batch state frameRows).2],
        .ok (codec.batch state frameRows)⟩ := by
  unfold decodeFrames
  rw [if_neg (fun h => hne (List.eq_nil_of_length_eq_zero h))]
  split
  · rename_i hlong
    exact .inl ⟨_, rfl, fun _ _ hle => absurd hlong (by omega)⟩
  · rename_i hle
    split
    · rename_i hwidth
      refine .inl ⟨_, rfl, fun _ _ _ hall => ?_⟩
      obtain ⟨row, hrow, hne⟩ := List.any_eq_true.mp hwidth
      exact absurd (hall row hrow) (of_decide_eq_true hne)
    · cases throws with
      | some what => exact .inl ⟨what, rfl, nofun⟩
      | none =>
          dsimp only
          split
          · rename_i hrange
            refine .inl ⟨_, rfl, fun _ hc _ => ?_⟩
            obtain ⟨h₀, h₁⟩ := hc state frameRows
            exact absurd hrange (not_or.mpr ⟨Int.not_lt.mpr h₀, Int.not_lt.mpr h₁⟩)
          · exact .inr ⟨by omega, rfl⟩

theorem flushBuffer_cases (d : RuntimeDims) (codec : Codec σ α) (g : Generation) (t0 : Int)
    (force : Bool) (a : FrameAnswer) (s : Loop σ α) :
    Flush d codec g t0 force a s (flushBuffer d codec g t0 force a s) := by
  unfold flushBuffer
  split
  · rename_i h
    exact .kept (.inr ⟨by simpa using h.1, h.2⟩)
  · split
    · rename_i h
      exact .kept (.inl h)
    · rename_i hne
      rcases decodeFrames_cases d codec s.codec a.codec hne with ⟨what, heq, h⟩ | ⟨hle, heq⟩
      · rw [heq, Logged.raise_bind]
        exact .failed what h
      · rw [heq, Logged.bind_of_ok rfl]
        exact .made hne hle

theorem flushBuffer_slot {force : Bool} {a : FrameAnswer} {s s' : Loop σ α}
    (h : (flushBuffer d codec g t0 force a s).result = .ok s') : s'.slot = s.slot := by
  have hflush := flushBuffer_cases d codec g t0 force a s
  generalize flushBuffer d codec g t0 force a s = r at hflush h
  cases hflush with
  | kept =>
      cases h
      rfl
  | failed => cases h
  | made =>
      cases h
      rfl

/-- The loop's locals at the head of the loop. -/
structure Loop.Fed (d : RuntimeDims) (g : Generation) (s : Loop σ α) : Prop where
  size : (s.frameBuffer.length : Int) < s.budget g
  width : ∀ row ∈ s.frameBuffer, row.length = d.numVq
  emitted : s.emittedSamples = s.pcmOut.length

section Fed
variable {item : Json} {slotId rows : Nat} {s s' : Loop σ α} {a : FrameAnswer}

/-- With one more frame the collected frames still fit the codec engine. -/
theorem Loop.Fed.push (hg : readBudgets item slotId rows = .ok g) (hs : s.Fed d g)
    (codes : Nat → Int) :
    (s.frameBuffer ++ [(List.range d.numVq).map codes]).length ≤ 8 ∧
      ∀ row ∈ s.frameBuffer ++ [(List.range d.numVq).map codes], row.length = d.numVq := by
  constructor
  · have hbudget := (Loop.budget_le hg s).2
    have hsize := hs.size
    rw [List.length_append, List.length_singleton]
    omega
  · intro row hrow
    cases List.mem_append.mp hrow with
    | inl h => exact hs.width row h
    | inr h =>
        obtain rfl := List.mem_singleton.mp h
        rw [List.length_map, List.length_range]

/-- A flush of the loop leaves fewer frames than make a batch. -/
theorem flushBuffer_fed (hg : readBudgets item slotId rows = .ok g)
    (hw : ∀ row ∈ s.frameBuffer, row.length = d.numVq)
    (he : s.emittedSamples = s.pcmOut.length)
    (h : (flushBuffer d codec g t0 false a s).result = .ok s') : s'.Fed d g := by
  have hflush := flushBuffer_cases d codec g t0 false a s
  generalize flushBuffer d codec g t0 false a s = r at hflush h
  cases hflush with
  | kept hkept =>
      cases h
      refine ⟨?_, hw, he⟩
      cases hkept with
      | inl hnil =>
          have hbudget := (Loop.budget_le hg s).1
          rw [hnil, List.length_nil]
          omega
      | inr hsize => exact hsize.2
  | failed => cases h
  | made =>
      cases h
      refine ⟨?_, nofun, rfl⟩
      exact Int.lt_of_lt_of_le Int.zero_lt_one (Loop.budget_le hg (s.flushed codec t0 a)).1

/-- A flush of frames that fit, with a codec that does not throw, goes well. -/
theorem flushBuffer_succeeds (t0 : Int) (ha : a.codec = none) (hc : codec.InRange d)
    (hle : s.frameBuffer.length ≤ 8) (hw : ∀ row ∈ s.frameBuffer, row.length = d.numVq)
    (force : Bool) : ∃ s', (flushBuffer d codec g t0 force a s).result = .ok s' := by
  have hflush := flushBuffer_cases d codec g t0 force a s
  generalize flushBuffer d codec g t0 force a s = r at hflush ⊢
  cases hflush with
  | kept => exact ⟨_, rfl⟩
  | failed what h => exact absurd hw (h ha hc hle)
  | made => exact ⟨_, rfl⟩

end Fed

end Flush

end JetsonVoice.Moss
