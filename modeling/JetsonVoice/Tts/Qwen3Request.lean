import JetsonVoice.Tts.SlotWorker

/-!
# One request of the Qwen3-TTS worker

`processRequest` between the registration and the cleanup: the talker runtime
calls back with chunks of codes, Code2Wav turns them into audio, in the
callback or on a thread of its own, and a common tail emits the terminal event.

## Implementation notes

The runtime's next move, what Code2Wav returns and the clock come in as inputs.
A waveform enters as the number of its samples and its encoding. An exception
that leaves the callback passes through the runtime, which may catch it.
-/

namespace JetsonVoice.Tts.Qwen3

open Foundation Protocol

/-- What the process read from its environment and from its engines. -/
structure Config where
  useAsyncVocode : Bool
  sampleRate : Int
  deriving DecidableEq, Repr

/-- What `buildRequest` reads, and the fields read after it. -/
structure Options where
  maxAudioLength : Int
  talkerTemperature : Json
  talkerTopK : Int
  talkerTopP : Json
  repetitionPenalty : Json
  speakerName : String
  speakerId : Int
  language : String
  /-- The encoded embedding; empty for none. -/
  speakerEmbedding : String
  text : String
  firstChunkFrames : Int
  subsequentChunkFrames : Int
  streaming : Bool
  chunkFormat : String
  chunkTransport : String
  deriving DecidableEq, Repr

/-- The typed reads of a request, in the order they are made. -/
def buildRequest (item : Json) : Except String Options := do
  let maxAudioLength ← read (item.valueInt "max_audio_length" 4096)
  let talkerTemperature ← read (item.valueFloat "talker_temperature" (.decimal 9 1))
  let talkerTopK ← read (item.valueInt "talker_top_k" 50)
  let talkerTopP ← read (item.valueFloat "talker_top_p" (.decimal 10 1))
  let repetitionPenalty ← read (item.valueFloat "repetition_penalty" (.decimal 105 2))
  let speakerName ← read (item.valueStr "speaker" "")
  let speakerId ← read (item.valueInt "speaker_id" (-1))
  let language ← read (item.valueStr "language" "")
  let speakerEmbedding ← read (item.valueStr "speaker_embedding_b64" "")
  let text ← read (item.valueStr "text" "")
  let firstChunkFrames ← read (item.valueInt "first_chunk_frames" 8)
  let subsequentChunkFrames ← read (item.valueInt "chunk_frames" 10)
  let streaming ← read (item.valueBool "stream" true)
  let chunkFormat ← read (item.valueStr "chunk_format" "pcm_s16le")
  let chunkTransport ← read (item.valueStr "chunk_transport" "base64")
  return {
    maxAudioLength, talkerTemperature, talkerTopK, talkerTopP, repetitionPenalty, speakerName,
    speakerId, language, speakerEmbedding, text
    firstChunkFrames := max 1 firstChunkFrames
    subsequentChunkFrames := max 0 subsequentChunkFrames
    streaming, chunkFormat, chunkTransport }

/-- The codes of one frame, a code for each layer. -/
abbrev Frame := List Int

/-- A chunk on its way to Code2Wav. -/
structure VocodeJob where
  frames : List Frame
  isFinal : Bool
  chunkIndex : Nat
  deriving DecidableEq, Repr

/-- A waveform and the readings of the clock around its computation. -/
structure Wave where
  samples : Nat := 0
  audio : String := ""
  code2wavMs : Int := 0
  queueMs : Int := 0
  elapsedMs : Int := 0
  deriving DecidableEq, Repr

/-- What `generateWaveform` does: return a waveform, return `false` or throw. -/
inductive Outcome where
  | wave (w : Wave)
  | failed
  | threw (what : String)
  deriving DecidableEq, Repr

/-- What the calls of one step return. -/
inductive Answer where
  | ok
  | threw (what : String)
  /-- The runtime calls `onChunkReady`. -/
  | chunk (codes : List Frame) (isFinal : Bool)
  /-- `handleAudioGeneration` returns. -/
  | returned (ok : Bool) (totalFrames : Int)
  /-- Code2Wav returns to the callback; `caught` when the runtime catches what it threw. -/
  | vocoded (outcome : Outcome) (caught : Bool)
  | clock (elapsedMs : Int)
  deriving DecidableEq, Repr

/-- Whose step it is. -/
inductive Input where
  | request (a : Answer)
  | vocoder (outcome : Outcome)
  deriving DecidableEq, Repr

/-- How the part that can throw is left. -/
inductive Exit where
  | returned (ok : Bool) (totalFrames : Int)
  | threw (what : String)
  deriving DecidableEq, Repr

/-- The terminal event decided on. -/
inductive Ending where
  | cancelled
  | failed
  | done (totalFrames : Int)
  | error (what : String)
  deriving DecidableEq, Repr

/-- What `emitChunk` writes: the chunk, or that Code2Wav returned `false` for it. -/
inductive Report where
  | chunk (job : VocodeJob) (w : Wave)
  | failed
  deriving DecidableEq, Repr

/-- Where the slot's thread stands. -/
inductive Control where
  | building
  /-- Creating the stream and the thread of the vocoder. -/
  | spawning
  /-- In `handleAudioGeneration`. -/
  | generating
  /-- In Code2Wav, called from the callback; `clear` when it empties the buffer afterwards. -/
  | vocoding (job : VocodeJob) (clear : Bool)
  /-- About to emit the event of a chunk from the callback. -/
  | emitting (report : Report) (clear : Bool)
  /-- About to queue the poison job. -/
  | poisoning (exit : Exit)
  | joining (exit : Exit)
  /-- At the look at the cancel flag. -/
  | deciding (ok : Bool) (totalFrames : Int)
  | concluding (ending : Ending)
  | finished
  deriving DecidableEq, Repr

/-- The vocoder's thread of a request that streams asynchronously. -/
inductive Vocoder where
  /-- Not started, or joined. -/
  | absent
  | waiting
  | vocoding (job : VocodeJob)
  | emitting (report : Report)
  | returned
  deriving DecidableEq, Repr

/-- The locals of `processRequest`. A `none` on the queue is the poison job. -/
structure State where
  control : Control
  options : Option Options
  chunkIndex : Nat
  aggBuffer : List Frame
  firstChunkDelivered : Bool
  vocodeQ : List (Option VocodeJob)
  vocodeError : Option String
  vocoder : Vocoder
  deriving DecidableEq, Repr

def State.start : State := ⟨.building, none, 0, [], false, [], none, .absent⟩

/-- The two fields that carry a request's id. -/
def tag (id : String) : List (String × Json) := [("request_id", .str id), ("id", .str id)]

def chunkEvent (c : Config) (id : String) (o : Options) (job : VocodeJob) (w : Wave) : Json :=
  event "chunk" ([("ok", .bool true)] ++ tag id ++ [("chunk_index", .int job.chunkIndex),
    ("chunk_format", .str o.chunkFormat), ("chunk_transport", .str o.chunkTransport),
    ("frames", .int job.frames.length), ("samples", .int w.samples),
    ("sample_rate", .int c.sampleRate), ("is_final", .bool job.isFinal),
    ("code2wav_ms", .int w.code2wavMs), ("queue_ms", .int w.queueMs),
    ("elapsed_ms", .int w.elapsedMs), ("audio_b64", .str w.audio)])

def failure (id what : String) : Json :=
  event "error" ([("ok", .bool false)] ++ tag id ++ [("error", .str what)])

def Ending.event (c : Config) (id : String) (chunkIndex : Nat) (elapsedMs : Int) : Ending → Json
  | .cancelled =>
      Protocol.event "cancelled" ([("ok", .bool true)] ++ tag id ++ [("reason", .str "cancelled")])
  | .failed => failure id "handleAudioGeneration failed"
  | .done totalFrames => Protocol.event "done" ([("ok", .bool true)] ++ tag id ++
      [("chunks_emitted", .int chunkIndex), ("total_frames", .int totalFrames),
        ("sample_rate", .int c.sampleRate), ("elapsed_ms", .int elapsedMs)])
  | .error what => failure id what

def Report.event (c : Config) (id : String) (o : Options) : Report → Json
  | .chunk job w => chunkEvent c id o job w
  | .failed => failure id "Code2Wav generateWaveform failed"

/-- A failed call is noted. -/
def Report.action : Report → Action
  | .chunk _ _ => .none
  | .failed => .note

/-- What `emitChunk` writes, unless it throws. A chunk without frames needs no
Code2Wav call. -/
def emitChunk (job : VocodeJob) : Outcome → Except String Report
  | .wave w => .ok (.chunk job (if job.frames = [] then { w with samples := 0, audio := "" } else w))
  | .failed => .ok (if job.frames = [] then .chunk job {} else .failed)
  | .threw what => if job.frames = [] then .ok (.chunk job {}) else .error what

namespace State

/-- `deliverChunk`: queue the chunk for the vocoder, or vocode it here. -/
def deliverChunk (st : State) (c : Config) (frames : List Frame) (isFinal clear : Bool) : State :=
  let job : VocodeJob := ⟨frames, isFinal, st.chunkIndex⟩
  if c.useAsyncVocode then
    { st with
      chunkIndex := st.chunkIndex + 1
      vocodeQ := st.vocodeQ ++ [some job]
      aggBuffer := if clear then [] else st.aggBuffer }
  else { st with chunkIndex := st.chunkIndex + 1, control := .vocoding job clear }

/-- `onChunkReady`: the first chunk goes out at once, later ones when enough
frames have come together, unless the chunk sizes turn the aggregation off. -/
def onChunkReady (st : State) (c : Config) (o : Options) (codes : List Frame) (isFinal : Bool) :
    State :=
  if o.subsequentChunkFrames > o.firstChunkFrames then
    if st.firstChunkDelivered then
      let st := { st with aggBuffer := st.aggBuffer ++ codes }
      if isFinal then st.deliverChunk c st.aggBuffer true true
      else if o.subsequentChunkFrames ≤ st.aggBuffer.length then
        st.deliverChunk c st.aggBuffer false true
      else st
    else { st with firstChunkDelivered := true }.deliverChunk c codes isFinal false
  else st.deliverChunk c codes isFinal false

/-- The callback returns to the runtime. -/
def callbackReturned (st : State) (clear : Bool) : State :=
  { st with control := .generating, aggBuffer := if clear then [] else st.aggBuffer }

/-- After the vocoder's thread, if there was one, has been joined. -/
def settle (st : State) : Exit → State
  | .returned ok totalFrames =>
      match st.vocodeError with
      | some what => { st with control := .concluding (.error what) }
      | none => { st with control := .deciding ok totalFrames }
  | .threw what => { st with control := .concluding (.error what) }

/-- Drain the vocoder's thread, if there is one. -/
def drain (st : State) (exit : Exit) : State :=
  if st.vocoder = .absent then st.settle exit else { st with control := .poisoning exit }

end State

/-- One step of the slot's thread inside `processRequest`. -/
def requestStep (c : Config) (item : Json) (id : String) (cancelled : Bool) (a : Answer)
    (st : State) : Option (State × Action) :=
  match st.control, a with
  | .building, _ =>
      match buildRequest item with
      | .error what => some (st.drain (.threw what), .none)
      | .ok o =>
          let st := { st with options := some o }
          some ({ st with
            control := if o.streaming && c.useAsyncVocode then .spawning else .generating }, .none)
  | .spawning, .threw what => some (st.drain (.threw what), .none)
  | .spawning, _ => some ({ st with control := .generating, vocoder := .waiting }, .none)
  | .generating, .chunk codes isFinal =>
      match st.options with
      | some o =>
          if o.streaming then some (st.onChunkReady c o codes isFinal, .none) else none
      | none => none
  | .generating, .returned ok totalFrames => some (st.drain (.returned ok totalFrames), .none)
  | .generating, .threw what => some (st.drain (.threw what), .none)
  | .vocoding job clear, .vocoded outcome caught =>
      match emitChunk job outcome with
      | .ok report => some ({ st with control := .emitting report clear }, report.action)
      | .error what =>
          if caught then some (st.callbackReturned false, .none)
          else some (st.drain (.threw what), .none)
  | .emitting report clear, _ =>
      st.options.map fun o => (st.callbackReturned clear, .emit (report.event c id o))
  | .poisoning exit, _ =>
      some ({ st with control := .joining exit, vocodeQ := st.vocodeQ ++ [none] }, .none)
  | .joining exit, _ =>
      if st.vocoder = .returned then some ({ st with vocoder := .absent }.settle exit, .none)
      else none
  | .deciding ok totalFrames, _ =>
      let ending : Ending := if cancelled then .cancelled else if ok then .done totalFrames else .failed
      some ({ st with control := .concluding ending }, .none)
  | .concluding ending, .clock elapsedMs =>
      some ({ st with control := .finished }, .emit (ending.event c id st.chunkIndex elapsedMs))
  | _, _ => none

/-- One step of the vocoder's thread. -/
def vocoderStep (c : Config) (id : String) (outcome : Outcome) (st : State) : Option (State × Action) :=
  match st.vocoder with
  | .absent | .returned => none
  | .waiting =>
      match st.vocodeQ with
      | some job :: jobs => some ({ st with vocoder := .vocoding job, vocodeQ := jobs }, .none)
      | none :: jobs => some ({ st with vocoder := .returned, vocodeQ := jobs }, .none)
      | [] => none
  | .vocoding job =>
      match emitChunk job outcome with
      | .ok report => some ({ st with vocoder := .emitting report }, report.action)
      | .error what => some ({ st with vocoder := .waiting, vocodeError := some what }, .none)
  | .emitting report =>
      st.options.map fun o => ({ st with vocoder := .waiting }, .emit (report.event c id o))

def step (c : Config) (item : Json) (id : String) (cancelled : Bool) :
    Input → State → Option (State × Action)
  | .request a, st => requestStep c item id cancelled a st
  | .vocoder outcome, st => vocoderStep c id outcome st

/-- `handleAudioGeneration` has been called. -/
def State.began (st : State) : Bool := st.control ≠ .building ∧ st.control ≠ .spawning

def State.decided (st : State) : Bool :=
  match st.control with
  | .concluding _ | .finished => true
  | _ => false

/-- `processRequest` of the Qwen3-TTS worker. -/
def engine (c : Config) : Engine where
  State := State
  Input := Input
  tag := tag
  channel := false
  start := .start
  step := step c
  began := State.began
  decided := State.decided
  finished st := st.control = .finished

end JetsonVoice.Tts.Qwen3
