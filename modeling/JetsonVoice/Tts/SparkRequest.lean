import JetsonVoice.Tts.SlotWorker

/-!
# One request of the Spark worker

`processRequest` between the registration and the cleanup. A decode thread runs
the language model and pushes tokens into the request's channel; the slot's
thread takes them out, sorts them into global and semantic tokens, and vocodes
and emits chunks of audio while they arrive and after the decode has ended.

## Implementation notes

What the channel, the engines and the clock return comes in as inputs. Audio
enters as a number of samples and their encoding: the lengths decide which
chunks are emitted, the values are floating point.
-/

namespace JetsonVoice.Tts.Spark

open Foundation Protocol

def kGlobalIdBase : Int := 151665
def kGlobalIdEnd : Int := 155760
def kSemanticIdBase : Int := 155761
def kSemanticIdEnd : Int := 163952

/-- Samples of one semantic token. -/
def kUpsamplePerToken : Nat := 320

/-- What a sum of two 32-bit integers comes to on the machine. -/
def int32 (n : Int) : Int := Int.bmod n (2 ^ 32)

/-- What the process read from its arguments. -/
structure Config where
  sampleRate : Int
  deriving DecidableEq, Repr

def genderId (g : String) : Int := if g = "male" ∨ g = "1" then 1 else 0

def levelId (l : String) : Int :=
  if l = "very_low" ∨ l = "0" then 0
  else if l = "low" ∨ l = "1" then 1
  else if l = "moderate" ∨ l = "2" ∨ l = "" then 2
  else if l = "high" ∨ l = "3" then 3
  else if l = "very_high" ∨ l = "4" then 4
  else 2

def buildControllablePrompt (text gender pitch speed : String) : String :=
  "<|task_controllable_tts|><|start_content|>" ++ text ++ "<|end_content|><|start_style_label|>"
    ++ "<|gender_" ++ toString (genderId gender) ++ "|><|pitch_label_" ++ toString (levelId pitch)
    ++ "|><|speed_label_" ++ toString (levelId speed) ++ "|>" ++ "<|end_style_label|>"

def buildClonePrompt (text : String) (globalIds refSemantic : List Int) (refText : String) :
    String :=
  let tokens (name : String) (ids : List Int) : String :=
    String.join (ids.map fun i => "<|" ++ name ++ "_" ++ toString i ++ "|>")
  let content := if refSemantic = [] then text else refText ++ text
  let prompt := "<|task_tts|><|start_content|>" ++ content ++ "<|end_content|>"
    ++ "<|start_global_token|>" ++ tokens "bicodec_global" globalIds ++ "<|end_global_token|>"
  if refSemantic = [] then prompt
  else prompt ++ "<|start_semantic_token|>" ++ tokens "bicodec_semantic" refSemantic

/-- What a request reads before its decode thread starts. -/
structure Options where
  mode : String
  cloneGlobal : List Int
  cloneRefSemantic : List Int
  chunkTransport : String
  emitTokenProgress : Bool
  maxSemantic : Int
  streamAudio : Bool
  firstChunkTokens : Nat
  chunkTokens : Nat
  leftOverlap : Nat
  outputFile : String
  prompt : String
  temperature : Json
  topP : Json
  topK : Int
  maxGenerateLength : Int
  applyChatTemplate : Bool
  addGenerationPrompt : Bool
  deriving DecidableEq, Repr

def Options.isClone (o : Options) : Bool := o.mode = "clone"

/-- The integers of an array field; any other value counts as no field. -/
def readIds (item : Json) (key : String) : Except String (List Int) :=
  match item.field? key with
  | some (.arr ids) => ids.mapM fun v => read v.toInt32
  | _ => .ok []

/-- The fields of a voice clone; without one they stay empty. -/
def readClone (item : Json) (mode : String) : Except String (List Int × List Int × String) := do
  if mode ≠ "clone" then return ([], [], "")
  let globalIds ← readIds item "global_ids"
  let refSemantic ← readIds item "ref_semantic_ids"
  let refText ← read (item.valueStr "ref_text" "")
  if globalIds.length ≠ 32 then
    throw ("clone mode requires global_ids[32], got " ++ toString globalIds.length)
  return (globalIds, refSemantic, refText)

/-- The typed reads and checks of a request, in the order they are made. -/
def buildRequest (item : Json) (id : String) : Except String Options := do
  let text ← read (item.valueStr "text" "")
  let gender ← read (item.valueStr "gender" "female")
  let pitch ← read (item.valueStr "pitch" "moderate")
  let speed ← read (item.valueStr "speed" "moderate")
  let mode ← read (item.valueStr "mode" "controllable")
  let (cloneGlobal, cloneRefSemantic, cloneRefText) ← readClone item mode
  let chunkTransport ← read (item.valueStr "chunk_transport" "file")
  let emitTokenProgress ← read (item.valueBool "emit_token_progress" true)
  let maxSemantic ← read (item.valueInt "max_semantic" 600)
  let streamAudio ← read (item.valueBool "stream_audio" true)
  let firstChunkTokens ← read (item.valueInt "first_chunk_tokens" 12)
  let chunkTokens ← read (item.valueInt "chunk_tokens" 16)
  let leftOverlap ← read (item.valueInt "left_overlap_tokens" 12)
  let outputFile ← read (item.valueStr "output_file" "")
  if text = "" then throw "empty text"
  let prompt :=
    if mode = "clone" then buildClonePrompt text cloneGlobal cloneRefSemantic cloneRefText
    else buildControllablePrompt text gender pitch speed
  let temperature ← read (item.valueFloat "temperature" (.decimal 10 1))
  let topP ← read (item.valueFloat "top_p" (.decimal 10 1))
  let topK ← read (item.valueInt "top_k" 1)
  let maxGenerateLength ← read (item.valueInt "max_tokens" 800)
  let applyChatTemplate ← read (item.valueBool "apply_chat_template" false)
  let addGenerationPrompt ← read (item.valueBool "add_generation_prompt" false)
  return {
    mode, cloneGlobal, cloneRefSemantic, chunkTransport, emitTokenProgress, maxSemantic
    streamAudio
    firstChunkTokens := (max 1 firstChunkTokens).toNat
    chunkTokens := (max 1 chunkTokens).toNat
    leftOverlap := (max 0 leftOverlap).toNat
    outputFile := if outputFile = "" then "/tmp/spark_tts_worker_" ++ id ++ ".wav" else outputFile
    prompt, temperature, topP, topK, maxGenerateLength, applyChatTemplate, addGenerationPrompt }

/-- Why a stream ended; the channel library names the reasons. -/
inductive FinishReason where
  | cancelled
  | named (name : String)
  deriving DecidableEq, Repr

def finishReasonName : FinishReason → String
  | .cancelled => "cancelled"
  | .named name => name

/-- Tokens taken out of the channel, with the reason when they are the last ones. -/
structure StreamChunk where
  tokenIds : List Int
  finished : Option FinishReason
  deriving DecidableEq, Repr

/-- `ChunkStreamState`. -/
structure ChunkStreamState where
  /-- Semantic tokens already turned into emitted audio. -/
  emittedTokens : Nat := 0
  chunkIndex : Nat := 0
  emittedSamples : Nat := 0
  deriving DecidableEq, Repr

/-- Where a chunk is vocoded: while tokens arrive, or after the decode has ended. -/
inductive Site where
  | live (finished : Option FinishReason)
  | flush
  /-- The empty final marker. -/
  | marker
  deriving DecidableEq, Repr

/-- The terminal event of a normal return. -/
inductive Ending where
  | decodeFailed (what : String)
  | cancelled
  | done
  | error (what : String)
  deriving DecidableEq, Repr

/-- Where the slot's thread stands. -/
inductive Control where
  | building
  /-- Starting the decode thread. -/
  | spawning
  /-- A clone runs the speaker decoder before any token arrives. -/
  | profiling
  | announcing
  /-- In `waitPop`. -/
  | waiting
  /-- The tokens of a chunk have been sorted. -/
  | sorted (finished : Option FinishReason)
  /-- About to emit that the speaker vector is ready. -/
  | progress (finished : Option FinishReason)
  | chunking (finished : Option FinishReason)
  | vocoding (endToken : Int) (isFinal : Bool) (site : Site)
  | emitting (samples : Nat) (audio : String) (isFinal : Bool) (site : Site)
  | joining
  | probing
  /-- At the look at the decode error and the channel. -/
  | deciding
  /-- Not cancelled: the checks before the remaining audio. -/
  | checking
  | flushing (lastWasFinal : Bool)
  | oneShot
  | saving
  | concluding (ending : Ending)
  /-- In the exception handler: about to cancel the channel, then to join. -/
  | unwinding (what : String)
  | unwound (what : String)
  | finished
  deriving DecidableEq, Repr

/-- The decode thread. -/
inductive Decoder where
  /-- Not started, or joined. -/
  | absent
  | running
  /-- It failed and is about to cancel the channel. -/
  | cancelling
  | returned
  deriving DecidableEq, Repr

/-- The locals of `processRequest`. -/
structure State where
  control : Control
  decoder : Decoder := .absent
  options : Option Options := none
  decodeErr : String := ""
  globalTokens : List Int := []
  semantic : List Int := []
  dVectorReady : Bool := false
  echoedGlobal : Nat := 0
  semanticSkipped : Nat := 0
  rawHead : List Int := []
  emittedTokens : Nat := 0
  semanticTruncated : Bool := false
  finalReason : FinishReason := .named "not_finished"
  chunkState : ChunkStreamState := {}
  /-- `wavAccum.size()`, later `wav.size()`. -/
  samples : Nat := 0
  /-- The encoding of the whole audio, where the `done` event carries it. -/
  audio : String := ""
  deriving DecidableEq, Repr

/-- What the calls of one step return. -/
structure Answer where
  throws : Option String := none
  /-- What `waitPop` returns. -/
  chunk : Option StreamChunk := none
  /-- The reason of a channel found finished or cancelled without a chunk. -/
  channelFinished : Bool := false
  reason : FinishReason := .named "stop"
  /-- Samples `runBicodec` returns, and their encoding. -/
  samples : Nat := 0
  audio : String := ""
  saved : Bool := true
  /-- Readings of the clock and other floating-point numbers of an event. -/
  numbers : List (String × Json) := []
  deriving DecidableEq, Repr

/-- Whose step it is. -/
inductive Input where
  | request (a : Answer)
  | decoder (throws : Option String)
  deriving DecidableEq, Repr

/-- The field that carries a request's id. -/
def tag (id : String) : List (String × Json) := [("id", .str id)]

def failure (id what : String) : Json :=
  event "error" (tag id ++ [("ok", .bool false), ("error", .str what)])

namespace State

def refSemanticEcho (o : Options) : Nat := if o.isClone then o.cloneRefSemantic.length else 0

/-- Sort one token of the stream. -/
def sortToken (o : Options) (st : State) (tid : Int) : State :=
  let st := { st with
    rawHead := if st.rawHead.length < 40 then st.rawHead ++ [tid] else st.rawHead
    emittedTokens := st.emittedTokens + 1 }
  if kGlobalIdBase ≤ tid ∧ tid ≤ kGlobalIdEnd then
    if o.isClone then { st with echoedGlobal := st.echoedGlobal + 1 }
    else if st.globalTokens.length < 32 then
      { st with globalTokens := st.globalTokens ++ [tid - kGlobalIdBase] }
    else st
  else if kSemanticIdBase ≤ tid ∧ tid ≤ kSemanticIdEnd then
    if o.isClone ∧ st.semanticSkipped < refSemanticEcho o then
      { st with semanticSkipped := st.semanticSkipped + 1 }
    else if (st.semantic.length : Int) < o.maxSemantic then
      { st with semantic := st.semantic ++ [tid - kSemanticIdBase] }
    else { st with semanticTruncated := true }
  else st

/-- The tokens the next chunk takes. -/
def want (o : Options) (st : State) : Nat :=
  if st.chunkState.chunkIndex = 0 then o.firstChunkTokens else o.chunkTokens

/-- Where the next chunk of the remaining audio ends. -/
def endToken (o : Options) (st : State) : Int :=
  min (st.semantic.length : Int) (int32 (st.chunkState.emittedTokens + st.want o))

/-- The end of the token loop's body. -/
def afterChunk (st : State) : Option FinishReason → State
  | some reason => { st with finalReason := reason, control := .joining }
  | none => { st with control := .waiting }

/-- `vocodeChunkWindow`, for a vocoder that returned `full` samples: the samples
of the left overlap are dropped, and a window without any other samples moves nothing. -/
def vocodeChunkWindow (o : Options) (st : ChunkStreamState) (endToken full : Nat) :
    Nat × ChunkStreamState :=
  let windowStart := st.emittedTokens - o.leftOverlap
  let skipSamples := (st.emittedTokens - windowStart) * kUpsamplePerToken
  if full ≤ skipSamples then (0, st)
  else (full - skipSamples, { st with emittedTokens := endToken })

/-- Where a chunk's emission returns to. -/
def afterEmit (st : State) (isFinal : Bool) : Site → State
  | .live finished => st.afterChunk finished
  | .flush => { st with control := .flushing isFinal }
  | .marker => { st with control := .saving }

end State

def progressEvent (id : String) (o : Options) (st : State) (numbers : List (String × Json)) : Json :=
  event "token_progress" (tag id ++ [("ok", .bool true), ("stage", .str "d_vector_ready")] ++
    (if o.isClone then [("mode", .str "clone"), ("n_global", .int 32),
        ("ref_semantic_echo", .int (State.refSemanticEcho o))]
      else [("n_global", .int 32), ("n_semantic", .int st.semantic.length)]) ++ numbers)

def chunkEvent (id : String) (o : Options) (st : State) (samples : Nat) (audio : String)
    (isFinal : Bool) (numbers : List (String × Json)) : Json :=
  event "chunk" (tag id ++ [("ok", .bool true), ("chunk_index", .int st.chunkState.chunkIndex),
    ("samples", .int samples), ("sample_rate", .int 16000), ("is_final", .bool isFinal)] ++
    (if o.chunkTransport = "base64" then [("audio_b64", .str audio)] else []) ++
    [("bytes", .int (2 * samples))] ++ numbers)

def rawHeadEvent (id : String) (o : Options) (st : State) : Json :=
  event "raw_head" (tag id ++ [("mode", .str o.mode), ("global_base", .int kGlobalIdBase),
    ("semantic_base", .int kSemanticIdBase), ("echoed_global", .int st.echoedGlobal),
    ("ref_semantic_echo", .int (State.refSemanticEcho o)),
    ("semantic_skipped", .int st.semanticSkipped), ("token_ids", .arr (st.rawHead.map .int))])

/-- The terminal event of an ending. -/
def Ending.event (c : Config) (id : String) (o : Option Options) (st : State)
    (numbers : List (String × Json)) : Ending → Json
  | .decodeFailed what => failure id ("LLM decode failed: " ++ what)
  | .cancelled => Protocol.event "cancelled" (tag id ++ [("ok", .bool true),
      ("reason", .str "cancelled"), ("n_global", .int st.globalTokens.length),
      ("n_semantic", .int st.semantic.length), ("tokens_decoded", .int st.emittedTokens)] ++ numbers)
  | .error what => failure id what
  | .done =>
      match o with
      | none => Protocol.event "done" (tag id)
      | some o => Protocol.event "done" (tag id ++ [("ok", .bool true),
          ("frames", .int st.semantic.length), ("mode", .str o.mode),
          ("echoed_global", .int st.echoedGlobal),
          ("ref_semantic_echo", .int (State.refSemanticEcho o)),
          ("semantic_skipped", .int st.semanticSkipped),
          ("n_global", .int st.globalTokens.length), ("tokens_decoded", .int st.emittedTokens),
          ("streamed", .bool o.streamAudio), ("chunk_count", .int st.chunkState.chunkIndex),
          ("semantic_truncated", .bool st.semanticTruncated),
          ("finish_reason", .str (finishReasonName st.finalReason)),
          ("samples", .int st.samples), ("sample_rate", .int c.sampleRate)] ++ numbers ++
          [("output_file", .str o.outputFile)] ++
          if o.chunkTransport = "base64" ∧ o.streamAudio = false then
            [("audio_b64", .str st.audio), ("bytes", .int (2 * st.samples))]
          else [])

/-- An exception leaves the part that can throw. -/
def State.fail (st : State) (what : String) : State := { st with control := .unwinding what }

/-- One step of the slot's thread inside `processRequest`; `cancelled` is the
state of the request's channel. -/
def requestStep (c : Config) (item : Json) (id : String) (cancelled : Bool) (a : Answer)
    (st : State) : Option (State × Action) :=
  match st.control with
  | .building =>
      match buildRequest item id with
      | .error what => some (st.fail what, .none)
      | .ok o => some ({ st with control := .spawning, options := some o }, .none)
  | .spawning =>
      match a.throws, st.options with
      | some what, _ => some (st.fail what, .none)
      | none, some o => some ({ st with
          decoder := .running
          globalTokens := if o.isClone then o.cloneGlobal else []
          control := if o.isClone then .profiling else .waiting }, .none)
      | none, none => none
  | .profiling =>
      match a.throws, st.options with
      | some what, _ => some (st.fail what, .none)
      | none, some o => some ({ st with
          dVectorReady := true
          control := if o.emitTokenProgress then .announcing else .waiting }, .none)
      | none, none => none
  | .announcing =>
      st.options.map fun o => ({ st with control := .waiting }, .emit (progressEvent id o st a.numbers))
  | .waiting =>
      match st.options, a.chunk with
      | some o, some chunk =>
          let sorted := chunk.tokenIds.foldl (State.sortToken o) st
          some ({ sorted with control := .sorted chunk.finished }, .none)
      | some _, none =>
          if a.channelFinished || cancelled then
            some ({ st with finalReason := a.reason, control := .joining }, .none)
          else some (st, .none)
      | none, _ => none
  | .sorted finished =>
      match st.options with
      | none => none
      | some o =>
          if !st.dVectorReady && st.globalTokens.length = 32 then
            match a.throws with
            | some what => some (st.fail what, .none)
            | none => some ({ st with
                dVectorReady := true
                control := if o.emitTokenProgress then .progress finished else .chunking finished },
                .none)
          else some ({ st with control := .chunking finished }, .none)
  | .progress finished =>
      st.options.map fun o =>
        ({ st with control := .chunking finished }, .emit (progressEvent id o st a.numbers))
  | .chunking finished =>
      match st.options with
      | none => none
      | some o =>
          if o.streamAudio && st.dVectorReady &&
              decide (st.want o ≤ st.semantic.length - st.chunkState.emittedTokens) then
            some ({ st with
              control := .vocoding ((st.chunkState.emittedTokens + st.want o : Nat) : Int) false
                (.live finished) }, .none)
          else some (st.afterChunk finished, .none)
  | .vocoding endToken isFinal site =>
      match st.options with
      | none => none
      | some o =>
          if endToken ≤ st.chunkState.emittedTokens then some (st.afterEmit isFinal site, .none)
          else match a.throws with
            | some what => some (st.fail what, .none)
            | none =>
                let (samples, chunkState) :=
                  State.vocodeChunkWindow o st.chunkState endToken.toNat a.samples
                some ({ st with
                  chunkState := chunkState
                  samples := st.samples + samples
                  control := .emitting samples a.audio isFinal site }, .none)
  | .emitting samples audio isFinal site =>
      match st.options with
      | none => none
      | some o =>
          if samples = 0 && !isFinal then some (st.afterEmit isFinal site, .none)
          else
            let counted := { st with chunkState := { st.chunkState with
              emittedSamples := st.chunkState.emittedSamples + samples
              chunkIndex := st.chunkState.chunkIndex + 1 } }
            some (counted.afterEmit isFinal site,
              .emit (chunkEvent id o st samples audio isFinal a.numbers))
  | .joining =>
      if st.decoder = .returned then
        match read (item.valueBool "emit_raw_head" false) with
        | .error what => some ({ st with decoder := .absent }.fail what, .none)
        | .ok probe => some ({ st with
            decoder := .absent
            control := if probe then .probing else .deciding }, .none)
      else none
  | .probing =>
      st.options.map fun o => ({ st with control := .deciding }, .emit (rawHeadEvent id o st))
  | .deciding =>
      if st.decodeErr ≠ "" then
        some ({ st with control := .concluding (.decodeFailed st.decodeErr) }, .none)
      else if st.finalReason = .cancelled || cancelled then
        some ({ st with control := .concluding .cancelled }, .none)
      else some ({ st with control := .checking }, .none)
  | .checking =>
      match st.options with
      | none => none
      | some o =>
          if st.globalTokens.length ≠ 32 then
            some (st.fail ("expected 32 global tokens, parsed " ++ toString st.globalTokens.length),
              .none)
          else if st.semantic = [] then some (st.fail "no semantic tokens parsed", .none)
          else match a.throws with
            | some what =>
                if st.dVectorReady then none else some (st.fail what, .none)
            | none => some ({ st with
                control := if o.streamAudio then .flushing false else .oneShot }, .none)
  | .flushing lastWasFinal =>
      match st.options with
      | none => none
      | some o =>
          let total := st.semantic.length
          if st.chunkState.emittedTokens < total then
            some ({ st with
              control := .vocoding (st.endToken o) (decide (total ≤ st.endToken o)) .flush }, .none)
          else if lastWasFinal then some ({ st with control := .saving }, .none)
          else some ({ st with control := .emitting 0 "" true .marker }, .none)
  | .oneShot =>
      match a.throws with
      | some what => some (st.fail what, .none)
      | none => some ({ st with samples := a.samples, audio := a.audio, control := .saving }, .none)
  | .saving =>
      match st.options with
      | none => none
      | some o =>
          if a.saved then some ({ st with control := .concluding .done }, .none)
          else some (st.fail ("failed to save WAV: " ++ o.outputFile), .none)
  | .concluding ending =>
      some ({ st with control := .finished }, .emit (ending.event c id st.options st a.numbers))
  | .unwinding what => some ({ st with control := .unwound what }, .raise)
  | .unwound what =>
      if st.decoder = .absent ∨ st.decoder = .returned then
        some ({ st with decoder := .absent, control := .concluding (.error what) }, .none)
      else none
  | .finished => none

/-- One step of the decode thread. -/
def decoderStep (throws : Option String) (st : State) : Option (State × Action) :=
  match st.decoder with
  | .absent | .returned => none
  | .running =>
      match throws with
      | some what => some ({ st with decoder := .cancelling, decodeErr := what }, .none)
      | none => some ({ st with decoder := .returned }, .none)
  | .cancelling => some ({ st with decoder := .returned }, .raise)

def step (c : Config) (item : Json) (id : String) (cancelled : Bool) :
    Input → State → Option (State × Action)
  | .request a, st => requestStep c item id cancelled a st
  | .decoder throws, st => decoderStep throws st

/-- The decode thread has been started. -/
def State.began (st : State) : Bool := st.control ≠ .building ∧ st.control ≠ .spawning

/-- The request has looked at its channel for the last time. -/
def State.decided (st : State) : Bool :=
  match st.control with
  | .checking | .flushing _ | .oneShot | .saving | .concluding _ | .finished => true
  | .vocoding _ _ site | .emitting _ _ _ site => site = .flush ∨ site = .marker
  | _ => false

/-- `processRequest` of the Spark worker. -/
def engine (c : Config) : Engine where
  State := State
  Input := Input
  tag := tag
  channel := true
  start := { control := .building }
  step := step c
  began := State.began
  decided := State.decided
  finished st := st.control = .finished

end JetsonVoice.Tts.Spark
