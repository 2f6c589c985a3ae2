import JetsonVoice.Protocol.Events
import Mathlib.Data.List.Basic

/-!
# Handling one request in the MOSS worker

`handleRequest` as a sequence of steps. A step ends where another thread can
interfere: at a look at the cancel flag, at an emitted line, and where a runtime
slot is taken or given back.

## Implementation notes

The runtime calls, the tokenizer and the clock answer through an `Answer`, one
for each step. An exception of a call carries its text. Of the prompt and of the
frames only the counts matter, since the budgets are computed from them.
-/

namespace JetsonVoice.Moss

open Foundation Protocol

/-- The arguments of the process and what it read from its configuration files. -/
structure Config where
  maxSlots : Nat
  maxSlots_pos : 0 < maxSlots
  codecSampleRate : Int
  codecChannels : Int
  /-- The sample rate of the voice-clone encoder. -/
  encoderSampleRate : Int
  userPromptPrefix : Nat
  userPromptAfterReference : Nat
  assistantPromptPrefix : Nat
  defaultVoiceRows : Nat

/-- What the calls made in one step return. -/
structure Answer where
  /-- The text of the exception, when the call throws. -/
  throws : Option String := none
  /-- Rows of an encoded reference voice; an encoder failure is caught. -/
  refRows : Option Nat := none
  textTokens : Nat := 0
  /-- Whether `sampleFrame` produced a frame. -/
  continues : Bool := true
  /-- Samples `decodeFrames` appended, and their encoding. -/
  samples : Nat := 0
  audio : String := ""
  now : Int := 0

/-- The codec decodes at most this many frames in one batch. -/
def kCodecMaxFramesPerBatch : Int := 8

/-- The longest past the decode engine accepts. -/
def kKvProfileMaxPast : Int := 512

/-- Milliseconds between two readings of the clock, in nanoseconds. -/
def elapsedMs (a b : Int) : Int := Int.tdiv (b - a) 1000000

/-- The checks at the top of `handleRequest`, in the order it makes them. -/
def validate (item : Json) : Except String Unit := do
  let stream ← read (item.valueBool "stream" true)
  let streamOnly ← if stream then read (item.valueBool "stream_only" true) else pure false
  if !streamOnly then
    throw "Worker only supports stream=true, stream_only=true"
  let transport ← read (item.valueStr "chunk_transport" "base64")
  if transport ≠ "base64" then
    throw "Worker only supports chunk_transport=base64"
  let format ← read (item.valueStr "chunk_format" "pcm_s16le")
  if format ≠ "pcm_s16le" then
    throw "Worker only supports chunk_format=pcm_s16le"
  let text ← read (item.valueStr "text" "")
  if text = "" then
    throw "text must not be empty"

/-- Rows of the voice condition: the encoded reference, or the default voice
where there is none or its encoding failed. -/
def referenceRows (c : Config) (item : Json) (encoded : Option Nat) : Nat :=
  let rows :=
    match item.str? "ref_audio_b64" with
    | some b64 =>
        if b64 = "" then 0
        else match item.valueInt "ref_audio_sample_rate" c.encoderSampleRate with
          | .ok _ => encoded.getD 0
          | .error _ => 0
    | none => 0
  if rows = 0 then c.defaultVoiceRows else rows

/-- The number of rows `buildInputIds` lays out. -/
def promptRows (c : Config) (refRows textTokens : Nat) : Nat :=
  c.userPromptPrefix + 1 + refRows + 1 + c.userPromptAfterReference + textTokens
    + c.assistantPromptPrefix + 1

/-- The locals of the frame loop. -/
structure Generation where
  slot : Nat
  firstChunkBudget : Int
  chunkBudget : Int
  maxNewFrames : Nat
  frameIdx : Nat := 0
  chunkIdx : Nat := 0
  /-- `frameBuffer.size()`. -/
  buffered : Nat := 0
  /-- `pcmOut.size()`. -/
  samples : Nat := 0
  emittedSamples : Nat := 0
  ttfaMs : Int := -1
  deriving DecidableEq, Repr

/-- The budgets a request sets, read once its slot is held. -/
def readBudgets (item : Json) (slot rows : Nat) : Except String Generation := do
  let first ← read (item.valueInt "first_chunk_frames" 4)
  let chunk ← read (item.valueInt "chunk_frames" 8)
  let decodeBudget := max 0 (kKvProfileMaxPast - rows)
  let maxNew ← read (item.valueInt "max_new_frames" 1000)
  return {
    slot := slot
    firstChunkBudget := max 1 (min first kCodecMaxFramesPerBatch)
    chunkBudget := max 1 (min chunk kCodecMaxFramesPerBatch)
    maxNewFrames := (min (max 1 maxNew) decodeBudget).toNat }

/-- The frames that make `flushBuffer` decode without being forced. -/
def Generation.budget (g : Generation) : Int :=
  if g.chunkIdx = 0 then g.firstChunkBudget else g.chunkBudget

/-- The buffered frames decoded, at the time the decode returned. -/
def Generation.decoded (g : Generation) (t0 : Int) (a : Answer) : Generation :=
  { g with
    buffered := 0
    samples := g.samples + a.samples
    ttfaMs := if g.ttfaMs < 0 then elapsedMs t0 a.now else g.ttfaMs }

/-- A decoded chunk emitted. -/
def Generation.emitted (g : Generation) : Generation :=
  { g with emittedSamples := g.samples, chunkIdx := g.chunkIdx + 1 }

def readyEvent (c : Config) (id : String) : Json :=
  event "ready" [("id", .str id), ("ok", .bool true), ("sample_rate", .int c.codecSampleRate),
    ("channels", .int c.codecChannels)]

def cancelledBeforeStart (id : String) : Json :=
  event "cancelled" [("id", .str id), ("ok", .bool true),
    ("reason", .str "cancelled_before_start")]

def chunkEvent (id : String) (g : Generation) (audio : String) : Json :=
  event "chunk" [("id", .str id), ("ok", .bool true), ("audio_b64", .str audio),
    ("frame_index", .int g.chunkIdx), ("samples", .int (g.samples - g.emittedSamples : Nat))]

/-- How `handleRequest` returns normally. -/
inductive Ending where
  | beforeStart
  | cancelled (g : Generation) (now : Int)
  | done (g : Generation) (now : Int)
  deriving DecidableEq, Repr

/-- The terminal event of a normal return. -/
def Ending.event (id : String) (t0 : Int) : Ending → Json
  | .beforeStart => cancelledBeforeStart id
  | .cancelled g now => Protocol.event "cancelled"
      [("id", .str id), ("ok", .bool true), ("reason", .str "cancelled"),
        ("frames", .int g.frameIdx), ("chunks", .int g.chunkIdx),
        ("wall_ms", .int (elapsedMs t0 now))]
  | .done g now => Protocol.event "done"
      [("id", .str id), ("ok", .bool true), ("total_samples", .int g.samples),
        ("ttfa_ms", .int g.ttfaMs), ("wall_ms", .int (elapsedMs t0 now))]

/-- The slot still held when the terminal event is emitted. -/
def Ending.slot? : Ending → Option Nat
  | .beforeStart => none
  | .cancelled g _ | .done g _ => some g.slot

/-- Where a thread stands in a request. -/
inductive Phase where
  /-- Before the request checks and the first look at the flag. -/
  | start
  /-- About to emit `ready`. -/
  | announce
  | preprocess
  /-- Waiting for a runtime slot. -/
  | acquire (rows : Nat)
  /-- Resetting the codec, reading the budgets, prefilling. -/
  | prepare (rows slot : Nat)
  /-- At the head of the frame loop. -/
  | poll (g : Generation)
  | sample (g : Generation)
  /-- At `flushBuffer(false)`. -/
  | flush (g : Generation)
  /-- About to emit a chunk of the loop, or the last chunk of all. -/
  | chunk (g : Generation) (last : Bool) (audio : String)
  /-- After the flush of the loop. -/
  | advance (g : Generation)
  /-- At the look at the flag after the loop. -/
  | tail (g : Generation)
  /-- At `flushBuffer(true)`. -/
  | lastFlush (g : Generation)
  /-- About to emit the terminal event of a normal return. -/
  | conclude (ending : Ending)
  /-- Returned normally with the slot still held. -/
  | leave (slot : Nat)
  /-- An exception passes the guard of the slot. -/
  | unwind (what : String) (slot : Nat)
  /-- In the handler of the exception. -/
  | report (what : String)
  /-- About to take the request out of the controls. -/
  | finish
  deriving DecidableEq, Repr

/-- What a step of a request does to the state shared by the threads. -/
inductive Effect where
  | none
  | emit (e : Json)
  | take
  /-- A slot was popped, and clearing it threw. -/
  | lose
  | release (slot : Nat)
  deriving DecidableEq, Repr

/-- One step of `handleRequest` and of the handlers around it. `cancelled` is
the flag as it is now, `free` the last free slot. -/
def handle (c : Config) (item : Json) (id : String) (t0 : Int) (cancelled : Bool)
    (free : Option Nat) (a : Answer) : Phase → Option (Phase × Effect)
  | .start =>
      match validate item with
      | .error what => some (.report what, .none)
      | .ok _ =>
          if cancelled then some (.conclude .beforeStart, .none)
          else some (.announce, .none)
  | .announce => some (.preprocess, .emit (readyEvent c id))
  | .preprocess =>
      match a.throws with
      | some what => some (.report what, .none)
      | none => some (.acquire (promptRows c (referenceRows c item a.refRows) a.textTokens), .none)
  | .acquire rows =>
      match free, a.throws with
      | none, _ => none
      | some _, some what => some (.report what, .lose)
      | some slot, none => some (.prepare rows slot, .take)
  | .prepare rows slot =>
      match a.throws, readBudgets item slot rows with
      | some what, _ => some (.unwind what slot, .none)
      | none, .error what => some (.unwind what slot, .none)
      | none, .ok g => some (.poll g, .none)
  | .poll g =>
      if g.frameIdx < g.maxNewFrames then
        if cancelled then some (.tail g, .none) else some (.sample g, .none)
      else some (.tail g, .none)
  | .sample g =>
      match a.throws with
      | some what => some (.unwind what g.slot, .none)
      | none =>
          if a.continues then some (.flush { g with buffered := g.buffered + 1 }, .none)
          else some (.tail g, .none)
  | .flush g =>
      if (g.buffered : Int) < g.budget ∨ g.buffered = 0 then some (.advance g, .none)
      else match a.throws with
        | some what => some (.unwind what g.slot, .none)
        | none => some (.chunk (g.decoded t0 a) false a.audio, .none)
  | .chunk g last audio =>
      if last then
        some (.conclude (.done g.emitted a.now), .emit (chunkEvent id g audio))
      else some (.advance g.emitted, .emit (chunkEvent id g audio))
  | .advance g =>
      if g.maxNewFrames ≤ g.frameIdx + 1 then some (.tail g, .none)
      else match a.throws with
        | some what => some (.unwind what g.slot, .none)
        | none => some (.poll { g with frameIdx := g.frameIdx + 1 }, .none)
  | .tail g =>
      if cancelled then some (.conclude (.cancelled g a.now), .none)
      else some (.lastFlush g, .none)
  | .lastFlush g =>
      if g.buffered = 0 then some (.conclude (.done g a.now), .none)
      else match a.throws with
        | some what => some (.unwind what g.slot, .none)
        | none => some (.chunk (g.decoded t0 a) true a.audio, .none)
  | .conclude ending =>
      match ending.slot? with
      | none => some (.finish, .emit (ending.event id t0))
      | some slot => some (.leave slot, .emit (ending.event id t0))
  | .leave slot => some (.finish, .release slot)
  | .unwind what slot => some (.report what, .release slot)
  | .report what => some (.finish, .emit (errorEvent id what []))
  | .finish => none

end JetsonVoice.Moss
