import JetsonVoice.Asr.SessionLaneManager
import JetsonVoice.Asr.Transcript
import JetsonVoice.Foundation.TransitionSystem

/-!
# The ASR streaming worker

The single-threaded stdin loop of the worker: `begin`, `chunk` and `end` events
on the session table, and the idle sweep between them.

## Implementation notes

A handler that throws ends the process, so handlers return `Except`. What the
worker does not compute itself during a call (the clock, the conversion of PCM
to an audio file, the recogniser, the prefix roll-back of the tokenizer) is the
`Host` of that call, and differs from call to call.
-/

namespace JetsonVoice.Asr

open Foundation

/-- Per-session accumulation and lane bookkeeping. -/
structure SessionState where
  laneId : Int := -1
  melPath : String := ""
  melPathOwned : String := ""
  pcmB64 : String := ""
  beginMeta : Json := .null
  lastActivity : Int := 0
  rawDecoded : String := ""
  chunkId : Nat := 0
  deriving DecidableEq, Repr

/-- One chunk-and-confirm hop of the prefix path. -/
structure HopOut where
  ok : Bool := false
  generated : String := ""
  totalMs : Json := .decimal 0 1
  error : String := ""
  deriving DecidableEq, Repr

/-- The answers of the outside world during one call. -/
structure Host where
  /-- `steady_clock::now()` in nanoseconds. -/
  now : Int
  /-- The 63-bit hash of a session id. -/
  sidToOwnerId : String → Int
  pcmInputSupported : Bool
  /-- Writes an audio file and returns its path, or throws. -/
  pcmB64ToMelSafetensors : (pcmB64 sid : String) → Except String String
  runOneShotCore : Json → Json
  /-- `OVS_ASR_STREAM_PREFIX`. -/
  streamPrefix : Bool
  /-- `OVS_ASR_STREAM_PREFIX_FINAL_ONESHOT`. -/
  finalOneShot : Bool
  computePrefix : SessionState → Bool → String
  /-- The prefix hop for a session id, its state, the confirmed prefix, and whether it is last. -/
  runPrefixHop : String → SessionState → String → Bool → HopOut

/-- The globals of the worker, its temporary audio files and what it wrote to stdout. -/
structure Worker where
  sessions : Table String SessionState
  laneMgr : SessionLaneManager
  maxSlots : Nat
  files : List String := []
  out : List Json := []
  deriving DecidableEq

/-- Sessions silent for longer than this are reaped, in milliseconds. -/
def kIdleTimeoutMs : Int := 30000

/-- The sampling knobs a `begin` records for the final request. -/
def metaKeys : List String := ["batch_size", "temperature", "top_p", "top_k", "max_generate_length"]

namespace Worker

variable (w : Worker)

def emit (event : Json) : Worker := { w with out := w.out ++ [event] }

def setSession (sid : String) (st : SessionState) : Worker :=
  { w with sessions := w.sessions.insert sid st }

/-- `std::filesystem::remove`, skipped for the empty path. -/
def removeFile (path : String) : Worker :=
  if path = "" then w else { w with files := w.files.filter (· ≠ path) }

def createFile (path : String) : Worker := { w with files := path :: w.files }

/-- Release a lane and drop the session that held it. -/
def dropSession (sid : String) (laneId : Int) : Worker :=
  { w with laneMgr := w.laneMgr.release laneId, sessions := w.sessions.erase sid }

end Worker

def errorEvent (sid error : String) (rest : List (String × Json)) : Json :=
  .obj ([("event", .str "error"), ("id", .str sid), ("ok", .bool false), ("error", .str error)]
    ++ rest)

/-- `begin`: reserve a lane, register the session, acknowledge. -/
def handleBegin (host : Host) (w : Worker) (input : Json) : Except Json.TypeError Worker := do
  let sid ← input.valueStr "id" ""
  if sid = "" then
    return w.emit (.obj [("event", .str "error"), ("ok", .bool false),
      ("error", .str "begin_missing_id")])
  match w.sessions.lookup sid with
  | some st =>
      -- A repeated begin acknowledges the lane the session already holds.
      return (w.setSession sid { st with lastActivity := host.now }).emit
        (.obj [("event", .str "begin_ack"), ("id", .str sid), ("lane", .int st.laneId)])
  | none =>
      let (lane, laneMgr) := w.laneMgr.acquire .kAsr (host.sidToOwnerId sid)
      let w := { w with laneMgr := laneMgr }
      if lane < 0 then
        return w.emit (errorEvent sid "pool_saturated"
          [("status", .int 4429), ("max_slots", .int w.maxSlots)])
      let beginMeta := metaKeys.foldl (fun acc k =>
        match input.field? k with
        | some v => acc.setField k v
        | none => acc) Json.null
      let st : SessionState :=
        { laneId := lane, lastActivity := host.now, beginMeta := beginMeta }
      return (w.setSession sid st).emit
        (.obj [("event", .str "begin_ack"), ("id", .str sid), ("lane", .int lane)])

/-- Fill in a request default that the begin metadata did not set. -/
def withDefault (req : Json) (key : String) (v : Json) : Json :=
  if req.contains key then req else req.setField key v

/-- The one-shot request envelope of a session's cumulative audio. -/
def buildFinalizeRequest (sid : String) (st : SessionState) : Json :=
  let req := if st.beginMeta.isObject then st.beginMeta else .obj []
  let req := withDefault req "batch_size" (.int 1)
  let req := withDefault req "temperature" (.decimal 10 1)
  let req := withDefault req "top_p" (.decimal 10 1)
  let req := withDefault req "top_k" (.int 1)
  let req := withDefault req "max_generate_length" (.int 256)
  let req := req.setField "id" (.str sid)
  let content : List Json :=
    if st.melPath = "" then []
    else [.obj [("type", .str "audio"), ("audio", .str st.melPath)]]
  req.setField "requests" (.arr [.obj
    [("messages", .arr [.obj [("role", .str "user"), ("content", .arr content)]]),
      ("reference", .str "ref")]])

/-- The audio descriptor an event carries: `mel_path` wins over `audio`. -/
def carriedMelPath? (input : Json) : Option String :=
  match input.str? "mel_path" with
  | some path => some path
  | none => input.str? "audio"

/-- Record the audio fields of an event in a session; the last one wins. -/
def recordAudio (input : Json) (st : SessionState) : SessionState :=
  let st := match carriedMelPath? input with
    | some path => { st with melPath := path }
    | none => st
  match input.str? "pcm_b64" with
  | some pcm => { st with pcmB64 := pcm }
  | none => st

/-- Replace the owned audio file of a session by one made from its PCM. The old
file is removed first, so a failed conversion leaves its path behind. -/
def convertPcm (host : Host) (w : Worker) (sid : String) (st : SessionState) :
    Worker × Except String SessionState :=
  let w := w.removeFile st.melPathOwned
  match host.pcmB64ToMelSafetensors st.pcmB64 sid with
  | .ok path => (w.createFile path, .ok { st with melPathOwned := path, melPath := path })
  | .error what => (w, .error what)

/-- Fields of the core result copied into a `final` event. -/
def copyField (core : Json) (key : String) : List (String × Json) :=
  match core.field? key with
  | some v => [(key, v)]
  | none => []

/-- Re-shape a core result into a streaming `final`. -/
def finalFromCore (sid : String) (core : Json) : Except Json.TypeError Json := do
  let ok ← core.valueBool "ok" false
  return .obj ([("event", .str "final"), ("id", .str sid), ("ok", .bool ok)]
    ++ copyField core "responses"
    ++ (if ok then [("text", .str (transcriptFromCore core))] else [])
    ++ copyField core "total_ms" ++ copyField core "error")

/-- The `final` of the last prefix hop. -/
def finalFromHop (sid pre : String) (hop : HopOut) : Json :=
  let finalRaw := pre ++ hop.generated
  .obj ([("event", .str "final"), ("id", .str sid), ("ok", .bool hop.ok)]
    ++ (if hop.ok then
      [("responses", .arr [.obj [("request_idx", .int 0), ("batch_idx", .int 0),
          ("output_text", .str finalRaw)]]),
        ("text", .str (stripLangTag finalRaw))] else [])
    ++ [("total_ms", hop.totalMs)]
    ++ (if hop.error = "" then [] else [("error", .str hop.error)]))

/-- The event that finalises a session whose audio is in place. -/
def finalize (host : Host) (sid : String) (st : SessionState) : Except Json.TypeError Json :=
  if st.melPath = "" then .ok (errorEvent sid "no_audio_accumulated" [])
  else if host.streamPrefix && !host.finalOneShot then
    let pre := host.computePrefix st true
    .ok (finalFromHop sid pre (host.runPrefixHop sid st pre true))
  else finalFromCore sid (host.runOneShotCore (buildFinalizeRequest sid st))

/-- Put the final audio of a session in place, from the audio it has and what
the event itself carries. -/
def endAudio (host : Host) (w : Worker) (sid : String) (input : Json) (held : SessionState) :
    Worker × SessionState × Except Json Unit :=
  let st := recordAudio input held
  if (input.str? "pcm_b64").isSome then
    if host.pcmInputSupported then
      match convertPcm host w sid st with
      | (w, .ok st) => (w, st, .ok ())
      | (w, .error what) => (w, { st with melPath := "" },
          .error (errorEvent sid "pcm_to_mel_failed" [("detail", .str what)]))
    else (w, st, .error (errorEvent sid "pcm_input_unsupported"
      [("hint", .str "worker started without --melSettings/--melFilters")]))
  else (w, st, .ok ())

/-- `end` and `last:true`: finalise, release the lane, drop the session. -/
def handleEnd (host : Host) (w : Worker) (input : Json) : Except Json.TypeError Worker := do
  let sid ← input.valueStr "id" ""
  match w.sessions.lookup sid with
  | none => return w.emit (errorEvent sid "unknown_session" [])
  | some held =>
      let (w, st, converted) := endAudio host w sid input held
      let finalEv ← match converted with
        | .error ev => .ok ev
        | .ok _ => finalize host sid st
      -- Both the file of the stored session and one made just now are removed.
      let w := (w.removeFile held.melPathOwned).removeFile st.melPathOwned
      return (w.dropSession sid st.laneId).emit finalEv

/-- A partial, or the non-fatal error of an intermediate hop. -/
def partialFromCore (sid : String) (core : Json) : Except Json.TypeError Json := do
  if ← core.valueBool "ok" false then
    return .obj [("event", .str "partial"), ("id", .str sid),
      ("text", .str (transcriptFromCore core))]
  else
    return errorEvent sid "partial_decode_failed" (match core.field? "error" with
      | some e => [("detail", e)]
      | none => [])

/-- Decode the audio a session has so far and emit the hop's event. -/
def decodePartial (host : Host) (w : Worker) (sid : String) (st : SessionState) :
    Except Json.TypeError Worker := do
  if host.streamPrefix then
    let pre := host.computePrefix st false
    let hop := host.runPrefixHop sid st pre false
    if hop.ok then
      let st := { st with rawDecoded := pre ++ hop.generated, chunkId := st.chunkId + 1 }
      return (w.setSession sid st).emit (.obj [("event", .str "partial"), ("id", .str sid),
        ("text", .str (stripLangTag st.rawDecoded))])
    else
      return w.emit (errorEvent sid "partial_decode_failed"
        (if hop.error = "" then [] else [("detail", .str hop.error)]))
  else
    let ev ← partialFromCore sid (host.runOneShotCore (buildFinalizeRequest sid st))
    return w.emit ev

/-- `chunk`: record the cumulative audio, then finalise on `last:true` or
re-decode and emit a partial. -/
def handleChunk (host : Host) (w : Worker) (input : Json) : Except Json.TypeError Worker := do
  let sid ← input.valueStr "id" ""
  match w.sessions.lookup sid with
  | none => return w.emit (errorEvent sid "unknown_session" [])
  | some held =>
      let st := recordAudio input { held with lastActivity := host.now }
      let w := w.setSession sid st
      let isLast ← input.valueBool "last" false
      if isLast then
        handleEnd host w input
      else if st.pcmB64 = "" then
        if st.melPath = "" then
          return w.emit (.obj [("event", .str "chunk_ack"), ("id", .str sid)])
        else decodePartial host w sid st
      else if !host.pcmInputSupported then
        return w.emit (errorEvent sid "pcm_input_unsupported"
          [("hint", .str ("worker started without --melSettings/--melFilters; pass them or set "
            ++ "EDGE_LLM_ASR_MEL_\x7bSETTINGS,FILTERS\x7d"))])
      else
        match convertPcm host w sid st with
        | (w, .ok st) => decodePartial host (w.setSession sid st) sid st
        | (w, .error what) =>
            return w.emit (errorEvent sid "pcm_to_mel_failed" [("detail", .str what)])

/-- The sessions whose silence exceeds the threshold, with their lanes. -/
def idleSessions (w : Worker) (now : Int) : List (String × Int) :=
  w.sessions.entries.filterMap fun e =>
    if kIdleTimeoutMs < Int.tdiv (now - e.2.lastActivity) 1000000 then some (e.1, e.2.laneId)
    else none

/-- Reap one idle session. -/
def reap (w : Worker) (victim : String × Int) : Worker :=
  let w := match w.sessions.lookup victim.1 with
    | some st => w.removeFile st.melPathOwned
    | none => w
  (w.dropSession victim.1 victim.2).emit (.obj [("event", .str "timeout"),
    ("id", .str victim.1), ("ok", .bool false), ("error", .str "idle_timeout"),
    ("idle_ms", .int kIdleTimeoutMs)])

/-- The idle sweep collects its victims first and reaps them in turn. -/
def sweepIdleSessions (w : Worker) (now : Int) : Worker :=
  (idleSessions w now).foldl reap w

/-- Dispatch one parsed stdin line; a line without `event` is a one-shot request. -/
def dispatchLine (host : Host) (w : Worker) (parsed : Json) : Except Json.TypeError Worker := do
  if !parsed.contains "event" then
    return w.emit (host.runOneShotCore parsed)
  let event ← parsed.valueStr "event" ""
  if event = "begin" then handleBegin host w parsed
  else if event = "chunk" then handleChunk host w parsed
  else if event = "end" then handleEnd host w parsed
  else
    let evId ← parsed.valueStr "id" ""
    return w.emit (.obj ([("event", .str "error"), ("ok", .bool false),
      ("error", .str "unknown_event"), ("received", .str event)]
        ++ (if evId = "" then [] else [("id", .str evId)])))

/-- Startup: the ASR lanes are the requested slots clamped to the engine's batch. -/
def Worker.init (physBatch maxSlots : Int) : Except String Worker :=
  let asrMax := max 1 (min maxSlots physBatch)
  (SessionLaneManager.create physBatch asrMax 0).map fun laneMgr =>
    { sessions := ∅, laneMgr := laneMgr, maxSlots := asrMax.toNat }

/-- What the stdin loop does next: handle a line, refuse one that does not
parse, or sweep. -/
inductive Label where
  | line (host : Host) (parsed : Json)
  | malformed (what : String)
  | sweep (now : Int)

/-- The stdin loop; a line whose handler throws has no successor state. -/
def system (w₀ : Worker) : TransitionSystem Worker Label where
  start := w₀
  step w
    | .line host parsed => (dispatchLine host w parsed).toOption
    | .malformed what => some (w.emit (.obj [("event", .str "error"), ("ok", .bool false),
        ("error", .str ("json_parse_failed: " ++ what))]))
    | .sweep now => some (sweepIdleSessions w now)

end JetsonVoice.Asr
