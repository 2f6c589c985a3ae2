import JetsonVoice.Asr.Worker
import JetsonVoice.Protocol.Events

/-!
# The one-shot core

One engine step: parse the `requests` payload, run every batch, and assemble
the response. Everything in it that throws is caught, so the core answers every
request with an object that says whether it succeeded.

## Implementation notes

The offline paths of the core (`OVS_ASR_SESSION_PATH`, `OVS_ASR_STREAM_DELTA`),
which are off by default, are left out.
-/

namespace JetsonVoice.Asr

open Foundation Protocol

/-- What the request parser and the engine answer during one call. -/
structure Runtime where
  /-- Writes a request to a temporary file and parses it: the sizes of its
  batches, or the text of the exception. -/
  parseRequestFile : (input : Json) → (id : String) →
    (batchSizeOverride maxGenerateLengthOverride : Int) → Except String (List Nat)
  /-- Whether a batch was handled, and its output texts. -/
  handleRequest : (requestIdx : Nat) → Except String (Bool × List String)
  totalMs : Json

/-- The text that stands for an output the engine did not give. -/
def cannotHandle : String := "TensorRT Edge LLM cannot handle this request. Fails."

/-- The entries of one batch. -/
def batchResponses (requestIdx size : Nat) (requestOk : Bool) (outputTexts : List String) :
    List Json :=
  (List.range size).map fun (batchIdx : Nat) =>
    let text := if requestOk then outputTexts[batchIdx]?.getD cannotHandle else cannotHandle
    .obj [("request_idx", .int requestIdx), ("batch_idx", .int batchIdx),
      ("output_text", .str text)]

/-- Run the batches in order; the first exception ends the request. -/
def handleBatches (rt : Runtime) : (requestIdx : Nat) → List Nat → Except String (Bool × List Json)
  | _, [] => .ok (true, [])
  | requestIdx, size :: rest => do
      let (requestOk, outputTexts) ← rt.handleRequest requestIdx
      let (ok, responses) ← handleBatches rt (requestIdx + 1) rest
      return (requestOk && ok, batchResponses requestIdx size requestOk outputTexts ++ responses)

/-- The body of the core's `try` block. -/
def oneShotResponse (rt : Runtime) (input : Json) : Except String Json := do
  let id ← read (input.valueStr "id" "")
  let input := input.eraseField "id"
  let batchSizeOverride ← read (input.valueInt "batch_size_override" (-1))
  let maxGenerateLengthOverride ← read (input.valueInt "max_generate_length_override" (-1))
  let input := (input.eraseField "batch_size_override").eraseField "max_generate_length_override"
  let batchedRequests ←
    rt.parseRequestFile input id batchSizeOverride maxGenerateLengthOverride
  if batchedRequests = [] then throw "No valid ASR requests found"
  let (ok, responses) ← handleBatches rt 0 batchedRequests
  return .obj [("id", .str id), ("event", .str (if ok then "done" else "error")), ("ok", .bool ok),
    ("responses", .arr responses), ("total_ms", rt.totalMs)]

def runOneShotCore (rt : Runtime) (input : Json) : Json :=
  match oneShotResponse rt input with
  | .ok response => response
  | .error what => .obj [("event", .str "error"), ("ok", .bool false), ("error", .str what)]

/-- A response of the `try` block is an object with a Boolean `ok`. -/
theorem oneShotResponse_ok {rt : Runtime} {input response : Json}
    (h : oneShotResponse rt input = .ok response) : ∃ ok, response.field? "ok" = some (.bool ok) ∧
      response.isObject = true := by
  unfold oneShotResponse at h
  simp only [bind_eq_ok] at h
  obtain ⟨id, -, batchSize, -, maxLength, -, batched, -, h⟩ := h
  split at h
  · cases h
  · obtain ⟨⟨ok, responses⟩, -, h⟩ := bind_eq_ok.mp h
    cases h
    exact ⟨ok, rfl, rfl⟩

/-- The core says of every request whether it succeeded. -/
theorem runOneShotCore_ok (rt : Runtime) (input : Json) :
    ∃ ok, (runOneShotCore rt input).valueBool "ok" false = .ok ok := by
  rw [Json.valueBool_ok_iff, runOneShotCore]
  split
  · rename_i response h
    obtain ⟨ok, hok, hobj⟩ := oneShotResponse_ok h
    refine ⟨hobj, ?_⟩
    intro v hv
    exact ⟨ok, Option.some.inj (hv.symm.trans hok)⟩
  · refine ⟨rfl, ?_⟩
    intro v hv
    exact ⟨false, (Option.some.inj hv).symm⟩

/-- The host of a call whose core runs on this runtime. -/
def Host.serving (host : Host) (rt : Runtime) : Host :=
  { host with runOneShotCore := Asr.runOneShotCore rt }

/-- A parsed line the dispatch handles without a typed access that throws: one
without an event, or an event whose fields have the types its handler reads. -/
def Accepts (w : Worker) (parsed : Json) : Prop :=
  parsed.contains "event" = true → ∃ event, parsed.str? "event" = some event ∧
    parsed.OptStr "id" ∧ (event = "chunk" → ∀ sid, parsed.valueStr "id" "" = .ok sid →
      (w.sessions.lookup sid).isSome = true → parsed.OptBool "last")

section Handlers
variable (host : Host) (rt : Runtime) {w : Worker} {input : Json} {sid : String}
  {st : SessionState}

theorem finalize_ok (sid : String) (st : SessionState) :
    ∃ ev, finalize (host.serving rt) sid st = .ok ev := by
  unfold finalize
  split
  · exact ⟨_, rfl⟩
  · split
    · exact ⟨_, rfl⟩
    · obtain ⟨ok, hok⟩ := runOneShotCore_ok rt (buildFinalizeRequest sid st)
      exact ⟨_, bind_eq_ok.mpr ⟨ok, hok, rfl⟩⟩

theorem partialFromCore_ok (sid : String) (req : Json) :
    ∃ ev, partialFromCore sid (runOneShotCore rt req) = .ok ev := by
  unfold partialFromCore
  obtain ⟨ok, hok⟩ := runOneShotCore_ok rt req
  cases ok with
  | true => exact ⟨_, bind_eq_ok.mpr ⟨true, hok, rfl⟩⟩
  | false => exact ⟨_, bind_eq_ok.mpr ⟨false, hok, rfl⟩⟩

theorem decodePartial_ok (w : Worker) (sid : String) (st : SessionState) :
    ∃ w', decodePartial (host.serving rt) w sid st = .ok w' := by
  unfold decodePartial
  split
  · dsimp only
    split
    · exact ⟨_, rfl⟩
    · exact ⟨_, rfl⟩
  · obtain ⟨ev, hev⟩ := partialFromCore_ok rt sid (buildFinalizeRequest sid st)
    exact ⟨_, bind_eq_ok.mpr ⟨ev, hev, rfl⟩⟩

theorem handleBegin_ok (w : Worker) (hid : input.valueStr "id" "" = .ok sid) :
    ∃ w', handleBegin host w input = .ok w' := by
  simp only [handleBegin, hid, bind, Except.bind, pure, Except.pure]
  split
  · exact ⟨_, rfl⟩
  · split
    · exact ⟨_, rfl⟩
    · split
      · exact ⟨_, rfl⟩
      · exact ⟨_, rfl⟩

theorem handleEnd_ok (w : Worker) (hid : input.valueStr "id" "" = .ok sid) :
    ∃ w', handleEnd (host.serving rt) w input = .ok w' := by
  simp only [handleEnd, hid, bind, Except.bind, pure, Except.pure]
  cases w.sessions.lookup sid with
  | none => exact ⟨_, rfl⟩
  | some held =>
      obtain ⟨ev, hev⟩ :=
        finalize_ok host rt sid (endAudio (host.serving rt) w sid input held).2.1
      simp only [hev]
      split
      · exact ⟨_, rfl⟩
      · exact ⟨_, rfl⟩

/-- A chunk is handled when its `last` field can be read, in case it is read. -/
theorem handleChunk_ok_iff (hid : input.valueStr "id" "" = .ok sid) :
    (∃ w', handleChunk (host.serving rt) w input = .ok w') ↔
      ((w.sessions.lookup sid).isSome = true → ∃ last, input.valueBool "last" false = .ok last) := by
  simp only [handleChunk, hid, bind, Except.bind, pure, Except.pure]
  cases hl : w.sessions.lookup sid with
  | none => simp
  | some held =>
      simp only [Option.isSome_some, true_implies]
      generalize recordAudio input { held with lastActivity := (host.serving rt).now } = st
      cases hlast : input.valueBool "last" false with
      | error e => simp
      | ok last =>
          have hhop (w : Worker) : ∃ w', decodePartial (host.serving rt) w sid st = .ok w' :=
            decodePartial_ok host rt w sid st
          apply iff_of_true _ ⟨last, rfl⟩
          cases last with
          | true => exact handleEnd_ok host rt _ hid
          | false =>
              simp only [Bool.false_eq_true, if_false]
              split
              · split
                · exact ⟨_, rfl⟩
                · exact decodePartial_ok host rt _ sid _
              · split
                · exact ⟨_, rfl⟩
                · split
                  · exact decodePartial_ok host rt _ sid _
                  · exact ⟨_, rfl⟩

/-- The dispatch of a parsed line throws unless it is accepted. -/
theorem dispatchLine_ok_iff {parsed : Json} :
    (∃ w', dispatchLine (host.serving rt) w parsed = .ok w') ↔ Accepts w parsed := by
  cases hc : parsed.contains "event" with
  | false => simp [dispatchLine, Accepts, hc, pure, Except.pure]
  | true =>
      have hobj := Json.isObject_of_contains hc
      simp only [dispatchLine, Accepts, hc, Bool.not_true, Bool.false_eq_true, if_false,
        true_implies, bind, Except.bind]
      cases hev : parsed.valueStr "event" "" with
      | error e =>
          apply iff_of_false
          · rintro ⟨w', hw'⟩
            cases hw'
          · rintro ⟨event, hstr, -⟩
            rw [Json.valueStr_of_str? "" hstr] at hev
            cases hev
      | ok event =>
          have hstr := Json.str?_of_valueStr hev hc
          simp only [hstr, Option.some.injEq, exists_eq_left']
          cases hid : parsed.valueStr "id" "" with
          | error e =>
              have hopt : ¬ parsed.OptStr "id" := by
                intro hopt
                obtain ⟨sid, hsid⟩ := Json.valueStr_ok_iff.mpr ⟨hobj, hopt⟩
                exact absurd (hid.symm.trans hsid) nofun
              apply iff_of_false _ fun h => hopt h.1
              rintro ⟨w', hw'⟩
              split at hw'
              · simp [handleBegin, hid, bind, Except.bind] at hw'
              · split at hw'
                · simp [handleChunk, hid, bind, Except.bind] at hw'
                · split at hw'
                  · simp [handleEnd, hid, bind, Except.bind] at hw'
                  · cases hw'
          | ok sid =>
              have hopt : parsed.OptStr "id" := (Json.valueStr_ok_iff.mp ⟨sid, hid⟩).2
              simp only [hopt, true_and, Except.ok.injEq, forall_eq']
              split
              · rename_i hbegin
                exact iff_of_true (handleBegin_ok _ w hid) (by simp [hbegin])
              · split
                · rename_i hchunk
                  rw [handleChunk_ok_iff host rt hid]
                  simp only [hchunk, true_implies, Json.valueBool_ok_iff, hobj, true_and]
                · rename_i hchunk
                  apply iff_of_true _ (by simp [hchunk])
                  split
                  · exact handleEnd_ok host rt w hid
                  · exact ⟨_, rfl⟩

end Handlers

end JetsonVoice.Asr
