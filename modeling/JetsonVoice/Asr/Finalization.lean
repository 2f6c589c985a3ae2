import JetsonVoice.Asr.LaneOwnership

/-!
# The last chunk and the end of a session

A session is finalised by its last chunk or by an `end` after it. The two ways
hear the same audio unless the chunk names an audio file while PCM of an earlier
chunk is still stored: then the chunk on its own converts that PCM once more and
puts it in the place of the file.

## Implementation notes

The recogniser is a function of the audio it is given, found under the path in
its request. A path of a temporary file is not used twice, so what is under a
path does not change.
-/

namespace JetsonVoice.Asr

open Foundation TransitionSystem

/-- What is in the audio files, and what audio a PCM text stands for, if it is well formed. -/
structure Recordings (A : Type*) where
  content : String → A
  decode : String → Option A
  decode_empty : decode "" = none

/-- A one-shot core whose answer depends on the audio only. -/
structure Recogniser (A : Type*) where
  answer : A → Json
  typed : ∀ a, ∃ ok, (answer a).valueBool "ok" false = .ok ok

/-- The first item of an array. -/
def firstItem : Json → Option Json
  | .arr (item :: _) => some item
  | _ => none

/-- The audio file a request names. -/
def requestAudio (req : Json) : Option String :=
  ((((req.field? "requests").bind firstItem).bind (·.field? "messages")).bind firstItem).bind
    fun message => ((message.field? "content").bind firstItem).bind (·.str? "audio")

theorem requestAudio_finalize (sid : String) {st : SessionState} (h : st.melPath ≠ "") :
    requestAudio (buildFinalizeRequest sid st) = some st.melPath := by
  rw [requestAudio, buildFinalizeRequest, Json.field?_setField_self, if_neg h]
  rfl

section Hearing
variable {A : Type*}

/-- The same host with a recogniser as its one-shot core. -/
def Host.hearing (host : Host) (rec : Recordings A) (r : Recogniser A) : Host :=
  { host with
    runOneShotCore := fun req => r.answer (rec.content ((requestAudio req).getD "")) }

/-- A host that converts what is well formed, and makes the final transcript in one shot. -/
structure Host.Sound (host : Host) (rec : Recordings A) : Prop where
  converts : ∀ {pcm a} sid, rec.decode pcm = some a →
    ∃ path, host.pcmB64ToMelSafetensors pcm sid = .ok path ∧ path ≠ "" ∧ rec.content path = a
  rejects : ∀ {pcm} sid, rec.decode pcm = none →
    ∃ what, host.pcmB64ToMelSafetensors pcm sid = .error what
  oneShot : (host.streamPrefix && !host.finalOneShot) = false

/-- The audio a chunk carries: its PCM before its audio file. -/
def carriedAudio (rec : Recordings A) (input : Json) : Option A :=
  match input.str? "pcm_b64" with
  | some pcm => rec.decode pcm
  | none => (carriedMelPath? input).bind fun path =>
      if path = "" then none else some (rec.content path)

/-- The audio a session would be finalised with. -/
def SessionState.heard (st : SessionState) (rec : Recordings A) : Option A :=
  if st.melPath = "" then none else some (rec.content st.melPath)

/-- A run of a handler that finalises a session with one audio: its event is the
recogniser's answer, the session is gone, its lane released. -/
structure Finalises (w w' : Worker) (sid : String) (laneId : Int) (answer : Json) : Prop where
  final : ∃ event, finalFromCore sid answer = .ok event ∧ w'.out.getLast? = some event
  sessions : w'.sessions = w.sessions.erase sid
  laneMgr : w'.laneMgr = w.laneMgr.release laneId

/-- A session is still there, under its lane, with one audio. -/
structure Holds (rec : Recordings A) (w w' : Worker) (sid : String) (laneId : Int) (a : A) :
    Prop where
  session : ∃ st, w'.sessions.lookup sid = some st ∧ st.heard rec = some a ∧ st.laneId = laneId
  others : w'.sessions.erase sid = w.sessions.erase sid
  laneMgr : w'.laneMgr = w.laneMgr

/-- Whatever the recogniser, a chunk with `last:true`, and the chunk followed by
an `end`, finalise the session with the audio the chunk carries. -/
def EndsAlike (rec : Recordings A) (last chunk fin : Host) (w : Worker) (sid : String)
    (laneId : Int) (input ending : Json) : Prop :=
  ∃ a, carriedAudio rec input = some a ∧ ∀ r : Recogniser A,
    (∃ w', handleChunk (last.hearing rec r) w (input.setField "last" (.bool true)) = .ok w' ∧
      Finalises w w' sid laneId (r.answer a)) ∧
    ∃ w₁ w', handleChunk (chunk.hearing rec r) w input = .ok w₁ ∧
      handleEnd (fin.hearing rec r) w₁ ending = .ok w' ∧ Finalises w w' sid laneId (r.answer a)

section Handlers
variable {rec : Recordings A} {r : Recogniser A} {host : Host} {w : Worker} {sid : String}
  {input : Json} {held st : SessionState}

theorem hears (sid : String) {a : A} (h : st.heard rec = some a) :
    (host.hearing rec r).runOneShotCore (buildFinalizeRequest sid st) = r.answer a := by
  rw [SessionState.heard] at h
  split at h
  · cases h
  · rename_i hmel
    cases h
    simp [Host.hearing, requestAudio_finalize sid hmel]

/-- A session whose audio is in place is finalised with it. -/
theorem finalize_heard {a : A} (hs : host.Sound rec) (h : st.heard rec = some a) :
    finalize (host.hearing rec r) sid st = finalFromCore sid (r.answer a) := by
  have hmel : st.melPath ≠ "" := by
    intro hmel
    simp [SessionState.heard, hmel] at h
  have hone : ((host.hearing rec r).streamPrefix && !(host.hearing rec r).finalOneShot) = false :=
    hs.oneShot
  rw [finalize, if_neg hmel, hone, if_neg Bool.false_ne_true, hears sid h]

theorem finalFromCore_ok (r : Recogniser A) (sid : String) (a : A) :
    ∃ event, finalFromCore sid (r.answer a) = .ok event := by
  obtain ⟨ok, hok⟩ := r.typed a
  exact ⟨_, by rw [finalFromCore, hok]; rfl⟩

/-- `end` finalises a session with the audio that it has put in place. -/
theorem handleEnd_heard {a : A} (hs : host.Sound rec) (hid : input.valueStr "id" "" = .ok sid)
    (hl : w.sessions.lookup sid = some held)
    (he : (endAudio (host.hearing rec r) w sid input held).2 = (st, .ok ()))
    (h : st.heard rec = some a) :
    ∃ w', handleEnd (host.hearing rec r) w input = .ok w' ∧
      Finalises w w' sid held.laneId (r.answer a) := by
  obtain ⟨event, hev⟩ := finalFromCore_ok r sid a
  rcases ha : endAudio (host.hearing rec r) w sid input held with ⟨w₁, st', converted⟩
  rw [ha] at he
  cases he
  obtain ⟨hsame, hsess, hlane⟩ := endAudio_cases ha
  have hend : handleEnd (host.hearing rec r) w input = .ok
      ((((w₁.removeFile held.melPathOwned).removeFile st.melPathOwned).dropSession sid
        st.laneId).emit event) := by
    simp only [handleEnd, hid, hl, ha, finalize_heard hs h, hev, bind, Except.bind, pure,
      Except.pure]
  refine ⟨_, hend, ⟨event, hev, ?_⟩, ?_, ?_⟩
  · simp [Worker.emit]
  · simp [Worker.dropSession, hsess]
  · simp [Worker.dropSession, hsame.laneMgr, hlane]

/-- An `end` that carries no audio finalises a session with the audio it has. -/
theorem handleEnd_bare {a : A} (hs : host.Sound rec) (hid : input.valueStr "id" "" = .ok sid)
    (hmel : carriedMelPath? input = none) (hpcm : input.str? "pcm_b64" = none)
    (hl : w.sessions.lookup sid = some held) (h : held.heard rec = some a) :
    ∃ w', handleEnd (host.hearing rec r) w input = .ok w' ∧
      Finalises w w' sid held.laneId (r.answer a) := by
  apply handleEnd_heard hs hid hl _ h
  simp [endAudio, recordAudio, hmel, hpcm]

variable (host r) in
/-- A decode of the audio so far keeps the session with its audio. -/
theorem decodePartial_holds {a : A} (hl : w.sessions.lookup sid = some st)
    (h : st.heard rec = some a) :
    ∃ w', decodePartial (host.hearing rec r) w sid st = .ok w' ∧
      Holds rec w w' sid st.laneId a := by
  unfold decodePartial
  by_cases hp : (host.hearing rec r).streamPrefix = true
  · rw [if_pos hp]
    dsimp only
    split
    · refine ⟨_, rfl, ⟨_, AList.lookup_insert _, ?_, rfl⟩, ?_, rfl⟩
      · exact h
      · simp [Worker.emit, Worker.setSession, Table.erase_insert]
    · exact ⟨_, rfl, ⟨st, hl, h, rfl⟩, rfl, rfl⟩
  · rw [if_neg hp, hears sid h]
    obtain ⟨ok, hok⟩ := r.typed a
    have hev : ∃ event, partialFromCore sid (r.answer a) = .ok event := by
      rw [partialFromCore, hok]
      cases ok <;> exact ⟨_, rfl⟩
    obtain ⟨event, hev⟩ := hev
    rw [hev]
    exact ⟨_, rfl, ⟨st, hl, h, rfl⟩, rfl, rfl⟩

/-- The audio a session is left with once it has stored what a chunk carries: PCM
that can be converted comes before the file. -/
def SessionState.settled (st : SessionState) (rec : Recordings A) (supported : Bool) : Option A :=
  (if supported then rec.decode st.pcmB64 else none).or (st.heard rec)

variable (r w sid) in
/-- The conversion puts the audio of well formed PCM in place. -/
theorem convertPcm_heard {a : A} (hs : host.Sound rec) (h : rec.decode st.pcmB64 = some a) :
    ∃ w₁ st₁, convertPcm (host.hearing rec r) w sid st = (w₁, .ok st₁) ∧
      st₁.heard rec = some a ∧ st₁.laneId = st.laneId ∧ w₁.sessions = w.sessions ∧
      w₁.laneMgr = w.laneMgr := by
  obtain ⟨path, hpath, hne, hcontent⟩ := hs.converts sid h
  have hpath' : (host.hearing rec r).pcmB64ToMelSafetensors st.pcmB64 sid = .ok path := hpath
  rw [convertPcm, hpath']
  exact ⟨_, _, rfl, by simp [SessionState.heard, hne, hcontent], rfl, by simp [Worker.createFile],
    by simp⟩

variable (r w sid) in
theorem convertPcm_rejected (hs : host.Sound rec) (h : rec.decode st.pcmB64 = none) :
    ∃ w₁ what, convertPcm (host.hearing rec r) w sid st = (w₁, .error what) ∧
      w₁.sessions = w.sessions ∧ w₁.laneMgr = w.laneMgr := by
  obtain ⟨what, hwhat⟩ := hs.rejects sid h
  have hwhat' : (host.hearing rec r).pcmB64ToMelSafetensors st.pcmB64 sid = .error what := hwhat
  rw [convertPcm, hwhat']
  exact ⟨_, _, rfl, by simp, by simp⟩

/-- A chunk that is not the last one leaves the session with its settled audio. -/
theorem handleChunk_holds {a : A} (hs : host.Sound rec) (hid : input.valueStr "id" "" = .ok sid)
    (hl : w.sessions.lookup sid = some held) (hlast : input.valueBool "last" false = .ok false)
    (h : (recordAudio input held).settled rec host.pcmInputSupported = some a) :
    ∃ w', handleChunk (host.hearing rec r) w input = .ok w' ∧
      Holds rec w w' sid held.laneId a := by
  have hstored : (recordAudio input { held with lastActivity := host.now }).settled rec
      host.pcmInputSupported = some a := by
    rw [← h]
    simp only [recordAudio]
    split <;> split <;> rfl
  have hlane : (recordAudio input { held with lastActivity := host.now }).laneId = held.laneId := by
    simp
  simp only [handleChunk, hid, hl, hlast, bind, Except.bind, pure, Except.pure,
    Bool.false_eq_true, if_false]
  have hnow : (host.hearing rec r).now = host.now := rfl
  have hsupported : (host.hearing rec r).pcmInputSupported = host.pcmInputSupported := rfl
  rw [hnow, hsupported]
  generalize recordAudio input { held with lastActivity := host.now } = st at hstored hlane ⊢
  rw [← hlane]
  have hl₁ : (w.setSession sid st).sessions.lookup sid = some st := AList.lookup_insert _
  have stored {w' : Worker} (hh : Holds rec (w.setSession sid st) w' sid st.laneId a) :
      Holds rec w w' sid st.laneId a :=
    ⟨hh.session, hh.others.trans Table.erase_insert, hh.laneMgr⟩
  have heard (hnone : (if host.pcmInputSupported then rec.decode st.pcmB64 else none) = none) :
      st.heard rec = some a := by
    rwa [SessionState.settled, hnone, Option.none_or] at hstored
  by_cases hpcm : st.pcmB64 = ""
  · have hheard := heard (by simp [hpcm, rec.decode_empty])
    have hmel : st.melPath ≠ "" := by
      intro hmel
      simp [SessionState.heard, hmel] at hheard
    rw [if_pos hpcm, if_neg hmel]
    obtain ⟨w', hw', hh⟩ := decodePartial_holds r host hl₁ hheard
    exact ⟨w', hw', stored hh⟩
  · rw [if_neg hpcm]
    cases hsup : host.pcmInputSupported with
    | false =>
        have hheard := heard (by simp [hsup])
        exact ⟨_, rfl, stored ⟨⟨st, hl₁, hheard, rfl⟩, rfl, rfl⟩⟩
    | true =>
        simp only [Bool.not_true, Bool.false_eq_true, if_false]
        cases hdec : rec.decode st.pcmB64 with
        | none =>
            have hheard := heard (by simp [hdec])
            obtain ⟨w₁, what, hconv, hsess, hmgr⟩ :=
              convertPcm_rejected r (w.setSession sid st) sid hs hdec
            rw [hconv]
            exact ⟨_, rfl, stored ⟨⟨st, hsess ▸ hl₁, hheard, rfl⟩, congrArg _ hsess, hmgr⟩⟩
        | some b =>
            obtain rfl : b = a := by
              simpa [SessionState.settled, hsup, hdec] using hstored
            obtain ⟨w₁, st₁, hconv, hheard, hlane₁, hsess, hmgr⟩ :=
              convertPcm_heard r (w.setSession sid st) sid hs hdec
            rw [hconv, ← hlane₁]
            obtain ⟨w', hw', hh⟩ := decodePartial_holds r host
              (w := w₁.setSession sid st₁) (AList.lookup_insert _) hheard
            refine ⟨w', hw', hlane₁ ▸ stored ⟨hlane₁ ▸ hh.session, ?_, hh.laneMgr.trans hmgr⟩⟩
            rw [hh.others, Worker.setSession, Table.erase_insert, hsess]

/-- A session that holds its audio is finalised with it by a bare `end`. -/
theorem Holds.ends {w₁ : Worker} {a : A} {laneId : Int} (h : Holds rec w w₁ sid laneId a)
    (hs : host.Sound rec) (hid : input.valueStr "id" "" = .ok sid)
    (hmel : carriedMelPath? input = none) (hpcm : input.str? "pcm_b64" = none) :
    ∃ w', handleEnd (host.hearing rec r) w₁ input = .ok w' ∧
      Finalises w w' sid laneId (r.answer a) := by
  obtain ⟨st, hl, hheard, rfl⟩ := h.session
  obtain ⟨w', hw', hf⟩ := handleEnd_bare (r := r) hs hid hmel hpcm hl hheard
  exact ⟨w', hw', hf.final, hf.sessions.trans h.others, by rw [hf.laneMgr, h.laneMgr]⟩

theorem recordAudio_pcmB64 (input : Json) (st : SessionState) :
    (recordAudio input st).pcmB64 = (input.str? "pcm_b64").getD st.pcmB64 := by
  simp only [recordAudio]
  split <;> split <;> simp [*]

theorem recordAudio_melPath (input : Json) (st : SessionState) :
    (recordAudio input st).melPath = (carriedMelPath? input).getD st.melPath := by
  simp only [recordAudio]
  split <;> split <;> simp [*]

/-- The mark of the last chunk changes nothing else about it. -/
theorem recordAudio_last (input : Json) (st : SessionState) :
    recordAudio (input.setField "last" (.bool true)) st = recordAudio input st := by
  simp only [recordAudio, carriedMelPath?, Json.str?_setField_ne _ (by decide : "mel_path" ≠ "last"),
    Json.str?_setField_ne _ (by decide : "audio" ≠ "last"),
    Json.str?_setField_ne _ (by decide : "pcm_b64" ≠ "last")]

theorem valueStr_marked (hid : input.valueStr "id" "" = .ok sid) :
    (input.setField "last" (.bool true)).valueStr "id" "" = .ok sid := by
  rw [← hid]
  exact Json.valueWith_congr (by simp) (Json.isObject_of_valueWith hid)
    (Json.field?_setField_ne _ (by decide))

theorem endAudio_marked (host : Host) (w : Worker) (sid : String) (input : Json)
    (st : SessionState) :
    endAudio host w sid (input.setField "last" (.bool true)) st = endAudio host w sid input st := by
  simp only [endAudio, recordAudio_last, Json.str?_setField_ne _ (by decide : "pcm_b64" ≠ "last")]

/-- A chunk marked as the last one stores its audio and goes on as an `end`. -/
theorem handleChunk_marked (hid : input.valueStr "id" "" = .ok sid)
    (hl : w.sessions.lookup sid = some held) :
    handleChunk host w (input.setField "last" (.bool true)) =
      handleEnd host (w.setSession sid (recordAudio input { held with lastActivity := host.now }))
        (input.setField "last" (.bool true)) := by
  have hlast : (input.setField "last" (.bool true)).valueBool "last" false = .ok true := by
    calc
      _ = (Json.obj [("last", .bool true)]).valueBool "last" false :=
        Json.valueWith_congr (by simp) rfl (by rw [Json.field?_setField_self]; rfl)
      _ = .ok true := rfl
  simp only [handleChunk, valueStr_marked hid, hl, hlast, recordAudio_last, bind, Except.bind, if_true]

/-- The last chunk finalises the session with the audio it carries. -/
theorem handleChunk_marked_finalises {a : A} (hs : host.Sound rec)
    (hid : input.valueStr "id" "" = .ok sid) (hl : w.sessions.lookup sid = some held)
    (hcarried : carriedAudio rec input = some a)
    (hsup : (input.str? "pcm_b64").isSome = true → host.pcmInputSupported = true) :
    ∃ w', handleChunk (host.hearing rec r) w (input.setField "last" (.bool true)) = .ok w' ∧
      Finalises w w' sid held.laneId (r.answer a) := by
  rw [handleChunk_marked hid hl]
  have hlane : (recordAudio input { held with lastActivity := (host.hearing rec r).now }).laneId =
      held.laneId := by simp
  generalize recordAudio input { held with lastActivity := (host.hearing rec r).now } = st at hlane ⊢
  obtain ⟨st', hend, hheard⟩ : ∃ st', (endAudio (host.hearing rec r) (w.setSession sid st) sid
      (input.setField "last" (.bool true)) st).2 = (st', .ok ()) ∧ st'.heard rec = some a := by
    rw [endAudio_marked]
    cases hpcm : input.str? "pcm_b64" with
    | none =>
        rw [carriedAudio, hpcm] at hcarried
        obtain ⟨path, hpath, hcontent⟩ := Option.bind_eq_some_iff.mp hcarried
        refine ⟨recordAudio input st, by simp [endAudio, hpcm], ?_⟩
        rw [SessionState.heard, recordAudio_melPath, hpath]
        exact hcontent
    | some pcm =>
        rw [carriedAudio, hpcm] at hcarried
        have hdec : rec.decode (recordAudio input st).pcmB64 = some a := by
          rw [recordAudio_pcmB64, hpcm]
          exact hcarried
        obtain ⟨w₁, st₁, hconv, hheard, -⟩ :=
          convertPcm_heard r (w.setSession sid st) sid hs hdec
        have hsup' : (host.hearing rec r).pcmInputSupported = true := hsup (by simp [hpcm])
        exact ⟨st₁, by simp [endAudio, hpcm, hsup', hconv], hheard⟩
  obtain ⟨w', hw', hf⟩ :=
    handleEnd_heard hs (valueStr_marked hid) (AList.lookup_insert _) hend hheard
  exact ⟨w', hw', hf.final, hf.sessions.trans Table.erase_insert, by rw [hf.laneMgr, hlane]; rfl⟩

theorem finalFromCore_event {answer event : Json} (h : finalFromCore sid answer = .ok event) :
    event.field? "event" = some (.str "final") := by
  simp only [finalFromCore, bind, Except.bind, pure, Except.pure] at h
  split at h
  · cases h
  · cases h
    rfl

/-- A last chunk whose PCM cannot be converted is answered with an error. -/
theorem handleChunk_marked_refused {pcm : String} {a : A} (hs : host.Sound rec)
    (hid : input.valueStr "id" "" = .ok sid) (hl : w.sessions.lookup sid = some held)
    (hpcm : input.str? "pcm_b64" = some pcm)
    (hbad : host.pcmInputSupported = false ∨ rec.decode pcm = none) {w' : Worker}
    (h : handleChunk (host.hearing rec r) w (input.setField "last" (.bool true)) = .ok w') :
    ¬ Finalises w w' sid held.laneId (r.answer a) := by
  rw [handleChunk_marked hid hl] at h
  generalize recordAudio input { held with lastActivity := (host.hearing rec r).now } = st at h
  obtain ⟨error, rest, hend⟩ : ∃ error rest, (endAudio (host.hearing rec r) (w.setSession sid st) sid
      (input.setField "last" (.bool true)) st).2.2 = .error (errorEvent sid error rest) := by
    rw [endAudio_marked]
    by_cases hsup : (host.hearing rec r).pcmInputSupported = true
    · have hdec : rec.decode (recordAudio input st).pcmB64 = none := by
        rw [recordAudio_pcmB64, hpcm]
        exact hbad.resolve_left fun hno => by simp [Host.hearing, hno] at hsup
      obtain ⟨w₁, what, hconv, -⟩ :=
        convertPcm_rejected r (w.setSession sid st) sid hs hdec
      exact ⟨"pcm_to_mel_failed", [("detail", .str what)], by simp [endAudio, hpcm, hsup, hconv]⟩
    · exact ⟨"pcm_input_unsupported",
        [("hint", .str "worker started without --melSettings/--melFilters")],
        by simp [endAudio, hpcm, hsup]⟩
  intro hf
  obtain ⟨event, hev, hout⟩ := hf.final
  have hl₁ : (w.setSession sid st).sessions.lookup sid = some st := AList.lookup_insert _
  simp only [handleEnd, valueStr_marked hid, hl₁, hend, bind, Except.bind, pure, Except.pure,
    Except.ok.injEq] at h
  rw [← h] at hout
  have hevent : event = errorEvent sid error rest := by simpa [Worker.emit, eq_comm] using hout
  have hfinal := finalFromCore_event hev
  simp [hevent, errorEvent, Json.field?] at hfinal

theorem finalFromCore_ok_field {answer event : Json} {ok : Bool}
    (hok : answer.valueBool "ok" false = .ok ok) (h : finalFromCore sid answer = .ok event) :
    event.field? "ok" = some (.bool ok) := by
  simp only [finalFromCore, hok, bind, Except.bind, pure, Except.pure] at h
  cases h
  rfl

/-- A recogniser that tells one audio from all others. -/
noncomputable def Recogniser.telling (a : A) : Recogniser A :=
  open Classical in
  { answer := fun b => .obj [("ok", .bool (decide (b = a)))]
    typed := fun b => ⟨decide (b = a), rfl⟩ }

/-- A session is finalised with one audio only. -/
theorem audio_of_finalises {w' : Worker} {laneId : Int} {a b : A}
    (ha : Finalises w w' sid laneId ((Recogniser.telling a).answer a))
    (hb : Finalises w w' sid laneId ((Recogniser.telling a).answer b)) : b = a := by
  classical
  obtain ⟨event, hev, hout⟩ := ha.final
  obtain ⟨event', hev', hout'⟩ := hb.final
  obtain rfl : event = event' := Option.some.inj (hout.symm.trans hout')
  have h := (finalFromCore_ok_field rfl hev).symm.trans (finalFromCore_ok_field rfl hev')
  by_contra hne
  simp [hne] at h

end Handlers

/-- A chunk's PCM can be converted; a chunk with an audio file only meets no other
convertible PCM that an earlier chunk has left in the session. -/
def Unshadowed (rec : Recordings A) (supported : Bool) (held : SessionState) (input : Json) : Prop :=
  match input.str? "pcm_b64" with
  | some pcm => supported = true ∧ (rec.decode pcm).isSome = true
  | none => supported = true → ∀ a, rec.decode held.pcmB64 = some a → carriedAudio rec input = some a

/-- A chunk for a live session and an `end` after it, with the hosts of the three calls. -/
structure Closing (rec : Recordings A) (supported : Bool) (last chunk fin : Host) (w : Worker)
    (sid : String) (held : SessionState) (input ending : Json) : Prop where
  last_sound : last.Sound rec
  chunk_sound : chunk.Sound rec
  fin_sound : fin.Sound rec
  last_supported : last.pcmInputSupported = supported
  chunk_supported : chunk.pcmInputSupported = supported
  id : input.valueStr "id" "" = .ok sid
  session : w.sessions.lookup sid = some held
  unmarked : input.valueBool "last" false = .ok false
  carries : (input.str? "pcm_b64").isSome = true ∨
    ∃ path, carriedMelPath? input = some path ∧ path ≠ ""
  ending_id : ending.valueStr "id" "" = .ok sid
  ending_mel : carriedMelPath? ending = none
  ending_pcm : ending.str? "pcm_b64" = none

section Closing
variable {rec : Recordings A} {supported : Bool} {last chunk fin : Host} {w : Worker}
  {sid : String} {held : SessionState} {input ending : Json}

/-- The chunk and the `end` finalise the session with its settled audio. -/
theorem Closing.settled (h : Closing rec supported last chunk fin w sid held input ending) {a : A}
    (ha : (recordAudio input held).settled rec supported = some a) (r : Recogniser A) :
    ∃ w₁ w', handleChunk (chunk.hearing rec r) w input = .ok w₁ ∧
      handleEnd (fin.hearing rec r) w₁ ending = .ok w' ∧
      Finalises w w' sid held.laneId (r.answer a) := by
  obtain ⟨w₁, hw₁, hh⟩ :=
    handleChunk_holds (r := r) h.chunk_sound h.id h.session h.unmarked (h.chunk_supported ▸ ha)
  obtain ⟨w', hw', hf⟩ := hh.ends (r := r) h.fin_sound h.ending_id h.ending_mel h.ending_pcm
  exact ⟨w₁, w', hw₁, hw', hf⟩

theorem Closing.unshadowed (h : Closing rec supported last chunk fin w sid held input ending)
    (he : EndsAlike rec last chunk fin w sid held.laneId input ending) :
    Unshadowed rec supported held input := by
  obtain ⟨a, ha, hends⟩ := he
  cases hpcm : input.str? "pcm_b64" with
  | some pcm =>
      rw [carriedAudio, hpcm] at ha
      have hdec : rec.decode pcm = some a := ha
      rw [Unshadowed, hpcm]
      refine ⟨?_, by simp [hdec]⟩
      by_contra hno
      have hoff : last.pcmInputSupported = false := by simpa [h.last_supported] using hno
      obtain ⟨⟨w', hw', hf⟩, -⟩ := hends (.telling a)
      exact handleChunk_marked_refused h.last_sound h.id h.session hpcm (.inl hoff) hw' hf
  | none =>
      rw [Unshadowed, hpcm]
      intro hsup b hb
      have hset : (recordAudio input held).settled rec supported = some b := by
        rw [SessionState.settled, hsup, if_pos rfl, recordAudio_pcmB64, hpcm, Option.getD_none, hb,
          Option.some_or]
      obtain ⟨-, w₁, w', hw₁, hw', hf⟩ := hends (.telling a)
      obtain ⟨w₁', w'', hw₁', hw'', hf'⟩ := h.settled hset (.telling a)
      obtain rfl : w₁ = w₁' := Except.ok.inj (hw₁.symm.trans hw₁')
      obtain rfl : w' = w'' := Except.ok.inj (hw'.symm.trans hw'')
      rw [ha, audio_of_finalises hf hf']

theorem Closing.endsAlike (h : Closing rec supported last chunk fin w sid held input ending)
    (hu : Unshadowed rec supported held input) :
    EndsAlike rec last chunk fin w sid held.laneId input ending := by
  cases hpcm : input.str? "pcm_b64" with
  | some pcm =>
      rw [Unshadowed, hpcm] at hu
      obtain ⟨hsup, hdec⟩ := hu
      obtain ⟨a, ha⟩ := Option.isSome_iff_exists.mp hdec
      have hcarried : carriedAudio rec input = some a := by rw [carriedAudio, hpcm]; exact ha
      refine ⟨a, hcarried, fun r => ⟨?_, h.settled ?_ r⟩⟩
      · exact handleChunk_marked_finalises h.last_sound h.id h.session hcarried
          fun _ => h.last_supported.trans hsup
      · rw [SessionState.settled, hsup, if_pos rfl, recordAudio_pcmB64, hpcm, Option.getD_some, ha,
          Option.some_or]
  | none =>
      rw [Unshadowed, hpcm] at hu
      obtain ⟨path, hpath, hne⟩ := h.carries.resolve_left (by simp [hpcm])
      have hcarried : carriedAudio rec input = some (rec.content path) := by
        simp [carriedAudio, hpcm, hpath, hne]
      have hheard : (recordAudio input held).heard rec = some (rec.content path) := by
        rw [SessionState.heard, recordAudio_melPath, hpath, Option.getD_some, if_neg hne]
      refine ⟨rec.content path, hcarried, fun r => ⟨?_, h.settled ?_ r⟩⟩
      · exact handleChunk_marked_finalises h.last_sound h.id h.session hcarried (by simp [hpcm])
      · rw [SessionState.settled, recordAudio_pcmB64, hpcm, Option.getD_none]
        cases hsup : supported with
        | false => simpa using hheard
        | true =>
            cases hdec : rec.decode held.pcmB64 with
            | none => simpa [hdec] using hheard
            | some b =>
                rw [← hcarried, hu hsup b hdec]
                rfl

/-- A chunk that carries audio, marked as the last one, ends its session as it does
followed by an `end`, with the audio it carries, just in case that audio is unshadowed. -/
theorem endsAlike_iff (h : Closing rec supported last chunk fin w sid held input ending) :
    EndsAlike rec last chunk fin w sid held.laneId input ending ↔
      Unshadowed rec supported held input :=
  ⟨h.unshadowed, h.endsAlike⟩

end Closing

end Hearing

/-- Every PCM text but the empty one is audio of its own, and every file is what it is called. -/
def namedRecordings : Recordings String where
  content path := path
  decode pcm := if pcm = "" then none else some ("/tmp/" ++ pcm)
  decode_empty := rfl

/-- A host that writes a file for every PCM text but the empty one. -/
def wavHost : Host :=
  { idleHost with
    pcmInputSupported := true
    pcmB64ToMelSafetensors := fun pcm _ =>
      if pcm = "" then .error "pcm_b64_malformed" else .ok ("/tmp/" ++ pcm)
    finalOneShot := true }

theorem wavHost_sound : wavHost.Sound namedRecordings where
  converts {pcm a} sid h := by
    simp only [namedRecordings] at h
    split at h
    · cases h
    · rename_i hne
      cases h
      exact ⟨_, if_neg hne, by simp, rfl⟩
  rejects {pcm} sid h := by
    simp only [namedRecordings] at h
    split at h
    · rename_i hnone
      exact ⟨_, if_pos hnone⟩
    · cases h
  oneShot := rfl

def pcmChunk : Json :=
  .obj [("event", .str "chunk"), ("id", .str "a"), ("pcm_b64", .str "AACAPw==")]

def fileChunk : Json :=
  .obj [("event", .str "chunk"), ("id", .str "a"), ("mel_path", .str "/data/a.safetensors")]

def endLine : Json := .obj [("event", .str "end"), ("id", .str "a")]

theorem endsAlike_of_pcm : ∃ w₀ w held, Worker.init 2 2 = .ok w₀ ∧ (system w₀).Reachable w ∧
    w.sessions.lookup "a" = some held ∧
    EndsAlike namedRecordings wavHost wavHost wavHost w "a" held.laneId pcmChunk endLine := by
  obtain ⟨w₀, w, held, hinit, hr, hl⟩ : ∃ w₀ w held, Worker.init 2 2 = .ok w₀ ∧
      (system w₀).Reachable w ∧ w.sessions.lookup "a" = some held :=
    ⟨_, _, _, rfl, reachable_of_run [beginLine "a"] rfl, rfl⟩
  have h : Closing namedRecordings true wavHost wavHost wavHost w "a" held pcmChunk endLine :=
    ⟨wavHost_sound, wavHost_sound, wavHost_sound, rfl, rfl, rfl, hl, rfl, .inl rfl, rfl, rfl, rfl⟩
  exact ⟨w₀, w, held, hinit, hr, hl, (endsAlike_iff h).mpr ⟨rfl, rfl⟩⟩

/-- A chunk with an audio file after one with PCM: only as the last chunk is it heard. -/
theorem shadowed_file : ∃ w₀ w held, Worker.init 2 2 = .ok w₀ ∧ (system w₀).Reachable w ∧
    w.sessions.lookup "a" = some held ∧
    ¬ EndsAlike namedRecordings wavHost wavHost wavHost w "a" held.laneId fileChunk endLine := by
  obtain ⟨w₀, w, held, hinit, hr, hl, hheld⟩ : ∃ w₀ w held, Worker.init 2 2 = .ok w₀ ∧
      (system w₀).Reachable w ∧ w.sessions.lookup "a" = some held ∧ held.pcmB64 = "AACAPw==" :=
    ⟨_, _, _, rfl, reachable_of_run [beginLine "a", .line wavHost pcmChunk] rfl, rfl, rfl⟩
  have h : Closing namedRecordings true wavHost wavHost wavHost w "a" held fileChunk endLine :=
    ⟨wavHost_sound, wavHost_sound, wavHost_sound, rfl, rfl, rfl, hl, rfl,
      .inr ⟨"/data/a.safetensors", rfl, by simp⟩, rfl, rfl, rfl⟩
  refine ⟨w₀, w, held, hinit, hr, hl, fun he => ?_⟩
  have hcarried := h.unshadowed he rfl "/tmp/AACAPw==" (by rw [hheld]; rfl)
  exact absurd hcarried (by decide)

end JetsonVoice.Asr
