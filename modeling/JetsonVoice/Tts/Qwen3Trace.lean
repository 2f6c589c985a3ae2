import JetsonVoice.Tts.Qwen3Progress

/-!
# One Qwen3-TTS request with its history

One request as a system of its own: the slot's thread with the runtime that
calls it back, and the vocoder's thread. Beside the locals a trace keeps what
the runtime handed over, the chunks that were made of it, and what was written.
-/

namespace JetsonVoice.Tts.Qwen3

open Foundation TransitionSystem

/-- What a request writes. -/
inductive Emission where
  | report (report : Report)
  | ending (ending : Ending)
  deriving DecidableEq, Repr

/-- A request with its history. -/
structure Trace where
  st : State := .start
  /-- The calls of `onChunkReady`. -/
  callbacks : List (List Frame × Bool) := []
  /-- The chunks given to `deliverChunk`. -/
  delivered : List VocodeJob := []
  /-- What was written, and whether the vocoder's thread was gone by then. -/
  emissions : List (Emission × Bool) := []
  /-- A Code2Wav call has thrown. -/
  threw : Bool := false
  /-- The runtime has caught what a callback threw, and gone on. -/
  swallowed : Bool := false
  deriving DecidableEq, Repr

/-- The frames a step hands over. -/
def State.called (st : State) : Input → List (List Frame × Bool)
  | .request (.chunk codes isFinal) => if st.control = .generating then [(codes, isFinal)] else []
  | _ => []

/-- The chunk a step delivers: queued for the vocoder, or vocoded in the callback. -/
def State.deliveredTo (st next : State) : List VocodeJob :=
  if next.chunkIndex = st.chunkIndex then []
  else match next.control with
    | .vocoding job _ => [job]
    | _ => next.vocodeQ.getLast?.join.toList

/-- What a step writes. -/
def State.emits (st : State) : Input → List Emission
  | .request _ => match st.control with
    | .emitting report _ => [.report report]
    | .concluding ending => [.ending ending]
    | _ => []
  | .vocoder _ => match st.vocoder with
    | .emitting report => [.report report]
    | _ => []

/-- Whether Code2Wav throws at a step. -/
def State.throws (st : State) : Input → Bool
  | .request (.vocoded outcome _) => match st.control with
    | .vocoding job _ => !(emitChunk job outcome).isOk
    | _ => false
  | .vocoder outcome => match st.vocoder with
    | .vocoding job => !(emitChunk job outcome).isOk
    | _ => false
  | _ => false

/-- Whether the runtime goes on after a callback that throws. -/
def State.swallows (st : State) : Input → Bool
  | .request (.vocoded outcome caught) => st.throws (.request (.vocoded outcome caught)) && caught
  | _ => false

/-- The history after a step. -/
def Trace.extend (t : Trace) (input : Input) (next : State) : Trace where
  st := next
  callbacks := t.callbacks ++ t.st.called input
  delivered := t.delivered ++ t.st.deliveredTo next
  emissions := t.emissions ++ (t.st.emits input).map fun e => (e, decide (t.st.vocoder = .absent))
  threw := t.threw || t.st.throws input
  swallowed := t.swallowed || t.st.swallows input

/-- One step of the request, with the state of its cancel flag. -/
def Trace.step (c : Config) (item : Json) (id : String) (t : Trace) (l : Bool × Input) :
    Option Trace :=
  (Qwen3.step c item id l.1 l.2 t.st).map fun next => t.extend l.2 next.1

/-- One request on its own. -/
def requestSystem (c : Config) (item : Json) (id : String) :
    TransitionSystem Trace (Bool × Input) where
  start := {}
  step := Trace.step c item id

/-- What one step does to the locals. -/
inductive Turn (c : Config) (item : Json) (st : State) : Input → State → Prop
  | built {a : Answer} {o : Options} {control : Control} (hc : st.control = .building)
      (ho : buildRequest item = .ok o)
      (hn : control = if o.streaming && c.useAsyncVocode then .spawning else .generating) :
      Turn c item st (.request a) { st with options := some o, control := control }
  /-- The part that can throw is left, from anywhere before the drain. -/
  | left {a : Answer} {exit : Exit}
      (hc : st.control = .building ∨ st.control = .spawning ∨ st.control = .generating)
      (ha : ∀ codes isFinal, st.control = .generating → a ≠ .chunk codes isFinal) :
      Turn c item st (.request a) (st.drain exit)
  | spawned {a : Answer} (hc : st.control = .spawning) :
      Turn c item st (.request a) { st with control := .generating, vocoder := .waiting }
  | called {o : Options} {codes : List Frame} {isFinal : Bool} (hc : st.control = .generating)
      (ho : st.options = some o) (hs : o.streaming = true) :
      Turn c item st (.request (.chunk codes isFinal)) (st.onChunkReady c o codes isFinal)
  | vocoded {job : VocodeJob} {clear : Bool} {outcome : Outcome} {caught : Bool} {report : Report}
      (hc : st.control = .vocoding job clear) (hr : emitChunk job outcome = .ok report) :
      Turn c item st (.request (.vocoded outcome caught))
        { st with control := .emitting report clear }
  | swallowed {job : VocodeJob} {clear : Bool} {outcome : Outcome} {what : String}
      (hc : st.control = .vocoding job clear) (hr : emitChunk job outcome = .error what) :
      Turn c item st (.request (.vocoded outcome true)) (st.callbackReturned false)
  | failed {job : VocodeJob} {clear : Bool} {outcome : Outcome} {what : String}
      (hc : st.control = .vocoding job clear) (hr : emitChunk job outcome = .error what) :
      Turn c item st (.request (.vocoded outcome false)) (st.drain (.threw what))
  | reported {a : Answer} {report : Report} {clear : Bool}
      (hc : st.control = .emitting report clear) :
      Turn c item st (.request a) (st.callbackReturned clear)
  | poisoned {a : Answer} {exit : Exit} (hc : st.control = .poisoning exit) :
      Turn c item st (.request a)
        { st with control := .joining exit, vocodeQ := st.vocodeQ ++ [none] }
  | joined {a : Answer} {exit : Exit} (hc : st.control = .joining exit)
      (hv : st.vocoder = .returned) :
      Turn c item st (.request a) ({ st with vocoder := .absent }.settle exit)
  | decided {a : Answer} {ok : Bool} {totalFrames : Int} {ending : Ending}
      (hc : st.control = .deciding ok totalFrames) :
      Turn c item st (.request a) { st with control := .concluding ending }
  | concluded {elapsedMs : Int} {ending : Ending} (hc : st.control = .concluding ending) :
      Turn c item st (.request (.clock elapsedMs)) { st with control := .finished }
  | took {outcome : Outcome} {job : VocodeJob} {jobs : List (Option VocodeJob)}
      (hv : st.vocoder = .waiting) (hq : st.vocodeQ = some job :: jobs) :
      Turn c item st (.vocoder outcome) { st with vocoder := .vocoding job, vocodeQ := jobs }
  | ended {outcome : Outcome} {jobs : List (Option VocodeJob)}
      (hv : st.vocoder = .waiting) (hq : st.vocodeQ = none :: jobs) :
      Turn c item st (.vocoder outcome) { st with vocoder := .returned, vocodeQ := jobs }
  | decoded {outcome : Outcome} {job : VocodeJob} {report : Report}
      (hv : st.vocoder = .vocoding job) (hr : emitChunk job outcome = .ok report) :
      Turn c item st (.vocoder outcome) { st with vocoder := .emitting report }
  | undecoded {outcome : Outcome} {job : VocodeJob} {what : String}
      (hv : st.vocoder = .vocoding job) (hr : emitChunk job outcome = .error what) :
      Turn c item st (.vocoder outcome)
        { st with vocoder := .waiting, vocodeError := some what }
  | wrote {outcome : Outcome} {report : Report} (hv : st.vocoder = .emitting report) :
      Turn c item st (.vocoder outcome) { st with vocoder := .waiting }

theorem turn_of_step {c : Config} {item : Json} {id : String} {cancelled : Bool} {input : Input}
    {st next : State} {action : Action} (h : step c item id cancelled input st = some (next, action)) :
    Turn c item st input next := by
  cases input with
  | request a =>
      change requestStep c item id cancelled a st = some (next, action) at h
      unfold requestStep at h
      split at h
      · rename_i hc
        split at h
        · cases h
          exact .left (.inl hc) fun _ _ hg => by rw [hc] at hg; cases hg
        · rename_i o ho
          cases h
          exact .built hc ho rfl
      · rename_i hc
        cases h
        exact .left (.inr (.inl hc)) nofun
      · rename_i hc _
        cases h
        exact .spawned hc
      · rename_i hc
        split at h
        · rename_i o ho
          split at h
          · rename_i hs
            cases h
            exact .called hc ho hs
          · cases h
        · cases h
      · rename_i hc
        cases h
        exact .left (.inr (.inr hc)) nofun
      · rename_i hc
        cases h
        exact .left (.inr (.inr hc)) nofun
      · rename_i hc
        split at h
        · rename_i hr
          cases h
          exact .vocoded hc hr
        · rename_i hr
          split at h
          · rename_i hcaught
            cases h
            subst hcaught
            exact .swallowed hc hr
          · rename_i hcaught
            cases h
            rw [Bool.not_eq_true] at hcaught
            subst hcaught
            exact .failed hc hr
      · rename_i hc
        obtain ⟨o, -, h⟩ := Option.map_eq_some_iff.mp h
        cases h
        exact .reported hc
      · rename_i hc
        cases h
        exact .poisoned hc
      · rename_i hc
        split at h
        · rename_i hv
          cases h
          exact .joined hc hv
        · cases h
      · rename_i hc
        cases h
        exact .decided hc
      · rename_i hc
        cases h
        exact .concluded hc
      · cases h
  | vocoder outcome =>
      change vocoderStep c id outcome st = some (next, action) at h
      unfold vocoderStep at h
      split at h
      · cases h
      · cases h
      · rename_i hv
        split at h
        · rename_i hq
          cases h
          exact .took hv hq
        · rename_i hq
          cases h
          exact .ended hv hq
        · cases h
      · rename_i hv
        split at h
        · rename_i hr
          cases h
          exact .decoded hv hr
        · rename_i hr
          cases h
          exact .undecoded hv hr
      · rename_i hv
        obtain ⟨o, -, h⟩ := Option.map_eq_some_iff.mp h
        cases h
        exact .wrote hv

/-- Every step of a request is a turn of one of its threads. -/
theorem turn_of_trace {c : Config} {item : Json} {id : String} {t u : Trace} {l : Bool × Input}
    (h : t.step c item id l = some u) : Turn c item t.st l.2 u.st ∧ u = t.extend l.2 u.st := by
  obtain ⟨next, hnext, rfl⟩ := Option.map_eq_some_iff.mp h
  exact ⟨turn_of_step hnext, rfl⟩

/-- An invariant of a request is one that its turns keep. -/
theorem invariant_of_turns {c : Config} {item : Json} {id : String} {I : Trace → Prop}
    (start : I {}) (turn : ∀ {t input next}, I t → Turn c item t.st input next →
      I (t.extend input next)) : (requestSystem c item id).Invariant I where
  start := start
  step hi h := by
    obtain ⟨hturn, hu⟩ := turn_of_trace h
    exact hu ▸ turn hi hturn

end JetsonVoice.Tts.Qwen3
