import JetsonVoice.Tts.Qwen3Progress

/-!
# The terminal events of a Qwen3-TTS request

`emitChunk` reports a failed Code2Wav call as an `error` event and returns, and
the common tail still writes its own terminal event. So a request has exactly
one terminal event just in case none of its Code2Wav calls fails.
-/

namespace JetsonVoice.Tts.Qwen3

open Foundation Protocol TransitionSystem

/-- A terminal event is about to be written by a callback. -/
def Control.reports : Control → Bool
  | .emitting report _ => report = .failed
  | _ => false

/-- A terminal event is about to be written by the vocoder's thread. -/
def Vocoder.reports : Vocoder → Bool
  | .emitting report => report = .failed
  | _ => false

/-- The vocoder's thread is not there: not yet started, or joined. -/
def Control.alone : Control → Bool
  | .building | .spawning | .deciding _ _ | .concluding _ | .finished => true
  | _ => false

def State.reports (st : State) : Bool := st.control.reports || st.vocoder.reports

/-- A step inside the part that writes no terminal event of its own. -/
structure Inner (st next : State) : Prop where
  open_ : next.control ≠ .finished
  alone : next.control.alone = true → next.vocoder = .absent

/-- What a step of the request does, with the event it writes. -/
inductive Move (st next : State) : Action → Prop
  | inner (hi : Inner st next) (hr : next.reports = st.reports) : Move st next .none
  | flawed (hi : Inner st next) (hr : next.reports = true) : Move st next .note
  | write {e : Json} (hi : Inner st next) (hr : st.reports = (isTerminal e || next.reports)) :
      Move st next (.emit e)
  | close {e : Json} (hc : st.control.alone = true) (hn : next.control = .finished)
      (hv : next.vocoder = st.vocoder) (ht : isTerminal e = true) : Move st next (.emit e)

section Lemmas
variable {c : Config} {st : State} {o : Options}

theorem isTerminal_chunkEvent (id : String) (job : VocodeJob) (w : Wave) :
    isTerminal (chunkEvent c id o job w) = false := by
  simp [chunkEvent]

@[simp] theorem isTerminal_failure (id what : String) : isTerminal (failure id what) = true := by
  simp [failure]

theorem isTerminal_ending (id : String) (chunkIndex : Nat) (elapsedMs : Int) (ending : Ending) :
    isTerminal (ending.event c id chunkIndex elapsedMs) = true := by
  cases ending <;> simp [Ending.event]

/-- The terminal events among the reports are those of failed calls. -/
theorem isTerminal_report (id : String) (report : Report) :
    isTerminal (report.event c id o) = decide (report = .failed) := by
  cases report with
  | chunk job w => simp [Report.event, isTerminal_chunkEvent]
  | failed => simp [Report.event]

/-- A call is noted exactly where its report is a failure. -/
theorem report_cases (report : Report) :
    (report.action = .none ∧ report ≠ .failed) ∨ (report.action = .note ∧ report = .failed) := by
  cases report <;> simp [Report.action]

theorem settle_vocoder (exit : Exit) : (st.settle exit).vocoder = st.vocoder := by
  cases exit with
  | returned => simp only [State.settle]; split <;> rfl
  | threw => rfl

theorem settle_control (st : State) (exit : Exit) :
    (st.settle exit).control.reports = false ∧ (st.settle exit).control ≠ .finished := by
  cases exit with
  | returned => simp only [State.settle]; split <;> simp [Control.reports]
  | threw => simp [State.settle, Control.reports]

theorem drain_vocoder (exit : Exit) : (st.drain exit).vocoder = st.vocoder := by
  rw [State.drain]
  split
  · exact settle_vocoder exit
  · rfl

theorem drain_control (st : State) (exit : Exit) :
    (st.drain exit).control.reports = false ∧ (st.drain exit).control ≠ .finished ∧
      ((st.drain exit).control.alone = true → st.vocoder = .absent) := by
  rw [State.drain]
  split
  · rename_i ha
    exact ⟨(settle_control st exit).1, (settle_control st exit).2, fun _ => ha⟩
  · simp [Control.reports, Control.alone]

/-- A delivered chunk changes nothing but the place where the callback stands. -/
theorem deliverChunk_spec {st₀ : State} (hv : st.vocoder = st₀.vocoder)
    (hc : st.control = st₀.control) (frames : List Frame) (isFinal clear : Bool) :
    (st.deliverChunk c frames isFinal clear).vocoder = st₀.vocoder ∧
      ((st.deliverChunk c frames isFinal clear).control = st₀.control ∨
        ∃ job clear', (st.deliverChunk c frames isFinal clear).control = .vocoding job clear') := by
  simp only [State.deliverChunk]
  split
  · exact ⟨hv, .inl hc⟩
  · exact ⟨hv, .inr ⟨_, _, rfl⟩⟩

/-- A callback delivers a chunk or keeps its frames, whatever the aggregation. -/
theorem onChunkReady_spec (c : Config) (st : State) (o : Options) (codes : List Frame) (isFinal : Bool) :
    (st.onChunkReady c o codes isFinal).vocoder = st.vocoder ∧
      ((st.onChunkReady c o codes isFinal).control = st.control ∨
        ∃ job clear, (st.onChunkReady c o codes isFinal).control = .vocoding job clear) := by
  simp only [State.onChunkReady]
  split
  · split
    · split
      · refine deliverChunk_spec ?_ ?_ _ _ _ <;> rfl
      · split
        · refine deliverChunk_spec ?_ ?_ _ _ _ <;> rfl
        · exact ⟨rfl, .inl rfl⟩
    · refine deliverChunk_spec ?_ ?_ _ _ _ <;> rfl
  · exact deliverChunk_spec rfl rfl _ _ _

/-- Draining stays inside the part that writes no terminal event. -/
theorem inner_drain (exit : Exit) : Inner st (st.drain exit) := by
  obtain ⟨-, hf, ha⟩ := drain_control st exit
  exact ⟨hf, fun h => (drain_vocoder exit).trans (ha h)⟩

theorem reports_drain (exit : Exit) (h : st.control.reports = false) :
    (st.drain exit).reports = st.reports := by
  simp [State.reports, drain_vocoder, (drain_control st exit).1, h]

/-- The steps of the slot's thread. -/
theorem requestStep_move {item : Json} {id : String} {cancelled : Bool} {a : Answer}
    {next : State} {action : Action} (halone : st.control.alone = true → st.vocoder = .absent)
    (h : requestStep c item id cancelled a st = some (next, action)) : Move st next action := by
  unfold requestStep at h
  split at h
  · rename_i hc
    split at h
    · cases h
      exact .inner (inner_drain _) (reports_drain _ (by rw [hc]; rfl))
    · cases h
      refine .inner ⟨?_, fun _ => halone (by rw [hc]; rfl)⟩ ?_
      · split <;> simp
      · simp only [State.reports, hc]
        split <;> rfl
  · rename_i hc
    cases h
    exact .inner (inner_drain _) (reports_drain _ (by rw [hc]; rfl))
  · rename_i hc _
    cases h
    refine .inner ⟨by simp, by simp [Control.alone]⟩ ?_
    simp [State.reports, hc, halone (by rw [hc]; rfl), Control.reports, Vocoder.reports]
  · rename_i codes isFinal hc
    split at h
    · rename_i o ho
      split at h
      · cases h
        obtain ⟨hv, hctrl⟩ := onChunkReady_spec c st o codes isFinal
        rw [hc] at hctrl
        rcases hctrl with hctrl | ⟨job, clear, hctrl⟩
        all_goals
          refine .inner ⟨by simp [hctrl], by simp [hctrl, Control.alone]⟩ ?_
          simp [State.reports, hv, hctrl, hc, Control.reports]
      · cases h
    · cases h
  · rename_i hc
    cases h
    exact .inner (inner_drain _) (reports_drain _ (by rw [hc]; rfl))
  · rename_i hc
    cases h
    exact .inner (inner_drain _) (reports_drain _ (by rw [hc]; rfl))
  · rename_i hc
    split at h
    · rename_i report _
      cases h
      rcases report_cases report with ⟨ha, hr⟩ | ⟨ha, hr⟩
      · rw [ha]
        refine .inner ⟨by simp, by simp [Control.alone]⟩ ?_
        simp [State.reports, hc, hr, Control.reports]
      · rw [ha]
        refine .flawed ⟨by simp, by simp [Control.alone]⟩ ?_
        simp [State.reports, hr, Control.reports]
    · split at h
      · cases h
        refine .inner ⟨by simp [State.callbackReturned],
          by simp [State.callbackReturned, Control.alone]⟩ ?_
        simp [State.reports, State.callbackReturned, hc, Control.reports]
      · cases h
        exact .inner (inner_drain _) (reports_drain _ (by rw [hc]; rfl))
  · rename_i hc
    obtain ⟨o, -, h⟩ := Option.map_eq_some_iff.mp h
    cases h
    refine .write ⟨by simp [State.callbackReturned],
      by simp [State.callbackReturned, Control.alone]⟩ ?_
    simp [State.reports, State.callbackReturned, hc, Control.reports, isTerminal_report]
  · rename_i hc
    cases h
    refine .inner ⟨by simp, by simp [Control.alone]⟩ ?_
    simp [State.reports, hc, Control.reports]
  · rename_i exit hc
    split at h
    · rename_i hv
      cases h
      obtain ⟨hrep, hfin⟩ := settle_control { st with vocoder := .absent } exit
      refine .inner ⟨hfin, fun _ => settle_vocoder exit⟩ ?_
      have hvoc : st.vocoder.reports = false := by rw [hv]; rfl
      have hctrl : st.control.reports = false := by rw [hc]; rfl
      rw [State.reports, State.reports, hrep, settle_vocoder, hvoc, hctrl]
      rfl
    · cases h
  · rename_i hc
    cases h
    refine .inner ⟨by simp, fun _ => halone (by rw [hc]; rfl)⟩ ?_
    simp [State.reports, hc, Control.reports]
  · rename_i hc
    cases h
    exact .close (by rw [hc]; rfl) rfl rfl (isTerminal_ending _ _ _ _)
  · cases h

/-- The steps of the vocoder's thread. -/
theorem vocoderStep_move {id : String} {outcome : Outcome} {next : State} {action : Action}
    (halone : st.control.alone = true → st.vocoder = .absent)
    (h : vocoderStep c id outcome st = some (next, action)) : Move st next action := by
  have inner {v : Vocoder} {q : List (Option VocodeJob)} {err : Option String}
      (hv : st.vocoder ≠ .absent) :
      Inner st { st with vocodeQ := q, vocodeError := err, vocoder := v } := by
    have hno : st.control.alone ≠ true := fun ha => hv (halone ha)
    refine ⟨fun hf => hno ?_, fun ha => absurd ha hno⟩
    have hf' : st.control = .finished := hf
    rw [hf']
    rfl
  unfold vocoderStep at h
  split at h
  · cases h
  · cases h
  · rename_i hv
    have hne : st.vocoder ≠ .absent := by simp [hv]
    split at h
    · cases h
      exact .inner (inner hne) (by simp [State.reports, hv, Vocoder.reports])
    · cases h
      exact .inner (inner hne) (by simp [State.reports, hv, Vocoder.reports])
    · cases h
  · rename_i hv
    have hne : st.vocoder ≠ .absent := by simp [hv]
    split at h
    · rename_i report _
      cases h
      rcases report_cases report with ⟨ha, hr⟩ | ⟨ha, hr⟩
      · exact ha ▸ .inner (inner hne) (by simp [State.reports, hv, hr, Vocoder.reports])
      · exact ha ▸ .flawed (inner hne) (by simp [State.reports, hr, Vocoder.reports])
    · cases h
      exact .inner (inner hne) (by simp [State.reports, hv, Vocoder.reports])
  · rename_i hv
    have hne : st.vocoder ≠ .absent := by simp [hv]
    obtain ⟨o, -, h⟩ := Option.map_eq_some_iff.mp h
    cases h
    refine .write (inner hne) ?_
    simp [State.reports, hv, Vocoder.reports, isTerminal_report, Bool.or_comm]

theorem step_move {item : Json} {id : String} {cancelled : Bool} {input : Input} {next : State}
    {action : Action} (halone : st.control.alone = true → st.vocoder = .absent)
    (h : step c item id cancelled input st = some (next, action)) : Move st next action := by
  cases input with
  | request a => exact requestStep_move halone h
  | vocoder outcome => exact vocoderStep_move halone h

end Lemmas

/-- The state of a request and its events: a terminal event written or about to
be written inside the part that can throw means a failed Code2Wav call, and the
last event of all is terminal. -/
structure Ledger (noted : Bool) (st : State) (log : List Json) : Prop where
  alone : st.control.alone = true → st.vocoder = .absent
  inside : st.control ≠ .finished →
    (noted = true ↔ ¬ Unsettled isTerminal log ∨ st.reports = true)
  closed : st.control = .finished → ∃ before last, log = before ++ [last] ∧
    isTerminal last = true ∧ (noted = true ↔ ¬ Unsettled isTerminal before)

/-- Every step of a request keeps its ledger. -/
theorem Ledger.move {st next : State} {action : Action} {noted : Bool} {log : List Json}
    (hl : Ledger noted st log) (hopen : st.control ≠ .finished) (h : Move st next action) :
    Ledger (noted || decide (action = .note)) next (action.extend log) := by
  have hinside := hl.inside hopen
  cases h with
  | inner hi hr =>
      refine ⟨hi.alone, fun _ => ?_, fun hf => absurd hf hi.open_⟩
      simpa [Action.extend, hr] using hinside
  | flawed hi hr =>
      refine ⟨hi.alone, fun _ => ?_, fun hf => absurd hf hi.open_⟩
      simp [hr]
  | @write e hi hr =>
      refine ⟨hi.alone, fun _ => ?_, fun hf => absurd hf hi.open_⟩
      rw [hr] at hinside
      have hnoted : (noted || decide (Action.emit e = .note)) = true ↔ noted = true := by simp
      rw [hnoted, hinside, Action.extend, unsettled_append]
      cases isTerminal e <;> simp
  | @close e hc hn hv ht =>
      have habsent := hl.alone hc
      have hquiet : st.reports = false := by
        have hcr : st.control.reports = false := by
          cases hctrl : st.control <;> simp_all [Control.alone, Control.reports]
        simp [State.reports, habsent, hcr, Vocoder.reports]
      refine ⟨fun _ => hv.trans habsent, fun hne => absurd hn hne, fun _ => ⟨log, e, rfl, ht, ?_⟩⟩
      simpa [hquiet] using hinside

theorem ledger_law (c : Config) : LogLaw (engine c) Ledger where
  start := by
    refine ⟨fun _ => rfl, fun _ => ?_, nofun⟩
    simp [Unsettled, State.reports, State.start, Control.reports, Vocoder.reports, engine]
  step hf hs hl := by
    have hopen := of_decide_eq_false hf
    exact hl.move hopen (step_move hl.alone hs)

theorem Ledger.settled {noted : Bool} {st : State} {log : List Json} (hl : Ledger noted st log)
    (hf : st.control = .finished) : Settled isTerminal log ↔ noted = false := by
  obtain ⟨before, last, rfl, hlast, hnoted⟩ := hl.closed hf
  constructor
  · rintro ⟨before', last', heq, -, hbefore⟩
    obtain ⟨rfl, -⟩ := List.append_inj' heq rfl
    simpa [hbefore] using hnoted
  · intro hn
    exact ⟨before, last, rfl, hlast, by simpa [hn] using hnoted⟩

/-- A worker of the Qwen3-TTS design. -/
def system (c : Config) (maxSlots : Nat) : TransitionSystem (Worker (engine c)) (Label (engine c)) :=
  slotSystem (engine c) maxSlots

/-- In every run an accepted request that is no longer in flight has exactly one
terminal event, as its last one, just in case no Code2Wav call of it returned
`false`; its last event is terminal in any case. A request in flight can always
take a step, and after the runtime call has come back only finitely many. -/
theorem qwen3_terminal_events {c : Config} {maxSlots : Nat} {w : Worker (engine c)}
    (hr : (system c maxSlots).Reachable w) :
    (∀ {t}, t ∈ w.accepted → (∀ work ∈ w.inFlight, work.token ≠ t) →
      (Settled isTerminal (eventsOf w.out t) ↔ t ∉ w.noted) ∧
      ∃ before last, eventsOf w.out t = before ++ [last] ∧ isTerminal last = true) ∧
    (∀ {work}, work ∈ w.inFlight →
      ∃ i input w', (system c maxSlots).step w (.slot i input) = some w' ∧
        work ∈ w.requests i) ∧
    (∀ {item id cancelled input next action} {st : State}, st.ending = true →
      (engine c).step item id cancelled input st = some (next, action) →
      next.rank < st.rank ∧ (next.ending = true ∨ next.control = .finished)) := by
  refine ⟨fun ht hf => ?_, fun hm => ?_, fun he hs => rank_lt he hs⟩
  · obtain ⟨st, hfin, hl⟩ := closed_log (ledger_law c) hr ht hf
    have hclosed : st.control = .finished := of_decide_eq_true hfin
    obtain ⟨before, last, heq, hlast, -⟩ := hl.closed hclosed
    exact ⟨by simpa using hl.settled hclosed, before, last, heq, hlast⟩
  · obtain ⟨-, hl⟩ := (logged_invariant (sane_law c) maxSlots).of_reachable hr
    obtain ⟨i, s, hi, hmem, hreq⟩ := Worker.slot_of_inFlight hm
    have hw := (tended_invariant _ _).of_reachable hr
    have ha := (attended_invariant _ _).of_reachable hr
    obtain ⟨input, w', hs⟩ := slot_enabled hw ha hi hmem fun {held id st} ht hopen => by
      have hat : AtStage w held.token s.thread.stage := .held hi (by rw [ht]; rfl) rfl
      rw [ht] at hat
      exact enabled (hl hat) (of_decide_eq_false hopen) held.item id _
    exact ⟨i, input, w', hs, hreq⟩

/-- A worker that vocodes in the callback. -/
def synchronous : Config := ⟨false, 24000⟩

/-- One request from the line to the release; Code2Wav answers `outcome` to its only chunk. -/
def oneChunk (outcome : Outcome) : List (Label (engine synchronous)) :=
  [.line (.ok (.obj [("id", .str "a"), ("text", .str "hello")])), .main, .main,
    .slot 0 none, .slot 0 none, .slot 0 none,
    .slot 0 (some (.request .ok)),
    .slot 0 (some (.request (.chunk [[1]] true))),
    .slot 0 (some (.request (.vocoded outcome false))),
    .slot 0 (some (.request .ok)),
    .slot 0 (some (.request (.returned true 1))),
    .slot 0 (some (.request .ok)),
    .slot 0 (some (.request (.clock 5))),
    .slot 0 none, .slot 0 none, .slot 0 none, .slot 0 none]

theorem qwen3_terminal_events_of_chunk : ∃ w, (system synchronous 1).Reachable w ∧
    Settled isTerminal (eventsOf w.out 0) := by
  obtain ⟨w, hr, hacc, hfly, hnoted⟩ : ∃ w, (system synchronous 1).Reachable w ∧
      w.accepted = [0] ∧ w.inFlight = [] ∧ w.noted = [] :=
    ⟨_, reachable_of_run (oneChunk (.wave { samples := 480 })) rfl, rfl, rfl, rfl⟩
  refine ⟨w, hr, (((qwen3_terminal_events hr).1 ?_ ?_).1).mpr ?_⟩
  · simp [hacc]
  · simp [hfly]
  · simp [hnoted]

/-- A chunk whose Code2Wav call returns `false` is answered with an `error`
event, and the request goes on to its `done`. -/
theorem qwen3_failed_chunk_then_done : ∃ w, (system synchronous 1).Reachable w ∧
    0 ∈ w.accepted ∧ w.inFlight = [] ∧
    (eventsOf w.out 0).map eventName = ["error", "done"] ∧
    ¬ Settled isTerminal (eventsOf w.out 0) := by
  obtain ⟨w, hr, hacc, hfly, hnames, hcount⟩ : ∃ w, (system synchronous 1).Reachable w ∧
      w.accepted = [0] ∧ w.inFlight = [] ∧
      (eventsOf w.out 0).map eventName = ["error", "done"] ∧
      (eventsOf w.out 0).countP isTerminal = 2 :=
    ⟨_, reachable_of_run (oneChunk .failed) rfl, rfl, rfl, rfl, rfl⟩
  refine ⟨w, hr, by simp [hacc], hfly, hnames, fun hs => ?_⟩
  have := hs.count
  omega

end JetsonVoice.Tts.Qwen3
