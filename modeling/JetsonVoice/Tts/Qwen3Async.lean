import JetsonVoice.Tts.Qwen3Chunks
import JetsonVoice.Tts.Qwen3Terminal

/-!
# Overlapped and inline Code2Wav

With `useAsyncVocode` the chunks of a request go through a queue to a thread of
their own. The queue is drained and the thread joined before the request
concludes, so that the same chunks are written as without it.
-/

namespace JetsonVoice.Tts.Qwen3

open Foundation TransitionSystem

/-- The chunk a report carries. -/
def Report.chunk? : Report → Option VocodeJob
  | .chunk job _ => some job
  | .failed => none

def Emission.chunk? : Emission → Option VocodeJob
  | .report r => r.chunk?
  | .ending _ => none

/-- Events that end a request for its client. -/
def Emission.terminal : Emission → Bool
  | .report (.chunk _ _) => false
  | .report .failed | .ending _ => true

/-- The chunks written. -/
def Trace.emitted (t : Trace) : List VocodeJob := t.emissions.filterMap fun e => e.1.chunk?

/-- Whether Code2Wav returns `false` at a step. -/
def State.fails (st : State) : Input → Bool
  | .request (.vocoded outcome _) => match st.control with
    | .vocoding job _ => decide ((emitChunk job outcome).toOption = some .failed)
    | _ => false
  | .vocoder outcome => match st.vocoder with
    | .vocoding job => decide ((emitChunk job outcome).toOption = some .failed)
    | _ => false
  | _ => false

/-- The runs in which Code2Wav never returns `false`. -/
def soundSystem (c : Config) (item : Json) (id : String) : TransitionSystem Trace (Bool × Input) :=
  (requestSystem c item id).guard fun t l => t.st.fails l.2 = false

/-- When a terminal event is written the vocoder's thread is gone, and no chunk follows it. -/
def Trace.Concluded (t : Trace) : Prop :=
  ∀ before e joined after, t.emissions = before ++ (e, joined) :: after → e.terminal = true →
    joined = true ∧ ∀ later ∈ after, later.1.chunk? = none

section Pipe

/-- The thread has been started and not come to the poison job. -/
def Vocoder.running : Vocoder → Bool
  | .absent | .returned => false
  | .waiting | .vocoding _ | .emitting _ => true

/-- There is no thread, and nothing for it to do. -/
def State.idle (st : State) : Prop := st.vocoder = .absent ∧ st.vocodeQ = []

/-- The thread runs, the poison job has not been queued. -/
def State.flowing (st : State) : Prop := st.vocoder.running = true ∧ none ∉ st.vocodeQ

/-- The thread runs, the poison job is the last on the queue. -/
def State.draining (st : State) : Prop :=
  st.vocoder.running = true ∧ ∃ jobs : List VocodeJob, st.vocodeQ = jobs.map some ++ [none]

/-- The thread has returned, and has left nothing behind. -/
def State.drained (st : State) : Prop := st.vocoder = .returned ∧ st.vocodeQ = []

/-- The request has, or is about to have, a thread of its own for Code2Wav. -/
def State.overlapped (c : Config) (st : State) : Bool :=
  c.useAsyncVocode && st.options.any Options.streaming

/-- What the vocoder's thread and its queue are like, by where the slot's thread stands. -/
def Piped (c : Config) (st : State) : Prop :=
  match st.control with
  | .building => st.idle
  | .spawning => st.idle ∧ st.overlapped c = true
  | .generating => st.overlapped c = true ∧ st.flowing ∨ st.overlapped c = false ∧ st.idle
  | .vocoding _ _ | .emitting _ _ => st.idle ∧ c.useAsyncVocode = false
  | .poisoning _ => st.flowing
  | .joining _ => st.draining ∨ st.drained
  | .deciding _ _ | .concluding _ | .finished => st.idle

variable {c : Config} {item : Json} {st next : State}

theorem Piped.settle (h : st.idle) (exit : Exit) : Piped c (st.settle exit) := by
  have hidle : (st.settle exit).idle := by
    cases exit with
    | returned => simp only [State.settle]; split <;> exact h
    | threw => exact h
  rcases settle_cases st exit with ⟨ok, n, hc⟩ | ⟨ending, hc⟩
  all_goals
    rw [Piped, hc]
    exact hidle

/-- The drain poisons the thread that runs. -/
theorem Piped.drain (h : st.flowing ∨ st.idle) (exit : Exit) : Piped c (st.drain exit) := by
  rw [State.drain]
  rcases h with h | h
  · rw [if_neg fun hv => by simp [hv, State.flowing, Vocoder.running] at h]
    exact h
  · rw [if_pos h.1]
    exact .settle h exit

theorem State.idle.not_running (h : st.idle) : st.vocoder.running = false := by
  rw [h.1]
  rfl

/-- A turn of the vocoder's thread moves the pipe on. -/
theorem Piped.vocoder (h : Piped c st) (hrun : st.vocoder.running = true)
    (hc : next.control = st.control) (ho : next.options = st.options)
    (hflow : st.flowing → next.flowing) (hdrain : st.draining → next.draining ∨ next.drained) :
    Piped c next := by
  have hidle : ¬ st.idle := fun hi => by simp [hi.not_running] at hrun
  have hover : next.overlapped c = st.overlapped c := by rw [State.overlapped, ho, State.overlapped]
  unfold Piped at h ⊢
  rw [hc, hover]
  split at h
  · exact absurd h hidle
  · exact absurd h.1 hidle
  · rcases h with h | h
    · exact .inl ⟨h.1, hflow h.2⟩
    · exact absurd h.2 hidle
  · exact absurd h.1 hidle
  · exact absurd h.1 hidle
  · exact hflow h
  · rcases h with h | h
    · exact hdrain h
    · simp [h.1, Vocoder.running] at hrun
  · exact absurd h hidle
  · exact absurd h hidle
  · exact absurd h hidle

/-- A job taken off the queue leaves the poison job where it is. -/
theorem State.draining.rest {job : VocodeJob} {jobs : List (Option VocodeJob)} (h : st.draining)
    (hq : st.vocodeQ = some job :: jobs) : ∃ js : List VocodeJob, jobs = js.map some ++ [none] := by
  obtain ⟨-, js, hjs⟩ := h
  rw [hq] at hjs
  cases js with
  | nil => simp at hjs
  | cons j js => exact ⟨js, by simpa using (List.cons.inj hjs).2⟩

theorem State.draining.last {jobs : List (Option VocodeJob)} (h : st.draining)
    (hq : st.vocodeQ = none :: jobs) : jobs = [] := by
  obtain ⟨-, js, hjs⟩ := h
  rw [hq] at hjs
  cases js with
  | nil => simpa using hjs
  | cons j js => simp at hjs

/-- The poison job behind a queue without one. -/
theorem jobs_of_unpoisoned {queue : List (Option VocodeJob)} (h : none ∉ queue) :
    ∃ jobs : List VocodeJob, queue ++ [none] = jobs.map some ++ [none] := by
  induction queue with
  | nil => exact ⟨[], rfl⟩
  | cons job queue ih =>
      obtain ⟨jobs, hjobs⟩ := ih (List.not_mem_of_not_mem_cons h)
      obtain ⟨job, rfl⟩ := Option.ne_none_iff_exists'.mp (Ne.symm (List.ne_of_not_mem_cons h))
      exact ⟨job :: jobs, by simpa using hjobs⟩

/-- Every turn keeps the pipe. -/
theorem Turn.piped {input : Input} (hp : Piped c st) (h : Turn c item st input next) :
    Piped c next := by
  cases h with
  | @built _ o control hc _ hn =>
      simp only [Piped, hc] at hp
      have hover : ({ st with options := some o, control := control } : State).overlapped c =
          (o.streaming && c.useAsyncVocode) := by
        simp [State.overlapped, Bool.and_comm]
      cases hs : o.streaming && c.useAsyncVocode with
      | true =>
          rw [hs, if_pos rfl] at hn
          rw [hs] at hover
          subst hn
          exact ⟨hp, hover⟩
      | false =>
          rw [hs, if_neg Bool.false_ne_true] at hn
          rw [hs] at hover
          subst hn
          exact .inr ⟨hover, hp⟩
  | left hc =>
      apply Piped.drain
      rcases hc with hc | hc | hc
      · simp only [Piped, hc] at hp
        exact .inr hp
      · simp only [Piped, hc] at hp
        exact .inr hp.1
      · simp only [Piped, hc] at hp
        exact hp.imp And.right And.right
  | spawned hc =>
      simp only [Piped, hc] at hp
      exact .inl ⟨hp.2, rfl, by simp [hp.1.2]⟩
  | @called o codes isFinal hc ho hs =>
      have hd := onChunkReady_feed (c := c) (o := o) hc codes isFinal
      simp only [Piped, hc] at hp
      have hover : st.overlapped c = c.useAsyncVocode := by simp [State.overlapped, ho, hs]
      have hover' : (st.onChunkReady c o codes isFinal).overlapped c = st.overlapped c := by
        rw [State.overlapped, hd.options, State.overlapped]
      rw [hover] at hp hover'
      rcases hp with ⟨ha, hflow⟩ | ⟨ha, hidle⟩
      · obtain ⟨hg, -⟩ := hd.control.resolve_right fun hv => by simp [ha] at hv
        rw [Piped, hg]
        refine .inl ⟨hover'.trans ha, hd.vocoder ▸ hflow.1, ?_⟩
        rw [hd.queue]
        simp [hflow.2]
      · have hidle' : (st.onChunkReady c o codes isFinal).idle := by
          refine ⟨hd.vocoder.trans hidle.1, ?_⟩
          rw [hd.queue, hidle.2, ha]
          simp
        rcases hd.control with ⟨hg, -⟩ | ⟨-, j, clear, -, hg⟩
        · rw [Piped, hg]
          exact .inr ⟨hover'.trans ha, hidle'⟩
        · rw [Piped, hg]
          exact ⟨hidle', ha⟩
  | vocoded hc =>
      simp only [Piped, hc] at hp
      exact hp
  | swallowed hc =>
      simp only [Piped, hc] at hp
      exact .inr ⟨by simp [State.overlapped, State.callbackReturned, hp.2], hp.1⟩
  | failed hc =>
      simp only [Piped, hc] at hp
      exact .drain (.inr hp.1) _
  | reported hc =>
      simp only [Piped, hc] at hp
      exact .inr ⟨by simp [State.overlapped, State.callbackReturned, hp.2], hp.1⟩
  | poisoned hc =>
      simp only [Piped, hc] at hp
      exact .inl ⟨hp.1, jobs_of_unpoisoned hp.2⟩
  | joined hc hv =>
      simp only [Piped, hc] at hp
      have hq : st.vocodeQ = [] := by
        rcases hp with hp | hp
        · simp [State.draining, hv, Vocoder.running] at hp
        · exact hp.2
      have hidle : ({ st with vocoder := .absent } : State).idle := ⟨rfl, hq⟩
      exact .settle hidle _
  | decided hc =>
      simp only [Piped, hc] at hp
      exact hp
  | concluded hc =>
      simp only [Piped, hc] at hp
      exact hp
  | took hv hq =>
      refine hp.vocoder (by rw [hv]; rfl) rfl rfl ?_ ?_
      · intro hf
        exact ⟨rfl, fun hm => hf.2 (hq ▸ List.mem_cons_of_mem _ hm)⟩
      · intro hf
        exact .inl ⟨rfl, hf.rest hq⟩
  | ended hv hq =>
      refine hp.vocoder (by rw [hv]; rfl) rfl rfl ?_ ?_
      · intro hf
        exact absurd (by simp [hq]) hf.2
      · intro hf
        exact .inr ⟨rfl, hf.last hq⟩
  | decoded hv | undecoded hv | wrote hv =>
      refine hp.vocoder (by rw [hv]; rfl) rfl rfl ?_ ?_
      · intro hf
        exact ⟨rfl, hf.2⟩
      · intro hf
        exact .inl ⟨rfl, hf.2⟩

end Pipe

section Accounts

/-- The chunk the vocoder's thread is at. -/
def Vocoder.inFlight : Vocoder → List VocodeJob
  | .vocoding job => [job]
  | .emitting report => report.chunk?.toList
  | _ => []

/-- The chunk the callback is at. -/
def Control.inFlight : Control → List VocodeJob
  | .vocoding job _ => [job]
  | .emitting report _ => report.chunk?.toList
  | _ => []

/-- The chunks delivered and not yet written, in order. -/
def State.pending (st : State) : List VocodeJob :=
  st.control.inFlight ++ st.vocoder.inFlight ++ st.vocodeQ.filterMap fun job => job

/-- What has been delivered is written or pending. -/
def Accounted (t : Trace) : Prop := t.delivered = t.emitted ++ t.st.pending

variable {c : Config} {item : Json} {id : String} {o : Options} {t : Trace} {input : Input}
  {next : State}

theorem emitted_extend : (t.extend input next).emitted =
    t.emitted ++ (t.st.emits input).filterMap Emission.chunk? := by
  simp [Trace.emitted, Trace.extend]

theorem settle_pending (st : State) (exit : Exit) :
    (st.settle exit).pending = st.vocoder.inFlight ++ st.vocodeQ.filterMap fun job => job := by
  have hkeep : (st.settle exit).vocoder = st.vocoder ∧ (st.settle exit).vocodeQ = st.vocodeQ := by
    cases exit with
    | returned => simp only [State.settle]; split <;> exact ⟨rfl, rfl⟩
    | threw => exact ⟨rfl, rfl⟩
  have hcontrol : (st.settle exit).control.inFlight = [] := by
    rcases settle_cases st exit with ⟨ok, n, hc⟩ | ⟨ending, hc⟩
    all_goals rw [hc]; rfl
  rw [State.pending, hkeep.1, hkeep.2, hcontrol, List.nil_append]

theorem drain_pending (st : State) (exit : Exit) :
    (st.drain exit).pending = st.vocoder.inFlight ++ st.vocodeQ.filterMap fun job => job := by
  rw [State.drain]
  split
  · exact settle_pending st exit
  · rfl

/-- What leaves the pending chunks is written. -/
theorem Accounted.quiet (ha : Accounted t) (hindex : next.chunkIndex = t.st.chunkIndex)
    (hpending : (t.st.emits input).filterMap Emission.chunk? ++ next.pending = t.st.pending) :
    Accounted (t.extend input next) := by
  rw [Accounted, emitted_extend, List.append_assoc]
  simp only [Trace.extend, State.deliveredTo, hindex, if_true, List.append_nil]
  rw [hpending]
  exact ha

/-- Code2Wav writes the chunk it was given, unless it fails or throws. -/
theorem chunk?_of_emitChunk {job : VocodeJob} {outcome : Outcome} {report : Report}
    (h : emitChunk job outcome = .ok report) (hf : report ≠ .failed) : report.chunk? = some job := by
  cases outcome with
  | wave w =>
      cases h
      rfl
  | failed =>
      simp only [emitChunk] at h
      split at h
      · cases h
        rfl
      · cases h
        exact absurd rfl hf
  | threw what =>
      simp only [emitChunk] at h
      split at h
      · cases h
        rfl
      · cases h

/-- While the vocoder's thread runs, the callback has no chunk of its own. -/
theorem Piped.control_inFlight (h : Piped c t.st) (hrun : t.st.vocoder.running = true) :
    t.st.control.inFlight = [] := by
  have hidle : ¬ t.st.idle := fun hi => by simp [hi.not_running] at hrun
  cases hc : t.st.control with
  | vocoding | emitting =>
      simp only [Piped, hc] at h
      exact absurd h.1 hidle
  | _ => rfl

theorem Turn.accounted (hp : Piped c t.st) (ha : Accounted t)
    (h : Turn c item t.st input next) (hfails : t.st.fails input = false)
    (hthrows : t.st.throws input = false) : Accounted (t.extend input next) := by
  cases h with
  | built hc _ hn =>
      refine ha.quiet rfl ?_
      rw [hn]
      split
      all_goals simp [State.emits, State.pending, hc, Control.inFlight]
  | left hc =>
      refine ha.quiet (drain_chunkIndex _ _) ?_
      rw [drain_pending]
      rcases hc with hc | hc | hc
      all_goals simp [State.emits, State.pending, hc, Control.inFlight]
  | spawned hc =>
      have hidle : t.st.idle := by
        simp only [Piped, hc] at hp
        exact hp.1
      refine ha.quiet rfl ?_
      simp [State.emits, State.pending, hc, hidle.1, Control.inFlight, Vocoder.inFlight]
  | @called o codes isFinal hc ho hs =>
      have hd := onChunkReady_feed (c := c) (o := o) hc codes isFinal
      have hover : t.st.overlapped c = c.useAsyncVocode := by simp [State.overlapped, ho, hs]
      simp only [Piped, hc, hover] at hp
      have hpending : (t.st.onChunkReady c o codes isFinal).pending = t.st.pending ++
          t.st.deliveredTo (t.st.onChunkReady c o codes isFinal) := by
        rw [State.pending, State.pending, hd.vocoder, hd.queue, hd.delivered, hc]
        have hcontrol := hd.control
        generalize ((t.st.regroup.feed o.steady codes isFinal).2.map (t.st.jobOf isFinal)) = job
          at hcontrol ⊢
        rcases hp with ⟨ha, -⟩ | ⟨ha, hidle⟩
        · obtain ⟨hg, -⟩ := hcontrol.resolve_right fun hv => by simp [ha] at hv
          cases job <;> simp [hg, ha, Control.inFlight]
        · rcases hcontrol with ⟨hg, hjob⟩ | ⟨-, j, clear, rfl, hg⟩
          · obtain rfl : job = none := hjob.resolve_left fun hv => by simp [ha] at hv
            simp [hg, Control.inFlight]
          · simp [hg, ha, hidle.1, hidle.2, Control.inFlight, Vocoder.inFlight]
      rw [Accounted, emitted_extend]
      simp only [Trace.extend, hpending, State.emits, hc, List.filterMap_nil, List.append_nil]
      rw [← List.append_assoc, ha]
  | vocoded hc hr =>
      have hr' := chunk?_of_emitChunk hr (by rintro rfl; simp [State.fails, hc, hr, Except.toOption] at hfails)
      refine ha.quiet rfl ?_
      simp [State.emits, State.pending, hc, Control.inFlight, hr']
  | swallowed hc hr =>
      simp [State.throws, hc, hr, Except.isOk, Except.toBool] at hthrows
  | failed hc hr =>
      simp [State.throws, hc, hr, Except.isOk, Except.toBool] at hthrows
  | @reported _ report _ hc =>
      refine ha.quiet rfl ?_
      cases report with
      | chunk | failed =>
          simp [State.emits, State.pending, State.callbackReturned, hc, Control.inFlight,
            Emission.chunk?, Report.chunk?]
  | poisoned hc =>
      refine ha.quiet rfl ?_
      simp [State.emits, State.pending, hc, Control.inFlight]
  | joined hc hv =>
      refine ha.quiet (settle_chunkIndex _ _) ?_
      rw [settle_pending]
      simp [State.emits, State.pending, hc, hv, Control.inFlight, Vocoder.inFlight]
  | decided hc =>
      refine ha.quiet rfl ?_
      simp [State.emits, State.pending, hc, Control.inFlight]
  | concluded hc =>
      refine ha.quiet rfl ?_
      simp [State.emits, State.pending, hc, Control.inFlight, Emission.chunk?]
  | took hv hq =>
      refine ha.quiet rfl ?_
      simp [State.emits, State.pending, hv, hq, Vocoder.inFlight]
  | ended hv hq =>
      refine ha.quiet rfl ?_
      simp [State.emits, State.pending, hv, hq, Vocoder.inFlight]
  | decoded hv hr =>
      have hr' := chunk?_of_emitChunk hr (by rintro rfl; simp [State.fails, hv, hr, Except.toOption] at hfails)
      refine ha.quiet rfl ?_
      simp [State.emits, State.pending, hv, Vocoder.inFlight, hr']
  | undecoded hv hr =>
      simp [State.throws, hv, hr, Except.isOk, Except.toBool] at hthrows
  | @wrote _ report hv =>
      have hin := hp.control_inFlight (by rw [hv]; rfl)
      refine ha.quiet rfl ?_
      cases report with
      | chunk | failed =>
          simp [State.emits, State.pending, hv, hin, Vocoder.inFlight, Emission.chunk?,
            Report.chunk?]

end Accounts

section Ending
variable {c : Config} {item : Json} {id : String} {t : Trace} {input : Input} {st next : State}

/-- The common tail writes the last event, and nothing moves after it. -/
theorem Turn.ends (hp : Piped c st) (h : Turn c item st input next) :
    st.control ≠ .finished ∧
      ((∃ ending, st.control = .concluding ending ∧ st.emits input = [.ending ending] ∧
          next.control = .finished) ∨
        next.control ≠ .finished ∧ ∀ e ∈ st.emits input, ∃ report, e = .report report) := by
  have hopen (hrun : st.vocoder.running = true) : st.control ≠ .finished := by
    intro hc
    simp only [Piped, hc] at hp
    simp [hp.not_running] at hrun
  have hvocoder (outcome : Outcome) : ∀ e ∈ st.emits (.vocoder outcome), ∃ report, e = .report report := by
    cases hv : st.vocoder <;> simp [State.emits, hv]
  cases h with
  | built hc _ hn =>
      refine ⟨by simp [hc], .inr ⟨?_, by simp [State.emits, hc]⟩⟩
      rw [hn]
      split <;> simp
  | left hc =>
      rcases hc with hc | hc | hc
      all_goals exact ⟨by simp [hc], .inr ⟨(drain_control _ _).2.1, by simp [State.emits, hc]⟩⟩
  | @called o codes isFinal hc =>
      refine ⟨by simp [hc], .inr ⟨?_, by simp [State.emits, hc]⟩⟩
      rcases (onChunkReady_feed (c := c) (o := o) hc codes isFinal).control with ⟨hg, -⟩ | ⟨-, j, clear, -, hg⟩
      all_goals simp [hg]
  | failed hc => exact ⟨by simp [hc], .inr ⟨(drain_control _ _).2.1, by simp [State.emits, hc]⟩⟩
  | joined hc =>
      exact ⟨by simp [hc], .inr ⟨(settle_control _ _).2, by simp [State.emits, hc]⟩⟩
  | concluded hc => exact ⟨by simp [hc], .inl ⟨_, hc, by simp [State.emits, hc], rfl⟩⟩
  | spawned hc | vocoded hc | poisoned hc | decided hc =>
      exact ⟨by simp [hc], .inr ⟨by simp, by simp [State.emits, hc]⟩⟩
  | swallowed hc | reported hc =>
      exact ⟨by simp [hc], .inr ⟨by simp [State.callbackReturned], by simp [State.emits, hc]⟩⟩
  | took hv | ended hv | decoded hv | undecoded hv | wrote hv =>
      have hne := hopen (by rw [hv]; rfl)
      exact ⟨hne, .inr ⟨hne, hvocoder _⟩⟩

/-- The event of the common tail is the last one, written after the join. -/
structure Closed (t : Trace) : Prop where
  unended : t.st.control ≠ .finished → ∀ e ∈ t.emissions, ∃ report, e.1 = .report report
  ended : t.st.control = .finished → ∃ before ending,
    t.emissions = before ++ [(.ending ending, true)] ∧ ∀ e ∈ before, ∃ report, e.1 = .report report

theorem Turn.closed (hp : Piped c t.st) (hcl : Closed t) (h : Turn c item t.st input next) :
    Closed (t.extend input next) := by
  obtain ⟨hopen, ⟨ending, hc, he, hf⟩ | ⟨hf, he⟩⟩ := h.ends hp
  · have hidle : t.st.idle := by
      simp only [Piped, hc] at hp
      exact hp
    refine ⟨fun hne => absurd hf hne, fun _ => ⟨t.emissions, ending, ?_, hcl.unended hopen⟩⟩
    simp [Trace.extend, he, hidle.1]
  · refine ⟨fun _ e hm => ?_, fun hc => absurd hc hf⟩
    rw [Trace.extend, List.mem_append, List.mem_map] at hm
    rcases hm with hm | ⟨e, hm, rfl⟩
    · exact hcl.unended hopen e hm
    · exact he e hm

theorem closed_invariant (c : Config) (item : Json) (id : String) :
    (requestSystem c item id).Invariant fun t => Piped c t.st ∧ Closed t := by
  apply invariant_of_turns
  · exact ⟨⟨rfl, rfl⟩, fun _ => nofun, nofun⟩
  · intro t input next hi h
    exact ⟨h.piped hi.1, h.closed hi.1 hi.2⟩

/-- No `false` of Code2Wav has been reported, or is about to be. -/
structure Sound (t : Trace) : Prop where
  written : ∀ e ∈ t.emissions, e.1 ≠ .report .failed
  quiet : t.st.reports = false

/-- A failure is written only when it is about to be. -/
theorem emits_failed (h : Emission.report .failed ∈ st.emits input) : st.reports = true := by
  cases input with
  | request a =>
      cases hc : st.control with
      | emitting report clear =>
          obtain rfl : report = .failed := by simpa [State.emits, hc, eq_comm] using h
          simp [State.reports, hc, Control.reports]
      | _ => simp [State.emits, hc] at h
  | vocoder outcome =>
      cases hv : st.vocoder with
      | emitting report =>
          obtain rfl : report = .failed := by simpa [State.emits, hv, eq_comm] using h
          simp [State.reports, hv, Vocoder.reports]
      | _ => simp [State.emits, hv] at h

theorem Turn.quiet (hq : st.reports = false) (h : Turn c item st input next)
    (hfails : st.fails input = false) : next.reports = false := by
  obtain ⟨hqc, hqv⟩ := Bool.or_eq_false_iff.mp hq
  cases h with
  | built hc _ hn =>
      rw [State.reports, hn]
      split <;> simpa [Control.reports] using hqv
  | left => simp [State.reports, drain_control, drain_vocoder, hqv]
  | failed => simp [State.reports, drain_control, drain_vocoder, hqv]
  | joined => simp [State.reports, settle_control, settle_vocoder, Vocoder.reports]
  | @called o codes isFinal hc =>
      obtain ⟨hv, hctrl⟩ := onChunkReady_spec c st o codes isFinal
      rcases hctrl with hctrl | ⟨job, clear, hctrl⟩
      all_goals simp [State.reports, hv, hctrl, hc, hqv, Control.reports]
  | @vocoded _ _ _ _ report hc hr =>
      have hne : report ≠ .failed := by
        rintro rfl
        simp [State.fails, hc, hr, Except.toOption] at hfails
      simp [State.reports, hqv, hne, Control.reports]
  | @decoded _ _ report hv hr =>
      have hne : report ≠ .failed := by
        rintro rfl
        simp [State.fails, hv, hr, Except.toOption] at hfails
      simp [State.reports, hqc, hne, Vocoder.reports]
  | spawned => rfl
  | swallowed | reported | poisoned | decided | concluded =>
      simpa [State.reports, State.callbackReturned, Control.reports] using hqv
  | took | ended | undecoded | wrote => simpa [State.reports, Vocoder.reports] using hqc

theorem Turn.sound (hs : Sound t) (h : Turn c item t.st input next)
    (hfails : t.st.fails input = false) : Sound (t.extend input next) := by
  refine ⟨fun e he => ?_, h.quiet hs.quiet hfails⟩
  rw [Trace.extend, List.mem_append, List.mem_map] at he
  rcases he with he | ⟨e, he, rfl⟩
  · exact hs.written e he
  · rintro rfl
    exact Bool.false_ne_true (hs.quiet.symm.trans (emits_failed he))

/-- What a run without a `false` of Code2Wav keeps. -/
structure Ordered (c : Config) (t : Trace) : Prop where
  piped : Piped c t.st
  closed : Closed t
  sound : Sound t
  accounted : t.threw = false → Accounted t

theorem ordered_invariant (c : Config) (item : Json) (id : String) :
    (soundSystem c item id).Invariant (Ordered c) where
  start := by
    refine ⟨⟨rfl, rfl⟩, ⟨fun _ => nofun, nofun⟩, ⟨nofun, rfl⟩, fun _ => rfl⟩
  step {t l u} ho h := by
    obtain ⟨hfails, h⟩ := guard_step.mp h
    obtain ⟨hturn, hu⟩ := turn_of_trace h
    rw [hu]
    refine ⟨hturn.piped ho.piped, hturn.closed ho.piped ho.closed, hturn.sound ho.sound hfails, ?_⟩
    intro hthrew
    obtain ⟨hthrew, hthrows⟩ := Bool.or_eq_false_iff.mp hthrew
    exact hturn.accounted ho.piped (ho.accounted hthrew) hfails hthrows

/-- Without a `false` of Code2Wav the terminal event is that of the common tail. -/
theorem Ordered.concluded (ho : Ordered c t) : t.Concluded := by
  intro before e joined after heq hterminal
  have hmem : (e, joined) ∈ t.emissions := by simp [heq]
  have hreport : ∀ report, e = .report report → False := by
    rintro report rfl
    cases report with
    | chunk => cases hterminal
    | failed => exact ho.sound.written _ hmem rfl
  by_cases hc : t.st.control = .finished
  · obtain ⟨init, ending, hinit, hreports⟩ := ho.closed.ended hc
    rw [hinit] at heq
    rcases List.eq_nil_or_concat' after with rfl | ⟨after, last, rfl⟩
    · obtain ⟨-, hlast⟩ := List.append_inj' heq rfl
      cases hlast
      exact ⟨rfl, nofun⟩
    · rw [← List.cons_append, ← List.append_assoc] at heq
      obtain ⟨hbefore, -⟩ := List.append_inj' heq rfl
      obtain ⟨report, he⟩ := hreports (e, joined) (by simp [hbefore])
      exact (hreport report he).elim
  · obtain ⟨report, he⟩ := ho.closed.unended hc _ hmem
    exact (hreport report he).elim

/-- A request that has concluded has written every chunk it has delivered. -/
theorem Ordered.emitted (ho : Ordered c t) (hc : t.st.control = .finished)
    (ht : t.threw = false) : t.emitted = t.delivered := by
  have hidle : t.st.idle := by
    have hp := ho.piped
    simp only [Piped, hc] at hp
    exact hp
  have ha := ho.accounted ht
  rw [Accounted, State.pending, hc, hidle.1, hidle.2] at ha
  simpa [Control.inFlight, Vocoder.inFlight] using ha.symm

end Ending

/-- Only an exception can be swallowed. -/
theorem threw_of_swallowed {c : Config} {item : Json} {id : String} {t : Trace}
    (h : (requestSystem c item id).Reachable t) (hs : t.swallowed = true) : t.threw = true := by
  have inv : (requestSystem c item id).Invariant fun t => t.swallowed = true → t.threw = true := by
    apply invariant_of_turns
    · nofun
    · intro t input next hi _ hs
      rcases Bool.or_eq_true_iff.mp hs with hs | hs
      · exact Bool.or_eq_true_iff.mpr (.inl (hi hs))
      · refine Bool.or_eq_true_iff.mpr (.inr ?_)
        unfold State.swallows at hs
        split at hs
        · exact (Bool.and_eq_true_iff.mp hs).1
        · cases hs
  exact inv.of_reachable h hs

/-- What a concluded request has written depends only on the callbacks. -/
theorem emitted_of_callbacks {c : Config} {item : Json} {id : String} {t : Trace}
    {steady : Option Int} (hsteady : ∀ o, buildRequest item = .ok o → o.steady = steady)
    (h : (soundSystem c item id).Reachable t) (hc : t.st.control = .finished)
    (ht : t.threw = false) : t.emitted = numbered (Regroup.run steady t.callbacks).2 := by
  have hs : t.swallowed = false := by
    by_contra hs
    have := threw_of_swallowed h.of_guard (by simpa using hs)
    simp [this] at ht
  rw [((ordered_invariant c item id).of_reachable h).emitted hc ht]
  exact (grouped_of_reachable hsteady h.of_guard hs).delivered

/-- The common tail writes its event after the join, whatever happened before,
and writes nothing after it. -/
theorem ending_last {c : Config} {item : Json} {id : String} {t : Trace}
    (h : (requestSystem c item id).Reachable t) (hc : t.st.control = .finished) :
    ∃ before ending, t.emissions = before ++ [(.ending ending, true)] ∧
      ∀ e ∈ before, ∃ report, e.1 = .report report :=
  ((closed_invariant c item id).of_reachable h).2.ended hc

/-- In every run in which Code2Wav never returns `false`, the vocoder's thread has
been joined when the terminal event is written, and no chunk follows. If Code2Wav
does not throw either, the chunks written are those of every run without such a
thread that has the same callbacks. -/
theorem async_refines_sync {c : Config} {item : Json} {id : String} {t : Trace}
    (h : (soundSystem c item id).Reachable t) :
    t.Concluded ∧
      ∀ u, (soundSystem { c with useAsyncVocode := false } item id).Reachable u →
        t.st.control = .finished → u.st.control = .finished → t.threw = false → u.threw = false →
        t.callbacks = u.callbacks → t.emitted = u.emitted := by
  refine ⟨((ordered_invariant c item id).of_reachable h).concluded, ?_⟩
  intro u hu htf huf ht hut hcallbacks
  obtain ⟨steady, hsteady⟩ : ∃ steady : Option Int,
      ∀ o, buildRequest item = .ok o → o.steady = steady := by
    cases hb : buildRequest item with
    | error => exact ⟨none, nofun⟩
    | ok o => exact ⟨o.steady, by rintro _ ⟨⟩; rfl⟩
  rw [emitted_of_callbacks hsteady h htf ht, emitted_of_callbacks hsteady hu huf hut, hcallbacks]

/-- A worker with a thread for Code2Wav. -/
def overlapping : Config := ⟨true, 24000⟩

/-- Two chunks of one request; Code2Wav answers `outcome` to the first. -/
def twoChunks (outcome : Outcome) : List (Bool × Input) :=
  [.request .ok, .request .ok, .request (.chunk [[1]] false), .vocoder outcome,
    .request (.chunk [[2]] true), .vocoder outcome, .vocoder outcome, .vocoder outcome,
    .vocoder (.wave { samples := 480 }), .vocoder outcome].map fun input => (false, input)

/-- The way from the last callback to the terminal event. -/
def concluding : List (Bool × Input) :=
  [.request (.returned true 2), .request .ok, .vocoder .failed, .request .ok, .request .ok,
    .request (.clock 5)].map fun input => (false, input)

/-- The same two chunks, vocoded in the callback. -/
def twoChunksInline : List (Bool × Input) :=
  [.request .ok, .request (.chunk [[1]] false), .request (.vocoded (.wave { samples := 480 }) false),
    .request .ok, .request (.chunk [[2]] true), .request (.vocoded (.wave { samples := 480 }) false),
    .request .ok, .request (.returned true 2), .request .ok,
    .request (.clock 5)].map fun input => (false, input)

/-- A request without fields of its own. -/
def plainRequest : Json := .obj [("id", .str "a"), ("text", .str "hello")]

theorem async_refines_sync_of_two_chunks :
    ∃ t u, (soundSystem overlapping plainRequest "a").Reachable t ∧
      (soundSystem synchronous plainRequest "a").Reachable u ∧
      t.emitted = u.emitted ∧ u.emitted.map VocodeJob.frames = [[[1]], [[2]]] := by
  obtain ⟨t, h, htf, ht, htc⟩ : ∃ t, (soundSystem overlapping plainRequest "a").Reachable t ∧
      t.st.control = .finished ∧ t.threw = false ∧ t.callbacks = [([[1]], false), ([[2]], true)] :=
    ⟨_, reachable_of_run (twoChunks (.wave { samples := 480 }) ++ concluding) rfl, rfl, rfl, rfl⟩
  obtain ⟨u, hu, huf, hut, huc, hue⟩ : ∃ u, (soundSystem synchronous plainRequest "a").Reachable u ∧
      u.st.control = .finished ∧ u.threw = false ∧ u.callbacks = [([[1]], false), ([[2]], true)] ∧
      u.emitted.map VocodeJob.frames = [[[1]], [[2]]] :=
    ⟨_, reachable_of_run twoChunksInline rfl, rfl, rfl, rfl, rfl⟩
  exact ⟨t, u, h, hu, (async_refines_sync h).2 u hu htf huf ht hut (htc.trans huc.symm), hue⟩

/-- The thread writes an error for the chunk Code2Wav refuses, and the next chunk after it. -/
theorem refused_chunk_then_chunk :
    ∃ t, (requestSystem overlapping plainRequest "a").Reachable t ∧ ¬ t.Concluded := by
  obtain ⟨t, h, he⟩ : ∃ t, (requestSystem overlapping plainRequest "a").Reachable t ∧
      t.emissions = [(.report .failed, false),
        (.report (.chunk ⟨[[2]], true, 1⟩ { samples := 480 }), false)] :=
    ⟨_, reachable_of_run (twoChunks .failed) rfl, rfl⟩
  refine ⟨t, h, fun hc => ?_⟩
  obtain ⟨hjoined, -⟩ := hc [] (.report .failed) false _ he rfl
  cases hjoined

end JetsonVoice.Tts.Qwen3
