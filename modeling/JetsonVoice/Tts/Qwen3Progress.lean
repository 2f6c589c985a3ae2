import JetsonVoice.Tts.Qwen3Request
import JetsonVoice.Tts.RequestLog

/-!
# A Qwen3-TTS request does not get stuck

The slot's thread waits for others in one place only: it joins the vocoder's
thread, which ends at the poison job put on its queue before. Once the runtime
has come back, the rest of the request is a bounded number of steps.
-/

namespace JetsonVoice.Tts.Qwen3

open Foundation Protocol

/-- The part of a request that reads its options. -/
def Control.rendering : Control → Bool
  | .spawning | .generating | .vocoding _ _ | .emitting _ _ => true
  | _ => false

/-- What keeps the two threads of a request from waiting forever. -/
structure Sane (st : State) : Prop where
  options : st.control.rendering = true ∨ st.vocoder ≠ .absent → st.options.isSome = true
  started : ∀ {exit}, st.control = .poisoning exit → st.vocoder ≠ .absent
  poisoned : ∀ {exit}, st.control = .joining exit →
    st.vocoder = .returned ∨ (st.vocoder ≠ .absent ∧ none ∈ st.vocodeQ)

section Sane
variable {c : Config} {st : State} {o : Options}

theorem settle_options (exit : Exit) : (st.settle exit).options = st.options := by
  cases exit with
  | returned => simp only [State.settle]; split <;> rfl
  | threw => rfl

/-- After the join a request is about to decide or to conclude. -/
theorem settle_cases (st : State) (exit : Exit) :
    (∃ ok n, (st.settle exit).control = .deciding ok n) ∨
      ∃ ending, (st.settle exit).control = .concluding ending := by
  cases exit with
  | returned ok n =>
      simp only [State.settle]
      split
      · exact .inr ⟨_, rfl⟩
      · exact .inl ⟨ok, n, rfl⟩
  | threw what => exact .inr ⟨_, rfl⟩

theorem sane_settle (hv : st.vocoder = .absent) (exit : Exit) : Sane (st.settle exit) := by
  have hvoc : (st.settle exit).vocoder = .absent := by
    cases exit with
    | returned => simp only [State.settle]; split <;> exact hv
    | threw => exact hv
  rcases settle_cases st exit with ⟨ok, n, hc⟩ | ⟨ending, hc⟩
  all_goals exact ⟨by simp [hc, hvoc, Control.rendering], by simp [hc], by simp [hc]⟩

theorem sane_drain (hs : st.vocoder ≠ .absent → st.options.isSome = true) (exit : Exit) :
    Sane (st.drain exit) := by
  rw [State.drain]
  split
  · rename_i hv
    exact sane_settle hv exit
  · rename_i hv
    exact ⟨fun _ => hs hv, fun _ => hv, by simp⟩

theorem sane_deliverChunk (ho : st.options.isSome = true) (hc : st.control = .generating)
    (frames : List Frame) (isFinal clear : Bool) :
    Sane (st.deliverChunk c frames isFinal clear) := by
  simp only [State.deliverChunk]
  split
  · exact ⟨fun _ => ho, by simp [hc], by simp [hc]⟩
  · exact ⟨fun _ => ho, by simp, by simp⟩

theorem sane_onChunkReady (ho : st.options.isSome = true) (hc : st.control = .generating)
    (codes : List Frame) (isFinal : Bool) : Sane (st.onChunkReady c o codes isFinal) := by
  simp only [State.onChunkReady]
  split
  · split
    · split
      · refine sane_deliverChunk ?_ ?_ _ _ _ <;> assumption
      · split
        · refine sane_deliverChunk ?_ ?_ _ _ _ <;> assumption
        · exact ⟨fun _ => ho, by simp [hc], by simp [hc]⟩
    · refine sane_deliverChunk ?_ ?_ _ _ _ <;> assumption
  · exact sane_deliverChunk ho hc _ _ _

theorem sane_requestStep {item : Json} {id : String} {cancelled : Bool} {a : Answer} {next : State}
    {action : Action} (hs : Sane st)
    (h : requestStep c item id cancelled a st = some (next, action)) : Sane next := by
  have hopts := fun hv => hs.options (.inr hv)
  unfold requestStep at h
  split at h
  · rename_i hc
    split at h
    · cases h
      exact sane_drain hopts _
    · cases h
      refine ⟨fun _ => rfl, ?_, ?_⟩ <;> split <;> simp
  · cases h
    exact sane_drain hopts _
  · rename_i hc _
    cases h
    exact ⟨fun _ => hs.options (.inl (by rw [hc]; rfl)), by simp, by simp⟩
  · rename_i hc
    split at h
    · rename_i o ho
      split at h
      · cases h
        exact sane_onChunkReady (by simp [ho]) hc _ _
      · cases h
    · cases h
  · cases h
    exact sane_drain hopts _
  · cases h
    exact sane_drain hopts _
  · rename_i hc
    have ho := hs.options (.inl (by rw [hc]; rfl))
    split at h
    · cases h
      exact ⟨fun _ => ho, by simp, by simp⟩
    · split at h
      · cases h
        exact ⟨fun _ => ho, by simp [State.callbackReturned], by simp [State.callbackReturned]⟩
      · cases h
        exact sane_drain hopts _
  · rename_i hc
    obtain ⟨o, -, h⟩ := Option.map_eq_some_iff.mp h
    cases h
    have ho := hs.options (.inl (by rw [hc]; rfl))
    exact ⟨fun _ => ho, by simp [State.callbackReturned], by simp [State.callbackReturned]⟩
  · rename_i hc
    cases h
    have hv := hs.started hc
    exact ⟨fun _ => hopts hv, by simp, fun _ => .inr ⟨hv, by simp⟩⟩
  · split at h
    · cases h
      exact sane_settle rfl _
    · cases h
  · cases h
    exact ⟨fun hor => hopts (by simpa [Control.rendering] using hor), by simp, by simp⟩
  · cases h
    exact ⟨fun hor => hopts (by simpa [Control.rendering] using hor), by simp, by simp⟩
  · cases h

theorem sane_vocoderStep {id : String} {outcome : Outcome} {next : State} {action : Action}
    (hs : Sane st) (h : vocoderStep c id outcome st = some (next, action)) : Sane next := by
  -- The vocoder's thread is there, and its queue loses a job only by taking it off.
  have keep {v : Vocoder} {q : List (Option VocodeJob)} {err : Option String}
      (hv : st.vocoder ≠ .absent) (hne : v ≠ .absent)
      (hq : ∀ {exit}, st.control = .joining exit → v = .returned ∨ none ∈ q) :
      Sane { st with vocodeQ := q, vocodeError := err, vocoder := v } :=
    ⟨fun _ => hs.options (.inr hv), fun _ => hne,
      fun hc => (hq hc).imp_right fun hm => ⟨hne, hm⟩⟩
  have queued (hr : st.vocoder ≠ .returned) {exit : Exit} (hc : st.control = .joining exit) :
      none ∈ st.vocodeQ :=
    (hs.poisoned hc).elim (fun h => absurd h hr) And.right
  unfold vocoderStep at h
  split at h
  · cases h
  · cases h
  · rename_i hv
    split at h
    · rename_i hq
      cases h
      refine keep (by simp [hv]) (by simp) fun hc => .inr ?_
      have := queued (by simp [hv]) hc
      simpa [hq] using this
    · cases h
      exact keep (by simp [hv]) (by simp) fun _ => .inl rfl
    · cases h
  · rename_i hv
    split at h
    · cases h
      exact keep (by simp [hv]) (by simp) fun hc => .inr (queued (by simp [hv]) hc)
    · cases h
      exact keep (by simp [hv]) (by simp) fun hc => .inr (queued (by simp [hv]) hc)
  · rename_i hv
    obtain ⟨o, -, h⟩ := Option.map_eq_some_iff.mp h
    cases h
    exact keep (by simp [hv]) (by simp) fun hc => .inr (queued (by simp [hv]) hc)

end Sane

/-- Every running request of a run is sane. -/
theorem sane_law (c : Config) : LogLaw (engine c) fun _ st _ => Sane st where
  start := ⟨by simp [State.start, Control.rendering, engine], nofun, nofun⟩
  step {_ _ _ input _ _ _ _ _} _ hs hsane := by
    cases input with
    | request a => exact sane_requestStep hsane hs
    | vocoder outcome => exact sane_vocoderStep hsane hs

/-- The steps left to a request whose runtime call has come back. -/
def Control.rank : Control → Nat
  | .poisoning _ => 7
  | .joining _ => 3
  | .deciding _ _ => 2
  | .concluding _ => 1
  | _ => 0

def Vocoder.rank : Vocoder → Nat
  | .vocoding _ => 2
  | .emitting _ => 1
  | _ => 0

def State.rank (st : State) : Nat :=
  st.control.rank + 3 * st.vocodeQ.length + st.vocoder.rank

/-- The runtime call has come back, and the terminal event is not out yet. -/
def State.ending (st : State) : Bool := 0 < st.control.rank

section Progress
variable {c : Config} {st : State}

/-- A request that has not written its terminal event can take a step, unless it
is inside a call of the runtime, which can return. -/
theorem enabled (hs : Sane st) (hf : st.control ≠ .finished) (item : Json) (id : String)
    (cancelled : Bool) : ∃ input next action,
      step c item id cancelled input st = some (next, action) := by
  cases hc : st.control with
  | building =>
      refine ⟨.request .ok, ?_⟩
      simp only [step, requestStep, hc]
      split <;> exact ⟨_, _, rfl⟩
  | spawning => exact ⟨.request .ok, by simp [step, requestStep, hc]⟩
  | generating => exact ⟨.request (.returned true 0), by simp [step, requestStep, hc]⟩
  | vocoding job clear =>
      exact ⟨.request (.vocoded (.wave {}) false), by simp [step, requestStep, hc, emitChunk]⟩
  | emitting report clear =>
      obtain ⟨o, ho⟩ := Option.isSome_iff_exists.mp (hs.options (.inl (by rw [hc]; rfl)))
      exact ⟨.request .ok, by simp [step, requestStep, hc, ho]⟩
  | poisoning exit => exact ⟨.request .ok, by simp [step, requestStep, hc]⟩
  | joining exit =>
      rcases hs.poisoned hc with hv | ⟨hv, hq⟩
      · exact ⟨.request .ok, by simp [step, requestStep, hc, hv]⟩
      · obtain ⟨o, ho⟩ := Option.isSome_iff_exists.mp (hs.options (.inr hv))
        cases hvoc : st.vocoder with
        | absent => exact absurd hvoc hv
        | returned => exact ⟨.request .ok, by simp [step, requestStep, hc, hvoc]⟩
        | waiting =>
            refine ⟨.vocoder .failed, ?_⟩
            match hjobs : st.vocodeQ with
            | [] => simp [hjobs] at hq
            | some _ :: _ => simp [step, vocoderStep, hvoc, hjobs]
            | none :: _ => simp [step, vocoderStep, hvoc, hjobs]
        | vocoding job => exact ⟨.vocoder (.wave {}), by simp [step, vocoderStep, hvoc, emitChunk]⟩
        | emitting report => exact ⟨.vocoder .failed, by simp [step, vocoderStep, hvoc, ho]⟩
  | deciding ok n => exact ⟨.request .ok, by simp [step, requestStep, hc]⟩
  | concluding ending => exact ⟨.request (.clock 0), by simp [step, requestStep, hc]⟩
  | finished => exact absurd hc hf

theorem settle_rank (st : State) (hv : st.vocoder = .absent) (exit : Exit) :
    (st.settle exit).rank < 3 + 3 * st.vocodeQ.length ∧ (st.settle exit).ending = true := by
  cases exit with
  | returned =>
      simp only [State.settle]
      split <;> simp [State.rank, State.ending, Control.rank, Vocoder.rank, hv]
  | threw => simp [State.settle, State.rank, State.ending, Control.rank, Vocoder.rank, hv]

/-- Once the runtime call has come back, every step of the request lowers its rank. -/
theorem rank_lt {item : Json} {id : String} {cancelled : Bool} {input : Input} {next : State}
    {action : Action} (he : st.ending = true)
    (h : step c item id cancelled input st = some (next, action)) :
    next.rank < st.rank ∧ (next.ending = true ∨ next.control = .finished) := by
  have hrank : 0 < st.control.rank := of_decide_eq_true he
  cases input with
  | request a =>
      cases hc : st.control with
      | poisoning exit =>
          simp only [step, requestStep, hc, Option.some.injEq, Prod.mk.injEq] at h
          obtain ⟨rfl, -⟩ := h
          refine ⟨?_, .inl (by simp [State.ending, Control.rank])⟩
          simp only [State.rank, Control.rank, hc, List.length_append, List.length_singleton]
          omega
      | joining exit =>
          simp only [step, requestStep, hc] at h
          split at h
          · rename_i hv
            cases h
            have hst : st.rank = 3 + 3 * st.vocodeQ.length := by
              simp [State.rank, hc, hv, Control.rank, Vocoder.rank]
            obtain ⟨hlt, hend⟩ :=
              settle_rank { st with control := .joining exit, vocoder := .absent } rfl exit
            exact ⟨hst ▸ hlt, .inl hend⟩
          · cases h
      | deciding ok n =>
          simp only [step, requestStep, hc, Option.some.injEq, Prod.mk.injEq] at h
          obtain ⟨rfl, -⟩ := h
          refine ⟨?_, .inl (by simp [State.ending, Control.rank])⟩
          simp only [State.rank, Control.rank, hc]
          omega
      | concluding ending =>
          cases a with
          | clock t =>
              simp only [step, requestStep, hc, Option.some.injEq, Prod.mk.injEq] at h
              obtain ⟨rfl, -⟩ := h
              refine ⟨?_, .inr rfl⟩
              simp only [State.rank, Control.rank, hc]
              omega
          | _ => simp [step, requestStep, hc] at h
      | _ => simp [hc, Control.rank] at hrank
  | vocoder outcome =>
      have keep {v : Vocoder} {q : List (Option VocodeJob)} {err : Option String}
          (hlt : 3 * q.length + v.rank < 3 * st.vocodeQ.length + st.vocoder.rank) :
          ({ st with vocodeQ := q, vocodeError := err, vocoder := v } : State).rank < st.rank ∧
            (({ st with vocodeQ := q, vocodeError := err, vocoder := v } : State).ending = true ∨
              ({ st with vocodeQ := q, vocodeError := err, vocoder := v } : State).control
                = .finished) := by
        refine ⟨?_, .inl he⟩
        simp only [State.rank]
        omega
      simp only [step, vocoderStep] at h
      split at h
      · cases h
      · cases h
      · rename_i hv
        split at h
        · rename_i hq
          cases h
          exact keep (by simp only [hq, hv, Vocoder.rank, List.length_cons]; omega)
        · rename_i hq
          cases h
          exact keep (by simp only [hq, hv, Vocoder.rank, List.length_cons]; omega)
        · cases h
      · rename_i hv
        split at h
        · cases h
          exact keep (by simp [hv, Vocoder.rank])
        · cases h
          exact keep (by simp [hv, Vocoder.rank])
      · rename_i hv
        obtain ⟨o, -, h⟩ := Option.map_eq_some_iff.mp h
        cases h
        exact keep (by simp [hv, Vocoder.rank])

end Progress

end JetsonVoice.Tts.Qwen3
