import JetsonVoice.Tts.SparkRequest
import JetsonVoice.Tts.RequestLog

/-!
# A Spark request does not get stuck

The slot's thread waits for its decode thread in two places, at the join of the
normal path and at that of the exception handler. The decode thread waits for
nobody, and it has been started wherever the normal path is before its join.
-/

namespace JetsonVoice.Tts.Spark

open Foundation Protocol

/-- The options have been read, and an exception would be caught. -/
def Control.rendering : Control → Bool
  | .building | .concluding _ | .unwinding _ | .unwound _ | .finished => false
  | _ => true

/-- Between the start of the decode thread and its join. -/
def Control.live : Control → Bool
  | .profiling | .announcing | .waiting | .sorted _ | .progress _ | .chunking _ | .joining => true
  | .vocoding _ _ (.live _) | .emitting _ _ _ (.live _) => true
  | _ => false

/-- What keeps a request from waiting forever. -/
structure Sane (st : State) : Prop where
  options : st.control.rendering = true → st.options.isSome = true
  started : st.control.live = true → st.decoder ≠ .absent

/-- A step leads to a sane state, and to the end only with a terminal event. -/
structure Onward (next : State) (action : Action) : Prop where
  sane : Sane next
  last : next.control = .finished → ∃ e, action = .emit e ∧ isTerminal e = true

section Onward
variable {c : Config} {st next : State} {o : Options} {action : Action}

theorem onward_failed (st : State) (what : String) : Onward (st.fail what) action :=
  ⟨⟨nofun, nofun⟩, nofun⟩

theorem onward_started (ho : next.options.isSome = true) (hd : next.decoder ≠ .absent)
    (hf : next.control ≠ .finished) : Onward next action :=
  ⟨⟨fun _ => ho, fun _ => hd⟩, fun h => absurd h hf⟩

theorem onward_joined (ho : next.options.isSome = true) (hl : next.control.live = false)
    (hf : next.control ≠ .finished) : Onward next action := by
  refine ⟨⟨fun _ => ho, fun h => ?_⟩, fun h => absurd h hf⟩
  rw [hl] at h
  cases h

theorem onward_afterChunk (ho : st.options.isSome = true) (hd : st.decoder ≠ .absent)
    (finished : Option FinishReason) : Onward (st.afterChunk finished) action := by
  cases finished with
  | none => exact onward_started ho hd nofun
  | some reason => exact onward_started ho hd nofun

theorem onward_afterEmit (ho : st.options.isSome = true) (isFinal : Bool) {site : Site}
    (hd : ∀ {finished}, site = .live finished → st.decoder ≠ .absent) :
    Onward (st.afterEmit isFinal site) action := by
  cases site with
  | live finished => exact onward_afterChunk ho (hd rfl) finished
  | flush => exact onward_joined ho rfl nofun
  | marker => exact onward_joined ho rfl nofun

/-- At a site of vocoding: the decode thread is there if tokens still arrive. -/
theorem onward_site (ho : next.options.isSome = true) {site : Site}
    (hd : ∀ {finished}, site = .live finished → next.decoder ≠ .absent)
    (hc : (∃ e b, next.control = .vocoding e b site) ∨
      ∃ n a b, next.control = .emitting n a b site) : Onward next action := by
  refine ⟨⟨fun _ => ho, fun hl => ?_⟩, fun hf => ?_⟩
  · cases site with
    | live finished => exact hd rfl
    | flush => rcases hc with ⟨_, _, hc⟩ | ⟨_, _, _, hc⟩ <;> simp [hc, Control.live] at hl
    | marker => rcases hc with ⟨_, _, hc⟩ | ⟨_, _, _, hc⟩ <;> simp [hc, Control.live] at hl
  · rcases hc with ⟨_, _, hc⟩ | ⟨_, _, _, hc⟩ <;> simp [hc] at hf

theorem sortToken_threads (o : Options) (st : State) (tid : Int) :
    (st.sortToken o tid).options = st.options ∧ (st.sortToken o tid).decoder = st.decoder := by
  simp only [State.sortToken]
  repeat' split
  all_goals exact ⟨rfl, rfl⟩

theorem foldl_threads (o : Options) (tokenIds : List Int) (st : State) :
    (tokenIds.foldl (State.sortToken o) st).options = st.options ∧
      (tokenIds.foldl (State.sortToken o) st).decoder = st.decoder := by
  induction tokenIds generalizing st with
  | nil => exact ⟨rfl, rfl⟩
  | cons tid rest ih =>
      obtain ⟨hopts, hdec⟩ := ih (st.sortToken o tid)
      obtain ⟨hopts', hdec'⟩ := sortToken_threads o st tid
      exact ⟨hopts.trans hopts', hdec.trans hdec'⟩

theorem isTerminal_ending (id : String) (ending : Ending) (numbers : List (String × Json)) :
    isTerminal (ending.event c id st.options st numbers) = true := by
  cases ending with
  | done => cases ho : st.options <;> simp [Ending.event]
  | _ => simp [Ending.event, failure]

theorem requestStep_onward {item : Json} {id : String} {cancelled : Bool} {a : Answer}
    (hs : Sane st) (h : requestStep c item id cancelled a st = some (next, action)) :
    Onward next action := by
  unfold requestStep at h
  have ho := hs.options
  have hd := hs.started
  cases hc : st.control with
  | building =>
      simp only [hc] at h
      split at h
      · cases h
        exact onward_failed _ _
      · cases h
        exact onward_joined rfl rfl nofun
  | spawning =>
      simp only [hc] at h
      split at h
      · cases h
        exact onward_failed _ _
      · rename_i o _ _
        cases h
        refine onward_started (ho (by rw [hc]; rfl)) nofun ?_
        cases o.isClone <;> exact nofun
      · cases h
  | profiling =>
      simp only [hc] at h
      split at h
      · cases h
        exact onward_failed _ _
      · rename_i o _ _
        cases h
        refine onward_started (ho (by rw [hc]; rfl)) (hd (by rw [hc]; rfl)) ?_
        cases o.emitTokenProgress <;> exact nofun
      · cases h
  | announcing =>
      simp only [hc] at h
      obtain ⟨o, -, h⟩ := Option.map_eq_some_iff.mp h
      cases h
      exact onward_started (ho (by rw [hc]; rfl)) (hd (by rw [hc]; rfl)) nofun
  | waiting =>
      simp only [hc] at h
      split at h
      · rename_i o chunk _ _
        cases h
        obtain ⟨hopts, hdec⟩ := foldl_threads o chunk.tokenIds st
        refine onward_started ?_ ?_ nofun
        · rw [hopts]
          exact ho (by rw [hc]; rfl)
        · rw [hdec]
          exact hd (by rw [hc]; rfl)
      · split at h
        · cases h
          exact onward_started (ho (by rw [hc]; rfl)) (hd (by rw [hc]; rfl)) nofun
        · cases h
          exact onward_started (ho (by rw [hc]; rfl)) (hd (by rw [hc]; rfl)) (by simp [hc])
      · cases h
  | sorted finished =>
      simp only [hc] at h
      split at h
      · cases h
      · rename_i o _
        split at h
        · split at h
          · cases h
            exact onward_failed _ _
          · cases h
            refine onward_started (ho (by rw [hc]; rfl)) (hd (by rw [hc]; rfl)) ?_
            cases o.emitTokenProgress <;> exact nofun
        · cases h
          exact onward_started (ho (by rw [hc]; rfl)) (hd (by rw [hc]; rfl)) nofun
  | progress finished =>
      simp only [hc] at h
      obtain ⟨o, -, h⟩ := Option.map_eq_some_iff.mp h
      cases h
      exact onward_started (ho (by rw [hc]; rfl)) (hd (by rw [hc]; rfl)) nofun
  | chunking finished =>
      simp only [hc] at h
      split at h
      · cases h
      · split at h
        · cases h
          exact onward_started (ho (by rw [hc]; rfl)) (hd (by rw [hc]; rfl)) nofun
        · cases h
          exact onward_afterChunk (ho (by rw [hc]; rfl)) (hd (by rw [hc]; rfl)) finished
  | vocoding endToken isFinal site =>
      have hsite {finished : Option FinishReason} (hlive : site = .live finished) :
          st.decoder ≠ .absent := hd (by rw [hc, hlive]; rfl)
      simp only [hc] at h
      split at h
      · cases h
      · split at h
        · cases h
          exact onward_afterEmit (ho (by rw [hc]; rfl)) isFinal hsite
        · split at h
          · cases h
            exact onward_failed _ _
          · cases h
            exact onward_site (ho (by rw [hc]; rfl)) hsite (.inr ⟨_, _, _, rfl⟩)
  | emitting samples audio isFinal site =>
      have hsite {finished : Option FinishReason} (hlive : site = .live finished) :
          st.decoder ≠ .absent := hd (by rw [hc, hlive]; rfl)
      simp only [hc] at h
      split at h
      · cases h
      · split at h
        · cases h
          exact onward_afterEmit (ho (by rw [hc]; rfl)) isFinal hsite
        · cases h
          refine onward_afterEmit ?_ isFinal ?_
          · exact ho (by rw [hc]; rfl)
          · exact hsite
  | joining =>
      simp only [hc] at h
      split at h
      · split at h
        · cases h
          exact onward_failed _ _
        · rename_i probe _
          cases h
          cases probe <;> exact onward_joined (ho (by rw [hc]; rfl)) rfl nofun
      · cases h
  | probing =>
      simp only [hc] at h
      obtain ⟨o, -, h⟩ := Option.map_eq_some_iff.mp h
      cases h
      exact onward_joined (ho (by rw [hc]; rfl)) rfl nofun
  | deciding =>
      simp only [hc] at h
      split at h
      · cases h
        exact ⟨⟨nofun, nofun⟩, nofun⟩
      · split at h
        · cases h
          exact ⟨⟨nofun, nofun⟩, nofun⟩
        · cases h
          exact onward_joined (ho (by rw [hc]; rfl)) rfl nofun
  | checking =>
      simp only [hc] at h
      split at h
      · cases h
      · rename_i o _
        split at h
        · cases h
          exact onward_failed _ _
        · split at h
          · cases h
            exact onward_failed _ _
          · split at h
            · split at h
              · cases h
              · cases h
                exact onward_failed _ _
            · cases h
              cases o.streamAudio <;> exact onward_joined (ho (by rw [hc]; rfl)) rfl nofun
  | flushing lastWasFinal =>
      simp only [hc] at h
      split at h
      · cases h
      · split at h
        · cases h
          exact onward_joined (ho (by rw [hc]; rfl)) rfl nofun
        · split at h
          · cases h
            exact onward_joined (ho (by rw [hc]; rfl)) rfl nofun
          · cases h
            exact onward_joined (ho (by rw [hc]; rfl)) rfl nofun
  | oneShot =>
      simp only [hc] at h
      split at h
      · cases h
        exact onward_failed _ _
      · cases h
        exact onward_joined (ho (by rw [hc]; rfl)) rfl nofun
  | saving =>
      simp only [hc] at h
      split at h
      · cases h
      · split at h
        · cases h
          exact ⟨⟨nofun, nofun⟩, nofun⟩
        · cases h
          exact onward_failed _ _
  | concluding ending =>
      simp only [hc] at h
      cases h
      exact ⟨⟨nofun, nofun⟩, fun _ => ⟨_, rfl, isTerminal_ending id ending a.numbers⟩⟩
  | unwinding what =>
      simp only [hc] at h
      cases h
      exact ⟨⟨nofun, nofun⟩, nofun⟩
  | unwound what =>
      simp only [hc] at h
      split at h
      · cases h
        exact ⟨⟨nofun, nofun⟩, nofun⟩
      · cases h
  | finished =>
      simp only [hc] at h
      cases h

theorem decoderStep_onward {throws : Option String} (hs : Sane st) (hopen : st.control ≠ .finished)
    (h : decoderStep throws st = some (next, action)) : Onward next action := by
  unfold decoderStep at h
  split at h
  · cases h
  · cases h
  · split at h
    · cases h
      exact ⟨⟨hs.options, fun _ => nofun⟩, fun hf => absurd hf hopen⟩
    · cases h
      exact ⟨⟨hs.options, fun _ => nofun⟩, fun hf => absurd hf hopen⟩
  · cases h
    exact ⟨⟨hs.options, fun _ => nofun⟩, fun hf => absurd hf hopen⟩

/-- Every running request of a run is sane, and one that has finished has written
its terminal event last. -/
theorem sane_law (c : Config) : LogLaw (engine c) fun _ st log => Sane st ∧
    (st.control = .finished → ∃ before last, log = before ++ [last] ∧ isTerminal last = true) where
  start := ⟨⟨nofun, nofun⟩, nofun⟩
  step {_ _ _ input _ next action _ log} hf hs hl := by
    have hopen := of_decide_eq_false hf
    have hon : Onward next action := by
      cases input with
      | request a => exact requestStep_onward hl.1 hs
      | decoder throws => exact decoderStep_onward hl.1 hopen hs
    refine ⟨hon.sane, fun hfin => ?_⟩
    obtain ⟨e, rfl, he⟩ := hon.last hfin
    exact ⟨log, e, rfl, he⟩

/-- A request that has not written its terminal event can take a step. -/
theorem enabled (hs : Sane st) (hf : st.control ≠ .finished) (item : Json) (id : String)
    (cancelled : Bool) : ∃ input next action,
      step c item id cancelled input st = some (next, action) := by
  have read (hr : st.control.rendering = true) : ∃ o, st.options = some o :=
    Option.isSome_iff_exists.mp (hs.options hr)
  have decode (hd : st.decoder = .running ∨ st.decoder = .cancelling) :
      ∃ input next action, step c item id cancelled input st = some (next, action) := by
    rcases hd with hd | hd
    · exact ⟨.decoder none, by simp [step, decoderStep, hd]⟩
    · exact ⟨.decoder none, by simp [step, decoderStep, hd]⟩
  cases hc : st.control with
  | building =>
      refine ⟨.request {}, ?_⟩
      simp only [step, requestStep, hc]
      split <;> exact ⟨_, _, rfl⟩
  | joining =>
      cases hd : st.decoder with
      | absent => exact absurd hd (hs.started (by rw [hc]; rfl))
      | running => exact decode (.inl hd)
      | cancelling => exact decode (.inr hd)
      | returned =>
          refine ⟨.request {}, ?_⟩
          simp only [step, requestStep, hc, hd, if_true]
          split <;> exact ⟨_, _, rfl⟩
  | unwound what =>
      cases hd : st.decoder with
      | running => exact decode (.inl hd)
      | cancelling => exact decode (.inr hd)
      | absent => exact ⟨.request {}, by simp [step, requestStep, hc, hd]⟩
      | returned => exact ⟨.request {}, by simp [step, requestStep, hc, hd]⟩
  | finished => exact absurd hc hf
  | deciding =>
      refine ⟨.request {}, ?_⟩
      simp only [step, requestStep, hc]
      repeat' split
      all_goals exact ⟨_, _, rfl⟩
  | concluding ending => exact ⟨.request {}, by simp [step, requestStep, hc]⟩
  | unwinding what => exact ⟨.request {}, by simp [step, requestStep, hc]⟩
  | _ =>
      obtain ⟨o, ho⟩ := read (by rw [hc]; rfl)
      refine ⟨.request {}, ?_⟩
      simp only [step, requestStep, hc, ho, Option.map_some]
      repeat' split
      all_goals exact ⟨_, _, rfl⟩

end Onward
end JetsonVoice.Tts.Spark
