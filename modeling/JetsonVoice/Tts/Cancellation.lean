import JetsonVoice.Tts.CancelDelivery
import JetsonVoice.Tts.Qwen3Terminal
import JetsonVoice.Tts.SparkRequest

/-!
# Cancelling in the Qwen3-TTS and the Spark worker

Both workers look at the cancel flag once more before they decide on `done`. So
what a cancel achieves is settled by the cancel map alone: whether the entry for
the id leads to the slot that runs the request.
-/

namespace JetsonVoice.Tts

open Foundation Protocol TransitionSystem

namespace Qwen3

/-- The `done` event has been decided on. -/
def State.mayDone (st : State) : Bool :=
  match st.control with
  | .concluding (.done _) => true
  | _ => false

section Heeds
variable {c : Config} {st : State} {o : Options}

theorem settle_undone (st : State) (exit : Exit) : (st.settle exit).mayDone = false := by
  cases exit with
  | returned => simp only [State.settle]; split <;> rfl
  | threw => rfl

theorem drain_undone (st : State) (exit : Exit) : (st.drain exit).mayDone = false := by
  rw [State.drain]
  split
  · exact settle_undone st exit
  · rfl

theorem report_undone (id : String) (report : Report) :
    eventName (report.event c id o) ≠ "done" := by
  cases report <;> simp [Report.event, chunkEvent, failure]

theorem ending_undone {id : String} {chunkIndex : Nat} {elapsedMs : Int} {ending : Ending}
    (h : st.control = .concluding ending) (hm : st.mayDone = false) :
    eventName (ending.event c id chunkIndex elapsedMs) ≠ "done" := by
  cases ending with
  | done n => simp [State.mayDone, h] at hm
  | _ => simp [Ending.event, failure]

/-- A request that reads a set flag decides on no `done`. -/
theorem requestStep_undone {item : Json} {id : String} {a : Answer} {next : State}
    {action : Action} (h : requestStep c item id true a st = some (next, action)) :
    next.mayDone = false := by
  unfold requestStep at h
  split at h
  · split at h
    · cases h
      exact drain_undone _ _
    · rename_i o _
      cases h
      cases hs : (o.streaming && c.useAsyncVocode) <;> simp [State.mayDone]
  · cases h
    exact drain_undone _ _
  · cases h
    rfl
  · rename_i codes isFinal hc
    split at h
    · rename_i o _
      split at h
      · cases h
        obtain ⟨-, hctrl⟩ := onChunkReady_spec c st o codes isFinal
        rw [hc] at hctrl
        rcases hctrl with hctrl | ⟨job, clear, hctrl⟩ <;> simp [State.mayDone, hctrl]
      · cases h
    · cases h
  · cases h
    exact drain_undone _ _
  · cases h
    exact drain_undone _ _
  · split at h
    · cases h
      rfl
    · split at h
      · cases h
        rfl
      · cases h
        exact drain_undone _ _
  · obtain ⟨o, -, h⟩ := Option.map_eq_some_iff.mp h
    cases h
    rfl
  · cases h
    rfl
  · split at h
    · cases h
      exact settle_undone _ _
    · cases h
  · cases h
    rfl
  · cases h
    rfl
  · cases h

/-- What the slot's thread emits: reports of chunks, and the terminal event as the last one. -/
theorem requestStep_emit {item : Json} {id : String} {cancelled : Bool} {a : Answer}
    {next : State} {e : Json} (h : requestStep c item id cancelled a st = some (next, .emit e)) :
    (∃ report o, e = Report.event c id o report) ∨
    ∃ ending elapsedMs, st.control = .concluding ending ∧
      e = ending.event c id st.chunkIndex elapsedMs ∧ next.control = .finished := by
  unfold requestStep at h
  split at h
  · split at h <;> cases h
  · cases h
  · cases h
  · split at h
    · split at h <;> cases h
    · cases h
  · cases h
  · cases h
  · split at h
    · rename_i report _
      cases report <;> cases h
    · split at h <;> cases h
  · obtain ⟨o, -, h⟩ := Option.map_eq_some_iff.mp h
    cases h
    exact .inl ⟨_, o, rfl⟩
  · cases h
  · split at h <;> cases h
  · cases h
  · rename_i ending elapsedMs hc
    cases h
    exact .inr ⟨ending, elapsedMs, hc, rfl, rfl⟩
  · cases h

theorem vocoderStep_control {id : String} {outcome : Outcome} {next : State} {action : Action}
    (h : vocoderStep c id outcome st = some (next, action)) : next.control = st.control := by
  unfold vocoderStep at h
  split at h
  · cases h
  · cases h
  · split at h <;> cases h <;> rfl
  · split at h <;> cases h <;> rfl
  · obtain ⟨o, -, h⟩ := Option.map_eq_some_iff.mp h
    cases h
    rfl

theorem vocoderStep_emit {id : String} {outcome : Outcome} {next : State} {e : Json}
    (h : vocoderStep c id outcome st = some (next, .emit e)) :
    ∃ report o, e = Report.event c id o report := by
  unfold vocoderStep at h
  split at h
  · cases h
  · cases h
  · split at h <;> cases h
  · split at h
    · rename_i report _
      cases report <;> cases h
    · cases h
  · obtain ⟨o, -, h⟩ := Option.map_eq_some_iff.mp h
    cases h
    exact ⟨_, o, rfl⟩

end Heeds

theorem heeds (c : Config) : (engine c).Heeds State.mayDone where
  undecided {st} h := by
    have h' : st.decided = false := h
    cases hc : st.control <;> simp [State.mayDone, State.decided, hc] at h' ⊢
  kept {item id input st next action} hs hm := by
    cases input with
    | request a =>
        refine ⟨requestStep_undone hs, fun he => ?_⟩
        subst he
        rcases requestStep_emit hs with ⟨report, o, rfl⟩ | ⟨ending, t, hc, rfl, -⟩
        · exact report_undone _ _
        · exact ending_undone hc hm
    | vocoder outcome =>
        have hc : next.control = st.control := vocoderStep_control hs
        refine ⟨by simpa [State.mayDone, hc] using hm, fun he => ?_⟩
        subst he
        obtain ⟨report, o, rfl⟩ := vocoderStep_emit hs
        exact report_undone _ _
  closing {item id cancelled input st next e} hs he := by
    cases input with
    | request a =>
        rcases requestStep_emit hs with ⟨report, o, rfl⟩ | ⟨ending, t, -, -, hf⟩
        · exact absurd he (report_undone _ _)
        · exact decide_eq_true hf
    | vocoder outcome =>
        obtain ⟨report, o, rfl⟩ := vocoderStep_emit hs
        exact absurd he (report_undone _ _)
  decided {st} h := by
    have hc : st.control = .finished := of_decide_eq_true h
    simp [engine, State.decided, hc]

end Qwen3

namespace Spark

/-- The request has seen an open channel for the last time and is on its way to `done`. -/
def State.mayDone (st : State) : Bool :=
  match st.control with
  | .checking | .flushing _ | .oneShot | .saving | .concluding .done => true
  | .vocoding _ _ site | .emitting _ _ _ site => site = .flush ∨ site = .marker
  | _ => false

section Heeds
variable {c : Config} {st : State} {o : Options}

theorem afterChunk_undone (st : State) (finished : Option FinishReason) :
    (st.afterChunk finished).mayDone = false := by
  cases finished <;> rfl

theorem afterEmit_undone {isFinal : Bool} {site : Site} (h : ¬ (site = .flush ∨ site = .marker)) :
    (st.afterEmit isFinal site).mayDone = false := by
  cases site with
  | live finished => exact afterChunk_undone st finished
  | flush => simp at h
  | marker => simp at h

/-- A request that finds its channel cancelled decides on no `done`. -/
theorem requestStep_undone {item : Json} {id : String} {a : Answer} {next : State}
    {action : Action} (hm : st.mayDone = false)
    (h : requestStep c item id true a st = some (next, action)) : next.mayDone = false := by
  unfold requestStep at h
  cases hc : st.control with
  | building =>
      simp only [hc] at h
      split at h <;> cases h <;> rfl
  | spawning =>
      simp only [hc] at h
      split at h
      · cases h
        rfl
      · rename_i o _ _
        cases h
        cases ho : o.isClone <;> simp [State.mayDone]
      · cases h
  | profiling =>
      simp only [hc] at h
      split at h
      · cases h
        rfl
      · rename_i o _ _
        cases h
        cases ho : o.emitTokenProgress <;> simp [State.mayDone]
      · cases h
  | announcing =>
      simp only [hc] at h
      obtain ⟨o, -, h⟩ := Option.map_eq_some_iff.mp h
      cases h
      rfl
  | waiting =>
      simp only [hc] at h
      split at h
      · cases h
        rfl
      · split at h
        · cases h
          rfl
        · cases h
          exact hm
      · cases h
  | sorted finished =>
      simp only [hc] at h
      split at h
      · cases h
      · rename_i o _
        split at h
        · split at h
          · cases h
            rfl
          · cases h
            cases ho : o.emitTokenProgress <;> simp [State.mayDone]
        · cases h
          rfl
  | progress finished =>
      simp only [hc] at h
      obtain ⟨o, -, h⟩ := Option.map_eq_some_iff.mp h
      cases h
      rfl
  | chunking finished =>
      simp only [hc] at h
      split at h
      · cases h
      · split at h
        · cases h
          simp [State.mayDone]
        · cases h
          exact afterChunk_undone _ _
  | vocoding endToken isFinal site =>
      have hsite : ¬ (site = .flush ∨ site = .marker) := by simpa [State.mayDone, hc] using hm
      simp only [hc] at h
      split at h
      · cases h
      · split at h
        · cases h
          exact afterEmit_undone hsite
        · split at h
          · cases h
            rfl
          · cases h
            simpa [State.mayDone] using hsite
  | emitting samples audio isFinal site =>
      have hsite : ¬ (site = .flush ∨ site = .marker) := by simpa [State.mayDone, hc] using hm
      simp only [hc] at h
      split at h
      · cases h
      · split at h
        · cases h
          exact afterEmit_undone hsite
        · cases h
          exact afterEmit_undone hsite
  | joining =>
      simp only [hc] at h
      split at h
      · split at h
        · cases h
          rfl
        · rename_i probe _
          cases h
          cases probe <;> rfl
      · cases h
  | probing =>
      simp only [hc] at h
      obtain ⟨o, -, h⟩ := Option.map_eq_some_iff.mp h
      cases h
      rfl
  | deciding =>
      simp only [hc, Bool.or_true, if_true] at h
      split at h <;> cases h <;> rfl
  | concluding ending =>
      simp only [hc] at h
      cases h
      rfl
  | unwinding what =>
      simp only [hc] at h
      cases h
      rfl
  | unwound what =>
      simp only [hc] at h
      split at h <;> cases h
      rfl
  | finished =>
      simp only [hc] at h
      cases h
  | _ => simp [State.mayDone, hc] at hm

/-- What the slot's thread emits: progress, chunks and the token probe, and the
terminal event as the last one. -/
theorem requestStep_emit {item : Json} {id : String} {cancelled : Bool} {a : Answer}
    {next : State} {e : Json} (h : requestStep c item id cancelled a st = some (next, .emit e)) :
    eventName e ∈ ["token_progress", "chunk", "raw_head"] ∨
    ∃ ending, st.control = .concluding ending ∧
      e = ending.event c id st.options st a.numbers ∧ next.control = .finished := by
  unfold requestStep at h
  cases hc : st.control with
  | announcing =>
      simp only [hc] at h
      obtain ⟨o, -, h⟩ := Option.map_eq_some_iff.mp h
      cases h
      exact .inl (by simp [progressEvent])
  | progress finished =>
      simp only [hc] at h
      obtain ⟨o, -, h⟩ := Option.map_eq_some_iff.mp h
      cases h
      exact .inl (by simp [progressEvent])
  | probing =>
      simp only [hc] at h
      obtain ⟨o, -, h⟩ := Option.map_eq_some_iff.mp h
      cases h
      exact .inl (by simp [rawHeadEvent])
  | emitting samples audio isFinal site =>
      simp only [hc] at h
      split at h
      · cases h
      · split at h
        · cases h
        · cases h
          exact .inl (by simp [chunkEvent])
  | concluding ending =>
      simp only [hc] at h
      cases h
      exact .inr ⟨ending, rfl, rfl, rfl⟩
  | _ =>
      simp only [hc] at h
      repeat' split at h
      all_goals cases h

theorem decoderStep_quiet {throws : Option String} {next : State} {action : Action}
    (h : decoderStep throws st = some (next, action)) :
    next.control = st.control ∧ ∀ e, action ≠ .emit e := by
  unfold decoderStep at h
  split at h
  · cases h
  · cases h
  · split at h <;> cases h <;> exact ⟨rfl, nofun⟩
  · cases h
    exact ⟨rfl, nofun⟩

theorem ending_undone {id : String} {ending : Ending} {numbers : List (String × Json)}
    (h : st.control = .concluding ending) (hm : st.mayDone = false) :
    eventName (ending.event c id st.options st numbers) ≠ "done" := by
  cases ending with
  | done => simp [State.mayDone, h] at hm
  | _ => simp [Ending.event, failure]

theorem progress_undone {e : Json} (h : eventName e ∈ ["token_progress", "chunk", "raw_head"]) :
    eventName e ≠ "done" := by
  intro he
  simp [he] at h

end Heeds

theorem heeds (c : Config) : (engine c).Heeds State.mayDone where
  undecided {st} h := by
    have h' : st.decided = false := h
    cases hc : st.control <;> simp [State.mayDone, State.decided, hc] at h' ⊢ <;> exact h'
  kept {item id input st next action} hs hm := by
    cases input with
    | request a =>
        refine ⟨requestStep_undone hm hs, fun he => ?_⟩
        subst he
        rcases requestStep_emit hs with hp | ⟨ending, hc, rfl, -⟩
        · exact progress_undone hp
        · exact ending_undone hc hm
    | decoder throws =>
        obtain ⟨hc, hquiet⟩ := decoderStep_quiet hs
        exact ⟨by simpa [State.mayDone, hc] using hm, fun he => absurd he (hquiet _)⟩
  closing {item id cancelled input st next e} hs he := by
    cases input with
    | request a =>
        rcases requestStep_emit hs with hp | ⟨ending, -, -, hf⟩
        · exact absurd he (progress_undone hp)
        · exact decide_eq_true hf
    | decoder throws => exact absurd rfl ((decoderStep_quiet hs).2 e)
  decided {st} h := by
    have hc : st.control = .finished := of_decide_eq_true h
    simp [engine, State.decided, hc]

end Spark

/-- The two workers with one thread for each slot. -/
inductive Synthesizer where
  | qwen3 (c : Qwen3.Config)
  | spark (c : Spark.Config)

abbrev Synthesizer.engine : Synthesizer → Engine
  | .qwen3 c => Qwen3.engine c
  | .spark c => Spark.engine c

/-- In both workers a cancel read before the terminal event of an accepted
request is decided is delivered (acknowledged as found, recorded until the
terminal event, and answered with no `done` where the synthesis had not begun)
if and only if, when it is read, the slot's thread has registered the request
and the entry for its id leads to its slot. -/
theorem cancel_delivered_iff_registered (v : Synthesizer) {maxSlots : Nat} {w : Worker v.engine}
    {i : Nat} {s : Slot v.engine} {work : Work} {id : String} {line : Json}
    (hr : (uniqueSystem v.engine maxSlots).Reachable w) (hm : w.main = .reading)
    (hi : w.slots[i]? = some s) (hu : s.undecided work)
    (hid : work.item.valueStr "id" "" = .ok id) (hc : isCancelLine line = some true)
    (hv : line.valueStr "id" "" = .ok id) :
    CancelDelivered (uniqueSystem v.engine maxSlots) w i s work id line ↔
      (∃ state, s.thread = .running work id state) ∧ w.cancelMap.lookup id = some i := by
  cases v with
  | qwen3 c => exact cancel_delivered_iff (Qwen3.heeds _) hr hm hi hu hid hc hv
  | spark c => exact cancel_delivered_iff (Spark.heeds _) hr hm hi hu hid hc hv

/-- A request line and a cancel line with an id. -/
def requestLine (id : String) : Json := .obj [("id", .str id), ("text", .str "hello")]
def cancelLine (id : String) : Json := .obj [("type", .str "cancel"), ("id", .str id)]

/-- A request is claimed and put on a slot's queue. -/
def accept {E : Engine} (item : Json) : List (Label E) := [.line (.ok item), .main, .main]

/-- The thread of slot `i` takes a request off its queue, resets the flag and registers. -/
def register {E : Engine} (i : Nat) : List (Label E) := [.slot i none, .slot i none, .slot i none]

/-- A cancel line is read and acknowledged. -/
def cancel {E : Engine} (id : String) : List (Label E) := [.line (.ok (cancelLine id)), .main]

theorem cancel_delivered_to_running :
    (∃ w w', (uniqueSystem (Qwen3.engine Qwen3.synchronous) 1).Reachable w ∧
      (uniqueSystem (Qwen3.engine Qwen3.synchronous) 1).step w (.line (.ok (cancelLine "a")))
        = some w' ∧ w'.main = .ack "a" true) ∧
    (∃ w w', (uniqueSystem (Spark.engine ⟨16000⟩) 1).Reachable w ∧
      (uniqueSystem (Spark.engine ⟨16000⟩) 1).step w (.line (.ok (cancelLine "a")))
        = some w' ∧ w'.main = .ack "a" true) := by
  constructor
  · have hr := reachable_of_run (T := uniqueSystem (Qwen3.engine Qwen3.synchronous) 1)
      (accept (requestLine "a") ++ register 0) rfl
    have hd : CancelDelivered _ _ 0 _ ⟨requestLine "a", 0⟩ "a" (cancelLine "a") :=
      (cancel_delivered_iff_registered (.qwen3 Qwen3.synchronous) hr rfl rfl
        ⟨List.mem_cons_self, fun h => by cases h; rfl⟩ rfl rfl rfl).mpr ⟨⟨_, rfl⟩, rfl⟩
    obtain ⟨w', hs, hm⟩ := hd.acked
    exact ⟨_, w', hr, hs, hm⟩
  · have hr := reachable_of_run (T := uniqueSystem (Spark.engine ⟨16000⟩) 1)
      (accept (requestLine "a") ++ register 0) rfl
    have hd : CancelDelivered _ _ 0 _ ⟨requestLine "a", 0⟩ "a" (cancelLine "a") :=
      (cancel_delivered_iff_registered (.spark ⟨16000⟩) hr rfl rfl
        ⟨List.mem_cons_self, fun h => by cases h; rfl⟩ rfl rfl rfl).mpr ⟨⟨_, rfl⟩, rfl⟩
    obtain ⟨w', hs, hm⟩ := hd.acked
    exact ⟨_, w', hr, hs, hm⟩

/-- A Qwen3-TTS request runs to its `done` and is cleaned up. -/
def qwen3Completion : List (Label (Qwen3.engine Qwen3.synchronous)) :=
  [.slot 0 (some (.request .ok)),
    .slot 0 (some (.request (.returned true 0))),
    .slot 0 (some (.request .ok)),
    .slot 0 (some (.request (.clock 5))),
    .slot 0 none, .slot 0 none, .slot 0 none, .slot 0 none]

/-- The tokens of a Spark request with one semantic token. -/
def sparkTokens : Spark.Answer where
  chunk := some ⟨(List.range 32).map (fun i => Spark.kGlobalIdBase + i) ++ [Spark.kSemanticIdBase],
    some (.named "stop")⟩

/-- A Spark request runs to its `done` and is cleaned up. -/
def sparkCompletion : List (Label (Spark.engine ⟨16000⟩)) :=
  [.slot 0 (some (.request {})), .slot 0 (some (.request {})),
    .slot 0 (some (.request sparkTokens)),
    .slot 0 (some (.request {})), .slot 0 (some (.request {})), .slot 0 (some (.request {})),
    .slot 0 (some (.decoder none)),
    .slot 0 (some (.request {})), .slot 0 (some (.request {})), .slot 0 (some (.request {})),
    .slot 0 (some (.request {})), .slot 0 (some (.request { samples := 320 })),
    .slot 0 (some (.request {})), .slot 0 (some (.request {})), .slot 0 (some (.request {})),
    .slot 0 (some (.request {})),
    .slot 0 none, .slot 0 none, .slot 0 none, .slot 0 none]

set_option maxRecDepth 2000 in
/-- A cancel read after its request was accepted and before the slot's thread has
registered it is answered as not found, and the request runs to its `done`. -/
theorem cancel_lost_before_registration :
    (∃ w w₁ w₂, (uniqueSystem (Qwen3.engine Qwen3.synchronous) 1).Reachable w ∧
      w.accepted = [0] ∧ w.main = .reading ∧
      (uniqueSystem (Qwen3.engine Qwen3.synchronous) 1).step w (.line (.ok (cancelLine "a")))
        = some w₁ ∧ w₁.main = .ack "a" false ∧
      (uniqueSystem (Qwen3.engine Qwen3.synchronous) 1).Leads w₁ w₂ ∧
      (eventsOf w₂.out 0).map eventName = ["done"]) ∧
    (∃ w w₁ w₂, (uniqueSystem (Spark.engine ⟨16000⟩) 1).Reachable w ∧
      w.accepted = [0] ∧ w.main = .reading ∧
      (uniqueSystem (Spark.engine ⟨16000⟩) 1).step w (.line (.ok (cancelLine "a")))
        = some w₁ ∧ w₁.main = .ack "a" false ∧
      (uniqueSystem (Spark.engine ⟨16000⟩) 1).Leads w₁ w₂ ∧
      (eventsOf w₂.out 0).map eventName = ["token_progress", "chunk", "done"]) :=
  ⟨⟨_, _, _, reachable_of_run (accept (requestLine "a")) rfl, rfl, rfl, rfl, rfl,
      leads_of_run (register 0 ++ qwen3Completion) rfl, rfl⟩,
    ⟨_, _, _, reachable_of_run (accept (requestLine "a")) rfl, rfl, rfl, rfl, rfl,
      leads_of_run (register 0 ++ sparkCompletion) rfl, rfl⟩⟩

/-- In both workers, as long as no slot registers under an id that another slot
is registered under, every running request is found under its id, no ending
request takes another one's entry, and every cancel sets the flag of a running
request with its id. -/
theorem cancel_registrations_kept (v : Synthesizer) {maxSlots : Nat} {w : Worker v.engine}
    (hr : (disjointSystem v.engine maxSlots).Reachable w) : CancelsReach maxSlots w :=
  cancels_reach hr

theorem cancel_registrations_kept_on_two_slots :
    (∃ w, (disjointSystem (Qwen3.engine Qwen3.synchronous) 2).Reachable w ∧
      w.cancelMap.lookup "a" = some 0 ∧ w.cancelMap.lookup "b" = some 1) ∧
    (∃ w, (disjointSystem (Spark.engine ⟨16000⟩) 2).Reachable w ∧
      w.cancelMap.lookup "a" = some 0 ∧ w.cancelMap.lookup "b" = some 1) := by
  constructor
  · have hr := reachable_of_run (T := disjointSystem (Qwen3.engine Qwen3.synchronous) 2)
      (accept (requestLine "a") ++ accept (requestLine "b") ++ register 0 ++ register 1) rfl
    have hk := cancel_registrations_kept (.qwen3 Qwen3.synchronous) hr
    exact ⟨_, hr, hk.found rfl rfl (by decide), hk.found rfl rfl (by decide)⟩
  · have hr := reachable_of_run (T := disjointSystem (Spark.engine ⟨16000⟩) 2)
      (accept (requestLine "a") ++ accept (requestLine "b") ++ register 0 ++ register 1) rfl
    have hk := cancel_registrations_kept (.spark ⟨16000⟩) hr
    exact ⟨_, hr, hk.found rfl rfl (by decide), hk.found rfl rfl (by decide)⟩

/-- Two requests run under one id on two slots. The first one fails its reads,
ends, and erases the entry of the second: a cancel of the id finds nothing. -/
theorem cancel_registration_erased :
    ∃ w w', (slotSystem (Qwen3.engine Qwen3.synchronous) 2).Reachable w ∧
      (∃ s work state, w.slots[1]? = some s ∧ s.thread = .running work "a" state) ∧
      w.cancelMap.lookup "a" = none ∧
      (slotSystem (Qwen3.engine Qwen3.synchronous) 2).step w (.line (.ok (cancelLine "a")))
        = some w' ∧ w'.main = .ack "a" false := by
  have hr := reachable_of_run (T := slotSystem (Qwen3.engine Qwen3.synchronous) 2)
    (accept (.obj [("id", .str "a"), ("text", .int 1)]) ++ accept (requestLine "a") ++
      register 0 ++ register 1 ++
      [.slot 0 (some (.request .ok)), .slot 0 (some (.request (.clock 5))),
        .slot 0 none, .slot 0 none]) rfl
  exact ⟨_, _, hr, ⟨_, _, _, rfl, rfl⟩, rfl, rfl, rfl⟩

end JetsonVoice.Tts
