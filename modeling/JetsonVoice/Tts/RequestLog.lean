import JetsonVoice.Foundation.TerminalLog
import JetsonVoice.Tts.Requests

/-!
# What one request does in a run of the worker

Seen from one request, a run of the worker is: not yet begun, then the steps of
the engine, then over. A step of the worker either is the request's next step or
leaves its stage and its events as they are. A relation between the state of the
engine and the events that every engine step keeps therefore holds in every run.
-/

namespace JetsonVoice.Tts

open Foundation Protocol TransitionSystem

variable {E : Engine}

/-- How far the request of a slot's thread has come. -/
inductive Stage (E : Engine) where
  | fresh
  | running (state : E.State)
  | over

def SlotThread.stage : SlotThread E → Stage E
  | .waiting | .exited | .arming _ _ | .registering _ _ => .fresh
  | .running _ _ state => .running state
  | .unregistering _ _ | .cleaning _ _ | .releasing _ _ => .over

/-- The events of a request after an action of its own. -/
def Action.extend (log : List Json) : Action → List Json
  | .emit e => log ++ [e]
  | _ => log

/-- No request's events change. -/
def SameLogs (w w' : Worker E) (t : Nat) : Prop :=
  eventsOf w'.out t = eventsOf w.out t ∧ (t ∈ w'.noted ↔ t ∈ w.noted)

/-- A step is a step of some slot's engine, or none of the logs changes. -/
theorem Step.log {w w' : Worker E} {l : Label E} (h : Step w l w') :
    (∀ t, SameLogs w w' t) ∨
      ∃ i work state next action, EngineStep w w' i work state next action := by
  cases h with
  | answer => exact .inl fun t => ⟨eventsOf_untagged _ _ t, .rfl⟩
  | ack => exact .inl fun t => ⟨eventsOf_untagged _ _ t, .rfl⟩
  | reject => exact .inl fun t => ⟨eventsOf_untagged _ _ t, .rfl⟩
  | engine hi ht hf hs => exact .inr ⟨_, _, _, _, _, ⟨_, _, _, hi, ht, hf, hs, rfl⟩⟩
  | _ => exact .inl fun t => ⟨rfl, .rfl⟩

theorem Step.slots_length {w w' : Worker E} {l : Label E} (h : Step w l w') :
    w'.slots.length = w.slots.length := by
  cases h with
  | @engine i _ s _ _ _ _ action _ _ _ _ =>
      cases action <;> simp [Worker.apply, Worker.setSlot]
  | _ => simp [Worker.setSlot, Worker.emit]

namespace EngineStep
variable {w w' : Worker E} {i : Nat} {work : Work} {state next : E.State} {action : Action}

/-- Only the stepping request's log changes. -/
theorem other (h : EngineStep w w' i work state next action) {t : Nat} (ht : t ≠ work.token) :
    SameLogs w w' t := by
  obtain ⟨s, id, input, -, -, -, -, rfl⟩ := h.eq
  cases action with
  | emit e => exact ⟨eventsOf_other ht _ _, .rfl⟩
  | note => exact ⟨rfl, by simp [Worker.apply, ht]⟩
  | _ => exact ⟨rfl, .rfl⟩

theorem events (h : EngineStep w w' i work state next action) :
    eventsOf w'.out work.token = action.extend (eventsOf w.out work.token) := by
  obtain ⟨s, id, input, -, -, -, -, rfl⟩ := h.eq
  cases action with
  | emit e => exact eventsOf_tagged _ _ _
  | _ => rfl

theorem noted (h : EngineStep w w' i work state next action) :
    work.token ∈ w'.noted ↔ work.token ∈ w.noted ∨ action = .note := by
  obtain ⟨s, id, input, -, -, -, -, rfl⟩ := h.eq
  cases action <;> simp [Worker.apply, Worker.setSlot]

theorem slots (h : EngineStep w w' i work state next action) :
    ∃ s s' id, w.slots[i]? = some s ∧ s.thread = .running work id state ∧
      s'.thread = .running work id next ∧ s'.queue = s.queue ∧ w'.slots = w.slots.set i s' := by
  obtain ⟨s, id, input, hi, ht, -, -, rfl⟩ := h.eq
  cases action <;> refine ⟨s, _, id, hi, ht, ?_, ?_, rfl⟩ <;> rfl

end EngineStep

/-- The stage of the request with a token. -/
inductive AtStage (w : Worker E) (t : Nat) : Stage E → Prop
  | unissued (ht : w.nextToken ≤ t) : AtStage w t .fresh
  | queued {i : Nat} {work : Work} (hr : work ∈ w.requests i) (ht : work.token = t)
      (hn : ∀ {s : Slot E}, w.slots[i]? = some s → s.thread.work? = none) : AtStage w t .fresh
  | held {i : Nat} {s : Slot E} {work : Work} {id : String} (hi : w.slots[i]? = some s)
      (hw : s.thread.work? = some (work, id)) (ht : work.token = t) : AtStage w t s.thread.stage
  | gone (ht : t < w.nextToken) (hr : ∀ {i work}, work ∈ w.requests i → work.token ≠ t) :
      AtStage w t .over

/-- Every request has a stage. -/
theorem exists_atStage {w : Worker E} (hw : Housed w) (t : Nat) : ∃ σ, AtStage w t σ := by
  by_cases ht : t < w.nextToken
  · by_cases hr : ∃ i work, work ∈ w.requests i ∧ work.token = t
    · obtain ⟨i, work, hm, htok⟩ := hr
      by_cases hn : ∀ {s : Slot E}, w.slots[i]? = some s → s.thread.work? = none
      · exact ⟨_, .queued hm htok hn⟩
      · simp only [not_forall] at hn
        obtain ⟨s, hi, hs⟩ := hn
        obtain ⟨⟨work', id⟩, hwork⟩ := Option.ne_none_iff_exists'.mp hs
        have heq := hw.only hm (Worker.mem_requests hi hwork)
        exact ⟨_, .held hi hwork (heq ▸ htok)⟩
    · exact ⟨_, .gone ht fun hm heq => hr ⟨_, _, hm, heq⟩⟩
  · exact ⟨_, .unissued (by omega)⟩

/-- The request a thread works on is at the stage of the thread. -/
theorem AtStage.of_held {w : Worker E} (hw : Housed w) {i t : Nat} {s : Slot E} {work : Work}
    {id : String} {σ : Stage E} (hi : w.slots[i]? = some s)
    (hwork : s.thread.work? = some (work, id)) (htok : work.token = t) (h : AtStage w t σ) :
    σ = s.thread.stage := by
  have hmem := Worker.mem_requests hi hwork
  cases h with
  | unissued hle => exact absurd (hw.issued hmem) (by omega)
  | gone _ hr => exact absurd htok (hr hmem)
  | queued hmem' htok' hn =>
      obtain rfl := hw.distinct hmem hmem' (htok.trans htok'.symm)
      simp [hn hi] at hwork
  | held hi' hwork' htok' =>
      obtain rfl := hw.distinct hmem (Worker.mem_requests hi' hwork') (htok.trans htok'.symm)
      cases hi.symm.trans hi'
      rfl

/-- What a step of the worker is for one request. -/
inductive StageMove (w w' : Worker E) (t : Nat) : Stage E → Stage E → Prop
  | keep {σ : Stage E} (hlog : SameLogs w w' t) : StageMove w w' t σ σ
  | begin (hlog : SameLogs w w' t) : StageMove w w' t .fresh (.running E.start)
  | engine {i : Nat} {work : Work} {state next : E.State} {action : Action}
      (he : EngineStep w w' i work state next action) (ht : work.token = t) :
      StageMove w w' t (.running state) (.running next)
  | leave {state : E.State} (hlog : SameLogs w w' t) (hf : E.finished state = true) :
      StageMove w w' t (.running state) .over

section StageMove
variable {w w' : Worker E} {l : Label E} {t : Nat} {σ' : Stage E}

/-- A request that stays on its slot, when no log changes. -/
theorem stage_kept (hlog : SameLogs w w' t)
    (hlen : w'.slots.length = w.slots.length) (hr : ∀ j, w'.requests j = w.requests j)
    (ht : w'.nextToken = w.nextToken)
    (hm : ∀ {j : Nat} {s' : Slot E}, w'.slots[j]? = some s' →
      ∃ s, w.slots[j]? = some s ∧ ThreadMove w w' j s.thread s'.thread)
    (hs : AtStage w' t σ') : ∃ σ, AtStage w t σ ∧ StageMove w w' t σ σ' := by
  cases hs with
  | unissued hle => exact ⟨_, .unissued (ht ▸ hle), .keep hlog⟩
  | gone hlt hnone => exact ⟨_, .gone (ht ▸ hlt) fun hmem => hnone (hr _ ▸ hmem), .keep hlog⟩
  | @queued i work hmem htok hn =>
      refine ⟨_, .queued (hr i ▸ hmem) htok fun {s} hi => ?_, .keep hlog⟩
      obtain ⟨s', hi'⟩ : ∃ s', w'.slots[i]? = some s' :=
        ⟨_, List.getElem?_eq_getElem (hlen ▸ lt_of_getElem? hi)⟩
      obtain ⟨s₀, hi₀, hmove⟩ := hm hi'
      cases hi.symm.trans hi₀
      have hnone := hn hi'
      generalize s.thread = a, s'.thread = b at hmove hnone
      cases hmove <;> first | exact hnone | rfl
  | @held i s' work id hi' hwork htok =>
      obtain ⟨s, hi, hmove⟩ := hm hi'
      have hmem : work ∈ w.requests i := hr i ▸ Worker.mem_requests hi' hwork
      have held {id' : String} (hs : s.thread.work? = some (work, id')) :
          AtStage w t s.thread.stage := .held hi hs htok
      revert hwork held
      generalize hsa : s.thread = a, s'.thread = b at hmove
      intro hwork held
      cases hmove with
      | stay => exact ⟨_, held hwork, .keep hlog⟩
      | exit => cases hwork
      | pickUp =>
          refine ⟨_, .queued hmem htok fun {s₀} hi₀ => ?_, .keep hlog⟩
          cases hi.symm.trans hi₀
          rw [hsa]
          rfl
      | arm => exact ⟨_, held hwork, .keep hlog⟩
      | register => exact ⟨_, held hwork, .begin hlog⟩
      | engine he =>
          cases hwork
          exact ⟨_, held rfl, .engine he htok⟩
      | leave hf => exact ⟨_, held hwork, .leave hlog hf⟩
      | unregister => exact ⟨_, held hwork, .keep hlog⟩
      | clean => exact ⟨_, held hwork, .keep hlog⟩

/-- A request, when a step changes no log. -/
theorem stage_quiet (hw : Housed w) (hlog : SameLogs w w' t)
    (hlen : w'.slots.length = w.slots.length) (hr : RequestsMove w w' l)
    (hs : AtStage w' t σ') : ∃ σ, AtStage w t σ ∧ StageMove w w' t σ σ' := by
  cases hr with
  | keep hr _ ht hm => exact stage_kept hlog hlen hr ht hm hs
  | @claim item id i _ _ _ _ hr _ ht hslots =>
      have hnew : (⟨item, w.nextToken⟩ : Work) ∈ w'.requests i := by simp [hr]
      cases hs with
      | unissued hle => exact ⟨_, .unissued (by omega), .keep hlog⟩
      | gone hlt hnone =>
          have hne := hnone hnew
          refine ⟨_, .gone (by simp only at hne; omega) fun {j a} hmem => ?_, .keep hlog⟩
          exact hnone (hr j ▸ List.mem_append_left _ hmem)
      | @queued j work hmem htok hn =>
          rw [hr j, List.mem_append] at hmem
          rcases hmem with hmem | hmem
          · exact ⟨_, .queued hmem htok (hslots ▸ hn), .keep hlog⟩
          · have hwork : work = ⟨item, w.nextToken⟩ := by
              split at hmem
              · simpa using hmem
              · cases hmem
            subst hwork
            exact ⟨_, .unissued (le_of_eq htok), .keep hlog⟩
      | held hi hwork htok => exact ⟨_, .held (hslots ▸ hi) hwork htok, .keep hlog⟩
  | @release i s work id hi hs' hr hother _ ht hset =>
      have hsub {j : Nat} {a : Work} (hm : a ∈ w'.requests j) : a ∈ w.requests j := by
        by_cases hj : j = i
        · subst hj
          exact hr ▸ List.mem_cons_of_mem _ hm
        · exact hother j hj ▸ hm
      have hheld : s.thread.work? = some (work, id) := by rw [hs']; rfl
      have hstage : s.thread.stage = .over := by rw [hs']; rfl
      cases hs with
      | unissued hle => exact ⟨_, .unissued (ht ▸ hle), .keep hlog⟩
      | gone hlt hnone =>
          by_cases htok : work.token = t
          · exact ⟨_, .held hi hheld htok, hstage ▸ .keep hlog⟩
          · refine ⟨_, .gone (ht ▸ hlt) fun {j a} hmem => ?_, .keep hlog⟩
            by_cases hj : j = i
            · subst hj
              exact hw.only hmem (Worker.mem_requests hi hheld) ▸ htok
            · exact hnone (hother j hj ▸ hmem)
      | @queued j a hmem htok hn =>
          refine ⟨_, .queued (hsub hmem) htok fun {s₀} hi₀ => ?_, .keep hlog⟩
          by_cases hj : j = i
          · subst hj
            have hlen := hw.single j
            rw [hr] at hlen
            have hpos := List.length_pos_of_mem hmem
            simp only [List.length_cons] at hlen
            omega
          · exact hn (hset ▸ (getElem?_set_other hj).trans hi₀)
      | held hi' hwork' htok =>
          rcases getElem?_set_cases (hset ▸ hi') with ⟨-, rfl, -⟩ | ⟨-, hj⟩
          · cases hwork'
          · exact ⟨_, .held hj hwork' htok, .keep hlog⟩

/-- A request, when an engine steps. -/
theorem stage_engine (hw : Housed w) (hw' : Housed w') {i : Nat} {work : Work} {state next : E.State}
    {action : Action} (he : EngineStep w w' i work state next action)
    (hlen : w'.slots.length = w.slots.length) (hr : RequestsMove w w' l)
    (hs : AtStage w' t σ') : ∃ σ, AtStage w t σ ∧ StageMove w w' t σ σ' := by
  by_cases htok : t = work.token
  · obtain ⟨s, s', id, hi, hthread, hthread', -, hset⟩ := he.slots
    have hi' : w'.slots[i]? = some s' := hset ▸ getElem?_set_same hi
    have hσ := hs.of_held hw' hi' (by rw [hthread']; rfl) htok.symm
    have hat : AtStage w t s.thread.stage := .held hi (by rw [hthread]; rfl) htok.symm
    rw [hthread'] at hσ
    rw [hthread] at hat
    exact ⟨_, hat, hσ ▸ .engine he htok.symm⟩
  · exact stage_quiet hw (he.other htok) hlen hr hs

/-- A step of the worker is for every request its next step or none. -/
theorem Step.stage (hw : Housed w) (h : Step w l w') (hs : AtStage w' t σ') :
    ∃ σ, AtStage w t σ ∧ StageMove w w' t σ σ' := by
  rcases h.log with hlog | ⟨i, work, state, next, action, he⟩
  · exact stage_quiet hw (hlog t) h.slots_length h.requests hs
  · exact stage_engine hw (hw.step h) he h.slots_length h.requests hs

end StageMove

/-- A relation between the state of the engine and the log of its request, which
also says whether a failed Code2Wav call was noted, that every engine step keeps. -/
structure LogLaw (E : Engine) (Good : Bool → E.State → List Json → Prop) : Prop where
  start : Good false E.start []
  step : ∀ {item id cancelled input state next action noted log},
    E.finished state = false → E.step item id cancelled input state = some (next, action) →
      Good noted state log → Good (noted || action = .note) next (action.extend log)

theorem LogLaw.and {Good Good' : Bool → E.State → List Json → Prop} (h : LogLaw E Good)
    (h' : LogLaw E Good') :
    LogLaw E fun noted state log => Good noted state log ∧ Good' noted state log where
  start := ⟨h.start, h'.start⟩
  step hf hs hg := ⟨h.step hf hs hg.1, h'.step hf hs hg.2⟩

/-- What the log of a request at a stage satisfies. -/
def StageLog (Good : Bool → E.State → List Json → Prop) (noted : Bool) (log : List Json) :
    Stage E → Prop
  | .fresh => noted = false ∧ log = []
  | .running state => Good noted state log
  | .over => ∃ state, E.finished state = true ∧ Good noted state log

/-- Every request's log satisfies what belongs to its stage. -/
def Logged (Good : Bool → E.State → List Json → Prop) (w : Worker E) : Prop :=
  ∀ {t σ}, AtStage w t σ → StageLog Good (decide (t ∈ w.noted)) (eventsOf w.out t) σ

section Logged
variable {Good : Bool → E.State → List Json → Prop} {w w' : Worker E} {l : Label E}

theorem SameLogs.stageLog {t : Nat} (h : SameLogs w w' t) {σ : Stage E}
    (hs : StageLog Good (decide (t ∈ w.noted)) (eventsOf w.out t) σ) :
    StageLog Good (decide (t ∈ w'.noted)) (eventsOf w'.out t) σ := by
  rw [h.1, decide_eq_decide.mpr h.2]
  exact hs

theorem Logged.step (law : LogLaw E Good) (hw : Housed w) (hl : Logged Good w)
    (h : Step w l w') : Logged Good w' := by
  intro t σ' hs'
  obtain ⟨σ, hs, hm⟩ := h.stage hw hs'
  have hlog := hl hs
  cases hm with
  | keep hsame => exact hsame.stageLog hlog
  | begin hsame =>
      obtain ⟨hn, he⟩ := hlog
      refine hsame.stageLog (σ := .running E.start) ?_
      rw [hn, he]
      exact law.start
  | @engine i work state next action he htok =>
      subst htok
      obtain ⟨s, id, input, -, -, hf, hstep, -⟩ := he.eq
      have hnoted : decide (work.token ∈ w'.noted) =
          (decide (work.token ∈ w.noted) || decide (action = .note)) := by
        simp [he.noted]
      rw [hnoted, he.events]
      exact law.step hf hstep hlog
  | leave hsame hf => exact hsame.stageLog (σ := .over) ⟨_, hf, hlog⟩

/-- Every run keeps the relation. -/
theorem logged_invariant (law : LogLaw E Good) (maxSlots : Nat) :
    (slotSystem E maxSlots).Invariant fun w => Housed w ∧ Logged Good w := by
  refine (housed_invariant E maxSlots).relative ?_ fun hw hl hs => hl.step law hw (step_cases hs)
  intro t σ hs
  cases hs with
  | unissued _ => exact ⟨rfl, rfl⟩
  | queued _ _ _ => exact ⟨rfl, rfl⟩
  | held hi hwork _ => simp [(Tended.slot_of_init hi).1, SlotThread.work?] at hwork
  | gone hlt _ => exact absurd hlt (Nat.not_lt_zero _)

/-- An accepted request that is not in flight has run to the end of its engine. -/
theorem closed_stage {t : Nat} {σ : Stage E} (ha : Admitted w) (ht : t ∈ w.accepted)
    (hf : ∀ work ∈ w.inFlight, work.token ≠ t) (hs : AtStage w t σ) :
    σ = .over ∨ ∃ state, σ = .running state ∧ E.finished state = true := by
  have notFlying {i : Nat} {s : Slot E} {work : Work} (hi : w.slots[i]? = some s)
      (hm : work ∈ s.thread.unfinished ++ s.queue) : work.token ≠ t :=
    hf work (List.mem_flatMap.mpr ⟨s, List.mem_of_getElem? hi, hm⟩)
  cases hs with
  | unissued hle => exact absurd (ha.issued ht) (by omega)
  | gone => exact .inl rfl
  | @queued i work hmem htok hn =>
      rw [Worker.requests, List.mem_append] at hmem
      rcases hmem with hmem | hmem
      · cases hi : w.slots[i]? with
        | none => simp [hi] at hmem
        | some s =>
            have hq : work ∈ s.queue := by simpa [hi, Slot.requests, hn hi] using hmem
            exact absurd htok (notFlying hi (List.mem_append_right _ hq))
      · rw [Main.claimOn] at hmem
        split at hmem
        · rename_i hc
          split at hmem
          · obtain rfl := List.mem_singleton.mp hmem
            exact absurd (htok ▸ ht) (ha.pending hc).2
          · cases hmem
        · cases hmem
  | @held i s work id hi hwork htok =>
      have hne (hm : work ∈ s.thread.unfinished) : False :=
        notFlying hi (List.mem_append_left _ hm) htok
      revert hwork hne
      generalize s.thread = thread
      intro hwork hne
      cases thread with
      | running work' id' state =>
          cases hwork
          refine .inr ⟨state, rfl, ?_⟩
          by_contra hopen
          exact hne (by simp [SlotThread.unfinished, hopen])
      | arming => cases hwork; exact (hne List.mem_cons_self).elim
      | registering => cases hwork; exact (hne List.mem_cons_self).elim
      | waiting => cases hwork
      | exited => cases hwork
      | _ => exact .inl rfl

/-- The log of an accepted request that is not in flight is the log of an engine
that has finished. -/
theorem closed_log (law : LogLaw E Good) {maxSlots t : Nat}
    (hr : (slotSystem E maxSlots).Reachable w) (ht : t ∈ w.accepted)
    (hf : ∀ work ∈ w.inFlight, work.token ≠ t) :
    ∃ state, E.finished state = true ∧
      Good (decide (t ∈ w.noted)) state (eventsOf w.out t) := by
  obtain ⟨hw, hl⟩ := (logged_invariant law maxSlots).of_reachable hr
  obtain ⟨σ, hs⟩ := exists_atStage hw t
  have hlog := hl hs
  rcases closed_stage ((admitted_invariant E maxSlots).of_reachable hr) ht hf hs with
    rfl | ⟨state, rfl, hfin⟩
  · exact hlog
  · exact ⟨state, hfin, hlog⟩

end Logged

end JetsonVoice.Tts
