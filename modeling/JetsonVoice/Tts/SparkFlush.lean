import JetsonVoice.Foundation.TransitionSystem
import JetsonVoice.Tts.SparkProgress

/-!
# The end of the flush loop of a Spark request

After the decode has ended the slot's thread vocodes the remaining tokens chunk
by chunk. A call of the vocoder that returns no more than its overlap moves
nothing, and the loop makes the same call again.
-/

namespace JetsonVoice.Tts.Spark

open Foundation Protocol

/-- A request by itself, with the events it has emitted. A label has the state of the
request's channel. -/
def request (c : Config) (item : Json) (id : String) :
    TransitionSystem (State × List Json) (Bool × Input) where
  start := ({ control := .building }, [])
  step s l := (step c item id l.1 l.2 s.1).map fun r => (r.1, r.2.extend s.2)

/-- The slot's thread alone, so many steps after a state; `calls` is what its calls return. -/
def thread (c : Config) (item : Json) (id : String) (calls : Nat → Bool × Answer)
    (s : State × List Json) : Nat → State × List Json
  | 0 => s
  | n + 1 =>
      let s := thread c item id calls s n
      ((request c item id).step s ((calls n).1, .request (calls n).2)).getD s

/-- In the flush loop. -/
def Control.inFlush : Control → Bool
  | .flushing _ | .vocoding _ _ .flush | .emitting _ _ _ .flush => true
  | _ => false

/-- In the flush loop, with tokens that have not become audio. -/
def Pending (st : State) : Prop :=
  st.control.inFlush = true ∧ st.chunkState.emittedTokens < st.semantic.length

instance (st : State) : Decidable (Pending st) := inferInstanceAs (Decidable (_ ∧ _))

/-- Samples of the tokens that are vocoded once more. -/
def State.overlap (o : Options) (st : State) : Nat :=
  (st.chunkState.emittedTokens - (st.chunkState.emittedTokens - o.leftOverlap)) * kUpsamplePerToken

/-- The vocoder is called and throws, or returns more than the overlap. -/
def Heard (st : State) (a : Answer) : Prop :=
  ∃ endToken isFinal site o, st.control = .vocoding endToken isFinal site ∧ st.options = some o ∧
    (st.chunkState.emittedTokens : Int) < endToken ∧ (a.throws.isSome ∨ st.overlap o < a.samples)

/-- Past the join of the normal path, or of the exception handler. -/
def Control.joined : Control → Bool
  | .probing | .deciding | .checking | .flushing _ | .oneShot | .saving => true
  | .concluding _ | .finished => true
  | .vocoding _ _ site | .emitting _ _ _ site => site = .flush ∨ site = .marker
  | _ => false

/-- Nobody decodes for the request any more. -/
def Joined (st : State) : Prop := st.control.joined = true → st.decoder = .absent

section Reached
variable {c : Config} {item : Json} {id : String} {st next : State} {action : Action}

theorem joined_afterChunk (finished : Option FinishReason) : Joined (st.afterChunk finished) := by
  cases finished <;> exact nofun

theorem joined_afterEmit {isFinal : Bool} {site : Site}
    (h : site = .flush ∨ site = .marker → st.decoder = .absent) :
    Joined (st.afterEmit isFinal site) := by
  cases site with
  | live finished => exact joined_afterChunk finished
  | flush => exact fun _ => h (.inl rfl)
  | marker => exact fun _ => h (.inr rfl)

theorem requestStep_joined {cancelled : Bool} {a : Answer} (hj : Joined st)
    (h : requestStep c item id cancelled a st = some (next, action)) : Joined next := by
  unfold requestStep at h
  cases hc : st.control with
  | vocoding endToken isFinal site =>
      have hsite : site = .flush ∨ site = .marker → st.decoder = .absent := fun hs =>
        hj (by rw [hc]; exact decide_eq_true hs)
      simp only [hc] at h
      split at h
      · cases h
      · split at h
        · cases h
          exact joined_afterEmit hsite
        · split at h
          · cases h
            exact nofun
          · cases h
            exact fun hs => hsite (of_decide_eq_true hs)
  | emitting samples audio isFinal site =>
      have hsite : site = .flush ∨ site = .marker → st.decoder = .absent := fun hs =>
        hj (by rw [hc]; exact decide_eq_true hs)
      simp only [hc] at h
      split at h
      · cases h
      · split at h
        · cases h
          exact joined_afterEmit hsite
        · cases h
          exact joined_afterEmit hsite
  | joining =>
      simp only [hc] at h
      split at h
      · split at h
        · cases h
          exact nofun
        · cases h
          exact fun _ => rfl
      · cases h
  | unwound what =>
      simp only [hc] at h
      split at h
      · cases h
        exact fun _ => rfl
      · cases h
  | chunking finished =>
      simp only [hc] at h
      split at h
      · cases h
      · split at h
        · cases h
          exact nofun
        · cases h
          exact joined_afterChunk finished
  | probing =>
      simp only [hc] at h
      obtain ⟨o, -, h⟩ := Option.map_eq_some_iff.mp h
      cases h
      exact fun _ => hj (by rw [hc]; rfl)
  | deciding | checking | flushing | oneShot | saving =>
      simp only [hc] at h
      repeat' split at h
      all_goals cases h
      all_goals exact fun _ => hj (by rw [hc]; rfl)
  | concluding ending =>
      simp only [hc] at h
      cases h
      exact fun _ => hj (by rw [hc]; rfl)
  | waiting =>
      simp only [hc] at h
      split at h
      · cases h
        exact nofun
      · split at h
        · cases h
          exact nofun
        · cases h
          exact hj
      · cases h
  | building =>
      simp only [hc] at h
      split at h <;> cases h <;> exact nofun
  | spawning =>
      simp only [hc] at h
      split at h
      · cases h
        exact nofun
      · rename_i o _ _
        cases h
        cases o.isClone <;> simp [Joined, Control.joined]
      · cases h
  | profiling =>
      simp only [hc] at h
      split at h
      · cases h
        exact nofun
      · rename_i o _ _
        cases h
        cases o.emitTokenProgress <;> simp [Joined, Control.joined]
      · cases h
  | sorted finished =>
      simp only [hc] at h
      split at h
      · cases h
      · rename_i o _
        split at h
        · split at h
          · cases h
            exact nofun
          · cases h
            cases o.emitTokenProgress <;> simp [Joined, Control.joined]
        · cases h
          exact nofun
  | announcing | progress =>
      simp only [hc] at h
      obtain ⟨o, -, h⟩ := Option.map_eq_some_iff.mp h
      cases h
      exact nofun
  | unwinding what =>
      simp only [hc] at h
      cases h
      exact nofun
  | finished =>
      simp only [hc] at h
      cases h

theorem decoderStep_joined {throws : Option String} (hj : Joined st)
    (h : decoderStep throws st = some (next, action)) : Joined next := by
  intro hn
  have hc : next.control = st.control := by
    unfold decoderStep at h
    grind
  simp [decoderStep, hj (hc ▸ hn)] at h

/-- What holds of every state of a request. -/
structure Served (s : State × List Json) : Prop where
  sane : Sane s.1
  joined : Joined s.1
  last : s.1.control = .finished → ∃ before last, s.2 = before ++ [last] ∧ isTerminal last = true

theorem onward_last {log : List Json} (hon : Onward next action) (hf : next.control = .finished) :
    ∃ before last, action.extend log = before ++ [last] ∧ isTerminal last = true := by
  obtain ⟨e, rfl, he⟩ := hon.last hf
  exact ⟨log, e, rfl, he⟩

theorem served_invariant (c : Config) (item : Json) (id : String) :
    (request c item id).Invariant Served where
  start := ⟨⟨nofun, nofun⟩, nofun, nofun⟩
  step {s l t} hs hstep := by
    obtain ⟨⟨next, action⟩, hr, rfl⟩ := Option.map_eq_some_iff.mp hstep
    obtain ⟨cancelled, input⟩ := l
    cases input with
    | request a =>
        have hon := requestStep_onward hs.sane hr
        exact ⟨hon.sane, requestStep_joined hs.joined hr, onward_last hon⟩
    | decoder throws =>
        have hopen : s.1.control ≠ .finished := fun hf => by
          have hd := hs.joined (by rw [hf]; rfl)
          simp [step, decoderStep, hd] at hr
        have hon := decoderStep_onward hs.sane hopen hr
        exact ⟨hon.sane, decoderStep_joined hs.joined hr, onward_last hon⟩

end Reached

/-- Steps to the end once nothing is pending. -/
def Control.left : Control → Nat
  | .vocoding _ _ .flush => 8
  | .emitting _ _ _ .flush => 7
  | .flushing _ => 6
  | .emitting _ _ _ .marker => 5
  | .saving => 4
  | .unwinding _ => 3
  | .unwound _ => 2
  | .concluding _ => 1
  | .finished => 0
  | _ => 9

/-- In the flush loop, or after it. -/
structure Closing (st : State) : Prop where
  options : st.control.left < 4 ∨ st.options.isSome = true
  decoder : st.decoder = .absent
  left : st.control.left ≤ 8

/-- The tokens that the flush loop still has to turn into audio. -/
def due (st : State) : Nat :=
  if Pending st then st.semantic.length - st.chunkState.emittedTokens else 0

/-- What a step of the slot's thread does in the flush loop and after it. -/
inductive Turn (st : State) (a : Answer) (next : State) : Prop
  | silent (hp : Pending st) (hn : ¬ Heard st a) (hp' : Pending next) (heq : due next = due st)
  | heard (hp : Pending st) (hh : Heard st a) (hlow : due next < due st)
  | spent (hp : ¬ Pending st) (hp' : ¬ Pending next) (hlow : next.control.left < st.control.left)

section Turn
variable {c : Config} {item : Json} {id : String} {st next : State} {action : Action} {o : Options}

theorem due_of_pending (h : Pending st) :
    due st = st.semantic.length - st.chunkState.emittedTokens := if_pos h

theorem due_pos (h : Pending st) : 0 < due st := by
  rw [due_of_pending h]
  exact Nat.sub_pos_of_lt h.2

theorem not_pending_of_control (h : st.control.inFlush = false) : ¬ Pending st := by
  simp [Pending, h]

/-- A step inside the flush loop that turns no token into audio. -/
theorem turn_within {a : Answer} (k : Nat) {m : Nat} (hin : st.control.inFlush = true)
    (hin' : next.control.inFlush = true) (hn : ¬ Heard st a)
    (hsem : next.semantic = st.semantic)
    (hemit : next.chunkState.emittedTokens = st.chunkState.emittedTokens)
    (hk : next.control.left = k) (hm : st.control.left = m) (hleft : Pending st ∨ k < m) :
    Turn st a next := by
  have hiff : Pending next ↔ Pending st := by simp [Pending, hin, hin', hsem, hemit]
  by_cases hp : Pending st
  · have hp' := hiff.mpr hp
    exact .silent hp hn hp' (by rw [due_of_pending hp, due_of_pending hp', hsem, hemit])
  · refine .spent hp (fun h => hp (hiff.mp h)) ?_
    rw [hk, hm]
    exact hleft.resolve_left hp

/-- A step that leaves the flush loop, or happens after it. -/
theorem turn_after {a : Answer} (k : Nat) {m : Nat} (hp : ¬ Pending st)
    (hout : next.control.inFlush = false) (hk : next.control.left = k) (hm : st.control.left = m)
    (hlt : k < m) : Turn st a next :=
  .spent hp (not_pending_of_control hout) (by rw [hk, hm]; exact hlt)

theorem closing_of_options (k : Nat) (ho : st.options = some o) (hd : st.decoder = .absent)
    (hk : st.control.left = k) (hle : k ≤ 8) : Closing st :=
  ⟨.inr (by rw [ho]; rfl), hd, by rw [hk]; exact hle⟩

theorem closing_of_left (k : Nat) (hd : st.decoder = .absent) (hk : st.control.left = k)
    (hlt : k < 4) : Closing st :=
  ⟨.inl (by rw [hk]; exact hlt), hd, by omega⟩

theorem heard_iff {a : Answer} {endToken : Int} {isFinal : Bool} {site : Site}
    (ho : st.options = some o) (hc : st.control = .vocoding endToken isFinal site) :
    Heard st a ↔ (st.chunkState.emittedTokens : Int) < endToken ∧
      (a.throws.isSome ∨ st.overlap o < a.samples) := by
  constructor
  · rintro ⟨e, b, site', o', hc', ho', hlt, hh⟩
    cases hc.symm.trans hc'
    cases ho.symm.trans ho'
    exact ⟨hlt, hh⟩
  · rintro ⟨hlt, hh⟩
    exact ⟨_, _, _, _, hc, ho, hlt, hh⟩

/-- A call of the vocoder in the flush loop. -/
theorem turn_vocoding {endToken : Int} {isFinal : Bool} (hs : Closing st) (ho : st.options = some o)
    (hc : st.control = .vocoding endToken isFinal .flush) (cancelled : Bool) (a : Answer) :
    ∃ next action, requestStep c item id cancelled a st = some (next, action) ∧
      Closing next ∧ Turn st a next := by
  have hin : st.control.inFlush = true := by rw [hc]; rfl
  have hleft : st.control.left = 8 := by rw [hc]; rfl
  have hheard := heard_iff (a := a) ho hc
  simp only [requestStep, hc, ho]
  by_cases hle : endToken ≤ st.chunkState.emittedTokens
  · rw [if_pos hle]
    refine ⟨_, _, rfl, closing_of_options 6 ho hs.decoder rfl (by decide),
      turn_within 6 hin rfl (fun hh => ?_) rfl rfl rfl hleft (.inr (by decide))⟩
    exact absurd (hheard.mp hh).1 (by omega)
  rw [if_neg hle]
  have hlt : (st.chunkState.emittedTokens : Int) < endToken := by omega
  cases ht : a.throws with
  | some what =>
      refine ⟨_, _, rfl, closing_of_left 3 hs.decoder rfl (by decide), ?_⟩
      have hout : ¬ Pending (st.fail what) := not_pending_of_control rfl
      by_cases hp : Pending st
      · refine .heard hp (hheard.mpr ⟨hlt, .inl (by rw [ht]; rfl)⟩) ?_
        rw [due, if_neg hout]
        exact due_pos hp
      · exact turn_after 3 hp rfl rfl hleft (by decide)
  | none =>
      by_cases hfull : a.samples ≤ st.overlap o
      · have hv : State.vocodeChunkWindow o st.chunkState endToken.toNat a.samples =
            (0, st.chunkState) := if_pos hfull
        simp only [hv]
        refine ⟨_, _, rfl, closing_of_options 7 rfl hs.decoder rfl (by decide),
          turn_within 7 hin rfl (fun hh => ?_) rfl rfl rfl hleft (.inr (by decide))⟩
        rcases (hheard.mp hh).2 with h | h
        · simp [ht] at h
        · omega
      · have hv : State.vocodeChunkWindow o st.chunkState endToken.toNat a.samples =
            (a.samples - st.overlap o, { st.chunkState with emittedTokens := endToken.toNat }) :=
          if_neg hfull
        simp only [hv]
        refine ⟨_, _, rfl, closing_of_options 7 rfl hs.decoder rfl (by decide), ?_⟩
        by_cases hp : Pending st
        · refine .heard hp (hheard.mpr ⟨hlt, .inr (by omega)⟩) ?_
          rw [due_of_pending hp, due]
          have hrest := hp.2
          split
          · simp only
            omega
          · omega
        · refine .spent hp (fun hp' => hp ⟨hin, ?_⟩) (by rw [hleft]; exact (by decide : 7 < 8))
          have hrest : endToken.toNat < st.semantic.length := hp'.2
          omega

/-- In the flush loop and after it the thread goes on until the request has finished. -/
theorem exists_turn (c : Config) (item : Json) (id : String) (hs : Closing st)
    (hopen : st.control ≠ .finished) (cancelled : Bool) (a : Answer) : ∃ next action, requestStep c item id cancelled a st = some (next, action) ∧
      Closing next ∧ Turn st a next := by
  have hl := hs.left
  have read {k : Nat} (hk : st.control.left = k) (h4 : 4 ≤ k) : ∃ o, st.options = some o :=
    Option.isSome_iff_exists.mp (hs.options.resolve_left (by omega))
  have unheard (h : ∀ e b site, st.control ≠ .vocoding e b site) : ¬ Heard st a := by
    rintro ⟨e, b, site, o, hc, -⟩
    exact h e b site hc
  cases hc : st.control with
  | vocoding endToken isFinal site =>
      cases site with
      | flush =>
          obtain ⟨o, ho⟩ := read (congrArg Control.left hc) (by decide : 4 ≤ 8)
          exact turn_vocoding hs ho hc cancelled a
      | live finished => simp [hc, Control.left] at hl
      | marker => simp [hc, Control.left] at hl
  | emitting samples audio isFinal site =>
      cases site with
      | flush =>
          have hm : st.control.left = 7 := by rw [hc]; rfl
          obtain ⟨o, ho⟩ := read hm (by decide)
          have hn : ¬ Heard st a := unheard (by simp [hc])
          have hin : st.control.inFlush = true := by rw [hc]; rfl
          simp only [requestStep, hc, ho]
          split
          · exact ⟨_, _, rfl, closing_of_options 6 ho hs.decoder rfl (by decide),
              turn_within 6 hin rfl hn rfl rfl rfl hm (.inr (by decide))⟩
          · exact ⟨_, _, rfl, closing_of_options 6 rfl hs.decoder rfl (by decide),
              turn_within 6 hin rfl hn rfl rfl rfl hm (.inr (by decide))⟩
      | live finished => simp [hc, Control.left] at hl
      | marker =>
          have hm : st.control.left = 5 := by rw [hc]; rfl
          obtain ⟨o, ho⟩ := read hm (by decide)
          have hp : ¬ Pending st := not_pending_of_control (by rw [hc]; rfl)
          simp only [requestStep, hc, ho]
          split
          · exact ⟨_, _, rfl, closing_of_options 4 ho hs.decoder rfl (by decide),
              turn_after 4 hp rfl rfl hm (by decide)⟩
          · exact ⟨_, _, rfl, closing_of_options 4 rfl hs.decoder rfl (by decide),
              turn_after 4 hp rfl rfl hm (by decide)⟩
  | flushing lastWasFinal =>
      have hm : st.control.left = 6 := by rw [hc]; rfl
      obtain ⟨o, ho⟩ := read hm (by decide)
      have hn : ¬ Heard st a := unheard (by simp [hc])
      have hin : st.control.inFlush = true := by rw [hc]; rfl
      simp only [requestStep, hc, ho]
      split
      · rename_i hlt
        exact ⟨_, _, rfl, closing_of_options 8 rfl hs.decoder rfl (by decide),
          turn_within 8 hin rfl hn rfl rfl rfl hm (.inl ⟨hin, hlt⟩)⟩
      · rename_i hle
        have hp : ¬ Pending st := fun h => hle h.2
        split
        · exact ⟨_, _, rfl, closing_of_options 4 rfl hs.decoder rfl (by decide),
            turn_after 4 hp rfl rfl hm (by decide)⟩
        · exact ⟨_, _, rfl, closing_of_options 5 rfl hs.decoder rfl (by decide),
            turn_after 5 hp rfl rfl hm (by decide)⟩
  | saving =>
      have hm : st.control.left = 4 := by rw [hc]; rfl
      obtain ⟨o, ho⟩ := read hm (by decide)
      have hp : ¬ Pending st := not_pending_of_control (by rw [hc]; rfl)
      simp only [requestStep, hc, ho]
      split
      · exact ⟨_, _, rfl, closing_of_options 1 rfl hs.decoder rfl (by decide),
          turn_after 1 hp rfl rfl hm (by decide)⟩
      · exact ⟨_, _, rfl, closing_of_left 3 hs.decoder rfl (by decide),
          turn_after 3 hp rfl rfl hm (by decide)⟩
  | concluding ending =>
      have hp : ¬ Pending st := not_pending_of_control (by rw [hc]; rfl)
      simp only [requestStep, hc]
      exact ⟨_, _, rfl, closing_of_left 0 hs.decoder rfl (by decide),
        turn_after 0 hp rfl rfl (congrArg Control.left hc) (by decide : 0 < 1)⟩
  | unwinding what =>
      have hp : ¬ Pending st := not_pending_of_control (by rw [hc]; rfl)
      simp only [requestStep, hc]
      exact ⟨_, _, rfl, closing_of_left 2 hs.decoder rfl (by decide),
        turn_after 2 hp rfl rfl (congrArg Control.left hc) (by decide : 2 < 3)⟩
  | unwound what =>
      have hp : ¬ Pending st := not_pending_of_control (by rw [hc]; rfl)
      simp only [requestStep, hc, if_pos (Or.inl hs.decoder)]
      exact ⟨_, _, rfl, closing_of_left 1 rfl rfl (by decide),
        turn_after 1 hp rfl rfl (congrArg Control.left hc) (by decide : 1 < 2)⟩
  | finished => exact absurd hc hopen
  | _ => simp [hc, Control.left] at hl

end Turn

section Thread
variable {c : Config} {item : Json} {id : String} {calls : Nat → Bool × Answer}
  {s : State × List Json}

theorem closing_of_flushing (hr : (request c item id).Reachable s) {b : Bool}
    (hc : s.1.control = .flushing b) : Closing s.1 := by
  have hs := (served_invariant c item id).of_reachable hr
  refine ⟨.inr (hs.sane.options (by rw [hc]; rfl)), hs.joined (by rw [hc]; rfl), ?_⟩
  rw [hc]
  exact (by decide : 6 ≤ 8)

theorem reachable_thread (hr : (request c item id).Reachable s) (n : Nat) :
    (request c item id).Reachable (thread c item id calls s n) := by
  induction n with
  | zero => exact hr
  | succ n ih =>
      simp only [thread]
      cases hs : (request c item id).step (thread c item id calls s n)
          ((calls n).1, .request (calls n).2) with
      | none => exact ih
      | some t => exact ih.step hs

theorem thread_finished {n : Nat} (hf : (thread c item id calls s n).1.control = .finished) :
    thread c item id calls s (n + 1) = thread c item id calls s n := by
  have hnone : (request c item id).step (thread c item id calls s n)
      ((calls n).1, .request (calls n).2) = none := by
    simp [request, step, requestStep, hf]
  simp only [thread, hnone, Option.getD_none]

theorem finished_stays {n k : Nat} (hnk : n ≤ k)
    (hf : (thread c item id calls s n).1.control = .finished) :
    (thread c item id calls s k).1.control = .finished := by
  induction k, hnk using Nat.le_induction with
  | base => exact hf
  | succ k _ ih => rwa [thread_finished ih]

theorem thread_turn {n : Nat} (hs : Closing (thread c item id calls s n).1)
    (hopen : (thread c item id calls s n).1.control ≠ .finished) :
    Closing (thread c item id calls s (n + 1)).1 ∧
      Turn (thread c item id calls s n).1 (calls n).2 (thread c item id calls s (n + 1)).1 := by
  obtain ⟨next, action, hstep, hclosing, hturn⟩ :=
    exists_turn c item id hs hopen (calls n).1 (calls n).2
  have heq : (thread c item id calls s (n + 1)).1 = next := by
    simp [thread, request, step, hstep]
  rw [heq]
  exact ⟨hclosing, hturn⟩

theorem closing_thread (hs : Closing s.1) (n : Nat) :
    Closing (thread c item id calls s n).1 := by
  induction n with
  | zero => exact hs
  | succ n ih =>
      by_cases hf : (thread c item id calls s n).1.control = .finished
      · rwa [thread_finished hf]
      · exact (thread_turn ih hf).1

theorem open_of_pending {st : State} (hp : Pending st) : st.control ≠ .finished := fun hf => by
  have hin := hp.1
  rw [hf] at hin
  cases hin

/-- As long as no call is heard, the same tokens stay pending. -/
theorem pending_stays (hs : Closing s.1) {n k : Nat} (hnk : n ≤ k)
    (hp : Pending (thread c item id calls s n).1)
    (hn : ∀ m, n ≤ m → m < k → ¬ Heard (thread c item id calls s m).1 (calls m).2) :
    Pending (thread c item id calls s k).1 ∧
      due (thread c item id calls s k).1 = due (thread c item id calls s n).1 := by
  induction k, hnk using Nat.le_induction with
  | base => exact ⟨hp, rfl⟩
  | succ k hnk ih =>
      obtain ⟨hpk, hdue⟩ := ih fun m hm hmk => hn m hm (by omega)
      cases (thread_turn (closing_thread hs k) (open_of_pending hpk)).2 with
      | silent _ _ hp' heq => exact ⟨hp', heq.trans hdue⟩
      | heard _ hh _ => exact absurd hh (hn k hnk (by omega))
      | spent hp' _ _ => exact absurd hpk hp'

/-- The first call that is heard turns tokens into audio, or ends the loop. -/
theorem due_lowered (hs : Closing s.1) {n m : Nat} (hnm : n ≤ m)
    (hp : Pending (thread c item id calls s n).1)
    (hh : Heard (thread c item id calls s m).1 (calls m).2) :
    ∃ k, n ≤ k ∧ due (thread c item id calls s (k + 1)).1 < due (thread c item id calls s n).1 := by
  classical
  have hex : ∃ k, n ≤ k ∧ Heard (thread c item id calls s k).1 (calls k).2 := ⟨m, hnm, hh⟩
  obtain ⟨hle, hheard⟩ := Nat.find_spec hex
  obtain ⟨hpk, hdue⟩ := pending_stays hs hle hp fun k hk hlt hk' => Nat.find_min hex hlt ⟨hk, hk'⟩
  refine ⟨Nat.find hex, hle, ?_⟩
  rw [← hdue]
  cases (thread_turn (closing_thread hs _) (open_of_pending hpk)).2 with
  | silent _ hn _ _ => exact absurd hheard hn
  | heard _ _ hlow => exact hlow
  | spent hp' _ _ => exact absurd hpk hp'

/-- With nothing pending the thread gets to the end. -/
theorem ends_of_not_pending (hs : Closing s.1) {left n : Nat}
    (hl : (thread c item id calls s n).1.control.left = left)
    (hp : ¬ Pending (thread c item id calls s n).1) :
    ∃ k, (thread c item id calls s k).1.control = .finished := by
  induction left using Nat.strong_induction_on generalizing n with
  | _ left ih =>
      by_cases hf : (thread c item id calls s n).1.control = .finished
      · exact ⟨n, hf⟩
      cases (thread_turn (closing_thread hs n) hf).2 with
      | silent hp' _ _ _ => exact absurd hp' hp
      | heard hp' _ _ => exact absurd hp' hp
      | spent _ hp' hlow => exact ih _ (hl ▸ hlow) rfl hp'

theorem ends_of_heard (hs : Closing s.1)
    (hheard : ∀ n, Pending (thread c item id calls s n).1 →
      ∃ m ≥ n, Heard (thread c item id calls s m).1 (calls m).2) {d n : Nat}
    (hd : due (thread c item id calls s n).1 = d) :
    ∃ k, (thread c item id calls s k).1.control = .finished := by
  induction d using Nat.strong_induction_on generalizing n with
  | _ d ih =>
      by_cases hp : Pending (thread c item id calls s n).1
      · obtain ⟨m, hnm, hh⟩ := hheard n hp
        obtain ⟨k, -, hlow⟩ := due_lowered hs hnm hp hh
        exact ih _ (hd ▸ hlow) rfl
      · exact ends_of_not_pending hs rfl hp

/-- From every state in which the token loop has ended and the flush loop begins, and for all
results of the calls: the request ends with its terminal event exactly when no tokens are left
pending by calls of which none is heard any more. -/
theorem flush_ends_iff (c : Config) (item : Json) (id : String) (calls : Nat → Bool × Answer)
    {s : State × List Json} (hr : (request c item id).Reachable s)
    (hc : s.1.control = .flushing false) :
    (∃ n before last, (thread c item id calls s n).1.control = .finished ∧
      (thread c item id calls s n).2 = before ++ [last] ∧ isTerminal last = true) ↔
    ∀ n, Pending (thread c item id calls s n).1 →
      ∃ m ≥ n, Heard (thread c item id calls s m).1 (calls m).2 := by
  have hs := closing_of_flushing hr hc
  constructor
  · rintro ⟨k, -, -, hf, -⟩ n hp
    by_contra hnone
    push Not at hnone
    have hstay := (pending_stays hs (Nat.le_max_left n k) hp fun m hm _ => hnone m hm).1
    exact open_of_pending hstay (finished_stays (Nat.le_max_right n k) hf)
  · intro hheard
    obtain ⟨k, hf⟩ := ends_of_heard hs hheard (n := 0) rfl
    obtain ⟨before, last, hlog, hterm⟩ :=
      ((served_invariant c item id).of_reachable (reachable_thread hr k)).last hf
    exact ⟨k, before, last, hf, hlog, hterm⟩

/-- A request whose decode gives the 32 global tokens and one semantic token. -/
def oneToken : List (Bool × Input) :=
  let go (a : Answer) : Bool × Input := (false, .request a)
  [go {}, go {}, go { chunk := some ⟨List.replicate 32 kGlobalIdBase ++ [kSemanticIdBase],
      some (.named "stop")⟩ }, go {}, go {}, go {}, (false, .decoder none), go {}, go {}, go {}]

theorem oneToken_flushing : ∃ s, (request ⟨16000⟩ (.obj [("text", .str "Hi")]) "a").Reachable s ∧
    s.1.control = .flushing false ∧ Pending s.1 := by
  refine TransitionSystem.exists_reachable _ oneToken ?_
  decide +kernel

theorem flush_ends_iff_oneToken :
    ∃ s, (request ⟨16000⟩ (.obj [("text", .str "Hi")]) "a").Reachable s ∧
      ((∃ n before last,
          (thread ⟨16000⟩ (.obj [("text", .str "Hi")]) "a" (fun _ => (false, { samples := 320 }))
            s n).1.control = .finished ∧
          (thread ⟨16000⟩ (.obj [("text", .str "Hi")]) "a" (fun _ => (false, { samples := 320 }))
            s n).2 = before ++ [last] ∧ isTerminal last = true) ↔
        ∀ n, Pending (thread ⟨16000⟩ (.obj [("text", .str "Hi")]) "a"
            (fun _ => (false, { samples := 320 })) s n).1 →
          ∃ m ≥ n, Heard (thread ⟨16000⟩ (.obj [("text", .str "Hi")]) "a"
            (fun _ => (false, { samples := 320 })) s m).1 { samples := 320 }) := by
  obtain ⟨s, hr, hc, -⟩ := oneToken_flushing
  exact ⟨s, hr, flush_ends_iff _ _ _ (fun _ => (false, { samples := 320 })) hr hc⟩

/-- A vocoder that returns no samples for the last window keeps the flush loop going for ever. -/
theorem silent_vocoder_never_ends :
    ∃ s, (request ⟨16000⟩ (.obj [("text", .str "Hi")]) "a").Reachable s ∧
      s.1.control = .flushing false ∧
      ∀ n, (thread ⟨16000⟩ (.obj [("text", .str "Hi")]) "a" (fun _ => (false, {})) s n).1.control ≠
        .finished := by
  obtain ⟨s, hr, hc, hp⟩ := oneToken_flushing
  refine ⟨s, hr, hc, fun n => open_of_pending ?_⟩
  refine (pending_stays (closing_of_flushing hr hc) (Nat.zero_le n) hp fun m _ _ => ?_).1
  rintro ⟨e, b, site, o, -, -, -, hheard⟩
  simp at hheard

end Thread
end JetsonVoice.Tts.Spark
