import JetsonVoice.Asr.TempFiles

/-!
# The idle sweep against a clock

The stdin loop with the time everything takes: clients send lines whenever they
like, the worker reads what is in its pipe, handles the lines it has read one
after the other, and sweeps once they are done or a poll has brought nothing.

## Implementation notes

Times are in nanoseconds. A line counts as sent when it is in the pipe whole,
so a read may bring no line. What the loop does not store (when a line was sent
and when its handling ended) is kept beside the worker, and no step reads it.
-/

namespace JetsonVoice.Asr

open Foundation TransitionSystem

/-- `kIdleTimeoutMs` on the scale of the clock. -/
def idleTimeout : Int := kIdleTimeoutMs * 1000000

/-- A line of a client, parsed or not, and when it was sent. -/
structure SentLine where
  sent : Int
  read : Except String Json

/-- The session event a line is for a session: its `begin`, `chunk` or `end`. -/
def SentLine.event? (a : SentLine) (sid : String) : Option String :=
  match a.read with
  | .error _ => none
  | .ok parsed =>
      match parsed.valueStr "event" "", parsed.valueStr "id" "" with
      | .ok event, .ok id =>
          if id = sid ∧ event ∈ ["begin", "chunk", "end"] then some event else none
      | _, _ => none

/-- What is known of a session's latest `begin` or `chunk`: when its handler
looked at the clock, when the worker was done with it, and whether the client
has let the timeout pass before one of its lines since the latest `begin`. -/
structure Visit where
  stamp : Int
  finished : Int
  late : Bool
  deriving DecidableEq

/-- The worker, its input, the line it is handling since when, and its visits. -/
structure TimedLoop where
  worker : Worker
  clock : Int
  pipe : List SentLine := []
  buffer : List SentLine := []
  busy : Option (SentLine × Int) := none
  polling : Bool := true
  visits : String → Option Visit := fun _ => none
  /-- The sessions that were reaped although they were not idle. -/
  wronged : List String := []

namespace TimedLoop

variable (s : TimedLoop)

/-- The next line of a session that the worker has not handled. -/
def next? (sid : String) : Option SentLine :=
  (s.buffer ++ s.pipe).find? fun a => (a.event? sid).isSome

/-- The client has sent every line since `begin` in time, also the one that waits. -/
def Waiting (sid : String) (v : Visit) : Prop :=
  v.late = false ∧ ∃ a, s.next? sid = some a ∧ a.sent ≤ v.finished + idleTimeout

/-- The session is not idle: the timeout has not passed since the worker was
done with its latest event, or the worker has not handled a line sent in time. -/
def Active (now : Int) (sid : String) : Prop :=
  ∃ v, s.visits sid = some v ∧ (now ≤ v.finished + idleTimeout ∨ s.Waiting sid v)

/-- The handling of a line is the latest visit of the session it is an event of. -/
def visit (a : SentLine) (stamp finished : Int) (sid : String) : Option Visit :=
  match a.event? sid, s.visits sid with
  | some "begin", _ => some ⟨stamp, finished, false⟩
  | some "chunk", some v =>
      some ⟨stamp, finished, v.late || decide (v.finished + idleTimeout < a.sent)⟩
  | some "chunk", none => some ⟨stamp, finished, false⟩
  | _, v => v

end TimedLoop

instance (s : TimedLoop) (sid : String) (v : Visit) : Decidable (s.Waiting sid v) :=
  inferInstanceAs (Decidable (_ ∧ ∃ a, s.next? sid = some a ∧ a.sent ≤ v.finished + idleTimeout))

instance (s : TimedLoop) (now : Int) (sid : String) : Decidable (s.Active now sid) :=
  inferInstanceAs (Decidable (∃ v, s.visits sid = some v ∧ (now ≤ v.finished + idleTimeout ∨
    s.Waiting sid v)))

/-- What happens next, and when. -/
inductive TimedLabel where
  /-- A client writes a line. -/
  | send (now : Int) (read : Except String Json)
  /-- `poll` returns after a second without input. -/
  | pollTimeout (now : Int)
  /-- A read brings so many whole lines. -/
  | readLines (now : Int) (count : Nat)
  /-- The next line of the buffer is taken up. -/
  | takeLine (now : Int)
  /-- The handling of the line is over. -/
  | finishLine (now : Int) (host : Host)
  | sweep (now : Int)

/-- When it happens. -/
def TimedLabel.now : TimedLabel → Int
  | .send now _ | .pollTimeout now | .readLines now _ | .takeLine now | .finishLine now _
  | .sweep now => now

/-- What the worker does with a line. -/
def SentLine.label (a : SentLine) (host : Host) : Label :=
  match a.read with
  | .ok parsed => .line host parsed
  | .error what => .malformed what

/-- The open sessions that a sweep removes and that were not idle. -/
def wrongedBy (s : TimedLoop) (now : Int) : List String :=
  s.worker.sessions.keys.filter fun sid =>
    ((sweepIdleSessions s.worker now).sessions.lookup sid).isNone && s.Active now sid

/-- One step of the loop, at the time of its label. -/
def TimedLoop.perform (w₀ : Worker) (s : TimedLoop) : TimedLabel → Option TimedLoop
  | .send now read => some { s with pipe := s.pipe ++ [⟨now, read⟩] }
  | .pollTimeout _ =>
      if s.polling = true ∧ s.pipe = [] then some { s with polling := false } else none
  | .readLines _ count =>
      if s.polling = true ∧ count ≤ s.pipe.length then
        some { s with
          buffer := s.buffer ++ s.pipe.take count
          pipe := s.pipe.drop count
          polling := false }
      else none
  | .takeLine now =>
      match s.polling, s.busy, s.buffer with
      | false, none, a :: rest => some { s with buffer := rest, busy := some (a, now) }
      | _, _, _ => none
  | .finishLine now host =>
      match s.busy with
      | some (a, began) =>
          -- The handler looks at the clock while it runs.
          if began ≤ host.now ∧ host.now ≤ now then
            ((system w₀).step s.worker (a.label host)).map fun w =>
              { s with worker := w, busy := none, visits := s.visit a host.now now }
          else none
      | none => none
  | .sweep now =>
      match s.polling, s.busy, s.buffer with
      | false, none, [] =>
          some { s with
            worker := sweepIdleSessions s.worker now
            polling := true
            wronged := s.wronged ++ wrongedBy s now }
      | _, _, _ => none

/-- The stdin loop of a worker that starts at a time. -/
def timedSystem (w₀ : Worker) (t₀ : Int) : TransitionSystem TimedLoop TimedLabel where
  start := { worker := w₀, clock := t₀ }
  step s l := if s.clock ≤ l.now then (s.perform w₀ l).map fun t => { t with clock := l.now }
    else none

/-- No sweep runs more than the timeout after an active session's latest stamp:
while a session is active, less than a millisecond more than the timeout has
passed since the worker took up its latest event. -/
def Timely (s : TimedLoop) : TimedLabel → Prop
  | .sweep now => ∀ sid ∈ s.worker.sessions.keys, s.Active now sid →
      ∀ v ∈ s.visits sid, now < v.stamp + idleTimeout + 1000000
  | _ => True

instance (s : TimedLoop) (l : TimedLabel) : Decidable (Timely s l) :=
  match l with
  | .sweep now => inferInstanceAs (Decidable (∀ sid ∈ s.worker.sessions.keys, s.Active now sid →
      ∀ v ∈ s.visits sid, now < v.stamp + idleTimeout + 1000000))
  | .send .. | .pollTimeout .. | .readLines .. | .takeLine .. | .finishLine .. => isTrue trivial

/-- When the handler of a session's latest event looked at the clock. -/
def Worker.stampOf (w : Worker) (sid : String) : Option Int :=
  (w.sessions.lookup sid).map SessionState.lastActivity

/-- One session, which has a name, is stamped `now` or is not open afterwards. -/
def Restamps (now : Int) (id : String) (w w' : Worker) : Prop :=
  ∃ stamp, (stamp = none ∨ stamp = some now ∧ id ≠ "") ∧
    w'.stampOf = Function.update w.stampOf id stamp

section Stamps
variable {host : Host} {w w' w₀ : Worker} {input : Json} {sid : String}

@[simp] theorem emit_stampOf (w : Worker) (e : Json) : (w.emit e).stampOf = w.stampOf := rfl

@[simp] theorem removeFile_stampOf (w : Worker) (p : String) :
    (w.removeFile p).stampOf = w.stampOf := by
  funext sid
  simp [Worker.stampOf]

theorem setSession_stampOf (w : Worker) (sid : String) (st : SessionState) :
    (w.setSession sid st).stampOf = Function.update w.stampOf sid (some st.lastActivity) := by
  funext other
  by_cases h : other = sid
  · subst h
    simp [Worker.stampOf, Worker.setSession]
  · simp [Worker.stampOf, Worker.setSession, h]

theorem dropSession_stampOf (w : Worker) (sid : String) (lane : Int) :
    (w.dropSession sid lane).stampOf = Function.update w.stampOf sid none := by
  funext other
  by_cases h : other = sid
  · subst h
    simp [Worker.stampOf, Worker.dropSession]
  · simp [Worker.stampOf, Worker.dropSession, h]

@[simp] theorem recordAudio_lastActivity (st : SessionState) :
    (recordAudio input st).lastActivity = st.lastActivity := by
  simp only [recordAudio]
  split <;> split <;> rfl

theorem convertPcm_stampOf {st : SessionState} {r : Except String SessionState}
    (h : convertPcm host w sid st = (w', r)) :
    w'.stampOf = w.stampOf ∧ ∀ st', r = .ok st' → st'.lastActivity = st.lastActivity := by
  have hsess := (convertPcm_cases h).2.1
  refine ⟨by funext other; simp [Worker.stampOf, hsess], fun st' hr => ?_⟩
  simp only [convertPcm] at h
  split at h
  · cases h
    cases hr
    rfl
  · cases h
    cases hr

/-- A decode of the audio so far keeps the stamp its session has. -/
theorem decodePartial_stampOf {st : SessionState} (hl : w.stampOf sid = some st.lastActivity)
    (h : decodePartial host w sid st = .ok w') : w'.stampOf = w.stampOf := by
  simp only [decodePartial, bind, Except.bind, pure, Except.pure] at h
  split at h
  · split at h
    · cases h
      rw [emit_stampOf, setSession_stampOf]
      exact Function.update_eq_self_iff.mpr hl.symm
    · cases h
      rfl
  · split at h
    · cases h
    · cases h
      rfl

theorem restamps_self {now : Int} (hnone : w.stampOf sid = none) (h : w'.stampOf = w.stampOf) :
    Restamps now sid w w' :=
  ⟨none, .inl rfl, h.trans (Function.update_eq_self_iff.mpr hnone.symm).symm⟩

/-- `end` leaves the session without a stamp. -/
theorem handleEnd_stampOf (hid : input.valueStr "id" "" = .ok sid)
    (h : handleEnd host w input = .ok w') :
    w'.stampOf = Function.update w.stampOf sid none := by
  rcases handleEnd_cases hid h with ⟨hnone, -⟩ | ⟨held, -, -, hsess⟩
  · simp only [handleEnd, hid, hnone, bind, Except.bind, pure, Except.pure, Except.ok.injEq] at h
    rw [← h, emit_stampOf]
    exact (Function.update_eq_self_iff.mpr (by simp [Worker.stampOf, hnone])).symm
  · funext other
    by_cases hne : other = sid
    · subst hne
      simp [Worker.stampOf, hsess]
    · simp [Worker.stampOf, hsess, hne]

/-- `begin` stamps the session, if it is open afterwards. -/
theorem handleBegin_stampOf (hid : input.valueStr "id" "" = .ok sid)
    (hempty : w.stampOf "" = none) (h : handleBegin host w input = .ok w') :
    Restamps host.now sid w w' := by
  simp only [handleBegin, hid, bind, Except.bind, pure, Except.pure] at h
  split at h
  · rename_i hsid
    cases h
    exact restamps_self (hsid ▸ hempty) rfl
  rename_i hsid
  split at h
  · cases h
    exact ⟨_, .inr ⟨rfl, hsid⟩, by rw [emit_stampOf, setSession_stampOf]⟩
  · rename_i hl
    split at h
    · cases h
      exact restamps_self (by simp [Worker.stampOf, hl]) rfl
    · cases h
      exact ⟨_, .inr ⟨rfl, hsid⟩, by rw [emit_stampOf, setSession_stampOf]; rfl⟩

/-- `chunk` stamps the session, if it is open afterwards. -/
theorem handleChunk_stampOf (hid : input.valueStr "id" "" = .ok sid)
    (hempty : w.stampOf "" = none) (h : handleChunk host w input = .ok w') :
    Restamps host.now sid w w' := by
  cases hl : w.sessions.lookup sid with
  | none =>
      simp only [handleChunk, hid, hl, bind, Except.bind, pure, Except.pure, Except.ok.injEq] at h
      exact restamps_self (by simp [Worker.stampOf, hl]) (by rw [← h, emit_stampOf])
  | some held =>
      have hsid : sid ≠ "" := by
        rintro rfl
        simp [Worker.stampOf, hl] at hempty
      have hstore : (w.setSession sid (recordAudio input { held with lastActivity := host.now })
          ).stampOf = Function.update w.stampOf sid (some host.now) := by
        rw [setSession_stampOf, recordAudio_lastActivity]
      have hstamp : (recordAudio input { held with lastActivity := host.now }).lastActivity
          = host.now := recordAudio_lastActivity _
      simp only [handleChunk, hid, hl, bind, Except.bind, pure, Except.pure] at h
      generalize recordAudio input { held with lastActivity := host.now } = st at h hstore hstamp
      split at h
      · cases h
      split at h
      · refine ⟨none, .inl rfl, ?_⟩
        rw [handleEnd_stampOf hid h, hstore, Function.update_idem]
      refine ⟨some host.now, .inr ⟨rfl, hsid⟩, ?_⟩
      rw [← hstore]
      have hself {w₁ : Worker} (h₁ : w₁.stampOf = (w.setSession sid st).stampOf) :
          w₁.stampOf sid = some st.lastActivity := by
        rw [h₁, hstore, hstamp, Function.update_self]
      split at h
      · split at h
        · cases h
          rfl
        · exact decodePartial_stampOf (hself rfl) h
      · split at h
        · cases h
          rfl
        · split at h
          · rename_i w₁ st₁ hc
            obtain ⟨hconv, hlast⟩ := convertPcm_stampOf hc
            have hset : (w₁.setSession sid st₁).stampOf = (w.setSession sid st).stampOf := by
              rw [setSession_stampOf, hlast _ rfl, ← hconv]
              exact Function.update_eq_self_iff.mpr (hself hconv).symm
            refine (decodePartial_stampOf ?_ h).trans hset
            rw [setSession_stampOf, Function.update_self]
          · rename_i hc
            cases h
            rw [emit_stampOf, (convertPcm_stampOf hc).1]

end Stamps

section Dispatch
variable {host : Host} {w w' w₀ : Worker} {a : SentLine} {sid : String}

/-- What a restamped session is known by. -/
theorem Restamps.stampOf {now t : Int} {id : String} (h : Restamps now id w w')
    (ht : w'.stampOf sid = some t) :
    (id = sid ∧ t = now ∧ sid ≠ "") ∨ (id ≠ sid ∧ w.stampOf sid = some t) := by
  obtain ⟨stamp, hcases, hf⟩ := h
  rw [hf] at ht
  by_cases hne : sid = id
  · subst hne
    rw [Function.update_self] at ht
    rcases hcases with rfl | ⟨rfl, hsid⟩
    · cases ht
    · exact .inl ⟨rfl, (Option.some.inj ht).symm, hsid⟩
  · rw [Function.update_of_ne hne] at ht
    exact .inr ⟨Ne.symm hne, ht⟩

/-- A line that is handled restamps at most the session it is a `begin` or
`chunk` of. -/
theorem dispatchLine_stampOf {parsed : Json} (hread : a.read = .ok parsed)
    (hempty : w.stampOf "" = none) (h : dispatchLine host w parsed = .ok w') {t : Int}
    (hstamp : w'.stampOf sid = some t) :
    sid ≠ "" ∧ if a.event? sid = some "begin" ∨ a.event? sid = some "chunk" then t = host.now
      else w.stampOf sid = some t := by
  have hevent? {event id : String} (he : parsed.valueStr "event" "" = .ok event)
      (hid : parsed.valueStr "id" "" = .ok id) : a.event? sid =
        if id = sid ∧ event ∈ ["begin", "chunk", "end"] then some event else none := by
    simp only [SentLine.event?, hread, he, hid]
  have hkept (h : w.stampOf sid = some t) : sid ≠ "" := by
    rintro rfl
    rw [hempty] at h
    cases h
  simp only [dispatchLine] at h
  split at h
  · rename_i hc
    cases h
    have hnone : a.event? sid = none := by
      simp only [SentLine.event?, hread]
      split
      · rename_i event id he hid
        have hdefault := Json.valueStr_default he (by simpa using hc)
        simp [hdefault]
      · rfl
    exact ⟨hkept hstamp, by simpa [hnone] using hstamp⟩
  obtain ⟨event, he, h⟩ := bind_eq_ok.mp h
  split at h
  · rename_i hbegin
    obtain ⟨id, hid⟩ := exists_sid h
    rw [hevent? he hid]
    rcases (handleBegin_stampOf hid hempty h).stampOf hstamp with ⟨rfl, rfl, hsid⟩ | ⟨hne, ht⟩
    · exact ⟨hsid, by simp [hbegin]⟩
    · exact ⟨hkept ht, by simpa [hne] using ht⟩
  split at h
  · rename_i hchunk
    obtain ⟨id, hid⟩ := exists_sid h
    rw [hevent? he hid]
    rcases (handleChunk_stampOf hid hempty h).stampOf hstamp with ⟨rfl, rfl, hsid⟩ | ⟨hne, ht⟩
    · exact ⟨hsid, by simp [hchunk]⟩
    · exact ⟨hkept ht, by simpa [hne] using ht⟩
  split at h
  · rename_i hend
    obtain ⟨id, hid⟩ := exists_sid h
    rw [handleEnd_stampOf hid h] at hstamp
    have hne : sid ≠ id := by
      rintro rfl
      rw [Function.update_self] at hstamp
      cases hstamp
    rw [Function.update_of_ne hne] at hstamp
    rw [hevent? he hid]
    exact ⟨hkept hstamp, by simpa [Ne.symm hne] using hstamp⟩
  · rename_i hbegin hchunk hend
    obtain ⟨id, hid, h⟩ := bind_eq_ok.mp h
    cases h
    rw [hevent? he hid]
    exact ⟨hkept hstamp, by simpa [hbegin, hchunk, hend] using hstamp⟩

/-- Reaping a list of sessions removes these and restamps none. -/
theorem foldl_reap_stampOf (victims : List (String × Int)) (w : Worker) (sid : String) :
    (victims.foldl reap w).stampOf sid =
      if sid ∈ victims.map Prod.fst then none else w.stampOf sid := by
  induction victims generalizing w with
  | nil => rfl
  | cons v rest ih =>
      have hreap : (reap w v).stampOf = Function.update w.stampOf v.1 none := by
        simp only [reap]
        split <;> simp [dropSession_stampOf]
      rw [List.foldl_cons, ih, hreap]
      by_cases hv : sid = v.1
      · simp [hv]
      · simp only [Function.update_of_ne hv, List.map_cons, List.mem_cons, hv, false_or]

/-- `duration_cast` rounds towards zero, so a session is reaped a millisecond late. -/
theorem kIdleTimeoutMs_lt_tdiv {stamp now : Int} :
    kIdleTimeoutMs < Int.tdiv (now - stamp) 1000000 ↔ stamp + idleTimeout + 1000000 ≤ now := by
  simp only [idleTimeout, kIdleTimeoutMs]
  rcases Int.le_total 0 (now - stamp) with hnonneg | hneg
  · rw [Int.tdiv_eq_ediv_of_nonneg hnonneg]
    omega
  · have hle : Int.tdiv (now - stamp) 1000000 ≤ 0 := by
      rw [← Int.neg_neg (now - stamp), Int.neg_tdiv]
      have hpos : 0 ≤ Int.tdiv (-(now - stamp)) 1000000 := Int.tdiv_nonneg (by omega) (by decide)
      omega
    omega

/-- The sweep removes the sessions stamped long enough ago and restamps none. -/
theorem sweep_stampOf (w : Worker) (now : Int) (sid : String) :
    (sweepIdleSessions w now).stampOf sid =
      (w.stampOf sid).filter fun stamp => decide (now < stamp + idleTimeout + 1000000) := by
  have hmem : sid ∈ (idleSessions w now).map Prod.fst ↔
      ∃ stamp, w.stampOf sid = some stamp ∧ stamp + idleTimeout + 1000000 ≤ now := by
    simp only [idleSessions, List.mem_map, List.mem_filterMap]
    constructor
    · rintro ⟨_, ⟨e, he, hv⟩, rfl⟩
      split at hv
      · rename_i hidle
        cases hv
        have hl : w.sessions.lookup e.1 = some e.2 := AList.mem_lookup_iff.mpr he
        exact ⟨e.2.lastActivity, by simp [Worker.stampOf, hl], kIdleTimeoutMs_lt_tdiv.mp hidle⟩
      · cases hv
    · rintro ⟨stamp, hstamp, hle⟩
      obtain ⟨st, hl, rfl⟩ := Option.map_eq_some_iff.mp hstamp
      exact ⟨(sid, st.laneId), ⟨⟨sid, st⟩, AList.mem_lookup_iff.mp hl,
        if_pos (kIdleTimeoutMs_lt_tdiv.mpr hle)⟩, rfl⟩
  rw [sweepIdleSessions, foldl_reap_stampOf]
  cases hs : w.stampOf sid with
  | none => simp
  | some stamp =>
      have hiff :
          sid ∈ (idleSessions w now).map Prod.fst ↔ stamp + idleTimeout + 1000000 ≤ now := by
        rw [hmem, hs]
        simp
      by_cases hle : stamp + idleTimeout + 1000000 ≤ now
      · rw [if_pos (hiff.mpr hle), Option.filter_some_neg (by simpa using hle)]
      · rw [if_neg (fun h => hle (hiff.mp h)), Option.filter_some_pos (by simpa using hle)]

end Dispatch

section Loop
variable {w₀ : Worker} {t₀ : Int} {s t : TimedLoop} {l : TimedLabel}

/-- Every open session is known by its latest visit, and has a name. -/
structure Tracked (s : TimedLoop) : Prop where
  named : s.worker.stampOf "" = none
  visited : ∀ {sid stamp}, s.worker.stampOf sid = some stamp →
    ∃ v, s.visits sid = some v ∧ v.stamp = stamp

theorem visit_of_event {a : SentLine} {stamp finished : Int} {sid : String}
    (h : a.event? sid = some "begin" ∨ a.event? sid = some "chunk") :
    ∃ v, s.visit a stamp finished sid = some v ∧ v.stamp = stamp := by
  unfold TimedLoop.visit
  rcases h with h | h
  · rw [h]
    exact ⟨_, rfl, rfl⟩
  · rw [h]
    cases s.visits sid with
    | none => exact ⟨_, rfl, rfl⟩
    | some v => exact ⟨_, rfl, rfl⟩

theorem visit_of_no_event {a : SentLine} {stamp finished : Int} {sid : String}
    (h : ¬ (a.event? sid = some "begin" ∨ a.event? sid = some "chunk")) :
    s.visit a stamp finished sid = s.visits sid := by
  obtain ⟨hbegin, hchunk⟩ := not_or.mp h
  unfold TimedLoop.visit
  split
  · contradiction
  · contradiction
  · contradiction
  · rfl

/-- A step at a later time is one of the loop. -/
theorem timed_step : (timedSystem w₀ t₀).step s l = some t ↔
    s.clock ≤ l.now ∧ ∃ u, s.perform w₀ l = some u ∧ t = { u with clock := l.now } := by
  simp only [timedSystem]
  split
  · simp_all [eq_comm]
  · simp_all

/-- What a step does to the worker and its visits: nothing, or it ends the
handling of a line, or it sweeps. -/
theorem perform_cases (h : s.perform w₀ l = some t) :
    (t.worker = s.worker ∧ t.visits = s.visits ∧ t.wronged = s.wronged ∧ ∀ now, l ≠ .sweep now) ∨
    (∃ a host now, l = .finishLine now host ∧
      (system w₀).step s.worker (a.label host) = some t.worker ∧
      t.visits = s.visit a host.now now ∧ t.wronged = s.wronged) ∨
    (∃ now, l = .sweep now ∧ t.worker = sweepIdleSessions s.worker now ∧
      t.visits = s.visits ∧ t.wronged = s.wronged ++ wrongedBy s now) := by
  cases l with
  | send now read =>
      cases h
      exact .inl ⟨rfl, rfl, rfl, by simp⟩
  | pollTimeout now =>
      simp only [TimedLoop.perform, Option.ite_none_right_eq_some, Option.some.injEq] at h
      obtain ⟨-, rfl⟩ := h
      exact .inl ⟨rfl, rfl, rfl, by simp⟩
  | readLines now count =>
      simp only [TimedLoop.perform, Option.ite_none_right_eq_some, Option.some.injEq] at h
      obtain ⟨-, rfl⟩ := h
      exact .inl ⟨rfl, rfl, rfl, by simp⟩
  | takeLine now =>
      simp only [TimedLoop.perform] at h
      split at h
      · cases h
        exact .inl ⟨rfl, rfl, rfl, by simp⟩
      · cases h
  | finishLine now host =>
      simp only [TimedLoop.perform] at h
      split at h
      · rename_i a began hbusy
        simp only [Option.ite_none_right_eq_some, Option.map_eq_some_iff] at h
        obtain ⟨-, w, hw, rfl⟩ := h
        exact .inr (.inl ⟨a, host, now, rfl, hw, rfl, rfl⟩)
      · cases h
  | sweep now =>
      simp only [TimedLoop.perform] at h
      split at h
      · cases h
        exact .inr (.inr ⟨now, rfl, rfl, rfl, rfl⟩)
      · cases h

/-- The end of a line's handling keeps every open session known by its visit. -/
theorem Tracked.finishLine {a : SentLine} {host : Host} {finished : Int} (h : Tracked s)
    (hw : (system w₀).step s.worker (a.label host) = some t.worker)
    (hv : t.visits = s.visit a host.now finished) : Tracked t := by
  cases hread : a.read with
  | error what =>
      have hnone (sid : String) : a.event? sid = none := by simp only [SentLine.event?, hread]
      have hvisits : t.visits = s.visits := by
        rw [hv]
        funext sid
        exact visit_of_no_event (by simp [hnone])
      have hstamp : t.worker.stampOf = s.worker.stampOf := by
        simp only [SentLine.label, hread] at hw
        rw [← Option.some.inj hw, emit_stampOf]
      exact ⟨by rw [hstamp, h.named], fun hs => by rw [hvisits]; exact h.visited (hstamp ▸ hs)⟩
  | ok parsed =>
      have hd : dispatchLine host s.worker parsed = .ok t.worker := by
        simp only [SentLine.label, hread] at hw
        exact dispatchLine_of_step hw
      constructor
      · by_contra hne
        obtain ⟨stamp, hempty⟩ := Option.ne_none_iff_exists'.mp hne
        exact (dispatchLine_stampOf hread h.named hd hempty).1 rfl
      · intro sid stamp hstamp
        have hcases := (dispatchLine_stampOf hread h.named hd hstamp).2
        rw [hv]
        split at hcases
        · rename_i hevent
          rw [hcases]
          exact visit_of_event hevent
        · rename_i hevent
          rw [visit_of_no_event hevent]
          exact h.visited hcases

/-- Every step of the loop keeps the open sessions known by their latest visits. -/
theorem tracked_step (h : Tracked s) (hs : (timedSystem w₀ t₀).step s l = some t) :
    Tracked t := by
  obtain ⟨-, u, hu, rfl⟩ := timed_step.mp hs
  suffices hu' : Tracked u from ⟨hu'.named, hu'.visited⟩
  rcases perform_cases hu with ⟨hw, hv, -⟩ | ⟨a, host, now, -, hw, hv, -⟩ | ⟨now, -, hw, hv, -⟩
  · exact ⟨hw ▸ h.named, fun hstamp => by rw [hv]; exact h.visited (hw ▸ hstamp)⟩
  · exact h.finishLine hw hv
  · refine ⟨by simp [hw, sweep_stampOf, h.named], fun {sid stamp} hstamp => ?_⟩
    rw [hw, sweep_stampOf] at hstamp
    rw [hv]
    exact h.visited (Option.filter_eq_some_iff.mp hstamp).1

theorem tracked_init {physBatch maxSlots : Int} (h : Worker.init physBatch maxSlots = .ok w₀) :
    Tracked { worker := w₀, clock := t₀ } := by
  simp only [Worker.init, Except.map] at h
  split at h
  · cases h
  · cases h
    exact ⟨rfl, fun hstamp => by cases hstamp⟩

/-- A sweep wrongs no session exactly if it is timely. -/
theorem wrongedBy_eq_nil_iff (h : Tracked s) {now : Int} :
    wrongedBy s now = [] ↔ Timely s (.sweep now) := by
  have hgone {sid : String} (hmem : sid ∈ s.worker.sessions.keys) :
      ((sweepIdleSessions s.worker now).sessions.lookup sid).isNone = true ↔
        ¬ ∀ v ∈ s.visits sid, now < v.stamp + idleTimeout + 1000000 := by
    obtain ⟨st, hl⟩ := Option.isSome_iff_exists.mp (AList.lookup_isSome.mpr hmem)
    have hstamp : s.worker.stampOf sid = some st.lastActivity := by simp [Worker.stampOf, hl]
    obtain ⟨v, hv, hvs⟩ := h.visited hstamp
    have hsweep := sweep_stampOf s.worker now sid
    rw [hstamp] at hsweep
    have hnone : ((sweepIdleSessions s.worker now).sessions.lookup sid).isNone = true ↔
        (sweepIdleSessions s.worker now).stampOf sid = none := by
      simp [Worker.stampOf]
    rw [hnone, hsweep, hv]
    simp [hvs, Option.filter]
  simp only [wrongedBy, List.filter_eq_nil_iff, Timely, Bool.and_eq_true, decide_eq_true_eq,
    not_and]
  refine forall₂_congr fun sid hmem => ?_
  rw [hgone hmem]
  tauto

/-- A step wrongs a session exactly if it is not timely. -/
theorem wronged_step (h : Tracked s) (hs : (timedSystem w₀ t₀).step s l = some t) :
    t.wronged = [] ↔ s.wronged = [] ∧ Timely s l := by
  obtain ⟨-, u, hu, rfl⟩ := timed_step.mp hs
  rcases perform_cases hu with
    ⟨-, -, hsame, hl⟩ | ⟨a, host, now, rfl, -, -, hsame⟩ | ⟨now, rfl, -, -, hmore⟩
  · cases l with
    | sweep now => exact absurd rfl (hl now)
    | _ => simp [hsame, Timely]
  · simp [hsame, Timely]
  · simp only [hmore, List.append_eq_nil_iff, wrongedBy_eq_nil_iff h]

/-- Without its clock the loop is the worker's loop. -/
theorem timed_simulation : Simulation (timedSystem w₀ t₀) (system w₀) TimedLoop.worker where
  start := rfl
  step {s l t} _ hs := by
    obtain ⟨-, u, hu, rfl⟩ := timed_step.mp hs
    rcases perform_cases hu with ⟨hw, -⟩ | ⟨a, host, now, -, hw, -⟩ | ⟨now, -, hw, -⟩
    · exact .inl hw
    · exact .inr ⟨a.label host, hw⟩
    · exact .inr ⟨.sweep now, congrArg some hw.symm⟩

/-- The runs in which every sweep is timely are the runs in which no sweep reaps
an active session. -/
theorem timely_run_iff {physBatch maxSlots : Int} (hinit : Worker.init physBatch maxSlots = .ok w₀)
    (ls : List TimedLabel) :
    ((timedSystem w₀ t₀).guard Timely).run (timedSystem w₀ t₀).start ls = some s ↔
      (timedSystem w₀ t₀).run (timedSystem w₀ t₀).start ls = some s ∧ s.wronged = [] :=
  guard_run_iff (fun s => s.wronged = []) tracked_step wronged_step (tracked_init hinit) rfl

end Loop

/-- A client that begins at 0, and whose one chunk is taken up a second later
and decoded until `decoded`; the worker sweeps after each line. -/
def oneChunkRun (decoded : Int) : List TimedLabel :=
  [.send 0 (.ok (.obj [("event", .str "begin"), ("id", .str "a")])), .readLines 0 1, .takeLine 0,
    .finishLine 0 idleHost, .sweep 0, .send 1000000000 (.ok fileChunk), .readLines 1000000000 1,
    .takeLine 1000000000, .finishLine decoded { idleHost with now := 1000000000 }, .sweep decoded]

theorem timely_run_of_short_decode : ∃ w₀ s, Worker.init 2 2 = .ok w₀ ∧
    ((timedSystem w₀ 0).guard Timely).run (timedSystem w₀ 0).start (oneChunkRun 3000000000) =
      some s ∧
    (s.worker.sessions.lookup "a").isSome = true := by
  obtain ⟨w₀, s, hinit, hrun, hwronged, hopen⟩ : ∃ w₀ s, Worker.init 2 2 = .ok w₀ ∧
      (timedSystem w₀ 0).run (timedSystem w₀ 0).start (oneChunkRun 3000000000) = some s ∧
      s.wronged = [] ∧ (s.worker.sessions.lookup "a").isSome = true :=
    ⟨_, _, rfl, rfl, rfl, rfl⟩
  exact ⟨w₀, s, hinit, (timely_run_iff hinit _).mpr ⟨hrun, hwronged⟩, hopen⟩

/-- A decode of 30.5 s: the session is reaped in the moment its chunk is answered. -/
theorem reaped_after_long_decode : ∃ w₀ s, Worker.init 2 2 = .ok w₀ ∧
    (timedSystem w₀ 0).run (timedSystem w₀ 0).start (oneChunkRun 31500000000) = some s ∧
    s.wronged = ["a"] ∧ s.worker.sessions.lookup "a" = none :=
  ⟨_, _, rfl, rfl, rfl, rfl⟩

end JetsonVoice.Asr
