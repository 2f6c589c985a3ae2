import JetsonVoice.Protocol.Events
import JetsonVoice.WorkerIO.Permits
import JetsonVoice.WorkerIO.Routing

/-!
# Requests that run to their terminal event

While the worker lives and no request is given up before the event that ends
it, the permit of a request covers the time from its line to that event: the
request lines without a terminal event are no more than the permits.
-/

namespace JetsonVoice.WorkerIO

open Foundation Protocol TransitionSystem

/-- The worker lives, and a request that may have written its line is left only
after an event with its id that ends it. -/
def attends (s : State) : Label → Bool
  | .cancel i => s.requests[i]?.all fun r =>
      match r.phase with
      | .awaiting => false
      | .yielded e => isTerminal e && key e = some r.id
      | _ => true
  | .timeout _ | .hangUp | .fault | .close | .closer _ => false
  | .emit (some e) => name e ≠ some "_worker_exit"
  | _ => true

/-- The runs with distinct, non-empty ids in which every request runs to its
terminal event. -/
def creditSystem (concurrency : Int) : TransitionSystem State Label :=
  (routableSystem concurrency).guard fun s l => attends s l = true

/-- The id of a line that is no cancel line. -/
def requestId? (line : Json) : Option String :=
  if line.str? "type" = some "cancel" then none else line.str? "id"

/-- The ids of the request lines on stdin. -/
def sentIds (lines : List Json) : List String := lines.filterMap requestId?

/-- An event that ends the request with the id. -/
def Ends (id : String) (e : Json) : Prop := isTerminal e = true ∧ key e = some id

instance (id : String) (e : Json) : Decidable (Ends id e) :=
  inferInstanceAs (Decidable (isTerminal e = true ∧ key e = some id))

/-- The line of the request is not written. -/
def Phase.unsent : Phase → Bool
  | .acquiring _ | .acquired | .abandoned _ | .lost | .settling | .checking | .aborting _
  | .registering | .writing | .unwriting _ => true
  | _ => false

/-- The request is past its last event. -/
def Phase.over : Phase → Bool
  | .popping _ | .releasing _ | .cancelling _ | .ended _ => true
  | _ => false

theorem Phase.charged_of_sent {p : Phase} (hs : p.unsent = false) (ho : p.over = false) :
    p.charged = true := by
  cases p with
  | awaiting | yielded => rfl
  | popping | releasing | cancelling | ended => cases ho
  | _ => cases hs

theorem requestId?_cancelLine (id : String) : requestId? (cancelLine id) = none := by
  simp [requestId?, cancelLine, Json.str?, Json.field?]

section Payloads
variable {s t : State} {l : Label} {i : Nat} {r r' : Request}

theorem Move.payload (h : Move s l i r r') : r'.payload = r.payload := by
  cases h <;> rfl

theorem withId_str? {id : String} {payload payload' : Json} (h : withId id payload = some payload') :
    payload'.str? "id" = some id := by
  rw [withId] at h
  split at h
  · cases h
    simp [Json.str?]
  · rename_i v hv
    split at h
    · rename_i hid
      cases h
      simp [Json.str?, hv, hid]
    · cases h

/-- The payload of a request carries its id. -/
theorem payload_invariant (concurrency : Int) :
    (routableSystem concurrency).Invariant fun s =>
      ∀ r ∈ s.requests, r.payload.str? "id" = some r.id where
  start := nofun
  step {s l t} h hs := by
    obtain ⟨hroutable, hs⟩ := guard_step.mp hs
    have hstep := step_cases (guard_step.mp hs).2
    intro r' hr'
    obtain ⟨j, hj⟩ := List.mem_iff_getElem?.mp hr'
    rcases hstep.move hj with ⟨r, hr, hm⟩ | ⟨hnew, -⟩
    · rw [hm.payload, hm.id]
      exact h r (List.mem_of_getElem? hr)
    · have hlt := lt_of_getElem? hj
      cases hstep with
      | sendRequest hid =>
          simp only [hnew, List.getElem?_concat_length, Option.some.injEq] at hj
          subst hj
          exact withId_str? hid
      | @request payload =>
          simp only [hnew, List.getElem?_concat_length, Option.some.injEq] at hj
          subst hj
          have hne : (payload.str? "id").getD "" ≠ "" := by simpa [routable] using hroutable
          cases hp : payload.str? "id" with
          | none => simp [hp] at hne
          | some id => simp [fresh, hp]
      | put | wake | broadcast => simp [hnew] at hlt
      | _ => simp [hnew, State.set, State.release, State.pop, State.write] at hlt

end Payloads

/-- The worker lives and everything on the queues is a line of its output. -/
structure Served (s : State) : Prop where
  ended : s.ended = false
  closers : s.closers = []
  reader : s.reader = .reading ∨ ∃ i pos e inflight, s.reader = .putting i (.line pos e inflight)
  lines : ∀ e, some e ∈ s.stdout → raises e = false ∧ name e ≠ some "_worker_exit"
  inbox : ∀ r ∈ s.requests, ∀ item ∈ r.inbox, ∃ pos e inflight, item = .line pos e inflight

section Served
variable {s t : State} {l : Label} {i : Nat} {r r' : Request} {concurrency : Int}

theorem Served.step (h : Served s) (hroutable : routable l = true) (hok : attends s l = true)
    (hs : Step s l t) : Served t := by
  have hinbox : ∀ r' ∈ t.requests, ∀ item ∈ r'.inbox,
      ∃ pos e inflight, item = .line pos e inflight := by
    intro r' hr' item hitem
    obtain ⟨j, hj⟩ := List.mem_iff_getElem?.mp hr'
    rcases hs.move hj with ⟨r, hr, -⟩ | ⟨-, sync, id, payload, rfl⟩
    · have hold := h.inbox r (List.mem_of_getElem? hr)
      rcases hs.inbox hr hj with ⟨n, hn, hnone⟩ | ⟨held, hput, -, heq⟩
      · obtain rfl : n = 0 := by
          rcases hnone with hn | hstop | hclosers
          · exact hn
          · rcases h.reader with hr | ⟨_, _, _, _, hr⟩ <;> cases hr.symm.trans hstop
          · exact absurd h.closers hclosers
        rw [hn, List.replicate_zero, List.append_nil] at hitem
        exact hold item hitem
      · rw [heq] at hitem
        rcases List.mem_append.mp hitem with hitem | hitem
        · exact hold item hitem
        · rw [List.mem_singleton.mp hitem]
          rcases h.reader with hr | ⟨_, pos, e, inflight, hr⟩
          · cases hr.symm.trans hput
          · cases hr.symm.trans hput
            exact ⟨pos, e, inflight, rfl⟩
    · cases hitem
  cases hs with
  | @emit line =>
      refine ⟨h.ended, h.closers, h.reader, ?_, hinbox⟩
      intro e he
      rcases List.mem_append.mp he with he | he
      · exact h.lines e he
      · obtain rfl := List.mem_singleton.mp he
        exact ⟨by simpa [routable] using hroutable, by simpa [attends] using hok⟩
  | hangUp | fault | close => cases hok
  | shut | drain | wake => cases hok
  | crash hr hl he =>
      have hlooked := (h.lines _ (List.mem_of_getElem? hl)).1
      cases hlooked.symm.trans he
  | eof hr hl he => cases h.ended.symm.trans he
  | broadcast hr =>
      rcases h.reader with hr' | ⟨_, _, _, _, hr'⟩
      · cases hr'.symm.trans hr
      · cases hr'.symm.trans hr
  | route hr hl he hi => exact ⟨h.ended, h.closers, .inr ⟨_, _, _, _, rfl⟩, h.lines, hinbox⟩
  | put hr => exact ⟨h.ended, h.closers, .inl rfl, h.lines, hinbox⟩
  | _ => exact ⟨h.ended, h.closers, h.reader, h.lines, hinbox⟩

/-- What a request takes off its queue is an event of the worker that carries
its id, or an error. -/
theorem Isolated.source_event (hiso : Isolated s i r) (hserved : Served s)
    (hi : s.requests[i]? = some r) (hne : r.id ≠ "") {item : Item} (hitem : item ∈ r.inbox) :
    some item.event ∈ s.stdout ∧ (key item.event = some r.id ∨ name item.event = some "error") := by
  obtain ⟨pos, e, inflight, rfl⟩ := hserved.inbox r (List.mem_of_getElem? hi) item hitem
  obtain ⟨hline, -, hsuits⟩ := hiso.source pos e inflight hitem
  exact ⟨List.mem_of_getElem? hline, hsuits.imp (key_of_rid · hne) And.left⟩

end Served

/-- The line of a request is written when its phase says so, and a request that
is past its last event has one that ends it. -/
structure Attended (s : State) (r : Request) : Prop where
  unsent : r.phase.unsent = true → r.written = none
  ends : r.written.isSome = true → r.phase.over = true → ∃ e, some e ∈ s.stdout ∧ Ends r.id e

section Attended
variable {s t : State} {l : Label} {i : Nat} {r r' : Request}

theorem isTerminal_of_last {e : Json} (h : last e = true) :
    isTerminal e = true ∧ name e ≠ some "error" := by
  simp only [last, Bool.or_eq_true, decide_eq_true_eq] at h
  have hterm {n : String} (hn : name e = some n) (hmem : n ∈ ["done", "cancelled", "error"]) :
      isTerminal e = true := by
    rw [name] at hn
    simpa [isTerminal, eventName, hn] using hmem
  rcases h with h | h
  · exact ⟨hterm h (by decide), by simp [h]⟩
  · exact ⟨hterm h (by decide), by simp [h]⟩

/-- A request that only changes its phase stays attended if it does not get past
its last event, or gets there with the event that ends it, or never wrote. -/
theorem Attended.moveTo (h : Attended s r) (hs : Step s l t) {p : Phase}
    (hunsent : p.unsent = true → r.phase.unsent = true)
    (hover : p.over = true → r.phase.over = true ∨ r.phase.unsent = true ∨
      ∃ e, some e ∈ s.stdout ∧ Ends r.id e) : Attended t (r.moveTo p) := by
  obtain ⟨lines, hlines⟩ := hs.stdout
  constructor
  · intro hp
    exact h.unsent (hunsent hp)
  · intro hw hp
    have hends : ∃ e, some e ∈ s.stdout ∧ Ends r.id e := by
      rcases hover hp with hp | hp | hends
      · exact h.ends hw hp
      · have hnone : (r.moveTo p).written = none := h.unsent hp
        rw [hnone] at hw
        cases hw
      · exact hends
    obtain ⟨e, he, hend⟩ := hends
    exact ⟨e, hlines ▸ List.mem_append_left _ he, hend⟩

theorem Attended.shift (h : Attended s r) (hs : Step s l t) {p : Phase} (hshift : Shift s i r l p)
    (hi : s.requests[i]? = some r) (hok : attends s l = true)
    (hgiven : ∀ e, r.phase = .yielded e →
      some e ∈ s.stdout ∧ (key e = some r.id ∨ name e = some "error")) :
    Attended t (r.moveTo p) := by
  cases hshift with
  | finish hp he =>
      obtain ⟨hline, hkey⟩ := hgiven _ hp
      obtain ⟨hterm, hne⟩ := isTerminal_of_last he
      exact h.moveTo hs nofun fun _ => .inr (.inr ⟨_, hline, hterm, hkey.resolve_right hne⟩)
  | @closeGenerator e hp =>
      obtain ⟨hline, -⟩ := hgiven _ hp
      have hends : isTerminal e = true ∧ key e = some r.id := by simpa [attends, hi, hp] using hok
      exact h.moveTo hs nofun fun _ => .inr (.inr ⟨_, hline, hends⟩)
  | cancelAwait hp => simp [attends, hi, hp] at hok
  | timeout => cases hok
  | unwind hp =>
      apply h.moveTo hs
      · intro _
        rw [hp]
        rfl
      · intro _
        rw [hp]
        exact .inr (.inl rfl)
  | proceed hp => exact h.moveTo hs nofun nofun
  | start hp | deliver hp | startLate hp | lose hp | revoke hp | resume hp | refuse hp | pass hp
  | cancelAcquire hp | cancelAcquired hp =>
      apply h.moveTo hs
      · intro _
        rw [hp]
        rfl
      · intro _
        rw [hp]
        exact .inr (.inl rfl)

theorem Attended.step (h : Attended s r) (hs : Step s l t) (hm : Move s l i r r')
    (hi : s.requests[i]? = some r) (hok : attends s l = true) (hserved : Served s)
    (hiso : Isolated s i r) (hne : r.id ≠ "") : Attended t r' := by
  have hgiven (e : Json) (hp : r.phase = .yielded e) :
      some e ∈ s.stdout ∧ (key e = some r.id ∨ name e = some "error") := by
    obtain ⟨k, item, -, hk, rfl⟩ := hiso.handed e hp
    exact hiso.source_event hserved hi hne (List.mem_of_getElem? hk)
  cases hm with
  | feed =>
      have hstay := h.moveTo hs (p := r.phase) id .inl
      exact ⟨hstay.unsent, hstay.ends⟩
  | shift hshift => exact h.shift hs hshift hi hok hgiven
  | grant hp =>
      apply h.moveTo hs
      · intro _
        rw [hp]
        rfl
      · intro _
        rw [hp]
        exact .inr (.inl rfl)
  | grantLate hp =>
      apply h.moveTo hs
      · intro _
        rw [hp]
        rfl
      · nofun
  | release hf =>
      cases hf with
      | settle hp | abort hp => exact h.moveTo hs nofun fun _ => .inr (.inl (by rw [hp]; rfl))
      | leave hp | leaveCancelling hp => exact h.moveTo hs nofun fun _ => .inl (by rw [hp]; rfl)
  | register hp =>
      have hnone : r.written = none := h.unsent (by rw [hp]; rfl)
      exact ⟨fun _ => hnone, nofun⟩
  | write hp => exact ⟨nofun, nofun⟩
  | pop hf =>
      cases hf with
      | unwrite hp => exact h.moveTo hs nofun fun _ => .inr (.inl (by rw [hp]; rfl))
      | cleanUp hp => exact h.moveTo hs nofun fun _ => .inl (by rw [hp]; rfl)
  | exit hp hq he =>
      obtain ⟨pos, e, inflight, rfl⟩ :=
        hserved.inbox r (List.mem_of_getElem? hi) _ (List.mem_of_getElem? hq)
      have hline := (hiso.source pos e inflight (List.mem_of_getElem? hq)).1
      exact absurd he (hserved.lines e (List.mem_of_getElem? hline)).2
  | take => exact ⟨nofun, nofun⟩
  | cancelled hp => exact h.moveTo hs nofun fun _ => .inl (by rw [hp]; rfl)

end Attended

/-- Every line carries an id, and the request lines carry those of distinct
requests that have written. -/
structure Sent (s : State) : Prop where
  named : ∀ line ∈ s.stdin, ∃ id, line.str? "id" = some id ∧ id ≠ ""
  distinct : (sentIds s.stdin).Nodup
  written : ∀ id ∈ sentIds s.stdin, ∃ r ∈ s.requests, r.id = id ∧ r.written.isSome = true

section Sent
variable {s t : State} {l : Label} {i : Nat} {r r' : Request} {concurrency : Int}

/-- What a step writes to the worker. -/
theorem Step.stdin (h : Step s l t) :
    t.stdin = s.stdin ∨
    (∃ r ∈ s.requests, t.stdin = s.stdin ++ [cancelLine r.id]) ∨
    ∃ (i : Nat) (r : Request), s.requests[i]? = some r ∧ r.phase = .writing ∧
      t.stdin = s.stdin ++ [r.payload] ∧
      t.requests[i]? = some { r with phase := .awaiting, written := some s.stdout.length } := by
  cases h with
  | write hi hp => exact .inr (.inr ⟨_, _, hi, hp, rfl, getElem?_set_same hi⟩)
  | cancelled hi hp hl =>
      rcases hl with rfl | rfl
      · exact .inl rfl
      · exact .inr (.inl ⟨_, List.mem_of_getElem? hi, rfl⟩)
  | _ => exact .inl rfl

theorem Move.written (h : Move s l i r r') (hw : r.written.isSome = true) :
    r'.written.isSome = true := by
  cases h with
  | write => rfl
  | _ => exact hw

theorem sentIds_append (lines : List Json) (line : Json) :
    sentIds (lines ++ [line]) = sentIds lines ++ (requestId? line).toList := by
  rw [sentIds, List.filterMap_append, ← sentIds]
  cases h : requestId? line with
  | none => simp [h]
  | some id => simp [h]

theorem Sent.step (h : Sent s) (hs : Step s l t) (hd : s.ids.Nodup) (hnamed : "" ∉ s.ids)
    (hpayload : ∀ r ∈ s.requests, r.payload.str? "id" = some r.id)
    (hattended : ∀ r ∈ s.requests, Attended s r) : Sent t := by
  have hne {r : Request} (hr : r ∈ s.requests) : r.id ≠ "" := by
    intro hid
    exact hnamed (hid ▸ List.mem_map_of_mem hr)
  have hstays {id : String} (hid : id ∈ sentIds s.stdin) :
      ∃ r ∈ t.requests, r.id = id ∧ r.written.isSome = true := by
    obtain ⟨r, hr, rfl, hw⟩ := h.written id hid
    obtain ⟨i, hi⟩ := List.mem_iff_getElem?.mp hr
    obtain ⟨r', hi', hm⟩ := hs.survives hi
    exact ⟨r', List.mem_of_getElem? hi', hm.id, hm.written hw⟩
  rcases hs.stdin with hsame | ⟨r, hr, hcancel⟩ | ⟨i, r, hi, hp, hwrite, hi'⟩
  · constructor
    · rw [hsame]
      exact h.named
    · rw [hsame]
      exact h.distinct
    · rw [hsame]
      intro id
      exact hstays
  · have hids : sentIds t.stdin = sentIds s.stdin := by
      rw [hcancel, sentIds_append, requestId?_cancelLine, Option.toList_none, List.append_nil]
    constructor
    · intro line hline
      rw [hcancel] at hline
      rcases List.mem_append.mp hline with hline | hline
      · exact h.named line hline
      · exact ⟨r.id, List.mem_singleton.mp hline ▸ rfl, hne hr⟩
    · exact hids ▸ h.distinct
    · rw [hids]
      intro id
      exact hstays
  · have hr := List.mem_of_getElem? hi
    have hnew : r.id ∉ sentIds s.stdin := by
      intro hid
      obtain ⟨o, ho, heq, hw⟩ := h.written r.id hid
      obtain ⟨j, hj⟩ := List.mem_iff_getElem?.mp ho
      obtain rfl := eq_of_id hd hj hi heq
      cases hj.symm.trans hi
      have hnone : r.written = none := (hattended r hr).unsent (by rw [hp]; rfl)
      rw [hnone] at hw
      cases hw
    have hid : ∀ id ∈ (requestId? r.payload).toList, id = r.id := by
      intro id hid
      have hsome : requestId? r.payload = some id := by simpa using hid
      rw [requestId?] at hsome
      split at hsome
      · cases hsome
      · exact Option.some.inj (hsome.symm.trans (hpayload r hr))
    constructor
    · intro line hline
      rw [hwrite] at hline
      rcases List.mem_append.mp hline with hline | hline
      · exact h.named line hline
      · rw [List.mem_singleton.mp hline]
        exact ⟨r.id, hpayload r hr, hne hr⟩
    · rw [hwrite, sentIds_append]
      apply List.nodup_append.mpr
      refine ⟨h.distinct, Option.toList_nodup _, ?_⟩
      intro a ha b hb heq
      exact hnew (hid b hb ▸ heq ▸ ha)
    · intro id hmem
      rw [hwrite, sentIds_append] at hmem
      rcases List.mem_append.mp hmem with hmem | hmem
      · exact hstays hmem
      · exact ⟨_, List.mem_of_getElem? hi', (hid id hmem).symm, rfl⟩

/-- What the runs with attended requests keep. -/
structure Credited (s : State) : Prop where
  served : Served s
  attended : ∀ r ∈ s.requests, Attended s r
  payload : ∀ r ∈ s.requests, r.payload.str? "id" = some r.id
  sent : Sent s

theorem credited_invariant (concurrency : Int) :
    (creditSystem concurrency).Invariant fun s =>
      (routableSystem concurrency).Reachable s ∧ Credited s where
  start := by
    refine ⟨.start, ⟨rfl, rfl, .inl rfl, ?_, ?_⟩, ?_, ?_, ?_, List.nodup_nil, ?_⟩
    all_goals
      intro _ h
      cases h
  step {s l t} h hs := by
    obtain ⟨hr, hc⟩ := h
    obtain ⟨hok, hs⟩ := guard_step.mp hs
    obtain ⟨hroutable, hbase⟩ := guard_step.mp hs
    have hstep := step_cases (guard_step.mp hbase).2
    have hnamed := (named_invariant concurrency).of_reachable hr
    have hd := (ids_invariant concurrency).of_reachable hr.of_guard
    refine ⟨hr.step hs, hc.served.step hroutable hok hstep, ?_, ?_, ?_⟩
    · intro r' hr'
      obtain ⟨j, hj⟩ := List.mem_iff_getElem?.mp hr'
      rcases hstep.move hj with ⟨r, hi, hm⟩ | ⟨-, sync, id, payload, rfl⟩
      · have hmem := List.mem_of_getElem? hi
        apply (hc.attended r hmem).step hstep hm hi hok hc.served (events_isolated hr hi)
        intro hid
        exact hnamed (hid ▸ List.mem_map_of_mem hmem)
      · exact ⟨fun _ => rfl, nofun⟩
    · exact (payload_invariant concurrency).step hc.payload hs
    · exact hc.sent.step hstep hd hnamed hc.payload hc.attended

/-- The request lines without an event that ends them are no more than the permits. -/
theorem open_length_le (h : (creditSystem concurrency).Reachable s) {ids : List String}
    (hd : ids.Nodup) (hsent : ∀ id ∈ ids, id ∈ sentIds s.stdin)
    (hopen : ∀ id ∈ ids, ∀ e, some e ∈ s.stdout → ¬ Ends id e) :
    ids.length ≤ (max 1 concurrency).toNat := by
  obtain ⟨hr, hc⟩ := (credited_invariant concurrency).of_reachable h
  have hcharged : ∀ id ∈ ids, id ∈ (s.requests.filter (·.phase.charged)).map (·.id) := by
    intro id hid
    obtain ⟨r, hmem, rfl, hw⟩ := hc.sent.written id (hsent id hid)
    have hatt := hc.attended r hmem
    apply List.mem_map_of_mem
    refine List.mem_filter.mpr ⟨hmem, Phase.charged_of_sent ?_ ?_⟩
    · by_contra hunsent
      rw [hatt.unsent (by simpa using hunsent)] at hw
      cases hw
    · by_contra hover
      obtain ⟨e, he, hends⟩ := hatt.ends hw (by simpa using hover)
      exact hopen _ hid e he hends
  have hsum := (charged_invariant concurrency).of_reachable hr.of_guard.of_guard
  calc
    ids.length ≤ ((s.requests.filter (·.phase.charged)).map (·.id)).length :=
      (List.subperm_of_subset hd hcharged).length_le
    _ = s.charged := by rw [List.length_map, State.charged, List.countP_eq_length_filter]
    _ ≤ (max 1 concurrency).toNat := by omega

end Sent

end JetsonVoice.WorkerIO
