import JetsonVoice.WorkerIO.Client

/-!
# The steps of a multiplexer

The step function of `WorkerIO` is inverted once, into the ways a step can go;
`Step.move` then says what a step does to one request.
-/

namespace JetsonVoice.WorkerIO

open Foundation

/-- The changes of a request's phase that touch nothing shared. -/
inductive Shift (s : State) (i : Nat) (r : Request) : Label → Phase → Prop
  | start (hp : r.phase = .acquiring .queued) : Shift s i r (.executor i) (.acquiring .blocked)
  | deliver (hp : r.phase = .acquiring .granted) : Shift s i r (.executor i) .acquired
  | startLate (hp : r.phase = .abandoned .queued) : Shift s i r (.executor i) (.abandoned .blocked)
  | lose (hp : r.phase = .abandoned .granted) : Shift s i r (.executor i) .lost
  | revoke (hp : r.phase = .abandoned .queued) : Shift s i r (.revoke i) (.ended .abandoned)
  | resume {ok : Bool} (hp : r.phase = .acquired) : Shift s i r (.task i ok) .checking
  | refuse {ok : Bool} {x : Exit} (hp : r.phase = .checking) : Shift s i r (.task i ok) (.aborting x)
  | pass {ok : Bool} (hp : r.phase = .checking) (hc : s.closed = false)
      (hid : r.sync = true → (r.payload.str? "id").isSome = true) :
      Shift s i r (.task i ok) .registering
  | unwind {ok : Bool} {x : Exit} (hp : r.phase = .writing) :
      Shift s i r (.task i ok) (unwind r x)
  | proceed {ok : Bool} {e : Json} (hp : r.phase = .yielded e) (he : last e = false) :
      Shift s i r (.task i ok) .awaiting
  | finish {ok : Bool} {e : Json} (hp : r.phase = .yielded e) (he : last e = true) :
      Shift s i r (.task i ok) (.popping .returned)
  | cancelAcquire {job : Job} (hp : r.phase = .acquiring job) (hs : r.sync = false) :
      Shift s i r (.cancel i) (.abandoned job)
  | cancelAcquired (hp : r.phase = .acquired) : Shift s i r (.cancel i) .settling
  | cancelAwait (hp : r.phase = .awaiting) (hs : r.sync = false) :
      Shift s i r (.cancel i) (.popping .abandoned)
  | closeGenerator {e : Json} (hp : r.phase = .yielded e) :
      Shift s i r (.cancel i) (.popping .abandoned)
  | timeout (hp : r.phase = .awaiting) (hq : r.unread = []) :
      Shift s i r (.timeout i) (.popping .timedOut)

/-- The places where a request gives its permit back. -/
inductive Frees (r : Request) : Phase → Prop
  | settle (hp : r.phase = .settling) : Frees r (.ended .abandoned)
  | abort {x : Exit} (hp : r.phase = .aborting x) : Frees r (.ended x)
  | leave {x : Exit} (hp : r.phase = .releasing x) : Frees r (.ended x)
  | leaveCancelling {x : Exit} (hp : r.phase = .releasing x) (hs : r.sync = false)
      (hx : x ≠ .returned) : Frees r (.cancelling x)

/-- The places where a request takes its id out of the map. -/
inductive Pops (r : Request) : Phase → Prop
  | unwrite {x : Exit} (hp : r.phase = .unwriting x) : Pops r (.popping x)
  | cleanUp {x : Exit} (hp : r.phase = .popping x) : Pops r (.releasing x)

/-- Every way a `WorkerIO` can take a step, with the state it leads to. -/
inductive Step (s : State) : Label → State → Prop
  | sendRequest {id : String} {payload payload' : Json} (hid : withId id payload = some payload') :
      Step s (.sendRequest id payload)
        { s with requests := s.requests ++ [fresh false id payload'] }
  | request {payload : Json} :
      Step s (.request payload)
        { s with requests := s.requests ++ [fresh true ((payload.str? "id").getD "") payload] }
  | shift {i : Nat} {r : Request} {l : Label} {p : Phase} (hi : s.requests[i]? = some r)
      (hs : Shift s i r l p) : Step s l (s.set i (r.moveTo p))
  | grant {i : Nat} {r : Request} (hi : s.requests[i]? = some r)
      (hp : r.phase = .acquiring .blocked) (hsem : 0 < s.sem) :
      Step s (.executor i)
        { s.set i (r.moveTo (if r.sync then .checking else .acquiring .granted)) with
          sem := s.sem - 1 }
  | grantLate {i : Nat} {r : Request} (hi : s.requests[i]? = some r)
      (hp : r.phase = .abandoned .blocked) (hsem : 0 < s.sem) :
      Step s (.executor i) { s.set i (r.moveTo (.abandoned .granted)) with sem := s.sem - 1 }
  | release {i : Nat} {r : Request} {p : Phase} {ok : Bool} (hi : s.requests[i]? = some r)
      (hf : Frees r p) : Step s (.task i ok) (s.set i (r.moveTo p)).release
  | register {i : Nat} {r : Request} {ok : Bool} (hi : s.requests[i]? = some r)
      (hp : r.phase = .registering) :
      Step s (.task i ok) { s.set i { r with phase := .writing, since := s.readPos } with
        inflight := s.inflight.insert r.id i }
  | write {i : Nat} {r : Request} (hi : s.requests[i]? = some r) (hp : r.phase = .writing)
      (hc : s.closed = false) :
      Step s (.task i true)
        ((s.set i { r with phase := .awaiting, written := some s.stdout.length }).write r.payload)
  | pop {i : Nat} {r : Request} {p : Phase} {ok : Bool} (hi : s.requests[i]? = some r)
      (hf : Pops r p) : Step s (.task i ok) ((s.set i (r.moveTo p)).pop r.id)
  | exit {i : Nat} {r : Request} {ok : Bool} {item : Item} (hi : s.requests[i]? = some r)
      (hp : r.phase = .awaiting) (hq : r.inbox[r.taken]? = some item)
      (he : name item.event = some "_worker_exit") :
      Step s (.task i ok)
        (s.set i { r with taken := r.taken + 1, phase := .popping .workerExit })
  | take {i : Nat} {r : Request} {ok : Bool} {item : Item} (hi : s.requests[i]? = some r)
      (hp : r.phase = .awaiting) (hq : r.inbox[r.taken]? = some item)
      (he : name item.event ≠ some "_worker_exit") :
      Step s (.task i ok)
        (s.set i { r with taken := r.taken + 1, phase := .yielded item.event })
  | cancelled {i : Nat} {r : Request} {ok : Bool} {x : Exit} {stdin : List Json}
      (hi : s.requests[i]? = some r) (hp : r.phase = .cancelling x)
      (hl : stdin = s.stdin ∨ stdin = s.stdin ++ [cancelLine r.id]) :
      Step s (.task i ok) { s.set i (r.moveTo (.ended x)) with stdin := stdin }
  | emit {line : Option Json} : Step s (.emit line) { s with stdout := s.stdout ++ [line] }
  | hangUp : Step s .hangUp { s with ended := true }
  | skip {line : Option Json} (hr : s.reader = .reading) (hl : s.stdout[s.readPos]? = some line)
      (hn : ∀ e, line = some e → raises e = false ∧ receiver s.inflight e = none) :
      Step s .reader { s with readPos := s.readPos + 1 }
  | crash {e : Json} (hr : s.reader = .reading) (hl : s.stdout[s.readPos]? = some (some e))
      (he : raises e = true) :
      Step s .reader { s with readPos := s.readPos + 1, reader := .stopping }
  | route {e : Json} {i : Nat} (hr : s.reader = .reading)
      (hl : s.stdout[s.readPos]? = some (some e)) (he : raises e = false)
      (hi : receiver s.inflight e = some i) :
      Step s .reader { s with
        readPos := s.readPos + 1
        reader := .putting i (.line s.readPos e s.inflight) }
  | eof (hr : s.reader = .reading) (hl : s.stdout[s.readPos]? = none) (he : s.ended = true) :
      Step s .reader { s with reader := .stopping }
  | fault (hr : s.reader = .reading) : Step s .fault { s with reader := .stopping }
  | put {i : Nat} {item : Item} (hr : s.reader = .putting i item) :
      Step s .reader { s with requests := put s.requests i item, reader := .reading }
  | broadcast (hr : s.reader = .stopping) :
      Step s .reader { s with
        requests := wakeAll s.requests (queues s.inflight)
        inflight := ∅
        reader := .stopped }
  | close : Step s .close { s with closers := s.closers ++ [.closing] }
  | shut {k : Nat} (hk : s.closers[k]? = some .closing) :
      Step s (.closer k) { s with closed := true, closers := s.closers.set k .draining }
  | drain {k : Nat} (hk : s.closers[k]? = some .draining) :
      Step s (.closer k) { s with
        inflight := ∅
        closers := s.closers.set k (.waking (queues s.inflight)) }
  | wake {k i : Nat} {targets : List Nat} (hk : s.closers[k]? = some (.waking (i :: targets))) :
      Step s (.closer k) { s with
        requests := WorkerIO.put s.requests i .sentinel
        closers := s.closers.set k (.waking targets) }

section Inversion
variable {s t : State} {i : Nat} {r : Request}

theorem executorStep_cases (hi : s.requests[i]? = some r) (h : executorStep s i r = some t) :
    Step s (.executor i) t := by
  simp only [executorStep] at h
  split at h
  · rename_i hp
    cases h
    exact .shift hi (.start hp)
  · rename_i hp
    split at h
    · rename_i hsem
      cases h
      exact .grant hi hp hsem
    · cases h
  · rename_i hp
    cases h
    exact .shift hi (.deliver hp)
  · rename_i hp
    cases h
    exact .shift hi (.startLate hp)
  · rename_i hp
    split at h
    · rename_i hsem
      cases h
      exact .grantLate hi hp hsem
    · cases h
  · rename_i hp
    cases h
    exact .shift hi (.lose hp)
  · cases h

theorem taskStep_cases {ok : Bool} (hi : s.requests[i]? = some r)
    (h : taskStep s i r ok = some t) : Step s (.task i ok) t := by
  simp only [taskStep] at h
  split at h
  · rename_i hp
    cases h
    exact .shift hi (.resume hp)
  · rename_i hp
    cases h
    exact .release hi (.settle hp)
  · rename_i hp
    cases h
    split
    · exact .shift hi (.refuse hp)
    · rename_i hc
      split
      · exact .shift hi (.refuse hp)
      · rename_i hid
        exact .shift hi (.pass hp (by simpa using hc) (by simpa [Option.isSome_iff_ne_none] using hid))
  · rename_i hp
    cases h
    exact .release hi (.abort hp)
  · rename_i hp
    cases h
    exact .register hi hp
  · rename_i hp
    split at h
    · cases h
      exact .shift hi (.unwind hp)
    · rename_i hc
      split at h
      · rename_i hok
        cases h
        subst hok
        exact .write hi hp (by simpa using hc)
      · cases h
        exact .shift hi (.unwind hp)
  · rename_i hp
    cases h
    exact .pop hi (.unwrite hp)
  · rename_i hp
    obtain ⟨item, hq, rfl⟩ := Option.map_eq_some_iff.mp h
    split
    · rename_i he
      exact .exit hi hp hq he
    · rename_i he
      exact .take hi hp hq he
  · rename_i hp
    cases h
    split
    · rename_i he
      exact .shift hi (.finish hp he)
    · rename_i he
      exact .shift hi (.proceed hp (by simpa using he))
  · rename_i hp
    cases h
    exact .pop hi (.cleanUp hp)
  · rename_i hp
    cases h
    split
    · exact .release hi (.leave hp)
    · rename_i hx
      simp only [Bool.or_eq_true, decide_eq_true_eq, not_or, Bool.not_eq_true] at hx
      exact .release hi (.leaveCancelling hp hx.1 hx.2)
  · rename_i hp
    cases h
    split
    · exact .cancelled hi hp (.inr rfl)
    · exact .cancelled hi hp (.inl rfl)
  all_goals cases h

theorem cancelStep_cases (hi : s.requests[i]? = some r) (h : cancelStep s i r = some t) :
    Step s (.cancel i) t := by
  simp only [cancelStep] at h
  split at h
  · rename_i hp
    split at h
    · cases h
    · rename_i hs
      cases h
      exact .shift hi (.cancelAcquire hp (by simpa using hs))
  · rename_i hp
    cases h
    exact .shift hi (.cancelAcquired hp)
  · rename_i hp
    split at h
    · cases h
    · rename_i hs
      cases h
      exact .shift hi (.cancelAwait hp (by simpa using hs))
  · rename_i hp
    cases h
    exact .shift hi (.closeGenerator hp)
  · cases h

theorem readLine_cases {line : Option Json} (hr : s.reader = .reading)
    (hl : s.stdout[s.readPos]? = some line) : Step s .reader (readLine s line) := by
  cases line with
  | none => exact .skip hr hl nofun
  | some e =>
      simp only [readLine]
      split
      · rename_i he
        exact .crash hr hl he
      · rename_i he
        have hfine : raises e = false := by simpa using he
        split
        · rename_i hi
          exact .route hr hl hfine hi
        · rename_i hi
          exact .skip hr hl fun e' he' => Option.some.inj he' ▸ ⟨hfine, hi⟩

theorem readerStep_cases (h : readerStep s = some t) : Step s .reader t := by
  simp only [readerStep] at h
  split at h
  · rename_i hr
    split at h
    · rename_i hl
      cases h
      exact readLine_cases hr hl
    · rename_i hl
      split at h
      · rename_i he
        cases h
        exact .eof hr hl he
      · cases h
  · rename_i hr
    cases h
    exact .put hr
  · rename_i hr
    cases h
    exact .broadcast hr
  · cases h

theorem closerStep_cases {k : Nat} {c : Closer} (hk : s.closers[k]? = some c)
    (h : closerStep s k c = some t) : Step s (.closer k) t := by
  cases c with
  | closing =>
      cases h
      exact .shut hk
  | draining =>
      cases h
      exact .drain hk
  | waking targets =>
      cases targets with
      | nil => cases h
      | cons i targets =>
          cases h
          exact .wake hk

/-- A step of the system is one of the listed ways. -/
theorem step_cases {concurrency : Int} {l : Label} (h : (multiplexer concurrency).step s l = some t) :
    Step s l t := by
  cases l with
  | sendRequest id payload =>
      obtain ⟨payload', hid, rfl⟩ := Option.map_eq_some_iff.mp h
      exact .sendRequest hid
  | request payload =>
      cases h
      exact .request
  | executor i =>
      obtain ⟨r, hi, h⟩ := Option.bind_eq_some_iff.mp h
      exact executorStep_cases hi h
  | revoke i =>
      obtain ⟨r, hi, h⟩ := Option.bind_eq_some_iff.mp h
      split at h
      · rename_i hp
        cases h
        exact .shift hi (.revoke hp)
      · cases h
  | task i ok =>
      obtain ⟨r, hi, h⟩ := Option.bind_eq_some_iff.mp h
      exact taskStep_cases hi h
  | cancel i =>
      obtain ⟨r, hi, h⟩ := Option.bind_eq_some_iff.mp h
      exact cancelStep_cases hi h
  | timeout i =>
      obtain ⟨r, hi, h⟩ := Option.bind_eq_some_iff.mp h
      split at h
      · rename_i hp
        cases h
        exact .shift hi (.timeout hp.1 hp.2)
      · cases h
  | emit line =>
      simp only [multiplexer] at h
      split at h
      · cases h
      · cases h
        exact .emit
  | hangUp =>
      cases h
      exact .hangUp
  | reader => exact readerStep_cases h
  | fault =>
      simp only [multiplexer] at h
      split at h
      · rename_i hr
        cases h
        exact .fault hr
      · cases h
  | close =>
      cases h
      exact .close
  | closer k =>
      obtain ⟨c, hk, h⟩ := Option.bind_eq_some_iff.mp h
      exact closerStep_cases hk h

end Inversion

/-- The request waits for an event, or will when its consumer asks for one. -/
def Phase.waiting : Phase → Bool
  | .awaiting => true
  | .yielded e => !last e
  | _ => false

/-- The request has registered its queue and not been ended by an event. -/
def Phase.listening (p : Phase) : Bool := p = .writing || p.waiting

section Requests
variable {s t : State} {l : Label} {i j : Nat} {r r' : Request}

def Request.feed (r : Request) (items : List Item) : Request := { r with inbox := r.inbox ++ items }

theorem getElem?_put (requests : List Request) (i j : Nat) (item : Item) :
    (put requests i item)[j]? =
      requests[j]?.map fun r => r.feed (if i = j then [item] else []) := by
  rw [put, List.getElem?_modify]
  cases requests[j]? with
  | none => rfl
  | some r =>
      split
      · rfl
      · simp [Request.feed]

theorem getElem?_wakeAll (targets : List Nat) (requests : List Request) (j : Nat) :
    (wakeAll requests targets)[j]? =
      requests[j]?.map fun r => r.feed (List.replicate (targets.count j) .sentinel) := by
  induction targets generalizing requests with
  | nil => simp [wakeAll, Request.feed]
  | cons i targets ih =>
      change (wakeAll (put requests i .sentinel) targets)[j]? = _
      rw [ih, getElem?_put]
      cases requests[j]? with
      | none => rfl
      | some r =>
          by_cases hij : i = j
          · subst hij
            simp [Request.feed, List.replicate_succ]
          · simp [Request.feed, hij]

@[simp] theorem length_put (requests : List Request) (i : Nat) (item : Item) :
    (put requests i item).length = requests.length := by
  simp [put]

@[simp] theorem length_wakeAll (targets : List Nat) (requests : List Request) :
    (wakeAll requests targets).length = requests.length := by
  induction targets generalizing requests with
  | nil => rfl
  | cons i targets ih =>
      change (wakeAll (put requests i .sentinel) targets).length = _
      rw [ih, length_put]

/-- Feeding a queue keeps every projection that does not look at it. -/
theorem map_put {β : Type} (f : Request → β) (hf : ∀ r items, f (r.feed items) = f r)
    (requests : List Request) (i : Nat) (item : Item) :
    (put requests i item).map f = requests.map f := by
  apply List.ext_getElem?
  intro j
  simp only [List.getElem?_map, getElem?_put, Option.map_map]
  exact congrArg (requests[j]?.map ·) (funext fun r => hf r _)

theorem map_wakeAll {β : Type} (f : Request → β) (hf : ∀ r items, f (r.feed items) = f r)
    (requests : List Request) (targets : List Nat) :
    (wakeAll requests targets).map f = requests.map f := by
  apply List.ext_getElem?
  intro j
  simp only [List.getElem?_map, getElem?_wakeAll, Option.map_map]
  exact congrArg (requests[j]?.map ·) (funext fun r => hf r _)

/-- What one step can do to a request. -/
inductive Move (s : State) (l : Label) (i : Nat) (r : Request) : Request → Prop
  | feed (items : List Item) : Move s l i r (r.feed items)
  | shift {p : Phase} (hs : Shift s i r l p) : Move s l i r (r.moveTo p)
  | grant (hp : r.phase = .acquiring .blocked) (hl : l = .executor i) :
      Move s l i r (r.moveTo (if r.sync then .checking else .acquiring .granted))
  | grantLate (hp : r.phase = .abandoned .blocked) (hl : l = .executor i) :
      Move s l i r (r.moveTo (.abandoned .granted))
  | release {p : Phase} (hf : Frees r p) : Move s l i r (r.moveTo p)
  | register {ok : Bool} (hp : r.phase = .registering) (hl : l = .task i ok) :
      Move s l i r { r with phase := .writing, since := s.readPos }
  | write (hp : r.phase = .writing) (hc : s.closed = false) (hl : l = .task i true) :
      Move s l i r { r with phase := .awaiting, written := some s.stdout.length }
  | pop {p : Phase} (hf : Pops r p) : Move s l i r (r.moveTo p)
  | exit {item : Item} (hp : r.phase = .awaiting) (hq : r.inbox[r.taken]? = some item)
      (he : name item.event = some "_worker_exit") :
      Move s l i r { r with taken := r.taken + 1, phase := .popping .workerExit }
  | take {item : Item} (hp : r.phase = .awaiting) (hq : r.inbox[r.taken]? = some item)
      (he : name item.event ≠ some "_worker_exit") :
      Move s l i r { r with taken := r.taken + 1, phase := .yielded item.event }
  | cancelled {x : Exit} (hp : r.phase = .cancelling x) : Move s l i r (r.moveTo (.ended x))

/-- A request that listens after a step listened before it, or registered in it. -/
theorem Move.listening (h : Move s l i r r') (hp : r'.phase.listening = true) :
    r.phase.listening = true ∨ r.phase = .registering := by
  cases h with
  | feed items => exact .inl hp
  | shift hs =>
      cases hs with
      | proceed hp' he => exact .inl (by simp [hp', Phase.listening, Phase.waiting, he])
      | unwind =>
          rw [Request.moveTo, WorkerIO.unwind] at hp
          cases hs : r.sync <;> simp [hs, Phase.listening, Phase.waiting] at hp
      | _ => cases hp
  | grant hp' => cases hs : r.sync <;> simp [Request.moveTo, hs, Phase.listening, Phase.waiting] at hp
  | release hf => cases hf <;> cases hp
  | register hp' => exact .inr hp'
  | write hp' | take hp' => exact .inl (by simp [hp', Phase.listening, Phase.waiting])
  | pop hf => cases hf <;> cases hp
  | grantLate | exit | cancelled => cases hp

theorem Move.id (h : Move s l i r r') : r'.id = r.id := by
  cases h <;> rfl

/-- A request that nothing happened to. -/
theorem Move.stay : Move s l i r r := by
  simpa [Request.feed] using Move.feed (s := s) (l := l) (i := i) (r := r) []

/-- A request after a step was there before it, or the step made it. -/
def Origin (s : State) (l : Label) (j : Nat) (r' : Request) : Prop :=
  (∃ r, s.requests[j]? = some r ∧ Move s l j r r') ∨
  (j = s.requests.length ∧ ∃ sync id payload, r' = fresh sync id payload)

theorem origin_set (hi : s.requests[i]? = some r) (hm : Move s l i r r') {u : Request}
    (hj : (s.requests.set i r')[j]? = some u) : Origin s l j u := by
  rcases getElem?_set_cases hj with ⟨rfl, rfl, -⟩ | ⟨-, hj'⟩
  · exact .inl ⟨r, hi, hm⟩
  · exact .inl ⟨u, hj', .stay⟩

theorem origin_append {sync : Bool} {id : String} {payload : Json} {u : Request}
    (hj : (s.requests ++ [fresh sync id payload])[j]? = some u) : Origin s l j u := by
  rw [List.getElem?_append] at hj
  split at hj
  · exact .inl ⟨u, hj, .stay⟩
  · rename_i hlen
    have hlt := lt_of_getElem? hj
    simp only [List.length_singleton] at hlt
    have hzero : j - s.requests.length = 0 := by omega
    rw [hzero] at hj
    exact .inr ⟨by omega, sync, id, payload, (Option.some.inj hj).symm⟩

theorem origin_map {items : Request → List Item} {u : Request}
    (hj : s.requests[j]?.map (fun r => r.feed (items r)) = some u) : Origin s l j u := by
  obtain ⟨r, hr, rfl⟩ := Option.map_eq_some_iff.mp hj
  exact .inl ⟨r, hr, .feed _⟩

/-- The requests after a step, each with the move it made. -/
theorem Step.move (h : Step s l t) {u : Request} (hj : t.requests[j]? = some u) :
    Origin s l j u := by
  cases h with
  | sendRequest | request => exact origin_append hj
  | shift hi hs => exact origin_set hi (.shift hs) hj
  | grant hi hp _ => exact origin_set hi (.grant hp rfl) hj
  | grantLate hi hp _ => exact origin_set hi (.grantLate hp rfl) hj
  | release hi hf => exact origin_set hi (.release hf) hj
  | register hi hp => exact origin_set hi (.register hp rfl) hj
  | write hi hp hc => exact origin_set hi (.write hp hc rfl) hj
  | pop hi hf => exact origin_set hi (.pop hf) hj
  | exit hi hp hq he => exact origin_set hi (.exit hp hq he) hj
  | take hi hp hq he => exact origin_set hi (.take hp hq he) hj
  | cancelled hi hp _ => exact origin_set hi (.cancelled hp) hj
  | put | wake =>
      rw [getElem?_put] at hj
      exact origin_map hj
  | broadcast =>
      rw [getElem?_wakeAll] at hj
      exact origin_map hj
  | _ => exact .inl ⟨u, hj, .stay⟩

/-- What was put on a request's queue in one step: nothing, sentinels when the
reader or a `close` broadcasts, or the item the reader was holding for it. -/
theorem Step.inbox (h : Step s l t) (hr : s.requests[j]? = some r)
    (hj : t.requests[j]? = some r') :
    (∃ n, r'.inbox = r.inbox ++ List.replicate n .sentinel ∧
      (n = 0 ∨ s.reader = .stopping ∨ s.closers ≠ [])) ∨
    (∃ item, s.reader = .putting j item ∧ t.reader = .reading ∧ r'.inbox = r.inbox ++ [item]) := by
  have hset {i : Nat} {a b : Request} (hi : s.requests[i]? = some a)
      (hj : (s.requests.set i b)[j]? = some r') (hb : b.inbox = a.inbox) :
      ∃ n, r'.inbox = r.inbox ++ List.replicate n .sentinel ∧
        (n = 0 ∨ s.reader = .stopping ∨ s.closers ≠ []) := by
    refine ⟨0, ?_, .inl rfl⟩
    rw [List.replicate_zero, List.append_nil]
    rcases getElem?_set_cases hj with ⟨rfl, rfl, -⟩ | ⟨-, hj'⟩
    · cases hi.symm.trans hr
      exact hb
    · cases hj'.symm.trans hr
      rfl
  cases h with
  | sendRequest | request =>
      rw [List.getElem?_append_left (lt_of_getElem? hr), hr] at hj
      cases hj
      exact .inl ⟨0, by simp, .inl rfl⟩
  | shift hi _ | grant hi _ _ | grantLate hi _ _ | release hi _ | register hi _ | write hi _ _
  | pop hi _ | exit hi _ _ _ | take hi _ _ _ | cancelled hi _ _ => exact .inl (hset hi hj rfl)
  | @put i item hreader =>
      rw [getElem?_put, hr] at hj
      cases hj
      by_cases hij : i = j
      · subst hij
        exact .inr ⟨item, hreader, rfl, by simp [Request.feed]⟩
      · exact .inl ⟨0, by simp [Request.feed, hij], .inl rfl⟩
  | wake hk =>
      have hclosers : s.closers ≠ [] := by
        rintro hnil
        simp [hnil] at hk
      rw [getElem?_put, hr] at hj
      cases hj
      left
      split
      · exact ⟨1, rfl, .inr (.inr hclosers)⟩
      · exact ⟨0, rfl, .inl rfl⟩
  | broadcast hreader =>
      rw [getElem?_wakeAll, hr] at hj
      cases hj
      exact .inl ⟨_, rfl, .inr (.inl hreader)⟩
  | _ =>
      cases hj.symm.trans hr
      exact .inl ⟨0, by simp, .inl rfl⟩

theorem Step.length (h : Step s l t) : s.requests.length ≤ t.requests.length := by
  cases h with
  | sendRequest | request => simp
  | shift | grant | grantLate | release | register | write | pop | exit | take | cancelled =>
      exact (List.length_set ..).ge
  | put | wake => exact (length_put ..).ge
  | broadcast => exact (length_wakeAll ..).ge
  | _ => exact le_rfl

/-- A request stays where it is. -/
theorem Step.survives (h : Step s l t) (hr : s.requests[j]? = some r) :
    ∃ r', t.requests[j]? = some r' ∧ Move s l j r r' := by
  have hlt := lt_of_getElem? hr
  have hlen := h.length
  have hj : t.requests[j]? = some t.requests[j] := List.getElem?_eq_getElem (by omega)
  rcases h.move hj with ⟨r₀, hr₀, hm⟩ | ⟨hnew, -⟩
  · cases hr.symm.trans hr₀
    exact ⟨_, hj, hm⟩
  · omega

/-- A request that has not registered listens after its registration only. -/
theorem Move.registers (h : Move s l i r r') (hp : r.phase = .registering)
    (hp' : r'.phase.listening = true) :
    (∃ ok, l = .task i ok) ∧ r' = { r with phase := .writing, since := s.readPos } := by
  cases h with
  | register _ hl => exact ⟨⟨_, hl⟩, rfl⟩
  | feed => simp [Request.feed, hp, Phase.listening, Phase.waiting] at hp'
  | shift h => cases h <;> simp_all
  | release hf => cases hf <;> simp_all
  | pop hf => cases hf <;> simp_all
  | grant h | grantLate h | write h | exit h | take h | cancelled h => cases hp.symm.trans h

theorem register_step {concurrency : Int} {ok : Bool}
    (hs : (multiplexer concurrency).step s (.task i ok) = some t) (hr : s.requests[i]? = some r)
    (hp : r.phase = .registering) :
    t = { s.set i { r with phase := .writing, since := s.readPos } with
      inflight := s.inflight.insert r.id i } := by
  simp only [multiplexer, hr, Option.bind_some, taskStep, hp, Option.some.injEq] at hs
  exact hs.symm

theorem Step.stopped (h : Step s l t) (hs : s.reader = .stopped) : t.reader = .stopped := by
  cases h with
  | skip hr | crash hr | route hr | eof hr | fault hr | put hr | broadcast hr =>
      cases hs.symm.trans hr
  | _ => exact hs

/-- The worker's output only grows. -/
theorem Step.stdout (h : Step s l t) : ∃ lines, t.stdout = s.stdout ++ lines := by
  cases h with
  | emit => exact ⟨_, rfl⟩
  | _ => exact ⟨[], (List.append_nil _).symm⟩

theorem Step.readPos (h : Step s l t) : s.readPos ≤ t.readPos := by
  cases h with
  | skip | crash | route => exact Nat.le_succ _
  | _ => exact le_rfl

/-- The reader reads one line at a time. -/
theorem Step.read (h : Step s l t) (hlt : s.readPos < t.readPos) :
    t.readPos = s.readPos + 1 ∧ t.stdout = s.stdout := by
  cases h with
  | skip | crash | route => exact ⟨rfl, rfl⟩
  | _ => exact absurd hlt (lt_irrefl _)

/-- An entry of the map was there before the step, or its request registered. -/
theorem Step.entry (h : Step s l t) {id : String} (hl : t.inflight.lookup id = some i) :
    s.inflight.lookup id = some i ∨
    ∃ r, s.requests[i]? = some r ∧ r.phase = .registering ∧ r.id = id ∧
      t.requests[i]? = some { r with phase := .writing, since := s.readPos } := by
  have herase {id' : String} (hl : (s.inflight.erase id').lookup id = some i) :
      s.inflight.lookup id = some i := by
    rw [Table.lookup_erase_cases] at hl
    split at hl
    · cases hl
    · exact hl
  cases h with
  | @register i' r _ hi hp =>
      simp only [Table.lookup_insert_cases] at hl
      split at hl
      · rename_i hid
        cases hl
        exact .inr ⟨r, hi, hp, hid.symm, getElem?_set_same hi⟩
      · exact .inl hl
  | pop => exact .inl (herase hl)
  | broadcast | drain => cases hl
  | _ => exact .inl hl

end Requests

end JetsonVoice.WorkerIO
