import JetsonVoice.WorkerIO.Steps

/-!
# Where the reader puts an event

What is on a queue was put there because the event carries the id of its request,
or because it is an error that matches no request in flight and the request was
the only one (`Routed`, for every run). Conversely, an event with the id of a
request is put on its queue if the reader comes to it after the registration
(`Complete`), provided the ids of a run are distinct and not empty and the
reader can look every event up.
-/

namespace JetsonVoice.WorkerIO

open Foundation TransitionSystem

/-- The position of a line on a queue. -/
def Item.pos? : Item → Option Nat
  | .sentinel => none
  | .line pos _ _ => some pos

/-- The request has no queue in the map yet. -/
def Phase.early : Phase → Bool
  | .acquiring _ | .acquired | .checking | .registering => true
  | _ => false

/-- A request that listens has registered. -/
theorem Phase.late_of_listening {p : Phase} (h : p.listening = true) : p.early = false := by
  cases p with
  | acquiring _ | acquired | checking | registering => cases h
  | _ => rfl

/-- The lines the reader is done with. -/
def State.seen (s : State) : Nat :=
  match s.reader with
  | .putting _ _ => s.readPos - 1
  | _ => s.readPos

/-- Why an event goes to a request, given the map it was looked up in. -/
def Suits (i : Nat) (r : Request) (e : Json) (inflight : Table String Nat) : Prop :=
  key e = some r.id ∨
  (name e = some "error" ∧ (key e).bind inflight.lookup = none ∧ inflight.entries = [⟨r.id, i⟩])

/-- The line was written by the worker, read after the registration of the
request, and routed to it. -/
structure Routes (s : State) (i : Nat) (r : Request) (pos : Nat) (e : Json)
    (inflight : Table String Nat) : Prop where
  late : r.phase.early = false
  line : s.stdout[pos]? = some (some e)
  since : r.since ≤ pos
  suits : Suits i r e inflight

structure Routed (s : State) : Prop where
  bound : s.readPos ≤ s.stdout.length
  entries : ∀ ⦃id i⦄, s.inflight.lookup id = some i →
    ∃ r, s.requests[i]? = some r ∧ r.id = id ∧ r.phase.early = false ∧ r.since ≤ s.readPos
  putting : ∀ ⦃i item⦄, s.reader = .putting i item →
    ∃ pos e inflight r, item = .line pos e inflight ∧ s.requests[i]? = some r ∧
      pos + 1 = s.readPos ∧ Routes s i r pos e inflight
  inbox : ∀ ⦃i r pos e inflight⦄, s.requests[i]? = some r → .line pos e inflight ∈ r.inbox →
    pos < s.seen ∧ Routes s i r pos e inflight
  ordered : ∀ r ∈ s.requests, (r.inbox.filterMap Item.pos?).Pairwise (· < ·)

section Receiver
variable {inflight : Table String Nat} {e : Json} {i : Nat}

/-- The receiver of an event is registered in the map, under the event's own id
or as its only entry. -/
theorem receiver_cases (h : receiver inflight e = some i) :
    ∃ id, inflight.lookup id = some i ∧
      (key e = some id ∨
        (name e = some "error" ∧ (key e).bind inflight.lookup = none ∧
          inflight.entries = [⟨id, i⟩])) := by
  rw [receiver] at h
  split at h
  · rename_i j hj
    cases h
    obtain ⟨id, hid, hl⟩ := Option.bind_eq_some_iff.mp hj
    exact ⟨id, hl, .inl hid⟩
  · rename_i hnone
    split at h
    · rename_i herr
      split at h
      · rename_i entry hentries
        cases h
        exact ⟨entry.1, AList.mem_lookup_iff.mpr (by simp [hentries]), .inr ⟨herr, hnone, hentries⟩⟩
      · cases h
    · cases h

theorem receiver_of_key {id : String} (hk : key e = some id) (hl : inflight.lookup id = some i) :
    receiver inflight e = some i := by
  simp [receiver, hk, hl]

end Receiver

section Routed
variable {s t : State} {l : Label} {i : Nat} {r r' : Request} {pos : Nat} {e : Json}
  {inflight : Table String Nat}

/-- Once a request has registered, its id and its registration are fixed. -/
theorem Move.late (h : Move s l i r r') (hr : r.phase.early = false) :
    r'.phase.early = false ∧ r'.since = r.since := by
  cases h with
  | feed => exact ⟨hr, rfl⟩
  | shift hs =>
      refine ⟨?_, rfl⟩
      cases hs with
      | start hp | deliver hp | resume hp | pass hp => simp [hp, Phase.early] at hr
      | unwind =>
          rw [Request.moveTo, WorkerIO.unwind]
          cases r.sync <;> rfl
      | _ => rfl
  | grant hp | register hp => simp [hp, Phase.early] at hr
  | release hf => cases hf <;> exact ⟨rfl, rfl⟩
  | pop hf => cases hf <;> exact ⟨rfl, rfl⟩
  | grantLate | write | exit | take | cancelled => exact ⟨rfl, rfl⟩

theorem Step.line (h : Step s l t) {line : Option Json} (hl : s.stdout[pos]? = some line) :
    t.stdout[pos]? = some line := by
  obtain ⟨lines, ht⟩ := h.stdout
  rw [ht, List.getElem?_append_left (lt_of_getElem? hl)]
  exact hl

theorem Routes.step (hroute : Routes s i r pos e inflight) (h : Step s l t)
    (hm : Move s l i r r') : Routes t i r' pos e inflight where
  late := (hm.late hroute.late).1
  line := h.line hroute.line
  since := (hm.late hroute.late).2 ▸ hroute.since
  suits := by
    rw [Suits, hm.id]
    exact hroute.suits

/-- The lines the reader is done with stay so; the line it was holding is one of
them when it has put it on a queue. -/
theorem Step.seen (h : Step s l t) : s.seen ≤ t.seen := by
  cases h with
  | skip hr | crash hr | route hr | put hr | broadcast hr | eof hr | fault hr =>
      simp only [State.seen, hr]
      omega
  | _ => exact le_rfl

theorem Routed.init (concurrency : Int) : Routed (.init concurrency) where
  bound := le_rfl
  entries _ _ h := by cases h
  putting _ _ h := by cases h
  inbox _ _ _ _ _ h := by cases h
  ordered _ h := by cases h

theorem Routed.step (hs : Routed s) (h : Step s l t) : Routed t where
  bound := by
    have hbound := hs.bound
    cases h with
    | skip _ hl | crash _ hl | route _ hl => exact lt_of_getElem? hl
    | emit => simpa using Nat.le_succ_of_le hbound
    | _ => exact hbound
  entries id i hl := by
    rcases h.entry hl with hl' | ⟨r, -, -, hid, hi⟩
    · obtain ⟨r, hi, hid, hlate, hsince⟩ := hs.entries hl'
      obtain ⟨r', hi', hm⟩ := h.survives hi
      obtain ⟨hlate', hsame⟩ := hm.late hlate
      exact ⟨r', hi', hm.id.trans hid, hlate', hsame ▸ hsince.trans h.readPos⟩
    · exact ⟨_, hi, hid, rfl, h.readPos⟩
  putting i item hput := by
    have hstay (hput : s.reader = .putting i item) (hpos : t.readPos = s.readPos) :
        ∃ pos e inflight r, item = .line pos e inflight ∧ t.requests[i]? = some r ∧
          pos + 1 = t.readPos ∧ Routes t i r pos e inflight := by
      obtain ⟨pos, e, inflight, r, hitem, hi, hread, hroute⟩ := hs.putting hput
      obtain ⟨r', hi', hm⟩ := h.survives hi
      exact ⟨pos, e, inflight, r', hitem, hi', hpos ▸ hread, hroute.step h hm⟩
    cases h with
    | @route e i' hr hl _ hi =>
        cases hput
        obtain ⟨id, hid, hsuits⟩ := receiver_cases hi
        obtain ⟨r, hreq, hrid, hlate, hsince⟩ := hs.entries hid
        subst hrid
        exact ⟨s.readPos, e, s.inflight, r, rfl, hreq, rfl, hlate, hl, hsince, hsuits⟩
    | skip hr => cases hr.symm.trans hput
    | crash | eof | fault | put | broadcast => cases hput
    | _ => exact hstay hput rfl
  inbox i r' pos e inflight hi hmem := by
    rcases h.move hi with ⟨r, hr, hm⟩ | ⟨-, sync, id, payload, rfl⟩
    · rcases h.inbox hr hi with ⟨n, hinbox, -⟩ | ⟨item, hput, hread, hinbox⟩
      · rw [hinbox, List.mem_append] at hmem
        rcases hmem with hmem | hmem
        · obtain ⟨hseen, hroute⟩ := hs.inbox hr hmem
          exact ⟨hseen.trans_le h.seen, hroute.step h hm⟩
        · cases List.eq_of_mem_replicate hmem
      · rw [hinbox, List.mem_append, List.mem_singleton] at hmem
        rcases hmem with hmem | rfl
        · obtain ⟨hseen, hroute⟩ := hs.inbox hr hmem
          exact ⟨hseen.trans_le h.seen, hroute.step h hm⟩
        · obtain ⟨_, _, _, r₀, heq, hr₀, hpos, hroute⟩ := hs.putting hput
          cases heq
          cases hr.symm.trans hr₀
          refine ⟨?_, hroute.step h hm⟩
          have hread' : t.seen = t.readPos := by rw [State.seen, hread]
          have := h.readPos
          omega
    · cases hmem
  ordered r' hr' := by
    obtain ⟨i, hi⟩ := List.mem_iff_getElem?.mp hr'
    rcases h.move hi with ⟨r, hr, hm⟩ | ⟨-, sync, id, payload, rfl⟩
    · have hord := hs.ordered r (List.mem_of_getElem? hr)
      rcases h.inbox hr hi with ⟨n, hinbox, -⟩ | ⟨item, hput, -, hinbox⟩
      · have hnone : (List.replicate n Item.sentinel).filterMap Item.pos? = [] := by
          rw [List.filterMap_replicate_of_none rfl]
        rwa [hinbox, List.filterMap_append, hnone, List.append_nil]
      · obtain ⟨pos, e, inflight, -, rfl, -, hpos, -⟩ := hs.putting hput
        rw [hinbox, List.filterMap_append]
        refine List.pairwise_append.mpr ⟨hord, by simp [Item.pos?], ?_⟩
        intro p hp q hq
        obtain rfl : pos = q := by simpa [Item.pos?, eq_comm] using hq
        obtain ⟨item, hmem, hitem⟩ := List.mem_filterMap.mp hp
        cases item with
        | sentinel => cases hitem
        | line p' e' m' =>
            cases hitem
            have hseen := (hs.inbox hr hmem).1
            simp only [State.seen, hput] at hseen
            omega
    · exact List.Pairwise.nil

theorem routed_invariant (concurrency : Int) : (multiplexer concurrency).Invariant Routed where
  start := Routed.init concurrency
  step h hs := h.step (step_cases hs)

end Routed

section Complete
variable {s t : State} {l : Label} {i : Nat} {r r' : Request} {pos : Nat} {e : Json}
  {concurrency : Int}

namespace State

def ids (s : State) : List String := s.requests.map (·.id)

end State

/-- The run so far and this step give every request an id of its own, and every
line of the worker is an object or not JSON. -/
def distinct (s : State) : Label → Bool
  | .sendRequest id _ => id ∉ s.ids
  | .request payload => (payload.str? "id").getD "" ∉ s.ids
  | .emit (some e) => e.isObject
  | .fault => false
  | _ => true

/-- No request has the empty id, and the reader can look every event up. -/
def routable : Label → Bool
  | .sendRequest id _ => id ≠ ""
  | .request payload => (payload.str? "id").getD "" ≠ ""
  | .emit (some e) => !raises e
  | _ => true

/-- The runs whose requests have distinct ids, with a worker that writes objects
and lines that are not JSON. -/
def distinctSystem (concurrency : Int) : TransitionSystem State Label :=
  (multiplexer concurrency).guard fun s l => distinct s l = true

/-- Among them, those whose ids are not empty and whose events have routable ids. -/
def routableSystem (concurrency : Int) : TransitionSystem State Label :=
  (distinctSystem concurrency).guard fun _ l => routable l = true

theorem ids_set (hi : s.requests[i]? = some r) (hid : r'.id = r.id) :
    (s.requests.set i r').map (·.id) = s.ids :=
  map_set_eq _ hi hid

/-- A step keeps the ids, or adds one. -/
theorem Step.ids (h : Step s l t) :
    t.ids = s.ids ∨ ∃ id, t.ids = s.ids ++ [id] ∧
      ((∃ payload, l = .sendRequest id payload) ∨
        ∃ payload, l = .request payload ∧ id = (payload.str? "id").getD "") := by
  cases h with
  | @sendRequest id payload _ _ =>
      exact .inr ⟨id, List.map_append, .inl ⟨payload, rfl⟩⟩
  | @request payload =>
      exact .inr ⟨_, List.map_append, .inr ⟨payload, rfl, rfl⟩⟩
  | shift hi _ | grant hi _ _ | grantLate hi _ _ | release hi _ | register hi _ | write hi _ _
  | pop hi _ | exit hi _ _ _ | take hi _ _ _ | cancelled hi _ _ => exact .inl (ids_set hi rfl)
  | put | wake => exact .inl (map_put _ (fun _ _ => rfl) _ _ _)
  | broadcast => exact .inl (map_wakeAll _ (fun _ _ => rfl) _ _)
  | _ => exact .inl rfl

theorem ids_invariant (concurrency : Int) :
    (distinctSystem concurrency).Invariant fun s => s.ids.Nodup where
  start := List.nodup_nil
  step {s l t} h hs := by
    obtain ⟨hok, hstep⟩ := guard_step.mp hs
    rcases (step_cases hstep).ids with hids | ⟨id, hids, hl⟩
    · rwa [hids]
    · have hnew : id ∉ s.ids := by
        rcases hl with ⟨payload, rfl⟩ | ⟨payload, rfl, rfl⟩ <;> simpa [distinct] using hok
      rw [hids]
      exact List.nodup_append.mpr ⟨h, List.nodup_singleton id, fun a ha b hb heq =>
        hnew (List.mem_singleton.mp hb ▸ heq ▸ ha)⟩

/-- What the worker has written can be looked up. -/
theorem lines_invariant (concurrency : Int) :
    (routableSystem concurrency).Invariant fun s => ∀ e, some e ∈ s.stdout → raises e = false where
  start := nofun
  step {s l t} h hs := by
    obtain ⟨hok, hstep⟩ := guard_step.mp hs
    intro e he
    cases step_cases (guard_step.mp hstep).2 with
    | @emit line =>
        rcases List.mem_append.mp he with he | he
        · exact h e he
        · obtain rfl := List.mem_singleton.mp he
          simpa [routable] using hok
    | _ => exact h e he

theorem named_invariant (concurrency : Int) :
    (routableSystem concurrency).Invariant fun s => "" ∉ s.ids where
  start := nofun
  step {s l t} h hs := by
    obtain ⟨hok, hstep⟩ := guard_step.mp hs
    rcases (step_cases (guard_step.mp hstep).2).ids with hids | ⟨id, hids, hl⟩
    · rwa [hids]
    · have hne : id ≠ "" := by
        rcases hl with ⟨payload, rfl⟩ | ⟨payload, rfl, rfl⟩ <;> simpa [routable] using hok
      rw [hids]
      simp [h, hne.symm]

/-- Nothing a listening request should have received is missing. -/
structure Complete (s : State) : Prop where
  closing : ∀ c ∈ s.closers, c ≠ .closing → s.closed = true
  listed : ∀ ⦃i r⦄, s.requests[i]? = some r → r.phase.listening = true → s.closed = false →
    s.reader ≠ .stopped → s.inflight.lookup r.id = some i
  received : ∀ ⦃i r pos e⦄, s.requests[i]? = some r → r.phase.listening = true →
    s.closed = false → s.stdout[pos]? = some (some e) → key e = some r.id → r.since ≤ pos →
    pos < s.readPos →
    (∃ inflight, .line pos e inflight ∈ r.inbox) ∨
      ∃ inflight, s.reader = .putting i (.line pos e inflight)

theorem Step.closed (h : Step s l t) (ht : t.closed = false) : s.closed = false := by
  cases h with
  | shut => cases ht
  | _ => exact ht

theorem eq_of_id {j : Nat} {o : Request} (hd : s.ids.Nodup) (hi : s.requests[i]? = some r)
    (hj : s.requests[j]? = some o) (hid : r.id = o.id) : i = j := by
  have hlt : i < s.ids.length := by
    rw [State.ids, List.length_map]
    exact lt_of_getElem? hi
  refine (List.getElem?_inj hlt hd).mp ?_
  simp [State.ids, hi, hj, hid]

theorem closing_step (hc : ∀ c ∈ s.closers, c ≠ .closing → s.closed = true) (h : Step s l t) :
    ∀ c ∈ t.closers, c ≠ .closing → t.closed = true := by
  intro c hmem hne
  cases h with
  | close =>
      rcases List.mem_append.mp hmem with hmem | hmem
      · exact hc c hmem hne
      · exact absurd (List.mem_singleton.mp hmem) hne
  | shut => rfl
  | drain hk => exact hc _ (List.mem_of_getElem? hk) nofun
  | wake hk => exact hc _ (List.mem_of_getElem? hk) nofun
  | _ => exact hc c hmem hne

/-- As ids are distinct, only a request itself takes its entry out of the map. -/
theorem listed_step (hs : Complete s) (hd : s.ids.Nodup)
    (hstep : (multiplexer concurrency).step s l = some t) (hi : t.requests[i]? = some r')
    (hp : r'.phase.listening = true) (hc : t.closed = false) (hreader : t.reader ≠ .stopped) :
    t.inflight.lookup r'.id = some i := by
  have h := step_cases hstep
  rcases h.move hi with ⟨r, hr, hm⟩ | ⟨-, sync, id, payload, rfl⟩
  · rcases hm.listening hp with hp₀ | hp₀
    · have hopen : s.reader ≠ .stopped := fun hstop => hreader (h.stopped hstop)
      have hentry := hs.listed hr hp₀ (h.closed hc) hopen
      rw [hm.id]
      cases h with
      | @register j o ok hj hreg =>
          have hne : r.id ≠ o.id := fun hid => by
            obtain rfl := eq_of_id hd hr hj hid
            cases hr.symm.trans hj
            simp [hreg, Phase.listening, Phase.waiting] at hp₀
          exact (AList.lookup_insert_ne hne).trans hentry
      | @pop j o p ok hj hf =>
          have hne : r.id ≠ o.id := fun hid => by
            obtain rfl := eq_of_id hd hr hj hid
            cases hr.symm.trans hj
            cases hf with
            | unwrite hpop | cleanUp hpop => simp [hpop, Phase.listening, Phase.waiting] at hp₀
          exact (AList.lookup_erase_ne hne).trans hentry
      | broadcast => exact absurd rfl hreader
      | drain hk =>
          have hclosed : s.closed = true := hs.closing _ (List.mem_of_getElem? hk) (by simp)
          cases hclosed.symm.trans hc
      | _ => exact hentry
    · obtain ⟨⟨ok, rfl⟩, rfl⟩ := hm.registers hp₀ hp
      obtain rfl := register_step hstep hr hp₀
      exact AList.lookup_insert _
  · cases sync <;> cases hp

/-- A line that was accounted for stays so. -/
theorem received_stays (h : Step s l t) (hr : s.requests[i]? = some r)
    (hi : t.requests[i]? = some r')
    (hrec : (∃ inflight, .line pos e inflight ∈ r.inbox) ∨
      ∃ inflight, s.reader = .putting i (.line pos e inflight)) :
    (∃ inflight, .line pos e inflight ∈ r'.inbox) ∨
      ∃ inflight, t.reader = .putting i (.line pos e inflight) := by
  rcases hrec with ⟨inflight, hmem⟩ | ⟨inflight, hput⟩
  · refine .inl ⟨inflight, ?_⟩
    rcases h.inbox hr hi with ⟨n, hinbox, -⟩ | ⟨item, -, -, hinbox⟩ <;>
    · rw [hinbox]
      exact List.mem_append_left _ hmem
  · cases h with
    | put hreader =>
        cases hput.symm.trans hreader
        rw [getElem?_put, hr] at hi
        cases hi
        exact .inl ⟨inflight, List.mem_append_right _ (by simp)⟩
    | skip hreader | crash hreader | route hreader | eof hreader | fault hreader
    | broadcast hreader => cases hput.symm.trans hreader
    | _ => exact .inr ⟨inflight, hput⟩

/-- The line the reader takes goes to the listening request whose id it carries. -/
theorem received_read (hs : Complete s) (hlines : ∀ e, some e ∈ s.stdout → raises e = false)
    (h : Step s l t) (hr : s.requests[i]? = some r) (hp : r.phase.listening = true)
    (hc : s.closed = false) (hline : s.stdout[s.readPos]? = some (some e))
    (hk : key e = some r.id) (hlt : s.readPos < t.readPos) :
    ∃ inflight, t.reader = .putting i (.line s.readPos e inflight) := by
  have hreceiver (hreader : s.reader = .reading) : receiver s.inflight e = some i :=
    receiver_of_key hk (hs.listed hr hp hc (by simp [hreader]))
  cases h with
  | skip hreader hl hn =>
      cases hline.symm.trans hl
      cases (hreceiver hreader).symm.trans (hn e rfl).2
  | crash hreader hl he =>
      cases hline.symm.trans hl
      cases (hlines e (List.mem_of_getElem? hline)).symm.trans he
  | route hreader hl he hi =>
      cases hline.symm.trans hl
      cases (hreceiver hreader).symm.trans hi
      exact ⟨s.inflight, rfl⟩
  | _ => exact absurd hlt (lt_irrefl _)

/-- What a listening request should have received after a step: a line the reader
had read before, or the one it reads now. -/
theorem received_step (hs : Complete s) (hrt : Routed s)
    (hlines : ∀ e, some e ∈ s.stdout → raises e = false)
    (hstep : (multiplexer concurrency).step s l = some t) (hi : t.requests[i]? = some r')
    (hp : r'.phase.listening = true) (hc : t.closed = false)
    (hline : t.stdout[pos]? = some (some e)) (hk : key e = some r'.id) (hsince : r'.since ≤ pos)
    (hlt : pos < t.readPos) :
    (∃ inflight, .line pos e inflight ∈ r'.inbox) ∨
      ∃ inflight, t.reader = .putting i (.line pos e inflight) := by
  have h := step_cases hstep
  rcases h.move hi with ⟨r, hr, hm⟩ | ⟨-, sync, id, payload, rfl⟩
  · rcases hm.listening hp with hp₀ | hp₀
    · have hsame : r'.since = r.since := (hm.late (Phase.late_of_listening hp₀)).2
      rw [hm.id] at hk
      rw [hsame] at hsince
      have hold (hlt : pos < s.stdout.length) : s.stdout[pos]? = some (some e) := by
        obtain ⟨lines, ht⟩ := h.stdout
        rwa [ht, List.getElem?_append_left hlt] at hline
      by_cases hread : pos < s.readPos
      · have := hrt.bound
        exact received_stays h hr hi
          (hs.received hr hp₀ (h.closed hc) (hold (by omega)) hk hsince hread)
      · obtain ⟨hnext, hout⟩ := h.read (by omega)
        obtain rfl : pos = s.readPos := by omega
        exact .inr (received_read hs hlines h hr hp₀ (h.closed hc) (hout ▸ hline) hk hlt)
    · obtain ⟨⟨ok, rfl⟩, rfl⟩ := hm.registers hp₀ hp
      obtain rfl := register_step hstep hr hp₀
      exact absurd hlt (Nat.not_lt.mpr hsince)
  · cases sync <;> cases hp

theorem complete_invariant (concurrency : Int) :
    (routableSystem concurrency).Invariant fun s =>
      (Routed s ∧ s.ids.Nodup ∧ ∀ e, some e ∈ s.stdout → raises e = false) ∧ Complete s := by
  have hbase : (routableSystem concurrency).Invariant fun s =>
      Routed s ∧ s.ids.Nodup ∧ ∀ e, some e ∈ s.stdout → raises e = false :=
    { start := ⟨(routed_invariant concurrency).start, (ids_invariant concurrency).start,
        (lines_invariant concurrency).start⟩
      step := fun ⟨hrt, hd, hlines⟩ hs =>
        ⟨(routed_invariant concurrency).guard.guard.step hrt hs,
          (ids_invariant concurrency).guard.step hd hs, (lines_invariant concurrency).step hlines hs⟩ }
  refine hbase.relative ⟨fun _ h => ?_, fun _ _ h => ?_, fun _ _ _ _ h => ?_⟩ ?_
  iterate 3 cases h
  rintro s l t ⟨hrt, hd, hlines⟩ hs hstep
  have hstep' := (guard_step.mp (guard_step.mp hstep).2).2
  exact {
    closing := closing_step hs.closing (step_cases hstep')
    listed := fun _ _ hi hp hc hreader => listed_step hs hd hstep' hi hp hc hreader
    received := fun _ _ _ _ hi hp hc hline hk hsince hlt =>
      received_step hs hrt hlines hstep' hi hp hc hline hk hsince hlt }

end Complete

section Isolation
variable {s t : State} {l : Label} {i : Nat} {r r' : Request} {concurrency : Int}

/-- The registration of a request comes before its line, in the worker's output. -/
structure Dated (s : State) (r : Request) : Prop where
  since : r.since ≤ s.readPos
  early : r.phase.early = true → r.written = none
  written : ∀ n, r.written = some n → r.since ≤ n

theorem Dated.step (hd : Dated s r) (hbound : s.readPos ≤ s.stdout.length) (h : Step s l t)
    (hm : Move s l i r r') : Dated t r' := by
  have hle := h.readPos
  cases hm with
  | feed => exact ⟨hd.since.trans hle, hd.early, hd.written⟩
  | shift hs =>
      refine ⟨hd.since.trans hle, fun hp => hd.early ?_, hd.written⟩
      cases hs with
      | start hp' | deliver hp' | resume hp' | pass hp' => simp [hp', Phase.early]
      | unwind =>
          rw [Request.moveTo, WorkerIO.unwind] at hp
          cases hsync : r.sync <;> simp [hsync, Phase.early] at hp
      | _ => cases hp
  | grant hp => exact ⟨hd.since.trans hle, fun _ => hd.early (by simp [hp, Phase.early]), hd.written⟩
  | register hp =>
      have hnone : r.written = none := hd.early (by simp [hp, Phase.early])
      refine ⟨hle, ?_, ?_⟩
      · intro hearly
        cases hearly
      · intro n hn
        cases hnone.symm.trans hn
  | write hp =>
      refine ⟨hd.since.trans hle, ?_, ?_⟩
      · intro hearly
        cases hearly
      · intro n hn
        cases hn
        exact hd.since.trans hbound
  | release hf | pop hf =>
      refine ⟨hd.since.trans hle, fun hp => ?_, hd.written⟩
      cases hf <;> cases hp
  | grantLate | exit | take | cancelled =>
      refine ⟨hd.since.trans hle, ?_, hd.written⟩
      intro hearly
      cases hearly

theorem dated_invariant (concurrency : Int) :
    (multiplexer concurrency).Invariant fun s => Routed s ∧ ∀ r ∈ s.requests, Dated s r := by
  refine (routed_invariant concurrency).relative (fun _ h => by cases h) ?_
  intro s l t hrt hd hs r' hr'
  obtain ⟨j, hj⟩ := List.mem_iff_getElem?.mp hr'
  rcases (step_cases hs).move hj with ⟨r, hr, hm⟩ | ⟨-, sync, id, payload, rfl⟩
  · exact (hd r (List.mem_of_getElem? hr)).step hrt.bound (step_cases hs) hm
  · exact ⟨Nat.zero_le _, fun _ => rfl, nofun⟩

/-- What a consumer has been given is the item it took off the queue last. -/
def Handed (r : Request) : Prop :=
  ∀ e, r.phase = .yielded e → ∃ k item, r.taken = k + 1 ∧ r.inbox[k]? = some item ∧ item.event = e

theorem Handed.step (hh : Handed r) (hm : Move s l i r r') : Handed r' := by
  intro e hp
  cases hm with
  | feed items =>
      obtain ⟨k, item, hk, hitem, he⟩ := hh e hp
      refine ⟨k, item, hk, ?_, he⟩
      rw [Request.feed, List.getElem?_append_left (lt_of_getElem? hitem)]
      exact hitem
  | shift hs =>
      cases hs with
      | unwind =>
          rw [Request.moveTo, WorkerIO.unwind] at hp
          cases hsync : r.sync <;> simp [hsync] at hp
      | _ => cases hp
  | grant => cases hsync : r.sync <;> simp [Request.moveTo, hsync] at hp
  | release hf | pop hf => cases hf <;> cases hp
  | @take item _ hq =>
      cases hp
      exact ⟨r.taken, item, rfl, hq, rfl⟩
  | grantLate | register | write | exit | cancelled => cases hp

theorem handed_invariant (concurrency : Int) :
    (multiplexer concurrency).Invariant fun s => ∀ r ∈ s.requests, Handed r where
  start _ h := by cases h
  step {s l t} h hs := by
    intro r' hr'
    obtain ⟨j, hj⟩ := List.mem_iff_getElem?.mp hr'
    rcases (step_cases hs).move hj with ⟨r, hr, hm⟩ | ⟨-, sync, id, payload, rfl⟩
    · exact (h r (List.mem_of_getElem? hr)).step hm
    · cases sync <;> exact nofun

/-- What a request receives. -/
structure Isolated (s : State) (i : Nat) (r : Request) : Prop where
  /-- Each line once, in the worker's order. -/
  ordered : (r.inbox.filterMap Item.pos?).Pairwise (· < ·)
  /-- A line of the worker, read after the registration; it carries the id of the
  request, or it is an error that matched no request in flight when this one was
  the only one. -/
  source : ∀ pos e inflight, .line pos e inflight ∈ r.inbox →
    s.stdout[pos]? = some (some e) ∧ r.since ≤ pos ∧
      (rid e = some (.str r.id) ∨
        (name e = some "error" ∧ (key e).bind inflight.lookup = none ∧
          inflight.entries = [⟨r.id, i⟩]))
  /-- Every line with the id of the request that the reader has read since the
  registration is on the queue, or the reader is about to put it there. -/
  own : r.phase.listening = true → s.closed = false → ∀ (pos : Nat) (e : Json),
    s.stdout[pos]? = some (some e) → rid e = some (.str r.id) → r.since ≤ pos →
    pos < s.readPos →
      (∃ inflight, .line pos e inflight ∈ r.inbox) ∨
        ∃ inflight, s.reader = .putting i (.line pos e inflight)
  /-- The lines written after the request's own line are among them. -/
  written : ∀ n, r.written = some n → r.since ≤ n
  /-- The consumer gets the queue in order. -/
  handed : Handed r

theorem rid_of_key {e : Json} {id : String} (h : key e = some id) : rid e = some (.str id) := by
  rw [key] at h
  split at h
  · rename_i id' hrid
    split at h
    · cases h
    · cases h
      exact hrid
  · cases h

theorem key_of_rid {e : Json} {id : String} (h : rid e = some (.str id)) (hne : id ≠ "") :
    key e = some id := by
  simp [key, h, hne]

/-- In a run whose requests have distinct, non-empty ids and whose events the
reader can look up, every request receives the events that carry its id and are
read after its registration, each once and in order, and besides them only
unmatched errors that come while it is the only request in flight. -/
theorem events_isolated (h : (routableSystem concurrency).Reachable s)
    (hi : s.requests[i]? = some r) : Isolated s i r := by
  obtain ⟨⟨hrt, -, -⟩, hc⟩ := (complete_invariant concurrency).of_reachable h
  have hbase : (multiplexer concurrency).Reachable s := h.of_guard.of_guard
  have hmem := List.mem_of_getElem? hi
  have hnamed : r.id ≠ "" := fun hid =>
    (named_invariant concurrency).of_reachable h (hid ▸ List.mem_map_of_mem hmem)
  exact {
    ordered := hrt.ordered r hmem
    source := fun pos e inflight hline => by
      obtain ⟨-, hroute⟩ := hrt.inbox hi hline
      exact ⟨hroute.line, hroute.since, hroute.suits.imp_left rid_of_key⟩
    own := fun hp hopen pos e hline hrid =>
      hc.received hi hp hopen hline (key_of_rid hrid hnamed)
    written := (((dated_invariant concurrency).of_reachable hbase).2 r hmem).written
    handed := (handed_invariant concurrency).of_reachable hbase r hmem }

end Isolation

section Runs

def partialEvent (id : String) : Json := .obj [("event", .str "partial"), ("id", .str id)]

/-- Two requests with events in both orders and an error that matches neither. -/
def isolatedRun : List Label :=
  [.sendRequest "a" (.obj []), .request (.obj [("id", .str "b")])] ++ begin 0 ++
    [.executor 1, .task 1 true, .task 1 true, .task 1 true,
      .emit (some (partialEvent "b")), .emit (some (.obj [("event", .str "error")])),
      .emit (some (partialEvent "a"))] ++ List.replicate 5 .reader

/-- An event with the id of a request, written before the request's line and
read after its registration. -/
def earlyEventRun : List Label :=
  [.emit (some (partialEvent "a")), .sendRequest "a" (.obj [])] ++ begin 0 ++ [.reader, .reader]

/-- An object whose id cannot be looked up, and then an event of the request. -/
def unhashableRun : List Label :=
  [.sendRequest "a" (.obj [])] ++ begin 0 ++
    [.emit (some (.obj [("id", .arr [.int 1])])), .emit (some (partialEvent "a")),
      .reader, .reader]

/-- An event of a request whose id is empty. -/
def emptyIdRun : List Label :=
  [.sendRequest "" (.obj [])] ++ begin 0 ++ [.emit (some (partialEvent "")), .reader]

theorem events_isolated_of_two :
    ∃ s r, (routableSystem 2).run (routableSystem 2).start isolatedRun = some s ∧
      s.requests[0]? = some r ∧ Isolated s 0 r ∧ r.inbox.map Item.event = [partialEvent "a"] :=
  have hrun : (routableSystem 2).run (routableSystem 2).start isolatedRun = some _ := rfl
  ⟨_, _, hrun, rfl, events_isolated (reachable_of_run isolatedRun hrun) rfl, rfl⟩

/-- Three runs with distinct ids and lines that are all objects: a request
receives an event that is no error and was written before the request's line; a
waiting request never gets an event with its id, because an earlier line has
stopped the reader; and one whose id is empty never gets an event either. -/
theorem events_not_isolated :
    (∃ s r pos e inflight n, (distinctSystem 1).Reachable s ∧ s.requests[0]? = some r ∧
      .line pos e inflight ∈ r.inbox ∧ name e = some "partial" ∧ r.written = some n ∧ pos < n) ∧
    (∃ s r e, (distinctSystem 1).Reachable s ∧ s.requests[0]? = some r ∧ r.phase = .awaiting ∧
      s.closed = false ∧ r.written = some 0 ∧ s.stdout[1]? = some (some e) ∧
      rid e = some (.str r.id) ∧ s.reader = .stopped ∧ r.inbox = [.sentinel]) ∧
    (∃ s r e, (distinctSystem 1).Reachable s ∧ s.requests[0]? = some r ∧ r.phase = .awaiting ∧
      s.closed = false ∧ r.written = some 0 ∧ s.stdout[0]? = some (some e) ∧
      rid e = some (.str r.id) ∧ s.readPos = 1 ∧ s.reader = .reading ∧ r.inbox = []) :=
  ⟨⟨_, _, 0, partialEvent "a", _, 1, reachable_of_run earlyEventRun rfl, rfl,
      List.mem_singleton_self _, by decide, rfl, Nat.zero_lt_one⟩,
    ⟨_, _, partialEvent "a", reachable_of_run unhashableRun rfl, rfl, rfl, rfl, rfl, rfl,
      by decide, rfl, rfl⟩,
    ⟨_, _, partialEvent "", reachable_of_run emptyIdRun rfl, rfl, rfl, rfl, rfl, rfl,
      by decide, rfl, rfl, rfl⟩⟩

end Runs

end JetsonVoice.WorkerIO
