import JetsonVoice.WorkerIO.Routing

/-!
# The error of a request that has left

The reader hands an error that matches no queue to the sole queue in the map, so
that a worker error without an id reaches its caller. An error with the id of a
request that has left matches no queue either.
-/

namespace JetsonVoice.WorkerIO

open Foundation TransitionSystem

section Abandonment
variable {s t : State} {a i : Nat} {ra r : Request} {e : Json} {concurrency : Int}

/-- An entry that an event of request `a` is found under leads to `a`. -/
theorem own_entry (hrt : Routed s) (hd : s.ids.Nodup) (ha : s.requests[a]? = some ra)
    (hid : rid e = some (.str ra.id)) {id : String} (hk : key e = some id)
    (hl : s.inflight.lookup id = some i) : i = a := by
  obtain ⟨r, hi, hrid, -⟩ := hrt.entries hl
  have hsame : id = ra.id := by simpa using (rid_of_key hk).symm.trans hid
  exact eq_of_id hd hi ha (hrid.trans hsame)

/-- An event of request `a` goes to another request through the fallback only,
and an error does so whenever the other request is alone in the map. -/
theorem receiver_iff_sole (hrt : Routed s) (hd : s.ids.Nodup) (ha : s.requests[a]? = some ra)
    (hi : s.requests[i]? = some r) (hid : rid e = some (.str ra.id))
    (hn : name e = some "error") (hne : i ≠ a) :
    receiver s.inflight e = some i ↔ s.inflight.entries = [⟨r.id, i⟩] := by
  constructor
  · intro hrec
    obtain ⟨id, hl, hk | ⟨-, -, hentries⟩⟩ := receiver_cases hrec
    · exact absurd (own_entry hrt hd ha hid hk hl) hne
    · obtain ⟨r', hi', hrid, -⟩ := hrt.entries hl
      cases hi.symm.trans hi'
      rw [hentries, hrid]
  · intro hentries
    have hnone : (key e).bind s.inflight.lookup = none := by
      cases hk : key e with
      | none => rfl
      | some id =>
          cases hl : s.inflight.lookup id with
          | none => simpa using hl
          | some j =>
              have hmem := AList.mem_lookup_iff.mp hl
              rw [hentries] at hmem
              obtain rfl : j = i := congrArg Sigma.snd (List.mem_singleton.mp hmem)
              exact absurd (own_entry hrt hd ha hid hk hl) hne
    simp [receiver, hnone, hn, hentries]

/-- An event with a name and a string for its id can be looked up. -/
theorem raises_of_named {id n : String} (hid : rid e = some (.str id)) (hn : name e = some n) :
    raises e = false := by
  cases e with
  | obj fields => simp [raises, Json.isObject, hid, hashable]
  | _ => cases hn

/-- The routing of a line, read off the step that takes it. -/
theorem putting_iff_receiver (hreader : s.reader = .reading)
    (hline : s.stdout[s.readPos]? = some (some e)) (he : raises e = false)
    (hs : (multiplexer concurrency).step s .reader = some t) :
    (∃ inflight, t.reader = .putting i (.line s.readPos e inflight)) ↔
      receiver s.inflight e = some i := by
  simp only [multiplexer, readerStep, hreader, hline, readLine, he, Bool.false_eq_true, if_false,
    Option.some.injEq] at hs
  subst hs
  cases receiver s.inflight e with
  | none => simp
  | some j =>
      simp only [Option.some.injEq]
      constructor
      · rintro ⟨inflight, h⟩
        cases h
        rfl
      · rintro rfl
        exact ⟨_, rfl⟩

/-- An error that carries the id of one request, abandoned or not, is delivered
to a different one exactly when that one is the only request in flight at the
moment the reader takes the error up; so whatever error with another request's
id is on a queue came there in this way. -/
theorem foreign_error_delivered_iff (h : (distinctSystem concurrency).Reachable s)
    (ha : s.requests[a]? = some ra) (hi : s.requests[i]? = some r) (hne : i ≠ a)
    (hn : name e = some "error") (hid : rid e = some (.str ra.id)) :
    (s.reader = .reading → s.stdout[s.readPos]? = some (some e) →
      (multiplexer concurrency).step s .reader = some t →
      ((∃ inflight, t.reader = .putting i (.line s.readPos e inflight)) ↔
        s.inflight.entries = [⟨r.id, i⟩])) ∧
    (∀ pos inflight, .line pos e inflight ∈ r.inbox → inflight.entries = [⟨r.id, i⟩]) := by
  have hd := (ids_invariant concurrency).of_reachable h
  have hrt := (routed_invariant concurrency).of_reachable h.of_guard
  constructor
  · intro hreader hline hs
    rw [putting_iff_receiver hreader hline (raises_of_named hid hn) hs]
    exact receiver_iff_sole hrt hd ha hi hid hn hne
  · intro pos inflight hline
    rcases (hrt.inbox hi hline).2.suits with hk | ⟨-, -, hentries⟩
    · have hsame : r.id = ra.id := by simpa using (rid_of_key hk).symm.trans hid
      exact absurd (eq_of_id hd hi ha hsame) hne
    · exact hentries

end Abandonment

section Runs

def errorOf (id : String) : Json := .obj [("event", .str "error"), ("id", .str id)]

/-- The consumer of a request closes its generator's task while the request waits. -/
def abandon (i : Nat) : List Label := [.cancel i, .task i true, .task i true, .task i true]

/-- A request is abandoned, its successor is registered, and then the worker's
error for the abandoned one arrives. -/
def staleErrorRun : List Label :=
  [.sendRequest "a" (.obj [])] ++ begin 0 ++ abandon 0 ++
    [.sendRequest "b" (.obj [])] ++ begin 1 ++ [.emit (some (errorOf "a")), .reader, .reader]

/-- The same with two successors. -/
def droppedErrorRun : List Label :=
  [.sendRequest "a" (.obj [])] ++ begin 0 ++ abandon 0 ++
    [.sendRequest "b" (.obj []), .sendRequest "c" (.obj [])] ++ begin 1 ++ begin 2 ++
      [.emit (some (errorOf "a"))]

theorem foreign_error_dropped_among_two :
    ∃ s t, (distinctSystem 2).Reachable s ∧ s.stdout[s.readPos]? = some (some (errorOf "a")) ∧
      (multiplexer 2).step s .reader = some t ∧
      ¬ ∃ inflight, t.reader = .putting 1 (.line 0 (errorOf "a") inflight) := by
  obtain ⟨s, hr, ⟨hids, hreader, hpos, hline, hsome⟩, hnot⟩ := exists_reachable
    (T := distinctSystem 2) (fun s => (s.requests.map (·.id) = ["a", "b", "c"] ∧
      s.reader = .reading ∧ s.readPos = 0 ∧ s.stdout[s.readPos]? = some (some (errorOf "a")) ∧
      ((multiplexer 2).step s .reader).isSome) ∧ s.inflight.entries.length ≠ 1)
    droppedErrorRun (by decide)
  obtain ⟨t, ht⟩ := Option.isSome_iff_exists.mp hsome
  have hid (i : Nat) (id : String) (h : ["a", "b", "c"][i]? = some id) :
      ∃ r, s.requests[i]? = some r ∧ r.id = id := by
    rwa [← hids, List.getElem?_map, Option.map_eq_some_iff] at h
  obtain ⟨ra, ha, hra⟩ := hid 0 "a" rfl
  obtain ⟨r, hi, -⟩ := hid 1 "b" rfl
  refine ⟨s, t, hr, hline, ht, ?_⟩
  have hiff := (foreign_error_delivered_iff hr ha hi Nat.one_ne_zero (by decide)
    (hra ▸ rfl)).1 hreader hline ht
  rw [hpos] at hiff
  rw [hiff]
  intro hentries
  exact hnot (by rw [hentries]; rfl)

/-- The request `b` receives the error the worker wrote for `a`. -/
theorem abandoned_error_fails_successor :
    ∃ s, (distinctSystem 1).Reachable s ∧
      s.requests.map (fun r => (r.id, r.phase, r.inbox.map Item.event)) =
        [("a", .ended .abandoned, []), ("b", .awaiting, [errorOf "a"])] :=
  exists_reachable _ staleErrorRun (by decide +kernel)

end Runs

end JetsonVoice.WorkerIO
