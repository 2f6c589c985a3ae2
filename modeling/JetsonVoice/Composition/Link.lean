import JetsonVoice.WorkerIO.Credits

/-!
# One client and its worker

A `WorkerIO` and the worker at the other end of its pipes. The pipes keep the
order of the lines and delay them by any time: the worker reads the client's
lines one by one, and the client's reader those of the worker. The worker is any
`Server`; what it must keep to is `Server.Lawful`.

The client counts a request until it sees the event that ends it, the worker
until it frees the request's place. The gap between the two is `lingering`.

## Implementation notes

A line is handed over as the value it encodes.
-/

namespace JetsonVoice.Composition

open Foundation Protocol TransitionSystem WorkerIO

/-- A worker as its client sees it. -/
structure Server where
  State : Type
  Label : Type
  system : TransitionSystem State Label
  /-- A line reaches the thread that reads stdin. -/
  line : Json → Label
  /-- A step of one of the worker's threads that reads no line. -/
  own : Label → Bool
  /-- The lines it has written. -/
  out : State → List Json
  /-- The ids of the requests that hold a place. -/
  placed : State → List String
  capacity : Nat

/-- The worker refuses a request because every place is held. -/
def saturated (e : Json) : Bool :=
  e.str? "error" = some "pool_saturated" && e.field? "status" = some (.int 4429)

/-- An event the client can route, no refusal, that ends one of the requests if
it ends any. -/
structure Proper (ids : List String) (e : Json) : Prop where
  routable : raises e = false
  named : name e ≠ some "_worker_exit"
  unsaturated : saturated e = false
  ends : isTerminal e = true → ∃ id ∈ ids, key e = some id

namespace Server

variable (V : Server)

/-- The worker goes on with the requests it has and the new ones. -/
structure Moves (new : List String) (w w' : V.State) : Prop where
  out : ∃ es, V.out w' = V.out w ++ es ∧ ∀ e ∈ es, Proper (new ++ V.placed w) e
  placed : (V.placed w').Subperm (new ++ V.placed w)

/-- The worker refuses a request with an id only when every place is held, and
ends only requests that hold a place or that it has just read. -/
structure Lawful (keeps : V.State → Prop) : Prop where
  start : keeps V.system.start
  out_start : V.out V.system.start = []
  placed_start : V.placed V.system.start = []
  own : ∀ {w l w'}, keeps w → V.own l = true → V.system.step w l = some w' →
    keeps w' ∧ V.Moves [] w w'
  line : ∀ {w item id w'}, keeps w → item.str? "id" = some id → id ≠ "" →
    (requestId? item ≠ none → (V.placed w).length < V.capacity) →
    V.system.step w (V.line item) = some w' → keeps w' ∧ V.Moves (requestId? item).toList w w'

end Server

/-- The two processes and the place in the pipe to the worker. -/
structure Link (V : Server) where
  client : WorkerIO.State
  worker : V.State
  /-- The number of the client's lines the worker has read. -/
  received : Nat

/-- What happens next. -/
inductive Link.Label (V : Server) where
  | client (l : WorkerIO.Label)
  | worker (l : V.Label)
  /-- The worker reads the next line. -/
  | deliver

/-- What the worker does in a step of the client's own system. -/
def byWorker : WorkerIO.Label → Bool
  | .emit _ | .hangUp => true
  | _ => false

section Link
variable {V : Server}

/-- The worker moves on, and what it writes is in the pipe. -/
def Link.advance (s : Link V) (w : V.State) : Link V := { s with
  worker := w
  client := { s.client with
    stdout := s.client.stdout ++ ((V.out w).drop (V.out s.worker).length).map some } }

variable (V)

/-- A `WorkerIO` as the only client of a worker that does not die. -/
def linked (concurrency : Int) : TransitionSystem (Link V) (Link.Label V) where
  start := ⟨.init concurrency, V.system.start, 0⟩
  step s
    | .client l =>
        if byWorker l then none
        else ((multiplexer concurrency).step s.client l).map fun c => { s with client := c }
    | .worker l => if V.own l then (V.system.step s.worker l).map s.advance else none
    | .deliver => s.client.stdin[s.received]?.bind fun item =>
        (V.system.step s.worker (V.line item)).map fun w =>
          { s.advance w with received := s.received + 1 }

/-- The requests have ids of their own and run to their terminal events. -/
def keepsContract (s : Link V) : Link.Label V → Bool
  | .client l => distinct s.client l && routable l && attends s.client l
  | _ => true

/-- The runs of a client that keeps to its side. -/
def contractSystem (concurrency : Int) : TransitionSystem (Link V) (Link.Label V) :=
  (linked V concurrency).guard fun s l => keepsContract V s l = true

/-- The worker has written an event that ends the request. -/
def Server.ended (w : V.State) (id : String) : Bool := (V.out w).any fun e => decide (Ends id e)

/-- The requests that hold a place and whose terminal event is out. -/
def Link.lingering {V : Server} (s : Link V) : Nat := (V.placed s.worker).countP (V.ended s.worker)

/-- The worker does not read a request line while more places are held by ended
requests than the client leaves unused. -/
def leavesRoom (concurrency : Int) (s : Link V) : Link.Label V → Bool
  | .deliver => ((s.client.stdin[s.received]?).bind requestId?).isNone ||
      decide (s.lingering ≤ V.capacity - (max 1 concurrency).toNat)
  | _ => true

/-- The runs in which the places are given back in time. -/
def roomySystem (concurrency : Int) : TransitionSystem (Link V) (Link.Label V) :=
  (contractSystem V concurrency).guard fun s l => leavesRoom V concurrency s l = true

end Link

/-- What a run keeps while the places are given back in time. -/
structure Matched (V : Server) (keeps : V.State → Prop) (concurrency : Int) (s : Link V) : Prop where
  client : (creditSystem concurrency).Reachable s.client
  worker : keeps s.worker
  pipe : s.client.stdout = (V.out s.worker).map some
  received : s.received ≤ s.client.stdin.length
  placed : (V.placed s.worker).Subperm (sentIds (s.client.stdin.take s.received))
  ends : ∀ e ∈ V.out s.worker, isTerminal e = true →
    ∃ id ∈ sentIds (s.client.stdin.take s.received), key e = some id
  unsaturated : ∀ e ∈ V.out s.worker, saturated e = false

section Matched
variable {V : Server} {keeps : V.State → Prop} {concurrency : Int} {s t : Link V}
  {w' : V.State} {new : List String}

/-- What a lawful worker writes is taken up by the client. -/
theorem leads_of_proper (concurrency : Int) {c : WorkerIO.State} {es : List Json} {ids : List String}
    (hended : c.ended = false) (h : ∀ e ∈ es, Proper ids e) :
    (creditSystem concurrency).Leads c { c with stdout := c.stdout ++ es.map some } := by
  induction es generalizing c with
  | nil =>
      rw [List.map_nil, List.append_nil]
      exact .refl
  | cons e es ih =>
      have he := h e List.mem_cons_self
      have hobj : e.isObject = true := by
        by_contra hno
        have hraises := he.routable
        simp [raises, hno] at hraises
      have hemit : (creditSystem concurrency).step c (.emit (some e)) =
          some { c with stdout := c.stdout ++ [some e] } := by
        refine guard_step.mpr ⟨?_, guard_step.mpr ⟨?_, guard_step.mpr ⟨?_, ?_⟩⟩⟩
        · simpa [attends] using he.named
        · simpa [routable] using he.routable
        · exact hobj
        · simp [multiplexer, hended]
      have htail := ih (c := { c with stdout := c.stdout ++ [some e] }) hended fun e' he' =>
        h e' (List.mem_cons_of_mem _ he')
      have hlist : c.stdout ++ (e :: es).map some = c.stdout ++ [some e] ++ es.map some := by simp
      rw [hlist]
      exact htail.head hemit

/-- The worker moves on with the lines it has read so far. -/
theorem Matched.advance (h : Matched V keeps concurrency s) (hm : V.Moves new s.worker w')
    (hw : keeps w') {n : Nat} (hn : n ≤ s.client.stdin.length)
    (hnew : sentIds (s.client.stdin.take n) = sentIds (s.client.stdin.take s.received) ++ new) :
    Matched V keeps concurrency { s.advance w' with received := n } := by
  obtain ⟨es, hout, hproper⟩ := hm.out
  have hdrop : (V.out w').drop (V.out s.worker).length = es := by rw [hout, List.drop_left]
  have hids : ∀ id ∈ new ++ V.placed s.worker, id ∈ sentIds (s.client.stdin.take n) := by
    intro id hid
    rw [hnew]
    rcases List.mem_append.mp hid with hid | hid
    · exact List.mem_append_right _ hid
    · exact List.mem_append_left _ (h.placed.subset hid)
  have hended := ((credited_invariant concurrency).of_reachable h.client).2.served.ended
  exact {
    client := by
      have hleads := leads_of_proper concurrency hended hproper
      rw [← hdrop] at hleads
      exact h.client.leads hleads
    worker := hw
    pipe := by
      change s.client.stdout ++ _ = (V.out w').map some
      rw [hdrop, hout, h.pipe, List.map_append]
    received := hn
    placed := by
      change (V.placed w').Subperm (sentIds (s.client.stdin.take n))
      rw [hnew]
      have hold : (new ++ V.placed s.worker).Subperm
          (sentIds (s.client.stdin.take s.received) ++ new) :=
        List.perm_append_comm.subperm.trans (h.placed.append (.refl new))
      exact hm.placed.trans hold
    ends := by
      intro e he hterm
      rcases List.mem_append.mp (hout ▸ he) with he | he
      · obtain ⟨id, hid, hkey⟩ := h.ends e he hterm
        refine ⟨id, ?_, hkey⟩
        change id ∈ sentIds (s.client.stdin.take n)
        rw [hnew]
        exact List.mem_append_left _ hid
      · obtain ⟨id, hid, hkey⟩ := (hproper e he).ends hterm
        exact ⟨id, hids id hid, hkey⟩
    unsaturated := by
      intro e he
      rcases List.mem_append.mp (hout ▸ he) with he | he
      · exact h.unsaturated e he
      · exact (hproper e he).unsaturated }

theorem sentIds_take {lines : List Json} {n : Nat} {line : Json} (h : lines[n]? = some line) :
    sentIds (lines.take (n + 1)) = sentIds (lines.take n) ++ (requestId? line).toList := by
  rw [List.take_add_one, h]
  exact sentIds_append _ _

/-- The client's lines are a longer list after its step. -/
theorem client_stdin {c c' : WorkerIO.State} {l : WorkerIO.Label} (h : Step c l c') :
    ∃ lines, c'.stdin = c.stdin ++ lines := by
  rcases h.stdin with hsame | ⟨r, -, hcancel⟩ | ⟨i, r, -, -, hwrite, -⟩
  · exact ⟨[], by rw [hsame, List.append_nil]⟩
  · exact ⟨_, hcancel⟩
  · exact ⟨_, hwrite⟩

/-- A step of the client leaves the worker's lines to the worker. -/
theorem client_stdout {c c' : WorkerIO.State} {l : WorkerIO.Label} (h : Step c l c')
    (hl : byWorker l = false) : c'.stdout = c.stdout := by
  cases h with
  | emit => cases hl
  | _ => rfl

theorem Matched.client_step (h : Matched V keeps concurrency s) {l : WorkerIO.Label}
    {c : WorkerIO.State} (hl : byWorker l = false)
    (hok : (distinct s.client l && routable l && attends s.client l) = true)
    (hs : (multiplexer concurrency).step s.client l = some c) :
    Matched V keeps concurrency { s with client := c } := by
  simp only [Bool.and_eq_true] at hok
  have hstep := step_cases hs
  obtain ⟨lines, hlines⟩ := client_stdin hstep
  have htake : c.stdin.take s.received = s.client.stdin.take s.received := by
    rw [hlines, List.take_append_of_le_length h.received]
  exact {
    client := h.client.step (guard_step.mpr ⟨hok.2, guard_step.mpr ⟨hok.1.2,
      guard_step.mpr ⟨hok.1.1, hs⟩⟩⟩)
    worker := h.worker
    pipe := (client_stdout hstep hl).trans h.pipe
    received := by
      change s.received ≤ c.stdin.length
      rw [hlines, List.length_append]
      exact Nat.le_add_right_of_le h.received
    placed := by
      change (V.placed s.worker).Subperm (sentIds (c.stdin.take s.received))
      exact htake ▸ h.placed
    ends := by
      change ∀ e ∈ V.out s.worker, isTerminal e = true →
        ∃ id ∈ sentIds (c.stdin.take s.received), key e = some id
      exact htake ▸ h.ends
    unsaturated := h.unsaturated }

/-- When the places are given back in time, the worker has one left for the
request it is about to read. -/
theorem Matched.room (h : Matched V keeps concurrency s) {item : Json} {id : String}
    (hitem : s.client.stdin[s.received]? = some item) (hid : requestId? item = some id)
    (hroom : s.lingering ≤ V.capacity - (max 1 concurrency).toNat)
    (hC : (max 1 concurrency).toNat ≤ V.capacity) :
    (V.placed s.worker).length < V.capacity := by
  have hsent := ((credited_invariant concurrency).of_reachable h.client).2.sent
  have hnext : sentIds (s.client.stdin.take (s.received + 1)) =
      sentIds (s.client.stdin.take s.received) ++ [id] := by
    rw [sentIds_take hitem, hid, Option.toList_some]
  have hsub {n : Nat} : (sentIds (s.client.stdin.take n)).Sublist (sentIds s.client.stdin) :=
    (List.take_sublist n _).filterMap requestId?
  have hnodup : (sentIds (s.client.stdin.take s.received) ++ [id]).Nodup :=
    hnext ▸ hsent.distinct.sublist hsub
  have hnew : id ∉ sentIds (s.client.stdin.take s.received) := by
    intro hmem
    exact List.disjoint_of_nodup_append hnodup hmem (List.mem_singleton_self id)
  -- The requests in place that have not ended, with the one to be read, are open.
  let going := (V.placed s.worker).filter fun id => !V.ended s.worker id
  have hgoing : ∀ id' ∈ going, id' ∈ sentIds (s.client.stdin.take s.received) := by
    intro id' hmem
    exact h.placed.subset (List.mem_filter.mp hmem).1
  have hplaced : (V.placed s.worker).Nodup := by
    obtain ⟨ids, hperm, hsub⟩ := h.placed
    exact hperm.nodup_iff.mp (hnodup.of_append_left.sublist hsub)
  have hle : (id :: going).length ≤ (max 1 concurrency).toNat := by
    apply open_length_le h.client
    · exact List.nodup_cons.mpr ⟨fun hmem => hnew (hgoing id hmem), hplaced.filter _⟩
    · intro id' hmem
      rcases List.mem_cons.mp hmem with rfl | hmem
      · exact hsub.subset (hnext ▸ List.mem_append_right _ (List.mem_singleton_self _))
      · exact hsub.subset (hgoing id' hmem)
    · intro id' hmem e he hends
      have hout : e ∈ V.out s.worker := by simpa [h.pipe] using he
      rcases List.mem_cons.mp hmem with rfl | hmem
      · obtain ⟨id'', hid'', hkey⟩ := h.ends e hout hends.1
        obtain rfl : id'' = id' := Option.some.inj (hkey.symm.trans hends.2)
        exact hnew hid''
      · have hopen : V.ended s.worker id' = false := by simpa using (List.mem_filter.mp hmem).2
        have hended : V.ended s.worker id' = true :=
          List.any_eq_true.mpr ⟨e, hout, by simpa using hends⟩
        cases hopen.symm.trans hended
  have hsplit : (V.placed s.worker).length = s.lingering + going.length := by
    rw [List.length_eq_length_filter_add (V.ended s.worker), Link.lingering,
      List.countP_eq_length_filter]
  simp only [List.length_cons] at hle
  omega

theorem matched_invariant (hV : V.Lawful keeps) (hC : (max 1 concurrency).toNat ≤ V.capacity) :
    (roomySystem V concurrency).Invariant (Matched V keeps concurrency) where
  start := {
    client := .start
    worker := hV.start
    pipe := by
      change [] = (V.out V.system.start).map some
      rw [hV.out_start, List.map_nil]
    received := Nat.zero_le _
    placed := hV.placed_start ▸ List.nil_subperm
    ends := hV.out_start ▸ nofun
    unsaturated := hV.out_start ▸ nofun }
  step {s l t} h hs := by
    obtain ⟨hroom, hs⟩ := guard_step.mp hs
    obtain ⟨hok, hs⟩ := guard_step.mp hs
    cases l with
    | client l =>
        simp only [linked] at hs
        split at hs
        · cases hs
        · rename_i hl
          obtain ⟨c, hc, rfl⟩ := Option.map_eq_some_iff.mp hs
          exact h.client_step (by simpa using hl) hok hc
    | worker l =>
        simp only [linked] at hs
        split at hs
        · rename_i hl
          obtain ⟨w', hw, rfl⟩ := Option.map_eq_some_iff.mp hs
          obtain ⟨hkeeps, hm⟩ := hV.own h.worker hl hw
          exact h.advance hm hkeeps h.received (List.append_nil _).symm
        · cases hs
    | deliver =>
        obtain ⟨item, hitem, hs⟩ := Option.bind_eq_some_iff.mp hs
        obtain ⟨w', hw, rfl⟩ := Option.map_eq_some_iff.mp hs
        have hsent := ((credited_invariant concurrency).of_reachable h.client).2.sent
        obtain ⟨id, hid, hne⟩ := hsent.named item (List.mem_of_getElem? hitem)
        have hfree : requestId? item ≠ none → (V.placed s.worker).length < V.capacity := by
          intro hsome
          obtain ⟨id', hid'⟩ := Option.ne_none_iff_exists'.mp hsome
          refine h.room hitem hid' ?_ hC
          simpa [leavesRoom, hitem, hid'] using hroom
        obtain ⟨hkeeps, hm⟩ := hV.line h.worker hid hne hfree hw
        exact h.advance hm hkeeps (lt_of_getElem? hitem) (sentIds_take hitem)

/-- While the places are given back in time, a lawful worker with a place for
each permit refuses no request of its only client. -/
theorem unsaturated_of_lawful (hV : V.Lawful keeps) (hpos : 0 < V.capacity)
    (hC : concurrency ≤ V.capacity) (h : (roomySystem V concurrency).Reachable s) :
    ∀ e ∈ V.out s.worker, saturated e = false := by
  have hpermits : (max 1 concurrency).toNat ≤ V.capacity := by omega
  exact ((matched_invariant hV hpermits).of_reachable h).unsaturated

end Matched

end JetsonVoice.Composition
