import JetsonVoice.WorkerIO.Steps

/-!
# Who wakes a waiting request

A request at `q.get` is woken by an item that ends it: the sentinel or the
worker's terminal event. The item is on its queue, or the reader is about to put
it there, or a call of `close` is, or its queue is in the map and the reader has
not left yet and will either feed it or leave it the sentinel.

The reader does not set `_closed` when it leaves, so a request that registers
afterwards and can still write its line waits for nobody. And the map has one
entry for an id, so a request can lose its entry to another one with its id.
-/

namespace JetsonVoice.WorkerIO

open Foundation TransitionSystem

/-- The item ends the request that takes it. -/
def Item.wakes (item : Item) : Bool := name item.event = some "_worker_exit" || last item.event

section Sources
variable (s : State) (i : Nat) (r : Request)

/-- An item that ends the request is on its queue or about to be put there. -/
def Answered : Prop :=
  ∃ item : Item, item.wakes = true ∧ (item ∈ r.unread ∨ s.reader = .putting i item)

/-- A call of `close` has yet to put the sentinel on the queue. -/
def Targeted : Prop :=
  ∃ (k : Nat) (targets : List Nat), s.closers[k]? = some (.waking targets) ∧ i ∈ targets

/-- The reader will find the queue in the map, at the latest when it leaves. -/
def Listed : Prop := s.reader ≠ .stopped ∧ s.inflight.lookup r.id = some i

/-- Somebody feeds the queue, or has put an item on it that ends the request. -/
def Fed : Prop := Answered s i r ∨ Targeted s i ∨ Listed s i r

/-- `Answered`, evaluated. -/
def answered : Bool :=
  (r.unread ++ match s.reader with
    | .putting j item => if j = i then [item] else []
    | _ => []).any Item.wakes

end Sources

/-- The step strands a request: one writes its line after the reader has left
without a sentinel for it, or one takes the map's entry for its id from another
one that is still to be answered. -/
def strands (s : State) : Label → Bool
  | .task i ok =>
      match s.requests[i]? with
      | none => false
      | some r =>
          match r.phase with
          | .writing => ok && !s.closed && s.reader = .stopped && !answered s i r
          | .registering | .unwriting _ | .popping _ =>
              match s.inflight.lookup r.id with
              | none => false
              | some j => j ≠ i &&
                  s.requests[j]?.any fun o => o.phase.listening && !answered s j o
          | _ => false
  | _ => false

/-- The runs in which no request is stranded by another one or by a reader that
has left. -/
def fedSystem (concurrency : Int) : TransitionSystem State Label :=
  (multiplexer concurrency).guard fun s l => strands s l = false

section Answered
variable {s t : State} {l : Label} {i j : Nat} {r r' : Request}

theorem answered_of (h : answered s i r = true) : Answered s i r := by
  obtain ⟨item, hmem, hw⟩ := List.any_eq_true.mp h
  rcases List.mem_append.mp hmem with hq | hp
  · exact ⟨item, hw, .inl hq⟩
  · split at hp
    · rename_i j item' hreader
      split at hp
      · rename_i hij
        obtain rfl := List.mem_singleton.mp hp
        exact ⟨item, hw, .inr (hij ▸ hreader)⟩
      · cases hp
    · cases hp

theorem mem_unread_feed {item : Item} (items : List Item) (h : item ∈ r.unread) :
    item ∈ (r.feed items).unread := by
  rw [Request.unread, Request.feed, List.drop_append]
  exact List.mem_append_left _ h

theorem mem_unread_fed {item : Item} {items : List Item} (hle : r.taken ≤ r.inbox.length)
    (h : item ∈ items) : item ∈ (r.feed items).unread := by
  rw [Request.unread, Request.feed, List.drop_append_of_le_length hle]
  exact List.mem_append_right _ h

/-- Taking an item that does not end the request leaves the others unread. -/
theorem mem_unread_take {item item' : Item} {p : Phase} (hq : r.inbox[r.taken]? = some item')
    (h : item ∈ r.unread) (hne : item ≠ item') :
    item ∈ ({ r with taken := r.taken + 1, phase := p } : Request).unread := by
  obtain ⟨hlt, rfl⟩ := List.getElem?_eq_some_iff.mp hq
  rw [Request.unread, List.drop_eq_getElem_cons hlt] at h
  exact (List.mem_cons.mp h).resolve_left hne

/-- What is on the queue of a request that still listens stays there until it
ends the request. -/
theorem Move.unread {item : Item} (h : Move s l i r r') (hp : r'.phase.listening = true)
    (hw : item.wakes = true) (hmem : item ∈ r.unread) : item ∈ r'.unread := by
  cases h with
  | feed items => exact mem_unread_feed items hmem
  | exit => cases hp
  | @take item' _ hq he =>
      refine mem_unread_take hq hmem fun heq => ?_
      subst heq
      simp only [Item.wakes, he, Phase.listening, Phase.waiting, Bool.or_eq_true,
        decide_eq_true_eq, Bool.not_eq_true', false_or, reduceCtorEq] at hw hp
      rw [hw] at hp
      cases hp
  | _ => exact hmem

theorem put_self {item : Item} (hr : s.requests[j]? = some r)
    (hj : (put s.requests j item)[j]? = some r') : r' = r.feed [item] := by
  rw [getElem?_put, hr] at hj
  simpa using hj.symm

/-- An answer stays until the request takes it. -/
theorem Answered.step (ha : Answered s j r) (h : Step s l t) (hr : s.requests[j]? = some r)
    (hj : t.requests[j]? = some r') (hm : Move s l j r r') (hle : r.taken ≤ r.inbox.length)
    (hp : r'.phase.listening = true) : Answered t j r' := by
  obtain ⟨item, hw, hq | hput⟩ := ha
  · exact ⟨item, hw, .inl (hm.unread hp hw hq)⟩
  · cases h with
    | put hreader =>
        cases hput.symm.trans hreader
        rw [put_self hr hj]
        exact ⟨item, hw, .inl (mem_unread_fed hle (List.mem_singleton_self _))⟩
    | skip hreader | crash hreader | route hreader | eof hreader | fault hreader
    | broadcast hreader => cases hput.symm.trans hreader
    | _ => exact ⟨item, hw, .inr hput⟩

/-- A call of `close` gets to every queue it has taken out of the map. -/
theorem Targeted.step (ht : Targeted s j) (h : Step s l t) (hr : s.requests[j]? = some r)
    (hj : t.requests[j]? = some r') (hle : r.taken ≤ r.inbox.length) :
    Targeted t j ∨ Answered t j r' := by
  obtain ⟨k, targets, hk, hmem⟩ := ht
  cases h with
  | close =>
      refine .inl ⟨k, targets, ?_, hmem⟩
      rw [List.getElem?_append_left (lt_of_getElem? hk)]
      exact hk
  | shut hk' | drain hk' =>
      refine .inl ⟨k, targets, ?_, hmem⟩
      rw [getElem?_set_other fun heq => ?_]
      · exact hk
      · subst heq
        cases hk.symm.trans hk'
  | @wake k' i targets' hk' =>
      by_cases heq : k = k'
      · subst heq
        cases hk.symm.trans hk'
        rcases List.mem_cons.mp hmem with rfl | hmem'
        · rw [put_self hr hj]
          exact .inr ⟨.sentinel, rfl, .inl (mem_unread_fed hle (List.mem_singleton_self _))⟩
        · exact .inl ⟨k, targets', getElem?_set_same hk, hmem'⟩
      · refine .inl ⟨k, targets, ?_, hmem⟩
        rw [getElem?_set_other heq]
        exact hk
  | _ => exact .inl ⟨k, targets, hk, hmem⟩

theorem mem_queues {inflight : Table String Nat} {id : String}
    (h : inflight.lookup id = some i) : i ∈ queues inflight :=
  List.mem_map_of_mem (AList.mem_lookup_iff.mp h)

/-- The entry a step takes from another request that listens belongs to one
that has been answered. -/
theorem answered_of_displaced {ok : Bool} {o : Request} (hok : strands s (.task i ok) = false)
    (hi : s.requests[i]? = some r)
    (hp : r.phase = .registering ∨ ∃ p, Pops r p)
    (hl : s.inflight.lookup r.id = some j) (hij : j ≠ i) (ho : s.requests[j]? = some o)
    (hlisten : o.phase.listening = true) : Answered s j o := by
  have hguard : (j ≠ i && (s.requests[j]?).any fun o => o.phase.listening && !answered s j o)
      = false := by
    rcases hp with hp | ⟨p, ⟨hp⟩ | ⟨hp⟩⟩ <;> simpa only [strands, hi, hp, hl] using hok
  apply answered_of
  simpa [ho, hij, hlisten] using hguard

/-- A listed request stays fed, whatever takes its entry out of the map. -/
theorem Listed.step (hlst : Listed s j r) (h : Step s l t) (hok : strands s l = false)
    (hr : s.requests[j]? = some r) (hj : t.requests[j]? = some r') (hm : Move s l j r r')
    (hle : r.taken ≤ r.inbox.length) (hp : r.phase.listening = true)
    (hp' : r'.phase.listening = true) : Fed t j r' := by
  obtain ⟨hreader, hentry⟩ := hlst
  have hid := hm.id
  cases h with
  | broadcast =>
      rw [getElem?_wakeAll, hr] at hj
      obtain rfl : r.feed _ = r' := Option.some.inj hj
      have hcount : 0 < (queues s.inflight).count j := List.count_pos_iff.mpr (mem_queues hentry)
      exact .inl ⟨.sentinel, rfl, .inl (mem_unread_fed hle
        (List.mem_replicate.mpr ⟨hcount.ne', rfl⟩))⟩
  | drain hk => exact .inr (.inl ⟨_, _, getElem?_set_same hk, mem_queues hentry⟩)
  | @register i o ok hi hreg =>
      by_cases hij : j = i
      · subst hij
        cases hr.symm.trans hi
        simp [hreg, Phase.listening, Phase.waiting] at hp
      · by_cases hkey : r.id = o.id
        · exact .inl ((answered_of_displaced hok hi (.inl hreg) (hkey ▸ hentry) hij hr hp).step
            (.register hi hreg) hr hj hm hle hp')
        · refine .inr (.inr ⟨hreader, ?_⟩)
          rw [hid]
          exact (AList.lookup_insert_ne hkey).trans hentry
  | @pop i o p ok hi hf =>
      by_cases hij : j = i
      · subst hij
        cases hr.symm.trans hi
        cases hf with
        | unwrite hp'' | cleanUp hp'' => simp [hp'', Phase.listening, Phase.waiting] at hp
      · by_cases hkey : r.id = o.id
        · exact .inl ((answered_of_displaced hok hi (.inr ⟨p, hf⟩) (hkey ▸ hentry) hij hr hp).step
            (.pop hi hf) hr hj hm hle hp')
        · refine .inr (.inr ⟨hreader, ?_⟩)
          rw [hid]
          exact (AList.lookup_erase_ne hkey).trans hentry
  | crash | route | eof | fault | put => exact .inr (.inr ⟨by simp, hid ▸ hentry⟩)
  | _ => exact .inr (.inr ⟨hreader, hid ▸ hentry⟩)

end Answered

section Invariant
variable {s t : State} {l : Label} {concurrency : Int}

/-- No request has taken more than was put on its queue. -/
theorem taken_invariant (concurrency : Int) :
    (multiplexer concurrency).Invariant fun s => ∀ r ∈ s.requests, r.taken ≤ r.inbox.length where
  start := nofun
  step {s l t} h hs := by
    intro r' hr'
    obtain ⟨j, hj⟩ := List.mem_iff_getElem?.mp hr'
    rcases (step_cases hs).move hj with ⟨r, hi, hm⟩ | ⟨-, sync, id, payload, rfl⟩
    · have hle := h r (List.mem_of_getElem? hi)
      cases hm with
      | feed items =>
          simp only [Request.feed, List.length_append]
          omega
      | exit _ hq _ | take _ hq _ => exact lt_of_getElem? hq
      | _ => exact hle
    · exact Nat.zero_le _

/-- Every request that listens is fed, but one may be about to write its line
after the reader has left. -/
def Woken (s : State) : Prop :=
  ∀ i r, s.requests[i]? = some r → r.phase.listening = true →
    Fed s i r ∨ (r.phase = .writing ∧ s.reader = .stopped)

/-- A registration finds the reader at work, or comes after it has left. -/
theorem woken_of_register {i : Nat} {r r' : Request}
    (hs : (multiplexer concurrency).step s l = some t) (hr : s.requests[i]? = some r)
    (hm : Move s l i r r') (hp : r.phase = .registering)
    (hp' : r'.phase.listening = true) :
    Fed t i r' ∨ (r'.phase = .writing ∧ t.reader = .stopped) := by
  obtain ⟨⟨ok, rfl⟩, rfl⟩ := hm.registers hp hp'
  obtain rfl := register_step hs hr hp
  by_cases hreader : s.reader = .stopped
  · exact .inr ⟨rfl, hreader⟩
  · exact .inl (.inr (.inr ⟨hreader, AList.lookup_insert _⟩))

/-- A request that writes its line after the reader has left has its sentinel. -/
theorem woken_of_write {i : Nat} {r r' : Request} (h : Step s l t) (hok : strands s l = false)
    (hr : s.requests[i]? = some r) (hj : t.requests[i]? = some r') (hm : Move s l i r r')
    (hle : r.taken ≤ r.inbox.length) (hp : r.phase = .writing) (hstop : s.reader = .stopped)
    (hp' : r'.phase.listening = true) :
    Fed t i r' ∨ (r'.phase = .writing ∧ t.reader = .stopped) := by
  have hm' := hm
  cases hm with
  | feed => exact .inr ⟨hp, h.stopped hstop⟩
  | write _ hc hl =>
      subst hl
      have ha : answered s i r = true := by simpa [strands, hr, hp, hc, hstop] using hok
      exact .inl (.inl ((answered_of ha).step h hr hj hm' hle hp'))
  | shift hs =>
      cases hs with
      | unwind =>
          rw [Request.moveTo, WorkerIO.unwind] at hp'
          cases hsync : r.sync <;> simp [hsync, Phase.listening, Phase.waiting] at hp'
      | _ => simp_all
  | release hf => cases hf <;> simp_all
  | pop hf => cases hf <;> simp_all
  | grant h | grantLate h | register h | exit h | take h | cancelled h => cases hp.symm.trans h

theorem woken_invariant (concurrency : Int) :
    (fedSystem concurrency).Invariant fun s =>
      (∀ r ∈ s.requests, r.taken ≤ r.inbox.length) ∧ Woken s := by
  refine (taken_invariant concurrency).guard.relative nofun ?_
  intro s l t hle hw hs j r' hj hp'
  obtain ⟨hok, hstep⟩ := guard_step.mp hs
  have h := step_cases hstep
  rcases h.move hj with ⟨r, hr, hm⟩ | ⟨-, sync, id, payload, rfl⟩
  · have hbound := hle r (List.mem_of_getElem? hr)
    rcases hm.listening hp' with hp | hp
    · rcases hw j r hr hp with (ha | ht | hl) | ⟨hwriting, hstopped⟩
      · exact .inl (.inl (ha.step h hr hj hm hbound hp'))
      · rcases ht.step h hr hj hbound with ht' | ha'
        · exact .inl (.inr (.inl ht'))
        · exact .inl (.inl ha')
      · exact .inl (hl.step h hok hr hj hm hbound hp hp')
      · exact woken_of_write h hok hr hj hm hbound hwriting hstopped hp'
    · exact woken_of_register hstep hr hm hp hp'
  · cases sync <;> cases hp'

end Invariant

section Delivery
variable {s : State} {i : Nat} {r : Request} {concurrency : Int}

/-- The request is about to end through an event it has received. -/
def EndsAt (concurrency : Int) (s : State) (i : Nat) : Prop :=
  ∃ t r', (multiplexer concurrency).Leads s t ∧ t.requests[i]? = some r' ∧
    (r'.phase = .popping .returned ∨ r'.phase = .popping .workerExit)

theorem EndsAt.after {t : State} {l : Label} (hs : (multiplexer concurrency).step s l = some t)
    (h : EndsAt concurrency t i) : EndsAt concurrency s i := by
  obtain ⟨u, r', hl, hu⟩ := h
  exact ⟨u, r', hl.head hs, hu⟩

/-- The step in which a consumer asks for the next event. -/
theorem proceed_step {e : Json} (hr : s.requests[i]? = some r) (hp : r.phase = .yielded e)
    (he : last e = false) :
    (multiplexer concurrency).step s (.task i true) = some (s.set i (r.moveTo .awaiting)) := by
  simp [multiplexer, hr, taskStep, hp, he]

/-- The step in which a request takes an event off its queue. -/
theorem take_step (concurrency : Int) {item : Item} (hr : s.requests[i]? = some r) (hp : r.phase = .awaiting)
    (hq : r.inbox[r.taken]? = some item) :
    (multiplexer concurrency).step s (.task i true) = some (s.set i { r with
      taken := r.taken + 1
      phase :=
        if name item.event = some "_worker_exit" then .popping .workerExit
        else .yielded item.event }) := by
  simp [multiplexer, hr, taskStep, hp, hq]

/-- By induction on what is still on the queue: the request takes the first
item, and either it ends there or the item that ends it is still on the queue. -/
theorem ends_from_await {item : Item} (hr : s.requests[i]? = some r) (hp : r.phase = .awaiting)
    (hmem : item ∈ r.unread) (hw : item.wakes = true) : EndsAt concurrency s i := by
  induction hn : r.unread.length generalizing s r with
  | zero =>
      rw [List.length_eq_zero_iff.mp hn] at hmem
      cases hmem
  | succ n ih =>
      have hlt : r.taken < r.inbox.length := by
        rw [Request.unread, List.length_drop] at hn
        omega
      have hq : r.inbox[r.taken]? = some r.inbox[r.taken] := List.getElem?_eq_getElem hlt
      have htake := take_step concurrency hr hp hq
      generalize r.inbox[r.taken] = first at hq htake
      refine EndsAt.after htake ?_
      by_cases hexit : name first.event = some "_worker_exit"
      · exact ⟨_, _, .refl, getElem?_set_same hr, .inr (if_pos hexit)⟩
      · rw [if_neg hexit]
        cases hlast : last first.event with
        | true =>
            refine EndsAt.after (l := .task i true) (t := s.set i { r with
              taken := r.taken + 1, phase := .popping .returned }) ?_
              ⟨_, _, .refl, getElem?_set_same hr, .inl rfl⟩
            simp [multiplexer, State.set, getElem?_set_same hr, taskStep, hlast, Request.moveTo]
        | false =>
            refine EndsAt.after (proceed_step (getElem?_set_same hr) rfl hlast) ?_
            have hne : item ≠ first := by
              rintro rfl
              simp [Item.wakes, hexit, hlast] at hw
            refine ih (getElem?_set_same (getElem?_set_same hr)) rfl
              (mem_unread_take hq hmem hne) ?_
            simp only [Request.unread, Request.moveTo, List.length_drop] at hn ⊢
            omega

/-- A request whose queue holds an item that ends it gets there by its own steps. -/
theorem ends_by_itself {item : Item} (hr : s.requests[i]? = some r) (hp : r.phase.waiting = true)
    (hmem : item ∈ r.unread) (hw : item.wakes = true) : EndsAt concurrency s i := by
  cases hphase : r.phase with
  | awaiting => exact ends_from_await hr hphase hmem hw
  | yielded e =>
      have he : last e = false := by simpa [hphase, Phase.waiting] using hp
      exact EndsAt.after (proceed_step hr hphase he)
        (ends_from_await (getElem?_set_same hr) rfl hmem hw)
  | _ => simp [hphase, Phase.waiting] at hp

theorem not_fed (hq : r.unread = []) (hreader : ∀ item, s.reader ≠ .putting i item)
    (hc : s.closers = []) (hl : s.reader = .stopped ∨ s.inflight.lookup r.id ≠ some i) :
    ¬ Fed s i r := by
  rintro (⟨item, -, hmem | hput⟩ | ⟨k, targets, hk, -⟩ | ⟨hrun, hentry⟩)
  · rw [hq] at hmem
    cases hmem
  · exact hreader item hput
  · rw [hc] at hk
    cases hk
  · exact hl.elim hrun fun h => h hentry

end Delivery

section Runs

/-- A request waits; the worker closes its stdout and the reader leaves. -/
def hangUpRun : List Label :=
  [.sendRequest "a" (.obj [])] ++ begin 0 ++ [.hangUp, .reader, .reader]

/-- A line that is JSON but not an object stops the reader; then a request comes. -/
def crashRun : List Label :=
  [.emit (some (.int 42)), .reader, .reader, .sendRequest "a" (.obj [])] ++ begin 0

/-- Two requests with one id; the second one ends first. -/
def displacedRun : List Label :=
  [.sendRequest "a" (.obj []), .sendRequest "a" (.obj [])] ++ begin 0 ++ begin 1 ++ complete 1 "a"

end Runs

end JetsonVoice.WorkerIO
