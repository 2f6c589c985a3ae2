import Mathlib.Order.Filter.Finite
import JetsonVoice.Foundation.Liveness
import JetsonVoice.Tts.Cancellation
import JetsonVoice.Tts.Qwen3Terminal
import JetsonVoice.Tts.SlotWait
import JetsonVoice.Tts.SparkProgress

/-!
# The shutdown at the end of the input

At the end of stdin the main thread sets the shutdown flag of every slot and
notifies its thread, then joins the threads. A thread that leaves has brought
every request put on its queue to a terminal event. But the flag is written and
notified without the mutex of the queue, so both can fall between a thread's test
of its predicate and its block. The notification is lost then, and the two
threads wait for each other. A shutdown without such a notification ends.
-/

namespace JetsonVoice.Tts

open Foundation Protocol TransitionSystem Filter

/-- The last event of a request is a terminal one. -/
def Concluded (log : List Json) : Prop :=
  ∃ before last, log = before ++ [last] ∧ isTerminal last = true

/-- A relation between an engine's state and the log of its request that makes the
engine end with a terminal event and lets it go on until then. -/
structure Engine.Concludes (E : Engine) (Good : Bool → E.State → List Json → Prop) : Prop where
  law : LogLaw E Good
  last : ∀ {noted state log}, E.finished state = true → Good noted state log → Concluded log
  enabled : ∀ {noted state log}, E.finished state = false → Good noted state log →
    ∀ item id cancelled, ∃ input next action,
      E.step item id cancelled input state = some (next, action)

theorem Qwen3.concludes (c : Qwen3.Config) :
    (Qwen3.engine c).Concludes fun noted st log =>
      Qwen3.Ledger noted st log ∧ Qwen3.Sane st where
  law := (Qwen3.ledger_law c).and (Qwen3.sane_law c)
  last hf hg := by
    obtain ⟨before, last, heq, hlast, -⟩ := hg.1.closed (of_decide_eq_true hf)
    exact ⟨before, last, heq, hlast⟩
  enabled hf hg item id cancelled :=
    Qwen3.enabled hg.2 (of_decide_eq_false hf) item id cancelled

theorem Spark.concludes (c : Spark.Config) :
    (Spark.engine c).Concludes fun _ st log => Spark.Sane st ∧
      (st.control = .finished → Concluded log) where
  law := Spark.sane_law c
  last hf hg := hg.2 (of_decide_eq_true hf)
  enabled hf hg item id cancelled :=
    Spark.enabled hg.1 (of_decide_eq_false hf) item id cancelled

theorem Synthesizer.concludes (v : Synthesizer) : ∃ Good, v.engine.Concludes Good := by
  cases v with
  | qwen3 c => exact ⟨_, Qwen3.concludes c⟩
  | spark c => exact ⟨_, Spark.concludes c⟩

variable {E : Engine} {Good : Bool → E.State → List Json → Prop} {maxSlots : Nat}

/-- A request is about to be put on the queue of slot `i`, or has been, and no
other slot has it. -/
structure BoundFor (w : Worker E) (i t : Nat) : Prop where
  put : (∃ id work, w.main = .enqueue id i work ∧ work.token = t) ∨ t ∈ w.accepted
  issued : t < w.nextToken
  only : ∀ {j work}, work ∈ w.requests j → work.token = t → j = i

section Drain
variable {w w' : Worker E} {l : Label E} {i t : Nat}

theorem BoundFor.of_enqueue (hw : Housed w) {id : String} {work : Work}
    (hm : w.main = .enqueue id i work) : BoundFor w i work.token := by
  have hmem : work ∈ w.requests i :=
    List.mem_append_right _ (by simp [Main.claimOn, Main.claim?, hm])
  exact ⟨.inl ⟨id, work, hm, rfl⟩, hw.issued hmem,
    fun hj heq => hw.distinct hj hmem heq⟩

theorem Step.put (h : Step w l w')
    (hp : (∃ id work, w.main = .enqueue id i work ∧ work.token = t) ∨ t ∈ w.accepted) :
    (∃ id work, w'.main = .enqueue id i work ∧ work.token = t) ∨ t ∈ w'.accepted := by
  rcases hp with ⟨id, work, hm, rfl⟩ | ht
  · cases h with
    | answer hm' | miss hm' | trip hm' | saturated hm' | claim hm' | eof hm' | ack hm'
    | reject hm' | bind hm' | shutdown hm' | stopped hm' | join hm' => cases hm.symm.trans hm'
    | enqueue hm' _ =>
        cases hm.symm.trans hm'
        exact .inr (List.mem_append_right _ List.mem_cons_self)
    | engine => exact .inl ⟨id, work, by simpa using hm, rfl⟩
    | _ => exact .inl ⟨id, work, hm, rfl⟩
  · refine .inr ?_
    cases h with
    | enqueue => exact List.mem_append_left _ ht
    | @engine _ _ _ _ _ _ _ action => cases action <;> exact ht
    | _ => exact ht

theorem BoundFor.step (hb : BoundFor w i t) (h : Step w l w') : BoundFor w' i t := by
  have hput := h.put hb.put
  cases h.requests with
  | keep hr _ ht _ =>
      exact ⟨hput, ht ▸ hb.issued, fun hj heq => hb.only (hr _ ▸ hj) heq⟩
  | claim _ _ _ _ hr _ ht _ =>
      refine ⟨hput, ht ▸ Nat.lt_succ_of_lt hb.issued, fun {j work} hj heq => ?_⟩
      rw [hr, List.mem_append] at hj
      rcases hj with hj | hj
      · exact hb.only hj heq
      · split at hj
        · obtain rfl := List.mem_singleton.mp hj
          exact absurd heq.symm (Nat.ne_of_lt hb.issued)
        · cases hj
  | @release k _ _ _ _ _ hr hother _ ht _ =>
      refine ⟨hput, ht ▸ hb.issued, fun {j work} hj heq => ?_⟩
      by_cases hjk : j = k
      · subst hjk
        exact hb.only (hr ▸ List.mem_cons_of_mem _ hj) heq
      · exact hb.only (hother j hjk ▸ hj) heq

/-- When the thread of a slot has left, every request that was about to be put on
its queue has come to its terminal event. -/
theorem concluded_of_exited (hE : E.Concludes Good) (hr : (slotSystem E maxSlots).Reachable w)
    {id : String} {work : Work} (hm : w.main = .enqueue id i work)
    (hl : (slotSystem E maxSlots).Leads w w') {slot : Slot E} (hi : w'.slots[i]? = some slot)
    (hx : slot.thread = .exited) : Concluded (eventsOf w'.out work.token) := by
  have hr' := hr.leads hl
  have hbound := BoundFor.of_enqueue ((housed_invariant E maxSlots).of_reachable hr) hm
  have hb : BoundFor w' i work.token :=
    hl.preserves (I := fun u => BoundFor u i work.token) hbound
      fun hb hs => hb.step (step_cases hs)
  have ha := (attended_invariant E maxSlots).of_reachable hr'
  obtain ⟨hstop, hqueue⟩ := ha.exited hi hx
  have hacc : work.token ∈ w'.accepted := by
    rcases hb.put with ⟨id', work', hm', -⟩ | hacc
    · have hgo := ha.accepting (by rw [hm']; rfl) hi
      rw [hstop] at hgo
      cases hgo
    · exact hacc
  obtain ⟨state, hfin, hgood⟩ := closed_log hE.law hr' hacc fun other ho heq => by
    obtain ⟨j, slot', hj, hmem, hreq⟩ := Worker.slot_of_inFlight ho
    obtain rfl := hb.only hreq heq
    cases hj.symm.trans hi
    simp [hx, hqueue, SlotThread.unfinished] at hmem
  exact hE.last hfin hgood

end Drain

/-- The step gives no notification of a shutdown to a thread between its test of
the predicate and its block. -/
def timely (s : Waiting E) : WaitLabel E → Bool
  | .act .main =>
      match s.notice with
      | some i => s.worker.main.accepting || decide (s.wait i ≠ .parking)
      | none => true
  | _ => true

/-- The runs in which every notification of a shutdown is timely. -/
def timelySystem (E : Engine) (maxSlots : Nat) : TransitionSystem (Waiting E) (WaitLabel E) :=
  (waitSystem E maxSlots).guard fun s l => timely s l = true

/-- A thread that is told to shut down and has been notified does not block. -/
def Roused (s : Waiting E) : Prop :=
  ∀ i slot, s.worker.slots[i]? = some slot → slot.shutdown = true → s.notice ≠ some i →
    s.wait i ≠ .parking ∧ s.wait i ≠ .blocked

/-- The thread of slot `i` has nothing left to do and is told to shut down, but it
blocks or is about to, with no notification to come. -/
def Missed (s : Waiting E) (i : Nat) : Prop :=
  ∃ slot, s.worker.slots[i]? = some slot ∧ slot.thread = .waiting ∧ slot.shutdown = true ∧
    slot.queue = [] ∧ (s.wait i = .parking ∨ s.wait i = .blocked) ∧ s.notice ≠ some i

/-- The main thread is in its joins, and the thread of slot `i` is blocked with its
flag set, its queue empty and no notification to come. -/
structure Stranded (s : Waiting E) (i : Nat) : Prop where
  joining : s.worker.main = .joining
  slot : ∃ slot, s.worker.slots[i]? = some slot ∧ slot.thread = .waiting ∧
    slot.shutdown = true ∧ slot.queue = []
  blocked : s.wait i = .blocked
  silent : s.notice ≠ some i

theorem Stranded.missed {s : Waiting E} {i : Nat} (h : Stranded s i) : Missed s i := by
  obtain ⟨slot, hi, ht, hs, hq⟩ := h.slot
  exact ⟨slot, hi, ht, hs, hq, .inr h.blocked, h.silent⟩

theorem Roused.not_missed {s : Waiting E} (h : Roused s) (i : Nat) : ¬ Missed s i := by
  rintro ⟨slot, hi, -, hs, -, hw, hn⟩
  obtain ⟨hpark, hblock⟩ := h i slot hi hs hn
  exact hw.elim hpark hblock

theorem past_of_accepting {m : Main} (h : m.accepting = true) (i : Nat) : m.past i = false := by
  cases m with
  | stopping | joining | joined => cases h
  | _ => rfl

section Roused
variable {s t : Waiting E} {l : WaitLabel E}

theorem signalled_worker (hr : (waitSystem E maxSlots).Reachable s) : Signalled s.worker :=
  (signalled_invariant E maxSlots).of_reachable ((wait_simulation E maxSlots).reachable hr)

theorem seated_worker (hr : (waitSystem E maxSlots).Reachable s) : Seated s :=
  (seated_invariant E maxSlots).of_reachable hr

/-- A timely notification leaves its thread neither blocked nor about to block. -/
theorem notify_rouses (hf : Signalled s.worker) {i : Nat} {slot : Slot E} (hn : s.notice = some i)
    (ok : timely s (.act .main) = true) (hi : s.worker.slots[i]? = some slot)
    (hs : slot.shutdown = true) :
    (s.notify i).wait i ≠ .parking ∧ (s.notify i).wait i ≠ .blocked := by
  refine ⟨?_, notify_wait_ne s i⟩
  simp only [timely, hn, Bool.or_eq_true, decide_eq_true_eq] at ok
  rcases ok with hacc | hpark
  · have hpast := hf i slot hi
    rw [past_of_accepting hacc i, hs] at hpast
    cases hpast
  · by_cases hw : s.wait i = .blocked <;> simp [Waiting.notify, hw, hpark]

theorem Roused.step (hr : Roused s) (hs : Seated s) (hf : Signalled s.worker)
    (ok : timely s l = true) (h : WaitStep maxSlots s l t) : Roused t := by
  intro i slot' hi hstop hn
  by_cases hnotice : s.notice = some i
  · rcases h.notice_kept hnotice with hn' | ⟨rfl, rfl⟩
    · exact absurd hn' hn
    · exact notify_rouses hf hnotice ok hi hstop
  · obtain ⟨slot, hi₀, hm⟩ := h.move hi
    generalize t.wait i = p at hm
    cases hm with
    | stay => exact hr i slot hi₀ hstop hnotice
    | enqueue _ _ hn' => exact absurd hn' hn
    | shutdown _ hn' => exact absurd hn' hn
    | park _ _ hready => simp [Slot.ready, hstop] at hready
    | block _ hw => exact absurd hw (hr i _ hi₀ hstop hnotice).1
    | work ht =>
        rw [hs.working hi₀ ht]
        constructor <;> rintro ⟨⟩
    | _ => constructor <;> rintro ⟨⟩

theorem roused_of_reachable (hr : (timelySystem E maxSlots).Reachable s) : Roused s := by
  induction hr with
  | refl =>
      intro i slot hi hs
      obtain rfl := List.eq_of_mem_replicate (List.mem_of_getElem? hi)
      cases hs
  | tail hl hs ih =>
      obtain ⟨ok, hstep⟩ := guard_step.mp hs
      have hr := Reachable.of_guard hl
      exact ih.step (seated_worker hr) (signalled_worker hr) ok (waitStep_cases hstep)

/-- A notification that is not timely is missed. -/
theorem missed_of_untimely (hr : (waitSystem E maxSlots).Reachable s)
    (hs : (waitSystem E maxSlots).step s l = some t) (ok : timely s l = false) :
    ∃ i, Missed t i := by
  have hseat := seated_worker hr
  cases waitStep_cases hs with
  | @notify i hn =>
      simp only [timely, hn, Bool.or_eq_false_iff, decide_eq_false_iff_not, not_not] at ok
      obtain ⟨hacc, hw⟩ := ok
      obtain ⟨hlt, hmain⟩ := hseat.notice hn
      have hi : s.worker.slots[i]? = some s.worker.slots[i] := List.getElem?_eq_getElem hlt
      have hstop : s.worker.slots[i].shutdown = true := by
        rw [signalled_worker hr i _ hi]
        rcases hmain with hmain | hmain
        · rw [hmain] at hacc
          cases hacc
        · simp [hmain, Main.past]
      have hwait : s.worker.slots[i].thread = .waiting := by
        by_contra hne
        cases hw.symm.trans (hseat.working hi hne)
      refine ⟨i, _, hi, hwait, hstop, hseat.parking hi hw, .inl ?_, by rintro ⟨⟩⟩
      simp [Waiting.notify, hw]
  | main hn => simp [timely, hn] at ok
  | _ => cases ok

end Roused

section Stranded
variable {s t : Waiting E} {l : WaitLabel E} {i : Nat}

/-- A stranded thread stays so, unless the condition variable wakes it by itself. -/
theorem Stranded.step (hd : Stranded s i) (hs : Seated s) (h : WaitStep maxSlots s l t)
    (hl : l ≠ .spurious i) : Stranded t i := by
  obtain ⟨hmain, ⟨slot, hi, ht, hstop, hq⟩, hblock, hn⟩ := hd
  -- A step of another slot's thread leaves this slot and the main thread alone.
  have other {j : Nat} {p : Wait} {w : Worker E} {input : Option E.Input} (hji : i ≠ j)
      (hw : Step s.worker (.slot j input) w) : Stranded { s with
        worker := w, wait := Function.update s.wait j p } i :=
    ⟨hw.main_of_slot.trans hmain, ⟨slot, (hw.slot_other hji).trans hi, ht, hstop, hq⟩,
      (Function.update_of_ne hji ..).trans hblock, hn⟩
  have apart {j : Nat} {p : Wait} (hw : s.wait j = p) (hp : p ≠ .blocked) : i ≠ j := by
    rintro rfl
    exact hp (hw.symm.trans hblock)
  have moved {j : Nat} {p : Wait} (hji : i ≠ j) : Stranded (s.setWait j p) i :=
    ⟨hmain, ⟨slot, hi, ht, hstop, hq⟩, (wait_setWait_of_ne hji p).trans hblock, hn⟩
  cases h with
  | @spurious j _ => exact moved fun hij => hl (hij ▸ rfl)
  | notify hn' =>
      rcases (hs.notice hn').2 with hm | hm <;> cases hmain.symm.trans hm
  | main _ _ hstep =>
      have hexit := (exited_of_join hmain hstep).2 i slot hi
      cases ht.symm.trans hexit
  | line _ hstep | eof _ hstep => simp [slotSystem, hmain] at hstep
  | arrive _ _ hw => exact moved (apart hw (by rintro ⟨⟩))
  | pass _ _ hw => exact moved (apart hw (by rintro ⟨⟩))
  | park _ _ hw => exact moved (apart hw (by rintro ⟨⟩))
  | block _ _ hw => exact moved (apart hw (by rintro ⟨⟩))
  | leave _ _ hw hstep => exact other (apart hw (by rintro ⟨⟩)) (step_cases hstep)
  | @work j _ slot' _ hj ht' hstep =>
      have hji : i ≠ j := by
        rintro rfl
        cases hj.symm.trans hi
        exact ht' ht
      have hkeep := other (p := s.wait j) hji (step_cases hstep)
      rwa [Function.update_eq_self] at hkeep

/-- The main thread gives the notice it has for another slot. -/
theorem leads_quiet (maxSlots : Nat) (hw : s.wait i = .blocked) (hn : s.notice ≠ some i) :
    ∃ t, (waitSystem E maxSlots).Leads s t ∧ t.worker = s.worker ∧ t.notice = none ∧
      t.wait i = .blocked := by
  cases hnotice : s.notice with
  | none => exact ⟨s, .refl, rfl, hnotice, hw⟩
  | some j =>
      have hij : i ≠ j := by
        rintro rfl
        exact hn hnotice
      refine ⟨s.notify j, .single (step_notify hnotice), rfl, rfl, ?_⟩
      by_cases hj : s.wait j = .blocked
      · simpa [Waiting.notify, hj, hij] using hw
      · simpa [Waiting.notify, hj] using hw

/-- The main thread goes on to its joins past a blocked thread it does not notify.
The induction is on the slots it has yet to tell to shut down. -/
theorem stranded_of_stopping (maxSlots : Nat) {n next : Nat}
    (hlen : s.worker.slots.length - next = n) (hm : s.worker.main = .stopping next)
    (hlt : i < next) {slot : Slot E} (hi : s.worker.slots[i]? = some slot)
    (ht : slot.thread = .waiting)
    (hstop : slot.shutdown = true) (hq : slot.queue = []) (hw : s.wait i = .blocked)
    (hn : s.notice ≠ some i) : ∃ t, (waitSystem E maxSlots).Leads s t ∧ Stranded t i := by
  induction n generalizing s next with
  | zero =>
      obtain ⟨t, hl, hworker, hquiet, hblock⟩ := leads_quiet maxSlots hw hn
      have hend : t.worker.slots[next]? = none :=
        List.getElem?_eq_none_iff.mpr (by rw [hworker]; omega)
      have hm' : t.worker.main = .stopping next := hworker ▸ hm
      have hstep : (slotSystem E maxSlots).step t.worker .main =
          some { t.worker with main := .joining } := by
        simp [slotSystem, mainStep, hm', hend]
      refine ⟨_, hl.tail (step_main hquiet (by simp [Waiting.excluded, hm']) hstep), rfl,
        ⟨slot, hworker ▸ hi, ht, hstop, hq⟩, hblock, ?_⟩
      simp [Worker.notifies, hm', Nat.not_lt.mpr (List.getElem?_eq_none_iff.mp hend)]
  | succ n ih =>
      obtain ⟨t, hl, hworker, hquiet, hblock⟩ := leads_quiet maxSlots hw hn
      have hm' : t.worker.main = .stopping next := hworker ▸ hm
      have hnext : next < t.worker.slots.length := by
        rw [hworker]
        omega
      have hget := List.getElem?_eq_getElem hnext
      have hstep : (slotSystem E maxSlots).step t.worker .main =
          some { t.worker.setSlot next { t.worker.slots[next] with shutdown := true } with
            main := .stopping (next + 1) } := by
        simp [slotSystem, mainStep, hm', hget]
      have hne : i ≠ next := by omega
      have hgo := step_main hquiet (by simp [Waiting.excluded, hm']) hstep
      obtain ⟨u, hu, hd⟩ := ih (s := { t with
          worker := { t.worker.setSlot next { t.worker.slots[next] with shutdown := true } with
            main := .stopping (next + 1) }
          notice := t.worker.notifies })
        (by simp only [Worker.setSlot, List.length_set, hworker]; omega) rfl (by omega)
        ((getElem?_set_other hne).trans (hworker ▸ hi)) hblock
        (by simp [Worker.notifies, hm', hnext, hne.symm])
      exact ⟨u, (hl.tail hgo).trans hu, hd⟩

/-- A missed notification strands its thread. -/
theorem Missed.stranded (hr : (waitSystem E maxSlots).Reachable s) (hm : Missed s i) :
    ∃ t, (waitSystem E maxSlots).Leads s t ∧ Stranded t i := by
  obtain ⟨slot, hi, ht, hstop, hq, hw, hn⟩ := hm
  obtain ⟨u, hl, hworker, hnotice, hblock⟩ : ∃ u, (waitSystem E maxSlots).Leads s u ∧
      u.worker = s.worker ∧ u.notice = s.notice ∧ u.wait i = .blocked := by
    rcases hw with hw | hw
    · have hstep : (waitSystem E maxSlots).step s (.act (.slot i none)) =
          some (s.setWait i .blocked) := by
        simp [waitSystem, hi, Waiting.slotAct, ht, hw]
      exact ⟨_, .single hstep, rfl, rfl, wait_setWait_self s i _⟩
    · exact ⟨s, .refl, rfl, rfl, hw⟩
  have hpast := (signalled_worker hr i slot hi).symm.trans hstop
  cases hmain : s.worker.main with
  | stopping next =>
      rw [hmain] at hpast
      obtain ⟨t, ht', hd⟩ := stranded_of_stopping maxSlots (s := u) rfl
        (hworker ▸ hmain) (of_decide_eq_true hpast) (hworker ▸ hi) ht hstop hq hblock (hnotice ▸ hn)
      exact ⟨t, hl.trans ht', hd⟩
  | joining =>
      exact ⟨u, hl, hworker ▸ hmain, ⟨slot, hworker ▸ hi, ht, hstop, hq⟩, hblock, hnotice ▸ hn⟩
  | joined =>
      have hjoined := (joined_invariant E maxSlots).of_reachable
        ((wait_simulation E maxSlots).reachable hr) hmain i slot hi
      cases ht.symm.trans hjoined
  | _ =>
      rw [hmain] at hpast
      cases hpast

end Stranded

/-- The steps a thread at a point of its wait makes before it is out of it. -/
def Wait.rank : Wait → Nat
  | .passed => 1
  | .testing => 2
  | _ => 3

/-- The steps a thread makes before it is back in its wait, the synthesis as one. -/
def SlotThread.rank (p : Wait) : SlotThread E → Nat
  | .exited => 0
  | .waiting => p.rank
  | .releasing _ _ => 4
  | .cleaning _ _ => 5
  | .unregistering _ _ => 6
  | .running _ _ state => if E.finished state then 7 else 8
  | .registering _ _ => 9
  | .arming _ _ => 10

/-- The steps of a slot's thread before it leaves, if nothing is put on its queue. -/
def Waiting.slotRank (s : Waiting E) (i : Nat) : Nat :=
  match s.worker.slots[i]? with
  | some slot => slot.thread.rank (s.wait i) + 11 * slot.queue.length
  | none => 0

/-- The thread of slot `i` is inside a synthesis. -/
def Synthesising (s : Waiting E) (i : Nat) : Prop :=
  ∃ slot work id state, s.worker.slots[i]? = some slot ∧
    slot.thread = .running work id state ∧ E.finished state = false

/-- The main thread has told slot `i` to shut down and has notified it. -/
structure Told (s : Waiting E) (i : Nat) : Prop where
  past : s.worker.main.past i = true
  notified : s.notice ≠ some i

section Told
variable {s t : Waiting E} {l : WaitLabel E} {i : Nat} {slot slot' : Slot E}

theorem slotRank_eq (hi : s.worker.slots[i]? = some slot) :
    s.slotRank i = slot.thread.rank (s.wait i) + 11 * slot.queue.length := by
  simp [Waiting.slotRank, hi]

theorem slotRank_setWait (hi : s.worker.slots[i]? = some slot) (p : Wait) :
    (s.setWait i p).slotRank i = slot.thread.rank p + 11 * slot.queue.length := by
  have hi' : (s.setWait i p).worker.slots[i]? = some slot := hi
  rw [slotRank_eq hi', wait_setWait_self]

theorem Told.step (hT : Told s i) (h : WaitStep maxSlots s l t) : Told t i := by
  obtain ⟨hp, hn⟩ := hT
  cases h with
  | notify => exact ⟨hp, nofun⟩
  | main _ _ hs =>
      cases step_cases hs with
      | shutdown hm hi =>
          rw [hm] at hp
          have hlt : i < _ := of_decide_eq_true hp
          refine ⟨decide_eq_true (Nat.lt_succ_of_lt hlt), ?_⟩
          simp [Worker.notifies, hm, lt_of_getElem? hi, hlt.ne']
      | stopped hm hi =>
          refine ⟨rfl, ?_⟩
          simp [Worker.notifies, hm, Nat.not_lt.mpr (List.getElem?_eq_none_iff.mp hi)]
      | join hm => exact ⟨rfl, by simp [Worker.notifies, hm]⟩
      | ack hm | reject hm | bind hm | enqueue hm =>
          rw [hm] at hp
          cases hp
  | line _ hs =>
      cases step_cases hs with
      | answer hm | miss hm | trip hm | saturated hm | claim hm =>
          rw [hm] at hp
          cases hp
  | eof _ hs =>
      cases step_cases hs with
      | eof hm =>
          rw [hm] at hp
          cases hp
  | leave _ _ _ hs | work _ _ hs =>
      exact ⟨(step_cases hs).main_of_slot.symm ▸ hp, hn⟩
  | _ => exact ⟨hp, hn⟩

theorem Told.shutdown (hT : Told s i) (hf : Signalled s.worker)
    (hi : s.worker.slots[i]? = some slot) : slot.shutdown = true :=
  (hf i slot hi).trans hT.past

/-- Inside `processRequest` every step but those of the synthesis lowers the rank. -/
theorem WorkMove.rank (h : WorkMove slot slot') (p : Wait) :
    slot'.queue = slot.queue ∧ (slot'.thread.rank p < slot.thread.rank p ∨
      (slot'.thread.rank p ≤ slot.thread.rank p ∧
        ∃ work id state, slot.thread = .running work id state ∧ E.finished state = false)) := by
  cases h with
  | arm ht => exact ⟨rfl, .inl (by simp [SlotThread.rank, ht])⟩
  | register ht =>
      refine ⟨rfl, .inl ?_⟩
      simp only [SlotThread.rank, ht]
      split <;> decide
  | engine ht hf =>
      refine ⟨rfl, .inr ⟨?_, _, _, _, ht, hf⟩⟩
      simp only [SlotThread.rank, ht, hf]
      split <;> decide
  | leave ht hf => exact ⟨rfl, .inl (by simp [SlotThread.rank, ht, hf])⟩
  | unregister ht => exact ⟨rfl, .inl (by simp [SlotThread.rank, ht])⟩
  | clean ht => exact ⟨rfl, .inl (by simp [SlotThread.rank, ht])⟩
  | release ht =>
      refine ⟨rfl, .inl ?_⟩
      cases p <;> simp [SlotThread.rank, Wait.rank, ht]

/-- No step raises the rank of a slot that has been told to shut down. -/
theorem slotRank_le (hT : Told s i) (hf : Signalled s.worker) (h : WaitStep maxSlots s l t) :
    t.slotRank i ≤ s.slotRank i := by
  cases hi : t.worker.slots[i]? with
  | none => simp [Waiting.slotRank, hi]
  | some slot' =>
      obtain ⟨slot, hi₀, hm⟩ := h.move hi
      have hstop := hT.shutdown hf hi₀
      have hpast := hT.past
      rw [slotRank_eq hi, slotRank_eq hi₀]
      generalize t.wait i = p at hm
      cases hm with
      | stay => exact le_rfl
      | enqueue hmain =>
          rw [hmain] at hpast
          cases hpast
      | shutdown hmain => simp [hmain, Main.past] at hpast
      | wake hw =>
          refine Nat.add_le_add_right ?_ _
          cases slot'.thread <;> simp [SlotThread.rank, Wait.rank, hw]
      | arrive ht hw => simp [SlotThread.rank, Wait.rank, ht, hw]
      | pass ht hw => simp [SlotThread.rank, Wait.rank, ht, hw]
      | park _ _ hr => simp [Slot.ready, hstop] at hr
      | block ht hw => simp [SlotThread.rank, Wait.rank, ht, hw]
      | pickUp ht hw hq =>
          simp only [SlotThread.rank, Wait.rank, ht, hw, hq, List.length_cons]
          omega
      | exit => simp [SlotThread.rank]
      | work _ hm =>
          obtain ⟨hq, hlt | ⟨hle, -⟩⟩ := hm.rank (s.wait i)
          · rw [hq]
            exact Nat.add_le_add_right hlt.le _
          · rw [hq]
            exact Nat.add_le_add_right hle _

/-- A step of a thread told to shut down lowers its rank, unless it is in a synthesis. -/
theorem slotRank_lt (hT : Told s i) (hf : Signalled s.worker) (hro : Roused s)
    {input : Option E.Input} (h : WaitStep maxSlots s (.act (.slot i input)) t) :
    t.slotRank i < s.slotRank i ∨ Synthesising s i := by
  cases h with
  | arrive hi ht hw =>
      refine .inl ?_
      rw [slotRank_eq hi, slotRank_setWait hi]
      simp [SlotThread.rank, Wait.rank, ht, hw]
  | pass hi ht hw =>
      refine .inl ?_
      rw [slotRank_eq hi, slotRank_setWait hi]
      simp [SlotThread.rank, Wait.rank, ht, hw]
  | park hi _ _ hr => simp [Slot.ready, hT.shutdown hf hi] at hr
  | block hi _ hw => exact absurd hw (hro i _ hi (hT.shutdown hf hi) hT.notified).1
  | @leave _ _ slot w hi ht hw hs =>
      have hstep := step_cases hs
      obtain ⟨slot', hi'⟩ : ∃ slot', w.slots[i]? = some slot' :=
        ⟨_, List.getElem?_eq_getElem (hstep.slots_length ▸ lt_of_getElem? hi)⟩
      refine .inl ?_
      rw [slotRank_eq hi, slotRank_setWait (s := { s with worker := w }) hi']
      rcases hstep.left hi ht hi' with ⟨work, queue, id, hq, rfl⟩ | ⟨hq, rfl⟩
      · simp only [SlotThread.rank, Wait.rank, ht, hw, hq, List.length_cons]
        omega
      · simp [SlotThread.rank, Wait.rank, ht, hw]
  | @work _ _ slot w hi ht hs =>
      have hstep := step_cases hs
      obtain ⟨slot', hi'⟩ : ∃ slot', w.slots[i]? = some slot' :=
        ⟨_, List.getElem?_eq_getElem (hstep.slots_length ▸ lt_of_getElem? hi)⟩
      obtain ⟨hq, hlt | ⟨-, work, id, state, hrun, hf⟩⟩ := (hstep.work hi ht hi').rank (s.wait i)
      · refine .inl ?_
        rw [slotRank_eq hi, slotRank_eq (s := { s with worker := w }) hi', hq]
        exact Nat.add_lt_add_right hlt _
      · exact .inr ⟨slot, work, id, state, hi, hrun, hf⟩

/-- A thread is inside a synthesis just in case its rank says so. -/
theorem synthesising_of_rank (h : s.slotRank i % 11 = 8) : Synthesising s i := by
  cases hi : s.worker.slots[i]? with
  | none => simp [Waiting.slotRank, hi] at h
  | some slot =>
      rw [slotRank_eq hi, Nat.add_mul_mod_self_left] at h
      cases ht : slot.thread with
      | running work id state =>
          refine ⟨slot, work, id, state, hi, ht, ?_⟩
          by_contra hf
          have hfin : E.finished state = true := by simpa using hf
          simp [ht, SlotThread.rank, hfin] at h
      | waiting => cases hw : s.wait i <;> simp [ht, hw, SlotThread.rank, Wait.rank] at h
      | _ => simp [ht, SlotThread.rank] at h

theorem rank_of_synthesising (h : Synthesising s i) : s.slotRank i % 11 = 8 := by
  obtain ⟨slot, work, id, state, hi, ht, hf⟩ := h
  simp [slotRank_eq hi, ht, SlotThread.rank, hf]

theorem exited_of_rank (h : s.slotRank i = 0) (hi : s.worker.slots[i]? = some slot) :
    slot.thread = .exited := by
  rw [slotRank_eq hi] at h
  have hrank : slot.thread.rank (s.wait i) = 0 := by omega
  cases ht : slot.thread with
  | exited => rfl
  | waiting => cases hw : s.wait i <;> simp [ht, hw, SlotThread.rank, Wait.rank] at hrank
  | running work id state =>
      rw [ht, SlotThread.rank] at hrank
      split at hrank <;> cases hrank
  | _ => simp [ht, SlotThread.rank] at hrank

/-- A thread that is told to shut down and has not left can take a step. -/
theorem slot_moves (hE : E.Concludes Good) (hr : (waitSystem E maxSlots).Reachable s)
    (hro : Roused s) (hT : Told s i) (hpos : 0 < s.slotRank i) :
    ∃ input t, (waitSystem E maxSlots).step s (.act (.slot i input)) = some t := by
  have hw := (wait_simulation E maxSlots).reachable hr
  cases hi : s.worker.slots[i]? with
  | none => simp [Waiting.slotRank, hi] at hpos
  | some slot =>
      have hstop := hT.shutdown (signalled_worker hr) hi
      by_cases ht : slot.thread = .waiting
      · cases hwait : s.wait i with
        | arriving => exact ⟨none, by simp [waitSystem, hi, Waiting.slotAct, ht, hwait]⟩
        | testing => exact ⟨none, by simp [waitSystem, hi, Waiting.slotAct, ht, hwait]⟩
        | parking => exact absurd hwait (hro i slot hi hstop hT.notified).1
        | blocked => exact absurd hwait (hro i slot hi hstop hT.notified).2
        | passed =>
            by_cases hq : slot.queue = []
            · have hs : (slotSystem E maxSlots).step s.worker (.slot i none) =
                  some (s.worker.setSlot i { slot with thread := .exited }) := by
                simp [slotSystem, hi, slotStep, ht, hq, hstop]
              exact ⟨none, step_slot hi (fun _ => hwait) hs⟩
            · obtain ⟨w, hs⟩ := pickUp_enabled ((tended_invariant E maxSlots).of_reachable hw)
                hi ht hq none
              exact ⟨none, step_slot hi (fun _ => hwait) hs⟩
      · have hexit : slot.thread ≠ .exited := by
          intro hx
          have hq := ((attended_invariant E maxSlots).of_reachable hw).exited hi hx
          simp [slotRank_eq hi, hx, hq.2, SlotThread.rank] at hpos
        obtain ⟨-, hl⟩ := (logged_invariant hE.law maxSlots).of_reachable hw
        obtain ⟨input, w, hs⟩ := thread_enabled hi ht hexit fun {held id st} hrun hopen => by
          have hat : AtStage s.worker held.token slot.thread.stage :=
            .held hi (by rw [hrun]; rfl) rfl
          rw [hrun] at hat
          exact hE.enabled hopen (hl hat) held.item id _
        exact ⟨input, step_slot hi (fun hwait => absurd hwait ht) hs⟩

end Told

/-- The steps of the main thread before it is in its joins. -/
def Waiting.mainRank (s : Waiting E) : Nat :=
  match s.worker.main with
  | .stopping next => 2 * (s.worker.slots.length - next) + if s.notice = none then 1 else 2
  | _ => 0

section Main
variable {s t : Waiting E} {l : WaitLabel E}

theorem mainRank_eq {next : Nat} (hm : s.worker.main = .stopping next) :
    s.mainRank = 2 * (s.worker.slots.length - next) + if s.notice = none then 1 else 2 := by
  simp [Waiting.mainRank, hm]

theorem mainRank_zero (hm : s.worker.main.accepting = false) (h : s.mainRank = 0) :
    s.worker.main = .joining ∨ s.worker.main = .joined := by
  cases hmain : s.worker.main with
  | stopping next =>
      rw [mainRank_eq hmain] at h
      split at h <;> omega
  | joining => exact .inl rfl
  | joined => exact .inr rfl
  | _ =>
      rw [hmain] at hm
      cases hm

/-- The input stays closed. -/
theorem closed_step (hm : s.worker.main.accepting = false) (h : WaitStep maxSlots s l t) :
    t.worker.main.accepting = false := by
  have keep {l' : Label E} {w : Worker E} (hs : Step s.worker l' w) : w.main.accepting = false := by
    by_contra hacc
    rw [hs.accepting (by simpa using hacc)] at hm
    cases hm
  cases h with
  | main _ _ hs | line _ hs | eof _ hs | leave _ _ _ hs | work _ _ hs => exact keep (step_cases hs)
  | _ => exact hm

/-- After the end of the input a step of the main thread lowers its rank, and
another thread's step leaves it as it is. -/
theorem mainRank_step (hseat : Seated s) (hm : s.worker.main.accepting = false)
    (h : WaitStep maxSlots s l t) :
    t.mainRank ≤ s.mainRank ∧ (0 < s.mainRank → l = .act .main → t.mainRank < s.mainRank) := by
  have same {u : Waiting E} (hmain : u.worker.main = s.worker.main)
      (hlen : u.worker.slots.length = s.worker.slots.length) (hn : u.notice = s.notice) :
      u.mainRank = s.mainRank := by
    simp only [Waiting.mainRank, hmain, hlen, hn]
  cases h with
  | @notify i hn =>
      rcases (hseat.notice hn).2 with hmain | hmain
      · rw [hmain] at hm
        cases hm
      · rw [mainRank_eq hmain, mainRank_eq (s := s.notify i) hmain]
        simp [Waiting.notify, hn]
  | @main w hn _ hs =>
      cases step_cases hs with
      | @shutdown next slot hmain hi =>
          have hlt := lt_of_getElem? hi
          rw [mainRank_eq hmain]
          simp only [Waiting.mainRank, Worker.setSlot, List.length_set, hn, if_true]
          have hcount : (if s.worker.notifies = none then 1 else 2) ≤ 2 := by split <;> decide
          omega
      | @stopped next hmain hi =>
          rw [mainRank_eq hmain]
          simp [Waiting.mainRank, hn]
      | join hmain => simp [Waiting.mainRank, hmain]
      | ack hmain | reject hmain | bind hmain | enqueue hmain =>
          rw [hmain] at hm
          cases hm
  | line _ hs =>
      cases step_cases hs with
      | answer hmain | miss hmain | trip hmain | saturated hmain | claim hmain =>
          rw [hmain] at hm
          cases hm
  | eof _ hs =>
      cases step_cases hs with
      | eof hmain =>
          rw [hmain] at hm
          cases hm
  | leave _ _ _ hs | work _ _ hs =>
      have hstep := step_cases hs
      exact ⟨le_of_eq (same hstep.main_of_slot hstep.slots_length rfl), by rintro - ⟨⟩⟩
  | _ => exact ⟨le_of_eq (same rfl rfl rfl), by rintro - ⟨⟩⟩

/-- On its way to the joins the main thread can take a step. -/
theorem main_moves (hpos : 0 < s.mainRank) :
    ∃ t, (waitSystem E maxSlots).step s (.act .main) = some t := by
  cases hn : s.notice with
  | some i => exact ⟨_, step_notify hn⟩
  | none =>
      cases hmain : s.worker.main with
      | stopping next =>
          have hs : ∃ w, (slotSystem E maxSlots).step s.worker .main = some w := by
            simp only [slotSystem, mainStep, hmain]
            split <;> exact ⟨_, rfl⟩
          obtain ⟨w, hs⟩ := hs
          exact ⟨_, step_main hn (by simp [Waiting.excluded, hmain]) hs⟩
      | _ => simp [Waiting.mainRank, hmain] at hpos

theorem slots_length_invariant (E : Engine) (maxSlots : Nat) :
    (slotSystem E maxSlots).Invariant fun w => w.slots.length = maxSlots where
  start := List.length_replicate
  step hw hs := (step_cases hs).slots_length.trans hw

theorem Seated.joining_quiet (hs : Seated s) (hm : s.worker.main = .joining) :
    s.notice = none := by
  by_contra hn
  obtain ⟨i, hi⟩ := Option.ne_none_iff_exists'.mp hn
  rcases (hs.notice hi).2 with hmain | hmain <;> cases hm.symm.trans hmain

/-- The step of the main thread out of its joins. -/
theorem joins_step (hs : Seated s) (hm : s.worker.main = .joining)
    (h : WaitStep maxSlots s (.act .main) t) : t.worker.main = .joined := by
  cases h with
  | notify hn => cases (hs.joining_quiet hm).symm.trans hn
  | main _ _ hstep =>
      obtain ⟨rfl, -⟩ := exited_of_join hm hstep
      rfl

theorem joined_step (hm : s.worker.main = .joined) (h : WaitStep maxSlots s l t) :
    t.worker.main = .joined := by
  cases h with
  | main _ _ hs | line _ hs | eof _ hs => simp [slotSystem, mainStep, hm] at hs
  | leave _ _ _ hs | work _ _ hs => exact (step_cases hs).main_of_slot.trans hm
  | _ => exact hm

end Main

/-- A run in which stdin ends, no thread is passed over for ever, and no request
is in its synthesis for ever. -/
structure Ends (p : (waitSystem E maxSlots).Path) : Prop where
  eof : ∃ n, (p.state n).worker.main.accepting = false
  main : p.Fair (· = .act .main)
  slot : ∀ i, p.Fair fun l => ∃ input, l = .act (.slot i input)
  synthesis : ∀ i, ∃ᶠ n in atTop, ¬ Synthesising (p.state n) i

section Ends
variable {p : (waitSystem E maxSlots).Path}

/-- The main thread comes to its joins. -/
theorem Ends.joins (h : Ends p) : ∀ᶠ n in atTop,
    (p.state n).worker.main = .joining ∨ (p.state n).worker.main = .joined := by
  have hclosed : ∀ᶠ n in atTop, (p.state n).worker.main.accepting = false :=
    Path.eventually_stays (p := p) (P := fun s => s.worker.main.accepting = false)
      (fun _ hm hs => closed_step hm (waitStep_cases hs)) h.eof
  have hzero : ∀ᶠ n in atTop, (p.state n).mainRank = 0 := by
    refine h.main.eventually_zero
      (P := fun s => Seated s ∧ s.worker.main.accepting = false) ?_ ?_ ?_ ?_
    · intro s l t hP hs
      exact (mainRank_step hP.1 hP.2 (waitStep_cases hs)).1
    · intro s _ hpos
      obtain ⟨t, ht⟩ := main_moves hpos
      exact ⟨_, t, rfl, ht⟩
    · intro s l t hP hpos hl hs
      exact (mainRank_step hP.1 hP.2 (waitStep_cases hs)).2 hpos hl
    · exact hclosed.mono fun n hm => ⟨seated_worker (p.reachable n), hm⟩
  exact (hclosed.and hzero).mono fun n hn => mainRank_zero hn.1 hn.2

/-- The thread of every slot leaves. -/
theorem Ends.slot_exits (hE : E.Concludes Good) (hp : p.Meets fun s l => timely s l = true)
    (h : Ends p) (i : Nat) : ∀ᶠ n in atTop, (p.state n).slotRank i = 0 := by
  have hro (n : Nat) : Roused (p.state n) := roused_of_reachable ((p.restrict hp).reachable n)
  have hT : ∀ᶠ n in atTop, Told (p.state n) i := by
    refine h.joins.mono fun n hm => ⟨?_, fun hn => ?_⟩
    · rcases hm with hm | hm <;> simp [hm, Main.past]
    · have hmain := ((seated_worker (p.reachable n)).notice hn).2
      rcases hm with hm | hm <;> simp [hm] at hmain
  have hfacts : ∀ᶠ n in atTop, Told (p.state n) i ∧ Signalled (p.state n).worker :=
    hT.mono fun n hn => ⟨hn, signalled_worker (p.reachable n)⟩
  obtain ⟨c, hc⟩ := Path.eventually_settles (P := fun s => Told s i ∧ Signalled s.worker)
    (m := fun s => s.slotRank i) (fun hP hs => slotRank_le hP.1 hP.2 (waitStep_cases hs)) hfacts
  obtain ⟨N, hN⟩ := eventually_atTop.mp (hfacts.and hc)
  rcases Nat.eq_zero_or_pos c with rfl | hpos
  · exact hc
  by_cases hsyn : c % 11 = 8
  · -- The rank has settled inside a synthesis, which ends.
    obtain ⟨n, hn, hout⟩ := frequently_atTop.mp (h.synthesis i) N
    exact absurd (synthesising_of_rank ((hN n hn).2.symm ▸ hsyn)) hout
  · -- The rank has settled, but the thread has a step to take, and takes it.
    have hstep := h.slot i <| eventually_atTop.mpr ⟨N, fun n hn => by
      obtain ⟨⟨hTn, -⟩, hcn⟩ := hN n hn
      obtain ⟨input, t, ht⟩ :=
        slot_moves hE (p.reachable n) (hro n) hTn (by rw [hcn]; exact hpos)
      exact ⟨_, t, ⟨input, rfl⟩, ht⟩⟩
    obtain ⟨n, hn, l, ⟨input, rfl⟩, hl⟩ := frequently_atTop.mp hstep N
    obtain ⟨⟨hTn, hf⟩, hcn⟩ := hN n hn
    rcases slotRank_lt hTn hf (hro n) (waitStep_cases (Path.step_of_label hl)) with hlt | hs
    · rw [hcn, (hN (n + 1) (by omega)).2] at hlt
      exact absurd hlt (lt_irrefl c)
    · exact absurd (hcn ▸ rank_of_synthesising hs) hsyn

/-- A run with timely notifications ends: the main thread has joined every thread. -/
theorem Ends.joined (hE : E.Concludes Good) (hp : p.Meets fun s l => timely s l = true)
    (h : Ends p) : ∀ᶠ n in atTop, (p.state n).worker.main = .joined := by
  have hall : ∀ᶠ n in atTop, ∀ i ∈ Finset.range maxSlots, (p.state n).slotRank i = 0 :=
    (eventually_all_finset _).mpr fun i _ => h.slot_exits hE hp i
  have hexit : ∀ᶠ n in atTop, ∀ (i : Nat) (slot : Slot E),
      (p.state n).worker.slots[i]? = some slot → slot.thread = .exited := by
    refine hall.mono fun n hn i slot hi => exited_of_rank (hn i ?_) hi
    have hlen := (slots_length_invariant E maxSlots).of_reachable
      ((wait_simulation E maxSlots).reachable (p.reachable n))
    exact Finset.mem_range.mpr (hlen ▸ lt_of_getElem? hi)
  by_cases hj : ∃ n, (p.state n).worker.main = .joined
  · exact Path.eventually_stays (p := p) (P := fun s => s.worker.main = .joined)
      (fun _ hm hs => joined_step hm (waitStep_cases hs)) hj
  · -- With every thread gone the main thread has its join to take, and takes it.
    have hjoining : ∀ᶠ n in atTop, (p.state n).worker.main = .joining :=
      h.joins.mono fun n hn => hn.resolve_right fun hm => hj ⟨n, hm⟩
    have hstep := h.main <| (hjoining.and hexit).mono fun n ⟨hm, hx⟩ => by
      have hn : (p.state n).notice = none := (seated_worker (p.reachable n)).joining_quiet hm
      exact ⟨_, _, rfl, step_main hn (by simp [Waiting.excluded, hm]) (join_enabled hm hx)⟩
    obtain ⟨N, hN⟩ := eventually_atTop.mp hjoining
    obtain ⟨n, hn, l, rfl, hl⟩ := frequently_atTop.mp hstep N
    have hdone := joins_step (seated_worker (p.reachable n)) (hN n hn)
      (waitStep_cases (Path.step_of_label hl))
    exact absurd ⟨n + 1, hdone⟩ hj

/-- In a state in which the joins have returned no thread has a step left. -/
theorem halted_of_joined {t : Waiting E} (hr : (waitSystem E maxSlots).Reachable t)
    (hm : t.worker.main = .joined) :
    (waitSystem E maxSlots).step t (.act .main) = none ∧
      (∀ i input, (waitSystem E maxSlots).step t (.act (.slot i input)) = none) ∧
      ∀ i, ¬ Synthesising t i := by
  have hexit := (joined_invariant E maxSlots).of_reachable
    ((wait_simulation E maxSlots).reachable hr) hm
  refine ⟨?_, fun i input => ?_, ?_⟩
  · by_contra hs
    obtain ⟨u, hu⟩ := Option.ne_none_iff_exists'.mp hs
    cases waitStep_cases hu with
    | notify hn =>
        rcases ((seated_worker hr).notice hn).2 with hmain | hmain <;> cases hm.symm.trans hmain
    | main _ _ hs => simp [slotSystem, mainStep, hm] at hs
  · cases hi : t.worker.slots[i]? with
    | none => simp [waitSystem, hi]
    | some slot =>
        simp [waitSystem, hi, Waiting.slotAct, Waiting.follow, slotSystem, slotStep,
          hexit i slot hi]
  · rintro i ⟨slot, work, id, state, hi, hrun, -⟩
    cases hrun.symm.trans (hexit i slot hi)

/-- A finite timely run to the end of the joins is such a run. -/
theorem ends_of_joined {ls : List (WaitLabel E)} {t : Waiting E}
    (h : (timelySystem E maxSlots).run (timelySystem E maxSlots).start ls = some t)
    (hm : t.worker.main = .joined) : Ends (Path.ofRun ls h).unguard := by
  have hlate (n : Nat) (hn : ls.length ≤ n) : (Path.ofRun ls h).unguard.state n = t :=
    Path.state_ofRun (h := h) hn
  obtain ⟨hmain, hslot, hsyn⟩ := halted_of_joined
    (Reachable.of_guard (reachable_of_run (T := timelySystem E maxSlots) ls h)) hm
  refine ⟨⟨ls.length, ?_⟩, ?_, fun i => ?_, fun i => ?_⟩
  · rw [hlate _ le_rfl, hm]
    rfl
  · refine Path.fair_of_halted hlate ?_
    rintro l rfl
    exact hmain
  · refine Path.fair_of_halted hlate ?_
    rintro l ⟨input, rfl⟩
    exact hslot i input
  · refine (eventually_atTop.mpr ⟨ls.length, fun n hn => ?_⟩).frequently
    rw [hlate n hn]
    exact hsyn i

end Ends

/-- In both workers a thread that has left has brought every request put on its
queue to a terminal event. As long as every notification of a shutdown is timely,
no thread is stranded, and a run in which stdin ends, nobody is passed over and
every synthesis comes to its end goes on to the end of the joins. A notification
is timely just in case no thread misses it, and a thread that does is stranded as
soon as the main thread is in its joins. -/
theorem shutdown_ends_iff (v : Synthesizer) (maxSlots : Nat) :
    (∀ {s t : Waiting v.engine} {id : String} {i : Nat} {work : Work} {slot : Slot v.engine},
      (waitSystem v.engine maxSlots).Reachable s → s.worker.main = .enqueue id i work →
      (waitSystem v.engine maxSlots).Leads s t → t.worker.slots[i]? = some slot →
      slot.thread = .exited → Concluded (eventsOf t.worker.out work.token)) ∧
    (∀ {s : Waiting v.engine}, (timelySystem v.engine maxSlots).Reachable s →
      ∀ i, ¬ Stranded s i) ∧
    (∀ {p : (waitSystem v.engine maxSlots).Path}, (p.Meets fun s l => timely s l = true) →
      Ends p → ∀ᶠ n in atTop, (p.state n).worker.main = .joined ∧
        ∀ (i : Nat) (slot : Slot v.engine), (p.state n).worker.slots[i]? = some slot →
          slot.thread = .exited) ∧
    (∀ {s t : Waiting v.engine} {l : WaitLabel v.engine},
      (timelySystem v.engine maxSlots).Reachable s →
      (waitSystem v.engine maxSlots).step s l = some t →
        (timely s l = true ↔ ¬ ∃ i, Missed t i)) ∧
    (∀ {t : Waiting v.engine} {i : Nat}, (waitSystem v.engine maxSlots).Reachable t →
      Missed t i → ∃ u, (waitSystem v.engine maxSlots).Leads t u ∧ Stranded u i) := by
  obtain ⟨Good, hE⟩ := v.concludes
  have sim := wait_simulation v.engine maxSlots
  refine ⟨fun hr hm hl hi hx => ?_, fun hr i hd => ?_, fun hp h => ?_, fun hr hs => ?_,
    fun hr hm => hm.stranded hr⟩
  · exact concluded_of_exited hE (sim.reachable hr) hm (sim.leads hr hl) hi hx
  · exact (roused_of_reachable hr).not_missed i hd.missed
  · refine (h.joined hE hp).mono fun n hm => ⟨hm, ?_⟩
    exact (joined_invariant v.engine maxSlots).of_reachable
      (sim.reachable (Path.reachable n)) hm
  · have hr' := Reachable.of_guard hr
    constructor
    · rintro ok ⟨i, hm⟩
      have hro := (roused_of_reachable hr).step (seated_worker hr') (signalled_worker hr') ok
        (waitStep_cases hs)
      exact hro.not_missed i hm
    · intro hnone
      by_contra ok
      exact hnone (missed_of_untimely hr' hs (by simpa using ok))

/-- A request is accepted and runs to its end, stdin ends, and the slot's thread is
notified before it tests its predicate again. -/
def drainedRun : List (Label (Qwen3.engine Qwen3.synchronous)) :=
  List.flatten [accept (requestLine "a"), [.main, .slot 0 none, .slot 0 none], register 0,
    qwen3Completion, [.eof, .main, .main, .main, .slot 0 none, .slot 0 none, .slot 0 none, .main]]

set_option maxRecDepth 2000 in
theorem shutdown_ends_iff_one_request :
    (∃ s, (waitSystem (Qwen3.engine Qwen3.synchronous) 1).Reachable s ∧
      Concluded (eventsOf s.worker.out 0)) ∧
    (∃ p : (waitSystem (Qwen3.engine Qwen3.synchronous) 1).Path,
      ∀ᶠ n in atTop, (p.state n).worker.main = .joined) := by
  obtain ⟨hdrain, -, hends, -⟩ := shutdown_ends_iff (.qwen3 Qwen3.synchronous) 1
  constructor
  · obtain ⟨s, t, slot, hr, hm, hl, hi, hx⟩ : ∃ s t slot,
        (waitSystem (Qwen3.engine Qwen3.synchronous) 1).Reachable s ∧
        s.worker.main = .enqueue "a" 0 ⟨requestLine "a", 0⟩ ∧
        (waitSystem (Qwen3.engine Qwen3.synchronous) 1).Leads s t ∧
        t.worker.slots[0]? = some slot ∧ slot.thread = .exited :=
      ⟨_, _, _, reachable_of_run ((drainedRun.take 2).map .act) rfl, rfl,
        leads_of_run ((drainedRun.drop 2).map .act) rfl, rfl, rfl⟩
    exact ⟨t, hr.leads hl, hdrain hr hm hl hi hx⟩
  · obtain ⟨t, ht, hm⟩ : ∃ t, (timelySystem (Qwen3.engine Qwen3.synchronous) 1).run
        (timelySystem (Qwen3.engine Qwen3.synchronous) 1).start (drainedRun.map .act) = some t ∧
        t.worker.main = .joined := ⟨_, rfl, rfl⟩
    exact ⟨_, (hends (Path.unguard_meets _) (ends_of_joined ht hm)).mono fun n h => h.1⟩

/-- Stdin ends while the thread of slot 0 is between its test of the predicate and
its block: the flag is set and notified, then the thread blocks. -/
def lostRun {E : Engine} : List (Label E) :=
  [.slot 0 none, .slot 0 none, .eof, .main, .main, .slot 0 none, .main]

theorem lostRun_strands (E : Engine) : ∃ s, (waitSystem E 1).Reachable s ∧ Stranded s 0 ∧
    ∀ {l t}, (waitSystem E 1).step s l = some t → l ≠ .spurious 0 → Stranded t 0 := by
  obtain ⟨s, hr, hd⟩ : ∃ s, (waitSystem E 1).Reachable s ∧ Stranded s 0 :=
    ⟨_, reachable_of_run (lostRun.map .act) rfl, rfl, ⟨_, rfl, rfl, rfl, rfl⟩, rfl, nofun⟩
  exact ⟨s, hr, hd, fun hs hl => hd.step (seated_worker hr) (waitStep_cases hs) hl⟩

/-- With one slot and no request, the main thread comes to its join with the slot's
thread blocked for good: no step but a spurious wake-up changes that. -/
theorem shutdown_notification_lost :
    (∃ s, (waitSystem (Qwen3.engine Qwen3.synchronous) 1).Reachable s ∧ Stranded s 0 ∧
      ∀ {l t}, (waitSystem (Qwen3.engine Qwen3.synchronous) 1).step s l = some t →
        l ≠ .spurious 0 → Stranded t 0) ∧
    (∃ s, (waitSystem (Spark.engine ⟨16000⟩) 1).Reachable s ∧ Stranded s 0 ∧
      ∀ {l t}, (waitSystem (Spark.engine ⟨16000⟩) 1).step s l = some t →
        l ≠ .spurious 0 → Stranded t 0) :=
  ⟨lostRun_strands _, lostRun_strands _⟩

end JetsonVoice.Tts
