import JetsonVoice.Moss.Terminal

/-!
# What a cancel does in the MOSS worker

A `cancelled` event is emitted only for a request whose flag is set. A request
whose flag is set before a worker thread picks it up ends without audio: as
cancelled, or with the error of the checks that come before the flag is looked at.
-/

namespace JetsonVoice.Moss

open Foundation Protocol TransitionSystem

section Events
variable {w : Worker} {control t : Nat} {effect : Effect}

theorem eventsOf_apply_other (h : t ≠ control) :
    eventsOf (w.apply control effect).out t = eventsOf w.out t := by
  cases effect with
  | emit e => exact eventsOf_other h _ _
  | _ => rfl

theorem eventsOf_apply_quiet (h : ∀ e, effect ≠ .emit e) :
    eventsOf (w.apply control effect).out t = eventsOf w.out t := by
  cases effect with
  | emit e => exact absurd rfl (h e)
  | _ => rfl

end Events

/-- A cancellation is reported only where the flag is set. -/
structure Honest (w : Worker) : Prop where
  saw : ∀ {i : Nat} {task : Task} {id : String} {t0 : Int} {phase : Phase},
    w.threads[i]? = some (.running task id t0 phase) → phase.sawFlag = true →
      w.isCancelled task.control = true
  logged : ∀ {t : Nat} {e : Json}, e ∈ eventsOf w.out t → eventName e = "cancelled" →
    w.isCancelled t = true

namespace Honest
variable {c : Config} {w w' : Worker} {l : Label}

theorem keep (hh : Honest w) (mono : ∀ {t}, w.isCancelled t = true → w'.isCancelled t = true)
    (ht : ∀ {i : Nat} {task : Task} {id : String} {t0 : Int} {phase : Phase},
      w'.threads[i]? = some (.running task id t0 phase) → phase.sawFlag = true →
        w.threads[i]? = some (.running task id t0 phase))
    (hout : ∀ t, eventsOf w'.out t = eventsOf w.out t) : Honest w' where
  saw hi hs := mono (hh.saw (ht hi hs) hs)
  logged he hn := mono (hh.logged (hout _ ▸ he) hn)

theorem step (hh : Honest w) (h : Step c w l w') : Honest w' := by
  have mono {t : Nat} : w.isCancelled t = true → w'.isCancelled t = true := h.isCancelled_mono
  cases h with
  | @trip item id reading _ _ =>
      obtain ⟨-, ht, -, -, hout⟩ := trip_frame id reading
      exact hh.keep mono (fun h _ => ht ▸ h) fun _ => by rw [hout]
  | refuse _ _ => exact hh.keep mono (fun h _ => h) fun t => eventsOf_untagged _ _ t
  | ack _ => exact hh.keep mono (fun h _ => h) fun t => eventsOf_untagged _ _ t
  | pickUp _ _ _ =>
      refine hh.keep mono (fun hj hs => ?_) fun _ => rfl
      rcases getElem?_set_cases hj with ⟨-, heq, -⟩ | ⟨-, hj'⟩
      · cases heq
        cases hs
      · exact hj'
  | exit _ _ _ =>
      refine hh.keep mono (fun hj _ => ?_) fun _ => rfl
      rcases getElem?_set_cases hj with ⟨-, heq, -⟩ | ⟨-, hj'⟩
      · cases heq
      · exact hj'
  | @finish i a task id t0 hi =>
      obtain ⟨-, ht, -, hout⟩ := unregister_frame w id task.control
      refine hh.keep mono (fun hj _ => ?_) fun t => ?_
      · rcases getElem?_set_cases hj with ⟨-, heq, -⟩ | ⟨-, hj'⟩
        · cases heq
        · exact ht ▸ hj'
      · change eventsOf (unregister w id task.control).out t = _
        rw [hout]
  | @handle i a task id t0 phase next effect hi hstep =>
      obtain ⟨-, ht, -⟩ := apply_frame w task.control effect
      constructor
      · intro j task' id' t0' phase' hj hs
        rcases getElem?_set_cases hj with ⟨-, heq, -⟩ | ⟨-, hj'⟩
        · cases heq
          exact mono (handle_sawFlag hstep hs)
        · exact mono (hh.saw (ht ▸ hj') hs)
      · intro t e he hn
        cases effect with
        | emit e' =>
            by_cases hte : t = task.control
            · subst hte
              change e ∈ eventsOf (w.out ++ [(some task.control, e')]) task.control at he
              rw [eventsOf_tagged, List.mem_append, List.mem_singleton] at he
              rcases he with he | rfl
              · exact mono (hh.logged he hn)
              · exact mono (hh.saw hi (handle_cancelled hstep hn))
            · change e ∈ eventsOf (w.out ++ [(some task.control, e')]) t at he
              rw [eventsOf_other hte] at he
              exact mono (hh.logged he hn)
        | _ => exact mono (hh.logged he hn)
  | _ => exact hh.keep mono (fun h _ => h) fun _ => rfl

theorem init (c : Config) : Honest (.init c) where
  saw hi := by
    have := List.eq_of_mem_replicate (List.mem_of_getElem? hi)
    cases this
  logged he := by cases he

end Honest

theorem honest_invariant (c : Config) : (system c).Invariant Honest :=
  ⟨.init c, fun hh hs => hh.step (step_cases hs)⟩

/-- The terminal event of a request cancelled before it is picked up. -/
def EarlyEnding (task : Task) (e : Json) : Prop :=
  ∃ id, task.item.valueStr "id" "__request__" = .ok id ∧
    ((validate task.item = .ok () ∧ e = cancelledBeforeStart id) ∨
      ∃ what, validate task.item = .error what ∧ e = errorEvent id what [])

/-- How far a request cancelled before it is picked up has come. -/
inductive EarlyStage (w : Worker) (task : Task) : Prop
  | unpicked (hu : task ∈ w.unpicked) (hlog : eventsOf w.out task.control = [])
  | held {i : Nat} {id : String} {t0 : Int} {phase : Phase}
      (hi : w.threads[i]? = some (.running task id t0 phase))
      (hid : task.item.valueStr "id" "__request__" = .ok id)
      (hphase : phase = .start ∨ (phase = .conclude .beforeStart ∧ validate task.item = .ok ()) ∨
        ∃ what, phase = .report what ∧ validate task.item = .error what)
      (hlog : eventsOf w.out task.control = [])
  | ended {e : Json} (hclosed : task.control ∉ w.opens) (he : EarlyEnding task e)
      (hlog : eventsOf w.out task.control = [e])

section Early
variable {c : Config} {w w' : Worker} {l : Label} {task : Task}

/-- The controls of the open requests are distinct. -/
theorem Ledger.alone (hl : Ledger w) {i : Nat} {t : Thread} {held : Task}
    (hi : w.threads[i]? = some t) (ht : t.openTask? = some held) :
    held.control ∉ (w.setThread i .exited).opens := by
  have hreq := (requestsBy_setThread (f := Thread.openTask?) .exited hi).map Task.control
  have hnd := hreq.nodup_iff.mpr hl.accounted.nodup
  rw [ht] at hnd
  exact (List.nodup_cons.mp hnd).1

theorem Ledger.unpicked_ne (hl : Ledger w) {i : Nat} {t : Thread} {held : Task}
    (hi : w.threads[i]? = some t) (ht : t.openTask? = some held) (hu : task ∈ w.unpicked) :
    task.control ≠ held.control := fun heq =>
  hl.alone hi ht (heq ▸ List.mem_map_of_mem (List.mem_append_left _ hu))

theorem Ledger.held_ne (hl : Ledger w) {i j : Nat} {t t' : Thread} {held : Task}
    (hi : w.threads[i]? = some t) (ht : t.openTask? = some held)
    (hj : w.threads[j]? = some t') (ht' : t'.openTask? = some task) (hne : j ≠ i) :
    task.control ≠ held.control := fun heq => by
  refine hl.alone hi ht (heq ▸ List.mem_map_of_mem (List.mem_append_right _ ?_))
  refine List.mem_filterMap.mpr ⟨t', List.mem_of_getElem? (i := j) ?_, ht'⟩
  exact (getElem?_set_other hne).trans hj

/-- A step of another request writes nothing for this one. -/
theorem eventsOf_handle {item : Json} {id : String} {t0 : Int} {cancelled : Bool}
    {free : Option Nat} {a : Answer} {phase next : Phase} {effect : Effect} {control : Nat}
    (hh : Moss.handle c item id t0 cancelled free a phase = some (next, effect))
    (hne : phase.isOpen = true → task.control ≠ control) :
    eventsOf (w.apply control effect).out task.control = eventsOf w.out task.control := by
  rcases handle_emits hh with ⟨ho, -⟩ | ⟨ho, -⟩ | ⟨-, -, hsilent⟩
  · exact eventsOf_apply_other (hne ho)
  · exact eventsOf_apply_other (hne ho)
  · exact eventsOf_apply_quiet hsilent

/-- A step of a request opens no other. -/
theorem opens_handle {i : Nat} {held : Task} {id : String} {t0 : Int} {a : Answer}
    {phase next : Phase} {effect : Effect}
    (hi : w.threads[i]? = some (.running held id t0 phase))
    (hh : Moss.handle c held.item id t0 (w.isCancelled held.control) w.freeSlots.getLast? a phase
      = some (next, effect)) {control : Nat}
    (hm : control ∈ ((w.apply held.control effect).setThread i (.running held id t0 next)).opens) :
    control ∈ w.opens := by
  have hreq := (requestsBy_handle (f := Thread.openTask?) next effect hi).map Task.control
  rcases handle_emits hh with ⟨ho, hn, -⟩ | ⟨ho, hn, -⟩ | ⟨ho, hn, -⟩ <;>
    simp only [Thread.openTask?, ho, hn, Bool.false_eq_true, if_true, if_false,
      Option.toList_none, Option.toList_some, List.map_cons, List.nil_append,
      List.singleton_append] at hreq
  · exact ((List.perm_cons _).mp hreq).mem_iff.mp hm
  · exact hreq.mem_iff.mp (List.mem_cons_of_mem _ hm)
  · exact hreq.mem_iff.mp hm

namespace EarlyStage

/-- A step of the dispatch thread. -/
theorem keep_main (he : EarlyStage w task) (hu : task ∈ w.unpicked → task ∈ w'.unpicked)
    (ht : w'.threads = w.threads) (ho : task.control ∉ w.opens → task.control ∉ w'.opens)
    (hout : eventsOf w'.out task.control = eventsOf w.out task.control) :
    EarlyStage w' task := by
  cases he with
  | unpicked hm hlog => exact .unpicked (hu hm) (hout.trans hlog)
  | held hi hid hphase hlog => exact .held (ht.symm ▸ hi) hid hphase (hout.trans hlog)
  | ended hclosed he hlog => exact .ended (ho hclosed) he (hout.trans hlog)

/-- The steps of the request itself: the checks, the flag, the terminal event. -/
theorem own (hl : Ledger w) (hc : w.isCancelled task.control = true) {i : Nat} {id : String}
    {t0 : Int} {a : Answer} {phase next : Phase} {effect : Effect}
    (hi : w.threads[i]? = some (.running task id t0 phase))
    (hid : task.item.valueStr "id" "__request__" = .ok id)
    (hphase : phase = .start ∨ (phase = .conclude .beforeStart ∧ validate task.item = .ok ()) ∨
      ∃ what, phase = .report what ∧ validate task.item = .error what)
    (hlog : eventsOf w.out task.control = [])
    (hh : Moss.handle c task.item id t0 (w.isCancelled task.control) w.freeSlots.getLast? a phase
      = some (next, effect)) :
    EarlyStage ((w.apply task.control effect).setThread i (.running task id t0 next)) task := by
  obtain ⟨-, ht, -⟩ := apply_frame w task.control effect
  have hset : ((w.apply task.control effect).setThread i (.running task id t0 next)).threads[i]?
      = some (.running task id t0 next) := getElem?_set_same (ht.symm ▸ hi)
  -- Once its event is out the request is open nowhere.
  have settle {e : Json} (hopen : phase.isOpen = true) (hdone : next.isOpen = false)
      (he : effect = .emit e) (hend : EarlyEnding task e) :
      EarlyStage ((w.apply task.control effect).setThread i (.running task id t0 next)) task := by
    subst he
    refine .ended ?_ hend ?_
    · have hreq := (requestsBy_handle (f := Thread.openTask?) next (.emit e) hi).map Task.control
      simp only [Thread.openTask?, hopen, hdone, Bool.false_eq_true, if_true, if_false,
        Option.toList_none, Option.toList_some, List.nil_append, List.singleton_append,
        List.map_cons] at hreq
      exact (List.nodup_cons.mp (hreq.nodup_iff.mpr hl.accounted.nodup)).1
    · change eventsOf (w.out ++ [(some task.control, e)]) task.control = [e]
      rw [eventsOf_tagged, hlog, List.nil_append]
  rcases hphase with rfl | ⟨rfl, hv⟩ | ⟨what, rfl, hv⟩
  · simp only [Moss.handle] at hh
    split at hh
    · rename_i what hv
      cases hh
      exact .held hset hid (.inr (.inr ⟨what, rfl, hv⟩)) hlog
    · rename_i hv
      rw [if_pos hc] at hh
      cases hh
      exact .held hset hid (.inr (.inl ⟨rfl, hv⟩)) hlog
  · cases hh
    exact settle rfl rfl rfl ⟨id, hid, .inl ⟨hv, rfl⟩⟩
  · cases hh
    exact settle rfl rfl rfl ⟨id, hid, .inr ⟨what, hv, rfl⟩⟩

theorem step (hl : Ledger w) (hacc : task ∈ w.accepted)
    (hc : w.isCancelled task.control = true) (he : EarlyStage w task) (h : Step c w l w') :
    EarlyStage w' task := by
  cases h with
  | refuse _ _ => exact he.keep_main id rfl id (eventsOf_untagged _ _ _)
  | @trip item id reading _ _ =>
      obtain ⟨hu, ht, -, -, hout⟩ := trip_frame id reading
      refine he.keep_main (fun h => hu.symm ▸ h) ht (fun h => ?_) (by rw [hout])
      rwa [Worker.opens, requestsBy_congr hu ht]
  | @enrol item id reading _ _ _ _ =>
      have hu := unpicked_register id item reading
      refine he.keep_main (fun h => hu ▸ List.mem_cons_of_mem _ h) rfl (fun h hm => ?_) rfl
      rw [Worker.opens, Worker.requestsBy, hu] at hm
      rcases List.mem_cons.mp hm with heq | hm
      · exact absurd (hl.allocated hacc) (heq ▸ lt_irrefl _)
      · exact h hm
  | eof reading =>
      have hu : Worker.unpicked { w with stopping := true, main := .joining } = w.unpicked := by
        simp [Worker.unpicked, Main.task?, reading]
      refine he.keep_main (fun h => hu.symm ▸ h) rfl (fun h => ?_) rfl
      rwa [Worker.opens, requestsBy_congr hu rfl]
  | @enqueue queued hm =>
      have hu := unpicked_enqueue hm
      refine he.keep_main hu.mem_iff.mpr rfl (fun h hm => h ?_) rfl
      exact ((hu.append_right _).map _).mem_iff.mp hm
  | @ack id tripped hm =>
      have hu : Worker.unpicked { w.emit (cancelAck id tripped) with main := .reading }
          = w.unpicked := by
        simp [Worker.unpicked, Main.task?, hm, Worker.emit]
      refine he.keep_main (fun h => hu.symm ▸ h) rfl (fun h => ?_) (eventsOf_untagged _ _ _)
      rwa [Worker.opens, requestsBy_congr hu rfl]
  | join hm _ =>
      have hu : Worker.unpicked { w with main := .joined } = w.unpicked := by
        simp [Worker.unpicked, Main.task?, hm]
      refine he.keep_main (fun h => hu.symm ▸ h) rfl (fun h => ?_) rfl
      rwa [Worker.opens, requestsBy_congr hu rfl]
  | @pickUp i a picked queue id hi hq hid =>
      have hreq := (requestsBy_pickUp (f := Thread.openTask?) id a.now hi hq rfl rfl).map
        Task.control
      cases he with
      | unpicked hu hlog =>
          rcases List.mem_cons.mp ((unpicked_pickUp hq).mem_iff.mp hu) with rfl | hu
          · exact .held (getElem?_set_same hi) hid (.inl rfl) hlog
          · exact .unpicked hu hlog
      | @held j id' t0 phase hj hid' hphase hlog =>
          have hne : j ≠ i := by
            rintro rfl
            rw [hi] at hj
            cases hj
          exact .held ((getElem?_set_other hne).trans hj) hid' hphase hlog
      | ended hclosed hend hlog =>
          exact .ended (fun hm => hclosed (hreq.mem_iff.mp hm)) hend hlog
  | @exit i a hi hq _ =>
      have hreq := (requestsBy_setThread_same (f := Thread.openTask?) .exited hi rfl).map
        Task.control
      cases he with
      | unpicked hu hlog => exact .unpicked hu hlog
      | @held j id' t0 phase hj hid' hphase hlog =>
          have hne : j ≠ i := by
            rintro rfl
            rw [hi] at hj
            cases hj
          exact .held ((getElem?_set_other hne).trans hj) hid' hphase hlog
      | ended hclosed hend hlog =>
          exact .ended (fun hm => hclosed (hreq.mem_iff.mp hm)) hend hlog
  | @finish i a other id t0 hi =>
      obtain ⟨hu, ht, -, hout⟩ := unregister_frame w id other.control
      have hreq := (requestsBy_finish (f := Thread.openTask?) hi rfl).map Task.control
      have hlog' : eventsOf ((unregister w id other.control).setThread i .waiting).out task.control
          = eventsOf w.out task.control := congrArg (eventsOf · task.control) hout
      cases he with
      | unpicked hm hlog => exact .unpicked (hu.symm ▸ hm) (hlog'.trans hlog)
      | @held j id' t0' phase hj hid' hphase hlog =>
          have hne : j ≠ i := by
            rintro rfl
            rw [hi] at hj
            cases hj
            rcases hphase with h | ⟨h, -⟩ | ⟨_, h, -⟩ <;> cases h
          have hj' : (unregister w id other.control).threads[j]?
              = some (.running task id' t0' phase) := by rwa [ht]
          exact .held ((getElem?_set_other hne).trans hj') hid' hphase (hlog'.trans hlog)
      | ended hclosed hend hlog =>
          exact .ended (fun hm => hclosed (hreq.mem_iff.mp hm)) hend (hlog'.trans hlog)
  | @handle i a other id t0 phase next effect hi hh =>
      obtain ⟨hu, ht, -⟩ := apply_frame w other.control effect
      have hopen (ho : phase.isOpen = true) :
          Thread.openTask? (.running other id t0 phase) = some other := by
        simp [Thread.openTask?, ho]
      cases he with
      | unpicked hm hlog =>
          have hlog' := eventsOf_handle (w := w) hh fun ho => hl.unpicked_ne hi (hopen ho) hm
          exact .unpicked (hu.symm ▸ hm) (hlog'.trans hlog)
      | @held j id' t0' phase' hj hid' hphase hlog =>
          by_cases hji : j = i
          · subst hji
            rw [hi] at hj
            cases hj
            exact own hl hc hi hid' hphase hlog hh
          · have hopen' : Thread.openTask? (.running task id' t0' phase') = some task := by
              rcases hphase with rfl | ⟨rfl, -⟩ | ⟨_, rfl, -⟩ <;> rfl
            have hlog' := eventsOf_handle (w := w) hh fun ho =>
              hl.held_ne hi (hopen ho) hj hopen' hji
            have hj' : (w.apply other.control effect).threads[j]?
                = some (.running task id' t0' phase') := by rwa [ht]
            exact .held ((getElem?_set_other hji).trans hj') hid' hphase (hlog'.trans hlog)
      | ended hclosed hend hlog =>
          have hmem (ho : phase.isOpen = true) : other.control ∈ w.opens :=
            List.mem_map_of_mem (List.mem_append_right _
              (List.mem_filterMap.mpr ⟨_, List.mem_of_getElem? hi, hopen ho⟩))
          have hlog' := eventsOf_handle (w := w) hh fun ho heq => hclosed (heq ▸ hmem ho)
          exact .ended (fun hm => hclosed (opens_handle hi hh hm)) hend (hlog'.trans hlog)

/-- A request at an early stage is open and silent, or has written its ending only. -/
theorem log (he : EarlyStage w task) :
    (task.control ∈ w.opens ∧ eventsOf w.out task.control = []) ∨
      ∃ e, EarlyEnding task e ∧ eventsOf w.out task.control = [e] := by
  cases he with
  | unpicked hu hlog => exact .inl ⟨List.mem_map_of_mem (List.mem_append_left _ hu), hlog⟩
  | held hi hid hphase hlog =>
      refine .inl ⟨List.mem_map_of_mem (List.mem_append_right _ ?_), hlog⟩
      refine List.mem_filterMap.mpr ⟨_, List.mem_of_getElem? hi, ?_⟩
      rcases hphase with rfl | ⟨rfl, -⟩ | ⟨_, rfl, -⟩ <;> rfl
  | ended _ hend hlog => exact .inr ⟨_, hend, hlog⟩

end EarlyStage

/-- Nothing has been written for a request no worker thread has picked up. -/
def Silent (w : Worker) : Prop :=
  ∀ {task : Task}, task ∈ w.unpicked → eventsOf w.out task.control = []

theorem Silent.step (hl : Ledger w) (hs : Silent w) (h : Step c w l w') : Silent w' := by
  cases h with
  | refuse _ _ => exact fun hm => (eventsOf_untagged _ _ _).trans (hs hm)
  | @trip item id reading _ _ =>
      obtain ⟨hu, -, -, -, hout⟩ := trip_frame id reading
      intro task hm
      rw [hout]
      exact hs (hu ▸ hm)
  | @enrol item id reading _ _ _ _ =>
      intro task hm
      rw [unpicked_register _ _ reading] at hm
      rcases List.mem_cons.mp hm with rfl | hm
      · refine hl.accounted.unseen fun hmem => ?_
        obtain ⟨other, ho, heq⟩ := List.mem_map.mp hmem
        exact absurd (hl.allocated ho) (heq ▸ lt_irrefl _)
      · exact hs hm
  | eof reading => exact fun hm => hs (by simpa [Worker.unpicked, Main.task?, reading] using hm)
  | enqueue hm => exact fun hu => hs ((unpicked_enqueue hm).mem_iff.mp hu)
  | ack hm =>
      refine fun hu => (eventsOf_untagged _ _ _).trans (hs ?_)
      simpa [Worker.unpicked, Main.task?, hm, Worker.emit] using hu
  | join hm _ => exact fun hu => hs (by simpa [Worker.unpicked, Main.task?, hm] using hu)
  | pickUp hi hq _ =>
      exact fun hu => hs ((unpicked_pickUp hq).mem_iff.mpr (List.mem_cons_of_mem _ hu))
  | exit _ _ _ => exact hs
  | @finish i a task id t0 hi =>
      obtain ⟨hu, -, -, hout⟩ := unregister_frame w id task.control
      intro task' hm
      have hold := hs (hu ▸ hm : task' ∈ w.unpicked)
      exact (congrArg (eventsOf · task'.control) hout).trans hold
  | @handle i a other id t0 phase next effect hi hh =>
      obtain ⟨hu, -⟩ := apply_frame w other.control effect
      intro task hm
      have hm' : task ∈ w.unpicked := hu ▸ hm
      refine (eventsOf_handle hh fun ho => ?_).trans (hs hm')
      exact hl.unpicked_ne hi (by simp [Thread.openTask?, ho]) hm'

theorem silent_invariant (c : Config) :
    (system c).Invariant fun w => Ledger w ∧ Silent w :=
  (ledger_invariant c).relative (fun h => by cases h) fun hl hs h => hs.step hl (step_cases h)

/-- From the moment a request not yet picked up is cancelled, it writes nothing
but its ending. -/
theorem early_run (hr : (system c).Reachable w) (hu : task ∈ w.unpicked)
    (hc : w.isCancelled task.control = true) (h : (system c).Leads w w') :
    (task.control ∈ w'.opens ∧ eventsOf w'.out task.control = []) ∨
      ∃ e, EarlyEnding task e ∧ eventsOf w'.out task.control = [e] := by
  obtain ⟨hl, hs⟩ := (silent_invariant c).of_reachable hr
  have hacc : task ∈ w.accepted := hl.pending (List.mem_append_left _ hu)
  have hkeep : Ledger w' ∧ task ∈ w'.accepted ∧ w'.isCancelled task.control = true ∧
      EarlyStage w' task := by
    refine h.preserves (I := fun w => Ledger w ∧ task ∈ w.accepted ∧
      w.isCancelled task.control = true ∧ EarlyStage w task)
      ⟨hl, hacc, hc, .unpicked hu (hs hu)⟩ ?_
    rintro w l w' ⟨hl, hacc, hc, he⟩ hs
    have hstep := step_cases hs
    exact ⟨hl.step hstep, hstep.accepted hacc, hstep.isCancelled_mono hc, he.step hl hacc hc hstep⟩
  exact hkeep.2.2.2.log

end Early

end JetsonVoice.Moss
