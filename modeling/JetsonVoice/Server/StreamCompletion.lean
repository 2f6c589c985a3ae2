import JetsonVoice.Server.StreamDelivery

/-!
# Undisturbed responses

Without a disconnect, a cancellation and an error of the engine, the response
writes every delta and then its trailing frames. The drain thread's last item is
the only one that ends the loop, and it stands behind all deltas.
-/

namespace JetsonVoice.Server.Sse

open Foundation TransitionSystem

namespace Draft
variable {W : Writer}

/-- The frames of a list of deltas, and what is noted behind them. -/
def run (d : Draft W) : List Delta → Draft W × List Frame
  | [] => (d, [])
  | delta :: deltas =>
      let (d', frames) := d.take delta
      let (d'', more) := (d'.note delta).run deltas
      (d'', frames ++ more)

theorem run_snoc (d : Draft W) (deltas : List Delta) (delta : Delta) :
    d.run (deltas ++ [delta]) =
      (((d.run deltas).1.take delta).1.note delta,
        (d.run deltas).2 ++ ((d.run deltas).1.take delta).2) := by
  induction deltas generalizing d with
  | nil => simp [run]
  | cons a deltas ih => simp only [List.cons_append, run, ih, List.append_assoc]

end Draft

/-- Neither a disconnect nor a cancellation nor an error of the engine. -/
def Label.calm : Label → Bool
  | .next .raises | .next .crashes | .probe .disconnected | .probe .networkError | .interrupt
  | .close => false
  | _ => true

/-- The most steps the thread takes to its end when the generator returns. -/
def Draining.left : Draining → Nat
  | .pulled _ => 6
  | .checked _ => 5
  | .handed | .notStarted => 4
  | .advancing => 3
  | .failing | .closing => 2
  | .finishing => 1
  | .ended => 0

namespace Response
variable {W : Writer} {s t : Response W} {l : Label}

/-- The responses that are not disturbed. -/
def calmSystem (W : Writer) : TransitionSystem (Response W) Label :=
  (system W).guard fun _ l => l.calm = true

/-- What has been written for some deltas. -/
def frames (W : Writer) (deltas : List Delta) : List Frame :=
  .role :: ((Draft.init W).run deltas).2

/-- The trailing frames behind some deltas, and whether an exception ends them. -/
def ending (W : Writer) (deltas : List Delta) : List Frame × Bool :=
  ((Draft.init W).run deltas).1.trailing false

/-- What has been written, wherever the response is. -/
def Written (s : Response W) : Prop :=
  match s.reply with
  | .opening => s.draft = .init W ∧ s.sent = [.role] ∧ s.consumed = []
  | .getting _ =>
      s.draft = ((Draft.init W).run s.consumed).1 ∧ s.sent = frames W s.consumed
  | .sending d rest =>
      s.draft.note d = ((Draft.init W).run s.consumed).1 ∧ s.sent ++ rest = frames W s.consumed
  | .tearing e =>
      e = .broke ∧ s.draft = ((Draft.init W).run s.consumed).1 ∧ s.sent = frames W s.consumed
  | .trailing rest raises =>
      raises = (ending W s.consumed).2 ∧
        s.sent ++ rest = frames W s.consumed ++ (ending W s.consumed).1
  | .ended e =>
      e = (if (ending W s.consumed).2 then .raised else .completed) ∧
        s.sent = frames W s.consumed ++ (ending W s.consumed).1

/-- An undisturbed response: nothing but deltas is on its way until the drain thread
is over, and the response leaves its loop when it has taken them all. -/
structure Calm (s : Response W) : Prop where
  disconnected : s.disconnected = false
  stopFlag : s.inLoop → s.stopFlag = false
  items : s.inLoop → ∃ ds : List Delta,
    s.items = ds.map .delta ++ if s.drain = .ended then [.done] else []
  notFailing : s.drain ≠ .failing
  drained : ¬ s.inLoop → s.drain = .ended ∧ s.consumed = s.produced
  cancelled : (∃ e, s.reply = .tearing e) → s.watcherCancelled = true
  written : s.Written

theorem calm_start : (system W).start.Calm where
  disconnected := rfl
  stopFlag _ := rfl
  items _ := ⟨[], rfl⟩
  notFailing := nofun
  drained h := absurd trivial h
  cancelled := nofun
  written := ⟨rfl, rfl, rfl⟩

/-- The frames of a delta, from where they are still to be yielded. -/
theorem written_send {d : Delta} {rest : List Frame} (hd : s.disconnected = false)
    (hdraft : s.draft.note d = ((Draft.init W).run s.consumed).1)
    (hsent : s.sent ++ rest = frames W s.consumed) : (s.send d rest).Written := by
  cases rest with
  | cons f rest =>
      exact ⟨hdraft, (List.append_assoc s.sent [f] rest).trans hsent⟩
  | nil =>
      rw [List.append_nil] at hsent
      rw [send, if_neg (by simp [hd])]
      exact ⟨hdraft, hsent⟩

theorem written_trail {raises : Bool} {rest : List Frame}
    (hraises : raises = (ending W s.consumed).2)
    (hsent : s.sent ++ rest = frames W s.consumed ++ (ending W s.consumed).1) :
    (s.trail raises rest).Written := by
  cases rest with
  | cons f rest =>
      exact ⟨hraises, (List.append_assoc s.sent [f] rest).trans hsent⟩
  | nil =>
      rw [List.append_nil] at hsent
      exact ⟨congrArg (fun b : Bool => if b then End.raised else .completed) hraises, hsent⟩

/-- A step of the drain thread that is no end of its loop but the regular one. -/
theorem Calm.drain {drain : Draining} {closes : Nat} {queue : List Item} {produced : List Delta}
    (hc : s.Calm) (hin : s.inLoop) (hfail : drain ≠ .failing)
    (hqueue : ∃ ds : List Delta, queue = s.queue ++ ds.map .delta ++
      if drain = .ended then [.done] else []) (hnot : s.drain ≠ .ended) :
    Calm { s with drain, closes, queue, produced } := by
  obtain ⟨ds, hitems⟩ := hc.items hin
  obtain ⟨more, hqueue⟩ := hqueue
  refine ⟨hc.disconnected, hc.stopFlag, fun _ => ⟨ds ++ more, ?_⟩, hfail,
    fun hout => absurd hin hout,
    hc.cancelled, hc.written⟩
  rw [if_neg hnot, List.append_nil] at hitems
  have happend : Response.items { s with drain, closes, queue, produced } =
      s.items ++ (more.map .delta ++ if drain = .ended then [.done] else []) := by
    unfold Response.items
    rw [hqueue]
    cases s.reply with
    | getting fetched => cases fetched <;> simp
    | _ => simp
  rw [happend, hitems, List.map_append, List.append_assoc]

theorem Calm.inLoop_of_drain (hc : s.Calm) (h : s.drain ≠ .ended) : s.inLoop := by
  by_contra hout
  exact h (hc.drained hout).1

theorem calm_drains (hc : s.Calm) (hl : l.calm = true) (hdrain : l.isDrain = true)
    (h : (system W).step s l = some t) : t.Calm := by
  cases l with
  | next r =>
      simp only [system, nextStep] at h
      split_ifs at h with hd
      have hnot : s.drain ≠ .ended := by simp [hd]
      cases r with
      | yields d | returns =>
          cases h
          exact hc.drain (hc.inLoop_of_drain hnot) (by simp) ⟨[], by simp⟩ hnot
      | raises | crashes => cases hl
  | drain =>
      simp only [system, drainStep] at h
      cases hd : s.drain with
      | pulled d | handed =>
          have hnot : s.drain ≠ .ended := by simp [hd]
          have hin := hc.inLoop_of_drain hnot
          have hstop : ¬ s.stopFlag = true := by simp [hc.stopFlag hin]
          simp only [hd, if_neg hstop] at h
          cases h
          exact hc.drain hin (by simp) ⟨[], by simp⟩ hnot
      | checked d =>
          have hnot : s.drain ≠ .ended := by simp [hd]
          simp only [hd] at h
          cases h
          exact hc.drain (hc.inLoop_of_drain hnot) (by simp) ⟨[d], by simp⟩ hnot
      | closing | finishing =>
          have hnot : s.drain ≠ .ended := by simp [hd]
          simp only [hd] at h
          cases h
          exact hc.drain (hc.inLoop_of_drain hnot) (by simp) ⟨[], by simp⟩ hnot
      | failing => exact absurd hd hc.notFailing
      | notStarted | advancing | ended =>
          rw [hd] at h
          cases h
  | get | look | probe | watcherStops | resume | interrupt | close => cases hdrain

theorem calm_aside (hc : s.Calm) (hw : s.Wired) (h : s.Aside t)
    (hreply : t.Written ∧ (∀ e, t.reply = .tearing e → s.reply = .tearing e))
    (hdis : t.disconnected = s.disconnected) (hstop : t.stopFlag = s.stopFlag)
    (hcancel : t.watcherCancelled = s.watcherCancelled) : t.Calm where
  disconnected := hdis.trans hc.disconnected
  stopFlag hin := hstop.trans (hc.stopFlag (h.inLoop.mp hin))
  items hin := by
    have hins := h.inLoop.mp hin
    rw [h.items hins (Bool.eq_false_iff.mpr fun ho => hw.orphan ho hins), h.drain]
    exact hc.items hins
  notFailing := h.drain ▸ hc.notFailing
  drained hout := by
    rw [h.drain, h.consumed, h.produced]
    exact hc.drained (mt h.inLoop.mpr hout)
  cancelled := by
    rintro ⟨e, he⟩
    exact hcancel.trans (hc.cancelled ⟨e, hreply.2 e he⟩)
  written := hreply.1

theorem calm_get (hc : s.Calm) (hw : s.Wired) (h : (system W).step s .get = some t) : t.Calm := by
  have haside := aside_get h
  simp only [system, getStep] at h
  split at h
  · cases h
  · split_ifs at h with horphan hget
    · cases h
      exact calm_aside hc hw haside ⟨hc.written, fun _ => id⟩ rfl rfl rfl
    · cases h
      have hwritten := hc.written
      rw [Written, hget] at hwritten
      exact calm_aside hc hw haside ⟨hwritten, by rintro e ⟨⟩⟩ rfl rfl rfl

theorem calm_watcher (hc : s.Calm) (hw : s.Wired) (h : s.Aside t)
    (ht : t = { s with watcher := t.watcher }) : t.Calm := by
  rw [ht] at h ⊢
  exact calm_aside hc hw h ⟨hc.written, fun _ => id⟩ rfl rfl rfl

/-- Behind the loop nothing but the frames changes. -/
theorem Calm.ends (hc : s.Calm) (hout : ¬ s.inLoop) (h : s.Ends t)
    (hcancel : ∀ e, t.reply ≠ .tearing e) (hwritten : t.Written) : t.Calm where
  disconnected := h.disconnected.trans hc.disconnected
  stopFlag hin := absurd hin h.notInLoop
  items hin := absurd hin h.notInLoop
  notFailing := h.drain ▸ hc.notFailing
  drained _ := by
    rw [h.drain, h.consumed, h.produced]
    exact hc.drained hout
  cancelled := fun ⟨e, he⟩ => absurd he (hcancel e)
  written := hwritten

/-- To go on with the frames of a delta keeps the response in its loop. -/
theorem calm_send {d : Delta} {rest : List Frame} (hd : s.disconnected = false)
    (hstop : s.stopFlag = false) (hitems : ∃ ds : List Delta,
      s.queue = ds.map .delta ++ if s.drain = .ended then [.done] else [])
    (hfail : s.drain ≠ .failing) (hdraft : s.draft.note d = ((Draft.init W).run s.consumed).1)
    (hsent : s.sent ++ rest = frames W s.consumed) : (s.send d rest).Calm := by
  have hr := replies_send s d rest
  have hin : (s.send d rest).inLoop := by
    cases rest with
    | cons f rest => trivial
    | nil =>
        rw [send, if_neg (by simp [hd])]
        trivial
  refine ⟨hr.disconnected.trans hd, fun _ => ?_, fun _ => ?_, hr.drain ▸ hfail,
    fun hout => absurd hin hout, ?_, written_send hd hdraft hsent⟩
  · rcases hr.stopFlag with ⟨-, hsame, -⟩ | ⟨hout, -⟩
    · rw [hsame, hstop]
    · exact absurd hin hout
  · rw [items_send _ _ _ hin, hr.drain]
    exact hitems
  · rintro ⟨e, he⟩
    rw [inLoop, he] at hin
    exact hin.elim

/-- When the drain thread's last item is reached, all deltas have been taken. -/
theorem consumed_of_done (hc : s.Calm) (hd : s.Delivers) (hr : s.reply = .getting (some .done)) :
    s.drain = .ended ∧ s.consumed = s.produced := by
  have hin : s.inLoop := by rw [inLoop, hr]; trivial
  obtain ⟨ds, hitems⟩ := hc.items hin
  obtain ⟨lost, hprod, -, hlost⟩ := hd.carried hin
  rw [items, hr] at hitems
  cases ds with
  | cons d ds => cases hitems
  | nil =>
      by_cases hover : s.drain = .ended
      · rw [if_pos hover] at hitems
        refine ⟨hover, ?_⟩
        rw [hprod, hlost (hc.stopFlag hin), pending, items, hr]
        simp only [hitems, hover]
        simp [Item.delta?, Draining.held]
      · rw [if_neg hover] at hitems
        cases hitems

theorem calm_handle {item : Item} (hc : s.Calm) (hd : s.Delivers)
    (hr : s.reply = .getting (some item)) : (s.handle item).Calm := by
  have hin : s.inLoop := by rw [inLoop, hr]; trivial
  obtain ⟨ds, hitems⟩ := hc.items hin
  rw [items, hr] at hitems
  have hwritten := hc.written
  rw [Written, hr] at hwritten
  obtain ⟨hdraft, hsent⟩ := hwritten
  cases item with
  | delta d =>
      have hhandle : s.handle (.delta d) =
          send { s with draft := (s.draft.take d).1, consumed := s.consumed ++ [d] } d
            (s.draft.take d).2 := rfl
      rw [hhandle]
      refine calm_send hc.disconnected (hc.stopFlag hin) ?_ hc.notFailing ?_ ?_
      · cases ds with
        | nil =>
            by_cases hover : s.drain = .ended
            · rw [if_pos hover] at hitems
              cases hitems
            · rw [if_neg hover] at hitems
              cases hitems
        | cons a ds => exact ⟨ds, (List.cons_eq_cons.mp hitems).2⟩
      · rw [Draft.run_snoc, hdraft]
      · rw [frames, Draft.run_snoc, hdraft, hsent, frames, List.cons_append]
  | error =>
      cases ds with
      | nil =>
          by_cases hover : s.drain = .ended
          · rw [if_pos hover] at hitems
            cases hitems
          · rw [if_neg hover] at hitems
            cases hitems
      | cons a ds => cases hitems
  | done =>
      exact ⟨hc.disconnected, fun hin => absurd hin id, fun hin => absurd hin id, hc.notFailing,
        fun _ => consumed_of_done (s := s) hc hd hr, fun _ => rfl, rfl, hdraft, hsent⟩

theorem calm_resume (hc : s.Calm) (hw : s.Wired) (hd : s.Delivers)
    (h : (system W).step s .resume = some t) : t.Calm := by
  have hwritten := hc.written
  simp only [system, resumeStep] at h
  split at h
  · rename_i hr
    cases h
    rw [Written, hr] at hwritten
    obtain ⟨hdraft, hsent, hconsumed⟩ := hwritten
    have hin : s.inLoop := by rw [inLoop, hr]; trivial
    obtain ⟨ds, hitems⟩ := hc.items hin
    rw [items, hr, hw.opening hr] at hitems
    refine ⟨hc.disconnected, fun _ => hc.stopFlag hin, fun _ => ⟨ds, hitems⟩, by simp,
      fun hout => absurd trivial hout, by rintro ⟨e, ⟨⟩⟩, ?_, ?_⟩
    · rw [hdraft, hconsumed]
      rfl
    · rw [hsent, hconsumed]
      rfl
  · rename_i item hr
    cases h
    exact calm_handle hc hd hr
  · rename_i d rest hr
    cases h
    rw [Written, hr] at hwritten
    have hin : s.inLoop := by rw [inLoop, hr]; trivial
    have hitems := hc.items hin
    rw [items, hr] at hitems
    exact calm_send hc.disconnected (hc.stopFlag hin) hitems hc.notFailing hwritten.1 hwritten.2
  · rename_i e hr
    split_ifs at h
    cases h
    rw [Written, hr] at hwritten
    obtain ⟨rfl, hdraft, hsent⟩ := hwritten
    have hout : ¬ s.inLoop := by rw [inLoop, hr]; exact id
    have hleave : s.leave .broke = s.trail (ending W s.consumed).2 (ending W s.consumed).1 := by
      rw [leave, hc.disconnected, hdraft]
      rfl
    rw [hleave]
    exact hc.ends hout (ends_trail ..) (by cases (ending W s.consumed).1 <;> rintro e ⟨⟩)
      (written_trail rfl (by rw [hsent]))
  · rename_i rest raises hr
    cases h
    rw [Written, hr] at hwritten
    have hout : ¬ s.inLoop := by rw [inLoop, hr]; exact id
    exact hc.ends hout (ends_trail ..) (by cases rest <;> rintro e ⟨⟩)
      (written_trail hwritten.1 hwritten.2)
  · cases h

theorem calm_step (hc : s.Calm) (hw : s.Wired) (hd : s.Delivers) (hl : l.calm = true)
    (h : (system W).step s l = some t) : t.Calm := by
  cases l with
  | next r => exact calm_drains hc hl rfl h
  | drain => exact calm_drains hc hl rfl h
  | get => exact calm_get hc hw h
  | look =>
      have haside := aside_look h
      simp only [system, lookStep] at h
      by_cases hready : s.watcher = .ready
      · rw [if_pos hready] at h
        cases h
        exact calm_watcher hc hw haside rfl
      · rw [if_neg hready] at h
        cases h
  | probe p =>
      have haside := aside_probe h
      simp only [system, probeStep] at h
      split_ifs at h
      cases p with
      | connected | otherError =>
          cases h
          exact calm_watcher hc hw haside rfl
      | disconnected | networkError => cases hl
  | watcherStops =>
      have haside := aside_watcherStops h
      simp only [system, watcherStopsStep] at h
      split_ifs at h
      cases h
      exact calm_watcher hc hw haside rfl
  | resume => exact calm_resume hc hw hd h
  | interrupt | close => cases hl

theorem calm_of_reachable (h : (calmSystem W).Reachable s) : s.Calm := by
  have hall := h.preserves (I := fun s => s.Wired ∧ s.Delivers ∧ s.Calm)
    ⟨wired_start, delivers_start, calm_start⟩ fun hI hs => by
      obtain ⟨hl, hs⟩ := guard_step.mp hs
      exact ⟨wired_step hI.1 hs, delivers_step hI.1 hI.2.1 hs, calm_step hI.2.2 hI.1 hI.2.1 hl hs⟩
  exact hall.2.2

section Progress

/-- An undisturbed response can come to its end from here. -/
def CanEnd (s : Response W) : Prop := ∃ t e, (calmSystem W).Leads s t ∧ t.reply = .ended e

theorem CanEnd.head (hl : l.calm = true) (h : (system W).step s l = some t) (ht : t.CanEnd) :
    s.CanEnd := by
  obtain ⟨u, e, hleads, hover⟩ := ht
  exact ⟨u, e, hleads.head (guard_step.mpr ⟨hl, h⟩), hover⟩

theorem canEnd_trail (s : Response W) (raises : Bool) (rest : List Frame) :
    (s.trail raises rest).CanEnd := by
  induction rest generalizing s with
  | nil => exact ⟨_, _, .refl, rfl⟩
  | cons f rest ih =>
      have hstep : (system W).step (s.trail raises (f :: rest)) .resume =
          some ((s.trail raises (f :: rest)).trail raises rest) := rfl
      exact CanEnd.head rfl hstep (ih _)

theorem canEnd_leave (s : Response W) (e : Exit) : (s.leave e).CanEnd := by
  cases e with
  | broke => exact canEnd_trail ..
  | raised => exact ⟨_, _, .refl, rfl⟩
  | closed => exact ⟨_, _, .refl, rfl⟩

theorem resume_tearing {e : Exit} (hr : s.reply = .tearing e) (hw : s.watcher = .ended) :
    (system W).step s .resume = some (s.leave e) := by
  simp only [system, resumeStep, hr, hw, if_true]

theorem canEnd_tearing {e : Exit} (hr : s.reply = .tearing e) (hc : s.watcherCancelled = true) :
    s.CanEnd := by
  have hresume {u : Response W} (hr : u.reply = .tearing e) (hw : u.watcher = .ended) :
      u.CanEnd :=
    CanEnd.head rfl (resume_tearing hr hw) (canEnd_leave u e)
  by_cases hw : s.watcher = .ended
  · exact hresume hr hw
  · have hstep : (system W).step s .watcherStops = some { s with watcher := .ended } := by
      simp [system, watcherStopsStep, hc, hw]
    exact CanEnd.head rfl hstep (hresume hr rfl)

theorem canEnd_send {d : Delta} {rest : List Frame} (hd : s.disconnected = false)
    (h : ∀ u : Response W, u.disconnected = false → u.queue = s.queue → u.orphan = s.orphan →
      u.reply = .getting none → u.CanEnd) : (s.send d rest).CanEnd := by
  induction rest generalizing s with
  | nil =>
      rw [send, if_neg (by simp [hd])]
      exact h _ hd rfl rfl rfl
  | cons f rest ih =>
      have hstep : (system W).step (s.send d (f :: rest)) .resume =
          some ((s.send d (f :: rest)).send d rest) := rfl
      exact CanEnd.head rfl hstep (ih hd h)

theorem canEnd_fetched {item : Item} (hr : s.reply = .getting (some item))
    (h : (s.handle item).CanEnd) : s.CanEnd := by
  have hstep : (system W).step s .resume = some (s.handle item) := by
    simp only [system, resumeStep, hr]
  exact CanEnd.head rfl hstep h

theorem canEnd_get {item : Item} {queue : List Item} (hq : s.queue = item :: queue)
    (horphan : s.orphan = false) (hr : s.reply = .getting none)
    (h : ∀ u : Response W, u.disconnected = s.disconnected → u.queue = queue →
      u.orphan = false → u.reply = .getting (some item) → u.CanEnd) : s.CanEnd := by
  have hstep : (system W).step s .get =
      some { s with reply := .getting (some item), queue } := by
    simp only [system, getStep, hq, horphan, hr, Bool.false_eq_true, if_false, if_true]
  exact CanEnd.head rfl hstep (h _ rfl rfl horphan rfl)

/-- Once the drain thread is over, the response takes what is left. The induction is
on the deltas on their way. -/
theorem canEnd_getting {ds : List Delta} (hd : s.disconnected = false)
    (hq : s.queue = ds.map .delta ++ [.done]) (horphan : s.orphan = false)
    (hr : s.reply = .getting none) : s.CanEnd := by
  induction ds generalizing s with
  | nil =>
      refine canEnd_get hq horphan hr fun u _ _ _ hur => canEnd_fetched hur ?_
      exact canEnd_tearing rfl rfl
  | cons d ds ih =>
      refine canEnd_get hq horphan hr fun u hud huq huo hur => canEnd_fetched hur ?_
      refine canEnd_send (hud.trans hd) fun v hvd hvq hvo hvr => ih hvd ?_ ?_ hvr
      · exact hvq.trans huq
      · exact hvo.trans huo

theorem canEnd_ended (hc : s.Calm) (hw : s.Wired) (hover : s.drain = .ended) : s.CanEnd := by
  cases hr : s.reply with
  | opening => cases (hw.opening hr).symm.trans hover
  | getting fetched =>
      have hin : s.inLoop := by rw [inLoop, hr]; trivial
      have horphan : s.orphan = false := Bool.eq_false_iff.mpr fun ho => hw.orphan ho hin
      obtain ⟨ds, hitems⟩ := hc.items hin
      rw [items, hr, if_pos hover] at hitems
      cases fetched with
      | none => exact canEnd_getting hc.disconnected hitems horphan hr
      | some item =>
          refine canEnd_fetched hr ?_
          cases ds with
          | nil =>
              obtain ⟨rfl, -⟩ := List.cons_eq_cons.mp hitems
              exact canEnd_tearing rfl rfl
          | cons d ds =>
              obtain ⟨rfl, hq⟩ := List.cons_eq_cons.mp hitems
              refine canEnd_send hc.disconnected fun u hud huq huo hur => ?_
              exact canEnd_getting hud (huq.trans hq) (huo.trans horphan) hur
  | sending d rest =>
      have hin : s.inLoop := by rw [inLoop, hr]; trivial
      have horphan : s.orphan = false := Bool.eq_false_iff.mpr fun ho => hw.orphan ho hin
      obtain ⟨ds, hitems⟩ := hc.items hin
      rw [items, hr, if_pos hover] at hitems
      have hstep : (system W).step s .resume = some (s.send d rest) := by
        simp only [system, resumeStep, hr]
      refine CanEnd.head rfl hstep (canEnd_send hc.disconnected fun u hud huq huo hur => ?_)
      exact canEnd_getting hud (huq.trans hitems) (huo.trans horphan) hur
  | tearing e => exact canEnd_tearing hr (hc.cancelled ⟨e, hr⟩)
  | trailing rest raises =>
      have hstep : (system W).step s .resume = some (s.trail raises rest) := by
        simp only [system, resumeStep, hr]
      exact CanEnd.head rfl hstep (canEnd_trail ..)
  | ended e => exact ⟨s, e, .refl, hr⟩

/-- An undisturbed response comes to its end when the engine's generator does. The
induction is on the steps the drain thread has still to take. -/
theorem canEnd_of_reachable (h : (calmSystem W).Reachable s) : s.CanEnd := by
  induction hn : s.drain.left using Nat.strongRecOn generalizing s with
  | ind n ih =>
      subst hn
      have hc := calm_of_reachable h
      have hw := wired_of_reachable h.of_guard
      have hgo {l : Label} {t : Response W} (hl : l.calm = true)
          (hs : (system W).step s l = some t) (hlt : t.drain.left < s.drain.left) : s.CanEnd :=
        CanEnd.head hl hs (ih _ hlt (h.step (guard_step.mpr ⟨hl, hs⟩)) rfl)
      have hin (hnot : s.drain ≠ .ended) : ¬ s.stopFlag = true := by
        simp [hc.stopFlag (hc.inLoop_of_drain hnot)]
      cases hd : s.drain with
      | ended => exact canEnd_ended hc hw hd
      | failing => exact absurd hd hc.notFailing
      | notStarted =>
          rcases hw.notStarted hd with hr | hr
          · refine hgo (l := .resume) rfl (by simp only [system, resumeStep, hr]; rfl) ?_
            simp [hd, Draining.left]
          · exact ⟨s, _, .refl, hr⟩
      | advancing =>
          refine hgo (l := .next .returns) rfl (by simp only [system, nextStep, hd]; rfl) ?_
          simp [hd, Draining.left]
      | pulled d | handed =>
          have hstop := hin (by simp [hd])
          refine hgo (l := .drain) rfl (by simp only [system, drainStep, hd, if_neg hstop]; rfl) ?_
          simp [hd, Draining.left]
      | checked d | closing | finishing =>
          refine hgo (l := .drain) rfl (by simp only [system, drainStep, hd]; rfl) ?_
          simp [hd, Draining.left]

end Progress

end Response

section Frames
variable {W : Writer}

/-- The content of a response, as it is searched for tool calls. -/
def contentText (W : Writer) (deltas : List Delta) : List Char :=
  let d := ((Draft.init W).run deltas).1
  (d.fields (W.flush d.think)).1.contentBuf

theorem Draft.done_notMem_field (d : Draft W) (name text : String) :
    Frame.done ∉ (d.field name text).2 := by
  unfold Draft.field
  split <;> simp

theorem Draft.done_notMem_fields (d : Draft W) (found : List (String × String)) :
    Frame.done ∉ (d.fields found).2 := by
  induction found generalizing d with
  | nil => exact List.not_mem_nil
  | cons a found ih =>
      rw [Draft.fields, List.mem_append]
      exact not_or.mpr ⟨d.done_notMem_field _ _, ih _⟩

theorem Draft.done_notMem_run (d : Draft W) (deltas : List Delta) :
    Frame.done ∉ (d.run deltas).2 := by
  induction deltas generalizing d with
  | nil => exact List.not_mem_nil
  | cons a deltas ih =>
      rw [Draft.run, List.mem_append]
      refine not_or.mpr ⟨?_, ih _⟩
      unfold Draft.take
      split
      · exact List.not_mem_nil
      · exact Draft.done_notMem_fields _ _

/-- The response has written the frames of the deltas, and the finish chunk and the
end mark at the end. -/
def Completed (W : Writer) (deltas : List Delta) (sent : List Frame) : Prop :=
  ∃ more reason, sent = Response.frames W deltas ++ more ++ [.finish reason W.cacheMetrics, .done]

/-- The trailing frames are complete if and only if the content can be searched. -/
theorem completed_iff (W : Writer) (deltas : List Delta) :
    Completed W deltas (Response.frames W deltas ++ (Response.ending W deltas).1) ↔
      (W.toolsEnabled = true → JsonReadable W.py (contentText W deltas)) := by
  have hclose (d : Draft W) (calls : List ToolCall) (cleaned : List Char) :
      ∃ more reason, d.close calls cleaned = more ++ [.finish reason W.cacheMetrics, .done] :=
    ⟨_, _, rfl⟩
  have hmore {flushed closing : List Frame}
      (h : ∃ more reason, closing = more ++ [.finish reason W.cacheMetrics, .done]) :
      Completed W deltas (Response.frames W deltas ++ (flushed ++ closing)) := by
    obtain ⟨more, reason, rfl⟩ := h
    exact ⟨flushed ++ more, reason, by simp only [List.append_assoc]⟩
  unfold Response.ending Draft.trailing
  simp only [Bool.false_and, Bool.false_eq_true, if_false]
  cases htools : W.toolsEnabled with
  | false => exact iff_of_true (hmore (hclose ..)) nofun
  | true =>
      simp only [Bool.not_true, Bool.false_eq_true, if_false, true_implies]
      rw [contentText, ← extractToolCalls_isSome_iff]
      generalize hextract : extractToolCalls W.py _ = found
      cases found with
      | some found => exact iff_of_true (hmore (hclose ..)) rfl
      | none =>
          refine iff_of_false ?_ nofun
          rintro ⟨more, reason, hsent⟩
          have hdone : Frame.done ∈ Response.frames W deltas ++ more ++
              [.finish reason W.cacheMetrics, .done] := by simp
          rw [← hsent, Response.frames, List.mem_append, List.mem_cons] at hdone
          rcases hdone with (hdone | hdone) | hdone
          · cases hdone
          · exact Draft.done_notMem_run _ _ hdone
          · exact Draft.done_notMem_fields _ _ hdone

end Frames

open Response

/-- In every order of steps the response takes a prefix of what the engine yields;
when it is over the stop flag is set; and once that is set the drain thread can
always go on, and within three of its own steps, one in the generator at most, it
has closed the generator, which it does once. Without a disconnect, a cancellation
and an engine error the response can come to its end, and at its end it has taken
all deltas, and has written their frames, the finish chunk and `[DONE]` if and only
if no exception escapes `json.loads` on its tool calls. -/
theorem stream_delivers_iff (W : Writer) :
    (∀ s, (system W).Reachable s → s.consumed <+: s.produced ∧ s.closes ≤ 1 ∧
      (∀ e, s.reply = .ended e → s.drain ≠ .notStarted → s.stopFlag = true) ∧
      (s.stopFlag = true → s.drain ≠ .notStarted →
        (s.drain ≠ .ended → (∀ r, ((system W).step s (.next r)).isSome = true) ∨
          ((system W).step s .drain).isSome = true) ∧
        ∀ ls t, (system W).run s ls = some t →
          ls.countP Label.isNext ≤ (if s.drain = .advancing then 1 else 0) ∧
          (3 ≤ ls.countP Label.isDrain → t.closes = 1))) ∧
    ∀ s, (calmSystem W).Reachable s → s.CanEnd ∧ ∀ e, s.reply = .ended e →
      s.consumed = s.produced ∧ (Completed W s.produced s.sent ↔
        (W.toolsEnabled = true → JsonReadable W.py (contentText W s.produced))) := by
  constructor
  · intro s hs
    have hw := wired_of_reachable hs
    refine ⟨(delivers_of_reachable hs).consumed, ?_, ?_, fun hstop hstart =>
      ⟨drain_enabled hstart, fun ls t hrun => ?_⟩⟩
    · rw [hw.closes]
      cases s.drain <;> simp [Draining.closes]
    · intro e he hstart
      exact hw.stop (by rw [inLoop, he]; exact id) hstart
    · obtain ⟨hclose, hnext⟩ := run_toClose hw hstop hstart hrun
      refine ⟨hnext, fun hthree => ?_⟩
      have hle : s.drain.toClose ≤ 3 := by
        cases s.drain <;> simp [Draining.toClose]
      have hzero : t.drain.toClose = 0 := by omega
      have hwt := wired_of_reachable (hs.leads (leads_of_run ls hrun))
      have hstart' : t.drain ≠ .notStarted := started_run hw hstart hrun
      rw [hwt.closes]
      cases hd : t.drain with
      | notStarted => exact absurd hd hstart'
      | finishing | ended => rfl
      | advancing | pulled | checked | handed | failing | closing =>
          rw [hd] at hzero
          cases hzero
  · intro s hs
    refine ⟨canEnd_of_reachable hs, fun e he => ?_⟩
    have hc := calm_of_reachable hs
    obtain ⟨-, hall⟩ := hc.drained (by rw [inLoop, he]; exact id)
    have hwritten := hc.written
    rw [Written, he] at hwritten
    refine ⟨hall, ?_⟩
    rw [hwritten.2, hall, completed_iff]

section Samples

/-- A writer that takes every text as content. -/
def contentWriter (py : Python) : Writer where
  Think := Unit
  think := ()
  feed _ text := ([("content", text)], ())
  flush _ := []
  Parser := Unit
  parser := ()
  parse _ _ := ([], ())
  py := py
  toolsEnabled := true
  cacheMetrics := none

/-- The steps of a response to one delta, up to the end of its loop. -/
def oneDelta (d : Delta) : List Label :=
  [.resume, .next (.yields d), .drain, .drain, .get] ++ .resume ::
    [.drain, .next .returns, .drain, .drain, .get, .resume, .watcherStops]

/-- The end of the loop when one delta was yielded. -/
def afterOne (py : Python) (d : Delta) : Response (contentWriter py) where
  drain := .ended
  closes := 1
  stopFlag := true
  watcher := .ended
  watcherCancelled := true
  reply := .tearing .broke
  draft := Draft.note ⟨(), (), d.text.toList, none⟩ d
  produced := [d]
  consumed := [d]

/-- The delta has been fetched. -/
def fetchedOne (py : Python) (d : Delta) : Response (contentWriter py) where
  drain := .handed
  watcher := .ready
  reply := .getting (some (.delta d))
  produced := [d]

theorem run_oneDelta (py : Python) {d : Delta} (h : d.text ≠ "") :
    (calmSystem (contentWriter py)).run (calmSystem (contentWriter py)).start (oneDelta d) =
      some (afterOne py d) := by
  have htake : Draft.take (.init (contentWriter py)) d = (⟨(), (), d.text.toList, none⟩, []) := by
    rw [Draft.take, if_neg h]
    rfl
  have hfirst : (calmSystem (contentWriter py)).run (calmSystem (contentWriter py)).start
      [.resume, .next (.yields d), .drain, .drain, .get] = some (fetchedOne py d) := rfl
  have hhandle : (fetchedOne py d).handle (.delta d) =
      { fetchedOne py d with
        reply := .getting none
        consumed := [d]
        draft := Draft.note ⟨(), (), d.text.toList, none⟩ d } := by
    have hinit : (fetchedOne py d).draft = .init (contentWriter py) := rfl
    rw [handle, hinit, htake]
    rfl
  have hsecond : (calmSystem (contentWriter py)).step (fetchedOne py d) .resume =
      some ((fetchedOne py d).handle (.delta d)) := rfl
  rw [oneDelta, run_append, hfirst, Option.bind_some, run, hsecond, hhandle]
  rfl

/-- A bare call with an array nested a thousand levels deep. -/
@[irreducible] def deepCall : List Char :=
  "\x7b\"name\":\"f\",\"arguments\":".toList ++ (List.replicate 1000 '[' ++
    List.replicate 1000 ']') ++ ['\x7d']

/-- Python as far as the texts below go: the nesting is a `RecursionError`. -/
def samplePython : Python where
  loads text := if text = deepCall then .raised else .decodeError
  dumps _ := ""
  callId _ := ""

def deepDelta : Delta := ⟨String.ofList deepCall, true, some "stop"⟩

theorem firstBlock_deepCall : firstBlock deepCall = none := by
  decide +kernel

theorem strip_deepCall : strip deepCall = deepCall := by
  decide +kernel

theorem extract_deepCall : extractToolCalls samplePython deepCall = none := by
  have hscan : scanBlocks samplePython deepCall.length deepCall [] [] = some ([], deepCall) := by
    rw [← scanBlocks_of_le (Nat.le_succ _), scanBlocks, firstBlock_deepCall]
    rfl
  have hbraced : isBraced deepCall = true := by decide +kernel
  have hload : samplePython.tryLoads deepCall = none :=
    tryLoads_eq_none_iff.mpr (by simp [samplePython])
  simp only [extractToolCalls, hscan, Option.bind_some, strip_deepCall, hbraced, hload]
  rfl

theorem deepDelta_text_ne : deepDelta.text ≠ "" := by
  have hne : deepCall ≠ [] := by decide +kernel
  intro h
  have hlist := congrArg String.toList h
  rw [deepDelta, String.toList_ofList] at hlist
  exact hne hlist

theorem resume_afterOne (py : Python) (d : Delta) :
    (system (contentWriter py)).step (afterOne py d) .resume =
      some ((afterOne py d).leave .broke) :=
  resume_tearing rfl rfl

theorem trailing_contentWriter {py : Python} (x : Draft (contentWriter py)) :
    x.trailing false =
      match extractToolCalls py x.contentBuf with
      | some (calls, cleaned) => (x.close calls cleaned, false)
      | none => ([], true) :=
  rfl

/-- When the tool calls cannot be read, nothing is written behind the loop. -/
theorem leave_afterOne {py : Python} {d : Delta} (h : extractToolCalls py d.text.toList = none) :
    (afterOne py d).leave .broke = { afterOne py d with reply := .ended .raised } := by
  have hbuf : (afterOne py d).draft.contentBuf = d.text.toList := by
    simp only [afterOne, Draft.note]
    split <;> rfl
  have htrailing : (afterOne py d).draft.trailing false = ([], true) := by
    rw [trailing_contentWriter, hbuf, h]
  have hdis : (afterOne py d).disconnected = false := rfl
  rw [leave, hdis, htrailing]
  rfl

/-- A response to one delta, taken to its end. -/
theorem stream_delivers_iff_one : ∃ s,
    (calmSystem (contentWriter samplePython)).Reachable s ∧ s.reply = .ended .completed ∧
      s.produced = [⟨"Go.", true, none⟩] ∧ s.consumed = s.produced := by
  obtain ⟨s, hs, hp⟩ := exists_reachable (T := calmSystem (contentWriter samplePython))
    (fun s => s.reply = .ended .completed ∧ s.produced = [⟨"Go.", true, none⟩])
    (oneDelta ⟨"Go.", true, none⟩ ++ [.resume, .resume, .resume, .resume]) (by decide)
  exact ⟨s, hs, hp.1, hp.2, (((stream_delivers_iff _).2 s hs).2 _ hp.1).1⟩

theorem not_completed_role (W : Writer) (deltas : List Delta) : ¬ Completed W deltas [.role] := by
  rintro ⟨more, reason, hsent⟩
  have hlen := congrArg List.length hsent
  simp [Response.frames] at hlen

/-- The exception of `json.loads` leaves the response without its finish chunk. -/
theorem deep_call_ends_response : ∃ s,
    (calmSystem (contentWriter samplePython)).Reachable s ∧ s.reply = .ended .raised ∧
      s.produced = [deepDelta] ∧ ¬ Completed (contentWriter samplePython) s.produced s.sent := by
  have hextract : extractToolCalls samplePython deepDelta.text.toList = none := by
    rw [deepDelta, String.toList_ofList, extract_deepCall]
  have hrun := reachable_of_run _ (run_oneDelta samplePython deepDelta_text_ne)
  have hstep := resume_afterOne samplePython deepDelta
  rw [leave_afterOne hextract] at hstep
  exact ⟨_, hrun.step (guard_step.mpr ⟨rfl, hstep⟩), rfl, rfl, not_completed_role _ _⟩

end Samples

end JetsonVoice.Server.Sse
