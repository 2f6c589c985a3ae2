import JetsonVoice.Server.StreamResponse

/-!
# What a streamed response delivers

The deltas the engine yielded are those the response took, those on their way,
and at most one the drain thread dropped when it saw the stop flag. Whatever ends
a response sets the flag, and the drain thread then closes the generator by its
own next steps.
-/

namespace JetsonVoice.Server.Sse

open Foundation TransitionSystem

/-- How often the thread has closed the generator when it is there. -/
def Draining.closes : Draining → Nat
  | .finishing | .ended => 1
  | _ => 0

/-- The delta the thread holds. -/
def Draining.held : Draining → List Delta
  | .pulled d | .checked d => [d]
  | _ => []

/-- The thread is in its loop, or before it. -/
def Draining.inLoop : Draining → Prop
  | .notStarted | .advancing | .pulled _ | .checked _ | .handed => True
  | .failing | .closing | .finishing | .ended => False

/-- The most steps the thread takes up to its `close` once the stop flag is set. -/
def Draining.toClose : Draining → Nat
  | .advancing | .checked _ => 3
  | .pulled _ | .handed | .failing => 2
  | .closing => 1
  | .notStarted | .finishing | .ended => 0

/-- A step of the drain thread. -/
def Label.isDrain : Label → Bool
  | .next _ | .drain => true
  | _ => false

/-- The generator has answered. -/
def Label.isNext : Label → Bool
  | .next _ => true
  | _ => false

namespace Response
variable {W : Writer} {s t : Response W} {l : Label}

/-- The deltas between the generator and the executor. -/
def inFlight (s : Response W) : List Delta := s.queue.filterMap Item.delta? ++ s.drain.held

/-- The items on their way to the response. -/
def items (s : Response W) : List Item :=
  match s.reply with
  | .getting (some item) => item :: s.queue
  | _ => s.queue

/-- The deltas on their way. -/
def pending (s : Response W) : List Delta := s.items.filterMap Item.delta? ++ s.drain.held

/-- The response has not left its loop. -/
def inLoop (s : Response W) : Prop :=
  match s.reply with
  | .opening | .getting _ | .sending _ _ => True
  | .tearing _ | .trailing _ _ | .ended _ => False

/-- Where the parts of a response can be at the same time. -/
structure Wired (s : Response W) : Prop where
  opening : s.reply = .opening → s.drain = .notStarted
  notStarted : s.drain = .notStarted → s.reply = .opening ∨ s.reply = .ended .closed
  orphan : s.orphan = true → ¬ s.inLoop
  stop : ¬ s.inLoop → s.drain ≠ .notStarted → s.stopFlag = true
  disconnected : s.disconnected = true → s.stopFlag = true
  closes : s.closes = s.drain.closes

theorem wired_start : (system W).start.Wired where
  opening _ := rfl
  notStarted _ := .inl rfl
  orphan h := nomatch h
  stop h := absurd trivial h
  disconnected h := nomatch h
  closes := rfl

/-- The response's own steps leave the drain thread and the watcher alone, and leave
the loop with the stop flag set. -/
structure Replies (s t : Response W) : Prop where
  drain : t.drain = s.drain
  closes : t.closes = s.closes
  queue : t.queue = s.queue
  produced : t.produced = s.produced
  disconnected : t.disconnected = s.disconnected
  watcher : t.watcher = s.watcher
  notOpening : t.reply ≠ .opening
  stopFlag : t.inLoop ∧ t.stopFlag = s.stopFlag ∧ t.orphan = s.orphan ∨
    ¬ t.inLoop ∧ t.stopFlag = true

theorem replies_tear (s : Response W) (e : Exit) (orphan : Bool) :
    s.Replies ({ s with orphan }.tear e) :=
  ⟨rfl, rfl, rfl, rfl, rfl, rfl, nofun, .inr ⟨id, rfl⟩⟩

theorem replies_send (s : Response W) (d : Delta) (frames : List Frame) :
    s.Replies (s.send d frames) := by
  cases frames with
  | cons f rest => exact ⟨rfl, rfl, rfl, rfl, rfl, rfl, nofun, .inl ⟨trivial, rfl, rfl⟩⟩
  | nil =>
      simp only [send]
      split
      · exact ⟨rfl, rfl, rfl, rfl, rfl, rfl, nofun, .inr ⟨id, rfl⟩⟩
      · exact ⟨rfl, rfl, rfl, rfl, rfl, rfl, nofun, .inl ⟨trivial, rfl, rfl⟩⟩

theorem replies_handle (s : Response W) (item : Item) : s.Replies (s.handle item) := by
  cases item with
  | delta d =>
      obtain ⟨h1, h2, h3, h4, h5, h6, h7, h8⟩ := replies_send
        { s with draft := (s.draft.take d).1, consumed := s.consumed ++ [d] } d (s.draft.take d).2
      exact ⟨h1, h2, h3, h4, h5, h6, h7, h8⟩
  | error => exact ⟨rfl, rfl, rfl, rfl, rfl, rfl, nofun, .inr ⟨id, rfl⟩⟩
  | done => exact replies_tear s .broke s.orphan

/-- The response takes deltas from the front of what is on its way. -/
def Takes (s t : Response W) : Prop :=
  ∃ got rest, t.consumed = s.consumed ++ got ∧ s.items.filterMap Item.delta? = got ++ rest ∧
    (t.inLoop → t.items.filterMap Item.delta? = rest)

theorem items_send (s : Response W) (d : Delta) (frames : List Frame)
    (h : (s.send d frames).inLoop) : (s.send d frames).items = s.queue := by
  cases frames with
  | cons f rest => rfl
  | nil =>
      simp only [send] at h ⊢
      split_ifs at h ⊢
      · exact absurd h id
      · rfl

theorem consumed_send (s : Response W) (d : Delta) (frames : List Frame) :
    (s.send d frames).consumed = s.consumed := by
  cases frames with
  | cons f rest => rfl
  | nil =>
      simp only [send]
      split <;> rfl

theorem takes_handle {item : Item} (h : s.reply = .getting (some item)) :
    s.Takes (s.handle item) := by
  have hitems : s.items = item :: s.queue := by rw [items, h]
  cases item with
  | delta d =>
      refine ⟨[d], s.queue.filterMap Item.delta?, consumed_send .., by rw [hitems]; rfl, ?_⟩
      intro hin
      exact congrArg _ (items_send _ _ _ hin)
  | error | done => exact ⟨[], _, (List.append_nil _).symm, rfl, fun hin => absurd hin id⟩

theorem takes_of_not_inLoop (hc : t.consumed = s.consumed) (h : ¬ t.inLoop) : s.Takes t :=
  ⟨[], _, by rw [hc, List.append_nil], rfl, fun hin => absurd hin h⟩

theorem takes_send {d : Delta} {frames : List Frame} (h : s.items = s.queue) :
    s.Takes (s.send d frames) :=
  ⟨[], _, by rw [consumed_send, List.append_nil], rfl, fun hin => by rw [items_send _ _ _ hin, h]⟩

/-- The steps behind the loop only change what is sent and where the response is. -/
structure Ends (s t : Response W) : Prop where
  drain : t.drain = s.drain
  closes : t.closes = s.closes
  produced : t.produced = s.produced
  consumed : t.consumed = s.consumed
  disconnected : t.disconnected = s.disconnected
  stopFlag : t.stopFlag = s.stopFlag
  notInLoop : ¬ t.inLoop

theorem ends_trail (s : Response W) (raises : Bool) (frames : List Frame) :
    s.Ends (s.trail raises frames) := by
  cases frames <;> exact ⟨rfl, rfl, rfl, rfl, rfl, rfl, id⟩

theorem ends_leave (s : Response W) (e : Exit) : s.Ends (s.leave e) := by
  cases e with
  | broke => exact ends_trail ..
  | raised => exact ⟨rfl, rfl, rfl, rfl, rfl, rfl, id⟩
  | closed => exact ⟨rfl, rfl, rfl, rfl, rfl, rfl, id⟩

theorem Wired.replies (hw : s.Wired) (hs : s.inLoop) (hstart : s.drain ≠ .notStarted)
    (h : s.Replies t) : t.Wired := by
  have hmono : s.stopFlag = true → t.stopFlag = true := by
    intro hstop
    rcases h.stopFlag with ⟨-, hflag, -⟩ | ⟨-, hflag⟩
    · rw [hflag, hstop]
    · exact hflag
  constructor
  · intro hopen
    exact absurd hopen h.notOpening
  · intro hnot
    exact absurd (h.drain ▸ hnot) hstart
  · intro horphan
    rcases h.stopFlag with ⟨-, -, hsame⟩ | ⟨hout, -⟩
    · exact absurd hs (hw.orphan (hsame ▸ horphan))
    · exact hout
  · intro hout _
    rcases h.stopFlag with ⟨hin, -, -⟩ | ⟨-, hflag⟩
    · exact absurd hin hout
    · exact hflag
  · intro hdis
    exact hmono (hw.disconnected (h.disconnected ▸ hdis))
  · rw [h.closes, h.drain, hw.closes]

theorem Wired.ends (hw : s.Wired) (hs : ¬ s.inLoop) (hstart : s.drain ≠ .notStarted)
    (h : s.Ends t) : t.Wired := by
  have hstop : t.stopFlag = true := h.stopFlag ▸ hw.stop hs hstart
  constructor
  · intro hopen
    exact absurd (show t.inLoop by rw [inLoop, hopen]; trivial) h.notInLoop
  · intro hnot
    exact absurd (h.drain ▸ hnot) hstart
  · exact fun _ => h.notInLoop
  · exact fun _ _ => hstop
  · exact fun _ => hstop
  · rw [h.closes, h.drain, hw.closes]

/-- A step of the drain thread. -/
structure Drains (s t : Response W) : Prop where
  reply : t.reply = s.reply
  orphan : t.orphan = s.orphan
  stopFlag : t.stopFlag = s.stopFlag
  disconnected : t.disconnected = s.disconnected
  consumed : t.consumed = s.consumed
  started : s.drain ≠ .notStarted
  notStarted : t.drain ≠ .notStarted
  closes : s.closes = s.drain.closes → t.closes = t.drain.closes
  flow : ∃ new lost, t.produced = s.produced ++ new ∧ s.inFlight ++ new = t.inFlight ++ lost ∧
    (new ≠ [] ∨ lost ≠ [] → s.drain.inLoop) ∧
    (t.drain.inLoop → lost = []) ∧ (s.stopFlag = false → lost = []) ∧
    (t.drain.inLoop → s.drain.inLoop)

theorem drains_next {r : Next} (h : s.nextStep r = some t) : s.Drains t := by
  unfold nextStep at h
  split_ifs at h with hd
  have hclosed : s.closes = s.drain.closes → s.closes = 0 := fun hc => by rw [hc, hd]; rfl
  have hinLoop : s.drain.inLoop := by rw [hd]; trivial
  have hstarted : s.drain ≠ .notStarted := by rw [hd]; exact nofun
  cases r with
  | yields d =>
      cases h
      refine ⟨rfl, rfl, rfl, rfl, rfl, hstarted, nofun, hclosed, [d], [], rfl, ?_, fun _ => hinLoop,
        fun _ => rfl, fun _ => rfl, fun _ => hinLoop⟩
      simp [inFlight, hd, Draining.held]
  | returns | raises | crashes =>
      cases h
      refine ⟨rfl, rfl, rfl, rfl, rfl, hstarted, nofun, hclosed, [], [], by simp, ?_, by simp,
        fun _ => rfl, fun _ => rfl, fun hin => absurd hin id⟩
      simp [inFlight, hd, Draining.held]

/-- A step outside the generator, where the thread drops nothing it holds. -/
theorem drains_of_inFlight (hr : t = { s with
      drain := t.drain, closes := t.closes, queue := t.queue }) (hstart : s.drain ≠ .notStarted)
    (hstart' : t.drain ≠ .notStarted) (hc : s.closes = s.drain.closes → t.closes = t.drain.closes)
    (hflight : s.inFlight = t.inFlight) (hin : t.drain.inLoop → s.drain.inLoop) : s.Drains t := by
  rw [hr]
  exact ⟨rfl, rfl, rfl, rfl, rfl, hstart, hstart', hc, [], [], by simp,
    by rw [List.append_nil, List.append_nil]; exact hflight, by simp, fun _ => rfl, fun _ => rfl,
    hin⟩

theorem drains_drain (h : s.drainStep = some t) : s.Drains t := by
  unfold drainStep at h
  cases hd : s.drain with
  | pulled d =>
      have hinLoop : s.drain.inLoop := by rw [hd]; trivial
      by_cases hstop : s.stopFlag = true
      · simp only [hd, if_pos hstop] at h
        cases h
        refine ⟨rfl, rfl, rfl, rfl, rfl, by simp [hd], nofun, fun hc => by rw [hc, hd]; rfl, [],
          [d], by simp, ?_, fun _ => hinLoop, fun hin => absurd hin id, by simp [hstop],
          fun _ => hinLoop⟩
        simp [inFlight, Draining.held, hd]
      · simp only [hd, if_neg hstop] at h
        cases h
        exact drains_of_inFlight rfl (by simp [hd]) nofun (fun hc => by rw [hc, hd]; rfl)
          (by simp [inFlight, Draining.held, hd]) fun _ => hinLoop
  | checked d =>
      simp only [hd] at h
      cases h
      exact drains_of_inFlight rfl (by simp [hd]) nofun (fun hc => by rw [hc, hd]; rfl)
        (by simp [inFlight, Draining.held, hd, Item.delta?]) fun _ => by rw [hd]; trivial
  | handed =>
      have hinLoop : s.drain.inLoop := by rw [hd]; trivial
      by_cases hstop : s.stopFlag = true
      · simp only [hd, if_pos hstop] at h
        cases h
        exact drains_of_inFlight rfl (by simp [hd]) nofun (fun hc => by rw [hc, hd]; rfl)
          (by simp [inFlight, Draining.held, hd]) fun _ => hinLoop
      · simp only [hd, if_neg hstop] at h
        cases h
        exact drains_of_inFlight rfl (by simp [hd]) nofun (fun hc => by rw [hc, hd]; rfl)
          (by simp [inFlight, Draining.held, hd]) fun _ => hinLoop
  | failing | closing | finishing =>
      simp only [hd] at h
      cases h
      exact drains_of_inFlight rfl (by simp [hd]) nofun
        (fun hc => by simp [hc, hd, Draining.closes])
        (by simp [inFlight, Draining.held, hd, Item.delta?]) fun hin => absurd hin id
  | notStarted | advancing | ended =>
      rw [hd] at h
      cases h

theorem Wired.drains (hw : s.Wired) (h : s.Drains t) : t.Wired := by
  have hin : t.inLoop ↔ s.inLoop := by rw [inLoop, inLoop, h.reply]
  constructor
  · intro hopen
    exact absurd (hw.opening (h.reply ▸ hopen)) h.started
  · intro hnot
    exact absurd hnot h.notStarted
  · rw [h.orphan, hin]
    exact hw.orphan
  · rw [hin, h.stopFlag]
    exact fun hout _ => hw.stop hout h.started
  · rw [h.disconnected, h.stopFlag]
    exact hw.disconnected
  · exact h.closes hw.closes

/-- A step that touches neither the drain thread's place nor the response's, or only
an item the response fetches, and may set the stop flag. -/
structure Aside (s t : Response W) : Prop where
  drain : t.drain = s.drain
  closes : t.closes = s.closes
  produced : t.produced = s.produced
  consumed : t.consumed = s.consumed
  inLoop : t.inLoop ↔ s.inLoop
  opening : t.reply = .opening ↔ s.reply = .opening
  closed : s.reply = .ended .closed → t.reply = .ended .closed
  items : s.inLoop → s.orphan = false → t.items = s.items
  orphan : t.orphan = true → s.orphan = true
  stopFlag : s.stopFlag = true → t.stopFlag = true
  disconnected : t.disconnected = true → s.disconnected = true ∨ t.stopFlag = true

theorem Wired.aside (hw : s.Wired) (h : s.Aside t) : t.Wired := by
  constructor
  · intro hopen
    exact h.drain ▸ hw.opening (h.opening.mp hopen)
  · intro hnot
    rcases hw.notStarted (h.drain ▸ hnot) with hopen | hclosed
    · exact .inl (h.opening.mpr hopen)
    · exact .inr (h.closed hclosed)
  · intro horphan hin
    exact hw.orphan (h.orphan horphan) (h.inLoop.mp hin)
  · intro hout hstart
    exact h.stopFlag (hw.stop (mt h.inLoop.mpr hout) (h.drain ▸ hstart))
  · intro hdis
    rcases h.disconnected hdis with hdis | hstop
    · exact h.stopFlag (hw.disconnected hdis)
    · exact hstop
  · rw [h.closes, h.drain, hw.closes]

theorem aside_get (h : s.getStep = some t) : s.Aside t := by
  unfold getStep at h
  split at h
  · cases h
  · rename_i item queue hq
    split_ifs at h with horphan hget
    · cases h
      exact ⟨rfl, rfl, rfl, rfl, .rfl, .rfl, id, fun _ hno => by simp [horphan] at hno, nofun, id,
        .inl⟩
    · cases h
      refine ⟨rfl, rfl, rfl, rfl, ?_, ?_, ?_, ?_, id, id, .inl⟩
      · simp [inLoop, hget]
      · simp [hget]
      · simp [hget]
      · simp [items, hget, hq]

theorem aside_look (h : s.lookStep = some t) : s.Aside t := by
  unfold lookStep at h
  by_cases hready : s.watcher = .ready
  · rw [if_pos hready] at h
    cases h
    exact ⟨rfl, rfl, rfl, rfl, .rfl, .rfl, id, fun _ _ => rfl, id, id, .inl⟩
  · rw [if_neg hready] at h
    cases h

theorem aside_probe {p : Probe} (h : s.probeStep p = some t) : s.Aside t := by
  unfold probeStep at h
  split_ifs at h
  cases p with
  | connected | otherError =>
      cases h
      exact ⟨rfl, rfl, rfl, rfl, .rfl, .rfl, id, fun _ _ => rfl, id, id, .inl⟩
  | disconnected | networkError =>
      cases h
      exact ⟨rfl, rfl, rfl, rfl, .rfl, .rfl, id, fun _ _ => rfl, id, fun _ => rfl,
        fun _ => .inr rfl⟩

theorem aside_watcherStops (h : s.watcherStopsStep = some t) : s.Aside t := by
  unfold watcherStopsStep at h
  split_ifs at h
  cases h
  exact ⟨rfl, rfl, rfl, rfl, .rfl, .rfl, id, fun _ _ => rfl, id, id, .inl⟩

/-- What one step of the response and the watcher can be. -/
inductive Happens (s t : Response W) : Prop where
  | aside (h : s.Aside t)
  | starts (hopen : s.reply = .opening) (h : t =
      { s with drain := .advancing, watcher := .ready, reply := .getting none })
  | dismissed (hopen : s.reply = .opening) (h : t = { s with reply := .ended .closed })
  | replies (hin : s.inLoop) (hopen : s.reply ≠ .opening) (h : s.Replies t) (htakes : s.Takes t)
  | ends (hout : ¬ s.inLoop) (hover : ∀ e, s.reply ≠ .ended e) (h : s.Ends t)

theorem happens_resume (h : s.resumeStep = some t) : s.Happens t := by
  unfold resumeStep at h
  split at h
  · rename_i hr
    cases h
    exact .starts hr rfl
  · rename_i item hr
    cases h
    exact .replies (by simp [inLoop, hr]) (by simp [hr]) (replies_handle s item) (takes_handle hr)
  · rename_i d rest hr
    cases h
    exact .replies (by simp [inLoop, hr]) (by simp [hr]) (replies_send s d rest)
      (takes_send (by rw [items, hr]))
  · rename_i e hr
    split_ifs at h
    cases h
    exact .ends (by simp [inLoop, hr]) (by simp [hr]) (ends_leave s e)
  · rename_i rest raises hr
    cases h
    exact .ends (by simp [inLoop, hr]) (by simp [hr]) (ends_trail s raises rest)
  · cases h

theorem happens_interrupt (h : s.interruptStep = some t) : s.Happens t := by
  unfold interruptStep at h
  split at h
  · rename_i fetched hr
    cases h
    exact .replies (by simp [inLoop, hr]) (by simp [hr]) (replies_tear ..)
      (takes_of_not_inLoop rfl id)
  · rename_i e hr
    cases h
    exact .ends (by simp [inLoop, hr]) (by simp [hr]) (ends_leave s e)
  · cases h

theorem happens_close (h : s.closeStep = some t) : s.Happens t := by
  unfold closeStep at h
  split at h
  · rename_i hr
    cases h
    exact .dismissed hr rfl
  · rename_i rest raises hr
    cases h
    exact .ends (by simp [inLoop, hr]) (by simp [hr]) ⟨rfl, rfl, rfl, rfl, rfl, rfl, id⟩
  · rename_i d rest hr
    cases h
    exact .replies (by simp [inLoop, hr]) (by simp [hr]) (replies_tear s .closed s.orphan)
      (takes_of_not_inLoop rfl id)
  · cases h

/-- A step is one of the drain thread, or it is not. -/
theorem step_cases (h : (system W).step s l = some t) :
    l.isDrain = true ∧ s.Drains t ∨ l.isDrain = false ∧ s.Happens t := by
  cases l with
  | next r => exact .inl ⟨rfl, drains_next h⟩
  | drain => exact .inl ⟨rfl, drains_drain h⟩
  | get => exact .inr ⟨rfl, .aside (aside_get h)⟩
  | look => exact .inr ⟨rfl, .aside (aside_look h)⟩
  | probe p => exact .inr ⟨rfl, .aside (aside_probe h)⟩
  | watcherStops => exact .inr ⟨rfl, .aside (aside_watcherStops h)⟩
  | resume => exact .inr ⟨rfl, happens_resume h⟩
  | interrupt => exact .inr ⟨rfl, happens_interrupt h⟩
  | close => exact .inr ⟨rfl, happens_close h⟩

theorem wired_step (hw : s.Wired) (h : (system W).step s l = some t) : t.Wired := by
  obtain ⟨-, h⟩ | ⟨-, h⟩ := step_cases h
  · exact hw.drains h
  cases h with
  | aside h => exact hw.aside h
  | starts hopen h =>
      subst h
      exact ⟨nofun, nofun, fun horphan => absurd (by simp [inLoop, hopen]) (hw.orphan horphan),
        fun hout => absurd trivial hout, hw.disconnected, by
          rw [hw.closes, hw.opening hopen]; rfl⟩
  | dismissed hopen h =>
      subst h
      exact ⟨nofun, fun _ => .inr rfl, fun _ => id, fun _ hnot => absurd (hw.opening hopen) hnot,
        hw.disconnected, hw.closes⟩
  | replies hin hopen h _ =>
      refine hw.replies hin (fun hnot => ?_) h
      rcases hw.notStarted hnot with hr | hr
      · exact hopen hr
      · simp [inLoop, hr] at hin
  | ends hout hover h =>
      refine hw.ends hout (fun hnot => ?_) h
      rcases hw.notStarted hnot with hr | hr
      · simp [inLoop, hr] at hout
      · exact hover _ hr

theorem wired_of_reachable (h : (system W).Reachable s) : s.Wired :=
  h.preserves wired_start wired_step

/-- The deltas the engine yielded, in order: those the response took, those on their
way, and what the drain thread dropped. -/
def Carried (s : Response W) : Prop :=
  ∃ lost, s.produced = s.consumed ++ s.pending ++ lost ∧
    (s.drain.inLoop → lost = []) ∧ (s.stopFlag = false → lost = [])

/-- Nothing is lost while the response is in its loop, and nothing repeated ever. -/
structure Delivers (s : Response W) : Prop where
  carried : s.inLoop → s.Carried
  consumed : s.consumed <+: s.produced

theorem pending_eq (s : Response W) : ∃ fetched : List Delta, ∀ t : Response W,
    t.reply = s.reply → t.pending = fetched ++ t.inFlight := by
  refine ⟨match s.reply with
    | .getting (some item) => item.delta?.toList
    | _ => [], fun t hr => ?_⟩
  rw [pending, items, inFlight, hr]
  split
  · rename_i item _
    cases hitem : item.delta? <;> simp [hitem]
  · rfl

theorem Delivers.drains (hd : s.Delivers) (h : s.Drains t) : t.Delivers := by
  obtain ⟨new, lost', hprod, hflow, hpull, hkeep, hstop, hback⟩ := h.flow
  refine ⟨fun hin => ?_, ?_⟩
  · obtain ⟨lost, heq, hdrain, hflag⟩ := hd.carried (by rwa [inLoop, ← h.reply])
    obtain ⟨fetched, hpending⟩ := pending_eq s
    have hsame : s.inFlight ++ lost ++ new = t.inFlight ++ (lost' ++ lost) := by
      by_cases hpulled : new ≠ [] ∨ lost' ≠ []
      · rw [hdrain (hpull hpulled), List.append_nil, List.append_nil, hflow]
      · push Not at hpulled
        obtain ⟨rfl, rfl⟩ := hpulled
        rw [List.append_nil, List.append_nil] at hflow
        rw [hflow, List.append_nil, List.nil_append]
    refine ⟨lost' ++ lost, ?_, fun hloop => ?_, fun hno => ?_⟩
    · rw [hprod, heq, hpending s rfl, hpending t h.reply, h.consumed]
      simp only [List.append_assoc] at hsame ⊢
      rw [hsame]
    · rw [hkeep hloop, hdrain (hback hloop), List.append_nil]
    · rw [h.stopFlag] at hno
      rw [hstop hno, hflag hno, List.append_nil]
  · rw [h.consumed, hprod]
    exact hd.consumed.trans (List.prefix_append ..)

theorem Delivers.aside (hd : s.Delivers) (hw : s.Wired) (h : s.Aside t) : t.Delivers := by
  refine ⟨fun hin => ?_, by rw [h.consumed, h.produced]; exact hd.consumed⟩
  have hins := h.inLoop.mp hin
  obtain ⟨lost, heq, hdrain, hflag⟩ := hd.carried hins
  have horphan : s.orphan = false := Bool.eq_false_iff.mpr fun ho => hw.orphan ho hins
  refine ⟨lost, ?_, h.drain ▸ hdrain, fun hno => hflag ?_⟩
  · rw [h.produced, h.consumed, heq, pending, pending, h.items hins horphan, h.drain]
  · exact Bool.eq_false_iff.mpr fun hs => by simp [h.stopFlag hs] at hno

theorem Delivers.replies (hd : s.Delivers) (hin : s.inLoop) (h : s.Replies t) (htakes : s.Takes t) :
    t.Delivers := by
  obtain ⟨lost, heq, hdrain, hflag⟩ := hd.carried hin
  obtain ⟨got, rest, hgot, hitems, hrest⟩ := htakes
  have hprod : t.produced = t.consumed ++ (rest ++ s.drain.held ++ lost) := by
    rw [h.produced, heq, hgot, pending, hitems]
    simp only [List.append_assoc]
  refine ⟨fun hint => ⟨lost, ?_, h.drain ▸ hdrain, fun hno => hflag ?_⟩,
    hprod ▸ List.prefix_append ..⟩
  · rw [hprod, pending, hrest hint, h.drain]
    simp only [List.append_assoc]
  · rcases h.stopFlag with ⟨-, hsame, -⟩ | ⟨hout, -⟩
    · rw [← hsame, hno]
    · exact absurd hint hout

theorem delivers_step (hw : s.Wired) (hd : s.Delivers) (h : (system W).step s l = some t) :
    t.Delivers := by
  obtain ⟨-, h⟩ | ⟨-, h⟩ := step_cases h
  · exact hd.drains h
  cases h with
  | aside h => exact hd.aside hw h
  | starts hopen h =>
      subst h
      refine ⟨fun _ => ?_, hd.consumed⟩
      obtain ⟨lost, heq, hdrain, hflag⟩ := hd.carried (by simp [inLoop, hopen])
      refine ⟨lost, ?_, fun _ => hdrain ?_, hflag⟩
      · simpa [pending, items, hopen, Draining.held, hw.opening hopen] using heq
      · rw [hw.opening hopen]
        trivial
  | dismissed hopen h =>
      subst h
      exact ⟨fun hin => absurd hin id, hd.consumed⟩
  | replies hin hopen h htakes => exact hd.replies hin h htakes
  | ends hout hover h =>
      exact ⟨fun hin => absurd hin h.notInLoop, by rw [h.consumed, h.produced]; exact hd.consumed⟩

theorem delivers_start : (system W).start.Delivers :=
  ⟨fun _ => ⟨[], rfl, fun _ => rfl, fun _ => rfl⟩, List.prefix_rfl⟩

theorem delivers_of_reachable (h : (system W).Reachable s) : s.Delivers := by
  have hboth := h.preserves (I := fun s => s.Wired ∧ s.Delivers) ⟨wired_start, delivers_start⟩
    fun hI hs => ⟨wired_step hI.1 hs, delivers_step hI.1 hI.2 hs⟩
  exact hboth.2

section Stop

theorem stopFlag_step (hs : s.stopFlag = true) (h : (system W).step s l = some t) :
    t.stopFlag = true := by
  obtain ⟨-, h⟩ | ⟨-, h⟩ := step_cases h
  · rw [h.stopFlag, hs]
  cases h with
  | aside h => exact h.stopFlag hs
  | starts _ h | dismissed _ h =>
      subst h
      exact hs
  | replies _ _ h =>
      rcases h.stopFlag with ⟨-, hsame, -⟩ | ⟨-, hset⟩
      · rw [hsame, hs]
      · exact hset
  | ends _ _ h => rw [h.stopFlag, hs]

/-- Only the drain thread moves the drain thread. -/
theorem drain_step (hw : s.Wired) (hstart : s.drain ≠ .notStarted) (hl : l.isDrain = false)
    (h : (system W).step s l = some t) : t.drain = s.drain := by
  obtain ⟨hdrain, -⟩ | ⟨-, h⟩ := step_cases h
  · rw [hl] at hdrain
    cases hdrain
  cases h with
  | aside h => exact h.drain
  | starts hopen | dismissed hopen => exact absurd (hw.opening hopen) hstart
  | replies _ _ h => exact h.drain
  | ends _ _ h => exact h.drain

/-- With the flag set, a step of the thread brings it closer to its `close`, and never
back to the generator. -/
theorem toClose_step (hs : s.stopFlag = true) (hl : l.isDrain = true)
    (h : (system W).step s l = some t) :
    t.drain.toClose ≤ s.drain.toClose - 1 ∧ t.drain ≠ .advancing ∧
      (l.isNext = true → s.drain = .advancing) := by
  cases l with
  | next r =>
      simp only [system, nextStep] at h
      split_ifs at h with hd
      rw [hd]
      cases r with
      | yields d | returns | raises | crashes =>
          cases h
          exact ⟨by simp [Draining.toClose], nofun, fun _ => rfl⟩
  | drain =>
      simp only [system, drainStep] at h
      cases hd : s.drain with
      | pulled d | handed =>
          simp only [hd, if_pos hs] at h
          cases h
          exact ⟨by simp [Draining.toClose], nofun, nofun⟩
      | checked d | failing | closing | finishing =>
          simp only [hd] at h
          cases h
          exact ⟨by simp [Draining.toClose], nofun, nofun⟩
      | notStarted | advancing | ended =>
          rw [hd] at h
          cases h
  | get | look | probe | watcherStops | resume | interrupt | close => cases hl

theorem started_step (hw : s.Wired) (hstart : s.drain ≠ .notStarted)
    (h : (system W).step s l = some t) : t.drain ≠ .notStarted := by
  obtain ⟨-, hdrains⟩ | ⟨hl, -⟩ := step_cases h
  · exact hdrains.notStarted
  · rwa [drain_step hw hstart hl h]

theorem started_run {ls : List Label} (hw : s.Wired) (hstart : s.drain ≠ .notStarted)
    (h : (system W).run s ls = some t) : t.drain ≠ .notStarted := by
  have hboth := (leads_of_run ls h).preserves (I := fun s => s.Wired ∧ s.drain ≠ .notStarted)
    ⟨hw, hstart⟩ fun hI hs => ⟨wired_step hI.1 hs, started_step hI.1 hI.2 hs⟩
  exact hboth.2

/-- Once the flag is set, every step of the thread counts down to its `close`, and it
is at most once more in the generator. -/
theorem run_toClose {ls : List Label} (hw : s.Wired) (hs : s.stopFlag = true)
    (hstart : s.drain ≠ .notStarted) (h : (system W).run s ls = some t) :
    t.drain.toClose ≤ s.drain.toClose - ls.countP Label.isDrain ∧
      ls.countP Label.isNext ≤ if s.drain = .advancing then 1 else 0 := by
  induction ls generalizing s with
  | nil =>
      cases h
      exact ⟨Nat.le_refl _, Nat.zero_le _⟩
  | cons l ls ih =>
      obtain ⟨u, hu, ht⟩ := Option.bind_eq_some_iff.mp h
      obtain ⟨hclose, hnext⟩ :=
        ih (wired_step hw hu) (stopFlag_step hs hu) (started_step hw hstart hu) ht
      cases hl : l.isDrain with
      | false =>
          have hnot : l.isNext = false := by cases l <;> first | rfl | cases hl
          rw [drain_step hw hstart hl hu] at hclose hnext
          simp only [List.countP_cons, hl, hnot]
          exact ⟨hclose, hnext⟩
      | true =>
          obtain ⟨hstep, hne, hadv⟩ := toClose_step hs hl hu
          rw [if_neg hne] at hnext
          simp only [List.countP_cons, hl, if_true]
          refine ⟨by omega, ?_⟩
          cases hn : l.isNext with
          | false =>
              simp only [Bool.false_eq_true, if_false]
              omega
          | true =>
              rw [if_pos (hadv hn), if_pos rfl]
              omega

/-- The thread can go on until it is over. -/
theorem drain_enabled (h : s.drain ≠ .notStarted) (hover : s.drain ≠ .ended) :
    (∀ r, ((system W).step s (.next r)).isSome = true) ∨
      ((system W).step s .drain).isSome = true := by
  cases hd : s.drain with
  | notStarted => exact absurd hd h
  | ended => exact absurd hd hover
  | advancing =>
      refine .inl fun r => ?_
      cases r <;> simp [system, nextStep, hd]
  | pulled | checked | handed | failing | closing | finishing =>
      exact .inr (by simp [system, drainStep, hd])

end Stop

end Response

end JetsonVoice.Server.Sse
