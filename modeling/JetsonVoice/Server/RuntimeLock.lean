import JetsonVoice.Foundation.Exclusion
import JetsonVoice.Foundation.TransitionSystem

/-!
# Entries of the server into the runtime

The runtime owns one execution context, and `LLM` keeps a lock for it. In-process
generation, the worker of a stream and the prompt-cache warm-up take the lock
around their call; a chat completion that does not stream calls the runtime
without it.

## Implementation notes

A request is the thread that enters the runtime for it. Everything such a thread
does outside a call and outside the lock is left out, except the drain thread of
a stream, which may be gone while its worker still runs.
-/

namespace JetsonVoice.Server

open Foundation TransitionSystem

/-- What a `StreamChannel` has been told. -/
inductive Channel
  | live
  | finished
  | cancelled
  deriving DecidableEq, Repr

/-- Where the drain thread stands in `generate_stream`: in the loop over chunks,
in its `finally` before the cancel, in `worker.join`, or behind it. -/
inductive Drain
  | pulling
  | closing
  | joining
  | closed
  deriving DecidableEq, Repr

/-- The consumer side of one stream. -/
structure Stream where
  channel : Channel := .live
  stopFlag : Bool := false
  drain : Drain := .pulling
  deriving DecidableEq, Repr

/-- What a thread that enters the runtime runs. `generate` counts the prompts it
has still to do. -/
inductive Kind
  | generate (prompts : Nat)
  | generateStream (stream : Stream)
  | saveSystemPromptKvCache
  | chatCompletions
  deriving DecidableEq, Repr

/-- The calls made inside `with self._runtime_lock`. -/
def Kind.locks : Kind → Bool
  | .chatCompletions => false
  | _ => true

/-- Where a thread stands on its way through one call of the runtime: before the
lock, between the lock and the call, in the call, between the call and the end of
the `with` block, or done. -/
inductive Call
  | ahead
  | holding
  | inside
  | leaving (raised : Bool)
  | over
  deriving DecidableEq, Repr

structure Thread where
  kind : Kind
  call : Call := .ahead
  deriving DecidableEq, Repr

/-- What reaches the server. -/
inductive Request
  | generate (prompts : Nat)
  | cacheSystemPrompt
  | chatCompletions (stream : Bool)
  deriving DecidableEq, Repr

/-- The thread that enters the runtime for a request. -/
def Request.thread : Request → Thread
  | .generate prompts => { kind := .generate prompts }
  | .cacheSystemPrompt => { kind := .saveSystemPromptKvCache }
  | .chatCompletions stream =>
      { kind := if stream then .generateStream {} else .chatCompletions }

namespace Thread

/-- Inside `handle_request` or `save_system_prompt_kv_cache` of the runtime. -/
def inside (t : Thread) : Bool := t.call = .inside

/-- Between the acquisition of the lock and its release. -/
def locked (t : Thread) : Bool :=
  match t.call with
  | .holding | .inside | .leaving _ => t.kind.locks
  | .ahead | .over => false

/-- The start of the `with` block; `generate` has one for every prompt. -/
def acquire : Thread → Option Thread
  | ⟨.generate 0, _⟩ | ⟨.chatCompletions, _⟩ => none
  | ⟨kind, .ahead⟩ => some ⟨kind, .holding⟩
  | _ => none

/-- The call begins; a chat completion makes it without a `with` block. -/
def enter : Thread → Option Thread
  | ⟨.chatCompletions, .ahead⟩ => some ⟨.chatCompletions, .inside⟩
  | ⟨kind, .holding⟩ => some ⟨kind, .inside⟩
  | _ => none

/-- The call returns or raises. A stream that returns has finished its channel. -/
def leave (raised : Bool) : Thread → Option Thread
  | ⟨.chatCompletions, .inside⟩ => some ⟨.chatCompletions, .over⟩
  | ⟨.generateStream s, .inside⟩ =>
      let channel := if !raised && s.channel = .live then .finished else s.channel
      some ⟨.generateStream { s with channel }, .leaving raised⟩
  | ⟨kind, .inside⟩ => some ⟨kind, .leaving raised⟩
  | _ => none

/-- The end of the `with` block. `generate` goes on to its next prompt; the worker
of a stream cancels the channel of a call that raised. -/
def release : Thread → Option Thread
  | ⟨.generate (prompts + 1), .leaving false⟩ => some ⟨.generate prompts, .ahead⟩
  | ⟨.generateStream s, .leaving true⟩ =>
      some ⟨.generateStream { s with channel := .cancelled }, .over⟩
  | ⟨.chatCompletions, _⟩ => none
  | ⟨kind, .leaving _⟩ => some ⟨kind, .over⟩
  | _ => none

end Thread

/-- What happens on the consumer side of a stream: the client is found gone, the
drain thread takes a chunk (the last one or not), cancels, or ends its join. -/
inductive DrainEvent
  | disconnect
  | pull (last : Bool)
  | cancel
  | join (timedOut : Bool)
  deriving DecidableEq, Repr

/-- `_drain` and the `finally` of `generate_stream`. The join ends with the worker
or with its timeout. -/
def Stream.drainStep (workerOver : Bool) (s : Stream) : DrainEvent → Option Stream
  | .disconnect => some { s with stopFlag := true }
  | .pull last =>
      if s.drain = .pulling then
        some (if s.stopFlag || last then { s with drain := .closing } else s)
      else none
  | .cancel =>
      if s.drain = .closing then
        let channel := if s.channel = .live then .cancelled else s.channel
        some { s with channel, drain := .joining }
      else none
  | .join timedOut =>
      if s.drain = .joining && (timedOut || workerOver) then some { s with drain := .closed }
      else none

def Thread.drainStep (event : DrainEvent) : Thread → Option Thread
  | ⟨.generateStream s, call⟩ =>
      (s.drainStep (call = .over) event).map fun s => ⟨.generateStream s, call⟩
  | _ => none

/-- The threads of all requests so far, and the holder of `_runtime_lock`. -/
structure LLM where
  runtimeLock : Option Nat := none
  threads : List Thread := []
  deriving DecidableEq, Repr

inductive Label
  | arrive (request : Request)
  | acquire (i : Nat)
  | enter (i : Nat)
  | leave (i : Nat) (raised : Bool)
  | release (i : Nat)
  | drain (i : Nat) (event : DrainEvent)
  deriving DecidableEq, Repr

namespace LLM

/-- Thread `i` moves. -/
def onThread (s : LLM) (i : Nat) (f : Thread → Option Thread) : Option LLM :=
  (s.threads[i]?.bind f).map fun t => { s with threads := s.threads.set i t }

def step (s : LLM) : Label → Option LLM
  | .arrive request => some { s with threads := s.threads ++ [request.thread] }
  | .acquire i =>
      if s.runtimeLock = none then
        (s.onThread i Thread.acquire).map fun t => { t with runtimeLock := some i }
      else none
  | .enter i => s.onThread i Thread.enter
  | .leave i raised => s.onThread i (Thread.leave raised)
  | .release i => (s.onThread i Thread.release).map fun t => { t with runtimeLock := none }
  | .drain i event => s.onThread i (Thread.drainStep event)

/-- No two threads are inside the runtime. -/
def Serialised (s : LLM) : Prop := Exclusive Thread.inside s.threads

/-- While a thread is inside the runtime, another one enters only if both make
their call under the lock. -/
def EntersLocked (s : LLM) : Label → Prop
  | .enter i => ∀ t ∈ s.threads[i]?, ∀ u ∈ s.threads, u.inside = true →
      t.kind.locks = true ∧ u.kind.locks = true
  | _ => True

instance (s : LLM) : (label : Label) → Decidable (s.EntersLocked label)
  | .enter i => inferInstanceAs (Decidable (∀ t ∈ s.threads[i]?, ∀ u ∈ s.threads,
      u.inside = true → t.kind.locks = true ∧ u.kind.locks = true))
  | .arrive _ | .acquire _ | .leave _ _ | .release _ | .drain _ _ => .isTrue trivial

end LLM

/-- The server with all its request threads. -/
def server : TransitionSystem LLM Label where
  start := {}
  step := LLM.step

namespace Thread
variable {t t' : Thread}

theorem locked_of_inside (h : t.inside = true) (hkind : t.kind.locks = true) :
    t.locked = true := by
  have hcall : t.call = .inside := of_decide_eq_true h
  rw [locked, hcall, hkind]

theorem acquire_flags (h : t.acquire = some t') :
    t.locked = false ∧ t'.locked = true ∧ t.inside = false ∧ t'.inside = false := by
  unfold acquire at h
  split at h
  · cases h
  · cases h
  · rename_i kind _ hchat
    cases h
    cases kind with
    | chatCompletions => exact (hchat rfl).elim
    | _ => exact ⟨rfl, rfl, rfl, rfl⟩
  · cases h

theorem enter_flags (h : t.enter = some t') :
    t'.kind = t.kind ∧ t'.locked = t.locked ∧ t.locked = t.kind.locks ∧
      t.inside = false ∧ t'.inside = true := by
  unfold enter at h
  split at h <;> cases h <;> exact ⟨rfl, rfl, rfl, rfl, rfl⟩

theorem leave_flags {raised : Bool} (h : t.leave raised = some t') :
    t'.locked = t.locked ∧ t'.inside = false := by
  unfold leave at h
  split at h <;> cases h <;> exact ⟨rfl, rfl⟩

theorem release_flags (h : t.release = some t') :
    t.locked = true ∧ t'.locked = false ∧ t'.inside = false := by
  unfold release at h
  split at h
  · cases h
    exact ⟨rfl, rfl, rfl⟩
  · cases h
    exact ⟨rfl, rfl, rfl⟩
  · cases h
  · rename_i kind _ _ _ hchat
    cases h
    cases kind with
    | chatCompletions => exact (hchat rfl).elim
    | _ => exact ⟨rfl, rfl, rfl⟩
  · cases h

theorem drainStep_flags {event : DrainEvent} (h : t.drainStep event = some t') :
    t'.locked = t.locked ∧ t'.inside = t.inside := by
  unfold drainStep at h
  split at h
  · obtain ⟨s, -, rfl⟩ := Option.map_eq_some_iff.mp h
    exact ⟨rfl, rfl⟩
  · cases h

end Thread

@[simp] theorem Request.thread_flags (request : Request) :
    request.thread.locked = false ∧ request.thread.inside = false := by
  cases request <;> exact ⟨rfl, rfl⟩

namespace LLM
variable {s s' : LLM} {i : Nat}

theorem onThread_cases {f : Thread → Option Thread} (h : s.onThread i f = some s') :
    ∃ t t', s.threads[i]? = some t ∧ f t = some t' ∧
      s' = { s with threads := s.threads.set i t' } := by
  obtain ⟨t', hf, rfl⟩ := Option.map_eq_some_iff.mp h
  obtain ⟨t, ht, hf⟩ := Option.bind_eq_some_iff.mp hf
  exact ⟨t, t', ht, hf, rfl⟩

theorem acquire_cases (h : s.step (.acquire i) = some s') :
    s.runtimeLock = none ∧ ∃ t t', s.threads[i]? = some t ∧ t.acquire = some t' ∧
      s' = ⟨some i, s.threads.set i t'⟩ := by
  obtain ⟨hfree, h⟩ := Option.ite_none_right_eq_some.mp h
  obtain ⟨u, hu, rfl⟩ := Option.map_eq_some_iff.mp h
  obtain ⟨t, t', ht, hf, rfl⟩ := onThread_cases hu
  exact ⟨hfree, t, t', ht, hf, rfl⟩

theorem release_cases (h : s.step (.release i) = some s') :
    ∃ t t', s.threads[i]? = some t ∧ t.release = some t' ∧
      s' = ⟨none, s.threads.set i t'⟩ := by
  obtain ⟨u, hu, rfl⟩ := Option.map_eq_some_iff.mp h
  obtain ⟨t, t', ht, hf, rfl⟩ := onThread_cases hu
  exact ⟨t, t', ht, hf, rfl⟩

/-- The lock is held by the thread between its acquisition and its release. -/
def LockHeld (s : LLM) : Prop := HeldBy Thread.locked s.runtimeLock s.threads

theorem lockHeld_invariant : server.Invariant LockHeld where
  start := fun i => by simp [server]
  step {s label s'} h hs := by
    cases label with
    | arrive request =>
        cases hs
        exact h.grow request.thread_flags.1
    | acquire i =>
        obtain ⟨hfree, t, t', ht, hf, rfl⟩ := acquire_cases hs
        rw [LockHeld, hfree] at h
        exact h.take ht (Thread.acquire_flags hf).2.1
    | enter i =>
        obtain ⟨t, t', ht, hf, rfl⟩ := onThread_cases hs
        exact h.keep ht (Thread.enter_flags hf).2.1
    | leave i raised =>
        obtain ⟨t, t', ht, hf, rfl⟩ := onThread_cases hs
        exact h.keep ht (Thread.leave_flags hf).1
    | release i =>
        obtain ⟨t, t', ht, hf, rfl⟩ := release_cases hs
        have ⟨hold, hnew, _⟩ := Thread.release_flags hf
        exact h.give ht hold hnew
    | drain i event =>
        obtain ⟨t, t', ht, hf, rfl⟩ := onThread_cases hs
        exact h.keep ht (Thread.drainStep_flags hf).1

/-- A thread that moves without entering the runtime leaves it serialised. -/
theorem Serialised.set {t t' : Thread} (h : s.Serialised) (ht : s.threads[i]? = some t)
    (hin : t'.inside = true → t.inside = true) :
    Exclusive Thread.inside (s.threads.set i t') := by
  apply Exclusive.mono h
  intro j hj
  rw [any_set _ ht] at hj
  split at hj
  · next hji => rw [hji, ht, Option.any_some, hin hj]
  · exact hj

/-- Under the lock a thread enters the runtime beside no thread that also made its
call under the lock. -/
theorem LockHeld.alone {t u : Thread} (h : s.LockHeld) (ht : s.threads[i]? = some t)
    (hlock : t.locked = true) (hout : t.inside = false) (hu : u ∈ s.threads)
    (hkind : u.kind.locks = true) : u.inside = false := by
  apply Bool.eq_false_of_not_eq_true
  intro hin
  obtain ⟨j, hj⟩ := List.mem_iff_getElem?.mp hu
  have hulock := Thread.locked_of_inside hin hkind
  have hij : i = j :=
    h.exclusive i j (by rw [ht, Option.any_some, hlock]) (by rw [hj, Option.any_some, hulock])
  subst hij
  obtain rfl : t = u := Option.some.inj (ht.symm.trans hj)
  rw [hout] at hin
  cases hin

/-- One step keeps the runtime serialised exactly when it does not bring two
threads together of which one made its call without the lock. -/
theorem Serialised.step_iff {label : Label} (h : s.Serialised) (hlock : s.LockHeld)
    (hs : server.step s label = some s') : s'.Serialised ↔ s.EntersLocked label := by
  cases label with
  | arrive request =>
      cases hs
      refine ⟨fun _ => trivial, fun _ => h.mono fun j hj => ?_⟩
      rwa [any_append_singleton request.thread_flags.2] at hj
  | acquire i =>
      obtain ⟨_, t, t', ht, hf, rfl⟩ := acquire_cases hs
      have hout := (Thread.acquire_flags hf).2.2.2
      exact ⟨fun _ => trivial, fun _ => h.set ht fun hin => by rw [hout] at hin; cases hin⟩
  | enter i =>
      obtain ⟨t, t', ht, hf, rfl⟩ := onThread_cases hs
      obtain ⟨-, -, hlocked, hout, hin⟩ := Thread.enter_flags hf
      refine (exclusive_set_iff ht hout hin).trans ⟨fun hnone => ?_, fun hent u hu => ?_⟩
      · intro r hr u hu huin
        rw [hnone u hu] at huin
        cases huin
      · apply Bool.eq_false_of_not_eq_true
        intro huin
        obtain ⟨ht', hu'⟩ := hent t ht u hu huin
        have hnot := hlock.alone ht (hlocked.trans ht') hout hu hu'
        rw [hnot] at huin
        cases huin
  | leave i raised =>
      obtain ⟨t, t', ht, hf, rfl⟩ := onThread_cases hs
      have hout := (Thread.leave_flags hf).2
      exact ⟨fun _ => trivial, fun _ => h.set ht fun hin => by rw [hout] at hin; cases hin⟩
  | release i =>
      obtain ⟨t, t', ht, hf, rfl⟩ := release_cases hs
      have hout := (Thread.release_flags hf).2.2
      exact ⟨fun _ => trivial, fun _ => h.set ht fun hin => by rw [hout] at hin; cases hin⟩
  | drain i event =>
      obtain ⟨t, t', ht, hf, rfl⟩ := onThread_cases hs
      exact ⟨fun _ => trivial, fun _ => h.set ht fun hin =>
        (Thread.drainStep_flags hf).2.symm.trans hin⟩

theorem serialised_invariant :
    (server.guard EntersLocked).Invariant fun s => s.LockHeld ∧ s.Serialised :=
  lockHeld_invariant.guard.relative (fun _ _ hi => nomatch hi) fun hlock h hs =>
    have ⟨hent, hs⟩ := guard_step.mp hs
    (h.step_iff hlock hs).mpr hent

/-- Among threads that all make their calls under the lock no two are inside. -/
theorem serialised_of_all_locks (h : server.Reachable s)
    (hall : ∀ t ∈ s.threads, t.kind.locks = true) : s.Serialised := by
  apply (lockHeld_invariant.of_reachable h).exclusive.mono
  intro j hj
  obtain ⟨t, ht, hin⟩ := (Option.any_eq_true _ _).mp hj
  have hlock := Thread.locked_of_inside hin (hall t (List.mem_of_getElem? ht))
  rw [ht, Option.any_some, hlock]

end LLM

/-- In a run that brings no two threads together inside the runtime of which one
made its call without the lock, no two threads are ever inside together; a step
that does so ends that. -/
theorem runtime_serialised_iff {s : LLM} (h : (server.guard LLM.EntersLocked).Reachable s) :
    s.Serialised ∧ ∀ {label s'}, server.step s label = some s' →
      (s'.Serialised ↔ s.EntersLocked label) := by
  have hser := (LLM.serialised_invariant.of_reachable h).2
  exact ⟨hser, fun hs => hser.step_iff (LLM.lockHeld_invariant.of_reachable h.of_guard) hs⟩

/-- A stream is in the runtime when its client goes; the drain thread cancels, gives
up its join and leaves, and a cache warm-up arrives. -/
def abandonedStream : List Label :=
  [.arrive (.chatCompletions true), .acquire 0, .enter 0, .drain 0 .disconnect,
    .drain 0 (.pull false), .drain 0 .cancel, .drain 0 (.join true), .arrive .cacheSystemPrompt]

theorem runtime_serialised_iff_abandoned :
    ∃ s s', (server.guard LLM.EntersLocked).Reachable s ∧ s.Serialised ∧
      server.step s (.leave 0 false) = some s' ∧ s'.Serialised := by
  obtain ⟨s, h, hs⟩ := exists_reachable (T := server.guard LLM.EntersLocked)
    (fun s => (server.step s (.leave 0 false)).isSome) abandonedStream (by decide)
  obtain ⟨s', hs⟩ := Option.isSome_iff_exists.mp hs
  obtain ⟨hser, hiff⟩ := runtime_serialised_iff h
  exact ⟨s, s', h, hser, hs, (hiff hs).mpr trivial⟩

/-- A chat completion that does not stream joins the worker of a stream inside the
runtime. -/
theorem chat_completion_joins_stream : ∃ s, server.Reachable s ∧ ¬ s.Serialised := by
  obtain ⟨s, h, hzero, hone⟩ := exists_reachable (T := server)
    (fun s => s.threads[0]?.any Thread.inside = true ∧ s.threads[1]?.any Thread.inside = true)
    [.arrive (.chatCompletions true), .arrive (.chatCompletions false), .acquire 0, .enter 0,
      .enter 1] (by decide)
  exact ⟨s, h, fun hser => absurd (hser 0 1 hzero hone) (by decide)⟩

end JetsonVoice.Server
