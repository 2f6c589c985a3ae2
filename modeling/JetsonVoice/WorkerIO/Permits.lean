import JetsonVoice.WorkerIO.Steps

/-!
# The permits of the semaphore

A request's phase says where its permit is. The free permits and the permits the
requests account for always add up to the concurrency, but one kind of them
never comes back: an acquire that returns after its future has been cancelled
has nobody to hand its permit to, because the result of a cancelled future
raises in the done-callback.
-/

namespace JetsonVoice.WorkerIO

open Foundation TransitionSystem

/-- Where the permit of a request is. -/
inductive Permit where
  | none
  /-- Granted to an acquire that has not returned to the request, nor to the
  done-callback that stands in for it. -/
  | granted
  | held
  | lost
  deriving DecidableEq

def Phase.permit : Phase → Permit
  | .acquiring .granted | .acquired | .abandoned .granted | .settling => .granted
  | .checking | .aborting _ | .registering | .writing | .unwriting _ | .awaiting | .yielded _
  | .popping _ | .releasing _ => .held
  | .lost => .lost
  | .acquiring _ | .abandoned _ | .cancelling _ | .ended _ => .none

/-- The request has a permit the semaphore does not. -/
def Phase.charged (p : Phase) : Bool := p.permit ≠ .none

/-- The acquire runs, or has run, for a future that has been cancelled. -/
def Phase.stray : Phase → Bool
  | .abandoned .blocked | .abandoned .granted | .lost => true
  | _ => false

/-- No request is in progress and no executor thread is inside `acquire`. -/
def Phase.quiet : Phase → Bool
  | .ended _ | .lost | .abandoned .queued => true
  | _ => false

namespace State

/-- The number of requests whose permit is at a given place. -/
def permits (s : State) (p : Permit) : Nat := s.requests.countP (·.phase.permit = p)

def charged (s : State) : Nat := s.requests.countP (·.phase.charged)

/-- Quiescence: every request is over and no acquire is left. -/
def Quiescent (s : State) : Prop := ∀ r ∈ s.requests, r.phase.quiet = true

instance (s : State) : Decidable s.Quiescent :=
  inferInstanceAs (Decidable (∀ r ∈ s.requests, r.phase.quiet = true))

theorem charged_eq (s : State) :
    s.charged = s.permits .held + s.permits .granted + s.permits .lost := by
  simp only [charged, permits]
  induction s.requests with
  | nil => rfl
  | cons r rs ih =>
      simp only [List.countP_cons, ih]
      cases hp : r.phase.permit <;> simp [Phase.charged, hp] <;> omega

end State

section Accounting
variable {s t : State} {l : Label} {i : Nat} {r : Request} {p : Phase} {concurrency : Int}

theorem Shift.charged (h : Shift s i r l p) : p.charged = r.phase.charged := by
  cases h with
  | @cancelAcquire job hp _ =>
      rw [hp]
      cases job <;> rfl
  | unwind hp =>
      rw [hp, WorkerIO.unwind]
      cases r.sync <;> rfl
  | start hp | deliver hp | startLate hp | lose hp | revoke hp | resume hp | refuse hp
  | pass hp _ _ | proceed hp _ | finish hp _ | cancelAcquired hp | cancelAwait hp _
  | closeGenerator hp | timeout hp _ =>
      rw [hp]
      rfl

theorem Frees.charged (h : Frees r p) : r.phase.charged = true ∧ p.charged = false := by
  cases h with
  | settle hp | abort hp | leave hp | leaveCancelling hp _ _ =>
      rw [hp]
      exact ⟨rfl, rfl⟩

theorem Pops.charged (h : Pops r p) : r.phase.charged = true ∧ p.charged = true := by
  cases h with
  | unwrite hp | cleanUp hp =>
      rw [hp]
      exact ⟨rfl, rfl⟩

/-- Replacing a request changes the charged permits by its own. -/
theorem charged_set (hi : s.requests[i]? = some r) (r' : Request) :
    (s.requests.set i r').countP (·.phase.charged) + r.phase.charged.toNat =
      s.charged + r'.phase.charged.toNat :=
  countP_set_add (fun r => r.phase.charged) hi

theorem charged_set_eq {r' : Request} (hi : s.requests[i]? = some r)
    (h : r'.phase.charged = r.phase.charged) :
    (s.requests.set i r').countP (·.phase.charged) = s.charged := by
  have := charged_set hi r'
  rw [h] at this
  omega

/-- The charged permits depend on the phases only. -/
theorem charged_congr {requests : List Request}
    (h : requests.map (·.phase) = s.requests.map (·.phase)) :
    requests.countP (·.phase.charged) = s.charged := by
  have hcount (rs : List Request) :
      rs.countP (·.phase.charged) = (rs.map (·.phase)).countP Phase.charged := by
    rw [List.countP_map]
    rfl
  rw [State.charged, hcount, hcount, h]

theorem charged_fresh {sync : Bool} {id : String} {payload : Json} :
    (s.requests ++ [fresh sync id payload]).countP (·.phase.charged) = s.charged := by
  have hnone : (fresh sync id payload).phase.charged = false := by cases sync <;> rfl
  simp [State.charged, hnone]

/-- No step creates or destroys a permit. -/
theorem Step.charged (h : Step s l t) : t.sem + t.charged = s.sem + s.charged := by
  cases h with
  | sendRequest | request => exact congrArg (s.sem + ·) charged_fresh
  | shift hi hs => exact congrArg (s.sem + ·) (charged_set_eq hi hs.charged)
  | @grant i r hi hp hsem =>
      have hset := charged_set hi (r.moveTo (if r.sync then .checking else .acquiring .granted))
      have hbefore : r.phase.charged = false := by rw [hp]; rfl
      have hafter : (r.moveTo (if r.sync then .checking else .acquiring .granted)).phase.charged
          = true := by
        cases hs : r.sync <;> simp [Request.moveTo, Phase.charged, Phase.permit, hs]
      rw [hbefore, hafter] at hset
      simp only [State.charged, State.set, Bool.toNat_false, Bool.toNat_true] at hset ⊢
      omega
  | @grantLate i r hi hp hsem =>
      have hset := charged_set hi (r.moveTo (.abandoned .granted))
      have hbefore : r.phase.charged = false := by rw [hp]; rfl
      have hafter : (r.moveTo (.abandoned .granted)).phase.charged = true := rfl
      rw [hbefore, hafter] at hset
      simp only [State.charged, State.set, Bool.toNat_false, Bool.toNat_true] at hset ⊢
      omega
  | @release i r p ok hi hf =>
      have hset := charged_set hi (r.moveTo p)
      have hafter : (r.moveTo p).phase.charged = false := hf.charged.2
      rw [hf.charged.1, hafter] at hset
      simp only [State.charged, State.release, State.set, Bool.toNat_false,
        Bool.toNat_true] at hset ⊢
      omega
  | register hi hp | write hi hp _ | exit hi hp _ _ | take hi hp _ _ | cancelled hi hp _ =>
      refine congrArg (s.sem + ·) (charged_set_eq hi ?_)
      rw [hp]
      rfl
  | pop hi hf => exact congrArg (s.sem + ·) (charged_set_eq hi (hf.charged.2.trans hf.charged.1.symm))
  | put | wake => exact congrArg (s.sem + ·) (charged_congr (map_put _ (fun _ _ => rfl) _ _ _))
  | broadcast => exact congrArg (s.sem + ·) (charged_congr (map_wakeAll _ (fun _ _ => rfl) _ _))
  | emit | hangUp | skip | crash | route | eof | fault | close | shut | drain => rfl

/-- In every run, the free permits and the permits charged to requests are the
configured ones. -/
theorem charged_invariant (concurrency : Int) :
    (multiplexer concurrency).Invariant fun s => s.sem + s.charged = (max 1 concurrency).toNat where
  start := rfl
  step h hs := (step_cases hs).charged.trans h

theorem permits_accounted (h : (multiplexer concurrency).Reachable s) :
    s.sem + s.permits .held + s.permits .granted + s.permits .lost = (max 1 concurrency).toNat := by
  have hsum := (charged_invariant concurrency).of_reachable h
  rw [s.charged_eq] at hsum
  omega

end Accounting

section Prompt
variable {s t : State} {l : Label} {concurrency : Int}

/-- The step leaves an acquire running for a cancelled future: it cancels a task
whose acquire is on an executor thread and has not delivered its result, or it
starts an acquire whose future is cancelled already. -/
def strays (s : State) : Label → Bool
  | .cancel i => (s.requests[i]?.map (·.phase)).any fun p =>
      p = .acquiring .blocked || p = .acquiring .granted
  | .executor i => (s.requests[i]?.map (·.phase)).any (· = .abandoned .queued)
  | _ => false

/-- The runs in which no acquire runs for a cancelled future. -/
def promptSystem (concurrency : Int) : TransitionSystem State Label :=
  (multiplexer concurrency).guard fun s l => strays s l = false

/-- A step that leaves no acquire running for a cancelled future adds no stray. -/
theorem Move.stray {i : Nat} {r r' : Request} (h : Move s l i r r')
    (hi : s.requests[i]? = some r) (hok : strays s l = false) (hr : r.phase.stray = false) :
    r'.phase.stray = false := by
  cases h with
  | feed items => exact hr
  | shift hs =>
      cases hs with
      | startLate hp => simp [strays, hi, hp] at hok
      | lose hp => simp [hp, Phase.stray] at hr
      | @cancelAcquire job hp _ =>
          cases job with
          | queued => rfl
          | blocked | granted => simp [strays, hi, hp] at hok
      | unwind =>
          rw [Request.moveTo, WorkerIO.unwind]
          cases r.sync <;> rfl
      | _ => rfl
  | grant => cases hs : r.sync <;> simp [Request.moveTo, Phase.stray, hs]
  | grantLate hp => simp [hp, Phase.stray] at hr
  | release hf => cases hf <;> rfl
  | pop hf => cases hf <;> rfl
  | register | write | exit | take | cancelled => rfl

theorem stray_invariant (concurrency : Int) :
    (promptSystem concurrency).Invariant fun s => ∀ r ∈ s.requests, r.phase.stray = false where
  start := nofun
  step {s l t} h hs := by
    obtain ⟨hok, hstep⟩ := guard_step.mp hs
    intro r' hr'
    obtain ⟨j, hj⟩ := List.mem_iff_getElem?.mp hr'
    rcases (step_cases hstep).move hj with ⟨r, hi, hm⟩ | ⟨-, sync, id, payload, rfl⟩
    · exact hm.stray hi hok (h r (List.mem_of_getElem? hi))
    · cases sync <;> rfl

theorem Phase.stray_of_lost {p : Phase} (h : p.permit = .lost) : p.stray = true := by
  cases p with
  | lost => rfl
  | acquiring job | abandoned job => cases job <;> cases h
  | _ => cases h

theorem Phase.permit_of_quiet {p : Phase} (h : p.quiet = true) :
    p.permit = .none ∨ p.permit = .lost := by
  cases p with
  | lost => exact .inr rfl
  | ended => exact .inl rfl
  | abandoned job =>
      cases job with
      | queued => exact .inl rfl
      | blocked | granted => cases h
  | _ => cases h

/-- Without strays no permit is lost. -/
theorem lost_eq_zero (h : ∀ r ∈ s.requests, r.phase.stray = false) : s.permits .lost = 0 := by
  apply List.countP_eq_zero.mpr
  intro r hr hlost
  have hstray := Phase.stray_of_lost (of_decide_eq_true hlost)
  rw [h r hr] at hstray
  cases hstray

/-- At quiescence no permit is held or granted. -/
theorem quiet_permits (h : s.Quiescent) : s.permits .held = 0 ∧ s.permits .granted = 0 := by
  constructor <;>
  · apply List.countP_eq_zero.mpr
    intro r hr
    rcases Phase.permit_of_quiet (h r hr) with hp | hp <;> simp [hp]

/-- As long as no acquire is left running for a cancelled future, the free
permits, the held ones and those granted to an acquire that has not returned are
the configured ones, and at quiescence all of them are free. -/
theorem permits_conserved (h : (promptSystem concurrency).Reachable s) :
    s.sem + s.permits .held + s.permits .granted = (max 1 concurrency).toNat ∧
    (s.Quiescent → s.sem = (max 1 concurrency).toNat) := by
  have hsum := permits_accounted h.of_guard
  have hlost := lost_eq_zero ((stray_invariant concurrency).of_reachable h)
  constructor
  · omega
  · intro hquiet
    have := quiet_permits hquiet
    omega

end Prompt

section Runs

/-- A request completes while another one is cancelled before its acquire has
started. -/
def promptRun : List Label :=
  [.sendRequest "a" (.obj []), .sendRequest "b" (.obj [])] ++ begin 0 ++ [.cancel 1, .revoke 1] ++
    complete 0 "a"

/-- The second request is cancelled while its acquire is blocked. The first one
ends, the blocked acquire takes its permit, and nobody gives it back. -/
def lossRun : List Label :=
  [.sendRequest "a" (.obj []), .sendRequest "b" (.obj [])] ++ begin 0 ++
    [.executor 1, .cancel 1] ++ complete 0 "a" ++ [.executor 1, .executor 1]

theorem permits_conserved_on_prompt_cancel :
    ∃ s, (promptSystem 1).run (promptSystem 1).start promptRun = some s ∧ s.Quiescent ∧
      s.sem = (max 1 (1 : Int)).toNat :=
  ⟨_, rfl, by decide, (permits_conserved (reachable_of_run promptRun rfl)).2 (by decide)⟩

/-- At quiescence a permit is missing: the acquire of a cancelled task has taken
it and returned to a cancelled future. -/
theorem permit_lost_to_cancelled_acquire :
    ∃ s, (multiplexer 1).Reachable s ∧ s.Quiescent ∧ s.sem ≠ (max 1 (1 : Int)).toNat ∧
      s.sem + s.permits .held + s.permits .granted ≠ (max 1 (1 : Int)).toNat :=
  ⟨_, reachable_of_run lossRun rfl, by decide, by decide, by decide⟩

end Runs

end JetsonVoice.WorkerIO
