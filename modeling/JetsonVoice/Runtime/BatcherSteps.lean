import JetsonVoice.Runtime.BatcherWalk

/-!
# What one call on the continuous batcher does

The seated batcher is the invariant of every run: the admitted lanes ascend,
they are the lanes with a record, and the allocator has them in use. For each
call a case lemma lists the ways it can end.
-/

namespace JetsonVoice.Runtime

open Foundation TransitionSystem
open Asr (SessionLaneManager)

namespace Batcher

variable {s : Batcher}

/-- The admitted lanes ascend, they are the lanes with a record, they are in use,
and no queued chunk is empty. -/
structure Seated (s : Batcher) : Prop where
  ascend : s.admittedLanes.Pairwise (· < ·)
  mem_iff : ∀ lane, lane ∈ s.admittedLanes ↔ (s.lanes lane).isSome = true
  inUse : ∀ lane ∈ s.admittedLanes, s.laneManager.InUse lane
  chunks : ∀ lane rec, s.lanes lane = some rec → ∀ entry ∈ rec.queue, entry.1 ≠ []

/-- The tick gets as far as the engine. -/
def Issues (s : Batcher) : Prop :=
  s.ready ≠ [] ∧ (∀ r ∈ s.ready, r.overflows = false) ∧ Ready.isPrefix s.ready = true ∧
    Ready.oneToken s.ready = false

instance : Decidable s.Issues := inferInstanceAs (Decidable (_ ∧ _ ∧ _ ∧ _))

theorem Seated.nodup (h : s.Seated) : s.admittedLanes.Nodup := h.ascend.imp Nat.ne_of_lt

theorem Seated.seats_ascend (h : s.Seated) : s.seats.Pairwise fun a b => a.1 < b.1 := by
  have hmap : (s.seats.map Prod.fst).Pairwise (· < ·) := by
    rw [seats, List.zipIdx_map_fst]
    exact h.ascend
  exact List.pairwise_map.mp hmap

theorem Seated.ready_ascend (h : s.Seated) : s.ready.Pairwise fun a b => a.lane < b.lane :=
  contributions_ascend h.seats_ascend

/-- A packed lane is the admitted lane at its row. -/
theorem ready_mem {r : Ready} (hr : r ∈ s.ready) :
    s.admittedLanes[r.row]? = some r.lane ∧
      ∃ rec chunk isFinal, r.Contributes s.lanes rec chunk isFinal := by
  obtain ⟨hseat, hrec⟩ := contributions_mem hr
  exact ⟨List.mem_zipIdx_iff_getElem?.mp hseat, hrec⟩

/-- The walk stops at the first pending lane. -/
def stopsAtOnce (s : Batcher) : Bool := s.ready.head?.any (·.overflows)

theorem not_stopsAtOnce (hroom : ∀ r ∈ s.ready, r.overflows = false) :
    ¬ s.stopsAtOnce = true := by
  rw [stopsAtOnce, Option.any_eq_true]
  rintro ⟨r, hhead, ho⟩
  rw [hroom r (List.mem_of_mem_head? hhead)] at ho
  cases ho

/-- The ways a tick ends: nothing is pending, the front chunks of the first
pending lanes are popped and no more, or the engine is called. No chunk is popped
only when the walk stops at once. -/
theorem Seated.tick_cases (h : s.Seated) (result : CallResult) :
    (s.ready = [] ∧ s.tick result = (0, s)) ∨
    (s.ready ≠ [] ∧ ¬ s.Issues ∧ ∃ ready, ready <+: s.ready ∧
      (ready = [] ↔ s.stopsAtOnce = true) ∧
      s.tick result = (-1, { s with lanes := popped s.lanes ready })) ∨
    (s.Issues ∧
      s.tick result = { s with lanes := popped s.lanes s.ready }.runBatch s.ready result) := by
  cases collect_cases s.lanes h.seats_ascend with
  | inr hstop =>
      obtain ⟨before, r, after, hsplit, ho, hroom, heq⟩ := hstop
      change s.ready = before ++ r :: after at hsplit
      have hr : r ∈ s.ready := hsplit ▸ List.mem_append_right _ List.mem_cons_self
      refine .inr (.inl ⟨List.ne_nil_of_mem hr, ?_, before, hsplit ▸ List.prefix_append .., ?_, ?_⟩)
      · intro hissues
        rw [hissues.2.1 r hr] at ho
        cases ho
      · cases before with
        | nil => simp [stopsAtOnce, hsplit, ho]
        | cons r' before => simp [stopsAtOnce, hsplit, hroom r' List.mem_cons_self]
      · simp only [tick, heq]
  | inl hall =>
      obtain ⟨hroom, heq⟩ := hall
      change ∀ r ∈ s.ready, r.overflows = false at hroom
      change collect s.lanes s.seats = (popped s.lanes s.ready, some s.ready) at heq
      by_cases hempty : s.ready = []
      · refine .inl ⟨hempty, ?_⟩
        simp only [tick, heq, hempty, if_true]
        rfl
      · refine .inr ?_
        by_cases hissues : s.Issues
        · obtain ⟨-, -, hpacked, hone⟩ := hissues
          refine .inr ⟨⟨hempty, hroom, hpacked, hone⟩, ?_⟩
          simp only [tick, heq, hempty, hpacked, hone, if_false, Bool.true_eq_false,
            Bool.false_eq_true]
        · refine .inl ⟨hempty, hissues, s.ready, List.prefix_refl _,
            iff_of_false hempty (not_stopsAtOnce hroom), ?_⟩
          simp only [tick, heq, hempty, if_false]
          split
          · rfl
          · rename_i hpacked
            rw [Bool.not_eq_false] at hpacked
            rw [if_pos]
            by_contra hone
            exact hissues ⟨hempty, hroom, hpacked, Bool.eq_false_iff.mpr hone⟩

theorem Seated.tick_of_empty (h : s.Seated) (hempty : s.ready = []) (result : CallResult) :
    (s.tick result).2 = s := by
  obtain ⟨-, heq⟩ | ⟨hne, -⟩ | ⟨hissues, -⟩ := h.tick_cases result
  · rw [heq]
  · exact (hne hempty).elim
  · exact (hissues.1 hempty).elim

theorem Seated.tick_of_issues (h : s.Seated) (hissues : s.Issues) (result : CallResult) :
    s.tick result = { s with lanes := popped s.lanes s.ready }.runBatch s.ready result := by
  obtain ⟨hempty, -⟩ | ⟨-, hnot, -⟩ | ⟨-, heq⟩ := h.tick_cases result
  · exact (hissues.1 hempty).elim
  · exact (hnot hissues).elim
  · exact heq

/-- A tick that does not get as far as the engine only pops chunks. -/
theorem Seated.tick_of_not_issues (h : s.Seated) (hnot : ¬ s.Issues) (result : CallResult) :
    ∃ lanes, (s.tick result).2 = { s with lanes := lanes } := by
  obtain ⟨-, heq⟩ | ⟨-, -, ready, -, -, heq⟩ | ⟨hissues, -⟩ := h.tick_cases result
  · exact ⟨s.lanes, by rw [heq]⟩
  · exact ⟨popped s.lanes ready, by rw [heq]⟩
  · exact (hnot hissues).elim

theorem runBatch_performed_lanes (ready : List Ready) (token : Int) :
    (s.runBatch ready (.performed token)).2.lanes =
      assign s.lanes (ready.map fun r => (r.lane, some r.committed)) := rfl

theorem foldl_setKvLength_inUse (ready : List Ready) (manager : SessionLaneManager) (id : Int) :
    (ready.foldl (fun manager r => manager.setKvLength r.lane r.committed.appendedTokens)
      manager).InUse id ↔ manager.InUse id := by
  induction ready generalizing manager with
  | nil => exact Iff.rfl
  | cons r ready ih =>
      rw [List.foldl_cons, ih]
      exact SessionLaneManager.setKvLength_inUse ..

/-- What a tick leaves of a lane's record: all of it, the record with its front
chunk popped, or that record after its step. -/
theorem Seated.tick_lanes (h : s.Seated) (result : CallResult) (lane : Nat) :
    (s.tick result).2.lanes lane = s.lanes lane ∨
      ∃ r ∈ s.ready, r.lane = lane ∧ ((s.tick result).2.lanes lane = some r.record ∨
        (s.tick result).2.lanes lane = some r.committed) := by
  have hpop (ready : List Ready) (hsub : ready <+: s.ready) :
      popped s.lanes ready lane = s.lanes lane ∨
        ∃ r ∈ s.ready, r.lane = lane ∧ (popped s.lanes ready lane = some r.record ∨
          popped s.lanes ready lane = some r.committed) :=
    (popped_cases s.lanes ready lane).imp_right fun ⟨r, hr, hlane, heq⟩ =>
      ⟨r, hsub.subset hr, hlane, .inl heq⟩
  obtain ⟨-, heq⟩ | ⟨-, -, ready, hsub, -, heq⟩ | ⟨-, heq⟩ := h.tick_cases result
  · rw [heq]
    exact .inl rfl
  · rw [heq]
    exact hpop ready hsub
  · rw [heq]
    cases result with
    | refused => exact hpop s.ready (List.prefix_refl _)
    | failedAfterCommit => exact hpop s.ready (List.prefix_refl _)
    | performed token =>
        rw [runBatch_performed_lanes]
        cases assign_cases (popped s.lanes s.ready)
            (s.ready.map fun r => (r.lane, some r.committed)) lane with
        | inl hkeep =>
            rw [hkeep]
            exact hpop s.ready (List.prefix_refl _)
        | inr hwrite =>
            obtain ⟨v, hmem, hv⟩ := hwrite
            obtain ⟨r, hr, heq'⟩ := List.mem_map.mp hmem
            rw [Prod.mk.injEq] at heq'
            exact .inr ⟨r, hr, heq'.1, .inr (hv.trans heq'.2.symm)⟩

/-- A tick neither seats nor unseats a lane, and enqueues nothing. -/
theorem Seated.tick_frame (h : s.Seated) (result : CallResult) :
    (s.tick result).2.admittedLanes = s.admittedLanes ∧
      (s.tick result).2.enqueued = s.enqueued ∧
      ∀ id, (s.tick result).2.laneManager.InUse id ↔ s.laneManager.InUse id := by
  obtain ⟨-, heq⟩ | ⟨-, -, ready, -, -, heq⟩ | ⟨-, heq⟩ := h.tick_cases result
  · rw [heq]
    exact ⟨rfl, rfl, fun _ => Iff.rfl⟩
  · rw [heq]
    exact ⟨rfl, rfl, fun _ => Iff.rfl⟩
  · rw [heq]
    cases result with
    | refused => exact ⟨rfl, rfl, fun _ => Iff.rfl⟩
    | failedAfterCommit => exact ⟨rfl, rfl, fun _ => Iff.rfl⟩
    | performed token => exact ⟨rfl, rfl, foldl_setKvLength_inUse s.ready s.laneManager⟩

theorem Seated.tick (h : s.Seated) (result : CallResult) : (s.tick result).2.Seated := by
  obtain ⟨hadmitted, -, huse⟩ := h.tick_frame result
  constructor
  · rw [hadmitted]
    exact h.ascend
  · intro lane
    rw [hadmitted, h.mem_iff]
    obtain hkeep | ⟨r, hr, rfl, hrec⟩ := h.tick_lanes result lane
    · rw [hkeep]
    · obtain ⟨-, rec, chunk, isFinal, hc⟩ := ready_mem hr
      rw [hc.record]
      obtain hrec | hrec := hrec <;> rw [hrec] <;> rfl
  · intro lane hlane
    rw [hadmitted] at hlane
    exact (huse lane).mpr (h.inUse lane hlane)
  · intro lane rec' hrec' entry hentry
    obtain hkeep | ⟨r, hr, rfl, hrec⟩ := h.tick_lanes result lane
    · exact h.chunks lane rec' (hkeep ▸ hrec') entry hentry
    · obtain ⟨-, rec, chunk, isFinal, hc⟩ := ready_mem hr
      have hqueue : rec'.queue = r.record.queue := by
        obtain hrec | hrec := hrec <;> rw [hrec] at hrec' <;> cases hrec' <;> rfl
      apply h.chunks r.lane rec hc.record entry
      rw [hc.queue, ← hqueue]
      exact List.mem_cons_of_mem _ hentry

theorem Seated.congr {t : Batcher} (h : s.Seated) (hadmitted : t.admittedLanes = s.admittedLanes)
    (hlanes : t.lanes = s.lanes) (huse : ∀ id, s.laneManager.InUse id → t.laneManager.InUse id) :
    t.Seated := by
  constructor
  · rw [hadmitted]
    exact h.ascend
  · rw [hadmitted, hlanes]
    exact h.mem_iff
  · rw [hadmitted]
    exact fun lane hlane => huse lane (h.inUse lane hlane)
  · rw [hlanes]
    exact h.chunks

section Seats
variable {manager : SessionLaneManager} {lane other : Nat} {sessionId maxPositions : Int}
  {chunk : List Int} {isFinal : Bool}

theorem seat_lanes_self : (s.seat manager lane sessionId maxPositions).lanes lane =
    some { sessionId := sessionId, status := .kActive, maxPositions := maxPositions } :=
  Function.update_self ..

theorem seat_lanes_ne (h : other ≠ lane) :
    (s.seat manager lane sessionId maxPositions).lanes other = s.lanes other :=
  Function.update_of_ne h ..

theorem seat_enqueued_self : (s.seat manager lane sessionId maxPositions).enqueued lane = [] :=
  Function.update_self ..

theorem seat_enqueued_ne (h : other ≠ lane) :
    (s.seat manager lane sessionId maxPositions).enqueued other = s.enqueued other :=
  Function.update_of_ne h ..

theorem mem_seat : other ∈ (s.seat manager lane sessionId maxPositions).admittedLanes ↔
    other ∈ s.admittedLanes ∨ other = lane := by
  simp only [seat, List.mem_insertionSort, List.mem_append, List.mem_singleton]

theorem unseat_lanes_self : (s.unseat lane).lanes lane = none := Function.update_self ..

theorem unseat_lanes_ne (h : other ≠ lane) : (s.unseat lane).lanes other = s.lanes other :=
  Function.update_of_ne h ..

theorem push_lanes_self : (s.push lane chunk isFinal).lanes lane =
    (s.lanes lane).map fun rec => { rec with queue := rec.queue ++ [(chunk, isFinal)] } :=
  Function.update_self ..

theorem push_lanes_ne (h : other ≠ lane) :
    (s.push lane chunk isFinal).lanes other = s.lanes other :=
  Function.update_of_ne h ..

theorem push_enqueued_self :
    (s.push lane chunk isFinal).enqueued lane = s.enqueued lane ++ chunk :=
  Function.update_self ..

theorem push_enqueued_ne (h : other ≠ lane) :
    (s.push lane chunk isFinal).enqueued other = s.enqueued other :=
  Function.update_of_ne h ..

/-- A lane that was free is seated among the admitted ones. -/
theorem Seated.seat (h : s.Seated) (sessionId maxPositions : Int)
    (hfree : ¬ s.laneManager.InUse lane)
    (huse : ∀ id, manager.InUse id ↔ id = lane ∨ s.laneManager.InUse id) :
    (s.seat manager lane sessionId maxPositions).Seated := by
  constructor
  · have hnodup : (s.seat manager lane sessionId maxPositions).admittedLanes.Nodup := by
      apply (List.perm_insertionSort _ _).nodup_iff.mpr
      apply List.nodup_append.mpr
      refine ⟨h.nodup, List.nodup_singleton lane, ?_⟩
      intro a ha b hb hab
      rw [hab, List.mem_singleton.mp hb] at ha
      exact hfree (h.inUse lane ha)
    have hsorted := List.pairwise_insertionSort (· ≤ ·) (s.admittedLanes ++ [lane])
    exact (hsorted.and hnodup).imp fun hab => Nat.lt_of_le_of_ne hab.1 hab.2
  · intro other
    rw [mem_seat, h.mem_iff]
    by_cases hother : other = lane
    · simp [hother, seat_lanes_self]
    · simp [hother, seat_lanes_ne]
  · intro other hother
    apply (huse other).mpr
    cases mem_seat.mp hother with
    | inl hold => exact .inr (h.inUse other hold)
    | inr heq => exact .inl (congrArg Nat.cast heq)
  · intro other rec hrec entry hentry
    by_cases hother : other = lane
    · subst hother
      rw [seat_lanes_self] at hrec
      cases hrec
      cases hentry
    · rw [seat_lanes_ne hother] at hrec
      exact h.chunks other rec hrec entry hentry

theorem Seated.mem_unseat (h : s.Seated) :
    other ∈ (s.unseat lane).admittedLanes ↔ other ≠ lane ∧ other ∈ s.admittedLanes :=
  h.nodup.mem_erase_iff

/-- A lane without a record is admitted no longer. -/
theorem Seated.unseat (h : s.Seated) (lane : Nat) : (s.unseat lane).Seated := by
  constructor
  · exact h.ascend.erase lane
  · intro other
    rw [h.mem_unseat, h.mem_iff]
    by_cases hother : other = lane
    · simp [hother, unseat_lanes_self]
    · simp [hother, unseat_lanes_ne]
  · intro other hother
    rw [h.mem_unseat] at hother
    apply (SessionLaneManager.release_inUse _ _).mpr
    exact ⟨h.inUse other hother.2, by exact_mod_cast hother.1⟩
  · intro other rec hrec
    by_cases hother : other = lane
    · rw [hother, unseat_lanes_self] at hrec
      cases hrec
    · rw [unseat_lanes_ne hother] at hrec
      exact h.chunks other rec hrec

theorem Seated.push (h : s.Seated) (lane : Nat) (isFinal : Bool) (hne : chunk ≠ []) :
    (s.push lane chunk isFinal).Seated := by
  constructor
  · exact h.ascend
  · intro other
    by_cases hother : other = lane
    · rw [hother, push_lanes_self, Option.isSome_map]
      exact h.mem_iff lane
    · rw [push_lanes_ne hother]
      exact h.mem_iff other
  · exact h.inUse
  · intro other rec' hrec' entry hentry
    by_cases hother : other = lane
    · rw [hother, push_lanes_self] at hrec'
      obtain ⟨rec, hrec, rfl⟩ := Option.map_eq_some_iff.mp hrec'
      cases List.mem_append.mp hentry with
      | inl hold => exact h.chunks lane rec hrec entry hold
      | inr hnew =>
          rw [List.mem_singleton.mp hnew]
          exact hne
    · rw [push_lanes_ne hother] at hrec'
      exact h.chunks other rec' hrec' entry hentry

end Seats

section Rebuild
variable (s) (calls : RebuildCalls)

theorem issue_issue (work work' : List (Nat × Nat)) :
    (s.issue work).issue work' = s.issue (work ++ work') := by
  simp only [issue, List.append_assoc]

/-- A rebuild changes the context and the rows, not who is seated. -/
theorem rebuildContext_frame : (s.rebuildContext calls).2.admittedLanes = s.admittedLanes ∧
    (s.rebuildContext calls).2.lanes = s.lanes ∧
    (s.rebuildContext calls).2.laneManager = s.laneManager ∧
    (s.rebuildContext calls).2.enqueued = s.enqueued := by
  simp only [rebuildContext]
  split_ifs <;> exact ⟨rfl, rfl, rfl, rfl⟩

/-- When the admitted lanes are `0 … n-1`, each sits at its own row. -/
theorem seats_of_range (h : s.admittedLanes = List.range s.admittedLanes.length)
    {seat : Nat × Nat} (hseat : seat ∈ s.seats) : seat.1 = seat.2 := by
  have hmap : s.admittedLanes.map id = List.range s.admittedLanes.length := by rwa [List.map_id]
  exact index_of_map_eq_range hmap (List.mem_zipIdx_iff_getElem?.mp hseat)

/-- A rebuild is refused before it touches the engine, ends before the rows are
reset, or resets the rows of all admitted lanes. The work it issues is for every
lane on its own row. -/
theorem rebuildContext_cases :
    (s.admittedLanes ≠ List.range s.admittedLanes.length ∧
      s.rebuildContext calls = (false, s)) ∨
    ∃ work, (∀ p ∈ work, p.1 = p.2) ∧ s.admittedLanes = List.range s.admittedLanes.length ∧
      ((s.rebuildContext calls =
          (false, { s with activeBatchSize := s.admittedLanes.length }.issue work) ∧
        ¬ (calls.resets = true ∧ s.admittedLanes.length ≤ s.cache.maxBatch)) ∨
      (∃ h : s.admittedLanes.length ≤ s.cache.maxBatch, calls.resets = true ∧
        s.rebuildContext calls = (decide (calls = .performed),
          ({ s with activeBatchSize := s.admittedLanes.length }.issue work).resetRows
            s.admittedLanes.length h))) := by
  by_cases hrange : s.admittedLanes = List.range s.admittedLanes.length
  · refine .inr ⟨s.seats.map Prod.swap ++
      (List.range (calls.mropeRows s.admittedLanes.length)).map fun row => (row, row), ?_,
      hrange, ?_⟩
    · intro p hp
      cases List.mem_append.mp hp with
      | inl hswap =>
          obtain ⟨seat, hseat, rfl⟩ := List.mem_map.mp hswap
          exact (s.seats_of_range hrange hseat).symm
      | inr hrow =>
          obtain ⟨row, -, rfl⟩ := List.mem_map.mp hrow
          rfl
    · have hskip : ¬ s.admittedLanes ≠ List.range s.admittedLanes.length := not_not.mpr hrange
      simp only [rebuildContext, if_neg hskip, issue_issue]
      by_cases hresets : calls.resets = true
      · by_cases hle : s.admittedLanes.length ≤ s.cache.maxBatch
        · refine .inr ⟨hle, hresets, ?_⟩
          rw [if_pos hresets, dif_pos hle]
        · refine .inl ⟨?_, fun hboth => hle hboth.2⟩
          rw [if_pos hresets, dif_neg hle]
      · refine .inl ⟨?_, fun hboth => hresets hboth.1⟩
        rw [if_neg hresets]
  · exact .inl ⟨hrange, by simp only [rebuildContext, if_pos hrange]⟩

end Rebuild

section Calls
variable {sessionId maxPositions : Int} {prompt : List Int} {calls : RebuildCalls}

/-- The prompt of an admission is queued as the lane's first chunk. -/
def pushPrompt (s : Batcher) (lane : Nat) (prompt : List Int) : Batcher :=
  if prompt = [] then s else s.push lane prompt false

/-- An admission finds no lane of the cache, or seats a free one, and takes it
back when the rebuild fails. -/
theorem admitSession_cases (s : Batcher) (sessionId : Int) (prompt : List Int) (maxPositions : Int)
    (calls : RebuildCalls) :
    (((s.laneManager.acquire .kAsr sessionId).1 < 0 ∨
        (s.cache.maxBatch : Int) ≤ (s.laneManager.acquire .kAsr sessionId).1) ∧
      ∃ manager, (∀ id, manager.InUse id ↔ s.laneManager.InUse id) ∧
      s.admitSession sessionId prompt maxPositions calls =
        (-1, { s with laneManager := manager })) ∨
    ∃ (lane : Nat) (manager : SessionLaneManager), ¬ s.laneManager.InUse lane ∧
      s.laneManager.acquire .kAsr sessionId = ((lane : Int), manager) ∧ lane < s.cache.maxBatch ∧
      (∀ id, manager.InUse id ↔ id = lane ∨ s.laneManager.InUse id) ∧
      s.admitSession sessionId prompt maxPositions calls =
        let rebuilt := (s.seat manager lane sessionId maxPositions).rebuildContext calls
        if rebuilt.1 = false then ((-1 : Int), rebuilt.2.unseat lane)
        else ((lane : Int), rebuilt.2.pushPrompt lane prompt) := by
  obtain ⟨lane, -, hfree, hlane, huse⟩ | ⟨hlane, hmanager, -⟩ :=
    s.laneManager.acquire_asr_cases sessionId
  · have hnot : ¬ s.laneManager.InUse lane := by
      rintro ⟨other, heq, hother⟩
      rw [← Int.ofNat_inj.mp heq, hfree] at hother
      cases hother
    by_cases hbound : lane < s.cache.maxBatch
    · refine .inr ⟨lane, _, hnot, Prod.ext hlane rfl, hbound, huse, ?_⟩
      have hin : ¬ (s.cache.maxBatch : Int) ≤ lane := by omega
      simp only [admitSession, hlane, Int.toNat_natCast, pushPrompt,
        if_neg (Int.not_lt.mpr (Int.natCast_nonneg lane)), if_neg hin]
      split
      · rfl
      · split <;> rfl
    · have hout : (s.cache.maxBatch : Int) ≤ lane := by omega
      refine .inl ⟨.inr (hlane.symm ▸ hout),
        (s.laneManager.acquire .kAsr sessionId).2.release lane, ?_, ?_⟩
      · intro id
        rw [SessionLaneManager.release_inUse, huse]
        constructor
        · rintro ⟨hor, hne⟩
          exact hor.resolve_left hne
        · intro hid
          refine ⟨.inr hid, ?_⟩
          rintro rfl
          exact hnot hid
      · have hpos : ¬ (lane : Int) < 0 := Int.not_lt.mpr (Int.natCast_nonneg lane)
        simp only [admitSession, hlane, if_neg hpos, if_pos hout]
  · have hneg : (s.laneManager.acquire .kAsr sessionId).1 < 0 := by omega
    refine .inl ⟨.inl hneg, (s.laneManager.acquire .kAsr sessionId).2,
      fun id => by rw [hmanager], ?_⟩
    rw [admitSession, if_pos hneg]

theorem Seated.pushPrompt (h : s.Seated) (lane : Nat) (prompt : List Int) :
    (s.pushPrompt lane prompt).Seated := by
  rw [Batcher.pushPrompt]
  split
  · exact h
  · rename_i hne
    exact h.push lane false hne

/-- A chunk is queued only for a lane with a record. -/
theorem enqueueChunk_cases (s : Batcher) (lane : Int) (chunk : List Int) (isFinal : Bool) :
    (s.enqueueChunk lane chunk isFinal).2 = s ∨
      ∃ (n : Nat) (rec : LaneRecord), s.lanes n = some rec ∧ chunk ≠ [] ∧
        (s.enqueueChunk lane chunk isFinal).2 = s.push n chunk isFinal := by
  rw [enqueueChunk]
  split
  · exact .inl rfl
  · rename_i rec hrec
    rw [recordForLane] at hrec
    split at hrec
    · split
      · exact .inl rfl
      · split
        · exact .inl rfl
        · rename_i hne
          exact .inr ⟨lane.toNat, rec, hrec, hne, rfl⟩
    · cases hrec

/-- An eviction takes a record back and empties the lane's row. -/
theorem evict_cases (s : Batcher) (lane : Int) :
    s.evict lane = s ∨ ∃ n : Nat, s.evict lane = { s with
      laneManager := s.laneManager.release n
      cache := s.cache.resetLane n
      lanes := Function.update s.lanes n none
      admittedLanes := s.admittedLanes.erase n
      activeBatchSize := (s.admittedLanes.erase n).length
      fed := Function.update s.fed n [] } := by
  rw [evict]
  split
  · exact .inl rfl
  · exact .inr ⟨lane.toNat, rfl⟩

theorem Seated.admitSession (h : s.Seated) (sessionId : Int) (prompt : List Int)
    (maxPositions : Int) (calls : RebuildCalls) :
    (s.admitSession sessionId prompt maxPositions calls).2.Seated := by
  obtain ⟨-, manager, huse, heq⟩ | ⟨lane, manager, hfree, -, -, huse, heq⟩ :=
    s.admitSession_cases sessionId prompt maxPositions calls
  · rw [heq]
    exact h.congr rfl rfl fun id => (huse id).mpr
  · have hseat : (s.seat manager lane sessionId maxPositions).Seated :=
      h.seat sessionId maxPositions hfree huse
    obtain ⟨hadmitted, hlanes, hmanager, -⟩ :=
      (s.seat manager lane sessionId maxPositions).rebuildContext_frame calls
    have hrebuilt := hseat.congr hadmitted hlanes fun id hid => hmanager ▸ hid
    rw [heq]
    dsimp only
    split
    · exact hrebuilt.unseat lane
    · exact hrebuilt.pushPrompt lane prompt

theorem Seated.enqueueChunk (h : s.Seated) (lane : Int) (chunk : List Int) (isFinal : Bool) :
    (s.enqueueChunk lane chunk isFinal).2.Seated := by
  obtain heq | ⟨n, rec, -, hne, heq⟩ := s.enqueueChunk_cases lane chunk isFinal
  · rw [heq]
    exact h
  · rw [heq]
    exact h.push n isFinal hne

theorem Seated.evict (h : s.Seated) (lane : Int) : (s.evict lane).Seated := by
  obtain heq | ⟨n, heq⟩ := s.evict_cases lane
  · rw [heq]
    exact h
  · rw [heq]
    exact (h.unseat n).congr rfl rfl fun _ hid => hid

theorem Seated.perform (h : s.Seated) (call : BatcherCall) : (s.perform call).Seated := by
  cases call with
  | admitSession sessionId prompt maxPositions calls =>
      exact h.admitSession sessionId prompt maxPositions calls
  | enqueueChunk lane chunk isFinal => exact h.enqueueChunk lane chunk isFinal
  | tick result => exact h.tick result
  | evict lane => exact h.evict lane

end Calls

end Batcher

theorem seated_invariant (manager : SessionLaneManager) (cache : KvCache) :
    (batcherSystem manager cache).Invariant Batcher.Seated where
  start := {
    ascend := List.Pairwise.nil
    mem_iff := fun _ => ⟨fun h => (List.not_mem_nil h).elim, fun h => by cases h⟩
    inUse := fun _ h => (List.not_mem_nil h).elim
    chunks := fun _ _ h => by cases h }
  step := by
    intro s call t h hs
    cases hs
    exact h.perform call

end JetsonVoice.Runtime
