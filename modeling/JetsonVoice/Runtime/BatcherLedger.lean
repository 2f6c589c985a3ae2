import JetsonVoice.Runtime.BatcherRows

/-!
# The chunks of the continuous batcher

A tick pops the front chunk of every pending lane before it knows whether it
will reach the engine. A lane without room gets its own chunk back; the lanes
before it do not, and neither does any lane when the batch is refused or the
prefill fails. The ledger of a lane adds up, then, in the runs whose ticks find
nothing, stop at their first lane, or perform their batch without a gap, and
whose admissions empty no row with tokens.
-/

namespace JetsonVoice.Runtime

open Foundation TransitionSystem
open Asr (SessionLaneManager)

namespace Batcher

variable {s t : Batcher} {lane : Nat}

/-- What a lane has: committed tokens, carried tail and queued chunks, in order. -/
def held (s : Batcher) (lane : Nat) (rec : LaneRecord) : List Int :=
  (s.cache.rows lane).committed ++ (rec.pendingTextTail ++ rec.queued)

/-- A lane with a record has what was enqueued for it since its admission. -/
def Balanced (s : Batcher) (lane : Nat) : Prop :=
  ∀ rec, s.lanes lane = some rec → s.held lane rec = s.enqueued lane

/-- No admitted lane has lost, gained or reordered a token. -/
def Conserves (s : Batcher) : Prop := ∀ lane, s.Balanced lane

/-- Every lane's record and every row are as they were. -/
structure Keeps (s t : Batcher) : Prop where
  lanes : t.lanes = s.lanes
  committed : ∀ lane, (t.cache.rows lane).committed = (s.cache.rows lane).committed

/-- A rebuild for the admitted lanes gets as far as resetting their rows. -/
def ResetsRows (s : Batcher) (calls : RebuildCalls) : Prop :=
  s.admittedLanes = List.range s.admittedLanes.length ∧
    s.admittedLanes.length ≤ s.cache.maxBatch ∧ calls.resets = true

instance (calls : RebuildCalls) : Decidable (s.ResetsRows calls) :=
  inferInstanceAs (Decidable (_ ∧ _ ∧ _))

/-- The admission seats a lane of the cache and resets the rows of the batch. -/
def AdmitResets (s : Batcher) (sessionId : Int) (calls : RebuildCalls) : Prop :=
  let acquired := s.laneManager.acquire .kAsr sessionId
  (0 ≤ acquired.1 ∧ acquired.1 < s.cache.maxBatch) ∧
    (s.seat acquired.2 acquired.1.toNat sessionId 0).ResetsRows calls

instance (sessionId : Int) (calls : RebuildCalls) : Decidable (s.AdmitResets sessionId calls) :=
  inferInstanceAs (Decidable (_ ∧ _))

/-- A tick finds nothing, stops at its first lane, or performs its batch without
a gap; an admission resets no row of an admitted lane with tokens. -/
def LosesNothing (s : Batcher) : BatcherCall → Prop
  | .tick result => s.ready = [] ∨ s.stopsAtOnce = true ∨
      s.Issues ∧ s.NoGap ∧ result.isPerformed = true
  | .admitSession sessionId _ _ calls => s.AdmitResets sessionId calls →
      ∀ lane ∈ s.admittedLanes, (s.cache.rows lane).length = 0
  | _ => True

instance (call : BatcherCall) : Decidable (LosesNothing s call) :=
  match call with
  | .tick _ => inferInstanceAs (Decidable (_ ∨ _ ∨ _))
  | .admitSession .. => inferInstanceAs (Decidable (_ → ∀ _ ∈ _, _))
  | .enqueueChunk .. => isTrue trivial
  | .evict _ => isTrue trivial

/-- A tick that reports failure leaves everything as it was. -/
def FailureKeeps (s : Batcher) : BatcherCall → Prop
  | .tick result => (s.tick result).1 = -1 → s.Keeps (s.tick result).2
  | _ => True

section Failure

theorem not_keeps_of_popped (h : s.Seated) {ready : List Ready} (hsub : ready <+: s.ready)
    (hne : ready ≠ []) (hlanes : t.lanes = popped s.lanes ready) : ¬ s.Keeps t := by
  intro hkeeps
  obtain ⟨r, hr⟩ := List.exists_mem_of_ne_nil ready hne
  obtain ⟨-, rec, chunk, isFinal, hc⟩ := ready_mem (hsub.subset hr)
  have heq : popped s.lanes ready = s.lanes := hlanes.symm.trans hkeeps.lanes
  exact popped_ne (h.ready_ascend.sublist hsub.sublist) hr hc heq

/-- A tick reports success when it finds nothing or its batch is performed. -/
theorem Seated.tick_ne_iff (h : s.Seated) {result : CallResult} :
    (s.tick result).1 ≠ -1 ↔ s.ready = [] ∨ s.Issues ∧ result.isPerformed = true := by
  obtain ⟨hempty, heq⟩ | ⟨hne, hnot, ready, -, -, heq⟩ | ⟨hissues, heq⟩ := h.tick_cases result
  · rw [heq]
    exact iff_of_true (show (0 : Int) ≠ -1 by decide) (.inl hempty)
  · rw [heq]
    refine iff_of_false (not_not.mpr rfl) ?_
    rintro (hempty | ⟨hissues, -⟩)
    · exact hne hempty
    · exact hnot hissues
  · rw [heq]
    cases result with
    | refused => exact iff_of_false (not_not.mpr rfl) (by simp [hissues.1, CallResult.isPerformed])
    | failedAfterCommit =>
        exact iff_of_false (not_not.mpr rfl) (by simp [hissues.1, CallResult.isPerformed])
    | performed token =>
        refine iff_of_true ?_ (.inr ⟨hissues, rfl⟩)
        change (s.ready.length : Int) ≠ -1
        omega

/-- A failing tick leaves everything as it was exactly when it stopped at its
first pending lane. -/
theorem Seated.tick_keeps_iff (h : s.Seated) (result : CallResult)
    (hfail : (s.tick result).1 = -1) :
    s.Keeps (s.tick result).2 ↔ s.stopsAtOnce = true := by
  obtain ⟨hempty, -⟩ | ⟨-, -, ready, hsub, hstops, heq⟩ | ⟨hissues, heq⟩ := h.tick_cases result
  · exact absurd hfail (h.tick_ne_iff.mpr (.inl hempty))
  · rw [heq, ← hstops]
    constructor
    · intro hkeeps
      by_contra hne
      exact not_keeps_of_popped h hsub hne rfl hkeeps
    · rintro rfl
      exact ⟨rfl, fun _ => rfl⟩
  · refine iff_of_false ?_ (not_stopsAtOnce hissues.2.1)
    cases result with
    | refused =>
        rw [heq]
        exact not_keeps_of_popped h (List.prefix_refl _) hissues.1 rfl
    | failedAfterCommit =>
        rw [heq]
        exact not_keeps_of_popped h (List.prefix_refl _) hissues.1 rfl
    | performed token => exact absurd hfail (h.tick_ne_iff.mpr (.inr ⟨hissues, rfl⟩))

end Failure

section Balance

/-- A lane whose record, row and enqueued tokens are as before stays balanced. -/
theorem Balanced.congr (h : s.Balanced lane) (hlanes : t.lanes lane = s.lanes lane)
    (hrow : (t.cache.rows lane).committed = (s.cache.rows lane).committed)
    (henqueued : t.enqueued lane = s.enqueued lane) : t.Balanced lane := by
  intro rec hrec
  rw [held, hrow, henqueued]
  exact h rec (hlanes ▸ hrec)

theorem Balanced.of_none (h : s.lanes lane = none) : s.Balanced lane := by
  intro rec hrec
  rw [h] at hrec
  cases hrec

/-- After a performed tick a packed lane is balanced exactly when its row got its
own step. -/
theorem Seated.performed_balanced_iff (h : s.Seated) (hissues : s.Issues) (token : Int)
    {r : Ready} (hr : r ∈ s.ready) (hb : s.Balanced r.lane) :
    (s.tick (.performed token)).2.Balanced r.lane ↔
      (s.ready[r.lane]?.map (·.stepTokens)).getD [] = r.stepTokens := by
  obtain ⟨-, rec, chunk, isFinal, hc⟩ := ready_mem hr
  have hrec : (s.tick (.performed token)).2.lanes r.lane = some r.committed := by
    rw [h.tick_of_issues hissues]
    exact assign_ready h.ready_ascend (fun r => some r.committed) hr
  have hrow : ((s.tick (.performed token)).2.cache.rows r.lane).committed =
      (s.cache.rows r.lane).committed ++ (s.ready[r.lane]?.map (·.stepTokens)).getD [] := by
    rw [h.tick_of_issues hissues]
    exact commitSpans_committed s s.ready r.lane
  have henqueued : (s.tick (.performed token)).2.enqueued r.lane =
      (s.cache.rows r.lane).committed ++
        (r.stepTokens ++ (r.nextTail ++ r.record.queued)) := by
    rw [(h.tick_frame _).2.1, ← hb rec hc.record, held, hc.ledger]
  simp only [Balanced, hrec, Option.some.injEq, forall_eq', held, hrow, henqueued,
    List.append_assoc, List.append_cancel_left_eq]
  exact List.append_left_inj _

/-- A performed tick leaves a lane that is not packed balanced when no span goes
to its row. -/
theorem Seated.performed_balanced_of_notMem (h : s.Seated) (hissues : s.Issues) (token : Int)
    (hout : ∀ r ∈ s.ready, r.lane ≠ lane) (hrow : s.ready[lane]? = none)
    (hb : s.Balanced lane) : (s.tick (.performed token)).2.Balanced lane := by
  apply hb.congr
  · rw [h.tick_of_issues hissues, runBatch_performed_lanes]
    calc
      _ = popped s.lanes s.ready lane := assign_ready_of_notMem (fun r => some r.committed) hout
      _ = s.lanes lane := assign_ready_of_notMem (fun r => some r.record) hout
  · rw [h.tick_of_issues hissues]
    calc
      _ = (s.cache.rows lane).committed ++ (s.ready[lane]?.map (·.stepTokens)).getD [] :=
        commitSpans_committed s s.ready lane
      _ = (s.cache.rows lane).committed := by simp [hrow]
  · rw [(h.tick_frame _).2.1]

/-- Over a gap some packed lane has no span on its row. -/
theorem Seated.exists_lane_beyond (h : s.Seated) (hpacked : Ready.isPrefix s.ready = true)
    (hgap : ¬ s.NoGap) : ∃ r ∈ s.ready, s.ready.length ≤ r.lane := by
  rw [h.noGap_iff] at hgap
  push Not at hgap
  obtain ⟨r, hr, hne⟩ := hgap
  obtain ⟨i, hi⟩ := List.mem_iff_getElem?.mp hr
  have hrow : r.row = i := index_of_map_eq_range (of_decide_eq_true hpacked) hi
  have hlt : i < s.ready.length := lt_of_getElem? hi
  obtain ⟨last, hlast⟩ : ∃ last, s.ready[s.ready.length - 1]? = some last :=
    ⟨_, List.getElem?_eq_getElem (by omega)⟩
  have hascend : (s.ready.map (·.lane)).Pairwise (· < ·) := List.pairwise_map.mpr h.ready_ascend
  have hlane : (s.ready.map (·.lane))[i]? = some r.lane := by rw [List.getElem?_map, hi]; rfl
  have hle := ascending_le hascend hlane
  have hfar := ascending_gap hascend hlane (j := s.ready.length - 1) (b := last.lane)
    (by rw [List.getElem?_map, hlast]; rfl) (by omega)
  exact ⟨last, List.mem_of_getElem? hlast, by omega⟩

/-- A performed tick keeps the ledgers exactly when it finds no gap. -/
theorem Conserves.performed_iff (h : s.Conserves) (hs : s.Seated) (hissues : s.Issues)
    (token : Int) : (s.tick (.performed token)).2.Conserves ↔ s.NoGap := by
  constructor
  · intro hafter
    by_contra hgap
    obtain ⟨r, hr, hbeyond⟩ := hs.exists_lane_beyond hissues.2.2.1 hgap
    obtain ⟨-, rec, chunk, isFinal, hc⟩ := ready_mem hr
    have hspan := (hs.performed_balanced_iff hissues token hr (h r.lane)).mp (hafter r.lane)
    rw [List.getElem?_eq_none hbeyond] at hspan
    have hchunk : chunk ≠ [] := by
      apply hs.chunks r.lane rec hc.record (chunk, isFinal)
      rw [hc.queue]
      exact List.mem_cons_self
    exact hc.steps hchunk hspan.symm
  · intro hgap lane
    have hlanes := hs.ready_lanes hissues.2.2.1 hgap
    by_cases hin : ∃ r ∈ s.ready, r.lane = lane
    · obtain ⟨r, hr, rfl⟩ := hin
      apply (hs.performed_balanced_iff hissues token hr (h r.lane)).mpr
      obtain ⟨i, hi⟩ := List.mem_iff_getElem?.mp hr
      rw [index_of_map_eq_range hlanes hi, hi]
      rfl
    · push Not at hin
      apply hs.performed_balanced_of_notMem hissues token hin _ (h lane)
      by_contra hsome
      obtain ⟨r, hr⟩ := Option.ne_none_iff_exists'.mp hsome
      exact hin r (List.mem_of_getElem? hr) (index_of_map_eq_range hlanes hr)

theorem Conserves.of_keeps (h : s.Conserves) (hkeeps : s.Keeps t)
    (henqueued : t.enqueued = s.enqueued) : t.Conserves := fun lane =>
  (h lane).congr (congrFun hkeeps.lanes lane) (hkeeps.committed lane) (congrFun henqueued lane)

/-- A tick keeps everything when it fails, and the ledgers in any case, exactly
under its condition. -/
theorem Conserves.tick_iff (h : s.Conserves) (hs : s.Seated) (result : CallResult) :
    FailureKeeps s (.tick result) ∧ (s.tick result).2.Conserves ↔
      LosesNothing s (.tick result) := by
  by_cases hfail : (s.tick result).1 = -1
  · have hkeeps := hs.tick_keeps_iff result hfail
    constructor
    · rintro ⟨hkept, -⟩
      exact .inr (.inl (hkeeps.mp (hkept hfail)))
    · intro hlose
      have hstops : s.stopsAtOnce = true := by
        obtain hempty | hstops | ⟨hissues, -, hperformed⟩ := hlose
        · exact absurd hfail (hs.tick_ne_iff.mpr (.inl hempty))
        · exact hstops
        · exact absurd hfail (hs.tick_ne_iff.mpr (.inr ⟨hissues, hperformed⟩))
      have hkept := hkeeps.mpr hstops
      exact ⟨fun _ => hkept, h.of_keeps hkept (hs.tick_frame result).2.1⟩
  · have hkept : FailureKeeps s (.tick result) := fun hf => absurd hf hfail
    obtain hempty | ⟨hissues, hperformed⟩ := hs.tick_ne_iff.mp hfail
    · have hsame : (s.tick result).2 = s := hs.tick_of_empty hempty result
      rw [hsame]
      exact iff_of_true ⟨hkept, h⟩ (.inl hempty)
    · cases result with
      | refused => cases hperformed
      | failedAfterCommit => cases hperformed
      | performed token =>
          constructor
          · rintro ⟨-, hafter⟩
            exact .inr (.inr ⟨hissues, (h.performed_iff hs hissues token).mp hafter, rfl⟩)
          · rintro (hempty | hstops | ⟨-, hgap, -⟩)
            · exact absurd hempty hissues.1
            · exact absurd hstops (not_stopsAtOnce hissues.2.1)
            · exact ⟨hkept, (h.performed_iff hs hissues token).mpr hgap⟩

end Balance

section Seating
variable {sessionId maxPositions : Int} {prompt : List Int} {calls : RebuildCalls}

theorem Balanced.push (h : s.Balanced lane) (other : Nat) (chunk : List Int) (isFinal : Bool) :
    (s.push other chunk isFinal).Balanced lane := by
  by_cases hlane : lane = other
  · subst hlane
    intro rec' hrec'
    rw [push_lanes_self] at hrec'
    obtain ⟨rec, hrec, rfl⟩ := Option.map_eq_some_iff.mp hrec'
    calc
      (s.push lane chunk isFinal).held lane { rec with queue := rec.queue ++ [(chunk, isFinal)] } =
          s.held lane rec ++ chunk := by
        simp [held, LaneRecord.queued, Batcher.push]
      _ = s.enqueued lane ++ chunk := by rw [h rec hrec]
      _ = (s.push lane chunk isFinal).enqueued lane := push_enqueued_self.symm
  · exact h.congr (push_lanes_ne hlane) rfl (push_enqueued_ne hlane)

theorem Balanced.pushPrompt (h : s.Balanced lane) (other : Nat) (prompt : List Int) :
    (s.pushPrompt other prompt).Balanced lane := by
  rw [Batcher.pushPrompt]
  split
  · exact h
  · exact h.push other prompt false

theorem rebuildContext_committed (s : Batcher) (calls : RebuildCalls) (i : Nat) :
    ((s.rebuildContext calls).2.cache.rows i).committed =
      if s.ResetsRows calls ∧ i < s.admittedLanes.length then []
      else (s.cache.rows i).committed := by
  obtain ⟨hrange, heq⟩ | ⟨work, -, hrange, ⟨heq, hnot⟩ | ⟨hle, hresets, heq⟩⟩ :=
    s.rebuildContext_cases calls
  · rw [heq, if_neg fun h => hrange h.1.1]
  · rw [heq, if_neg fun h => hnot ⟨h.1.2.2, h.1.2.1⟩]
    rfl
  · have hrows : s.ResetsRows calls := ⟨hrange, hle, hresets⟩
    rw [heq]
    simp only [hrows, true_and]
    exact KvCache.resetForNewSequences_committed _ hle i

theorem resetsRows_of_rebuilt (h : (s.rebuildContext calls).1 = true) : s.ResetsRows calls := by
  obtain ⟨-, heq⟩ | ⟨work, -, hrange, ⟨heq, -⟩ | ⟨hle, hresets, -⟩⟩ := s.rebuildContext_cases calls
  · rw [heq] at h
    cases h
  · rw [heq] at h
    cases h
  · exact ⟨hrange, hle, hresets⟩

theorem balanced_congr (hlanes : t.lanes lane = s.lanes lane)
    (hrow : (t.cache.rows lane).committed = (s.cache.rows lane).committed)
    (henqueued : t.enqueued lane = s.enqueued lane) : t.Balanced lane ↔ s.Balanced lane :=
  ⟨fun h => h.congr hlanes.symm hrow.symm henqueued.symm, fun h => h.congr hlanes hrow henqueued⟩

theorem pushPrompt_balanced_iff {other : Nat} (hne : other ≠ lane) :
    (s.pushPrompt lane prompt).Balanced other ↔ s.Balanced other := by
  rw [pushPrompt]
  split
  · exact Iff.rfl
  · exact balanced_congr (push_lanes_ne hne) rfl (push_enqueued_ne hne)

/-- Another lane stays balanced through a rebuild exactly when its row has no
tokens to lose. -/
theorem Balanced.rebuilt_iff (h : s.Balanced lane) (hs : s.Seated) {other : Nat}
    {manager : SessionLaneManager} (hne : lane ≠ other) :
    ((s.seat manager other sessionId maxPositions).rebuildContext calls).2.Balanced lane ↔
      ((s.seat manager other sessionId maxPositions).ResetsRows calls →
        lane ∈ s.admittedLanes → (s.cache.rows lane).length = 0) := by
  obtain ⟨-, hlanes, -, henqueued⟩ :=
    (s.seat manager other sessionId maxPositions).rebuildContext_frame calls
  have hrow := (s.seat manager other sessionId maxPositions).rebuildContext_committed calls lane
  have hlanes' := (congrFun hlanes lane).trans (seat_lanes_ne hne)
  have henqueued' := (congrFun henqueued lane).trans (seat_enqueued_ne hne)
  by_cases hresets : (s.seat manager other sessionId maxPositions).ResetsRows calls
  · cases hrec : s.lanes lane with
    | none =>
        have hout : lane ∉ s.admittedLanes := by
          rw [hs.mem_iff, hrec]
          exact Bool.false_ne_true
        exact iff_of_true (.of_none (hlanes'.trans hrec)) fun _ hin => absurd hin hout
    | some rec =>
        have hin : lane ∈ s.admittedLanes := by
          rw [hs.mem_iff, hrec]
          rfl
        have hlt : lane < (s.seat manager other sessionId maxPositions).admittedLanes.length := by
          rw [← List.mem_range, ← hresets.1]
          exact mem_seat.mpr (.inl hin)
        rw [if_pos ⟨hresets, hlt⟩] at hrow
        simp only [Balanced, hlanes', hrec, Option.some.injEq, forall_eq', held, hrow, henqueued',
          ← h rec hrec, List.nil_append, hresets, hin, true_imp_iff]
        rw [← KvRow.committed_eq_nil]
        exact List.self_eq_append_left
  · rw [if_neg fun hboth => hresets hboth.1] at hrow
    exact iff_of_true (h.congr hlanes' hrow henqueued') fun hr => absurd hr hresets

/-- A lane that was just seated and rebuilt has nothing yet. -/
theorem seated_balanced {manager : SessionLaneManager}
    (h : ((s.seat manager lane sessionId maxPositions).rebuildContext calls).1 = true) :
    ((s.seat manager lane sessionId maxPositions).rebuildContext calls).2.Balanced lane := by
  obtain ⟨-, hlanes, -, henqueued⟩ :=
    (s.seat manager lane sessionId maxPositions).rebuildContext_frame calls
  have hresets := resetsRows_of_rebuilt h
  have hlt : lane < (s.seat manager lane sessionId maxPositions).admittedLanes.length := by
    rw [← List.mem_range, ← hresets.1]
    exact mem_seat.mpr (.inr rfl)
  intro rec hrec
  rw [hlanes, seat_lanes_self, Option.some.injEq] at hrec
  subst hrec
  rw [held, rebuildContext_committed, if_pos ⟨hresets, hlt⟩, henqueued, seat_enqueued_self]
  rfl

theorem Conserves.admitSession_iff (h : s.Conserves) (hs : s.Seated) :
    (s.admitSession sessionId prompt maxPositions calls).2.Conserves ↔
      LosesNothing s (.admitSession sessionId prompt maxPositions calls) := by
  obtain ⟨hout, manager, -, heq⟩ | ⟨lane, manager, hfree, hacquire, hbound, -, heq⟩ :=
    s.admitSession_cases sessionId prompt maxPositions calls
  · have hnot : ¬ s.AdmitResets sessionId calls := fun hr => by
      have hbounds := hr.1
      omega
    rw [heq]
    exact iff_of_true (fun lane => (h lane).congr rfl rfl rfl) fun hr => absurd hr hnot
  · have hresets : s.AdmitResets sessionId calls ↔
        (s.seat manager lane sessionId maxPositions).ResetsRows calls := by
      rw [AdmitResets, hacquire]
      exact and_iff_right ⟨Int.natCast_nonneg lane, Int.ofNat_lt.mpr hbound⟩
    have hnew : lane ∉ s.admittedLanes := fun hin => hfree (hs.inUse lane hin)
    have hother (other : Nat) (hne : other ≠ lane) :
        (s.admitSession sessionId prompt maxPositions calls).2.Balanced other ↔
          ((s.seat manager lane sessionId maxPositions).ResetsRows calls →
            other ∈ s.admittedLanes → (s.cache.rows other).length = 0) := by
      rw [← (h other).rebuilt_iff hs hne, heq]
      dsimp only
      split
      · exact balanced_congr (unseat_lanes_ne hne) rfl rfl
      · exact pushPrompt_balanced_iff hne
    rw [LosesNothing, hresets]
    constructor
    · intro hafter hr other hin
      have hne : other ≠ lane := fun he => hnew (he ▸ hin)
      exact (hother other hne).mp (hafter other) hr hin
    · intro hempty other
      by_cases hne : other = lane
      · rw [hne, heq]
        dsimp only
        split
        · exact .of_none unseat_lanes_self
        · rename_i hbuilt
          exact (seated_balanced (Bool.not_eq_false _ ▸ hbuilt)).pushPrompt lane prompt
      · exact (hother other hne).mpr fun hr hin => hempty hr other hin

theorem Conserves.enqueueChunk (h : s.Conserves) (id : Int) (chunk : List Int) (isFinal : Bool) :
    (s.enqueueChunk id chunk isFinal).2.Conserves := by
  obtain heq | ⟨n, rec, -, -, heq⟩ := s.enqueueChunk_cases id chunk isFinal
  · rw [heq]
    exact h
  · rw [heq]
    exact fun lane => (h lane).push n chunk isFinal

/-- An eviction empties only the row of the lane that leaves. -/
theorem Conserves.evict (h : s.Conserves) (id : Int) : (s.evict id).Conserves := by
  obtain heq | ⟨n, heq⟩ := s.evict_cases id
  · rw [heq]
    exact h
  · rw [heq]
    intro lane
    by_cases hlane : lane = n
    · subst hlane
      exact .of_none (Function.update_self ..)
    · apply (h lane).congr
      · exact Function.update_of_ne hlane ..
      · calc
          ((s.cache.resetLane n).rows lane).committed =
              Function.update (fun i => (s.cache.rows i).committed) n [] lane :=
            KvCache.resetLane_committed n lane
          _ = (s.cache.rows lane).committed := Function.update_of_ne hlane ..
      · rfl

end Seating

theorem Conserves.perform_iff (h : s.Conserves) (hs : s.Seated) (call : BatcherCall) :
    FailureKeeps s call ∧ (s.perform call).Conserves ↔ LosesNothing s call := by
  cases call with
  | tick result => exact h.tick_iff hs result
  | admitSession sessionId prompt maxPositions calls =>
      exact (and_iff_right trivial).trans (h.admitSession_iff hs)
  | enqueueChunk lane chunk isFinal =>
      exact iff_of_true ⟨trivial, h.enqueueChunk lane chunk isFinal⟩ trivial
  | evict lane => exact iff_of_true ⟨trivial, h.evict lane⟩ trivial

end Batcher

open Batcher

theorem conserves_invariant (manager : SessionLaneManager) (cache : KvCache) :
    ((batcherSystem manager cache).guard LosesNothing).Invariant
      fun s => s.Seated ∧ s.Conserves := by
  apply ((seated_invariant manager cache).guard).relative
  · exact fun _ => .of_none rfl
  · intro s call t hs h hstep
    obtain ⟨hok, hstep⟩ := guard_step.mp hstep
    cases hstep
    exact ((h.perform_iff hs call).mpr hok).2

/-- A failing tick leaves every record and every row as they were exactly when it
stopped at its first pending lane. In a run whose steps meet the condition every
lane's ledger adds up, and a step that does not meet it changes something on
failure or leaves a ledger that does not add up. -/
theorem batcher_conserves_iff (manager : SessionLaneManager) (cache : KvCache) :
    (∀ s, (batcherSystem manager cache).Reachable s → ∀ result, (s.tick result).1 = -1 →
      (s.Keeps (s.tick result).2 ↔ s.stopsAtOnce = true)) ∧
    ∀ s, ((batcherSystem manager cache).guard LosesNothing).Reachable s → s.Conserves ∧
      ∀ call, FailureKeeps s call ∧ (s.perform call).Conserves ↔ LosesNothing s call := by
  constructor
  · intro s h result hfail
    exact ((seated_invariant manager cache).of_reachable h).tick_keeps_iff result hfail
  · intro s h
    obtain ⟨hs, hconserves⟩ := (conserves_invariant manager cache).of_reachable h
    exact ⟨hconserves, hconserves.perform_iff hs⟩

section Runs

/-- Two sessions get a chunk each, and the one on lane 1 has room for one token. -/
def noRoomOnLaneOne : List BatcherCall :=
  [.admitSession 10 [] 0 .performed, .admitSession 11 [] 1 .performed, .enqueueChunk 0 [1, 2] false,
    .enqueueChunk 1 [7, 8, 9] false]

theorem batcher_conserves_iff_two_lanes :
    (∃ s, (batcherSystem twoLanes twoRows).Reachable s ∧
      (s.tick (.performed 0)).1 = -1 ∧
      (s.Keeps (s.tick (.performed 0)).2 ↔ s.stopsAtOnce = true)) ∧
    ∃ s, ((batcherSystem twoLanes twoRows).guard LosesNothing).Reachable s ∧
      s.fed 1 = [7, 8] ∧ s.Conserves ∧
      ∀ call, FailureKeeps s call ∧ (s.perform call).Conserves ↔ LosesNothing s call := by
  obtain ⟨s, h, hfail⟩ := exists_reachable (T := batcherSystem twoLanes twoRows)
    (fun s => (s.tick (.performed 0)).1 = -1) noRoomOnLaneOne (by decide)
  obtain ⟨s', h', hfed⟩ := exists_reachable
    (T := (batcherSystem twoLanes twoRows).guard LosesNothing)
    (fun s => s.fed 1 = [7, 8]) inLockstep (by decide)
  exact ⟨⟨s, h, hfail, (batcher_conserves_iff twoLanes twoRows).1 s h _ hfail⟩,
    s', h', hfed, (batcher_conserves_iff twoLanes twoRows).2 s' h'⟩

/-- Lane 1 has no room, the tick fails, and the chunk of lane 0 is gone. -/
theorem failing_tick_drops_chunk :
    ∃ s, (batcherSystem twoLanes twoRows).Reachable s ∧
      (s.tick (.performed 0)).1 = -1 ∧
      (s.lanes 0).map (·.queue) = some [([1, 2], false)] ∧
      ((s.tick (.performed 0)).2.lanes 0).map (·.queue) = some [] ∧
      ¬ s.Keeps (s.tick (.performed 0)).2 ∧ ¬ (s.tick (.performed 0)).2.Conserves := by
  obtain ⟨s, h, hfail, hbefore, hafter, hheld⟩ := exists_reachable
    (T := batcherSystem twoLanes twoRows)
    (fun s => (s.tick (.performed 0)).1 = -1 ∧
      (s.lanes 0).map (·.queue) = some [([1, 2], false)] ∧
      ((s.tick (.performed 0)).2.lanes 0).map (·.queue) = some [] ∧
      (((s.tick (.performed 0)).2.lanes 0).map ((s.tick (.performed 0)).2.held 0)) ≠
        some ((s.tick (.performed 0)).2.enqueued 0)) noRoomOnLaneOne (by decide)
  refine ⟨s, h, hfail, hbefore, hafter, fun hkeeps => ?_, fun hconserves => ?_⟩
  · rw [hkeeps.lanes, hbefore] at hafter
    cases hafter
  · obtain ⟨rec, hrec, -⟩ := Option.map_eq_some_iff.mp hafter
    apply hheld
    rw [hrec, Option.map_some, hconserves 0 rec hrec]

end Runs

end JetsonVoice.Runtime
