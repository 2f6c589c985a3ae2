import JetsonVoice.Runtime.BatcherSteps

/-!
# Rows and lanes of the continuous batcher

The packed lanes are checked against their place in the list of admitted lanes,
and the engine takes them from row 0 on. That place is the lane itself as long
as no lane below a packed one is missing; a lane that outlives a lane below it
is driven on another lane's row.
-/

namespace JetsonVoice.Runtime

open Foundation TransitionSystem
open Asr (SessionLaneManager)

namespace Batcher

variable {s : Batcher}

/-- All work was issued for a lane on its own row, and every row holds what was
issued for its lane. -/
structure RowIsLane (s : Batcher) : Prop where
  issued : ∀ work ∈ s.issued, work.1 = work.2
  fed : ∀ lane, (s.cache.rows lane).committed = s.fed lane

/-- Every lane below a packed one is admitted. -/
def NoGap (s : Batcher) : Prop := ∀ r ∈ s.ready, ∀ lane < r.lane, lane ∈ s.admittedLanes

instance : Decidable s.NoGap := inferInstanceAs (Decidable (∀ _ ∈ _, ∀ _ < _, _))

/-- A tick that gets as far as the engine finds no gap below its lanes. -/
def StaysInRow (s : Batcher) : BatcherCall → Prop
  | .tick _ => s.Issues → s.NoGap
  | _ => True

instance (call : BatcherCall) : Decidable (StaysInRow s call) :=
  match call with
  | .tick _ => inferInstanceAs (Decidable (_ → _))
  | .admitSession .. => isTrue trivial
  | .enqueueChunk .. => isTrue trivial
  | .evict _ => isTrue trivial

theorem Seated.noGap_iff (h : s.Seated) : s.NoGap ↔ ∀ r ∈ s.ready, r.lane = r.row :=
  forall₂_congr fun _ hr => ascending_index_iff h.ascend (ready_mem hr).1

/-- Without a gap the packed lanes are `0 … k-1`. -/
theorem Seated.ready_lanes (h : s.Seated) (hpacked : Ready.isPrefix s.ready = true)
    (hgap : s.NoGap) : s.ready.map (·.lane) = List.range s.ready.length := by
  have hrows : s.ready.map (·.row) = List.range s.ready.length := of_decide_eq_true hpacked
  rw [← hrows]
  exact List.map_congr_left (h.noGap_iff.mp hgap)

theorem commitSpans_committed (s : Batcher) (ready : List Ready) (i : Nat) :
    ((s.commitSpans ready).cache.rows i).committed =
      (s.cache.rows i).committed ++ (ready[i]?.map (·.stepTokens)).getD [] := by
  rw [commitSpans, KvCache.commit_committed, List.getElem?_map]

/-- What is issued for a lane among packed lanes `0 … k-1` is the span of its row. -/
theorem commitSpans_fed (s : Batcher) {ready : List Ready}
    (hlanes : ready.map (·.lane) = List.range ready.length) (i : Nat) :
    (s.commitSpans ready).fed i = s.fed i ++ (ready[i]?.map (·.stepTokens)).getD [] := by
  simp only [commitSpans, filter_of_map_eq_range hlanes]
  cases ready[i]? <;> simp

theorem RowIsLane.commitSpans (h : s.RowIsLane) {ready : List Ready}
    (hlanes : ready.map (·.lane) = List.range ready.length) (i : Nat) :
    ((s.commitSpans ready).cache.rows i).committed = (s.commitSpans ready).fed i := by
  rw [commitSpans_committed, commitSpans_fed s hlanes, h.fed]

theorem RowIsLane.resetRows (h : s.RowIsLane) {n : Nat} (hn : n ≤ s.cache.maxBatch) :
    (s.resetRows n hn).RowIsLane where
  issued := h.issued
  fed lane := by
    simp only [Batcher.resetRows, KvCache.resetForNewSequences_committed, h.fed]

theorem RowIsLane.issue (h : s.RowIsLane) {work : List (Nat × Nat)}
    (hwork : ∀ p ∈ work, p.1 = p.2) : (s.issue work).RowIsLane where
  issued p hp := (List.mem_append.mp hp).elim (h.issued p) (hwork p)
  fed := h.fed

theorem RowIsLane.activeBatch (h : s.RowIsLane) (n : Nat) :
    { s with activeBatchSize := n }.RowIsLane := ⟨h.issued, h.fed⟩

theorem RowIsLane.runBatch (h : s.RowIsLane) {ready : List Ready}
    (hlanes : ready.map (·.lane) = List.range ready.length) (result : CallResult) :
    (s.runBatch ready result).2.RowIsLane := by
  have hpacked : ({ s with activeBatchSize := ready.length }.issue
      (ready.zipIdx.map fun (p : Ready × Nat) => (p.2, p.1.lane))).RowIsLane := by
    apply (h.activeBatch ready.length).issue
    intro work hwork
    obtain ⟨p, hp, rfl⟩ := List.mem_map.mp hwork
    exact (index_of_map_eq_range hlanes (List.mem_zipIdx_iff_getElem?.mp hp)).symm
  cases result with
  | refused => exact hpacked
  | failedAfterCommit => exact ⟨hpacked.issued, hpacked.commitSpans hlanes⟩
  | performed token => exact ⟨hpacked.issued, hpacked.commitSpans hlanes⟩

/-- A tick keeps lanes on their rows exactly when it finds no gap. -/
theorem RowIsLane.tick_iff (h : s.RowIsLane) (hs : s.Seated) (result : CallResult) :
    (s.tick result).2.RowIsLane ↔ (s.Issues → s.NoGap) := by
  constructor
  · intro hrow hissues
    rw [hs.noGap_iff]
    intro r hr
    obtain ⟨i, hi⟩ := List.mem_iff_getElem?.mp hr
    have hwork : (i, r.lane) ∈ (s.tick result).2.issued := by
      have hmem : (i, r.lane) ∈ s.ready.zipIdx.map fun (p : Ready × Nat) => (p.2, p.1.lane) :=
        List.mem_map.mpr ⟨(r, i), List.mem_zipIdx_iff_getElem?.mpr hi, rfl⟩
      rw [hs.tick_of_issues hissues]
      cases result <;> exact List.mem_append_right _ hmem
    calc
      r.lane = i := (hrow.issued _ hwork).symm
      _ = r.row := (index_of_map_eq_range (of_decide_eq_true hissues.2.2.1) hi).symm
  · intro hgap
    by_cases hissues : s.Issues
    · have hpopped : { s with lanes := popped s.lanes s.ready }.RowIsLane := ⟨h.issued, h.fed⟩
      rw [hs.tick_of_issues hissues]
      exact hpopped.runBatch (hs.ready_lanes hissues.2.2.1 (hgap hissues)) result
    · obtain ⟨lanes, heq⟩ := hs.tick_of_not_issues hissues result
      rw [heq]
      exact ⟨h.issued, h.fed⟩

theorem RowIsLane.rebuildContext (h : s.RowIsLane) (calls : RebuildCalls) :
    (s.rebuildContext calls).2.RowIsLane := by
  obtain ⟨-, heq⟩ | ⟨work, hwork, -, ⟨heq, -⟩ | ⟨hle, -, heq⟩⟩ := s.rebuildContext_cases calls
  · rw [heq]
    exact h
  · rw [heq]
    exact (h.activeBatch _).issue hwork
  · rw [heq]
    exact ((h.activeBatch _).issue hwork).resetRows hle

theorem RowIsLane.admitSession (h : s.RowIsLane) (sessionId : Int) (prompt : List Int)
    (maxPositions : Int) (calls : RebuildCalls) :
    (s.admitSession sessionId prompt maxPositions calls).2.RowIsLane := by
  obtain ⟨-, manager, -, heq⟩ | ⟨lane, manager, -, -, -, -, heq⟩ :=
    s.admitSession_cases sessionId prompt maxPositions calls
  · rw [heq]
    exact ⟨h.issued, h.fed⟩
  · have hseat : (s.seat manager lane sessionId maxPositions).RowIsLane := ⟨h.issued, h.fed⟩
    have hrebuilt := hseat.rebuildContext calls
    rw [heq]
    dsimp only
    split
    · exact ⟨hrebuilt.issued, hrebuilt.fed⟩
    · rw [pushPrompt]
      split
      · exact hrebuilt
      · exact ⟨hrebuilt.issued, hrebuilt.fed⟩

theorem RowIsLane.enqueueChunk (h : s.RowIsLane) (lane : Int) (chunk : List Int)
    (isFinal : Bool) : (s.enqueueChunk lane chunk isFinal).2.RowIsLane := by
  obtain heq | ⟨n, -, -, -, heq⟩ := s.enqueueChunk_cases lane chunk isFinal
  · rw [heq]
    exact h
  · rw [heq]
    exact ⟨h.issued, h.fed⟩

theorem RowIsLane.evict (h : s.RowIsLane) (lane : Int) : (s.evict lane).RowIsLane := by
  obtain heq | ⟨n, heq⟩ := s.evict_cases lane
  · rw [heq]
    exact h
  · rw [heq]
    refine ⟨h.issued, fun other => ?_⟩
    calc
      ((s.cache.resetLane n).rows other).committed =
          Function.update (fun i => (s.cache.rows i).committed) n [] other :=
        KvCache.resetLane_committed n other
      _ = Function.update s.fed n [] other := by rw [funext h.fed]

theorem RowIsLane.perform_iff (h : s.RowIsLane) (hs : s.Seated) (call : BatcherCall) :
    (s.perform call).RowIsLane ↔ StaysInRow s call := by
  cases call with
  | tick result => exact h.tick_iff hs result
  | admitSession sessionId prompt maxPositions calls =>
      exact iff_of_true (h.admitSession sessionId prompt maxPositions calls) trivial
  | enqueueChunk lane chunk isFinal => exact iff_of_true (h.enqueueChunk lane chunk isFinal) trivial
  | evict lane => exact iff_of_true (h.evict lane) trivial

end Batcher

open Batcher

theorem rowIsLane_invariant (manager : SessionLaneManager) (cache : KvCache) :
    ((batcherSystem manager cache).guard StaysInRow).Invariant fun s => s.Seated ∧ s.RowIsLane := by
  apply ((seated_invariant manager cache).guard).relative
  · exact ⟨fun _ h => (List.not_mem_nil h).elim, fun _ => rfl⟩
  · intro s call t hs h hstep
    obtain ⟨hok, hstep⟩ := guard_step.mp hstep
    cases hstep
    exact (h.perform_iff hs call).mpr hok

/-- In a run whose ticks find no gap below the lanes they pack, every row is its
lane's; a tick that issues work over a gap puts a lane on another lane's row. -/
theorem rows_are_lanes_iff (manager : SessionLaneManager) (cache : KvCache) {s : Batcher}
    (h : ((batcherSystem manager cache).guard StaysInRow).Reachable s) :
    s.RowIsLane ∧ ∀ call, (s.perform call).RowIsLane ↔ StaysInRow s call :=
  have ⟨hs, hrow⟩ := (rowIsLane_invariant manager cache).of_reachable h
  ⟨hrow, hrow.perform_iff hs⟩

section Runs

/-- Two ASR lanes. -/
def twoLanes : SessionLaneManager where
  maxBatchSize := 2
  asrMax := 2
  ttsMax := 0
  lanes := [{}, {}]
  lanes_length := rfl
  partition_le := Nat.le_refl 2

/-- Two sessions get a chunk each. -/
def inLockstep : List BatcherCall :=
  [.admitSession 10 [] 0 .performed, .admitSession 11 [] 0 .performed, .enqueueChunk 0 [1, 2] false,
    .enqueueChunk 1 [7, 8, 9] false, .tick (.performed 0)]

theorem rows_are_lanes_iff_two_lanes :
    ∃ s, ((batcherSystem twoLanes twoRows).guard StaysInRow).Reachable s ∧
      s.fed 1 = [7, 8] ∧ s.RowIsLane ∧
      ∀ call, (s.perform call).RowIsLane ↔ StaysInRow s call := by
  obtain ⟨s, h, hfed⟩ := exists_reachable
    (T := (batcherSystem twoLanes twoRows).guard StaysInRow)
    (fun s => s.fed 1 = [7, 8]) inLockstep (by decide)
  exact ⟨s, h, hfed, rows_are_lanes_iff twoLanes twoRows h⟩

/-- Two sessions are admitted, the one on lane 0 is evicted, and the other gets
a chunk. -/
def survivor : List BatcherCall :=
  [.admitSession 10 [] 0 .performed, .admitSession 11 [] 0 .performed, .evict 0,
    .enqueueChunk 1 [7, 8, 9] false, .tick (.performed 0)]

/-- The lane that outlives lane 0 is driven on row 0. -/
theorem surviving_lane_on_row_zero :
    ∃ s, (batcherSystem twoLanes twoRows).Reachable s ∧
      (s.cache.rows 0).committed = [7, 8] ∧ (s.cache.rows 1).committed = [] ∧
      s.fed 1 = [7, 8] ∧ ¬ s.RowIsLane := by
  obtain ⟨s, h, hzero, hone, hfed⟩ := exists_reachable
    (T := batcherSystem twoLanes twoRows)
    (fun s => (s.cache.rows 0).committed = [7, 8] ∧ (s.cache.rows 1).committed = [] ∧
      s.fed 1 = [7, 8]) survivor (by decide)
  refine ⟨s, h, hzero, hone, hfed, fun hrow => ?_⟩
  have hlane := hrow.fed 1
  rw [hone, hfed] at hlane
  cases hlane

end Runs

end JetsonVoice.Runtime
