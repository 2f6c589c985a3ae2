import JetsonVoice.Asr.SessionLaneManager
import JetsonVoice.Foundation.TransitionSystem
import Mathlib.Data.List.Sort

/-!
# The batch lanes of the synthesis runtime

`TtsBatchLaneManager` reserves a lane of the TTS partition for every admitted
session and hands the requests of all of them to the engine as one batch, packed
in the order of their rows. The engine drives the `k`-th request of a batch on
its row `k`; the row a lane was admitted with is its distance from the base of
the partition.

## Implementation notes

ASR sessions use the same allocator, each on lanes of its own partition. The
history says which batches the engine was given.
-/

namespace JetsonVoice.Runtime

open Foundation TransitionSystem
open Asr (SessionLaneManager)

/-- `TtsBatchLaneManager::LaneRecord` -/
structure TtsLaneRecord (Request : Type*) where
  lane : Nat
  batchRow : Nat
  sessionId : Int
  active : Bool
  request : Request
  deriving DecidableEq, Repr

/-- What one `handleAudioGeneration` call gets, and `outLaneOrder` beside it. -/
structure TtsBatch (Request : Type*) where
  requests : List Request
  laneOrder : List Nat
  deriving DecidableEq, Repr

/-- The manager, the allocator it draws from, and its history. -/
structure TtsBatchLaneManager (Request : Type*) where
  laneManager : SessionLaneManager
  lanes : List (TtsLaneRecord Request) := []
  handed : List (TtsBatch Request) := []
  deriving DecidableEq, Repr

/-- The order `runBatch` sorts by. -/
def RowLe {Request : Type*} (a b : TtsLaneRecord Request) : Prop := a.batchRow ≤ b.batchRow

section RowLe
variable {Request : Type*}

instance : DecidableRel (@RowLe Request) :=
  fun a b => inferInstanceAs (Decidable (a.batchRow ≤ b.batchRow))

instance : Std.Total (@RowLe Request) := ⟨fun a b => Nat.le_total a.batchRow b.batchRow⟩

instance : IsTrans (TtsLaneRecord Request) RowLe := ⟨fun _ _ _ => Nat.le_trans⟩

end RowLe

namespace TtsBatchLaneManager

variable {Request : Type*} (s : TtsBatchLaneManager Request)

/-- `ttsBase` -/
def ttsBase : Nat := s.laneManager.asrMax

/-- Admit a session into a free lane of the TTS partition, or return `-1`. -/
def admitSession (sessionId : Int) (request : Request) :
    Int × TtsBatchLaneManager Request :=
  let acquired := s.laneManager.acquire .kTts sessionId
  if acquired.1 < 0 then (-1, { s with laneManager := acquired.2 })
  else
    (acquired.1, { s with
      laneManager := acquired.2
      lanes := s.lanes ++ [{
        lane := acquired.1.toNat
        batchRow := acquired.1.toNat - s.ttsBase
        sessionId := sessionId
        active := true
        request := request }] })

/-- The active records in the order of their rows. -/
def ordered : List (TtsLaneRecord Request) :=
  (s.lanes.filter (·.active)).insertionSort RowLe

/-- The batch of the active lanes. -/
def batch : TtsBatch Request := ⟨s.ordered.map (·.request), s.ordered.map (·.lane)⟩

/-- `runBatch`, with what the engine returns. -/
def runBatch (ok : Bool) : Bool × TtsBatchLaneManager Request :=
  if s.ordered = [] then (false, s) else (ok, { s with handed := s.handed ++ [s.batch] })

/-- Release a lane back to the TTS partition. -/
def evict (lane : Int) : TtsBatchLaneManager Request :=
  match s.lanes.find? fun rec => (rec.lane : Int) = lane with
  | none => s
  | some rec =>
      if rec.active = false then s
      else { s with
        laneManager := s.laneManager.release lane
        lanes := s.lanes.eraseP fun rec => (rec.lane : Int) = lane }

end TtsBatchLaneManager

/-- The calls on the manager, and what ASR sessions do on the shared allocator. -/
inductive TtsCall (Request : Type*) where
  | admitSession (sessionId : Int) (request : Request)
  | runBatch (ok : Bool)
  | evict (lane : Int)
  | asrAcquire (ownerId : Int)
  | asrRelease (lane : Nat)
  | asrSetKvLength (lane : Nat) (kvLength : Int)
  deriving DecidableEq, Repr

/-- The call is one on the manager. -/
def TtsCall.onManager {Request : Type*} : TtsCall Request → Bool
  | .admitSession .. | .runBatch _ | .evict _ => true
  | _ => false

namespace TtsBatchLaneManager

variable {Request : Type*}

/-- The state a call leaves. -/
def perform (s : TtsBatchLaneManager Request) : TtsCall Request → TtsBatchLaneManager Request
  | .admitSession sessionId request => (s.admitSession sessionId request).2
  | .runBatch ok => (s.runBatch ok).2
  | .evict lane => s.evict lane
  | .asrAcquire ownerId => { s with laneManager := (s.laneManager.acquire .kAsr ownerId).2 }
  | .asrRelease lane => { s with laneManager := s.laneManager.release lane }
  | .asrSetKvLength lane kvLength =>
      { s with laneManager := s.laneManager.setKvLength lane kvLength }

/-- ASR sessions give back lanes of their own partition. -/
def Proper (s : TtsBatchLaneManager Request) : TtsCall Request → Prop
  | .asrRelease lane => lane < s.ttsBase
  | _ => True

instance (s : TtsBatchLaneManager Request) (call : TtsCall Request) : Decidable (s.Proper call) :=
  match call with
  | .asrRelease lane => inferInstanceAs (Decidable (lane < s.ttsBase))
  | .admitSession .. => isTrue trivial
  | .runBatch _ => isTrue trivial
  | .evict _ => isTrue trivial
  | .asrAcquire _ => isTrue trivial
  | .asrSetKvLength .. => isTrue trivial

end TtsBatchLaneManager

/-- A manager without records over an allocator. -/
def ttsBatchSystem (Request : Type*) (laneManager : SessionLaneManager) :
    TransitionSystem (TtsBatchLaneManager Request) (TtsCall Request) where
  start := { laneManager := laneManager }
  step s call := if s.Proper call then some (s.perform call) else none

namespace TtsBatchLaneManager

variable {Request : Type*} {s : TtsBatchLaneManager Request}

/-- The lanes in use outside the ASR partition are the lanes of the records, one
record for each, and a record's row is the distance of its lane from the base. -/
structure Seated (s : TtsBatchLaneManager Request) : Prop where
  active : ∀ rec ∈ s.lanes, rec.active = true
  row : ∀ rec ∈ s.lanes, rec.lane = s.ttsBase + rec.batchRow
  nodup : (s.lanes.map (·.lane)).Nodup
  inUse : ∀ lane, s.ttsBase ≤ lane →
    (s.laneManager.laneInUse lane = true ↔ lane ∈ s.lanes.map (·.lane))

theorem admitSession_cases (s : TtsBatchLaneManager Request) (sessionId : Int)
    (request : Request) :
    (∃ (lane : Nat) (r : Asr.LaneRecord), s.ttsBase ≤ lane ∧ lane < s.laneManager.maxBatchSize ∧
      s.laneManager.laneInUse lane = false ∧ r.inUse = true ∧
      s.admitSession sessionId request = ((lane : Int), { s with
        laneManager := s.laneManager.setLane lane r
        lanes := s.lanes ++ [⟨lane, lane - s.ttsBase, sessionId, true, request⟩] })) ∨
    s.admitSession sessionId request = (-1, s) := by
  obtain ⟨lane, r, hge, hlt, hfree, hr, heq⟩ | ⟨heq, -⟩ :=
    s.laneManager.acquire_cases .kTts sessionId
  · refine .inl ⟨lane, r, hge, SessionLaneManager.laneRange_lt hlt, hfree, hr, ?_⟩
    have hpos : ¬ (lane : Int) < 0 := Int.not_lt.mpr (Int.natCast_nonneg lane)
    simp only [admitSession, heq, hpos, if_false, Int.toNat_natCast]
  · have hneg : (-1 : Int) < 0 := by decide
    exact .inr (by simp only [admitSession, heq, hneg, if_true])

theorem evict_cases (h : ∀ rec ∈ s.lanes, rec.active = true) (lane : Int) :
    s.evict lane = s ∨
    ∃ rec ∈ s.lanes, s.evict lane = { s with
      laneManager := s.laneManager.release rec.lane
      lanes := s.lanes.eraseP fun other => other.lane = rec.lane } := by
  rw [evict]
  split
  · exact .inl rfl
  · rename_i rec hfind
    have hmem := List.mem_of_find?_eq_some hfind
    obtain rfl : (rec.lane : Int) = lane := by simpa using List.find?_some hfind
    have hactive : ¬ rec.active = false := by simp [h rec hmem]
    refine .inr ⟨rec, hmem, ?_⟩
    simp only [if_neg hactive, Nat.cast_inj]

theorem Seated.admitSession (h : s.Seated) (sessionId : Int) (request : Request) :
    (s.admitSession sessionId request).2.Seated := by
  obtain ⟨lane, r, hge, hlt, hfree, hr, heq⟩ | heq := s.admitSession_cases sessionId request
  · have hnew : lane ∉ s.lanes.map (·.lane) := by
      rw [← h.inUse lane hge, hfree]
      exact Bool.false_ne_true
    rw [heq]
    constructor
    · intro rec hrec
      cases List.mem_append.mp hrec with
      | inl hold => exact h.active rec hold
      | inr hone => rw [List.mem_singleton.mp hone]
    · intro rec hrec
      cases List.mem_append.mp hrec with
      | inl hold => exact h.row rec hold
      | inr hone =>
          rw [List.mem_singleton.mp hone]
          exact (Nat.add_sub_cancel' hge).symm
    · rw [List.map_append]
      apply List.nodup_append.mpr
      refine ⟨h.nodup, List.nodup_singleton lane, ?_⟩
      intro a ha b hb hab
      have hlane : b = lane := List.mem_singleton.mp hb
      exact hnew (hlane ▸ hab ▸ ha)
    · intro other hother
      rw [SessionLaneManager.setLane_laneInUse hlt, List.map_append, List.mem_append,
        ← h.inUse other hother]
      by_cases he : other = lane <;> simp [he, hr]
  · rw [heq]
    exact h

theorem Seated.evict (h : s.Seated) (lane : Int) : (s.evict lane).Seated := by
  obtain heq | ⟨rec, hrec, heq⟩ := evict_cases h.active lane
  · rw [heq]
    exact h
  · have hbase : (s.evict lane).ttsBase = s.ttsBase := by
      rw [heq]
      exact SessionLaneManager.release_asrMax _
    have hlanes : (s.evict lane).lanes.map (·.lane) = (s.lanes.map (·.lane)).erase rec.lane := by
      rw [heq]
      exact map_eraseP (·.lane) s.lanes rec.lane
    have hmem : ∀ other ∈ (s.evict lane).lanes, other ∈ s.lanes := by
      rw [heq]
      exact fun _ => List.mem_of_mem_eraseP
    constructor
    · exact fun other hother => h.active other (hmem other hother)
    · intro other hother
      rw [hbase]
      exact h.row other (hmem other hother)
    · rw [hlanes]
      exact h.nodup.erase rec.lane
    · intro other hother
      rw [hbase] at hother
      rw [hlanes, h.nodup.mem_erase_iff, ← h.inUse other hother, heq,
        ← SessionLaneManager.inUse_natCast, SessionLaneManager.release_inUse,
        SessionLaneManager.inUse_natCast, and_comm, ne_eq, Nat.cast_inj]

/-- What ASR sessions do keeps the lanes outside their partition. -/
theorem Seated.keep (h : s.Seated) {laneManager : SessionLaneManager}
    (hmax : laneManager.asrMax = s.ttsBase)
    (huse : ∀ lane, s.ttsBase ≤ lane →
      laneManager.laneInUse lane = s.laneManager.laneInUse lane) :
    { s with laneManager := laneManager }.Seated where
  active := h.active
  row rec hrec := by
    rw [ttsBase, hmax]
    exact h.row rec hrec
  nodup := h.nodup
  inUse lane hlane := by
    rw [ttsBase, hmax] at hlane
    rw [huse lane hlane]
    exact h.inUse lane hlane

theorem runBatch_seated (h : s.Seated) (ok : Bool) : (s.runBatch ok).2.Seated := by
  rw [runBatch]
  split
  · exact h
  · exact ⟨h.active, h.row, h.nodup, h.inUse⟩

/-- An ASR session's call keeps the lanes outside the ASR partition. -/
theorem asr_keeps {call : TtsCall Request} (hcall : call.onManager = false)
    (hproper : s.Proper call) :
    ∃ laneManager, s.perform call = { s with laneManager := laneManager } ∧
      laneManager.asrMax = s.ttsBase ∧ ∀ lane, s.ttsBase ≤ lane →
        laneManager.laneInUse lane = s.laneManager.laneInUse lane := by
  cases call with
  | admitSession sessionId request => cases hcall
  | runBatch ok => cases hcall
  | evict lane => cases hcall
  | asrAcquire ownerId =>
      refine ⟨_, rfl, SessionLaneManager.acquire_asrMax _ _, fun lane hlane => ?_⟩
      obtain ⟨taken, r, -, hlt, -, -, heq⟩ | ⟨heq, -⟩ := s.laneManager.acquire_cases .kAsr ownerId
      · have hne : lane ≠ taken := by
          have hmax : taken < s.ttsBase := hlt
          omega
        rw [heq, SessionLaneManager.setLane_laneInUse (SessionLaneManager.laneRange_lt hlt),
          if_neg hne]
      · rw [heq]
  | asrRelease released =>
      refine ⟨_, rfl, SessionLaneManager.release_asrMax _, fun lane hlane => ?_⟩
      have hne : (lane : Int) ≠ released := by
        have hmax : released < s.ttsBase := hproper
        omega
      rw [Bool.eq_iff_iff, ← SessionLaneManager.inUse_natCast, SessionLaneManager.release_inUse,
        SessionLaneManager.inUse_natCast, and_iff_left hne]
  | asrSetKvLength lane kvLength =>
      refine ⟨_, rfl, SessionLaneManager.setKvLength_asrMax _ _, fun other _ => ?_⟩
      rw [Bool.eq_iff_iff, ← SessionLaneManager.inUse_natCast,
        SessionLaneManager.setKvLength_inUse, SessionLaneManager.inUse_natCast]

theorem Seated.perform (h : s.Seated) {call : TtsCall Request} (hproper : s.Proper call) :
    (s.perform call).Seated := by
  cases hcall : call.onManager with
  | false =>
      obtain ⟨laneManager, heq, hmax, huse⟩ := asr_keeps hcall hproper
      rw [heq]
      exact h.keep hmax huse
  | true =>
      cases call with
      | admitSession sessionId request => exact h.admitSession sessionId request
      | runBatch ok => exact runBatch_seated h ok
      | evict lane => exact h.evict lane
      | asrAcquire ownerId => cases hcall
      | asrRelease lane => cases hcall
      | asrSetKvLength lane kvLength => cases hcall

/-- A call on the manager neither takes nor releases an ASR lane. -/
theorem Seated.asr_untouched (h : s.Seated) {call : TtsCall Request}
    (hcall : call.onManager = true) {lane : Nat} (hlane : lane < s.ttsBase) :
    (s.perform call).laneManager.laneInUse lane = s.laneManager.laneInUse lane := by
  cases call with
  | admitSession sessionId request =>
      obtain ⟨taken, r, hge, hlt, -, -, heq⟩ | heq := s.admitSession_cases sessionId request
      · have hne : lane ≠ taken := by omega
        rw [TtsBatchLaneManager.perform, heq, SessionLaneManager.setLane_laneInUse hlt, if_neg hne]
      · rw [TtsBatchLaneManager.perform, heq]
  | runBatch ok =>
      rw [TtsBatchLaneManager.perform, runBatch]
      split <;> rfl
  | evict evicted =>
      obtain heq | ⟨rec, hrec, heq⟩ := evict_cases h.active evicted
      · rw [TtsBatchLaneManager.perform, heq]
      · have hne : (lane : Int) ≠ rec.lane := by
          have hrow := h.row rec hrec
          omega
        rw [TtsBatchLaneManager.perform, heq, Bool.eq_iff_iff,
          ← SessionLaneManager.inUse_natCast, SessionLaneManager.release_inUse,
          SessionLaneManager.inUse_natCast, and_iff_left hne]
  | asrAcquire ownerId => cases hcall
  | asrRelease released => cases hcall
  | asrSetKvLength set kvLength => cases hcall

/-- Every record is packed, and once. -/
theorem Seated.ordered_perm (h : s.Seated) : s.ordered.Perm s.lanes := by
  have hall : s.lanes.filter (·.active) = s.lanes := List.filter_eq_self.mpr h.active
  rw [ordered, hall]
  exact List.perm_insertionSort RowLe s.lanes

/-- The packed rows ascend. -/
theorem Seated.rows_ascend (h : s.Seated) : (s.ordered.map (·.batchRow)).Pairwise (· < ·) := by
  have hsorted : s.ordered.Pairwise RowLe := List.pairwise_insertionSort RowLe _
  have hdistinct : s.ordered.Pairwise fun a b => a.lane ≠ b.lane :=
    List.pairwise_map.mp ((h.ordered_perm.map TtsLaneRecord.lane).nodup_iff.mpr h.nodup)
  have hrow {rec : TtsLaneRecord Request} (hrec : rec ∈ s.ordered) :
      rec.lane = s.ttsBase + rec.batchRow := h.row rec (h.ordered_perm.mem_iff.mp hrec)
  apply List.pairwise_map.mpr
  apply (hsorted.and hdistinct).imp_of_mem
  intro a b ha hb hab
  have hle : a.batchRow ≤ b.batchRow := hab.1
  have hne : a.lane ≠ b.lane := hab.2
  rw [hrow ha, hrow hb] at hne
  omega

/-- A lane is its row above the base. -/
theorem Seated.laneOrder_eq (h : s.Seated) :
    s.batch.laneOrder = (s.ordered.map (·.batchRow)).map (s.ttsBase + ·) := by
  rw [List.map_map]
  exact List.map_congr_left fun rec hrec => h.row rec (h.ordered_perm.mem_iff.mp hrec)

/-- A batch run hands over the requests of the admitted lanes, each once, with
the lanes beside them in ascending order; without a lane there is no call. -/
def HandsAdmitted (s : TtsBatchLaneManager Request) : Prop :=
  ∀ ok, (s.lanes = [] → s.runBatch ok = (false, s)) ∧
    (s.lanes ≠ [] → ∃ b : TtsBatch Request,
      s.runBatch ok = (ok, { s with handed := s.handed ++ [b] }) ∧
      b.laneOrder.Pairwise (· < ·) ∧ b.requests.length = b.laneOrder.length ∧
      (b.laneOrder.zip b.requests).Perm (s.lanes.map fun rec => (rec.lane, rec.request)))

theorem Seated.handsAdmitted (h : s.Seated) : s.HandsAdmitted := by
  intro ok
  have hempty : s.ordered = [] ↔ s.lanes = [] := by
    rw [← List.length_eq_zero_iff, h.ordered_perm.length_eq, List.length_eq_zero_iff]
  constructor
  · intro hnil
    rw [runBatch, if_pos (hempty.mpr hnil)]
  · intro hsome
    refine ⟨s.batch, ?_, ?_, ?_, ?_⟩
    · rw [runBatch, if_neg (hempty.not.mpr hsome)]
    · rw [h.laneOrder_eq]
      exact List.pairwise_map.mpr (h.rows_ascend.imp fun hab => Nat.add_lt_add_left hab _)
    · simp only [batch, List.length_map]
    · simp only [batch, List.zip_map']
      exact h.ordered_perm.map _

/-- In every batch the engine was given, the `k`-th request is of the lane of row `k`. -/
def InRow (s : TtsBatchLaneManager Request) : Prop :=
  ∀ b ∈ s.handed, ∀ k lane, b.laneOrder[k]? = some lane → lane = s.ttsBase + k

/-- Every row below that of an admitted lane is admitted too. -/
def NoGap (s : TtsBatchLaneManager Request) : Prop :=
  ∀ rec ∈ s.lanes, ∀ row < rec.batchRow, row ∈ s.lanes.map (·.batchRow)

instance : Decidable s.NoGap := inferInstanceAs (Decidable (∀ _ ∈ _, ∀ _ < _, _))

/-- A batch run finds no gap below its lanes. -/
def StaysInRow (s : TtsBatchLaneManager Request) : TtsCall Request → Prop
  | .runBatch _ => s.NoGap
  | _ => True

instance (s : TtsBatchLaneManager Request) (call : TtsCall Request) :
    Decidable (s.StaysInRow call) :=
  match call with
  | .runBatch _ => inferInstanceAs (Decidable s.NoGap)
  | .admitSession .. => isTrue trivial
  | .evict _ => isTrue trivial
  | .asrAcquire _ => isTrue trivial
  | .asrRelease _ => isTrue trivial
  | .asrSetKvLength .. => isTrue trivial

/-- The packed positions are the rows exactly when no row below is missing. -/
theorem Seated.positions_iff (h : s.Seated) :
    (∀ k lane, s.batch.laneOrder[k]? = some lane → lane = s.ttsBase + k) ↔ s.NoGap := by
  have hmem (row : Nat) :
      row ∈ s.lanes.map (·.batchRow) ↔ row ∈ s.ordered.map (·.batchRow) :=
    (h.ordered_perm.map TtsLaneRecord.batchRow).mem_iff.symm
  constructor
  · intro hpos rec hrec row hlt
    obtain ⟨k, hk⟩ := List.mem_iff_getElem?.mp (h.ordered_perm.mem_iff.mpr hrec)
    have hrow : (s.ordered.map (·.batchRow))[k]? = some rec.batchRow := by
      rw [List.getElem?_map, hk, Option.map_some]
    have hlane : rec.lane = s.ttsBase + k := by
      apply hpos k
      rw [batch, List.getElem?_map, hk, Option.map_some]
    have hindex : rec.batchRow = k := by
      have := h.row rec hrec
      omega
    rw [hmem]
    exact (ascending_index_iff h.rows_ascend hrow).mpr hindex row hlt
  · intro hgap k lane hlane
    rw [h.laneOrder_eq, List.getElem?_map] at hlane
    obtain ⟨row, hrow, rfl⟩ := Option.map_eq_some_iff.mp hlane
    obtain ⟨rec, hrec, hrow'⟩ := Option.map_eq_some_iff.mp ((List.getElem?_map ..).symm.trans hrow)
    have hall : ∀ b < row, b ∈ s.ordered.map (·.batchRow) := by
      intro b hb
      rw [← hmem]
      exact hgap rec (h.ordered_perm.mem_iff.mp (List.mem_of_getElem? hrec)) b (hrow' ▸ hb)
    rw [(ascending_index_iff h.rows_ascend hrow).mp hall]

theorem Seated.runBatch_inRow_iff (h : s.Seated) (hrow : s.InRow) (ok : Bool) :
    (s.runBatch ok).2.InRow ↔ s.NoGap := by
  rw [← h.positions_iff]
  by_cases hnil : s.lanes = []
  · have hbatch : s.batch.laneOrder = [] := by
      rw [batch, List.map_eq_nil_iff, ← List.length_eq_zero_iff, h.ordered_perm.length_eq,
        hnil, List.length_nil]
    rw [((h.handsAdmitted ok).1 hnil), hbatch]
    exact iff_of_true hrow fun k lane hk => by cases hk
  · have hsome : s.ordered ≠ [] := by
      rw [ne_eq, ← List.length_eq_zero_iff, h.ordered_perm.length_eq, List.length_eq_zero_iff]
      exact hnil
    rw [runBatch, if_neg hsome]
    constructor
    · intro hin
      exact hin s.batch (List.mem_append_right _ (List.mem_singleton_self _))
    · intro hpos b hb
      cases List.mem_append.mp hb with
      | inl hold => exact hrow b hold
      | inr hnew => exact List.mem_singleton.mp hnew ▸ hpos

/-- Calls other than batch runs hand nothing over. -/
theorem Seated.perform_handed (h : s.Seated) {call : TtsCall Request} (hproper : s.Proper call)
    (hrun : ∀ ok, call ≠ .runBatch ok) :
    (s.perform call).handed = s.handed ∧ (s.perform call).ttsBase = s.ttsBase := by
  cases hcall : call.onManager with
  | false =>
      obtain ⟨laneManager, heq, hmax, -⟩ := asr_keeps hcall hproper
      rw [heq]
      exact ⟨rfl, hmax⟩
  | true =>
      cases call with
      | admitSession sessionId request =>
          obtain ⟨lane, r, -, -, -, -, heq⟩ | heq := s.admitSession_cases sessionId request
          · rw [TtsBatchLaneManager.perform, heq]
            exact ⟨rfl, rfl⟩
          · rw [TtsBatchLaneManager.perform, heq]
            exact ⟨rfl, rfl⟩
      | runBatch ok => exact absurd rfl (hrun ok)
      | evict lane =>
          obtain heq | ⟨rec, -, heq⟩ := evict_cases h.active lane
          · rw [TtsBatchLaneManager.perform, heq]
            exact ⟨rfl, rfl⟩
          · rw [TtsBatchLaneManager.perform, heq]
            exact ⟨rfl, SessionLaneManager.release_asrMax _⟩
      | asrAcquire ownerId => cases hcall
      | asrRelease lane => cases hcall
      | asrSetKvLength lane kvLength => cases hcall

/-- A call keeps requests on their rows exactly when it is no batch run over a gap. -/
theorem Seated.inRow_iff (h : s.Seated) (hrow : s.InRow) {call : TtsCall Request}
    (hproper : s.Proper call) : (s.perform call).InRow ↔ s.StaysInRow call := by
  by_cases hrun : ∃ ok, call = .runBatch ok
  · obtain ⟨ok, rfl⟩ := hrun
    exact h.runBatch_inRow_iff hrow ok
  · rw [not_exists] at hrun
    obtain ⟨hhanded, hbase⟩ := h.perform_handed hproper hrun
    have htrue : s.StaysInRow call := by
      cases call with
      | runBatch ok => exact absurd rfl (hrun ok)
      | _ => trivial
    rw [InRow, hhanded, hbase]
    exact iff_of_true hrow htrue

end TtsBatchLaneManager

section System
open TtsBatchLaneManager
variable {Request : Type*} {maxBatchSize asrMax ttsMax : Int} {laneManager : SessionLaneManager}

theorem ttsSeated_invariant
    (hm : SessionLaneManager.create maxBatchSize asrMax ttsMax = .ok laneManager) :
    (ttsBatchSystem Request laneManager).Invariant Seated where
  start := by
    refine ⟨nofun, nofun, List.nodup_nil, fun lane _ => ?_⟩
    have hfree := SessionLaneManager.create_inUse hm lane
    rw [SessionLaneManager.inUse_natCast] at hfree
    exact iff_of_false hfree List.not_mem_nil
  step {s call t} h hstep := by
    obtain ⟨hproper, heq⟩ := Option.ite_none_right_eq_some.mp hstep
    cases heq
    exact h.perform hproper

/-- In every run the lanes in use outside the ASR partition are those of the
records, ASR lanes are left alone, and a batch run hands over the requests of the
admitted lanes in ascending order. Requests are on their rows in the runs whose
batch runs find no row missing below their lanes; one that finds a row missing
puts a request on another lane's row. -/
theorem tts_batches_iff
    (hm : SessionLaneManager.create maxBatchSize asrMax ttsMax = .ok laneManager) :
    (∀ s : TtsBatchLaneManager Request, (ttsBatchSystem Request laneManager).Reachable s →
      s.Seated ∧ s.HandsAdmitted ∧ ∀ call : TtsCall Request, call.onManager = true →
        ∀ lane < s.ttsBase,
          (s.perform call).laneManager.laneInUse lane = s.laneManager.laneInUse lane) ∧
    (∀ s : TtsBatchLaneManager Request,
      ((ttsBatchSystem Request laneManager).guard StaysInRow).Reachable s →
      s.InRow ∧ ∀ call, s.Proper call → ((s.perform call).InRow ↔ s.StaysInRow call)) := by
  constructor
  · intro s h
    have hs := (ttsSeated_invariant hm).of_reachable h
    exact ⟨hs, hs.handsAdmitted, fun call hcall lane hlane => hs.asr_untouched hcall hlane⟩
  · intro s h
    have inv : ((ttsBatchSystem Request laneManager).guard StaysInRow).Invariant
        fun s => s.Seated ∧ s.InRow := by
      apply ((ttsSeated_invariant hm).guard).relative nofun
      intro s call t hs hrow hstep
      obtain ⟨hok, hstep⟩ := guard_step.mp hstep
      obtain ⟨hproper, heq⟩ := Option.ite_none_right_eq_some.mp hstep
      cases heq
      exact (hs.inRow_iff hrow hproper).mpr hok
    obtain ⟨hs, hrow⟩ := inv.of_reachable h
    exact ⟨hrow, fun call hproper => hs.inRow_iff hrow hproper⟩

end System

section Runs

/-- An allocator of one ASR lane and two TTS lanes. -/
def mixedLanes : SessionLaneManager where
  maxBatchSize := 3
  asrMax := 1
  ttsMax := 2
  lanes := [{}, {}, {}]
  lanes_length := rfl
  partition_le := Nat.le_refl 3

/-- Two sessions beside an ASR session. -/
def besideAsr : List (TtsCall String) :=
  [.asrAcquire 7, .admitSession 10 "one", .admitSession 11 "two", .runBatch true]

theorem tts_batches_iff_beside_asr :
    ∃ s, ((ttsBatchSystem String mixedLanes).guard TtsBatchLaneManager.StaysInRow).Reachable s ∧
      s.handed = [⟨["one", "two"], [1, 2]⟩] ∧ s.Seated ∧ s.InRow := by
  obtain ⟨s, h, hhanded⟩ := exists_reachable
    (T := (ttsBatchSystem String mixedLanes).guard TtsBatchLaneManager.StaysInRow)
    (fun s => s.handed = [⟨["one", "two"], [1, 2]⟩]) besideAsr (by decide)
  have hm : SessionLaneManager.create 3 1 2 = .ok mixedLanes := rfl
  obtain ⟨hall, hguarded⟩ := tts_batches_iff hm
  exact ⟨s, h, hhanded, (hall s h.of_guard).1, (hguarded s h).1⟩

/-- The session on the first lane is evicted before the batch run. -/
def afterEviction : List (TtsCall String) :=
  [.admitSession 10 "one", .admitSession 11 "two", .evict 1, .runBatch true]

/-- The lane of row 1 is driven on row 0. -/
theorem remaining_request_on_row_zero :
    ∃ s, (ttsBatchSystem String mixedLanes).Reachable s ∧
      s.lanes.map (fun rec => (rec.lane, rec.batchRow)) = [(2, 1)] ∧
      s.handed = [⟨["two"], [2]⟩] ∧ ¬ s.InRow := by
  obtain ⟨s, h, hlanes, hbase, hhanded⟩ := exists_reachable
    (T := ttsBatchSystem String mixedLanes)
    (fun s => s.lanes.map (fun rec => (rec.lane, rec.batchRow)) = [(2, 1)] ∧ s.ttsBase = 1 ∧
      s.handed = [⟨["two"], [2]⟩]) afterEviction (by decide)
  refine ⟨s, h, hlanes, hhanded, fun hrow => ?_⟩
  have hlane := hrow ⟨["two"], [2]⟩ (hhanded ▸ List.mem_singleton_self _) 0 2 rfl
  rw [hbase] at hlane
  cases hlane

end Runs

end JetsonVoice.Runtime
