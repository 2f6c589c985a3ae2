import JetsonVoice.Asr.SessionLaneManager
import JetsonVoice.Foundation.TransitionSystem
import JetsonVoice.Runtime.StreamingSession
import Mathlib.Data.List.Sort

/-!
# The continuous batcher of streaming ASR lanes

`AsrContinuousBatcher` drives many text sessions over one context. An admission
takes a free lane and sets the whole batch up again; a tick takes one chunk from
every lane that has one and hands them to the engine as one batch, packed from
row 0 on; an eviction empties the lane's row and frees the lane.

## Implementation notes

The records are a map from lanes, since each is found by its lane and no two
have one lane. What the engine does is part of the call: how far a rebuild gets,
and how a batched prefill ends. The history fields say which row every lane's
work was issued on, what was issued for a lane since its row was emptied, and
what was enqueued for it since it was admitted.
-/

namespace JetsonVoice.Runtime

open Foundation TransitionSystem
open Asr (SessionLaneManager)

/-- `AsrContinuousBatcher::LaneRecord`, with each chunk beside its final flag. -/
structure LaneRecord where
  sessionId : Int
  status : AsrSessionStatus := .kIdle
  maxPositions : Int := 0
  appendedTokens : Nat := 0
  chunkCount : Nat := 0
  pendingTextTail : List Int := []
  queue : List (List Int × Bool) := []
  deriving DecidableEq, Repr

/-- `Ready`: what one lane contributes to a tick. The record is the lane's with
its front chunk popped. -/
structure Ready where
  row : Nat
  lane : Nat
  record : LaneRecord
  stepTokens : List Int
  nextTail : List Int
  isFinal : Bool
  priorKvNonEmpty : Bool
  deriving DecidableEq, Repr

namespace LaneRecord

variable (rec : LaneRecord)

/-- The front chunk behind the carried tail, its last token deferred when the
chunk is not final and a token remains. -/
def split (chunk : List Int) (isFinal : Bool) : List Int × List Int :=
  let effective := rec.pendingTextTail ++ chunk
  holdBack (!isFinal && decide (2 ≤ effective.length)) effective

/-- The lane's part of a tick at a row, when the lane is active and has a chunk. -/
def ready (row lane : Nat) : Option Ready :=
  if rec.status ≠ .kActive then none
  else match rec.queue with
    | [] => none
    | (chunk, isFinal) :: queue =>
        some {
          row := row
          lane := lane
          record := { rec with queue := queue }
          stepTokens := (rec.split chunk isFinal).1
          nextTail := (rec.split chunk isFinal).2
          isFinal := isFinal
          priorKvNonEmpty := decide (0 < rec.chunkCount) || !rec.pendingTextTail.isEmpty }

/-- The tokens of the queued chunks. -/
def queued : List Int := (rec.queue.map (·.1)).flatten

end LaneRecord

namespace Ready

variable (r : Ready)

/-- The lane has no room for its step. -/
def overflows : Bool :=
  decide (0 < r.record.maxPositions ∧
    r.record.maxPositions < r.record.appendedTokens + r.stepTokens.length)

/-- The record after the step is committed. -/
def committed : LaneRecord :=
  { r.record with
    pendingTextTail := r.nextTail
    appendedTokens := r.record.appendedTokens + r.stepTokens.length
    chunkCount := r.record.chunkCount + 1
    status := if r.isFinal then .kFinished else r.record.status }

/-- The batched step would be a single token while some lane has a row with
tokens. -/
def oneToken (ready : List Ready) : Bool :=
  decide ((ready.map fun r => r.stepTokens.length).foldl max 0 = 1) &&
    ready.any (·.priorKvNonEmpty)

/-- The packed lanes sit at rows `0`, `1`, … -/
def isPrefix (ready : List Ready) : Bool :=
  decide (ready.map (·.row) = List.range ready.length)

end Ready

/-- The records by lane. -/
abbrev LaneRecords := Nat → Option LaneRecord

/-- The lane at a row and what it contributes. -/
def readyAt (lanes : LaneRecords) (seat : Nat × Nat) : Option Ready :=
  (lanes seat.1).bind fun rec => rec.ready seat.2 seat.1

/-- The walk over the rows: pop the front chunk of every pending lane, and stop
at a lane without room, whose chunk is put back. -/
def collect (lanes : LaneRecords) : List (Nat × Nat) → LaneRecords × Option (List Ready)
  | [] => (lanes, some [])
  | seat :: seats =>
      match readyAt lanes seat with
      | none => collect lanes seats
      | some r =>
          if r.overflows then (lanes, none)
          else
            let next := collect (Function.update lanes seat.1 (some r.record)) seats
            (next.1, next.2.map (r :: ·))

/-- `AsrContinuousBatcher`, the lane allocator and the cache it works on, and its
history. -/
structure Batcher where
  laneManager : SessionLaneManager
  cache : KvCache
  lanes : LaneRecords := fun _ => none
  admittedLanes : List Nat := []
  activeBatchSize : Nat := 0
  issued : List (Nat × Nat) := []
  fed : Nat → List Int
  enqueued : Nat → List Int := fun _ => []

/-- How far `rebuildContext` gets on the engine. -/
inductive RebuildCalls where
  | setUpFailed (reset : Bool)
  | mropeFailed (row : Nat)
  | performed
  deriving DecidableEq, Repr

/-- Whether the set-up has reset the rows of the batch. -/
def RebuildCalls.resets : RebuildCalls → Bool
  | setUpFailed reset => reset
  | _ => true

/-- The rows whose position cache is initialized. -/
def RebuildCalls.mropeRows (n : Nat) : RebuildCalls → Nat
  | setUpFailed _ => 0
  | mropeFailed row => min (row + 1) n
  | performed => n

namespace Batcher

variable (s : Batcher)

/-- `recordForLane` -/
def recordForLane (lane : Int) : Option LaneRecord :=
  if 0 ≤ lane then s.lanes lane.toNat else none

/-- The lanes in row order, each with its row. -/
def seats : List (Nat × Nat) := s.admittedLanes.zipIdx

/-- What the pending lanes contribute, in row order. -/
def ready : List Ready := s.seats.filterMap (readyAt s.lanes)

/-- Work for a lane is issued on a row. -/
def issue (work : List (Nat × Nat)) : Batcher := { s with issued := s.issued ++ work }

/-- Empty the first `n` rows. -/
def resetRows (n : Nat) (h : n ≤ s.cache.maxBatch) : Batcher :=
  { s with
    cache := s.cache.resetForNewSequences n h
    fed := fun lane => if lane < n then [] else s.fed lane }

/-- `rebuildContext`: the admitted lanes must be `0 … n-1`. Setting up the batch
resets its rows, and the position cache is filled row by row. -/
def rebuildContext (calls : RebuildCalls) : Bool × Batcher :=
  let n := s.admittedLanes.length
  if s.admittedLanes ≠ List.range n then (false, s)
  else
    let fresh := ({ s with activeBatchSize := n }.issue (s.seats.map Prod.swap)).issue
      ((List.range (calls.mropeRows n)).map fun row => (row, row))
    if calls.resets then
      if h : n ≤ s.cache.maxBatch then (decide (calls = .performed), fresh.resetRows n h)
      else (false, fresh)
    else (false, fresh)

/-- A chunk is queued for a lane. -/
def push (lane : Nat) (chunk : List Int) (isFinal : Bool) : Batcher :=
  { s with
    lanes := Function.update s.lanes lane
      ((s.lanes lane).map fun rec => { rec with queue := rec.queue ++ [(chunk, isFinal)] })
    enqueued := Function.update s.enqueued lane (s.enqueued lane ++ chunk) }

/-- A fresh record on an acquired lane. -/
def seat (manager : SessionLaneManager) (lane : Nat) (sessionId maxPositions : Int) : Batcher :=
  { s with
    laneManager := manager
    lanes := Function.update s.lanes lane
      (some { sessionId := sessionId, status := .kActive, maxPositions := maxPositions })
    admittedLanes := (s.admittedLanes ++ [lane]).insertionSort (· ≤ ·)
    enqueued := Function.update s.enqueued lane [] }

/-- Take a lane's record back. -/
def unseat (lane : Nat) : Batcher :=
  { s with
    laneManager := s.laneManager.release lane
    lanes := Function.update s.lanes lane none
    admittedLanes := s.admittedLanes.erase lane }

/-- `admit` -/
def admitSession (sessionId : Int) (promptTokenIds : List Int) (maxPositions : Int)
    (calls : RebuildCalls) : Int × Batcher :=
  let acquired := s.laneManager.acquire .kAsr sessionId
  if acquired.1 < 0 then (-1, { s with laneManager := acquired.2 })
  else if (s.cache.maxBatch : Int) ≤ acquired.1 then
    (-1, { s with laneManager := acquired.2.release acquired.1 })
  else
    let lane := acquired.1.toNat
    let rebuilt := (s.seat acquired.2 lane sessionId maxPositions).rebuildContext calls
    if rebuilt.1 = false then (-1, rebuilt.2.unseat lane)
    else if promptTokenIds = [] then (lane, rebuilt.2)
    else (lane, rebuilt.2.push lane promptTokenIds false)

/-- `enqueueChunk` -/
def enqueueChunk (lane : Int) (chunk : List Int) (isFinal : Bool) : Bool × Batcher :=
  match s.recordForLane lane with
  | none => (false, s)
  | some rec =>
      if rec.status ≠ .kActive then (false, s)
      else if chunk = [] then (false, s)
      else (true, s.push lane.toNat chunk isFinal)

/-- The batched prefill writes span `i` on row `i`. -/
def commitSpans (ready : List Ready) : Batcher :=
  { s with
    cache := s.cache.commit (ready.map (·.stepTokens))
    fed := fun lane => s.fed lane ++
      ((ready.filter fun r => r.lane = lane).map (·.stepTokens)).flatten }

/-- The records of the packed lanes after a successful prefill. -/
def commitLanes (ready : List Ready) : Batcher :=
  { s with
    lanes := assign s.lanes (ready.map fun r => (r.lane, some r.committed))
    laneManager := ready.foldl
      (fun manager r => manager.setKvLength r.lane r.committed.appendedTokens) s.laneManager }

/-- The engine call of a tick, packed from row 0 on, and what follows it. -/
def runBatch (ready : List Ready) (result : CallResult) : Int × Batcher :=
  let packed := { s with activeBatchSize := ready.length }.issue
    (ready.zipIdx.map fun (p : Ready × Nat) => (p.2, p.1.lane))
  match result with
  | .refused => (-1, packed)
  | .failedAfterCommit => (-1, packed.commitSpans ready)
  | .performed _ => (ready.length, (packed.commitSpans ready).commitLanes ready)

/-- `tick` -/
def tick (result : CallResult) : Int × Batcher :=
  let collected := collect s.lanes s.seats
  let popped := { s with lanes := collected.1 }
  match collected.2 with
  | none => (-1, popped)
  | some ready =>
      if ready = [] then (0, popped)
      else if Ready.isPrefix ready = false then (-1, popped)
      else if Ready.oneToken ready then (-1, popped)
      else popped.runBatch ready result

/-- `evict` -/
def evict (lane : Int) : Batcher :=
  match s.recordForLane lane with
  | none => s
  | some _ =>
      let left := { s with
        cache := s.cache.resetLane lane.toNat
        fed := Function.update s.fed lane.toNat [] }.unseat lane.toNat
      { left with activeBatchSize := left.admittedLanes.length }

end Batcher

/-- The calls on the batcher, each under its mutex. -/
inductive BatcherCall where
  | admitSession (sessionId : Int) (promptTokenIds : List Int) (maxPositions : Int)
      (calls : RebuildCalls)
  | enqueueChunk (lane : Int) (chunk : List Int) (isFinal : Bool)
  | tick (result : CallResult)
  | evict (lane : Int)
  deriving DecidableEq, Repr

/-- The state a call leaves. -/
def Batcher.perform (s : Batcher) : BatcherCall → Batcher
  | .admitSession sessionId prompt maxPositions calls =>
      (s.admitSession sessionId prompt maxPositions calls).2
  | .enqueueChunk lane chunk isFinal => (s.enqueueChunk lane chunk isFinal).2
  | .tick result => (s.tick result).2
  | .evict lane => s.evict lane

/-- A batcher without lanes over an allocator and a cache. -/
def batcherSystem (manager : SessionLaneManager) (cache : KvCache) :
    TransitionSystem Batcher BatcherCall where
  start := { laneManager := manager, cache := cache, fed := fun i => (cache.rows i).committed }
  step s call := some (s.perform call)

end JetsonVoice.Runtime
