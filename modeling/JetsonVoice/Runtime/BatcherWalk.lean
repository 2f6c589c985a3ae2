import JetsonVoice.Runtime.ContinuousBatcher

/-!
# What a tick of the continuous batcher collects

What one pending lane contributes, how far the walk over the rows gets, and what
popping the front chunks does to the records.
-/

namespace JetsonVoice.Runtime

open Foundation

section Contribution
variable {lanes : LaneRecords} {seat : Nat × Nat} {r : Ready}

theorem LaneRecord.split_append (rec : LaneRecord) (chunk : List Int) (isFinal : Bool) :
    (rec.split chunk isFinal).1 ++ (rec.split chunk isFinal).2 = rec.pendingTextTail ++ chunk :=
  holdBack_append _ _

/-- A token is held back only when another one remains. -/
theorem LaneRecord.split_step_ne_nil (rec : LaneRecord) {chunk : List Int} (isFinal : Bool)
    (hne : chunk ≠ []) : (rec.split chunk isFinal).1 ≠ [] := by
  have heff : rec.pendingTextTail ++ chunk ≠ [] := by simp [hne]
  simp only [LaneRecord.split, holdBack]
  split
  · rename_i hdefer
    have htwo : 2 ≤ (rec.pendingTextTail ++ chunk).length :=
      of_decide_eq_true (Bool.and_eq_true_iff.mp hdefer).2
    apply List.ne_nil_of_length_pos
    rw [List.length_dropLast]
    omega
  · exact heff

/-- A contribution belongs to a lane with a chunk: its record is the lane's with
the front chunk popped, and the step and the next tail are the carried tail and
that chunk. -/
structure Ready.Contributes (lanes : LaneRecords) (r : Ready) (rec : LaneRecord)
    (chunk : List Int) (isFinal : Bool) : Prop where
  record : lanes r.lane = some rec
  active : rec.status = .kActive
  queue : rec.queue = (chunk, isFinal) :: r.record.queue
  popped : r.record = { rec with queue := r.record.queue }
  tokens : r.stepTokens ++ r.nextTail = rec.pendingTextTail ++ chunk
  steps : chunk ≠ [] → r.stepTokens ≠ []

theorem readyAt_contributes (h : readyAt lanes seat = some r) :
    (r.lane = seat.1 ∧ r.row = seat.2) ∧
      ∃ rec chunk isFinal, r.Contributes lanes rec chunk isFinal := by
  obtain ⟨rec, hrec, hready⟩ := Option.bind_eq_some_iff.mp h
  rw [LaneRecord.ready] at hready
  split at hready
  · cases hready
  · rename_i hactive
    split at hready
    · cases hready
    · rename_i chunk isFinal queue hqueue
      cases hready
      exact ⟨⟨rfl, rfl⟩, rec, chunk, isFinal, {
        record := hrec
        active := not_not.mp hactive
        queue := hqueue
        popped := rfl
        tokens := rec.split_append chunk isFinal
        steps := rec.split_step_ne_nil isFinal }⟩

/-- Popping a chunk changes the record. -/
theorem Ready.Contributes.record_ne {rec : LaneRecord} {chunk : List Int} {isFinal : Bool}
    (h : r.Contributes lanes rec chunk isFinal) : r.record ≠ rec := by
  intro heq
  have hqueue := h.queue
  rw [heq] at hqueue
  exact List.cons_ne_self _ _ hqueue.symm

/-- The carried tail and the queue are the step, the next tail and the queue
without its front chunk. -/
theorem Ready.Contributes.ledger {rec : LaneRecord} {chunk : List Int} {isFinal : Bool}
    (h : r.Contributes lanes rec chunk isFinal) :
    rec.pendingTextTail ++ rec.queued = r.stepTokens ++ (r.nextTail ++ r.record.queued) := by
  have hqueued : rec.queued = chunk ++ r.record.queued := by
    rw [LaneRecord.queued, h.queue]
    rfl
  rw [hqueued, ← List.append_assoc, ← h.tokens, List.append_assoc]

end Contribution

section Walk
variable {lanes : LaneRecords} {seats : List (Nat × Nat)}

/-- The records after the front chunks of some lanes are popped. -/
def popped (lanes : LaneRecords) (ready : List Ready) : LaneRecords :=
  assign lanes (ready.map fun r => (r.lane, some r.record))

/-- What the pending lanes of some seats contribute. -/
def contributions (lanes : LaneRecords) (seats : List (Nat × Nat)) : List Ready :=
  seats.filterMap (readyAt lanes)

theorem contributions_update (lanes : LaneRecords) {lane : Nat} (rec : Option LaneRecord)
    (h : ∀ seat ∈ seats, lane < seat.1) :
    contributions (Function.update lanes lane rec) seats = contributions lanes seats := by
  apply List.filterMap_congr
  intro seat hseat
  have hne : seat.1 ≠ lane := (h seat hseat).ne'
  simp only [readyAt, Function.update_of_ne hne]

theorem contributions_ascend (h : seats.Pairwise fun a b => a.1 < b.1) :
    (contributions lanes seats).Pairwise fun a b => a.lane < b.lane := by
  apply h.filterMap (readyAt lanes)
  intro seat seat' hlt r hr r' hr'
  rw [(readyAt_contributes hr).1.1, (readyAt_contributes hr').1.1]
  exact hlt

/-- The walk stops at the first lane without room, with the chunks of the lanes
before it popped, or pops them all. -/
theorem collect_cases (lanes : LaneRecords) (h : seats.Pairwise fun a b => a.1 < b.1) :
    ((∀ r ∈ contributions lanes seats, r.overflows = false) ∧
      collect lanes seats =
        (popped lanes (contributions lanes seats), some (contributions lanes seats))) ∨
    ∃ before r after, contributions lanes seats = before ++ r :: after ∧ r.overflows = true ∧
      (∀ r' ∈ before, r'.overflows = false) ∧
      collect lanes seats = (popped lanes before, none) := by
  induction seats generalizing lanes with
  | nil => exact .inl ⟨fun r hr => (List.not_mem_nil hr).elim, rfl⟩
  | cons seat seats ih =>
      rw [List.pairwise_cons] at h
      rw [collect]
      cases hr : readyAt lanes seat with
      | none =>
          have hskip : contributions lanes (seat :: seats) = contributions lanes seats := by
            simp [contributions, hr]
          rw [hskip]
          exact ih lanes h.2
      | some r =>
          have hlane : r.lane = seat.1 := (readyAt_contributes hr).1.1
          have hcons : contributions lanes (seat :: seats) = r :: contributions lanes seats := by
            simp [contributions, hr]
          have hrest := contributions_update lanes (some r.record) h.1
          have hpop (rs : List Ready) :
              popped (Function.update lanes seat.1 (some r.record)) rs =
                popped lanes (r :: rs) := by
            rw [← hlane]
            rfl
          rw [hcons]
          cases ho : r.overflows with
          | true =>
              refine .inr ⟨[], r, _, rfl, ho, fun _ hr' => (List.not_mem_nil hr').elim, ?_⟩
              exact if_pos ho
          | false =>
              cases ih (Function.update lanes seat.1 (some r.record)) h.2 with
              | inl hall =>
                  obtain ⟨hroom, heq⟩ := hall
                  rw [hrest] at hroom heq
                  refine .inl ⟨List.forall_mem_cons.mpr ⟨ho, hroom⟩, ?_⟩
                  simp only [ho, Bool.false_eq_true, if_false, heq, hpop]
                  rfl
              | inr hstop =>
                  obtain ⟨before, r', after, hsplit, ho', hroom, heq⟩ := hstop
                  rw [hrest] at hsplit
                  refine .inr ⟨r :: before, r', after, by rw [hsplit]; rfl, ho',
                    List.forall_mem_cons.mpr ⟨ho, hroom⟩, ?_⟩
                  simp only [ho, Bool.false_eq_true, if_false, heq, hpop]
                  rfl

theorem contributions_mem {r : Ready} (hr : r ∈ contributions lanes seats) :
    (r.lane, r.row) ∈ seats ∧ ∃ rec chunk isFinal, r.Contributes lanes rec chunk isFinal := by
  obtain ⟨seat, hseat, hready⟩ := List.mem_filterMap.mp hr
  obtain ⟨⟨hlane, hrow⟩, hrec⟩ := readyAt_contributes hready
  rw [hlane, hrow]
  exact ⟨hseat, hrec⟩

variable {ready : List Ready}

/-- Popping leaves a lane alone or pops its front chunk. -/
theorem popped_cases (lanes : LaneRecords) (ready : List Ready) (lane : Nat) :
    popped lanes ready lane = lanes lane ∨
      ∃ r ∈ ready, r.lane = lane ∧ popped lanes ready lane = some r.record := by
  cases assign_cases lanes (ready.map fun r => (r.lane, some r.record)) lane with
  | inl hkeep => exact .inl hkeep
  | inr hwrite =>
      obtain ⟨v, hmem, hv⟩ := hwrite
      obtain ⟨r, hr, heq⟩ := List.mem_map.mp hmem
      rw [Prod.mk.injEq] at heq
      exact .inr ⟨r, hr, heq.1, hv.trans heq.2.symm⟩

/-- A write for every lane of an ascending list is the value of that lane. -/
theorem assign_ready (h : ready.Pairwise fun a b => a.lane < b.lane)
    (value : Ready → Option LaneRecord) {r : Ready} (hr : r ∈ ready) :
    assign lanes (ready.map fun r => (r.lane, value r)) r.lane = value r := by
  apply assign_of_mem
  · rw [List.map_map]
    exact List.pairwise_map.mpr (h.imp Nat.ne_of_lt)
  · exact List.mem_map_of_mem hr

theorem assign_ready_of_notMem (value : Ready → Option LaneRecord) {lane : Nat}
    (h : ∀ r ∈ ready, r.lane ≠ lane) :
    assign lanes (ready.map fun r => (r.lane, value r)) lane = lanes lane := by
  apply assign_of_notMem
  rw [List.map_map, List.mem_map]
  rintro ⟨r, hr, rfl⟩
  exact h r hr rfl

/-- A walk that pops some chunk changes the records. -/
theorem popped_ne {r : Ready} {rec : LaneRecord} {chunk : List Int} {isFinal : Bool}
    (h : ready.Pairwise fun a b => a.lane < b.lane) (hr : r ∈ ready)
    (hc : r.Contributes lanes rec chunk isFinal) : popped lanes ready ≠ lanes := by
  intro heq
  have hat := congrFun heq r.lane
  rw [popped, assign_ready h (fun r => some r.record) hr, hc.record, Option.some.injEq] at hat
  exact hc.record_ne hat

end Walk

end JetsonVoice.Runtime
