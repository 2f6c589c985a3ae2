import JetsonVoice.Foundation.Collections

/-!
# The static-partition lane allocator

`SessionLaneManager` hands out batch rows of the shared cache: ASR sessions
own the lanes below `asrMax`, TTS slots the `ttsMax` lanes after them. The
size relations its constructor checks are fields of the structure.
-/

namespace JetsonVoice.Asr

open Foundation

/-- Which subsystem owns a lane. -/
inductive LaneOwnerKind where
  | kNone
  | kAsr
  | kTts
  deriving DecidableEq, Repr

/-- One physical lane's bookkeeping. -/
structure LaneRecord where
  ownerKind : LaneOwnerKind := .kNone
  ownerId : Int := -1
  slotId : Int := -1
  inUse : Bool := false
  kvLength : Int := 0
  deriving DecidableEq, Repr

/-- The allocator, with what its constructor guarantees about the sizes. -/
structure SessionLaneManager where
  maxBatchSize : Nat
  asrMax : Nat
  ttsMax : Nat
  lanes : List LaneRecord
  lanes_length : lanes.length = maxBatchSize
  partition_le : asrMax + ttsMax ≤ maxBatchSize
  deriving DecidableEq, Repr

namespace SessionLaneManager

/-- The constructor rejects negative sizes and an oversized partition. -/
def create (maxBatchSize asrMax ttsMax : Int) : Except String SessionLaneManager :=
  if maxBatchSize < 0 ∨ asrMax < 0 ∨ ttsMax < 0 then
    .error "SessionLaneManager: negative size argument."
  else if h : asrMax.toNat + ttsMax.toNat ≤ maxBatchSize.toNat then
    .ok { maxBatchSize := maxBatchSize.toNat
          asrMax := asrMax.toNat
          ttsMax := ttsMax.toNat
          lanes := List.replicate maxBatchSize.toNat {}
          lanes_length := List.length_replicate
          partition_le := h }
  else
    .error "SessionLaneManager: asrMax + ttsMax exceeds maxBatchSize."

variable (m : SessionLaneManager)

/-- Whether a lane is allocated. -/
def laneInUse (lane : Nat) : Bool :=
  match m.lanes[lane]? with
  | some r => r.inUse
  | none => false

/-- A lane id names an allocated lane. -/
def InUse (laneId : Int) : Prop :=
  ∃ lane : Nat, laneId = lane ∧ m.laneInUse lane = true

/-- The number of allocated lanes. -/
def inUseCount : Nat := m.lanes.countP (·.inUse)

/-- The half-open lane range of an owner kind; `kNone` is not allocatable. -/
def laneRange : LaneOwnerKind → Nat × Nat
  | .kAsr => (0, m.asrMax)
  | .kTts => (m.asrMax, m.asrMax + m.ttsMax)
  | .kNone => (0, 0)

/-- The first free lane of a range, scanned upwards. -/
def firstFree (first last : Nat) : Option Nat :=
  (List.range' first (last - first)).find? fun lane => !m.laneInUse lane

/-- Overwrite the record of one lane. -/
def setLane (lane : Nat) (r : LaneRecord) : SessionLaneManager where
  maxBatchSize := m.maxBatchSize
  asrMax := m.asrMax
  ttsMax := m.ttsMax
  lanes := m.lanes.set lane r
  lanes_length := by rw [List.length_set, m.lanes_length]
  partition_le := m.partition_le

/-- Reserve the first free lane of the owner's partition, or return `-1`. -/
def acquire (ownerKind : LaneOwnerKind) (ownerId : Int) : Int × SessionLaneManager :=
  let range := m.laneRange ownerKind
  match m.firstFree range.1 range.2 with
  | some lane =>
      (lane, m.setLane lane
        { ownerKind := ownerKind
          ownerId := ownerId
          slotId := (lane - range.1 : Nat)
          inUse := true
          kvLength := 0 })
  | none => (-1, m)

/-- Give a lane back; an id outside the lanes is only logged. -/
def release (laneId : Int) : SessionLaneManager :=
  if laneId < 0 ∨ (m.maxBatchSize : Int) ≤ laneId then m else m.setLane laneId.toNat {}

/-- Record the advisory KV length of a lane. -/
def setKvLength (laneId kvLength : Int) : SessionLaneManager :=
  if laneId < 0 ∨ (m.maxBatchSize : Int) ≤ laneId then m
  else match m.lanes[laneId.toNat]? with
    | some r => m.setLane laneId.toNat { r with kvLength := kvLength }
    | none => m

variable {m}

theorem inUse_natCast {lane : Nat} : m.InUse (lane : Int) ↔ m.laneInUse lane = true := by
  refine ⟨?_, fun h => ⟨lane, rfl, h⟩⟩
  rintro ⟨other, heq, h⟩
  exact Int.ofNat_inj.mp heq ▸ h

theorem laneInUse_lt {lane : Nat} (h : m.laneInUse lane = true) : lane < m.maxBatchSize := by
  rw [laneInUse] at h
  split at h
  · rename_i r hr
    exact m.lanes_length ▸ lt_of_getElem? hr
  · cases h

@[simp] theorem setLane_asrMax {lane : Nat} {r : LaneRecord} :
    (m.setLane lane r).asrMax = m.asrMax := rfl

theorem setLane_laneInUse {lane j : Nat} {r : LaneRecord} (h : lane < m.maxBatchSize) :
    (m.setLane lane r).laneInUse j = if j = lane then r.inUse else m.laneInUse j := by
  simp only [laneInUse, setLane]
  by_cases hj : j = lane
  · subst hj
    rw [List.getElem?_set_self (m.lanes_length ▸ h), if_pos rfl]
  · rw [getElem?_set_other hj, if_neg hj]

theorem setLane_inUse {lane : Nat} {r : LaneRecord} {laneId : Int}
    (h : lane < m.maxBatchSize) :
    (m.setLane lane r).InUse laneId ↔
      (laneId = lane ∧ r.inUse = true) ∨ (laneId ≠ lane ∧ m.InUse laneId) := by
  constructor
  · rintro ⟨j, rfl, hj⟩
    rw [setLane_laneInUse h] at hj
    by_cases he : j = lane
    · subst he
      exact .inl ⟨rfl, by simpa using hj⟩
    · exact .inr ⟨by simpa using he, j, rfl, by simpa [he] using hj⟩
  · rintro (⟨rfl, hr⟩ | ⟨hne, j, rfl, hj⟩)
    · exact ⟨lane, rfl, by rw [setLane_laneInUse h, if_pos rfl, hr]⟩
    · have hne' : j ≠ lane := by simpa using hne
      exact ⟨j, rfl, by rw [setLane_laneInUse h, if_neg hne', hj]⟩

theorem firstFree_some {first last lane : Nat} (h : m.firstFree first last = some lane) :
    first ≤ lane ∧ lane < last ∧ m.laneInUse lane = false := by
  have hfree : (!m.laneInUse lane) = true :=
    List.find?_some (p := fun lane => !m.laneInUse lane) h
  have hmem := List.mem_of_find?_eq_some h
  rw [List.mem_range'_1] at hmem
  exact ⟨hmem.1, by omega, by simpa using hfree⟩

theorem firstFree_none {first last : Nat} (h : m.firstFree first last = none) {lane : Nat}
    (hl : first ≤ lane) (hu : lane < last) : m.laneInUse lane = true := by
  have := List.find?_eq_none.mp h lane (by rw [List.mem_range'_1]; omega)
  simpa using this

theorem laneRange_lt {ownerKind : LaneOwnerKind} {lane : Nat}
    (h : lane < (m.laneRange ownerKind).2) : lane < m.maxBatchSize := by
  have hle := m.partition_le
  cases ownerKind <;> simp only [laneRange] at h <;> omega

/-- What acquiring a lane can do: take one free lane of the owner's partition, or
find them all in use and change nothing. -/
theorem acquire_cases (ownerKind : LaneOwnerKind) (ownerId : Int) :
    (∃ (lane : Nat) (r : LaneRecord), (m.laneRange ownerKind).1 ≤ lane ∧
      lane < (m.laneRange ownerKind).2 ∧ m.laneInUse lane = false ∧ r.inUse = true ∧
      m.acquire ownerKind ownerId = ((lane : Int), m.setLane lane r)) ∨
    (m.acquire ownerKind ownerId = (-1, m) ∧ ∀ lane, (m.laneRange ownerKind).1 ≤ lane →
      lane < (m.laneRange ownerKind).2 → m.laneInUse lane = true) := by
  cases hf : m.firstFree (m.laneRange ownerKind).1 (m.laneRange ownerKind).2 with
  | some lane =>
      obtain ⟨hge, hlt, hfree⟩ := firstFree_some hf
      let r : LaneRecord :=
        { ownerKind := ownerKind
          ownerId := ownerId
          slotId := (lane - (m.laneRange ownerKind).1 : Nat)
          inUse := true }
      exact .inl ⟨lane, r, hge, hlt, hfree, rfl, by simp only [acquire, hf, r]⟩
  | none => exact .inr ⟨by simp only [acquire, hf], fun _ => firstFree_none hf⟩

/-- A free lane that is taken joins the lanes in use. -/
theorem setLane_inUse_taken {lane : Nat} {r : LaneRecord} (h : lane < m.maxBatchSize)
    (hr : r.inUse = true) (laneId : Int) :
    (m.setLane lane r).InUse laneId ↔ laneId = lane ∨ m.InUse laneId := by
  rw [setLane_inUse h]
  by_cases he : laneId = lane <;> simp [he, hr]

/-- What acquiring an ASR lane can do: take one free ASR lane, or find them
all in use and change nothing. -/
theorem acquire_asr_cases (ownerId : Int) :
    (∃ lane : Nat, lane < m.asrMax ∧ m.laneInUse lane = false ∧
      (m.acquire .kAsr ownerId).1 = lane ∧
      (∀ laneId, (m.acquire .kAsr ownerId).2.InUse laneId ↔
        laneId = lane ∨ m.InUse laneId)) ∨
    ((m.acquire .kAsr ownerId).1 = -1 ∧ (m.acquire .kAsr ownerId).2 = m ∧
      ∀ lane, lane < m.asrMax → m.laneInUse lane = true) := by
  cases m.acquire_cases .kAsr ownerId with
  | inl htaken =>
      obtain ⟨lane, r, -, hlt, hfree, hr, heq⟩ := htaken
      rw [heq]
      exact .inl ⟨lane, hlt, hfree, rfl, setLane_inUse_taken (laneRange_lt hlt) hr⟩
  | inr hfull =>
      rw [hfull.1]
      exact .inr ⟨rfl, rfl, fun lane => hfull.2 lane (Nat.zero_le lane)⟩

@[simp] theorem acquire_asrMax (ownerKind : LaneOwnerKind) (ownerId : Int) :
    (m.acquire ownerKind ownerId).2.asrMax = m.asrMax := by
  simp only [acquire]
  split <;> rfl

@[simp] theorem release_asrMax (laneId : Int) : (m.release laneId).asrMax = m.asrMax := by
  simp only [release]
  split <;> rfl

@[simp] theorem setKvLength_asrMax (laneId kvLength : Int) :
    (m.setKvLength laneId kvLength).asrMax = m.asrMax := by
  rw [setKvLength]
  split
  · rfl
  · split <;> rfl

/-- Free lanes carry the record of a lane nobody has owned. -/
def Clean (m : SessionLaneManager) : Prop :=
  ∀ {lane : Nat} {r : LaneRecord}, m.lanes[lane]? = some r → r.inUse = false → r = {}

theorem release_eq_setLane {lane : Nat} (h : lane < m.maxBatchSize) :
    m.release lane = m.setLane lane {} := by
  rw [release, if_neg (by omega)]
  rfl

/-- Giving a taken lane back leaves the allocator as it was. -/
theorem Clean.setLane_release (h : m.Clean) {lane : Nat} (hlt : lane < m.maxBatchSize)
    (hfree : m.laneInUse lane = false) (r : LaneRecord) : (m.setLane lane r).release lane = m := by
  have hr : m.lanes[lane]? = some {} := by
    have hread := List.getElem?_eq_getElem (m.lanes_length.symm ▸ hlt)
    rw [laneInUse, hread] at hfree
    rw [hread, h hread hfree]
  rw [release_eq_setLane (m := m.setLane lane r) hlt]
  obtain ⟨hb, heq⟩ := List.getElem?_eq_some_iff.mp hr
  cases m
  simp only [setLane, List.set_set, mk.injEq, true_and]
  rw [← heq, List.set_getElem_self]

theorem Clean.setLane (h : m.Clean) {lane : Nat} {r : LaneRecord} (hr : r.inUse = true) :
    (m.setLane lane r).Clean := by
  intro j s hj hs
  cases getElem?_set_cases hj with
  | inl hnew =>
      rw [hnew.2.1, hr] at hs
      cases hs
  | inr hold => exact h hold.2 hs

theorem Clean.release (h : m.Clean) (laneId : Int) : (m.release laneId).Clean := by
  rw [SessionLaneManager.release]
  split
  · exact h
  · intro j s hj hs
    cases getElem?_set_cases hj with
    | inl hnew => exact hnew.2.1
    | inr hold => exact h hold.2 hs

/-- Releasing a lane frees that lane and no other. -/
theorem release_inUse (laneId other : Int) :
    (m.release laneId).InUse other ↔ m.InUse other ∧ other ≠ laneId := by
  by_cases hr : laneId < 0 ∨ (m.maxBatchSize : Int) ≤ laneId
  · have hsame : m.release laneId = m := by simp [release, hr]
    rw [hsame]
    refine ⟨fun h => ⟨h, ?_⟩, And.left⟩
    rintro rfl
    obtain ⟨lane, rfl, hl⟩ := h
    have := laneInUse_lt hl
    omega
  · have hset : m.release laneId = m.setLane laneId.toNat {} := by simp only [release, if_neg hr]
    have hb : laneId.toNat < m.maxBatchSize := by omega
    have hcast : ((laneId.toNat : Nat) : Int) = laneId := by omega
    rw [hset, setLane_inUse hb, hcast]
    simp [and_comm]

/-- The advisory length says nothing about which lanes are in use. -/
theorem setKvLength_inUse (laneId kvLength other : Int) :
    (m.setKvLength laneId kvLength).InUse other ↔ m.InUse other := by
  simp only [setKvLength]
  split
  · exact Iff.rfl
  · generalize laneId.toNat = lane
    cases hr : m.lanes[lane]? with
    | none => exact Iff.rfl
    | some r =>
        have hlt : lane < m.maxBatchSize := m.lanes_length ▸ lt_of_getElem? hr
        rw [setLane_inUse hlt]
        by_cases he : other = lane
        · subst he
          have huse : m.InUse (lane : Int) ↔ r.inUse = true := by
            refine ⟨?_, fun hu => ⟨lane, rfl, by rw [laneInUse, hr]; exact hu⟩⟩
            rintro ⟨j, hj, hu⟩
            obtain rfl : lane = j := by exact_mod_cast hj
            rwa [laneInUse, hr] at hu
          simp [huse]
        · simp [he]

theorem create_asrMax {maxBatchSize asrMax ttsMax : Int}
    (h : create maxBatchSize asrMax ttsMax = .ok m) : m.asrMax = asrMax.toNat := by
  rw [create] at h
  split at h
  · cases h
  · split at h
    · cases h
      rfl
    · cases h

/-- A freshly constructed allocator has every lane free. -/
theorem create_inUse {maxBatchSize asrMax ttsMax : Int}
    (h : create maxBatchSize asrMax ttsMax = .ok m) (laneId : Int) : ¬ m.InUse laneId := by
  rw [create] at h
  split at h
  · cases h
  · split at h
    · cases h
      rintro ⟨lane, -, hl⟩
      simp only [laneInUse, List.getElem?_replicate] at hl
      split at hl
      · rename_i r hr
        split at hr
        · cases hr
          cases hl
        · cases hr
      · cases hl
    · cases h

theorem create_clean {maxBatchSize asrMax ttsMax : Int}
    (h : create maxBatchSize asrMax ttsMax = .ok m) : m.Clean := by
  rw [create] at h
  split at h
  · cases h
  · split at h
    · cases h
      intro lane r hr _
      exact (List.mem_replicate.mp (List.mem_of_getElem? hr)).2
    · cases h

end SessionLaneManager

end JetsonVoice.Asr
