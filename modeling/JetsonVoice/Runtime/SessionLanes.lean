import JetsonVoice.Asr.SessionLaneManager
import JetsonVoice.Foundation.Ownership
import JetsonVoice.Foundation.TransitionSystem
import JetsonVoice.Runtime.StreamingSession

/-!
# Streaming sessions on reserved lanes

A session object built over a lane allocator reserves a lane when it begins and
gives it back when it ends. The reservation comes first: a lane out of range and
a bad generation limit give it back, the runtime calls behind them do not.

## Implementation notes

Behind the reservation a session begins as one on a fixed lane does. An outcome
`false` of a runtime call stands for a call that throws as well; both leave the
lanes alike.
-/

namespace JetsonVoice.Runtime

open Foundation TransitionSystem
open Asr (SessionLaneManager)

/-- A session object over a lane allocator. `laneId` is `mLane`, `-1` without a
lane; as a row it is `members.lane`. -/
structure LaneSession where
  ownerId : Int
  laneId : Int := -1
  members : Session := { lane := 0 }
  deriving DecidableEq, Repr

/-- The lane of a session that has begun and not ended. -/
def LaneSession.held (s : LaneSession) : Option Int :=
  if s.members.status = .kIdle then none else some s.laneId

theorem LaneSession.held_of_idle {s : LaneSession} (h : s.members.status = .kIdle) :
    s.held = none := if_pos h

theorem LaneSession.held_of_begun {s : LaneSession} (h : s.members.status ≠ .kIdle) :
    s.held = some s.laneId := if_neg h

/-- What a call on a session object works on. -/
structure Laned where
  laneManager : SessionLaneManager
  cache : KvCache
  session : LaneSession

/-- The runtime calls `beginAsrSession` makes all succeed. -/
def BeginCalls.Succeed (calls : BeginCalls) (maxAudioTokensPerChunk : Int) : Prop :=
  calls.setUp = true ∧ calls.mrope = true ∧ (0 < maxAudioTokensPerChunk → calls.scratch = true)

instance (calls : BeginCalls) (maxAudioTokensPerChunk : Int) :
    Decidable (calls.Succeed maxAudioTokensPerChunk) :=
  inferInstanceAs (Decidable (_ ∧ _ ∧ (_ → _)))

namespace Laned

variable (l : Laned)

/-- The session and the cache, as a session on a fixed lane has them. -/
def live : Live := ⟨l.session.members, l.cache⟩

/-- What `acquire` returns to the session. -/
def acquired : Int × SessionLaneManager := l.laneManager.acquire .kAsr l.session.ownerId

/-- The reservation: `mLane` is what `acquire` returns. -/
def reserve : Laned :=
  { l with
    laneManager := l.acquired.2
    session := { l.session with
      laneId := l.acquired.1
      members := { l.session.members with lane := l.acquired.1.toNat } } }

/-- The lane is released and `mLane` unset. -/
def giveBack : Laned :=
  { l with
    laneManager := l.laneManager.release l.session.laneId
    session := { l.session with laneId := -1 } }

/-- `beginAsrSession` -/
def beginAsrSession (calls : BeginCalls) (promptTokenIds : List Int)
    (maxPositions maxAudioTokensPerChunk maxGenerateLength : Int) : Bool × Laned :=
  if l.session.members.status ≠ .kIdle then (false, l)
  else if l.acquired.1 < 0 then (false, l.reserve)
  else if (l.cache.maxBatch : Int) ≤ l.acquired.1 then (false, l.reserve.giveBack)
  else if maxGenerateLength ≤ 0 then (false, l.reserve.giveBack)
  else
    let begun := Runtime.beginAsrSession l.reserve.live calls promptTokenIds maxPositions
      maxAudioTokensPerChunk maxGenerateLength
    (begun.1, { l.reserve with
      cache := begun.2.cache
      session := { l.reserve.session with members := begun.2.session } })

/-- `appendChunkImpl` -/
def appendChunk {Mel : Type*} (E : Engine Mel) (chunk : List Int) (mel : Option Mel)
    (isFinalChunk : Bool) : Bool × Laned :=
  let appended := appendChunkImpl E l.live chunk mel isFinalChunk
  (appended.1.accepted, { l with
    cache := appended.2.cache
    session := { l.session with members := appended.2.session } })

/-- `endAsrSession`: the row of the lane is reset, which may fail, and the lane
is given back. -/
def endAsrSession (resets : Bool) : Bool × Laned :=
  if l.session.members.status = .kIdle then (true, l)
  else if resets = false then (false, l)
  else (true, { l.giveBack with
    cache := l.cache.resetLane l.session.laneId.toNat
    session := { l.giveBack.session with members := { lane := 0 } } })

end Laned

/-- Session objects that share one allocator and one cache. -/
structure SharedLanes where
  laneManager : SessionLaneManager
  cache : KvCache
  sessions : List LaneSession

/-- The calls on the session objects. -/
inductive SessionCall (Mel : Type*) where
  | begin (calls : BeginCalls) (promptTokenIds : List Int)
      (maxPositions maxAudioTokensPerChunk maxGenerateLength : Int)
  | append (chunk : List Int) (mel : Option Mel) (isFinalChunk : Bool)
  | finish (resets : Bool)

/-- A call on one session: whether it succeeds, and what it leaves. -/
def SessionCall.on {Mel : Type*} (E : Engine Mel) (l : Laned) : SessionCall Mel → Bool × Laned
  | .begin calls prompt maxPositions maxAudio maxGenerate =>
      l.beginAsrSession calls prompt maxPositions maxAudio maxGenerate
  | .append chunk mel isFinalChunk => l.appendChunk E chunk mel isFinalChunk
  | .finish resets => l.endAsrSession resets

namespace SharedLanes

variable {Mel : Type*} (E : Engine Mel) (p : SharedLanes)

/-- A session's view. -/
def laned (s : LaneSession) : Laned := ⟨p.laneManager, p.cache, s⟩

/-- What a call on session `i` leaves is stored. -/
def store (i : Nat) (l : Laned) : SharedLanes :=
  ⟨l.laneManager, l.cache, p.sessions.set i l.session⟩

/-- A call on session `i`. -/
def perform (i : Nat) (call : SessionCall Mel) : Option (Bool × SharedLanes) :=
  p.sessions[i]?.map fun s => ((call.on E (p.laned s)).1, p.store i (call.on E (p.laned s)).2)

/-- The lane session `i` holds. -/
def heldBy (i : Nat) : Option Int := p.sessions[i]?.bind LaneSession.held

/-- A lane of the ASR partition is allocated. -/
def AsrInUse (lane : Int) : Prop := p.laneManager.InUse lane ∧ lane < p.laneManager.asrMax

end SharedLanes

/-- Idle session objects over an allocator and a cache. -/
def sessionSystem {Mel : Type*} (E : Engine Mel) (laneManager : SessionLaneManager)
    (cache : KvCache) (ownerIds : List Int) :
    TransitionSystem SharedLanes (Nat × SessionCall Mel) where
  start := ⟨laneManager, cache, ownerIds.map fun ownerId => { ownerId := ownerId }⟩
  step p label := (p.perform E label.1 label.2).map Prod.snd

/-- Past its checks a session on a fixed lane begins when the runtime calls succeed. -/
theorem beginAsrSession_status {l : Live} (calls : BeginCalls) (prompt : List Int)
    (maxPositions maxAudio : Int) {maxGenerate : Int} (idle : l.session.status = .kIdle)
    (hlane : l.session.lane < l.cache.maxBatch) (hgen : 0 < maxGenerate) :
    let begun := beginAsrSession l calls prompt maxPositions maxAudio maxGenerate
    (calls.Succeed maxAudio ∧ begun.1 = true ∧ begun.2.session.status = .kActive) ∨
    (¬ calls.Succeed maxAudio ∧ begun.1 = false ∧ begun.2.session.status = .kIdle) := by
  have hin : ¬ l.cache.maxBatch ≤ l.session.lane := Nat.not_le.mpr hlane
  have hpos : ¬ maxGenerate ≤ 0 := Int.not_le.mpr hgen
  simp only [beginAsrSession, idle, ne_eq, not_true_eq_false, if_false, hin, dif_neg,
    not_false_eq_true, hpos, BeginCalls.Succeed]
  cases calls.setUp <;> cases calls.mrope <;> cases calls.scratch <;>
    by_cases hm : 0 < maxAudio <;> simp [hm]

namespace Laned

variable {l : Laned}

/-- The call gets as far as the runtime with a lane reserved. -/
def Reserves (l : Laned) (maxGenerateLength : Int) : Prop :=
  l.session.members.status = .kIdle ∧ 0 ≤ l.acquired.1 ∧ l.acquired.1 < l.cache.maxBatch ∧
    0 < maxGenerateLength

instance (l : Laned) (maxGenerateLength : Int) : Decidable (l.Reserves maxGenerateLength) :=
  inferInstanceAs (Decidable (_ ∧ _ ∧ _ ∧ _))

/-- The call kept the lanes. -/
structure Keeps (l l' : Laned) : Prop where
  laneManager : l'.laneManager = l.laneManager
  held : l'.session.held = l.session.held

/-- The call took a free ASR lane, which the session holds if the call succeeded. -/
structure Takes (l l' : Laned) (lane : Nat) (succeeded : Bool) : Prop where
  idle : l.session.held = none
  lane_lt : lane < l.laneManager.asrMax
  free : l.laneManager.laneInUse lane = false
  taken : ∃ r : Asr.LaneRecord, r.inUse = true ∧
    l'.laneManager = l.laneManager.setLane lane r
  held : l'.session.held = if succeeded then some (lane : Int) else none

/-- The call gave back the lane the session held. -/
structure Drops (l l' : Laned) (laneId : Int) : Prop where
  begun : l.session.held = some laneId
  laneManager : l'.laneManager = l.laneManager.release laneId
  held : l'.session.held = none

theorem Takes.inUse {l' : Laned} {lane : Nat} {succeeded : Bool} (h : Takes l l' lane succeeded)
    (id : Int) : l'.laneManager.InUse id ↔ id = lane ∨ l.laneManager.InUse id := by
  obtain ⟨r, hr, heq⟩ := h.taken
  have hle := l.laneManager.partition_le
  have hlt := h.lane_lt
  rw [heq]
  exact SessionLaneManager.setLane_inUse_taken (by omega) hr id

theorem begin_keeps (hclean : l.laneManager.Clean) (calls : BeginCalls) (prompt : List Int)
    (maxPositions maxAudio : Int) {maxGenerate : Int} (h : ¬ l.Reserves maxGenerate) :
    (l.beginAsrSession calls prompt maxPositions maxAudio maxGenerate).1 = false ∧
      Keeps l (l.beginAsrSession calls prompt maxPositions maxAudio maxGenerate).2 := by
  by_cases idle : l.session.members.status = .kIdle
  · obtain ⟨lane, r, -, hlt, hfree, -, heq⟩ | ⟨heq, -⟩ :=
      l.laneManager.acquire_cases .kAsr l.session.ownerId
    · have hacq : l.acquired = ((lane : Int), l.laneManager.setLane lane r) := heq
      have hback : Keeps l l.reserve.giveBack := by
        constructor
        · simp only [giveBack, reserve, hacq]
          exact hclean.setLane_release (SessionLaneManager.laneRange_lt hlt) hfree r
        · rw [LaneSession.held_of_idle idle, LaneSession.held_of_idle]
          exact idle
      simp only [beginAsrSession, idle, ne_eq, not_true_eq_false, if_false]
      rw [if_neg (by rw [hacq]; exact Int.not_lt.mpr (Int.natCast_nonneg lane))]
      by_cases hin : (l.cache.maxBatch : Int) ≤ l.acquired.1
      · rw [if_pos hin]
        exact ⟨rfl, hback⟩
      · have hgen : maxGenerate ≤ 0 := by
          by_contra hgen
          apply h
          refine ⟨idle, ?_, by omega, by omega⟩
          rw [hacq]
          exact Int.natCast_nonneg lane
        rw [if_neg hin, if_pos hgen]
        exact ⟨rfl, hback⟩
    · have hacq : l.acquired = (-1, l.laneManager) := heq
      simp only [beginAsrSession, idle, ne_eq, not_true_eq_false, if_false, hacq]
      rw [if_pos (by decide)]
      refine ⟨rfl, by simp only [reserve, hacq], ?_⟩
      rw [LaneSession.held_of_idle idle, LaneSession.held_of_idle]
      exact idle
  · rw [beginAsrSession, if_pos idle]
    exact ⟨rfl, rfl, rfl⟩

/-- A call with a reservation takes the lane whatever becomes of it. -/
theorem begin_takes (calls : BeginCalls) (prompt : List Int) (maxPositions maxAudio : Int)
    {maxGenerate : Int} (h : l.Reserves maxGenerate) :
    (l.beginAsrSession calls prompt maxPositions maxAudio maxGenerate).1 =
        decide (calls.Succeed maxAudio) ∧
      ∃ lane, Takes l (l.beginAsrSession calls prompt maxPositions maxAudio maxGenerate).2 lane
        (decide (calls.Succeed maxAudio)) := by
  obtain ⟨idle, hnonneg, hin, hgen⟩ := h
  obtain ⟨lane, r, -, hlt, hfree, hr, heq⟩ | ⟨heq, -⟩ :=
    l.laneManager.acquire_cases .kAsr l.session.ownerId
  · have hacq : l.acquired = ((lane : Int), l.laneManager.setLane lane r) := heq
    have hrow : l.reserve.live.session.lane < l.reserve.live.cache.maxBatch := by
      rw [hacq] at hin
      simp only [live, reserve, hacq]
      omega
    have hstatus := beginAsrSession_status (l := l.reserve.live) calls prompt maxPositions maxAudio
      idle hrow hgen
    rw [beginAsrSession, if_neg (not_not.mpr idle), if_neg (Int.not_lt.mpr hnonneg),
      if_neg (Int.not_le.mpr hin), if_neg (Int.not_le.mpr hgen)]
    have takes (begun : Bool × Live) (succeeded : Bool)
        (hheld : begun.2.session.status = if succeeded then .kActive else .kIdle) :
        Takes l { l.reserve with
          cache := begun.2.cache
          session := { l.reserve.session with members := begun.2.session } } lane succeeded := by
      refine ⟨LaneSession.held_of_idle idle, hlt, hfree, ?_, ?_⟩
      · exact ⟨r, hr, by simp only [reserve, hacq]⟩
      · cases succeeded <;> simp [LaneSession.held, hheld, reserve, hacq]
    obtain ⟨hs, hret, hact⟩ | ⟨hs, hret, hidle⟩ := hstatus
    · rw [decide_eq_true hs]
      exact ⟨hret, lane, takes _ true hact⟩
    · rw [decide_eq_false hs]
      exact ⟨hret, lane, takes _ false hidle⟩
  · have hacq : l.acquired = (-1, l.laneManager) := heq
    rw [hacq] at hnonneg
    exact absurd hnonneg (by simp)

theorem append_keeps {Mel : Type*} (E : Engine Mel) (chunk : List Int) (mel : Option Mel)
    (isFinalChunk : Bool) : Keeps l (l.appendChunk E chunk mel isFinalChunk).2 := by
  refine ⟨rfl, ?_⟩
  have hstatus : (appendChunkImpl E l.live chunk mel isFinalChunk).2.session.status = .kIdle ↔
      l.session.members.status = .kIdle := by
    by_cases hadm : Admits E l.live chunk mel isFinalChunk
    · have hactive : l.session.members.status = .kActive := hadm.active
      rw [appendChunkImpl_of_admits hadm, runStep]
      split
      · exact Iff.rfl
      · exact Iff.rfl
      · cases isFinalChunk <;> simp [Session.accept, live, hactive]
    · rw [appendChunkImpl_of_not_admits hadm]
      exact Iff.rfl
  simp only [appendChunk, LaneSession.held, hstatus]

theorem end_cases (l : Laned) (resets : Bool) :
    Keeps l (l.endAsrSession resets).2 ∨
    ((l.endAsrSession resets).1 = true ∧
      Drops l (l.endAsrSession resets).2 l.session.laneId) := by
  by_cases idle : l.session.members.status = .kIdle
  · rw [endAsrSession, if_pos idle]
    exact .inl ⟨rfl, rfl⟩
  · rw [endAsrSession, if_neg idle]
    cases resets with
    | false => exact .inl ⟨rfl, rfl⟩
    | true => exact .inr ⟨rfl, LaneSession.held_of_begun idle, rfl, rfl⟩

/-- Free lanes stay free of old records. -/
theorem on_clean {Mel : Type*} (E : Engine Mel) (hclean : l.laneManager.Clean)
    (call : SessionCall Mel) : (call.on E l).2.laneManager.Clean := by
  cases call with
  | begin calls prompt maxPositions maxAudio maxGenerate =>
      by_cases hr : l.Reserves maxGenerate
      · obtain ⟨-, lane, ht⟩ := begin_takes calls prompt maxPositions maxAudio hr
        obtain ⟨r, hr', heq⟩ := ht.taken
        exact heq ▸ hclean.setLane hr'
      · have hk := (begin_keeps hclean calls prompt maxPositions maxAudio hr).2
        exact hk.laneManager ▸ hclean
  | append chunk mel isFinalChunk => exact hclean
  | finish resets =>
      cases l.end_cases resets with
      | inl hk => exact hk.laneManager ▸ hclean
      | inr hd => exact hd.2.laneManager ▸ hclean.release _

end Laned

namespace SharedLanes

variable {Mel : Type*} {E : Engine Mel} {p : SharedLanes}

/-- The allocated ASR lanes are the lanes of the sessions that have begun and not
ended, each held by one. -/
def LanesHeld (p : SharedLanes) : Prop := Owns p.heldBy p.AsrInUse

/-- A call keeps the lanes in order, and one that fails leaves the allocator alone. -/
def KeepsLanes (E : Engine Mel) (p : SharedLanes) (i : Nat) (call : SessionCall Mel) : Prop :=
  ∀ succeeded p', p.perform E i call = some (succeeded, p') →
    p'.LanesHeld ∧ (succeeded = false → p'.laneManager = p.laneManager)

/-- A begin that gets as far as the runtime with a lane reserved succeeds. -/
def SetsUp (p : SharedLanes) : Nat × SessionCall Mel → Prop
  | (i, .begin calls _ _ maxAudio maxGenerate) =>
      ∀ s ∈ p.sessions[i]?, (p.laned s).Reserves maxGenerate → calls.Succeed maxAudio
  | _ => True

instance (label : Nat × SessionCall Mel) : Decidable (p.SetsUp label) :=
  match label with
  | (i, .begin calls _ _ maxAudio maxGenerate) => inferInstanceAs (Decidable
      (∀ s ∈ p.sessions[i]?, (p.laned s).Reserves maxGenerate → calls.Succeed maxAudio))
  | (_, .append ..) => isTrue trivial
  | (_, .finish _) => isTrue trivial

theorem store_heldBy {i : Nat} {s : LaneSession} (hi : p.sessions[i]? = some s) (l : Laned) :
    (p.store i l).heldBy = Function.update p.heldBy i l.session.held := by
  funext j
  by_cases hj : j = i
  · subst hj
    rw [Function.update_self, heldBy, store, getElem?_set_same hi, Option.bind_some]
  · rw [Function.update_of_ne hj, heldBy, store, getElem?_set_other hj, heldBy]

theorem heldBy_eq {i : Nat} {s : LaneSession} (hi : p.sessions[i]? = some s) :
    p.heldBy i = s.held := by
  rw [heldBy, hi, Option.bind_some]

theorem LanesHeld.keeps (h : p.LanesHeld) {i : Nat} {s : LaneSession}
    (hi : p.sessions[i]? = some s) {l : Laned} (hk : Laned.Keeps (p.laned s) l) :
    (p.store i l).LanesHeld := by
  have hheld : (p.store i l).heldBy = p.heldBy := by
    rw [store_heldBy hi, hk.held]
    exact Function.update_eq_self_iff.mpr (heldBy_eq hi).symm
  have hlive : (p.store i l).AsrInUse = p.AsrInUse := by
    funext lane
    simp only [AsrInUse, store, hk.laneManager, laned]
  rw [LanesHeld, hheld, hlive]
  exact h

theorem LanesHeld.takes (h : p.LanesHeld) {i lane : Nat} {s : LaneSession}
    (hi : p.sessions[i]? = some s) {l : Laned} (ht : Laned.Takes (p.laned s) l lane true) :
    (p.store i l).LanesHeld := by
  have hmax : l.laneManager.asrMax = p.laneManager.asrMax := by
    obtain ⟨r, -, heq⟩ := ht.taken
    rw [heq]
    rfl
  rw [LanesHeld, store_heldBy hi]
  apply h.update
  · intro r hr hlive
    obtain rfl : (lane : Int) = r := Option.some.inj (ht.held.symm.trans hr)
    have huse : p.laneManager.laneInUse lane = true := SessionLaneManager.inUse_natCast.mp hlive.1
    cases ht.free.symm.trans huse
  · intro r
    have hnone : p.heldBy i = none := (heldBy_eq hi).trans ht.idle
    have hlt : (lane : Int) < p.laneManager.asrMax := Int.ofNat_lt.mpr ht.lane_lt
    rw [AsrInUse, store, ht.inUse, hmax, hnone, ht.held]
    constructor
    · rintro ⟨rfl | huse, hr⟩
      · exact .inr rfl
      · exact .inl ⟨⟨huse, hr⟩, nofun⟩
    · rintro (⟨⟨huse, hr⟩, -⟩ | heq)
      · exact ⟨.inr huse, hr⟩
      · obtain rfl : (lane : Int) = r := Option.some.inj heq
        exact ⟨.inl rfl, hlt⟩

theorem LanesHeld.drops (h : p.LanesHeld) {i : Nat} {s : LaneSession}
    (hi : p.sessions[i]? = some s) {l : Laned} {laneId : Int}
    (hd : Laned.Drops (p.laned s) l laneId) : (p.store i l).LanesHeld := by
  have hmax : l.laneManager.asrMax = p.laneManager.asrMax := by
    rw [hd.laneManager, SessionLaneManager.release_asrMax]
    rfl
  rw [LanesHeld, store_heldBy hi, hd.held]
  apply h.update
  · intro r hr
    cases hr
  · intro r
    have hheld : p.heldBy i = some laneId := (heldBy_eq hi).trans hd.begun
    rw [AsrInUse, store, hmax, hd.laneManager, SessionLaneManager.release_inUse, hheld, AsrInUse]
    constructor
    · rintro ⟨⟨huse, hne⟩, hlt⟩
      exact .inl ⟨⟨huse, hlt⟩, fun heq => hne (Option.some.inj heq).symm⟩
    · rintro (⟨⟨huse, hlt⟩, hne⟩ | heq)
      · exact ⟨⟨huse, fun heq => hne (heq ▸ rfl)⟩, hlt⟩
      · cases heq

theorem perform_some {i : Nat} {s : LaneSession} (hi : p.sessions[i]? = some s)
    (call : SessionCall Mel) : p.perform E i call =
      some ((call.on E (p.laned s)).1, p.store i (call.on E (p.laned s)).2) := by
  rw [perform, hi, Option.map_some]

/-- A call that keeps the lanes or gives one back meets the property. -/
theorem LanesHeld.keepsLanes (h : p.LanesHeld) {i : Nat} {s : LaneSession}
    (hi : p.sessions[i]? = some s) {call : SessionCall Mel}
    (hcall : Laned.Keeps (p.laned s) (call.on E (p.laned s)).2 ∨
      ((call.on E (p.laned s)).1 = true ∧
        Laned.Drops (p.laned s) (call.on E (p.laned s)).2 s.laneId)) :
    p.KeepsLanes E i call := by
  intro succeeded p' hp
  cases (perform_some hi call).symm.trans hp
  cases hcall with
  | inl hk => exact ⟨h.keeps hi hk, fun _ => hk.laneManager⟩
  | inr hd =>
      refine ⟨h.drops hi hd.2, fun hfail => ?_⟩
      rw [hd.1] at hfail
      cases hfail

/-- A begin with a reservation keeps the lanes in order when it succeeds, and
leaves a lane that no session holds when it fails. -/
theorem LanesHeld.begin_iff (h : p.LanesHeld) {i : Nat} {s : LaneSession}
    (hi : p.sessions[i]? = some s) (calls : BeginCalls) (prompt : List Int)
    (maxPositions maxAudio : Int) {maxGenerate : Int}
    (hr : (p.laned s).Reserves maxGenerate) :
    p.KeepsLanes E i (.begin calls prompt maxPositions maxAudio maxGenerate) ↔
      calls.Succeed maxAudio := by
  obtain ⟨hret, lane, ht⟩ := Laned.begin_takes calls prompt maxPositions maxAudio hr
  constructor
  · intro hkeeps
    by_contra hfail
    rw [decide_eq_false hfail] at hret ht
    have hsame : _ = p.laneManager := (hkeeps _ _ (perform_some hi _)).2 hret
    have huse : p.laneManager.InUse lane := hsame ▸ (ht.inUse lane).mpr (.inl rfl)
    cases ht.free.symm.trans (SessionLaneManager.inUse_natCast.mp huse)
  · intro hok succeeded p' hp
    rw [decide_eq_true hok] at hret ht
    cases (perform_some hi _).symm.trans hp
    refine ⟨h.takes hi ht, fun hfail => ?_⟩
    have hfalse : true = false := hret.symm.trans hfail
    cases hfalse

/-- A call keeps the lanes in order exactly when it is no begin that fails behind
its reservation. -/
theorem LanesHeld.keepsLanes_iff (h : p.LanesHeld) (hclean : p.laneManager.Clean) (i : Nat)
    (call : SessionCall Mel) : p.KeepsLanes E i call ↔ p.SetsUp (i, call) := by
  cases hi : p.sessions[i]? with
  | none =>
      have hnone : p.perform E i call = none := by rw [perform, hi, Option.map_none]
      refine iff_of_true (fun _ _ hp => ?_) ?_
      · cases hnone.symm.trans hp
      · cases call <;> simp [SetsUp, hi]
  | some s =>
      cases call with
      | begin calls prompt maxPositions maxAudio maxGenerate =>
          simp only [SetsUp, hi, Option.mem_def, Option.some.injEq, forall_eq']
          by_cases hr : (p.laned s).Reserves maxGenerate
          · rw [h.begin_iff hi calls prompt maxPositions maxAudio hr]
            exact ⟨fun hok _ => hok, fun hok => hok hr⟩
          · have hk := (Laned.begin_keeps hclean calls prompt maxPositions maxAudio hr).2
            exact iff_of_true (h.keepsLanes hi (.inl hk)) fun hr' => absurd hr' hr
      | append chunk mel isFinalChunk =>
          exact iff_of_true (h.keepsLanes hi (.inl (Laned.append_keeps E chunk mel isFinalChunk)))
            trivial
      | finish resets =>
          exact iff_of_true (h.keepsLanes hi ((p.laned s).end_cases resets)) trivial

end SharedLanes

section System
variable {Mel : Type*} (E : Engine Mel) {maxBatchSize asrMax ttsMax : Int}
  {laneManager : SessionLaneManager}

theorem lanesHeld_invariant
    (hm : SessionLaneManager.create maxBatchSize asrMax ttsMax = .ok laneManager)
    (cache : KvCache) (ownerIds : List Int) :
    ((sessionSystem E laneManager cache ownerIds).guard SharedLanes.SetsUp).Invariant fun p =>
      p.laneManager.Clean ∧ p.LanesHeld where
  start := by
    refine ⟨SessionLaneManager.create_clean hm, Owns.of_none (fun i => ?_) fun lane hlive => ?_⟩
    · change ((ownerIds.map fun ownerId => { ownerId := ownerId })[i]?).bind LaneSession.held = none
      rw [List.getElem?_map]
      cases ownerIds[i]? <;> rfl
    · exact SessionLaneManager.create_inUse hm lane hlive.1
  step {p label p'} h hstep := by
    obtain ⟨hok, hstep⟩ := guard_step.mp hstep
    obtain ⟨⟨succeeded, q⟩, hp, rfl⟩ := Option.map_eq_some_iff.mp hstep
    refine ⟨?_, ((h.2.keepsLanes_iff h.1 label.1 label.2).mpr hok succeeded q hp).1⟩
    obtain ⟨s, -, heq⟩ := Option.map_eq_some_iff.mp hp
    cases heq
    exact Laned.on_clean E h.1 label.2

/-- In a run whose begins do not fail behind their reservation the allocated ASR
lanes are the lanes of the sessions that have begun and not ended, and a call
that fails leaves the allocator alone; a begin that fails there breaks both. -/
theorem session_lanes_iff
    (hm : SessionLaneManager.create maxBatchSize asrMax ttsMax = .ok laneManager)
    (cache : KvCache) (ownerIds : List Int) {p : SharedLanes}
    (h : ((sessionSystem E laneManager cache ownerIds).guard SharedLanes.SetsUp).Reachable p) :
    p.LanesHeld ∧ ∀ i call, p.KeepsLanes E i call ↔ p.SetsUp (i, call) :=
  have ⟨hclean, hheld⟩ := (lanesHeld_invariant E hm cache ownerIds).of_reachable h
  ⟨hheld, hheld.keepsLanes_iff hclean⟩

end System

section Runs

/-- An allocator of two ASR lanes. -/
def asrPair : SessionLaneManager where
  maxBatchSize := 2
  asrMax := 2
  ttsMax := 0
  lanes := [{}, {}]
  lanes_length := by decide
  partition_le := by decide

/-- An engine that performs every prefill. -/
def willingEngine : Engine Unit where
  encodeAudioChunk _ := some 1
  appendPrefillChunk _ _ _ _ := .performed 0
  decodeStep _ _ := .refused
  evict _ := false
  eosId := 0
  detokenize _ := ""

/-- Two sessions over the two lanes. -/
def pairSystem : TransitionSystem SharedLanes (Nat × SessionCall Unit) :=
  sessionSystem willingEngine asrPair twoRows [10, 11]

/-- Both sessions begin, the first a second time in vain, and the first ends. -/
def beginTwice : List (Nat × SessionCall Unit) :=
  [(0, .begin {} [1] 0 0 8), (1, .begin {} [1] 0 0 8), (0, .begin {} [1] 0 0 8),
    (0, .append [2, 3] none true), (0, .finish true)]

theorem session_lanes_iff_pair :
    ∃ p, (pairSystem.guard SharedLanes.SetsUp).Reachable p ∧
      p.heldBy 0 = none ∧ p.heldBy 1 = some 1 ∧ p.LanesHeld ∧
      ∀ i call, p.KeepsLanes willingEngine i call ↔ p.SetsUp (i, call) := by
  obtain ⟨p, h, hzero, hone⟩ := exists_reachable (T := pairSystem.guard SharedLanes.SetsUp)
    (fun p => p.heldBy 0 = none ∧ p.heldBy 1 = some 1) beginTwice (by decide)
  have hm : SessionLaneManager.create 2 2 0 = .ok asrPair := rfl
  exact ⟨p, h, hzero, hone, session_lanes_iff willingEngine hm _ _ h⟩

/-- A begin whose position cache cannot be set up keeps its lane, and no session
holds it. -/
theorem failed_begin_keeps_lane :
    ∃ p, pairSystem.Reachable p ∧ p.laneManager.laneInUse 0 = true ∧
      (∀ s ∈ p.sessions, s.held = none) ∧ ¬ p.LanesHeld := by
  obtain ⟨p, h, huse, hmax, hnone⟩ := exists_reachable (T := pairSystem)
    (fun p => p.laneManager.laneInUse 0 = true ∧ p.laneManager.asrMax = 2 ∧
      ∀ s ∈ p.sessions, s.held = none)
    [(0, .begin { mrope := false } [1] 0 0 8)] (by decide)
  refine ⟨p, h, huse, hnone, fun hheld => ?_⟩
  have hlive : p.AsrInUse 0 := ⟨⟨0, rfl, huse⟩, by rw [hmax]; decide⟩
  obtain ⟨i, hi⟩ := (hheld.owned 0).mp hlive
  obtain ⟨s, hs, hsome⟩ := Option.bind_eq_some_iff.mp hi
  rw [hnone s (List.mem_of_getElem? hs)] at hsome
  cases hsome

end Runs

end JetsonVoice.Runtime
