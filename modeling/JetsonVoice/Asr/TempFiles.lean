import JetsonVoice.Asr.Finalization
import JetsonVoice.Foundation.Ownership

/-!
# The temporary audio files of the ASR sessions

A session owns the file its PCM was last converted to. A conversion removes the
old file before it writes the new one, so that a failed one leaves the session
with the name of a file that is gone.
-/

namespace JetsonVoice.Asr

open Foundation TransitionSystem

/-- The temporary file a session owns. -/
def SessionState.owned? (st : SessionState) : Option String :=
  if st.melPathOwned = "" then none else some st.melPathOwned

/-- The temporary file of a live session. -/
def Worker.ownedPath (w : Worker) (sid : String) : Option String :=
  (w.sessions.lookup sid).bind SessionState.owned?

/-- The temporary files are those the live sessions own, each its own. -/
def FilesOwned (w : Worker) : Prop := Owns w.ownedPath (· ∈ w.files)

/-- A step hands files over: they stay owned, and no old one gets a new owner. -/
structure HandsOver (w w' : Worker) : Prop where
  owned : FilesOwned w → FilesOwned w'
  origin : ∀ {sid path}, w'.ownedPath sid = some path →
    w.ownedPath sid = some path ∨ path ∉ w.files

namespace Worker
variable {w w' : Worker} {sid : String} {st held : SessionState}

theorem setSession_ownedPath (w : Worker) (sid : String) (st : SessionState) :
    (w.setSession sid st).ownedPath = Function.update w.ownedPath sid st.owned? := by
  funext other
  by_cases h : other = sid
  · subst h
    simp [ownedPath, setSession]
  · simp [ownedPath, setSession, Function.update_of_ne h, AList.lookup_insert_ne h]

theorem dropSession_ownedPath (w : Worker) (sid : String) (lane : Int) :
    (w.dropSession sid lane).ownedPath = Function.update w.ownedPath sid none := by
  funext other
  by_cases h : other = sid
  · subst h
    simp [ownedPath, dropSession]
  · simp [ownedPath, dropSession, Function.update_of_ne h, AList.lookup_erase_ne h]

/-- Storing a session with the file it owns hands nothing over. -/
theorem setSession_ownedPath_same (h : w.sessions.lookup sid = some held)
    (ho : st.owned? = held.owned?) : (w.setSession sid st).ownedPath = w.ownedPath := by
  rw [setSession_ownedPath, ho]
  funext other
  by_cases hother : other = sid
  · subst hother
    simp [ownedPath, h]
  · rw [Function.update_of_ne hother]

theorem mem_removeOwned {path : String} :
    path ∈ (w.removeFile st.melPathOwned).files ↔ path ∈ w.files ∧ st.owned? ≠ some path := by
  rw [removeFile, SessionState.owned?]
  split
  · simp
  · have hcomm : path ≠ st.melPathOwned ↔ some st.melPathOwned ≠ some path := by
      rw [Ne, Ne, Option.some.injEq, eq_comm]
    rw [List.mem_filter, decide_eq_true_iff, hcomm]

end Worker

namespace HandsOver
variable {w w₁ w' : Worker}

theorem of_same (ho : w'.ownedPath = w.ownedPath) (hf : ∀ path, path ∈ w'.files ↔ path ∈ w.files) :
    HandsOver w w' where
  owned h := by
    rw [FilesOwned, ho]
    exact ⟨fun path => (hf path).trans (h.owned path), h.distinct⟩
  origin h := .inl (ho ▸ h)

/-- Steps before that touch no file can be left out. -/
theorem of_stored (ho : w₁.ownedPath = w.ownedPath) (hf : w₁.files = w.files)
    (h : HandsOver w₁ w') : HandsOver w w' where
  owned hw := h.owned (by rwa [FilesOwned, ho, hf])
  origin hp := by
    have := h.origin hp
    rwa [ho, hf] at this

/-- One session exchanges its file for a new one, or gives it up. -/
theorem of_update {sid : String} {o : Option String} (fresh : ∀ path, o = some path → path ∉ w.files)
    (ho : w'.ownedPath = Function.update w.ownedPath sid o)
    (hf : ∀ path, path ∈ w'.files ↔ (path ∈ w.files ∧ w.ownedPath sid ≠ some path) ∨ o = some path) :
    HandsOver w w' where
  owned h := by
    rw [FilesOwned, ho]
    exact h.update fresh hf
  origin {other path} hp := by
    rw [ho] at hp
    by_cases hother : other = sid
    · subst hother
      rw [Function.update_self] at hp
      exact .inr (fresh path hp)
    · rw [Function.update_of_ne hother] at hp
      exact .inl hp

end HandsOver

/-- Conversions name files that are not there yet. -/
def Host.Fresh (host : Host) (w : Worker) : Prop :=
  ∀ pcm sid path, host.pcmB64ToMelSafetensors pcm sid = .ok path → path ≠ "" ∧ path ∉ w.files

/-- A chunk that is not the last one, whose PCM fails to be converted while its
session owns a file. -/
def Loses (host : Host) (w : Worker) (input : Json) : Prop :=
  ∃ sid held what, input.valueStr "event" "" = .ok "chunk" ∧ input.valueStr "id" "" = .ok sid ∧
    w.sessions.lookup sid = some held ∧ input.valueBool "last" false = .ok false ∧
    (recordAudio input held).pcmB64 ≠ "" ∧ host.pcmInputSupported = true ∧
    held.melPathOwned ≠ "" ∧
    host.pcmB64ToMelSafetensors (recordAudio input held).pcmB64 sid = .error what

section Handlers
variable {host : Host} {w w' : Worker} {input : Json} {sid : String} {st held : SessionState}

theorem owned?_some {path : String} (h : path ≠ "") :
    ({ st with melPathOwned := path, melPath := path } : SessionState).owned? = some path := by
  rw [SessionState.owned?, if_neg h]

@[simp] theorem recordAudio_owned (input : Json) (st : SessionState) :
    (recordAudio input st).melPathOwned = st.melPathOwned := by
  simp only [recordAudio]
  split <;> split <;> rfl

theorem recordAudio_owned? (input : Json) (st : SessionState) (now : Int) :
    (recordAudio input { st with lastActivity := now }).owned? = st.owned? := by
  simp [SessionState.owned?]

/-- What a conversion does to the files and to the session. -/
theorem convertPcm_files {r : Except String SessionState}
    (h : convertPcm host w sid st = (w', r)) :
    w'.sessions = w.sessions ∧
      ((∃ path, host.pcmB64ToMelSafetensors st.pcmB64 sid = .ok path ∧
          r = .ok { st with melPathOwned := path, melPath := path } ∧
          ∀ p, p ∈ w'.files ↔ p = path ∨ (p ∈ w.files ∧ st.owned? ≠ some p)) ∨
        ∃ what, host.pcmB64ToMelSafetensors st.pcmB64 sid = .error what ∧ r = .error what ∧
          ∀ p, p ∈ w'.files ↔ p ∈ w.files ∧ st.owned? ≠ some p) := by
  simp only [convertPcm] at h
  split at h
  · rename_i path hpath
    cases h
    refine ⟨by simp [Worker.createFile], .inl ⟨path, hpath, rfl, fun p => ?_⟩⟩
    rw [Worker.createFile, List.mem_cons, Worker.mem_removeOwned]
  · rename_i what hwhat
    cases h
    exact ⟨by simp, .inr ⟨what, hwhat, rfl, fun p => Worker.mem_removeOwned⟩⟩

theorem handleBegin_handsOver (h : handleBegin host w input = .ok w') : HandsOver w w' := by
  simp only [handleBegin, bind, Except.bind, pure, Except.pure] at h
  split at h
  · cases h
  · rename_i sid hid
    split at h
    · cases h
      exact .of_same rfl fun _ => .rfl
    · split at h
      · rename_i st hl
        cases h
        exact .of_same (Worker.setSession_ownedPath_same hl rfl) fun _ => .rfl
      · rename_i hl
        split at h
        · cases h
          exact .of_same rfl fun _ => .rfl
        · cases h
          refine .of_same ?_ fun _ => .rfl
          change (Worker.setSession _ sid _).ownedPath = w.ownedPath
          rw [Worker.setSession_ownedPath]
          exact Function.update_eq_self_iff.mpr (by simp [Worker.ownedPath, hl, SessionState.owned?])

/-- A decode of the audio so far touches no file. -/
theorem decodePartial_files (hl : w.sessions.lookup sid = some held) (ho : st.owned? = held.owned?)
    (h : decodePartial host w sid st = .ok w') :
    w'.ownedPath = w.ownedPath ∧ w'.files = w.files := by
  simp only [decodePartial, bind, Except.bind, pure, Except.pure] at h
  split at h
  · split at h
    · cases h
      exact ⟨Worker.setSession_ownedPath_same hl ho, rfl⟩
    · cases h
      exact ⟨rfl, rfl⟩
  · split at h
    · cases h
    · cases h
      exact ⟨rfl, rfl⟩

/-- Of the files that putting the final audio in place leaves, only those of the other
sessions remain when both owned files are removed. -/
theorem endAudio_files {converted : Except Json Unit} (hfresh : host.Fresh w)
    (h : endAudio host w sid input held = (w', st, converted)) (p : String) :
    p ∈ w'.files ∧ held.owned? ≠ some p ∧ st.owned? ≠ some p ↔
      p ∈ w.files ∧ held.owned? ≠ some p := by
  have hrecord : (recordAudio input held).owned? = held.owned? := by simp [SessionState.owned?]
  simp only [endAudio] at h
  split at h
  · split at h
    · split at h
      · rename_i hconv
        cases h
        obtain ⟨-, ⟨path, hpath, hok, hfiles⟩ | ⟨what, -, herr, -⟩⟩ := convertPcm_files hconv
        · cases hok
          obtain ⟨hne, hnew⟩ := hfresh _ _ _ hpath
          rw [hfiles, hrecord, owned?_some hne]
          constructor
          · rintro ⟨rfl | hp, hheld, hst⟩
            · exact absurd rfl hst
            · exact hp
          · rintro ⟨hp, hheld⟩
            refine ⟨.inr ⟨hp, hheld⟩, hheld, fun he => ?_⟩
            exact hnew (Option.some.inj he ▸ hp)
        · cases herr
      · rename_i hconv
        cases h
        obtain ⟨-, ⟨path, -, hok, -⟩ | ⟨what, -, -, hfiles⟩⟩ := convertPcm_files hconv
        · cases hok
        · change _ ∧ _ ∧ (recordAudio input held).owned? ≠ some p ↔ _
          rw [hfiles, hrecord]
          tauto
    · cases h
      rw [hrecord]
      tauto
  · cases h
    rw [hrecord]
    tauto

/-- An `end` gives up the file of the session, and the one it may have made itself. -/
theorem handleEnd_handsOver (hfresh : host.Fresh w) (hid : input.valueStr "id" "" = .ok sid)
    (h : handleEnd host w input = .ok w') : HandsOver w w' := by
  cases hl : w.sessions.lookup sid with
  | none =>
      simp only [handleEnd, hid, hl, bind, Except.bind, pure, Except.pure, Except.ok.injEq] at h
      subst h
      exact .of_same rfl fun _ => .rfl
  | some held =>
      rcases ha : endAudio host w sid input held with ⟨w₁, st, converted⟩
      have hfiles := endAudio_files hfresh ha
      obtain ⟨-, hsess, -⟩ := endAudio_cases ha
      obtain ⟨event, rfl⟩ : ∃ event, w' = (((w₁.removeFile held.melPathOwned).removeFile
          st.melPathOwned).dropSession sid st.laneId).emit event := by
        simp only [handleEnd, hid, hl, ha, bind, Except.bind, pure, Except.pure] at h
        split at h
        · cases h
          exact ⟨_, rfl⟩
        · split at h
          · cases h
          · cases h
            exact ⟨_, rfl⟩
      have howned : ((((w₁.removeFile held.melPathOwned).removeFile st.melPathOwned).dropSession sid
          st.laneId).emit event).ownedPath = Function.update w.ownedPath sid none := by
        change (Worker.dropSession _ sid st.laneId).ownedPath = _
        rw [Worker.dropSession_ownedPath]
        congr 1
        funext other
        simp [Worker.ownedPath, hsess]
      refine .of_update (fun _ h => by cases h) howned fun p => ?_
      have hheld : w.ownedPath sid = held.owned? := by simp [Worker.ownedPath, hl]
      change p ∈ ((w₁.removeFile held.melPathOwned).removeFile st.melPathOwned).files ↔ _
      rw [Worker.mem_removeOwned, Worker.mem_removeOwned, and_assoc, hfiles, hheld]
      simp

/-- A converted chunk exchanges the file of its session. -/
theorem convertChunk_handsOver {w₁ : Worker} {st₁ : SessionState} (hfresh : host.Fresh w)
    (hl : w.sessions.lookup sid = some st) (hconv : convertPcm host w sid st = (w₁, .ok st₁))
    (h : decodePartial host (w₁.setSession sid st₁) sid st₁ = .ok w') : HandsOver w w' := by
  obtain ⟨hsess, ⟨path, hpath, hok, hfiles⟩ | ⟨what, -, herr, -⟩⟩ := convertPcm_files hconv
  · cases hok
    obtain ⟨hne, hnew⟩ := hfresh _ _ _ hpath
    obtain ⟨howned, hkept⟩ := decodePartial_files (AList.lookup_insert _) rfl h
    have hupdate : w'.ownedPath = Function.update w.ownedPath sid (some path) := by
      rw [howned, Worker.setSession_ownedPath, owned?_some hne]
      congr 1
      funext other
      simp [Worker.ownedPath, hsess]
    refine .of_update ?_ hupdate fun p => ?_
    · intro p hp
      cases hp
      exact hnew
    · have hheld : w.ownedPath sid = st.owned? := by simp [Worker.ownedPath, hl]
      have hp : p ∈ w'.files ↔ p ∈ w₁.files := by
        rw [hkept]
        rfl
      rw [hp, hfiles, hheld, or_comm, Option.some.injEq, eq_comm (a := p)]
  · cases herr

/-- A chunk keeps the files owned, unless it loses the one of its session. -/
theorem handleChunk_handsOver (hfresh : host.Fresh w) (hid : input.valueStr "id" "" = .ok sid)
    (hevent : input.valueStr "event" "" = .ok "chunk") (hloses : ¬ Loses host w input)
    (h : handleChunk host w input = .ok w') : HandsOver w w' := by
  cases hl : w.sessions.lookup sid with
  | none =>
      simp only [handleChunk, hid, hl, bind, Except.bind, pure, Except.pure, Except.ok.injEq] at h
      subst h
      exact .of_same rfl fun _ => .rfl
  | some held =>
      have howned := Worker.setSession_ownedPath_same hl (recordAudio_owned? input held host.now)
      have hl₁ : (w.setSession sid (recordAudio input { held with lastActivity := host.now })).sessions.lookup
          sid = some (recordAudio input { held with lastActivity := host.now }) := AList.lookup_insert _
      apply HandsOver.of_stored howned rfl
      cases hlast : input.valueBool "last" false with
      | error e => simp [handleChunk, hid, hl, hlast, bind, Except.bind] at h
      | ok isLast =>
          simp only [handleChunk, hid, hl, hlast, bind, Except.bind, pure, Except.pure] at h
          split at h
          · exact handleEnd_handsOver hfresh hid h
          · rename_i hopen
            have hstored : (recordAudio input { held with lastActivity := host.now }).pcmB64 =
                (recordAudio input held).pcmB64 := by simp only [recordAudio_pcmB64]
            have hkept : (recordAudio input { held with lastActivity := host.now }).melPathOwned =
                held.melPathOwned := recordAudio_owned _ _
            generalize recordAudio input { held with lastActivity := host.now } = st at h hl₁ hstored hkept ⊢
            split at h
            · split at h
              · cases h
                exact .of_same rfl fun _ => .rfl
              · obtain ⟨ho, hf⟩ := decodePartial_files hl₁ rfl h
                exact .of_same ho fun p => by rw [hf]
            · rename_i hpcm
              split at h
              · cases h
                exact .of_same rfl fun _ => .rfl
              · rename_i hsup
                split at h
                · rename_i w₂ st₂ hconv
                  exact convertChunk_handsOver (w := w.setSession sid st) hfresh hl₁ hconv h
                · rename_i w₂ what hconv
                  cases h
                  obtain ⟨hsess, ⟨path, -, hok, -⟩ | ⟨what, hwhat, -, hfiles⟩⟩ := convertPcm_files hconv
                  · cases hok
                  · -- Nothing is lost where the session owns nothing.
                    have hnone : st.melPathOwned = "" := by
                      by_contra hne
                      have hlast' : isLast = false := by simpa using hopen
                      exact hloses ⟨sid, held, what, hevent, hid, hl, hlast' ▸ hlast, hstored ▸ hpcm,
                        by simpa using hsup, hkept ▸ hne, hstored ▸ hwhat⟩
                    refine .of_same ?_ fun p => ?_
                    · funext other
                      simp [Worker.ownedPath, hsess]
                    · change p ∈ w₂.files ↔ _
                      rw [hfiles]
                      simp [SessionState.owned?, hnone]

/-- A line other than one that loses a file keeps the files owned. -/
theorem dispatchLine_handsOver (hfresh : host.Fresh w) (hloses : ¬ Loses host w input)
    (h : dispatchLine host w input = .ok w') : HandsOver w w' := by
  simp only [dispatchLine, bind, Except.bind, pure, Except.pure] at h
  split at h
  · cases h
    exact .of_same rfl fun _ => .rfl
  · split at h
    · cases h
    · rename_i event hevent
      split at h
      · exact handleBegin_handsOver h
      · split at h
        · rename_i hchunk
          subst hchunk
          cases hid : input.valueStr "id" "" with
          | error e => simp [handleChunk, hid, bind, Except.bind] at h
          | ok sid => exact handleChunk_handsOver hfresh hid hevent hloses h
        · split at h
          · cases hid : input.valueStr "id" "" with
            | error e => simp [handleEnd, hid, bind, Except.bind] at h
            | ok sid => exact handleEnd_handsOver hfresh hid h
          · split at h
            · cases h
            · cases h
              exact .of_same rfl fun _ => .rfl

theorem decodePartial_melPath (hl : w.sessions.lookup sid = some st)
    (h : decodePartial host w sid st = .ok w') :
    ∃ st', w'.sessions.lookup sid = some st' ∧ st'.melPath = st.melPath := by
  simp only [decodePartial, bind, Except.bind, pure, Except.pure] at h
  split at h
  · split at h
    · cases h
      exact ⟨_, AList.lookup_insert _, rfl⟩
    · cases h
      exact ⟨st, hl, rfl⟩
  · split at h
    · cases h
    · cases h
      exact ⟨st, hl, rfl⟩

end Handlers

section Sweep
variable {w : Worker}

/-- Reaping a session removes the file it owns. -/
theorem reap_handsOver (w : Worker) (victim : String × Int) :
    HandsOver w (reap w victim) ∧ ∀ {sid path}, (reap w victim).ownedPath sid = some path →
      w.ownedPath sid = some path := by
  obtain ⟨victimId, lane⟩ := victim
  have howned : (reap w (victimId, lane)).ownedPath = Function.update w.ownedPath victimId none := by
    simp only [reap]
    split
    · change (Worker.dropSession _ victimId lane).ownedPath = _
      rw [Worker.dropSession_ownedPath]
      congr 1
      funext other
      simp [Worker.ownedPath]
    · exact Worker.dropSession_ownedPath w victimId lane
  constructor
  · refine .of_update (fun _ h => by cases h) howned fun p => ?_
    cases hl : w.sessions.lookup victimId with
    | none =>
        have hnone : w.ownedPath victimId = none := by simp [Worker.ownedPath, hl]
        simp [reap, hl, hnone, Worker.dropSession, Worker.emit]
    | some st =>
        have hheld : w.ownedPath victimId = st.owned? := by simp [Worker.ownedPath, hl]
        have hfiles : (reap w (victimId, lane)).files = (w.removeFile st.melPathOwned).files := by
          simp [reap, hl, Worker.dropSession, Worker.emit]
        rw [hfiles, Worker.mem_removeOwned, hheld]
        simp
  · intro sid path hp
    rw [howned] at hp
    by_cases hsid : sid = victimId
    · simp [hsid] at hp
    · rwa [Function.update_of_ne hsid] at hp

theorem sweep_handsOver (w : Worker) (now : Int) : HandsOver w (sweepIdleSessions w now) := by
  rw [sweepIdleSessions]
  generalize idleSessions w now = victims
  suffices h : (FilesOwned w → FilesOwned (victims.foldl reap w)) ∧
      ∀ {sid path}, (victims.foldl reap w).ownedPath sid = some path →
        w.ownedPath sid = some path from ⟨h.1, fun hp => .inl (h.2 hp)⟩
  induction victims generalizing w with
  | nil => exact ⟨fun h => h, fun h => h⟩
  | cons v rest ih =>
      obtain ⟨hhand, hkept⟩ := reap_handsOver w v
      obtain ⟨howned, horigin⟩ := ih (reap w v)
      exact ⟨fun h => howned (hhand.owned h), fun hp => hkept (horigin hp)⟩

end Sweep

section Runs
variable {w₀ w w' : Worker}

/-- Conversions name new files, and no chunk loses the file of its session. -/
def Careful (w : Worker) : Label → Prop
  | .line host input => host.Fresh w ∧ ¬ Loses host w input
  | _ => True

open Classical in
/-- The runs in which no chunk loses the file of its session. -/
noncomputable def carefulSystem (w₀ : Worker) : TransitionSystem Worker Label :=
  (system w₀).guard Careful

open Classical in
theorem careful_handsOver {l : Label} (h : (carefulSystem w₀).step w l = some w') :
    HandsOver w w' := by
  obtain ⟨hcareful, h⟩ := guard_step.mp h
  cases l with
  | line host input =>
      exact dispatchLine_handsOver hcareful.1 hcareful.2 (dispatchLine_of_step h)
  | malformed what =>
      cases h
      exact .of_same rfl fun _ => .rfl
  | sweep now =>
      cases h
      exact sweep_handsOver w now

theorem filesOwned_invariant {physBatch maxSlots : Int}
    (hinit : Worker.init physBatch maxSlots = .ok w₀) :
    (carefulSystem w₀).Invariant FilesOwned where
  start := by
    change FilesOwned w₀
    simp only [Worker.init, Except.map] at hinit
    split at hinit
    · cases hinit
    · cases hinit
      exact .of_none (fun _ => rfl) (by simp)
  step hi h := (careful_handsOver h).owned hi

end Runs

/-- After a chunk that is not the last one a session is still there: its audio path
names a temporary file that exists, or what it named before or what the chunk
carries, and the file it named before still exists. -/
theorem handleChunk_finalisable {host : Host} {w w' : Worker} {input : Json} {sid : String}
    {held : SessionState} (hloses : ¬ Loses host w input)
    (hevent : input.valueStr "event" "" = .ok "chunk") (hid : input.valueStr "id" "" = .ok sid)
    (hl : w.sessions.lookup sid = some held) (hlast : input.valueBool "last" false = .ok false)
    (h : handleChunk host w input = .ok w') :
    ∃ st, w'.sessions.lookup sid = some st ∧ (st.melPath ∈ w'.files ∨
      st.melPath = (carriedMelPath? input).getD held.melPath ∧
        (held.melPath ∈ w.files → held.melPath ∈ w'.files)) := by
  simp only [handleChunk, hid, hl, hlast, bind, Except.bind, pure, Except.pure,
    Bool.false_eq_true, if_false] at h
  have hmel : (recordAudio input { held with lastActivity := host.now }).melPath =
      (carriedMelPath? input).getD held.melPath := recordAudio_melPath _ _
  have hstored : (recordAudio input { held with lastActivity := host.now }).pcmB64 =
      (recordAudio input held).pcmB64 := by simp only [recordAudio_pcmB64]
  have hkept : (recordAudio input { held with lastActivity := host.now }).melPathOwned =
      held.melPathOwned := recordAudio_owned _ _
  generalize recordAudio input { held with lastActivity := host.now } = st at h hmel hstored hkept
  have hl₁ : (w.setSession sid st).sessions.lookup sid = some st := AList.lookup_insert _
  split at h
  · split at h
    · cases h
      exact ⟨st, hl₁, .inr ⟨hmel, id⟩⟩
    · obtain ⟨st', hl', hmel'⟩ := decodePartial_melPath hl₁ h
      obtain ⟨-, hf⟩ := decodePartial_files hl₁ rfl h
      exact ⟨st', hl', .inr ⟨hmel'.trans hmel, fun hm => by rw [hf]; exact hm⟩⟩
  · rename_i hpcm
    split at h
    · cases h
      exact ⟨st, hl₁, .inr ⟨hmel, id⟩⟩
    · rename_i hsup
      split at h
      · rename_i w₂ st₂ hconv
        obtain ⟨st', hl', hmel'⟩ := decodePartial_melPath (AList.lookup_insert _) h
        obtain ⟨-, hf⟩ := decodePartial_files (AList.lookup_insert _) rfl h
        obtain ⟨-, ⟨path, -, hok, hfiles⟩ | ⟨what, -, herr, -⟩⟩ := convertPcm_files hconv
        · cases hok
          refine ⟨st', hl', .inl ?_⟩
          rw [hmel', hf]
          exact (hfiles path).mpr (.inl rfl)
        · cases herr
      · rename_i w₂ what hconv
        cases h
        obtain ⟨hsess, ⟨path, -, hok, -⟩ | ⟨what, hwhat, -, hfiles⟩⟩ := convertPcm_files hconv
        · cases hok
        · have hnone : st.melPathOwned = "" := by
            by_contra hne
            exact hloses ⟨sid, held, what, hevent, hid, hl, hlast, hstored ▸ hpcm,
              by simpa using hsup, hkept ▸ hne, hstored ▸ hwhat⟩
          refine ⟨st, by simpa [hsess] using hl₁, .inr ⟨hmel, fun hm => ?_⟩⟩
          exact (hfiles held.melPath).mpr ⟨hm, by simp [SessionState.owned?, hnone]⟩

theorem careful_begin {w : Worker} (sid : String) : Careful w (beginLine sid) := by
  constructor
  · intro pcm other path h
    cases h
  · rintro ⟨_, _, _, -, -, -, -, -, hsup, -⟩
    cases hsup

theorem careful_wavHost {w : Worker} (h : w.files = []) (input : Json) :
    Careful w (.line wavHost input) := by
  refine ⟨fun pcm sid path hpath => ?_, ?_⟩
  · simp only [wavHost] at hpath
    split at hpath
    · cases hpath
    · cases hpath
      exact ⟨by simp, by simp [h]⟩
  · rintro ⟨sid, held, what, -, -, -, -, hpcm, -, -, herr⟩
    simp [wavHost, hpcm] at herr

/-- A host that refuses every PCM text. -/
def refusingHost : Host :=
  { wavHost with pcmB64ToMelSafetensors := fun _ _ => .error "pcm_b64_malformed" }

def malformedChunk : Json :=
  .obj [("event", .str "chunk"), ("id", .str "a"), ("pcm_b64", .str "AAAA")]

end JetsonVoice.Asr
