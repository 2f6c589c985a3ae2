import JetsonVoice.Asr.Worker

/-!
# Lane ownership of the ASR sessions

The lanes of the worker are seen as a partial map from session ids to lanes,
beside the allocator's set of lanes in use. Every handler either leaves this
view alone, admits one session on a free lane, or drops sessions and gives back
exactly their lanes.
-/

namespace JetsonVoice.Asr

open Foundation TransitionSystem

namespace Worker

/-- The lane a live session holds. -/
def laneOf (w : Worker) (sid : String) : Option Int :=
  (w.sessions.lookup sid).map (·.laneId)

@[simp] theorem emit_laneOf (w : Worker) (e : Json) : (w.emit e).laneOf = w.laneOf := rfl
@[simp] theorem emit_laneMgr (w : Worker) (e : Json) : (w.emit e).laneMgr = w.laneMgr := rfl
@[simp] theorem emit_sessions (w : Worker) (e : Json) : (w.emit e).sessions = w.sessions := rfl
@[simp] theorem createFile_laneOf (w : Worker) (p : String) :
    (w.createFile p).laneOf = w.laneOf := rfl
@[simp] theorem createFile_laneMgr (w : Worker) (p : String) :
    (w.createFile p).laneMgr = w.laneMgr := rfl
@[simp] theorem setSession_laneMgr (w : Worker) (sid : String) (st : SessionState) :
    (w.setSession sid st).laneMgr = w.laneMgr := rfl

@[simp] theorem removeFile_sessions (w : Worker) (p : String) :
    (w.removeFile p).sessions = w.sessions := by
  simp only [removeFile]
  split <;> rfl

@[simp] theorem removeFile_laneMgr (w : Worker) (p : String) :
    (w.removeFile p).laneMgr = w.laneMgr := by
  simp only [removeFile]
  split <;> rfl

@[simp] theorem removeFile_laneOf (w : Worker) (p : String) :
    (w.removeFile p).laneOf = w.laneOf := by
  funext sid
  simp [laneOf]

theorem setSession_laneOf (w : Worker) (sid : String) (st : SessionState) :
    (w.setSession sid st).laneOf = Function.update w.laneOf sid (some st.laneId) := by
  funext other
  by_cases h : other = sid
  · subst h
    simp [laneOf, setSession]
  · simp [laneOf, setSession, Function.update_of_ne h, AList.lookup_insert_ne h]

theorem dropSession_laneOf (w : Worker) (sid : String) (lane : Int) :
    (w.dropSession sid lane).laneOf = Function.update w.laneOf sid none := by
  funext other
  by_cases h : other = sid
  · subst h
    simp [laneOf, dropSession]
  · simp [laneOf, dropSession, Function.update_of_ne h, AList.lookup_erase_ne h]

/-- Storing a session under its own lane changes no lane. -/
theorem setSession_laneOf_same {w : Worker} {sid : String} {held st : SessionState}
    (h : w.sessions.lookup sid = some held) (hl : st.laneId = held.laneId) :
    (w.setSession sid st).laneOf = w.laneOf := by
  rw [setSession_laneOf, hl]
  funext other
  by_cases ho : other = sid
  · subst ho
    simp [laneOf, h]
  · rw [Function.update_of_ne ho]

end Worker

/-- Nothing about the lanes changed. -/
structure SameLanes (w w' : Worker) : Prop where
  laneOf : w'.laneOf = w.laneOf
  laneMgr : w'.laneMgr = w.laneMgr

/-- One new session was put on a lane that was free. -/
structure Admits (w w' : Worker) (sid : String) (lane : Nat) : Prop where
  absent : w.laneOf sid = none
  free : w.laneMgr.laneInUse lane = false
  lane_lt : lane < w.laneMgr.asrMax
  laneOf : w'.laneOf = Function.update w.laneOf sid (some (lane : Int))
  inUse : ∀ l, w'.laneMgr.InUse l ↔ l = lane ∨ w.laneMgr.InUse l
  asrMax : w'.laneMgr.asrMax = w.laneMgr.asrMax

/-- Some sessions may be gone, and the lanes given back are exactly theirs. -/
structure GivesBack (w w' : Worker) : Prop where
  kept : ∀ {sid lane}, w'.laneOf sid = some lane → w.laneOf sid = some lane
  inUse : ∀ l, w'.laneMgr.InUse l ↔
    w.laneMgr.InUse l ∧ ¬ ∃ sid, w.laneOf sid = some l ∧ w'.laneOf sid = none
  asrMax : w'.laneMgr.asrMax = w.laneMgr.asrMax

theorem SameLanes.givesBack {w w' : Worker} (h : SameLanes w w') : GivesBack w w' where
  kept hl := h.laneOf ▸ hl
  inUse l := by
    rw [h.laneMgr, h.laneOf]
    refine ⟨fun hu => ⟨hu, ?_⟩, And.left⟩
    rintro ⟨sid, hs, hn⟩
    rw [hs] at hn
    cases hn
  asrMax := by rw [h.laneMgr]

theorem GivesBack.refl (w : Worker) : GivesBack w w := SameLanes.givesBack ⟨rfl, rfl⟩

theorem GivesBack.trans {w₁ w₂ w₃ : Worker} (h : GivesBack w₁ w₂) (h' : GivesBack w₂ w₃) :
    GivesBack w₁ w₃ where
  kept hl := h.kept (h'.kept hl)
  inUse l := by
    rw [h'.inUse, h.inUse, and_assoc, ← not_or]
    apply and_congr_right
    intro _
    apply not_congr
    constructor
    · rintro (⟨sid, h₁, h₂⟩ | ⟨sid, h₂, h₃⟩)
      · refine ⟨sid, h₁, ?_⟩
        cases h₃ : w₃.laneOf sid with
        | none => rfl
        | some lane => rw [h'.kept h₃] at h₂; cases h₂
      · exact ⟨sid, h.kept h₂, h₃⟩
    · rintro ⟨sid, h₁, h₃⟩
      cases h₂ : w₂.laneOf sid with
      | none => exact .inl ⟨sid, h₁, h₂⟩
      | some lane =>
          obtain rfl : l = lane := Option.some.inj (h₁.symm.trans (h.kept h₂))
          exact .inr ⟨sid, h₂, h₃⟩
  asrMax := h'.asrMax.trans h.asrMax

theorem Worker.emit_givesBack (w : Worker) (e : Json) : GivesBack w (w.emit e) :=
  SameLanes.givesBack ⟨rfl, rfl⟩

/-- Dropping a session under the lane it holds gives back that lane. -/
theorem Worker.dropSession_givesBack {w : Worker} {sid : String} {lane : Int}
    (h : w.laneOf sid = some lane) : GivesBack w (w.dropSession sid lane) where
  kept {other l} hl := by
    rw [dropSession_laneOf] at hl
    by_cases ho : other = sid
    · subst ho
      simp at hl
    · rwa [Function.update_of_ne ho] at hl
  inUse l := by
    change (w.laneMgr.release lane).InUse l ↔ _
    rw [SessionLaneManager.release_inUse, dropSession_laneOf]
    apply and_congr_right
    intro _
    constructor
    · rintro hne ⟨other, hl, hn⟩
      by_cases ho : other = sid
      · subst ho
        exact hne (Option.some.inj (hl.symm.trans h))
      · rw [Function.update_of_ne ho, hl] at hn
        cases hn
    · rintro hnone rfl
      exact hnone ⟨sid, h, by simp⟩
  asrMax := SessionLaneManager.release_asrMax lane

/-- The lane ids of live sessions are distinct ASR lanes, and they are exactly
the lanes in use. -/
structure LanesOwned (asrMax : Nat) (w : Worker) : Prop where
  distinct : ∀ {sid sid' lane}, w.laneOf sid = some lane → w.laneOf sid' = some lane → sid = sid'
  range : ∀ {sid lane}, w.laneOf sid = some lane → 0 ≤ lane ∧ lane < asrMax
  inUse_iff : ∀ lane, w.laneMgr.InUse lane ↔ ∃ sid, w.laneOf sid = some lane
  asrMax_eq : w.laneMgr.asrMax = asrMax

theorem LanesOwned.givesBack {asrMax : Nat} {w w' : Worker} (h : LanesOwned asrMax w)
    (hg : GivesBack w w') : LanesOwned asrMax w' where
  distinct h₁ h₂ := h.distinct (hg.kept h₁) (hg.kept h₂)
  range h₁ := h.range (hg.kept h₁)
  inUse_iff lane := by
    rw [hg.inUse, h.inUse_iff]
    constructor
    · rintro ⟨⟨sid, hs⟩, hn⟩
      cases hs' : w'.laneOf sid with
      | none => exact absurd ⟨sid, hs, hs'⟩ hn
      | some l =>
          obtain rfl : lane = l := Option.some.inj (hs.symm.trans (hg.kept hs'))
          exact ⟨sid, hs'⟩
    · rintro ⟨sid, hs'⟩
      refine ⟨⟨sid, hg.kept hs'⟩, ?_⟩
      rintro ⟨other, ho, hn⟩
      obtain rfl := h.distinct ho (hg.kept hs')
      rw [hs'] at hn
      cases hn
  asrMax_eq := hg.asrMax.trans h.asrMax_eq

theorem LanesOwned.admits {asrMax : Nat} {w w' : Worker} {sid : String} {lane : Nat}
    (h : LanesOwned asrMax w) (ha : Admits w w' sid lane) : LanesOwned asrMax w' := by
  -- The lane was free, so no session held it.
  have hfree : ∀ other, w.laneOf other ≠ some (lane : Int) := by
    intro other ho
    obtain ⟨l, hl, hu⟩ := (h.inUse_iff lane).mpr ⟨other, ho⟩
    obtain rfl : lane = l := by exact_mod_cast hl
    simp [ha.free] at hu
  have hcases : ∀ {other l}, w'.laneOf other = some l →
      (other = sid ∧ l = lane) ∨ w.laneOf other = some l := by
    intro other l ho
    rw [ha.laneOf] at ho
    by_cases he : other = sid
    · subst he
      exact .inl ⟨rfl, by simpa using ho.symm⟩
    · exact .inr (by rwa [Function.update_of_ne he] at ho)
  constructor
  · intro s s' l h₁ h₂
    rcases hcases h₁ with ⟨rfl, rfl⟩ | h₁' <;> rcases hcases h₂ with ⟨rfl, hl⟩ | h₂'
    · rfl
    · exact absurd h₂' (hfree s')
    · exact absurd (hl ▸ h₁') (hfree s)
    · exact h.distinct h₁' h₂'
  · intro s l h₁
    rcases hcases h₁ with ⟨rfl, rfl⟩ | h₁'
    · have := ha.lane_lt
      rw [h.asrMax_eq] at this
      omega
    · exact h.range h₁'
  · intro l
    rw [ha.inUse, h.inUse_iff]
    constructor
    · rintro (rfl | ⟨s, hs⟩)
      · exact ⟨sid, by simp [ha.laneOf]⟩
      · refine ⟨s, ?_⟩
        have hne : s ≠ sid := by
          rintro rfl
          rw [ha.absent] at hs
          cases hs
        rw [ha.laneOf, Function.update_of_ne hne, hs]
    · rintro ⟨s, hs⟩
      rcases hcases hs with ⟨rfl, rfl⟩ | hs'
      · exact .inl rfl
      · exact .inr ⟨s, hs'⟩
  · exact ha.asrMax.trans h.asrMax_eq

section Handlers
variable {host : Host} {w w' : Worker} {input : Json} {sid : String}

/-- What `begin` does: refuse a missing id, acknowledge a known session, refuse
when no lane is free, or admit the session. -/
theorem handleBegin_cases (hid : input.valueStr "id" "" = .ok sid)
    (h : handleBegin host w input = .ok w') :
    (SameLanes w w' ∧ w'.sessions.size = w.sessions.size ∧
      (w.sessions.lookup sid = none → w'.sessions = w.sessions)) ∨
    (w.sessions.lookup sid = none ∧ ∃ lane, Admits w w' sid lane) := by
  simp only [handleBegin, hid, bind, Except.bind, pure, Except.pure] at h
  split at h
  · cases h
    exact .inl ⟨⟨rfl, rfl⟩, rfl, fun _ => rfl⟩
  cases hl : w.sessions.lookup sid with
  | some st =>
      simp only [hl, Except.ok.injEq] at h
      subst h
      refine .inl ⟨⟨?_, rfl⟩, Table.size_insert_present hl, by simp⟩
      rw [Worker.emit_laneOf]
      exact Worker.setSession_laneOf_same hl rfl
  | none =>
      simp only [hl] at h
      rcases SessionLaneManager.acquire_asr_cases (m := w.laneMgr) (host.sidToOwnerId sid) with
        ⟨lane, hlt, hfree, hlane, huse⟩ | ⟨hlane, hsame, -⟩
      · rw [if_neg (by omega)] at h
        cases h
        refine .inr ⟨rfl, lane, ?_⟩
        exact
          { absent := by simp [Worker.laneOf, hl]
            free := hfree
            lane_lt := hlt
            laneOf := by
              rw [Worker.emit_laneOf, Worker.setSession_laneOf, hlane]
              rfl
            inUse := huse
            asrMax := SessionLaneManager.acquire_asrMax _ _ }
      · rw [if_pos (by omega)] at h
        cases h
        exact .inl ⟨⟨rfl, hsame⟩, rfl, fun _ => rfl⟩

/-- A conversion touches files only, and the session keeps its lane. -/
theorem convertPcm_cases {st : SessionState} {r : Except String SessionState}
    (h : convertPcm host w sid st = (w', r)) :
    SameLanes w w' ∧ w'.sessions = w.sessions ∧ ∀ st', r = .ok st' → st'.laneId = st.laneId := by
  simp only [convertPcm] at h
  split at h
  · cases h
    refine ⟨⟨by simp, by simp⟩, by simp [Worker.createFile], ?_⟩
    rintro st' ⟨⟩
    rfl
  · cases h
    exact ⟨⟨by simp, by simp⟩, by simp, by simp⟩

@[simp] theorem recordAudio_laneId (st : SessionState) :
    (recordAudio input st).laneId = st.laneId := by
  simp only [recordAudio]
  split <;> split <;> rfl

/-- Putting the final audio in place keeps every lane and the session's own. -/
theorem endAudio_cases {held st : SessionState} {converted : Except Json Unit}
    (h : endAudio host w sid input held = (w', st, converted)) :
    SameLanes w w' ∧ w'.sessions = w.sessions ∧ st.laneId = held.laneId := by
  simp only [endAudio] at h
  split at h
  · split at h
    · split at h
      · rename_i hc
        cases h
        obtain ⟨hs, hsess, hlane⟩ := convertPcm_cases hc
        exact ⟨hs, hsess, (hlane _ rfl).trans (recordAudio_laneId held)⟩
      · rename_i hc
        cases h
        obtain ⟨hs, hsess, -⟩ := convertPcm_cases hc
        exact ⟨hs, hsess, recordAudio_laneId held⟩
    · cases h
      exact ⟨⟨rfl, rfl⟩, rfl, recordAudio_laneId held⟩
  · cases h
    exact ⟨⟨rfl, rfl⟩, rfl, recordAudio_laneId held⟩

/-- What `end` does: refuse an unknown session, or remove the session and give
back its lane, whatever became of the decode. -/
theorem handleEnd_cases (hid : input.valueStr "id" "" = .ok sid)
    (h : handleEnd host w input = .ok w') :
    (w.sessions.lookup sid = none ∧ SameLanes w w') ∨
    (∃ held, w.sessions.lookup sid = some held ∧ GivesBack w w' ∧
      w'.sessions = w.sessions.erase sid) := by
  simp only [handleEnd, hid, bind, Except.bind, pure, Except.pure] at h
  cases hl : w.sessions.lookup sid with
  | none =>
      simp only [hl, Except.ok.injEq] at h
      subst h
      exact .inl ⟨rfl, rfl, rfl⟩
  | some held =>
      simp only [hl] at h
      rcases ha : endAudio host w sid input held with ⟨w₁, st, converted⟩
      obtain ⟨hsame, hsess, hlane⟩ := endAudio_cases ha
      have hrm : SameLanes w ((w₁.removeFile held.melPathOwned).removeFile st.melPathOwned) :=
        ⟨by simp [hsame.laneOf], by simp [hsame.laneMgr]⟩
      have hheld : ((w₁.removeFile held.melPathOwned).removeFile st.melPathOwned).laneOf sid
          = some st.laneId := by
        rw [hrm.laneOf, hlane]
        simp [Worker.laneOf, hl]
      have hdrop := Worker.dropSession_givesBack hheld
      refine .inr ⟨held, rfl, ?_⟩
      simp only [ha] at h
      split at h
      · cases h
        exact ⟨(hrm.givesBack.trans hdrop).trans (Worker.emit_givesBack _ _),
          by simp [Worker.dropSession, hsess]⟩
      · split at h
        · cases h
        · cases h
          exact ⟨(hrm.givesBack.trans hdrop).trans (Worker.emit_givesBack _ _),
            by simp [Worker.dropSession, hsess]⟩

/-- A decode of the audio so far changes no lane. -/
theorem decodePartial_sameLanes {st : SessionState} {held : SessionState}
    (hl : w.sessions.lookup sid = some held) (hs : st.laneId = held.laneId)
    (h : decodePartial host w sid st = .ok w') : SameLanes w w' := by
  simp only [decodePartial, bind, Except.bind, pure, Except.pure] at h
  split at h
  · split at h
    · cases h
      refine ⟨?_, rfl⟩
      rw [Worker.emit_laneOf]
      exact Worker.setSession_laneOf_same hl hs
    · cases h
      exact ⟨rfl, rfl⟩
  · split at h
    · cases h
    · cases h
      exact ⟨rfl, rfl⟩

/-- Storing the audio of a chunk changes no lane. -/
theorem storeAudio_sameLanes {held : SessionState} (input : Json) (now : Int)
    (hl : w.sessions.lookup sid = some held) :
    SameLanes w (w.setSession sid (recordAudio input { held with lastActivity := now })) :=
  ⟨Worker.setSession_laneOf_same hl (by simp), rfl⟩

/-- `last:true` hands over to `end` with the audio of the chunk stored. -/
theorem handleChunk_last {held : SessionState} (hid : input.valueStr "id" "" = .ok sid)
    (hl : w.sessions.lookup sid = some held) (hlast : input.valueBool "last" false = .ok true)
    (h : handleChunk host w input = .ok w') :
    GivesBack w w' ∧ w'.sessions = w.sessions.erase sid := by
  simp only [handleChunk, hid, hl, hlast, bind, Except.bind, pure, Except.pure, if_true] at h
  have hstore := storeAudio_sameLanes input host.now hl
  rcases handleEnd_cases hid h with ⟨hnone, -⟩ | ⟨-, -, hg, hsess⟩
  · rw [Worker.setSession, AList.lookup_insert] at hnone
    cases hnone
  · exact ⟨hstore.givesBack.trans hg, hsess.trans Table.erase_insert⟩

/-- A chunk that is not the last one keeps every lane. -/
theorem handleChunk_kept {held : SessionState} (hid : input.valueStr "id" "" = .ok sid)
    (hl : w.sessions.lookup sid = some held) (hlast : input.valueBool "last" false = .ok false)
    (h : handleChunk host w input = .ok w') : SameLanes w w' := by
  simp only [handleChunk, hid, hl, hlast, bind, Except.bind, pure, Except.pure,
    Bool.false_eq_true, if_false] at h
  have hstore := storeAudio_sameLanes input host.now hl
  generalize recordAudio input { held with lastActivity := host.now } = st at h hstore
  have hl₁ : (w.setSession sid st).sessions.lookup sid = some st := AList.lookup_insert _
  have compose {w₂ : Worker} (h₂ : SameLanes (w.setSession sid st) w₂) : SameLanes w w₂ :=
    ⟨h₂.laneOf.trans hstore.laneOf, h₂.laneMgr.trans hstore.laneMgr⟩
  split at h
  · split at h
    · cases h
      exact compose ⟨rfl, rfl⟩
    · exact compose (decodePartial_sameLanes hl₁ rfl h)
  · split at h
    · cases h
      exact compose ⟨rfl, rfl⟩
    · split at h
      · rename_i w₁ st₁ hc
        obtain ⟨hcs, hsess, hcl⟩ := convertPcm_cases hc
        have hl₂ : w₁.sessions.lookup sid = some st := hsess ▸ hl₁
        have hset := Worker.setSession_laneOf_same hl₂ (hcl _ rfl)
        have hdec := decodePartial_sameLanes (AList.lookup_insert _) rfl h
        exact compose ⟨hdec.laneOf.trans (hset.trans hcs.laneOf),
          hdec.laneMgr.trans hcs.laneMgr⟩
      · rename_i hc
        cases h
        obtain ⟨hcs, -, -⟩ := convertPcm_cases hc
        exact compose ⟨hcs.laneOf, hcs.laneMgr⟩

/-- What `chunk` does: hand over to `end` on the `last:true` of a known session,
or keep every lane. -/
theorem handleChunk_cases (hid : input.valueStr "id" "" = .ok sid)
    (h : handleChunk host w input = .ok w') : SameLanes w w' ∨ GivesBack w w' := by
  cases hl : w.sessions.lookup sid with
  | none =>
      simp only [handleChunk, hid, hl, bind, Except.bind, pure, Except.pure, Except.ok.injEq] at h
      subst h
      exact .inl ⟨rfl, rfl⟩
  | some held =>
      cases hlast : input.valueBool "last" false with
      | error e => simp [handleChunk, hid, hl, hlast, bind, Except.bind] at h
      | ok isLast =>
          cases isLast with
          | true => exact .inr (handleChunk_last hid hl hlast h).1
          | false => exact .inl (handleChunk_kept hid hl hlast h)

end Handlers

section Sweep
variable {w : Worker}

/-- Reaping a session under its own lane gives back that lane. -/
theorem reap_givesBack {sid : String} {lane : Int} (h : w.laneOf sid = some lane) :
    GivesBack w (reap w (sid, lane)) := by
  simp only [reap]
  split
  · rename_i st hst
    have hrm : GivesBack w (w.removeFile st.melPathOwned) := SameLanes.givesBack ⟨by simp, by simp⟩
    have hdrop := Worker.dropSession_givesBack (w := w.removeFile st.melPathOwned) (by simpa using h)
    exact (hrm.trans hdrop).trans (Worker.emit_givesBack _ _)
  · exact (Worker.dropSession_givesBack h).trans (Worker.emit_givesBack _ _)

theorem reap_laneOf_ne {sid other : String} {lane : Int} (h : other ≠ sid) :
    (reap w (sid, lane)).laneOf other = w.laneOf other := by
  simp only [reap]
  split <;> simp [Worker.dropSession_laneOf, Function.update_of_ne h]

/-- Reaping a list of distinct sessions, each under its own lane, gives back
exactly their lanes. -/
theorem foldl_reap_givesBack {victims : List (String × Int)}
    (hnd : (victims.map Prod.fst).Nodup)
    (hv : ∀ v ∈ victims, w.laneOf v.1 = some v.2) : GivesBack w (victims.foldl reap w) := by
  induction victims generalizing w with
  | nil => exact GivesBack.refl w
  | cons v rest ih =>
      obtain ⟨sid, lane⟩ := v
      obtain ⟨hnot, hnd'⟩ := List.nodup_cons.mp hnd
      refine (reap_givesBack (hv (sid, lane) List.mem_cons_self)).trans (ih hnd' ?_)
      intro u hu
      have hne : u.1 ≠ sid := fun he => hnot (List.mem_map.mpr ⟨u, hu, he⟩)
      rw [reap_laneOf_ne hne]
      exact hv u (List.mem_cons_of_mem _ hu)

theorem idleSessions_laneOf {now : Int} {v : String × Int} (h : v ∈ idleSessions w now) :
    w.laneOf v.1 = some v.2 := by
  obtain ⟨e, he, hv⟩ := List.mem_filterMap.mp h
  split at hv
  · cases hv
    have hl : w.sessions.lookup e.1 = some e.2 := AList.mem_lookup_iff.mpr he
    simp [Worker.laneOf, hl]
  · cases hv

theorem idleSessions_nodup (w : Worker) (now : Int) :
    ((idleSessions w now).map Prod.fst).Nodup := by
  have hsub : ((idleSessions w now).map Prod.fst).Sublist w.sessions.keys := by
    simp only [idleSessions, AList.keys, List.keys, List.map_filterMap]
    generalize w.sessions.entries = l
    induction l with
    | nil => simp
    | cons e l ih =>
        rw [List.filterMap_cons]
        split
        · exact ih.trans (List.sublist_cons_self _ _)
        · rename_i hs
          split at hs
          · cases hs
            exact ih.cons_cons _
          · cases hs
  exact hsub.nodup w.sessions.keys_nodup

/-- The idle sweep gives back exactly the lanes of the sessions it reaps. -/
theorem sweep_givesBack (w : Worker) (now : Int) : GivesBack w (sweepIdleSessions w now) :=
  foldl_reap_givesBack (idleSessions_nodup w now) fun _ hv => idleSessions_laneOf hv

end Sweep

section Runs
variable {host : Host} {w w' w₀ : Worker}

/-- A handler that returns has read the id of its event. -/
theorem exists_sid {α : Type} {input : Json} {k : String → Except Json.TypeError α} {r : α}
    (h : (input.valueStr "id" "" >>= k) = .ok r) : ∃ sid, input.valueStr "id" "" = .ok sid := by
  cases hid : input.valueStr "id" "" with
  | ok sid => exact ⟨sid, rfl⟩
  | error e =>
      rw [hid] at h
      cases h

/-- What one stdin line does to the lanes. -/
theorem dispatchLine_cases {parsed : Json} (h : dispatchLine host w parsed = .ok w') :
    GivesBack w w' ∨ ∃ sid lane, Admits w w' sid lane := by
  simp only [dispatchLine, bind, Except.bind, pure, Except.pure] at h
  split at h
  · cases h
    exact .inl (SameLanes.givesBack ⟨rfl, rfl⟩)
  split at h
  · cases h
  split at h
  · obtain ⟨sid, hid⟩ := exists_sid h
    rcases handleBegin_cases hid h with ⟨hs, -⟩ | ⟨-, lane, ha⟩
    · exact .inl hs.givesBack
    · exact .inr ⟨sid, lane, ha⟩
  split at h
  · obtain ⟨sid, hid⟩ := exists_sid h
    rcases handleChunk_cases hid h with hs | hg
    · exact .inl hs.givesBack
    · exact .inl hg
  split at h
  · obtain ⟨sid, hid⟩ := exists_sid h
    rcases handleEnd_cases hid h with ⟨-, hs⟩ | ⟨-, -, hg, -⟩
    · exact .inl hs.givesBack
    · exact .inl hg
  split at h
  · cases h
  · cases h
    exact .inl (SameLanes.givesBack ⟨rfl, rfl⟩)

theorem lanesOwned_init {physBatch maxSlots : Int}
    (h : Worker.init physBatch maxSlots = .ok w₀) :
    LanesOwned (max 1 (min maxSlots physBatch)).toNat w₀ := by
  simp only [Worker.init, Except.map] at h
  split at h
  · cases h
  · rename_i hc
    cases h
    exact
      { distinct := fun h₁ => by cases h₁
        range := fun h₁ => by cases h₁
        inUse_iff := fun lane => by
          simp [SessionLaneManager.create_inUse hc, Worker.laneOf]
        asrMax_eq := by
          rw [SessionLaneManager.create_asrMax hc] }

theorem dispatchLine_of_step {host : Host} {parsed : Json}
    (h : (system w₀).step w (.line host parsed) = some w') :
    dispatchLine host w parsed = .ok w' := by
  cases hd : dispatchLine host w parsed with
  | ok v =>
      simp only [system, hd, Except.toOption, Option.some.injEq] at h
      rw [h]
  | error e => simp [system, hd, Except.toOption] at h

/-- Every event of the stdin loop keeps the lanes owned. -/
theorem lanesOwned_step {asrMax : Nat} {l : Label} (ho : LanesOwned asrMax w)
    (h : (system w₀).step w l = some w') : LanesOwned asrMax w' := by
  cases l with
  | sweep now =>
      cases h
      exact ho.givesBack (sweep_givesBack w now)
  | malformed what =>
      cases h
      exact ho.givesBack (Worker.emit_givesBack w _)
  | line host parsed =>
      rcases dispatchLine_cases (dispatchLine_of_step h) with hg | ⟨sid, lane, ha⟩
      · exact ho.givesBack hg
      · exact ho.admits ha

/-- Every reachable state of a started worker owns its lanes. -/
theorem lanesOwned_invariant {physBatch maxSlots : Int}
    (h : Worker.init physBatch maxSlots = .ok w₀) :
    (system w₀).Invariant (LanesOwned (max 1 (min maxSlots physBatch)).toNat) :=
  ⟨lanesOwned_init h, lanesOwned_step⟩

end Runs

/-- Every lane of the ASR partition is allocated. -/
def Saturated (w : Worker) : Prop :=
  ∀ lane, lane < w.laneMgr.asrMax → w.laneMgr.laneInUse lane = true

/-- A `begin` without a free lane changes nothing, and a repeated `begin` takes
no further session or lane. -/
structure BeginBounded (w w' : Worker) (sid : String) : Prop where
  saturated : Saturated w → w.sessions.lookup sid = none →
    w'.sessions = w.sessions ∧ w'.laneMgr = w.laneMgr
  repeated : (w.sessions.lookup sid).isSome = true →
    w'.sessions.size ≤ w.sessions.size ∧ w'.laneMgr.inUseCount ≤ w.laneMgr.inUseCount

theorem handleBegin_bounded {host : Host} {w w' : Worker} {input : Json} {sid : String}
    (hid : input.valueStr "id" "" = .ok sid) (h : handleBegin host w input = .ok w') :
    BeginBounded w w' sid := by
  rcases handleBegin_cases hid h with ⟨hsame, hsize, hsess⟩ | ⟨hnone, lane, ha⟩
  · exact ⟨fun _ hl => ⟨hsess hl, hsame.laneMgr⟩, fun _ => ⟨hsize.le, by rw [hsame.laneMgr]⟩⟩
  · refine ⟨fun hsat _ => ?_, fun hsome => ?_⟩
    · have huse := hsat lane ha.lane_lt
      rw [ha.free] at huse
      cases huse
    · rw [hnone] at hsome
      cases hsome

/-- In every reachable state of the worker the sessions own their lanes, and
from there `begin` is bounded and `end`, `last:true` and the sweep give back
exactly the lanes of the sessions they remove. -/
theorem asr_lanes_owned {physBatch maxSlots : Int} {w₀ w : Worker}
    (hinit : Worker.init physBatch maxSlots = .ok w₀) (hr : (system w₀).Reachable w) :
    LanesOwned (max 1 (min maxSlots physBatch)).toNat w ∧
    (∀ {host input sid w'}, input.valueStr "id" "" = .ok sid →
      handleBegin host w input = .ok w' → BeginBounded w w' sid) ∧
    (∀ {host input sid held w'}, input.valueStr "id" "" = .ok sid →
      w.sessions.lookup sid = some held → handleEnd host w input = .ok w' →
      w'.sessions = w.sessions.erase sid ∧ GivesBack w w') ∧
    (∀ {host input sid held w'}, input.valueStr "id" "" = .ok sid →
      input.valueBool "last" false = .ok true →
      w.sessions.lookup sid = some held → handleChunk host w input = .ok w' →
      w'.sessions = w.sessions.erase sid ∧ GivesBack w w') ∧
    ∀ now, GivesBack w (sweepIdleSessions w now) := by
  refine ⟨(lanesOwned_invariant hinit).of_reachable hr, handleBegin_bounded, ?_, ?_,
    sweep_givesBack w⟩
  · intro host input sid held w' hid hl h
    rcases handleEnd_cases hid h with ⟨hnone, -⟩ | ⟨-, -, hg, hsess⟩
    · rw [hl] at hnone
      cases hnone
    · exact ⟨hsess, hg⟩
  · intro host input sid held w' hid hlast hl h
    exact (handleChunk_last hid hl hlast h).symm

/-- A host on which nothing is converted and every decode fails. -/
def idleHost : Host where
  now := 0
  sidToOwnerId _ := 0
  pcmInputSupported := false
  pcmB64ToMelSafetensors _ _ := .error "no mel assets"
  runOneShotCore _ := .obj [("ok", .bool false)]
  streamPrefix := false
  finalOneShot := false
  computePrefix _ _ := ""
  runPrefixHop _ _ _ _ := {}

/-- The `begin` line of a session. -/
def beginLine (sid : String) : Label :=
  .line idleHost (.obj [("event", .str "begin"), ("id", .str sid)])

theorem asr_lanes_owned_after_begins : ∃ w₀ w, Worker.init 2 2 = .ok w₀ ∧
    (system w₀).Reachable w ∧ w.sessions.size = 2 ∧ LanesOwned 2 w := by
  obtain ⟨w₀, w, hinit, hr, hsize⟩ : ∃ w₀ w, Worker.init 2 2 = .ok w₀ ∧
      (system w₀).Reachable w ∧ w.sessions.size = 2 :=
    ⟨_, _, rfl, reachable_of_run [beginLine "a", beginLine "b", beginLine "c"] rfl, rfl⟩
  exact ⟨w₀, w, hinit, hr, hsize, (asr_lanes_owned hinit hr).1⟩

end JetsonVoice.Asr
