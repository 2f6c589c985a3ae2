import JetsonVoice.Asr.Transcript
import JetsonVoice.Runtime.Peek
import Mathlib.Algebra.GroupWithZero.Nat

/-!
# The multi-hop delta stream

`runDelta` splits an utterance into hops of audio and appends one token slice
for each: a placeholder for every audio token of the hop, behind the prompt
prefix on the first hop and before the suffix on the last. A hop of a single
audio token that is not the last is buffered: its placeholder moves to the next
slice. The audio bound to that slice is still only the next hop's, and a prefix
that was due with the buffered hop is not appended later.

## Implementation notes

A mel slice is named by its path, and its audio tokens are what the encoder
reports for it. The per-hop metrics and timings of the response are left out.
-/

namespace JetsonVoice.Runtime

open Asr

def kImStart : Int := 151644
def kUser : Int := 872
def kNl : Int := 198
def kAudioStart : Int := 151669
def kAudioPad : Int := 151676
def kAudioEnd : Int := 151670
def kImEnd : Int := 151645
def kAssistant : Int := 77091
def kMaxAudioTokensPerChunk : Int := 2048

/-- What the first slice opens with. -/
def promptOpen : List Int := [kImStart, kUser, kNl, kAudioStart]

/-- What the last slice ends with, and what a peek appends. -/
def suffix : List Int := [kAudioEnd, kImEnd, kNl, kImStart, kAssistant, kNl]

/-- One append: its tokens, the mel bound to it, and whether it is final. -/
structure Slice where
  tokens : List Int
  mel : String
  isFinal : Bool
  deriving DecidableEq, Repr

/-- The token slice of a hop. -/
def hopSlice (isFirst isFinal : Bool) (padCount : Nat) : List Int :=
  (if isFirst then promptOpen else []) ++ List.replicate padCount kAudioPad ++
    (if isFinal then suffix else [])

/-- The appends made, the partials emitted, the error that ended the hops early,
and the session then. -/
structure DeltaHops where
  appends : List Slice := []
  partials : List (Nat × String) := []
  error : Option String := none
  live : Live

/-- One append in front of the hops that follow. -/
def DeltaHops.after (slice : Slice) (partials : List (Nat × String)) (rest : DeltaHops) :
    DeltaHops :=
  { rest with appends := slice :: rest.appends, partials := partials ++ rest.partials }

section Run
variable (E : Engine String)

/-- The number of audio tokens of each mel, or the first that cannot be encoded. -/
def probe : List String → Except String (List (String × Nat))
  | [] => .ok []
  | mel :: mels =>
      match E.encodeAudioChunk mel with
      | none => .error ("delta: probe failed for " ++ mel)
      | some n =>
          match probe mels with
          | .error e => .error e
          | .ok hops => .ok ((mel, n) :: hops)

/-- The hop loop: hop index, buffered placeholders, session, hops to come. -/
def hopLoop (maxGenLen : Int) : Nat → Nat → Live → List (String × Nat) → DeltaHops
  | _, _, l, [] => { live := l }
  | i, bufferedPads, l, (mel, nTok) :: hops =>
      let isFinal := hops.isEmpty
      let padCount := nTok + bufferedPads
      if isFinal = false ∧ padCount = 1 then hopLoop maxGenLen (i + 1) padCount l hops
      else
        let slice : Slice := ⟨hopSlice (decide (i = 0)) isFinal padCount, mel, isFinal⟩
        let r := appendChunkImpl E l slice.tokens (some mel) isFinal
        if r.1.accepted = false then
          { appends := [slice]
            error := some ("delta: appendChunk hop " ++ toString i ++ " failed")
            live := endAsrSession r.2 }
        else if isFinal then (hopLoop maxGenLen (i + 1) 0 r.2 hops).after slice []
        else
          let p := peekTranscriptWithSuffix E r.2 suffix maxGenLen
          (hopLoop maxGenLen (i + 1) 0 p.2 hops).after slice
            [(i, stripLangTag p.1.transcript)]

/-- The outcome of `runDelta`. -/
structure DeltaRun where
  appends : List Slice := []
  partials : List (Nat × String) := []
  response : Except String String
  cache : KvCache

/-- The final decode of a stream whose hops are all appended. -/
def finishDelta (l : Live) : Except String String × Live :=
  if l.session.status ≠ .kFinished then
    (.error "delta: not finished after final hop", endAsrSession l)
  else
    let r := decodeToTranscript E l
    if r.1 then (.ok r.2.session.transcript, endAsrSession r.2)
    else (.error "delta: final decodeToTranscript failed", endAsrSession r.2)

/-- `runDelta` on lane 0 of a cache; `allocated` is whether the probe buffer is. -/
def runDelta (c : KvCache) (allocated : Bool) (calls : BeginCalls) (deltaMels : List String)
    (maxGenLen : Int) : DeltaRun :=
  if allocated = false then
    { response := .error "delta: allocateChunkAudioEmbedding failed", cache := c }
  else match probe E deltaMels with
    | .error e => { response := .error e, cache := c }
    | .ok hops =>
        let maxPositions : Int := ((hops.map (·.2)).sum : Nat) + 64
        let b := beginAsrSession ⟨{ lane := 0 }, c⟩ calls [] maxPositions
          kMaxAudioTokensPerChunk maxGenLen
        if b.1 = false then
          { response := .error "delta: beginAsrSession failed", cache := b.2.cache }
        else
          let h := hopLoop E maxGenLen 0 0 b.2 hops
          match h.error with
          | some e => ⟨h.appends, h.partials, .error e, h.live.cache⟩
          | none =>
              let f := finishDelta E h.live
              ⟨h.appends, h.partials, f.1, f.2.cache⟩

end Run

/-- The slices of a stream whose appends are all accepted. -/
def deltaSlices : Bool → Nat → List (String × Nat) → List Slice
  | _, _, [] => []
  | isFirst, bufferedPads, (mel, nTok) :: hops =>
      let padCount := nTok + bufferedPads
      if hops.isEmpty = false ∧ padCount = 1 then deltaSlices false padCount hops
      else ⟨hopSlice isFirst hops.isEmpty padCount, mel, hops.isEmpty⟩ ::
        deltaSlices false 0 hops

section Slices

theorem hopSlice_length (isFirst isFinal : Bool) (padCount : Nat) :
    (hopSlice isFirst isFinal padCount).length =
      (if isFirst then 4 else 0) + padCount + (if isFinal then 6 else 0) := by
  cases isFirst <;> cases isFinal <;> simp [hopSlice, promptOpen, suffix] <;> omega

/-- The prompt has no placeholders of its own. -/
theorem hopSlice_count (isFirst isFinal : Bool) (padCount : Nat) :
    (hopSlice isFirst isFinal padCount).count kAudioPad = padCount := by
  have hopen : promptOpen.count kAudioPad = 0 := by decide
  have hsuffix : suffix.count kAudioPad = 0 := by decide
  cases isFirst <;> cases isFinal <;> simp [hopSlice, hopen, hsuffix]

/-- A hop that is not the last is buffered when it has one audio token. -/
theorem deltaSlices_cons_cons (isFirst : Bool) (hop next : String × Nat)
    (hops : List (String × Nat)) :
    deltaSlices isFirst 0 (hop :: next :: hops) =
      if hop.2 = 1 then deltaSlices false 1 (next :: hops)
      else ⟨hopSlice isFirst false hop.2, hop.1, false⟩ :: deltaSlices false 0 (next :: hops) := by
  rw [deltaSlices]
  simp only [List.isEmpty_cons, Nat.add_zero, true_and]
  split
  · rename_i hone
    rw [hone]
  · rfl

theorem deltaSlices_singleton (isFirst : Bool) (hop : String × Nat) :
    deltaSlices isFirst 0 [hop] = [⟨hopSlice isFirst true hop.2, hop.1, true⟩] := by
  simp [deltaSlices]

/-- There is at most one slice for each hop. -/
theorem deltaSlices_length_le (isFirst : Bool) (bufferedPads : Nat)
    (hops : List (String × Nat)) :
    (deltaSlices isFirst bufferedPads hops).length ≤ hops.length := by
  induction hops generalizing isFirst bufferedPads with
  | nil => exact Nat.le_refl 0
  | cons hop hops ih =>
      simp only [deltaSlices]
      split
      · exact Nat.le_trans (ih false _) (Nat.le_succ _)
      · exact Nat.succ_le_succ (ih false 0)

/-- With a slice for each hop, none was buffered. -/
theorem two_le_of_deltaSlices_length {isFirst : Bool} {hops : List (String × Nat)}
    (hpos : ∀ hop ∈ hops, 1 ≤ hop.2)
    (h : (deltaSlices isFirst 0 hops).length = hops.length) :
    ∀ hop ∈ hops.dropLast, 2 ≤ hop.2 := by
  induction hops generalizing isFirst with
  | nil => simp
  | cons hop hops ih =>
      cases hops with
      | nil => simp
      | cons next hops =>
          rw [deltaSlices_cons_cons] at h
          split at h
          · have hle := deltaSlices_length_le false 1 (next :: hops)
            rw [h] at hle
            exact absurd hle (Nat.not_succ_le_self _)
          · rename_i hne
            intro other hother
            rw [List.dropLast_cons_cons] at hother
            rcases List.mem_cons.mp hother with rfl | hrest
            · have hone := hpos other List.mem_cons_self
              omega
            · exact ih (fun x hx => hpos x (List.mem_cons_of_mem _ hx)) (Nat.succ.inj h)
                other hrest

/-- Hops that are long enough each have their slice, and the slices make up the
prompt around one placeholder for each audio token. -/
theorem deltaSlices_whole (isFirst : Bool) {hops : List (String × Nat)} (hne : hops ≠ [])
    (hlong : ∀ hop ∈ hops.dropLast, 2 ≤ hop.2) :
    (deltaSlices isFirst 0 hops).map (fun a => (a.mel, a.tokens.count kAudioPad)) = hops ∧
    (deltaSlices isFirst 0 hops).flatMap (·.tokens) =
      (if isFirst then promptOpen else []) ++
        List.replicate (hops.map (·.2)).sum kAudioPad ++ suffix := by
  induction hops generalizing isFirst with
  | nil => exact absurd rfl hne
  | cons hop hops ih =>
      cases hops with
      | nil =>
          rw [deltaSlices_singleton]
          constructor
          · simp [hopSlice_count]
          · simp [hopSlice]
      | cons next hops =>
          rw [List.dropLast_cons_cons] at hlong
          have htwo : 2 ≤ hop.2 := hlong hop List.mem_cons_self
          obtain ⟨hcount, htokens⟩ := ih false (by simp)
            fun x hx => hlong x (List.mem_cons_of_mem _ hx)
          rw [deltaSlices_cons_cons, if_neg (by omega)]
          constructor
          · rw [List.map_cons, hcount, hopSlice_count]
          · have hsum : ((hop :: next :: hops).map (·.2)).sum =
                hop.2 + ((next :: hops).map (·.2)).sum := List.sum_cons
            rw [List.flatMap_cons, htokens, hsum, List.replicate_add]
            simp only [hopSlice, Bool.false_eq_true, if_false, List.append_nil, List.nil_append,
              List.append_assoc]

end Slices

section Loop
variable {E : Engine String} {maxGenLen : Int}

/-- A peek with a suffix keeps the session. -/
theorem peekTranscriptWithSuffix_session (E : Engine String) (l : Live) (tokens : List Int)
    (maxNewTokens : Int) :
    (peekTranscriptWithSuffix E l tokens maxNewTokens).2.session = l.session := by
  by_cases h : SuffixCommits E l tokens
  · obtain ⟨c₁, he, -⟩ := peekTranscriptWithSuffix_of_commits h maxNewTokens
    rw [he]
  · rw [peekTranscriptWithSuffix_of_not_commits h]

/-- Whatever the engine answers, the appends made are the first ones due. -/
theorem hopLoop_appends_prefix (E : Engine String) (maxGenLen : Int) (i bufferedPads : Nat)
    (l : Live) (hops : List (String × Nat)) :
    (hopLoop E maxGenLen i bufferedPads l hops).appends <+:
      deltaSlices (decide (i = 0)) bufferedPads hops := by
  induction hops generalizing i bufferedPads l with
  | nil => exact List.nil_prefix
  | cons hop hops ih =>
      have hlater : decide (i + 1 = 0) = false := by simp
      simp only [hopLoop, deltaSlices]
      split
      · exact hlater ▸ ih (i + 1) _ l
      · split
        · exact List.prefix_append_of_prefix (List.prefix_refl _)
        · split
          · exact List.prefix_cons_inj _ |>.mpr (hlater ▸ ih (i + 1) 0 _)
          · exact List.prefix_cons_inj _ |>.mpr (hlater ▸ ih (i + 1) 0 _)

/-- A session that has the positions for what is still to be appended. -/
structure Streams (l : Live) (isFirst : Bool) (pads : Nat) : Prop where
  active : l.session.status = .kActive
  tail : l.session.pendingTextTail = []
  room : ((l.session.appendedTokens + (if isFirst then 4 else 0) + pads + 6 : Nat) : Int) ≤
    l.session.maxPositions

/-- Every prefill of an audio slice performs. -/
def Prefills (E : Engine String) : Prop :=
  ∀ view step mel isFinal, (E.appendPrefillChunk view step (some mel) isFinal).isPerformed = true

/-- A slice that is not a single token is accepted, and the session goes on with
the positions that are left. -/
theorem Streams.append {l : Live} {isFirst isFinal : Bool} {pads rest : Nat} {mel : String}
    (h : Streams l isFirst (pads + rest)) (hE : Prefills E)
    (hmel : (E.encodeAudioChunk mel).isSome = true) (hlong : isFinal = true ∨ 2 ≤ pads) :
    (appendChunkImpl E l (hopSlice isFirst isFinal pads) (some mel) isFinal).1.accepted = true ∧
    (isFinal = false → Streams
      (appendChunkImpl E l (hopSlice isFirst isFinal pads) (some mel) isFinal).2 false rest) := by
  have hlen := hopSlice_length isFirst isFinal pads
  have htwo : 2 ≤ (hopSlice isFirst isFinal pads).length := by
    rw [hlen]
    rcases hlong with rfl | hlong
    · rw [if_pos rfl]
      omega
    · omega
  have hstep : l.session.stepTokens (hopSlice isFirst isFinal pads) false isFinal =
      hopSlice isFirst isFinal pads := by
    rw [l.session.stepTokens_of_not_defer (l.session.deferTail_eq_false (.inr rfl)), h.tail,
      List.nil_append]
  have hadm : Admits E l (hopSlice isFirst isFinal pads) (some mel) isFinal := by
    constructor
    · exact h.active
    · intro hnil
      rw [hnil] at htwo
      exact absurd htwo (by decide)
    · have hne : ¬ (hopSlice isFirst isFinal pads).length = 1 := by omega
      simp [Option.isNone_some, hstep, Session.refusesStep, hne]
    · rw [Option.isNone_some, hstep]
      rintro ⟨-, hover⟩
      have hroom := h.room
      rw [hlen] at hover
      cases isFirst <;> cases isFinal <;> simp at hover hroom <;> omega
    · simpa [encodes] using hmel
  rw [appendChunkImpl_of_admits hadm]
  have hperf := hE l.cache.view (hopSlice isFirst isFinal pads) mel isFinal
  cases hr : E.appendPrefillChunk l.cache.view (hopSlice isFirst isFinal pads) (some mel)
      isFinal with
  | refused => rw [hr] at hperf; cases hperf
  | failedAfterCommit => rw [hr] at hperf; cases hperf
  | performed token =>
      simp only [Option.isNone_some, hstep, runStep, hr, true_and]
      rintro rfl
      have hroom := h.room
      have htail : l.session.nextPendingTail (hopSlice isFirst false pads) false false = [] :=
        l.session.nextPendingTail_of_not_defer (l.session.deferTail_eq_false (.inr rfl))
      refine ⟨h.active, htail, ?_⟩
      simp only [Session.accept, hlen]
      cases isFirst <;> simp at hroom ⊢ <;> omega

/-- When every audio prefill performs, the appends made are the ones due. -/
theorem hopLoop_appends (maxGenLen : Int) {l : Live} {i bufferedPads : Nat}
    {hops : List (String × Nat)} (hE : Prefills E)
    (hmel : ∀ hop ∈ hops, E.encodeAudioChunk hop.1 = some hop.2)
    (hpos : ∀ hop ∈ hops, 1 ≤ hop.2)
    (h : Streams l (decide (i = 0)) (bufferedPads + (hops.map (·.2)).sum)) :
    (hopLoop E maxGenLen i bufferedPads l hops).appends =
      deltaSlices (decide (i = 0)) bufferedPads hops := by
  induction hops generalizing i bufferedPads l with
  | nil => rfl
  | cons hop hops ih =>
      obtain ⟨hmel₀, hmel⟩ := List.forall_mem_cons.mp hmel
      obtain ⟨hpos₀, hpos⟩ := List.forall_mem_cons.mp hpos
      have hlater : decide (i + 1 = 0) = false := by simp
      simp only [List.map_cons, List.sum_cons, ← Nat.add_assoc] at h
      simp only [hopLoop, deltaSlices]
      split
      · rw [ih hmel hpos, hlater]
        refine ⟨h.active, h.tail, Int.le_trans (Int.ofNat_le.mpr ?_) h.room⟩
        simp only [hlater, Bool.false_eq_true, if_false]
        omega
      · rename_i hlong
        have hslice : hops.isEmpty = true ∨ 2 ≤ hop.2 + bufferedPads := by
          cases he : hops.isEmpty with
          | true => exact .inl rfl
          | false =>
              have hne : ¬ (hop.2 + bufferedPads = 1) := fun hone => hlong ⟨he, hone⟩
              exact .inr (by omega)
        rw [Nat.add_comm bufferedPads hop.2] at h
        obtain ⟨hacc, hnext⟩ := h.append hE (by rw [hmel₀]; rfl) hslice
        simp only [hacc, Bool.true_eq_false, if_false]
        cases he : hops.isEmpty with
        | true =>
            obtain rfl : hops = [] := List.isEmpty_iff.mp he
            rfl
        | false =>
            rw [he] at hnext
            have hs := hnext rfl
            simp only [Bool.false_eq_true, if_false, DeltaHops.after]
            rw [ih hmel hpos, hlater]
            have hsess := peekTranscriptWithSuffix_session E (appendChunkImpl E l
              (hopSlice (decide (i = 0)) false (hop.2 + bufferedPads)) (some hop.1) false).2
              suffix maxGenLen
            rw [Nat.zero_add, hlater]
            exact ⟨hsess ▸ hs.active, hsess ▸ hs.tail, hsess ▸ hs.room⟩

end Loop

/-- The audio embeddings the encoder makes of a mel. -/
def audioTokens (E : Engine String) (mel : String) : Nat := (E.encodeAudioChunk mel).getD 0

/-- The hops with their audio tokens. -/
def hopCounts (E : Engine String) (deltaMels : List String) : List (String × Nat) :=
  deltaMels.map fun mel => (mel, audioTokens E mel)

theorem hopCounts_fst (E : Engine String) (deltaMels : List String) :
    (hopCounts E deltaMels).map (·.1) = deltaMels := by
  rw [hopCounts, List.map_map]
  exact List.map_id deltaMels

theorem hopCounts_snd (E : Engine String) (deltaMels : List String) :
    (hopCounts E deltaMels).map (·.2) = deltaMels.map (audioTokens E) := by
  rw [hopCounts, List.map_map]
  rfl

theorem forall_hopCounts {E : Engine String} {deltaMels : List String} {p : String × Nat → Prop} :
    (∀ hop ∈ hopCounts E deltaMels, p hop) ↔ ∀ mel ∈ deltaMels, p (mel, audioTokens E mel) :=
  List.forall_mem_map

theorem hopCounts_dropLast (E : Engine String) (deltaMels : List String) :
    (hopCounts E deltaMels).dropLast = hopCounts E deltaMels.dropLast :=
  List.map_dropLast.symm

/-- The appends carry the prompt around one placeholder for each audio token of
all hops, each append the placeholders of the mel bound to it, and every hop's
mel is bound once, in order. -/
structure FeedsHistory (E : Engine String) (deltaMels : List String) (appends : List Slice) :
    Prop where
  whole : appends.flatMap (·.tokens) =
    promptOpen ++ List.replicate (deltaMels.map (audioTokens E)).sum kAudioPad ++ suffix
  bound : ∀ a ∈ appends, a.tokens.count kAudioPad = audioTokens E a.mel
  kept : appends.map (·.mel) = deltaMels

/-- A stream on an engine that works: hops with audio, and no call that fails. -/
structure DeltaWorks (E : Engine String) (c : KvCache) (calls : BeginCalls)
    (deltaMels : List String) (maxGenLen : Int) : Prop where
  hops : deltaMels ≠ []
  encodes : ∀ mel ∈ deltaMels, (E.encodeAudioChunk mel).isSome = true
  audio : ∀ mel ∈ deltaMels, 1 ≤ audioTokens E mel
  prefills : Prefills E
  begins : calls.setUp = true ∧ calls.mrope = true ∧ calls.scratch = true
  rows : 0 < c.maxBatch
  generates : 0 < maxGenLen

section Delta
variable {E : Engine String} {c : KvCache} {calls : BeginCalls} {deltaMels : List String}
  {maxGenLen : Int}

theorem encodeAudioChunk_eq {mel : String} (h : (E.encodeAudioChunk mel).isSome = true) :
    E.encodeAudioChunk mel = some (audioTokens E mel) := by
  obtain ⟨n, hn⟩ := Option.isSome_iff_exists.mp h
  simp [audioTokens, hn]

theorem probe_eq (h : ∀ mel ∈ deltaMels, (E.encodeAudioChunk mel).isSome = true) :
    probe E deltaMels = .ok (hopCounts E deltaMels) := by
  induction deltaMels with
  | nil => rfl
  | cons mel mels ih =>
      obtain ⟨hmel, hmels⟩ := List.forall_mem_cons.mp h
      simp [probe, encodeAudioChunk_eq hmel, ih hmels, hopCounts]

/-- A session that begins has the positions it was begun for. -/
theorem beginAsrSession_streams (pads : Nat) (hrows : 0 < c.maxBatch) (hgen : 0 < maxGenLen)
    (hcalls : calls.setUp = true ∧ calls.mrope = true ∧ calls.scratch = true) :
    ∃ l, beginAsrSession ⟨{ lane := 0 }, c⟩ calls [] ((pads : Nat) + 64)
      kMaxAudioTokensPerChunk maxGenLen = (true, l) ∧ Streams l true pads := by
  obtain ⟨hset, hmrope, hscratch⟩ := hcalls
  have hrow : ¬ c.maxBatch ≤ 0 := by omega
  have hpos : ¬ maxGenLen ≤ 0 := by omega
  refine ⟨_, by simp only [beginAsrSession, ne_eq, not_true_eq_false, if_false, hrow, dite_false,
    hpos, hset, hmrope, hscratch, Bool.true_eq_false, and_false]; rfl, rfl, rfl, ?_⟩
  simp only [if_true]
  omega

/-- The appends of a stream on an engine that works. -/
theorem runDelta_appends (h : DeltaWorks E c calls deltaMels maxGenLen) :
    (runDelta E c true calls deltaMels maxGenLen).appends =
      deltaSlices true 0 (hopCounts E deltaMels) := by
  obtain ⟨l, hl, hs⟩ := beginAsrSession_streams ((hopCounts E deltaMels).map (·.2)).sum
    h.rows h.generates h.begins
  have hloop : (hopLoop E maxGenLen 0 0 l (hopCounts E deltaMels)).appends =
      deltaSlices true 0 (hopCounts E deltaMels) := by
    apply hopLoop_appends maxGenLen h.prefills
    · exact forall_hopCounts.mpr fun mel hm => encodeAudioChunk_eq (h.encodes mel hm)
    · exact forall_hopCounts.mpr h.audio
    · rw [Nat.zero_add]
      exact hs
  simp only [runDelta, Bool.true_eq_false, if_false, probe_eq h.encodes, hl]
  split <;> exact hloop

/-- The stream feeds the whole hop history exactly when no hop but the last has
a single audio token. -/
theorem runDelta_feeds_history_iff (h : DeltaWorks E c calls deltaMels maxGenLen) :
    FeedsHistory E deltaMels (runDelta E c true calls deltaMels maxGenLen).appends ↔
      ∀ mel ∈ deltaMels.dropLast, 2 ≤ audioTokens E mel := by
  rw [runDelta_appends h]
  constructor
  · intro hfeeds
    -- A mel for each hop means a slice for each hop.
    have hlen : (deltaSlices true 0 (hopCounts E deltaMels)).length =
        (hopCounts E deltaMels).length := by
      have hkept := congrArg List.length hfeeds.kept
      rw [List.length_map] at hkept
      rw [hkept, hopCounts, List.length_map]
    have htwo := two_le_of_deltaSlices_length (forall_hopCounts.mpr h.audio) hlen
    rw [hopCounts_dropLast] at htwo
    exact forall_hopCounts.mp htwo
  · intro hlong
    have hne : hopCounts E deltaMels ≠ [] := by
      intro hnil
      exact h.hops (List.map_eq_nil_iff.mp hnil)
    obtain ⟨hpairs, htokens⟩ := deltaSlices_whole true hne
      (hopCounts_dropLast E deltaMels ▸ forall_hopCounts.mpr hlong)
    rw [hopCounts_snd] at htokens
    refine ⟨htokens, fun a ha => ?_, ?_⟩
    · have hmem : (a.mel, a.tokens.count kAudioPad) ∈ hopCounts E deltaMels :=
        hpairs ▸ List.mem_map.mpr ⟨a, ha, rfl⟩
      obtain ⟨mel, -, he⟩ := List.mem_map.mp hmem
      obtain ⟨rfl, hcount⟩ := Prod.mk.inj he
      exact hcount.symm
    · calc (deltaSlices true 0 (hopCounts E deltaMels)).map (·.mel)
          = ((deltaSlices true 0 (hopCounts E deltaMels)).map
              fun a => (a.mel, a.tokens.count kAudioPad)).map (·.1) := by
            rw [List.map_map]
            rfl
        _ = deltaMels := by rw [hpairs, hopCounts_fst]

/-- An engine that makes one embedding for each character of a mel's name. -/
def namedMelEngine : Engine String where
  encodeAudioChunk mel := some mel.length
  appendPrefillChunk _ _ _ _ := .performed 0
  decodeStep _ _ := .performed 0
  evict _ := true
  eosId := 0
  detokenize _ := ""

theorem namedMelEngine_works (deltaMels : List String) (hne : deltaMels ≠ [])
    (haudio : ∀ mel ∈ deltaMels, 1 ≤ mel.length) :
    DeltaWorks namedMelEngine { maxBatch := 1 } {} deltaMels 256 where
  hops := hne
  encodes _ _ := rfl
  audio := haudio
  prefills _ _ _ _ := rfl
  begins := ⟨rfl, rfl, rfl⟩
  rows := by decide
  generates := by decide

theorem runDelta_feeds_history_iff_two_hops :
    FeedsHistory namedMelEngine ["aa", "b"]
        (runDelta namedMelEngine { maxBatch := 1 } true {} ["aa", "b"] 256).appends ↔
      ∀ mel ∈ ["aa", "b"].dropLast, 2 ≤ audioTokens namedMelEngine mel :=
  runDelta_feeds_history_iff (namedMelEngine_works _ (by decide) (by decide))

/-- A first hop of one audio token: its mel is never bound, its placeholder is
bound to the next hop's mel, and the prefix is not appended. -/
theorem single_token_hop_dropped :
    ¬ ∀ (E : Engine String) (c : KvCache) (calls : BeginCalls) (deltaMels : List String)
      (maxGenLen : Int), DeltaWorks E c calls deltaMels maxGenLen →
        FeedsHistory E deltaMels (runDelta E c true calls deltaMels maxGenLen).appends := by
  intro h
  have hworks := namedMelEngine_works ["a", "bbb"] (by decide) (by decide)
  have hfeeds := h _ _ _ _ _ hworks
  rw [runDelta_appends hworks] at hfeeds
  exact absurd hfeeds.bound (by decide)

end Delta

end JetsonVoice.Runtime
