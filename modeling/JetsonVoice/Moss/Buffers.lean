import JetsonVoice.Moss.FrameLoop

/-!
# The buffers a MOSS request touches

Every buffer of a slot has room for `maxSeqLen` rows. `decodeStep` checks the
length the engine reported last against that, but the attention mask it copies
is as long as the prompt and all frames so far, and the budget of the frames is
taken from the profile of the engine, not from the buffers.
-/

namespace JetsonVoice.Moss

open Foundation Protocol

/-- The buffer has the rows, and the decode engine's profile allows the past. -/
def Access.InBounds (d : RuntimeDims) : Access → Prop
  | .inputIds rows | .attentionMask rows => rows ≤ d.maxSeqLen
  | .pastValidLengths => True
  | .pastKey rows => 0 ≤ rows ∧ rows ≤ d.maxSeqLen ∧ rows ≤ d.profileMaxPast
  | .present rows => 0 ≤ rows ∧ rows ≤ d.maxSeqLen
  | .layerKv layer _ rows => layer < kGlobalLayers ∧ 0 ≤ rows ∧ rows ≤ d.maxSeqLen

/-- Every buffer the entry is about has the rows it touches. -/
def Entry.InBounds {α : Type} (d : RuntimeDims) : Entry α → Prop
  | .access a => a.InBounds d
  | _ => True

/-- The `present_*` outputs fit the scratch they are bound to. -/
structure EngineFits (d : RuntimeDims) (a : RequestAnswer) : Prop where
  prefill : ∀ r, a.prefill.present = some r → 0 ≤ r ∧ r ≤ d.maxSeqLen
  decode : ∀ i r, (a.frame i).decode.present = some r → 0 ≤ r ∧ r ≤ d.maxSeqLen

/-- The prefill refuses the prompt, or all frames but the last one fit the
buffers behind it. -/
def FramesFit (d : RuntimeDims) (rows frames : Nat) : Prop :=
  d.numVq ≠ 16 ∨ d.maxSeqLen < rows ∨ frames ≤ 1 ∨ rows + frames ≤ d.maxSeqLen + 1

section Steps
variable {σ α : Type} {d : RuntimeDims} {slot slot' : MossTtsNanoSlot} {a : StepAnswer}

/-- Calls that all stay in bounds do so up to the one that throws. -/
theorem issue_all {fault : Option (Nat × String)} {k : Nat}
    {calls : List (List Access)} (h : ∀ x ∈ calls.flatten, x.InBounds d) :
    (issue fault k calls : Logged (Entry α) String PUnit).All (Entry.InBounds d) := by
  induction calls generalizing k with
  | nil => exact Logged.All.of_nil rfl
  | cons call calls ih =>
      have hcall : (Logged.tells (call.map Entry.access) : Logged (Entry α) String PUnit).All
          (Entry.InBounds d) := by
        intro w hw
        obtain ⟨x, hx, rfl⟩ := List.mem_map.mp hw
        exact h x (List.mem_append_left _ hx)
      have hrest {k : Nat} := ih (k := k) fun x hx => h x (List.mem_append_right _ hx)
      cases fault with
      | none => exact hcall.bind fun _ _ => hrest
      | some f =>
          refine hcall.bind fun _ _ => ?_
          split
          · exact Logged.All.of_nil rfl
          · exact hrest

theorem layerCopies_inBounds {rows : Int} (h₀ : 0 ≤ rows) (h : rows ≤ d.maxSeqLen) :
    ∀ x ∈ (layerCopies rows).flatten, x.InBounds d := by
  intro x hx
  simp only [layerCopies, List.mem_flatten, List.mem_flatMap, List.mem_range, List.mem_cons,
    List.not_mem_nil, or_false] at hx
  obtain ⟨call, ⟨layer, hlayer, rfl | rfl⟩, hx⟩ := hx <;>
    · obtain rfl := List.mem_singleton.mp hx
      exact ⟨hlayer, h₀, h⟩

/-- Without a fault all calls are made. -/
theorem issue_none (k : Nat) (calls : List (List Access)) :
    (issue none k calls : Logged (Entry α) String PUnit) =
      ⟨calls.flatten.map .access, .ok ⟨⟩⟩ := by
  induction calls generalizing k with
  | nil => rfl
  | cons call calls ih =>
      rw [issue, Logged.bind_of_ok (Logged.result_tells _), ih]
      simp

theorem prefill_all {inputIds rows : Nat}
    (hp : ∀ r, a.present = some r → 0 ≤ r ∧ r ≤ d.maxSeqLen) :
    (prefill d inputIds rows slot a : Logged (Entry α) String _).All (Entry.InBounds d) := by
  unfold prefill
  dsimp only
  split
  · exact Logged.All.of_nil rfl
  · split
    · exact Logged.All.of_nil rfl
    · rename_i hlen
      split
      · exact Logged.All.of_nil rfl
      · split
        · exact Logged.All.of_nil rfl
        · have hfits : 0 ≤ a.present.getD ↑(inputIds / 17) ∧
              a.present.getD ↑(inputIds / 17) ≤ (d.maxSeqLen : Int) := by
            cases hr : a.present with
            | none =>
                rw [Option.getD_none]
                omega
            | some r => exact hp r hr
          refine (issue_all fun x hx => ?_).bind fun _ _ => Logged.All.of_nil rfl
          rw [List.flatten_append, List.mem_append] at hx
          cases hx with
          | inl h =>
              simp only [List.flatten_cons, List.flatten_nil, List.append_nil, List.nil_append,
                List.cons_append, List.mem_cons, List.not_mem_nil, or_false] at h
              rcases h with rfl | rfl | rfl | rfl
              · exact Nat.le_of_not_lt fun hlt => hlen (.inr hlt)
              · exact Nat.le_of_not_lt fun hlt => hlen (.inr hlt)
              · trivial
              · exact hfits
          | inr h => exact layerCopies_inBounds hfits.1 hfits.2 x h

/-- A prompt that is prefilled fits, and all of it is past. -/
theorem prefill_ok {rows : Nat}
    (h : (prefill d (rows * (d.numVq + 1)) rows slot a : Logged (Entry α) String _).result
      = .ok slot') : d.numVq = 16 ∧ rows ≤ d.maxSeqLen ∧ slot'.cumulativePastLen = rows := by
  unfold prefill at h
  dsimp only at h
  split at h
  · cases h
  · rename_i hsize
    split at h
    · cases h
    · rename_i hlen
      split at h
      · cases h
      · rename_i hmask
        rw [not_not] at hmask
        split at h
        · cases h
        · obtain ⟨-, -, hret⟩ := Logged.result_bind_ok h
          cases hret
          have hmul : rows * (d.numVq + 1) = rows * 17 := by omega
          have hrows : 0 < rows := by
            rcases Nat.eq_zero_or_pos rows with h0 | h0
            · simp [h0] at hsize
            · exact h0
          have hwidth := Nat.eq_of_mul_eq_mul_left hrows hmul
          exact ⟨by omega, by omega, hmask.symm⟩

theorem decodeStep_all {inputIds : Nat} (hcum : slot.cumulativePastLen + 1 ≤ d.maxSeqLen)
    (hp : ∀ r, a.present = some r → 0 ≤ r ∧ r ≤ d.maxSeqLen) :
    (decodeStep d inputIds slot a : Logged (Entry α) String _).All (Entry.InBounds d) := by
  have hpos := d.maxSeqLen_pos
  have hfits : 0 ≤ a.present.getD 1 ∧ a.present.getD 1 ≤ (d.maxSeqLen : Int) := by
    cases hr : a.present with
    | none =>
        rw [Option.getD_none]
        omega
    | some r => exact hp r hr
  unfold decodeStep
  dsimp only
  split
  · exact Logged.All.of_nil rfl
  · split
    · exact Logged.All.of_nil rfl
    · rename_i hpast
      refine (issue_all fun x hx => ?_).bind fun _ _ => ?_
      · simp only [List.flatten_cons, List.flatten_nil, List.nil_append, List.cons_append,
          List.mem_cons, List.not_mem_nil, or_false] at hx
        rcases hx with rfl | rfl | rfl
        · exact Nat.succ_le_of_lt hpos
        · exact hcum
        · trivial
      · split
        · exact Logged.All.of_nil rfl
        · rename_i hprofile
          refine (issue_all fun x hx => ?_).bind fun _ _ => ?_
          · simp only [List.flatten_cons, List.flatten_nil, List.nil_append, List.cons_append,
              List.mem_cons, List.not_mem_nil, or_false] at hx
            rcases hx with rfl | rfl
            · simp only [Access.InBounds]
              omega
            · exact hfits
          · split
            · exact Logged.All.of_nil rfl
            · exact (issue_all (layerCopies_inBounds hfits.1 hfits.2)).bind fun _ _ =>
                Logged.All.of_nil rfl

/-- A decode step counts one more row of past. -/
theorem decodeStep_ok {inputIds : Nat}
    (h : (decodeStep d inputIds slot a : Logged (Entry α) String _).result = .ok slot') :
    slot'.cumulativePastLen = slot.cumulativePastLen + 1 := by
  unfold decodeStep at h
  dsimp only at h
  split at h
  · cases h
  · split at h
    · cases h
    · obtain ⟨-, -, h⟩ := Logged.result_bind_ok h
      split at h
      · cases h
      · obtain ⟨-, -, h⟩ := Logged.result_bind_ok h
        split at h
        · cases h
        · obtain ⟨-, -, h⟩ := Logged.result_bind_ok h
          cases h
          rfl

end Steps

section Loop
variable {σ α : Type} {d : RuntimeDims} {codec : Codec σ α} {g : Generation} {t0 : Int}

/-- A flush touches no buffer of the decoder. -/
theorem flushBuffer_all {force : Bool} {a : FrameAnswer} {s : Loop σ α} :
    (flushBuffer d codec g t0 force a s).All (Entry.InBounds d) := by
  have hflush := flushBuffer_cases d codec g t0 force a s
  generalize flushBuffer d codec g t0 force a s = r at hflush ⊢
  cases hflush with
  | kept => exact Logged.All.of_nil rfl
  | failed => exact Logged.All.of_nil rfl
  | made =>
      intro w hw
      simp only [List.mem_cons, List.not_mem_nil, or_false] at hw
      rcases hw with rfl | rfl <;> trivial

/-- Every decode step of the loop starts with the rows of the prompt and of the
frames before it as past, and all of them fit. -/
theorem frameLoop_all {a : Nat → FrameAnswer}
    (hp : ∀ i r, (a i).decode.present = some r → 0 ≤ r ∧ r ≤ d.maxSeqLen) {left i : Nat}
    {s : Loop σ α} (h : left ≤ 1 ∨ s.slot.cumulativePastLen + left ≤ d.maxSeqLen + 1) :
    (frameLoop d codec g t0 a left i s).All (Entry.InBounds d) := by
  induction left generalizing i s with
  | zero => exact Logged.All.of_nil rfl
  | succ left ih =>
      unfold frameLoop
      split
      · exact Logged.All.of_nil rfl
      · exact Logged.All.of_nil rfl
      · rename_i codes _
        have hsampled : (Logged.tell (Entry.sampled ((List.range d.numVq).map codes)) :
            Logged (Entry α) String PUnit).All (Entry.InBounds d) := by
          intro w hw
          obtain rfl := List.mem_singleton.mp hw
          trivial
        refine hsampled.bind fun _ _ => flushBuffer_all.bind fun s' hs => ?_
        have hslot := flushBuffer_slot hs
        dsimp only at hslot
        split
        · exact Logged.All.of_nil rfl
        · rw [hslot]
          refine (decodeStep_all (by omega) (hp i)).bind fun slot' hstep => ?_
          have hcum := decodeStep_ok hstep
          exact ih (.inr (by dsimp only; omega))

theorem generateAudio_all {rows : Nat} {a : RequestAnswer} (ha : EngineFits d a)
    (h : FramesFit d rows g.maxNewFrames) :
    (generateAudio d codec g rows a).All (Entry.InBounds d) := by
  refine (prefill_all ha.prefill).bind fun slot hslot => ?_
  obtain ⟨hwidth, hrows, hcum⟩ := prefill_ok hslot
  have hleft : g.maxNewFrames ≤ 1 ∨ slot.cumulativePastLen + g.maxNewFrames ≤ d.maxSeqLen + 1 := by
    rcases h with hw | hlong | hone | hfit
    · exact absurd hwidth hw
    · omega
    · exact .inl hone
    · exact .inr (hcum ▸ hfit)
  refine (frameLoop_all ha.decode hleft).bind fun s _ => flushBuffer_all.bind fun s' _ w hw => ?_
  obtain rfl := List.mem_singleton.mp hw
  trivial

end Loop

section Overrun
variable {α : Type} {d : RuntimeDims}

/-- A codec that makes no sound. -/
def silentCodec : Codec Unit Unit where
  reset := ()
  decodeStep _ _ := ((), 0, fun _ => ())
  pcm16 _ := 0

theorem silentCodec_inRange (d : RuntimeDims) : silentCodec.InRange d :=
  fun _ _ => ⟨Int.le_refl 0, Int.mul_nonneg (Int.natCast_nonneg _) (Int.natCast_nonneg _)⟩

/-- The sampler goes on, and the engine reports a past of one row. -/
def shortPast : FrameAnswer where
  sample := .ok (some fun _ => 0)
  decode := { present := some 1 }

/-- A decode step after a short past copies a mask of all past and its own row. -/
theorem decodeStep_shortPast (hm : 2 ≤ d.maxSeqLen) (hw : d.numVq = 16) (n : Nat) :
    .access (.attentionMask (n + 1)) ∈
      (decodeStep d (d.numVq + 1) ⟨1, n⟩ shortPast.decode : Logged (Entry α) String _).log ∧
    (decodeStep d (d.numVq + 1) ⟨1, n⟩ shortPast.decode : Logged (Entry α) String _).result =
      .ok ⟨1, n + 1⟩ := by
  have hprofile := d.profileMaxPast_pos
  unfold decodeStep
  simp only [hw, shortPast, Option.getD_some, issue_none]
  rw [if_neg (by decide), if_neg (by omega), Logged.bind_of_ok rfl, if_neg (by omega),
    Logged.bind_of_ok rfl, if_neg (by omega), Logged.bind_of_ok rfl]
  exact ⟨by simp, rfl⟩

/-- When the frames do not fit behind the past, one of them copies a mask that is
one row longer than its buffer. -/
theorem frameLoop_overruns {item : Json} {slotId rows : Nat} {g : Generation}
    (hg : readBudgets item slotId rows = .ok g) (hm : 2 ≤ d.maxSeqLen) (hw : d.numVq = 16)
    {left i n : Nat} {s : Loop Unit Unit} (hs : s.Fed d g) (hslot : s.slot = ⟨1, n⟩)
    (hn : n ≤ d.maxSeqLen) (hleft : d.maxSeqLen + 1 < n + left) (t0 : Int) :
    .access (.attentionMask (d.maxSeqLen + 1)) ∈
      (frameLoop d silentCodec g t0 (fun _ => shortPast) left i s).log := by
  induction left generalizing i n s with
  | zero => omega
  | succ left ih =>
      have hpush := hs.push hg fun _ => 0
      let pushed := { s with
        frameBuffer := s.frameBuffer ++ [(List.range d.numVq).map fun _ => 0] }
      obtain ⟨s', hflush⟩ := flushBuffer_succeeds t0 (g := g) (a := shortPast) (s := pushed) rfl
        (silentCodec_inRange d) hpush.1 hpush.2 false
      have hslot' : s'.slot = ⟨1, n⟩ := (flushBuffer_slot hflush).trans hslot
      have hs' := flushBuffer_fed (s := pushed) hg hpush.2 hs.emitted hflush
      obtain ⟨hmem, hstep⟩ := decodeStep_shortPast (α := Unit) hm hw n
      rw [frameLoop_sampled rfl, Logged.bind_of_ok (Logged.result_tell _), Logged.bind_of_ok hflush,
        if_neg (by omega), hslot', Logged.bind_of_ok hstep]
      simp only [List.mem_append]
      right; right
      by_cases hlast : n = d.maxSeqLen
      · exact .inl (hlast ▸ hmem)
      · exact .inr (ih ⟨hs'.size, hs'.width, hs'.emitted⟩ rfl (by omega) (by omega))

theorem prefill_shortPast {rows : Nat} (hw : d.numVq = 16) (hr : 0 < rows)
    (hm : rows ≤ d.maxSeqLen) :
    (prefill d (rows * (d.numVq + 1)) rows {} shortPast.decode : Logged (Entry α) String _).result =
      .ok ⟨1, rows⟩ := by
  have hdiv : rows * 17 / 17 = rows := Nat.mul_div_cancel _ (by decide)
  unfold prefill
  simp only [hw, shortPast, Option.getD_some, issue_none, hdiv]
  rw [if_neg (by omega), if_neg (by omega), if_neg (by simp), if_neg (by simp),
    Logged.bind_of_ok rfl]
  rfl

/-- A request whose sampler goes on and whose engine reports one row of past. -/
def shortPastRequest (encoded : Option Nat) (textTokens : Nat) : RequestAnswer where
  refRows := encoded
  textTokens := textTokens
  prefill := shortPast.decode
  frame _ := shortPast

theorem generateAudio_overruns {item : Json} {slotId rows : Nat} {g : Generation}
    (hg : readBudgets item slotId rows = .ok g) (hr : 2 ≤ rows)
    (h : ¬ FramesFit d rows g.maxNewFrames) (encoded : Option Nat) (textTokens : Nat) :
    .access (.attentionMask (d.maxSeqLen + 1)) ∈
      (generateAudio d silentCodec g rows (shortPastRequest encoded textTokens)).log := by
  simp only [FramesFit, not_or, not_not, Nat.not_lt, Nat.not_le] at h
  obtain ⟨hw, hm, -, hlong⟩ := h
  have hs : ({ slot := ⟨1, rows⟩, codec := () } : Loop Unit Unit).Fed d g :=
    ⟨Int.lt_of_lt_of_le Int.zero_lt_one (Loop.budget_le hg _).1, nofun, rfl⟩
  have hloop := frameLoop_overruns (i := 0) hg (Nat.le_trans hr hm) hw hs rfl hm hlong 0
  unfold generateAudio
  rw [Logged.mem_log_bind]
  right
  refine ⟨⟨1, rows⟩, prefill_shortPast hw (by omega) hm, ?_⟩
  rw [Logged.mem_log_bind]
  exact .inl hloop

end Overrun

section Request
variable {c : Config} {d : RuntimeDims} {item : Json} {slotId textTokens : Nat}
  {encoded : Option Nat} {g : Generation}

theorem handleRequest_all {σ α : Type} {codec : Codec σ α} {a : RequestAnswer}
    (hg : readBudgets item slotId
      (promptRows c (referenceRows c item a.refRows) a.textTokens) = .ok g)
    (ha : EngineFits d a)
    (h : FramesFit d (promptRows c (referenceRows c item a.refRows) a.textTokens)
      g.maxNewFrames) :
    (handleRequest c d codec item slotId a).All (Entry.InBounds d) := by
  have hready : (Logged.tell (Entry.emit .ready) : Logged (Entry α) String PUnit).All
      (Entry.InBounds d) := by
    intro w hw
    obtain rfl := List.mem_singleton.mp hw
    trivial
  refine (Logged.All.of_nil rfl).bind fun _ _ => hready.bind fun _ _ => ?_
  split
  · exact Logged.All.of_nil rfl
  · dsimp only
    rw [hg, Logged.lift_ok_bind]
    exact generateAudio_all ha h

/-- The buffers are never overrun, with any codec and any decode engine whose
outputs fit their scratch, exactly when the prompt is refused or the frames of the
request fit behind it. They do when the buffers are as long as the engine profile
that the budget is taken from. -/
theorem decode_in_bounds_iff (hv : validate item = .ok ())
    (hg : readBudgets item slotId
      (promptRows c (referenceRows c item encoded) textTokens) = .ok g) :
    ((∀ (σ α : Type) (codec : Codec σ α) (a : RequestAnswer), a.refRows = encoded →
        a.textTokens = textTokens → EngineFits d a →
        (handleRequest c d codec item slotId a).All (Entry.InBounds d)) ↔
      FramesFit d (promptRows c (referenceRows c item encoded) textTokens) g.maxNewFrames) ∧
    (511 ≤ d.maxSeqLen →
      FramesFit d (promptRows c (referenceRows c item encoded) textTokens) g.maxNewFrames) := by
  constructor
  · constructor
    · intro hall
      by_contra hfit
      have hrows : 2 ≤ promptRows c (referenceRows c item encoded) textTokens := by
        unfold promptRows
        omega
      have hfits : EngineFits d (shortPastRequest encoded textTokens) := by
        have hpos := d.maxSeqLen_pos
        constructor
        · intro r hr
          cases hr
          omega
        · intro i r hr
          cases hr
          omega
      have hover := generateAudio_overruns hg hrows hfit encoded textTokens
      have hmem : Entry.access (.attentionMask (d.maxSeqLen + 1)) ∈
          (handleRequest c d silentCodec item slotId
            (shortPastRequest encoded textTokens)).log := by
        unfold handleRequest
        rw [hv, Logged.lift_ok_bind, Logged.mem_log_bind]
        refine .inr ⟨⟨⟩, rfl, ?_⟩
        change _ ∈ (Logged.lift (readBudgets item slotId
          (promptRows c (referenceRows c item encoded) textTokens)) >>= _).log
        rw [hg, Logged.lift_ok_bind]
        exact hover
      have hbound := hall Unit Unit silentCodec _ rfl rfl hfits _ hmem
      exact absurd hbound (Nat.not_succ_le_self _)
    · rintro hfit σ α codec a rfl rfl ha
      exact handleRequest_all hg ha hfit
  · intro hm
    have hmax := maxNewFrames_le hg
    unfold FramesFit
    omega

end Request

section Runs

/-- A worker without a default voice and with an empty prompt template. -/
def bareConfig : Config where
  maxSlots := 1
  maxSlots_pos := by decide
  codecSampleRate := 48000
  codecChannels := 2
  encoderSampleRate := 48000
  userPromptPrefix := 0
  userPromptAfterReference := 0
  assistantPromptPrefix := 0
  defaultVoiceRows := 0

/-- Buffers of `maxSeqLen` rows and an engine profile of 512. -/
def dimsOf (maxSeqLen : Nat) (h : 0 < maxSeqLen) : RuntimeDims where
  maxSeqLen := maxSeqLen
  maxSeqLen_pos := h
  numVq := 16
  codecDownsampleRate := 3840
  profileMaxPast := 512
  profileMaxPast_pos := by decide

def threeFrames : Json := .obj [("id", .str "a"), ("text", .str "hi"), ("max_new_frames", .int 3)]

/-- The budgets of `threeFrames` behind a prompt of four rows. -/
def threeFrameBudgets : Generation where
  slot := 0
  firstChunkBudget := 4
  chunkBudget := 8
  maxNewFrames := 3

set_option maxRecDepth 4000 in
theorem decode_in_bounds_iff_three_frames :
    validate threeFrames = .ok () ∧ ¬ FramesFit (dimsOf 5 (by decide)) 4 3 ∧
    (handleRequest bareConfig (dimsOf 6 (by decide)) silentCodec threeFrames 0
      (shortPastRequest none 1)).All (Entry.InBounds (dimsOf 6 (by decide))) := by
  have hfits : EngineFits (dimsOf 6 (by decide)) (shortPastRequest none 1) := by
    constructor
    · intro r hr
      cases hr
      decide
    · intro i r hr
      cases hr
      decide
  have hread : readBudgets threeFrames 0
      (promptRows bareConfig (referenceRows bareConfig threeFrames none) 1) =
        .ok threeFrameBudgets := rfl
  have hiff := decode_in_bounds_iff (d := dimsOf 6 (by decide)) rfl hread
  exact ⟨rfl, by unfold FramesFit; decide,
    hiff.1.mpr (.inr (.inr (.inr (by decide)))) Unit Unit silentCodec _ rfl rfl hfits⟩

/-- An engine with room for seven rows, which reports what is left of them. -/
def shrinkingPast : RequestAnswer where
  textTokens := 1
  prefill := { present := some 3 }
  frame i := { sample := .ok (some fun _ => 0), decode := { present := some (max 0 (2 - i)) } }

set_option maxRecDepth 4000 in
/-- With buffers of five rows, a prompt of four and three frames, the second
decode step copies a mask of six rows. The past it checks is one of two. -/
theorem mask_overruns_buffer :
    EngineFits (dimsOf 5 (by decide)) shrinkingPast ∧
    .access (.attentionMask 6) ∈
      (handleRequest bareConfig (dimsOf 5 (by decide)) silentCodec threeFrames 0
        shrinkingPast).log ∧
    ¬ (Access.attentionMask 6).InBounds (dimsOf 5 (by decide)) := by
  refine ⟨⟨?_, ?_⟩, by decide, Nat.not_succ_le_self 5⟩
  · intro r hr
    cases hr
    decide
  · intro i r hr
    cases hr
    simp only [dimsOf]
    omega

end Runs

end JetsonVoice.Moss
