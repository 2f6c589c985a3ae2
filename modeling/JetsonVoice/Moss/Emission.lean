import JetsonVoice.Moss.Buffers
import Mathlib.Algebra.GroupWithZero.Nat

/-!
# The audio a MOSS request emits

Every sampled frame is in exactly one decoded batch, in order, and the chunks
written are the decoded audio: the loop and the flush behind it share one buffer,
one codec state and one count of emitted samples.
-/

namespace JetsonVoice.Moss

open Foundation Protocol

variable {σ α : Type}

section Log

def sampledFrames (log : List (Entry α)) : List (List Int) :=
  log.filterMap fun | .sampled frame => some frame | _ => none

/-- The frames given to `decodeFrames`, call by call. -/
def decodedBatches (log : List (Entry α)) : List (List (List Int)) :=
  log.filterMap fun | .decoded frames _ => some frames | _ => none

def decoderOutputs (log : List (Entry α)) : List (List α) :=
  log.filterMap fun | .decoded _ pcm => some pcm | _ => none

def emittedLines (log : List (Entry α)) : List Line :=
  log.filterMap fun | .emit line => some line | _ => none

variable {log log' : List (Entry α)}

@[simp] theorem sampledFrames_append :
    sampledFrames (log ++ log') = sampledFrames log ++ sampledFrames log' :=
  List.filterMap_append

@[simp] theorem decodedBatches_append :
    decodedBatches (log ++ log') = decodedBatches log ++ decodedBatches log' :=
  List.filterMap_append

@[simp] theorem decoderOutputs_append :
    decoderOutputs (log ++ log') = decoderOutputs log ++ decoderOutputs log' :=
  List.filterMap_append

@[simp] theorem emittedLines_append :
    emittedLines (log ++ log') = emittedLines log ++ emittedLines log' :=
  List.filterMap_append

@[simp] theorem sampledFrames_nil : sampledFrames ([] : List (Entry α)) = [] := rfl

@[simp] theorem decodedBatches_nil : decodedBatches ([] : List (Entry α)) = [] := rfl

@[simp] theorem decoderOutputs_nil : decoderOutputs ([] : List (Entry α)) = [] := rfl

@[simp] theorem emittedLines_nil : emittedLines ([] : List (Entry α)) = [] := rfl

@[simp] theorem sampledFrames_emit {line : Line} :
    sampledFrames (.emit line :: log) = sampledFrames log := rfl

@[simp] theorem decodedBatches_emit {line : Line} :
    decodedBatches (.emit line :: log) = decodedBatches log := rfl

@[simp] theorem decoderOutputs_emit {line : Line} :
    decoderOutputs (.emit line :: log) = decoderOutputs log := rfl

@[simp] theorem emittedLines_emit {line : Line} :
    emittedLines (.emit line :: log) = line :: emittedLines log := rfl

/-- The entry is about a buffer of the decoder. -/
def Entry.IsAccess (e : Entry α) : Prop := ∃ a, e = .access a

theorem filterMap_access {β : Type} {f : Entry α → Option β} (hf : ∀ a, f (.access a) = none)
    (h : ∀ e ∈ log, e.IsAccess) : log.filterMap f = [] := by
  rw [List.filterMap_eq_nil_iff]
  intro e he
  obtain ⟨a, rfl⟩ := h e he
  exact hf a

end Log

/-- The engine run over one batch after the other. -/
def Codec.run (codec : Codec σ α) : σ → List (List (List Int)) → σ × List (List α)
  | state, [] => (state, [])
  | state, frames :: batches =>
      let (next, pcm) := codec.batch state frames
      let (last, rest) := codec.run next batches
      (last, pcm :: rest)

theorem Codec.run_append (codec : Codec σ α) (state : σ) (bs cs : List (List (List Int))) :
    codec.run state (bs ++ cs) =
      ((codec.run (codec.run state bs).1 cs).1,
        (codec.run state bs).2 ++ (codec.run (codec.run state bs).1 cs).2) := by
  induction bs generalizing state with
  | nil => rfl
  | cons b bs ih => simp only [List.cons_append, Codec.run, ih]

theorem floatToPcm16_append (codec : Codec σ α) (samples new : List α) :
    floatToPcm16 codec (samples ++ new) samples.length = new.map codec.pcm16 := by
  unfold floatToPcm16
  split
  · rename_i h
    rw [List.length_append] at h
    obtain rfl : new = [] := List.eq_nil_of_length_eq_zero (by omega)
    rfl
  · rw [List.drop_left]

/-- How the log leads from one state of the loop's locals to another. -/
structure Emits (codec : Codec σ α) (s : Loop σ α) (log : List (Entry α)) (t : Loop σ α) :
    Prop where
  frames : (decodedBatches log).flatten ++ t.frameBuffer = s.frameBuffer ++ sampledFrames log
  sizes : ∀ b ∈ decodedBatches log, 0 < b.length ∧ b.length ≤ 8
  decoded : codec.run s.codec (decodedBatches log) = (t.codec, decoderOutputs log)
  pcmOut : t.pcmOut = s.pcmOut ++ (decoderOutputs log).flatten
  lines : s.emittedSamples = s.pcmOut.length → emittedLines log =
    (decoderOutputs log).mapIdx fun i pcm => .chunk (s.chunkIdx + i) (pcm.map codec.pcm16)
  emitted : s.emittedSamples = s.pcmOut.length → t.emittedSamples = t.pcmOut.length
  chunkIdx : t.chunkIdx = s.chunkIdx + (decoderOutputs log).length

namespace Emits
variable {codec : Codec σ α} {s t u : Loop σ α} {log log' : List (Entry α)}

/-- Nothing but buffers is touched, and nothing but the slot changes. -/
theorem of_access (h : ∀ e ∈ log, e.IsAccess) (slot : MossTtsNanoSlot) :
    Emits codec s log { s with slot := slot } := by
  have hs : sampledFrames log = [] := filterMap_access (fun _ => rfl) h
  have hb : decodedBatches log = [] := filterMap_access (fun _ => rfl) h
  have ho : decoderOutputs log = [] := filterMap_access (fun _ => rfl) h
  have hl : emittedLines log = [] := filterMap_access (fun _ => rfl) h
  constructor
  · simp [hs, hb]
  · simp [hb]
  · simp [hb, ho, Codec.run]
  · simp [ho]
  · simp [hl, ho]
  · exact id
  · simp [ho]

theorem refl : Emits codec s [] s := of_access (by simp) s.slot

theorem trans (h : Emits codec s log t) (h' : Emits codec t log' u) :
    Emits codec s (log ++ log') u where
  frames := by
    rw [decodedBatches_append, List.flatten_append, List.append_assoc, h'.frames,
      ← List.append_assoc, h.frames, sampledFrames_append, List.append_assoc]
  sizes b hb := by
    rw [decodedBatches_append, List.mem_append] at hb
    exact hb.elim (h.sizes b) (h'.sizes b)
  decoded := by
    rw [decodedBatches_append, Codec.run_append, h.decoded, h'.decoded, decoderOutputs_append]
  pcmOut := by
    rw [h'.pcmOut, h.pcmOut, decoderOutputs_append, List.flatten_append, List.append_assoc]
  lines hs := by
    rw [emittedLines_append, h.lines hs, h'.lines (h.emitted hs), decoderOutputs_append,
      List.mapIdx_append, h.chunkIdx]
    simp only [Nat.add_comm, Nat.add_left_comm]
  emitted hs := h'.emitted (h.emitted hs)
  chunkIdx := by
    rw [h'.chunkIdx, h.chunkIdx, decoderOutputs_append, List.length_append, Nat.add_assoc]

end Emits

section Calls
variable {d : RuntimeDims} {slot slot' : MossTtsNanoSlot} {a : StepAnswer}

theorem issue_isAccess {fault : Option (Nat × String)} {k : Nat} {calls : List (List Access)} :
    (issue fault k calls : Logged (Entry α) String PUnit).All Entry.IsAccess := by
  induction calls generalizing k with
  | nil => exact Logged.All.of_nil rfl
  | cons call calls ih =>
      have hcall : (Logged.tells (call.map Entry.access) : Logged (Entry α) String PUnit).All
          Entry.IsAccess := by
        intro w hw
        obtain ⟨x, -, rfl⟩ := List.mem_map.mp hw
        exact ⟨x, rfl⟩
      cases fault with
      | none => exact hcall.bind fun _ _ => ih
      | some f =>
          refine hcall.bind fun _ _ => ?_
          split
          · exact Logged.All.of_nil rfl
          · exact ih

theorem prefill_isAccess {inputIds rows : Nat} :
    (prefill d inputIds rows slot a : Logged (Entry α) String _).All Entry.IsAccess := by
  unfold prefill
  dsimp only
  split
  · exact Logged.All.of_nil rfl
  · split
    · exact Logged.All.of_nil rfl
    · split
      · exact Logged.All.of_nil rfl
      · split
        · exact Logged.All.of_nil rfl
        · exact issue_isAccess.bind fun _ _ => Logged.All.of_nil rfl

theorem decodeStep_isAccess {inputIds : Nat} :
    (decodeStep d inputIds slot a : Logged (Entry α) String _).All Entry.IsAccess := by
  unfold decodeStep
  dsimp only
  split
  · exact Logged.All.of_nil rfl
  · split
    · exact Logged.All.of_nil rfl
    · refine issue_isAccess.bind fun _ _ => ?_
      split
      · exact Logged.All.of_nil rfl
      · refine issue_isAccess.bind fun _ _ => ?_
        split
        · exact Logged.All.of_nil rfl
        · exact issue_isAccess.bind fun _ _ => Logged.All.of_nil rfl

end Calls

section Loop
variable {d : RuntimeDims} {codec : Codec σ α} {g : Generation} {t0 : Int}

/-- A flush emits what it decodes. -/
theorem flushBuffer_leads {force : Bool} {a : FrameAnswer} {s : Loop σ α} :
    (flushBuffer d codec g t0 force a s).Leads (Emits codec) s id := by
  have hflush := flushBuffer_cases d codec g t0 force a s
  generalize flushBuffer d codec g t0 force a s = r at hflush ⊢
  cases hflush with
  | kept => exact Emits.refl
  | failed => exact ⟨s, Emits.refl⟩
  | made hne hle =>
      have hpos := List.length_pos_of_ne_nil hne
      constructor
      · simp [decodedBatches, sampledFrames, Loop.flushed]
      · intro b hb
        obtain rfl : b = s.frameBuffer := by simpa [decodedBatches] using hb
        exact ⟨hpos, hle⟩
      · rfl
      · simp [decoderOutputs, Loop.flushed]
      · intro hs
        rw [hs]
        simp [emittedLines, decoderOutputs, Loop.flushed, floatToPcm16_append]
      · exact fun _ => rfl
      · simp [decoderOutputs, Loop.flushed]

/-- A sampled frame joins the collected ones. -/
theorem sampled_leads (s : Loop σ α) (frame : List Int) :
    (Logged.tell (.sampled frame) : Logged (Entry α) String PUnit).Leads (Emits codec) s
      fun _ => { s with frameBuffer := s.frameBuffer ++ [frame] } where
  frames := rfl
  sizes := nofun
  decoded := rfl
  pcmOut := (List.append_nil _).symm
  lines _ := rfl
  emitted := id
  chunkIdx := rfl

theorem frameLoop_leads {a : Nat → FrameAnswer} {left i : Nat} {s : Loop σ α} :
    (frameLoop d codec g t0 a left i s).Leads (Emits codec) s id := by
  induction left generalizing i s with
  | zero => exact Emits.refl
  | succ left ih =>
      cases hsample : (a i).sample with
      | error what =>
          rw [frameLoop, hsample]
          exact ⟨s, Emits.refl⟩
      | ok next =>
          cases next with
          | none =>
              rw [frameLoop, hsample]
              exact Emits.refl
          | some codes =>
              rw [frameLoop_sampled hsample]
              refine (sampled_leads s _).bind Emits.trans
                fun _ _ => flushBuffer_leads.bind Emits.trans fun s' _ => ?_
              split
              · exact Emits.refl
              · have hstep : (decodeStep d (d.numVq + 1) s'.slot (a i).decode).Leads
                    (Emits codec) s' fun slot => { s' with slot := slot } := by
                  unfold Logged.Leads
                  split
                  · exact Emits.of_access decodeStep_isAccess _
                  · exact ⟨_, Emits.of_access decodeStep_isAccess s'.slot⟩
                exact hstep.bind Emits.trans fun slot _ => ih

/-- The flush behind the loop leaves nothing behind. -/
theorem flushBuffer_force {a : FrameAnswer} {s s' : Loop σ α}
    (h : (flushBuffer d codec g t0 true a s).result = .ok s') : s'.frameBuffer = [] := by
  have hflush := flushBuffer_cases d codec g t0 true a s
  generalize flushBuffer d codec g t0 true a s = r at hflush h
  cases hflush with
  | kept hkept =>
      cases h
      exact hkept.resolve_right fun hf => absurd hf.1 (by decide)
  | failed => cases h
  | made =>
      cases h
      rfl

/-- The first `n` frames were sampled, and then the sampler stopped or the budget
of `limit` frames was spent. -/
def SampledUntil (d : RuntimeDims) (a : Nat → FrameAnswer) (limit : Nat)
    (frames : List (List Int)) : Prop :=
  ∃ n ≤ limit, (n = limit ∨ (a n).sample = .ok none) ∧ frames.length = n ∧
    ∀ i, i < n → ∃ codes, (a i).sample = .ok (some codes) ∧
      frames[i]? = some ((List.range d.numVq).map codes)

theorem SampledUntil.cons {a : Nat → FrameAnswer} {limit : Nat} {codes : Nat → Int}
    {frames : List (List Int)} (h₀ : (a 0).sample = .ok (some codes))
    (h : SampledUntil d (fun i => a (i + 1)) limit frames) :
    SampledUntil d a (limit + 1) ((List.range d.numVq).map codes :: frames) := by
  obtain ⟨n, hn, hend, hlen, hframes⟩ := h
  refine ⟨n + 1, by omega, hend.imp_left (congrArg (· + 1)), by simp [hlen], ?_⟩
  intro i hi
  cases i with
  | zero => exact ⟨codes, h₀, rfl⟩
  | succ i => exact hframes i (by omega)

theorem flushBuffer_sampledFrames {force : Bool} {a : FrameAnswer} {s : Loop σ α} :
    sampledFrames (flushBuffer d codec g t0 force a s).log = [] := by
  have hflush := flushBuffer_cases d codec g t0 force a s
  generalize flushBuffer d codec g t0 force a s = r at hflush ⊢
  cases hflush <;> rfl

/-- The frames a loop samples from its iteration `i` on. -/
theorem frameLoop_sampledFrames {a : Nat → FrameAnswer} {left i : Nat} {s s' : Loop σ α}
    (h : (frameLoop d codec g t0 a left i s).result = .ok s') :
    SampledUntil d (fun j => a (i + j)) left
      (sampledFrames (frameLoop d codec g t0 a left i s).log) := by
  induction left generalizing i s with
  | zero => exact ⟨0, le_rfl, .inl rfl, rfl, nofun⟩
  | succ left ih =>
      cases hsample : (a i).sample with
      | error what =>
          rw [frameLoop, hsample] at h
          cases h
      | ok next =>
          cases next with
          | none =>
              rw [frameLoop, hsample]
              exact ⟨0, Nat.zero_le _, .inr hsample, rfl, nofun⟩
          | some codes =>
              rw [frameLoop_sampled hsample] at h ⊢
              obtain ⟨-, -, h⟩ := Logged.result_bind_ok h
              obtain ⟨s₁, hflush, h⟩ := Logged.result_bind_ok h
              rw [Logged.bind_of_ok (Logged.result_tell _), Logged.bind_of_ok hflush]
              simp only [sampledFrames_append, flushBuffer_sampledFrames, List.nil_append]
              refine SampledUntil.cons (a := fun j => a (i + j)) hsample ?_
              split at h
              · rename_i hleft
                rw [if_pos hleft]
                exact ⟨0, Nat.zero_le _, .inl hleft.symm, rfl, nofun⟩
              · rename_i hleft
                obtain ⟨slot, hstep, h⟩ := Logged.result_bind_ok h
                have hquiet : sampledFrames (decodeStep d (d.numVq + 1) s₁.slot
                    (a i).decode : Logged (Entry α) String _).log = [] :=
                  filterMap_access (fun _ => rfl) decodeStep_isAccess
                rw [if_neg hleft, Logged.bind_of_ok hstep, sampledFrames_append, hquiet,
                  List.nil_append]
                have hshift : (fun j => a (i + 1 + j)) = fun j => a (i + (j + 1)) :=
                  funext fun j => by rw [Nat.add_assoc, Nat.add_comm 1]
                exact hshift ▸ ih h

end Loop

/-- What the log of a request that ended with `done` says. -/
structure Lossless (codec : Codec σ α) (log : List (Entry α)) : Prop where
  batches : (decodedBatches log).flatten = sampledFrames log
  sizes : ∀ b ∈ decodedBatches log, 0 < b.length ∧ b.length ≤ 8
  outputs : decoderOutputs log = (codec.run codec.reset (decodedBatches log)).2
  lines : ∃ ttfaMs wallMs, emittedLines log =
    .ready :: ((decoderOutputs log).mapIdx fun i pcm => .chunk i (pcm.map codec.pcm16)) ++
      [.done ((decoderOutputs log).map fun pcm => (pcm.map codec.pcm16).length).sum ttfaMs wallMs]

section Request
variable {c : Config} {d : RuntimeDims} {codec : Codec σ α} {g : Generation}

/-- What a request has emitted when its collected frames are all decoded. -/
theorem Lossless.of_emits {slot : MossTtsNanoSlot} {before log : List (Entry α)} {s : Loop σ α}
    (hbefore : ∀ e ∈ before, e.IsAccess)
    (hs : Emits codec { slot := slot, codec := codec.reset } log s) (hnil : s.frameBuffer = [])
    (ttfaMs wallMs : Int) :
    Lossless codec (.emit .ready :: (before ++ (log ++
      [.emit (.done s.pcmOut.length ttfaMs wallMs)]))) := by
  have h₁ : sampledFrames before = [] := filterMap_access (fun _ => rfl) hbefore
  have h₂ : decodedBatches before = [] := filterMap_access (fun _ => rfl) hbefore
  have h₃ : decoderOutputs before = [] := filterMap_access (fun _ => rfl) hbefore
  have h₄ : emittedLines before = [] := filterMap_access (fun _ => rfl) hbefore
  have hpcm := hs.pcmOut
  have hdecoded := hs.decoded
  have hlines := hs.lines rfl
  simp only [List.nil_append, Nat.zero_add] at hpcm hlines
  constructor
  · simpa [h₁, h₂, hnil] using hs.frames
  · simpa [h₂] using hs.sizes
  · simp [h₂, h₃, hdecoded]
  · refine ⟨ttfaMs, wallMs, ?_⟩
    simp [h₃, h₄, hlines, hpcm, List.length_flatten]

/-- The log of a generation that ended well. -/
theorem generateAudio_done {rows : Nat} {a : RequestAnswer}
    (h : (generateAudio d codec g rows a).result = .ok ⟨⟩) :
    Lossless codec (.emit .ready :: (generateAudio d codec g rows a).log) ∧
      SampledUntil d a.frame g.maxNewFrames
        (sampledFrames (generateAudio d codec g rows a).log) := by
  unfold generateAudio at h ⊢
  obtain ⟨slot, hprefill, h⟩ := Logged.result_bind_ok h
  obtain ⟨s, hloop, h⟩ := Logged.result_bind_ok h
  obtain ⟨s', hflush, h⟩ := Logged.result_bind_ok h
  rw [Logged.bind_of_ok hprefill, Logged.bind_of_ok hloop, Logged.bind_of_ok hflush]
  have haccess : (prefill d (rows * (d.numVq + 1)) rows {} a.prefill :
      Logged (Entry α) String _).All Entry.IsAccess := prefill_isAccess
  have hs := (frameLoop_leads.ok hloop).trans (flushBuffer_leads.ok hflush)
  have hsampled := frameLoop_sampledFrames hloop
  have hquiet : sampledFrames (prefill d (rows * (d.numVq + 1)) rows {} a.prefill :
      Logged (Entry α) String _).log = [] := filterMap_access (fun _ => rfl) haccess
  constructor
  · have hlossless := Lossless.of_emits haccess hs (flushBuffer_force hflush) s'.ttfaMs
      (elapsedMs a.requestStart a.doneAt)
    simpa only [List.append_assoc, Logged.log_tell, id] using hlossless
  · simpa [hquiet, flushBuffer_sampledFrames] using hsampled

end Request

section Succeeds
variable {d : RuntimeDims} {codec : Codec σ α} {g : Generation} {t0 : Int}

/-- A past that the next decode step accepts. -/
def PastFits (d : RuntimeDims) (pastLen : Int) : Prop :=
  0 < pastLen ∧ pastLen < d.maxSeqLen ∧ pastLen ≤ d.profileMaxPast

/-- The calls of a step do not throw, and the engine reports a past that fits. -/
def StepAnswer.Untroubled (d : RuntimeDims) (a : StepAnswer) : Prop :=
  a.fault = none ∧ ∃ r, a.present = some r ∧ PastFits d r

theorem prefill_succeeds {rows : Nat} {a : StepAnswer} (ha : a.Untroubled d) (hw : d.numVq = 16)
    (hr : 0 < rows) (hm : rows ≤ d.maxSeqLen) :
    ∃ slot, (prefill d (rows * (d.numVq + 1)) rows {} a : Logged (Entry α) String _).result =
      .ok slot ∧ PastFits d slot.pastLen := by
  obtain ⟨hfault, r, hpresent, hfits⟩ := ha
  have hdiv : rows * 17 / 17 = rows := Nat.mul_div_cancel _ (by decide)
  refine ⟨⟨r, rows⟩, ?_, hfits⟩
  unfold prefill
  simp only [hw, hfault, hpresent, Option.getD_some, hdiv, issue_none]
  rw [if_neg (by omega), if_neg (by omega), if_neg (by simp), if_neg (by simp),
    Logged.bind_of_ok rfl]
  rfl

theorem decodeStep_succeeds {slot : MossTtsNanoSlot} {a : StepAnswer} (ha : a.Untroubled d)
    (hw : d.numVq = 16) (hs : PastFits d slot.pastLen) :
    ∃ slot', (decodeStep d (d.numVq + 1) slot a : Logged (Entry α) String _).result = .ok slot' ∧
      PastFits d slot'.pastLen := by
  obtain ⟨hfault, r, hpresent, hfits⟩ := ha
  obtain ⟨h₁, h₂, h₃⟩ := hs
  obtain ⟨h₄, h₅, -⟩ := id hfits
  refine ⟨⟨r, slot.cumulativePastLen + 1⟩, ?_, hfits⟩
  unfold decodeStep
  simp only [hw, hfault, hpresent, Option.getD_some, issue_none]
  rw [if_neg (by decide), if_neg (by omega), Logged.bind_of_ok rfl,
    if_neg (by omega), Logged.bind_of_ok rfl, if_neg (by omega),
    Logged.bind_of_ok rfl]
  rfl

/-- The calls around a frame do not throw. -/
structure FrameAnswer.Untroubled (d : RuntimeDims) (a : FrameAnswer) : Prop where
  sample : ∀ what, a.sample ≠ .error what
  codec : a.codec = none
  decode : a.decode.Untroubled d

theorem frameLoop_succeeds (t0 : Int) {item : Json} {slotId rows : Nat}
    (hg : readBudgets item slotId rows = .ok g) (hc : codec.InRange d) (hw : d.numVq = 16)
    {a : Nat → FrameAnswer} (ha : ∀ i, (a i).Untroubled d) (left i : Nat) {s : Loop σ α}
    (hs : s.Fed d g) (hslot : PastFits d s.slot.pastLen) :
    ∃ s', (frameLoop d codec g t0 a left i s).result = .ok s' ∧ s'.Fed d g := by
  induction left generalizing i s with
  | zero => exact ⟨s, rfl, hs⟩
  | succ left ih =>
      cases hsample : (a i).sample with
      | error what => exact absurd hsample ((ha i).sample what)
      | ok next =>
          cases next with
          | none =>
              rw [frameLoop, hsample]
              exact ⟨s, rfl, hs⟩
          | some codes =>
              have hpush := hs.push hg codes
              let pushed := { s with
                frameBuffer := s.frameBuffer ++ [(List.range d.numVq).map codes] }
              obtain ⟨s₁, hflush⟩ := flushBuffer_succeeds t0 (g := g) (s := pushed)
                (ha i).codec hc hpush.1 hpush.2 false
              have hs₁ := flushBuffer_fed (s := pushed) hg hpush.2 hs.emitted hflush
              have hslot₁ : s₁.slot = s.slot := flushBuffer_slot (s := pushed) hflush
              rw [frameLoop_sampled hsample, Logged.bind_of_ok (Logged.result_tell _),
                Logged.bind_of_ok hflush]
              split
              · exact ⟨s₁, rfl, hs₁⟩
              · obtain ⟨slot, hstep, hfits⟩ :=
                  decodeStep_succeeds (α := α) (ha i).decode hw (hslot₁ ▸ hslot)
                rw [Logged.bind_of_ok hstep]
                exact ih (i + 1) ⟨hs₁.size, hs₁.width, hs₁.emitted⟩ hfits

end Succeeds

/-- No call of the request throws, the prompt fits, and the engines keep to their ranges. -/
structure RequestAnswer.Untroubled (d : RuntimeDims) (codec : Codec σ α) (rows : Nat)
    (a : RequestAnswer) : Prop where
  codec : codec.InRange d
  width : d.numVq = 16
  fits : rows ≤ d.maxSeqLen
  setup : a.setup = none
  prefill : a.prefill.Untroubled d
  frame : ∀ i, (a.frame i).Untroubled d
  last : a.last.codec = none

section Request
variable {c : Config} {d : RuntimeDims} {codec : Codec σ α} {g : Generation} {item : Json}
  {slotId : Nat}

theorem generateAudio_succeeds {rows : Nat} {a : RequestAnswer} (hr : 0 < rows)
    (hg : readBudgets item slotId rows = .ok g) (ha : a.Untroubled d codec rows) :
    (generateAudio d codec g rows a).result = .ok ⟨⟩ := by
  obtain ⟨slot, hprefill, hfits⟩ := prefill_succeeds (α := α) ha.prefill ha.width hr ha.fits
  have hs : ({ slot := slot, codec := codec.reset } : Loop σ α).Fed d g :=
    ⟨Int.lt_of_lt_of_le Int.zero_lt_one (Loop.budget_le hg _).1, nofun, rfl⟩
  obtain ⟨s, hloop, hfed⟩ := frameLoop_succeeds a.requestStart hg ha.codec ha.width ha.frame
    g.maxNewFrames 0 hs hfits
  have hbudget := (Loop.budget_le hg s).2
  have hsize := hfed.size
  obtain ⟨s', hflush⟩ := flushBuffer_succeeds a.requestStart (g := g) ha.last ha.codec
    (by omega) hfed.width true
  unfold generateAudio
  rw [Logged.bind_of_ok hprefill, Logged.bind_of_ok hloop, Logged.bind_of_ok hflush]
  rfl

/-- The log of a request that ended well. -/
theorem handleRequest_ok {a : RequestAnswer}
    (h : (handleRequest c d codec item slotId a).result = .ok ⟨⟩) :
    ∃ g, readBudgets item slotId
        (promptRows c (referenceRows c item a.refRows) a.textTokens) = .ok g ∧
      (generateAudio d codec g (promptRows c (referenceRows c item a.refRows) a.textTokens)
        a).result = .ok ⟨⟩ ∧
      (handleRequest c d codec item slotId a).log = .emit .ready ::
        (generateAudio d codec g (promptRows c (referenceRows c item a.refRows) a.textTokens)
          a).log := by
  unfold handleRequest at h ⊢
  obtain ⟨⟨⟩, hvalid, h⟩ := Logged.result_bind_ok h
  obtain ⟨-, -, h⟩ := Logged.result_bind_ok h
  rw [Logged.bind_of_ok hvalid, Logged.bind_of_ok (Logged.result_tell _)]
  dsimp only at h ⊢
  split at h
  · cases h
  · obtain ⟨g, hg, h⟩ := Logged.result_bind_ok h
    rw [Logged.bind_of_ok hg]
    exact ⟨g, hg, h, rfl⟩

/-- A request that ends with `done`, wherever it stopped, has decoded every sampled
frame once and in order, in batches of at most eight, and has written the decoded
audio in consecutive chunks whose samples `done` counts. One whose calls do not
throw ends so. -/
theorem chunked_emission_lossless (c : Config) (d : RuntimeDims) (codec : Codec σ α) (item : Json)
    (slotId : Nat) (a : RequestAnswer) :
    ((handleRequest c d codec item slotId a).result = .ok ⟨⟩ →
      Lossless codec (handleRequest c d codec item slotId a).log ∧
      ∃ g, readBudgets item slotId
          (promptRows c (referenceRows c item a.refRows) a.textTokens) = .ok g ∧
        SampledUntil d a.frame g.maxNewFrames
          (sampledFrames (handleRequest c d codec item slotId a).log)) ∧
    ∀ g, validate item = .ok () →
      readBudgets item slotId
        (promptRows c (referenceRows c item a.refRows) a.textTokens) = .ok g →
      a.Untroubled d codec (promptRows c (referenceRows c item a.refRows) a.textTokens) →
      (handleRequest c d codec item slotId a).result = .ok ⟨⟩ := by
  constructor
  · intro h
    obtain ⟨g, hg, hdone, hlog⟩ := handleRequest_ok h
    obtain ⟨hlossless, hsampled⟩ := generateAudio_done hdone
    rw [hlog]
    exact ⟨hlossless, g, hg, hsampled⟩
  · intro g hvalid hg ha
    have hrows : 0 < promptRows c (referenceRows c item a.refRows) a.textTokens := by
      unfold promptRows
      omega
    unfold handleRequest
    rw [hvalid, Logged.lift_ok_bind, Logged.bind_of_ok (Logged.result_tell _)]
    simp only [ha.setup, hg, Logged.lift_ok_bind]
    exact generateAudio_succeeds hrows hg ha

set_option maxRecDepth 4000 in
/-- Three frames in chunks of two are decoded as two and one. -/
theorem chunked_emission_lossless_two_chunks :
    ∃ log, log = (handleRequest bareConfig (dimsOf 8 (by decide)) silentCodec
        (.obj [("id", .str "a"), ("text", .str "hi"), ("first_chunk_frames", .int 2),
          ("max_new_frames", .int 3)]) 0 (shortPastRequest none 1)).log ∧
      Lossless silentCodec log ∧ (decodedBatches log).map List.length = [2, 1] := by
  refine ⟨_, rfl, ?_, rfl⟩
  exact ((chunked_emission_lossless bareConfig (dimsOf 8 (by decide)) silentCodec _ 0
    (shortPastRequest none 1)).1 rfl).1

end Request

end JetsonVoice.Moss
