import JetsonVoice.Tts.SparkSchedule

/-!
# The streamed audio of a Spark request

With a vocoder that looks at no more than the left overlap, the chunks of a
streamed request put together the audio of the single segment, except that the
first samples of every chunk after the first are blended with the audio just
before it.
-/

namespace JetsonVoice.Tts.Spark

open Foundation

variable {S : Type}

/-- Padding is transparent to a window-consistent vocoder. -/
theorem runBicodec_eq {context : Nat} {voc : List Int → List S}
    (h : WindowConsistent kUpsamplePerToken context voc) (w : List Int) :
    runBicodec voc w = voc w := by
  have hpad := h.padded (w := w) (List.replicate (kBicodecMinT - w.length) (w.getLastD 0))
  unfold runBicodec
  dsimp only
  split
  · rw [padWindow, Nat.mul_comm, hpad]
  · rename_i hfull
    have hlen := h.length (padWindow w)
    have hempty : kBicodecMinT - w.length = 0 := by
      simp only [padWindow, List.length_append, List.length_replicate, kUpsamplePerToken] at hfull hlen
      omega
    rw [padWindow, hempty, List.replicate_zero, List.append_nil]

/-- What the engine returns for the tokens of a chunk. -/
theorem Stream.vocoded_eq {v : Bicodec S} {o : Options} {s : Stream S} {sem globals : List Int}
    (hw : WindowConsistent kUpsamplePerToken o.leftOverlap (v globals))
    (hsem : s.locals.semantic <+: sem) {endToken : Nat}
    (hlt : s.locals.chunkState.emittedTokens < endToken)
    (hle : endToken ≤ s.locals.semantic.length) :
    (runBicodec (v globals) (slice s.locals.semantic
      (s.locals.chunkState.emittedTokens - o.leftOverlap) endToken)).drop
        ((s.locals.chunkState.emittedTokens -
          (s.locals.chunkState.emittedTokens - o.leftOverlap)) * kUpsamplePerToken) =
      slice (v globals sem) (kUpsamplePerToken * s.locals.chunkState.emittedTokens)
        (kUpsamplePerToken * endToken) := by
  rw [runBicodec_eq hw, ← slice_of_prefix hsem hle, Nat.mul_comm]
  exact hw.dropped (Nat.sub_le _ _) hlt.le (hle.trans hsem.length_le) (by omega)

variable [Add S] [Sub S] [Mul S] [Div S] [NatCast S]

/-- A sample of the single segment as it is streamed. In the first samples of a
chunk after the first it is blended with the one 160 samples before it. -/
def seamAt (o : Options) (wav : List S) (p : Nat) (new : S) : S :=
  let first := kUpsamplePerToken * o.firstChunkTokens
  let offset := (p - first) % (kUpsamplePerToken * o.chunkTokens)
  if first ≤ p ∧ offset < kFadeSamples then
    (wav[p - kFadeSamples]?).elim new (blend offset kFadeSamples new)
  else new

/-- The audio of the single segment as it is streamed. -/
def seamed (o : Options) (wav : List S) : List S := wav.mapIdx (seamAt o wav)

theorem getElem?_seamed (o : Options) (wav : List S) (p : Nat) :
    (seamed o wav)[p]? = (wav[p]?).map (seamAt o wav p) := by
  rw [seamed, List.getElem?_mapIdx]

@[simp] theorem length_seamed (o : Options) (wav : List S) : (seamed o wav).length = wav.length :=
  List.length_mapIdx

theorem getElem?_crossfade {tail out : List S} (ht : tail.length = kFadeSamples)
    (ho : kFadeSamples ≤ out.length) (i : Nat) :
    (crossfade tail out)[i]? = (out[i]?).map fun new => (tail[i]?).elim new (blend i kFadeSamples new) := by
  have hne : tail ≠ [] := by
    rintro rfl
    cases ht
  rw [crossfade, if_pos ⟨hne, ho⟩]
  dsimp only
  rw [ht, min_self, List.take_of_length_le ht.le, List.getElem?_mapIdx]

/-- A chunk of a waveform after the samples just before it. -/
theorem getElem?_crossfade_slice {wav : List S} {a b : Nat} (ha : kFadeSamples ≤ a)
    (hab : a + kFadeSamples ≤ b) (hb : b ≤ wav.length) (i : Nat) :
    (crossfade (slice wav (a - kFadeSamples) a) (slice wav a b))[i]? =
      if a + i < b then (wav[a + i]?).map fun new =>
        if i < kFadeSamples then (wav[a + i - kFadeSamples]?).elim new (blend i kFadeSamples new)
        else new
      else none := by
  have ht : (slice wav (a - kFadeSamples) a).length = kFadeSamples := by
    rw [length_slice (by omega)]
    omega
  have ho : kFadeSamples ≤ (slice wav a b).length := by
    rw [length_slice hb]
    omega
  rw [getElem?_crossfade ht ho, getElem?_slice (l := wav) (a := a)]
  split
  · apply Option.map_congr
    intro new _
    rw [getElem?_slice]
    by_cases hi : i < kFadeSamples
    · rw [if_pos hi, if_pos (by omega), Nat.sub_add_comm ha]
    · rw [if_neg hi, if_neg (by omega)]
      rfl
  · rfl

section Seams
variable {o : Options} {wav : List S} {p : Nat}

/-- The first chunk is not blended. -/
theorem seamAt_first (hp : p < kUpsamplePerToken * o.firstChunkTokens) (new : S) :
    seamAt o wav p new = new := by
  rw [seamAt, if_neg (by omega)]

/-- Inside a later chunk the offset is counted from where it starts. -/
theorem seamAt_later {j i : Nat} (hi : i < kUpsamplePerToken * o.chunkTokens) (new : S) :
    seamAt o wav (kUpsamplePerToken * o.boundary (j + 1) + i) new =
      if i < kFadeSamples then
        (wav[kUpsamplePerToken * o.boundary (j + 1) + i - kFadeSamples]?).elim new
          (blend i kFadeSamples new)
      else new := by
  have hsplit : kUpsamplePerToken * o.boundary (j + 1) + i =
      kUpsamplePerToken * o.firstChunkTokens + (kUpsamplePerToken * o.chunkTokens * j + i) := by
    simp only [Options.boundary]
    ring
  have hoffset : (kUpsamplePerToken * o.boundary (j + 1) + i -
      kUpsamplePerToken * o.firstChunkTokens) % (kUpsamplePerToken * o.chunkTokens) = i := by
    rw [hsplit, Nat.add_sub_cancel_left, Nat.mul_add_mod, Nat.mod_eq_of_lt hi]
  rw [seamAt, hoffset]
  have hge : kUpsamplePerToken * o.firstChunkTokens ≤
      kUpsamplePerToken * o.boundary (j + 1) + i := by
    rw [hsplit]
    exact Nat.le_add_right _ _
  simp only [hge, true_and]

/-- Behind the seam of a chunk nothing is blended. -/
theorem seamAt_inside {j last : Nat} (hnext : last ≤ o.boundary (j + 1))
    (hseam : kUpsamplePerToken * o.boundary j + kFadeSamples ≤ p)
    (hp : p < kUpsamplePerToken * last) (new : S) : seamAt o wav p new = new := by
  cases j with
  | zero =>
      have hlast : last ≤ o.firstChunkTokens := by simpa [Options.boundary] using hnext
      exact seamAt_first (hp.trans_le (Nat.mul_le_mul_left _ hlast)) new
  | succ j =>
      have hsteady : last ≤ o.boundary (j + 1) + o.chunkTokens := by
        simp only [Options.boundary, Nat.add_mul] at hnext ⊢
        omega
      have hlt : p < kUpsamplePerToken * o.boundary (j + 1) + kUpsamplePerToken * o.chunkTokens := by
        rw [← Nat.mul_add]
        exact hp.trans_le (Nat.mul_le_mul_left _ hsteady)
      obtain ⟨i, rfl⟩ := Nat.exists_eq_add_of_le ((Nat.le_add_right _ _).trans hseam)
      rw [seamAt_later (by omega), if_neg (by omega)]

/-- The last samples of a chunk are those of the single segment. -/
theorem seamed_tail {j last : Nat} (hlt : o.boundary j < last)
    (hnext : last ≤ o.boundary (j + 1)) :
    slice (seamed o wav) (kUpsamplePerToken * last - kFadeSamples) (kUpsamplePerToken * last) =
      slice wav (kUpsamplePerToken * last - kFadeSamples) (kUpsamplePerToken * last) := by
  apply List.ext_getElem?
  intro i
  rw [getElem?_slice, getElem?_slice, getElem?_seamed]
  split
  · rename_i hi
    have hseam : kUpsamplePerToken * o.boundary j + kFadeSamples ≤
        kUpsamplePerToken * last - kFadeSamples + i := by
      simp only [kUpsamplePerToken, kFadeSamples]
      omega
    cases wav[kUpsamplePerToken * last - kFadeSamples + i]? with
    | none => rfl
    | some new => rw [Option.map_some, seamAt_inside hnext hseam hi]
  · rfl

end Seams

namespace Stream

/-- Once the d-vector is there, the global tokens stay as they are. -/
def Settled (o : Options) (s : Stream S) : Prop :=
  s.locals.dVectorReady = true → 32 ≤ s.locals.globalTokens.length ∨ o.isClone = true

section Settling
variable {v : Bicodec S} {o : Options} {s : Stream S}

theorem Settled.takeTokens (h : Settled o s) (v : Bicodec S) (tokenIds : List Int) :
    Settled o (s.takeTokens v o tokenIds) := by
  obtain ⟨chunkState, samples, heq⟩ := takeTokens_locals v o s tokenIds
  have hs := sorts_foldl o tokenIds s.locals
  intro hready
  rw [heq] at hready ⊢
  simp only [sortTokens, Bool.or_eq_true, decide_eq_true_eq, hs.dVectorReady] at hready ⊢
  rcases hready with hready | hlen
  · rw [hs.globalTokens (h hready)]
    exact h hready
  · exact .inl hlen.ge

theorem foldl_globalTokens (v : Bicodec S) (arrivals : List (List Int)) (h : Settled o s)
    (hready : s.locals.dVectorReady = true) :
    (arrivals.foldl (takeTokens v o) s).locals.globalTokens = s.locals.globalTokens := by
  induction arrivals generalizing s with
  | nil => rfl
  | cons tokenIds rest ih =>
      obtain ⟨chunkState, samples, heq⟩ := takeTokens_locals v o s tokenIds
      have hs := sorts_foldl o tokenIds s.locals
      rw [List.foldl_cons, ih (h.takeTokens v tokenIds)]
      · rw [heq]
        exact hs.globalTokens (h hready)
      · rw [heq]
        simp only [sortTokens, hs.dVectorReady, hready, Bool.true_or]

/-- The d-vector of a chunk is that of the final global tokens. -/
theorem sortTokens_globalTokens (v : Bicodec S) (tokenIds : List Int) (rest : List (List Int))
    (h : Settled o s) (hready : (s.sortTokens o tokenIds).locals.dVectorReady = true) :
    (s.sortTokens o tokenIds).locals.globalTokens =
      (rest.foldl (takeTokens v o) (s.takeTokens v o tokenIds)).locals.globalTokens := by
  obtain ⟨chunkState, samples, heq⟩ := takeTokens_locals v o s tokenIds
  rw [foldl_globalTokens v rest (h.takeTokens v tokenIds) (by rw [heq]; exact hready), heq]

end Settling

variable {v : Bicodec S} {o : Options} {s : Stream S} {sem globals : List Int}

/-- The chunks emitted so far, in the single segment of all the tokens. -/
structure Voiced (v : Bicodec S) (o : Options) (globals sem : List Int) (s : Stream S) : Prop where
  audio : s.audio = (seamed o (v globals sem)).take
    (kUpsamplePerToken * s.locals.chunkState.emittedTokens)
  tail : s.crossfadeTail = if s.chunks = [] then [] else
    slice (v globals sem) (kUpsamplePerToken * s.locals.chunkState.emittedTokens - kFadeSamples)
      (kUpsamplePerToken * s.locals.chunkState.emittedTokens)

section Chunk
variable (hw : WindowConsistent kUpsamplePerToken o.leftOverlap (v globals))
include hw

/-- The samples of a chunk are those of the single segment, blended at the seam. -/
theorem newAudio_eq (hz : o.Sizes) {total : Nat} (hl : Laid o total s)
    (hv : Voiced v o globals sem s) (hg : s.locals.globalTokens = globals)
    (hsem : s.locals.semantic <+: sem) {endToken : Nat}
    (hlt : s.locals.chunkState.emittedTokens < endToken)
    (hle : endToken ≤ s.locals.semantic.length) (htotal : endToken ≤ total)
    (hnext : endToken ≤ o.boundary (s.chunks.length + 1)) :
    s.newAudio v o endToken = slice (seamed o (v globals sem))
      (kUpsamplePerToken * s.locals.chunkState.emittedTokens) (kUpsamplePerToken * endToken) := by
  have hemitted : s.locals.chunkState.emittedTokens = o.boundary s.chunks.length := by
    have := hl.emitted
    omega
  have hwav : kUpsamplePerToken * endToken ≤ (v globals sem).length := by
    rw [hw.length]
    exact Nat.mul_le_mul_left _ (hle.trans hsem.length_le)
  rw [newAudio, hg, vocoded_eq hw hsem hlt hle]
  apply List.ext_getElem?
  intro i
  rw [getElem?_slice (l := seamed o (v globals sem)), getElem?_seamed]
  cases hj : s.chunks.length with
  | zero =>
      have hempty : s.chunks = [] := List.length_eq_zero_iff.mp hj
      rw [hj] at hemitted hnext
      have hzero : s.locals.chunkState.emittedTokens = 0 := hemitted
      have hfirst : endToken ≤ o.firstChunkTokens := by simpa [Options.boundary] using hnext
      rw [hv.tail, if_pos hempty, crossfade, if_neg (by simp), getElem?_slice, hzero]
      split
      · rename_i hi
        have hp : kUpsamplePerToken * 0 + i < kUpsamplePerToken * o.firstChunkTokens :=
          hi.trans_le (Nat.mul_le_mul_left _ hfirst)
        cases (v globals sem)[kUpsamplePerToken * 0 + i]? with
        | none => rfl
        | some new => rw [Option.map_some, seamAt_first hp]
      · rfl
  | succ j =>
      have hne : s.chunks ≠ [] := by
        intro hnil
        rw [hnil] at hj
        cases hj
      rw [hj] at hemitted hnext
      have hsteady : endToken ≤ o.boundary (j + 1) + o.chunkTokens := by
        simp only [Options.boundary, Nat.add_mul] at hnext ⊢
        omega
      have hpos : 0 < o.boundary (j + 1) := (Nat.zero_le _).trans_lt (hz.boundary_lt j)
      rw [hemitted] at hlt ⊢
      have ha : kFadeSamples ≤ kUpsamplePerToken * o.boundary (j + 1) := by
        simp only [kUpsamplePerToken, kFadeSamples]
        omega
      have hab : kUpsamplePerToken * o.boundary (j + 1) + kFadeSamples ≤
          kUpsamplePerToken * endToken := by
        simp only [kUpsamplePerToken, kFadeSamples]
        omega
      rw [hv.tail, if_neg hne, hemitted, getElem?_crossfade_slice ha hab hwav]
      split
      · rename_i hi
        have hin : i < kUpsamplePerToken * o.chunkTokens := by
          simp only [kUpsamplePerToken] at hi ⊢
          omega
        apply Option.map_congr
        intro new _
        rw [seamAt_later hin]
      · rfl

theorem Voiced.emit (hv : Voiced v o globals sem s) (hu : Upsamples v) (hz : o.Sizes) {total : Nat}
    (hl : Laid o total s) (hg : s.locals.globalTokens = globals)
    (hsem : s.locals.semantic <+: sem) (isFinal : Bool) {endToken : Nat}
    (hlt : s.locals.chunkState.emittedTokens < endToken)
    (hle : endToken ≤ s.locals.semantic.length) (htotal : endToken ≤ total)
    (hnext : endToken ≤ o.boundary (s.chunks.length + 1)) :
    Voiced v o globals sem (s.emitOneChunk v o endToken isFinal) := by
  have hnew := newAudio_eq hw hz hl hv hg hsem hlt hle htotal hnext
  have hemitted : o.boundary s.chunks.length < endToken := by
    have := hl.emitted
    omega
  have hmono : kUpsamplePerToken * s.locals.chunkState.emittedTokens ≤
      kUpsamplePerToken * endToken := Nat.mul_le_mul_left _ hlt.le
  have hlong : kUpsamplePerToken * s.locals.chunkState.emittedTokens ≤
      kUpsamplePerToken * endToken - kFadeSamples := by
    simp only [kUpsamplePerToken, kFadeSamples]
    omega
  have haudio := hv.audio
  rw [emitOneChunk_eq hu isFinal hlt hle]
  constructor
  · simp only [Stream.audio, List.flatMap_append, List.flatMap_cons, List.flatMap_nil,
      List.append_nil, newChunk] at haudio ⊢
    rw [haudio, hnew, ← slice_zero, slice_append_slice (Nat.zero_le _) hmono, slice_zero]
  · simp only [List.append_eq_nil_iff, List.cons_ne_nil, and_false, if_false, hnew]
    have hlen : kUpsamplePerToken * endToken ≤ (seamed o (v globals sem)).length := by
      rw [length_seamed, hw.length]
      exact Nat.mul_le_mul_left _ (hle.trans hsem.length_le)
    have hstart : kUpsamplePerToken * s.locals.chunkState.emittedTokens +
        (kUpsamplePerToken * endToken - kUpsamplePerToken * s.locals.chunkState.emittedTokens -
          kFadeSamples) = kUpsamplePerToken * endToken - kFadeSamples := by omega
    rw [← seamed_tail hemitted hnext, drop_slice, length_slice hlen, hstart]

/-- The body of the token loop, as long as the d-vector is that of the final tokens. -/
theorem Voiced.takeTokens (hv : Voiced v o globals sem s) (hu : Upsamples v) (hz : o.Sizes)
    (hl : Live o sem.length s) (tokenIds : List Int)
    (hsem : (s.takeTokens v o tokenIds).locals.semantic <+: sem)
    (hg : (s.sortTokens o tokenIds).locals.dVectorReady = true →
      (s.sortTokens o tokenIds).locals.globalTokens = globals) :
    Voiced v o globals sem (s.takeTokens v o tokenIds) := by
  have hsorted : Voiced v o globals sem (s.sortTokens o tokenIds) := by
    have hs := sorts_foldl o tokenIds s.locals
    constructor
    · simpa only [Stream.sortTokens, Stream.audio, hs.chunkState] using hv.audio
    · simpa only [Stream.sortTokens, hs.chunkState] using hv.tail
  have hlive := hl.sortTokens tokenIds
  have hprefix : (s.sortTokens o tokenIds).locals.semantic <+: sem := by
    rw [(takeTokens_same v o s tokenIds).semantic] at hsem
    exact hsem
  unfold Stream.takeTokens
  dsimp only
  split
  · rename_i hwant
    simp only [Bool.and_eq_true, decide_eq_true_eq] at hwant
    generalize s.sortTokens o tokenIds = s at hg hsorted hlive hprefix hwant ⊢
    have hsum := boundary_add_want (o := o) hlive.index
    have hstep := hz.boundary_lt s.chunks.length
    have hemitted : s.locals.chunkState.emittedTokens = o.boundary s.chunks.length := by
      rw [hlive.emitted]
      exact min_eq_right (hlive.full.trans hprefix.length_le)
    have hle := hprefix.length_le
    exact hsorted.emit hw hu hz hlive.toLaid (hg hwant.1.2) hprefix false (by omega) (by omega)
      (by omega) (by omega)
  · exact hsorted

theorem Voiced.foldl (hu : Upsamples v) (hz : o.Sizes) (arrivals : List (List Int))
    (hv : Voiced v o globals sem s) (hl : Live o sem.length s) (hr : Settled o s)
    (hg : (arrivals.foldl (Stream.takeTokens v o) s).locals.globalTokens = globals)
    (hsem : (arrivals.foldl (Stream.takeTokens v o) s).locals.semantic = sem) :
    Voiced v o globals sem (arrivals.foldl (Stream.takeTokens v o) s) := by
  induction arrivals generalizing s with
  | nil => exact hv
  | cons tokenIds rest ih =>
      have hgrow := foldl_extends v o (s.takeTokens v o tokenIds) rest
      rw [List.foldl_cons] at hg hsem
      rw [hsem] at hgrow
      have hglobal := fun hready => (sortTokens_globalTokens v tokenIds rest hr hready).trans hg
      exact ih (hv.takeTokens hw hu hz hl tokenIds hgrow hglobal)
        (hl.takeTokens hu hz tokenIds hgrow.length_le) (hr.takeTokens v tokenIds) hg hsem

/-- What a flush that ends has streamed. -/
theorem Voiced.flush (hu : Upsamples v) (hz : o.Sizes) (hfit : o.Fits sem.length) {rounds : Nat}
    {r : Stream S} {lastWasFinal : Bool} (hv : Voiced v o globals sem s)
    (hl : Laid o sem.length s) (hg : s.locals.globalTokens = globals)
    (hsem : s.locals.semantic = sem) (hr : s.flush v o rounds lastWasFinal = some r) :
    r.audio = seamed o (v globals sem) := by
  induction rounds generalizing s lastWasFinal with
  | zero => cases hr
  | succ rounds ih =>
      rw [Stream.flush] at hr
      dsimp only at hr
      have hlen : s.locals.semantic.length = sem.length := by rw [hsem]
      have hemitted := hl.emitted
      split at hr
      · rename_i hlt
        have hlt : s.locals.chunkState.emittedTokens < sem.length := hlt.trans_eq hlen
        have hstep := hz.boundary_lt s.chunks.length
        rw [hl.endToken hlen hlt (hfit _ (by omega))] at hr
        have heq := emitOneChunk_eq (o := o) (s := s) hu
          (decide ((s.locals.semantic.length : Int) ≤
            (min sem.length (o.boundary (s.chunks.length + 1)) : Nat)))
          (show s.locals.chunkState.emittedTokens <
            min sem.length (o.boundary (s.chunks.length + 1)) by omega) (by omega)
        refine ih (hv.emit hw hu hz hl hg (hsem ▸ List.prefix_rfl) _ (by omega) (by omega)
          (min_le_left _ _) (min_le_right _ _)) (hl.emit hu hz _ hlt (by omega)) ?_ ?_ hr
        · rw [heq]
          exact hg
        · rw [heq]
          exact hsem
      · have hall : r.audio = s.audio := by
          split at hr
          · cases hr
            rfl
          · cases hr
            simp [Stream.audio, emitAudioChunk]
        have hdone : s.locals.chunkState.emittedTokens = sem.length := by omega
        rw [hall, hv.audio, hdone, ← hw.length, ← length_seamed o, List.take_length]

end Chunk

theorem voiced_start (v : Bicodec S) (o : Options) (globals sem : List Int) :
    Voiced v o globals sem (start o) := ⟨rfl, rfl⟩

/-- What a streamed request emits is the audio of the single segment, blended at
the seams between its chunks. -/
theorem streamed_eq_seamed {item : Json} {id : String} (hb : buildRequest item id = .ok o)
    (hw : ∀ globals, WindowConsistent kUpsamplePerToken o.leftOverlap (v globals))
    (arrivals : List (List Int)) (hglobal : (received o arrivals).globalTokens.length = 32)
    (hsem : (received o arrivals).semantic ≠ [])
    (hfit : o.Fits (received o arrivals).semantic.length) :
    ∃ wav, oneShot v o arrivals = some wav ∧
      ∃ rounds r, streamed v o arrivals rounds = some r ∧ r.audio = seamed o wav := by
  have hu : Upsamples v := fun globals => (hw globals).length
  have hone := tokenLoop_same v o false arrivals
  have hsame := tokenLoop_same v o true arrivals
  refine ⟨v (received o arrivals).globalTokens (received o arrivals).semantic, ?_, ?_⟩
  · simp only [oneShot, accepted, hone.globalTokens, hone.semantic, hglobal, hsem, ne_eq,
      not_false_eq_true, and_self, decide_true, if_true, runBicodec_eq (hw _)]
  · obtain ⟨rounds, r, hr, -⟩ := streamed_scheduled hb hu arrivals hglobal hsem hfit
    refine ⟨rounds, r, hr, ?_⟩
    have hz := (buildRequest_sizes hb).streaming
    have hlive := live_tokenLoop hb hu arrivals
    have hsettled : Settled { o with streamAudio := true } (start { o with streamAudio := true } :
        Stream S) := fun hready => .inr hready
    have hvoiced := Voiced.foldl (o := { o with streamAudio := true }) (hw _) hu hz arrivals
      (voiced_start v _ _ _) (live_start _ _) hsettled hsame.globalTokens hsame.semantic
    have haccepted : accepted (tokenLoop v { o with streamAudio := true } arrivals).locals =
        true := by
      simp [accepted, hsame.globalTokens, hsame.semantic, hglobal, hsem]
    simp only [streamed, haccepted, if_true] at hr
    exact Voiced.flush (o := { o with streamAudio := true }) (hw _) hu hz hfit hvoiced hlive.toLaid
      hsame.globalTokens hsame.semantic hr

section Samples

/-- A request for chunks of a single token. -/
def smallestChunks : Json :=
  .obj [("text", .str "hi"), ("first_chunk_tokens", .int 1), ("chunk_tokens", .int 1)]

theorem streamed_eq_seamed_of_two_chunks : ∃ o, buildRequest smallestChunks "a" = .ok o ∧
    ∃ wav, oneShot steps o (atOnce [7, 8]) = some wav ∧
      ∃ rounds r, streamed steps o (atOnce [7, 8]) rounds = some r ∧ r.audio = seamed o wav := by
  have hb : buildRequest smallestChunks "a" = .ok _ := rfl
  exact ⟨_, hb, streamed_eq_seamed hb (steps_windowConsistent _) (atOnce [7, 8])
    (by decide +kernel) (by decide +kernel) (Options.fits_of_lt (by decide +kernel))⟩

/-- The second chunk starts with the value of the first token. -/
theorem smallestChunks_blended : ∃ o, buildRequest smallestChunks "a" = .ok o ∧
    (∀ globals, WindowConsistent kUpsamplePerToken o.leftOverlap (steps globals)) ∧
    (received o (atOnce [7, 8])).globalTokens.length = 32 ∧
    (received o (atOnce [7, 8])).semantic = [7, 8] ∧
    (streamed steps o (atOnce [7, 8]) 3).isSome = true ∧
    (streamed steps o (atOnce [7, 8]) 3).map audio ≠ oneShot steps o (atOnce [7, 8]) := by
  have hb : buildRequest smallestChunks "a" = .ok _ := rfl
  exact ⟨_, hb, steps_windowConsistent _, by decide +kernel, by decide +kernel, by decide +kernel,
    by decide +kernel⟩

end Samples

end Stream

end JetsonVoice.Tts.Spark
