import JetsonVoice.Tts.SparkStream

/-!
# The chunk schedule of a Spark request

Chunks are emitted in the token loop and in the flush after it, at boundaries
that depend on the chunk sizes only: the first chunk, then steady ones, the last
cut off at the end of the tokens.
-/

namespace JetsonVoice.Tts.Spark

open Foundation Protocol

section Sizes

/-- The ranges of the sizes a request is accepted with. -/
structure Options.Sizes (o : Options) : Prop where
  first_pos : 1 ≤ o.firstChunkTokens
  first_lt : o.firstChunkTokens < 2 ^ 31
  chunk_pos : 1 ≤ o.chunkTokens
  chunk_lt : o.chunkTokens < 2 ^ 31
  semantic_lt : o.maxSemantic < 2 ^ 31

theorem Options.Sizes.streaming {o : Options} (h : o.Sizes) :
    ({ o with streamAudio := true } : Options).Sizes :=
  ⟨h.first_pos, h.first_lt, h.chunk_pos, h.chunk_lt, h.semantic_lt⟩

theorem int32_lt (n : Int) : int32 n < 2 ^ 31 := Int.bmod_lt (by decide)

theorem int32_of_lt {n : Int} (h0 : 0 ≤ n) (h : n < 2 ^ 31) : int32 n = n := by
  apply Int.bmod_eq_of_le <;> omega

/-- A sum past the largest 32-bit integer comes out negative. -/
theorem int32_neg {n : Int} (h0 : 2 ^ 31 ≤ n) (h : n < 2 ^ 32) : int32 n < 0 := by
  rw [int32, Int.bmod_def]
  split <;> omega

theorem read_eq_ok {α : Type} {r : Except Json.TypeError α} {a : α} :
    Protocol.read r = .ok a ↔ r = .ok a := by
  cases r <;> simp [Protocol.read, Except.mapError]

theorem toInt32_lt {v : Json} {n : Int} (h : v.toInt32 = .ok n) : n < 2 ^ 31 := by
  cases v with
  | int n' =>
      cases h
      exact int32_lt n'
  | decimal m e =>
      cases h
      exact int32_lt _
  | bool b =>
      cases h
      split <;> decide
  | _ => cases h

theorem valueInt_lt {item : Json} {key : String} {d n : Int} (hd : d < 2 ^ 31)
    (h : item.valueInt key d = .ok n) : n < 2 ^ 31 := by
  cases item with
  | obj fields =>
      rw [Json.valueInt, Json.valueWith] at h
      split at h
      · exact toInt32_lt h
      · cases h
        exact hd
  | _ => cases h

theorem buildRequest_sizes {item : Json} {id : String} {o : Options}
    (h : buildRequest item id = .ok o) : o.Sizes := by
  unfold buildRequest at h
  simp only [bind_eq_ok] at h
  obtain ⟨text, -, gender, -, pitch, -, speed, -, mode, -, ⟨cg, cr, ct⟩, -, h⟩ := h
  dsimp only at h
  obtain ⟨transport, -, progress, -, maxSemantic, hmax, stream, -, first, hfirst, steady, hsteady,
    overlap, -, file, -, h⟩ := h
  split at h
  · cases h
  · simp only [bind_eq_ok] at h
    obtain ⟨temperature, -, topP, -, topK, -, maxLength, -, template, -, prompt, -, h⟩ := h
    cases h
    have hf := valueInt_lt (by decide) (read_eq_ok.mp hfirst)
    have hs := valueInt_lt (by decide) (read_eq_ok.mp hsteady)
    have hm := valueInt_lt (by decide) (read_eq_ok.mp hmax)
    constructor <;> simp only <;> omega

end Sizes

section Sorting
variable {o : Options} {st st' : State}

/-- What sorting tokens leaves as it was, and what it can only extend. -/
structure Sorts (o : Options) (st st' : State) : Prop where
  chunkState : st'.chunkState = st.chunkState
  samples : st'.samples = st.samples
  dVectorReady : st'.dVectorReady = st.dVectorReady
  semantic : st.semantic <+: st'.semantic
  bounded : (st.semantic.length : Int) ≤ max 0 o.maxSemantic →
    (st'.semantic.length : Int) ≤ max 0 o.maxSemantic
  globalTokens : 32 ≤ st.globalTokens.length ∨ o.isClone = true →
    st'.globalTokens = st.globalTokens

theorem Sorts.refl (o : Options) (st : State) : Sorts o st st :=
  ⟨rfl, rfl, rfl, List.prefix_rfl, id, fun _ => rfl⟩

theorem Sorts.trans {st'' : State} (h : Sorts o st st') (h' : Sorts o st' st'') :
    Sorts o st st'' where
  chunkState := h'.chunkState.trans h.chunkState
  samples := h'.samples.trans h.samples
  dVectorReady := h'.dVectorReady.trans h.dVectorReady
  semantic := h.semantic.trans h'.semantic
  bounded hb := h'.bounded (h.bounded hb)
  globalTokens hg := by
    have hsame := h.globalTokens hg
    rw [h'.globalTokens (by rwa [hsame]), hsame]

theorem sorts_sortToken (o : Options) (st : State) (tid : Int) :
    Sorts o st (st.sortToken o tid) := by
  unfold State.sortToken
  extract_lets counted
  have hcounted : Sorts o st counted := { Sorts.refl o st with }
  refine hcounted.trans ?_
  split
  · split
    · exact { Sorts.refl o counted with }
    · split
      · rename_i hclone hroom
        exact { Sorts.refl o counted with
          globalTokens := fun h => absurd h (by simp [hclone, hroom]) }
      · exact Sorts.refl o counted
  · split
    · split
      · exact { Sorts.refl o counted with }
      · split
        · refine { Sorts.refl o counted with
            semantic := List.prefix_append _ _
            bounded := fun _ => ?_ }
          simp only [List.length_append, List.length_singleton]
          omega
        · exact { Sorts.refl o counted with }
    · exact Sorts.refl o counted

theorem sorts_foldl (o : Options) (tokenIds : List Int) (st : State) :
    Sorts o st (tokenIds.foldl (State.sortToken o) st) := by
  induction tokenIds generalizing st with
  | nil => exact Sorts.refl o st
  | cons tid rest ih => exact (sorts_sortToken o st tid).trans (ih _)

/-- Two states that have sorted the same tokens. -/
structure SameTokens (st st' : State) : Prop where
  globalTokens : st'.globalTokens = st.globalTokens
  semantic : st'.semantic = st.semantic
  semanticSkipped : st'.semanticSkipped = st.semanticSkipped

/-- Whether the audio is streamed plays no part in the sorting of a token. -/
theorem SameTokens.sortToken (h : SameTokens st st') (o : Options) (streamAudio : Bool) (tid : Int) :
    SameTokens (st.sortToken o tid) (st'.sortToken { o with streamAudio := streamAudio } tid) := by
  obtain ⟨hg, hs, hk⟩ := h
  have hclone : ({ o with streamAudio := streamAudio } : Options).isClone = o.isClone := rfl
  have hecho : State.refSemanticEcho { o with streamAudio := streamAudio } =
      State.refSemanticEcho o := rfl
  unfold State.sortToken
  simp only [hg, hs, hk, hclone, hecho]
  split
  · split
    · exact ⟨rfl, rfl, rfl⟩
    · split <;> exact ⟨rfl, rfl, rfl⟩
  · split
    · split
      · exact ⟨rfl, rfl, rfl⟩
      · split <;> exact ⟨rfl, rfl, rfl⟩
    · exact ⟨rfl, rfl, rfl⟩

theorem SameTokens.foldl (h : SameTokens st st') (o : Options) (streamAudio : Bool)
    (tokenIds : List Int) :
    SameTokens (tokenIds.foldl (State.sortToken o) st)
      (tokenIds.foldl (State.sortToken { o with streamAudio := streamAudio }) st') := by
  induction tokenIds generalizing st st' with
  | nil => exact h
  | cons tid rest ih => exact ih (h.sortToken o streamAudio tid)

end Sorting

section Emission
variable {S : Type}

theorem length_runBicodec {voc : List Int → List S} (hv : ∀ w, (voc w).length = kUpsamplePerToken * w.length)
    (w : List Int) : (runBicodec voc w).length = kUpsamplePerToken * w.length := by
  have hpad : w.length ≤ (padWindow w).length := by simp [padWindow]
  simp only [runBicodec, hv, kUpsamplePerToken]
  split
  · rw [List.length_take, hv, kUpsamplePerToken]
    omega
  · rw [hv, kUpsamplePerToken]
    omega

variable [Add S] [Sub S] [Mul S] [Div S] [NatCast S]

@[simp] theorem length_crossfade (tail out : List S) :
    (crossfade tail out).length = out.length := by
  unfold crossfade
  split <;> simp

namespace Stream
variable {v : Bicodec S} {o : Options} {s : Stream S}

/-- The samples of a chunk that ends at a token. -/
def newAudio (v : Bicodec S) (o : Options) (s : Stream S) (endToken : Nat) : List S :=
  let emitted := s.locals.chunkState.emittedTokens
  let windowStart := emitted - o.leftOverlap
  crossfade s.crossfadeTail
    ((runBicodec (v s.locals.globalTokens) (slice s.locals.semantic windowStart endToken)).drop
      ((emitted - windowStart) * kUpsamplePerToken))

/-- The chunk that ends at a token. -/
def newChunk (v : Bicodec S) (o : Options) (s : Stream S) (endToken : Nat) (isFinal : Bool) :
    AudioChunk S where
  index := s.locals.chunkState.chunkIndex
  first := s.locals.chunkState.emittedTokens
  last := endToken
  samples := s.newAudio v o endToken
  isFinal := isFinal

/-- The engine returns 320 samples for every token of its window. -/
def Upsamples (v : Bicodec S) : Prop := ∀ g w, (v g w).length = kUpsamplePerToken * w.length

theorem length_newAudio (hv : Upsamples v) {endToken : Nat}
    (hlt : s.locals.chunkState.emittedTokens < endToken)
    (hle : endToken ≤ s.locals.semantic.length) :
    (s.newAudio v o endToken).length =
      kUpsamplePerToken * (endToken - s.locals.chunkState.emittedTokens) := by
  simp only [newAudio, length_crossfade, List.length_drop, length_runBicodec (hv _),
    length_slice hle, kUpsamplePerToken]
  omega

theorem vocodeChunkWindow_eq (hv : Upsamples v) {endToken : Nat}
    (hlt : s.locals.chunkState.emittedTokens < endToken)
    (hle : endToken ≤ s.locals.semantic.length) :
    s.vocodeChunkWindow v o endToken = (s.newAudio v o endToken, { s with
      locals := { s.locals with
        chunkState := { s.locals.chunkState with emittedTokens := endToken } }
      crossfadeTail := (s.newAudio v o endToken).drop
        ((s.newAudio v o endToken).length - kFadeSamples) }) := by
  have hskip : ¬ (runBicodec (v s.locals.globalTokens) (slice s.locals.semantic
      (s.locals.chunkState.emittedTokens - o.leftOverlap) endToken)).length ≤
      (s.locals.chunkState.emittedTokens - (s.locals.chunkState.emittedTokens - o.leftOverlap)) *
        kUpsamplePerToken := by
    rw [length_runBicodec (hv _), length_slice hle, kUpsamplePerToken]
    omega
  rw [vocodeChunkWindow, if_neg hskip]
  rfl

/-- A chunk with tokens of its own is emitted with all their samples. -/
theorem emitOneChunk_eq (hv : Upsamples v) {endToken : Nat} (isFinal : Bool)
    (hlt : s.locals.chunkState.emittedTokens < endToken)
    (hle : endToken ≤ s.locals.semantic.length) :
    s.emitOneChunk v o endToken isFinal =
      { locals := { s.locals with
          samples := s.locals.samples + (s.newAudio v o endToken).length
          chunkState := ⟨endToken, s.locals.chunkState.chunkIndex + 1,
            s.locals.chunkState.emittedSamples + (s.newAudio v o endToken).length⟩ }
        crossfadeTail := (s.newAudio v o endToken).drop
          ((s.newAudio v o endToken).length - kFadeSamples)
        wavAccum := s.wavAccum ++ s.newAudio v o endToken
        chunks := s.chunks ++ [s.newChunk v o endToken isFinal] } := by
  have hnonempty : (s.newAudio v o endToken).isEmpty = false := by
    rw [List.isEmpty_eq_false_iff, ← List.length_pos_iff, length_newAudio hv hlt hle,
      kUpsamplePerToken]
    omega
  rw [emitOneChunk, if_neg (by omega), Int.toNat_natCast, vocodeChunkWindow_eq hv hlt hle]
  simp only [emitAudioChunk, hnonempty, Bool.false_and, Bool.false_eq_true, if_false, newChunk]

end Stream

end Emission

/-- Where the chunk of an index starts. -/
def Options.boundary (o : Options) : Nat → Nat
  | 0 => 0
  | j + 1 => o.firstChunkTokens + j * o.chunkTokens

/-- Every chunk that starts before the end of the tokens has room for its size
in a 32-bit integer. -/
def Options.Fits (o : Options) (total : Nat) : Prop :=
  ∀ j, o.boundary j < total → o.boundary (j + 1) < 2 ^ 31

section Boundaries
variable {o : Options}

theorem Options.Sizes.boundary_lt (h : o.Sizes) (j : Nat) : o.boundary j < o.boundary (j + 1) := by
  cases j with
  | zero =>
      have hpos := h.first_pos
      simp only [Options.boundary]
      omega
  | succ j =>
      have hpos := h.chunk_pos
      simp only [Options.boundary, Nat.add_mul]
      omega

theorem Options.Sizes.boundary_mono (h : o.Sizes) {i j : Nat} (hij : i ≤ j) :
    o.boundary i ≤ o.boundary j := monotone_nat_of_le_succ (fun j => (h.boundary_lt j).le) hij

/-- Sizes far from the largest integer have room. -/
theorem Options.fits_of_lt {total : Nat}
    (h : o.firstChunkTokens + total + o.chunkTokens < 2 ^ 31) : o.Fits total := by
  intro j hj
  cases j with
  | zero =>
      simp only [Options.boundary]
      omega
  | succ j =>
      simp only [Options.boundary, Nat.add_mul] at hj ⊢
      omega

theorem boundary_add_want {st : State} {j : Nat} (h : st.chunkState.chunkIndex = j) :
    o.boundary j + st.want o = o.boundary (j + 1) := by
  subst h
  cases hj : st.chunkState.chunkIndex with
  | zero => simp [State.want, hj, Options.boundary]
  | succ j =>
      simp only [State.want, hj, Options.boundary, Nat.add_mul]
      simp
      omega

end Boundaries

namespace Stream
variable {S : Type} {v : Bicodec S} {o : Options} {s : Stream S} {total : Nat}

/-- The chunks emitted so far, out of `total` semantic tokens. -/
structure Laid (o : Options) (total : Nat) (s : Stream S) : Prop where
  index : s.locals.chunkState.chunkIndex = s.chunks.length
  emitted : s.locals.chunkState.emittedTokens = min total (o.boundary s.chunks.length)
  indices : s.chunks.map (·.index) = List.range s.chunks.length
  tiles : Tiles 0 (s.chunks.map (·.range)) s.locals.chunkState.emittedTokens
  samples : (s.chunks.map (·.samples.length)).sum =
    kUpsamplePerToken * s.locals.chunkState.emittedTokens

/-- No chunk has been marked final. -/
def Open (s : Stream S) : Prop := s.chunks.map (·.isFinal) = List.replicate s.chunks.length false

/-- The schedule of a request that has finished. -/
structure Scheduled (total : Nat) (s : Stream S) : Prop where
  tiles : Tiles 0 (s.chunks.map (·.range)) total
  indices : s.chunks.map (·.index) = List.range s.chunks.length
  final : s.chunks.map (·.isFinal) = List.replicate (s.chunks.length - 1) false ++ [true]
  samples : (s.chunks.map (·.samples.length)).sum = kUpsamplePerToken * total

/-- In the token loop every emitted chunk is full and none is final. -/
structure Live (o : Options) (total : Nat) (s : Stream S) : Prop extends Laid o total s where
  full : o.boundary s.chunks.length ≤ s.locals.semantic.length
  unmarked : s.Open

theorem Live.sortTokens (h : Live o total s) (tokenIds : List Int) :
    Live o total (s.sortTokens o tokenIds) := by
  have hs := sorts_foldl o tokenIds s.locals
  constructor
  · constructor
    · exact (congrArg ChunkStreamState.chunkIndex hs.chunkState).trans h.index
    · exact (congrArg ChunkStreamState.emittedTokens hs.chunkState).trans h.emitted
    · exact h.indices
    · simpa only [Stream.sortTokens, hs.chunkState] using h.tiles
    · simpa only [Stream.sortTokens, hs.chunkState] using h.samples
  · exact h.full.trans hs.semantic.length_le
  · exact h.unmarked

theorem live_start (o : Options) (total : Nat) : Live o total (start o : Stream S) where
  index := rfl
  emitted := (Nat.min_zero total).symm
  indices := rfl
  tiles := rfl
  samples := rfl
  full := le_rfl
  unmarked := rfl

/-- Where the next chunk of the flush ends, as long as its size has room. -/
theorem Laid.endToken (h : Laid o total s) (hsem : s.locals.semantic.length = total)
    (hlt : s.locals.chunkState.emittedTokens < total)
    (hfit : o.boundary (s.chunks.length + 1) < 2 ^ 31) :
    s.locals.endToken o = (min total (o.boundary (s.chunks.length + 1)) : Nat) := by
  have hsum := boundary_add_want (o := o) h.index
  have hemitted := h.emitted
  rw [State.endToken, hsem, int32_of_lt (by omega) (by omega)]
  omega

/-- Without room the sum of the sizes wraps around and the round emits nothing. -/
theorem Laid.wraps (h : Laid o total s) (hz : o.Sizes) (htotal : total < 2 ^ 31)
    (hlt : s.locals.chunkState.emittedTokens < total)
    (hfull : 2 ^ 31 ≤ o.boundary (s.chunks.length + 1)) : s.locals.endToken o < 0 := by
  have hsum := boundary_add_want (o := o) h.index
  have hemitted := h.emitted
  have hwant : s.locals.want o < 2 ^ 31 := by
    unfold State.want
    split
    · exact hz.first_lt
    · exact hz.chunk_lt
  have hneg := int32_neg (n := s.locals.chunkState.emittedTokens + s.locals.want o)
    (by omega) (by omega)
  rw [State.endToken]
  omega

/-- With nothing left the empty marker closes the schedule. -/
theorem Live.mark (h : Live o total s) (hdone : s.locals.chunkState.emittedTokens = total) :
    Scheduled total (s.emitAudioChunk (total, total) [] true) where
  tiles := by simpa [emitAudioChunk, AudioChunk.range] using (hdone ▸ h.tiles).snoc le_rfl
  indices := by simp [emitAudioChunk, h.indices, h.index, List.range_succ]
  final := by
    have hunmarked : s.chunks.map (·.isFinal) = List.replicate s.chunks.length false := h.unmarked
    simp [emitAudioChunk, hunmarked]
  samples := by simp [emitAudioChunk, h.samples, hdone]

variable [Add S] [Sub S] [Mul S] [Div S] [NatCast S]

theorem Laid.emit (h : Laid o total s) (hv : Upsamples v) (hz : o.Sizes) (isFinal : Bool)
    (hlt : s.locals.chunkState.emittedTokens < total)
    (hle : min total (o.boundary (s.chunks.length + 1)) ≤ s.locals.semantic.length) :
    Laid o total
      (s.emitOneChunk v o (min total (o.boundary (s.chunks.length + 1)) : Nat) isFinal) := by
  have hstep := hz.boundary_lt s.chunks.length
  have hgrow : s.locals.chunkState.emittedTokens <
      min total (o.boundary (s.chunks.length + 1)) := by
    have := h.emitted
    omega
  rw [emitOneChunk_eq hv isFinal hgrow hle]
  constructor
  · simp [h.index]
  · simp
  · simp [h.indices, newChunk, h.index, List.range_succ]
  · simpa [newChunk, AudioChunk.range] using h.tiles.snoc hgrow.le
  · simp only [List.map_append, List.map_cons, List.map_nil, List.sum_append, List.sum_singleton,
      newChunk, h.samples, length_newAudio hv hgrow hle, kUpsamplePerToken]
    omega

/-- Emitting touches the chunk state and the count of samples only. -/
theorem emitOneChunk_locals (v : Bicodec S) (o : Options) (s : Stream S) (endToken : Int)
    (isFinal : Bool) : ∃ chunkState samples, (s.emitOneChunk v o endToken isFinal).locals =
      { s.locals with chunkState := chunkState, samples := samples } := by
  unfold emitOneChunk vocodeChunkWindow emitAudioChunk
  dsimp only
  split_ifs <;> exact ⟨_, _, rfl⟩

theorem takeTokens_locals (v : Bicodec S) (o : Options) (s : Stream S) (tokenIds : List Int) :
    ∃ chunkState samples, (s.takeTokens v o tokenIds).locals =
      { (s.sortTokens o tokenIds).locals with chunkState := chunkState, samples := samples } := by
  unfold takeTokens
  dsimp only
  split
  · exact emitOneChunk_locals v o _ _ _
  · exact ⟨_, _, rfl⟩

theorem takeTokens_same (v : Bicodec S) (o : Options) (s : Stream S) (tokenIds : List Int) :
    SameTokens (tokenIds.foldl (State.sortToken o) s.locals) (s.takeTokens v o tokenIds).locals := by
  obtain ⟨chunkState, samples, heq⟩ := takeTokens_locals v o s tokenIds
  rw [heq]
  exact ⟨rfl, rfl, rfl⟩

/-- The token loop has sorted the tokens that arrived, whatever it emitted meanwhile. -/
theorem foldl_same (v : Bicodec S) (o : Options) (streamAudio : Bool) (arrivals : List (List Int))
    {st : State} (h : SameTokens st s.locals) :
    SameTokens (arrivals.flatten.foldl (State.sortToken o) st)
      (arrivals.foldl (takeTokens v { o with streamAudio := streamAudio }) s).locals := by
  induction arrivals generalizing st s with
  | nil => exact h
  | cons tokenIds rest ih =>
      rw [List.flatten_cons, List.foldl_append]
      apply ih
      have hsorted := h.foldl o streamAudio tokenIds
      have htaken := takeTokens_same v { o with streamAudio := streamAudio } s tokenIds
      exact ⟨htaken.globalTokens.trans hsorted.globalTokens,
        htaken.semantic.trans hsorted.semantic,
        htaken.semanticSkipped.trans hsorted.semanticSkipped⟩

theorem tokenLoop_same (v : Bicodec S) (o : Options) (streamAudio : Bool)
    (arrivals : List (List Int)) :
    SameTokens (received o arrivals)
      (tokenLoop v { o with streamAudio := streamAudio } arrivals).locals :=
  foldl_same v o streamAudio arrivals ⟨rfl, rfl, rfl⟩

theorem takeTokens_extends (v : Bicodec S) (o : Options) (s : Stream S) (tokenIds : List Int) :
    s.locals.semantic <+: (s.takeTokens v o tokenIds).locals.semantic := by
  rw [(takeTokens_same v o s tokenIds).semantic]
  exact (sorts_foldl o tokenIds s.locals).semantic

theorem foldl_extends (v : Bicodec S) (o : Options) (s : Stream S) (arrivals : List (List Int)) :
    s.locals.semantic <+: (arrivals.foldl (takeTokens v o) s).locals.semantic := by
  induction arrivals generalizing s with
  | nil => exact List.prefix_rfl
  | cons tokenIds rest ih => exact (takeTokens_extends v o s tokenIds).trans (ih _)

theorem Live.takeTokens (h : Live o total s) (hv : Upsamples v) (hz : o.Sizes)
    (tokenIds : List Int) (hle : (s.takeTokens v o tokenIds).locals.semantic.length ≤ total) :
    Live o total (s.takeTokens v o tokenIds) := by
  have hs := h.sortTokens tokenIds
  have hle : (s.sortTokens o tokenIds).locals.semantic.length ≤ total := by
    rw [(takeTokens_same v o s tokenIds).semantic] at hle
    exact hle
  unfold Stream.takeTokens
  dsimp only
  split
  · rename_i hwant
    simp only [Bool.and_eq_true, decide_eq_true_eq] at hwant
    generalize s.sortTokens o tokenIds = s at hs hle hwant ⊢
    have hstep := hz.boundary_lt s.chunks.length
    have hsum := boundary_add_want (o := o) hs.index
    have hemitted : s.locals.chunkState.emittedTokens = o.boundary s.chunks.length := by
      rw [hs.emitted]
      exact min_eq_right (hs.full.trans hle)
    have hend : s.locals.chunkState.emittedTokens + s.locals.want o =
        min total (o.boundary (s.chunks.length + 1)) := by omega
    have hlive := hs.emit hv hz false (by omega) (by omega)
    rw [hend]
    refine ⟨hlive, ?_, ?_⟩
    · rw [emitOneChunk_eq hv false (by omega) (by omega)]
      simp only [List.length_append, List.length_singleton]
      omega
    · rw [emitOneChunk_eq hv false (by omega) (by omega)]
      simp [Open, newChunk, hs.unmarked.symm ▸ List.replicate_succ']
  · exact hs

theorem Live.foldl (hv : Upsamples v) (hz : o.Sizes) (arrivals : List (List Int))
    (h : Live o total s)
    (hle : (arrivals.foldl (Stream.takeTokens v o) s).locals.semantic.length ≤ total) :
    Live o total (arrivals.foldl (Stream.takeTokens v o) s) := by
  induction arrivals generalizing s with
  | nil => exact h
  | cons tokenIds rest ih =>
      have hgrow := (foldl_extends v o (s.takeTokens v o tokenIds) rest).length_le
      exact ih (h.takeTokens hv hz tokenIds (hgrow.trans hle)) hle

/-- The semantic tokens never outgrow the cap of the request. -/
theorem foldl_bounded (v : Bicodec S) (o : Options) (arrivals : List (List Int)) (s : Stream S)
    (h : (s.locals.semantic.length : Int) ≤ max 0 o.maxSemantic) :
    ((arrivals.foldl (Stream.takeTokens v o) s).locals.semantic.length : Int) ≤
      max 0 o.maxSemantic := by
  induction arrivals generalizing s with
  | nil => exact h
  | cons tokenIds rest ih =>
      apply ih
      rw [(takeTokens_same v o s tokenIds).semantic]
      exact (sorts_foldl o tokenIds s.locals).bounded h

section Flush

/-- A round of the flush that does not reach the end emits a full chunk. -/
theorem Live.emit (h : Live o total s) (hv : Upsamples v) (hz : o.Sizes)
    (hsem : s.locals.semantic.length = total)
    (hend : o.boundary (s.chunks.length + 1) < total) :
    Live o total (s.emitOneChunk v o (o.boundary (s.chunks.length + 1) : Nat) false) := by
  have hstep := hz.boundary_lt s.chunks.length
  have hemitted := h.emitted
  have hlaid := h.toLaid.emit hv hz false (by omega) (by omega)
  rw [min_eq_right hend.le] at hlaid
  refine ⟨hlaid, ?_, ?_⟩
  · rw [emitOneChunk_eq hv false (by omega) (by omega)]
    simp only [List.length_append, List.length_singleton]
    omega
  · rw [emitOneChunk_eq hv false (by omega) (by omega)]
    simp [Open, newChunk, h.unmarked.symm ▸ List.replicate_succ']

/-- The last chunk of the flush closes the schedule. -/
theorem Live.close (h : Live o total s) (hv : Upsamples v) (hz : o.Sizes)
    (hsem : s.locals.semantic.length = total)
    (hlt : s.locals.chunkState.emittedTokens < total)
    (hend : total ≤ o.boundary (s.chunks.length + 1)) :
    (s.emitOneChunk v o (total : Nat) true).locals.chunkState.emittedTokens = total ∧
    Scheduled total (s.emitOneChunk v o (total : Nat) true) := by
  have hlaid := h.toLaid.emit hv hz true hlt (by omega)
  rw [min_eq_left hend] at hlaid
  have heq := emitOneChunk_eq (o := o) hv true hlt hsem.ge
  have hemitted : (s.emitOneChunk v o (total : Nat) true).locals.chunkState.emittedTokens =
      total := by rw [heq]
  have htiles := hlaid.tiles
  have hsamples := hlaid.samples
  rw [hemitted] at htiles hsamples
  have hunmarked : s.chunks.map (·.isFinal) = List.replicate s.chunks.length false := h.unmarked
  refine ⟨hemitted, htiles, hlaid.indices, ?_, hsamples⟩
  rw [heq]
  simp [newChunk, hunmarked]

/-- The flush of a request whose sizes fit ends, with the schedule complete. -/
theorem Live.flush (h : Live o total s) (hv : Upsamples v) (hz : o.Sizes)
    (hsem : s.locals.semantic.length = total) (hfit : o.Fits total) :
    ∃ rounds r, s.flush v o rounds false = some r ∧ Scheduled total r := by
  induction hn : total - s.locals.chunkState.emittedTokens using Nat.strong_induction_on
    generalizing s with
  | _ n ih =>
    have hemitted := h.emitted
    by_cases hlt : s.locals.chunkState.emittedTokens < total
    · have hend := h.endToken hsem hlt (hfit _ (by omega))
      by_cases hlast : total ≤ o.boundary (s.chunks.length + 1)
      · rw [min_eq_left hlast] at hend
        obtain ⟨hdone, hscheduled⟩ := h.close hv hz hsem hlt hlast
        have hsem' : (s.emitOneChunk v o (total : Nat) true).locals.semantic.length = total := by
          rw [emitOneChunk_eq hv true hlt hsem.ge]
          exact hsem
        refine ⟨2, _, ?_, hscheduled⟩
        simp [Stream.flush, hsem, hlt, hend, hsem', hdone]
      · rw [min_eq_right (by omega)] at hend
        have hstep := hz.boundary_lt s.chunks.length
        have hlive := h.emit hv hz hsem (by omega)
        have heq := emitOneChunk_eq (o := o) (s := s) hv false
          (show s.locals.chunkState.emittedTokens < o.boundary (s.chunks.length + 1) by omega)
          (by omega)
        obtain ⟨rounds, r, hr, hscheduled⟩ := ih _ (by rw [heq]; simp only; omega) hlive
          (by rw [heq]; exact hsem) rfl
        refine ⟨rounds + 1, r, ?_, hscheduled⟩
        have hmore : ¬ ((total : Int) ≤ (o.boundary (s.chunks.length + 1) : Nat)) := by omega
        simp only [Stream.flush, hsem, hlt, hend, hmore, if_true, decide_false]
        exact hr
    · have hdone : s.locals.chunkState.emittedTokens = total := by omega
      refine ⟨1, _, ?_, h.mark hdone⟩
      simp [Stream.flush, hsem, hdone]

/-- The flush of a request whose sizes do not fit goes round for ever. -/
theorem Live.flush_none (hv : Upsamples v) (hz : o.Sizes) (htotal : total < 2 ^ 31) {j : Nat}
    (hlt : o.boundary j < total) (hfull : 2 ^ 31 ≤ o.boundary (j + 1)) (rounds : Nat)
    (h : Live o total s) (hsem : s.locals.semantic.length = total) (hj : s.chunks.length ≤ j)
    (lastWasFinal : Bool) : s.flush v o rounds lastWasFinal = none := by
  induction rounds generalizing s lastWasFinal with
  | zero => rfl
  | succ rounds ih =>
      have hemitted := h.emitted
      have hmono := hz.boundary_mono hj
      have hmore : s.locals.chunkState.emittedTokens < s.locals.semantic.length := by omega
      rw [Stream.flush, if_pos hmore]
      dsimp only
      by_cases hstuck : s.chunks.length = j
      · have hneg := h.wraps hz htotal (by omega) (by rwa [hstuck])
        rw [emitOneChunk, if_pos (by omega)]
        exact ih h hsem hj _
      · have hnext : o.boundary (s.chunks.length + 1) < total :=
          (hz.boundary_mono (Nat.lt_of_le_of_ne hj hstuck)).trans_lt hlt
        have hgrow : s.locals.chunkState.emittedTokens < o.boundary (s.chunks.length + 1) :=
          (hemitted.le.trans (min_le_right _ _)).trans_lt (hz.boundary_lt s.chunks.length)
        have hend := h.endToken hsem (hgrow.trans hnext) (hnext.trans htotal)
        rw [min_eq_right hnext.le] at hend
        have heq := emitOneChunk_eq (v := v) (o := o) hv false hgrow (hnext.le.trans hsem.ge)
        rw [hsem, hend, decide_eq_false (not_le.mpr (Int.ofNat_lt.mpr hnext))]
        refine ih (h.emit hv hz hsem hnext) ?_ ?_ _
        · rw [heq]
          exact hsem
        · rw [heq, List.length_append, List.length_singleton]
          exact Nat.lt_of_le_of_ne hj hstuck

end Flush

section Requests
variable {item : Json} {id : String} (hb : buildRequest item id = .ok o) (hv : Upsamples v)
  (arrivals : List (List Int))
include hb hv

theorem live_tokenLoop : Live { o with streamAudio := true } (received o arrivals).semantic.length
    (tokenLoop v { o with streamAudio := true } arrivals) := by
  have hlen := congrArg List.length (tokenLoop_same v o true arrivals).semantic
  exact (live_start _ _).foldl hv (buildRequest_sizes hb).streaming arrivals hlen.le

/-- A size without room keeps the request in the flush, if it gets there. -/
theorem streamed_none {j : Nat} (hlt : o.boundary j < (received o arrivals).semantic.length)
    (hfull : 2 ^ 31 ≤ o.boundary (j + 1)) (rounds : Nat) : streamed v o arrivals rounds = none := by
  have hz := (buildRequest_sizes hb).streaming
  have hsem := congrArg List.length (tokenLoop_same v o true arrivals).semantic
  have hlive := live_tokenLoop hb hv arrivals
  have htotal : (received o arrivals).semantic.length < 2 ^ 31 := by
    have hbounded := foldl_bounded v { o with streamAudio := true } arrivals
      (start { o with streamAudio := true }) (Int.le_max_left 0 _)
    rw [← hsem]
    exact Int.ofNat_lt.mp (lt_of_le_of_lt hbounded (max_lt (by decide) hz.semantic_lt))
  -- The chunks of the token loop are full, so none of them lies past the stuck one.
  have hj : (tokenLoop v { o with streamAudio := true } arrivals).chunks.length ≤ j := by
    by_contra hpast
    have hmono := hz.boundary_mono (Nat.lt_of_not_le hpast)
    exact absurd ((hmono.trans (hlive.full.trans hsem.le)).trans_lt htotal) (Nat.not_lt.mpr hfull)
  simp only [streamed]
  split
  · exact hlive.flush_none hv hz htotal hlt hfull rounds hsem hj false
  · rfl

/-- A request that ends normally streams a complete schedule, when its sizes fit. -/
theorem streamed_scheduled (hglobal : (received o arrivals).globalTokens.length = 32)
    (hsem : (received o arrivals).semantic ≠ [])
    (hfit : o.Fits (received o arrivals).semantic.length) :
    ∃ rounds r, streamed v o arrivals rounds = some r ∧
      Scheduled (received o arrivals).semantic.length r := by
  have hsame := tokenLoop_same v o true arrivals
  have haccepted : accepted (tokenLoop v { o with streamAudio := true } arrivals).locals = true := by
    simp [accepted, hsame.globalTokens, hsame.semantic, hglobal, hsem]
  simp only [streamed, haccepted, if_true]
  exact (live_tokenLoop hb hv arrivals).flush hv (buildRequest_sizes hb).streaming
    (congrArg List.length hsame.semantic) hfit

/-- The schedule of a request that ends normally is complete exactly when its
sizes fit. -/
theorem schedule_complete_iff (hglobal : (received o arrivals).globalTokens.length = 32)
    (hsem : (received o arrivals).semantic ≠ []) :
    (∃ rounds r, streamed v o arrivals rounds = some r ∧
      Scheduled (received o arrivals).semantic.length r) ↔
    o.Fits (received o arrivals).semantic.length := by
  constructor
  · rintro ⟨rounds, r, hr, -⟩ j hj
    by_contra hfull
    rw [streamed_none hb hv arrivals hj (Nat.le_of_not_lt hfull) rounds] at hr
    cases hr
  · exact streamed_scheduled hb hv arrivals hglobal hsem

end Requests

section Samples

/-- A vocoder that holds the value of a token for its 320 samples. -/
def steps : Bicodec Rat := fun _ semantic =>
  semantic.flatMap fun (t : Int) => List.replicate kUpsamplePerToken (t : Rat)

theorem steps_windowConsistent (context : Nat) (globals : List Int) :
    WindowConsistent kUpsamplePerToken context (steps globals) :=
  windowConsistent_flatMap context fun _ => List.length_replicate

theorem steps_upsamples : Upsamples steps := fun globals =>
  (steps_windowConsistent 0 globals).length

/-- The tokens of a controllable request, all at once. -/
def atOnce (semantic : List Int) : List (List Int) :=
  [(List.range 32).map (fun i => kGlobalIdBase + i) ++ semantic.map (kSemanticIdBase + ·)]

theorem schedule_complete_of_one_token :
    ∃ o, buildRequest (.obj [("text", .str "hi")]) "a" = .ok o ∧
    ((∃ rounds r, streamed steps o (atOnce [7]) rounds = some r ∧
      Scheduled (received o (atOnce [7])).semantic.length r) ↔
    o.Fits (received o (atOnce [7])).semantic.length) := by
  have hb : buildRequest (.obj [("text", .str "hi")]) "a" = .ok _ := rfl
  exact ⟨_, hb, schedule_complete_iff hb steps_upsamples (atOnce [7]) (by decide +kernel)
    (by decide +kernel)⟩

/-- A request for chunks as large as a 32-bit integer allows. -/
def largestChunks : Json :=
  .obj [("text", .str "hi"), ("first_chunk_tokens", .int 1), ("chunk_tokens", .int 2147483647)]

/-- Its second chunk would start at token 1, and it never ends. -/
theorem largestChunks_unfinished : ∃ o, buildRequest largestChunks "a" = .ok o ∧
    (received o (atOnce [7, 8])).globalTokens.length = 32 ∧
    (received o (atOnce [7, 8])).semantic = [7, 8] ∧
    ∀ rounds, streamed steps o (atOnce [7, 8]) rounds = none := by
  have hb : buildRequest largestChunks "a" = .ok _ := rfl
  refine ⟨_, hb, by decide +kernel, by decide +kernel, fun rounds => ?_⟩
  exact streamed_none (j := 1) hb steps_upsamples (atOnce [7, 8]) (by decide +kernel)
    (by decide) rounds

end Samples

end Stream

end JetsonVoice.Tts.Spark
