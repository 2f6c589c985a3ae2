import JetsonVoice.Foundation.Streaming
import JetsonVoice.Tts.SparkRequest

/-!
# The audio of a Spark request

The part of `processRequest` that turns semantic tokens into audio, with the
samples themselves: the overlap-chunk vocoder with its crossfade, the token
loop, the flush after it, and the decode in a single segment.

## Implementation notes

The BiCodec engine is a function of the global tokens its d-vector was computed
from and of a window of semantic tokens. A sample is of any type with the
arithmetic of the crossfade.
-/

namespace JetsonVoice.Tts.Spark

open Foundation

/-- Tokens of the shortest window the BiCodec engine takes. -/
def kBicodecMinT : Nat := 8

/-- Samples of the crossfade at a seam. -/
def kFadeSamples : Nat := 160

variable {S : Type}

/-- The BiCodec engine, after the speaker decoder has run on the global tokens. -/
abbrev Bicodec (S : Type) := (globalTokens semantic : List Int) → List S

/-- A window, its last token repeated up to the shortest length. -/
def padWindow (semantic : List Int) : List Int :=
  semantic ++ List.replicate (kBicodecMinT - semantic.length) (semantic.getLastD 0)

/-- One run of the engine; the samples of the padding are trimmed. -/
def runBicodec (voc : List Int → List S) (semantic : List Int) : List S :=
  let wav := voc (padWindow semantic)
  let realSamples := semantic.length * kUpsamplePerToken
  if semantic.length < (padWindow semantic).length ∧ realSamples ≤ wav.length then
    wav.take realSamples
  else wav

/-- An emitted chunk, with the range of tokens it was vocoded from. -/
structure AudioChunk (S : Type) where
  index : Nat
  first : Nat
  last : Nat
  samples : List S
  isFinal : Bool
  deriving DecidableEq, Repr

/-- The token range of a chunk. -/
def AudioChunk.range (c : AudioChunk S) : Nat × Nat := (c.first, c.last)

/-- The locals of `processRequest` with its audio. -/
structure Stream (S : Type) where
  locals : State
  crossfadeTail : List S := []
  wavAccum : List S := []
  chunks : List (AudioChunk S) := []
  deriving DecidableEq, Repr

/-- The locals where the token loop begins. -/
def State.looping (o : Options) : State where
  control := .waiting
  decoder := .running
  options := some o
  globalTokens := if o.isClone then o.cloneGlobal else []
  dVectorReady := o.isClone

/-- The tokens of a request, sorted as they arrive. -/
def received (o : Options) (arrivals : List (List Int)) : State :=
  arrivals.flatten.foldl (State.sortToken o) (State.looping o)

namespace Stream

/-- Where the token loop begins. -/
def start (o : Options) : Stream S where
  locals := State.looping o

/-- Sort the tokens taken out of the channel, and compute the d-vector when the
32 global tokens are there. -/
def sortTokens (o : Options) (s : Stream S) (tokenIds : List Int) : Stream S :=
  let st := tokenIds.foldl (State.sortToken o) s.locals
  { s with locals := { st with
    dVectorReady := st.dVectorReady || decide (st.globalTokens.length = 32) } }

def emitAudioChunk (s : Stream S) (range : Nat × Nat) (samples : List S) (isFinal : Bool) :
    Stream S :=
  if samples.isEmpty && !isFinal then s
  else
    let st := s.locals.chunkState
    { s with
      locals := { s.locals with chunkState := { st with
        emittedSamples := st.emittedSamples + samples.length
        chunkIndex := st.chunkIndex + 1 } }
      chunks := s.chunks ++ [⟨st.chunkIndex, range.1, range.2, samples, isFinal⟩] }

/-- The audio of the emitted chunks. -/
def audio (s : Stream S) : List S := s.chunks.flatMap (·.samples)

end Stream

variable [Add S] [Sub S] [Mul S] [Div S] [NatCast S]

/-- The weight of the new sample goes up from 0, that of the tail down from 1. -/
def blend (i n : Nat) (new tail : S) : S :=
  let a := (i : S) / (n : S)
  a * new + (((1 : Nat) : S) - a) * tail

/-- Blend the first samples of a chunk with the tail of the one before. -/
def crossfade (tail out : List S) : List S :=
  if tail ≠ [] ∧ kFadeSamples ≤ out.length then
    let n := min kFadeSamples tail.length
    out.mapIdx fun i new => ((tail.take n)[i]?).elim new (blend i n new)
  else out

namespace Stream

/-- `vocodeChunkWindow`: the samples of a chunk, and the state for the next one. -/
def vocodeChunkWindow (v : Bicodec S) (o : Options) (s : Stream S) (endToken : Nat) :
    List S × Stream S :=
  let st := s.locals.chunkState
  let windowStart := st.emittedTokens - o.leftOverlap
  let skipSamples := (st.emittedTokens - windowStart) * kUpsamplePerToken
  let full := runBicodec (v s.locals.globalTokens) (slice s.locals.semantic windowStart endToken)
  if full.length ≤ skipSamples then ([], s)
  else
    let out := crossfade s.crossfadeTail (full.drop skipSamples)
    (out, { s with
      locals := { s.locals with chunkState := { st with emittedTokens := endToken } }
      crossfadeTail := out.drop (out.length - kFadeSamples) })

/-- Vocode and emit the tokens up to `endToken`, if there are any. -/
def emitOneChunk (v : Bicodec S) (o : Options) (s : Stream S) (endToken : Int) (isFinal : Bool) :
    Stream S :=
  let first := s.locals.chunkState.emittedTokens
  if endToken ≤ first then s
  else
    let (cs, s) := s.vocodeChunkWindow v o endToken.toNat
    { s with
      locals := { s.locals with samples := s.locals.samples + cs.length }
      wavAccum := s.wavAccum ++ cs : Stream S }.emitAudioChunk (first, endToken.toNat) cs isFinal

/-- The body of the token loop, for tokens taken out of the channel. -/
def takeTokens (v : Bicodec S) (o : Options) (s : Stream S) (tokenIds : List Int) : Stream S :=
  let s := s.sortTokens o tokenIds
  let st := s.locals
  if o.streamAudio && st.dVectorReady &&
      decide (st.want o ≤ st.semantic.length - st.chunkState.emittedTokens) then
    s.emitOneChunk v o ((st.chunkState.emittedTokens + st.want o : Nat) : Int) false
  else s

/-- The token loop, over the tokens the channel gives out. -/
def tokenLoop (v : Bicodec S) (o : Options) (arrivals : List (List Int)) : Stream S :=
  arrivals.foldl (takeTokens v o) (start o)

/-- The flush loop with the final marker after it, for so many rounds at most. -/
def flush (v : Bicodec S) (o : Options) : Nat → Bool → Stream S → Option (Stream S)
  | 0, _, _ => none
  | rounds + 1, lastWasFinal, s =>
      let st := s.locals
      let total := st.semantic.length
      if st.chunkState.emittedTokens < total then
        let isFinal := decide ((total : Int) ≤ st.endToken o)
        flush v o rounds isFinal (s.emitOneChunk v o (st.endToken o) isFinal)
      else if lastWasFinal then some s
      else some (s.emitAudioChunk (total, total) [] true)

/-- The checks before the remaining audio is vocoded pass. -/
def accepted (st : State) : Bool := st.globalTokens.length = 32 ∧ st.semantic ≠ []

/-- A request with `stream_audio` whose decode ends normally; `none` when it
throws, or is still in the flush after so many rounds. -/
def streamed (v : Bicodec S) (o : Options) (arrivals : List (List Int)) (rounds : Nat) :
    Option (Stream S) :=
  let o := { o with streamAudio := true }
  let s := tokenLoop v o arrivals
  if accepted s.locals then s.flush v o rounds false else none

/-- A request without `stream_audio`: all semantic tokens in a single segment. -/
def oneShot (v : Bicodec S) (o : Options) (arrivals : List (List Int)) : Option (List S) :=
  let st := (tokenLoop v { o with streamAudio := false } arrivals).locals
  if accepted st then some (runBicodec (v st.globalTokens) st.semantic) else none

end Stream

end JetsonVoice.Tts.Spark
