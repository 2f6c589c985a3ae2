import JetsonVoice.Runtime.CacheManager

/-!
# Streaming ASR sessions

`AsrStreamingSessionRuntime` appends token chunks to a decoding context of one
batch row, so its tokens land on row 0 of the cache. A prefill of one token on
a non-empty row would be taken for a decode step. To keep steps longer than
that, the last token of a non-final text chunk is held back and put in front of
the next chunk.

## Implementation notes

The engine is a parameter. A call on it is refused before it commits anything,
fails after the commit, or performs; which of these, and what is sampled, is a
function of what the engine reads.
-/

namespace JetsonVoice.Runtime

/-- How a prefill or a decode step ends. -/
inductive CallResult where
  | refused
  | failedAfterCommit
  | performed (sampled : Int)
  deriving DecidableEq, Repr

/-- Whether the call returned success. -/
def CallResult.isPerformed : CallResult → Bool
  | .performed _ => true
  | _ => false

/-- Whether the call committed its tokens. -/
def CallResult.commits : CallResult → Bool
  | .refused => false
  | _ => true

/-- The engine calls a session makes. `encodeAudioChunk` gives the number of
audio embeddings, `evict` whether the eviction succeeds. -/
structure Engine (Mel : Type*) where
  encodeAudioChunk : Mel → Option Nat
  appendPrefillChunk : KvView → List Int → Option Mel → Bool → CallResult
  decodeStep : KvView → List Int → CallResult
  evict : KvView → Bool
  eosId : Int
  detokenize : List Int → String

/-- What eviction keeps of a finished row. -/
structure BatchResult where
  tokenIds : List Int
  generateLength : Nat
  deriving DecidableEq, Repr

/-- `DecodingInferenceContext` with the one row an ASR session uses. The row is
active until it is evicted. -/
structure Context where
  tokenIds : List Int := []
  currentGenerateLength : Nat := 0
  maxGenerateLength : Nat := 0
  finished : Bool := false
  active : Bool := false
  generationRound : Nat := 0
  completed : Option BatchResult := none
  deriving DecidableEq, Repr

/-- `activeBatchSize`. -/
def Context.activeBatchSize (ctx : Context) : Nat := ctx.active.toNat

/-- A sampled token is appended to the row and counted. -/
def Context.sample (ctx : Context) (token : Int) : Context :=
  { ctx with
    tokenIds := ctx.tokenIds ++ [token]
    currentGenerateLength := ctx.currentGenerateLength + 1 }

/-- Lifecycle of a streaming session. -/
inductive AsrSessionStatus where
  | kIdle
  | kActive
  | kFinished
  deriving DecidableEq, Repr

/-- The members of a session. -/
structure Session where
  lane : Nat
  status : AsrSessionStatus := .kIdle
  maxPositions : Int := 0
  appendedTokens : Nat := 0
  chunkCount : Nat := 0
  pendingTextTail : List Int := []
  context : Context := {}
  transcript : String := ""
  deriving DecidableEq, Repr

/-- A session and the cache it runs on. -/
structure Live where
  session : Session
  cache : KvCache

namespace Live

/-- The tokens committed to the session's row. -/
def committed (l : Live) : List Int := (l.cache.rows 0).committed

/-- The committed length of the session's row. -/
def kvLength (l : Live) : Nat := (l.cache.rows 0).length

end Live

/-- Outcomes of the calls `beginAsrSession` makes. -/
structure BeginCalls where
  setUp : Bool := true
  mrope : Bool := true
  scratch : Bool := true

/-- `beginAsrSession` on a fixed lane: the context is fresh, and setting up the
prefill resets the cache to the one row of the context. -/
def beginAsrSession (l : Live) (calls : BeginCalls) (promptTokenIds : List Int)
    (maxPositions : Int) (maxAudioTokensPerChunk maxGenerateLength : Int) : Bool × Live :=
  let s := l.session
  if s.status ≠ .kIdle then (false, l)
  else if hb : l.cache.maxBatch ≤ s.lane then (false, l)
  else if maxGenerateLength ≤ 0 then (false, l)
  else
    let fresh := { s with
      context := { tokenIds := promptTokenIds
                   maxGenerateLength := maxGenerateLength.toNat
                   active := true } }
    if calls.setUp = false then (false, { l with session := fresh })
    else
      let cache := l.cache.resetForNewSequences 1 (by omega)
      if calls.mrope = false then (false, ⟨fresh, cache⟩)
      else if 0 < maxAudioTokensPerChunk ∧ calls.scratch = false then (false, ⟨fresh, cache⟩)
      else (true, ⟨{ fresh with
        maxPositions := maxPositions
        appendedTokens := 0
        chunkCount := 0
        transcript := ""
        status := .kActive }, cache⟩)

/-- `endAsrSession` on a fixed lane: the active batch is reset and every member
is cleared. -/
def endAsrSession (l : Live) : Live :=
  if l.session.status = .kIdle then l
  else ⟨{ lane := l.session.lane },
    l.cache.resetForNewSequences l.cache.activeBatch l.cache.activeBatch_le⟩

/-- What an append did: whether it was accepted, and the tokens it handed to
the engine if it came that far. -/
structure Append where
  accepted : Bool
  step : Option (List Int)
  deriving DecidableEq, Repr

/-- Split tokens into a step and the tail held back from it. -/
def holdBack (defer : Bool) (tokens : List Int) : List Int × List Int :=
  if defer then (tokens.dropLast, tokens.getLast?.toList) else (tokens, [])

theorem holdBack_append (defer : Bool) (tokens : List Int) :
    (holdBack defer tokens).1 ++ (holdBack defer tokens).2 = tokens := by
  cases defer with
  | false => exact List.append_nil tokens
  | true =>
      simp only [holdBack, if_true]
      rw [List.dropLast_eq_take, List.take_append_getLast?]

namespace Session

variable (s : Session)

/-- The held-back tail in front of the chunk. -/
def effectiveTokens (chunk : List Int) : List Int := s.pendingTextTail ++ chunk

/-- Hold the last token back: not on the final chunk, not on audio, and only if
a token remains. -/
def deferTail (chunk : List Int) (textOnly isFinalChunk : Bool) : Bool :=
  !isFinalChunk && textOnly && decide (2 ≤ (s.effectiveTokens chunk).length)

/-- The tokens of this prefill step. -/
def stepTokens (chunk : List Int) (textOnly isFinalChunk : Bool) : List Int :=
  (holdBack (s.deferTail chunk textOnly isFinalChunk) (s.effectiveTokens chunk)).1

/-- The tail held back if the step succeeds. -/
def nextPendingTail (chunk : List Int) (textOnly isFinalChunk : Bool) : List Int :=
  (holdBack (s.deferTail chunk textOnly isFinalChunk) (s.effectiveTokens chunk)).2

/-- `priorKvNonEmpty`. -/
def priorKvNonEmpty : Bool := decide (0 < s.chunkCount) || !s.pendingTextTail.isEmpty

/-- The step would be a single token on a non-empty row. -/
def refusesStep (step : List Int) : Bool := decide (step.length = 1) && s.priorKvNonEmpty

/-- The step would exceed the positions the session was begun for. -/
def overflows (step : List Int) : Prop :=
  0 < s.maxPositions ∧ s.maxPositions < s.appendedTokens + step.length

instance (step : List Int) : Decidable (s.overflows step) :=
  inferInstanceAs (Decidable (_ ∧ _))

/-- The member updates after a successful prefill. The final chunk samples a
token and finishes the session. -/
def accept (step tail : List Int) (isFinalChunk : Bool) (sampled : Int) : Session :=
  { s with
    pendingTextTail := tail
    appendedTokens := s.appendedTokens + step.length
    chunkCount := s.chunkCount + 1
    status := if isFinalChunk then .kFinished else s.status
    context := if isFinalChunk then s.context.sample sampled else s.context }

end Session

section Append
variable {Mel : Type*} (E : Engine Mel)

/-- The encoder runs only when the chunk has audio. -/
def encodes (mel : Option Mel) : Bool := mel.all fun m => (E.encodeAudioChunk m).isSome

/-- The prefill call and what follows it. -/
def runStep (l : Live) (step tail : List Int) (mel : Option Mel) (isFinalChunk : Bool) :
    Append × Live :=
  match E.appendPrefillChunk l.cache.view step mel isFinalChunk with
  | .refused => (⟨false, some step⟩, l)
  | .failedAfterCommit => (⟨false, some step⟩, { l with cache := l.cache.commit [step] })
  | .performed token =>
      (⟨true, some step⟩, ⟨l.session.accept step tail isFinalChunk token, l.cache.commit [step]⟩)

/-- `appendChunkImpl`. No member changes before the prefill has succeeded. -/
def appendChunkImpl (l : Live) (chunk : List Int) (mel : Option Mel) (isFinalChunk : Bool) :
    Append × Live :=
  let s := l.session
  let step := s.stepTokens chunk mel.isNone isFinalChunk
  if s.status ≠ .kActive then (⟨false, none⟩, l)
  else if chunk = [] then (⟨false, none⟩, l)
  else if s.refusesStep step then (⟨false, none⟩, l)
  else if s.overflows step then (⟨false, none⟩, l)
  else if encodes E mel = false then (⟨false, none⟩, l)
  else runStep E l step (s.nextPendingTail chunk mel.isNone isFinalChunk) mel isFinalChunk

end Append

namespace Session

variable (s : Session)

/-- What is committed and what is held back are together the effective tokens. -/
theorem stepTokens_append_tail (chunk : List Int) (textOnly isFinalChunk : Bool) :
    s.stepTokens chunk textOnly isFinalChunk ++ s.nextPendingTail chunk textOnly isFinalChunk =
      s.pendingTextTail ++ chunk :=
  holdBack_append _ _

/-- A final chunk and an audio chunk hold nothing back. -/
theorem deferTail_eq_false {chunk : List Int} {textOnly isFinalChunk : Bool}
    (h : isFinalChunk = true ∨ textOnly = false) :
    s.deferTail chunk textOnly isFinalChunk = false := by
  rcases h with rfl | rfl <;> simp [deferTail]

theorem stepTokens_of_not_defer {chunk : List Int} {textOnly isFinalChunk : Bool}
    (h : s.deferTail chunk textOnly isFinalChunk = false) :
    s.stepTokens chunk textOnly isFinalChunk = s.pendingTextTail ++ chunk := by
  simp [stepTokens, h, effectiveTokens, holdBack]

theorem nextPendingTail_of_not_defer {chunk : List Int} {textOnly isFinalChunk : Bool}
    (h : s.deferTail chunk textOnly isFinalChunk = false) :
    s.nextPendingTail chunk textOnly isFinalChunk = [] := by
  simp [nextPendingTail, h, holdBack]

/-- A step has tokens when its chunk has. -/
theorem stepTokens_ne_nil {chunk : List Int} (h : chunk ≠ []) (textOnly isFinalChunk : Bool) :
    s.stepTokens chunk textOnly isFinalChunk ≠ [] := by
  intro he
  have hlen := congrArg List.length he
  simp only [stepTokens, holdBack] at hlen
  split at hlen
  · rename_i hd
    simp only [deferTail, Bool.and_eq_true, decide_eq_true_eq] at hd
    simp only [List.length_dropLast, List.length_nil] at hlen
    omega
  · simp [effectiveTokens, h] at hlen

end Session

section Append
variable {Mel : Type*} (E : Engine Mel) {l : Live}

/-- The checks an append passes before the engine is asked to prefill. -/
structure Admits (l : Live) (chunk : List Int) (mel : Option Mel) (isFinalChunk : Bool) :
    Prop where
  active : l.session.status = .kActive
  nonempty : chunk ≠ []
  longEnough : l.session.refusesStep
    (l.session.stepTokens chunk mel.isNone isFinalChunk) = false
  fits : ¬ l.session.overflows (l.session.stepTokens chunk mel.isNone isFinalChunk)
  encodes : encodes E mel = true

variable {E} {chunk : List Int} {mel : Option Mel} {isFinalChunk : Bool}

/-- An admitted append is the engine's prefill and what follows it. -/
theorem appendChunkImpl_of_admits (h : Admits E l chunk mel isFinalChunk) :
    appendChunkImpl E l chunk mel isFinalChunk =
      runStep E l (l.session.stepTokens chunk mel.isNone isFinalChunk)
        (l.session.nextPendingTail chunk mel.isNone isFinalChunk) mel isFinalChunk := by
  simp [appendChunkImpl, h.active, h.nonempty, h.longEnough, h.fits, h.encodes]

/-- Any other append is refused and changes nothing. -/
theorem appendChunkImpl_of_not_admits (h : ¬ Admits E l chunk mel isFinalChunk) :
    appendChunkImpl E l chunk mel isFinalChunk = (⟨false, none⟩, l) := by
  by_contra hne
  have active : l.session.status = .kActive := by
    by_contra hs
    exact hne (by simp [appendChunkImpl, hs])
  have nonempty : chunk ≠ [] := by
    intro hs
    exact hne (by simp [appendChunkImpl, hs])
  have longEnough : l.session.refusesStep
      (l.session.stepTokens chunk mel.isNone isFinalChunk) = false := by
    by_contra hs
    exact hne (by simp [appendChunkImpl, hs])
  have fits : ¬ l.session.overflows (l.session.stepTokens chunk mel.isNone isFinalChunk) := by
    intro hs
    exact hne (by simp [appendChunkImpl, hs])
  have encodes : encodes E mel = true := by
    by_contra hs
    exact hne (by simp [appendChunkImpl, hs])
  exact h ⟨active, nonempty, longEnough, fits, encodes⟩

end Append

end JetsonVoice.Runtime
