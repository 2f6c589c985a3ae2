import JetsonVoice.Runtime.Decoding

/-!
# Non-evicting peeks of a live session

A peek decodes a partial transcript from a live session and then puts back what
it changed: the context from a snapshot, the active batch, and the length of
the session's lane. Two things are not put back. The all-empty flag of the
cache is cleared by the first commit of the peek; and a suffix is appended
through a context of one row, so it lands on row 0 whatever lane is restored.

## Implementation notes

What a peek must leave as it was is `NoResidue`. Cells behind the committed
length are not part of it, since no engine call reads them.
-/

namespace JetsonVoice.Runtime

/-- `DecodePeekResult` -/
structure DecodePeekResult where
  transcript : String := ""
  generatedTokens : Nat := 0
  ok : Bool := false
  deriving DecidableEq, Repr

/-- The length limit is lowered to the tokens a peek may generate. -/
def Context.clamp (ctx : Context) (maxNewTokens : Int) : Context :=
  let cap := ctx.currentGenerateLength + (if 0 < maxNewTokens then maxNewTokens.toNat else 1)
  if cap < ctx.maxGenerateLength then { ctx with maxGenerateLength := cap } else ctx

section Peek
variable {Mel : Type*} (E : Engine Mel)

theorem decodeToCompletion_maxBatch (ctx : Context) (c : KvCache) :
    (decodeToCompletion E ctx c).2.2.maxBatch = c.maxBatch :=
  (decodeToCompletion_keepsBelow (n := 0) (Nat.zero_le _)).maxBatch

/-- The transcript a finished decode gives. -/
def peekResult (r : Bool × Context × KvCache) : DecodePeekResult :=
  if r.1 then
    { transcript := getAsrSessionTranscript E r.2.1
      generatedTokens := (r.2.1.completed.map (·.generateLength)).getD 0
      ok := true }
  else {}

/-- `peekAsrSessionTranscript`: decode under a lowered limit, then put back the
context, the active batch and the length of the lane. -/
def peekAsrSessionTranscript (ctx : Context) (c : KvCache) (lane : Nat) (maxNewTokens : Int) :
    DecodePeekResult × Context × KvCache :=
  if ctx.activeBatchSize ≤ lane then ({}, ctx, c)
  else match c.peekKvCacheLength lane with
    | none => ({}, ctx, c)
    | some savedKvLen =>
        let r := decodeToCompletion E (ctx.clamp maxNewTokens) c
        (peekResult E r, ctx,
          (r.2.2.setActiveBatchSize c.activeBatch
            ((decodeToCompletion_maxBatch E _ c).symm ▸ c.activeBatch_le)).restoreKvCacheLength
              lane savedKvLen)

/-- Put the members of a session back as a snapshot has them. -/
def Session.restore (s saved : Session) : Session :=
  { s with
    context := saved.context
    status := saved.status
    appendedTokens := saved.appendedTokens
    chunkCount := saved.chunkCount
    pendingTextTail := saved.pendingTextTail }

/-- `peekTranscriptWithSuffix`: append the suffix as a final chunk, peek, and
put back the session and the length of the lane. -/
def peekTranscriptWithSuffix (l : Live) (suffixTokenIds : List Int) (maxNewTokens : Int) :
    DecodePeekResult × Live :=
  let s := l.session
  if s.status ≠ .kActive then ({}, l)
  else if suffixTokenIds = [] then ({}, l)
  else match l.cache.peekKvCacheLength s.lane with
    | none => ({}, l)
    | some savedKvLen =>
        let appended := appendChunkImpl E l suffixTokenIds none true
        if appended.1.accepted then
          let r := peekAsrSessionTranscript E appended.2.session.context appended.2.cache s.lane
            maxNewTokens
          (r.1, ⟨{ appended.2.session with context := r.2.1 }.restore s,
            r.2.2.restoreKvCacheLength s.lane savedKvLen⟩)
        else
          ({}, ⟨appended.2.session.restore s,
            appended.2.cache.restoreKvCacheLength s.lane savedKvLen⟩)

/-- `peekTranscript`: the thin wrapper over the session's own context. -/
def peekTranscript (l : Live) (maxNewTokens : Int) : DecodePeekResult × Live :=
  let r := peekAsrSessionTranscript E l.session.context l.cache l.session.lane maxNewTokens
  (r.1, ⟨{ l.session with context := r.2.1 }, r.2.2⟩)

end Peek

/-- Caches that the engine cannot tell apart. -/
structure SameCache (c c' : KvCache) : Prop where
  committed : ∀ i, (c'.rows i).committed = (c.rows i).committed
  length : ∀ i, (c'.rows i).length = (c.rows i).length
  allEmpty : c'.allEmpty = c.allEmpty
  activeBatch : c'.activeBatch = c.activeBatch

/-- The session and everything the engine reads are as they were. -/
structure NoResidue (l l' : Live) : Prop where
  session : l'.session = l.session
  cache : SameCache l.cache l'.cache

theorem SameCache.refl (c : KvCache) : SameCache c c :=
  ⟨fun _ => rfl, fun _ => rfl, rfl, rfl⟩

theorem NoResidue.refl (l : Live) : NoResidue l l := ⟨rfl, .refl _⟩

theorem SameCache.view {c c' : KvCache} (h : SameCache c c') : c'.view = c.view := by
  have hcommitted : (fun i => (c'.rows i).committed) = fun i => (c.rows i).committed :=
    funext h.committed
  simp only [KvCache.view, hcommitted, h.allEmpty, h.activeBatch]

section Restore
variable {c c' : KvCache}

/-- Writing back the length a lane has changes nothing. -/
theorem restoreKvCacheLength_self (c : KvCache) (lane : Nat) :
    c.restoreKvCacheLength lane (c.rows lane).length = c := by
  simp only [KvCache.restoreKvCacheLength]
  split
  · simp [KvCache.setRow]
  · rfl

theorem restoreKvCacheLength_zero (h : 0 < c.maxBatch) (n : Nat) :
    c.restoreKvCacheLength 0 n = c.setRow 0 ((c.rows 0).withLength n) := by
  simp [KvCache.restoreKvCacheLength, h]

@[simp] theorem restoreKvCacheLength_allEmpty (lane n : Nat) :
    (c.restoreKvCacheLength lane n).allEmpty = c.allEmpty := by
  simp only [KvCache.restoreKvCacheLength]
  split <;> rfl

@[simp] theorem restoreKvCacheLength_activeBatch (lane n : Nat) :
    (c.restoreKvCacheLength lane n).activeBatch = c.activeBatch := by
  simp only [KvCache.restoreKvCacheLength]
  split <;> rfl

theorem restoreKvCacheLength_rows {lane i : Nat} (h : i ≠ lane) (n : Nat) :
    (c.restoreKvCacheLength lane n).rows i = c.rows i := by
  simp only [KvCache.restoreKvCacheLength]
  split
  · exact KvCache.setRow_ne _ h
  · rfl

theorem KvCache.KeepsBelow.restore (k n : Nat) (c : KvCache) :
    KeepsBelow k c (c.restoreKvCacheLength 0 n) where
  cells p _ := by
    simp only [restoreKvCacheLength]
    split
    · simp [KvRow.withLength]
    · rfl
  rows i hi := restoreKvCacheLength_rows hi n
  maxBatch := by
    simp only [restoreKvCacheLength]
    split <;> rfl

/-- Restoring the length of lane 0 restores the cache, up to the all-empty flag. -/
theorem sameCache_restore_iff (h : KvCache.KeepsBelow (c.rows 0).length c c')
    (hactive : c'.activeBatch = c.activeBatch) (hpos : 0 < c.maxBatch) :
    SameCache c (c'.restoreKvCacheLength 0 (c.rows 0).length) ↔ c'.allEmpty = c.allEmpty := by
  refine ⟨fun hs => by simpa using hs.allEmpty, fun hflag => ?_⟩
  have hrow : (c'.restoreKvCacheLength 0 (c.rows 0).length).rows 0 =
      (c'.rows 0).withLength (c.rows 0).length := by
    rw [restoreKvCacheLength_zero (h.maxBatch ▸ hpos), KvCache.setRow_same]
  have hother : ∀ {i}, i ≠ 0 →
      (c'.restoreKvCacheLength 0 (c.rows 0).length).rows i = c.rows i :=
    fun hi => (restoreKvCacheLength_rows hi _).trans (h.rows _ hi)
  constructor
  · intro i
    by_cases hi : i = 0
    · subst hi
      rw [hrow, KvRow.withLength_committed h.cells]
    · rw [hother hi]
  · intro i
    by_cases hi : i = 0
    · subst hi
      rw [hrow, KvRow.withLength_length]
    · rw [hother hi]
  · rw [restoreKvCacheLength_allEmpty, hflag]
  · rw [restoreKvCacheLength_activeBatch, hactive]

end Restore

section PeekSession
variable {Mel : Type*} {E : Engine Mel} {ctx : Context} {c : KvCache} {lane : Nat}
  {maxNewTokens : Int}

/-- The context of a peek is its snapshot again. -/
@[simp] theorem peekAsrSessionTranscript_context :
    (peekAsrSessionTranscript E ctx c lane maxNewTokens).2.1 = ctx := by
  simp only [peekAsrSessionTranscript]
  split
  · rfl
  · split <;> rfl

/-- A peek comes to decode, and its first step commits. -/
def PeekCommits (E : Engine Mel) (ctx : Context) (c : KvCache) (lane : Nat)
    (maxNewTokens : Int) : Prop :=
  lane < ctx.activeBatchSize ∧ lane < c.activeBatch ∧
    DecodeCommits E (ctx.clamp maxNewTokens) c

/-- A peek that does not come to decode leaves the cache alone, and one that does
is on lane 0. -/
theorem peekAsrSessionTranscript_cache (E : Engine Mel) (ctx : Context) (c : KvCache)
    (lane : Nat) (maxNewTokens : Int) :
    (¬ (lane < ctx.activeBatchSize ∧ lane < c.activeBatch) ∧
      (peekAsrSessionTranscript E ctx c lane maxNewTokens).2.2 = c) ∨
    (lane = 0 ∧ 0 < ctx.activeBatchSize ∧ 0 < c.activeBatch ∧ ∃ c₁,
      KvCache.KeepsBelow (c.rows 0).length c c₁ ∧ c₁.activeBatch = c.activeBatch ∧
      (c₁.allEmpty = true ↔ c.allEmpty = true ∧ ¬ DecodeCommits E (ctx.clamp maxNewTokens) c) ∧
      (peekAsrSessionTranscript E ctx c lane maxNewTokens).2.2 =
        c₁.restoreKvCacheLength 0 (c.rows 0).length) := by
  by_cases hctx : ctx.activeBatchSize ≤ lane
  · exact .inl ⟨fun h => by omega, by simp [peekAsrSessionTranscript, hctx]⟩
  · by_cases hc : lane < c.activeBatch
    · have hone : ctx.activeBatchSize ≤ 1 := Bool.toNat_le ctx.active
      obtain rfl : lane = 0 := by omega
      have hk : KvCache.KeepsBelow (c.rows 0).length c
          (decodeToCompletion E (ctx.clamp maxNewTokens) c).2.2 :=
        decodeToCompletion_keepsBelow (Nat.le_refl _)
      have hle : c.activeBatch ≤ (decodeToCompletion E (ctx.clamp maxNewTokens) c).2.2.maxBatch :=
        hk.maxBatch ▸ c.activeBatch_le
      refine .inr ⟨rfl, by omega, hc,
        (decodeToCompletion E (ctx.clamp maxNewTokens) c).2.2.setActiveBatchSize c.activeBatch hle,
        ⟨hk.cells, hk.rows, hk.maxBatch⟩, rfl, decodeToCompletion_allEmpty_iff, ?_⟩
      simp only [peekAsrSessionTranscript, hctx, if_false, KvCache.peekKvCacheLength, hc, if_true]
    · refine .inl ⟨fun h => hc h.2, ?_⟩
      simp [peekAsrSessionTranscript, hctx, KvCache.peekKvCacheLength, hc]

/-- The peek of a context leaves the cache as it was exactly when it commits
nothing, or the cache was not all empty. -/
theorem peekAsrSessionTranscript_sameCache_iff :
    SameCache c (peekAsrSessionTranscript E ctx c lane maxNewTokens).2.2 ↔
      c.allEmpty = false ∨ ¬ PeekCommits E ctx c lane maxNewTokens := by
  obtain ⟨hno, he⟩ | ⟨rfl, hctx, hc, c₁, hk, hactive, hflag, he⟩ :=
    peekAsrSessionTranscript_cache E ctx c lane maxNewTokens
  · rw [he]
    exact iff_of_true (.refl c) (.inr fun h => hno ⟨h.1, h.2.1⟩)
  · rw [he, sameCache_restore_iff hk hactive (Nat.lt_of_lt_of_le hc c.activeBatch_le)]
    simp only [PeekCommits, hctx, hc, true_and]
    cases hempty : c.allEmpty with
    | false => simpa [hempty] using hflag
    | true => simpa [hempty] using hflag

end PeekSession

section Suffix
variable {Mel : Type*} {E : Engine Mel} {l : Live} {suffix : List Int} {maxNewTokens : Int}

/-- The suffix reaches the engine, and its prefill commits. -/
structure SuffixCommits (E : Engine Mel) (l : Live) (suffix : List Int) : Prop where
  readable : l.session.lane < l.cache.activeBatch
  admits : Admits E l suffix none true
  commits : (E.appendPrefillChunk l.cache.view (l.session.stepTokens suffix true true)
    none true).commits = true

/-- A suffix that commits nothing is put back entirely. -/
theorem peekTranscriptWithSuffix_of_not_commits (h : ¬ SuffixCommits E l suffix) :
    (peekTranscriptWithSuffix E l suffix maxNewTokens).2 = l := by
  simp only [peekTranscriptWithSuffix]
  split
  · rfl
  · split
    · rfl
    · cases hlen : l.cache.peekKvCacheLength l.session.lane with
      | none => rfl
      | some n =>
          obtain ⟨hlane, rfl⟩ := KvCache.peekKvCacheLength_eq_some.mp hlen
          have hrefused : appendChunkImpl E l suffix none true =
              (⟨false, (appendChunkImpl E l suffix none true).1.step⟩, l) := by
            by_cases hadm : Admits E l suffix none true
            · rw [appendChunkImpl_of_admits hadm]
              have hno : (E.appendPrefillChunk l.cache.view
                  (l.session.stepTokens suffix true true) none true).commits = false := by
                by_contra hc
                exact h ⟨hlane, hadm, by simpa using hc⟩
              cases hr : E.appendPrefillChunk l.cache.view
                  (l.session.stepTokens suffix true true) none true with
              | refused => simp [runStep, hr]
              | failedAfterCommit => simp [hr, CallResult.commits] at hno
              | performed token => simp [hr, CallResult.commits] at hno
            · rw [appendChunkImpl_of_not_admits hadm]
          rw [hrefused]
          simp only [Bool.false_eq_true, if_false, restoreKvCacheLength_self]
          rfl

/-- What a committing suffix leaves before the last restore: the committed cells
of the session's row, a cleared flag, and on any other lane a longer row 0. -/
theorem peekTranscriptWithSuffix_of_commits (h : SuffixCommits E l suffix)
    (maxNewTokens : Int) :
    ∃ c₁, (peekTranscriptWithSuffix E l suffix maxNewTokens).2 =
        ⟨l.session, c₁.restoreKvCacheLength l.session.lane
          (l.cache.rows l.session.lane).length⟩ ∧
      KvCache.KeepsBelow (l.cache.rows 0).length l.cache c₁ ∧
      c₁.activeBatch = l.cache.activeBatch ∧ c₁.allEmpty = false ∧
      (l.session.lane ≠ 0 → (l.cache.rows 0).length < (c₁.rows 0).length) := by
  have hread : l.cache.peekKvCacheLength l.session.lane =
      some (l.cache.rows l.session.lane).length :=
    KvCache.peekKvCacheLength_eq_some.mpr ⟨h.readable, rfl⟩
  have hstep : 0 < (l.session.stepTokens suffix true true).length :=
    List.length_pos_iff.mpr (l.session.stepTokens_ne_nil h.admits.nonempty true true)
  have hkeep : KvCache.KeepsBelow (l.cache.rows 0).length l.cache
      (l.cache.commit [l.session.stepTokens suffix true true]) := .commit (Nat.le_refl _) _
  have hlonger : (l.cache.rows 0).length <
      ((l.cache.commit [l.session.stepTokens suffix true true]).rows 0).length := by
    rw [KvCache.commit_row_zero, KvRow.push_length]
    omega
  have happend := appendChunkImpl_of_admits h.admits
  have hcommits := h.commits
  simp only [Option.isNone_none] at happend
  simp only [peekTranscriptWithSuffix, h.admits.active, h.admits.nonempty, hread, ne_eq,
    not_true_eq_false, if_false, happend, runStep]
  cases hr : E.appendPrefillChunk l.cache.view (l.session.stepTokens suffix true true)
      none true with
  | refused => simp [hr, CallResult.commits] at hcommits
  | failedAfterCommit =>
      exact ⟨_, rfl, hkeep, rfl, rfl, fun _ => hlonger⟩
  | performed token =>
      simp only [if_true]
      obtain ⟨-, he⟩ | ⟨hlane, -, -, c₁, hk, hactive, hflag, he⟩ :=
        peekAsrSessionTranscript_cache E (l.session.accept
          (l.session.stepTokens suffix true true) (l.session.nextPendingTail suffix true true)
          true token).context
          (l.cache.commit [l.session.stepTokens suffix true true]) l.session.lane maxNewTokens
      · rw [he]
        exact ⟨_, rfl, hkeep, rfl, rfl, fun _ => hlonger⟩
      · rw [he]
        refine ⟨_, rfl, ?_, by rw [restoreKvCacheLength_activeBatch, hactive]; rfl, ?_,
          fun hne => absurd hlane hne⟩
        · have hk' : KvCache.KeepsBelow (l.cache.rows 0).length
              (l.cache.commit [l.session.stepTokens suffix true true]) c₁ :=
            ⟨fun p hp => hk.cells p (Nat.lt_trans hp hlonger), hk.rows, hk.maxBatch⟩
          exact hkeep.trans (hk'.trans (.restore _ _ _))
        · rw [restoreKvCacheLength_allEmpty]
          simpa using hflag

/-- A peek with a suffix leaves no residue exactly when the suffix commits
nothing, or the session is on lane 0 of a cache that was not all empty. -/
theorem peekTranscriptWithSuffix_noResidue_iff :
    NoResidue l (peekTranscriptWithSuffix E l suffix maxNewTokens).2 ↔
      ¬ SuffixCommits E l suffix ∨ (l.session.lane = 0 ∧ l.cache.allEmpty = false) := by
  by_cases h : SuffixCommits E l suffix
  · obtain ⟨c₁, he, hk, hactive, hflag, hrow⟩ :=
      peekTranscriptWithSuffix_of_commits h maxNewTokens
    have hpos : 0 < l.cache.maxBatch :=
      Nat.lt_of_lt_of_le (Nat.zero_lt_of_lt h.readable) l.cache.activeBatch_le
    rw [he]
    by_cases hlane : l.session.lane = 0
    · have hsame := sameCache_restore_iff hk hactive hpos
      rw [hflag, eq_comm (a := false)] at hsame
      simp only [h, not_true_eq_false, hlane, true_and, false_or]
      exact ⟨fun hr => hsame.mp hr.cache, fun hempty => ⟨rfl, hsame.mpr hempty⟩⟩
    · refine iff_of_false (fun hr => ?_) (by simp [h, hlane])
      have hlen := hr.cache.length 0
      simp only [restoreKvCacheLength_rows (Ne.symm hlane)] at hlen
      exact absurd hlen (Nat.ne_of_gt (hrow hlane))
  · rw [peekTranscriptWithSuffix_of_not_commits h]
    exact iff_of_true (.refl l) (.inl h)

end Suffix

end JetsonVoice.Runtime
