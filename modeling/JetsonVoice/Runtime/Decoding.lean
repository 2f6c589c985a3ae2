import JetsonVoice.Runtime.StreamingSession

/-!
# Decoding a session to its transcript

After the final chunk the engine decodes token by token until the end-of-text
token or the length limit, and the finished row is evicted. An evicted row
keeps its cells; its length and the active batch are gone.

## Implementation notes

The loop runs on fuel. Every step that goes on counts one generated token, so
the tokens left to generate are fuel enough (`decodeLoop_isSome`).
-/

namespace JetsonVoice.Runtime

namespace Context

variable (ctx : Context)

/-- `updateFinishStates`: an active row finishes at the end-of-text token or at
the length limit. -/
def updateFinishStates (eosId : Int) : Context :=
  if ctx.active = false ∨ ctx.finished = true then ctx
  else if ctx.tokenIds.getLast? = some eosId ∨
      ctx.maxGenerateLength ≤ ctx.currentGenerateLength then
    { ctx with finished := true }
  else ctx

/-- `allBatchesFinished`: no active row, or a finished one. -/
def allBatchesFinished : Bool := !ctx.active || ctx.finished

/-- The context after its finished row was evicted. -/
def evicted : Context :=
  { ctx with
    active := false
    finished := false
    tokenIds := []
    currentGenerateLength := 0
    completed := some ⟨ctx.tokenIds, ctx.currentGenerateLength⟩ }

/-- One decoded token more. -/
def decoded (token eosId : Int) : Context :=
  { (ctx.sample token).updateFinishStates eosId with generationRound := ctx.generationRound + 1 }

end Context

/-- The cache after its only active row was evicted. -/
def KvCache.evictRow (c : KvCache) : KvCache :=
  (c.setRow 0 ((c.rows 0).withLength 0)).setActiveBatchSize 0 (Nat.zero_le _)

section Decode
variable {Mel : Type*} (E : Engine Mel)

/-- `performBatchEvict` -/
def performBatchEvict (ctx : Context) (c : KvCache) : Bool × Context × KvCache :=
  if ctx.active = true ∧ ctx.finished = true then
    if E.evict c.view then (true, ctx.evicted, c.evictRow) else (false, ctx, c)
  else (true, ctx, c)

/-- The cells a decode step writes: the last token of the row. -/
def stepCommit (ctx : Context) (c : KvCache) : KvCache :=
  c.commit [[ctx.tokenIds.getLastD 0]]

/-- The decode loop; `none` is out of fuel. -/
def decodeLoop : Nat → Context → KvCache → Option (Bool × Context × KvCache)
  | 0, _, _ => none
  | fuel + 1, ctx, c =>
      if ctx.allBatchesFinished then some (!ctx.active, ctx, c)
      else match E.decodeStep c.view ctx.tokenIds with
        | .refused => some (false, ctx, c)
        | .failedAfterCommit => some (false, ctx, stepCommit ctx c)
        | .performed token =>
            let next := performBatchEvict E (ctx.decoded token E.eosId) (stepCommit ctx c)
            if next.1 then decodeLoop fuel next.2.1 next.2.2 else some next

/-- Fuel for the decode loop. -/
def decodeFuel (ctx : Context) : Nat := ctx.maxGenerateLength - ctx.currentGenerateLength + 2

/-- The loop after the first eviction, unless that failed. -/
def decodeRest (first : Bool × Context × KvCache) : Bool × Context × KvCache :=
  if first.1 then (decodeLoop E (decodeFuel first.2.1) first.2.1 first.2.2).getD (false, first.2)
  else first

/-- `decodeToCompletion`: a row that the prefill already finished is evicted
before the loop. -/
def decodeToCompletion (ctx : Context) (c : KvCache) : Bool × Context × KvCache :=
  let start := ctx.updateFinishStates E.eosId
  decodeRest E <|
    if start.allBatchesFinished && start.active then performBatchEvict E start c
    else (true, start, c)

/-- `getAsrSessionTranscript`: the generated suffix of the completed row. -/
def getAsrSessionTranscript (ctx : Context) : String :=
  match ctx.completed with
  | none => ""
  | some batch =>
      if batch.tokenIds.length < batch.generateLength ∨ batch.generateLength = 0 then ""
      else E.detokenize (batch.tokenIds.drop (batch.tokenIds.length - batch.generateLength))

/-- `decodeToTranscript` -/
def decodeToTranscript (l : Live) : Bool × Live :=
  if l.session.status ≠ .kFinished then (false, l)
  else
    let r := decodeToCompletion E l.session.context l.cache
    if r.1 then
      (true, ⟨{ l.session with
        context := r.2.1
        transcript := getAsrSessionTranscript E r.2.1 }, r.2.2⟩)
    else (false, ⟨{ l.session with context := r.2.1 }, r.2.2⟩)

end Decode

namespace Context

variable {ctx : Context}

@[simp] theorem updateFinishStates_active (eosId : Int) :
    (ctx.updateFinishStates eosId).active = ctx.active := by
  simp only [updateFinishStates]
  split
  · rfl
  · split <;> rfl

/-- A row that runs on is as it was, short of its length limit. -/
theorem updateFinishStates_running {eosId : Int}
    (h : (ctx.updateFinishStates eosId).allBatchesFinished = false) :
    ctx.updateFinishStates eosId = ctx ∧ ctx.currentGenerateLength < ctx.maxGenerateLength := by
  simp only [updateFinishStates] at h ⊢
  split at h
  · rename_i hs
    rcases hs with hs | hs <;> simp [allBatchesFinished, hs] at h
  · split at h
    · simp [allBatchesFinished] at h
    · rename_i hs he
      rw [not_or] at he
      exact ⟨by rw [if_neg hs, if_neg (not_or.mpr he)], by omega⟩

theorem decoded_running {token eosId : Int}
    (h : (ctx.decoded token eosId).allBatchesFinished = false) :
    (ctx.decoded token eosId).currentGenerateLength = ctx.currentGenerateLength + 1 ∧
      (ctx.decoded token eosId).maxGenerateLength = ctx.maxGenerateLength ∧
      ctx.currentGenerateLength + 1 < ctx.maxGenerateLength := by
  have hrun : ((ctx.sample token).updateFinishStates eosId).allBatchesFinished = false := h
  obtain ⟨heq, hlt⟩ := updateFinishStates_running hrun
  simp only [decoded, heq]
  exact ⟨rfl, rfl, hlt⟩

@[simp] theorem evicted_allBatchesFinished : ctx.evicted.allBatchesFinished = true := rfl

end Context

section Evict
variable {Mel : Type*} {E : Engine Mel} {ctx : Context} {c : KvCache}

/-- What an eviction can do: pass over a row that runs on or is gone, evict a
finished row, or fail and leave it. -/
theorem performBatchEvict_cases (E : Engine Mel) (ctx : Context) (c : KvCache) :
    ((ctx.allBatchesFinished = false ∨ ctx.active = false) ∧
      performBatchEvict E ctx c = (true, ctx, c)) ∨
    performBatchEvict E ctx c = (true, ctx.evicted, c.evictRow) ∨
    performBatchEvict E ctx c = (false, ctx, c) := by
  simp only [performBatchEvict]
  split
  · split <;> simp
  · rename_i h
    refine .inl ⟨?_, rfl⟩
    cases ha : ctx.active with
    | false => exact .inr rfl
    | true => exact .inl (by simpa [Context.allBatchesFinished, ha] using h)

/-- The tokens left to generate are fuel enough. -/
theorem decodeLoop_isSome {fuel : Nat} (hpos : 0 < fuel)
    (h : ctx.allBatchesFinished = false → ctx.currentGenerateLength < ctx.maxGenerateLength ∧
      ctx.maxGenerateLength + 1 < ctx.currentGenerateLength + fuel) :
    (decodeLoop E fuel ctx c).isSome = true := by
  induction fuel generalizing ctx c with
  | zero => cases hpos
  | succ fuel ih =>
      rw [decodeLoop]
      cases hall : ctx.allBatchesFinished with
      | true => rfl
      | false =>
          obtain ⟨hlt, hfuel⟩ := h hall
          cases hstep : E.decodeStep c.view ctx.tokenIds with
          | refused => rfl
          | failedAfterCommit => rfl
          | performed token =>
              obtain ⟨hrun, he⟩ | he | he := performBatchEvict_cases E
                (ctx.decoded token E.eosId) (stepCommit ctx c) <;>
                simp only [he, Bool.false_eq_true, if_false, if_true]
              · apply ih (by omega)
                intro hnext
                obtain ⟨hgen, hmax, hlt'⟩ := Context.decoded_running hnext
                rw [hgen, hmax]
                omega
              · exact ih (by omega) fun hnext => by simp at hnext
              · rfl

/-- The fuel of a context that starts or goes on decoding is enough. -/
theorem decodeFuel_isSome
    (h : ctx.allBatchesFinished = false → ctx.currentGenerateLength < ctx.maxGenerateLength) :
    (decodeLoop E (decodeFuel ctx) ctx c).isSome = true := by
  apply decodeLoop_isSome (by simp [decodeFuel])
  intro hall
  have hlt := h hall
  refine ⟨hlt, ?_⟩
  simp only [decodeFuel]
  omega

/-- How a decode runs: a finished row is evicted at once or fails to be, and
anything else goes through the loop, which has the fuel it needs. -/
theorem decodeToCompletion_cases (E : Engine Mel) (ctx : Context) (c : KvCache) :
    let start := ctx.updateFinishStates E.eosId
    ((start.allBatchesFinished = false ∨ start.active = false) ∧
      decodeLoop E (decodeFuel start) start c = some (decodeToCompletion E ctx c)) ∨
    (start.allBatchesFinished = true ∧
      decodeLoop E (decodeFuel start.evicted) start.evicted c.evictRow =
        some (decodeToCompletion E ctx c)) ∨
    (start.allBatchesFinished = true ∧ decodeToCompletion E ctx c = (false, start, c)) := by
  intro start
  have hrest : ∀ {ctx' : Context} {c' : KvCache},
      (ctx'.allBatchesFinished = false → ctx'.currentGenerateLength < ctx'.maxGenerateLength) →
      decodeLoop E (decodeFuel ctx') ctx' c' = some (decodeRest E (true, ctx', c')) := by
    intro ctx' c' h
    obtain ⟨r, hr⟩ := Option.isSome_iff_exists.mp (decodeFuel_isSome (E := E) (c := c') h)
    simp [decodeRest, hr]
  have hdef : decodeToCompletion E ctx c = decodeRest E
      (if start.allBatchesFinished && start.active then performBatchEvict E start c
        else (true, start, c)) := rfl
  cases hfirst : (start.allBatchesFinished && start.active) with
  | false =>
      refine .inl ⟨Bool.and_eq_false_iff.mp hfirst, ?_⟩
      rw [hdef, hfirst]
      apply hrest
      intro hrun
      obtain ⟨he, hlt⟩ := Context.updateFinishStates_running hrun
      change (ctx.updateFinishStates E.eosId).currentGenerateLength <
        (ctx.updateFinishStates E.eosId).maxGenerateLength
      rwa [he]
  | true =>
      rw [hdef, hfirst, if_pos rfl]
      rw [Bool.and_eq_true] at hfirst
      obtain ⟨hrun, he⟩ | he | he := performBatchEvict_cases E start c
      · simp [hfirst.1, hfirst.2] at hrun
      · rw [he]
        exact .inr (.inl ⟨hfirst.1, hrest fun hrun => by simp at hrun⟩)
      · rw [he]
        exact .inr (.inr ⟨hfirst.1, rfl⟩)

end Evict

/-- The rows beside row 0, and the cells of row 0 below a position, are as they
were. -/
structure KvCache.KeepsBelow (n : Nat) (c c' : KvCache) : Prop where
  cells : ∀ p < n, (c'.rows 0).cells p = (c.rows 0).cells p
  rows : ∀ i, i ≠ 0 → c'.rows i = c.rows i
  maxBatch : c'.maxBatch = c.maxBatch

namespace KvCache.KeepsBelow

variable {n : Nat} {c c' c'' : KvCache}

theorem refl (n : Nat) (c : KvCache) : KeepsBelow n c c :=
  ⟨fun _ _ => rfl, fun _ _ => rfl, rfl⟩

theorem trans (h : KeepsBelow n c c') (h' : KeepsBelow n c' c'') : KeepsBelow n c c'' where
  cells p hp := (h'.cells p hp).trans (h.cells p hp)
  rows i hi := (h'.rows i hi).trans (h.rows i hi)
  maxBatch := h'.maxBatch.trans h.maxBatch

/-- A commit on row 0 keeps what was committed. -/
theorem commit (h : n ≤ (c.rows 0).length) (span : List Int) :
    KeepsBelow n c (c.commit [span]) where
  cells _ hp := KvRow.push_cells_of_lt _ _ (Nat.lt_of_lt_of_le hp h)
  rows _ hi := commit_rows_of_le (Nat.one_le_iff_ne_zero.mpr hi)
  maxBatch := rfl

theorem evictRow (n : Nat) (c : KvCache) : KeepsBelow n c c.evictRow where
  cells p _ := by simp [KvCache.evictRow, setActiveBatchSize, KvRow.withLength]
  rows i hi := by simp [KvCache.evictRow, setActiveBatchSize, setRow_ne _ hi]
  maxBatch := rfl

end KvCache.KeepsBelow

section Frame
variable {Mel : Type*} {E : Engine Mel} {ctx : Context} {c : KvCache} {n : Nat}

theorem performBatchEvict_keepsBelow (E : Engine Mel) (ctx : Context) (c : KvCache) (n : Nat) :
    KvCache.KeepsBelow n c (performBatchEvict E ctx c).2.2 := by
  obtain ⟨-, he⟩ | he | he := performBatchEvict_cases E ctx c <;> rw [he]
  · exact .refl n c
  · exact .evictRow n c
  · exact .refl n c

theorem performBatchEvict_allEmpty (E : Engine Mel) (ctx : Context) (c : KvCache) :
    (performBatchEvict E ctx c).2.2.allEmpty = c.allEmpty := by
  obtain ⟨-, he⟩ | he | he := performBatchEvict_cases E ctx c
  · rw [he]
  · rw [he]
    rfl
  · rw [he]

/-- A row that runs on after an eviction was not touched by it. -/
theorem performBatchEvict_running
    (h : (performBatchEvict E ctx c).2.1.allBatchesFinished = false) :
    (performBatchEvict E ctx c).2.2 = c := by
  obtain ⟨-, he⟩ | he | he := performBatchEvict_cases E ctx c
  · rw [he]
  · rw [he] at h
    simp at h
  · rw [he]

/-- One round of the loop: it ends, or the step is refused, or it commits and
the loop ends or goes on behind the eviction. -/
theorem decodeLoop_cases {fuel : Nat} {r : Bool × Context × KvCache}
    (h : decodeLoop E (fuel + 1) ctx c = some r) :
    (ctx.allBatchesFinished = true ∧ r = (!ctx.active, ctx, c)) ∨
    (ctx.allBatchesFinished = false ∧ (E.decodeStep c.view ctx.tokenIds).commits = false ∧
      r = (false, ctx, c)) ∨
    (ctx.allBatchesFinished = false ∧ (E.decodeStep c.view ctx.tokenIds).commits = true ∧
      (r = (false, ctx, stepCommit ctx c) ∨ ∃ token,
        r = performBatchEvict E (ctx.decoded token E.eosId) (stepCommit ctx c) ∨
        decodeLoop E fuel
          (performBatchEvict E (ctx.decoded token E.eosId) (stepCommit ctx c)).2.1
          (performBatchEvict E (ctx.decoded token E.eosId) (stepCommit ctx c)).2.2 = some r)) := by
  rw [decodeLoop] at h
  cases hall : ctx.allBatchesFinished with
  | true =>
      simp only [hall, if_true] at h
      exact .inl ⟨rfl, (Option.some.inj h).symm⟩
  | false =>
      simp only [hall, Bool.false_eq_true, if_false] at h
      cases hs : E.decodeStep c.view ctx.tokenIds with
      | refused =>
          simp only [hs] at h
          exact .inr (.inl ⟨rfl, rfl, (Option.some.inj h).symm⟩)
      | failedAfterCommit =>
          simp only [hs] at h
          exact .inr (.inr ⟨rfl, rfl, .inl (Option.some.inj h).symm⟩)
      | performed token =>
          simp only [hs] at h
          refine .inr (.inr ⟨rfl, rfl, .inr ⟨token, ?_⟩⟩)
          split at h
          · exact .inr h
          · exact .inl (Option.some.inj h).symm

/-- Decoding keeps the cells that were committed when it started. -/
theorem decodeLoop_keepsBelow {fuel : Nat} {r : Bool × Context × KvCache}
    (h : decodeLoop E fuel ctx c = some r)
    (hn : ctx.allBatchesFinished = false → n ≤ (c.rows 0).length) :
    KvCache.KeepsBelow n c r.2.2 := by
  induction fuel generalizing ctx c with
  | zero => cases h
  | succ fuel ih =>
      obtain ⟨-, rfl⟩ | ⟨-, -, rfl⟩ | ⟨hall, -, hr⟩ := decodeLoop_cases h
      · exact .refl n c
      · exact .refl n c
      · have hle := hn hall
        have hstep : KvCache.KeepsBelow n c (stepCommit ctx c) := .commit hle _
        obtain rfl | ⟨token, rfl | hloop⟩ := hr
        · exact hstep
        · exact hstep.trans (performBatchEvict_keepsBelow E _ _ n)
        · refine hstep.trans ((performBatchEvict_keepsBelow E _ _ n).trans (ih hloop ?_))
          intro hrun
          rw [performBatchEvict_running hrun, stepCommit, KvCache.commit_row_zero,
            KvRow.push_length]
          omega

/-- Once cleared, the all-empty flag stays cleared. -/
theorem decodeLoop_allEmpty_false {fuel : Nat} {r : Bool × Context × KvCache}
    (h : decodeLoop E fuel ctx c = some r) (hc : c.allEmpty = false) :
    r.2.2.allEmpty = false := by
  induction fuel generalizing ctx c with
  | zero => cases h
  | succ fuel ih =>
      obtain ⟨-, rfl⟩ | ⟨-, -, rfl⟩ | ⟨-, -, rfl | ⟨token, rfl | hloop⟩⟩ := decodeLoop_cases h
      · exact hc
      · exact hc
      · rfl
      · exact performBatchEvict_allEmpty E _ _
      · exact ih hloop (performBatchEvict_allEmpty E _ _)

/-- The decode is not over at once, and its first step commits. -/
def DecodeCommits (E : Engine Mel) (ctx : Context) (c : KvCache) : Prop :=
  (ctx.updateFinishStates E.eosId).allBatchesFinished = false ∧
    (E.decodeStep c.view ctx.tokenIds).commits = true

/-- The flag of the cache when the loop ends. -/
theorem decodeLoop_allEmpty_iff {fuel : Nat} {r : Bool × Context × KvCache}
    (h : decodeLoop E fuel ctx c = some r) :
    r.2.2.allEmpty = true ↔ c.allEmpty = true ∧
      ¬ (ctx.allBatchesFinished = false ∧ (E.decodeStep c.view ctx.tokenIds).commits = true) := by
  cases fuel with
  | zero => cases h
  | succ fuel =>
      obtain ⟨hall, rfl⟩ | ⟨-, hs, rfl⟩ | ⟨hall, hs, hr⟩ := decodeLoop_cases h
      · simp [hall]
      · simp [hs]
      · have hfalse : r.2.2.allEmpty = false := by
          obtain rfl | ⟨token, rfl | hloop⟩ := hr
          · rfl
          · exact performBatchEvict_allEmpty E _ _
          · exact decodeLoop_allEmpty_false hloop (performBatchEvict_allEmpty E _ _)
        simp [hall, hs, hfalse]

/-- What decoding keeps of the cache. -/
theorem decodeToCompletion_keepsBelow (h : n ≤ (c.rows 0).length) :
    KvCache.KeepsBelow n c (decodeToCompletion E ctx c).2.2 := by
  obtain ⟨-, hl⟩ | ⟨-, hl⟩ | ⟨-, hl⟩ := decodeToCompletion_cases E ctx c
  · exact decodeLoop_keepsBelow hl fun _ => h
  · exact (KvCache.KeepsBelow.evictRow n c).trans
      (decodeLoop_keepsBelow hl fun hrun => by simp at hrun)
  · rw [hl]
    exact .refl n c

/-- Decoding leaves the flag set exactly when nothing was committed. -/
theorem decodeToCompletion_allEmpty_iff :
    (decodeToCompletion E ctx c).2.2.allEmpty = true ↔
      c.allEmpty = true ∧ ¬ DecodeCommits E ctx c := by
  obtain ⟨hrun, hl⟩ | ⟨hall, hl⟩ | ⟨hall, hl⟩ := decodeToCompletion_cases E ctx c
  · rw [decodeLoop_allEmpty_iff hl, DecodeCommits]
    cases hall : (ctx.updateFinishStates E.eosId).allBatchesFinished with
    | true => simp
    | false => rw [(Context.updateFinishStates_running hall).1]
  · rw [decodeLoop_allEmpty_iff hl]
    simp [DecodeCommits, hall, KvCache.evictRow, KvCache.setActiveBatchSize]
  · rw [hl]
    simp [DecodeCommits, hall]

end Frame

section View
variable {Mel : Type*} {E : Engine Mel} {ctx : Context} {c c' : KvCache}

/-- What is left of a result when the cache is seen only as the engine sees it. -/
def seen (r : Bool × Context × KvCache) : Bool × Context × KvView := (r.1, r.2.1, r.2.2.view)

theorem evictRow_view (h : c.view = c'.view) : c.evictRow.view = c'.evictRow.view := by
  have hrow : ∀ i, (c.rows i).committed = (c'.rows i).committed :=
    fun i => congrFun (congrArg KvView.committed h) i
  have hempty : c.allEmpty = c'.allEmpty := congrArg KvView.allEmpty h
  simp only [KvCache.view, KvCache.evictRow, KvCache.setActiveBatchSize, KvCache.setRow_allEmpty,
    hempty, KvView.mk.injEq, and_true]
  funext i
  by_cases hi : i = 0
  · subst hi
    simp [KvRow.committed]
  · rw [KvCache.setRow_ne _ hi, KvCache.setRow_ne _ hi, hrow]

theorem performBatchEvict_seen (ctx : Context) (h : c.view = c'.view) :
    seen (performBatchEvict E ctx c) = seen (performBatchEvict E ctx c') := by
  simp only [performBatchEvict, h]
  split
  · split
    · simp only [seen, evictRow_view h]
    · simp only [seen, h]
  · simp only [seen, h]

/-- The loop depends on the cache only through what the engine reads. -/
theorem decodeLoop_seen (fuel : Nat) (ctx : Context) (h : c.view = c'.view) :
    (decodeLoop E fuel ctx c).map seen = (decodeLoop E fuel ctx c').map seen := by
  induction fuel generalizing ctx c c' with
  | zero => rfl
  | succ fuel ih =>
      have hstep : (stepCommit ctx c).view = (stepCommit ctx c').view := KvCache.commit_view h _
      rw [decodeLoop, decodeLoop, h]
      split
      · simp only [Option.map_some, seen, h]
      · split
        · simp only [Option.map_some, seen, h]
        · simp only [Option.map_some, seen, hstep]
        · rename_i token _
          have hev := performBatchEvict_seen (E := E) (ctx.decoded token E.eosId) hstep
          obtain ⟨hok, hctx, hview⟩ : _ ∧ _ ∧ _ := by
            simpa only [seen, Prod.mk.injEq] using hev
          simp only [hok, hctx]
          split
          · exact ih _ hview
          · exact congrArg some hev

/-- Decoding depends on the cache only through what the engine reads. -/
theorem decodeToCompletion_seen (h : c.view = c'.view) :
    seen (decodeToCompletion E ctx c) = seen (decodeToCompletion E ctx c') := by
  have hrest : ∀ {r r' : Bool × Context × KvCache}, seen r = seen r' →
      seen (decodeRest E r) = seen (decodeRest E r') := by
    rintro ⟨ok, ctx₁, c₁⟩ ⟨ok', ctx₁', c₁'⟩ hr
    obtain ⟨rfl, rfl, hv⟩ : ok = ok' ∧ ctx₁ = ctx₁' ∧ c₁.view = c₁'.view := by
      simpa only [seen, Prod.mk.injEq] using hr
    have hloop := decodeLoop_seen (E := E) (decodeFuel ctx₁) ctx₁ hv
    simp only [decodeRest]
    split
    · cases hl : decodeLoop E (decodeFuel ctx₁) ctx₁ c₁ with
      | none =>
          rw [hl] at hloop
          have hnone := Option.map_eq_none_iff.mp hloop.symm
          simp only [hnone, Option.getD_none, seen, hv]
      | some r =>
          rw [hl] at hloop
          obtain ⟨r', hr', hs⟩ := Option.map_eq_some_iff.mp hloop.symm
          rw [hr']
          exact hs.symm
    · exact hr
  apply hrest
  split
  · exact performBatchEvict_seen _ h
  · simp only [seen, h]

end View

end JetsonVoice.Runtime
