import JetsonVoice.Foundation.Collections
import JetsonVoice.Foundation.PrefixReuse

/-!
# Reuse of a cached system prompt

`setUpForPrefillExecution` looks up the system prompt of every batch entry. A
cached entry is checked before its KV is installed: it has rows, fewer than the
input has tokens, and its tokens begin the input. One row less than it holds is
reused, so that prefill always has a last prompt token to start from.

The check compares the tokens the entry has. It does not ask whether they are as
many as its rows.

## Implementation notes

A saved layer is the list of its KV rows, so `getShape()[2]` is its length. What
the call does besides the look-up (the LoRA switch, the reset of the cache lengths)
is left out; without an entry it zeroes the recurrent states.
-/

namespace JetsonVoice.Runtime

open Foundation

variable {Row : Type*}

/-- What is kept of a system prompt for the base model. -/
structure SystemPromptKVCache (Row : Type*) where
  tokenizedPrompt : List Int
  kvCacheLayers : List (List Row)
  deriving DecidableEq, Repr

namespace SystemPromptKVCache

variable (cached : SystemPromptKVCache Row) (inputIds : List Int)

/-- `getShape()[2]` of the first layer. -/
def storedLength : Nat :=
  match cached.kvCacheLayers with
  | [] => 0
  | layer :: _ => layer.length

def shapeOk : Bool := !cached.kvCacheLayers.isEmpty && 0 < cached.storedLength

def reuseLength : Nat := if cached.shapeOk then cached.storedLength else 0

def lengthOk : Bool := cached.shapeOk && cached.reuseLength < inputIds.length

def matchIds : Bool :=
  cached.lengthOk inputIds && cached.tokenizedPrompt.length ≤ inputIds.length &&
    inputIds.take cached.tokenizedPrompt.length = cached.tokenizedPrompt

end SystemPromptKVCache

/-- What the call leaves of one batch entry. `restored` is what `restoreKVCache`
has installed. -/
structure BatchEntry (Row : Type*) where
  tokenIds : List Int
  effectivePrefillLength : Nat
  reuseKVCacheLength : Nat
  restored : Option (List (List Row)) := none
  strategyRestored : Bool := false
  recurrentRestored : Bool := false
  deriving DecidableEq, Repr

/-- The whole input is prefilled from an empty cache. -/
def freshPrefill (inputIds : List Int) : BatchEntry Row where
  tokenIds := inputIds
  effectivePrefillLength := inputIds.length
  reuseKVCacheLength := 0

/-- A system prompt under the LoRA weights it was computed with. -/
def keySystemPromptWithLoraWeights (prompt loraWeightsName : String) : String × String :=
  (prompt, loraWeightsName)

/-- What the set-up of a prefill reads. -/
structure PrefillSetUp (Row : Type*) where
  systemPromptKVCacheBase : String × String → Option (SystemPromptKVCache Row)
  needsStrategyKVCache : Bool
  hasSystemPromptKVCache : String × String → Bool
  numLinearAttnLayers : Nat

/-- A system prompt with the tokens of the input behind it. -/
structure BatchRequest where
  systemPrompt : String
  inputIds : List Int
  deriving DecidableEq, Repr

namespace PrefillSetUp

variable (rt : PrefillSetUp Row) (loraWeightsName : String)

/-- The cached entry of a request. -/
def cachedFor (request : BatchRequest) : Option (SystemPromptKVCache Row) :=
  rt.systemPromptKVCacheBase (keySystemPromptWithLoraWeights request.systemPrompt loraWeightsName)

/-- Install a checked entry and leave its last row to be computed again. -/
def installCached (cached : SystemPromptKVCache Row) (key : String × String)
    (inputIds : List Int) : Except String (BatchEntry Row) :=
  if rt.needsStrategyKVCache && !rt.hasSystemPromptKVCache key then
    .error "System prompt cache inconsistency between base and active decoding strategy"
  else
    let effectiveReuseLength := cached.reuseLength - 1
    .ok {
      tokenIds := inputIds.drop effectiveReuseLength
      effectivePrefillLength := inputIds.length - effectiveReuseLength
      reuseKVCacheLength := effectiveReuseLength
      restored := some cached.kvCacheLayers
      strategyRestored := rt.needsStrategyKVCache
      recurrentRestored := 0 < rt.numLinearAttnLayers }

/-- One round of the loop over the batch. -/
def setUpEntry (request : BatchRequest) : Except String (BatchEntry Row) :=
  match rt.cachedFor loraWeightsName request with
  | some cached =>
      if cached.matchIds request.inputIds then
        rt.installCached cached
          (keySystemPromptWithLoraWeights request.systemPrompt loraWeightsName) request.inputIds
      else .ok (freshPrefill request.inputIds)
  | none => .ok (freshPrefill request.inputIds)

def setUpForPrefillExecution (batch : List BatchRequest) : Except String (List (BatchEntry Row)) :=
  batch.mapM (rt.setUpEntry loraWeightsName)

end PrefillSetUp

/-- The reused rows belong to tokens compared with those of the input, the entry
has them, and they and the tokens to prefill make up the input. -/
structure BatchEntry.ReusesCompared (entry : BatchEntry Row) (cached : SystemPromptKVCache Row)
    (inputIds : List Int) : Prop where
  compared : ∀ r < entry.reuseKVCacheLength, ∃ token,
    cached.tokenizedPrompt[r]? = some token ∧ inputIds[r]? = some token
  stored : entry.reuseKVCacheLength ≤ cached.storedLength
  whole : cached.tokenizedPrompt.take entry.reuseKVCacheLength ++ entry.tokenIds = inputIds
  left : entry.tokenIds ≠ []
  counted : entry.effectivePrefillLength = entry.tokenIds.length

/-- Installed KV is the KV of the request's entry and soundly reused; without it the
whole input is prefilled from an empty cache. -/
def BatchEntry.Sound (entry : BatchEntry Row) (cachedFor : Option (SystemPromptKVCache Row))
    (inputIds : List Int) : Prop :=
  match entry.restored with
  | some layers => ∃ cached, cachedFor = some cached ∧ layers = cached.kvCacheLayers ∧
      entry.ReusesCompared cached inputIds
  | none => entry = freshPrefill inputIds

/-- An entry that passes the checks has a token for every row to be reused. -/
def SystemPromptKVCache.Covers (cached : SystemPromptKVCache Row) (inputIds : List Int) : Prop :=
  cached.matchIds inputIds = true → cached.reuseLength - 1 ≤ cached.tokenizedPrompt.length

section Checks
variable {cached : SystemPromptKVCache Row} {inputIds : List Int}

/-- What the three checks establish. -/
theorem SystemPromptKVCache.matchIds_spec (h : cached.matchIds inputIds = true) :
    cached.reuseLength = cached.storedLength ∧ 0 < cached.storedLength ∧
      cached.storedLength < inputIds.length ∧ cached.tokenizedPrompt <+: inputIds := by
  simp only [matchIds, lengthOk, Bool.and_eq_true, decide_eq_true_eq] at h
  obtain ⟨⟨⟨hshape, hlt⟩, -⟩, hprefix⟩ := h
  have hreuse : cached.reuseLength = cached.storedLength := if_pos hshape
  have hpos : 0 < cached.storedLength := by
    simp only [shapeOk, Bool.and_eq_true, decide_eq_true_eq] at hshape
    exact hshape.2
  exact ⟨hreuse, hpos, hreuse ▸ hlt, hprefix ▸ List.take_prefix _ _⟩

/-- A checked entry is soundly reused exactly when it has a token for every row
to be reused. -/
theorem reusesCompared_iff {entry : BatchEntry Row} (hmatch : cached.matchIds inputIds = true)
    (hreuse : entry.reuseKVCacheLength = cached.reuseLength - 1)
    (htokens : entry.tokenIds = inputIds.drop (cached.reuseLength - 1))
    (hcount : entry.effectivePrefillLength = inputIds.length - (cached.reuseLength - 1)) :
    entry.ReusesCompared cached inputIds ↔
      cached.reuseLength - 1 ≤ cached.tokenizedPrompt.length := by
  obtain ⟨hstored, hpos, hlt, hprefix⟩ := SystemPromptKVCache.matchIds_spec hmatch
  have hle : cached.reuseLength - 1 ≤ inputIds.length := by omega
  constructor
  · intro h
    have hwhole := h.whole
    rw [hreuse, htokens] at hwhole
    exact (take_append_drop_iff hprefix hle).mp hwhole
  · intro hcovers
    refine ⟨?_, ?_, ?_, ?_, ?_⟩
    · intro r hr
      have hrow : r < cached.tokenizedPrompt.length := by omega
      have hat := List.getElem?_eq_getElem hrow
      exact ⟨_, hat, (getElem?_of_leading hprefix hrow).trans hat⟩
    · rw [hreuse, hstored]
      exact Nat.sub_le _ _
    · rw [hreuse, htokens]
      exact (take_append_drop_iff hprefix hle).mpr hcovers
    · intro hnil
      rw [htokens] at hnil
      have := List.drop_eq_nil_iff.mp hnil
      omega
    · rw [hcount, htokens, List.length_drop]

end Checks

section SetUp
variable {rt : PrefillSetUp Row} {loraWeightsName : String}

/-- Everything a round of the loop can do: install the entry it has checked, or
leave the whole input to prefill. -/
theorem setUpEntry_cases {request : BatchRequest} {entry : BatchEntry Row}
    (h : rt.setUpEntry loraWeightsName request = .ok entry) :
    (∃ cached, rt.cachedFor loraWeightsName request = some cached ∧
        cached.matchIds request.inputIds = true ∧
        entry.restored = some cached.kvCacheLayers ∧
        entry.reuseKVCacheLength = cached.reuseLength - 1 ∧
        entry.tokenIds = request.inputIds.drop (cached.reuseLength - 1) ∧
        entry.effectivePrefillLength = request.inputIds.length - (cached.reuseLength - 1)) ∨
      ((∀ cached ∈ rt.cachedFor loraWeightsName request,
          cached.matchIds request.inputIds = false) ∧ entry = freshPrefill request.inputIds) := by
  unfold PrefillSetUp.setUpEntry at h
  cases hc : rt.cachedFor loraWeightsName request with
  | none =>
      rw [hc] at h
      cases h
      exact .inr ⟨by simp, rfl⟩
  | some cached =>
      rw [hc] at h
      by_cases hmatch : cached.matchIds request.inputIds = true
      · simp only [hmatch, if_true, PrefillSetUp.installCached] at h
        split at h
        · cases h
        · cases h
          exact .inl ⟨cached, rfl, hmatch, rfl, rfl, rfl, rfl⟩
      · simp only [hmatch] at h
        cases h
        refine .inr ⟨fun c hcmem => ?_, rfl⟩
        cases hcmem
        exact Bool.eq_false_of_not_eq_true hmatch

theorem entry_sound_iff {request : BatchRequest} {entry : BatchEntry Row}
    (h : rt.setUpEntry loraWeightsName request = .ok entry) :
    entry.Sound (rt.cachedFor loraWeightsName request) request.inputIds ↔
      ∀ cached ∈ rt.cachedFor loraWeightsName request, cached.Covers request.inputIds := by
  rcases setUpEntry_cases h with ⟨cached, hc, hmatch, hrestored, hreuse, htokens, hcount⟩ |
    ⟨hnone, rfl⟩
  · have hiff := reusesCompared_iff hmatch hreuse htokens hcount
    rw [BatchEntry.Sound, hrestored, hc]
    constructor
    · rintro ⟨c, hcc, -, hsound⟩ c' hc' -
      cases hcc
      cases hc'
      exact hiff.mp hsound
    · intro hcovers
      exact ⟨cached, rfl, rfl, hiff.mpr (hcovers cached rfl hmatch)⟩
  · refine iff_of_true rfl fun cached hc hmatch => ?_
    rw [hnone cached hc] at hmatch
    cases hmatch

/-- In a set-up that succeeds a batch entry is sound exactly when its cached entry,
if it passes the checks, has a token for every row to be reused. -/
theorem prompt_reuse_sound_iff {batch : List BatchRequest} {entries : List (BatchEntry Row)}
    (h : rt.setUpForPrefillExecution loraWeightsName batch = .ok entries) :
    List.Forall₂ (fun request entry =>
      entry.Sound (rt.cachedFor loraWeightsName request) request.inputIds ↔
        ∀ cached ∈ rt.cachedFor loraWeightsName request, cached.Covers request.inputIds)
      batch entries :=
  (forall₂_of_mapM_ok h).imp fun _ _ => entry_sound_iff

/-- The call fails only where the decoding strategy lacks an entry it needs. -/
theorem setUp_succeeds {batch : List BatchRequest}
    (h : rt.needsStrategyKVCache = true → ∀ request ∈ batch, rt.hasSystemPromptKVCache
      (keySystemPromptWithLoraWeights request.systemPrompt loraWeightsName) = true) :
    ∃ entries, rt.setUpForPrefillExecution loraWeightsName batch = .ok entries := by
  apply exists_mapM_ok
  intro request hmem
  unfold PrefillSetUp.setUpEntry
  split
  · split
    · unfold PrefillSetUp.installCached
      split
      · next hlacks =>
        rw [Bool.and_eq_true, Bool.not_eq_true'] at hlacks
        rw [h hlacks.1 request hmem] at hlacks
        cases hlacks.2
      · exact ⟨_, rfl⟩
    · exact ⟨_, rfl⟩
  · exact ⟨_, rfl⟩

end SetUp

section Saved
variable {row : Nat → List Int → Row} {cached : SystemPromptKVCache Row}

/-- The rows of every layer were computed for the tokens of the entry; the KV row of
a position depends on the tokens up to it. -/
def SystemPromptKVCache.SavedBy (row : Nat → List Int → Row)
    (cached : SystemPromptKVCache Row) : Prop :=
  ∀ l layer, cached.kvCacheLayers[l]? = some layer →
    layer = causalRows (row l) cached.tokenizedPrompt

theorem SystemPromptKVCache.SavedBy.storedLength_le (h : cached.SavedBy row) :
    cached.storedLength ≤ cached.tokenizedPrompt.length := by
  unfold storedLength
  split
  · exact Nat.zero_le _
  · next layer layers hl =>
    have hlayer := h 0 layer (by rw [hl]; rfl)
    rw [hlayer, causalRows_length]

theorem SystemPromptKVCache.SavedBy.covers (h : cached.SavedBy row) (inputIds : List Int) :
    cached.Covers inputIds := by
  intro hmatch
  calc
    cached.reuseLength - 1 ≤ cached.reuseLength := Nat.sub_le _ _
    _ = cached.storedLength := (matchIds_spec hmatch).1
    _ ≤ cached.tokenizedPrompt.length := h.storedLength_le

/-- Reused rows computed for the tokens of their entry, followed by those of the
tokens to prefill, are the rows of a prefill of the whole input. -/
theorem reuse_eq_fresh_prefill {rt : PrefillSetUp Row} {loraWeightsName : String}
    {request : BatchRequest} {entry : BatchEntry Row}
    (h : rt.setUpEntry loraWeightsName request = .ok entry)
    (hsaved : ∀ cached ∈ rt.cachedFor loraWeightsName request, cached.SavedBy row)
    {layers : List (List Row)} (hrestored : entry.restored = some layers) {l : Nat}
    {layer : List Row} (hlayer : layers[l]? = some layer) :
    layer.take entry.reuseKVCacheLength ++
        (causalRows (row l) request.inputIds).drop entry.reuseKVCacheLength =
      causalRows (row l) request.inputIds := by
  rcases setUpEntry_cases h with ⟨cached, hc, hmatch, hinstalled, hreuse, -, -⟩ | ⟨-, rfl⟩
  · obtain rfl : layers = cached.kvCacheLayers :=
      Option.some.inj (hrestored.symm.trans hinstalled)
    have hby := hsaved cached hc
    have hle := hby.covers request.inputIds hmatch
    have hprefix := (SystemPromptKVCache.matchIds_spec hmatch).2.2.2
    calc
      layer.take entry.reuseKVCacheLength ++
            (causalRows (row l) request.inputIds).drop entry.reuseKVCacheLength =
          (causalRows (row l) request.inputIds).take entry.reuseKVCacheLength ++
            (causalRows (row l) request.inputIds).drop entry.reuseKVCacheLength := by
        rw [hby l layer hlayer, hreuse, causalRows_reuse (row l) hprefix hle]
      _ = causalRows (row l) request.inputIds := List.take_append_drop _ _
  · cases hrestored

end Saved

section Runs

/-- A runtime with one cached system prompt. -/
def onePrompt (cached : SystemPromptKVCache Unit) : PrefillSetUp Unit where
  systemPromptKVCacheBase key := if key = ("sys", "") then some cached else none
  needsStrategyKVCache := false
  hasSystemPromptKVCache _ := false
  numLinearAttnLayers := 0

/-- A request behind the cached prompt, and one with another prompt. -/
def twoRequests : List BatchRequest := [⟨"sys", [7, 8, 9, 10]⟩, ⟨"other", [5]⟩]

theorem prompt_reuse_sound_iff_hit :
    ∃ hit miss, (onePrompt ⟨[7, 8], [[(), ()]]⟩).setUpForPrefillExecution "" twoRequests =
        .ok [hit, miss] ∧ hit.reuseKVCacheLength = 1 ∧
      hit.Sound ((onePrompt ⟨[7, 8], [[(), ()]]⟩).cachedFor "" ⟨"sys", [7, 8, 9, 10]⟩)
        [7, 8, 9, 10] := by
  refine ⟨_, _, rfl, rfl, ?_⟩
  have hhit := (List.forall₂_cons.mp
    (@prompt_reuse_sound_iff _ (onePrompt ⟨[7, 8], [[(), ()]]⟩) "" twoRequests _ rfl)).1
  exact hhit.mpr fun cached hc _ => by cases hc; decide

/-- Three rows stored for one token pass the checks, and the row of a token that was
never compared is reused. -/
theorem uncompared_row_reused :
    ∃ hit, (onePrompt ⟨[7], [[(), (), ()]]⟩).setUpForPrefillExecution ""
        [⟨"sys", [7, 8, 9, 10]⟩] = .ok [hit] ∧
      hit.reuseKVCacheLength = 2 ∧ hit.tokenIds = [9, 10] ∧
      ¬ hit.Sound ((onePrompt ⟨[7], [[(), (), ()]]⟩).cachedFor "" ⟨"sys", [7, 8, 9, 10]⟩)
        [7, 8, 9, 10] := by
  refine ⟨_, rfl, rfl, rfl, ?_⟩
  rintro ⟨cached, hc, -, hsound⟩
  cases hc
  exact absurd hsound.whole (by decide)

end Runs

end JetsonVoice.Runtime
