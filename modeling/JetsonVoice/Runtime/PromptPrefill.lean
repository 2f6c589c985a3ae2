import JetsonVoice.Runtime.PromptCache

/-!
# Prefilling behind a reused prompt

The engine computes the KV rows of a token from the rows there are and keeps them behind
these. What it computes behind the reused rows of a cached prompt is what it computes for
the whole input from an empty cache.

## Implementation notes

A step gives the new row of every layer. Models with recurrent layers are left out: their
states are no rows and are not cut.
-/

namespace JetsonVoice.Runtime

variable {Row : Type*}

section Prefill

/-- What a model computes for a token behind the rows of its layers. -/
abbrev Step (Row : Type*) := List (List Row) → Int → List Row

/-- The rows of all layers with those of one more token. -/
def pushToken (next : Step Row) (kv : List (List Row)) (token : Int) : List (List Row) :=
  List.zipWith (fun layer row => layer ++ [row]) kv (next kv token)

/-- The rows of all layers behind a prefill. -/
def prefill (next : Step Row) (kv : List (List Row)) (tokens : List Int) : List (List Row) :=
  tokens.foldl (pushToken next) kv

/-- The rows kept in an empty cache. -/
def emptyCache (numLayers : Nat) : List (List Row) := List.replicate numLayers []

/-- The rows an entry starts its prefill from. -/
def BatchEntry.startRows (entry : BatchEntry Row) (numLayers : Nat) : List (List Row) :=
  match entry.restored with
  | some layers => layers.map (List.take entry.reuseKVCacheLength)
  | none => emptyCache numLayers

/-- A step that gives a row for every layer. -/
def Step.Layered (next : Step Row) : Prop := ∀ kv token, (next kv token).length = kv.length

/-- The rows of an entry are those of a prefill of its tokens. -/
def SystemPromptKVCache.PrefilledBy (next : Step Row) (numLayers : Nat)
    (cached : SystemPromptKVCache Row) : Prop :=
  cached.kvCacheLayers = prefill next (emptyCache numLayers) cached.tokenizedPrompt

variable {next : Step Row} {kv : List (List Row)} {token : Int} {tokens more : List Int}
  {m r numLayers : Nat}

theorem prefill_append :
    prefill next kv (tokens ++ more) = prefill next (prefill next kv tokens) more :=
  List.foldl_append

/-- Every layer gets one row more. -/
theorem pushToken_layers (token : Int) (hnext : next.Layered) (h : ∀ layer ∈ kv, layer.length = m) :
    (pushToken next kv token).length = kv.length ∧
      ∀ layer ∈ pushToken next kv token, layer.length = m + 1 := by
  refine ⟨by rw [pushToken, List.length_zipWith, hnext, Nat.min_self], fun layer hmem => ?_⟩
  obtain ⟨i, hi, rfl⟩ := List.mem_iff_getElem.mp hmem
  rw [pushToken, List.length_zipWith] at hi
  simp only [pushToken, List.getElem_zipWith, List.length_append, List.length_singleton]
  rw [h _ (List.getElem_mem (by omega))]

/-- Every layer has a row for each token. -/
theorem prefill_layers (tokens : List Int) (hnext : next.Layered) (h : ∀ layer ∈ kv, layer.length = m) :
    (prefill next kv tokens).length = kv.length ∧
      ∀ layer ∈ prefill next kv tokens, layer.length = m + tokens.length := by
  induction tokens generalizing kv m with
  | nil => exact ⟨rfl, h⟩
  | cons token tokens ih =>
      obtain ⟨hlen, hrows⟩ := pushToken_layers token hnext h
      obtain ⟨hlen', hrows'⟩ := ih hrows
      rw [List.length_cons, ← Nat.add_assoc, Nat.add_right_comm]
      exact ⟨hlen'.trans hlen, hrows'⟩

/-- A step changes none of the rows there are. -/
theorem take_pushToken (hnext : next.Layered) (h : ∀ layer ∈ kv, r ≤ layer.length) :
    (pushToken next kv token).map (List.take r) = kv.map (List.take r) := by
  refine List.ext_getElem (by simp [pushToken, hnext kv token]) fun i hi hi' => ?_
  have hlt : i < kv.length := by simpa using hi'
  simp only [pushToken, List.getElem_map, List.getElem_zipWith]
  exact List.take_append_of_le_length (h _ (List.getElem_mem hlt))

theorem take_prefill (hnext : next.Layered) (h : ∀ layer ∈ kv, layer.length = m) (hr : r ≤ m) :
    (prefill next kv tokens).map (List.take r) = kv.map (List.take r) := by
  induction tokens generalizing kv m with
  | nil => rfl
  | cons token tokens ih =>
      have hrows := (pushToken_layers token hnext h).2
      calc
        (prefill next (pushToken next kv token) tokens).map (List.take r) =
            (pushToken next kv token).map (List.take r) := ih hrows (by omega)
        _ = kv.map (List.take r) := take_pushToken hnext fun layer hl => (h layer hl).symm ▸ hr

theorem emptyCache_layers (numLayers : Nat) :
    ∀ layer ∈ (emptyCache numLayers : List (List Row)), layer.length = 0 := by
  intro layer hmem
  rw [(List.mem_replicate.mp hmem).2]
  rfl

/-- The first rows of a prefill are those of the first tokens. -/
theorem take_prefill_empty (hnext : next.Layered) (hr : r ≤ tokens.length) :
    (prefill next (emptyCache numLayers) tokens).map (List.take r) =
      prefill next (emptyCache numLayers) (tokens.take r) := by
  have hrows := (prefill_layers (tokens.take r) hnext (emptyCache_layers numLayers)).2
  rw [List.length_take, Nat.min_eq_left hr, Nat.zero_add] at hrows
  conv_lhs => rw [← List.take_append_drop r tokens, prefill_append]
  rw [take_prefill hnext hrows le_rfl]
  calc
    _ = (prefill next (emptyCache numLayers) (tokens.take r)).map id :=
      List.map_congr_left fun layer hl => List.take_of_length_le (hrows layer hl).le
    _ = _ := List.map_id _

/-- An entry prefilled for its tokens stores a row for each of them at most. -/
theorem SystemPromptKVCache.PrefilledBy.storedLength_le {cached : SystemPromptKVCache Row}
    (hnext : next.Layered) (h : cached.PrefilledBy next numLayers) :
    cached.storedLength ≤ cached.tokenizedPrompt.length := by
  unfold storedLength
  split
  · exact Nat.zero_le _
  · next layer layers hl =>
    have hrows := (prefill_layers cached.tokenizedPrompt hnext
      (emptyCache_layers numLayers)).2
    rw [← h, hl] at hrows
    exact ((hrows layer List.mem_cons_self).trans (Nat.zero_add _)).le

end Prefill

section Batches
variable {next : Step Row} {numLayers : Nat} {rt : PrefillSetUp Row} {loraWeightsName : String}
  {request : BatchRequest} {entry : BatchEntry Row}

/-- An entry's tokens behind the rows it reuses give the rows of its whole input. -/
theorem entry_prefill (hnext : next.Layered)
    (hsaved : ∀ cached ∈ rt.cachedFor loraWeightsName request, cached.PrefilledBy next numLayers)
    (h : rt.setUpEntry loraWeightsName request = .ok entry) :
    prefill next (entry.startRows numLayers) entry.tokenIds =
        prefill next (emptyCache numLayers) request.inputIds ∧
      entry.reuseKVCacheLength + entry.effectivePrefillLength = request.inputIds.length := by
  rcases setUpEntry_cases h with ⟨cached, hc, hmatch, hrestored, hreuse, htokens, hcount⟩ |
    ⟨-, rfl⟩
  · obtain ⟨hstored, hpos, hlt, hprefix⟩ := SystemPromptKVCache.matchIds_spec hmatch
    have hby := hsaved cached hc
    have hle : cached.reuseLength - 1 ≤ cached.tokenizedPrompt.length := by
      have := hby.storedLength_le hnext
      omega
    refine ⟨?_, by omega⟩
    rw [BatchEntry.startRows, hrestored]
    dsimp only
    rw [hby, hreuse, htokens, take_prefill_empty hnext hle,
      Foundation.take_eq_of_leading hprefix hle, ← prefill_append, List.take_append_drop]
  · exact ⟨rfl, Nat.zero_add _⟩

/-- Recurrent states are restored only where a model has them. -/
theorem recurrent_of_setUpEntry (h : rt.setUpEntry loraWeightsName request = .ok entry)
    (hrestored : entry.recurrentRestored = true) : 0 < rt.numLinearAttnLayers := by
  rw [PrefillSetUp.setUpEntry] at h
  split at h
  · split at h
    · rw [PrefillSetUp.installCached] at h
      split at h
      · cases h
      · cases h
        exact of_decide_eq_true hrestored
    · cases h
      cases hrestored
  · cases h
    cases hrestored

/-- A model whose rows are its tokens. -/
def tokenRows : Step Int := fun kv token => kv.map fun _ => token

/-- One cached prompt of two tokens. -/
def twoTokenPrompt : PrefillSetUp Int where
  systemPromptKVCacheBase key := if key = ("sys", "") then some ⟨[7, 8], [[7, 8]]⟩ else none
  needsStrategyKVCache := false
  hasSystemPromptKVCache _ := false
  numLinearAttnLayers := 0

end Batches

end JetsonVoice.Runtime
