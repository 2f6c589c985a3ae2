import JetsonVoice.Tts.SparkSchedule

/-!
# The prompt echo of a voice clone

The prompt of a clone may end with the semantic tokens of the reference. The
token loop skips as many semantic tokens as the reference has, whether or not
the stream repeats them.
-/

namespace JetsonVoice.Tts.Spark

open Foundation Protocol

/-- The semantic token an id of the stream stands for. -/
def semanticToken? (tid : Int) : Option Int :=
  if kSemanticIdBase ≤ tid ∧ tid ≤ kSemanticIdEnd then some (tid - kSemanticIdBase) else none

/-- The semantic tokens of a stream. -/
def semanticTokens (tokenIds : List Int) : List Int := tokenIds.filterMap semanticToken?

/-- A stream without the echo of the reference it may begin with. -/
def withoutEcho (reference generated : List Int) : List Int :=
  if reference <+: generated then generated.drop reference.length else generated

theorem take_take_append {α : Type} (l r : List α) (n : Nat) :
    (l.take n ++ r).take n = (l ++ r).take n := by
  rcases le_total l.length n with hle | hle
  · rw [List.take_of_length_le hle]
  · rw [List.take_append_of_le_length hle, List.take_append_of_le_length (by simp [hle]),
      List.take_take, min_self]

section Skipping
variable {o : Options} {st : State}

variable (st) in
theorem sortToken_other (hc : o.isClone = true) {tid : Int} (ht : semanticToken? tid = none) :
    (st.sortToken o tid).semantic = st.semantic ∧
    (st.sortToken o tid).semanticSkipped = st.semanticSkipped := by
  have hrange : ¬ (kSemanticIdBase ≤ tid ∧ tid ≤ kSemanticIdEnd) := by
    intro h
    rw [semanticToken?, if_pos h] at ht
    cases ht
  simp only [State.sortToken, hc, if_true, if_neg hrange]
  split <;> exact ⟨rfl, rfl⟩

theorem semantic_range {tid t : Int} (ht : semanticToken? tid = some t) :
    ¬ (kGlobalIdBase ≤ tid ∧ tid ≤ kGlobalIdEnd) ∧
    (kSemanticIdBase ≤ tid ∧ tid ≤ kSemanticIdEnd) ∧ t = tid - kSemanticIdBase := by
  rw [semanticToken?] at ht
  split at ht
  · rename_i hrange
    cases ht
    refine ⟨?_, hrange, rfl⟩
    simp only [kSemanticIdBase, kGlobalIdEnd] at hrange ⊢
    omega
  · cases ht

/-- A semantic token is skipped while fewer have been than the reference has. -/
theorem sortToken_skip (hc : o.isClone = true) {tid t : Int} (ht : semanticToken? tid = some t)
    (hk : st.semanticSkipped < o.cloneRefSemantic.length) :
    (st.sortToken o tid).semantic = st.semantic ∧
    (st.sortToken o tid).semanticSkipped = st.semanticSkipped + 1 := by
  obtain ⟨hglobal, hrange, -⟩ := semantic_range ht
  have hskip : o.isClone = true ∧ st.semanticSkipped < State.refSemanticEcho o :=
    ⟨hc, by rwa [State.refSemanticEcho, if_pos hc]⟩
  constructor <;> simp only [State.sortToken, if_neg hglobal, if_pos hrange, if_pos hskip]

/-- A semantic token behind the skipped ones is kept while there is room. -/
theorem sortToken_keep (hc : o.isClone = true) {tid t : Int} (ht : semanticToken? tid = some t)
    (hk : o.cloneRefSemantic.length ≤ st.semanticSkipped)
    (hroom : st.semantic.length ≤ o.maxSemantic.toNat) :
    (st.sortToken o tid).semantic = (st.semantic ++ [t]).take o.maxSemantic.toNat ∧
    (st.sortToken o tid).semanticSkipped = st.semanticSkipped := by
  obtain ⟨hglobal, hrange, rfl⟩ := semantic_range ht
  have hskip : ¬ (o.isClone = true ∧ st.semanticSkipped < State.refSemanticEcho o) := by
    rw [State.refSemanticEcho, if_pos hc]
    omega
  simp only [State.sortToken, if_neg hglobal, if_pos hrange, if_neg hskip]
  split
  · rename_i hlt
    refine ⟨(List.take_of_length_le ?_).symm, rfl⟩
    rw [List.length_append, List.length_singleton]
    omega
  · rename_i hfull
    have hcap : o.maxSemantic.toNat = st.semantic.length := by omega
    exact ⟨by rw [hcap, List.take_left], rfl⟩

/-- The semantic tokens of a clone after a stream of tokens. -/
theorem foldl_semantic (hc : o.isClone = true) (tokenIds : List Int)
    (hk : st.semanticSkipped ≤ o.cloneRefSemantic.length)
    (hroom : st.semantic.length ≤ o.maxSemantic.toNat) :
    (tokenIds.foldl (State.sortToken o) st).semantic =
      (st.semantic ++ (semanticTokens tokenIds).drop
        (o.cloneRefSemantic.length - st.semanticSkipped)).take o.maxSemantic.toNat := by
  induction tokenIds generalizing st with
  | nil => simp [semanticTokens, List.take_of_length_le hroom]
  | cons tid rest ih =>
      rw [List.foldl_cons]
      cases ht : semanticToken? tid with
      | none =>
          obtain ⟨hsem, hskip⟩ := sortToken_other st hc ht
          rw [ih (by rwa [hskip]) (by rwa [hsem]), hsem, hskip, semanticTokens, semanticTokens,
            List.filterMap_cons_none ht]
      | some t =>
          have hcons : semanticTokens (tid :: rest) = t :: semanticTokens rest := by
            rw [semanticTokens, List.filterMap_cons_some ht, semanticTokens]
          rw [hcons]
          by_cases hlt : st.semanticSkipped < o.cloneRefSemantic.length
          · obtain ⟨hsem, hskip⟩ := sortToken_skip hc ht hlt
            have hleft : o.cloneRefSemantic.length - st.semanticSkipped =
                o.cloneRefSemantic.length - (st.semanticSkipped + 1) + 1 := by omega
            rw [ih (by omega) (by rwa [hsem]), hsem, hskip, hleft, List.drop_succ_cons]
          · obtain ⟨hsem, hskip⟩ := sortToken_keep hc ht (Nat.le_of_not_lt hlt) hroom
            have hleft : o.cloneRefSemantic.length - st.semanticSkipped = 0 := by omega
            rw [ih (by omega) (by rw [hsem]; exact List.length_take_le _ _), hsem, hskip, hleft,
              List.drop_zero, List.drop_zero, take_take_append, List.append_assoc,
              List.singleton_append]

end Skipping

/-- A clone loses no token to the echo exactly when the stream repeats the
reference, or holds no semantic tokens at all, and the cap leaves it whole. -/
theorem vocoded_withoutEcho_iff {S : Type} [Add S] [Sub S] [Mul S] [Div S] [NatCast S]
    (v : Bicodec S) {o : Options} (hc : o.isClone = true) (streamAudio : Bool)
    (arrivals : List (List Int)) :
    (Stream.tokenLoop v { o with streamAudio := streamAudio } arrivals).locals.semantic =
      withoutEcho o.cloneRefSemantic (semanticTokens arrivals.flatten) ↔
    semanticTokens arrivals.flatten = [] ∨
      o.cloneRefSemantic <+: semanticTokens arrivals.flatten ∧
        (semanticTokens arrivals.flatten).length ≤
          o.cloneRefSemantic.length + o.maxSemantic.toNat := by
  have hvocoded : (Stream.tokenLoop v { o with streamAudio := streamAudio } arrivals).locals.semantic
      = ((semanticTokens arrivals.flatten).drop o.cloneRefSemantic.length).take
        o.maxSemantic.toNat := by
    rw [(Stream.tokenLoop_same v o streamAudio arrivals).semantic, received,
      foldl_semantic hc _ (Nat.zero_le _) (Nat.zero_le _)]
    rfl
  rw [hvocoded]
  generalize semanticTokens arrivals.flatten = generated
  constructor
  · intro heq
    by_cases hecho : o.cloneRefSemantic <+: generated
    · rw [withoutEcho, if_pos hecho, List.take_eq_self_iff, List.length_drop] at heq
      exact .inr ⟨hecho, by omega⟩
    · -- Without the echo at least one token is skipped, so only an empty stream is whole.
      rw [withoutEcho, if_neg hecho] at heq
      have hlen := congrArg List.length heq
      have hpos : 0 < o.cloneRefSemantic.length := by
        rw [List.length_pos_iff]
        rintro hnil
        exact hecho (hnil ▸ List.nil_prefix)
      rw [List.length_take, List.length_drop] at hlen
      exact .inl (List.length_eq_zero_iff.mp (by omega))
  · rintro (rfl | ⟨hecho, hcap⟩)
    · simp [withoutEcho]
    · rw [withoutEcho, if_pos hecho, List.take_eq_self_iff, List.length_drop]
      omega

section Samples

/-- A clone whose reference is the single semantic token 5. -/
def cloneRequest : Json :=
  .obj [("text", .str "hi"), ("mode", .str "clone"), ("ref_text", .str "ho"),
    ("global_ids", .arr (List.replicate 32 (.int 0))), ("ref_semantic_ids", .arr [.int 5])]

theorem vocoded_withoutEcho_of_repeated : ∃ o, buildRequest cloneRequest "a" = .ok o ∧
    ((Stream.tokenLoop Stream.steps { o with streamAudio := true }
        [[kSemanticIdBase + 5], [kSemanticIdBase + 7]]).locals.semantic =
      withoutEcho o.cloneRefSemantic
        (semanticTokens [[kSemanticIdBase + 5], [kSemanticIdBase + 7]].flatten) ↔
    semanticTokens [[kSemanticIdBase + 5], [kSemanticIdBase + 7]].flatten = [] ∨
      o.cloneRefSemantic <+: semanticTokens [[kSemanticIdBase + 5], [kSemanticIdBase + 7]].flatten ∧
        (semanticTokens [[kSemanticIdBase + 5], [kSemanticIdBase + 7]].flatten).length ≤
          o.cloneRefSemantic.length + o.maxSemantic.toNat) := by
  have hb : buildRequest cloneRequest "a" = .ok _ := rfl
  exact ⟨_, hb, vocoded_withoutEcho_iff Stream.steps (by decide) true _⟩

/-- A stream that does not repeat the reference loses its first token. -/
theorem unrepeated_reference_loses_token : ∃ o, buildRequest cloneRequest "a" = .ok o ∧
    ¬ o.cloneRefSemantic <+: semanticTokens [kSemanticIdBase + 7, kSemanticIdBase + 8] ∧
    semanticTokens [kSemanticIdBase + 7, kSemanticIdBase + 8] = [7, 8] ∧
    (Stream.tokenLoop Stream.steps o [[kSemanticIdBase + 7, kSemanticIdBase + 8]]).locals.semantic
      = [8] := by
  have hb : buildRequest cloneRequest "a" = .ok _ := rfl
  exact ⟨_, hb, by decide, by decide, by decide⟩

end Samples

end JetsonVoice.Tts.Spark
