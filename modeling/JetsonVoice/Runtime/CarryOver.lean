import JetsonVoice.Runtime.StreamingSession
import Mathlib.Algebra.GroupWithZero.Nat

/-!
# Text chunks appended to one session

The held-back token makes most steps long enough, and not all of them: behind a
held-back token a single non-final token is a step of one token again, and
behind a single first token nothing is held back at all. Both are refused. How
many tokens a chunk needs depends on the chunks accepted before it only through
how many tokens they left pending.

## Implementation notes

An attempt names the outcome of the prefill it may reach. An append that fails
is not accepted, and the caller may go on with another chunk.
-/

namespace JetsonVoice.Runtime

/-- One text append, with the outcome of its prefill if it is handed over. -/
structure Attempt where
  tokens : List Int
  isFinal : Bool := false
  result : CallResult := .performed 0
  deriving DecidableEq, Repr

/-- The engine that answers a prefill with the attempt's outcome. -/
def Attempt.engine (a : Attempt) : Engine Unit where
  encodeAudioChunk _ := none
  appendPrefillChunk _ _ _ _ := a.result
  decodeStep _ _ := .refused
  evict _ := false
  eosId := 0
  detokenize _ := ""

/-- `appendChunk` without audio. -/
def appendText (l : Live) (a : Attempt) : Append × Live :=
  appendChunkImpl a.engine l a.tokens none a.isFinal

/-- A session just begun: active, nothing appended, its row empty. -/
structure Begun (l : Live) : Prop where
  active : l.session.status = .kActive
  chunkCount : l.session.chunkCount = 0
  appendedTokens : l.session.appendedTokens = 0
  pendingTextTail : l.session.pendingTextTail = []
  kvLength : l.kvLength = 0

/-- A successful `beginAsrSession` begins the session. The tail is empty then:
`endAsrSession` clears it. -/
theorem beginAsrSession_begun {l l' : Live} {calls : BeginCalls} {prompt : List Int}
    {maxPositions maxAudio maxGen : Int} (htail : l.session.pendingTextTail = [])
    (h : beginAsrSession l calls prompt maxPositions maxAudio maxGen = (true, l')) : Begun l' := by
  simp only [beginAsrSession] at h
  split at h
  · cases h
  · split at h
    · cases h
    · split at h
      · cases h
      · split at h
        · cases h
        · split at h
          · cases h
          · split at h
            · cases h
            · obtain rfl := (Prod.mk.inj h).2
              exact ⟨rfl, rfl, rfl, htail, rfl⟩

/-- Text appends to a begun session: chunks with tokens, positions for all of
them, and nothing after an accepted final chunk. -/
structure TextAppends (l : Live) (as : List Attempt) : Prop where
  begun : Begun l
  nonempty : ∀ a ∈ as, a.tokens ≠ []
  fits : 0 < l.session.maxPositions →
    (((as.map fun a => a.tokens.length).sum : Nat) : Int) ≤ l.session.maxPositions
  finalLast : as.Pairwise fun a _ => ¬ (a.isFinal = true ∧ a.result.isPerformed = true)

/-- What is promised of one append, after chunks that made up `acc`. -/
structure CarriesStep (l : Live) (acc : List Int) (a : Attempt) : Prop where
  handed : (appendText l a).1.step.isSome = true
  accepted : (appendText l a).1.accepted = a.result.isPerformed
  noSingle : ∀ step, (appendText l a).1.step = some step → step.length = 1 → l.kvLength = 0
  carried : (appendText l a).2.committed ++ (appendText l a).2.session.pendingTextTail =
    if (appendText l a).1.accepted then acc ++ a.tokens else acc
  finalEmpty : (appendText l a).1.accepted = true → a.isFinal = true →
    (appendText l a).2.session.pendingTextTail = []
  refusedKeeps : (appendText l a).1.accepted = false →
    (appendText l a).2.committed = l.committed ∧
      (appendText l a).2.session.pendingTextTail = l.session.pendingTextTail ∧
      (appendText l a).2.kvLength = l.kvLength

/-- Every append of a run keeps what is promised of it. -/
def CarriesOver : Live → List Int → List Attempt → Prop
  | _, _, [] => True
  | l, acc, a :: as =>
      CarriesStep l acc a ∧
        CarriesOver (appendText l a).2
          (if (appendText l a).1.accepted then acc ++ a.tokens else acc) as

/-- The tokens a chunk needs after the accepted chunks `done`. -/
def required : List (List Int) → Bool → Nat
  | [], _ => 1
  | [[_]], isFinal => if isFinal then 2 else 3
  | _, isFinal => if isFinal then 1 else 2

/-- Every chunk has the tokens it needs, and no prefill fails after its commit. -/
def Suffices : List (List Int) → List Attempt → Prop
  | _, [] => True
  | done, a :: as =>
      required done a.isFinal ≤ a.tokens.length ∧ a.result ≠ .failedAfterCommit ∧
        Suffices (if a.result.isPerformed then done ++ [a.tokens] else done) as

/-- How many tokens the accepted chunks left pending. -/
def tailLength : List (List Int) → Nat
  | [] => 0
  | [[_]] => 0
  | _ => 1

/-- A session that accepted the non-final chunks `done`. -/
structure Carry (l : Live) (done : List (List Int)) : Prop where
  active : l.session.status = .kActive
  chunkCount : l.session.chunkCount = done.length
  appendedTokens : l.session.appendedTokens = l.kvLength
  carried : l.committed ++ l.session.pendingTextTail = done.flatten
  tail_length : l.session.pendingTextTail.length = tailLength done
  nonempty : ∀ c ∈ done, c ≠ []

theorem Begun.carry {l : Live} (h : Begun l) : Carry l [] where
  active := h.active
  chunkCount := h.chunkCount
  appendedTokens := h.appendedTokens.trans h.kvLength.symm
  carried := by
    rw [h.pendingTextTail, List.append_nil]
    exact KvRow.committed_eq_nil.mpr h.kvLength
  tail_length := by rw [h.pendingTextTail]; rfl
  nonempty := by simp

/-- What a chunk needs, by what is pending. -/
theorem required_cons (c : List Int) (done : List (List Int)) (isFinal : Bool) :
    required (c :: done) isFinal + tailLength (c :: done) = if isFinal then 2 else 3 := by
  match c, done with
  | [], _ => cases isFinal <;> rfl
  | [_], [] => cases isFinal <;> rfl
  | [_], _ :: _ => cases isFinal <;> rfl
  | _ :: _ :: _, _ => cases isFinal <;> rfl

/-- A non-final chunk that is accepted leaves one token pending, unless it is a
single token and the first. -/
theorem tailLength_concat {done : List (List Int)} {c : List Int} (h : c ≠ [])
    (hd : ∀ d ∈ done, d ≠ []) :
    tailLength (done ++ [c]) = if done = [] ∧ c.length = 1 then 0 else 1 := by
  match done, c with
  | [], [_] => rfl
  | [], _ :: _ :: _ => simp [tailLength]
  | [] :: _, _ => simp at hd
  | [_] :: [], _ => simp [tailLength]
  | [_] :: _ :: _, _ => simp [tailLength]
  | (_ :: _ :: _) :: _, _ => simp [tailLength]

/-- The length of a text step: one less than the effective tokens when the last
one is held back. -/
theorem stepTokens_length (s : Session) (chunk : List Int) (isFinal : Bool) :
    (s.stepTokens chunk true isFinal).length =
      if isFinal = false ∧ 2 ≤ s.pendingTextTail.length + chunk.length then
        s.pendingTextTail.length + chunk.length - 1
      else s.pendingTextTail.length + chunk.length := by
  simp only [Session.stepTokens, holdBack, Session.deferTail, Session.effectiveTokens,
    List.length_append, Bool.and_true, Bool.and_eq_true, Bool.not_eq_true', decide_eq_true_eq]
  split <;> simp

namespace Carry

variable {l : Live} {done : List (List Int)} {a : Attempt}

theorem prior_iff (h : Carry l done) : l.session.priorKvNonEmpty = true ↔ done ≠ [] := by
  have htail := h.tail_length
  cases done with
  | nil =>
      have hnil : l.session.pendingTextTail = [] := List.eq_nil_of_length_eq_zero htail
      simp [Session.priorKvNonEmpty, h.chunkCount, hnil]
  | cons c done => simp [Session.priorKvNonEmpty, h.chunkCount]

theorem flatten_length (h : Carry l done) :
    l.session.appendedTokens + l.session.pendingTextTail.length = done.flatten.length := by
  rw [h.appendedTokens, ← h.carried, List.length_append]
  simp [Live.committed, Live.kvLength]

/-- The single-token guard passes exactly the chunks that are long enough. -/
theorem refusesStep_iff (h : Carry l done) (ha : a.tokens ≠ []) :
    l.session.refusesStep (l.session.stepTokens a.tokens true a.isFinal) = false ↔
      required done a.isFinal ≤ a.tokens.length := by
  have hpos : 0 < a.tokens.length := List.length_pos_iff.mpr ha
  have hprior := h.prior_iff
  have htail := h.tail_length
  have hlen := stepTokens_length l.session a.tokens a.isFinal
  cases done with
  | nil =>
      have hnot : l.session.priorKvNonEmpty = false := by simpa using hprior
      simp only [Session.refusesStep, hnot, Bool.and_false, true_iff]
      exact hpos
  | cons c done =>
      have hyes : l.session.priorKvNonEmpty = true := by simpa using hprior
      have hreq := required_cons c done a.isFinal
      rw [← htail] at hreq
      simp only [Session.refusesStep, hyes, Bool.and_true, decide_eq_false_iff_not, hlen]
      cases hf : a.isFinal with
      | false =>
          simp only [hf, Bool.false_eq_true, if_false, true_and] at hreq ⊢
          split <;> omega
      | true =>
          simp only [hf, if_true, Bool.true_eq_false, false_and, if_false] at hreq ⊢
          omega

/-- With positions left for it, a chunk reaches the engine exactly when it is
long enough. -/
theorem admits_iff (h : Carry l done) (ha : a.tokens ≠ [])
    (hfits : 0 < l.session.maxPositions →
      ((done.flatten.length + a.tokens.length : Nat) : Int) ≤ l.session.maxPositions) :
    Admits a.engine l a.tokens none a.isFinal ↔ required done a.isFinal ≤ a.tokens.length := by
  rw [← h.refusesStep_iff ha]
  refine ⟨fun hadm => hadm.longEnough, fun hlong => ⟨h.active, ha, hlong, ?_, rfl⟩⟩
  rintro ⟨hpos, hover⟩
  have hflat := h.flatten_length
  have hlen := stepTokens_length l.session a.tokens a.isFinal
  have hle : (l.session.stepTokens a.tokens true a.isFinal).length ≤
      l.session.pendingTextTail.length + a.tokens.length := by
    rw [hlen]
    split <;> omega
  have := hfits hpos
  simp only [Option.isNone_none] at hover
  omega

/-- An admitted append of an attempt is its prefill. -/
theorem appendText_of_admits (hadm : Admits a.engine l a.tokens none a.isFinal) :
    appendText l a = runStep a.engine l (l.session.stepTokens a.tokens true a.isFinal)
      (l.session.nextPendingTail a.tokens true a.isFinal) none a.isFinal :=
  appendChunkImpl_of_admits hadm

/-- The tail left by an accepted non-final chunk. -/
theorem nextPendingTail_length (h : Carry l done) (ha : a.tokens ≠ [])
    (hreq : required done a.isFinal ≤ a.tokens.length) (hf : a.isFinal = false) :
    (l.session.nextPendingTail a.tokens true a.isFinal).length =
      tailLength (done ++ [a.tokens]) := by
  have hpos : 0 < a.tokens.length := List.length_pos_iff.mpr ha
  have hsum := congrArg List.length (l.session.stepTokens_append_tail a.tokens true a.isFinal)
  have hlen := stepTokens_length l.session a.tokens a.isFinal
  rw [List.length_append, List.length_append, h.tail_length] at hsum
  rw [h.tail_length] at hlen
  rw [tailLength_concat ha h.nonempty]
  -- One token stays pending exactly when two are there to split.
  have htwo : 2 ≤ tailLength done + a.tokens.length ↔ ¬ (done = [] ∧ a.tokens.length = 1) := by
    cases done with
    | nil => simp only [tailLength, true_and]; omega
    | cons c done =>
        have hcons := required_cons c done a.isFinal
        simp only [hf, Bool.false_eq_true, if_false] at hcons hreq
        simp only [List.cons_ne_nil, false_and, not_false_iff, iff_true]
        omega
  by_cases hsplit : 2 ≤ tailLength done + a.tokens.length
  · rw [if_pos ⟨hf, hsplit⟩] at hlen
    rw [if_neg (htwo.mp hsplit)]
    omega
  · rw [if_neg fun hs => hsplit hs.2] at hlen
    rw [if_pos (not_not.mp (mt htwo.mpr hsplit))]
    omega

/-- A performed step and the tail behind it continue what was carried by the
chunk. -/
theorem performed_carried (h : Carry l done) (a : Attempt) (token : Int) :
    Live.committed ⟨l.session.accept (l.session.stepTokens a.tokens true a.isFinal)
        (l.session.nextPendingTail a.tokens true a.isFinal) a.isFinal token,
      l.cache.commit [l.session.stepTokens a.tokens true a.isFinal]⟩ ++
        l.session.nextPendingTail a.tokens true a.isFinal = done.flatten ++ a.tokens := by
  calc
    _ = l.committed ++ (l.session.stepTokens a.tokens true a.isFinal ++
          l.session.nextPendingTail a.tokens true a.isFinal) := by
      simp [Live.committed, KvRow.push_committed]
    _ = done.flatten ++ a.tokens := by
      rw [Session.stepTokens_append_tail, ← List.append_assoc, h.carried]

/-- A step of one token that is let through finds an empty row. -/
theorem kvLength_eq_zero (h : Carry l done) (hadm : Admits a.engine l a.tokens none a.isFinal)
    (hone : (l.session.stepTokens a.tokens true a.isFinal).length = 1) : l.kvLength = 0 := by
  have hlong := hadm.longEnough
  simp only [Option.isNone_none, Session.refusesStep, hone, decide_true, Bool.true_and] at hlong
  have hnil : done = [] := by
    by_contra hd
    rw [h.prior_iff.mpr hd] at hlong
    cases hlong
  have hflat := h.flatten_length
  rw [hnil, h.appendedTokens] at hflat
  simp only [List.flatten_nil, List.length_nil] at hflat
  omega

/-- After an accepted non-final chunk the session carries one chunk more. -/
theorem accept (h : Carry l done) (ha : a.tokens ≠ [])
    (hreq : required done a.isFinal ≤ a.tokens.length) (hf : a.isFinal = false) (token : Int) :
    Carry ⟨l.session.accept (l.session.stepTokens a.tokens true a.isFinal)
        (l.session.nextPendingTail a.tokens true a.isFinal) a.isFinal token,
      l.cache.commit [l.session.stepTokens a.tokens true a.isFinal]⟩ (done ++ [a.tokens]) where
  active := by simpa [Session.accept, hf] using h.active
  chunkCount := by simp [Session.accept, h.chunkCount]
  appendedTokens := by simp [Session.accept, h.appendedTokens, Live.kvLength]
  carried := by
    calc
      _ = done.flatten ++ a.tokens := h.performed_carried a token
      _ = (done ++ [a.tokens]).flatten := by simp
  tail_length := h.nextPendingTail_length ha hreq hf
  nonempty c hc := by
    rcases List.mem_append.mp hc with hd | he
    · exact h.nonempty c hd
    · exact List.mem_singleton.mp he ▸ ha

end Carry

/-- The promise to one append is kept exactly when its chunk is long enough and
its prefill does not fail after the commit. -/
theorem Carry.step_iff {l : Live} {done : List (List Int)} {a : Attempt} (h : Carry l done)
    (ha : a.tokens ≠ [])
    (hfits : 0 < l.session.maxPositions →
      ((done.flatten.length + a.tokens.length : Nat) : Int) ≤ l.session.maxPositions) :
    CarriesStep l done.flatten a ↔
      required done a.isFinal ≤ a.tokens.length ∧ a.result ≠ .failedAfterCommit := by
  have hiff := h.admits_iff ha hfits
  constructor
  · intro hstep
    have hadm : Admits a.engine l a.tokens none a.isFinal := by
      by_contra hn
      have hnone : (appendText l a).1.step = none := by
        rw [appendText, appendChunkImpl_of_not_admits hn]
      have hhanded := hstep.handed
      rw [hnone] at hhanded
      cases hhanded
    refine ⟨hiff.mp hadm, fun hfail => ?_⟩
    have heq := Carry.appendText_of_admits hadm
    simp only [runStep, Attempt.engine, hfail] at heq
    have hkeep := (hstep.refusedKeeps (by rw [heq])).2.2
    have hne := l.session.stepTokens_ne_nil ha true a.isFinal
    rw [heq] at hkeep
    simp only [Live.kvLength, KvCache.commit_row_zero, KvRow.push_length] at hkeep
    exact hne (List.eq_nil_of_length_eq_zero (by omega))
  · rintro ⟨hreq, hfail⟩
    have hadm := hiff.mpr hreq
    have heq := Carry.appendText_of_admits hadm
    have hsingle : ∀ step, l.session.stepTokens a.tokens true a.isFinal = step →
        step.length = 1 → l.kvLength = 0 := by
      rintro step rfl hone
      exact h.kvLength_eq_zero hadm hone
    cases hr : a.result with
    | failedAfterCommit => exact absurd hr hfail
    | refused =>
        simp only [runStep, Attempt.engine, hr] at heq
        constructor <;> rw [heq]
        · rfl
        · rw [hr]; rfl
        · intro step hs hone
          exact hsingle step (Option.some.inj hs) hone
        · simpa using h.carried
        · intro hacc; cases hacc
        · intro _; exact ⟨rfl, rfl, rfl⟩
    | performed token =>
        simp only [runStep, Attempt.engine, hr] at heq
        constructor <;> rw [heq]
        · rfl
        · rw [hr]; rfl
        · intro step hs hone
          exact hsingle step (Option.some.inj hs) hone
        · exact h.performed_carried a token
        · intro _ hf
          exact l.session.nextPendingTail_of_not_defer (l.session.deferTail_eq_false (.inl hf))
        · intro hacc; cases hacc

/-- From any session that carries `done`, a run keeps its promise exactly when
its chunks suffice. -/
theorem Carry.carries_iff {l : Live} {done : List (List Int)} {as : List Attempt}
    (h : Carry l done) (hne : ∀ a ∈ as, a.tokens ≠ [])
    (hfits : 0 < l.session.maxPositions →
      ((done.flatten.length + (as.map fun a => a.tokens.length).sum : Nat) : Int) ≤
        l.session.maxPositions)
    (hlast : as.Pairwise fun a _ => ¬ (a.isFinal = true ∧ a.result.isPerformed = true)) :
    CarriesOver l done.flatten as ↔ Suffices done as := by
  induction as generalizing l done with
  | nil => exact Iff.rfl
  | cons a as ih =>
      obtain ⟨ha, hne⟩ := List.forall_mem_cons.mp hne
      obtain ⟨hfinal, hlast⟩ := List.pairwise_cons.mp hlast
      simp only [List.map_cons, List.sum_cons] at hfits
      have hfit : 0 < l.session.maxPositions →
          ((done.flatten.length + a.tokens.length : Nat) : Int) ≤ l.session.maxPositions := by
        intro hpos
        have := hfits hpos
        omega
      simp only [CarriesOver, Suffices, h.step_iff ha hfit, and_assoc]
      apply and_congr_right
      intro hreq
      apply and_congr_right
      intro hfail
      have heq := Carry.appendText_of_admits ((h.admits_iff ha hfit).mpr hreq)
      cases hr : a.result with
      | failedAfterCommit => exact absurd hr hfail
      | refused =>
          simp only [runStep, Attempt.engine, hr] at heq
          rw [heq]
          apply ih h hne _ hlast
          intro hpos
          have := hfits hpos
          omega
      | performed token =>
          simp only [runStep, Attempt.engine, hr] at heq
          rw [heq]
          cases hf : a.isFinal with
          | true =>
              -- Nothing follows an accepted final chunk.
              have hnil : as = [] := by
                cases as with
                | nil => rfl
                | cons b as =>
                    exact absurd ⟨hf, by rw [hr]; rfl⟩ (hfinal b List.mem_cons_self)
              subst hnil
              exact Iff.rfl
          | false =>
              have hnext := h.accept ha hreq hf token
              rw [hf] at hnext
              have hflat : done.flatten ++ a.tokens = (done ++ [a.tokens]).flatten := by simp
              simp only [CallResult.isPerformed, if_true]
              rw [hflat]
              apply ih hnext hne _ hlast
              intro (hpos : 0 < l.session.maxPositions)
              have := hfits hpos
              rw [← hflat, List.length_append, Nat.add_assoc]
              exact this

/-- A run of text appends keeps its promise exactly when every chunk has the
tokens it needs and no prefill fails after its commit. -/
theorem carriesOver_iff {l : Live} {as : List Attempt} (h : TextAppends l as) :
    CarriesOver l [] as ↔ Suffices [] as := by
  apply h.begun.carry.carries_iff h.nonempty _ h.finalLast
  simpa using h.fits

/-- A session begun on lane 0 of a cache with one row. -/
def begunLive : Live where
  session := { lane := 0, status := .kActive, maxPositions := 64
               context := { maxGenerateLength := 256, active := true } }
  cache := { maxBatch := 1, activeBatch := 1 }

theorem begunLive_textAppends (as : List Attempt) (hne : ∀ a ∈ as, a.tokens ≠ [])
    (hfits : (((as.map fun a => a.tokens.length).sum : Nat) : Int) ≤ 64)
    (hlast : as.Pairwise fun a _ => ¬ (a.isFinal = true ∧ a.result.isPerformed = true)) :
    TextAppends begunLive as where
  begun := ⟨rfl, rfl, rfl, rfl, rfl⟩
  nonempty := hne
  fits _ := hfits
  finalLast := hlast

theorem carriesOver_iff_three :
    CarriesOver begunLive [] [⟨[1], false, .performed 0⟩, ⟨[2, 3, 4], false, .refused⟩,
        ⟨[2, 3], true, .performed 9⟩] ↔
      Suffices [] [⟨[1], false, .performed 0⟩, ⟨[2, 3, 4], false, .refused⟩,
        ⟨[2, 3], true, .performed 9⟩] :=
  carriesOver_iff (begunLive_textAppends _ (by decide) (by decide) (by decide))

/-- Two non-final chunks of one token: the second is refused. -/
theorem single_token_chunk_refused :
    ¬ ∀ (l : Live) (as : List Attempt), TextAppends l as → CarriesOver l [] as := by
  intro h
  have hrun := h begunLive [⟨[5], false, .performed 0⟩, ⟨[6], false, .performed 0⟩]
    (begunLive_textAppends _ (by decide) (by decide) (by decide))
  exact absurd hrun.2.1.handed (by decide)

end JetsonVoice.Runtime
