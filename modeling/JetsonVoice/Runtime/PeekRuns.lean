import JetsonVoice.Runtime.CarryOver
import JetsonVoice.Runtime.Peek

/-!
# Peeks between the appends of a session

Appends and the final decode depend on the cache only through what the engine
reads. A peek without residue leaves a session the engine cannot tell from the
one before it, so such peeks can be taken out of a run and the final transcript
stays the same.
-/

namespace JetsonVoice.Runtime

/-- The same session on caches the engine cannot tell apart. -/
structure Alike (l l' : Live) : Prop where
  session : l.session = l'.session
  view : l.cache.view = l'.cache.view

theorem Alike.refl (l : Live) : Alike l l := ⟨rfl, rfl⟩

theorem Alike.trans {l l' l'' : Live} (h : Alike l l') (h' : Alike l' l'') : Alike l l'' :=
  ⟨h.session.trans h'.session, h.view.trans h'.view⟩

theorem NoResidue.alike {l l' : Live} (h : NoResidue l l') : Alike l' l :=
  ⟨h.session, h.cache.view⟩

section Calls
variable {Mel : Type*} (E : Engine Mel) {l l' : Live}

theorem runStep_alike (h : Alike l l') (step tail : List Int) (mel : Option Mel)
    (isFinal : Bool) :
    Alike (runStep E l step tail mel isFinal).2 (runStep E l' step tail mel isFinal).2 := by
  have hcommit := KvCache.commit_view h.view [step]
  simp only [runStep, h.view]
  cases E.appendPrefillChunk l'.cache.view step mel isFinal with
  | refused => exact h
  | failedAfterCommit => exact ⟨h.session, hcommit⟩
  | performed token => exact ⟨by rw [h.session], hcommit⟩

/-- An append sees only the session and what the engine reads. -/
theorem appendChunkImpl_alike (h : Alike l l') (chunk : List Int) (mel : Option Mel)
    (isFinal : Bool) :
    Alike (appendChunkImpl E l chunk mel isFinal).2 (appendChunkImpl E l' chunk mel isFinal).2 := by
  by_cases hadm : Admits E l chunk mel isFinal
  · have hadm' : Admits E l' chunk mel isFinal := by
      have hs := h.session
      exact ⟨hs ▸ hadm.active, hadm.nonempty, hs ▸ hadm.longEnough, hs ▸ hadm.fits, hadm.encodes⟩
    rw [appendChunkImpl_of_admits hadm, appendChunkImpl_of_admits hadm', h.session]
    exact runStep_alike E h _ _ mel isFinal
  · have hadm' : ¬ Admits E l' chunk mel isFinal := by
      have hs := h.session
      intro h'
      exact hadm ⟨hs ▸ h'.active, h'.nonempty, hs ▸ h'.longEnough, hs ▸ h'.fits, h'.encodes⟩
    rw [appendChunkImpl_of_not_admits hadm, appendChunkImpl_of_not_admits hadm']
    exact h

/-- What the final decode of a session reports. -/
def finalTranscript (l : Live) : Bool × String :=
  ((decodeToTranscript E l).1, (decodeToTranscript E l).2.session.transcript)

theorem finalTranscript_alike (h : Alike l l') : finalTranscript E l = finalTranscript E l' := by
  have hseen : seen (decodeToCompletion E l'.session.context l.cache) =
      seen (decodeToCompletion E l'.session.context l'.cache) := decodeToCompletion_seen h.view
  obtain ⟨hok, hctx, -⟩ : _ ∧ _ ∧ _ := by simpa only [seen, Prod.mk.injEq] using hseen
  simp only [finalTranscript, decodeToTranscript, h.session]
  split
  · simp only [h.session]
  · rw [hok, hctx]
    split <;> rfl

end Calls

/-- What is done to a live session. -/
inductive SessionOp (Mel : Type*) where
  | append (chunk : List Int) (mel : Option Mel) (isFinalChunk : Bool)
  | peek (maxNewTokens : Int)
  | peekWithSuffix (suffixTokenIds : List Int) (maxNewTokens : Int)

namespace SessionOp

variable {Mel : Type*} (E : Engine Mel)

def isAppend : SessionOp Mel → Bool
  | append _ _ _ => true
  | _ => false

def apply (l : Live) : SessionOp Mel → Live
  | append chunk mel isFinal => (appendChunkImpl E l chunk mel isFinal).2
  | peek maxNew => (peekTranscript E l maxNew).2
  | peekWithSuffix suffix maxNew => (peekTranscriptWithSuffix E l suffix maxNew).2

/-- The operation is an append, or a peek that leaves no residue. -/
def Harmless (l : Live) : SessionOp Mel → Prop
  | append _ _ _ => True
  | peek maxNew => l.cache.allEmpty = false ∨
      ¬ PeekCommits E l.session.context l.cache l.session.lane maxNew
  | peekWithSuffix suffix _ => ¬ SuffixCommits E l suffix ∨
      (l.session.lane = 0 ∧ l.cache.allEmpty = false)

end SessionOp

section Runs
variable {Mel : Type*} (E : Engine Mel)

/-- Perform operations in order. -/
def runOps (l : Live) (ops : List (SessionOp Mel)) : Live :=
  ops.foldl (SessionOp.apply E) l

/-- Every operation of the run is harmless where it happens. -/
def HarmlessRun : Live → List (SessionOp Mel) → Prop
  | _, [] => True
  | l, op :: ops => op.Harmless E l ∧ HarmlessRun (op.apply E l) ops

variable {E} {l l' : Live}

theorem peekTranscript_noResidue_iff {maxNew : Int} :
    NoResidue l (peekTranscript E l maxNew).2 ↔
      (SessionOp.peek maxNew : SessionOp Mel).Harmless E l := by
  refine ⟨fun h => peekAsrSessionTranscript_sameCache_iff.mp h.cache, fun h => ⟨?_, ?_⟩⟩
  · simp [peekTranscript]
  · exact peekAsrSessionTranscript_sameCache_iff.mpr h

/-- A harmless peek leaves no residue. -/
theorem SessionOp.Harmless.noResidue {op : SessionOp Mel} (h : op.Harmless E l)
    (hpeek : op.isAppend = false) : NoResidue l (op.apply E l) := by
  cases op with
  | append => cases hpeek
  | peek => exact peekTranscript_noResidue_iff.mpr h
  | peekWithSuffix => exact peekTranscriptWithSuffix_noResidue_iff.mpr h

/-- Harmless peeks can be taken out of a run. -/
theorem HarmlessRun.alike {ops : List (SessionOp Mel)} (h : HarmlessRun E l ops)
    (ha : Alike l l') :
    Alike (runOps E l ops) (runOps E l' (ops.filter SessionOp.isAppend)) := by
  induction ops generalizing l l' with
  | nil => exact ha
  | cons op ops ih =>
      obtain ⟨hop, hrest⟩ := h
      cases hpeek : op.isAppend with
      | true =>
          rw [List.filter_cons_of_pos hpeek]
          apply ih hrest
          cases op with
          | append chunk mel isFinal => exact appendChunkImpl_alike E ha chunk mel isFinal
          | peek => cases hpeek
          | peekWithSuffix => cases hpeek
      | false =>
          rw [List.filter_cons_of_neg (by simp [hpeek])]
          exact ih hrest ((hop.noResidue hpeek).alike.trans ha)

end Runs

/-- When a peek leaves no residue; and runs whose peeks all leave none end in
the transcript of their appends alone. -/
theorem peeks_leave_no_residue_iff {Mel : Type*} (E : Engine Mel) :
    (∀ (ctx : Context) (c : KvCache) (lane : Nat) (maxNew : Int),
      (peekAsrSessionTranscript E ctx c lane maxNew).2.1 = ctx ∧
      (SameCache c (peekAsrSessionTranscript E ctx c lane maxNew).2.2 ↔
        c.allEmpty = false ∨ ¬ PeekCommits E ctx c lane maxNew)) ∧
    (∀ (l : Live) (suffix : List Int) (maxNew : Int),
      NoResidue l (peekTranscriptWithSuffix E l suffix maxNew).2 ↔
        ¬ SuffixCommits E l suffix ∨ (l.session.lane = 0 ∧ l.cache.allEmpty = false)) ∧
    (∀ (l : Live) (ops : List (SessionOp Mel)), HarmlessRun E l ops →
      finalTranscript E (runOps E l ops) =
        finalTranscript E (runOps E l (ops.filter SessionOp.isAppend))) := by
  refine ⟨fun ctx c lane maxNew => ⟨?_, ?_⟩, fun l suffix maxNew => ?_, fun l ops h => ?_⟩
  · exact peekAsrSessionTranscript_context
  · exact peekAsrSessionTranscript_sameCache_iff
  · exact peekTranscriptWithSuffix_noResidue_iff
  · exact finalTranscript_alike E (h.alike (.refl l))

/-- An engine that performs every prefill and ends every decode at once. -/
def promptEngine : Engine Unit where
  encodeAudioChunk _ := some 2
  appendPrefillChunk _ _ _ _ := .performed 7
  decodeStep _ _ := .performed 0
  evict _ := true
  eosId := 0
  detokenize ids := toString ids

/-- A peek between an append and the final one. -/
def peekBetween : List (SessionOp Unit) :=
  [.append [1, 2, 3] none false, .peekWithSuffix [8, 9] 4, .append [4] none true]

theorem peekBetween_harmless : HarmlessRun promptEngine begunLive peekBetween :=
  ⟨trivial, .inr ⟨rfl, rfl⟩, trivial, trivial⟩

theorem peeks_leave_no_residue_between :
    finalTranscript promptEngine (runOps promptEngine begunLive peekBetween) =
      finalTranscript promptEngine (runOps promptEngine begunLive
        [.append [1, 2, 3] none false, .append [4] none true]) :=
  (peeks_leave_no_residue_iff promptEngine).2.2 begunLive peekBetween peekBetween_harmless

/-- A peek before the first append clears the all-empty flag. -/
theorem peek_before_append_leaves_residue :
    ¬ ∀ (E : Engine Unit) (l : Live) (suffix : List Int) (maxNew : Int),
      NoResidue l (peekTranscriptWithSuffix E l suffix maxNew).2 := by
  intro h
  have hflag : (peekTranscriptWithSuffix promptEngine begunLive [8, 9] 4).2.cache.allEmpty =
      false := by decide
  have hsame := (h promptEngine begunLive [8, 9] 4).cache.allEmpty
  rw [hflag] at hsame
  exact absurd hsame (by decide)

end JetsonVoice.Runtime
