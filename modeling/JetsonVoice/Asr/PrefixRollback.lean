import JetsonVoice.Asr.Worker
import Mathlib.Order.Bounds.Basic

/-!
# The confirmed prefix of a streamed transcript

Before a hop the worker drops the last tokens of the transcript so far and keeps
the text of the others as a confirmed prefix. Where that text would end inside
a character, one more token is dropped at a time.

## Implementation notes

The tokenizer is any pair of functions. The search runs for a bounded number of
rounds and answers `none` when they are used up. The count of tokens is kept in
32 bits, as the `int` of the source keeps it.
-/

namespace JetsonVoice.Asr

open Foundation

/-- The tokenizer of the engine. -/
structure Tokenizer where
  encode : String → List Nat
  decode : List Nat → String

/-- The numbers the environment variables of the prefix path are read as. -/
structure PrefixEnv where
  /-- `OVS_ASR_PREFIX_WARMUP`. -/
  warmup : Option Int := none
  /-- `OVS_ASR_PREFIX_UNFIXED`. -/
  unfixed : Option Int := none

/-- Hops at the start that use no prefix. -/
def unfixedChunkNum (env : PrefixEnv) : Int :=
  match env.warmup with
  | some x => if 0 ≤ x then x else 2
  | none => 2

/-- Tokens at the end of the transcript that are not confirmed yet. -/
def unfixedTokenNum (env : PrefixEnv) : Int :=
  match env.unfixed with
  | some x => if 1 ≤ x then x else 5
  | none => 5

/-- U+FFFD, what a decoded text has in place of half a character. -/
def kUtf8Replacement : Char := '\uFFFD'

def holdsReplacement (text : String) : Bool := text.toList.contains kUtf8Replacement

/-- The text of the first tokens; no token has no text. -/
def prefixText (tok : Tokenizer) (tokens : List Nat) (n : Nat) : String :=
  if 0 < n then tok.decode (tokens.take n) else ""

/-- The token count in the `int` it is kept in. -/
def tokenCount (tokens : List Nat) : Int := Int.bmod tokens.length (2 ^ 32)

/-- The loop of `computePrefix`, with `k` tokens dropped, for so many rounds at most. -/
def rollback (tok : Tokenizer) (tokens : List Nat) (isFinish : Bool) :
    (rounds : Nat) → (k : Int) → Option String
  | 0, _ => none
  | rounds + 1, k =>
      let last := max (if isFinish then 1 else 0) (tokenCount tokens - k)
      let text := prefixText tok tokens last.toNat
      if !holdsReplacement text then some text
      else if !isFinish && last = 0 then some ""
      else if isFinish && last = 1 then some text
      else rollback tok tokens isFinish rounds (k + 1)

/-- `computePrefix`: the confirmed prefix of a session's transcript. -/
def computePrefix (tok : Option Tokenizer) (env : PrefixEnv) (rounds : Nat) (st : SessionState)
    (isFinish : Bool) : Option String :=
  match tok with
  | none => some ""
  | some tok =>
      if st.rawDecoded = "" then some ""
      else if (st.chunkId : Int) < unfixedChunkNum env then some ""
      else
        let tokens := tok.encode st.rawDecoded
        if tokens = [] then some ""
        else rollback tok tokens isFinish rounds (unfixedTokenNum env)

/-- A number of tokens whose text has no half a character. -/
def Safe (tok : Tokenizer) (tokens : List Nat) (n : Nat) : Prop :=
  holdsReplacement (prefixText tok tokens n) = false

instance (tok : Tokenizer) (tokens : List Nat) (n : Nat) : Decidable (Safe tok tokens n) :=
  inferInstanceAs (Decidable (_ = _))

/-- The tokenizer, the transcript and the hop's number let a prefix be confirmed. -/
def Confirms (tok : Tokenizer) (env : PrefixEnv) (st : SessionState) : Prop :=
  st.rawDecoded ≠ "" ∧ unfixedChunkNum env ≤ st.chunkId ∧ tok.encode st.rawDecoded ≠ []

/-- The most tokens a hop may confirm. -/
def confirmable (tok : Tokenizer) (env : PrefixEnv) (st : SessionState) : Int :=
  tokenCount (tok.encode st.rawDecoded) - unfixedTokenNum env

section Search
variable {tok : Tokenizer} {tokens : List Nat}

theorem prefixText_zero (tok : Tokenizer) (tokens : List Nat) : prefixText tok tokens 0 = "" := rfl

theorem safe_zero (tok : Tokenizer) (tokens : List Nat) : Safe tok tokens 0 := by
  rw [Safe, prefixText_zero]
  decide

/-- The search from the length `n` down to the least one: it ends at the longest safe length,
and at the least one when none is safe. By induction on the distance it can still go. -/
theorem rollback_spec (tok : Tokenizer) (tokens : List Nat) {isFinish : Bool} {least n : Nat}
    {k : Int}    (hl : least = if isFinish then 1 else 0) (hle : least ≤ n)
    (hk : max (least : Int) (tokenCount tokens - k) = n) :
    ∃ m, least ≤ m ∧ m ≤ n ∧ (∀ l, m < l → l ≤ n → ¬ Safe tok tokens l) ∧
      (Safe tok tokens m ∨ m = least) ∧
      ∀ rounds > n, rollback tok tokens isFinish rounds k = some (prefixText tok tokens m) := by
  induction n, hle using Nat.le_induction generalizing k with
  | base =>
      refine ⟨least, le_rfl, le_rfl, by omega, .inr rfl, fun rounds hr => ?_⟩
      obtain ⟨rounds, rfl⟩ := Nat.exists_eq_succ_of_ne_zero (Nat.ne_of_gt (Nat.zero_lt_of_lt hr))
      subst hl
      cases isFinish with
      | false =>
          have h0 : max (0 : Int) (tokenCount tokens - k) = 0 := hk
          simp only [rollback, Bool.false_eq_true, if_false, h0]
          rfl
      | true =>
          have h1 : max (1 : Int) (tokenCount tokens - k) = 1 := hk
          simp [rollback, h1]
  | succ n hn ih =>
      have hlast : max (if isFinish then 1 else 0) (tokenCount tokens - k) =
          ((n + 1 : Nat) : Int) := by
        rw [← hk, hl]
        cases isFinish <;> rfl
      by_cases hsafe : Safe tok tokens (n + 1)
      · refine ⟨n + 1, by omega, le_rfl, by omega, .inl hsafe, fun rounds hr => ?_⟩
        obtain ⟨rounds, rfl⟩ :=
          Nat.exists_eq_succ_of_ne_zero (Nat.ne_of_gt (Nat.zero_lt_of_lt hr))
        rw [Safe] at hsafe
        simp only [rollback, hlast, Int.toNat_natCast, hsafe, Bool.not_false, if_true]
      · obtain ⟨m, hlow, hhigh, hlong, hm, hroll⟩ := ih (k := k + 1) (by omega)
        refine ⟨m, hlow, by omega, fun l hml hln => ?_, hm, fun rounds hr => ?_⟩
        · rcases hln.eq_or_lt with rfl | hlt
          · exact hsafe
          · exact hlong l hml (by omega)
        · obtain ⟨rounds, rfl⟩ :=
            Nat.exists_eq_succ_of_ne_zero (Nat.ne_of_gt (Nat.zero_lt_of_lt hr))
          rw [Safe, Bool.not_eq_false] at hsafe
          have hzero : ¬ (!isFinish && decide (((n + 1 : Nat) : Int) = 0)) = true := by
            rw [decide_eq_false (by omega), Bool.and_false]
            decide
          have hone : ¬ (isFinish && decide (((n + 1 : Nat) : Int) = 1)) = true := by
            cases isFinish with
            | false => simp
            | true =>
                rw [if_pos rfl] at hl
                rw [decide_eq_false (by omega), Bool.and_false]
                decide
          rw [rollback]
          simp only [hlast, Int.toNat_natCast, hsafe, Bool.not_true, Bool.false_eq_true, if_false]
          rw [if_neg hzero, if_neg hone]
          exact hroll rounds (by omega)

end Search

/-- The prefix of a hop that confirms something: the text of the longest safe length up to the
tokens that may be confirmed. The last hop keeps at least one token, safe or not. -/
def IsConfirmed (tok : Tokenizer) (env : PrefixEnv) (st : SessionState) (isFinish : Bool)
    (text : String) : Prop :=
  let tokens := tok.encode st.rawDecoded
  let least : Nat := if isFinish then 1 else 0
  let most := max (least : Int) (confirmable tok env st)
  ∃ n, text = prefixText tok tokens n ∧
    (IsGreatest {l | least ≤ l ∧ (l : Int) ≤ most ∧ Safe tok tokens l} n ∨
      isFinish = true ∧ n = 1 ∧ ∀ l : Nat, 1 ≤ l → (l : Int) ≤ most → ¬ Safe tok tokens l)

section Prefix
variable {tok : Tokenizer} {env : PrefixEnv} {st : SessionState} {isFinish : Bool}

theorem computePrefix_of_confirms (h : Confirms tok env st) (rounds : Nat) :
    computePrefix (some tok) env rounds st isFinish =
      rollback tok (tok.encode st.rawDecoded) isFinish rounds (unfixedTokenNum env) := by
  simp only [computePrefix]
  rw [if_neg h.1, if_neg (not_lt.mpr h.2.1), if_neg h.2.2]

theorem computePrefix_of_not_confirms (h : ¬ Confirms tok env st) (rounds : Nat) :
    computePrefix (some tok) env rounds st isFinish = some "" := by
  simp only [computePrefix]
  split
  · rfl
  · rename_i hraw
    split
    · rfl
    · rename_i hchunk
      split
      · rfl
      · rename_i htokens
        exact absurd ⟨hraw, not_lt.mp hchunk, htokens⟩ h

/-- Where something is confirmed the search finds it in as many rounds as there are lengths. -/
theorem computePrefix_confirmed (isFinish : Bool) (h : Confirms tok env st) :
    ∃ text, (∃ enough, ∀ rounds ≥ enough,
        computePrefix (some tok) env rounds st isFinish = some text) ∧
      (isFinish = false → holdsReplacement text = false) ∧
      IsConfirmed tok env st isFinish text := by
  obtain ⟨least, hleast⟩ : ∃ least, least = if isFinish then 1 else 0 := ⟨_, rfl⟩
  obtain ⟨n, hn⟩ : ∃ n : Nat, max (least : Int) (confirmable tok env st) = n :=
    ⟨_, (Int.toNat_of_nonneg (by omega)).symm⟩
  have hle : least ≤ n := by omega
  obtain ⟨m, hlow, hhigh, hlong, hm, hroll⟩ :=
    rollback_spec tok (tok.encode st.rawDecoded) hleast hle hn
  refine ⟨prefixText tok (tok.encode st.rawDecoded) m, ⟨n + 1, fun rounds hr => ?_⟩, ?_, m, rfl,
    ?_⟩
  · rw [computePrefix_of_confirms h]
    exact hroll rounds hr
  · rintro rfl
    rcases hm with hm | rfl
    · exact hm
    · rw [hleast]
      exact safe_zero tok _
  · rw [← hleast, hn]
    by_cases hsafe : Safe tok (tok.encode st.rawDecoded) m
    · refine .inl ⟨⟨hlow, Int.ofNat_le.mpr hhigh, hsafe⟩, fun l ⟨_, hl, hs⟩ => ?_⟩
      by_contra hlt
      exact hlong l (not_le.mp hlt) (Int.ofNat_le.mp hl) hs
    · have heq := hm.resolve_left hsafe
      cases isFinish with
      | false => exact absurd (heq ▸ hleast ▸ safe_zero tok _) hsafe
      | true =>
          have hone : m = 1 := heq.trans hleast
          refine .inr ⟨rfl, hone, fun l hl hle => ?_⟩
          rcases (hone ▸ hl : m ≤ l).eq_or_lt with rfl | hlt
          · exact hsafe
          · exact hlong l hlt (Int.ofNat_le.mp hle)

end Prefix

/-- The roll-back ends for every tokenizer and every transcript, with the confirmed prefix, or
with no text where nothing is confirmed; before the last hop no text of it has half a
character. -/
theorem computePrefix_longest (tok : Option Tokenizer) (env : PrefixEnv) (st : SessionState)
    (isFinish : Bool) :
    ∃ text, (∃ enough, ∀ rounds ≥ enough, computePrefix tok env rounds st isFinish = some text) ∧
      (isFinish = false → holdsReplacement text = false) ∧
      (tok = none → text = "") ∧
      ∀ t, tok = some t → (¬ Confirms t env st → text = "") ∧
        (Confirms t env st → IsConfirmed t env st isFinish text) := by
  cases tok with
  | none => exact ⟨"", ⟨0, fun _ _ => rfl⟩, fun _ => by decide, by simp, by simp⟩
  | some tok =>
      by_cases h : Confirms tok env st
      · obtain ⟨text, hends, hwhole, hconfirmed⟩ := computePrefix_confirmed isFinish h
        refine ⟨text, hends, hwhole, by simp, ?_⟩
        rintro t ht
        cases ht
        exact ⟨fun hnot => absurd h hnot, fun _ => hconfirmed⟩
      · refine ⟨"", ⟨0, fun rounds _ => computePrefix_of_not_confirms h rounds⟩,
          fun _ => by decide, by simp, ?_⟩
        rintro t ht
        cases ht
        exact ⟨fun _ => rfl, fun hconfirms => absurd hconfirms h⟩

/-- One token for each character. -/
def perCharacter : Tokenizer where
  encode text := text.toList.map Char.toNat
  decode tokens := String.ofList (tokens.map Char.ofNat)

/-- The last hop returns its one token though the text is half a character, and a hop of the
warm-up returns nothing where two tokens are safe to keep. -/
theorem last_hop_keeps_half_character :
    computePrefix (some perCharacter) {} 9 { rawDecoded := "\uFFFD", chunkId := 2 } true =
        some "\uFFFD" ∧
      holdsReplacement "\uFFFD" = true ∧
      computePrefix (some perCharacter) {} 9 { rawDecoded := "tokens!" } false = some "" ∧
      confirmable perCharacter {} { rawDecoded := "tokens!" } = 2 ∧
      Safe perCharacter (perCharacter.encode "tokens!") 2 ∧
      prefixText perCharacter (perCharacter.encode "tokens!") 2 = "to" := by
  decide

/-- The request of a prefix hop: the audio so far, and the confirmed prefix as the assistant's
open turn. -/
def buildPrefixRequest (sid : String) (st : SessionState) (pre : String) (capOverride : Int) :
    Json :=
  let req := if st.beginMeta.isObject then st.beginMeta else .obj []
  let req := withDefault req "batch_size" (.int 1)
  let req := withDefault req "temperature" (.decimal 10 1)
  let req := withDefault req "top_p" (.decimal 10 1)
  let req := withDefault req "top_k" (.int 1)
  let req := withDefault req "max_generate_length" (.int 256)
  let req := req.setField "id" (.str sid)
  let req := req.setField "apply_chat_template" (.bool true)
  let req := req.setField "max_generate_length_override" (.int capOverride)
  let userContent : List Json :=
    if st.melPath = "" then []
    else [.obj [("type", .str "audio"), ("audio", .str st.melPath)]]
  let user := Json.obj [("role", .str "user"), ("content", .arr userContent)]
  let req := req.setField "add_generation_prompt" (.bool (pre = ""))
  let messages :=
    if pre = "" then [user] else [user, .obj [("role", .str "assistant"), ("content", .str pre)]]
  req.setField "requests" (.arr [.obj [("messages", .arr messages), ("reference", .str "ref")]])

/-- A turn is left open for the model in every request: its own where there is no prefix, and
otherwise that of the prefix. -/
theorem buildPrefixRequest_open (sid : String) (st : SessionState) (pre : String)
    (capOverride : Int) :
    ∃ user, (buildPrefixRequest sid st pre capOverride).field? "requests" =
        some (.arr [.obj [("messages", .arr (if pre = "" then [user] else
          [user, .obj [("role", .str "assistant"), ("content", .str pre)]])),
            ("reference", .str "ref")]]) ∧
      (buildPrefixRequest sid st pre capOverride).field? "add_generation_prompt" =
        some (.bool (pre = "")) := by
  refine ⟨_, Json.field?_setField_self _ _ _, ?_⟩
  rw [buildPrefixRequest, Json.field?_setField_ne _ (by decide), Json.field?_setField_self]

end JetsonVoice.Asr
