import JetsonVoice.Asr.LaneOwnership
import JetsonVoice.Asr.OneShot
import JetsonVoice.Foundation.ReadLoop
import JetsonVoice.Moss.Worker
import JetsonVoice.Tts.Cancellation
import Mathlib

/-!
# The stdin loops on lines of arbitrary bytes

Each worker reads lines of bytes, parses them and dispatches the values. The
loops differ in which of their steps stand inside a `try` block, so they differ
in the lines that end the process.

## Implementation notes

`Json::parse` is a parameter. A parsed value holds strings of valid UTF-8; the
text of a parse exception may repeat bytes of the line, and the error report
that holds it is written with `dump()`, which throws unless they are valid
UTF-8. The words a loop puts before the text are ASCII.
-/

namespace JetsonVoice.Composition

open Foundation Protocol

/-- `Json::parse`: a value, or the bytes of the exception's text. -/
abbrev Parse := ByteArray → Except ByteArray Json

/-- A parsed line, or the text an error report repeats; `none` when `dump()` of
the report throws. -/
def received (parse : Parse) (line : ByteArray) : Option (Except String Json) :=
  match parse line with
  | .ok item => some (.ok item)
  | .error what => (String.fromUTF8? what).map .error

/-- The body of a loop: empty lines are skipped, the others are read. -/
def handleLine {S : Type} (parse : Parse) (read : S → Except String Json → Option S) (w : S)
    (line : ByteArray) : Option S :=
  if line.isEmpty then some w else (received parse line).bind (read w)

/-- A line that is empty, or parses to a value that is `ok`, or whose parse
error can be reported. -/
def Receivable (parse : Parse) (ok : Json → Prop) (line : ByteArray) : Prop :=
  line.isEmpty = true ∨ (∃ item, parse line = .ok item ∧ ok item) ∨
    ∃ what, parse line = .error what ∧ what.IsValidUTF8

theorem receivable_iff_of_ok {parse : Parse} {ok : Json → Prop} {line : ByteArray} {item : Json}
    (hne : line.isEmpty = false) (hp : parse line = .ok item) :
    Receivable parse ok line ↔ ok item := by
  simp [Receivable, hne, hp]

theorem not_receivable_of_error {parse : Parse} {ok : Json → Prop} {line what : ByteArray}
    (hne : line.isEmpty = false) (hp : parse line = .error what) (hv : ¬ what.IsValidUTF8) :
    ¬ Receivable parse ok line := by
  simp [Receivable, hne, hp, hv]

/-- A line that parses to a value of the form `event`. -/
def WellFormed (parse : Parse) (event : Json → Prop) (line : ByteArray) : Prop :=
  ∃ item, parse line = .ok item ∧ event item

section Lines
variable {S : Type} {parse : Parse} (read : S → Except String Json → Option S) {w w' : S}
  {line : ByteArray}

/-- A loop that reports every parse error handles the lines it can receive. -/
theorem handleLine_isSome_iff {ok : Json → Prop} (hreport : ∀ what, (read w (.error what)).isSome)
    (hok : ∀ item, (read w (.ok item)).isSome = true ↔ ok item) :
    (handleLine parse read w line).isSome = true ↔ Receivable parse ok line := by
  unfold handleLine Receivable received
  by_cases hempty : line.isEmpty = true
  · simp [hempty]
  · cases hp : parse line with
    | ok item => simp [hempty, hok]
    | error what =>
        by_cases hv : what.IsValidUTF8
        · simp [hempty, String.fromUTF8?, hv, hreport]
        · simp [hempty, String.fromUTF8?, hv]

/-- What a handled line did, with the line as it was received. -/
theorem handleLine_cases (h : handleLine parse read w line = some w') :
    w' = w ∨ (∃ item, parse line = .ok item ∧ read w (.ok item) = some w') ∨
      ∃ what, read w (.error what) = some w' := by
  unfold handleLine received at h
  split at h
  · exact .inl (Option.some.inj h).symm
  · obtain ⟨item, hr, hread⟩ := Option.bind_eq_some_iff.mp h
    split at hr
    · rename_i hp
      cases hr
      exact .inr (.inl ⟨_, hp, hread⟩)
    · obtain ⟨what, -, rfl⟩ := Option.map_eq_some_iff.mp hr
      exact .inr (.inr ⟨what, hread⟩)

end Lines

section Asr

/-- A line for the ASR worker, with what the outside world answers meanwhile. -/
structure AsrCall where
  line : ByteArray
  host : Asr.Host
  runtime : Asr.Runtime

/-- The worker's step on a received line. -/
def asrRead (w₀ : Asr.Worker) (call : AsrCall) (w : Asr.Worker) :
    Except String Json → Option Asr.Worker
  | .ok parsed => (Asr.system w₀).step w (.line (call.host.serving call.runtime) parsed)
  | .error what => (Asr.system w₀).step w (.malformed what)

/-- The ASR worker: one thread reads lines and sweeps between them. -/
def asrLoop (parse : Parse) (w₀ : Asr.Worker) : ReadLoop Asr.Worker AsrCall Int where
  start := w₀
  ready _ := true
  handle w call := handleLine parse (asrRead w₀ call) w call.line
  other w now := (Asr.system w₀).step w (.sweep now)

/-- An event of the ASR protocol, with the types its handler reads. -/
def IsAsrEvent (parsed : Json) : Prop :=
  ∃ event, parsed.str? "event" = some event ∧ event ∈ ["begin", "chunk", "end"] ∧
    parsed.OptStr "id" ∧ (event = "chunk" → parsed.OptBool "last")

/-- No exception ends the ASR worker, and lines that are no events leave
everything but its output as it was. -/
def AsrSurvives (parse : Parse) (w₀ : Asr.Worker) (ls : List (ReadLoop.Label AsrCall Int))
    (p : Process Asr.Worker) : Prop :=
  (asrLoop parse w₀).Survives (fun call => ¬ WellFormed parse IsAsrEvent call.line)
    (fun w w' => ∃ out, w' = { w with out := out }) ls p

variable {parse : Parse} {w₀ w w' : Asr.Worker} {call : AsrCall}

theorem asrRead_ok {parsed : Json} : asrRead w₀ call w (.ok parsed) = some w' ↔
    Asr.dispatchLine (call.host.serving call.runtime) w parsed = .ok w' := by
  change Except.toOption _ = some w' ↔ _
  cases Asr.dispatchLine (call.host.serving call.runtime) w parsed with
  | error e => simp [Except.toOption]
  | ok w' => simp [Except.toOption]

theorem asr_handle_isSome_iff : ((asrLoop parse w₀).handle w call).isSome = true ↔
    Receivable parse (Asr.Accepts w) call.line := by
  apply handleLine_isSome_iff (asrRead w₀ call)
  · intro what
    rfl
  · intro parsed
    simp only [Option.isSome_iff_exists, asrRead_ok, Asr.dispatchLine_ok_iff]

/-- A dispatched value that is no event is answered and changes nothing else. -/
theorem dispatchLine_of_not_event {host : Asr.Host} {parsed : Json} (hne : ¬ IsAsrEvent parsed)
    (h : Asr.dispatchLine host w parsed = .ok w') : ∃ out, w' = { w with out := out } := by
  cases hc : parsed.contains "event" with
  | false =>
      simp only [Asr.dispatchLine, hc, Bool.not_false, if_true] at h
      cases h
      exact ⟨_, rfl⟩
  | true =>
      simp only [Asr.dispatchLine, hc, Bool.not_true, Bool.false_eq_true, if_false] at h
      obtain ⟨event, hev, h⟩ := bind_eq_ok.mp h
      have hstr := Json.str?_of_valueStr hev hc
      have hopt {sid : String} (hid : parsed.valueStr "id" "" = .ok sid) : parsed.OptStr "id" :=
        (Json.valueStr_ok_iff.mp ⟨sid, hid⟩).2
      split at h
      · rename_i hbegin
        obtain ⟨sid, hid, -⟩ := bind_eq_ok.mp h
        exact absurd ⟨event, hstr, by simp [hbegin], hopt hid, by simp [hbegin]⟩ hne
      · split at h
        · rename_i hchunk
          obtain ⟨sid, hid, h⟩ := bind_eq_ok.mp h
          split at h
          · cases h
            exact ⟨_, rfl⟩
          · obtain ⟨last, hlast, -⟩ := bind_eq_ok.mp h
            exact absurd ⟨event, hstr, by simp [hchunk], hopt hid,
              fun _ => (Json.valueBool_ok_iff.mp ⟨last, hlast⟩).2⟩ hne
        · split at h
          · rename_i hchunk hend
            obtain ⟨sid, hid, -⟩ := bind_eq_ok.mp h
            exact absurd ⟨event, hstr, by simp [hend], hopt hid, fun he => absurd he hchunk⟩ hne
          · obtain ⟨sid, -, h⟩ := bind_eq_ok.mp h
            cases h
            exact ⟨_, rfl⟩

theorem asr_handle_kept (hbad : ¬ WellFormed parse IsAsrEvent call.line)
    (h : (asrLoop parse w₀).handle w call = some w') : ∃ out, w' = { w with out := out } := by
  rcases handleLine_cases (asrRead w₀ call) h with
    rfl | ⟨parsed, hp, hread⟩ | ⟨what, hread⟩
  · exact ⟨_, rfl⟩
  · exact dispatchLine_of_not_event (fun he => hbad ⟨parsed, hp, he⟩) (asrRead_ok.mp hread)
  · cases hread
    exact ⟨_, rfl⟩

/-- While it is alive the worker is in a state of its transition system. -/
theorem asr_reachable (h : (asrLoop parse w₀).system.Reachable (.alive w)) :
    (Asr.system w₀).Reachable w := by
  apply ReadLoop.reachable_of_alive rfl _ _ h
  · intro w call w' _ hw
    rcases handleLine_cases (asrRead w₀ call) hw with rfl | ⟨parsed, -, hread⟩ | ⟨what, hread⟩
    · exact .refl
    · exact .single hread
    · exact .single hread
  · intro w now w' hw
    exact .single (l := .sweep now) hw

end Asr

section SlotWorkers
open Tts

/-- A worker of one thread for each slot; its other steps are those of its
threads, and the end of stdin. -/
def slotLoop (parse : Parse) (E : Engine) (maxSlots : Nat) :
    ReadLoop (Tts.Worker E) ByteArray (Tts.Label E) where
  start := .init E maxSlots
  ready w := w.main = .reading
  handle := handleLine parse Tts.readLine
  other w
    | .line _ => none
    | l => (slotSystem E maxSlots).step w l

/-- An object whose dispatch fields are strings. -/
def IsRequest (item : Json) : Prop :=
  item.isObject = true ∧ item.OptStr "type" ∧ item.OptStr "id"

def SlotSurvives (parse : Parse) (E : Engine) (maxSlots : Nat)
    (ls : List (ReadLoop.Label ByteArray (Tts.Label E))) (p : Process (Tts.Worker E)) : Prop :=
  (slotLoop parse E maxSlots).Survives (fun line => ¬ WellFormed parse IsRequest line)
    (fun w w' => ∃ out, w' = { w with out := out }) ls p

variable {parse : Parse} {E : Engine} {maxSlots : Nat} {w w' : Tts.Worker E} {line : ByteArray}

/-- The main thread reads the type and the id outside its `try` block. -/
theorem readLine_isSome_iff {item : Json} :
    (Tts.readLine w (.ok item)).isSome = true ↔ IsRequest item := by
  cases hid : item.valueStr "id" "" with
  | error e =>
      have hopt : ¬ ∃ s, item.valueStr "id" "" = .ok s := by simp [hid]
      rw [Json.valueStr_ok_iff] at hopt
      apply iff_of_false
      · cases hc : isCancelLine item with
        | none => simp [Tts.readLine, hc]
        | some isCancel => simp [Tts.readLine, hc, hid, Except.toOption]
      · rintro ⟨hobj, -, hid⟩
        exact hopt ⟨hobj, hid⟩
  | ok id =>
      obtain ⟨hobj, hopt⟩ := Json.valueStr_ok_iff.mp ⟨id, hid⟩
      cases htype : item.valueStr "type" "" with
      | error e =>
          have hopt' : ¬ ∃ s, item.valueStr "type" "" = .ok s := by simp [htype]
          rw [Json.valueStr_ok_iff] at hopt'
          apply iff_of_false
          · simp [Tts.readLine, isCancelLine, hobj, htype, Except.toOption]
          · exact fun h => hopt' ⟨hobj, h.2.1⟩
      | ok type =>
          have hopt' : item.OptStr "type" := (Json.valueStr_ok_iff.mp ⟨type, htype⟩).2
          apply iff_of_true _ ⟨hobj, hopt', hopt⟩
          simp only [Tts.readLine, isCancelLine, hobj, htype, hid, Except.toOption, if_true]
          simp only [Option.map_some, bind, Option.bind_some]
          split
          · rfl
          · split
            · rfl
            · rfl

theorem slot_handle_isSome_iff : ((slotLoop parse E maxSlots).handle w line).isSome = true ↔
    Receivable parse IsRequest line :=
  handleLine_isSome_iff Tts.readLine (fun _ => rfl) fun _ => readLine_isSome_iff

theorem slot_handle_kept (hbad : ¬ WellFormed parse IsRequest line)
    (h : (slotLoop parse E maxSlots).handle w line = some w') :
    ∃ out, w' = { w with out := out } := by
  rcases handleLine_cases Tts.readLine h with rfl | ⟨item, hp, hread⟩ | ⟨what, hread⟩
  · exact ⟨_, rfl⟩
  · exact absurd ⟨item, hp, readLine_isSome_iff.mp (Option.isSome_of_eq_some hread)⟩ hbad
  · cases hread
    exact ⟨_, rfl⟩

theorem slot_reachable (h : (slotLoop parse E maxSlots).system.Reachable (.alive w)) :
    (slotSystem E maxSlots).Reachable w := by
  apply ReadLoop.reachable_of_alive rfl _ _ h
  · intro w line w' hready hw
    have hline {l : Except String Json} (hread : Tts.readLine w l = some w') :
        (slotSystem E maxSlots).Leads w w' := by
      apply TransitionSystem.Leads.single (l := .line l)
      exact (if_pos (of_decide_eq_true hready)).trans hread
    rcases handleLine_cases Tts.readLine hw with rfl | ⟨item, -, hread⟩ | ⟨what, hread⟩
    · exact .refl
    · exact hline hread
    · exact hline hread
  · intro w l w' hw
    have hstep : (slotSystem E maxSlots).step w l = some w' := by
      cases l with
      | line parsed => cases hw
      | _ => exact hw
    exact .single hstep

end SlotWorkers

section Moss

def mossRead (c : Moss.Config) (w : Moss.Worker) (l : Except String Json) : Option Moss.Worker :=
  some (Moss.readLine c w l)

/-- The MOSS worker. -/
def mossLoop (parse : Parse) (c : Moss.Config) : ReadLoop Moss.Worker ByteArray Moss.Label where
  start := .init c
  ready w := w.main = .reading
  handle := handleLine parse (mossRead c)
  other w
    | .line _ => none
    | l => (Moss.system c).step w l

def MossSurvives (parse : Parse) (c : Moss.Config) (ls : List (ReadLoop.Label ByteArray Moss.Label))
    (p : Process Moss.Worker) : Prop :=
  (mossLoop parse c).Survives (fun line => ¬ WellFormed parse IsRequest line)
    (fun w w' => ∃ out, w' = { w with out := out }) ls p

variable {parse : Parse} {c : Moss.Config} {w w' : Moss.Worker} {line : ByteArray}

theorem moss_handle_isSome_iff : ((mossLoop parse c).handle w line).isSome = true ↔
    Receivable parse (fun _ => True) line :=
  handleLine_isSome_iff (mossRead c) (fun _ => rfl) fun _ => iff_of_true rfl trivial

/-- A parsed value that is no request is refused and changes nothing else. -/
theorem mossReadLine_of_not_request {item : Json} (hne : ¬ IsRequest item) :
    ∃ out, Moss.readLine c w (.ok item) = { w with out := out } := by
  simp only [Moss.readLine]
  split
  · exact ⟨_, rfl⟩
  · rename_i id hid
    obtain ⟨hobj, hopt⟩ := Json.valueStr_ok_iff.mp ⟨id, hid⟩
    have htype : ∃ e, Moss.isCancelLine item = .error e := by
      cases hc : item.valueStr "type" "" with
      | error e => exact ⟨e, by simp [Moss.isCancelLine, hobj, hc, Except.map]⟩
      | ok t => exact absurd ⟨hobj, (Json.valueStr_ok_iff.mp ⟨t, hc⟩).2, hopt⟩ hne
    obtain ⟨e, he⟩ := htype
    rw [he]
    exact ⟨_, rfl⟩

theorem moss_handle_kept (hbad : ¬ WellFormed parse IsRequest line)
    (h : (mossLoop parse c).handle w line = some w') : ∃ out, w' = { w with out := out } := by
  rcases handleLine_cases (mossRead c) h with rfl | ⟨item, hp, hread⟩ | ⟨what, hread⟩
  · exact ⟨_, rfl⟩
  · cases hread
    exact mossReadLine_of_not_request fun hr => hbad ⟨item, hp, hr⟩
  · cases hread
    exact ⟨_, rfl⟩

theorem moss_reachable (h : (mossLoop parse c).system.Reachable (.alive w)) :
    (Moss.system c).Reachable w := by
  apply ReadLoop.reachable_of_alive rfl _ _ h
  · intro w line w' hready hw
    have hline {l : Except String Json} (hread : mossRead c w l = some w') :
        (Moss.system c).Leads w w' := by
      apply TransitionSystem.Leads.single (l := .line l)
      exact (if_pos (of_decide_eq_true hready)).trans hread
    rcases handleLine_cases (mossRead c) hw with rfl | ⟨item, -, hread⟩ | ⟨what, hread⟩
    · exact .refl
    · exact hline hread
    · exact hline hread
  · intro w l w' hw
    have hstep : (Moss.system c).step w l = some w' := by
      cases l with
      | line parsed => cases hw
      | _ => exact hw
    exact .single hstep

end Moss

/-- In every run of a worker all lines are consumed, and the ones that are not
well formed leave its sessions and slots as they were, if and only if every line
is empty, or does not parse with an error text that is valid UTF-8, or parses to
a value with the types the worker's dispatch reads outside its `try` blocks. -/
theorem stdinLoops_survive_iff (parse : Parse) :
    (∀ w₀ ls p, (asrLoop parse w₀).system.run (.alive w₀) ls = some p →
      (AsrSurvives parse w₀ ls p ↔ ∀ w call, (asrLoop parse w₀).Reads ls w call →
        Receivable parse (Asr.Accepts w) call.line)) ∧
    (∀ (v : Tts.Synthesizer) maxSlots ls p,
      (slotLoop parse v.engine maxSlots).system.run (.alive (.init v.engine maxSlots)) ls = some p →
      (SlotSurvives parse v.engine maxSlots ls p ↔
        ∀ w line, (slotLoop parse v.engine maxSlots).Reads ls w line →
          Receivable parse IsRequest line)) ∧
    (∀ c ls p, (mossLoop parse c).system.run (.alive (.init c)) ls = some p →
      (MossSurvives parse c ls p ↔ ∀ w line, (mossLoop parse c).Reads ls w line →
        Receivable parse (fun _ => True) line)) := by
  refine ⟨?_, ?_, ?_⟩
  · intro w₀ ls p h
    exact ReadLoop.survives_iff (fun _ _ => asr_handle_isSome_iff) asr_handle_kept h
  · intro v maxSlots ls p h
    exact ReadLoop.survives_iff (fun _ _ => slot_handle_isSome_iff) slot_handle_kept h
  · intro c ls p h
    exact ReadLoop.survives_iff (fun _ _ => moss_handle_isSome_iff) moss_handle_kept h

section Samples

/-- A runtime that handles nothing. -/
def idleRuntime : Asr.Runtime where
  parseRequestFile _ _ _ _ := .ok []
  handleRequest _ := .ok (false, [])
  totalMs := .decimal 0 1

def lead : String :=
  "[json.exception.parse_error.101] parse error at line 1, column 1: syntax error while parsing " ++
    "value - invalid literal; last read: '"

/-- The text of the parse exception that repeats the line. -/
def invalidLiteral (line : ByteArray) : ByteArray := lead.toUTF8 ++ (line ++ "'".toUTF8)

/-- What the parser answers on the lines below. -/
def sampleParse : Parse := fun line =>
  if line = "[]".toUTF8 then .ok (.arr [])
  else if line = "\x7b\"event\":5\x7d".toUTF8 then .ok (.obj [("event", .int 5)])
  else if line = "\x7b\"id\":\"a\"\x7d".toUTF8 then .ok (.obj [("id", .str "a")])
  else .error (invalidLiteral line)

/-- What stands before a text does not make it valid. -/
theorem isValidUTF8_append_iff (cs : List Char) (b : ByteArray) :
    (cs.utf8Encode ++ b).IsValidUTF8 ↔ b.IsValidUTF8 := by
  induction cs with
  | nil => simp
  | cons c cs ih =>
      rw [← List.singleton_append, List.utf8Encode_append, ByteArray.append_assoc,
        ByteArray.isValidUTF8_utf8Encode_singleton_append_iff, ih]

variable {ok : Json → Prop}

def arrayLine : ByteArray := "[]".toUTF8
def numberedEventLine : ByteArray := "\x7b\"event\":5\x7d".toUTF8
def requestLine : ByteArray := "\x7b\"id\":\"a\"\x7d".toUTF8
def rawByteLine : ByteArray := ⟨#[0xff]⟩

theorem receivable_arrayLine_iff : Receivable sampleParse ok arrayLine ↔ ok (.arr []) :=
  receivable_iff_of_ok (by decide) (if_pos rfl)

theorem receivable_numberedEventLine_iff : Receivable sampleParse ok numberedEventLine ↔
    ok (.obj [("event", .int 5)]) :=
  receivable_iff_of_ok (by decide) ((if_neg (by decide)).trans (if_pos rfl))

theorem receivable_requestLine_iff : Receivable sampleParse ok requestLine ↔
    ok (.obj [("id", .str "a")]) :=
  receivable_iff_of_ok (by decide)
    ((if_neg (by decide)).trans ((if_neg (by decide)).trans (if_pos rfl)))

theorem not_receivable_rawByteLine : ¬ Receivable sampleParse ok rawByteLine := by
  apply not_receivable_of_error (by decide)
  · exact (if_neg (by decide)).trans ((if_neg (by decide)).trans (if_neg (by decide)))
  · intro h
    have hcut : ¬ (rawByteLine ++ "'".toUTF8).IsValidUTF8 := by decide
    obtain ⟨cs, hcs⟩ := lead.isValidUTF8
    rw [invalidLiteral, String.toUTF8, hcs] at h
    exact hcut ((isValidUTF8_append_iff cs _).mp h)

/-- An event that is a number ends the ASR worker, an array ends the Spark and
the Qwen3-TTS worker, and a byte that is no UTF-8 ends the MOSS worker. -/
theorem bad_lines_end_workers :
    (∀ w₀, ¬ ∀ ls p, (asrLoop sampleParse w₀).system.run (.alive w₀) ls = some p →
      AsrSurvives sampleParse w₀ ls p) ∧
    (∀ (v : Tts.Synthesizer) maxSlots, ¬ ∀ ls p,
      (slotLoop sampleParse v.engine maxSlots).system.run (.alive (.init v.engine maxSlots)) ls =
        some p → SlotSurvives sampleParse v.engine maxSlots ls p) ∧
    (∀ c, ¬ ∀ ls p, (mossLoop sampleParse c).system.run (.alive (.init c)) ls = some p →
      MossSurvives sampleParse c ls p) := by
  refine ⟨?_, ?_, ?_⟩
  · intro w₀ h
    refine (h [.item ⟨numberedEventLine, Asr.idleHost, idleRuntime⟩] .ended ?_).alive rfl
    apply ReadLoop.run_ended rfl
    rw [asr_handle_isSome_iff, receivable_numberedEventLine_iff]
    intro haccepts
    obtain ⟨event, hstr, -⟩ := haccepts rfl
    cases hstr
  · intro v maxSlots h
    refine (h [.item arrayLine] .ended ?_).alive rfl
    apply ReadLoop.run_ended rfl
    rw [slot_handle_isSome_iff, receivable_arrayLine_iff]
    rintro ⟨hobj, -⟩
    cases hobj
  · intro c h
    refine (h [.item rawByteLine] .ended ?_).alive rfl
    apply ReadLoop.run_ended rfl
    rw [moss_handle_isSome_iff]
    exact not_receivable_rawByteLine

/-- A request line is read and the worker survives it. -/
theorem request_line_survived : ∃ w,
    (slotLoop sampleParse (Tts.Qwen3.engine ⟨true, 24000⟩) 1).system.run
      (.alive (.init (Tts.Qwen3.engine ⟨true, 24000⟩) 1)) [.item requestLine] = some (.alive w) ∧
    SlotSurvives sampleParse (Tts.Qwen3.engine ⟨true, 24000⟩) 1 [.item requestLine] (.alive w) := by
  have hok : Receivable sampleParse IsRequest requestLine := by
    rw [receivable_requestLine_iff]
    refine ⟨rfl, ?_, ?_⟩
    · intro v hv
      cases hv
    · intro v hv
      exact ⟨"a", (Option.some.inj hv).symm⟩
  let loop := slotLoop sampleParse (Tts.Qwen3.engine ⟨true, 24000⟩) 1
  obtain ⟨w, hw⟩ : ∃ w, loop.handle loop.start requestLine = some w :=
    Option.isSome_iff_exists.mp (slot_handle_isSome_iff.mpr hok)
  have hrun : loop.system.run loop.system.start [.item requestLine] = some (.alive w) := by
    rw [ReadLoop.run_item rfl, hw, Option.elim_some]
  refine ⟨w, hrun, ((stdinLoops_survive_iff sampleParse).2.1 (.qwen3 ⟨true, 24000⟩) 1 _ _ hrun).mpr ?_⟩
  intro w line hreads
  cases ReadLoop.reads_singleton hreads
  exact hok

end Samples

end JetsonVoice.Composition
