import JetsonVoice.Composition.StdinLoops
import JetsonVoice.Foundation.LineFraming

/-!
# The lines the ASR worker reads

The ASR worker polls its input, reads what is there into a buffer and dispatches
the lines of the buffer in turn. The bytes behind the last newline wait for more.
-/

namespace JetsonVoice.Composition

open Foundation

def newline : UInt8 := 10

/-- What the outside world answers while a line is handled. -/
structure AsrAnswers where
  host : Asr.Host
  runtime : Asr.Runtime

/-- The line of a range of the buffer. -/
def lineOf (line : List UInt8) : ByteArray := ⟨line.toArray⟩

/-- The stdin loop of the ASR worker. -/
def asrLines (parse : Parse) (w₀ : Asr.Worker) : LineLoop UInt8 Asr.Worker AsrAnswers Int where
  sep := newline
  maxRead := 4096
  start := w₀
  handle w c line := (asrLoop parse w₀).handle w ⟨lineOf line, c.host, c.runtime⟩
  idle := Asr.sweepIdleSessions

/-- A line whose handling throws nothing. -/
def AsrReceives (parse : Parse) (w : Asr.Worker) (_ : AsrAnswers) (line : List UInt8) : Prop :=
  Receivable parse (Asr.Accepts w) (lineOf line)

variable {parse : Parse} {w₀ : Asr.Worker} {s : List UInt8}

theorem asrReceives_iff (w : Asr.Worker) (c : AsrAnswers) (line : List UInt8) :
    ((asrLines parse w₀).handle w c line).isSome = true ↔ AsrReceives parse w c line :=
  asr_handle_isSome_iff

theorem asrReceives_of_isEmpty (w : Asr.Worker) (c : AsrAnswers) (line : List UInt8)
    (h : line.isEmpty = true) : AsrReceives parse w c line := by
  obtain rfl := List.isEmpty_iff.mp h
  exact .inl rfl

/-- The lines of `s` are handed over by steps that each hand over a line whose
handling throws nothing, or behind which no line is left. -/
def AsrKeeps (parse : Parse) (w₀ : Asr.Worker) :
    LineReader UInt8 Asr.Worker → LineLoop.Label AsrAnswers Int → Prop :=
  (asrLines parse w₀).Keeps (AsrReceives parse)

open Classical in
/-- However the stream is cut into reads: at every poll, and when the loop has been
left, the lines handed over are the terminated lines of what was read, in order;
a loop that has not left goes on to its end; and when it is over all lines of the
stream have been handed over if and only if at every line that was followed by
another one nothing was thrown. -/
theorem asr_lines_handed_iff (parse : Parse) (w₀ : Asr.Worker) (s : List UInt8)
    (ls : List (LineLoop.Label AsrAnswers Int)) (r : LineReader UInt8 Asr.Worker)
    (h : ((asrLines parse w₀).system s).run ((asrLines parse w₀).system s).start ls = some r) :
    (r.phase = .polling ∨ r.phase = .left →
      ∃ read, s = read ++ r.input ∧ r.handed = terminatedLines newline read) ∧
    (r.phase ≠ .left → ∃ r', ((asrLines parse w₀).system s).Leads r r' ∧ r'.Over) ∧
    (r.Over → (r.handed = terminatedLines newline s ↔
      (((asrLines parse w₀).system s).guard (AsrKeeps parse w₀)).run
        ((asrLines parse w₀).system s).start ls = some r)) := by
  have hr := LineLoop.framed_of_reachable (TransitionSystem.reachable_of_run ls h)
  have : Inhabited AsrAnswers := ⟨⟨Asr.idleHost, idleRuntime⟩⟩
  refine ⟨hr.handed_eq, LineLoop.leads_over (Nat.zero_lt_succ _), fun hover => ?_⟩
  rw [AsrKeeps, LineLoop.guard_run_iff (fun w c line _ => asrReceives_iff w c line)
    asrReceives_of_isEmpty h]
  exact hr.handed_eq_iff hover

section Samples

def sampleAnswers : AsrAnswers := ⟨Asr.idleHost, idleRuntime⟩

/-- The bytes of a line. -/
def bytesOf (line : ByteArray) : List UInt8 := line.data.toList

/-- A line that throws, and one behind it. -/
def numberedStream : List UInt8 :=
  bytesOf numberedEventLine ++ newline :: (bytesOf arrayLine ++ [newline])

theorem run_numberedStream (w₀ : Asr.Worker) :
    ((asrLines sampleParse w₀).system numberedStream).run
      ((asrLines sampleParse w₀).system numberedStream).start [.read 15, .line sampleAnswers] =
    some ⟨[], bytesOf arrayLine ++ [newline], [bytesOf numberedEventLine], w₀, .thrown⟩ := by
  have hnone : (asrLines sampleParse w₀).handle w₀ sampleAnswers (bytesOf numberedEventLine) =
      none := by
    rw [← Option.not_isSome_iff_eq_none, asrReceives_iff]
    intro hreceives
    obtain ⟨event, hstr, -⟩ := receivable_numberedEventLine_iff.mp hreceives rfl
    cases hstr
  have htake : numberedStream.take 11 = bytesOf numberedEventLine := rfl
  have hhand : (asrLines sampleParse w₀).hand ⟨[], numberedStream, [], w₀, .scanning⟩
      sampleAnswers 11 =
        ⟨[], bytesOf arrayLine ++ [newline], [bytesOf numberedEventLine], w₀, .thrown⟩ := by
    simp only [LineLoop.hand, htake, hnone]
    rfl
  have hrun : ((asrLines sampleParse w₀).system numberedStream).run
      ((asrLines sampleParse w₀).system numberedStream).start [.read 15, .line sampleAnswers] =
        some ((asrLines sampleParse w₀).hand ⟨[], numberedStream, [], w₀, .scanning⟩
          sampleAnswers 11) := rfl
  rw [hrun, hhand]

/-- The line behind the one that throws is never handed over. -/
theorem line_behind_throw_lost : ∃ w₀, Asr.Worker.init 2 2 = .ok w₀ ∧ ¬ ∀ ls r,
    ((asrLines sampleParse w₀).system numberedStream).run
      ((asrLines sampleParse w₀).system numberedStream).start ls = some r →
    r.Over → r.handed = terminatedLines newline numberedStream := by
  obtain ⟨w₀, hinit⟩ : ∃ w₀, Asr.Worker.init 2 2 = .ok w₀ := ⟨_, rfl⟩
  refine ⟨w₀, hinit, fun h => ?_⟩
  have hlost : [bytesOf numberedEventLine] ≠ terminatedLines newline numberedStream := by decide
  exact hlost (h _ _ (run_numberedStream w₀) (.inl rfl))

/-- The stream of one line that throws nothing. -/
def arrayStream : List UInt8 := bytesOf arrayLine ++ [newline]

theorem asr_lines_handed_iff_array : ∃ w₀ r, Asr.Worker.init 2 2 = .ok w₀ ∧
    ((asrLines sampleParse w₀).system arrayStream).run
      ((asrLines sampleParse w₀).system arrayStream).start
        ([.timeout 0, .read 1, .scanned 1, .read 2] ++ [.line sampleAnswers, .scanned 2, .eof]) =
      some r ∧ r.handed = terminatedLines newline arrayStream := by
  obtain ⟨w₀, hinit⟩ : ∃ w₀, Asr.Worker.init 2 2 = .ok w₀ := ⟨_, rfl⟩
  let w := Asr.sweepIdleSessions (Asr.sweepIdleSessions w₀ 0) 1
  obtain ⟨w', hw⟩ : ∃ w',
      (asrLines sampleParse w₀).handle w sampleAnswers (bytesOf arrayLine) = some w' := by
    refine Option.isSome_iff_exists.mp ((asrReceives_iff w _ _).mpr ?_)
    refine receivable_arrayLine_iff.mpr fun hevent => ?_
    cases hevent
  have htake : arrayStream.take 2 = bytesOf arrayLine := rfl
  have hhand : (asrLines sampleParse w₀).hand ⟨[], arrayStream, [], w, .scanning⟩
      sampleAnswers 2 = ⟨[], [], [bytesOf arrayLine], w', .scanning⟩ := by
    simp only [LineLoop.hand, htake, hw]
    rfl
  have hread : ((asrLines sampleParse w₀).system arrayStream).run
      ((asrLines sampleParse w₀).system arrayStream).start
        [.timeout 0, .read 1, .scanned 1, .read 2] =
          some ⟨[], arrayStream, [], w, .scanning⟩ := rfl
  have hline : ((asrLines sampleParse w₀).system arrayStream).step
      ⟨[], arrayStream, [], w, .scanning⟩ (.line sampleAnswers) =
        some ⟨[], [], [bytesOf arrayLine], w', .scanning⟩ := congrArg some hhand
  have hrun : ((asrLines sampleParse w₀).system arrayStream).run
      ((asrLines sampleParse w₀).system arrayStream).start
        ([.timeout 0, .read 1, .scanned 1, .read 2] ++ [.line sampleAnswers, .scanned 2, .eof]) =
      some ⟨[], [], [bytesOf arrayLine], Asr.sweepIdleSessions w' 2, .left⟩ := by
    rw [TransitionSystem.run_append, hread, Option.bind_some, TransitionSystem.run, hline]
    rfl
  obtain ⟨read, hs, hhanded⟩ := (asr_lines_handed_iff _ _ _ _ _ hrun).1 (.inr rfl)
  exact ⟨w₀, _, hinit, hrun, by rw [hhanded, hs, List.append_nil]⟩

end Samples

end JetsonVoice.Composition
