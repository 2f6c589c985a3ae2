import JetsonVoice.Server.PythonJson
import JetsonVoice.Server.ToolCallStream

/-!
# The buffer of a tool-call parser

Whatever the parser is fed, the loop of `feed` comes to its end, and it keeps no
more than the few characters in which the next tag or name key may have begun.
-/

namespace JetsonVoice.Server

open Foundation Scanner

namespace ToolCallStreamParser

/-- The states of a parser that is fed one text after another. -/
inductive Reachable (py : Python) : ToolCallStreamParser → Prop
  | new : Reachable py {}
  | fed {p : ToolCallStreamParser} (h : Reachable py p) (text : List Char) :
      Reachable py (p.feed py text).2

/-- The characters a parser may keep: those of a name key with white space in it. -/
def bufferBound : Nat := 16

variable {py : Python} {p : ToolCallStreamParser}

theorem length_keepLast (n : Nat) (buf : List Char) : (keepLast n buf).length ≤ n := by
  rw [keepLast, List.length_drop]
  omega

/-- Each of the breaks leaves a short buffer. -/
theorem length_settle (p : ToolCallStreamParser) : p.settle.buf.length ≤ bufferBound := by
  unfold settle
  cases p.state with
  | text => exact (length_keepLast _ _).trans (by decide)
  | inToolBody => exact length_keepLast _ _
  | inNameString => exact Nat.zero_le _
  | nameEmitted => exact (length_keepLast _ _).trans (by decide)

/-- What a call of `feed` leaves is short if what it found was. -/
theorem length_feed (hp : p.buf.length ≤ bufferBound) (text : List Char) :
    (p.feed py text).2.buf.length ≤ bufferBound := by
  rw [feed]
  split
  · exact hp
  · exact length_settle _

theorem Reachable.length_le (h : p.Reachable py) : p.buf.length ≤ bufferBound := by
  induction h with
  | new => exact Nat.zero_le _
  | fed _ text ih => exact length_feed ih text

/-- The rounds of the loop come to a break, `feed` returns what it leaves, and that has
a short buffer. -/
theorem feed_halts_bounded (h : p.Reachable py) (text : List Char) :
    (∃ os q, (scanner py).Scans (p.push text) os q ∧
      (text ≠ [] → p.feed py text = (os, q.settle))) ∧
    (p.feed py text).2.buf.length ≤ 16 := by
  obtain ⟨os, q, hscan⟩ := exists_scans py (p.push text)
  exact ⟨⟨os, q, hscan, fun htext => feed_eq_of_scans htext hscan⟩,
    length_feed h.length_le text⟩

/-- A parser that waits for the name of a call. -/
def opened : ToolCallStreamParser :=
  (({} : ToolCallStreamParser).feed samplePython "Sure. <tool_call>".toList).2

theorem feed_halts_bounded_opened :
    (∃ os q, (scanner samplePython).Scans (opened.push "and then twenty more".toList) os q ∧
      ("and then twenty more".toList ≠ [] →
        opened.feed samplePython "and then twenty more".toList = (os, q.settle))) ∧
    (opened.feed samplePython "and then twenty more".toList).2.buf.length ≤ 16 :=
  feed_halts_bounded (.fed .new _) _

end ToolCallStreamParser

end JetsonVoice.Server
