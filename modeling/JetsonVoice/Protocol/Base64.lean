import Mathlib.Data.List.Basic
import JetsonVoice.Foundation.BitAccumulator

/-!
# Base64 between the workers

Three workers encode audio and three functions decode it, each with its own
loop. The decoders collect the bits of the characters in an `int` that is never
masked, and skip what is not in the alphabet.

## Implementation notes

A `std::string` is the list of its bytes, written as characters; an `int` is a
32-bit word, and `>>` on it is the arithmetic shift.
-/

namespace JetsonVoice.Protocol

open Foundation BitAccumulator

/-- The alphabet, in the order of the values. -/
def kTable : List Char :=
  "ABCDEFGHIJKLMNOPQRSTUVWXYZabcdefghijklmnopqrstuvwxyz0123456789+/".toList

section Encode

/-- The character of the six bits of `triple` above the lowest `s`. -/
def tableAt (triple s : UInt32) : Char := kTable.getD ((triple >>> s) &&& 0x3F).toNat '='

/-- The four characters of a group of one to three bytes. -/
def encodeGroup (d0 : UInt8) (d1 d2 : Option UInt8) : List Char :=
  let b0 := d0.toUInt32
  let b1 := (d1.map UInt8.toUInt32).getD 0
  let b2 := (d2.map UInt8.toUInt32).getD 0
  let triple := b0 <<< 16 ||| b1 <<< 8 ||| b2
  [tableAt triple 18, tableAt triple 12, if d1.isSome then tableAt triple 6 else '=',
    if d2.isSome then tableAt triple 0 else '=']

/-- The loop over the groups of three bytes. -/
def encodeLoop : List UInt8 → List Char
  | [] => []
  | [d0] => encodeGroup d0 none none
  | [d0, d1] => encodeGroup d0 (some d1) none
  | d0 :: d1 :: d2 :: rest => encodeGroup d0 (some d1) (some d2) ++ encodeLoop rest

/-- The encoder of the Qwen3-TTS worker. -/
def Qwen3.base64Encode (data : List UInt8) : List Char := encodeLoop data

/-- The encoder of the Spark worker. -/
def Spark.base64 (d : List UInt8) : List Char := encodeLoop d

/-- The encoder of the MOSS worker. -/
def Moss.base64Encode (data : List UInt8) : List Char := encodeLoop data

end Encode

section Decode

/-- The bits collected, how many of them are left, and the bytes written. -/
structure Decoder where
  v : BitVec 32 := 0
  bits : Nat := 0
  out : List UInt8 := []

/-- A decoder that has read the six bits `x`. -/
def Decoder.read (s : Decoder) (x : Nat) : Decoder :=
  let v := push 6 s.v x
  let bits := s.bits + 6
  if 8 ≤ bits then ⟨v, bits - 8, s.out ++ [byteAbove v (bits - 8)]⟩
  else ⟨v, bits, s.out⟩

/-- The loop that skips the characters without a value. -/
def decodeLoop (value : Char → Option Nat) (input : List Char) : List UInt8 :=
  (input.foldl (fun (s : Decoder) c => (value c).elim s s.read) {}).out

/-- The value of a character in ASCII order. -/
def asciiValue (c : Char) : Option Nat :=
  if 'A' ≤ c ∧ c ≤ 'Z' then some (c.toNat - 'A'.toNat)
  else if 'a' ≤ c ∧ c ≤ 'z' then some (c.toNat - 'a'.toNat + 26)
  else if '0' ≤ c ∧ c ≤ '9' then some (c.toNat - '0'.toNat + 52)
  else if c = '+' then some 62
  else if c = '/' then some 63
  else none

/-- The decoder of the ASR worker, with its table of the alphabet. -/
def Asr.base64Decode (input : List Char) : List UInt8 :=
  decodeLoop (fun c => if c = '=' ∨ c = '\n' ∨ c = '\r' ∨ c = ' ' then none
    else kTable.idxOf? c) input

/-- The decoder of the speaker embedding in the TTS runtime. -/
def Qwen3.base64Decode (input : List Char) : List UInt8 := decodeLoop asciiValue input

/-- The bits collected by the decoder of the MOSS worker. Its count of bits is
eight below the bits that are left. -/
structure Moss.Decoder where
  val : BitVec 32 := 0
  bits : Int := -8
  out : List UInt8 := []

def Moss.Decoder.read (s : Moss.Decoder) (d : Nat) : Moss.Decoder :=
  let val := s.val <<< 6 + BitVec.ofNat 32 d
  let bits := s.bits + 6
  if 0 ≤ bits then ⟨val, bits - 8, s.out ++ [byteAbove val bits.toNat]⟩ else ⟨val, bits, s.out⟩

/-- The loop of the MOSS worker, which ends at the first `=`. -/
def Moss.decodeFrom (s : Moss.Decoder) : List Char → List UInt8
  | [] => s.out
  | c :: input =>
      if c = '=' then s.out
      else decodeFrom ((asciiValue c).elim s s.read) input

def Moss.base64Decode (input : List Char) : List UInt8 := Moss.decodeFrom {} input

end Decode

/-- The encoders of the workers. -/
inductive Encoder where
  | qwen3 | spark | moss

def Encoder.encode : Encoder → List UInt8 → List Char
  | .qwen3 => Qwen3.base64Encode
  | .spark => Spark.base64
  | .moss => Moss.base64Encode

/-- The decoders of the workers. -/
inductive DecoderOf where
  | asr | moss | speakerEmbedding

def DecoderOf.decode : DecoderOf → List Char → List UInt8
  | .asr => Asr.base64Decode
  | .moss => Moss.base64Decode
  | .speakerEmbedding => Qwen3.base64Decode

/-- The white space of C. -/
def isSpace (c : Char) : Bool :=
  c == ' ' || c == '\t' || c == '\n' || c == '\r' || c == '\x0b' || c == '\x0c'

/-- A text with white space anywhere between the characters of another. -/
def Interspersed (text encoded : List Char) : Prop := text.filter (! isSpace ·) = encoded

section Groups

/-- The value of the six bits of a triple above the lowest `s`. -/
def sextet (triple s : Nat) : Nat := triple / 2 ^ s % 64

theorem sextet_lt (triple s : Nat) : sextet triple s < 2 ^ 6 := Nat.mod_lt _ (by decide)

/-- The values of the characters of an encoded text. -/
def values : List UInt8 → List Nat
  | [] => []
  | [d0] => [18, 12].map (sextet (d0.toNat * 65536))
  | [d0, d1] => [18, 12, 6].map (sextet (d0.toNat * 65536 + d1.toNat * 256))
  | d0 :: d1 :: d2 :: rest =>
      [18, 12, 6, 0].map (sextet (d0.toNat * 65536 + d1.toNat * 256 + d2.toNat)) ++ values rest

theorem mem_values_lt {data : List UInt8} {x : Nat} (h : x ∈ values data) : x < 64 := by
  induction data using values.induct with
  | case1 => cases h
  | case2 d0 =>
      obtain ⟨s, -, rfl⟩ := List.mem_map.mp h
      exact sextet_lt _ s
  | case3 d0 d1 =>
      obtain ⟨s, -, rfl⟩ := List.mem_map.mp h
      exact sextet_lt _ s
  | case4 d0 d1 d2 rest ih =>
      rcases List.mem_append.mp h with h | h
      · obtain ⟨s, -, rfl⟩ := List.mem_map.mp h
        exact sextet_lt _ s
      · exact ih h

/-- The character of a value. -/
def charOf (x : Nat) : Char := kTable.getD x '='

theorem toNat_triple (b0 b1 b2 : UInt32) (h0 : b0.toNat < 256) (h1 : b1.toNat < 256)
    (h2 : b2.toNat < 256) :
    (b0 <<< 16 ||| b1 <<< 8 ||| b2).toNat = b0.toNat * 65536 + b1.toNat * 256 + b2.toNat := by
  have hlow : b1.toNat <<< 8 ||| b2.toNat = b1.toNat * 256 + b2.toNat := by
    rw [← Nat.shiftLeft_add_eq_or_of_lt (i := 8) h2, Nat.shiftLeft_eq]
  have hhigh : b0.toNat <<< 16 ||| (b1.toNat * 256 + b2.toNat) =
      b0.toNat * 65536 + (b1.toNat * 256 + b2.toNat) := by
    rw [← Nat.shiftLeft_add_eq_or_of_lt (i := 16) (by omega), Nat.shiftLeft_eq]
  have hs0 : (b0 <<< 16).toNat = b0.toNat <<< 16 := by
    have hlt : b0.toNat <<< 16 < 2 ^ 32 := by
      rw [Nat.shiftLeft_eq]
      omega
    exact (UInt32.toNat_shiftLeft b0 16).trans (Nat.mod_eq_of_lt hlt)
  have hs1 : (b1 <<< 8).toNat = b1.toNat <<< 8 := by
    have hlt : b1.toNat <<< 8 < 2 ^ 32 := by
      rw [Nat.shiftLeft_eq]
      omega
    exact (UInt32.toNat_shiftLeft b1 8).trans (Nat.mod_eq_of_lt hlt)
  rw [UInt32.toNat_or, UInt32.toNat_or, hs0, hs1, Nat.or_assoc, hlow, hhigh, Nat.add_assoc]

theorem tableAt_eq (triple s : UInt32) (hs : s.toNat < 32) :
    tableAt triple s = charOf (sextet triple.toNat s.toNat) := by
  rw [tableAt, charOf, sextet, UInt32.toNat_and, UInt32.toNat_shiftRight, Nat.mod_eq_of_lt hs,
    Nat.shiftRight_eq_div_pow]
  exact congrArg (kTable.getD · '=') (Nat.and_two_pow_sub_one_eq_mod _ 6)

/-- A group is the characters of its values, and padding. -/
theorem encodeGroup_eq (d0 : UInt8) (d1 d2 : Option UInt8) :
    encodeGroup d0 d1 d2 =
      let triple := d0.toNat * 65536 + (d1.elim 0 UInt8.toNat) * 256 + d2.elim 0 UInt8.toNat
      [charOf (sextet triple 18), charOf (sextet triple 12),
        if d1.isSome then charOf (sextet triple 6) else '=',
        if d2.isSome then charOf (sextet triple 0) else '='] := by
  have hbyte (d : Option UInt8) :
      ((d.map UInt8.toUInt32).getD 0).toNat = d.elim 0 UInt8.toNat := by
    cases d with
    | none => rfl
    | some d => exact UInt8.toNat_toUInt32 d
  have hlt (d : Option UInt8) : ((d.map UInt8.toUInt32).getD 0).toNat < 256 := by
    rw [hbyte]
    cases d with
    | none => decide
    | some d => exact d.toNat_lt
  have htriple := toNat_triple d0.toUInt32 _ _ (by simpa using d0.toNat_lt) (hlt d1) (hlt d2)
  rw [hbyte, hbyte, UInt8.toNat_toUInt32] at htriple
  simp only [encodeGroup]
  rw [tableAt_eq _ 18 (by decide), tableAt_eq _ 12 (by decide), tableAt_eq _ 6 (by decide),
    tableAt_eq _ 0 (by decide), htriple]
  rfl

/-- An encoded text is the characters of its values, and padding at its end. -/
theorem encodeLoop_eq (data : List UInt8) :
    ∃ n, encodeLoop data = (values data).map charOf ++ List.replicate n '=' := by
  induction data using values.induct with
  | case1 => exact ⟨0, rfl⟩
  | case2 d0 =>
      refine ⟨2, ?_⟩
      simp [encodeLoop, encodeGroup_eq, values, List.replicate]
  | case3 d0 d1 =>
      refine ⟨1, ?_⟩
      simp [encodeLoop, encodeGroup_eq, values]
  | case4 d0 d1 d2 rest ih =>
      obtain ⟨n, ih⟩ := ih
      refine ⟨n, ?_⟩
      simp [encodeLoop, encodeGroup_eq, values, ih]

end Groups

section Read
variable {s : Decoder} {x x0 x1 x2 x3 : Nat}

/-- The first six bits of a group give no byte. -/
theorem read_first (h0 : x0 < 64) (v : BitVec 32) (out : List UInt8) :
    ∃ v', Decoder.read ⟨v, 0, out⟩ x0 = ⟨v', 6, out⟩ ∧ low v' 6 = x0 := by
  have hlow : low (push 6 v x0) (0 + 6) = low v 0 * 2 ^ 6 + x0 := low_push h0 (by decide)
  exact ⟨push 6 v x0, rfl, by simpa using hlow⟩

/-- Six bits more give the byte above those that are left. -/
theorem read_next (v : BitVec 32) (out : List UInt8) (n : Nat) (hx : x < 64) (hn : n ≤ 4) :
    ∃ v', Decoder.read ⟨v, n + 2, out⟩ x =
        ⟨v', n, out ++ [UInt8.ofNat ((low v (n + 2) * 64 + x) / 2 ^ n)]⟩ ∧
      low v' n = (low v (n + 2) * 64 + x) % 2 ^ n := by
  have hlow : low (push 6 v x) (n + 8) = low v (n + 2) * 64 + x := low_push hx (by omega)
  refine ⟨push 6 v x, ?_, ?_⟩
  · have hbyte : byteAbove (push 6 v x) n = UInt8.ofNat ((low v (n + 2) * 64 + x) / 2 ^ n) := by
      rw [← UInt8.ofNat_toNat (x := byteAbove _ n), toNat_byteAbove (by omega), hlow]
    have hbits : n + 2 + 6 - 8 = n := by omega
    simp only [Decoder.read, if_pos (show 8 ≤ n + 2 + 6 by omega), hbits, hbyte]
  · rw [← low_mod (s := n + 8) (by omega), hlow]

variable {triple : Nat} (ht : triple < 2 ^ 24) (v : BitVec 32) (out : List UInt8)
include ht

theorem foldl_read_two : ∃ v', [18, 12].foldl (fun s k => s.read (sextet triple k)) ⟨v, 0, out⟩ =
    Decoder.mk v' 4 (out ++ [UInt8.ofNat (triple / 65536)]) ∧ low v' 4 = triple / 4096 % 16 := by
  obtain ⟨v1, hr1, hl1⟩ := read_first (sextet_lt triple 18) v out
  obtain ⟨v2, hr2, hl2⟩ := read_next v1 out 4 (sextet_lt triple 12) le_rfl
  rw [hl1] at hr2 hl2
  refine ⟨v2, ?_, ?_⟩
  · have hbyte : (sextet triple 18 * 64 + sextet triple 12) / 2 ^ 4 = triple / 65536 := by
      simp only [sextet]
      omega
    rw [hbyte] at hr2
    simp only [List.foldl_cons, List.foldl_nil, hr1]
    exact hr2
  · rw [hl2]
    simp only [sextet]
    omega

theorem foldl_read_three :
    ∃ v', [18, 12, 6].foldl (fun s k => s.read (sextet triple k)) ⟨v, 0, out⟩ =
      Decoder.mk v' 2 (out ++ [UInt8.ofNat (triple / 65536), UInt8.ofNat (triple / 256 % 256)]) ∧
      low v' 2 = triple / 64 % 4 := by
  obtain ⟨v2, hr2, hl2⟩ := foldl_read_two ht v out
  obtain ⟨v3, hr3, hl3⟩ := read_next v2 (out ++ [UInt8.ofNat (triple / 65536)]) 2
    (sextet_lt triple 6) (by decide)
  rw [hl2] at hr3 hl3
  refine ⟨v3, ?_, ?_⟩
  · have hbyte : (triple / 4096 % 16 * 64 + sextet triple 6) / 2 ^ 2 = triple / 256 % 256 := by
      simp only [sextet]
      omega
    rw [hbyte, List.append_assoc] at hr3
    exact (congrArg (Decoder.read · _) hr2).trans hr3
  · rw [hl3]
    simp only [sextet]
    omega

theorem foldl_read_four :
    ∃ v', [18, 12, 6, 0].foldl (fun s k => s.read (sextet triple k)) ⟨v, 0, out⟩ =
      Decoder.mk v' 0 (out ++ [UInt8.ofNat (triple / 65536), UInt8.ofNat (triple / 256 % 256),
        UInt8.ofNat (triple % 256)]) := by
  obtain ⟨v3, hr3, hl3⟩ := foldl_read_three ht v out
  obtain ⟨v4, hr4, -⟩ := read_next v3
    (out ++ [UInt8.ofNat (triple / 65536), UInt8.ofNat (triple / 256 % 256)]) 0
    (sextet_lt triple 0) (by decide)
  rw [hl3] at hr4
  refine ⟨v4, ?_⟩
  have hbyte : (triple / 64 % 4 * 64 + sextet triple 0) / 2 ^ 0 = triple % 256 := by
    simp only [sextet]
    omega
  rw [hbyte, List.append_assoc] at hr4
  exact (congrArg (Decoder.read · _) hr3).trans hr4

end Read

/-- The values of an encoded text give the bytes back, whatever the word held. The
induction is on the groups of three bytes, after each of which no bits are left. -/
theorem foldl_read_values (data : List UInt8) (v : BitVec 32) (out : List UInt8) :
    ((values data).foldl Decoder.read ⟨v, 0, out⟩).out = out ++ data := by
  induction data using values.induct generalizing v out with
  | case1 => simp [values]
  | case2 d0 =>
      have h0 := d0.toNat_lt
      obtain ⟨v', hr, -⟩ := foldl_read_two (show d0.toNat * 65536 < 2 ^ 24 by omega) v out
      rw [values, List.foldl_map, hr]
      simp
  | case3 d0 d1 =>
      have h0 := d0.toNat_lt
      have h1 := d1.toNat_lt
      obtain ⟨v', hr, -⟩ := foldl_read_three
        (show d0.toNat * 65536 + d1.toNat * 256 < 2 ^ 24 by omega) v out
      have hd0 : (d0.toNat * 65536 + d1.toNat * 256) / 65536 = d0.toNat := by omega
      have hd1 : (d0.toNat * 65536 + d1.toNat * 256) / 256 % 256 = d1.toNat := by omega
      rw [values, List.foldl_map, hr, hd0, hd1]
      simp
  | case4 d0 d1 d2 rest ih =>
      have h0 := d0.toNat_lt
      have h1 := d1.toNat_lt
      have h2 := d2.toNat_lt
      obtain ⟨v', hr⟩ := foldl_read_four
        (show d0.toNat * 65536 + d1.toNat * 256 + d2.toNat < 2 ^ 24 by omega) v out
      have hd0 : (d0.toNat * 65536 + d1.toNat * 256 + d2.toNat) / 65536 = d0.toNat := by omega
      have hd1 : (d0.toNat * 65536 + d1.toNat * 256 + d2.toNat) / 256 % 256 = d1.toNat := by omega
      have hd2 : (d0.toNat * 65536 + d1.toNat * 256 + d2.toNat) % 256 = d2.toNat := by omega
      rw [values, List.foldl_append, List.foldl_map, hr, hd0, hd1, hd2, ih]
      simp

section Text
variable {value : Char → Option Nat} {text encoded : List Char} {data : List UInt8}

/-- A table that gives every character of the alphabet its place and knows no white
space and no padding. -/
structure IsTable (value : Char → Option Nat) : Prop where
  charOf : ∀ x < 64, value (charOf x) = some x
  space : ∀ c, isSpace c = true → value c = none
  pad : value '=' = none

theorem decodeLoop_eq (value : Char → Option Nat) (text : List Char) :
    decodeLoop value text = ((text.filterMap value).foldl Decoder.read {}).out := by
  rw [decodeLoop, List.foldl_filterMap]
  congr 2
  funext s c
  cases value c <;> rfl

theorem filterMap_values (hv : IsTable value) {xs : List Nat} (h : ∀ x ∈ xs, x < 64) :
    (xs.map charOf).filterMap value = xs := by
  rw [List.filterMap_map, List.filterMap_congr (g := some) ?_, List.filterMap_some]
  intro x hx
  exact hv.charOf x (h x hx)

/-- Characters without a value play no part. -/
theorem filterMap_of_interspersed (hv : IsTable value) (h : Interspersed text encoded) :
    text.filterMap value = encoded.filterMap value := by
  rw [← h, List.filterMap_filter]
  refine List.filterMap_congr fun c _ => ?_
  by_cases hc : isSpace c = true
  · simp [hc, hv.space c hc]
  · simp [hc]

theorem filterMap_encodeLoop (hv : IsTable value) (h : Interspersed text (encodeLoop data)) :
    text.filterMap value = values data := by
  obtain ⟨n, henc⟩ := encodeLoop_eq data
  rw [filterMap_of_interspersed hv h, henc, List.filterMap_append,
    filterMap_values hv fun _ => mem_values_lt]
  simp [List.filterMap_replicate_of_none hv.pad]

theorem decodeLoop_encodeLoop (hv : IsTable value) (h : Interspersed text (encodeLoop data)) :
    decodeLoop value text = data := by
  rw [decodeLoop_eq, filterMap_encodeLoop hv h]
  exact foldl_read_values data 0 []

/-- The alphabet, read by its places and by the ranges of its characters. -/
theorem charOf_values : ∀ x < 64,
    (if charOf x = '=' ∨ charOf x = '\n' ∨ charOf x = '\r' ∨ charOf x = ' ' then none
      else kTable.idxOf? (charOf x)) = some x ∧ asciiValue (charOf x) = some x := by
  decide +kernel

/-- The table of the ASR worker. -/
theorem isTable_asr : IsTable fun c => if c = '=' ∨ c = '\n' ∨ c = '\r' ∨ c = ' ' then none
    else kTable.idxOf? c where
  charOf x hx := (charOf_values x hx).1
  space c hc := by
    simp only [isSpace, Bool.or_eq_true, beq_iff_eq, or_assoc] at hc
    rcases hc with rfl | rfl | rfl | rfl | rfl | rfl <;> decide
  pad := by decide

theorem isTable_ascii : IsTable asciiValue where
  charOf x hx := (charOf_values x hx).2
  space c hc := by
    simp only [isSpace, Bool.or_eq_true, beq_iff_eq, or_assoc] at hc
    rcases hc with rfl | rfl | rfl | rfl | rfl | rfl <;> decide
  pad := by decide

end Text

section Moss
variable {s : Moss.Decoder} {d : Decoder} {text : List Char} {data : List UInt8}

/-- The two decoders have read the same bits. -/
structure Agrees (s : Moss.Decoder) (d : Decoder) : Prop where
  val : s.val = d.v
  bits : s.bits = d.bits - 8
  out : s.out = d.out

theorem Agrees.read (h : Agrees s d) {x : Nat} (hx : x < 64) : Agrees (s.read x) (d.read x) := by
  obtain ⟨hv, hb, ho⟩ := h
  have hpush : s.val <<< 6 + BitVec.ofNat 32 x = push 6 d.v x := by
    rw [hv]
    exact shiftLeft_add hx (by decide)
  by_cases hbits : 8 ≤ d.bits + 6
  · have hpos : 0 ≤ s.bits + 6 := by omega
    have hleft : (s.bits + 6).toNat = d.bits + 6 - 8 := by omega
    simp only [Moss.Decoder.read, Decoder.read, if_pos hpos, if_pos hbits, hpush, hleft, ho]
    exact ⟨rfl, by simp only; omega, rfl⟩
  · have hneg : ¬ 0 ≤ s.bits + 6 := by omega
    simp only [Moss.Decoder.read, Decoder.read, if_neg hneg, if_neg hbits, hpush, ho]
    exact ⟨rfl, by simp only; omega, rfl⟩

theorem Agrees.foldl (h : Agrees s d) {xs : List Nat} (hxs : ∀ x ∈ xs, x < 64) :
    Agrees (xs.foldl Moss.Decoder.read s) (xs.foldl Decoder.read d) := by
  induction xs generalizing s d with
  | nil => exact h
  | cons x xs ih =>
      exact ih (h.read (hxs x List.mem_cons_self)) fun y hy => hxs y (List.mem_cons_of_mem _ hy)

/-- The loop reads the values of the characters before the padding. -/
theorem decodeFrom_eq (s : Moss.Decoder) (text : List Char) : Moss.decodeFrom s text =
    (((text.takeWhile (· ≠ '=')).filterMap asciiValue).foldl Moss.Decoder.read s).out := by
  induction text generalizing s with
  | nil => rfl
  | cons c text ih =>
      by_cases hc : c = '='
      · simp [Moss.decodeFrom, hc]
      · rw [Moss.decodeFrom, if_neg hc, ih, List.takeWhile_cons_of_pos (by simpa using hc)]
        cases hv : asciiValue c <;> simp [hv]

/-- The characters before the padding carry all the values. -/
theorem takeWhile_values (h : Interspersed text (encodeLoop data)) :
    (text.takeWhile (· ≠ '=')).filterMap asciiValue = values data := by
  obtain ⟨n, henc⟩ := encodeLoop_eq data
  have hwhile : Interspersed (text.takeWhile (· ≠ '=')) ((values data).map charOf) := by
    have hcut : (text.filter (! isSpace ·)).takeWhile (· ≠ '=') = (values data).map charOf := by
      rw [h, henc, List.takeWhile_append_of_pos, List.takeWhile_replicate]
      · simp
      · intro c hc
        obtain ⟨x, hx, rfl⟩ := List.mem_map.mp hc
        have hpad (x : Nat) (hx : x < 64) : charOf x ≠ '=' := by
          intro heq
          have := isTable_ascii.charOf x hx
          rw [heq, isTable_ascii.pad] at this
          cases this
        simpa using hpad x (mem_values_lt hx)
    rw [← hcut, Interspersed, List.takeWhile_filter]
    congr 2
    funext c
    by_cases hc : c = '='
    · subst hc
      decide
    · simp [hc]
  rw [filterMap_of_interspersed isTable_ascii hwhile,
    filterMap_values isTable_ascii fun _ => mem_values_lt]

theorem mossDecode_encodeLoop (h : Interspersed text (encodeLoop data)) :
    Moss.base64Decode text = data := by
  have hagree : Agrees {} {} := ⟨rfl, rfl, rfl⟩
  rw [Moss.base64Decode, decodeFrom_eq, takeWhile_values h,
    (hagree.foldl fun _ => mem_values_lt).out]
  exact foldl_read_values data 0 []

end Moss

theorem Encoder.encode_eq (e : Encoder) (data : List UInt8) : e.encode data = encodeLoop data := by
  cases e <;> rfl

/-- There is no white space in an encoded text. -/
theorem Encoder.interspersed (e : Encoder) (data : List UInt8) :
    Interspersed (e.encode data) (e.encode data) := by
  obtain ⟨n, henc⟩ := encodeLoop_eq data
  rw [e.encode_eq, Interspersed, List.filter_eq_self, henc]
  intro c hc
  rcases List.mem_append.mp hc with hc | hc
  · obtain ⟨x, hx, rfl⟩ := List.mem_map.mp hc
    have hspace (x : Nat) (hx : x < 64) : (! isSpace (charOf x)) = true := by
      rw [Bool.not_eq_true', ← Bool.not_eq_true]
      intro heq
      cases (isTable_ascii.space _ heq).symm.trans (isTable_ascii.charOf x hx)
    exact hspace x (mem_values_lt hx)
  · rw [List.eq_of_mem_replicate hc]
    decide

/-- Every decoder gives back what any of the encoders wrote, also with white space
anywhere in the text. -/
theorem base64_lossless (e : Encoder) (d : DecoderOf) (data : List UInt8) :
    d.decode (e.encode data) = data ∧
      ∀ text, Interspersed text (e.encode data) → d.decode text = data := by
  have hdecode (text : List Char) (h : Interspersed text (e.encode data)) :
      d.decode text = data := by
    rw [e.encode_eq] at h
    cases d with
    | asr => exact decodeLoop_encodeLoop isTable_asr h
    | moss => exact mossDecode_encodeLoop h
    | speakerEmbedding => exact decodeLoop_encodeLoop isTable_ascii h
  exact ⟨hdecode _ (e.interspersed data), hdecode⟩

theorem base64_lossless_wrapped :
    Moss.base64Decode "/+\n8 =\r\n".toList = [255, 239] := by
  exact (base64_lossless .spark .moss [255, 239]).2 _ rfl

end JetsonVoice.Protocol
