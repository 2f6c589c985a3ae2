import JetsonVoice.Foundation.Json
import Mathlib.Data.List.TakeWhile
import Mathlib.Data.Nat.Digits.Defs

/-!
# JSON texts

Reading and writing JSON as Python's `json` module does: strict strings, numbers
with or without a fraction, the words for numbers that are not finite, the last
of two values under one key, and limits on the nesting and on the digits of an
integer, beyond which reading raises.

## Implementation notes

Reading a text either fails on the text or is given up at a limit. A string is a
list of Unicode scalar values, so the escape of a lone surrogate reads as U+FFFD.
The arithmetic of floating-point numbers is a parameter.
-/

namespace JetsonVoice.Foundation.JsonText

/-- Why a text is not read: it is not JSON, or a limit of the reader was met. -/
inductive Failure where
  | malformed
  | limit
  deriving DecidableEq

/-- A value and the text behind it. -/
abbrev Parse (A : Type) := Except Failure (A × List Char)

/-- The nesting of containers and the digits of an integer that can be read. -/
structure Limits where
  depth : Nat
  digits : Nat
  deriving DecidableEq

def isWs (c : Char) : Bool := c == ' ' || c == '\t' || c == '\n' || c == '\r'

def skipWs (text : List Char) : List Char := text.dropWhile isWs

def isDigit (c : Char) : Bool := '0' ≤ c && c ≤ '9'

section Strings

def hexValue (c : Char) : Option Nat :=
  if '0' ≤ c ∧ c ≤ '9' then some (c.toNat - 48)
  else if 'a' ≤ c ∧ c ≤ 'f' then some (c.toNat - 87)
  else if 'A' ≤ c ∧ c ≤ 'F' then some (c.toNat - 55)
  else none

/-- The code unit behind `\u`. -/
def hexUnit (a b c d : Char) : Option Nat := do
  return (← hexValue a) * 4096 + (← hexValue b) * 256 + (← hexValue c) * 16 + (← hexValue d)

/-- The character an escape of one character stands for. -/
def simpleEscape : Char → Option Nat
  | '"' => some 34
  | '\\' => some 92
  | '/' => some 47
  | 'b' => some 8
  | 'f' => some 12
  | 'n' => some 10
  | 'r' => some 13
  | 't' => some 9
  | _ => none

/-- A string up to its closing quote, as it is written, and the text behind it. -/
def rawString : List Char → Option (List Char × List Char)
  | [] => none
  | '"' :: rest => some ([], rest)
  | '\\' :: c :: rest => (rawString rest).map fun (raw, after) => ('\\' :: c :: raw, after)
  | c :: rest => (rawString rest).map fun (raw, after) => (c :: raw, after)

/-- The code units of a string; control characters must be escaped. -/
def codeUnits : List Char → Option (List Nat)
  | [] => some []
  | '\\' :: 'u' :: a :: b :: c :: d :: rest => do
      return (← hexUnit a b c d) :: (← codeUnits rest)
  | '\\' :: c :: rest => do return (← simpleEscape c) :: (← codeUnits rest)
  | c :: rest => if c.toNat < 32 ∨ c = '\\' then none else (codeUnits rest).map (c.toNat :: ·)

def isHigh (n : Nat) : Bool := 0xD800 ≤ n && n < 0xDC00

def isLow (n : Nat) : Bool := 0xDC00 ≤ n && n < 0xE000

def charOf (n : Nat) : Char := if n.isValidChar then Char.ofNat n else '\uFFFD'

/-- Code units to characters; a high and a low surrogate are one character. -/
def joinUnits : List Nat → List Char
  | [] => []
  | [n] => [charOf n]
  | hi :: lo :: rest =>
      if isHigh hi && isLow lo then
        charOf (0x10000 + (hi - 0xD800) * 1024 + (lo - 0xDC00)) :: joinUnits rest
      else charOf hi :: joinUnits (lo :: rest)

/-- A string behind its opening quote. -/
def scanString (text : List Char) : Option (List Char × List Char) := do
  let (raw, after) ← rawString text
  return (joinUnits (← codeUnits raw), after)

/-- One character of a string as it is written. -/
def escapeChar (c : Char) : List Char :=
  if c = '"' then ['\\', '"']
  else if c = '\\' then ['\\', '\\']
  else if c = '\n' then ['\\', 'n']
  else if c = '\r' then ['\\', 'r']
  else if c = '\t' then ['\\', 't']
  else if c.toNat = 8 then ['\\', 'b']
  else if c.toNat = 12 then ['\\', 'f']
  else if c.toNat < 32 then
    ['\\', 'u', '0', '0', Nat.digitChar (c.toNat / 16), Nat.digitChar (c.toNat % 16)]
  else [c]

def quote (s : String) : List Char := '"' :: s.toList.flatMap escapeChar ++ ['"']

end Strings

section Numbers

/-- The digits of an integer. -/
def natText (n : Nat) : List Char :=
  if n = 0 then ['0'] else (Nat.digits 10 n).reverse.map Nat.digitChar

def intText (n : Int) : List Char :=
  if n < 0 then '-' :: natText n.natAbs else natText n.natAbs

def natOf (digits : List Char) : Nat :=
  Nat.ofDigits 10 (digits.reverse.map fun c => c.toNat - 48)

/-- A number as it is written: sign, integer part, fraction and exponent. -/
structure NumberText where
  negative : Bool
  whole : List Char
  fraction : List Char
  exponent : List Char
  deriving DecidableEq

namespace NumberText

def text (n : NumberText) : List Char :=
  (if n.negative then ['-'] else []) ++ n.whole ++ n.fraction ++ n.exponent

def isFloat (n : NumberText) : Bool := n.fraction ≠ [] || n.exponent ≠ []

/-- The integer, when it has neither fraction nor exponent. -/
def toInt (n : NumberText) : Int := if n.negative then -natOf n.whole else natOf n.whole

end NumberText

/-- `-?`. -/
def scanSign : List Char → Bool × List Char
  | '-' :: rest => (true, rest)
  | text => (false, text)

/-- `\d+`. -/
def scanDigits (text : List Char) : Option (List Char × List Char) :=
  if text.takeWhile isDigit = [] then none
  else some (text.takeWhile isDigit, text.dropWhile isDigit)

/-- `0|[1-9]\d*`. -/
def scanWhole : List Char → Option (List Char × List Char)
  | '0' :: rest => some (['0'], rest)
  | text => scanDigits text

/-- `(\.\d+)?`. -/
def scanFraction : List Char → List Char × List Char
  | '.' :: rest =>
      match scanDigits rest with
      | some (digits, rest) => ('.' :: digits, rest)
      | none => ([], '.' :: rest)
  | text => ([], text)

/-- `[-+]?`. -/
def scanPlusMinus : List Char → List Char × List Char
  | '-' :: rest => (['-'], rest)
  | '+' :: rest => (['+'], rest)
  | text => ([], text)

/-- `([eE][-+]?\d+)?`. -/
def scanExponent : List Char → List Char × List Char
  | e :: rest =>
      if e = 'e' ∨ e = 'E' then
        match scanDigits (scanPlusMinus rest).2 with
        | some (digits, after) => (e :: (scanPlusMinus rest).1 ++ digits, after)
        | none => ([], e :: rest)
      else ([], e :: rest)
  | [] => ([], [])

def scanNumber (text : List Char) : Option (NumberText × List Char) :=
  (scanWhole (scanSign text).2).map fun (whole, rest) =>
    (⟨(scanSign text).1, whole, (scanFraction rest).1, (scanExponent (scanFraction rest).2).1⟩,
      (scanExponent (scanFraction rest).2).2)

end Numbers

/-- What may follow a number so that it ends there. -/
def EndsNumber : List Char → Prop
  | [] => True
  | c :: _ => isDigit c = false ∧ c ≠ '.' ∧ c ≠ 'e' ∧ c ≠ 'E'

instance : (text : List Char) → Decidable (EndsNumber text)
  | [] => isTrue trivial
  | c :: _ => inferInstanceAs (Decidable (isDigit c = false ∧ c ≠ '.' ∧ c ≠ 'e' ∧ c ≠ 'E'))

def nullWord : List Char := ['n', 'u', 'l', 'l']
def trueWord : List Char := ['t', 'r', 'u', 'e']
def falseWord : List Char := ['f', 'a', 'l', 's', 'e']
def nanWord : List Char := ['N', 'a', 'N']
def infinityWord : List Char := ['I', 'n', 'f', 'i', 'n', 'i', 't', 'y']

/-- The numbers that are not integers: the number `(m, e)` a text reads as, and the
text a number is written as. What was read is written as a text that reads as it. -/
structure Floats where
  read : List Char → Int × Nat
  write : Int × Nat → List Char
  write_read : ∀ text, write (read text) ∈ [nanWord, infinityWord, '-' :: infinityWord] ∨
    ∀ rest, EndsNumber rest → ∃ n, scanNumber (write (read text) ++ rest) = some (n, rest) ∧
      n.isFloat = true
  read_write : ∀ text, read (write (read text)) = read text

section Reading
variable (F : Floats) (digits : Nat)

def float (n : Int × Nat) : Json := .decimal n.1 n.2

/-- The words and their values. -/
def words : List (List Char × Json) :=
  [(nullWord, .null), (trueWord, .bool true), (falseWord, .bool false),
    (nanWord, float (F.read nanWord)), (infinityWord, float (F.read infinityWord)),
    ('-' :: infinityWord, float (F.read ('-' :: infinityWord)))]

def parseScalar (text : List Char) : Parse Json :=
  match scanNumber text with
  | some (n, rest) =>
      if n.isFloat then .ok (float (F.read n.text), rest)
      else if digits < n.whole.length then .error .limit
      else .ok (.int n.toInt, rest)
  | none =>
      match (words F).find? fun w => w.1.isPrefixOf text with
      | some (word, v) => .ok (v, text.drop word.length)
      | none => .error .malformed

/-- What stands behind an element: the closing bracket, or a comma and more elements. -/
def separated {A : Type} (more : List Char → Parse (List A)) (close : Char) (text : List Char) :
    Parse (List A) :=
  match skipWs text with
  | [] => .error .malformed
  | c :: rest =>
      if c = close then .ok ([], rest)
      else if c = ',' then more (skipWs rest)
      else .error .malformed

/-- Elements up to a closing bracket, as many as there is fuel for. -/
def series {A : Type} (elem : List Char → Parse A) (close : Char) : Nat → List Char → Parse (List A)
  | 0, _ => .error .malformed
  | n + 1, text =>
      match elem text with
      | .error e => .error e
      | .ok (a, rest) =>
          (separated (series elem close n) close rest).map fun (as, rest) => (a :: as, rest)

/-- What stands behind an opening bracket. -/
def bracketed {A : Type} (elem : List Char → Parse A) (close : Char) (text : List Char) :
    Parse (List A) :=
  match skipWs text with
  | [] => .error .malformed
  | c :: rest => if c = close then .ok ([], rest) else series elem close text.length (c :: rest)

/-- A key and its value. -/
def parseMember (value : List Char → Parse Json) : List Char → Parse (String × Json)
  | '"' :: text =>
      match scanString text with
      | none => .error .malformed
      | some (key, rest) =>
          match skipWs rest with
          | ':' :: rest => (value (skipWs rest)).map fun (v, rest) => ((String.ofList key, v), rest)
          | _ => .error .malformed
  | _ => .error .malformed

/-- `d[key] = value` of a dictionary. -/
def insertField (fields : List (String × Json)) (field : String × Json) : List (String × Json) :=
  if fields.any fun p => p.1 == field.1 then
    fields.map fun p => if p.1 = field.1 then field else p
  else fields ++ [field]

/-- A value, with what reads the values inside it; `none` at the limit of the nesting. -/
def parseWith (inner : Option (List Char → Parse Json)) (text : List Char) : Parse Json :=
  match text with
  | '"' :: rest =>
      match scanString rest with
      | some (s, rest) => .ok (.str (String.ofList s), rest)
      | none => .error .malformed
  | '\x7b' :: rest =>
      match inner with
      | none => .error .limit
      | some value => (bracketed (parseMember value) '\x7d' rest).map fun (fields, rest) =>
          (.obj (fields.foldl insertField []), rest)
  | '[' :: rest =>
      match inner with
      | none => .error .limit
      | some value => (bracketed value ']' rest).map fun (items, rest) => (.arr items, rest)
  | _ => parseScalar F digits text

/-- A value of at most so many nested containers. -/
def parseValue : Nat → List Char → Parse Json
  | 0 => parseWith F digits none
  | depth + 1 => parseWith F digits (some (parseValue depth))

end Reading

/-- `json.loads`. -/
def loads (F : Floats) (lim : Limits) (text : List Char) : Except Failure Json :=
  match parseValue F lim.digits lim.depth (skipWs text) with
  | .error e => .error e
  | .ok (v, rest) => if skipWs rest = [] then .ok v else .error .malformed

section Writing
variable (F : Floats)

/-- Texts with commas between them. -/
def joinTexts : List (List Char) → List Char
  | [] => []
  | [text] => text
  | text :: texts => text ++ [',', ' '] ++ joinTexts texts

mutual

/-- `json.dumps(…, ensure_ascii=False)`. -/
def dumps : Json → List Char
  | .null => nullWord
  | .bool true => trueWord
  | .bool false => falseWord
  | .int n => intText n
  | .decimal m e => F.write (m, e)
  | .str s => quote s
  | .arr items => '[' :: joinTexts (dumpsItems items) ++ [']']
  | .obj fields => '\x7b' :: joinTexts (dumpsFields fields) ++ ['\x7d']

def dumpsItems : List Json → List (List Char)
  | [] => []
  | item :: items => dumps item :: dumpsItems items

def dumpsFields : List (String × Json) → List (List Char)
  | [] => []
  | (key, v) :: fields => (quote key ++ [':', ' '] ++ dumps v) :: dumpsFields fields

end

end Writing

end JetsonVoice.Foundation.JsonText
