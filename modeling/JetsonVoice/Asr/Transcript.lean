import JetsonVoice.Foundation.Json

/-!
# Transcripts of the one-shot core

The recogniser prepends `language <Lang>` to what it heard. Partials and finals
expose the text behind that tag, read out of the core's response object.
-/

namespace JetsonVoice.Asr

open Foundation

/-- ASCII upper-case letters are folded, every other character is kept. -/
def asciiLower (c : Char) : Char :=
  if 'A' ≤ c ∧ c ≤ 'Z' then Char.ofNat (c.toNat + 32) else c

/-- Case-insensitive ASCII comparison of a literal with the front of a text. -/
def asciiIPrefix : List Char → List Char → Bool
  | _, [] => true
  | [], _ :: _ => false
  | a :: s, b :: lit => asciiLower a == asciiLower b && asciiIPrefix s lit

/-- Case-insensitive ASCII comparison of a literal at a position. -/
def asciiIEqualsAt (s : List Char) (pos : Nat) (lit : List Char) : Bool :=
  asciiIPrefix (s.drop pos) lit

/-- The language names the worker strips. -/
def kLanguages : List String :=
  ["Chinese", "English", "Cantonese", "Japanese", "Korean", "French", "German", "Spanish",
    "Italian", "Portuguese", "Russian", "Arabic", "Hindi", "Bengali", "Urdu", "Indonesian",
    "Malay", "Vietnamese", "Thai", "Turkish", "Dutch", "Polish", "Ukrainian", "Swedish",
    "Norwegian", "Danish", "Finnish", "Greek", "Hebrew", "Persian", "Czech", "Slovak",
    "Hungarian", "Romanian", "Bulgarian", "Croatian", "Serbian", "Tamil", "Telugu",
    "Marathi", "Gujarati", "Kannada", "Malayalam", "Punjabi", "Nepali", "Sinhala",
    "Burmese", "Khmer", "Lao", "Mongolian", "Tibetan", "Uyghur"]

/-- The length of the longest known language name at a position, 0 for none. -/
def knownAsrLanguagePrefixLen (s : List Char) (pos : Nat) : Nat :=
  kLanguages.foldl (fun best lang =>
    let n := lang.toList.length
    if best < n ∧ asciiIEqualsAt s pos lang.toList then n else best) 0

/-- The white space skipped after a language name. -/
def isTagSpace (c : Char) : Bool :=
  c == ' ' || c == '\t' || c == '\r' || c == '\n'

def kTag : List Char := "language ".toList

def kAsrTextTag : List Char := "<asr_text>".toList

/-- Strip the head tag from a list of characters. -/
def stripLangTagChars (s : List Char) : List Char :=
  if s.length < kTag.length then s
  else if !asciiIEqualsAt s 0 kTag then s
  else if asciiIEqualsAt s kTag.length kAsrTextTag then
    s.drop (kTag.length + kAsrTextTag.length)
  else
    let langLen := knownAsrLanguagePrefixLen s kTag.length
    -- An unknown language word is left alone, tag included.
    if langLen = 0 then s
    else
      let rest := (s.drop (kTag.length + langLen)).dropWhile isTagSpace
      if asciiIEqualsAt rest 0 kAsrTextTag then rest.drop kAsrTextTag.length else rest

/-- Strip the `language <Lang>` head tag of a transcript. -/
def stripLangTag (s : String) : String := String.ofList (stripLangTagChars s.toList)

/-- The first response of a core result. -/
def firstResponse? (core : Json) : Option Json :=
  match core.field? "responses" with
  | some (.arr (r0 :: _)) => some r0
  | _ => none

/-- The bare transcript of a core result, empty when it has no output text. -/
def transcriptFromCore (core : Json) : String :=
  match firstResponse? core with
  | some r0 =>
      match r0.str? "output_text" with
      | some text => stripLangTag text
      | none => ""
  | none => ""

example : stripLangTag "language EnglishGo home." = "Go home." := by decide +kernel

end JetsonVoice.Asr
