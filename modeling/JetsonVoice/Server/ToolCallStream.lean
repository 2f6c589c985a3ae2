import JetsonVoice.Foundation.Collections
import JetsonVoice.Foundation.Scanner
import JetsonVoice.Server.ToolCalls
import Mathlib.Data.List.TakeWhile

/-!
# Names of tool calls while the text arrives

The server feeds the text to a parser piece by piece and sends the name of a
call as soon as the parser has seen it.

## Implementation notes

What `feed` does between two breaks of its loop is one step of a scanner, and
what it keeps of its buffer at a break is `settle`. `json.loads` is only tried
on string literals, so it either reads a string or raises a `JSONDecodeError`.
-/

namespace JetsonVoice.Server

open Foundation

inductive ParserState where
  | text
  | inToolBody
  | inNameString
  | nameEmitted
  deriving DecidableEq

/-- `_ToolCallStreamParser`. -/
structure ToolCallStreamParser where
  state : ParserState := .text
  buf : List Char := []
  idx : Int := -1
  nameChars : List Char := []
  inXmlWrapper : Bool := false
  deriving DecidableEq

/-- The index and the name of a call. -/
abbrev NameDelta := Int × List Char

def quotedName : List Char := ['"', 'n', 'a', 'm', 'e', '"']

/-- The text behind a match of `"name"\s*:\s*"` at the start of a text. -/
def nameKeyAt (text : List Char) : Option (List Char) :=
  if quotedName.isPrefixOf text then
    match (text.drop quotedName.length).dropWhile isSpace with
    | ':' :: rest =>
        match rest.dropWhile isSpace with
        | '"' :: after => some after
        | _ => none
    | _ => none
  else none

/-- `_NAME_KEY_RE.search`: the text before and behind the first match. -/
def searchName : List Char → Option (List Char × List Char)
  | [] => none
  | c :: text =>
      match nameKeyAt (c :: text) with
      | some after => some ([], after)
      | none => (searchName text).map fun (before, after) => (c :: before, after)

/-- `buf.rfind("{")`: the text before and behind the last brace. -/
def breakLastBrace (text : List Char) : Option (List Char × List Char) :=
  match text.reverse.dropWhile (· ≠ '\x7b') with
  | [] => none
  | _ :: before => some (before.reverse, (text.reverse.takeWhile (· ≠ '\x7b')).reverse)

/-- Where a bare call starts: the text before the brace of the first name key,
when only white space is between them. -/
def posBare (buf : List Char) : Option (List Char) :=
  (searchName buf).bind fun (before, _) =>
    (breakLastBrace before).bind fun (outside, between) =>
      if strip between = [] then some outside else none

/-- What opens a call first, if anything does: whether it is a tag, and the
buffer behind it. -/
def openCall (buf : List Char) : Option (Bool × List Char) :=
  match breakOn toolCallOpen buf, posBare buf with
  | none, none => none
  | some (_, after), none => some (true, after)
  | none, some outside => some (false, buf.drop (outside.length + 1))
  | some (before, after), some outside =>
      if before.length ≤ outside.length then some (true, after)
      else some (false, buf.drop (outside.length + 1))

/-- The characters of a name up to an unescaped quote, and the text behind it. A
backslash at the end of the text counts as a character of its own. -/
def scanName : List Char → List Char × Option (List Char)
  | [] => ([], none)
  | '"' :: rest => ([], some rest)
  | '\\' :: c :: rest => ('\\' :: c :: (scanName rest).1, (scanName rest).2)
  | c :: rest => (c :: (scanName rest).1, (scanName rest).2)

/-- The name a literal spells, or its characters when it is not valid JSON. -/
def unescapeName (py : Python) (chars : List Char) : List Char :=
  match py.loads ('"' :: chars ++ ['"']) with
  | .value (.str name) => name.toList
  | _ => chars

/-- What is put out for a name of a call; an empty name is not. -/
def nameDelta (py : Python) (idx : Int) (chars : List Char) : List NameDelta :=
  let name := unescapeName py chars
  if name = [] then [] else [(idx, name)]

/-- `buf[-n:]`. -/
def keepLast (n : Nat) (buf : List Char) : List Char := buf.drop (buf.length - n)

namespace ToolCallStreamParser

variable (py : Python) (p : ToolCallStreamParser)

/-- One round of the loop in `feed`, unless it breaks. -/
def advance : Option (List NameDelta × ToolCallStreamParser) :=
  match p.state with
  | .text =>
      (openCall p.buf).map fun (xml, rest) =>
        ([], { state := .inToolBody, buf := rest, idx := p.idx + 1, inXmlWrapper := xml })
  | .inToolBody =>
      (searchName p.buf).map fun (_, after) => ([], { p with buf := after, state := .inNameString })
  | .inNameString =>
      match scanName p.buf with
      | (chars, some rest) =>
          let chars := p.nameChars ++ chars
          some (nameDelta py p.idx chars,
            { p with buf := rest, state := .nameEmitted, nameChars := chars })
      | (_, none) => none
  | .nameEmitted =>
      if p.inXmlWrapper then
        (breakOn toolCallClose p.buf).map fun (_, after) =>
          ([], { p with buf := after, state := .text })
      else
        -- A bare call has no closing tag; the rest of the buffer is dropped.
        some ([], { p with buf := [], state := .text })

/-- What the loop keeps of the buffer when it breaks. -/
def settle : ToolCallStreamParser :=
  match p.state with
  | .text => { p with buf := keepLast (toolCallOpen.length - 1) p.buf }
  | .inToolBody => { p with buf := keepLast 16 p.buf }
  | .inNameString => { p with buf := [], nameChars := p.nameChars ++ (scanName p.buf).1 }
  | .nameEmitted => { p with buf := keepLast (toolCallClose.length - 1) p.buf }

def push (text : List Char) : ToolCallStreamParser := { p with buf := p.buf ++ text }

/-- The parser's loop between two breaks. -/
def scanner : Scanner ToolCallStreamParser Char NameDelta where
  advance := advance py
  push := push

/-- `feed`. Every round but the one that drops the buffer shortens it. -/
def feed (text : List Char) : List NameDelta × ToolCallStreamParser :=
  if text = [] then ([], p)
  else
    let r := (scanner py).scan (2 * (p.push text).buf.length + 2) (p.push text)
    (r.1, r.2.settle)

/-- The names that successive calls of `feed` put out. -/
def feedAll : ToolCallStreamParser → List (List Char) → List NameDelta
  | _, [] => []
  | p, text :: texts => (feed py p text).1 ++ feedAll (feed py p text).2 texts

end ToolCallStreamParser

section Keys
variable {text before after more key : List Char}

/-- A match of the key expression. -/
def IsNameKey (key : List Char) : Prop :=
  ∃ w w', (∀ c ∈ w, isSpace c = true) ∧ (∀ c ∈ w', isSpace c = true) ∧
    key = quotedName ++ (w ++ ':' :: (w' ++ ['"']))

theorem eq_takeWhile_append {rest : List Char} (h : text.dropWhile isSpace = rest) :
    text = text.takeWhile isSpace ++ rest := by
  rw [← h, List.takeWhile_append_dropWhile]

theorem nameKeyAt_eq_some_iff :
    nameKeyAt text = some after ↔ ∃ key, IsNameKey key ∧ text = key ++ after := by
  constructor
  · intro h
    unfold nameKeyAt at h
    split at h
    · rename_i hpre
      obtain ⟨rest, rfl⟩ := List.isPrefixOf_iff_prefix.mp hpre
      split at h
      · rename_i rest₁ hcolon
        split at h
        · rename_i rest₂ hquote
          cases h
          have hrest : rest = rest.takeWhile isSpace ++ ':' :: rest₁ := eq_takeWhile_append hcolon
          have hinner : rest₁ = rest₁.takeWhile isSpace ++ '"' :: after :=
            eq_takeWhile_append hquote
          refine ⟨_, ⟨rest.takeWhile isSpace, rest₁.takeWhile isSpace,
            fun c hc => List.mem_takeWhile_imp hc, fun c hc => List.mem_takeWhile_imp hc, rfl⟩, ?_⟩
          conv_lhs => rw [hrest, hinner]
          simp
        · cases h
      · cases h
    · cases h
  · rintro ⟨_, ⟨w, w', hw, hw', rfl⟩, rfl⟩
    have hpre : quotedName.isPrefixOf
        (quotedName ++ (w ++ ':' :: (w' ++ ['"'])) ++ after) = true := by
      rw [List.isPrefixOf_iff_prefix, List.append_assoc]
      exact List.prefix_append _ _
    have hcolon : (w ++ ':' :: (w' ++ '"' :: after)).dropWhile isSpace =
        ':' :: (w' ++ '"' :: after) := List.dropWhile_append_of_pos hw
    have hquote : (w' ++ '"' :: after).dropWhile isSpace = '"' :: after :=
      List.dropWhile_append_of_pos hw'
    rw [nameKeyAt, if_pos hpre]
    simp only [List.append_assoc, List.cons_append]
    change (match (w ++ ':' :: (w' ++ '"' :: after)).dropWhile isSpace with
      | ':' :: rest => match rest.dropWhile isSpace with
        | '"' :: after => some after
        | _ => none
      | _ => none) = some after
    rw [hcolon]
    change (match (w' ++ '"' :: after).dropWhile isSpace with
        | '"' :: after => some after
        | _ => none) = some after
    rw [hquote]
    rfl

/-- Three quotes make a key, two are not enough. -/
theorem IsNameKey.count (h : IsNameKey key) :
    key.count '"' = 3 ∧ ∀ part more, key = part ++ more → more ≠ [] → part.count '"' ≤ 2 := by
  obtain ⟨w, w', hw, hw', rfl⟩ := h
  have hnone {v : List Char} (hv : ∀ c ∈ v, isSpace c = true) : v.count '"' = 0 :=
    List.count_eq_zero.mpr fun hmem => absurd (hv _ hmem) (by decide)
  have hword : quotedName.count '"' = 2 := by decide
  constructor
  · simp [hnone hw, hnone hw', hword]
  · intro part more hpart hne
    have hcount : (part ++ more.dropLast).count '"' = 2 := by
      have hlast : part ++ more.dropLast = quotedName ++ (w ++ ':' :: w') := by
        rw [← List.dropLast_append_of_ne_nil hne, ← hpart]
        have hassoc : quotedName ++ (w ++ ':' :: (w' ++ ['"'])) =
            (quotedName ++ (w ++ ':' :: w')) ++ ['"'] := by simp
        rw [hassoc, List.dropLast_concat]
      rw [hlast]
      simp [hnone hw, hnone hw', hword]
    rw [List.count_append] at hcount
    omega

theorem IsNameKey.notMem (h : IsNameKey key) : '<' ∉ key := by
  obtain ⟨w, w', hw, hw', rfl⟩ := h
  simp only [List.mem_append, List.mem_cons, List.not_mem_nil, or_false, not_or]
  exact ⟨by decide, fun h => absurd (hw _ h) (by decide), by decide,
    fun h => absurd (hw' _ h) (by decide), by decide⟩

theorem searchName_some (h : searchName text = some (before, after)) :
    ∃ key, IsNameKey key ∧ text = before ++ (key ++ after) := by
  induction text generalizing before with
  | nil => cases h
  | cons c text ih =>
      simp only [searchName] at h
      split at h
      · rename_i hkey
        cases h
        exact nameKeyAt_eq_some_iff.mp hkey
      · obtain ⟨⟨before', after'⟩, hsearch, heq⟩ := Option.map_eq_some_iff.mp h
        cases heq
        obtain ⟨key, hkey, rfl⟩ := ih hsearch
        exact ⟨key, hkey, rfl⟩

theorem searchName_key (hkey : IsNameKey key) (after : List Char) :
    searchName (key ++ after) = some ([], after) := by
  have hat : nameKeyAt (key ++ after) = some after :=
    nameKeyAt_eq_some_iff.mpr ⟨key, hkey, rfl⟩
  obtain ⟨w, w', -, -, rfl⟩ := hkey
  simp only [quotedName, List.cons_append, List.nil_append] at hat ⊢
  rw [searchName, hat]

/-- A text with a key in it is searched with success. -/
theorem searchName_isSome (hkey : IsNameKey key) :
    (searchName (before ++ (key ++ after))).isSome = true := by
  induction before with
  | nil =>
      rw [List.nil_append, searchName_key hkey]
      rfl
  | cons c before ih =>
      rw [List.cons_append, searchName]
      split
      · rfl
      · rw [Option.isSome_map, ih]

/-- What follows a text does not change where its first key is. -/
theorem searchName_append (h : searchName text = some (before, after)) (more : List Char) :
    searchName (text ++ more) = some (before, after ++ more) := by
  induction text generalizing before with
  | nil => cases h
  | cons c text ih =>
      simp only [searchName] at h
      split at h
      · rename_i hkey
        cases h
        obtain ⟨key, hk, heq⟩ := nameKeyAt_eq_some_iff.mp hkey
        have hat : nameKeyAt (c :: text ++ more) = some (after ++ more) :=
          nameKeyAt_eq_some_iff.mpr ⟨key, hk, by rw [heq, List.append_assoc]⟩
        rw [List.cons_append] at hat ⊢
        rw [searchName, hat]
      · rename_i hnone
        obtain ⟨⟨before', after'⟩, hsearch, heq⟩ := Option.map_eq_some_iff.mp h
        cases heq
        have hat : nameKeyAt (c :: (text ++ more)) = none := by
          -- A key that starts here and ends in the new text has too few quotes for the other.
          by_contra hsome
          obtain ⟨after'', hat⟩ := Option.ne_none_iff_exists'.mp hsome
          obtain ⟨key, hk, heq⟩ := nameKeyAt_eq_some_iff.mp hat
          have hsplit : (c :: text) ++ more = key ++ after'' := heq
          rcases List.append_eq_append_iff.mp hsplit with
            ⟨rest, hrest, -⟩ | ⟨rest, hrest, -⟩
          · have hne : rest ≠ [] := by
              rintro rfl
              rw [List.append_nil] at hrest
              rw [nameKeyAt_eq_some_iff.mpr ⟨key, hk, by rw [hrest, List.append_nil]⟩] at hnone
              cases hnone
            have hfew := hk.count.2 _ _ hrest hne
            obtain ⟨key', hk', rfl⟩ := searchName_some hsearch
            have hmany := hk'.count.1
            simp only [List.count_cons, List.count_append] at hfew
            omega
          · rw [nameKeyAt_eq_some_iff.mpr ⟨key, hk, hrest⟩] at hnone
            cases hnone
        rw [List.cons_append, searchName, hat, ih hsearch]
        rfl

end Keys

section Opening
variable {lit text before after more outside rest : List Char} {xml : Bool}

theorem breakOn_isSome (hlit : lit ≠ []) (before after : List Char) :
    (breakOn lit (before ++ (lit ++ after))).isSome = true := by
  induction before with
  | nil =>
      obtain ⟨c, lit', rfl⟩ := List.exists_cons_of_ne_nil hlit
      have hpre : (c :: lit').isPrefixOf (c :: lit' ++ after) = true := by
        rw [List.isPrefixOf_iff_prefix]
        exact List.prefix_append _ _
      rw [List.nil_append, List.cons_append, breakOn, if_pos (by exact hpre)]
      rfl
  | cons c before ih =>
      rw [List.cons_append, breakOn]
      split
      · rfl
      · rw [Option.isSome_map, ih]

/-- What follows a text does not change where a literal first occurs in it. -/
theorem breakOn_append (hlit : lit ≠ []) (h : breakOn lit text = some (before, after))
    (more : List Char) :
    breakOn lit (text ++ more) = some (before, after ++ more) := by
  induction text generalizing before with
  | nil =>
      rw [breakOn, if_neg (by simpa using hlit)] at h
      cases h
  | cons c text ih =>
      rw [breakOn] at h
      rw [List.cons_append, breakOn]
      by_cases hpre : lit.isPrefixOf (c :: text) = true
      · rw [if_pos hpre] at h
        obtain ⟨rfl, rfl⟩ := Prod.mk.inj (Option.some.inj h)
        obtain ⟨rest, hrest⟩ := List.isPrefixOf_iff_prefix.mp hpre
        have hmore : c :: (text ++ more) = lit ++ (rest ++ more) := by
          rw [← List.cons_append, ← hrest, List.append_assoc]
        rw [hmore, if_pos (by rw [List.isPrefixOf_iff_prefix]; exact List.prefix_append _ _),
          ← hrest, List.drop_left, List.drop_left]
      · rw [if_neg hpre] at h
        obtain ⟨⟨before', after'⟩, hbreak, heq⟩ := Option.map_eq_some_iff.mp h
        cases heq
        have hlate : ¬ lit.isPrefixOf (c :: (text ++ more)) = true := by
          intro hlate
          -- The literal occurs later in the text, so it would end before the text does.
          have hlen : lit.length ≤ (c :: text).length := by
            rw [eq_of_breakOn hbreak]
            simp only [List.length_cons, List.length_append]
            omega
          rw [List.isPrefixOf_iff_prefix] at hlate hpre
          exact hpre (List.prefix_of_prefix_length_le hlate
            (by rw [← List.cons_append]; exact List.prefix_append _ _) hlen)
        rw [if_neg hlate, ih hbreak]
        rfl

theorem isSpace_of_strip_eq_nil (h : strip text = []) : ∀ c ∈ text, isSpace c = true := by
  have hdrop : text.dropWhile isSpace = [] := by
    have hrev : ((text.dropWhile isSpace).reverse.dropWhile isSpace) = [] := by
      simpa [strip] using h
    have hall := List.dropWhile_eq_nil_iff.mp hrev
    cases hd : text.dropWhile isSpace with
    | nil => rfl
    | cons c rest =>
        have hc := hall c (by simp [hd])
        have hhead := List.head_dropWhile_not isSpace (l := text) (by simp [hd])
        simp [hd, hc] at hhead
  exact List.dropWhile_eq_nil_iff.mp hdrop

theorem eq_of_breakLastBrace {between : List Char}
    (h : breakLastBrace text = some (outside, between)) : text = outside ++ '\x7b' :: between := by
  unfold breakLastBrace at h
  split at h
  · cases h
  · rename_i c before hdrop
    cases h
    have hc : c = '\x7b' := by
      have hhead := List.head?_dropWhile_not (· ≠ '\x7b') text.reverse
      rw [hdrop] at hhead
      simpa using hhead
    have hsplit := List.takeWhile_append_dropWhile (p := (· ≠ '\x7b')) (l := text.reverse)
    rw [hdrop, hc] at hsplit
    have hrev := congrArg List.reverse hsplit
    simpa using hrev.symm

theorem posBare_some (h : posBare text = some outside) : ∃ before after between,
    searchName text = some (before, after) ∧ breakLastBrace before = some (outside, between) ∧
      strip between = [] := by
  obtain ⟨⟨before, after⟩, hsearch, h⟩ := Option.bind_eq_some_iff.mp h
  obtain ⟨⟨outside', between⟩, hbrace, h⟩ := Option.bind_eq_some_iff.mp h
  simp only [Option.ite_none_right_eq_some, Option.some.injEq] at h
  obtain ⟨hstrip, rfl⟩ := h
  exact ⟨before, after, between, hsearch, hbrace, hstrip⟩

theorem posBare_append (h : posBare text = some outside) :
    posBare (text ++ more) = some outside := by
  obtain ⟨before, after, between, hsearch, hbrace, hstrip⟩ := posBare_some h
  simp [posBare, searchName_append hsearch, hbrace, hstrip]

theorem toolCallOpen_ne_nil : toolCallOpen ≠ [] := by decide

/-- A bare call that is seen only with more text starts behind a tag seen before. -/
theorem tag_before_bare (htag : breakOn toolCallOpen text = some (before, after))
    (hnone : posBare text = none) (hbare : posBare (text ++ more) = some outside) :
    before.length ≤ outside.length := by
  by_contra hlt
  obtain ⟨head, tail, between, hsearch, hbrace, hstrip⟩ := posBare_some hbare
  obtain ⟨key, hkey, htext⟩ := searchName_some hsearch
  have hhead := eq_of_breakLastBrace hbrace
  have hsplit : before ++ (toolCallOpen ++ (after ++ more)) =
      outside ++ ('\x7b' :: (between ++ (key ++ tail))) := by
    have := eq_of_breakOn htag
    rw [hhead, this] at htext
    simpa [List.append_assoc] using htext
  obtain ⟨part, hpart, hrest⟩ : ∃ part, before = outside ++ '\x7b' :: part ∧
      part ++ (toolCallOpen ++ (after ++ more)) = (between ++ key) ++ tail := by
    rcases List.append_eq_append_iff.mp hsplit with ⟨part, rfl, -⟩ | ⟨part, rfl, hpart⟩
    · simp at hlt
    · cases part with
      | nil => simp at hlt
      | cons c part =>
          obtain ⟨rfl, hpart'⟩ := List.cons.inj hpart
          exact ⟨part, rfl, by rw [List.append_assoc]; exact hpart'.symm⟩
  have hspace := isSpace_of_strip_eq_nil hstrip
  have hno : '<' ∉ between ++ key := by
    rw [List.mem_append, not_or]
    exact ⟨fun h => absurd (hspace _ h) (by decide), hkey.notMem⟩
  obtain ⟨part', hkeys⟩ := prefix_of_notMem (u := part) hrest hno
  have hfound : (searchName text).isSome = true := by
    have hshape : text =
        (outside ++ '\x7b' :: between) ++ (key ++ (part' ++ (toolCallOpen ++ after))) := by
      rw [eq_of_breakOn htag, hpart, ← hkeys]
      simp [List.append_assoc]
    rw [hshape]
    exact searchName_isSome hkey
  obtain ⟨⟨head', tail'⟩, hsearch'⟩ := Option.isSome_iff_exists.mp hfound
  obtain ⟨rfl, -⟩ := Prod.mk.inj (Option.some.inj
    (hsearch.symm.trans (searchName_append hsearch' more)))
  simp [posBare, hsearch', hbrace, hstrip] at hnone

/-- A tag that is seen only with more text starts behind a bare call seen before. -/
theorem bare_before_tag (hnone : breakOn toolCallOpen text = none)
    (hbare : posBare text = some outside)
    (htag : breakOn toolCallOpen (text ++ more) = some (before, after)) :
    outside.length < before.length := by
  by_contra hle
  obtain ⟨head, tail, between, hsearch, hbrace, -⟩ := posBare_some hbare
  obtain ⟨key, -, htext⟩ := searchName_some hsearch
  rw [eq_of_breakLastBrace hbrace, List.append_assoc] at htext
  have hsplit : outside ++ ('\x7b' :: (between ++ (key ++ tail)) ++ more) =
      before ++ (toolCallOpen ++ after) := by
    rw [← eq_of_breakOn htag, htext]
    simp [List.append_assoc]
  obtain ⟨part, rfl, hrest⟩ : ∃ part, outside = before ++ part ∧
      part ++ '\x7b' :: (between ++ (key ++ tail) ++ more) = toolCallOpen ++ after := by
    rcases List.append_eq_append_iff.mp hsplit with ⟨part, rfl, hpart⟩ | ⟨part, rfl, hpart⟩
    · have hnil : part = [] := by
        simp only [List.length_append] at hle
        exact List.eq_nil_of_length_eq_zero (by omega)
      exact ⟨[], by simp [hnil], by simpa [hnil] using hpart⟩
    · exact ⟨part, rfl, by simpa [List.append_assoc] using hpart.symm⟩
  obtain ⟨part', hpart'⟩ := prefix_of_notMem (w := toolCallOpen) hrest (by decide)
  have hfound : (breakOn toolCallOpen text).isSome = true := by
    rw [htext, ← hpart', List.append_assoc, List.append_assoc]
    exact breakOn_isSome toolCallOpen_ne_nil _ _
  rw [hnone] at hfound
  cases hfound

/-- What follows a text does not change what opens a call in it. -/
theorem openCall_append (h : openCall text = some (xml, rest)) :
    openCall (text ++ more) = some (xml, rest ++ more) := by
  have hdrop (outside : List Char) (hb : posBare text = some outside) :
      (text ++ more).drop (outside.length + 1) = text.drop (outside.length + 1) ++ more := by
    obtain ⟨head, tail, between, hsearch, hbrace, -⟩ := posBare_some hb
    obtain ⟨key, -, htext⟩ := searchName_some hsearch
    rw [eq_of_breakLastBrace hbrace] at htext
    refine List.drop_append_of_le_length ?_
    rw [htext]
    simp only [List.length_append, List.length_cons]
    omega
  unfold openCall at h ⊢
  cases htag : breakOn toolCallOpen text with
  | none =>
      cases hbare : posBare text with
      | none => simp [htag, hbare] at h
      | some outside =>
          simp only [htag, hbare, Option.some.injEq, Prod.mk.injEq] at h
          obtain ⟨rfl, rfl⟩ := h
          rw [posBare_append hbare]
          cases htag' : breakOn toolCallOpen (text ++ more) with
          | none => simp only [hdrop _ hbare]
          | some r =>
              have hlt := bare_before_tag htag hbare htag'
              simp only [hdrop _ hbare, if_neg (Nat.not_le.mpr hlt)]
  | some r =>
      obtain ⟨before, after⟩ := r
      rw [breakOn_append toolCallOpen_ne_nil htag]
      cases hbare : posBare text with
      | none =>
          simp only [htag, hbare, Option.some.injEq, Prod.mk.injEq] at h
          obtain ⟨rfl, rfl⟩ := h
          cases hbare' : posBare (text ++ more) with
          | none => rfl
          | some outside => simp only [if_pos (tag_before_bare htag hbare hbare')]
      | some outside =>
          simp only [htag, hbare] at h
          rw [posBare_append hbare]
          simp only [hdrop _ hbare]
          split at h
          · rename_i hle
            cases h
            rw [if_pos hle]
          · rename_i hle
            cases h
            rw [if_neg hle]

end Opening

section Names
variable {chars rest more : List Char}

theorem scanName_cons {c : Char} (hquote : c ≠ '"') (hescape : c = '\\' → rest = []) :
    scanName (c :: rest) = (c :: (scanName rest).1, (scanName rest).2) := by
  rw [scanName]
  · exact hquote
  · rintro d rest' rfl heq
    rw [hescape rfl] at heq
    cases heq

/-- What is read of a name does not depend on what follows it. -/
theorem scanName_append {text : List Char} (h : scanName text = (chars, some rest)) :
    scanName (text ++ more) = (chars, some (rest ++ more)) := by
  induction text using scanName.induct generalizing chars with
  | case1 => cases h
  | case2 rest' =>
      rw [scanName] at h
      cases h
      rfl
  | case3 c rest' ih =>
      rw [scanName] at h
      obtain ⟨rfl, hrest⟩ := Prod.mk.inj h
      simp only [List.cons_append, scanName, ih (Prod.ext rfl hrest)]
  | case4 c rest' hquote hescape ih =>
      have hnil : c = '\\' → rest' = [] := fun hc => by
        by_contra hne
        obtain ⟨d, rest'', rfl⟩ := List.exists_cons_of_ne_nil hne
        exact hescape d rest'' hc rfl
      rw [scanName_cons hquote hnil] at h
      obtain ⟨rfl, hrest⟩ := Prod.mk.inj h
      have hne : rest' ≠ [] := by
        rintro rfl
        cases hrest
      rw [List.cons_append, scanName_cons hquote (fun hc => absurd (hnil hc) hne),
        ih (Prod.ext rfl hrest)]

theorem length_of_scanName {text : List Char} (h : scanName text = (chars, some rest)) :
    rest.length < text.length := by
  induction text using scanName.induct generalizing chars with
  | case1 => cases h
  | case2 rest' =>
      rw [scanName] at h
      cases h
      simp
  | case3 c rest' ih =>
      rw [scanName] at h
      have := ih (Prod.ext rfl (Prod.mk.inj h).2)
      simp only [List.length_cons]
      omega
  | case4 c rest' hquote hescape ih =>
      rw [scanName] at h
      · have := ih (Prod.ext rfl (Prod.mk.inj h).2)
        simp only [List.length_cons]
        omega
      · exact hquote
      · exact hescape

end Names

section Steps
variable {py : Python} {p q : ToolCallStreamParser} {text before after rest : List Char}
  {os : List NameDelta}

theorem length_of_openCall {xml : Bool} (h : openCall text = some (xml, rest)) :
    rest.length < text.length := by
  have hbare {outside : List Char} (hb : posBare text = some outside) :
      (text.drop (outside.length + 1)).length < text.length := by
    obtain ⟨head, tail, between, hsearch, hbrace, -⟩ := posBare_some hb
    obtain ⟨key, -, htext⟩ := searchName_some hsearch
    rw [eq_of_breakLastBrace hbrace] at htext
    rw [List.length_drop]
    have hpos : 0 < text.length := by
      rw [htext]
      simp only [List.length_append, List.length_cons]
      omega
    omega
  have htag {before : List Char} (ht : breakOn toolCallOpen text = some (before, rest)) :
      rest.length < text.length := by
    have hopen : 0 < toolCallOpen.length := by decide
    rw [eq_of_breakOn ht]
    simp only [List.length_append]
    omega
  unfold openCall at h
  split at h
  · cases h
  · rename_i ht _
    cases h
    exact htag ht
  · rename_i hb
    cases h
    exact hbare hb
  · rename_i ht hb
    split at h
    · cases h
      exact htag ht
    · cases h
      exact hbare hb

theorem length_of_searchName (h : searchName text = some (before, after)) :
    after.length < text.length := by
  obtain ⟨key, ⟨w, w', -, -, rfl⟩, rfl⟩ := searchName_some h
  simp only [quotedName, List.length_append, List.length_cons]
  omega

theorem length_of_breakOn {lit : List Char} (hlit : lit ≠ [])
    (h : breakOn lit text = some (before, after)) : after.length < text.length := by
  have hpos := List.length_pos_iff.mpr hlit
  rw [eq_of_breakOn h]
  simp only [List.length_append]
  omega

namespace ToolCallStreamParser

variable (p)

theorem scanner_advance : (scanner py).advance p = p.advance py := rfl

theorem advance_text (h : p.state = .text) : p.advance py = (openCall p.buf).map fun r =>
    ([], { state := .inToolBody, buf := r.2, idx := p.idx + 1, inXmlWrapper := r.1 }) := by
  simp only [advance, h]

theorem advance_body (h : p.state = .inToolBody) : p.advance py = (searchName p.buf).map fun r =>
    ([], { p with buf := r.2, state := .inNameString }) := by
  simp only [advance, h]

theorem advance_name (h : p.state = .inNameString) :
    p.advance py = (scanName p.buf).2.map fun rest =>
      (nameDelta py p.idx (p.nameChars ++ (scanName p.buf).1),
        { p with buf := rest, state := .nameEmitted,
                 nameChars := p.nameChars ++ (scanName p.buf).1 }) := by
  simp only [advance, h]
  rcases scanName p.buf with ⟨chars, _ | rest⟩ <;> rfl

theorem advance_emitted (h : p.state = .nameEmitted) (hxml : p.inXmlWrapper = true) :
    p.advance py = (breakOn toolCallClose p.buf).map fun r =>
      ([], { p with buf := r.2, state := .text }) := by
  simp only [advance, h, hxml, if_true]

theorem advance_bare (h : p.state = .nameEmitted) (hxml : p.inXmlWrapper = false) :
    p.advance py = some ([], { p with buf := [], state := .text }) := by
  simp only [advance, h, hxml, Bool.false_eq_true, if_false]

end ToolCallStreamParser

/-- Every round shortens the buffer, but the one that ends a bare call may find
it empty. -/
def ToolCallStreamParser.rounds (p : ToolCallStreamParser) : Nat :=
  2 * p.buf.length + if p.state = .nameEmitted then 1 else 0

theorem rounds_lt (h : p.advance py = some (os, q)) : q.rounds < p.rounds := by
  unfold ToolCallStreamParser.rounds
  cases hstate : p.state with
  | text =>
      rw [p.advance_text hstate] at h
      obtain ⟨⟨xml, rest⟩, hopen, heq⟩ := Option.map_eq_some_iff.mp h
      cases heq
      have := length_of_openCall hopen
      simp only [reduceCtorEq, if_false]
      omega
  | inToolBody =>
      rw [p.advance_body hstate] at h
      obtain ⟨⟨before, after⟩, hsearch, heq⟩ := Option.map_eq_some_iff.mp h
      cases heq
      have := length_of_searchName hsearch
      simp only [reduceCtorEq, if_false]
      omega
  | inNameString =>
      rw [p.advance_name hstate] at h
      obtain ⟨rest, hscan, heq⟩ := Option.map_eq_some_iff.mp h
      cases heq
      have := length_of_scanName (Prod.ext rfl hscan)
      simp only [reduceCtorEq, if_false, if_true]
      omega
  | nameEmitted =>
      cases hxml : p.inXmlWrapper with
      | true =>
          rw [p.advance_emitted hstate hxml] at h
          obtain ⟨⟨before, after⟩, hclose, heq⟩ := Option.map_eq_some_iff.mp h
          cases heq
          have := length_of_breakOn (by decide) hclose
          simp only [reduceCtorEq, if_false, if_true]
          omega
      | false =>
          rw [p.advance_bare hstate hxml] at h
          cases h
          simp

/-- A call of `feed` scans its text behind what was kept, and settles. -/
theorem feed_eq_of_scans (htext : text ≠ [])
    (h : (ToolCallStreamParser.scanner py).Scans (p.push text) os q) :
    p.feed py text = (os, q.settle) := by
  have hrounds : (p.push text).rounds < 2 * (p.push text).buf.length + 2 := by
    unfold ToolCallStreamParser.rounds
    split <;> omega
  have hscan := Scanner.scans_scan (P := ToolCallStreamParser.scanner py) rounds_lt hrounds
  obtain ⟨hos, hq⟩ := h.unique hscan
  rw [ToolCallStreamParser.feed, if_neg htext, hos, hq]

theorem exists_scans (py : Python) (p : ToolCallStreamParser) :
    ∃ os q, (ToolCallStreamParser.scanner py).Scans p os q :=
  ⟨_, _, Scanner.scans_scan (P := ToolCallStreamParser.scanner py) rounds_lt
    (Nat.lt_succ_self p.rounds)⟩

end Steps

end JetsonVoice.Server
