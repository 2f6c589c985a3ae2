import JetsonVoice.Foundation.Occurrences
import JetsonVoice.Server.ToolCalls
import Mathlib.Data.List.TakeWhile

/-!
# Blocks of calls in a text

What the scan for blocks finds in a text that is made of blocks: each of them, when
the closing tag occurs in none of their bodies. The other way round, a scan that finds
as many calls as there are blocks, and leaves no closing tag behind, has found them.
-/

namespace JetsonVoice.Server.History

open Foundation

/-- A call between its tags. -/
def block (body : List Char) : List Char :=
  toolCallOpen ++ ('\n' :: (body ++ '\n' :: toolCallClose))

/-- Blocks behind a text, in lines of their own. -/
def blocksText : List Char → List (List Char) → List Char
  | _, [] => []
  | lead, body :: bodies => lead ++ (block body ++ blocksText ['\n'] bodies)

/-- The text between the braces of an object, with them. -/
def Braced (body : List Char) : Prop := ∃ inner, body = '\x7b' :: (inner ++ ['\x7d'])

/-- How often the closing tag occurs in a text. -/
def closers (text : List Char) : Nat := occurrences toolCallClose text

/-- The object in a block is taken for the call. -/
def Accepts (py : Python) (body : List Char) (call : ToolCall) : Prop :=
  ∃ obj, py.tryLoads body = some obj ∧ toolCallFromJsonObj py obj call.index = some call

variable {py : Python} {text lead before body after u v w s : List Char} {fuel idx : Nat}
  {calls found : List ToolCall} {cleaned parts : List Char} {bodies : List (List Char)}

section Strip

theorem strip_append_spaces (hw : ∀ c ∈ w, isSpace c = true) (s : List Char) :
    strip (s ++ w) = strip s := by
  have hdrop : w.dropWhile isSpace = [] := List.dropWhile_eq_nil_iff.mpr hw
  have hrev : ∀ c ∈ w.reverse, isSpace c = true := fun c hc => hw c (List.mem_reverse.mp hc)
  rw [strip, strip, List.dropWhile_append]
  split
  · rename_i hempty
    rw [List.isEmpty_iff.mp hempty, hdrop]
  · rw [List.reverse_append, List.dropWhile_append_of_pos hrev]

theorem strip_spaces_append (hw : ∀ c ∈ w, isSpace c = true) (s : List Char) :
    strip (w ++ s) = strip s := by
  rw [strip, strip, List.dropWhile_append_of_pos hw]

theorem strip_append_singleton {c : Char} (hc : isSpace c = false) (s : List Char) :
    ∃ front, strip (s ++ [c]) = front ++ [c] := by
  rw [strip, List.dropWhile_append]
  split
  · exact ⟨[], by simp [hc]⟩
  · exact ⟨s.dropWhile isSpace, by simp [hc]⟩

theorem strip_of_braced (h : Braced body) : strip body = body := by
  obtain ⟨inner, rfl⟩ := h
  have hopen : isSpace '\x7b' = false := by decide
  have hclose : isSpace '\x7d' = false := by decide
  simp [strip, hopen, hclose]

/-- White space around what is left of a text. -/
theorem exists_strip (s : List Char) : ∃ w w', (∀ c ∈ w, isSpace c = true) ∧
    (∀ c ∈ w', isSpace c = true) ∧ s = w ++ (strip s ++ w') := by
  refine ⟨s.takeWhile isSpace, ((s.dropWhile isSpace).reverse.takeWhile isSpace).reverse,
    fun c hc => List.mem_takeWhile_imp hc, fun c hc =>
      List.mem_takeWhile_imp (List.mem_reverse.mp hc), ?_⟩
  rw [strip, ← List.reverse_append, List.takeWhile_append_dropWhile, List.reverse_reverse,
    List.takeWhile_append_dropWhile]

end Strip

section Tags

theorem unbordered_open : Unbordered toolCallOpen '<' toolCallOpen.tail := ⟨by decide, by decide⟩

theorem unbordered_close : Unbordered toolCallClose '<' toolCallClose.tail := ⟨by decide, by decide⟩

/-- The first occurrence of a tag behind a text without it. -/
theorem breakOn_tag {lit rest : List Char} {x : Char} (hlit : Unbordered lit x rest)
    (hu : ¬ lit <:+: u) (v : List Char) : breakOn lit (u ++ (lit ++ v)) = some (u, v) := by
  have hcons : lit ++ v = x :: (rest ++ v) := by rw [hlit.eq, List.cons_append]
  induction u with
  | nil =>
      have hpre : lit.isPrefixOf (lit ++ v) = true :=
        List.isPrefixOf_iff_prefix.mpr (List.prefix_append lit v)
      rw [List.nil_append]
      conv_lhs => rw [hcons]
      rw [breakOn, ← hcons, if_pos hpre, List.drop_left]
  | cons c u ih =>
      rw [List.infix_cons_iff, not_or] at hu
      have hpre : ¬ lit.isPrefixOf (c :: (u ++ (lit ++ v))) = true := by
        rw [List.isPrefixOf_iff_prefix, hcons, hlit.prefix_iff]
        exact hu.1
      rw [List.cons_append, breakOn, if_neg hpre, ih hu.2]
      rfl

/-- A text whose tag was found has one more than what stands behind it. -/
theorem occurrences_of_breakOn {lit rest : List Char} {x : Char} (hlit : Unbordered lit x rest)
    (h : breakOn lit text = some (before, after)) :
    occurrences lit text = 1 + occurrences lit after := by
  induction text generalizing before with
  | nil =>
      rw [breakOn, if_neg (by simpa using hlit.ne_nil)] at h
      cases h
  | cons c text ih =>
      rw [breakOn] at h
      split at h
      · rename_i hpre
        cases h
        obtain ⟨behind, hbehind⟩ := List.isPrefixOf_iff_prefix.mp hpre
        rw [← hbehind, List.drop_left, hlit.occurrences_literal]
      · rename_i hpre
        obtain ⟨⟨before', after'⟩, hbreak, heq⟩ := Option.map_eq_some_iff.mp h
        cases heq
        rw [occurrences_cons, if_neg (mt List.isPrefixOf_iff_prefix.mpr hpre), ih hbreak,
          Nat.add_zero]

theorem closers_eq_zero_iff : closers text = 0 ↔ ¬ toolCallClose <:+: text :=
  occurrences_eq_zero_iff (by decide)

theorem closers_append_le (u v : List Char) : closers u + closers v ≤ closers (u ++ v) :=
  occurrences_append_le _ u v

/-- A character the closing tag does not have separates the tags in front of it from
those behind. -/
theorem closers_append_cons {c : Char} (hc : c ∉ toolCallClose) (u v : List Char) :
    closers (u ++ c :: v) = closers u + closers v :=
  occurrences_append_cons (by decide) hc u v

theorem closers_open_append (v : List Char) : closers (toolCallOpen ++ v) = closers v := by
  have hopen : toolCallOpen = '<' :: 't' :: ['o', 'o', 'l', '_', 'c', 'a', 'l', 'l', '>'] := by
    decide
  have hclose : toolCallClose = '<' :: '/' :: toolCallOpen.tail := by decide
  have hpre (w : List Char) : ¬ toolCallClose <+: '<' :: 't' :: w := by
    rw [hclose, List.cons_prefix_cons, List.cons_prefix_cons]
    rintro ⟨-, hsecond, -⟩
    exact absurd hsecond (by decide)
  rw [closers, closers, hopen, List.cons_append, List.cons_append, occurrences_cons, if_neg (hpre _),
    Nat.add_zero, ← List.cons_append, unbordered_close.occurrences_of_notMem (by decide)]

theorem closers_strip (s : List Char) : closers (strip s) = closers s := by
  have hspace {w : List Char} (hw : ∀ c ∈ w, isSpace c = true) : ∀ c ∈ w, c ∉ toolCallClose := by
    intro c hc hmem
    have hall : toolCallClose.all (! isSpace ·) = true := by decide
    have hfalse := List.all_eq_true.mp hall c hmem
    rw [hw c hc] at hfalse
    cases hfalse
  obtain ⟨w, w', hw, hw', hs⟩ := exists_strip s
  conv_rhs => rw [hs]
  rw [closers, closers, occurrences_disjoint_append (by decide) (hspace hw),
    occurrences_append_of_disjoint (by decide) (hspace hw')]

end Tags

section Scan

theorem closers_body (body : List Char) : closers ('\n' :: (body ++ ['\n'])) = closers body := by
  have hfirst := closers_append_cons (c := '\n') (by decide) [] (body ++ ['\n'])
  have hlast := closers_append_cons (c := '\n') (by decide) body []
  rw [List.nil_append] at hfirst
  rw [hfirst, hlast]
  simp [closers, occurrences]

theorem closers_block (body : List Char) : closers (block body) = closers body + 1 := by
  have hopen := closers_append_cons (c := '\n') (by decide) toolCallOpen
    (body ++ '\n' :: toolCallClose)
  rw [block, hopen, closers_append_cons (by decide)]
  have hnone : closers toolCallOpen = 0 := by decide
  have hone : closers toolCallClose = 1 := by decide
  omega

theorem firstBlock_block (hlead : ¬ toolCallOpen <:+: lead) (hbody : closers body = 0)
    (after : List Char) : firstBlock (lead ++ (block body ++ after)) =
      some (lead, '\n' :: (body ++ ['\n']), after) := by
  have hno : ¬ toolCallClose <:+: '\n' :: (body ++ ['\n']) := by
    rw [← closers_eq_zero_iff, closers_body, hbody]
  have htext : block body ++ after =
      toolCallOpen ++ ('\n' :: (body ++ ['\n']) ++ (toolCallClose ++ after)) := by
    simp [block, List.append_assoc]
  simp only [firstBlock, htext, breakOn_tag unbordered_open hlead, Option.bind_some,
    breakOn_tag unbordered_close hno, Option.map_some]

theorem strip_body (h : Braced body) : strip ('\n' :: (body ++ ['\n'])) = body := by
  have hnewline : ∀ c ∈ ['\n'], isSpace c = true :=
    List.forall_mem_singleton.mpr rfl
  rw [← List.singleton_append, strip_spaces_append hnewline, strip_append_spaces hnewline,
    strip_of_braced h]

/-- One round of the loop at a block in whose body no tag is closed. -/
theorem scanBlocks_block (hlead : ¬ toolCallOpen <:+: lead) (hbraced : Braced body)
    (hbody : closers body = 0) (after : List Char) (calls : List ToolCall) (cleaned : List Char) :
    scanBlocks py (fuel + 1) (lead ++ (block body ++ after)) calls cleaned =
      (py.tryLoads body).bind fun obj =>
        match toolCallFromJsonObj py obj calls.length with
        | some call => scanBlocks py fuel after (calls ++ [call]) (cleaned ++ lead)
        | none => scanBlocks py fuel after calls
            (cleaned ++ lead ++ toolCallOpen ++ ('\n' :: (body ++ ['\n'])) ++ toolCallClose) := by
  rw [scanBlocks, firstBlock_block hlead hbody]
  exact congrArg (fun text => (py.tryLoads text).bind _) (strip_body hbraced)

theorem newline_no_open : ¬ toolCallOpen <:+: ['\n'] := by decide

theorem scanBlocks_nil (calls : List ToolCall) (cleaned : List Char) :
    scanBlocks py fuel [] calls cleaned = some (calls, cleaned) := by
  have hnone : firstBlock [] = none := by decide
  cases fuel <;> simp [scanBlocks, hnone]

/-- The scan of blocks each of whose bodies is accepted, wherever it stands. -/
theorem scanBlocks_of_accepts (hbodies : ∀ body ∈ bodies, Braced body ∧ closers body = 0)
    (hne : bodies ≠ []) (hlead : ¬ toolCallOpen <:+: lead) (hfuel : bodies.length ≤ fuel)
    (haccepts : ∀ body ∈ bodies, ∀ idx, ∃ call, call.index = idx ∧ Accepts py body call)
    (calls : List ToolCall) (cleaned : List Char) :
    ∃ more gaps, (∀ c ∈ gaps, isSpace c = true) ∧ bodies.Forall₂ (Accepts py) more ∧
      scanBlocks py fuel (blocksText lead bodies) calls cleaned =
        some (calls ++ more, cleaned ++ (lead ++ gaps)) := by
  induction bodies generalizing lead fuel calls cleaned with
  | nil => exact absurd rfl hne
  | cons body bodies ih =>
      obtain ⟨fuel, rfl⟩ : ∃ n, fuel = n + 1 := ⟨fuel - 1, by rw [List.length_cons] at hfuel; omega⟩
      obtain ⟨⟨hbraced, hbody⟩, hbodies⟩ := List.forall_mem_cons.mp hbodies
      obtain ⟨hhere, haccepts⟩ := List.forall_mem_cons.mp haccepts
      obtain ⟨call, hidx, hcall⟩ := hhere calls.length
      obtain ⟨obj, hobj, hjson⟩ := id hcall
      rw [hidx] at hjson
      rw [blocksText, scanBlocks_block hlead hbraced hbody, hobj]
      simp only [Option.bind_some, hjson]
      by_cases hlast : bodies = []
      · subst hlast
        refine ⟨[call], [], by simp, .cons hcall .nil, ?_⟩
        rw [blocksText, scanBlocks_nil, List.append_nil]
      · obtain ⟨more, gaps, hgaps, hmore, hscan⟩ := ih hbodies hlast newline_no_open
          (Nat.le_of_succ_le_succ hfuel) haccepts (calls ++ [call]) (cleaned ++ lead)
        refine ⟨call :: more, '\n' :: gaps, List.forall_mem_cons.mpr ⟨by decide, hgaps⟩,
          .cons hcall hmore, ?_⟩
        rw [hscan]
        simp [List.append_assoc]

/-- The scan of blocks finds at most as many calls; when it finds as many, each of
the bodies is accepted. -/
theorem accepts_of_scanBlocks (hbodies : ∀ body ∈ bodies, Braced body ∧ closers body = 0)
    (hlead : ¬ toolCallOpen <:+: lead) (hfuel : bodies.length ≤ fuel)
    (h : scanBlocks py fuel (blocksText lead bodies) calls cleaned = some (found, parts)) :
    ∃ more, found = calls ++ more ∧ more.length ≤ bodies.length ∧
      (more.length = bodies.length → bodies.Forall₂ (Accepts py) more) := by
  induction bodies generalizing lead fuel calls cleaned with
  | nil =>
      rw [blocksText, scanBlocks_nil] at h
      cases h
      exact ⟨[], by simp, le_rfl, fun _ => .nil⟩
  | cons body bodies ih =>
      obtain ⟨fuel, rfl⟩ : ∃ n, fuel = n + 1 := ⟨fuel - 1, by rw [List.length_cons] at hfuel; omega⟩
      obtain ⟨⟨hbraced, hbody⟩, hbodies⟩ := List.forall_mem_cons.mp hbodies
      rw [blocksText, scanBlocks_block hlead hbraced hbody] at h
      obtain ⟨obj, hobj, h⟩ := Option.bind_eq_some_iff.mp h
      have hfuel' : bodies.length ≤ fuel := by simpa using hfuel
      split at h
      · rename_i call hcall
        obtain ⟨more, rfl, hlen, hall⟩ := ih hbodies newline_no_open hfuel' h
        have hidx := (toolCallFromJsonObj_spec hcall).1
        refine ⟨call :: more, by simp, by simpa using hlen, fun hsame => ?_⟩
        exact .cons ⟨obj, hobj, hidx ▸ hcall⟩ (hall (by simpa using hsame))
      · obtain ⟨more, rfl, hlen, -⟩ := ih hbodies newline_no_open hfuel' h
        refine ⟨more, rfl, ?_, fun hsame => ?_⟩
        · rw [List.length_cons]
          omega
        · rw [List.length_cons] at hsame
          omega

/-- Each closing tag of a text ends the block of a call, or is left in the text. When
no call is found, all of the text is left. -/
theorem closers_le_of_scanBlocks
    (h : scanBlocks py fuel text calls cleaned = some (found, parts)) :
    ∃ more left, found = calls ++ more ∧ parts = cleaned ++ left ∧
      closers text ≤ more.length + closers left ∧ (more = [] → left = text) := by
  induction fuel generalizing text calls cleaned with
  | zero =>
      cases h
      exact ⟨[], text, by simp, rfl, by simp, fun _ => rfl⟩
  | succ fuel ih =>
      rw [scanBlocks] at h
      split at h
      · cases h
        exact ⟨[], text, by simp, rfl, by simp, fun _ => rfl⟩
      · rename_i before body after hblock
        obtain ⟨⟨before', inner⟩, hopen, hblock'⟩ := Option.bind_eq_some_iff.mp hblock
        obtain ⟨⟨body', after'⟩, hclose, heq⟩ := Option.map_eq_some_iff.mp hblock'
        cases heq
        have hcount : closers text ≤ closers before + 1 + closers after := by
          have htext : text = before ++ '<' :: (toolCallOpen.tail ++ inner) := eq_of_breakOn hopen
          have hfront : closers text = closers before + closers (toolCallOpen ++ inner) := by
            rw [htext]
            exact unbordered_close.occurrences_append before _
          have hinner : closers inner = 1 + closers after :=
            occurrences_of_breakOn unbordered_close hclose
          rw [hfront, closers_open_append, hinner]
          omega
        obtain ⟨obj, -, h⟩ := Option.bind_eq_some_iff.mp h
        split at h
        · rename_i call hcall
          obtain ⟨more, left, rfl, rfl, hle, -⟩ := ih h
          have hleft := closers_append_le before left
          refine ⟨call :: more, before ++ left, by simp, by simp, ?_, by simp⟩
          rw [List.length_cons]
          omega
        · obtain ⟨more, left, rfl, rfl, hle, hnone⟩ := ih h
          refine ⟨more, before ++ toolCallOpen ++ body ++ toolCallClose ++ left, rfl, by simp, ?_,
            fun hmore => ?_⟩
          · have hone : closers toolCallClose = 1 := by decide
            have hfront := closers_append_le before (toolCallOpen ++ body)
            have hclosed := closers_append_le (before ++ (toolCallOpen ++ body)) toolCallClose
            have hall := closers_append_le (before ++ (toolCallOpen ++ body) ++ toolCallClose) left
            simp only [List.append_assoc] at hfront hclosed hall ⊢
            omega
          · rw [hnone hmore, eq_of_firstBlock hblock]
            simp

end Scan

end JetsonVoice.Server.History
