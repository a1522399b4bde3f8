/-
# Keeping whitespace-only spans

`util/codespan_fixup.rs`: the text of every whitespace-only `<span>` becomes the
sentinel U+E000 before the extraction, and every sentinel becomes a space after it.

* `preserveWhitespaceOnlySpans` is the scanner, turn by turn, on byte indices.
* `spacerCut` is what a turn does to the remaining characters, and `spacerPass` the
  text it makes of a text.
* `preserveWhitespaceOnlySpans_eq`: the scanner never panics and computes `spacerPass`.
* `MeetsSpacer`: the texts that get a sentinel; the others stay as they are.
* `preserveWhitespaceOnlySpans_render`: on the tokens of a document, the scanner marks
  exactly the blank texts between a start tag and an end tag named `span`.
-/
import Serica.HtmlTokens

namespace CodespanFixup

open CopyLoop TagScan

/-! ## The source -/

/-- `WHITESPACE_SENTINEL`. -/
def whitespaceSentinel : Char := '\uE000'

/-- The bytes of `<span`. -/
def spanTag : List UInt8 := Utf8.encode ['<', 's', 'p', 'a', 'n']

/-- The bytes of `</span`. -/
def spanCloseTag : List UInt8 := Utf8.encode ['<', '/', 's', 'p', 'a', 'n']

def isSpanOpenAt (bytes : List UInt8) (i : ℕ) : Bool := openAt spanTag bytes i

def spanCloseLen (bytes : List UInt8) (j : ℕ) : Option ℕ := closeLen spanCloseTag bytes j

/-- The whitespace that a spacer span may hold. -/
def isSpacer (c : Char) : Bool := c == ' ' || c == '\t' || c == '\n' || c == '\r'

/-- `ws_only`: not empty, and whitespace only. -/
def wsOnly (between : String) : Bool := !between.isEmpty && between.toList.all isSpacer

/-- The turn at a `<`. -/
def spanTurn (html : String) (bytes : List UInt8) (_ : Unit) (i : ℕ) : Option (Turn Unit) :=
  if isSpanOpenAt bytes i then
    match findTagEnd bytes i with
    | some tagEnd => do
        let openTagEnd := tagEnd + 1
        let j := nextLt bytes openTagEnd
        -- A nested tag, an unclosed span, or other content: resume after the tag.
        let untouched : Option (Turn Unit) := do
          let openTag ← RustStr.slice html i openTagEnd
          some ⟨openTag, openTagEnd, ()⟩
        if j < bytes.length then
          match spanCloseLen bytes j with
          | some closeLen => do
              let between ← RustStr.slice html openTagEnd j
              if wsOnly between then
                let openTag ← RustStr.slice html i openTagEnd
                let closeTag ← RustStr.slice html j (j + closeLen)
                some ⟨openTag.push whitespaceSentinel ++ closeTag, j + closeLen, ()⟩
              else untouched
          | none => untouched
        else untouched
    | none => some ⟨"<", i + 1, ()⟩
  else some ⟨"<", i + 1, ()⟩

/-- `preserve_whitespace_only_spans`; `none` is a panic. -/
def preserveWhitespaceOnlySpans (html : String) : Option String :=
  copy (spanTurn html (RustStr.asBytes html)) () html

/-- `if out.ends_with(' ') { out.pop(); }`. -/
def popSpace (out : List Char) : List Char :=
  if out.getLast? = some ' ' then out.dropLast else out

/-- What the character `c` pushes: a sentinel is a space, in place of a space before it. -/
def pushRestored (out : List Char) (c : Char) : List Char :=
  if c = whitespaceSentinel then popSpace out ++ [' '] else out ++ [c]

/-- The loop of `restoreWhitespacePlaceholders`: the rest of the content, and the
output so far.  A space after a sentinel is skipped. -/
def restoreLoop : List Char → List Char → List Char
  | [], out => out
  | [c], out => pushRestored out c
  | c :: d :: chars, out =>
      if c = whitespaceSentinel ∧ d = ' ' then restoreLoop chars (pushRestored out c)
      else restoreLoop (d :: chars) (pushRestored out c)

/-- `restore_whitespace_placeholders`. -/
def restoreWhitespacePlaceholders (content : String) : String :=
  String.ofList (restoreLoop content.toList [])

/-! ## The turn on characters -/

/-- The text up to the next `<` is whitespace, and there is some. -/
def isBlank (cs : List Char) : Bool := !cs.isEmpty && cs.all isSpacer

/-- The spacer span that a text starts with: its opening tag, its closing tag, and
what follows. -/
def spacerSpan (cs : List Char) : Option (List Char × List Char × List Char) :=
  if tagOpen spanTag cs then
    match tagEnd false false cs with
    | some (openTag, rest) =>
        match closeTag spanCloseTag (rest.dropWhile (· != '<')) with
        | some (close, rest') =>
            if isBlank (rest.takeWhile (· != '<')) then some (openTag, close, rest') else none
        | none => none
    | none => none
  else none

/-- The turn on characters: a spacer span gets the sentinel; another `<span` tag is
copied, any other `<` too. -/
def spacerCut (_ : Unit) (cs : List Char) : Cut Unit :=
  match spacerSpan cs with
  | some (openTag, close, rest) => ⟨openTag ++ whitespaceSentinel :: close, rest, ()⟩
  | none =>
      match if tagOpen spanTag cs then tagEnd false false cs else none with
      | some (openTag, rest) => ⟨openTag, rest, ()⟩
      | none => ⟨['<'], cs.tail, ()⟩

/-- A spacer span makes up the start of its text. -/
theorem spacerSpan_eq_some {cs openTag close rest : List Char}
    (h : spacerSpan cs = some (openTag, close, rest)) :
    ∃ blank, cs = openTag ++ (blank ++ (close ++ rest)) ∧ openTag ≠ [] ∧ isBlank blank = true
      ∧ tagOpen spanTag cs = true
      ∧ tagEnd false false cs = some (openTag, blank ++ (close ++ rest))
      ∧ blank = (blank ++ (close ++ rest)).takeWhile (· != '<')
      ∧ closeTag spanCloseTag (close ++ rest) = some (close, rest) := by
  unfold spacerSpan at h
  split_ifs at h with hopen
  split at h
  · rename_i tag after hend
    split at h
    · rename_i close' rest' hclose
      split_ifs at h with hblank
      rw [Option.some.injEq, Prod.mk.injEq, Prod.mk.injEq] at h
      obtain ⟨rfl, rfl, rfl⟩ := h
      obtain ⟨hcs, hne⟩ := tagEnd_eq hend
      obtain ⟨hdrop, -⟩ := closeTag_eq hclose
      have hafter : after = after.takeWhile (· != '<') ++ (close' ++ rest') := by
        rw [← hdrop, List.takeWhile_append_dropWhile]
      refine ⟨after.takeWhile (· != '<'), ?_, hne, hblank, hopen, ?_, ?_, ?_⟩
      · rw [← hafter, hcs]
      · rw [← hafter, hend]
      · rw [← hafter]
      · rw [← hdrop, hclose]
    · exact absurd h (by simp)
  · exact absurd h (by simp)

/-- The scanner on characters. -/
def spacers : Rewriter Unit where
  cut := spacerCut
  shorter := by
    intro _ cs
    unfold spacerCut
    split
    · rename_i openTag close rest h
      obtain ⟨blank, hcs, hne, -⟩ := spacerSpan_eq_some h
      rw [← List.append_assoc blank, ← List.append_assoc] at hcs
      exact rest_length_le hcs (by simp [hne])
    · split
      · rename_i openTag rest h
        split_ifs at h
        obtain ⟨hcs, hne⟩ := tagEnd_eq h
        exact rest_length_le hcs hne
      · exact le_rfl

/-- The text that the scanner makes of a text. -/
def spacerPass (cs : List Char) : List Char := spacers.run () cs

/-! ## The scanner computes `spacerPass` -/

theorem spanTag_ascii : AsciiTag spanTag := asciiTag_encode (by simp)

theorem spanCloseTag_ascii : AsciiTag spanCloseTag := asciiTag_encode (by simp)

theorem isBlank_toList (cs : List Char) : wsOnly (String.ofList cs) = isBlank cs := by
  rw [wsOnly, isBlank, String.toList_ofList]
  congr 2
  cases cs with
  | nil => rfl
  | cons c cs => simp

theorem spanTurn_implements (html : String) :
    Implements (spanTurn html (RustStr.asBytes html)) spacers html := by
  intro s i cs hb
  have hat := hb.at_asBytes
  -- A `<` that opens no `<span` tag is copied alone.
  have hlone : Boundary html (i + 1) cs := hb.afterLt
  show ∃ j, spanTurn html (RustStr.asBytes html) s i
      = some ⟨String.ofList (spacerCut s ('<' :: cs)).pushed, j, _⟩
    ∧ Boundary html j (spacerCut s ('<' :: cs)).rest
  unfold spanTurn spacerCut spacerSpan
  rw [isSpanOpenAt, openAt_encode spanTag_ascii hat, findTagEnd_encode hat]
  cases hopen : tagOpen spanTag ('<' :: cs) with
  | false => exact ⟨i + 1, rfl, hlone⟩
  | true =>
      cases hend : tagEnd false false ('<' :: cs) with
      | none => exact ⟨i + 1, rfl, hlone⟩
      | some p =>
          obtain ⟨openTag, rest⟩ := p
          obtain ⟨hcs, hne⟩ := tagEnd_eq hend
          rw [hcs] at hb
          -- Every index of the turn is a boundary: after the tag, at the next `<`, after the
          -- closing tag.
          have hidx := sub_one_add_one i hne
          have hafter := hb.advance
          have hnext := nextLt_encode hafter.at_asBytes
          have huntouched : (do
              let t ← RustStr.slice html i (i + (Utf8.encode openTag).length)
              some (⟨t, i + (Utf8.encode openTag).length, ()⟩ : Turn Unit))
            = some ⟨String.ofList openTag, i + (Utf8.encode openTag).length, ()⟩ := by
            rw [hb.slice_eq]
            rfl
          have hsplit := List.takeWhile_append_dropWhile (p := (· != '<')) (l := rest)
          have hgap : Boundary html (i + (Utf8.encode openTag).length)
              (rest.takeWhile (· != '<') ++ rest.dropWhile (· != '<')) := by rwa [hsplit]
          have hclosePos := hgap.advance
          simp only [if_true, Option.map_some, hidx, hnext, huntouched, spanCloseLen,
            closeLen_encode spanCloseTag_ascii hclosePos.at_asBytes]
          cases hclose : closeTag spanCloseTag (rest.dropWhile (· != '<')) with
          | none =>
              refine ⟨_, ?_, hafter⟩
              split_ifs <;> rfl
          | some q =>
              obtain ⟨close, rest'⟩ := q
              obtain ⟨hdrop, hclosene⟩ := closeTag_eq hclose
              have hlt := hclosePos.at_asBytes.lt_length_iff.mpr (by
                rw [hdrop]
                exact List.append_ne_nil_of_left_ne_nil hclosene _)
              rw [hdrop] at hclosePos
              rw [if_pos hlt]
              simp only [Option.map_some, hgap.slice_eq, hb.slice_eq, hclosePos.slice_eq,
                Option.bind_eq_bind, Option.bind_some, isBlank_toList]
              cases hblank : isBlank (rest.takeWhile (· != '<')) with
              | false => exact ⟨_, rfl, hafter⟩
              | true =>
                  refine ⟨_, ?_, hclosePos.advance⟩
                  simp only [if_true, String.ofList_append, String.ofList_cons,
                    String.push_eq_append, String.append_assoc]

/-- **The scanner computes `spacerPass`**; in particular it never panics. -/
theorem preserveWhitespaceOnlySpans_eq (html : String) :
    preserveWhitespaceOnlySpans html = some (String.ofList (spacerPass html.toList)) :=
  copy_eq (spanTurn_implements html) ()

/-! ## Where the sentinel comes from and where it goes -/

/-- The scanner, going left to right, comes to a spacer span. -/
inductive MeetsSpacer : List Char → Prop
  | here {cs : List Char} (h : (spacerSpan ('<' :: cs)).isSome) : MeetsSpacer ('<' :: cs)
  | copied {c : Char} {cs : List Char} (hc : c ≠ '<') (h : MeetsSpacer cs) : MeetsSpacer (c :: cs)
  | passed {cs : List Char} (hnone : spacerSpan ('<' :: cs) = none)
      (h : MeetsSpacer (spacerCut () ('<' :: cs)).rest) : MeetsSpacer ('<' :: cs)

/-- A turn that comes to no spacer span copies what it takes. -/
theorem spacerCut_none {cs : List Char} (h : spacerSpan ('<' :: cs) = none) :
    '<' :: cs = (spacerCut () ('<' :: cs)).pushed ++ (spacerCut () ('<' :: cs)).rest := by
  unfold spacerCut
  rw [h]
  simp only []
  split
  · rename_i openTag rest heq
    split_ifs at heq
    exact (tagEnd_eq heq).1
  · rfl

/-- Without a spacer span the text stays as it is. -/
theorem spacerPass_eq_self {cs : List Char} (h : ¬ MeetsSpacer cs) : spacerPass cs = cs := by
  unfold spacerPass
  induction hlen : cs.length using Nat.strong_induction_on generalizing cs with
  | _ len ih =>
    cases cs with
    | nil => exact spacers.run_nil ()
    | cons c cs =>
        rw [List.length_cons] at hlen
        by_cases hc : c = '<'
        · subst hc
          cases hspan : spacerSpan ('<' :: cs) with
          | some p => exact absurd (.here (by rw [hspan]; rfl)) h
          | none =>
              -- The turn takes at least the `<`, so the induction is on the length.
              have hshort : (spacerCut () ('<' :: cs)).rest.length ≤ cs.length :=
                spacers.shorter () cs
              have hrest : ¬ MeetsSpacer (spacerCut () ('<' :: cs)).rest :=
                fun hmeets => h (.passed hspan hmeets)
              rw [spacers.run_lt]
              show (spacerCut () ('<' :: cs)).pushed
                ++ spacers.run () (spacerCut () ('<' :: cs)).rest = _
              rw [ih _ (by omega) hrest rfl, ← spacerCut_none hspan]
        · have hrest : ¬ MeetsSpacer cs := fun hmeets => h (.copied hc hmeets)
          rw [spacers.run_cons () hc, ih cs.length (by omega) hrest rfl]

/-- A spacer span leaves its sentinel in the text. -/
theorem sentinel_mem_spacerPass {cs : List Char} (h : MeetsSpacer cs) :
    whitespaceSentinel ∈ spacerPass cs := by
  unfold spacerPass
  induction h with
  | here h =>
      obtain ⟨p, hp⟩ := Option.isSome_iff_exists.mp h
      rw [spacers.run_lt]
      apply List.mem_append_left
      show whitespaceSentinel ∈ (spacerCut () _).pushed
      unfold spacerCut
      rw [hp]
      simp
  | @copied c cs hc _ ih =>
      rw [spacers.run_cons () hc]
      exact List.mem_cons_of_mem c ih
  | passed _ _ ih =>
      rw [spacers.run_lt]
      exact List.mem_append_right _ ih

/-- **No sentinel survives the restoration**: the output keeps none when it starts with
none. -/
theorem sentinel_not_mem_restoreLoop (cs out : List Char) (hout : whitespaceSentinel ∉ out) :
    whitespaceSentinel ∉ restoreLoop cs out := by
  have hpush : ∀ (c : Char) (out : List Char), whitespaceSentinel ∉ out →
      whitespaceSentinel ∉ pushRestored out c := by
    intro c out hout
    have hspace : whitespaceSentinel ≠ ' ' := by decide
    unfold pushRestored popSpace
    split_ifs with hc hpop
    · simpa [hspace] using fun h => hout (List.mem_of_mem_dropLast h)
    · simpa [hspace] using hout
    · simpa [hout] using fun h => hc h.symm
  induction cs, out using restoreLoop.induct with
  | case1 out => rwa [restoreLoop]
  | case2 c out => rw [restoreLoop]; exact hpush c out hout
  | case3 c d chars out h ih =>
      rw [restoreLoop, if_pos h]
      exact ih (hpush c out hout)
  | case4 c d chars out h ih =>
      rw [restoreLoop, if_neg h]
      exact ih (hpush c out hout)

theorem sentinel_not_mem_restore (content : String) :
    whitespaceSentinel ∉ (restoreWhitespacePlaceholders content).toList := by
  rw [restoreWhitespacePlaceholders, String.toList_ofList]
  exact sentinel_not_mem_restoreLoop _ _ (by simp)

/-! ## Well-formed documents -/

open HtmlTokens

/-- The name `span`. -/
def spanName : List Char := ['s', 'p', 'a', 'n']

/-- A text made only of space, tab, LF and CR. -/
def isSpacerText : Token → Bool
  | .text b => b.chars.all isSpacer
  | _ => false

/-- The text U+E000. -/
def sentinelText : Token := .text ⟨⟨[whitespaceSentinel], by simp [whitespaceSentinel]⟩, by simp⟩

/-- The document with U+E000 in the place of each text that is made only of space, tab,
LF and CR and stands between a start tag and an end tag named `span`.  `prev` is the
token before the list. -/
def markSpacers : Option Token → List Token → List Token
  | _, [] => []
  | prev, t :: ts =>
      (if prev.any (·.isStart spanName) && isSpacerText t && ts.head?.any (·.isEnd spanName)
        then sentinelText else t) :: markSpacers (some t) ts

/-- A spacer text comes next, and an end tag named `span` after it. -/
def spacerAhead (ts : List Token) : Bool :=
  ts.head?.any isSpacerText && ts.tail.head?.any (·.isEnd spanName)

theorem spacerAhead_eq_true {ts : List Token} (h : spacerAhead ts = true) :
    ∃ b m space us, ts = .text b :: .endTag m space :: us ∧ isSpacerText (.text b) = true
      ∧ Named spanName m = true := by
  rw [spacerAhead, Bool.and_eq_true] at h
  obtain ⟨hhead, hnext⟩ := h
  obtain ⟨t, ts, rfl⟩ : ∃ t us, ts = t :: us := by
    cases ts with
    | nil => exact absurd hhead (by simp)
    | cons t us => exact ⟨t, us, rfl⟩
  obtain ⟨u, us, rfl⟩ : ∃ u us, ts = u :: us := by
    cases ts with
    | nil => exact absurd hnext (by simp)
    | cons u us => exact ⟨u, us, rfl⟩
  obtain ⟨m, space, rfl, hm⟩ := Token.isEnd_eq_true (by simpa using hnext)
  cases t with
  | text b => exact ⟨b, m, space, us, rfl, by simpa using hhead, hm⟩
  | startTag => exact absurd hhead (by simp [isSpacerText])
  | endTag => exact absurd hhead (by simp [isSpacerText])

theorem spanName_isName : IsName spanName :=
  ⟨by simp [spanName], by simp [spanName, isNameChar]⟩

/-- The token before a list matters only in front of a spacer text. -/
theorem markSpacers_prev {prev : Option Token} {ts : List Token}
    (h : (prev.any (·.isStart spanName) && spacerAhead ts) = false) :
    markSpacers prev ts = markSpacers none ts := by
  cases ts with
  | nil => rfl
  | cons t ts =>
      have hmark : (prev.any (·.isStart spanName) && isSpacerText t
          && ts.head?.any (·.isEnd spanName)) = false := by
        rw [Bool.and_assoc]
        exact h
      rw [markSpacers, markSpacers, hmark, Option.any_none, Bool.false_and, Bool.false_and]

theorem tagOpen_spanStart (n : Name) (attrs : List (Chars1 isSpace × Attr))
    (space : Chars isSpace) (selfClosing : Bool) (rest : List Char) :
    tagOpen spanTag ((Token.startTag n attrs space selfClosing).render ++ rest)
      = Named spanName n :=
  tagOpen_start spanName_isName n attrs space selfClosing rest

theorem closeTag_spanEnd (n : Name) (space : Chars isSpace) (rest : List Char) :
    closeTag spanCloseTag ((Token.endTag n space).render ++ rest)
      = if Named spanName n then some ((Token.endTag n space).render, rest) else none :=
  closeTag_end spanName_isName n space rest

theorem closeTag_spanStart (n : Name) (attrs : List (Chars1 isSpace × Attr))
    (space : Chars isSpace) (selfClosing : Bool) (rest : List Char) :
    closeTag spanCloseTag ((Token.startTag n attrs space selfClosing).render ++ rest) = none :=
  closeTag_start n attrs space selfClosing rest

theorem tagOpen_span_of_not_start {t : Token} (ht : t.isText = false)
    (hstart : t.isStart spanName = false) (rest : List Char) :
    tagOpen spanTag (t.render ++ rest) = false := by
  cases t with
  | text => exact absurd ht (by simp [Token.isText])
  | startTag n attrs space selfClosing =>
      exact (tagOpen_spanStart n attrs space selfClosing rest).trans hstart
  | endTag n space => exact tagOpen_end spanName_isName n space rest

/-- Any other tag is copied. -/
theorem spacerCut_other {t : Token} (ht : t.isText = false) (hstart : t.isStart spanName = false)
    (rest : List Char) : spacerCut () (t.render ++ rest) = ⟨['<'], t.inner ++ rest, ()⟩ := by
  unfold spacerCut spacerSpan
  rw [tagOpen_span_of_not_start ht hstart]
  simp only [Bool.false_eq_true, if_false]
  rw [render_tag ht]
  rfl

section SpanStart

variable {n : Name} {attrs : List (Chars1 isSpace × Attr)} {space : Chars isSpace}
  {selfClosing : Bool}

/-- A start tag, a spacer text and an end tag named `span` are a spacer span. -/
theorem spacerSpan_start (hn : Named spanName n = true) {b : Chars1 (· != '<')}
    (hb : isSpacerText (.text b) = true) {m : Name} (hm : Named spanName m = true)
    (mspace : Chars isSpace) (ts : List Token) :
    spacerSpan ((Token.startTag n attrs space selfClosing).render
        ++ render (.text b :: .endTag m mspace :: ts))
      = some ((Token.startTag n attrs space selfClosing).render,
          (Token.endTag m mspace).render, render ts) := by
  have hnext : (Token.endTag m mspace :: ts).head?.all (!·.isText) = true := rfl
  obtain ⟨htake, hdrop⟩ := render_takeWhile_text b hnext
  have hblank : isBlank b.chars = true := by
    rw [isBlank, Bool.and_eq_true]
    exact ⟨by simpa using b.ne_nil, hb⟩
  have hrender : render (.text b :: .endTag m mspace :: ts)
      = b.chars ++ render (.endTag m mspace :: ts) := rfl
  unfold spacerSpan
  rw [tagOpen_spanStart, if_pos hn, tagEnd_start, hrender]
  simp only [htake, hdrop, hblank, if_true]
  rw [render_cons, closeTag_spanEnd, if_pos hm]

/-- Nothing else after the start tag makes a spacer span. -/
theorem spacerSpan_start_none {ts : List Token} (hts : Separated ts)
    (hahead : spacerAhead ts = false) :
    spacerSpan ((Token.startTag n attrs space selfClosing).render ++ render ts) = none := by
  have hnil : closeTag spanCloseTag [] = none := closeTag_nil
  unfold spacerSpan
  split_ifs
  · rw [tagEnd_start]
    simp only []
    cases ts with
    | nil => rw [render_nil, List.dropWhile_nil, hnil]
    | cons t ts =>
        cases ht : t.isText with
        | false =>
            -- A tag follows at once: the text between is empty.
            have htake : (render (t :: ts)).takeWhile (· != '<') = [] := by
              rw [render_cons, render_tag ht]
              exact List.takeWhile_cons_of_neg (by simp)
            rw [htake]
            cases closeTag spanCloseTag ((render (t :: ts)).dropWhile (· != '<')) <;> rfl
        | true =>
            obtain ⟨b, rfl⟩ : ∃ b, t = .text b := by
              cases t with
              | text b => exact ⟨b, rfl⟩
              | startTag => exact absurd ht (by simp [Token.isText])
              | endTag => exact absurd ht (by simp [Token.isText])
            -- No text follows the text, so the next `<` starts the next tag.
            have hnext : ts.head?.all (!·.isText) = true := by
              cases ts with
              | nil => rfl
              | cons u ts =>
                  have := (List.isChain_cons_cons.mp hts).1
                  simpa [ht] using this
            obtain ⟨htake, hdrop⟩ := render_takeWhile_text b hnext
            rw [render_cons, show (Token.text b).render = b.chars from rfl, htake, hdrop]
            rw [spacerAhead, List.head?_cons, List.tail_cons, Option.any_some] at hahead
            cases ts with
            | nil => rw [render_nil, hnil]
            | cons u ts =>
                cases u with
                | text => exact absurd hnext (by simp [Token.isText])
                | startTag n' attrs' space' selfClosing' => rw [render_cons, closeTag_spanStart]
                | endTag n' space' =>
                    rw [render_cons, closeTag_spanEnd]
                    rw [List.head?_cons, Option.any_some] at hahead
                    cases hn' : Named spanName n' with
                    | false => rfl
                    | true =>
                        have hend : (Token.endTag n' space').isEnd spanName = true := hn'
                        have hblank : isBlank b.chars = false := by
                          rw [hend, Bool.and_true] at hahead
                          rw [isBlank, Bool.and_eq_false_iff]
                          exact Or.inr hahead
                        rw [if_pos rfl, hblank]
                        rfl
  · rfl

end SpanStart

/-- A token that starts no spacer span is copied. -/
theorem spacerPass_cons {t : Token} {ts : List Token} (hts : Separated ts)
    (h : (t.isStart spanName && spacerAhead ts) = false) :
    spacerPass (t.render ++ render ts) = t.render ++ spacerPass (render ts) := by
  unfold spacerPass
  cases t with
  | text b => exact run_text spacers () b _
  | endTag n space =>
      exact run_tag spacers () rfl (spacerCut_other (t := .endTag n space) rfl rfl _)
  | startTag n attrs space selfClosing =>
      cases hn : Named spanName n with
      | false =>
          exact run_tag spacers () rfl
            (spacerCut_other (t := .startTag n attrs space selfClosing) rfl hn _)
      | true =>
          have hahead : spacerAhead ts = false := by
            rw [show (Token.startTag n attrs space selfClosing).isStart spanName = true from hn]
              at h
            simpa using h
          have hcut : spacerCut () ((Token.startTag n attrs space selfClosing).render ++ render ts)
              = ⟨(Token.startTag n attrs space selfClosing).render, render ts, ()⟩ := by
            unfold spacerCut
            rw [spacerSpan_start_none hts hahead, tagOpen_spanStart, hn, if_pos rfl, tagEnd_start]
          exact run_cut spacers () (t := .startTag n attrs space selfClosing) rfl hcut

theorem spacerPass_spacer {n : Name} {attrs : List (Chars1 isSpace × Attr)}
    {space : Chars isSpace} {selfClosing : Bool} (hn : Named spanName n = true)
    {b : Chars1 (· != '<')} (hb : isSpacerText (.text b) = true) {m : Name}
    (hm : Named spanName m = true) (mspace : Chars isSpace) (ts : List Token) :
    spacerPass (render (.startTag n attrs space selfClosing :: .text b :: .endTag m mspace :: ts))
      = render [.startTag n attrs space selfClosing, sentinelText, .endTag m mspace]
        ++ spacerPass (render ts) := by
  have hspan : spacerSpan ((Token.startTag n attrs space selfClosing).render
        ++ render (.text b :: .endTag m mspace :: ts))
      = some ((Token.startTag n attrs space selfClosing).render,
          (Token.endTag m mspace).render, render ts) :=
    spacerSpan_start hn hb hm mspace ts
  have hcut : spacerCut () (render (.startTag n attrs space selfClosing :: .text b
        :: .endTag m mspace :: ts))
      = ⟨render [.startTag n attrs space selfClosing, sentinelText, .endTag m mspace],
          render ts, ()⟩ := by
    unfold spacerCut
    rw [render_cons, hspan]
    simp [sentinelText, Token.render]
  exact run_cut spacers () (t := .startTag n attrs space selfClosing) rfl hcut

/-- The scanner on characters marks the spacer texts. -/
theorem spacerPass_render (ts : List Token) (hts : Separated ts) :
    spacerPass (render ts) = render (markSpacers none ts) := by
  induction hlen : ts.length using Nat.strong_induction_on generalizing ts with
  | _ len ih =>
    cases ts with
    | nil => exact spacers.run_nil ()
    | cons t ts =>
        rw [List.length_cons] at hlen
        have hmark : markSpacers none (t :: ts) = t :: markSpacers (some t) ts := by
          rw [markSpacers, Option.any_none, Bool.false_and, Bool.false_and]
          rfl
        rw [hmark, render_cons, render_cons]
        cases hspan : t.isStart spanName && spacerAhead ts with
        | false =>
            have htail : Separated ts := hts.tail
            have hprev : markSpacers (some t) ts = markSpacers none ts := markSpacers_prev hspan
            rw [spacerPass_cons htail hspan, ih ts.length (by omega) ts htail rfl, hprev]
        | true =>
            -- A spacer span is passed in one turn, three tokens at once.
            rw [Bool.and_eq_true] at hspan
            obtain ⟨n, attrs, space, selfClosing, rfl, hn⟩ := Token.isStart_eq_true hspan.1
            obtain ⟨b, m, mspace, us, rfl, hb, hm⟩ := spacerAhead_eq_true hspan.2
            have htail : Separated us := hts.tail.tail.tail
            simp only [List.length_cons] at hlen
            have hstart : (Token.startTag n attrs space selfClosing).isStart spanName = true := hn
            have hend : (Token.endTag m mspace).isEnd spanName = true := hm
            rw [← render_cons, spacerPass_spacer hn hb hm, ih us.length (by omega) us htail rfl]
            have hafter : markSpacers (some (.endTag m mspace)) us = markSpacers none us :=
              markSpacers_prev rfl
            have htext : (Token.text b).isStart spanName = false := rfl
            simp [markSpacers, hstart, hb, hend, hafter, htext]

/-- **Exactness**: on every well-formed document the scanner puts U+E000 in the place of
the spacer texts, and leaves every other token as it is. -/
theorem preserveWhitespaceOnlySpans_render (ts : List Token) (hts : Separated ts) :
    preserveWhitespaceOnlySpans (String.ofList (render ts))
      = some (String.ofList (render (markSpacers none ts))) := by
  rw [preserveWhitespaceOnlySpans_eq, String.toList_ofList, spacerPass_render ts hts]

theorem preserveWhitespaceOnlySpans_render_spacer :
    preserveWhitespaceOnlySpans "<SPAN> </span>" = some "<SPAN>\uE000</span>" := by
  let upper : Name := ⟨⟨['S', 'P', 'A', 'N'], by simp [isNameChar]⟩, by simp⟩
  let lower : Name := ⟨⟨spanName, spanName_isName.2⟩, spanName_isName.1⟩
  let doc : List Token :=
    [.startTag upper [] ⟨[], by simp⟩ false, .text ⟨⟨[' '], by simp⟩, by simp⟩,
      .endTag lower ⟨[], by simp⟩]
  exact preserveWhitespaceOnlySpans_render doc (by simp [doc, Separated, Token.isText])

end CodespanFixup
