/-
# The line breaks of a code block

What the two code-block patches and the restoration of the placeholders together make of
the line breaks in a `<pre>` region.

* `preParts_render`: the regions of a text are the regions of its tokens.
* `restored_eq`: the restored document has a space in the place of each spacer text, and
  the missing line breaks.
* `lineBreaks_kept_iff`: when a region keeps as many line breaks as it had.
-/
import Serica.CodeBlockLines
import Serica.RestoredText

namespace CodeBlockLines

open HtmlTokens HtmlReader TagScan CodeblockLinebreaks CodespanFixup

/-! ## The line breaks of a region -/

/-- The line breaks in the texts. -/
def lineBreaks (ps : List Piece) : ℕ := ps.count (.char '\n')

/-- The line ends that more follows. -/
def lineEndsFollowed : List Piece → ℕ
  | [] => 0
  | p :: ps => (if isLineStop p && moreNext ps then 1 else 0) + lineEndsFollowed ps

/-- The patch adds one line break for each line that goes on. -/
theorem lineBreaks_breakLines (ps : List Piece) :
    lineBreaks (breakLines ps) = lineBreaks ps + lineEndsFollowed ps := by
  induction ps with
  | nil => rfl
  | cons p ps ih =>
      rw [lineBreaks] at ih ⊢
      rw [breakLines, lineEndsFollowed, List.count_cons, List.count_append, ih, lineBreaks,
        lineBreaks, List.count_cons]
      split_ifs <;> simp <;> omega

/-- The line ends that more follows, token by token. -/
theorem lineEndsFollowed_parse (t : Token) (ts : List Token) :
    lineEndsFollowed (parse (t.render ++ render ts))
      = (if isLineEnd t && moreFollows ts then 1 else 0)
        + lineEndsFollowed (parse (render ts)) := by
  have hreads := (parse_token t).2
  rw [parse_cons]
  cases t with
  | text b =>
      have hline : isLineEnd (.text b) = false := rfl
      rw [show parse (Token.text b).render = _ from hreads, hline, Bool.false_and, if_neg (by simp),
        Nat.zero_add]
      induction b.chars with
      | nil => rfl
      | cons c cs ih =>
          rw [List.map_cons, List.cons_append, lineEndsFollowed, ih]
          exact Nat.zero_add _
  | startTag n attrs space selfClosing =>
      obtain ⟨tag, htag, -⟩ := hreads
      rw [htag]
      rfl
  | endTag n space =>
      rw [show parse (Token.endTag n space).render = _ from hreads, List.singleton_append,
        lineEndsFollowed, moreNext_parse]
      rfl

/-- A text made of spacers between a start tag and an end tag named `span`; `prev` is the
token before it. -/
def isSpacerAt (prev : Option Token) (t : Token) (ts : List Token) : Bool :=
  prev.any (·.isStart spanName) && isSpacerText t && ts.head?.any (·.isEnd spanName)

/-- The line breaks in the texts of the spacer spans. -/
def spacerBreaks : Option Token → List Token → ℕ
  | _, [] => 0
  | prev, t :: ts =>
      (if isSpacerAt prev t ts then t.render.count '\n' else 0) + spacerBreaks (some t) ts

/-- A text that is a space. -/
def blankText : Token := .text (.single ' ' rfl)

/-- The document with a space in the place of each spacer text. -/
def blankSpacers : Option Token → List Token → List Token
  | _, [] => []
  | prev, t :: ts =>
      (if isSpacerAt prev t ts then blankText else t) :: blankSpacers (some t) ts

/-- Spacers are texts. -/
theorem isSpacerAt_text {prev : Option Token} {t : Token} {ts : List Token}
    (h : isSpacerAt prev t ts = true) : ∃ b, t = .text b := by
  rw [isSpacerAt, Bool.and_eq_true, Bool.and_eq_true] at h
  cases t with
  | text b => exact ⟨b, rfl⟩
  | startTag => exact absurd h.1.2 (by simp [isSpacerText])
  | endTag => exact absurd h.1.2 (by simp [isSpacerText])

/-- There is no spacer but behind a `<span` tag. -/
theorem isSpacerAt_of_not_span {prev : Option Token}
    (h : prev.any (·.isStart spanName) = false) (t : Token) (ts : List Token) :
    isSpacerAt prev t ts = false := by
  rw [isSpacerAt, h]
  rfl

theorem isStart_span_of_lineEnd {t : Token} (h : isLineEnd t = true) :
    (some t).any (·.isStart spanName) = false := by
  cases t with
  | text b => rfl
  | startTag => exact absurd h (by simp [isLineEnd, Token.isEnd])
  | endTag => rfl

/-- What follows a line end is decided by tokens that stay. -/
theorem moreFollows_blankSpacers {t : Token} (h : isLineEnd t = true) (ts : List Token) :
    moreFollows (blankSpacers (some t) ts) = moreFollows ts := by
  cases ts with
  | nil => rfl
  | cons u us =>
      rw [blankSpacers, isSpacerAt_of_not_span (isStart_span_of_lineEnd h), if_neg (by simp)]
      cases u <;> rfl

/-- Placeholders make no difference to whether a line goes on. -/
theorem moreFollows_markSpacers {t : Token} (h : isLineEnd t = true) (ts : List Token) :
    moreFollows (markSpacers (some t) ts) = moreFollows ts := by
  cases ts with
  | nil => rfl
  | cons u us =>
      have hspacer := isSpacerAt_of_not_span (isStart_span_of_lineEnd h) u us
      rw [markSpacers, ← isSpacerAt, hspacer, if_neg (by simp)]
      cases u <;> rfl

/-- The line breaks of a token are counted apart from those of the rest. -/
theorem count_parse (t : Token) (cs : List Char) :
    lineBreaks (parse (t.render ++ cs)) = lineBreaks (parse t.render) + lineBreaks (parse cs) := by
  rw [parse_cons, lineBreaks, List.count_append]
  rfl

/-- A text has as many line breaks as line feeds. -/
theorem lineBreaks_text (b : Chars1 (· != '<')) :
    lineBreaks (parse (Token.text b).render) = b.chars.count '\n' := by
  have hreads : parse (Token.text b).render = b.chars.map .char := (parse_token (.text b)).2
  have hinj : Function.Injective Piece.char := fun c d h => Piece.char.inj h
  rw [hreads, lineBreaks, List.count_map_of_injective _ _ hinj]

/-- The spaces lose the line breaks of the spacer texts, and no others. -/
theorem lineBreaks_blankSpacers (prev : Option Token) (ts : List Token) :
    lineBreaks (parse (render (blankSpacers prev ts))) + spacerBreaks prev ts
      = lineBreaks (parse (render ts)) := by
  induction ts generalizing prev with
  | nil => rfl
  | cons t ts ih =>
      have hnext := ih (some t)
      rw [blankSpacers, spacerBreaks, render_cons, render_cons, count_parse, count_parse]
      cases hspacer : isSpacerAt prev t ts with
      | false =>
          rw [if_neg (by simp), if_neg (by simp)]
          omega
      | true =>
          obtain ⟨b, rfl⟩ := isSpacerAt_text hspacer
          have hblank : lineBreaks (parse blankText.render) = 0 := by decide
          have hcount : (Token.text b).render.count '\n' = b.chars.count '\n' := rfl
          rw [if_pos rfl, if_pos rfl, hblank, lineBreaks_text, hcount]
          omega

/-- The texts of spacers make no difference to whether lines go on. -/
theorem lineEndsFollowed_blankSpacers (prev : Option Token) (ts : List Token) :
    lineEndsFollowed (parse (render (blankSpacers prev ts)))
      = lineEndsFollowed (parse (render ts)) := by
  induction ts generalizing prev with
  | nil => rfl
  | cons t ts ih =>
      rw [blankSpacers, render_cons, render_cons, lineEndsFollowed_parse, lineEndsFollowed_parse,
        ih]
      cases hspacer : isSpacerAt prev t ts with
      | false =>
          rw [if_neg (show ¬ false = true by simp)]
          cases hline : isLineEnd t with
          | false => rfl
          | true => rw [moreFollows_blankSpacers hline]
      | true =>
          obtain ⟨b, rfl⟩ := isSpacerAt_text hspacer
          rfl

/-- The `<pre>` regions of a document, or what is left of them. -/
def tokenParts (r : Bool) (ts : List Token) : List (List Token) :=
  regions (·.isStart preName) (·.isEnd preName) r ts

/-- A document is read token by token. -/
theorem parse_render (ts : List Token) :
    parse (render ts) = ts.flatMap fun t => parse t.render := by
  induction ts with
  | nil => rfl
  | cons t ts ih => rw [render_cons, parse_cons, ih, List.flatMap_cons]

/-- The regions of the text are the regions of the tokens, read. -/
theorem preParts_render (r : Bool) (ts : List Token) :
    preParts r (parse (render ts)) = (tokenParts r ts).map fun us => parse (render us) := by
  have hmap : (fun us => parse (render us)) = List.flatMap fun t => parse t.render := by
    funext us
    exact parse_render us
  rw [hmap, parse_render]
  refine regions_flatMap _ _ _ _ (fun t => ?_) r ts
  have hreads := (parse_token t).2
  cases t with
  | text b =>
      refine Or.inr ⟨rfl, rfl, fun p hp => ?_⟩
      rw [show parse (Token.text b).render = _ from hreads] at hp
      obtain ⟨c, _, rfl⟩ := List.mem_map.mp hp
      exact ⟨rfl, rfl⟩
  | startTag n attrs space selfClosing =>
      obtain ⟨tag, htag, hname⟩ := hreads
      refine Or.inl ⟨.start tag, htag, ?_, rfl⟩
      rw [isStartOf, hname]
      rfl
  | endTag n space => exact Or.inl ⟨.stop n.chars, hreads, rfl, rfl⟩

/-- Only a `<span` tag in front makes a difference. -/
theorem blankSpacers_prev {prev : Option Token} (h : prev.any (·.isStart spanName) = false)
    (ts : List Token) : blankSpacers prev ts = blankSpacers none ts := by
  cases ts with
  | nil => rfl
  | cons t ts =>
      rw [blankSpacers, blankSpacers, isSpacerAt_of_not_span h, isSpacerAt_of_not_span rfl]

theorem isStart_pre_not_span {t : Token} (h : t.isStart preName = true) :
    (some t).any (·.isStart spanName) = false := by
  obtain ⟨n, attrs, space, selfClosing, rfl, hn⟩ := Token.isStart_eq_true h
  rw [Named, beq_iff_eq] at hn
  simp only [Option.any_some, Token.isStart, Named, hn]
  decide

/-- A spacer text is decided by the tokens of its region. -/
theorem isSpacerAt_takeWhile (prev : Option Token) (t : Token) (ts : List Token) :
    isSpacerAt prev t (ts.takeWhile fun u => !u.isEnd preName) = isSpacerAt prev t ts := by
  cases ts with
  | nil => rfl
  | cons u us =>
      cases hu : u.isEnd preName with
      | false =>
          rw [List.takeWhile_cons_of_pos (by simp [hu])]
          rfl
      | true =>
          obtain ⟨n, space, rfl, hn⟩ := Token.isEnd_eq_true hu
          have hspan : (Token.endTag n space).isEnd spanName = false := by
            rw [Named, beq_iff_eq] at hn
            simp only [Token.isEnd, Named, hn]
            decide
          rw [List.takeWhile_cons_of_neg (by simp [hu]), isSpacerAt, isSpacerAt, List.head?_cons,
            Option.any_some, hspan]
          rfl

/-- The regions of the document with blanks are the regions with blanks. -/
theorem tokenParts_blankSpacers (prev : Option Token) (ts : List Token) :
    tokenParts false (blankSpacers prev ts) = (tokenParts false ts).map (blankSpacers none)
      ∧ ∃ region more, tokenParts true ts = region :: more
        ∧ tokenParts true (blankSpacers prev ts)
          = blankSpacers prev region :: more.map (blankSpacers none) := by
  induction ts generalizing prev with
  | nil => exact ⟨rfl, [], [], rfl, rfl⟩
  | cons t ts ih =>
      obtain ⟨hfalse, region, more, hregion, htrue⟩ := ih (some t)
      -- A blank opens and closes nothing, no more than the text that it replaces.
      have hkind : (if isSpacerAt prev t ts then blankText else t).isStart preName
            = t.isStart preName
          ∧ (if isSpacerAt prev t ts then blankText else t).isEnd preName = t.isEnd preName := by
        cases hspacer : isSpacerAt prev t ts with
        | false => exact ⟨rfl, rfl⟩
        | true =>
            obtain ⟨b, rfl⟩ := isSpacerAt_text hspacer
            exact ⟨rfl, rfl⟩
      rw [tokenParts, tokenParts, tokenParts, tokenParts, blankSpacers, regions, regions, regions,
        regions, hkind.1, hkind.2]
      refine ⟨?_, ?_⟩
      · cases hopen : t.isStart preName with
        | false => exact hfalse
        | true =>
            rw [← tokenParts, ← tokenParts, hregion, htrue,
              blankSpacers_prev (isStart_pre_not_span hopen)]
            rfl
      · cases t.isEnd preName with
        | true =>
            rw [if_pos rfl, if_pos rfl, ← tokenParts, ← tokenParts]
            exact ⟨[], _, rfl, by rw [hfalse]; rfl⟩
        | false =>
            rw [if_neg (by simp), if_neg (by simp), ← tokenParts, ← tokenParts, hregion, htrue]
            refine ⟨t :: region, more, rfl, ?_⟩
            obtain ⟨more', hhead⟩ := regions_true (·.isStart preName) (·.isEnd preName) ts
            have hsame : region = ts.takeWhile fun u => !u.isEnd preName := by
              rw [tokenParts, hhead] at hregion
              exact (List.cons.inj hregion).1.symm
            rw [blankSpacers, hsame, isSpacerAt_takeWhile]
            rfl

/-! ## The restored document -/

theorem touching_eq_zero {cs : List Char} (h : cs.IsChain fun a b => touches a b = false) :
    touching cs = 0 := by
  induction cs with
  | nil => rfl
  | cons a cs ih =>
      cases cs with
      | nil => rfl
      | cons b cs =>
          obtain ⟨hab, htail⟩ := List.isChain_cons_cons.mp h
          rw [touching, hab, ih htail]
          rfl

/-- A line break after a `>` touches no placeholder. -/
theorem isChain_broken {xs cs : List Char} (h : Broken xs cs)
    (hcs : cs.IsChain fun a b => touches a b = false) :
    xs.IsChain (fun a b => touches a b = false) ∧ xs.head? = cs.head? := by
  have hgt : ∀ b, touches '>' b = false := by
    intro b
    simp [touches, whitespaceSentinel]
  have hbreak : ∀ b, touches '\n' b = false := by
    intro b
    simp [touches, whitespaceSentinel]
  induction h with
  | nil => exact ⟨.nil, rfl⟩
  | copied c _ ih =>
      rw [List.isChain_cons] at hcs
      obtain ⟨htail, hhead⟩ := ih hcs.2
      exact ⟨List.isChain_cons.mpr ⟨by rw [hhead]; exact hcs.1, htail⟩, rfl⟩
  | broken _ ih =>
      rw [List.isChain_cons] at hcs
      obtain ⟨htail, -⟩ := ih hcs.2
      refine ⟨List.isChain_cons_cons.mpr ⟨hgt _, ?_⟩, rfl⟩
      exact List.isChain_cons.mpr ⟨fun b _ => hbreak b, htail⟩

/-- A character that is no placeholder touches none but after a space. -/
theorem touches_of_not_mem {a b : Char} (ha : a ≠ whitespaceSentinel)
    (h : b = whitespaceSentinel → a ≠ ' ') : touches a b = false := by
  rw [touches, beq_eq_false_iff_ne.mpr ha, Bool.false_and, Bool.false_or, Bool.and_eq_false_iff]
  by_cases hb : b = whitespaceSentinel
  · exact Or.inl (beq_eq_false_iff_ne.mpr (h hb))
  · exact Or.inr (beq_eq_false_iff_ne.mpr hb)

theorem isChain_of_not_mem {cs : List Char} (h : whitespaceSentinel ∉ cs) :
    cs.IsChain fun a b => touches a b = false := by
  induction cs with
  | nil => exact .nil
  | cons a cs ih =>
      rw [List.mem_cons, not_or] at h
      refine List.isChain_cons.mpr ⟨fun b hb => ?_, ih h.2⟩
      refine touches_of_not_mem (Ne.symm h.1) fun hsent => ?_
      rw [hsent] at hb
      exact absurd (List.mem_of_mem_head? hb) h.2

/-- Tags end in `>`. -/
theorem getLast_tag {t : Token} (h : t.isText = false) : t.render.getLast? = some '>' := by
  cases t with
  | text => exact absurd h (by simp [Token.isText])
  | startTag n attrs space selfClosing =>
      simp [Token.render, List.getLast?_cons, List.getLast?_append]
  | endTag n space => simp [Token.render, List.getLast?_cons, List.getLast?_append]

theorem render_ne_nil (t : Token) : t.render ≠ [] := by
  cases t with
  | text b => exact b.ne_nil
  | startTag => exact List.cons_ne_nil _ _
  | endTag => exact List.cons_ne_nil _ _

/-- The end tag after a spacer text stays. -/
theorem head_markSpacers_of_end (t : Token) {ts : List Token}
    (hend : ts.head?.any (·.isEnd spanName) = true) :
    (render (markSpacers (some t) ts)).head? = some '<' := by
  cases ts with
  | nil => exact absurd hend (by simp)
  | cons u us =>
      obtain ⟨m, space, rfl, -⟩ := Token.isEnd_eq_true (by simpa using hend)
      have hstays : isSpacerAt (some t) (.endTag m space) us = false := by
        simp [isSpacerAt, isSpacerText]
      rw [markSpacers, ← isSpacerAt, hstays, if_neg (by simp), render_cons]
      rfl

/-- Every placeholder of a marked document stands between two tags. -/
theorem isChain_markSpacers (prev : Option Token) (ts : List Token)
    (hfree : whitespaceSentinel ∉ render ts) :
    (render (markSpacers prev ts)).IsChain (fun a b => touches a b = false)
      ∧ ((render (markSpacers prev ts)).head? = some whitespaceSentinel →
        prev.any (·.isStart spanName) = true) := by
  induction ts generalizing prev with
  | nil => exact ⟨.nil, fun h => absurd h (by simp [markSpacers])⟩
  | cons t ts ih =>
      rw [render_cons, List.mem_append, not_or] at hfree
      obtain ⟨htail, hhead⟩ := ih (some t) hfree.2
      rw [markSpacers, ← isSpacerAt, render_cons]
      cases hspacer : isSpacerAt prev t ts with
      | false =>
          rw [if_neg (by simp)]
          -- The token stays, and holds no placeholder of its own.
          refine ⟨(isChain_of_not_mem hfree.1).append htail fun a ha b hb => ?_, fun h => ?_⟩
          · have hmem := List.mem_of_mem_getLast? ha
            refine touches_of_not_mem (fun hsent => hfree.1 (hsent ▸ hmem)) fun hsent => ?_
            -- A placeholder follows only a start tag.
            have hstart : t.isStart spanName = true := hhead (by rw [hb, hsent])
            have htag : t.isText = false := by
              obtain ⟨_, _, _, _, rfl, _⟩ := Token.isStart_eq_true hstart
              rfl
            rw [getLast_tag htag, Option.mem_def, Option.some.injEq] at ha
            rw [← ha]
            decide
          · rw [List.head?_append_of_ne_nil _ (render_ne_nil t)] at h
            exact absurd (List.mem_of_mem_head? h) hfree.1
      | true =>
          rw [isSpacerAt, Bool.and_eq_true, Bool.and_eq_true] at hspacer
          obtain ⟨⟨hprev, -⟩, hend⟩ := hspacer
          rw [if_pos rfl]
          -- The text becomes a placeholder in front of an end tag.
          refine ⟨List.isChain_cons.mpr ⟨fun b hb => ?_, htail⟩, fun _ => hprev⟩
          obtain rfl : '<' = b := by simpa [head_markSpacers_of_end t hend] using hb
          decide

/-- A text without placeholders stays as it is. -/
theorem unmark_map {cs : List Char} (h : whitespaceSentinel ∉ cs) : cs.map unmark = cs := by
  refine (List.map_congr_left fun c hc => ?_).trans (List.map_id cs)
  have hne : c ≠ whitespaceSentinel := by
    rintro rfl
    exact h hc
  exact if_neg hne

/-- With the placeholders as spaces, the line breaks go where they would go in the document
with blanks. -/
theorem breakPass_unmark (r : Bool) (prev : Option Token) (ts : List Token)
    (hfree : whitespaceSentinel ∉ render ts) :
    (breakPass r (render (markSpacers prev ts))).map unmark
      = breakPass r (render (blankSpacers prev ts)) := by
  induction ts generalizing r prev with
  | nil => rw [markSpacers, blankSpacers, render_nil, breakPass, breaks.run_nil, List.map_nil]
  | cons t ts ih =>
      rw [render_cons, List.mem_append, not_or] at hfree
      rw [markSpacers, ← isSpacerAt, blankSpacers, render_cons, render_cons, breakPass_cons,
        breakPass_cons, List.map_append, List.map_append, ih _ _ hfree.2]
      cases hspacer : isSpacerAt prev t ts with
      | false =>
          have hbreak : ((if r = true ∧ isLineEnd t = true
                  ∧ moreFollows (markSpacers (some t) ts) = true then ['\n'] else []).map unmark)
              = if r = true ∧ isLineEnd t = true
                  ∧ moreFollows (blankSpacers (some t) ts) = true then ['\n'] else [] := by
            by_cases hline : isLineEnd t = true
            · rw [moreFollows_markSpacers hline, moreFollows_blankSpacers hline]
              split_ifs <;> rfl
            · rw [if_neg fun h => hline h.2.1, if_neg fun h => hline h.2.1, List.map_nil]
          simp only [Bool.false_eq_true, if_false]
          rw [unmark_map hfree.1, hbreak]
      | true =>
          obtain ⟨b, rfl⟩ := isSpacerAt_text hspacer
          have hline : isLineEnd sentinelText = false ∧ isLineEnd blankText = false := ⟨rfl, rfl⟩
          simp only [if_true, hline, Bool.false_eq_true, false_and, and_false, if_false]
          rfl

/-- **The restored document** is the document with blanks and its line breaks. -/
theorem restored_eq (ts : List Token) (hts : Separated ts)
    (hfree : whitespaceSentinel ∉ render ts) :
    ∃ spaced broken, preserveWhitespaceOnlySpans (String.ofList (render ts)) = some spaced
      ∧ preserveCodeBlockLineBreaks spaced = some broken
      ∧ restoreWhitespacePlaceholders broken
        = String.ofList (breakPass false (render (blankSpacers none ts))) := by
  refine ⟨_, _, preserveWhitespaceOnlySpans_render ts hts, preserveCodeBlockLineBreaks_eq _, ?_⟩
  have hchain := (isChain_markSpacers none ts hfree).1
  have htouch := touching_eq_zero (isChain_broken (breakPass_broken false _) hchain).1
  have hfollows : FollowsOutput none (breakPass false (render (markSpacers none ts))) [] := by
    simp [FollowsOutput]
  rw [restoreWhitespacePlaceholders, String.toList_ofList, String.toList_ofList,
    restoreLoop_map hfollows (by rw [touching_none]; exact htouch), List.nil_append,
    breakPass_unmark false none ts hfree]

/-- **When the line breaks of a region are kept**: exactly when its spacer spans hold no
more line breaks than it has line ends that more follows. -/
theorem lineBreaks_kept_iff (ts : List Token) (hts : Separated ts)
    (hfree : whitespaceSentinel ∉ render ts) :
    ∃ spaced broken, preserveWhitespaceOnlySpans (String.ofList (render ts)) = some spaced
      ∧ preserveCodeBlockLineBreaks spaced = some broken
      ∧ List.Forall₂ (fun source region => lineBreaks (parse (render source)) ≤ lineBreaks region
          ↔ spacerBreaks none source ≤ lineEndsFollowed (parse (render source)))
        (tokenParts false ts) (preRegions (restoreWhitespacePlaceholders broken).toList) := by
  obtain ⟨spaced, broken, hspaced, hbroken, hrestored⟩ := restored_eq ts hts hfree
  refine ⟨spaced, broken, hspaced, hbroken, ?_⟩
  rw [hrestored, String.toList_ofList, preRegions_breaks, preRegions, preParts_render,
    (tokenParts_blankSpacers none ts).1, List.map_map, List.map_map,
    List.forall₂_map_right_iff, List.forall₂_same]
  intro source _
  have hbreaks := lineBreaks_blankSpacers none source
  have hends := lineEndsFollowed_blankSpacers none source
  rw [Function.comp_apply, Function.comp_apply, lineBreaks_breakLines]
  omega

theorem lineBreaks_kept_list :
    ∃ spaced broken, preserveWhitespaceOnlySpans (String.ofList (render listDoc)) = some spaced
      ∧ preserveCodeBlockLineBreaks spaced = some broken
      ∧ List.Forall₂ (fun source region => lineBreaks (parse (render source)) ≤ lineBreaks region
          ↔ spacerBreaks none source ≤ lineEndsFollowed (parse (render source)))
        (tokenParts false listDoc)
        (preRegions (restoreWhitespacePlaceholders broken).toList) :=
  lineBreaks_kept_iff listDoc (by simp [listDoc, Separated, Token.isText]) (by decide)

theorem lineBreak_isText : ('\n' != '<') = true := rfl

/-- A line break in a span of its own. -/
def breakSpanDoc : List Token :=
  [.startTag preName_isName.toName [] .nil false, .startTag spanName_isName.toName [] .nil false,
    .text (.single '\n' lineBreak_isText), .endTag spanName_isName.toName .nil,
    .endTag preName_isName.toName .nil]

theorem lineBreak_lost : ¬ ∀ (ts : List Token) (spaced broken : String), Separated ts →
    whitespaceSentinel ∉ render ts →
    preserveWhitespaceOnlySpans (String.ofList (render ts)) = some spaced →
    preserveCodeBlockLineBreaks spaced = some broken →
    List.Forall₂ (fun source region => lineBreaks source ≤ lineBreaks region)
      (preRegions (render ts)) (preRegions (restoreWhitespacePlaceholders broken).toList) := by
  intro h
  have hseparated : Separated breakSpanDoc := by simp [breakSpanDoc, Separated, Token.isText]
  have hfree : whitespaceSentinel ∉ render breakSpanDoc := by decide
  obtain ⟨spaced, broken, hspaced, hbroken, hrestored⟩ := restored_eq _ hseparated hfree
  have hkept := h breakSpanDoc spaced broken hseparated hfree hspaced hbroken
  rw [hrestored, String.toList_ofList, preRegions_breaks] at hkept
  exact absurd hkept (by decide)

end CodeBlockLines
