/-
# Attributes and the code-block patches

The patches look for tags in the text, and a quoted attribute value may hold what looks
like one.

* `Marker` is a patch that puts a mark behind some of the tags that it comes to, in place
  of the text there or in front of it.
* `startTags_run_iff`: it leaves every start tag as it is exactly when no mark lands in a
  quoted value (`MarksValue`).
* `Markup` are the documents whose quoted values hold anything but their quote, and
  `startTags_render` what a reader makes of one.
* `SpacerInValue` and `BreakInValue` say of a text what the patches would find in its quoted
  values, and `startTags_kept_iff` is about the two patches on such a document.
* `startTags_kept_of_not_shown`: it is enough that no quoted value shows an end tag.
-/
import Serica.CodeBlockLines
import Serica.PatchLaws

namespace AttributeSafety

open HtmlReader TagScan CopyLoop

/-! ## Patches that put marks behind tags -/

/-- A character that ends neither a text nor a quoted value. -/
def Plain (c : Char) : Prop := c ≠ '<' ∧ ∀ q : Quote, c ≠ q.char

/-- A patch that copies what it comes to, but for a mark after the tag at some of its
turns.  The mark takes the place of a plain text without it, which may be empty. -/
structure Marker (σ : Type) extends Rewriter σ where
  mark : Char
  /-- The tag in front of the mark, at the turns that put one. -/
  site : σ → List Char → Option (List Char)
  plain : Plain mark
  copies : ∀ s cs, site s ('<' :: cs) = none →
    '<' :: cs = (cut s ('<' :: cs)).pushed ++ (cut s ('<' :: cs)).rest
  marks : ∀ s cs tag, site s ('<' :: cs) = some tag → ∃ front old post,
    tag = front ++ ['>'] ∧ '<' :: cs = tag ++ (old ++ post) ++ (cut s ('<' :: cs)).rest
      ∧ (cut s ('<' :: cs)).pushed = tag ++ mark :: post
      ∧ (∀ c ∈ old, Plain c) ∧ mark ∉ old

/-- The start tags among the pieces. -/
def startTagsOf (ps : List Piece) : List StartTag :=
  ps.filterMap fun
    | .start tag => some tag
    | _ => none

/-- The start tags of a text. -/
def startTags (cs : List Char) : List StartTag := startTagsOf (parse cs)

theorem startTagsOf_append (ps qs : List Piece) :
    startTagsOf (ps ++ qs) = startTagsOf ps ++ startTagsOf qs := List.filterMap_append

theorem flatMap_values (ps : List Piece) :
    ps.flatMap Piece.values = (startTagsOf ps).flatMap StartTag.values := by
  induction ps with
  | nil => rfl
  | cons p ps ih => cases p <;> simp [ih, startTagsOf, Piece.values]

/-- A plain text outside of the values. -/
theorem text_plain {xs : List Char} (h : ∀ c ∈ xs, Plain c) :
    after .text xs = .text ∧ startTagsOf (pieces .text xs) = [] ∧ valueChars .text xs = [] := by
  obtain ⟨hafter, hpieces⟩ := read_text fun c hc => (h c hc).1
  have htags : startTagsOf (pieces .text xs) = [] := by
    rw [hpieces, startTagsOf, List.filterMap_map, List.filterMap_eq_nil_iff]
    exact fun c _ => rfl
  have hvalues := values_pieces .text xs
  rw [flatMap_values, htags, hafter] at hvalues
  exact ⟨hafter, htags, hvalues.symm⟩

/-- A plain text inside a quoted value. -/
theorem quoted_plain {s : State} (hs : s.isQuoted = true) {xs : List Char}
    (h : ∀ c ∈ xs, Plain c) : (after s xs).erase = s.erase ∧ valueChars s xs = xs := by
  induction xs generalizing s with
  | nil => exact ⟨rfl, rfl⟩
  | cons c xs ih =>
      cases s with
      | quoted q tag a v =>
          have hne : c ≠ q.char := (h c List.mem_cons_self).2 q
          have hstep : (State.quoted q tag a v).step c = (.quoted q tag a (v ++ [c]), []) :=
            if_neg hne
          have htakes : (State.quoted q tag a v).takes c = [c] := if_neg hne
          obtain ⟨hafter, hvalues⟩ := ih (s := .quoted q tag a (v ++ [c])) rfl
            fun c' h' => h c' (List.mem_cons_of_mem c h')
          rw [after_cons, valueChars, hstep, htakes, hafter, hvalues]
          exact ⟨rfl, rfl⟩
      | _ => exact absurd hs (by simp [State.isQuoted])

namespace Marker

variable {σ : Type} (M : Marker σ)

/-- The patch, on its way through a text that the reader reads from a state on, puts a mark
into a quoted value. -/
inductive MarksValue : State → σ → List Char → Prop
  | here {r : State} {s : σ} {cs tag : List Char} (hsite : M.site s ('<' :: cs) = some tag)
      (hquoted : (after r tag).isQuoted = true) : MarksValue r s ('<' :: cs)
  | copied {r : State} {s : σ} {c : Char} {cs : List Char} (hc : c ≠ '<')
      (h : MarksValue (r.step c).1 s cs) : MarksValue r s (c :: cs)
  | passed {r : State} {s : σ} {cs xs : List Char}
      (hxs : '<' :: cs = xs ++ (M.cut s ('<' :: cs)).rest)
      (h : MarksValue (after r xs) (M.cut s ('<' :: cs)).state (M.cut s ('<' :: cs)).rest) :
      MarksValue r s ('<' :: cs)

variable {M}

theorem MarksValue.append {r : State} {s : σ} (xs : List Char) {cs : List Char}
    (hxs : ∀ c ∈ xs, c ≠ '<')
    (h : M.MarksValue (after r xs) s cs) : M.MarksValue r s (xs ++ cs) := by
  induction xs generalizing r with
  | nil => exact h
  | cons c xs ih =>
      have hrest := ih (fun c' h' => hxs c' (List.mem_cons_of_mem c h')) h
      exact .copied (hxs c List.mem_cons_self) hrest

theorem not_marksValue_nil (r : State) (s : σ) : ¬ M.MarksValue r s [] := by
  rintro ⟨⟩

/-- A character that starts no tag is copied. -/
theorem marksValue_cons_iff {r : State} {s : σ} {c : Char} (hc : c ≠ '<') (cs : List Char) :
    M.MarksValue r s (c :: cs) ↔ M.MarksValue (r.step c).1 s cs := by
  refine ⟨fun h => ?_, .copied hc⟩
  cases h with
  | here => exact absurd rfl hc
  | passed => exact absurd rfl hc
  | copied _ h => exact h

/-- A turn puts a mark into a value at its site, or leaves it to the turns that follow. -/
theorem marksValue_lt_iff {r : State} {s : σ} {cs xs : List Char}
    (hxs : '<' :: cs = xs ++ (M.cut s ('<' :: cs)).rest) :
    M.MarksValue r s ('<' :: cs)
      ↔ (∃ tag, M.site s ('<' :: cs) = some tag ∧ (after r tag).isQuoted = true)
        ∨ M.MarksValue (after r xs) (M.cut s ('<' :: cs)).state (M.cut s ('<' :: cs)).rest := by
  constructor
  · intro h
    cases h with
    | here hsite hquoted => exact Or.inl ⟨_, hsite, hquoted⟩
    | copied hc => exact absurd rfl hc
    | passed hys h =>
        rename_i ys
        have heq : ys = xs := List.append_cancel_right (hys.symm.trans hxs)
        exact Or.inr (heq ▸ h)
  · rintro (⟨tag, hsite, hquoted⟩ | h)
    · exact .here hsite hquoted
    · exact .passed hxs h

/-- A turn without a site leaves it to the turns that follow. -/
theorem marksValue_pass_iff {r : State} {s : σ} {cs xs : List Char}
    (hsite : M.site s ('<' :: cs) = none) (hxs : '<' :: cs = xs ++ (M.cut s ('<' :: cs)).rest) :
    M.MarksValue r s ('<' :: cs)
      ↔ M.MarksValue (after r xs) (M.cut s ('<' :: cs)).state (M.cut s ('<' :: cs)).rest := by
  rw [marksValue_lt_iff hxs, hsite]
  simp

/-- A mark outside of the values. -/
theorem mark_text {r : State} {tag old : List Char} (post : List Char) (htag : after r tag = .text)
    (hold : ∀ c ∈ old, Plain c) :
    after r (tag ++ M.mark :: post) = after r (tag ++ (old ++ post))
      ∧ startTagsOf (pieces r (tag ++ M.mark :: post))
        = startTagsOf (pieces r (tag ++ (old ++ post)))
      ∧ valueChars r (tag ++ M.mark :: post) = valueChars r (tag ++ (old ++ post)) := by
  have hmark : ∀ c ∈ [M.mark], Plain c := by simpa using M.plain
  obtain ⟨hafter, htags, hvalues⟩ := text_plain hmark
  obtain ⟨hafter', htags', hvalues'⟩ := text_plain hold
  rw [← List.singleton_append]
  simp only [after_append, pieces_append, valueChars_append, startTagsOf_append, htag, hafter,
    hafter', htags, htags', hvalues, hvalues', and_self]

/-- A mark inside a quoted value. -/
theorem mark_quoted {r : State} {tag old : List Char} (post : List Char)
    (htag : (after r tag).isQuoted = true) (hold : ∀ c ∈ old, Plain c) (hfree : M.mark ∉ old) :
    (after r (tag ++ M.mark :: post)).erase = (after r (tag ++ (old ++ post))).erase
      ∧ (valueChars r (tag ++ M.mark :: post)).count M.mark
        = (valueChars r (tag ++ (old ++ post))).count M.mark + 1 := by
  have hmark : ∀ c ∈ [M.mark], Plain c := by simpa using M.plain
  obtain ⟨hmode, hvalues⟩ := quoted_plain htag hmark
  obtain ⟨hmode', hvalues'⟩ := quoted_plain htag hold
  obtain ⟨hpost, hpostValues⟩ := erase_after (hmode.trans hmode'.symm) post
  rw [← List.singleton_append]
  simp only [after_append, valueChars_append, List.count_append, hvalues, hvalues', hpostValues,
    List.count_singleton_self, List.count_eq_zero.mpr hfree]
  exact ⟨hpost, by omega⟩

/-- A site is the end of a tag, which is inside of a value or in a text. -/
theorem after_site {r : State} {s : σ} {cs tag : List Char}
    (hsite : M.site s ('<' :: cs) = some tag) (hquoted : (after r tag).isQuoted = false) :
    after r tag = .text := by
  obtain ⟨front, -, -, hfront, -⟩ := M.marks s cs tag hsite
  rw [hfront] at hquoted ⊢
  exact after_gt r front hquoted

/-- What a turn takes, and what it makes of it where it marks no value. -/
theorem cut_startTags {r : State} {s : σ} {cs : List Char} (h : ¬ M.MarksValue r s ('<' :: cs)) :
    ∃ xs, '<' :: cs = xs ++ (M.cut s ('<' :: cs)).rest
      ∧ after r (M.cut s ('<' :: cs)).pushed = after r xs
      ∧ startTagsOf (pieces r (M.cut s ('<' :: cs)).pushed) = startTagsOf (pieces r xs) := by
  cases hsite : M.site s ('<' :: cs) with
  -- Without a site the turn pushes what it takes.
  | none => exact ⟨_, M.copies s cs hsite, rfl, rfl⟩
  | some tag =>
      obtain ⟨front, old, post, hfront, hcs, hpushed, hold, -⟩ := M.marks s cs tag hsite
      have hquoted : (after r tag).isQuoted = false := by
        simpa using fun hq => h (.here hsite hq)
      obtain ⟨hafter, htags, -⟩ := mark_text (M := M) post (after_site hsite hquoted) hold
      exact ⟨_, hcs, by rw [hpushed, hafter], by rw [hpushed, htags]⟩

/-- A turn marks a value, or leaves all values as they are. -/
theorem cut_count (r : State) (s : σ) (cs : List Char) :
    ∃ xs, '<' :: cs = xs ++ (M.cut s ('<' :: cs)).rest
      ∧ (after r (M.cut s ('<' :: cs)).pushed).erase = (after r xs).erase
      ∧ (valueChars r xs).count M.mark
        ≤ (valueChars r (M.cut s ('<' :: cs)).pushed).count M.mark
      ∧ ∀ tag, M.site s ('<' :: cs) = some tag → (after r tag).isQuoted = true →
        (valueChars r xs).count M.mark
          < (valueChars r (M.cut s ('<' :: cs)).pushed).count M.mark := by
  cases hsite : M.site s ('<' :: cs) with
  | none => exact ⟨_, M.copies s cs hsite, rfl, le_rfl, fun tag h => absurd h (by simp)⟩
  | some tag =>
      obtain ⟨front, old, post, hfront, hcs, hpushed, hold, hfree⟩ := M.marks s cs tag hsite
      rw [hpushed]
      cases hquoted : (after r tag).isQuoted with
      | true =>
          obtain ⟨hmode, hcount⟩ := mark_quoted (M := M) post hquoted hold hfree
          exact ⟨_, hcs, hmode, by omega, fun _ _ _ => by omega⟩
      | false =>
          obtain ⟨hafter, -, hvalues⟩ := mark_text (M := M) post (after_site hsite hquoted) hold
          refine ⟨_, hcs, by rw [hafter], by rw [hvalues], fun tag' htag' hq => ?_⟩
          obtain rfl : tag = tag' := by simpa using htag'
          rw [hquoted] at hq
          exact absurd hq (by simp)

/-- Without marks in values the reader ends in the same state, with the same start tags. -/
theorem startTags_run {r : State} {s : σ} {cs : List Char} (h : ¬ M.MarksValue r s cs) :
    after r (M.run s cs) = after r cs
      ∧ startTagsOf (pieces r (M.run s cs)) = startTagsOf (pieces r cs) := by
  induction s, cs using Rewriter.run.induct M.toRewriter generalizing r with
  | case1 s => rw [M.run_nil]; exact ⟨rfl, rfl⟩
  | case3 s c cs hc ih =>
      obtain ⟨hafter, htags⟩ := ih fun hmarks => h (.copied hc hmarks)
      rw [M.run_cons s hc, after_cons, after_cons, pieces_cons, pieces_cons, startTagsOf_append,
        startTagsOf_append, htags]
      exact ⟨hafter, rfl⟩
  | case2 s cs ih =>
      obtain ⟨xs, hxs, hstate, htags⟩ := cut_startTags h
      obtain ⟨hafter, hrest⟩ := ih fun hmarks => h (.passed hxs hmarks)
      rw [M.run_lt, after_append, pieces_append, startTagsOf_append, hstate, htags, hafter, hrest,
        ← startTagsOf_append, ← pieces_append, ← after_append, ← hxs]
      exact ⟨rfl, rfl⟩

/-- The reader is in the same place with the marks and without, and every mark in a value
is one more in the values. -/
theorem count_run (r : State) (s : σ) (cs : List Char) :
    (after r (M.run s cs)).erase = (after r cs).erase
      ∧ (valueChars r cs).count M.mark ≤ (valueChars r (M.run s cs)).count M.mark
      ∧ (M.MarksValue r s cs →
        (valueChars r cs).count M.mark < (valueChars r (M.run s cs)).count M.mark) := by
  induction s, cs using Rewriter.run.induct M.toRewriter generalizing r with
  | case1 s =>
      rw [M.run_nil]
      refine ⟨rfl, le_rfl, ?_⟩
      rintro ⟨⟩
  | case3 s c cs hc ih =>
      obtain ⟨hmode, hle, hlt⟩ := ih (r.step c).1
      rw [M.run_cons s hc, after_cons, after_cons, valueChars, valueChars, List.count_append,
        List.count_append]
      refine ⟨hmode, by omega, fun h => ?_⟩
      cases h with
      -- A site starts with `<`, and so does a turn.
      | here => exact absurd rfl hc
      | passed => exact absurd rfl hc
      | copied _ h =>
          have := hlt h
          omega
  | case2 s cs ih =>
      obtain ⟨xs, hxs, hmode, hle, hhere⟩ := cut_count (M := M) r s cs
      obtain ⟨hrestMode, hrestLe, hrestLt⟩ := ih (after r xs)
      -- The rest is read in another state, but of the same mode.
      obtain ⟨hout, houtValues⟩ := erase_after hmode
        (M.run (M.cut s ('<' :: cs)).state (M.cut s ('<' :: cs)).rest)
      rw [M.run_lt, after_append, valueChars_append, List.count_append, hout, hrestMode, houtValues]
      have hsource : valueChars r ('<' :: cs)
          = valueChars r xs ++ valueChars (after r xs) (M.cut s ('<' :: cs)).rest := by
        rw [← valueChars_append, ← hxs]
      rw [hsource, List.count_append, ← after_append, ← hxs]
      refine ⟨rfl, by omega, fun h => ?_⟩
      cases h with
      | here hsite hquoted =>
          have := hhere _ hsite hquoted
          omega
      | copied hc => exact absurd rfl hc
      | passed hys h =>
          -- The turn takes the same text.
          rename_i ys
          have heq : ys = xs := List.append_cancel_right (hys.symm.trans hxs)
          rw [heq] at h
          have := hrestLt h
          omega

/-- **When the start tags stay**: exactly when no mark lands in a quoted value. -/
theorem startTags_run_iff (s : σ) {cs : List Char} (hcs : after .text cs = .text) :
    startTags (M.run s cs) = startTags cs ↔ ¬ M.MarksValue .text s cs := by
  constructor
  · intro h hmarks
    obtain ⟨hmode, -, hlt⟩ := M.count_run .text s cs
    have hout : after .text (M.run s cs) = .text := by
      rw [hcs] at hmode
      cases hs : after .text (M.run s cs) <;> rw [hs] at hmode <;> simp [State.erase] at hmode ⊢
    have hvalues := values_pieces .text cs
    have hvalues' := values_pieces .text (M.run s cs)
    rw [flatMap_values, hcs] at hvalues
    rw [flatMap_values, hout] at hvalues'
    change (startTags cs).flatMap _ ++ [] = [] ++ _ at hvalues
    change (startTags (M.run s cs)).flatMap _ ++ [] = [] ++ _ at hvalues'
    rw [h, hvalues] at hvalues'
    have hless := hlt hmarks
    rw [List.nil_append, List.nil_append] at hvalues'
    rw [hvalues'] at hless
    exact absurd hless (lt_irrefl _)
  · exact fun h => (startTags_run h).2

end Marker

/-! ## The two patches -/

section Patches

open CodespanFixup CodeblockLinebreaks

theorem plain_of_isSpacer {c : Char} (h : isSpacer c = true) : Plain c := by
  simp only [isSpacer, Bool.or_eq_true, beq_iff_eq] at h
  rcases h with ((rfl | rfl) | rfl) | rfl <;> exact ⟨by decide, by rintro (_ | _) <;> decide⟩

/-- The placeholder of a spacer span, in place of its text. -/
def spacerMarker : Marker Unit where
  toRewriter := spacers
  mark := whitespaceSentinel
  site _ cs := (spacerSpan cs).map (·.1)
  plain := ⟨by decide, by rintro (_ | _) <;> decide⟩
  copies := by
    intro s cs h
    exact spacerCut_none (by simpa using h)
  marks := by
    intro s cs tag h
    rw [Option.map_eq_some_iff] at h
    obtain ⟨⟨openTag, close, rest⟩, hspan, rfl⟩ := h
    obtain ⟨blank, hcs, -, hblank, -, hend, -, -⟩ := spacerSpan_eq_some hspan
    obtain ⟨front, hfront⟩ := tagEnd_gt hend
    rw [isBlank, Bool.and_eq_true, List.all_eq_true] at hblank
    have hcut : spacers.cut s ('<' :: cs)
        = ⟨openTag ++ whitespaceSentinel :: close, rest, ()⟩ := by
      show spacerCut s ('<' :: cs) = _
      rw [spacerCut, hspan]
    refine ⟨front, blank, close, hfront, ?_, by rw [hcut],
      fun c hc => plain_of_isSpacer (hblank.2 c hc), fun hmem => ?_⟩
    · rw [hcut, hcs]
      simp
    · exact absurd (hblank.2 _ hmem) (by decide)

/-- The closing tag of a line that gets a line break. -/
def breakSite (inPre : Bool) (cs : List Char) : Option (List Char) :=
  if inPre && (closeTag (closeBytes preName) cs).isNone then
    match lineBoundaryCloseTags.findSome? fun name => closeTag (closeBytes name) cs with
    | some (tag, rest) => if breakNeeded rest then some tag else none
    | none => none
  else none

/-- The line break after the closing tag of a line. -/
def breakMarker : Marker Bool where
  toRewriter := breaks
  mark := '\n'
  site := breakSite
  plain := ⟨by decide, by rintro (_ | _) <;> decide⟩
  copies := by
    intro inPre cs h
    show '<' :: cs = (breakCut inPre ('<' :: cs)).pushed ++ (breakCut inPre ('<' :: cs)).rest
    unfold breakCut
    split
    · rename_i tag rest hopen
      split_ifs at hopen
      exact (tagEnd_eq hopen).1
    · cases inPre with
      | false => rfl
      | true =>
          rw [if_pos rfl]
          cases hpre : closeTag (closeBytes preName) ('<' :: cs) with
          | some p => exact (closeTag_eq hpre).1
          | none =>
              rw [breakSite, hpre] at h
              cases hline : lineBoundaryCloseTags.findSome?
                  fun name => closeTag (closeBytes name) ('<' :: cs) with
              | none => rfl
              | some p =>
                  rw [hline] at h
                  have hnone : breakNeeded p.2 = false := by simpa using h
                  simp only [hnone, Bool.false_eq_true, if_false]
                  exact (boundaryTag_eq hline).1
  marks := by
    intro inPre cs tag h
    rw [breakSite] at h
    split_ifs at h with hcond
    rw [Bool.and_eq_true, Option.isNone_iff_eq_none] at hcond
    obtain ⟨rfl, hpre⟩ := hcond
    split at h
    · rename_i line rest hline
      split_ifs at h with hneeded
      obtain rfl : line = tag := by simpa using h
      obtain ⟨front, hfront⟩ := boundaryTag_gt hline
      have hcut : breaks.cut true ('<' :: cs) = ⟨line ++ ['\n'], rest, true⟩ := by
        show breakCut true ('<' :: cs) = _
        rw [breakCut, Bool.not_true, Bool.false_and, if_neg (by simp), if_pos rfl, hpre, hline]
        simp only [hneeded, if_true]
      refine ⟨front, [], [], hfront, ?_, by rw [hcut], by simp, by simp⟩
      rw [hcut, List.append_nil, List.append_nil]
      exact (boundaryTag_eq hline).1
    · exact absurd h (by simp)

end Patches

/-! ## Documents -/

section Documents

open HtmlTokens

/-- An attribute without a value, or with a quoted one. -/
inductive MarkupAttr where
  | bare (name : Name)
  | quoted (name : Name) (q : Quote) (value : Chars (· != q.char))

inductive Markup where
  | text (chars : Chars1 (· != '<'))
  | startTag (name : Name) (attrs : List (Chars1 isSpace × MarkupAttr)) (space : Chars isSpace)
      (selfClosing : Bool)
  | endTag (name : Name) (space : Chars isSpace)

def MarkupAttr.render : MarkupAttr → List Char
  | bare name => name.chars
  | quoted name q value => name.chars ++ '=' :: q.char :: (value.chars ++ [q.char])

def markupTail (attrs : List (Chars1 isSpace × MarkupAttr)) (space : Chars isSpace)
    (selfClosing : Bool) : List Char :=
  (attrs.flatMap fun a => a.1.chars ++ a.2.render)
    ++ (space.chars ++ if selfClosing then ['/'] else [])

def Markup.render : Markup → List Char
  | text chars => chars.chars
  | startTag name attrs space selfClosing =>
      '<' :: name.chars ++ (markupTail attrs space selfClosing ++ ['>'])
  | endTag name space => '<' :: '/' :: (name.chars ++ (space.chars ++ ['>']))

/-- The text of a document. -/
def renderMarkup (doc : List Markup) : List Char := doc.flatMap Markup.render

/-- What an attribute says. -/
def MarkupAttr.attribute : MarkupAttr → Attribute
  | bare name => ⟨name.chars, none⟩
  | quoted name _ value => ⟨name.chars, some value.chars⟩

def Markup.tag? : Markup → Option StartTag
  | startTag name attrs _ _ => some ⟨name.chars, attrs.map fun a => a.2.attribute⟩
  | _ => none

/-- A `>` would end this tag here, and a `/` leaves it as it is. -/
def EndsTag (s : State) (tag : StartTag) : Prop :=
  s.tag? = some tag ∧ s.step '/' = (.between tag, [])

theorem goes_markupAttr (space : Chars1 isSpace) (a : MarkupAttr) {s : State} {tag : StartTag}
    (h : EndsTag s tag) :
    ∃ t, Goes s (space.chars ++ a.render) t
      ∧ EndsTag t { tag with attrs := tag.attrs ++ [a.attribute] } := by
  obtain ⟨t, hspace, -, hbetween⟩ := Goes.space h.1 space.all
  rw [hbetween space.ne_nil] at hspace
  have hname (n : Name) := Goes.attrName (CodeBlockLines.isNamePart n) n.ne_nil tag
  cases a with
  | bare n => exact ⟨_, hspace.append (hname n), rfl, rfl⟩
  | quoted n q v =>
      have hvalue := Goes.quotedValue q (fun c hc => by simpa using v.all c hc) tag n.chars
      exact ⟨_, hspace.append ((hname n).append ((Goes.equals tag n.chars).append hvalue)),
        rfl, rfl⟩

theorem goes_markupTail (attrs : List (Chars1 isSpace × MarkupAttr)) (space : Chars isSpace)
    (selfClosing : Bool) {s : State} {tag : StartTag} (h : EndsTag s tag) :
    ∃ t, Goes s (markupTail attrs space selfClosing) t
      ∧ t.tag? = some { tag with attrs := tag.attrs ++ attrs.map fun a => a.2.attribute } := by
  induction attrs generalizing s tag with
  | nil =>
      obtain ⟨t, hspace, htag, hbetween⟩ := Goes.space h.1 space.all
      rw [List.map_nil, List.append_nil]
      cases selfClosing with
      | false => exact ⟨t, hspace.append (.nil t), htag⟩
      | true =>
          have hslash : t.step '/' = (.between tag, []) := by
            by_cases hnil : space.chars = []
            · rw [hnil] at hspace
              obtain rfl : s = t := hspace.1
              exact h.2
            · rw [hbetween hnil]
              rfl
          exact ⟨.between tag, hspace.append (.cons (by rw [hslash])
            (by rw [hslash]; exact .nil _)), rfl⟩
  | cons a attrs ih =>
      obtain ⟨t, hattr, hends⟩ := goes_markupAttr a.1 a.2 h
      obtain ⟨u, hrest, htag⟩ := ih hends
      refine ⟨u, ?_, by rw [htag]; simp⟩
      have hboth := hattr.append hrest
      simpa only [markupTail, List.flatMap_cons, List.append_assoc] using hboth

theorem read_markup (m : Markup) :
    after .text m.render = .text ∧ startTagsOf (pieces .text m.render) = m.tag?.toList := by
  cases m with
  | text b =>
      obtain ⟨hafter, hpieces⟩ := read_text fun c hc => (by simpa using b.all c hc : c ≠ '<')
      refine ⟨hafter, ?_⟩
      rw [show pieces .text (Markup.text b).render = _ from hpieces, startTagsOf,
        List.filterMap_map]
      exact List.filterMap_eq_nil_iff.mpr fun c _ => rfl
  | startTag n attrs space selfClosing =>
      have hopen := Goes.open (CodeBlockLines.isNamePart n) n.ne_nil
      obtain ⟨t, htail, htag⟩ := goes_markupTail attrs space selfClosing
        (show EndsTag (.name n.chars) ⟨n.chars, []⟩ from ⟨rfl, rfl⟩)
      have hgt := step_gt htag
      rw [Markup.render, after_append, pieces_append, hopen.1, hopen.2, after_append, pieces_append,
        htail.1, htail.2, after_cons, pieces_cons, hgt]
      exact ⟨rfl, rfl⟩
  | endTag n space =>
      obtain ⟨hafter, hpieces⟩ := read_stop (CodeBlockLines.isNamePart n) space.all
      refine ⟨hafter, ?_⟩
      rw [show pieces .text (Markup.endTag n space).render = _ from hpieces]
      rfl

/-- A reader finds the start tags of a document, with their attributes. -/
theorem startTags_render (doc : List Markup) :
    after .text (renderMarkup doc) = .text
      ∧ startTags (renderMarkup doc) = doc.filterMap Markup.tag? := by
  induction doc with
  | nil => exact ⟨rfl, rfl⟩
  | cons m doc ih =>
      obtain ⟨hafter, htags⟩ := ih
      obtain ⟨hm, hmtags⟩ := read_markup m
      have hrender : renderMarkup (m :: doc) = m.render ++ renderMarkup doc := rfl
      rw [startTags, parse] at htags
      rw [hrender, startTags, parse, after_append, pieces_append, startTagsOf_append, hm, htags,
        hmtags]
      refine ⟨hafter, ?_⟩
      cases htag : m.tag? <;> simp [htag]

end Documents

/-! ## What quoted values show -/

section Shown

open CodespanFixup CodeblockLinebreaks

/-- Read from left to right, each `<span` tag up to the `>` that closes it: behind one of these
tags a blank text in front of `</span>` stands in a quoted value.  A reader of HTML comes to the
text in the state `r`. -/
inductive SpacerInValue : State → List Char → Prop
  | here {r : State} {cs tag blank close rest : List Char} (hopen : tagOpen spanTag cs = true)
      (hend : tagEnd false false cs = some (tag, blank ++ (close ++ rest)))
      (hblank : isBlank blank = true)
      (hclose : closeTag spanCloseTag (close ++ rest) = some (close, rest))
      (hquoted : (after r tag).isQuoted = true) : SpacerInValue r cs
  | copied {r : State} {c : Char} {cs : List Char}
      (hlone : tagOpen spanTag (c :: cs) = true → tagEnd false false (c :: cs) = none)
      (h : SpacerInValue (r.step c).1 cs) : SpacerInValue r (c :: cs)
  | closed {r : State} {cs tag rest : List Char} (hopen : tagOpen spanTag cs = true)
      (hend : tagEnd false false cs = some (tag, rest)) (h : SpacerInValue (after r tag) rest) :
      SpacerInValue r cs

/-- Read from left to right, each `<pre` tag up to the `>` that closes it and each region up to
its end tag: in a region the closing tag of a line ends in a quoted value, and the text goes on
behind it without a break.  `inPre` says whether the text starts in a region. -/
inductive BreakInValue : State → Bool → List Char → Prop
  | here {r : State} {cs tag rest : List Char}
      (hclose : closeTag (closeBytes preName) cs = none)
      (hline : boundaryTag cs = some (tag, rest)) (hneeded : breakNeeded rest = true)
      (hquoted : (after r tag).isQuoted = true) : BreakInValue r true cs
  | copied {r : State} {inPre : Bool} {c : Char} {cs : List Char}
      (hopen : inPre = false → tagOpen (openBytes preName) (c :: cs) = true →
        tagEnd false false (c :: cs) = none)
      (hclose : inPre = true → closeTag (closeBytes preName) (c :: cs) = none)
      (h : BreakInValue (r.step c).1 inPre cs) : BreakInValue r inPre (c :: cs)
  | opened {r : State} {cs tag rest : List Char} (hopen : tagOpen (openBytes preName) cs = true)
      (hend : tagEnd false false cs = some (tag, rest)) (h : BreakInValue (after r tag) true rest) :
      BreakInValue r false cs
  | closed {r : State} {cs tag rest : List Char}
      (hclose : closeTag (closeBytes preName) cs = some (tag, rest))
      (h : BreakInValue (after r tag) false rest) : BreakInValue r true cs

/-- A blank text between a `<span` tag and `</span>` makes a spacer span. -/
theorem spacerSpan_of_blank {cs tag blank close rest : List Char}
    (hopen : tagOpen spanTag cs = true)
    (hend : tagEnd false false cs = some (tag, blank ++ (close ++ rest)))
    (hblank : isBlank blank = true)
    (hclose : closeTag spanCloseTag (close ++ rest) = some (close, rest)) :
    spacerSpan cs = some (tag, close, rest) := by
  have hfree : ∀ c ∈ blank, (c != '<') = true := by
    intro c hc
    have hspacer := ((isBlank_iff blank).mp hblank).2 c hc
    rcases hspacer with rfl | rfl | rfl | rfl <;> decide
  obtain ⟨xs, hxs⟩ : ∃ xs, close ++ rest = '<' :: xs := by
    obtain ⟨c, close, rfl, -⟩ := spanClose_eq hclose
    refine ⟨close ++ rest, ?_⟩
    by_contra hne
    have hc : c ≠ '<' := fun hlt => hne (by rw [hlt, List.cons_append])
    have hnone : closeTag spanCloseTag (c :: (close ++ rest)) = none := closeTag_of_ne_lt _ hc _
    exact absurd (hclose.symm.trans hnone) (by simp)
  have htake : (blank ++ (close ++ rest)).takeWhile (· != '<') = blank := by
    rw [List.takeWhile_append_of_pos hfree, hxs, List.takeWhile_cons_of_neg (by simp),
      List.append_nil]
  have hdrop : (blank ++ (close ++ rest)).dropWhile (· != '<') = close ++ rest := by
    rw [List.dropWhile_append_of_pos hfree, hxs, List.dropWhile_cons_of_neg (by simp)]
  unfold spacerSpan
  rw [if_pos hopen, hend]
  dsimp only
  rw [hdrop, hclose]
  dsimp only
  rw [htake, if_pos hblank]

namespace SpacerInValue

theorem copied_iff {r : State} {c : Char} {cs : List Char}
    (hlone : tagOpen spanTag (c :: cs) = true → tagEnd false false (c :: cs) = none) :
    SpacerInValue r (c :: cs) ↔ SpacerInValue (r.step c).1 cs := by
  refine ⟨fun h => ?_, .copied hlone⟩
  cases h with
  | here hopen hend => exact absurd ((hlone hopen).symm.trans hend) (by simp)
  | copied _ h => exact h
  | closed hopen hend => exact absurd ((hlone hopen).symm.trans hend) (by simp)

/-- A character that starts no tag is skipped. -/
theorem cons_iff {r : State} {c : Char} (hc : c ≠ '<') (cs : List Char) :
    SpacerInValue r (c :: cs) ↔ SpacerInValue (r.step c).1 cs :=
  copied_iff fun hopen => absurd ((tagOpen_of_ne_lt _ hc cs).symm.trans hopen) (by simp)

theorem append_iff {r : State} {xs : List Char} (hxs : ∀ c ∈ xs, c ≠ '<') (cs : List Char) :
    SpacerInValue r (xs ++ cs) ↔ SpacerInValue (after r xs) cs := by
  induction xs generalizing r with
  | nil => exact Iff.rfl
  | cons c xs ih =>
      obtain ⟨hc, hxs⟩ := List.forall_mem_cons.mp hxs
      rw [List.cons_append, cons_iff hc, ih hxs, after_cons]

/-- The end tag of a span is skipped. -/
theorem close_iff {r : State} {close rest : List Char}
    (h : closeTag spanCloseTag (close ++ rest) = some (close, rest)) :
    SpacerInValue r (close ++ rest) ↔ SpacerInValue (after r close) rest := by
  have hopen : tagOpen spanTag (close ++ rest) = false := tagOpen_of_closeTag (by decide) h
  obtain ⟨c, close, rfl, hfree⟩ := spanClose_eq h
  have hcopied : SpacerInValue r (c :: (close ++ rest))
      ↔ SpacerInValue (r.step c).1 (close ++ rest) :=
    copied_iff fun htag => absurd (hopen.symm.trans htag) (by simp)
  rw [List.cons_append, hcopied, append_iff hfree, after_cons]

/-- A tag that is closed is read whole; what comes behind it may be a spacer text. -/
theorem closed_iff {r : State} {cs tag rest : List Char} (hopen : tagOpen spanTag cs = true)
    (hend : tagEnd false false cs = some (tag, rest)) :
    SpacerInValue r cs ↔ ((spacerSpan cs).isSome = true ∧ (after r tag).isQuoted = true)
      ∨ SpacerInValue (after r tag) rest := by
  constructor
  · intro h
    cases h with
    | @here _ _ tag' blank close rest' _ hend' hblank hclose hquoted =>
        rw [hend, Option.some.injEq, Prod.mk.injEq] at hend'
        obtain ⟨rfl, rfl⟩ := hend'
        exact Or.inl ⟨by rw [spacerSpan_of_blank hopen hend hblank hclose]; rfl, hquoted⟩
    | copied hlone => exact absurd ((hlone hopen).symm.trans hend) (by simp)
    | closed _ hend' h =>
        rw [hend, Option.some.injEq, Prod.mk.injEq] at hend'
        obtain ⟨rfl, rfl⟩ := hend'
        exact Or.inr h
  · rintro (⟨hspan, hquoted⟩ | h)
    · obtain ⟨⟨tag', close, rest'⟩, hspan⟩ := Option.isSome_iff_exists.mp hspan
      obtain ⟨blank, -, -, hblank, -, hend', -, hclose⟩ := spacerSpan_eq_some hspan
      obtain rfl : tag = tag' := (Prod.mk.inj (Option.some.inj (hend.symm.trans hend'))).1
      exact .here hopen hend' hblank hclose hquoted
    · exact .closed hopen hend h

end SpacerInValue

namespace BreakInValue

theorem copied_iff {r : State} {inPre : Bool} {c : Char} {cs : List Char}
    (hopen : inPre = false → tagOpen (openBytes preName) (c :: cs) = true →
      tagEnd false false (c :: cs) = none)
    (hclose : inPre = true →
      closeTag (closeBytes preName) (c :: cs) = none ∧ boundaryTag (c :: cs) = none) :
    BreakInValue r inPre (c :: cs) ↔ BreakInValue (r.step c).1 inPre cs := by
  refine ⟨fun h => ?_, .copied hopen fun hin => (hclose hin).1⟩
  cases h with
  | here _ hline => exact absurd ((hclose rfl).2.symm.trans hline) (by simp)
  | copied _ _ h => exact h
  | opened htag hend => exact absurd ((hopen rfl htag).symm.trans hend) (by simp)
  | closed hsome => exact absurd ((hclose rfl).1.symm.trans hsome) (by simp)

theorem boundaryTag_of_ne_lt {c : Char} (hc : c ≠ '<') (cs : List Char) :
    boundaryTag (c :: cs) = none := by
  rw [boundaryTag, List.findSome?_eq_none_iff]
  exact fun name _ => closeTag_of_ne_lt _ hc cs

/-- A character that starts no tag is skipped. -/
theorem cons_iff {r : State} {inPre : Bool} {c : Char} (hc : c ≠ '<') (cs : List Char) :
    BreakInValue r inPre (c :: cs) ↔ BreakInValue (r.step c).1 inPre cs :=
  copied_iff
    (fun _ hopen => absurd ((tagOpen_of_ne_lt _ hc cs).symm.trans hopen) (by simp))
    (fun _ => ⟨closeTag_of_ne_lt _ hc cs, boundaryTag_of_ne_lt hc cs⟩)

theorem append_iff {r : State} {inPre : Bool} {xs : List Char} (hxs : ∀ c ∈ xs, c ≠ '<')
    (cs : List Char) : BreakInValue r inPre (xs ++ cs) ↔ BreakInValue (after r xs) inPre cs := by
  induction xs generalizing r with
  | nil => exact Iff.rfl
  | cons c xs ih =>
      obtain ⟨hc, hxs⟩ := List.forall_mem_cons.mp hxs
      rw [List.cons_append, cons_iff hc, ih hxs, after_cons]

theorem opened_iff {r : State} {cs tag rest : List Char}
    (hopen : tagOpen (openBytes preName) cs = true)
    (hend : tagEnd false false cs = some (tag, rest)) :
    BreakInValue r false cs ↔ BreakInValue (after r tag) true rest := by
  refine ⟨fun h => ?_, .opened hopen hend⟩
  cases h with
  | copied htag => exact absurd ((htag rfl hopen).symm.trans hend) (by simp)
  | opened _ hend' h =>
      rw [hend, Option.some.injEq, Prod.mk.injEq] at hend'
      obtain ⟨rfl, rfl⟩ := hend'
      exact h

theorem closed_iff {r : State} {cs tag rest : List Char}
    (hclose : closeTag (closeBytes preName) cs = some (tag, rest)) :
    BreakInValue r true cs ↔ BreakInValue (after r tag) false rest := by
  refine ⟨fun h => ?_, .closed hclose⟩
  cases h with
  | here hnone => exact absurd (hnone.symm.trans hclose) (by simp)
  | copied _ hnone => exact absurd ((hnone rfl).symm.trans hclose) (by simp)
  | closed hclose' h =>
      rw [hclose, Option.some.injEq, Prod.mk.injEq] at hclose'
      obtain ⟨rfl, rfl⟩ := hclose'
      exact h

/-- In a region the closing tag of a line is skipped, unless it is the one that is sought. -/
theorem line_iff {r : State} {cs tag rest : List Char}
    (hclose : closeTag (closeBytes preName) cs = none)
    (hline : boundaryTag cs = some (tag, rest)) :
    BreakInValue r true cs ↔ (breakNeeded rest = true ∧ (after r tag).isQuoted = true)
      ∨ BreakInValue (after r tag) true rest := by
  obtain ⟨hcs, -⟩ := boundaryTag_eq hline
  obtain ⟨c, tag', rfl, hfree⟩ := boundaryTag_tail_no_lt hline
  have hskip : BreakInValue (r.step c).1 true (tag' ++ rest)
      ↔ BreakInValue (after r (c :: tag')) true rest := by rw [append_iff hfree, after_cons]
  rw [List.cons_append] at hcs
  subst hcs
  rw [← hskip]
  constructor
  · intro h
    cases h with
    | here _ hline' hneeded hquoted =>
        rw [hline, Option.some.injEq, Prod.mk.injEq] at hline'
        obtain ⟨rfl, rfl⟩ := hline'
        exact Or.inl ⟨hneeded, hquoted⟩
    | copied _ _ h => exact Or.inr h
    | closed hsome => exact absurd (hclose.symm.trans hsome) (by simp)
  · rintro (⟨hneeded, hquoted⟩ | h)
    · exact .here hclose hline hneeded hquoted
    · exact .copied (by simp) (fun _ => hclose) h

end BreakInValue

/-- A `<` that starts no `<span` tag, or one that is cut off, starts no spacer span. -/
theorem spacerSpan_lone {cs : List Char}
    (h : tagOpen spanTag cs = true → tagEnd false false cs = none) : spacerSpan cs = none := by
  unfold spacerSpan
  cases hopen : tagOpen spanTag cs with
  | false => rfl
  | true => rw [if_pos rfl, h hopen]

/-- The turn at a `<span` tag. -/
theorem marksValue_spacer_tag_iff {r : State} {cs tag rest : List Char}
    (hopen : tagOpen spanTag ('<' :: cs) = true)
    (hend : tagEnd false false ('<' :: cs) = some (tag, rest))
    (ih : ∀ r' cs', cs'.length ≤ cs.length →
      (spacerMarker.MarksValue r' () cs' ↔ SpacerInValue r' cs')) :
    spacerMarker.MarksValue r () ('<' :: cs) ↔ SpacerInValue r ('<' :: cs) := by
  have hshort : (spacerCut () ('<' :: cs)).rest.length ≤ cs.length := spacers.shorter () cs
  have hcutEq : spacerMarker.cut () ('<' :: cs) = spacerCut () ('<' :: cs) := rfl
  have hsiteEq : spacerMarker.site () ('<' :: cs)
      = (spacerSpan ('<' :: cs)).map (·.1) := rfl
  rw [SpacerInValue.closed_iff hopen hend]
  cases hspan : spacerSpan ('<' :: cs) with
  | none =>
      -- Without a spacer text the turn takes the tag.
      have hcut : spacerCut () ('<' :: cs) = ⟨tag, rest, ()⟩ := by
        unfold spacerCut
        rw [hspan, if_pos hopen, hend]
      have hsite : spacerMarker.site () ('<' :: cs) = none := by
        rw [hsiteEq, hspan, Option.map_none]
      have hxs : '<' :: cs = tag ++ (spacerMarker.cut () ('<' :: cs)).rest := by
        rw [hcutEq, hcut]
        exact (tagEnd_eq hend).1
      rw [hcut] at hshort
      rw [Marker.marksValue_pass_iff hsite hxs, hcutEq, hcut, ih _ _ hshort]
      simp
  | some p =>
      obtain ⟨tag', close, rest'⟩ := p
      obtain ⟨blank, hcs, -, hblank, -, hend', -, hclose⟩ := spacerSpan_eq_some hspan
      obtain ⟨rfl, rfl⟩ := Prod.mk.inj (Option.some.inj (hend.symm.trans hend'))
      have hfree : ∀ c ∈ blank, c ≠ '<' := by
        intro c hc
        rcases ((isBlank_iff blank).mp hblank).2 c hc with rfl | rfl | rfl | rfl <;> decide
      have hcut : spacerCut () ('<' :: cs)
          = ⟨tag ++ whitespaceSentinel :: close, rest', ()⟩ := by
        unfold spacerCut
        rw [hspan]
      have hxs : '<' :: cs
          = (tag ++ (blank ++ close)) ++ (spacerMarker.cut () ('<' :: cs)).rest := by
        rw [hcutEq, hcut, hcs, List.append_assoc, List.append_assoc]
      rw [hcut] at hshort
      rw [Marker.marksValue_lt_iff hxs, hsiteEq, hspan, hcutEq, hcut, ih _ _ hshort,
        SpacerInValue.append_iff hfree, SpacerInValue.close_iff hclose, after_append, after_append]
      simp

/-- The turn of the line-break patch at a `<`. -/
theorem marksValue_break_lt_iff {r : State} {inPre : Bool} {cs : List Char}
    (ih : ∀ r', breakMarker.MarksValue r' (breakCut inPre ('<' :: cs)).state
        (breakCut inPre ('<' :: cs)).rest
      ↔ BreakInValue r' (breakCut inPre ('<' :: cs)).state (breakCut inPre ('<' :: cs)).rest) :
    breakMarker.MarksValue r inPre ('<' :: cs) ↔ BreakInValue r inPre ('<' :: cs) := by
  have hcutEq : breakMarker.cut inPre ('<' :: cs) = breakCut inPre ('<' :: cs) := rfl
  have hsiteEq : breakMarker.site inPre ('<' :: cs) = breakSite inPre ('<' :: cs) := rfl
  rcases breakCut_cases inPre ('<' :: cs) with ⟨tag, rest, rfl, hopen, hend⟩
    | ⟨tag, rest, rfl, hclose⟩ | ⟨tag, rest, rfl, hclose, hline⟩ | ⟨hnotag, hnoclose⟩
  · have hcut := breakCut_opened hopen hend
    have hxs : '<' :: cs = tag ++ (breakMarker.cut false ('<' :: cs)).rest := by
      rw [hcutEq, hcut]
      exact (tagEnd_eq hend).1
    rw [Marker.marksValue_pass_iff rfl hxs, hcutEq, ih, hcut, BreakInValue.opened_iff hopen hend]
  · have hcut := breakCut_closed hclose
    have hsite : breakMarker.site true ('<' :: cs) = none := by
      rw [hsiteEq, breakSite, hclose]
      rfl
    have hxs : '<' :: cs = tag ++ (breakMarker.cut true ('<' :: cs)).rest := by
      rw [hcutEq, hcut]
      exact (closeTag_eq hclose).1
    rw [Marker.marksValue_pass_iff hsite hxs, hcutEq, ih, hcut, BreakInValue.closed_iff hclose]
  · have hcut := breakCut_line hclose hline
    have hsite : breakSite true ('<' :: cs) = if breakNeeded rest then some tag else none := by
      rw [boundaryTag] at hline
      rw [breakSite, hclose, hline]
      rfl
    have hxs : '<' :: cs = tag ++ (breakMarker.cut true ('<' :: cs)).rest := by
      rw [hcutEq, hcut]
      exact (boundaryTag_eq hline).1
    rw [Marker.marksValue_lt_iff hxs, hsiteEq, hsite, hcutEq, ih, hcut,
      BreakInValue.line_iff hclose hline]
    cases breakNeeded rest <;> simp
  · have hcut : breakCut inPre ('<' :: cs) = ⟨['<'], cs, inPre⟩ := breakCut_lone hnotag hnoclose
    have hsite : breakMarker.site inPre ('<' :: cs) = none := by
      rw [hsiteEq, breakSite]
      cases inPre with
      | false => rfl
      | true =>
          have hnone := (hnoclose rfl).2
          rw [boundaryTag] at hnone
          rw [(hnoclose rfl).1, hnone]
          rfl
    have hxs : '<' :: cs = ['<'] ++ (breakMarker.cut inPre ('<' :: cs)).rest := by
      rw [hcutEq, hcut, List.singleton_append]
    rw [Marker.marksValue_pass_iff hsite hxs, hcutEq, ih, hcut,
      BreakInValue.copied_iff hnotag hnoclose]
    rfl

/-- The span patch marks a value exactly when a value shows a spacer span. -/
theorem marksValue_spacer_iff (r : State) (cs : List Char) :
    spacerMarker.MarksValue r () cs ↔ SpacerInValue r cs := by
  -- A turn takes at least one character, so the induction is on the length.
  induction hlen : cs.length using Nat.strong_induction_on generalizing r cs with
  | _ len ih =>
    cases cs with
    | nil =>
        refine iff_of_false (Marker.not_marksValue_nil r ()) fun h => ?_
        cases h with
        | here _ hend => exact absurd hend (by simp [tagEnd])
        | closed _ hend => exact absurd hend (by simp [tagEnd])
    | cons c cs =>
        rw [List.length_cons] at hlen
        by_cases hc : c = '<'
        · subst hc
          by_cases htag : ∃ tag rest, tagOpen spanTag ('<' :: cs) = true
              ∧ tagEnd false false ('<' :: cs) = some (tag, rest)
          · obtain ⟨tag, rest, hopen, hend⟩ := htag
            exact marksValue_spacer_tag_iff hopen hend fun r' cs' hcs' => ih _ (by omega) r' cs' rfl
          · have hlone : tagOpen spanTag ('<' :: cs) = true →
                tagEnd false false ('<' :: cs) = none := by
              intro hopen
              by_contra hsome
              obtain ⟨p, hp⟩ := Option.ne_none_iff_exists'.mp hsome
              exact htag ⟨p.1, p.2, hopen, hp⟩
            have hcut : spacerMarker.cut () ('<' :: cs) = ⟨['<'], cs, ()⟩ := spacerCut_lone hlone
            have hsite : spacerMarker.site () ('<' :: cs) = none := by
              show (spacerSpan ('<' :: cs)).map _ = none
              rw [spacerSpan_lone hlone, Option.map_none]
            have hxs : '<' :: cs = ['<'] ++ (spacerMarker.cut () ('<' :: cs)).rest := by
              rw [hcut, List.singleton_append]
            rw [Marker.marksValue_pass_iff hsite hxs, hcut, SpacerInValue.copied_iff hlone]
            exact ih cs.length (by omega) _ cs rfl
        · rw [Marker.marksValue_cons_iff hc, SpacerInValue.cons_iff hc]
          exact ih cs.length (by omega) _ cs rfl

/-- The line-break patch marks a value exactly when a value shows the end of a line that goes
on. -/
theorem marksValue_break_iff (r : State) (inPre : Bool) (cs : List Char) :
    breakMarker.MarksValue r inPre cs ↔ BreakInValue r inPre cs := by
  induction hlen : cs.length using Nat.strong_induction_on generalizing r inPre cs with
  | _ len ih =>
    cases cs with
    | nil =>
        refine iff_of_false (Marker.not_marksValue_nil r inPre) fun h => ?_
        cases h with
        | here _ hline => exact absurd (boundaryTag_eq hline).1 (by simp [(boundaryTag_eq hline).2])
        | opened _ hend => exact absurd hend (by simp [tagEnd])
        | closed hclose => exact absurd hclose (by simp [closeTag, closeBytes, Utf8.encode])
    | cons c cs =>
        rw [List.length_cons] at hlen
        by_cases hc : c = '<'
        · subst hc
          have hshort := breaks.shorter inPre cs
          have hrest : ∀ r', breakMarker.MarksValue r' (breakCut inPre ('<' :: cs)).state
                (breakCut inPre ('<' :: cs)).rest
              ↔ BreakInValue r' (breakCut inPre ('<' :: cs)).state
                (breakCut inPre ('<' :: cs)).rest :=
            fun r' => ih _ (lt_of_le_of_lt hshort (by omega)) r' _ _ rfl
          exact marksValue_break_lt_iff hrest
        · rw [Marker.marksValue_cons_iff hc, BreakInValue.cons_iff hc]
          exact ih cs.length (by omega) _ _ cs rfl

/-- The span patch leaves the start tags as they are when no quoted value shows a spacer span. -/
theorem spacers_kept_iff (doc : List Markup) :
    startTags (spacerPass (renderMarkup doc)) = startTags (renderMarkup doc)
      ↔ ¬ SpacerInValue .text (renderMarkup doc) := by
  rw [← marksValue_spacer_iff]
  exact spacerMarker.startTags_run_iff () (startTags_render doc).1

/-- The line-break patch does when none shows the end of a line. -/
theorem breaks_kept_iff (doc : List Markup) :
    startTags (breakPass false (renderMarkup doc)) = startTags (renderMarkup doc)
      ↔ ¬ BreakInValue .text false (renderMarkup doc) := by
  rw [← marksValue_break_iff]
  exact breakMarker.startTags_run_iff false (startTags_render doc).1

/-! Neither is there without an end tag in a quoted value. -/

theorem isQuoted_erase (s : State) : s.erase.isQuoted = s.isQuoted := by cases s <;> rfl

/-- Only a quote opens a quoted value. -/
theorem isQuoted_of_after {r : State} {xs : List Char} (hxs : ∀ c ∈ xs, ∀ q : Quote, c ≠ q.char)
    (h : (after r xs).isQuoted = true) : r.isQuoted = true := by
  induction xs generalizing r with
  | nil => exact h
  | cons c xs ih =>
      have hstep := ih (fun d hd => hxs d (List.mem_cons_of_mem c hd)) h
      have hsingle : c ≠ '\'' := hxs c List.mem_cons_self .single
      have hdouble : c ≠ '"' := hxs c List.mem_cons_self .double
      cases r with
      | quoted => rfl
      | _ =>
          simp only [State.step, if_neg hsingle, if_neg hdouble] at hstep
          split_ifs at hstep <;> exact absurd hstep (by simp [State.isQuoted])

/-- A closing tag that ends in a quoted value has begun in it. -/
theorem isQuoted_of_closeTag {name : List Char}
    (hname : ∀ t ∈ closeBytes name, ∀ q : Quote, Utf8.ascii (eqIgnoreAsciiCase · t) q.char = false)
    {r : State} {cs tag rest : List Char} (htag : closeTag (closeBytes name) cs = some (tag, rest))
    (h : (after r tag).isQuoted = true) : r.isQuoted = true := by
  refine isQuoted_of_after (fun c hc q => ?_) h
  refine not_mem_closeTag ?_ ?_ (fun t ht => hname t ht q) htag c hc <;> cases q <;> decide

/-- The text shows an end tag inside a quoted value. -/
def ShowsEndTag (r : State) (cs : List Char) : Prop :=
  ∃ front rest, cs = front ++ '<' :: '/' :: rest ∧ (after r front).isQuoted = true

/-- What is shown behind a text is shown with the text in front. -/
theorem ShowsEndTag.append {r : State} {front cs : List Char}
    (h : ShowsEndTag (after r front) cs) : ShowsEndTag r (front ++ cs) := by
  obtain ⟨front', rest, rfl, hquoted⟩ := h
  exact ⟨front ++ front', rest, by rw [List.append_assoc], by rw [after_append]; exact hquoted⟩

/-- A spacer span in a quoted value has its end tag there. -/
theorem SpacerInValue.showsEndTag {r : State} {cs : List Char} (h : SpacerInValue r cs) :
    ShowsEndTag r cs := by
  induction h with
  | @here r cs tag blank close rest hopen hend hblank hclose hquoted =>
      rw [(tagEnd_eq hend).1]
      refine ShowsEndTag.append (ShowsEndTag.append ?_)
      obtain ⟨close', rfl⟩ := closeTag_start hclose
      have hplain : ∀ c ∈ blank, Plain c := fun c hc =>
        plain_of_isSpacer (List.all_eq_true.mp (Bool.and_eq_true_iff.mp hblank).2 c hc)
      have herase := (quoted_plain hquoted hplain).1
      refine ⟨[], close' ++ rest, rfl, ?_⟩
      rw [after_nil, ← isQuoted_erase, herase, isQuoted_erase]
      exact hquoted
  | @copied r c cs hlone h ih =>
      exact .append (show ShowsEndTag (after r [c]) cs from ih)
  | @closed r cs tag rest hopen hend h ih =>
      rw [(tagEnd_eq hend).1]
      exact ShowsEndTag.append ih

/-- So has a line. -/
theorem BreakInValue.showsEndTag {r : State} {inPre : Bool} {cs : List Char}
    (h : BreakInValue r inPre cs) : ShowsEndTag r cs := by
  induction h with
  | @here r cs tag rest hclose hline hneeded hquoted =>
      obtain ⟨name, hname, htag⟩ := List.exists_of_findSome?_eq_some hline
      obtain ⟨close, hclose⟩ := closeTag_start htag
      have hbytes : ∀ name ∈ lineBoundaryCloseTags, ∀ t ∈ closeBytes name, ∀ q : Quote,
          Utf8.ascii (eqIgnoreAsciiCase · t) q.char = false := by
        rintro name hname t ht (_ | _) <;> revert name t <;> decide +kernel
      refine ⟨[], close ++ rest, ?_, isQuoted_of_closeTag (hbytes name hname) htag hquoted⟩
      rw [(closeTag_eq htag).1, hclose]
      rfl
  | @copied r inPre c cs hopen hclose h ih =>
      exact .append (show ShowsEndTag (after r [c]) cs from ih)
  | @opened r cs tag rest hopen hend h ih =>
      rw [(tagEnd_eq hend).1]
      exact ShowsEndTag.append ih
  | @closed r cs tag rest hclose h ih =>
      rw [(closeTag_eq hclose).1]
      exact ShowsEndTag.append ih

/-- Both patches leave the start tags of a document as they are when no quoted value shows an end
tag. -/
theorem startTags_kept_of_not_shown (doc : List Markup)
    (h : ¬ ShowsEndTag .text (renderMarkup doc)) :
    (∃ out, preserveWhitespaceOnlySpans (String.ofList (renderMarkup doc)) = some out
      ∧ startTags out.toList = startTags (renderMarkup doc))
    ∧ ∃ out, preserveCodeBlockLineBreaks (String.ofList (renderMarkup doc)) = some out
      ∧ startTags out.toList = startTags (renderMarkup doc) := by
  refine ⟨⟨_, preserveWhitespaceOnlySpans_eq _, ?_⟩, _, preserveCodeBlockLineBreaks_eq _, ?_⟩
  · rw [String.toList_ofList, String.toList_ofList]
    exact (spacers_kept_iff doc).mpr fun hspacer => h hspacer.showsEndTag
  · rw [String.toList_ofList, String.toList_ofList]
    exact (breaks_kept_iff doc).mpr fun hbreak => h hbreak.showsEndTag

end Shown

/-- **When the patches alter no attribute**: the span patch leaves the start tags of a document
as they are exactly when no quoted value shows a spacer span, and the line-break patch exactly
when none shows, in a `<pre>` region, the end of a line that goes on. -/
theorem startTags_kept_iff (doc : List Markup) :
    (∃ out, CodespanFixup.preserveWhitespaceOnlySpans (String.ofList (renderMarkup doc))
        = some out
      ∧ (startTags out.toList = startTags (renderMarkup doc)
        ↔ ¬ SpacerInValue .text (renderMarkup doc)))
    ∧ ∃ out, CodeblockLinebreaks.preserveCodeBlockLineBreaks (String.ofList (renderMarkup doc))
        = some out
      ∧ (startTags out.toList = startTags (renderMarkup doc)
        ↔ ¬ BreakInValue .text false (renderMarkup doc)) := by
  refine ⟨⟨_, CodespanFixup.preserveWhitespaceOnlySpans_eq _, ?_⟩,
    _, CodeblockLinebreaks.preserveCodeBlockLineBreaks_eq _, ?_⟩
  · rw [String.toList_ofList, String.toList_ofList]
    exact spacers_kept_iff doc
  · rw [String.toList_ofList, String.toList_ofList]
    exact breaks_kept_iff doc

/-- A link with a title. -/
def titledLink (title : HtmlTokens.Chars (· != Quote.double.char)) : Markup :=
  .startTag (.single 'a' rfl) [(.single ' ' rfl, .quoted (.single 't' rfl) .double title)] .nil
    false

/-- A title that shows a spacer span, and one that shows the end of a line in front of a
text. -/
theorem title_altered :
    (¬ ∀ (doc : List Markup) (out : String),
      CodespanFixup.preserveWhitespaceOnlySpans (String.ofList (renderMarkup doc)) = some out →
      startTags out.toList = startTags (renderMarkup doc))
    ∧ ¬ ∀ (doc : List Markup) (out : String),
      CodeblockLinebreaks.preserveCodeBlockLineBreaks (String.ofList (renderMarkup doc))
        = some out →
      startTags out.toList = startTags (renderMarkup doc) := by
  constructor
  · intro h
    let doc := [titledLink ⟨['<', 's', 'p', 'a', 'n', '>', ' ', '<', '/', 's', 'p', 'a', 'n', '>'],
      by simp [Quote.char]⟩]
    have hkept := h doc _ (CodespanFixup.preserveWhitespaceOnlySpans_eq _)
    rw [String.toList_ofList, String.toList_ofList] at hkept
    refine (spacerMarker.startTags_run_iff () (startTags_render doc).1).mp hkept ?_
    have hsite : spacerMarker.site () ['<', 's', 'p', 'a', 'n', '>', ' ', '<', '/', 's', 'p', 'a',
        'n', '>', '"', '>'] = some ['<', 's', 'p', 'a', 'n', '>'] := by decide
    have hhere := Marker.MarksValue.here (r := .quoted .double ⟨['a'], []⟩ ['t'] []) hsite
      (by decide)
    exact .passed (rfl : _ = ['<'] ++ _) (.append ['a', ' ', 't', '=', '"'] (by simp) hhere)
  · intro h
    let pre : HtmlTokens.Name := CodeblockLinebreaks.preName_isName.toName
    let doc := [.startTag pre [] .nil false, titledLink ⟨['<', '/', 'p', '>', 'x'],
      by simp [Quote.char]⟩]
    have hkept := h doc _ (CodeblockLinebreaks.preserveCodeBlockLineBreaks_eq _)
    rw [String.toList_ofList, String.toList_ofList] at hkept
    refine (breakMarker.startTags_run_iff false (startTags_render doc).1).mp hkept ?_
    have hsite : breakMarker.site true ['<', '/', 'p', '>', 'x', '"', '>']
        = some ['<', '/', 'p', '>'] := by decide
    have hhere := Marker.MarksValue.here (r := .quoted .double ⟨['a'], []⟩ ['t'] []) hsite
      (by decide)
    exact .passed (rfl : _ = ['<', 'p', 'r', 'e', '>'] ++ _) (.passed (rfl : _ = ['<'] ++ _)
      (.append ['a', ' ', 't', '=', '"'] (by simp) hhere))

end AttributeSafety
