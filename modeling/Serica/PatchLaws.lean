/-
# The patches on arbitrary text

What the two code-block patches do to a text that need not be well-formed HTML: tags may be
cut off, quotes may be left open.

* `preserveWhitespaceOnlySpans_safe`: the span patch replaces spacer texts, and a second
  run changes nothing.
* `preserveCodeBlockLineBreaks_safe`: the line-break patch inserts line breaks behind
  closing tags, and a second run changes nothing.
-/
import Serica.CodeblockLinebreaks
import Serica.CodespanFixup

open CopyLoop TagScan

/-! ## Spans -/

namespace CodespanFixup

/-- The first text is the second with some segments replaced by the sentinel.  Each is a run
of space, tab, LF and CR between a `>` and an end tag named `span`. -/
inductive SpacersReplaced : List Char → List Char → Prop
  | nil : SpacersReplaced [] []
  | copied (c : Char) {xs cs : List Char} (h : SpacersReplaced xs cs) :
      SpacersReplaced (c :: xs) (c :: cs)
  | replaced {blank xs cs : List Char} (hne : blank ≠ [])
      (hblank : ∀ c ∈ blank, c = ' ' ∨ c = '\t' ∨ c = '\n' ∨ c = '\r')
      (hclose : (closeTag spanCloseTag cs).isSome) (h : SpacersReplaced xs cs) :
      SpacersReplaced ('>' :: whitespaceSentinel :: xs) ('>' :: (blank ++ cs))

theorem isSpacer_iff (c : Char) :
    isSpacer c = true ↔ c = ' ' ∨ c = '\t' ∨ c = '\n' ∨ c = '\r' := by
  simp [isSpacer, or_assoc]

theorem isBlank_iff (cs : List Char) :
    isBlank cs = true ↔ cs ≠ [] ∧ ∀ c ∈ cs, c = ' ' ∨ c = '\t' ∨ c = '\n' ∨ c = '\r' := by
  simp [isBlank, isSpacer_iff]

namespace SpacersReplaced

theorem append (tag : List Char) {xs cs : List Char} (h : SpacersReplaced xs cs) :
    SpacersReplaced (tag ++ xs) (tag ++ cs) := by
  induction tag with
  | nil => exact h
  | cons c tag ih => exact .copied c ih

/-- A replaced segment holds no quote, and neither does the sentinel. -/
theorem sameTags {xs cs : List Char} (h : SpacersReplaced xs cs) : SameTags xs cs := by
  induction h with
  | nil => exact .nil
  | copied c _ ih => exact .copied c ih
  | @replaced blank xs cs _ hblank _ _ ih =>
      show SameTags ('>' :: ([whitespaceSentinel] ++ xs)) _
      refine .behind ?_ ?_ ih
      · simp [whitespaceSentinel]
      · intro c hc
        rcases hblank c hc with rfl | rfl | rfl | rfl <;> simp

end SpacersReplaced

/-- The scanner replaces spacer texts and copies the rest. -/
theorem spacerPass_replaced (cs : List Char) : SpacersReplaced (spacerPass cs) cs := by
  refine spacers.run_induction .nil (fun c _ _ h => .copied c h) ?_ () cs
  intro _ cs xs h
  show SpacersReplaced ((spacerCut () ('<' :: cs)).pushed ++ xs) ('<' :: cs)
  change SpacersReplaced xs (spacerCut () ('<' :: cs)).rest at h
  cases hspan : spacerSpan ('<' :: cs) with
  | none =>
      have hcopied := h.append (spacerCut () ('<' :: cs)).pushed
      rwa [← spacerCut_none hspan] at hcopied
  | some p =>
      obtain ⟨openTag, close, rest⟩ := p
      obtain ⟨blank, hcs, -, hblank, -, hend, -, hclose⟩ := spacerSpan_eq_some hspan
      unfold spacerCut at h ⊢
      rw [hspan] at h ⊢
      -- The opening tag ends in `>`, and the sentinel goes behind it.
      obtain ⟨front, rfl⟩ := tagEnd_gt hend
      obtain ⟨hne, hchars⟩ := (isBlank_iff blank).mp hblank
      have hreplaced := SpacersReplaced.replaced hne hchars (by rw [hclose]; rfl) (h.append close)
      rw [hcs]
      simpa using hreplaced.append front

theorem noGt_spanTag : NoGt spanTag := by unfold NoGt; decide +kernel

theorem noGt_spanCloseTag : NoGt spanCloseTag := by unfold NoGt; decide +kernel

/-! ### A second run over the spans -/

/-- A `<` that starts no `<span` tag, or one that is cut off, is copied alone. -/
theorem spacerCut_lone {cs : List Char}
    (h : tagOpen spanTag ('<' :: cs) = true → tagEnd false false ('<' :: cs) = none) :
    spacerCut () ('<' :: cs) = ⟨['<'], cs, ()⟩ := by
  unfold spacerCut spacerSpan
  cases hopen : tagOpen spanTag ('<' :: cs) with
  | false => rfl
  | true => rw [h hopen]; rfl

/-- Where there is no spacer span, blank text behind a `<span` tag is not closed. -/
theorem not_closed_of_spacerSpan_none {cs openTag rest : List Char} (hspan : spacerSpan cs = none)
    (hopen : tagOpen spanTag cs = true) (hend : tagEnd false false cs = some (openTag, rest))
    (hblank : isBlank (rest.takeWhile (· != '<')) = true) :
    closeTag spanCloseTag (rest.dropWhile (· != '<')) = none := by
  unfold spacerSpan at hspan
  rw [if_pos hopen, hend] at hspan
  dsimp only at hspan
  split at hspan
  · rw [if_pos hblank] at hspan
    exact absurd hspan (by simp)
  · assumption

/-- A `<span` tag that no spacer text follows is copied. -/
theorem spacerCut_tag {openTag rest : List Char} (hopen : tagOpen spanTag (openTag ++ rest) = true)
    (hend : tagEnd false false (openTag ++ rest) = some (openTag, rest))
    (hnone : isBlank (rest.takeWhile (· != '<')) = true →
      closeTag spanCloseTag (rest.dropWhile (· != '<')) = none) :
    spacerCut () (openTag ++ rest) = ⟨openTag, rest, ()⟩ := by
  have hspan : spacerSpan (openTag ++ rest) = none := by
    unfold spacerSpan
    rw [if_pos hopen, hend]
    dsimp only
    split
    · rename_i hclose
      rw [if_neg]
      intro hblank
      rw [hnone hblank] at hclose
      exact absurd hclose (by simp)
    · rfl
  unfold spacerCut
  rw [hspan, if_pos hopen, hend]

/-- The text that the scanner makes of a text that starts with `<`. -/
theorem spacerPass_cut {cs pushed rest : List Char}
    (hcut : spacerCut () ('<' :: cs) = ⟨pushed, rest, ()⟩) :
    spacerPass ('<' :: cs) = pushed ++ spacerPass rest := by
  unfold spacerPass
  rw [spacers.run_lt]
  show (spacerCut () ('<' :: cs)).pushed ++ spacers.run () (spacerCut () ('<' :: cs)).rest = _
  rw [hcut]

theorem spanClose_eq {cs close rest : List Char}
    (h : closeTag spanCloseTag cs = some (close, rest)) :
    ∃ c close', close = c :: close' ∧ ∀ d ∈ close', d ≠ '<' := by
  rw [show spanCloseTag = 0x3C :: spanCloseTag.tail from rfl] at h
  exact closeTag_tail_no_lt (by decide +kernel) h

/-- The end tag of a spacer span is copied. -/
theorem spacerPass_close {close rest : List Char}
    (h : closeTag spanCloseTag (close ++ rest) = some (close, rest)) :
    spacerPass (close ++ rest) = close ++ spacerPass rest := by
  have hopen : tagOpen spanTag (close ++ rest) = false := tagOpen_of_closeTag (by decide) h
  obtain ⟨c, close, rfl, hfree⟩ := spanClose_eq h
  have hrest : spacerPass (close ++ rest) = close ++ spacerPass rest :=
    spacers.run_append () hfree rest
  by_cases hc : c = '<'
  · subst hc
    have hlone : spacerPass ('<' :: (close ++ rest)) = '<' :: spacerPass (close ++ rest) :=
      spacerPass_cut (spacerCut_lone fun h' => absurd (hopen.symm.trans h') (by simp))
    rw [List.cons_append, hlone, hrest, List.cons_append]
  · have hcopy : spacerPass (c :: (close ++ rest)) = c :: spacerPass (close ++ rest) :=
      spacers.run_cons () hc _
    rw [List.cons_append, hcopy, hrest, List.cons_append]

/-- What the scanner makes of a text starts as the text does, up to the first `<`. -/
theorem spacerPass_takeWhile (cs : List Char) :
    (spacerPass cs).takeWhile (· != '<') = cs.takeWhile (· != '<')
      ∧ SameTags ((spacerPass cs).dropWhile (· != '<')) (cs.dropWhile (· != '<')) := by
  have hsplit : spacerPass cs
      = cs.takeWhile (· != '<') ++ spacerPass (cs.dropWhile (· != '<')) :=
    spacers.run_takeWhile () cs
  have hsame := (spacerPass_replaced (cs.dropWhile (· != '<'))).sameTags
  have hfree : ∀ c ∈ cs.takeWhile (· != '<'), (c != '<') = true := by
    intro c hc
    exact List.mem_takeWhile_imp (p := (· != '<')) hc
  rw [hsplit, List.takeWhile_append_of_pos hfree, List.dropWhile_append_of_pos hfree]
  -- The rest of the text is empty or starts with `<`, and so does what is made of it.
  cases hdrop : cs.dropWhile (· != '<') with
  | nil =>
      rw [show spacerPass [] = [] from spacers.run_nil ()]
      exact ⟨by simp, .nil⟩
  | cons d ds =>
      have hd : d = '<' := by
        have hhead := List.head?_dropWhile_not (· != '<') cs
        rw [hdrop] at hhead
        simpa using hhead
      subst hd
      rw [hdrop] at hsame
      obtain ⟨xs, hxs, hrest⟩ := SameTags.cons_inv (by decide) hsame
      rw [hxs]
      exact ⟨by simp, hrest.copied '<'⟩

/-- The second run over a spacer span finds the sentinel in it. -/
theorem spacerPass_marked {openTag close rest cs : List Char}
    (hcs : openTag ++ whitespaceSentinel :: (close ++ rest) = '<' :: cs)
    (hopen : tagOpen spanTag ('<' :: cs) = true)
    (hend : tagEnd false false ('<' :: cs) = some (openTag, whitespaceSentinel :: (close ++ rest)))
    (hclose : closeTag spanCloseTag (close ++ rest) = some (close, rest)) :
    spacerPass ('<' :: cs) = openTag ++ whitespaceSentinel :: (close ++ spacerPass rest) := by
  have hcut : spacerCut () ('<' :: cs) = ⟨openTag, whitespaceSentinel :: (close ++ rest), ()⟩ := by
    rw [← hcs] at hopen hend ⊢
    refine spacerCut_tag hopen hend fun hblank => ?_
    rw [List.takeWhile_cons_of_pos (by decide), isBlank_iff] at hblank
    exact absurd (hblank.2 _ List.mem_cons_self) (by decide)
  have hcopy : spacerPass (whitespaceSentinel :: (close ++ rest))
      = whitespaceSentinel :: spacerPass (close ++ rest) :=
    spacers.run_cons () (by decide) _
  rw [spacerPass_cut hcut, hcopy, spacerPass_close hclose]

/-- **A second run changes nothing**: it takes the turns of the first one. -/
theorem spacerPass_twice (cs : List Char) : spacerPass (spacerPass cs) = spacerPass cs := by
  refine spacers.run_idempotent ?_ () cs
  intro _ cs
  show spacerPass (spacerPass ('<' :: cs)) = (spacerCut () ('<' :: cs)).pushed
    ++ spacerPass (spacerPass (spacerCut () ('<' :: cs)).rest)
  have hsame : SameTags (spacerPass ('<' :: cs)) ('<' :: cs) := (spacerPass_replaced _).sameTags
  have hopen := hsame.tagOpen_eq noGt_spanTag
  have hnone : tagEnd false false (spacerPass ('<' :: cs)) = none
      ↔ tagEnd false false ('<' :: cs) = none := hsame.tagEnd_eq_none_iff
  obtain ⟨xs, hxs, -⟩ := hsame.cons_inv (by decide)
  cases hspan : spacerSpan ('<' :: cs) with
  | some p =>
      obtain ⟨openTag, close, rest⟩ := p
      obtain ⟨blank, -, -, -, htag, hend, -, hclose⟩ := spacerSpan_eq_some hspan
      have hcut : spacerCut () ('<' :: cs)
          = ⟨openTag ++ whitespaceSentinel :: close, rest, ()⟩ := by
        unfold spacerCut
        rw [hspan]
      have hfirst := spacerPass_cut hcut
      rw [List.append_assoc, List.cons_append] at hfirst
      rw [hcut, hxs, List.append_assoc, List.cons_append]
      rw [hxs] at hfirst hopen
      refine spacerPass_marked hfirst.symm (hopen.trans htag) ?_
        (closeTag_cut noGt_spanCloseTag hclose _)
      rw [hfirst]
      exact tagEnd_behind hend _
  | none =>
      by_cases hlone : tagOpen spanTag ('<' :: cs) = true → tagEnd false false ('<' :: cs) = none
      · have hcut := spacerCut_lone hlone
        have hfirst := spacerPass_cut hcut
        rw [hfirst] at hopen hnone
        rw [hcut, hfirst]
        exact spacerPass_cut (spacerCut_lone fun h => hnone.mpr (hlone (hopen.symm.trans h)))
      · rw [Classical.not_imp] at hlone
        obtain ⟨htag, hend⟩ := hlone
        obtain ⟨⟨openTag, rest⟩, hend⟩ := Option.ne_none_iff_exists'.mp hend
        obtain ⟨hcs, -⟩ := tagEnd_eq hend
        have hnone := not_closed_of_spacerSpan_none hspan htag hend
        have hcut : spacerCut () ('<' :: cs) = ⟨openTag, rest, ()⟩ := by
          rw [hcs] at htag hend ⊢
          exact spacerCut_tag htag hend hnone
        have hfirst := spacerPass_cut hcut
        -- What follows the tag is as blank as it was, and closed as it was.
        obtain ⟨htake, hdrop⟩ := spacerPass_takeWhile rest
        rw [← htake, ← hdrop.closeTag_eq_none_iff noGt_spanCloseTag] at hnone
        rw [hcut, hxs]
        rw [hxs] at hfirst hopen
        refine spacerPass_cut ?_
        rw [hfirst] at hopen ⊢
        exact spacerCut_tag (hopen.trans htag) (tagEnd_behind hend _) hnone

/-- **The span patch on arbitrary text**: it ends and never panics, it replaces spacer texts
and copies the rest, and it leaves its own output as it is. -/
theorem preserveWhitespaceOnlySpans_safe (html : String) :
    ∃ out, preserveWhitespaceOnlySpans html = some out
      ∧ SpacersReplaced out.toList html.toList
      ∧ preserveWhitespaceOnlySpans out = some out := by
  refine ⟨_, preserveWhitespaceOnlySpans_eq html, ?_, ?_⟩
  · rw [String.toList_ofList]
    exact spacerPass_replaced html.toList
  · rw [preserveWhitespaceOnlySpans_eq, String.toList_ofList, spacerPass_twice]

end CodespanFixup

/-! ## Line breaks -/

namespace CodeblockLinebreaks

/-- The first text is the second with line breaks inserted.  Each stands directly behind a
closing tag of a line and directly before a character that is neither whitespace nor the
start of a closing tag. -/
inductive BreaksInserted : List Char → List Char → Prop
  | nil : BreaksInserted [] []
  | copied (c : Char) {xs cs : List Char} (h : BreaksInserted xs cs) :
      BreaksInserted (c :: xs) (c :: cs)
  | inserted {name tag xs : List Char} {c : Char} {cs : List Char}
      (hname : name ∈ lineBoundaryCloseTags)
      (htag : closeTag (closeBytes name) (tag ++ c :: cs) = some (tag, c :: cs))
      (hspace : isSpace c = false) (hclose : ¬ ['<', '/'] <+: c :: cs)
      (h : BreaksInserted xs (c :: cs)) : BreaksInserted (tag ++ '\n' :: xs) (tag ++ c :: cs)

theorem breakNeeded_iff (cs : List Char) : breakNeeded cs = true
    ↔ ∃ d ds, cs = d :: ds ∧ isSpace d = false ∧ ¬ ['<', '/'] <+: d :: ds := by
  cases cs with
  | nil => simp [breakNeeded]
  | cons d ds =>
      have hclose : ['<', '/'] <+: d :: ds ↔ (d == '<' && ds.head? == some '/') = true := by
        rw [Bool.and_eq_true, beq_iff_eq, beq_iff_eq]
        cases ds with
        | nil => simp
        | cons e es =>
            rw [List.cons_prefix_cons, List.cons_prefix_cons, List.head?_cons, Option.some_inj]
            exact ⟨fun h => ⟨h.1.symm, h.2.1.symm⟩, fun h => ⟨h.1.symm, h.2.symm, List.nil_prefix⟩⟩
      rw [breakNeeded, Bool.and_eq_true, Bool.not_eq_true', Bool.not_eq_true',
        ← Bool.not_eq_true (d == '<' && _), ← hclose]
      constructor
      · exact fun h => ⟨d, ds, rfl, h⟩
      · rintro ⟨d', ds', heq, hspace, hnot⟩
        obtain ⟨rfl, rfl⟩ := List.cons.inj heq
        exact ⟨hspace, hnot⟩

theorem BreaksInserted.append (tag : List Char) {xs cs : List Char} (h : BreaksInserted xs cs) :
    BreaksInserted (tag ++ xs) (tag ++ cs) := by
  induction tag with
  | nil => exact h
  | cons c tag ih => exact .copied c ih

/-- The scanner inserts the missing line breaks and copies the text. -/
theorem breakPass_inserted (inPre : Bool) (cs : List Char) :
    BreaksInserted (breakPass inPre cs) cs := by
  refine breaks.run_induction .nil (fun c _ _ h => .copied c h) ?_ inPre cs
  intro r cs xs h
  show BreaksInserted ((breakCut r ('<' :: cs)).pushed ++ xs) ('<' :: cs)
  change BreaksInserted xs (breakCut r ('<' :: cs)).rest at h
  unfold breakCut at h ⊢
  split at h
  · rename_i tag rest hend
    split_ifs at hend
    rw [(tagEnd_eq hend).1]
    exact h.append tag
  · split_ifs at h ⊢ with hr
    · split at h
      · rename_i tag rest hclose
        rw [(closeTag_eq hclose).1]
        exact h.append tag
      · split at h
        · rename_i tag rest hline
          obtain ⟨hcs, -⟩ := boundaryTag_eq hline
          obtain ⟨name, hname, htag⟩ := List.exists_of_findSome?_eq_some hline
          rw [hcs] at htag ⊢
          split_ifs with hneeded
          · obtain ⟨d, ds, rfl, hspace, hnot⟩ := (breakNeeded_iff rest).mp hneeded
            rw [List.append_assoc, List.singleton_append]
            exact .inserted hname htag hspace hnot h
          · exact h.append _
        · exact .copied '<' h
    · exact .copied '<' h

/-! ### A second run over the line breaks -/

theorem Broken.sameTags {xs cs : List Char} (h : Broken xs cs) : SameTags xs cs := by
  induction h with
  | nil => exact .nil
  | copied c _ ih => exact .copied c ih
  | @broken xs cs _ ih =>
      show SameTags ('>' :: (['\n'] ++ xs)) ('>' :: ([] ++ cs))
      exact .behind (by simp) (by simp) ih

theorem noGt_openBytes_pre : NoGt (openBytes preName) := by unfold NoGt; decide +kernel

theorem noGt_closeBytes_pre : NoGt (closeBytes preName) := by unfold NoGt; decide +kernel

theorem noGt_closeBytes : ∀ name ∈ lineBoundaryCloseTags, NoGt (closeBytes name) := by
  unfold NoGt
  decide +kernel

theorem breakPass_cut {r r' : Bool} {cs pushed rest : List Char}
    (hcut : breakCut r ('<' :: cs) = ⟨pushed, rest, r'⟩) :
    breakPass r ('<' :: cs) = pushed ++ breakPass r' rest := by
  unfold breakPass
  rw [breaks.run_lt]
  show (breakCut r ('<' :: cs)).pushed
    ++ breaks.run (breakCut r ('<' :: cs)).state (breakCut r ('<' :: cs)).rest = _
  rw [hcut]

theorem breakNeeded_of_sameTags {xs cs : List Char} (h : SameTags xs cs) :
    breakNeeded xs = breakNeeded cs := by
  have hhead : ∀ {xs cs : List Char}, SameTags xs cs → xs.head? = cs.head? := by
    intro xs cs h
    cases h <;> rfl
  cases h with
  | nil => rfl
  | copied c h => rw [breakNeeded, breakNeeded, hhead h]
  | behind => rfl

/-- The first closing tag of several that a text starts with, whatever follows it. -/
theorem boundaryTag_cut {names : List (List Char)} (hnames : ∀ name ∈ names, NoGt (closeBytes name))
    {cs tag rest : List Char}
    (h : names.findSome? (fun name => closeTag (closeBytes name) cs) = some (tag, rest))
    (xs : List Char) :
    names.findSome? (fun name => closeTag (closeBytes name) (tag ++ xs)) = some (tag, xs) := by
  induction names with
  | nil => exact absurd h (by simp)
  | cons name names ih =>
      obtain ⟨hname, hnames⟩ := List.forall_mem_cons.mp hnames
      rw [List.findSome?_cons] at h ⊢
      cases hclose : closeTag (closeBytes name) cs with
      | some p =>
          rw [hclose] at h
          rw [closeTag_cut hname (hclose.trans h)]
      | none =>
          rw [hclose] at h
          have hrest := ih hnames h
          obtain ⟨name', -, hname'⟩ := List.exists_of_findSome?_eq_some h
          obtain ⟨front, rfl⟩ := closeTag_gt hname'
          rw [(closeTag_eq hname').1, List.append_assoc, List.singleton_append,
            closeTag_behind hname, Option.map_eq_none_iff] at hclose
          rw [List.append_assoc, List.singleton_append] at hrest ⊢
          rw [closeTag_behind hname, hclose, Option.map_none]
          exact hrest

/-- The closing tag of a line that a text starts with. -/
def boundaryTag (cs : List Char) : Option (List Char × List Char) :=
  lineBoundaryCloseTags.findSome? fun name => closeTag (closeBytes name) cs

/-- Only the first character of such a tag may start another one. -/
theorem boundaryTag_tail_no_lt {cs tag rest : List Char}
    (h : boundaryTag cs = some (tag, rest)) :
    ∃ c tag', tag = c :: tag' ∧ ∀ d ∈ tag', d ≠ '<' := by
  obtain ⟨name, hname, htag⟩ := List.exists_of_findSome?_eq_some h
  have hbytes : ∀ name ∈ lineBoundaryCloseTags, closeBytes name = 0x3C :: (closeBytes name).tail
      ∧ ∀ t ∈ (closeBytes name).tail, Utf8.ascii (eqIgnoreAsciiCase · t) '<' = false := by
    decide +kernel
  obtain ⟨hcons, hfree⟩ := hbytes name hname
  rw [hcons] at htag
  exact closeTag_tail_no_lt hfree htag

theorem boundaryTag_eq_none_iff_of_sameTags {xs cs : List Char} (h : SameTags xs cs) :
    boundaryTag xs = none ↔ boundaryTag cs = none := by
  unfold boundaryTag
  rw [List.findSome?_eq_none_iff, List.findSome?_eq_none_iff]
  exact forall₂_congr fun name hname => h.closeTag_eq_none_iff (noGt_closeBytes name hname)

/-- Outside a region, a `<pre` tag opens one. -/
theorem breakCut_opened {cs tag rest : List Char} (hopen : tagOpen (openBytes preName) cs = true)
    (hend : tagEnd false false cs = some (tag, rest)) : breakCut false cs = ⟨tag, rest, true⟩ := by
  unfold breakCut
  rw [hopen, hend]
  rfl

/-- Inside, the end tag of `pre` closes the region. -/
theorem breakCut_closed {cs tag rest : List Char}
    (hclose : closeTag (closeBytes preName) cs = some (tag, rest)) :
    breakCut true cs = ⟨tag, rest, false⟩ := by
  unfold breakCut
  rw [hclose]
  rfl

theorem breakCut_line {cs tag rest : List Char}
    (hclose : closeTag (closeBytes preName) cs = none) (hline : boundaryTag cs = some (tag, rest)) :
    breakCut true cs = ⟨if breakNeeded rest then tag ++ ['\n'] else tag, rest, true⟩ := by
  unfold boundaryTag at hline
  unfold breakCut
  rw [hclose, hline]
  rfl

/-- Any other `<` is copied alone. -/
theorem breakCut_lone {r : Bool} {cs : List Char}
    (hopen : r = false → tagOpen (openBytes preName) cs = true → tagEnd false false cs = none)
    (hclose : r = true → closeTag (closeBytes preName) cs = none ∧ boundaryTag cs = none) :
    breakCut r cs = ⟨['<'], cs.tail, r⟩ := by
  unfold breakCut
  cases r with
  | false =>
      cases htag : tagOpen (openBytes preName) cs with
      | false => rfl
      | true => rw [hopen rfl htag]; rfl
  | true =>
      obtain ⟨hpre, hline⟩ := hclose rfl
      unfold boundaryTag at hline
      rw [hpre, hline]
      rfl

/-- What the scanner does at a `<`. -/
theorem breakCut_cases (r : Bool) (cs : List Char) :
    (∃ tag rest, r = false ∧ tagOpen (openBytes preName) cs = true
        ∧ tagEnd false false cs = some (tag, rest))
      ∨ (∃ tag rest, r = true ∧ closeTag (closeBytes preName) cs = some (tag, rest))
      ∨ (∃ tag rest, r = true ∧ closeTag (closeBytes preName) cs = none
        ∧ boundaryTag cs = some (tag, rest))
      ∨ (r = false → tagOpen (openBytes preName) cs = true → tagEnd false false cs = none)
        ∧ (r = true → closeTag (closeBytes preName) cs = none ∧ boundaryTag cs = none) := by
  cases r with
  | false =>
      cases hend : tagEnd false false cs with
      | none => exact Or.inr (Or.inr (Or.inr ⟨fun _ _ => rfl, by simp⟩))
      | some p =>
          cases hopen : tagOpen (openBytes preName) cs with
          | false => exact Or.inr (Or.inr (Or.inr ⟨by simp, by simp⟩))
          | true => exact Or.inl ⟨p.1, p.2, rfl, rfl, rfl⟩
  | true =>
      cases hclose : closeTag (closeBytes preName) cs with
      | some p => exact Or.inr (Or.inl ⟨p.1, p.2, rfl, rfl⟩)
      | none =>
          cases hline : boundaryTag cs with
          | some p => exact Or.inr (Or.inr (Or.inl ⟨p.1, p.2, rfl, rfl, rfl⟩))
          | none => exact Or.inr (Or.inr (Or.inr ⟨by simp, fun _ => ⟨rfl, rfl⟩⟩))

/-- The second run finds the line break that the first one put behind a closing tag. -/
theorem breakPass_line_twice {cs tag rest : List Char}
    (hclose : closeTag (closeBytes preName) ('<' :: cs) = none)
    (hline : boundaryTag ('<' :: cs) = some (tag, rest)) :
    breakPass true (breakPass true ('<' :: cs))
      = (if breakNeeded rest then tag ++ ['\n'] else tag)
        ++ breakPass true (breakPass true rest) := by
  have hsame : SameTags (breakPass true ('<' :: cs)) ('<' :: cs) :=
    (breakPass_broken true _).sameTags
  obtain ⟨xs, hxs, -⟩ := hsame.cons_inv (by decide)
  have hpre := hsame.closeTag_eq_none_iff noGt_closeBytes_pre
  have hfirst := breakPass_cut (breakCut_line hclose hline)
  rw [hxs]
  rw [hxs] at hfirst hpre
  cases hneeded : breakNeeded rest with
  | true =>
      rw [hneeded, if_pos rfl, List.append_assoc, List.singleton_append] at hfirst
      have hboundary : boundaryTag ('<' :: xs) = some (tag, '\n' :: breakPass true rest) := by
        rw [hfirst]
        exact boundaryTag_cut noGt_closeBytes hline _
      have hsecond : breakCut true ('<' :: xs) = ⟨tag, '\n' :: breakPass true rest, true⟩ :=
        breakCut_line (hpre.mpr hclose) hboundary
      have hcopy : breakPass true ('\n' :: breakPass true rest)
          = '\n' :: breakPass true (breakPass true rest) :=
        breaks.run_cons true (by decide) _
      rw [breakPass_cut hsecond, hcopy, if_pos rfl, List.append_assoc, List.singleton_append]
  | false =>
      have hboundary : boundaryTag ('<' :: xs) = some (tag, breakPass true rest) := by
        rw [hfirst, hneeded]
        exact boundaryTag_cut noGt_closeBytes hline _
      have hrest := breakNeeded_of_sameTags (breakPass_broken true rest).sameTags
      have hsecond := breakCut_line (hpre.mpr hclose) hboundary
      rw [hrest, hneeded] at hsecond
      exact breakPass_cut hsecond

/-- **A second run changes nothing**: it takes the turns of the first one. -/
theorem breakPass_twice (r : Bool) (cs : List Char) :
    breakPass r (breakPass r cs) = breakPass r cs := by
  refine breaks.run_idempotent ?_ r cs
  intro r cs
  show breakPass r (breakPass r ('<' :: cs)) = (breakCut r ('<' :: cs)).pushed
    ++ breakPass (breakCut r ('<' :: cs)).state
      (breakPass (breakCut r ('<' :: cs)).state (breakCut r ('<' :: cs)).rest)
  have hsame : SameTags (breakPass r ('<' :: cs)) ('<' :: cs) := (breakPass_broken r _).sameTags
  obtain ⟨xs, hxs, -⟩ := hsame.cons_inv (by decide)
  have hopen := hsame.tagOpen_eq noGt_openBytes_pre
  have hpre := hsame.closeTag_eq_none_iff noGt_closeBytes_pre
  rcases breakCut_cases r ('<' :: cs) with ⟨tag, rest, rfl, htag, hend⟩
    | ⟨tag, rest, rfl, hclose⟩ | ⟨tag, rest, rfl, hclose, hline⟩ | ⟨hnotag, hnoclose⟩
  · have hcut := breakCut_opened htag hend
    have hfirst := breakPass_cut hcut
    rw [hcut, hxs]
    rw [hxs] at hfirst hopen
    refine breakPass_cut (breakCut_opened (hopen.trans htag) ?_)
    rw [hfirst]
    exact tagEnd_behind hend _
  · have hcut := breakCut_closed hclose
    have hfirst := breakPass_cut hcut
    rw [hcut, hxs]
    rw [hxs] at hfirst
    refine breakPass_cut (breakCut_closed ?_)
    rw [hfirst]
    exact closeTag_cut noGt_closeBytes_pre hclose _
  · rw [breakCut_line hclose hline]
    exact breakPass_line_twice hclose hline
  · have hcut : breakCut r ('<' :: cs) = ⟨['<'], cs, r⟩ := breakCut_lone hnotag hnoclose
    have hfirst := breakPass_cut hcut
    have hend : tagEnd false false (breakPass r ('<' :: cs)) = none
      ↔ tagEnd false false ('<' :: cs) = none := hsame.tagEnd_eq_none_iff
    have hline := boundaryTag_eq_none_iff_of_sameTags hsame
    rw [hfirst] at hopen hpre hend hline
    rw [hcut, hfirst]
    refine breakPass_cut (breakCut_lone ?_ ?_)
    · exact fun hr htag => hend.mpr (hnotag hr (hopen.symm.trans htag))
    · exact fun hr => ⟨hpre.mpr (hnoclose hr).1, hline.mpr (hnoclose hr).2⟩

/-- Without `<pre` no region is opened, and nothing is changed. -/
theorem breakPass_eq_self {cs : List Char}
    (h : ∀ rest, rest <:+ cs → matchesTag (openBytes preName) rest = false) :
    breakPass false cs = cs := by
  induction cs with
  | nil => exact breaks.run_nil false
  | cons c cs ih =>
      have hrest := ih fun rest hrest => h rest (hrest.trans (List.suffix_cons c cs))
      by_cases hc : c = '<'
      · subst hc
        have hopen : tagOpen (openBytes preName) ('<' :: cs) = false := by
          rw [tagOpen, h _ List.suffix_rfl, Bool.false_and]
        have hcut : breakCut false ('<' :: cs) = ⟨['<'], cs, false⟩ :=
          breakCut_lone (fun _ htag => absurd (hopen.symm.trans htag) (by simp)) (by simp)
        rw [breakPass_cut hcut, hrest]
        rfl
      · have hcopy : breakPass false (c :: cs) = c :: breakPass false cs :=
          breaks.run_cons false hc cs
        rw [hcopy, hrest]

/-- **The line-break patch on arbitrary text**: it ends and never panics, it only inserts line
breaks behind closing tags of lines, none without a `<pre`, and it leaves its own output as it
is. -/
theorem preserveCodeBlockLineBreaks_safe (html : String) :
    ∃ out, preserveCodeBlockLineBreaks html = some out
      ∧ BreaksInserted out.toList html.toList
      ∧ ((∀ rest, rest <:+ html.toList → matchesTag (openBytes preName) rest = false) → out = html)
      ∧ preserveCodeBlockLineBreaks out = some out := by
  refine ⟨_, preserveCodeBlockLineBreaks_eq html, ?_, ?_, ?_⟩
  · rw [String.toList_ofList]
    exact breakPass_inserted false html.toList
  · intro h
    rw [breakPass_eq_self h, String.ofList_toList]
  · rw [preserveCodeBlockLineBreaks_eq, String.toList_ofList, breakPass_twice]

end CodeblockLinebreaks
