/-
# What becomes of a selection

The end of the cascade: the audit may drop a selection or put the text of the whole
document in its place, and what is left is cut off at the limit.

* `truncate_longest`: what is cut off, and what is left.
* `content_ink_iff`: when the content is not blank.
* `selection_kept_iff`: when the content is not shorter than the selection.
* `keeps_of_longer`: a longer selection is kept where a shorter one is.
-/
import Serica.LargePages

namespace Extract

open CodespanFixup CodeblockLinebreaks

/-! ## The selection -/

/-- The text that is selected of what the extractor returns. -/
def selected (options : Options) (result : Option ExtractResult) : Option String :=
  (result.filter fun r => markdownSelected options r ∨ HasInk (selection options r)).map
    (selection options)

/-- The bytes of the selection, restored. -/
def selectedBytes (options : Options) (result : Option ExtractResult) : ℕ :=
  ((selected options result).map restoredBytes).getD 0

def selectedMethod (options : Options) (result : Option ExtractResult) : ExtractMethod :=
  if result.any (markdownSelected options) then .markdown else .textFallback

/-- What is chosen is the selection, restored. -/
theorem choose_eq (options : Options) (result : Option ExtractResult) :
    (choose options result).1 = (selected options result).map restoreWhitespacePlaceholders
      ∧ (choose options result).2.1 = selectedMethod options result := by
  cases result with
  | none => exact ⟨rfl, rfl⟩
  | some r =>
      obtain ⟨hchosen, hmethod⟩ := choose_selection options r
      rw [hchosen, hmethod, selected, selectedMethod, Option.filter_some, Option.any_some]
      refine ⟨?_, rfl⟩
      by_cases hsel : markdownSelected options r ∨ HasInk (selection options r)
      · rw [if_pos hsel, if_pos (decide_eq_true hsel)]
        rfl
      · rw [if_neg hsel, if_neg (by simpa using hsel)]
        rfl

theorem len_choose (options : Options) (result : Option ExtractResult) :
    ((choose options result).1.map RustStr.len).getD 0 = selectedBytes options result := by
  rw [(choose_eq options result).1, selectedBytes]
  cases selected options result with
  | none => rfl
  | some s => exact len_restore s

/-! ## The audit -/

/-- A selection of `n` bytes is audited, for its length or for that of the page. -/
def Audited (rawBytes maxBytes n : ℕ) (method : ExtractMethod) : Prop :=
  (n < wholeDocCheckFloor ∧ ¬ (method = .markdown ∧ healthyMarkdownFloor ≤ n))
    ∨ (largePageRawBytes ≤ rawBytes ∧ n < maxBytes)

/-- `threshold`. -/
def auditThreshold (rawBytes : ℕ) : ℚ :=
  if largePageRawBytes ≤ rawBytes then largePageRatioThreshold else ratioThreshold

/-- A selection of `n` bytes is audited, and too small a part of the `docBytes` bytes of
the whole document. -/
def Rejected (rawBytes maxBytes docBytes n : ℕ) (method : ExtractMethod) : Prop :=
  Audited rawBytes maxBytes n method ∧ 0 < docBytes ∧ (n : ℚ) / docBytes < auditThreshold rawBytes

instance (rawBytes maxBytes n : ℕ) (method : ExtractMethod) :
    Decidable (Audited rawBytes maxBytes n method) :=
  inferInstanceAs (Decidable (_ ∨ _))

instance (rawBytes maxBytes docBytes n : ℕ) (method : ExtractMethod) :
    Decidable (Rejected rawBytes maxBytes docBytes n method) :=
  inferInstanceAs (Decidable (_ ∧ _))

/-- **The audit is monotone**: a longer selection is audited only where a shorter one is,
and is a larger part of the document. -/
theorem Rejected.of_le {rawBytes maxBytes docBytes n n' : ℕ} {method : ExtractMethod}
    (hle : n ≤ n') (h : Rejected rawBytes maxBytes docBytes n' method) :
    Rejected rawBytes maxBytes docBytes n method := by
  obtain ⟨haudited, hdoc, hratio⟩ := h
  refine ⟨?_, hdoc, lt_of_le_of_lt ?_ hratio⟩
  · rcases haudited with ⟨hfloor, hband⟩ | ⟨hlarge, hcap⟩
    · exact Or.inl ⟨hle.trans_lt hfloor, fun ⟨hmd, hn⟩ => hband ⟨hmd, hn.trans hle⟩⟩
    · exact Or.inr ⟨hlarge, hle.trans_lt hcap⟩
  · exact div_le_div_of_nonneg_right (by exact_mod_cast hle) (Nat.cast_nonneg docBytes)

/-- A rejected selection is shorter than the document. -/
theorem Rejected.lt {rawBytes maxBytes docBytes n : ℕ} {method : ExtractMethod}
    (h : Rejected rawBytes maxBytes docBytes n method) : n < docBytes := by
  obtain ⟨-, hdoc, hratio⟩ := h
  have hone : auditThreshold rawBytes ≤ 1 := by
    unfold auditThreshold largePageRatioThreshold ratioThreshold
    split_ifs <;> norm_num
  have hlt := hratio.trans_le hone
  rw [div_lt_one (by exact_mod_cast hdoc)] at hlt
  exact_mod_cast hlt

theorem auditNeeded_iff (rawBytes : ℕ) (config : ExtractConfig) (chosen : Option String)
    (method : ExtractMethod) :
    auditNeeded rawBytes config chosen method = true
      ↔ Audited rawBytes config.maxContentChars ((chosen.map RustStr.len).getD 0) method := by
  unfold auditNeeded Audited
  cases chosen with
  | none => simp [wholeDocCheckFloor, healthyMarkdownFloor]
  | some s => simp [imp_iff_not_or]

variable (lib : HtmlLib) (extractor : Extractor)

theorem len_wholeDocText_pos {html : String} :
    0 < RustStr.len (wholeDocText lib html) ↔ wholeDocText lib html ≠ "" := by
  rw [Nat.pos_iff_ne_zero, ne_eq, ne_eq, not_iff_not, RustStr.len, RustStr.asBytes,
    length_encode_eq_zero, String.toList_eq_nil_iff]

/-- A selection that is not rejected stays as it is. -/
theorem audit_kept {html : String} {rawBytes : ℕ} {config : ExtractConfig}
    {chosen : Option String} {method : ExtractMethod}
    (h : ¬ Rejected rawBytes config.maxContentChars (RustStr.len (wholeDocText lib html))
      ((chosen.map RustStr.len).getD 0) method) :
    (audit lib html rawBytes config chosen method).1 = chosen
      ∧ (audit lib html rawBytes config chosen method).2.1 = method := by
  cases hneeded : auditNeeded rawBytes config chosen method with
  | false =>
      rw [audit_not_needed lib hneeded]
      exact ⟨rfl, rfl⟩
  | true =>
      rw [Rejected, ← auditNeeded_iff, len_wholeDocText_pos] at h
      unfold audit
      unfold auditNeeded at hneeded
      dsimp only at hneeded ⊢
      rw [if_pos hneeded]
      by_cases hdoc : wholeDocText lib html = ""
      · rw [if_neg (not_not_intro hdoc)]
        exact ⟨rfl, rfl⟩
      · have hratio := fun hsmall => h ⟨hneeded, hdoc, hsmall⟩
        unfold auditThreshold at hratio
        rw [if_pos hdoc, if_neg hratio]
        exact ⟨rfl, rfl⟩

/-- A rejected selection is dropped, for the text of the whole document if that is long
enough. -/
theorem audit_rejected {html : String} {rawBytes : ℕ} {config : ExtractConfig}
    {chosen : Option String} {method : ExtractMethod}
    (h : Rejected rawBytes config.maxContentChars (RustStr.len (wholeDocText lib html))
      ((chosen.map RustStr.len).getD 0) method) :
    (audit lib html rawBytes config chosen method).1
        = (if minFallbackChars ≤ RustStr.len (wholeDocText lib html) then
            some (wholeDocText lib html) else none)
      ∧ (audit lib html rawBytes config chosen method).2.1
        = if minFallbackChars ≤ RustStr.len (wholeDocText lib html) then .wholeDocFallback
          else method := by
  obtain ⟨hneeded, hdoc, hratio⟩ := h
  rw [← auditNeeded_iff] at hneeded
  rw [len_wholeDocText_pos] at hdoc
  unfold auditThreshold at hratio
  unfold audit
  unfold auditNeeded at hneeded
  dsimp only at hneeded ⊢
  rw [if_pos hneeded, if_pos hdoc, if_pos hratio]
  split_ifs <;> exact ⟨rfl, rfl⟩

/-- What the extractor returns of a page. -/
def resultOf (html : String) (options : Options) : Option ExtractResult :=
  extractor (patchedHtml lib html) options

/-- The selection on a page is rejected. -/
def SelectionRejected (html : String) (options : Options) (config : ExtractConfig) : Prop :=
  Rejected (RustStr.len html) config.maxContentChars (RustStr.len (wholeDocText lib html))
    (selectedBytes options (resultOf lib extractor html options))
    (selectedMethod options (resultOf lib extractor html options))

/-- A selection that is not rejected is delivered, truncated. -/
theorem outcome_kept {html : String} {options : Options} {config : ExtractConfig}
    (h : ¬ SelectionRejected lib extractor html options config) :
    ∃ outcome, extractFromHtml lib extractor html options config = some outcome
      ∧ outcome.method = selectedMethod options (resultOf lib extractor html options)
      ∧ ((selected options (resultOf lib extractor html options) = none ∧ outcome.content = none)
        ∨ ∃ s t, selected options (resultOf lib extractor html options) = some s
          ∧ outcome.content = some t
          ∧ truncateAtCharBoundary (restoreWhitespacePlaceholders s) config.maxContentChars
            = some t) := by
  obtain ⟨outcome, hrun, hcontent, hmethod, -⟩ :=
    extractFromHtml_outcome lib extractor html options config
  unfold auditedChoice at hcontent hmethod
  dsimp only at hcontent hmethod
  rw [SelectionRejected, resultOf, ← len_choose, ← (choose_eq _ _).2] at h
  obtain ⟨hfinal, hkept⟩ := audit_kept lib h
  rw [hfinal, (choose_eq _ _).1] at hcontent
  rw [hkept, (choose_eq _ _).2] at hmethod
  refine ⟨outcome, hrun, hmethod, (content_cases hcontent).imp ?_ ?_⟩
  · exact And.imp_left Option.map_eq_none_iff.mp
  · rintro ⟨s, t, hs, ht, htrunc⟩
    obtain ⟨s', hs', rfl⟩ := Option.map_eq_some_iff.mp hs
    exact ⟨s', t, hs', ht, htrunc⟩

/-- Where a selection is rejected, the text of the whole document is delivered, if that is
long enough. -/
theorem outcome_rejected {html : String} {options : Options} {config : ExtractConfig}
    (h : SelectionRejected lib extractor html options config) :
    ∃ outcome, extractFromHtml lib extractor html options config = some outcome
      ∧ ((RustStr.len (wholeDocText lib html) < minFallbackChars ∧ outcome.content = none)
        ∨ (minFallbackChars ≤ RustStr.len (wholeDocText lib html)
          ∧ outcome.method = .wholeDocFallback
          ∧ ∃ t, outcome.content = some t
            ∧ truncateAtCharBoundary (wholeDocText lib html) config.maxContentChars = some t)) := by
  obtain ⟨outcome, hrun, hcontent, hmethod, -⟩ :=
    extractFromHtml_outcome lib extractor html options config
  unfold auditedChoice at hcontent hmethod
  dsimp only at hcontent hmethod
  rw [SelectionRejected, resultOf, ← len_choose, ← (choose_eq _ _).2] at h
  obtain ⟨hfinal, hmethod'⟩ := audit_rejected lib h
  rw [hfinal] at hcontent
  rw [hmethod'] at hmethod
  refine ⟨outcome, hrun, ?_⟩
  by_cases hlong : minFallbackChars ≤ RustStr.len (wholeDocText lib html)
  · rw [if_pos hlong] at hcontent hmethod
    obtain ⟨hnone, -⟩ | ⟨s, t, hs, ht, htrunc⟩ := content_cases hcontent
    · exact absurd hnone (by simp)
    · rw [← Option.some.inj hs] at htrunc
      exact Or.inr ⟨hlong, hmethod, t, ht, htrunc⟩
  · rw [if_neg hlong] at hcontent
    exact Or.inl ⟨not_le.mp hlong, (Option.some.inj hcontent).symm⟩

/-! ## The limit -/

/-- `t` is the longest part of `s` from the start on, between two characters, of at most
`maxBytes` bytes. -/
structure LongestFit (s : String) (maxBytes : ℕ) (t : String) : Prop where
  isPrefix : t.toList <+: s.toList
  fits : RustStr.len t ≤ maxBytes
  longest : ∀ p : String, p.toList <+: s.toList → RustStr.len p ≤ maxBytes →
    RustStr.len p ≤ RustStr.len t

theorem LongestFit.of_truncate {s t : String} {maxBytes : ℕ}
    (h : truncateAtCharBoundary s maxBytes = some t) : LongestFit s maxBytes t := by
  obtain ⟨k, hk, hfits, hlongest⟩ := truncateAtCharBoundary_eq_take s maxBytes
  obtain rfl := Option.some.inj (hk.symm.trans h)
  have hlen : RustStr.len (String.ofList (s.toList.take k))
      = (Utf8.encode (s.toList.take k)).length := by
    rw [RustStr.len, RustStr.asBytes, String.toList_ofList]
  refine ⟨?_, hlen.trans_le hfits, fun p hp hpfits => ?_⟩
  · rw [String.toList_ofList]
    exact List.take_prefix k _
  · rw [hlen]
    exact Utf8.length_encode_le_of_infix (hlongest p.toList hp hpfits).isInfix

/-- The content is the longest fit of the restored selection, or of the text of the whole
document. -/
theorem content_longestFit {html : String} {options : Options} {config : ExtractConfig}
    {outcome : ExtractOutcome} {t : String}
    (hrun : extractFromHtml lib extractor html options config = some outcome)
    (ht : outcome.content = some t) :
    (∃ s, selected options (resultOf lib extractor html options) = some s
        ∧ LongestFit (restoreWhitespacePlaceholders s) config.maxContentChars t)
      ∨ LongestFit (wholeDocText lib html) config.maxContentChars t := by
  by_cases hrejected : SelectionRejected lib extractor html options config
  · obtain ⟨outcome', hrun', hcontent⟩ := outcome_rejected lib extractor hrejected
    obtain rfl : outcome' = outcome := Option.some.inj (hrun'.symm.trans hrun)
    rcases hcontent with ⟨-, hnone⟩ | ⟨-, -, t', ht', htrunc⟩
    · exact absurd (hnone.symm.trans ht) (by simp)
    · obtain rfl : t' = t := Option.some.inj (ht'.symm.trans ht)
      exact Or.inr (.of_truncate htrunc)
  · obtain ⟨outcome', hrun', -, hcontent⟩ := outcome_kept lib extractor hrejected
    obtain rfl : outcome' = outcome := Option.some.inj (hrun'.symm.trans hrun)
    rcases hcontent with ⟨-, hnone⟩ | ⟨s, t', hs, ht', htrunc⟩
    · exact absurd (hnone.symm.trans ht) (by simp)
    · obtain rfl : t' = t := Option.some.inj (ht'.symm.trans ht)
      exact Or.inl ⟨s, hs, .of_truncate htrunc⟩

/-- **Truncation never panics and leaves the longest part that fits**; so the content of
an outcome fits, and is the restored selection or the text of the whole document, from the
start on. -/
theorem truncate_longest :
    (∀ s maxBytes, ∃ t, truncateAtCharBoundary s maxBytes = some t ∧ LongestFit s maxBytes t)
      ∧ ∀ html options config, ∃ outcome,
        extractFromHtml lib extractor html options config = some outcome
          ∧ ∀ t, outcome.content = some t → RustStr.len t ≤ config.maxContentChars
            ∧ ((∃ s, selected options (resultOf lib extractor html options) = some s
                ∧ t.toList <+: (restoreWhitespacePlaceholders s).toList)
              ∨ t.toList <+: (wholeDocText lib html).toList) := by
  constructor
  · intro s maxBytes
    obtain ⟨k, hk, -⟩ := truncateAtCharBoundary_eq_take s maxBytes
    exact ⟨_, hk, .of_truncate hk⟩
  · intro html options config
    obtain ⟨outcome, hrun, -⟩ := extractFromHtml_outcome lib extractor html options config
    refine ⟨outcome, hrun, fun t ht => ?_⟩
    rcases content_longestFit lib extractor hrun ht with ⟨s, hs, hfit⟩ | hfit
    · exact ⟨hfit.fits, Or.inl ⟨s, hs, hfit.isPrefix⟩⟩
    · exact ⟨hfit.fits, Or.inr hfit.isPrefix⟩

/-! ## Content that is not blank -/

/-- A part from the start on that fits holds a character that is not whitespace. -/
def InkWithin (maxBytes : ℕ) (cs : List Char) : Prop :=
  ∃ p, p <+: cs ∧ (Utf8.encode p).length ≤ maxBytes ∧ ∃ c ∈ p, RustStr.isWhitespace c = false

theorem truncate_ink_iff {s t : String} {maxBytes : ℕ}
    (h : truncateAtCharBoundary s maxBytes = some t) :
    (∃ c ∈ t.toList, RustStr.isWhitespace c = false) ↔ InkWithin maxBytes s.toList := by
  obtain ⟨k, hk, hfits, hlongest⟩ := truncateAtCharBoundary_eq_take s maxBytes
  obtain rfl := Option.some.inj (hk.symm.trans h)
  rw [String.toList_ofList]
  constructor
  · intro hink
    exact ⟨_, List.take_prefix k _, hfits, hink⟩
  · rintro ⟨p, hp, hpfits, c, hc, hink⟩
    exact ⟨c, (hlongest p hp hpfits).subset hc, hink⟩

/-- The text of the whole document does not start with whitespace. -/
theorem coalesce_head {text : String} {c : Char} (h : (coalesce text).toList.head? = some c) :
    RustStr.isWhitespace c = false := by
  rw [coalesce, String.toList_ofList] at h
  have hpieces : ∀ l ∈ (text.toList.splitOnP RustStr.isWhitespace).filter (· ≠ []),
      l ≠ [] ∧ ∀ d ∈ l, RustStr.isWhitespace d = false := by
    intro l hl
    rw [List.mem_filter, decide_eq_true_eq] at hl
    obtain ⟨-, -, -, hink, -⟩ := RustStr.isPiece_of_mem_splitOnP hl.1
    exact ⟨hl.2, hink⟩
  generalize (text.toList.splitOnP RustStr.isWhitespace).filter (· ≠ []) = pieces at h hpieces
  cases pieces with
  | nil => exact absurd h (by simp)
  | cons l ls =>
      obtain ⟨hne, hink⟩ := hpieces l List.mem_cons_self
      obtain ⟨d, l', rfl⟩ := List.exists_cons_of_ne_nil hne
      have hd : ([' '].intercalate ((d :: l') :: ls)).head? = some d := by
        cases ls with
        | nil => rfl
        | cons m ls => rw [List.intercalate_cons_cons]; rfl
      rw [← Option.some.inj (hd.symm.trans h)]
      exact hink d List.mem_cons_self

/-- Of the text of the whole document the first character is enough. -/
theorem wholeDocText_ink_iff {html : String} {maxBytes : ℕ} (hdoc : wholeDocText lib html ≠ "") :
    InkWithin maxBytes (wholeDocText lib html).toList
      ↔ ∀ c ∈ (wholeDocText lib html).toList.head?, c.utf8Size ≤ maxBytes := by
  obtain ⟨d, cs, hcs⟩ := List.exists_cons_of_ne_nil (mt String.toList_eq_nil_iff.mp hdoc)
  have hhead : (wholeDocText lib html).toList.head? = some d := by rw [hcs, List.head?_cons]
  have hink : RustStr.isWhitespace d = false := coalesce_head hhead
  have hsize : (Utf8.encode [d]).length = d.utf8Size := by
    rw [Utf8.encode_cons, List.length_append, String.length_utf8EncodeChar]
    rfl
  simp only [hcs, List.head?_cons, Option.mem_some_iff, forall_eq']
  constructor
  · rintro ⟨p, hp, hfits, c, hc, -⟩
    obtain ⟨e, p', rfl⟩ := List.exists_cons_of_ne_nil (List.ne_nil_of_mem hc)
    obtain ⟨rfl, -⟩ := List.cons_prefix_cons.mp hp
    rw [Utf8.encode_cons, List.length_append, String.length_utf8EncodeChar] at hfits
    omega
  · intro hfits
    exact ⟨[d], by simp, hsize.trans_le hfits, d, List.mem_singleton_self d, hink⟩

/-- The first character of a text that is neither whitespace nor a placeholder ends within
the limit, once what is in front of it is restored. -/
def ReachesInk (maxBytes : ℕ) (s : String) : Prop :=
  ∃ front c back, s.toList = front ++ c :: back
    ∧ (∀ d ∈ front, d = whitespaceSentinel ∨ RustStr.isWhitespace d = true)
    ∧ c ≠ whitespaceSentinel ∧ RustStr.isWhitespace c = false
    ∧ restoredBytes (String.ofList front) + c.utf8Size ≤ maxBytes

/-- The restoration of a part of a text does not depend on what follows, but for a space. -/
theorem restoreLoop_front {c : Char} (hc : c ≠ ' ') (front cs out : List Char) :
    restoreLoop (front ++ c :: cs) out = restoreLoop (c :: cs) (restoreLoop front out) := by
  induction front, out using restoreLoop.induct with
  | case1 out => rfl
  | case2 d out =>
      rw [List.singleton_append, restoreLoop, restoreLoop, if_neg (fun h => hc h.2)]
  | case3 d e front out hpair ih =>
      rw [List.cons_append, List.cons_append, restoreLoop, if_pos hpair, ih, restoreLoop,
        if_pos hpair]
  | case4 d e front out hpair ih =>
      have ih' : restoreLoop (e :: (front ++ c :: cs)) (pushRestored out d)
          = restoreLoop (c :: cs) (restoreLoop (e :: front) (pushRestored out d)) := ih
      rw [List.cons_append, List.cons_append, restoreLoop, if_neg hpair, ih', restoreLoop,
        if_neg hpair]

/-- What was put out, up to a character that is no space, stays. -/
theorem pushRestored_keeps {base out : List Char} (hbase : base <+: out)
    (hlast : base.getLast? ≠ some ' ') (c : Char) : base <+: pushRestored out c := by
  have hpop : base <+: popSpace out := by
    unfold popSpace
    split_ifs with hspace
    · obtain ⟨init, rfl⟩ := List.getLast?_eq_some_iff.mp hspace
      rw [List.dropLast_concat]
      rcases List.prefix_concat_iff.mp hbase with rfl | hinit
      · exact absurd List.getLast?_concat hlast
      · exact hinit
    · exact hbase
  unfold pushRestored
  split_ifs
  · exact hpop.trans (List.prefix_append _ _)
  · exact hbase.trans (List.prefix_append _ _)

theorem restoreLoop_keeps {base : List Char} (hlast : base.getLast? ≠ some ' ')
    (cs out : List Char) (hbase : base <+: out) : base <+: restoreLoop cs out := by
  induction cs, out using restoreLoop.induct with
  | case1 out => exact hbase
  | case2 c out => exact pushRestored_keeps hbase hlast c
  | case3 c d cs out hpair ih =>
      rw [restoreLoop, if_pos hpair]
      exact ih (pushRestored_keeps hbase hlast c)
  | case4 c d cs out hpair ih =>
      rw [restoreLoop, if_neg hpair]
      exact ih (pushRestored_keeps hbase hlast c)

/-- The restored text, up to the first character that is neither whitespace nor a
placeholder. -/
theorem restore_front {s : String} {front back : List Char} {c : Char}
    (hs : s.toList = front ++ c :: back)
    (hfront : ∀ d ∈ front, d = whitespaceSentinel ∨ RustStr.isWhitespace d = true)
    (hne : c ≠ whitespaceSentinel) (hink : RustStr.isWhitespace c = false) :
    (restoreWhitespacePlaceholders (String.ofList front)).toList ++ [c]
        <+: (restoreWhitespacePlaceholders s).toList
      ∧ (∀ d ∈ (restoreWhitespacePlaceholders (String.ofList front)).toList,
          RustStr.isWhitespace d = true)
      ∧ (Utf8.encode ((restoreWhitespacePlaceholders (String.ofList front)).toList ++ [c])).length
        = restoredBytes (String.ofList front) + c.utf8Size := by
  have hspace : c ≠ ' ' := by
    rintro rfl
    exact absurd hink (by decide)
  refine ⟨?_, ?_, ?_⟩
  · rw [restoreWhitespacePlaceholders, restoreWhitespacePlaceholders, String.toList_ofList,
      String.toList_ofList, String.toList_ofList, hs, restoreLoop_front hspace,
      restoreLoop_cons hne]
    refine restoreLoop_keeps ?_ back _ List.prefix_rfl
    rw [List.getLast?_concat]
    exact fun h => hspace (Option.some.inj h)
  · have hblank : ¬ HasInk (String.ofList front) := by
      rintro ⟨d, hd, hdne, hdink⟩
      rw [String.toList_ofList] at hd
      exact absurd ((hfront d hd).resolve_left hdne) (by simp [hdink])
    exact (trim_eq_empty_iff _).mp ((trim_restore_eq_empty_iff _).mpr hblank)
  · rw [Utf8.encode_append, List.length_append, ← len_restore, Utf8.encode_cons,
      List.length_append, String.length_utf8EncodeChar]
    rfl

theorem exists_first_ink {s : String} (h : HasInk s) :
    ∃ front c back, s.toList = front ++ c :: back
      ∧ (∀ d ∈ front, d = whitespaceSentinel ∨ RustStr.isWhitespace d = true)
      ∧ c ≠ whitespaceSentinel ∧ RustStr.isWhitespace c = false := by
  obtain ⟨e, he, hne, hink⟩ := h
  have hfind : (s.toList.find? fun c => c ≠ whitespaceSentinel && !RustStr.isWhitespace c).isSome
      = true := by
    rw [List.find?_isSome]
    exact ⟨e, he, by simp [hne, hink]⟩
  obtain ⟨c, hc⟩ := Option.isSome_iff_exists.mp hfind
  obtain ⟨hpc, front, back, hs, hfront⟩ := List.find?_eq_some_iff_append.mp hc
  rw [Bool.and_eq_true, decide_eq_true_eq, Bool.not_eq_true'] at hpc
  refine ⟨front, c, back, hs, ?_, hpc.1, hpc.2⟩
  intro d hd
  have hd' := hfront d hd
  rw [Bool.not_eq_true', Bool.and_eq_false_iff, decide_eq_false_iff_not, Bool.not_eq_false',
    not_not] at hd'
  exact hd'

theorem reachesInk_iff (maxBytes : ℕ) (s : String) :
    ReachesInk maxBytes s ↔ InkWithin maxBytes (restoreWhitespacePlaceholders s).toList := by
  constructor
  · rintro ⟨front, c, back, hs, hfront, hne, hink, hfits⟩
    obtain ⟨hhead, -, hbytes⟩ := restore_front hs hfront hne hink
    exact ⟨_, hhead, hbytes.trans_le hfits, c, by simp, hink⟩
  · rintro ⟨p, hp, hfits, d, hd, hdink⟩
    -- The restored text holds a character that is not whitespace, so the text does.
    have hhas : HasInk s := by
      by_contra hblank
      have hws := (trim_eq_empty_iff _).mp ((trim_restore_eq_empty_iff s).mpr hblank) d
        (hp.subset hd)
      exact absurd hdink (by simp [hws])
    obtain ⟨front, c, back, hs, hfront, hne, hink⟩ := exists_first_ink hhas
    obtain ⟨hhead, hws, hbytes⟩ := restore_front hs hfront hne hink
    refine ⟨front, c, back, hs, hfront, hne, hink, hbytes.ge.trans (le_trans ?_ hfits)⟩
    -- A part that fits is not inside the whitespace in front.
    rcases List.prefix_or_prefix_of_prefix hp hhead with hle | hle
    · rcases List.prefix_concat_iff.mp hle with rfl | hle
      · exact le_rfl
      · exact absurd hdink (by simp [hws d (hle.subset hd)])
    · obtain ⟨rest, hrest⟩ := hle
      rw [← hrest, Utf8.encode_append _ rest, List.length_append]
      exact Nat.le_add_right _ _

/-- What the cascade delivers reaches a character that is not whitespace within the limit:
a selection once it is restored, the text of the whole document with its first one. -/
def DeliversInk (html : String) (options : Options) (config : ExtractConfig) : Prop :=
  (¬ SelectionRejected lib extractor html options config →
      ∀ s ∈ selected options (resultOf lib extractor html options),
        ReachesInk config.maxContentChars s)
    ∧ (SelectionRejected lib extractor html options config →
      minFallbackChars ≤ RustStr.len (wholeDocText lib html) →
        ∀ c ∈ (wholeDocText lib html).toList.head?, c.utf8Size ≤ config.maxContentChars)

/-- **When the content is not blank**. -/
theorem content_ink_iff (html : String) (options : Options) (config : ExtractConfig) :
    (∃ outcome, extractFromHtml lib extractor html options config = some outcome
        ∧ ∀ t, outcome.content = some t → ∃ c ∈ t.toList, RustStr.isWhitespace c = false)
      ↔ DeliversInk lib extractor html options config := by
  unfold DeliversInk
  by_cases hrejected : SelectionRejected lib extractor html options config
  · simp only [hrejected, not_true_eq_false, false_implies, true_implies, true_and]
    obtain ⟨outcome, hrun, hcontent⟩ := outcome_rejected lib extractor hrejected
    simp only [hrun, Option.some.injEq, exists_eq_left']
    rcases hcontent with ⟨hshort, hnone⟩ | ⟨hlong, -, t, ht, htrunc⟩
    · exact iff_of_true (by simp [hnone]) (fun hlong => absurd hshort hlong.not_gt)
    · have hdoc : wholeDocText lib html ≠ "" :=
        (len_wholeDocText_pos lib).mp (Nat.lt_of_lt_of_le (by decide) hlong)
      simp only [ht, Option.some.injEq, forall_eq', hlong, true_implies,
        truncate_ink_iff htrunc, wholeDocText_ink_iff lib hdoc]
  · simp only [hrejected, not_false_eq_true, false_implies, true_implies, and_true]
    obtain ⟨outcome, hrun, -, hcontent⟩ := outcome_kept lib extractor hrejected
    simp only [hrun, Option.some.injEq, exists_eq_left']
    rcases hcontent with ⟨hsel, hnone⟩ | ⟨s, t, hsel, ht, htrunc⟩
    · exact iff_of_true (by simp [hnone]) (by simp [hsel])
    · simp only [ht, hsel, Option.some.injEq, forall_eq', Option.mem_some_iff,
        truncate_ink_iff htrunc, reachesInk_iff]

/-- The extractor takes the text of the page as its markdown. -/
def pageMarkdown : Extractor := fun html _ =>
  some ⟨"", some (String.ofList ((plainChunks html).flatMap String.toList)), none, none,
    none, none, none, none⟩

/-- A page whose only text is a spacer span: its markdown is a placeholder, and no longer
blank before it is restored. -/
theorem extractFromHtml_blank :
    Config.default.validate Platform.ascii = .ok ()
      ∧ (extractFromHtml plainLib pageMarkdown "<p><span> </span></p>"
          (extractOptionsFromConfig Config.default) Config.default.extract).map (·.content)
        = some (some " ")
      ∧ ¬ ∃ c ∈ " ".toList, RustStr.isWhitespace c = false := by
  have hpatched : patchedHtml plainLib "<p><span> </span></p>"
      = "<p><span>\uE000</span></p>" :=
    patchedHtml_eq plainLib rfl rfl
  have hsel : selected (extractOptionsFromConfig Config.default) (resultOf plainLib pageMarkdown
      "<p><span> </span></p>" (extractOptionsFromConfig Config.default)) = some "\uE000" := by
    rw [resultOf, hpatched]
    decide +kernel
  have hdoc : wholeDocText plainLib "<p><span> </span></p>" = "" := by decide +kernel
  have hkept : ¬ SelectionRejected plainLib pageMarkdown "<p><span> </span></p>"
      (extractOptionsFromConfig Config.default) Config.default.extract := by
    rintro ⟨-, hpos, -⟩
    exact (len_wholeDocText_pos plainLib).mp hpos hdoc
  obtain ⟨outcome, hrun, -, hcontent⟩ := outcome_kept plainLib pageMarkdown hkept
  refine ⟨(Config.validate_eq_ok_iff _ _).mpr (Config.default_valid rfl), ?_, by simp; decide⟩
  rcases hcontent with ⟨hnone, -⟩ | ⟨s, t, hs, ht, htrunc⟩
  · exact absurd (hsel.symm.trans hnone) (by simp)
  · obtain rfl := Option.some.inj (hsel.symm.trans hs)
    have hspace : restoreWhitespacePlaceholders "\uE000" = " " := rfl
    have hfits : RustStr.len " " ≤ Config.default.extract.maxContentChars :=
      (show RustStr.len " " ≤ 1 by decide).trans (show 1 ≤ 50000 by omega)
    rw [hspace, truncateAtCharBoundary, if_pos hfits] at htrunc
    rw [hrun, Option.map_some, ht, ← htrunc]

/-! ## Content that is not shorter than the selection -/

/-- Truncation leaves out less than one character of what fits. -/
theorem truncate_len {s t : String} {maxBytes : ℕ}
    (h : truncateAtCharBoundary s maxBytes = some t) :
    min (RustStr.len s) maxBytes ≤ RustStr.len t + 3 := by
  obtain ⟨k, hk, -, hlongest⟩ := truncateAtCharBoundary_eq_take s maxBytes
  obtain rfl := Option.some.inj (hk.symm.trans h)
  rw [RustStr.len, RustStr.len, RustStr.asBytes, RustStr.asBytes, String.toList_ofList]
  cases hrest : s.toList.drop k with
  | nil =>
      have hall : s.toList.take k = s.toList := by
        rw [← List.append_nil (s.toList.take k), ← hrest, List.take_append_drop]
      rw [hall]
      omega
  | cons c rest =>
      have hs : s.toList.take k ++ c :: rest = s.toList := by
        rw [← hrest, List.take_append_drop]
      have hsize : (Utf8.encode (s.toList.take k ++ [c])).length
          = (Utf8.encode (s.toList.take k)).length + c.utf8Size := by
        rw [Utf8.encode_append, List.length_append, Utf8.encode_cons, List.length_append,
          String.length_utf8EncodeChar]
        rfl
      -- One more character does not fit, and has at most four bytes.
      have hlong : maxBytes < (Utf8.encode (s.toList.take k ++ [c])).length := by
        by_contra hfits
        have hp := hlongest (s.toList.take k ++ [c]) ⟨rest, by simpa using hs⟩ (not_lt.mp hfits)
        have hlen := hp.length_le
        rw [List.length_append, List.length_singleton] at hlen
        omega
      have hfour := c.utf8Size_le_four
      omega

/-- A restored text with a character that is not whitespace comes from one that has one
beside the placeholders. -/
theorem hasInk_of_restored {s : String}
    (h : ∃ c ∈ (restoreWhitespacePlaceholders s).toList, RustStr.isWhitespace c = false) :
    HasInk s := by
  by_contra hblank
  obtain ⟨c, hc, hink⟩ := h
  have hws := (trim_eq_empty_iff _).mp ((trim_restore_eq_empty_iff s).mpr hblank) c hc
  exact absurd hink (by simp [hws])

theorem selected_of_hasInk {options : Options} {result : ExtractResult}
    (h : HasInk (selection options result)) :
    selected options (some result) = some (selection options result) := by
  rw [selected, Option.filter_some, if_pos (decide_eq_true (Or.inr h)), Option.map_some]

/-- **When the content is not shorter than the selection**, up to the limit and the bytes
of a character that is cut off. -/
theorem selection_kept_iff {html : String} {options : Options} {config : ExtractConfig}
    {result : ExtractResult} (hresult : resultOf lib extractor html options = some result)
    (hink : ∃ c ∈ (restoreWhitespacePlaceholders (selection options result)).toList,
      RustStr.isWhitespace c = false) :
    (∃ outcome t, extractFromHtml lib extractor html options config = some outcome
        ∧ outcome.content = some t
        ∧ min (RustStr.len (restoreWhitespacePlaceholders (selection options result)))
          config.maxContentChars ≤ RustStr.len t + 3)
      ↔ ¬ (SelectionRejected lib extractor html options config
        ∧ RustStr.len (wholeDocText lib html) < minFallbackChars) := by
  have hsel : selected options (resultOf lib extractor html options)
      = some (selection options result) := by
    rw [hresult, selected_of_hasInk (hasInk_of_restored hink)]
  by_cases hrejected : SelectionRejected lib extractor html options config
  · obtain ⟨outcome, hrun, ⟨hshort, hnone⟩ | ⟨hlong, -, t, ht, htrunc⟩⟩ :=
      outcome_rejected lib extractor hrejected
    · refine iff_of_false ?_ (not_not_intro ⟨hrejected, hshort⟩)
      rintro ⟨outcome', t, hrun', ht, -⟩
      obtain rfl : outcome' = outcome := Option.some.inj (hrun'.symm.trans hrun)
      exact absurd (hnone.symm.trans ht) (by simp)
    · refine iff_of_true ⟨outcome, t, hrun, ht, ?_⟩ (fun h => h.2.not_ge hlong)
      -- The whole document is longer than a selection that is rejected for it.
      have hlt := hrejected.lt
      rw [selectedBytes, hsel, Option.map_some, Option.getD_some, ← len_restore] at hlt
      have hlen := truncate_len htrunc
      omega
  · obtain ⟨outcome, hrun, -, ⟨hnone, -⟩ | ⟨s, t, hs, ht, htrunc⟩⟩ :=
      outcome_kept lib extractor hrejected
    · exact absurd (hsel.symm.trans hnone) (by simp)
    · obtain rfl : selection options result = s := Option.some.inj (hsel.symm.trans hs)
      exact iff_of_true ⟨outcome, t, hrun, ht, truncate_len htrunc⟩ (fun h => hrejected h.1)

/-- The extractor takes the last text of the page as its markdown. -/
def lastText : Extractor := fun html _ =>
  some ⟨"", some (((plainChunks html).filter (· ≠ "")).getLastD ""), none, none, none, none,
    none, none⟩

/-- Of two short texts the second one is kept. -/
theorem selection_kept_greeting :
    ∃ outcome t, extractFromHtml plainLib lastText "<nav>Hi</nav><p>Yes</p>"
        (extractOptionsFromConfig Config.default) Config.default.extract = some outcome
      ∧ outcome.content = some t
      ∧ min (RustStr.len (restoreWhitespacePlaceholders "Yes"))
        Config.default.extract.maxContentChars ≤ RustStr.len t + 3 := by
  have hpatched : patchedHtml plainLib "<nav>Hi</nav><p>Yes</p>" = "<nav>Hi</nav><p>Yes</p>" :=
    patchedHtml_eq plainLib rfl rfl
  have hresult : resultOf plainLib lastText "<nav>Hi</nav><p>Yes</p>"
      (extractOptionsFromConfig Config.default)
        = some ⟨"", some "Yes", none, none, none, none, none, none⟩ := by
    rw [resultOf, hpatched]
    rfl
  have hdoc : wholeDocText plainLib "<nav>Hi</nav><p>Yes</p>" = "Hi Yes" := by decide +kernel
  have hink : ∃ c ∈ (restoreWhitespacePlaceholders "Yes").toList, RustStr.isWhitespace c = false :=
    ⟨'Y', by decide +kernel, rfl⟩
  refine (selection_kept_iff plainLib lastText hresult hink).mpr ?_
  rw [SelectionRejected, hresult, hdoc]
  decide +kernel

/-- A page that is too short to be taken whole, of which the extractor finds a small part:
the part is dropped. -/
theorem selection_dropped :
    Config.default.validate Platform.ascii = .ok ()
      ∧ resultOf plainLib lastText "<nav>Home About</nav><p>Yes</p>"
          (extractOptionsFromConfig Config.default)
        = some ⟨"", some "Yes", none, none, none, none, none, none⟩
      ∧ (extractFromHtml plainLib lastText "<nav>Home About</nav><p>Yes</p>"
          (extractOptionsFromConfig Config.default) Config.default.extract).map (·.content)
        = some none := by
  have hpatched : patchedHtml plainLib "<nav>Home About</nav><p>Yes</p>"
      = "<nav>Home About</nav><p>Yes</p>" :=
    patchedHtml_eq plainLib rfl rfl
  have hresult : resultOf plainLib lastText "<nav>Home About</nav><p>Yes</p>"
      (extractOptionsFromConfig Config.default)
        = some ⟨"", some "Yes", none, none, none, none, none, none⟩ := by
    rw [resultOf, hpatched]
    rfl
  have hdoc : wholeDocText plainLib "<nav>Home About</nav><p>Yes</p>" = "Home About Yes" := by
    decide +kernel
  have hrejected : SelectionRejected plainLib lastText "<nav>Home About</nav><p>Yes</p>"
      (extractOptionsFromConfig Config.default) Config.default.extract := by
    rw [SelectionRejected, hresult, hdoc]
    decide +kernel
  refine ⟨(Config.validate_eq_ok_iff _ _).mpr (Config.default_valid rfl), hresult, ?_⟩
  obtain ⟨outcome, hrun, ⟨-, hnone⟩ | ⟨hlong, -⟩⟩ := outcome_rejected plainLib lastText hrejected
  · rw [hrun, Option.map_some, hnone]
  · rw [hdoc] at hlong
    exact absurd hlong (by decide)

/-! ## Longer selections -/

/-- The cascade neither drops its selection nor puts the whole document in its place. -/
def Keeps (html : String) (options : Options) (config : ExtractConfig) : Prop :=
  ∃ outcome, extractFromHtml lib extractor html options config = some outcome
    ∧ outcome.method ≠ .wholeDocFallback ∧ outcome.content ≠ none

theorem keeps_iff {html : String} {options : Options} {config : ExtractConfig} {s : String}
    (hsel : selected options (resultOf lib extractor html options) = some s) :
    Keeps lib extractor html options config
      ↔ ¬ SelectionRejected lib extractor html options config := by
  unfold Keeps
  by_cases hrejected : SelectionRejected lib extractor html options config
  · refine iff_of_false ?_ (not_not_intro hrejected)
    obtain ⟨outcome, hrun, hcontent⟩ := outcome_rejected lib extractor hrejected
    rintro ⟨outcome', hrun', hmethod, hkept⟩
    obtain rfl : outcome' = outcome := Option.some.inj (hrun'.symm.trans hrun)
    rcases hcontent with ⟨-, hnone⟩ | ⟨-, hfallback, -⟩
    · exact hkept hnone
    · exact hmethod hfallback
  · refine iff_of_true ?_ hrejected
    obtain ⟨outcome, hrun, hmethod, ⟨hnone, -⟩ | ⟨s', t, -, ht, -⟩⟩ :=
      outcome_kept lib extractor hrejected
    · exact absurd (hsel.symm.trans hnone) (by simp)
    · refine ⟨outcome, hrun, ?_, by simp [ht]⟩
      rw [hmethod, selectedMethod]
      split_ifs <;> simp

/-- **A longer selection is kept where a shorter one is**, on pages of as many bytes with
the same whole text. -/
theorem keeps_of_longer {lib lib' : HtmlLib} {extractor extractor' : Extractor}
    {html html' : String} {options : Options} {config : ExtractConfig} {s s' : String}
    (hsel : selected options (resultOf lib extractor html options) = some s)
    (hsel' : selected options (resultOf lib' extractor' html' options) = some s')
    (hmethod : selectedMethod options (resultOf lib extractor html options)
      = selectedMethod options (resultOf lib' extractor' html' options))
    (hraw : RustStr.len html = RustStr.len html')
    (hdoc : wholeDocText lib html = wholeDocText lib' html')
    (hle : RustStr.len (restoreWhitespacePlaceholders s)
      ≤ RustStr.len (restoreWhitespacePlaceholders s'))
    (hkeeps : Keeps lib extractor html options config) :
    Keeps lib' extractor' html' options config := by
  rw [keeps_iff lib extractor hsel] at hkeeps
  rw [keeps_iff lib' extractor' hsel']
  intro hrejected
  apply hkeeps
  rw [SelectionRejected, ← hraw, ← hdoc, ← hmethod] at hrejected
  refine Rejected.of_le ?_ hrejected
  rw [selectedBytes, selectedBytes, hsel, hsel', Option.map_some, Option.map_some,
    Option.getD_some, Option.getD_some, ← len_restore, ← len_restore]
  exact hle

/-- The extractor returns a text as its markdown, whatever the page is. -/
def constantMarkdown (md : String) : Extractor := fun _ _ =>
  some ⟨"", some md, none, none, none, none, none, none⟩

theorem keeps_of_longer_page :
    Keeps plainLib (constantMarkdown "ab") "<p>a b</p>" (extractOptionsFromConfig Config.default)
      Config.default.extract := by
  have ha : selected (extractOptionsFromConfig Config.default) (resultOf plainLib
      (constantMarkdown "a") "<p>a b</p>" (extractOptionsFromConfig Config.default))
        = some "a" := by decide +kernel
  have hab : selected (extractOptionsFromConfig Config.default) (resultOf plainLib
      (constantMarkdown "ab") "<p>a b</p>" (extractOptionsFromConfig Config.default))
        = some "ab" := by decide +kernel
  have hkeeps : Keeps plainLib (constantMarkdown "a") "<p>a b</p>"
      (extractOptionsFromConfig Config.default) Config.default.extract := by
    have hdoc : wholeDocText plainLib "<p>a b</p>" = "a b" := by decide +kernel
    rw [keeps_iff plainLib (constantMarkdown "a") ha, SelectionRejected, hdoc]
    decide +kernel
  exact keeps_of_longer ha hab (by decide +kernel) rfl rfl (by decide +kernel) hkeeps

end Extract
