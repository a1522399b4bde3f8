/-
# Selections on large pages

On a page of at least `largePageRawBytes` bytes a selection that reaches the limit on its
length is to be trusted.  The audit measures it after the placeholders are restored, and
asks for the floors of small pages too.

* `extractFromHtml_kept`: when the cascade keeps what it chose.
* `keepsSelection_iff`: when it does so whatever the text of the whole document is.
-/
import Serica.Extract
import Serica.RestoredText

namespace Extract

open CodespanFixup CodeblockLinebreaks

/-! ## The selection -/

/-- The markdown is selected: it is asked for, and not blank. -/
def markdownSelected (options : Options) (result : ExtractResult) : Bool :=
  options.outputMarkdown && result.contentMarkdown.any fun md => RustStr.trim md ≠ ""

/-- The selected content, as the extractor returns it. -/
def selection (options : Options) (result : ExtractResult) : String :=
  if markdownSelected options result then result.contentMarkdown.getD "" else result.contentText

/-- The bytes of a text once its placeholders are restored: two less for each placeholder,
and one less each time one touches a space or another. -/
def restoredBytes (s : String) : ℕ :=
  RustStr.len s - (2 * s.toList.count whitespaceSentinel + touching s.toList)

theorem len_restore (s : String) :
    RustStr.len (restoreWhitespacePlaceholders s) = restoredBytes s := by
  have h := length_restore s
  unfold restoredBytes
  omega

/-- The text holds a character that is neither whitespace nor a placeholder. -/
def HasInk (s : String) : Prop :=
  ∃ c ∈ s.toList, c ≠ whitespaceSentinel ∧ RustStr.isWhitespace c = false

instance (s : String) : Decidable (HasInk s) :=
  inferInstanceAs
    (Decidable (∃ c ∈ s.toList, c ≠ whitespaceSentinel ∧ RustStr.isWhitespace c = false))

theorem trim_eq_empty_iff (s : String) :
    RustStr.trim s = "" ↔ ∀ c ∈ s.toList, RustStr.isWhitespace c = true := by
  rw [RustStr.trim, String.ofList_eq_empty_iff, List.rdropWhile_eq_nil_iff]
  constructor
  · intro h c hc
    by_contra hspace
    have hmem : c ∈ s.toList.dropWhile RustStr.isWhitespace := by
      rw [← List.takeWhile_append_dropWhile (p := RustStr.isWhitespace) (l := s.toList),
        List.mem_append] at hc
      exact hc.resolve_left fun h' => hspace (List.mem_takeWhile_imp h')
    exact hspace (h c hmem)
  · intro h c hc
    exact h c ((List.dropWhile_suffix _).subset hc)

/-- The restoration only adds and drops spaces and placeholders. -/
theorem mem_restoreLoop {c : Char} (hspace : c ≠ ' ') (hsentinel : c ≠ whitespaceSentinel)
    (cs out : List Char) : c ∈ restoreLoop cs out ↔ c ∈ out ∨ c ∈ cs := by
  have hpop : ∀ out, c ∈ popSpace out ↔ c ∈ out := by
    intro out
    unfold popSpace
    split_ifs with hlast
    · obtain ⟨init, rfl⟩ := List.getLast?_eq_some_iff.mp hlast
      simp [hspace]
    · rfl
  have hpush : ∀ out d, c ∈ pushRestored out d ↔ c ∈ out ∨ c = d := by
    intro out d
    unfold pushRestored
    split_ifs with hd
    · simp [hpop, hspace, hd, hsentinel]
    · simp
  induction cs, out using restoreLoop.induct with
  | case1 out => simp [restoreLoop]
  | case2 d out => rw [restoreLoop, hpush, List.mem_singleton]
  | case3 d e cs out hpair ih =>
      rw [restoreLoop, if_pos hpair]
      refine ih.trans ?_
      rw [hpush, hpair.2]
      simp [hspace, or_assoc]
  | case4 d e cs out hpair ih =>
      rw [restoreLoop, if_neg hpair]
      refine ih.trans ?_
      rw [hpush]
      simp [or_assoc]

/-- A restored text is blank when the text holds nothing but whitespace and
placeholders. -/
theorem trim_restore_eq_empty_iff (s : String) :
    RustStr.trim (restoreWhitespacePlaceholders s) = "" ↔ ¬ HasInk s := by
  rw [trim_eq_empty_iff, restoreWhitespacePlaceholders, String.toList_ofList, HasInk]
  have hspace : RustStr.isWhitespace ' ' = true := rfl
  constructor
  · rintro h ⟨c, hc, hne, hink⟩
    have hblank : c ≠ ' ' := by
      rintro rfl
      exact absurd hink (by simp [hspace])
    have hmem := (mem_restoreLoop hblank hne s.toList []).mpr (Or.inr hc)
    rw [h c hmem] at hink
    exact absurd hink (by simp)
  · intro h c hc
    by_cases hblank : c = ' '
    · rw [hblank, hspace]
    · have hne : c ≠ whitespaceSentinel := by
        rintro rfl
        exact sentinel_not_mem_restoreLoop s.toList [] (by simp) hc
      have hmem := (mem_restoreLoop hblank hne s.toList []).mp hc
      by_contra hink
      exact h ⟨c, by simpa using hmem, hne, by simpa using hink⟩

/-- What is chosen of the extractor's texts, and as what. -/
theorem choose_selection (options : Options) (result : ExtractResult) :
    (choose options (some result)).1
        = (if markdownSelected options result ∨ HasInk (selection options result) then
            some (restoreWhitespacePlaceholders (selection options result)) else none)
      ∧ (choose options (some result)).2.1
        = if markdownSelected options result then .markdown else .textFallback := by
  have hchoose : choose options (some result)
      = if markdownSelected options result then
          (some (restoreWhitespacePlaceholders (result.contentMarkdown.getD "")), .markdown,
            Metadata.fromResult result)
        else
          (if RustStr.trim (restoreWhitespacePlaceholders result.contentText) = "" then none
            else some (restoreWhitespacePlaceholders result.contentText), .textFallback,
            Metadata.fromResult result) := rfl
  rw [hchoose, selection]
  cases markdownSelected options result with
  | true => exact ⟨rfl, rfl⟩
  | false =>
      simp only [Bool.false_eq_true, if_false, false_or, trim_restore_eq_empty_iff, ite_not,
        and_self]

/-! ## The audit of a large page -/

variable (lib : HtmlLib) (extractor : Extractor)

/-- The method and the presence of content are those of the audit. -/
theorem extractFromHtml_method (html : String) (options : Options) (config : ExtractConfig) :
    ∃ outcome, extractFromHtml lib extractor html options config = some outcome
      ∧ outcome.method = (audit lib html (RustStr.len html) config
          (choose options (extractor (patchedHtml lib html) options)).1
          (choose options (extractor (patchedHtml lib html) options)).2.1).2.1
      ∧ (outcome.content = none ↔ (audit lib html (RustStr.len html) config
          (choose options (extractor (patchedHtml lib html) options)).1
          (choose options (extractor (patchedHtml lib html) options)).2.1).1 = none) := by
  obtain ⟨outcome, hrun, hcontent, hmethod, -⟩ :=
    extractFromHtml_outcome lib extractor html options config
  refine ⟨outcome, hrun, hmethod, ?_⟩
  change _ ↔ (auditedChoice lib extractor html options config).1 = none
  obtain ⟨hfinal, hnone⟩ | ⟨s, t, hfinal, hsome, -⟩ := content_cases hcontent
  · exact iff_of_true hnone hfinal
  · rw [hfinal, hsome]
    exact iff_of_false (Option.some_ne_none t) (Option.some_ne_none s)

/-- `audit_needed`. -/
def auditNeeded (rawBytes : ℕ) (config : ExtractConfig) (chosen : Option String)
    (method : ExtractMethod) : Bool :=
  let chosenLen := (chosen.map RustStr.len).getD 0
  (chosenLen < wholeDocCheckFloor
      && !(method == .markdown && (healthyMarkdownFloor ≤ chosenLen : Bool)))
    || ((largePageRawBytes ≤ rawBytes : Bool) && chosen.isSome
      && (chosenLen < config.maxContentChars : Bool))

/-- What is chosen reaches the limit, and the floor of small pages for its kind. -/
def Trusted (config : ExtractConfig) (chosen : Option String) (method : ExtractMethod) : Prop :=
  ∃ s ∈ chosen, config.maxContentChars ≤ RustStr.len s
    ∧ (wholeDocCheckFloor ≤ RustStr.len s
      ∨ method = .markdown ∧ healthyMarkdownFloor ≤ RustStr.len s)

/-- On a large page everything is audited but what is trusted. -/
theorem auditNeeded_eq_false_iff {rawBytes : ℕ} (hlarge : largePageRawBytes ≤ rawBytes)
    (config : ExtractConfig) (chosen : Option String) (method : ExtractMethod) :
    auditNeeded rawBytes config chosen method = false ↔ Trusted config chosen method := by
  unfold auditNeeded Trusted
  cases chosen with
  | none => simp [wholeDocCheckFloor, healthyMarkdownFloor]
  | some s =>
      simp only [Option.map_some, Option.getD_some, decide_eq_true hlarge, Option.isSome_some,
        Bool.true_and, Bool.or_eq_false_iff, Bool.and_eq_false_iff, decide_eq_false_iff_not,
        Bool.not_eq_false', Bool.and_eq_true, beq_iff_eq, decide_eq_true_eq, not_lt,
        Option.mem_some_iff, exists_eq_left']
      exact and_comm

theorem audit_not_needed {html : String} {rawBytes : ℕ} {config : ExtractConfig}
    {chosen : Option String} {method : ExtractMethod}
    (h : auditNeeded rawBytes config chosen method = false) :
    audit lib html rawBytes config chosen method = (chosen, method, none) := by
  have hskip : ¬ auditNeeded rawBytes config chosen method = true := by simp [h]
  exact if_neg hskip

/-- A text of the whole document that dwarfs what was chosen takes its place. -/
theorem audit_replaced {html : String} {rawBytes : ℕ} {config : ExtractConfig}
    {chosen : Option String} {method : ExtractMethod} (hlarge : largePageRawBytes ≤ rawBytes)
    (hdoc : minFallbackChars ≤ RustStr.len (wholeDocText lib html))
    (hratio : 20 * (chosen.map RustStr.len).getD 0 < RustStr.len (wholeDocText lib html))
    (h : auditNeeded rawBytes config chosen method = true) :
    (audit lib html rawBytes config chosen method).2.1 = .wholeDocFallback := by
  have hne : wholeDocText lib html ≠ "" := by
    intro hempty
    rw [hempty] at hdoc
    exact absurd hdoc (by decide)
  have hsmall : (((chosen.map RustStr.len).getD 0 : ℕ) : ℚ)
      / (RustStr.len (wholeDocText lib html) : ℚ) < largePageRatioThreshold := by
    have hpos : (0 : ℚ) < RustStr.len (wholeDocText lib html) := by
      exact_mod_cast (Nat.zero_le _).trans_lt hratio
    have hcast : (20 : ℚ) * ((chosen.map RustStr.len).getD 0 : ℕ)
        < RustStr.len (wholeDocText lib html) := by
      exact_mod_cast hratio
    rw [div_lt_iff₀ hpos, largePageRatioThreshold]
    linarith
  unfold audit
  dsimp only
  unfold auditNeeded at h
  dsimp only at h
  rw [if_pos h, if_pos hne, if_pos hlarge, if_pos hsmall, if_pos hdoc]

/-! ## Selections that are kept -/

/-- The cascade keeps its selection, whatever the libraries make of the page. -/
def KeepsSelection (html : String) (options : Options) (config : ExtractConfig)
    (result : ExtractResult) : Prop :=
  ∀ (lib : HtmlLib) (extractor : Extractor),
    extractor (patchedHtml lib html) options = some result →
      ∃ outcome, extractFromHtml lib extractor html options config = some outcome
        ∧ outcome.method ≠ .wholeDocFallback ∧ outcome.content ≠ none

/-- Restored, the selection still reaches the limit, and the floor of small pages for its
kind; and as text it is not blank. -/
def StaysSaturated (options : Options) (config : ExtractConfig) (result : ExtractResult) : Prop :=
  config.maxContentChars ≤ restoredBytes (selection options result)
    ∧ (wholeDocCheckFloor ≤ restoredBytes (selection options result)
      ∨ markdownSelected options result = true
        ∧ healthyMarkdownFloor ≤ restoredBytes (selection options result))
    ∧ (markdownSelected options result = true ∨ HasInk (selection options result))

theorem trusted_choose_iff (options : Options) (config : ExtractConfig) (result : ExtractResult) :
    Trusted config (choose options (some result)).1 (choose options (some result)).2.1
      ↔ StaysSaturated options config result := by
  obtain ⟨hchosen, hmethod⟩ := choose_selection options result
  rw [hchosen, hmethod, Trusted, StaysSaturated]
  by_cases hink : markdownSelected options result = true ∨ HasInk (selection options result)
  · rw [if_pos hink]
    simp only [Option.mem_some_iff, exists_eq_left', len_restore, hink, and_true]
    cases markdownSelected options result <;> simp
  · simp [hink]

theorem inside_of_mem_nil {html chunk : String} (h : chunk ∈ ([] : List String)) :
    chunk.toList <:+: html.toList := absurd h List.not_mem_nil

theorem sentinel_not_mem_letters (n : ℕ) :
    whitespaceSentinel ∉ (String.ofList (List.replicate n 'x')).toList := by
  intro h
  rw [String.toList_ofList] at h
  exact absurd (List.eq_of_mem_replicate h) (by decide)

/-- The libraries on a page whose whole text is `n` letters. -/
def lettersLib (n : ℕ) : HtmlLib :=
  { plainLib with
    textChunks := fun _ => []
    decodeHtmlEntities := fun _ => String.ofList (List.replicate n 'x')
    textChunks_inside := inside_of_mem_nil
    decode_sentinel := fun h => absurd h (sentinel_not_mem_letters n) }

theorem len_replicate (n : ℕ) : RustStr.len (String.ofList (List.replicate n 'x')) = n := by
  have hsize : ∀ m, (Utf8.encode (List.replicate m 'x')).length = m := by
    intro m
    induction m with
    | zero => rfl
    | succ m ih =>
        rw [List.replicate_succ, Utf8.encode_cons, List.length_append, ih, Nat.add_comm]
        rfl
  rw [RustStr.len, RustStr.asBytes, String.toList_ofList, hsize]

theorem wholeDocText_lettersLib {n : ℕ} (hn : 0 < n) (html : String) :
    wholeDocText (lettersLib n) html = String.ofList (List.replicate n 'x') := by
  have hletters : ∀ c ∈ List.replicate n 'x', RustStr.isWhitespace c = false := by
    intro c hc
    rw [List.eq_of_mem_replicate hc]
    decide
  have hne : List.replicate n 'x' ≠ [] := by simpa using hn.ne'
  show coalesce (String.ofList (List.replicate n 'x')) = _
  rw [coalesce, String.toList_ofList, List.splitOnP_eq_singleton hletters]
  simp [hne]

/-- A selection that is kept for every text of the whole document is not audited: the text
may be as long as it takes. -/
theorem staysSaturated_of_keeps {html : String} (hlarge : largePageRawBytes ≤ RustStr.len html)
    {options : Options} {config : ExtractConfig} {result : ExtractResult}
    (hkeeps : KeepsSelection html options config result) :
    StaysSaturated options config result := by
  rw [← trusted_choose_iff, ← auditNeeded_eq_false_iff hlarge]
  by_contra hneeded
  rw [Bool.not_eq_false] at hneeded
  -- A text of so many letters makes the selection too small a part of the page.
  let n := 20 * ((choose options (some result)).1.map RustStr.len).getD 0 + minFallbackChars
  have hdoc := wholeDocText_lettersLib (n := n) (Nat.add_pos_right _ (by decide)) html
  obtain ⟨outcome, hrun, hmethod, -⟩ :=
    extractFromHtml_method (lettersLib n) (fun _ _ => some result) html options config
  obtain ⟨outcome', hrun', hne, -⟩ := hkeeps (lettersLib n) (fun _ _ => some result) rfl
  obtain rfl : outcome' = outcome := Option.some.inj (hrun'.symm.trans hrun)
  apply hne
  rw [hmethod]
  apply audit_replaced _ hlarge _ _ hneeded
  · rw [hdoc, len_replicate]
    exact Nat.le_add_left _ _
  · rw [hdoc, len_replicate]
    exact Nat.lt_add_of_pos_right (by decide)

theorem keeps_of_staysSaturated {html : String} (hlarge : largePageRawBytes ≤ RustStr.len html)
    {options : Options} {config : ExtractConfig} {result : ExtractResult}
    (h : StaysSaturated options config result) : KeepsSelection html options config result := by
  rw [← trusted_choose_iff] at h
  intro lib extractor hresult
  obtain ⟨outcome, hrun, hmethod, hcontent⟩ :=
    extractFromHtml_method lib extractor html options config
  rw [hresult, audit_not_needed lib ((auditNeeded_eq_false_iff hlarge config _ _).mpr h)]
    at hmethod hcontent
  refine ⟨outcome, hrun, ?_, ?_⟩
  · rw [hmethod, (choose_selection options result).2]
    split_ifs <;> simp
  · obtain ⟨s, hs, -⟩ := h
    rw [ne_eq, hcontent, hs]
    simp

/-- **When a selection on a large page is kept** whatever the text of the whole document
is. -/
theorem keepsSelection_iff {html : String} (hlarge : largePageRawBytes ≤ RustStr.len html)
    (options : Options) (config : ExtractConfig) (result : ExtractResult) :
    KeepsSelection html options config result ↔ StaysSaturated options config result :=
  ⟨staysSaturated_of_keeps hlarge, keeps_of_staysSaturated hlarge⟩

/-! ## Two pages -/

/-- A page of exactly 512 KiB. -/
def largePage : String := String.ofList (List.replicate largePageRawBytes 'x')

theorem len_largePage : RustStr.len largePage = largePageRawBytes := len_replicate _

/-- The extractor returns markdown that starts with `n` letters. -/
def lettersResult (n : ℕ) (tail : List Char) : ExtractResult :=
  ⟨"", some (String.ofList (List.replicate n 'x' ++ tail)), ⟨none, none, none, none, none, none⟩⟩

theorem restoredBytes_letters (n : ℕ) (tail : List Char) :
    restoredBytes (String.ofList (List.replicate n 'x' ++ tail))
      = n + (Utf8.encode tail).length - (2 * tail.count whitespaceSentinel + touching tail) := by
  have hcount : (List.replicate n 'x' ++ tail).count whitespaceSentinel
      = tail.count whitespaceSentinel := by
    rw [List.count_append, List.count_replicate, if_neg (by decide), Nat.zero_add]
  have htouching : ∀ n, touching (List.replicate n 'x' ++ tail) = touching tail := by
    intro n
    induction n with
    | zero => rfl
    | succ n ih =>
        rw [List.replicate_succ, List.cons_append, ← ih]
        cases List.replicate n 'x' ++ tail with
        | nil => rfl
        | cons c cs => simp [touching, touches, whitespaceSentinel]
  have hlen := len_replicate n
  rw [RustStr.len, RustStr.asBytes, String.toList_ofList] at hlen
  rw [restoredBytes, RustStr.len, RustStr.asBytes, String.toList_ofList, hcount, htouching n,
    Utf8.encode_append, List.length_append, hlen]

/-- Markdown that starts with a letter is selected. -/
theorem selection_letters {options : Options} (hmd : options.outputMarkdown = true) {n : ℕ}
    (hn : 0 < n) (tail : List Char) :
    markdownSelected options (lettersResult n tail) = true
      ∧ selection options (lettersResult n tail)
        = String.ofList (List.replicate n 'x' ++ tail) := by
  have hink : RustStr.trim (String.ofList (List.replicate n 'x' ++ tail)) ≠ "" := by
    rw [ne_eq, trim_eq_empty_iff, String.toList_ofList]
    intro h
    have hx := h 'x' (List.mem_append_left _ (List.mem_replicate.mpr ⟨hn.ne', rfl⟩))
    exact absurd hx (by decide)
  have hselected : markdownSelected options (lettersResult n tail) = true := by
    rw [markdownSelected, hmd, Bool.true_and, lettersResult, Option.any_some]
    exact decide_eq_true hink
  exact ⟨hselected, by rw [selection, hselected]; rfl⟩

/-- 50000 letters reach the default limit. -/
theorem keepsSelection_letters :
    KeepsSelection largePage (extractOptionsFromConfig Config.default) Config.default.extract
      (lettersResult 50000 []) := by
  obtain ⟨hselected, hsel⟩ := selection_letters
    (show (extractOptionsFromConfig Config.default).outputMarkdown = true from rfl)
    (show 0 < 50000 by decide) []
  refine (keepsSelection_iff len_largePage.ge _ _ _).mpr ⟨?_, Or.inl ?_, Or.inl hselected⟩
  · rw [hsel, restoredBytes_letters]
    decide
  · rw [hsel, restoredBytes_letters]
    decide

/-- 49997 letters and a placeholder reach it too, and are replaced: restored, they are two
bytes shorter. -/
theorem saturated_selection_replaced :
    ¬ ∀ (platform : Platform) (config : Config) (html : String) (result : ExtractResult),
      config.validate platform = .ok () → largePageRawBytes ≤ RustStr.len html →
      config.extract.maxContentChars
        ≤ RustStr.len (selection (extractOptionsFromConfig config) result) →
      RustStr.trim (selection (extractOptionsFromConfig config) result) ≠ "" →
      KeepsSelection html (extractOptionsFromConfig config) config.extract result := by
  intro h
  obtain ⟨hselected, hsel⟩ := selection_letters
    (show (extractOptionsFromConfig Config.default).outputMarkdown = true from rfl)
    (show 0 < 49997 by decide) [whitespaceSentinel]
  have hvalid : Config.default.validate Platform.ascii = .ok () :=
    (Config.validate_eq_ok_iff _ _).mpr (Config.default_valid rfl)
  have hlen : RustStr.len (String.ofList (List.replicate 49997 'x' ++ [whitespaceSentinel]))
      = 50000 := by
    have hletters := len_replicate 49997
    rw [RustStr.len, RustStr.asBytes, String.toList_ofList] at hletters
    rw [RustStr.len, RustStr.asBytes, String.toList_ofList, Utf8.encode_append,
      List.length_append, hletters]
    decide
  have hkeeps := h Platform.ascii Config.default largePage
    (lettersResult 49997 [whitespaceSentinel]) hvalid len_largePage.ge
    (by rw [hsel, hlen]; decide) ?_
  · have hcap := (staysSaturated_of_keeps len_largePage.ge hkeeps).1
    rw [hsel, restoredBytes_letters] at hcap
    exact absurd hcap (by decide)
  · rw [hsel, ne_eq, trim_eq_empty_iff, String.toList_ofList]
    intro hblank
    have hx := hblank 'x' (List.mem_append_left _ (List.mem_replicate.mpr ⟨by decide, rfl⟩))
    exact absurd hx (by decide)

end Extract
