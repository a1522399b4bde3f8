/-
# Extraction

`util/extract.rs`: the patches, the extractor and the fallback cascade on a page that
has been fetched.  The HTML rewriter, the decoder of character references and the
extractor are libraries; `HtmlLib` says what is used of them.

* `extractFromHtml` is the cascade, in the order of the source.
* `extractFromHtml_eq`: it never panics, and what its fields come from.
* `neverLeaks_iff`: when the sentinel of the span patch stays out of every field.
-/
import Serica.CharRef
import Serica.CodeblockLinebreaks
import Serica.CodespanFixup
import Serica.Config
import Serica.Models

namespace Extract

open CodespanFixup CodeblockLinebreaks

/-! ## The libraries -/

/-- A calendar date. -/
structure Date where
  year : ℤ
  month : ℕ
  day : ℕ
deriving DecidableEq, Repr

/-- Decimal digits, with zeros in front up to a width. -/
def padded (width n : ℕ) : List Char := (Nat.toDigits 10 n).leftpad width '0'

/-- `d.format("%Y-%m-%d")`: a year outside 0..=9999 has a sign. -/
def Date.format (d : Date) : String :=
  let sign := if d.year < 0 then ['-'] else if d.year ≤ 9999 then [] else ['+']
  String.ofList (sign ++ padded 4 d.year.natAbs ++ '-' :: padded 2 d.month
    ++ '-' :: padded 2 d.day)

structure ResultMetadata where
  title : Option String
  author : Option String
  date : Option Date
  sitename : Option String
  pageType : Option String
  description : Option String

/-- What the extractor returns of a page. -/
structure ExtractResult where
  contentText : String
  contentMarkdown : Option String
  metadata : ResultMetadata

/-- The options that are set; the others keep the extractor's defaults. -/
structure Options where
  maxExtractedLen : ℕ
  outputMarkdown : Bool
  includeImages : Bool
  includeLinks : Bool

/-- `rs_trafilatura::extract_with_options`; `none` is an error. -/
abbrev Extractor := String → Options → Option ExtractResult

/-- The library functions on HTML. -/
structure HtmlLib where
  /-- `lol_html::rewrite_str` with a handler that removes `script`, `style` and
  `noscript`. -/
  pruneScriptsStyles : String → String
  /-- The chunks that the text handler of `lol_html` is given. -/
  textChunks : String → List String
  /-- `html_escape::decode_html_entities`. -/
  decodeHtmlEntities : String → String
  /-- The characters that the references in a text stand for. -/
  decodes : String → Char → Prop
  /-- Pruning only removes. -/
  prune_mem : ∀ {html c}, c ∈ (pruneScriptsStyles html).toList → c ∈ html.toList
  /-- A chunk is a part of the text. -/
  textChunks_inside : ∀ {html chunk}, chunk ∈ textChunks html → chunk.toList <:+: html.toList
  /-- No named reference stands for U+E000, and the decoder asks for the `;`. -/
  decode_sentinel : ∀ {text}, whitespaceSentinel ∈ (decodeHtmlEntities text).toList →
    whitespaceSentinel ∈ text.toList ∨ CharRef.hasRef true 0xE000 text.toList = true
  /-- A browser's decoder does not. -/
  decodes_sentinel : ∀ {text},
    decodes text whitespaceSentinel ↔ CharRef.hasRef false 0xE000 text.toList = true

variable (lib : HtmlLib)

/-! ## The source -/

/-- `split_whitespace`, joined by single spaces. -/
def coalesce (text : String) : String :=
  String.ofList ([' '].intercalate ((text.toList.splitOnP RustStr.isWhitespace).filter (· ≠ [])))

/-- `whole_doc_text`. -/
def wholeDocText (html : String) : String :=
  let pruned := lib.pruneScriptsStyles html
  let out := (lib.textChunks pruned).flatMap fun t => t.toList ++ [' ']
  coalesce (lib.decodeHtmlEntities (String.ofList out))

def wholeDocCheckFloor : ℕ := 3000

def healthyMarkdownFloor : ℕ := 1500

def minFallbackChars : ℕ := 200

/-- Ratios are exact here; texts shorter than 2^49 bytes compare as in floating point. -/
def ratioThreshold : ℚ := 3 / 10

def largePageRawBytes : ℕ := 512 * 1024

def largePageRatioThreshold : ℚ := 1 / 20

/-- The fields of a response that are not its content. -/
structure Metadata where
  title : Option String
  author : Option String
  date : Option String
  sitename : Option String
  pageType : Option String
  excerpt : Option String

def Metadata.none : Metadata := ⟨.none, .none, .none, .none, .none, .none⟩

def Metadata.fromResult (extract : ExtractResult) : Metadata :=
  { title := extract.metadata.title
    author := extract.metadata.author
    date := extract.metadata.date.map Date.format
    sitename := extract.metadata.sitename
    pageType := extract.metadata.pageType
    excerpt := extract.metadata.description }

/-- The ends of the characters of a text that starts at the offset `i`. -/
def charEnds : ℕ → List Char → List ℕ
  | _, [] => []
  | i, c :: cs => (i + c.utf8Size) :: charEnds (i + c.utf8Size) cs

/-- `truncate_at_char_boundary`; `none` is a panic of `String::truncate`. -/
def truncateAtCharBoundary (s : String) (maxBytes : ℕ) : Option String :=
  if RustStr.len s ≤ maxBytes then some s
  else
    let boundary := ((charEnds 0 s.toList).takeWhile (· ≤ maxBytes)).getLast?.getD 0
    RustStr.slice s 0 boundary

/-- Step 2: what the extractor chose, and by which method. -/
def choose (options : Options) (result : Option ExtractResult) :
    Option String × ExtractMethod × Metadata :=
  match result with
  | some extract =>
      let isHealthyMarkdown :=
        options.outputMarkdown && extract.contentMarkdown.any fun md => RustStr.trim md ≠ ""
      if isHealthyMarkdown then
        (some (restoreWhitespacePlaceholders (extract.contentMarkdown.getD "")), .markdown,
          Metadata.fromResult extract)
      else
        let text := restoreWhitespacePlaceholders extract.contentText
        (if RustStr.trim text = "" then none else some text, .textFallback,
          Metadata.fromResult extract)
  | none => (none, .textFallback, Metadata.none)

/-- Steps 3 and 4: the audit against the text of the whole document. -/
def audit (html : String) (rawBytes : ℕ) (config : ExtractConfig) (chosen : Option String)
    (method : ExtractMethod) : Option String × ExtractMethod × Option ℚ :=
  let chosenLen := (chosen.map RustStr.len).getD 0
  let healthyMarkdownInBand := method == .markdown && healthyMarkdownFloor ≤ chosenLen
  let isLargePage := largePageRawBytes ≤ rawBytes
  let largePageAudit := isLargePage && chosen.isSome && chosenLen < config.maxContentChars
  let auditNeeded := (chosenLen < wholeDocCheckFloor && !healthyMarkdownInBand) || largePageAudit
  if auditNeeded then
    let wholeDoc := wholeDocText lib html
    if wholeDoc ≠ "" then
      let ratio : ℚ := chosenLen / RustStr.len wholeDoc
      let threshold := if isLargePage then largePageRatioThreshold else ratioThreshold
      if ratio < threshold then
        if minFallbackChars ≤ RustStr.len wholeDoc then
          (some wholeDoc, .wholeDocFallback, some ratio)
        else (none, method, some ratio)
      else (chosen, method, some ratio)
    else (chosen, method, none)
  else (chosen, method, none)

variable (extractor : Extractor)

/-- `extract_from_html_impl`; `none` is a panic. -/
def extractFromHtmlImpl (html : String) (rawBytes : ℕ) (options : Options)
    (config : ExtractConfig) (prune : Bool) : Option ExtractOutcome := do
  let pruned := if prune then lib.pruneScriptsStyles html else html
  let marked ← preserveWhitespaceOnlySpans pruned
  let patched ← preserveCodeBlockLineBreaks marked
  let (chosen, method, metadata) := choose options (extractor patched options)
  let (chosen, method, ratio) := audit lib html rawBytes config chosen method
  let content ← chosen.mapM fun c => truncateAtCharBoundary c config.maxContentChars
  some
    { content := content
      method := method
      title := metadata.title
      author := metadata.author
      date := metadata.date
      sitename := metadata.sitename
      pageType := metadata.pageType
      excerpt := metadata.excerpt
      ratio := ratio }

/-- `extract_from_html`. -/
def extractFromHtml (html : String) (options : Options) (config : ExtractConfig) :
    Option ExtractOutcome :=
  extractFromHtmlImpl lib extractor html (RustStr.len html) options config true

/-- `extract_options_from_config`. -/
def extractOptionsFromConfig (config : Config) : Options :=
  { maxExtractedLen := config.extract.maxContentChars
    outputMarkdown := config.extract.outputFormat == "markdown"
    includeImages := false
    includeLinks := false }

/-! ## Where the characters come from -/

/-- The text holds no sentinel. -/
def Clean (s : String) : Prop := whitespaceSentinel ∉ s.toList

theorem clean_coalesce {text : String} (h : Clean text) : Clean (coalesce text) := by
  unfold Clean coalesce
  rw [String.toList_ofList]
  intro hmem
  rcases RustStr.mem_intercalate hmem with hblank | ⟨l, hl, hc⟩
  · exact absurd hblank (by decide)
  · have hpiece := RustStr.isPiece_of_mem_splitOnP (List.mem_of_mem_filter hl)
    exact h (hpiece.isInfix.subset hc)

/-- The chunks, each with a blank after it, hold a closed reference only when the text
does. -/
theorem hasRef_chunks {text : String} {n : ℕ} {chunks : List String}
    (hchunks : ∀ t ∈ chunks, t.toList <:+: text.toList)
    (h : CharRef.hasRef true n (chunks.flatMap fun t => t.toList ++ [' ']) = true) :
    CharRef.hasRef true n text.toList = true := by
  induction chunks with
  | nil => exact absurd h (by simp [CharRef.hasRef])
  | cons t chunks ih =>
      rw [List.flatMap_cons, List.append_assoc, List.singleton_append, CharRef.hasRef_separated,
        Bool.or_eq_true] at h
      rcases h with h | h
      · exact CharRef.hasRef_of_infix (hchunks t List.mem_cons_self) h
      · exact ih (fun t' h' => hchunks t' (List.mem_cons_of_mem _ h')) h

/-- The text of the whole document is read from the HTML without the patches. -/
theorem clean_wholeDocText {html : String} (hclean : Clean html)
    (href : CharRef.hasRef false 0xE000 (lib.pruneScriptsStyles html).toList = false) :
    Clean (wholeDocText lib html) := by
  apply clean_coalesce
  intro hmem
  rcases lib.decode_sentinel hmem with hmem | hmem
  · rw [String.toList_ofList, List.mem_flatMap] at hmem
    obtain ⟨t, ht, hc⟩ := hmem
    rw [List.mem_append, List.mem_singleton] at hc
    rcases hc with hc | hc
    · exact hclean (lib.prune_mem ((lib.textChunks_inside ht).subset hc))
    · exact absurd hc (by decide)
  · rw [String.toList_ofList] at hmem
    have hpruned := hasRef_chunks (fun t ht => lib.textChunks_inside ht) hmem
    rw [CharRef.hasRef_of_closed hpruned] at href
    exact absurd href (by simp)

theorem clean_format (d : Date) : Clean d.format := by
  have hdigits : ∀ width n, whitespaceSentinel ∉ padded width n := by
    intro width n hmem
    rw [padded, List.leftpad, List.mem_append] at hmem
    rcases hmem with hmem | hmem
    · exact absurd (List.eq_of_mem_replicate hmem) (by decide)
    · exact absurd (Nat.isDigit_of_mem_toDigits (by omega) (by omega) hmem) (by decide)
  unfold Clean Date.format
  rw [String.toList_ofList]
  simp only [List.mem_append, List.mem_cons, hdigits, or_false]
  split_ifs <;> decide

/-! ## Truncation -/

/-- The last end of a character that fits is that of a part of the text, and fits. -/
theorem charEnds_boundary (maxBytes i : ℕ) (cs : List Char) :
    ∃ k, ((charEnds i cs).takeWhile (· ≤ maxBytes)).getLast?.getD i
        = i + (Utf8.encode (cs.take k)).length
      ∧ (i ≤ maxBytes → i + (Utf8.encode (cs.take k)).length ≤ maxBytes) := by
  induction cs generalizing i with
  | nil => exact ⟨0, rfl, id⟩
  | cons c cs ih =>
      by_cases hfit : i + c.utf8Size ≤ maxBytes
      · obtain ⟨k, hk, hle⟩ := ih (i + c.utf8Size)
        have hlen : i + (Utf8.encode ((c :: cs).take (k + 1))).length
            = i + c.utf8Size + (Utf8.encode (cs.take k)).length := by
          rw [List.take_succ_cons, Utf8.encode_cons, List.length_append,
            String.length_utf8EncodeChar, Nat.add_assoc]
        refine ⟨k + 1, ?_, fun _ => ?_⟩
        · rw [charEnds, List.takeWhile_cons_of_pos (by simpa using hfit), List.getLast?_cons,
            Option.getD_some, hk, hlen]
        · rw [hlen]
          exact hle hfit
      · refine ⟨0, ?_, id⟩
        rw [charEnds, List.takeWhile_cons_of_neg (by simpa using hfit)]
        rfl

/-- It is not before the end of a part from the start on that fits. -/
theorem charEnds_reach {maxBytes i : ℕ} {cs p : List Char} (hp : p <+: cs)
    (hfits : i + (Utf8.encode p).length ≤ maxBytes) :
    i + (Utf8.encode p).length ≤ ((charEnds i cs).takeWhile (· ≤ maxBytes)).getLast?.getD i := by
  induction cs generalizing i p with
  | nil => rw [List.prefix_nil.mp hp]; exact le_rfl
  | cons c cs ih =>
      cases p with
      | nil =>
          obtain ⟨k, hk, -⟩ := charEnds_boundary maxBytes i (c :: cs)
          rw [hk]
          exact Nat.add_le_add_left (Nat.zero_le _) i
      | cons d p =>
          obtain ⟨rfl, htail⟩ := List.cons_prefix_cons.mp hp
          rw [Utf8.encode_cons, List.length_append, String.length_utf8EncodeChar, ← Nat.add_assoc]
            at hfits ⊢
          have hfit : i + d.utf8Size ≤ maxBytes := by omega
          rw [charEnds, List.takeWhile_cons_of_pos (by simpa using hfit), List.getLast?_cons,
            Option.getD_some]
          exact ih htail hfits

theorem length_encode_eq_zero {cs : List Char} : (Utf8.encode cs).length = 0 ↔ cs = [] := by
  cases cs with
  | nil => exact iff_of_true rfl rfl
  | cons c cs =>
      rw [Utf8.encode_cons, List.length_append, String.length_utf8EncodeChar]
      have hpos := c.utf8Size_pos
      exact iff_of_false (by omega) (by simp)

/-- Of two parts from the start on, the one with fewer bytes is a part of the other. -/
theorem prefix_of_length_encode_le {p q cs : List Char} (hp : p <+: cs) (hq : q <+: cs)
    (hle : (Utf8.encode p).length ≤ (Utf8.encode q).length) : p <+: q := by
  rcases List.prefix_or_prefix_of_prefix hp hq with h | ⟨rest, rfl⟩
  · exact h
  · rw [Utf8.encode_append, List.length_append] at hle
    rw [length_encode_eq_zero.mp (by omega : (Utf8.encode rest).length = 0), List.append_nil]

/-- Truncation keeps the longest part from the start on that fits. -/
theorem truncateAtCharBoundary_eq_take (s : String) (maxBytes : ℕ) :
    ∃ k, truncateAtCharBoundary s maxBytes = some (String.ofList (s.toList.take k))
      ∧ (Utf8.encode (s.toList.take k)).length ≤ maxBytes
      ∧ ∀ p, p <+: s.toList → (Utf8.encode p).length ≤ maxBytes → p <+: s.toList.take k := by
  unfold truncateAtCharBoundary
  split_ifs with hfits
  · refine ⟨s.toList.length, ?_, ?_⟩
    · rw [List.take_length, String.ofList_toList]
    · rw [List.take_length]
      exact ⟨hfits, fun p hp _ => hp⟩
  · obtain ⟨k, hk, hle⟩ := charEnds_boundary maxBytes 0 s.toList
    have hslice := RustStr.slice_ofList [] (s.toList.take k) (s.toList.drop k)
    rw [List.nil_append, List.take_append_drop, String.ofList_toList] at hslice
    refine ⟨k, ?_, ?_, ?_⟩
    · rw [hk, Nat.zero_add]
      exact hslice
    · rw [← Nat.zero_add (List.length _)]
      exact hle (Nat.zero_le maxBytes)
    · intro p hp hpfits
      have hreach := charEnds_reach (i := 0) hp ((Nat.zero_add _).trans_le hpfits)
      rw [hk, Nat.zero_add, Nat.zero_add] at hreach
      exact prefix_of_length_encode_le hp (List.take_prefix k _) hreach

/-- Truncation never panics, and keeps a part from the start on that fits. -/
theorem truncateAtCharBoundary_eq_some (s : String) (maxBytes : ℕ) :
    ∃ t, truncateAtCharBoundary s maxBytes = some t ∧ t.toList <+: s.toList
      ∧ RustStr.len t ≤ maxBytes := by
  obtain ⟨k, hk, hfits, -⟩ := truncateAtCharBoundary_eq_take s maxBytes
  refine ⟨_, hk, ?_, ?_⟩
  · rw [String.toList_ofList]
    exact List.take_prefix k _
  · rw [RustStr.len, RustStr.asBytes, String.toList_ofList]
    exact hfits

/-! ## The cascade -/

/-- What is chosen of the extractor's texts has been restored. -/
theorem clean_choose {options : Options} {result : Option ExtractResult} {t : String}
    (h : (choose options result).1 = some t) : Clean t := by
  unfold choose at h
  split at h
  · simp only [] at h
    split_ifs at h
    · rw [Option.some.injEq] at h
      rw [← h]
      exact sentinel_not_mem_restore _
    · rw [Option.some.injEq] at h
      rw [← h]
      exact sentinel_not_mem_restore _
  · exact absurd h (by simp)

/-- The metadata is the extractor's, as it is. -/
theorem choose_metadata (options : Options) (result : Option ExtractResult) :
    (choose options result).2.2 = (result.map Metadata.fromResult).getD Metadata.none := by
  unfold choose
  split
  · simp only []
    split_ifs <;> rfl
  · rfl

/-- The audit keeps what is chosen, drops it, or takes the text of the whole document. -/
theorem audit_cases (html : String) (rawBytes : ℕ) (config : ExtractConfig)
    (chosen : Option String) (method : ExtractMethod) :
    (audit lib html rawBytes config chosen method).1 = chosen
      ∨ (audit lib html rawBytes config chosen method).1 = none
      ∨ (audit lib html rawBytes config chosen method).1 = some (wholeDocText lib html) := by
  unfold audit
  simp only []
  split_ifs <;> simp

/-- The HTML that the extractor is given. -/
def patchedHtml (html : String) : String :=
  String.ofList (breakPass false (spacerPass (lib.pruneScriptsStyles html).toList))

/-- It is what the two patches make of the pruned HTML. -/
theorem patchedHtml_eq {html marked patched : String}
    (hspans : preserveWhitespaceOnlySpans (lib.pruneScriptsStyles html) = some marked)
    (hbreaks : preserveCodeBlockLineBreaks marked = some patched) :
    patchedHtml lib html = patched := by
  rw [preserveWhitespaceOnlySpans_eq, Option.some.injEq] at hspans
  rw [← hspans, preserveCodeBlockLineBreaks_eq, String.toList_ofList, Option.some.injEq] at hbreaks
  exact hbreaks

/-- The metadata that the extractor finds on a page. -/
def metadataOf (html : String) (options : Options) : Metadata :=
  ((extractor (patchedHtml lib html) options).map Metadata.fromResult).getD Metadata.none

/-- What the audit leaves of the extractor's choice on a page. -/
def auditedChoice (html : String) (options : Options) (config : ExtractConfig) :
    Option String × ExtractMethod × Option ℚ :=
  let choice := choose options (extractor (patchedHtml lib html) options)
  audit lib html (RustStr.len html) config choice.1 choice.2.1

/-- The cascade never panics: its content is what the audit leaves, truncated, and its
other fields are the audit's and the extractor's. -/
theorem extractFromHtml_outcome (html : String) (options : Options) (config : ExtractConfig) :
    ∃ outcome, extractFromHtml lib extractor html options config = some outcome
      ∧ (auditedChoice lib extractor html options config).1.mapM
          (fun c => truncateAtCharBoundary c config.maxContentChars) = some outcome.content
      ∧ outcome.method = (auditedChoice lib extractor html options config).2.1
      ∧ outcome.title = (metadataOf lib extractor html options).title
      ∧ outcome.author = (metadataOf lib extractor html options).author
      ∧ outcome.date = (metadataOf lib extractor html options).date
      ∧ outcome.sitename = (metadataOf lib extractor html options).sitename
      ∧ outcome.pageType = (metadataOf lib extractor html options).pageType
      ∧ outcome.excerpt = (metadataOf lib extractor html options).excerpt := by
  have hbreaks : preserveCodeBlockLineBreaks
      (String.ofList (spacerPass (lib.pruneScriptsStyles html).toList))
        = some (patchedHtml lib html) := by
    rw [preserveCodeBlockLineBreaks_eq, String.toList_ofList]
    rfl
  have hmeta := choose_metadata options (extractor (patchedHtml lib html) options)
  unfold extractFromHtml extractFromHtmlImpl auditedChoice
  simp only [if_true, preserveWhitespaceOnlySpans_eq, Option.bind_eq_bind, Option.bind_some,
    hbreaks]
  rw [show metadataOf lib extractor html options
    = (choose options (extractor (patchedHtml lib html) options)).2.2 from hmeta.symm]
  generalize choose options (extractor (patchedHtml lib html) options) = result
  obtain ⟨chosen, method, metadata⟩ := result
  dsimp only
  generalize audit lib html (RustStr.len html) config chosen method = result
  obtain ⟨final, method', ratio⟩ := result
  cases final with
  | none => exact ⟨_, rfl, rfl, rfl, rfl, rfl, rfl, rfl, rfl, rfl⟩
  | some s =>
      obtain ⟨t, ht, -⟩ := truncateAtCharBoundary_eq_some s config.maxContentChars
      have hmap : (some s).mapM (fun c => truncateAtCharBoundary c config.maxContentChars)
          = some (some t) := by
        rw [Option.mapM_some, ht]
        rfl
      exact ⟨_, by dsimp only; rw [hmap]; rfl, hmap, rfl, rfl, rfl, rfl, rfl, rfl, rfl⟩

/-- There is content when something was left to truncate. -/
theorem content_cases {maxBytes : ℕ} {final content : Option String}
    (h : (final.mapM fun c => truncateAtCharBoundary c maxBytes) = some content) :
    (final = none ∧ content = none)
      ∨ ∃ s t, final = some s ∧ content = some t ∧ truncateAtCharBoundary s maxBytes = some t := by
  cases final with
  | none => exact Or.inl ⟨rfl, (Option.some.inj h).symm⟩
  | some s =>
      obtain ⟨t, ht, -⟩ := truncateAtCharBoundary_eq_some s maxBytes
      rw [Option.mapM_some, ht] at h
      exact Or.inr ⟨s, t, rfl, (Option.some.inj h).symm, ht⟩

/-- **The cascade never panics**; its content is a part of a restored text or of the text
of the whole document, within the limit, and its other fields are the extractor's. -/
theorem extractFromHtml_eq (html : String) (options : Options) (config : ExtractConfig) :
    ∃ outcome, extractFromHtml lib extractor html options config = some outcome
      ∧ (∀ t, outcome.content = some t → ∃ s, (Clean s ∨ s = wholeDocText lib html)
          ∧ t.toList <+: s.toList ∧ RustStr.len t ≤ config.maxContentChars)
      ∧ outcome.title = (metadataOf lib extractor html options).title
      ∧ outcome.author = (metadataOf lib extractor html options).author
      ∧ outcome.date = (metadataOf lib extractor html options).date
      ∧ outcome.sitename = (metadataOf lib extractor html options).sitename
      ∧ outcome.pageType = (metadataOf lib extractor html options).pageType
      ∧ outcome.excerpt = (metadataOf lib extractor html options).excerpt := by
  obtain ⟨outcome, hrun, hcontent, -, hfields⟩ :=
    extractFromHtml_outcome lib extractor html options config
  refine ⟨outcome, hrun, ?_, hfields⟩
  intro t ht
  obtain ⟨-, hnone⟩ | ⟨s, t', hfinal, hsome, htrunc⟩ := content_cases hcontent
  · exact absurd (hnone.symm.trans ht) (by simp)
  · obtain rfl : t' = t := Option.some.inj (hsome.symm.trans ht)
    obtain ⟨_, ht', hhead, hfits⟩ := truncateAtCharBoundary_eq_some s config.maxContentChars
    obtain rfl := Option.some.inj (ht'.symm.trans htrunc)
    refine ⟨s, ?_, hhead, hfits⟩
    -- The content was chosen, and so restored, or is the text of the whole document.
    rcases audit_cases lib html (RustStr.len html) config
      (choose options (extractor (patchedHtml lib html) options)).1
      (choose options (extractor (patchedHtml lib html) options)).2.1 with h | h | h
    · exact Or.inl (clean_choose (h.symm.trans hfinal))
    · exact absurd (h.symm.trans hfinal) (by simp)
    · exact Or.inr (Option.some.inj (hfinal.symm.trans h))

/-! ## The sentinel and the client -/

/-- The texts of an optional field. -/
def fieldTexts (fields : List (Option String)) : List String := fields.filterMap id

def resultTexts (r : ExtractResult) : List String :=
  r.contentText :: fieldTexts [r.contentMarkdown, r.metadata.title, r.metadata.author,
    r.metadata.sitename, r.metadata.pageType, r.metadata.description]

def outcomeTexts (o : ExtractOutcome) : List String :=
  fieldTexts [o.content, o.title, o.author, o.date, o.sitename, o.pageType, o.excerpt]

def responseTexts (r : ExtractResponse) : List String :=
  r.url :: fieldTexts [r.title, r.author, r.date, r.sitename, r.pageType, r.content, r.excerpt]

/-- The extractor's texts use only characters that occur in its HTML or are decoded
from it. -/
def Faithful : Prop :=
  ∀ html options r, extractor html options = some r → ∀ s ∈ resultTexts r, ∀ c ∈ s.toList,
    c ∈ html.toList ∨ lib.decodes html c

/-- Under every validated configuration and with every faithful extractor, no text of the
outcome and of the response holds the sentinel. -/
def NeverLeaks (platform : Platform) (html : String) : Prop :=
  ∀ config : Config, config.validate platform = .ok () → ∀ extractor, Faithful lib extractor →
    ∃ outcome, extractFromHtml lib extractor html (extractOptionsFromConfig config)
        config.extract = some outcome
      ∧ (∀ s ∈ outcomeTexts outcome, Clean s)
      ∧ ∀ url timingMs, Clean url →
          ∀ s ∈ responseTexts (ExtractResponse.ofOutcome url outcome timingMs), Clean s

theorem mem_fieldTexts {fields : List (Option String)} {s : String} :
    s ∈ fieldTexts fields ↔ some s ∈ fields := by
  rw [fieldTexts, List.mem_filterMap]
  simp

/-- A response has the texts of its outcome, and the URL. -/
theorem mem_responseTexts {url s : String} {outcome : ExtractOutcome} {timingMs : UInt64}
    (h : s ∈ responseTexts (ExtractResponse.ofOutcome url outcome timingMs)) :
    s = url ∨ s ∈ outcomeTexts outcome := by
  rw [responseTexts, List.mem_cons, mem_fieldTexts] at h
  refine h.imp id fun h => ?_
  rw [outcomeTexts, mem_fieldTexts]
  simp only [ExtractResponse.ofOutcome, List.mem_cons, List.not_mem_nil, or_false] at h ⊢
  tauto

/-- HTML in which the span patch marks nothing: the patches keep the sentinel out. -/
theorem clean_patchedHtml {html : String} (hclean : Clean html)
    (hspan : ¬ MeetsSpacer (lib.pruneScriptsStyles html).toList) :
    Clean (patchedHtml lib html) := by
  unfold Clean patchedHtml
  rw [String.toList_ofList, spacerPass_eq_self hspan,
    (breakPass_broken false _).mem_iff (by decide)]
  exact fun hmem => hclean (lib.prune_mem hmem)

/-- The line breaks neither make nor undo a character reference. -/
theorem hasRef_broken {closed : Bool} {n : ℕ} {xs cs : List Char} (h : Broken xs cs) :
    CharRef.hasRef closed n xs = CharRef.hasRef closed n cs := by
  induction h with
  | nil => rfl
  | copied c h ih =>
      rw [CharRef.hasRef, CharRef.hasRef, ih, CharRef.isRef, CharRef.isRef,
        h.takeWhile_eq (by decide)]
  | broken h ih =>
      rw [CharRef.hasRef, CharRef.hasRef, CharRef.hasRef, ih]
      rfl

theorem clean_metadata {html : String} {options : Options} {s : String}
    (hfaithful : Faithful lib extractor) (hclean : Clean (patchedHtml lib html))
    (hdecodes : ¬ lib.decodes (patchedHtml lib html) whitespaceSentinel)
    (h : some s ∈ [(metadataOf lib extractor html options).title,
      (metadataOf lib extractor html options).author, (metadataOf lib extractor html options).date,
      (metadataOf lib extractor html options).sitename,
      (metadataOf lib extractor html options).pageType,
      (metadataOf lib extractor html options).excerpt]) : Clean s := by
  unfold metadataOf at h
  cases hresult : extractor (patchedHtml lib html) options with
  | none => rw [hresult] at h; simp [Metadata.none] at h
  | some r =>
      have htext : ∀ t ∈ resultTexts r, Clean t := by
        intro t ht hmem
        rcases hfaithful _ _ _ hresult t ht _ hmem with hc | hc
        · exact hclean hc
        · exact hdecodes hc
      rw [hresult] at h
      simp only [Option.map_some, Option.getD_some, Metadata.fromResult, List.mem_cons,
        List.not_mem_nil, or_false] at h
      -- The date is written out here, not taken from the extractor's texts.
      by_cases hdate : some s = r.metadata.date.map Date.format
      · obtain ⟨d, _, rfl⟩ := Option.map_eq_some_iff.mp hdate.symm
        exact clean_format d
      · apply htext
        rw [resultTexts, List.mem_cons, mem_fieldTexts]
        simp only [List.mem_cons, List.not_mem_nil, or_false]
        tauto

/-- The pruned HTML holds no whitespace-only span that the span patch comes to, and no
character reference to the sentinel. -/
def NoSentinelSource (html : String) : Prop :=
  ¬ MeetsSpacer (lib.pruneScriptsStyles html).toList
    ∧ ¬ lib.decodes (lib.pruneScriptsStyles html) whitespaceSentinel

/-- Without such a span the patched HTML has the references of the pruned HTML. -/
theorem decodes_patchedHtml {html : String}
    (hspan : ¬ MeetsSpacer (lib.pruneScriptsStyles html).toList) :
    lib.decodes (patchedHtml lib html) whitespaceSentinel
      ↔ lib.decodes (lib.pruneScriptsStyles html) whitespaceSentinel := by
  rw [lib.decodes_sentinel, lib.decodes_sentinel, patchedHtml, String.toList_ofList,
    spacerPass_eq_self hspan, hasRef_broken (breakPass_broken false _)]

theorem neverLeaks_of_noSource (platform : Platform) {html : String} (hclean : Clean html)
    (hsource : NoSentinelSource lib html) : NeverLeaks lib platform html := by
  intro config _ extractor hfaithful
  obtain ⟨hspan, href⟩ := hsource
  obtain ⟨outcome, hrun, hcontent, htitle, hauthor, hdate, hsitename, hpageType, hexcerpt⟩ :=
    extractFromHtml_eq lib extractor html (extractOptionsFromConfig config) config.extract
  have hpatched := clean_patchedHtml lib hclean hspan
  have hdecodes := (decodes_patchedHtml lib hspan).not.mpr href
  have hnoref : CharRef.hasRef false 0xE000 (lib.pruneScriptsStyles html).toList = false := by
    rwa [lib.decodes_sentinel, Bool.not_eq_true] at href
  have houtcome : ∀ s ∈ outcomeTexts outcome, Clean s := by
    intro s hs
    rw [outcomeTexts, mem_fieldTexts, List.mem_cons] at hs
    rcases hs with hs | hs
    · obtain ⟨t, ht, hhead, -⟩ := hcontent s hs.symm
      intro hmem
      rcases ht with ht | rfl
      · exact ht (hhead.subset hmem)
      · exact clean_wholeDocText lib hclean hnoref (hhead.subset hmem)
    · -- The other fields come from the extractor unrestored.
      rw [htitle, hauthor, hdate, hsitename, hpageType, hexcerpt] at hs
      exact clean_metadata lib extractor hfaithful hpatched hdecodes hs
  refine ⟨outcome, hrun, houtcome, ?_⟩
  intro url timingMs hurl s hs
  rcases mem_responseTexts hs with rfl | hs
  · exact hurl
  · exact houtcome s hs

/-- An extractor that finds a title made of the sentinel wherever it may. -/
noncomputable def sentinelTitle : Extractor := fun html _ =>
  open Classical in
  if whitespaceSentinel ∈ html.toList ∨ lib.decodes html whitespaceSentinel then
    some ⟨"", none, ⟨some (String.singleton whitespaceSentinel), none, none, none, none, none⟩⟩
  else none

theorem sentinelTitle_faithful : Faithful lib (sentinelTitle lib) := by
  intro html options r hr s hs c hc
  unfold sentinelTitle at hr
  split_ifs at hr with hsource
  rw [Option.some.injEq] at hr
  subst hr
  have hs' : s = "" ∨ s = String.singleton whitespaceSentinel := by
    simpa [resultTexts, fieldTexts] using hs
  rcases hs' with rfl | rfl
  · exact absurd hc (by simp)
  · have hc' : c = whitespaceSentinel := by simpa using hc
    rwa [hc']

theorem noSource_of_neverLeaks {platform : Platform} (hinfo : platform.parseDirective "info" = none)
    {html : String} (h : NeverLeaks lib platform html) : NoSentinelSource lib html := by
  have hvalid : Config.default.validate platform = .ok () :=
    (Config.validate_eq_ok_iff _ _).mpr (Config.default_valid hinfo)
  obtain ⟨outcome, hrun, htexts, -⟩ := h Config.default hvalid _ (sentinelTitle_faithful lib)
  obtain ⟨outcome', hrun', -, htitle, -⟩ := extractFromHtml_eq lib (sentinelTitle lib) html
    (extractOptionsFromConfig Config.default) Config.default.extract
  obtain rfl : outcome = outcome' := Option.some.inj (hrun.symm.trans hrun')
  -- The patched HTML itself has no sentinel to offer.
  have hnone : ¬ (whitespaceSentinel ∈ (patchedHtml lib html).toList
      ∨ lib.decodes (patchedHtml lib html) whitespaceSentinel) := by
    intro hsource
    rw [metadataOf, sentinelTitle, if_pos hsource] at htitle
    have hmem : String.singleton whitespaceSentinel ∈ outcomeTexts outcome := by
      rw [outcomeTexts, mem_fieldTexts, htitle]
      simp [Metadata.fromResult]
    exact htexts _ hmem (by simp)
  rw [not_or] at hnone
  have hspan : ¬ MeetsSpacer (lib.pruneScriptsStyles html).toList := by
    intro hmeets
    apply hnone.1
    rw [patchedHtml, String.toList_ofList, (breakPass_broken false _).mem_iff (by decide)]
    exact sentinel_mem_spacerPass hmeets
  exact ⟨hspan, (decodes_patchedHtml lib hspan).not.mp hnone.2⟩

/-- **When the sentinel stays inside**: for HTML that holds neither the sentinel nor a
reference to it, exactly when the pruned HTML gives the patches and the decoders none. -/
theorem neverLeaks_iff {platform : Platform} (hinfo : platform.parseDirective "info" = none)
    {html : String} (hclean : Clean html) (_ : ¬ lib.decodes html whitespaceSentinel) :
    NeverLeaks lib platform html ↔ NoSentinelSource lib html :=
  ⟨noSource_of_neverLeaks lib hinfo, neverLeaks_of_noSource lib platform hclean⟩

/-! ## A page -/

/-- The text behind the tag that a piece begins with. -/
def pieceText (piece : List Char) : String :=
  String.ofList (if '>' ∈ piece then (piece.dropWhile (· != '>')).tail else piece)

/-- The texts between the tags of a page whose attributes hold no `>`. -/
def plainChunks (html : String) : List String := (html.toList.splitOnP (· == '<')).map pieceText

theorem infix_of_mem_plainChunks {html chunk : String} (h : chunk ∈ plainChunks html) :
    chunk.toList <:+: html.toList := by
  obtain ⟨piece, hpiece, rfl⟩ := List.mem_map.mp h
  rw [pieceText, String.toList_ofList]
  have hin := (RustStr.isPiece_of_mem_splitOnP hpiece).isInfix
  split_ifs
  · exact ((List.tail_suffix _).trans (List.dropWhile_suffix _)).isInfix.trans hin
  · exact hin

/-- The libraries on a page without scripts and without references: nothing is pruned and
nothing is decoded. -/
def plainLib : HtmlLib where
  pruneScriptsStyles := id
  textChunks := plainChunks
  decodeHtmlEntities := id
  decodes := fun html c => CharRef.hasRef false c.toNat html.toList = true
  prune_mem := id
  textChunks_inside := infix_of_mem_plainChunks
  decode_sentinel := Or.inl
  decodes_sentinel := Iff.rfl

/-- A page on which a span holds text. -/
def spanPage : String := "<p>Some <span>more</span> text.</p>"

theorem neverLeaks_iff_spanPage : NeverLeaks plainLib Platform.ascii spanPage
    ∧ Clean spanPage ∧ ¬ plainLib.decodes spanPage whitespaceSentinel := by
  have hclean : Clean spanPage := by unfold Clean; decide
  have hdecodes : ¬ plainLib.decodes spanPage whitespaceSentinel := by
    show ¬ CharRef.hasRef false _ _ = true
    decide
  have hspan : ¬ MeetsSpacer spanPage.toList := by
    -- The first pass leaves the page as it is.
    have hsame : preserveWhitespaceOnlySpans spanPage = some spanPage := rfl
    rw [preserveWhitespaceOnlySpans_eq, Option.some.injEq] at hsame
    intro hmeets
    have hmem := sentinel_mem_spacerPass hmeets
    rw [← String.toList_ofList (l := spacerPass _), hsame] at hmem
    exact hclean hmem
  exact ⟨(neverLeaks_iff plainLib rfl hclean hdecodes).mpr ⟨hspan, hdecodes⟩, hclean, hdecodes⟩

/-- The texts in the first heading of a page. -/
def headingChunks (html : String) : List String :=
  (((html.toList.splitOnP (· == '<')).dropWhile fun piece =>
      !"h1>".toList.isPrefixOf piece).takeWhile fun piece =>
        !"/h1>".toList.isPrefixOf piece).map pieceText

theorem headingChunks_subset (html : String) : headingChunks html ⊆ plainChunks html :=
  List.map_subset _ (List.Subset.trans (List.takeWhile_prefix _).subset
    (List.dropWhile_suffix _).subset)

/-- The extractor takes the text of the page as its content, and that of the heading as its
title. -/
def headingTitle : Extractor := fun html _ =>
  some ⟨String.ofList ((plainChunks html).flatMap String.toList), none,
    ⟨some (String.ofList ((headingChunks html).flatMap String.toList)), none, none, none, none,
      none⟩⟩

theorem headingTitle_faithful : Faithful plainLib headingTitle := by
  have hinside : ∀ (html : String) (chunks : List String), chunks ⊆ plainChunks html →
      ∀ c ∈ (String.ofList (chunks.flatMap String.toList)).toList, c ∈ html.toList := by
    intro html chunks hsub c hc
    rw [String.toList_ofList, List.mem_flatMap] at hc
    obtain ⟨chunk, hchunk, hc⟩ := hc
    exact (infix_of_mem_plainChunks (hsub hchunk)).subset hc
  intro html options r hr s hs c hc
  obtain rfl := Option.some.inj hr
  have hs' : s = String.ofList ((plainChunks html).flatMap String.toList)
      ∨ s = String.ofList ((headingChunks html).flatMap String.toList) := by
    simpa [resultTexts, fieldTexts] using hs
  rcases hs' with rfl | rfl
  · exact Or.inl (hinside html _ (List.Subset.refl _) c hc)
  · exact Or.inl (hinside html _ (headingChunks_subset html) c hc)

/-- A page with two words of its heading kept apart by a spacer span. -/
def headingPage : String := "<h1>Foo<span> </span>Bar</h1><p>Some text.</p>"

/-- The heading has the sentinel in its place in the title. -/
theorem extractFromHtml_leaks :
    Clean headingPage
      ∧ ¬ plainLib.decodes headingPage whitespaceSentinel
      ∧ Faithful plainLib headingTitle
      ∧ (extractFromHtml plainLib headingTitle headingPage
          (extractOptionsFromConfig Config.default) Config.default.extract).map (·.title)
        = some (some "Foo\uE000Bar")
      ∧ ¬ NeverLeaks plainLib Platform.ascii headingPage := by
  have hpatched : patchedHtml plainLib headingPage
      = "<h1>Foo<span>\uE000</span>Bar</h1><p>Some text.</p>" :=
    patchedHtml_eq plainLib rfl rfl
  obtain ⟨outcome, hrun, -, htitle, -⟩ := extractFromHtml_eq plainLib headingTitle
    headingPage (extractOptionsFromConfig Config.default) Config.default.extract
  rw [metadataOf, hpatched] at htitle
  have htitle' : outcome.title = some "Foo\uE000Bar" := htitle.trans rfl
  have hvalid : Config.default.validate Platform.ascii = .ok () :=
    (Config.validate_eq_ok_iff _ _).mpr (Config.default_valid rfl)
  refine ⟨by unfold Clean; decide, ?_, headingTitle_faithful, ?_, ?_⟩
  · show ¬ CharRef.hasRef false _ _ = true
    decide +kernel
  · rw [hrun, Option.map_some, htitle']
  · intro h
    obtain ⟨outcome', hrun', htexts, -⟩ :=
      h Config.default hvalid headingTitle headingTitle_faithful
    obtain rfl : outcome' = outcome := Option.some.inj (hrun'.symm.trans hrun)
    have hmem : "Foo\uE000Bar" ∈ outcomeTexts outcome' := by
      rw [outcomeTexts, mem_fieldTexts, htitle']
      simp
    exact htexts _ hmem (by decide)

end Extract
