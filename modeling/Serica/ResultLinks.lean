/-
# The links of a results page

DuckDuckGo wraps the link of each result in a redirect that carries the target in its
parameter `uddg`.  `Url::parse` is a parameter, and so is the HTML parser: it gives the
containers of a page with the links that the selectors find in them.

* `extractUddgUrl_decodes`: a target comes back as it was wrapped.
* `extractUddgUrl_isHttp`: nothing but `http` and `https` URLs comes back.
* `resultLinks_faithful`: both, and what they mean for a parsed page.
-/
import Serica.DuckDuckGo

namespace DuckDuckGo

/-! ## The source -/

/-- A link: its `href` and the texts inside it. -/
structure Anchor where
  href : Option String
  text : List String

/-- A `div.result__body`, with its first `a.result__a` and its first `a.result__snippet`. -/
structure Container where
  title : Option Anchor
  snippet : Option Anchor

variable (parseUrl : String → Except String Url)

/-- The redirect as an absolute URL. -/
def absoluteHref (href : String) : Option String :=
  if href.startsWith "//" then some ("https:" ++ href)
  else if href.startsWith "http" then some href
  else none

def extractUddgUrl (href : String) : Option String := do
  let absolute ← absoluteHref href
  let parsed ← (parseUrl absolute).toOption
  let target ← (parsed.queryPairs.find? fun p => p.1 == "uddg").map (·.2)
  if target = "" then none
  else
    let parsed ← (parseUrl target).toOption
    if parsed.scheme = "http" ∨ parsed.scheme = "https" then some parsed.asStr else none

/-- `el.text().collect::<Vec<_>>().join(" ").trim()`. -/
def Anchor.joinedText (el : Anchor) : String := RustStr.trim (" ".intercalate el.text)

/-- One turn of the loop over the containers. -/
def parseResult (element : Container) : Option SearchResult :=
  let found := element.title.bind fun el =>
    el.href.bind fun href =>
      (extractUddgUrl parseUrl href).map fun url => (url, el.joinedText)
  let (url, title) := found.getD ("", "")
  if url = "" ∨ title = "" then none
  else
    some
      { url := url
        title := title
        snippet := (element.snippet.map Anchor.joinedText).getD "" }

/-- `select` parses the page and finds its containers. -/
def parseResults (select : String → List Container) (html : String) : List SearchResult :=
  (select html).filterMap (parseResult parseUrl)

/-! ## Only web addresses -/

/-- The text is the serialisation of a URL with the scheme `http` or `https`, and is parsed
to it. -/
def IsHttp (u : String) : Prop :=
  ∃ v : Url, parseUrl u = .ok v ∧ v.asStr = u ∧ (v.scheme = "http" ∨ v.scheme = "https")

/-- Parsing a serialised URL returns it. -/
def Reparses : Prop := ∀ s v, parseUrl s = .ok v → parseUrl v.asStr = .ok v

variable {parseUrl}

theorem toOption_eq_some {α ε : Type} {x : Except ε α} {a : α} (h : x.toOption = some a) :
    x = .ok a := by
  cases x with
  | error e => cases h
  | ok b => rw [Option.some.inj h]

/-- Whatever the link is, what is extracted is a web address. -/
theorem extractUddgUrl_isHttp (hreparses : Reparses parseUrl) {href u : String}
    (h : extractUddgUrl parseUrl href = some u) : IsHttp parseUrl u := by
  unfold extractUddgUrl at h
  obtain ⟨absolute, -, h⟩ := Option.bind_eq_some_iff.mp h
  obtain ⟨parsed, -, h⟩ := Option.bind_eq_some_iff.mp h
  obtain ⟨target, -, h⟩ := Option.bind_eq_some_iff.mp h
  split_ifs at h with hempty
  obtain ⟨v, hv, h⟩ := Option.bind_eq_some_iff.mp h
  split_ifs at h with hscheme
  obtain rfl := Option.some.inj h
  exact ⟨v, hreparses _ _ (toOption_eq_some hv), rfl, hscheme⟩

/-- A result has a title and the target of its link. -/
theorem parseResult_eq_some {element : Container} {r : SearchResult}
    (h : parseResult parseUrl element = some r) :
    r.title ≠ "" ∧ ∃ href, extractUddgUrl parseUrl href = some r.url := by
  unfold parseResult at h
  cases hfound : (element.title.bind fun el => el.href.bind fun href =>
      (extractUddgUrl parseUrl href).map fun url => (url, el.joinedText)) with
  | none =>
      rw [hfound] at h
      simp at h
  | some found =>
      obtain ⟨el, -, hel⟩ := Option.bind_eq_some_iff.mp hfound
      obtain ⟨href, -, hhref⟩ := Option.bind_eq_some_iff.mp hel
      obtain ⟨url, hurl, rfl⟩ := Option.map_eq_some_iff.mp hhref
      rw [hfound] at h
      dsimp only [Option.getD_some] at h
      split_ifs at h with hblank
      obtain rfl := Option.some.inj h
      exact ⟨fun htitle => hblank (Or.inr htitle), href, hurl⟩

/-- Every result on a page has a title and is an http address. -/
theorem parseResults_isHttp (hreparses : Reparses parseUrl) {select : String → List Container}
    {html : String} {r : SearchResult} (hr : r ∈ parseResults parseUrl select html) :
    IsHttp parseUrl r.url ∧ r.title ≠ "" := by
  obtain ⟨element, -, helement⟩ := List.mem_filterMap.mp hr
  obtain ⟨htitle, href, hurl⟩ := parseResult_eq_some helement
  exact ⟨extractUddgUrl_isHttp hreparses hurl, htitle⟩

/-- The results of a search come from a page that was parsed. -/
theorem Adapter.search_eq_ok {a : Adapter} {query : String} {page : UInt32}
    {language : Option String} {safeSearch : UInt8} {results : List SearchResult}
    (h : a.search query page language safeSearch = .ok results) :
    ∃ body, a.parseResults body = some results := by
  unfold Adapter.search at h
  split at h
  · cases h
  · unfold Adapter.classify at h
    split_ifs at h
    split at h
    · cases h
    · rename_i body _
      split_ifs at h
      split at h
      · cases h
      · rename_i found hfound
        split_ifs at h
        exact ⟨body, hfound.trans (congrArg some (Except.ok.inj h))⟩

/-- A search returns web addresses only. -/
theorem Adapter.search_isHttp (hreparses : Reparses parseUrl) {a : Adapter}
    {select : String → List Container}
    (ha : ∀ body, a.parseResults body = some (DuckDuckGo.parseResults parseUrl select body))
    {query : String} {page : UInt32} {language : Option String} {safeSearch : UInt8}
    {results : List SearchResult} (h : a.search query page language safeSearch = .ok results) :
    ∀ r ∈ results, IsHttp parseUrl r.url ∧ r.title ≠ "" := by
  intro r hr
  obtain ⟨body, hbody⟩ := Adapter.search_eq_ok h
  rw [ha body, Option.some.injEq] at hbody
  rw [← hbody] at hr
  exact parseResults_isHttp hreparses hr

/-! ## The target that is wrapped -/

/-- A parameter as it is written, with another name. -/
def OtherParam (s : String) : Prop :=
  '&' ∉ s.toList ∧ (FormUrlencoded.parsePair (RustStr.asBytes s)).1 ≠ "uddg"

instance (s : String) : Decidable (OtherParam s) := inferInstanceAs (Decidable (_ ∧ _))

/-- The query of a redirect to `t`. -/
def wrappedQuery (before after : List String) (t : String) : String :=
  "&".intercalate (before ++ ("uddg=" ++ FormUrlencoded.serializeText t) :: after)

/-- The redirect with a query. -/
def redirectLink (query : String) : Url :=
  { scheme := "https"
    authority := some ⟨"", none, some "duckduckgo.com", none⟩
    path := "/l/"
    query := some query
    fragment := none }

theorem redirectLink_asStr (query : String) :
    (redirectLink query).asStr = "https:" ++ ("//duckduckgo.com/l/?" ++ query) := by
  have hbase : "https" ++ ":" ++ ("//" ++ (Authority.mk "" none (some "duckduckgo.com") none).asStr)
      ++ "/l/" = "https:" ++ "//duckduckgo.com/l/" := rfl
  have hquestion : "//duckduckgo.com/l/?" = "//duckduckgo.com/l/" ++ "?" := rfl
  rw [Url.asStr]
  dsimp only [redirectLink]
  rw [hbase, hquestion, String.append_empty]
  simp only [String.append_assoc]

/-- The target is found between other parameters. -/
theorem find_uddg {before after : List String} (t : String)
    (h : ∀ s ∈ before ++ after, OtherParam s) :
    ((redirectLink (wrappedQuery before after t)).queryPairs.find? fun p => p.1 == "uddg")
      = some ("uddg", t) := by
  have hname : "uddg=" ++ FormUrlencoded.serializeText t
      = FormUrlencoded.serializeText "uddg" ++ "=" ++ FormUrlencoded.serializeText t := by
    rw [show FormUrlencoded.serializeText "uddg" = "uddg" by decide +kernel]
    rfl
  have hpair : FormUrlencoded.parsePair (RustStr.asBytes
      ("uddg=" ++ FormUrlencoded.serializeText t)) = ("uddg", t) := by
    rw [hname]
    exact FormUrlencoded.parsePair_serialize ("uddg", t)
  have hamp : ∀ s ∈ before ++ ("uddg=" ++ FormUrlencoded.serializeText t) :: after,
      (0x26 : UInt8) ∉ RustStr.asBytes s := by
    have hother : ∀ s ∈ before ++ after, (0x26 : UInt8) ∉ RustStr.asBytes s :=
      fun s hs hmem => (h s hs).1 ((Utf8.mem_encode_ascii (a := '&') (by decide)).mp hmem)
    intro s hs
    rcases List.mem_append.mp hs with hs | hs
    · exact hother s (List.mem_append_left _ hs)
    · rcases List.mem_cons.mp hs with rfl | hs
      · rw [RustStr.asBytes_append, List.mem_append, not_or]
        exact ⟨by decide, FormUrlencoded.not_mem_asBytes_serializeText (by decide) t⟩
      · exact hother s (List.mem_append_right _ hs)
  have hothers : ∀ p ∈ ((before.map RustStr.asBytes).filter (· ≠ [])).map FormUrlencoded.parsePair,
      ¬ (p.1 == "uddg") = true := by
    intro p hp
    obtain ⟨bs, hbs, rfl⟩ := List.mem_map.mp hp
    obtain ⟨s, hs, rfl⟩ := List.mem_map.mp (List.mem_of_mem_filter hbs)
    simpa using (h s (List.mem_append_left _ hs)).2
  have hne : RustStr.asBytes ("uddg=" ++ FormUrlencoded.serializeText t) ≠ [] := by
    rw [RustStr.asBytes_append]
    exact List.append_ne_nil_of_left_ne_nil (by decide) _
  rw [Url.queryPairs]
  show (FormUrlencoded.parse (RustStr.asBytes (wrappedQuery before after t))).find? _ = _
  rw [wrappedQuery, FormUrlencoded.parse_intercalate hamp, List.map_append, List.filter_append,
    List.map_append, List.find?_append, List.find?_eq_none.mpr hothers, List.map_cons,
    List.filter_cons_of_pos (by simpa using hne), List.map_cons, hpair, List.find?_cons_of_pos rfl]
  rfl

theorem asStr_ne_empty (v : Url) : v.asStr ≠ "" := by
  intro h
  have hcolon : ':' ∈ v.asStr.toList := by
    simp [Url.asStr]
  rw [h] at hcolon
  exact absurd hcolon List.not_mem_nil

/-- Both forms of a link are the redirect. -/
theorem absoluteHref_link (query : String) :
    absoluteHref ("//duckduckgo.com/l/?" ++ query) = some (redirectLink query).asStr
      ∧ absoluteHref ("https://duckduckgo.com/l/?" ++ query) = some (redirectLink query).asStr := by
  rw [redirectLink_asStr]
  constructor
  · have hslashes : ("//duckduckgo.com/l/?" ++ query).startsWith "//" = true := by
      rw [String.startsWith_string_iff, String.toList_append]
      exact ⟨"duckduckgo.com/l/?".toList ++ query.toList, rfl⟩
    rw [absoluteHref, if_pos hslashes]
  · have hslashes : ("https://duckduckgo.com/l/?" ++ query).startsWith "//" = false := by
      rw [String.startsWith_string_eq_false_iff, String.toList_append]
      exact fun h => absurd (List.cons_prefix_cons.mp h).1 (by decide)
    have hhttp : ("https://duckduckgo.com/l/?" ++ query).startsWith "http" = true := by
      rw [String.startsWith_string_iff, String.toList_append]
      exact ⟨"s://duckduckgo.com/l/?".toList ++ query.toList, rfl⟩
    have hlink : "https://duckduckgo.com/l/?" = "https:" ++ "//duckduckgo.com/l/?" := rfl
    rw [absoluteHref, if_neg (by simp [hslashes]), if_pos hhttp, hlink, String.append_assoc]

/-- A link that is parsed to a redirect gives the target of the redirect. -/
theorem extractUddgUrl_of_absolute {href : String} {before after : List String} {target : Url}
    (hothers : ∀ s ∈ before ++ after, OtherParam s)
    (hscheme : target.scheme = "http" ∨ target.scheme = "https")
    (htarget : parseUrl target.asStr = .ok target)
    (hhref : absoluteHref href
      = some (redirectLink (wrappedQuery before after target.asStr)).asStr)
    (hlink : parseUrl (redirectLink (wrappedQuery before after target.asStr)).asStr
      = .ok (redirectLink (wrappedQuery before after target.asStr))) :
    extractUddgUrl parseUrl href = some target.asStr := by
  unfold extractUddgUrl
  simp only [hhref, hlink, htarget, find_uddg target.asStr hothers, Except.toOption,
    Option.bind_eq_bind, Option.bind_some, Option.map_some, if_neg (asStr_ne_empty target),
    if_pos hscheme]

/-- **Links are decoded faithfully, and only to web addresses**: a target that is wrapped
among other parameters comes back from both forms of the link, nothing but a web address
comes back from any link, and every result of a page has a web address and a title. -/
theorem resultLinks_faithful (hreparses : Reparses parseUrl) :
    (∀ (target : Url) (before after : List String),
      (target.scheme = "http" ∨ target.scheme = "https") → parseUrl target.asStr = .ok target →
      (∀ s ∈ before ++ after, OtherParam s) →
      parseUrl (redirectLink (wrappedQuery before after target.asStr)).asStr
        = .ok (redirectLink (wrappedQuery before after target.asStr)) →
      extractUddgUrl parseUrl
          ("//duckduckgo.com/l/?" ++ wrappedQuery before after target.asStr) = some target.asStr
        ∧ extractUddgUrl parseUrl
          ("https://duckduckgo.com/l/?" ++ wrappedQuery before after target.asStr)
            = some target.asStr)
      ∧ (∀ href u, extractUddgUrl parseUrl href = some u → IsHttp parseUrl u)
      ∧ ∀ select html, ∀ r ∈ parseResults parseUrl select html,
          IsHttp parseUrl r.url ∧ r.title ≠ "" := by
  refine ⟨?_, fun href u h => extractUddgUrl_isHttp hreparses h,
    fun select html r hr => parseResults_isHttp hreparses hr⟩
  intro target before after hscheme htarget hothers hlink
  obtain ⟨hrelative, habsolute⟩ := absoluteHref_link (wrappedQuery before after target.asStr)
  exact ⟨extractUddgUrl_of_absolute hothers hscheme htarget hrelative hlink,
    extractUddgUrl_of_absolute hothers hscheme htarget habsolute hlink⟩

def rustLang : Url := ⟨"https", some ⟨"", none, some "rust-lang.org", none⟩, "/", none, none⟩

/-- A parser that knows one target and one redirect to it. -/
def rustParser (s : String) : Except String Url :=
  if s = rustLang.asStr then .ok rustLang
  else if s = (redirectLink (wrappedQuery [] ["rut=abc123"] rustLang.asStr)).asStr then
    .ok (redirectLink (wrappedQuery [] ["rut=abc123"] rustLang.asStr))
  else .error "relative URL without a base"

theorem resultLinks_faithful_rust :
    extractUddgUrl rustParser "//duckduckgo.com/l/?uddg=https%3A%2F%2Frust-lang.org%2F&rut=abc123"
      = some "https://rust-lang.org/" := by
  have hne : (redirectLink (wrappedQuery [] ["rut=abc123"] rustLang.asStr)).asStr
      ≠ rustLang.asStr := by decide +kernel
  have hlink : rustParser (redirectLink (wrappedQuery [] ["rut=abc123"] rustLang.asStr)).asStr
      = .ok (redirectLink (wrappedQuery [] ["rut=abc123"] rustLang.asStr)) := by
    rw [rustParser, if_neg hne, if_pos rfl]
  have htarget : rustParser rustLang.asStr = .ok rustLang := if_pos rfl
  have hreparses : Reparses rustParser := by
    intro s v h
    unfold rustParser at h
    split_ifs at h
    · rw [← Except.ok.inj h, htarget]
    · rw [← Except.ok.inj h, hlink]
  have hhref : "//duckduckgo.com/l/?uddg=https%3A%2F%2Frust-lang.org%2F&rut=abc123"
      = "//duckduckgo.com/l/?" ++ wrappedQuery [] ["rut=abc123"] rustLang.asStr := by decide +kernel
  rw [hhref]
  exact ((resultLinks_faithful hreparses).1 rustLang [] ["rut=abc123"] (Or.inr rfl) htarget
    (by decide +kernel) hlink).1

end DuckDuckGo
