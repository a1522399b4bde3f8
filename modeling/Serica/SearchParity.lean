/-
# The two gateways validate a search alike

The HTTP gateway validates typed query parameters, the MCP gateway JSON arguments.
`argumentsOf` carries the same values as JSON.  Field by field, the two validations
accept the same values and build the same field, up to two differences:

* the HTTP gateway trims the language and lower-cases it, while the schema of the MCP
  tool lists the four codes that it takes;
* without a level, the HTTP gateway takes the configured default.
-/
import Serica.HttpGateway
import Serica.McpGateway

namespace SearchParity

open HttpGateway McpGateway

/-- The arguments that carry the given values; absent ones are left out. -/
def argumentsOf (q : String) (page : Option UInt32) (safe : Option UInt8)
    (lang : Option String) : Json :=
  .object ([("query", .string q)]
    ++ (page.map fun p => ("page", Json.ofNat p.toUInt64)).toList
    ++ (safe.map fun s => ("safe_search", Json.ofNat s.toUInt64)).toList
    ++ (lang.map fun l => ("language", Json.string l)).toList)

section arguments

variable (q : String) (page : Option UInt32) (safe : Option UInt8) (lang : Option String)

theorem argumentsOf_query : (argumentsOf q page safe lang).get "query" = some (.string q) := by
  rfl

theorem argumentsOf_page : (argumentsOf q page safe lang).get "page"
    = page.map fun p => Json.ofNat p.toUInt64 := by
  cases page <;> cases safe <;> cases lang <;> rfl

theorem argumentsOf_safeSearch : (argumentsOf q page safe lang).get "safe_search"
    = safe.map fun s => Json.ofNat s.toUInt64 := by
  cases page <;> cases safe <;> cases lang <;> rfl

theorem argumentsOf_language : (argumentsOf q page safe lang).get "language"
    = lang.map Json.string := by
  cases page <;> cases safe <;> cases lang <;> rfl

/-! ## Field by field -/

theorem query_agree {x : String} :
    argQuery (argumentsOf q page safe lang) = .ok x ↔ checkQuery (some q) = .ok x := by
  simp only [argQuery, argumentsOf_query, Option.bind_some, Json.asStr, checkQuery,
    Option.getD_some, Bool.or_eq_true, decide_eq_true_eq]
  by_cases hempty : RustStr.trim q = ""
  · simp [hempty]
  · by_cases hlong : (RustStr.trim q).length > 500 <;> simp [hempty, hlong]

/-- Both gateways accept the same pages. -/
theorem page_agree {x : UInt32} :
    argPage (argumentsOf q page safe lang) = .ok x ↔ checkPage page = .ok x := by
  have hcast : castArg 32 ((argumentsOf q page safe lang).get "page") = (page.getD 1).toNat := by
    rw [argumentsOf_page]
    cases page with
    | none => rfl
    | some p =>
        have := p.toNat_lt
        simp only [castArg, Option.map_some, Option.bind_some, Json.ofNat, Json.asU64,
          Option.getD_some, UInt32.toNat_toUInt64]
        omega
  rw [argPage_eq_ok, hcast, checkPage]
  simp only [Bool.not_eq_true', Bool.and_eq_false_iff, decide_eq_false_iff_not,
    UInt32.le_iff_toNat_le, UInt32.toNat_ofNat, UInt32.toNat_inj]
  split_ifs with hbad
  · constructor
    · rintro ⟨rfl, hlow, hhigh⟩
      omega
    · intro h
      exact absurd h (by simp)
  · rw [Except.ok.injEq]
    constructor
    · rintro ⟨rfl, -, -⟩
      rfl
    · rintro rfl
      exact ⟨rfl, by omega, by omega⟩

/-- The level of the MCP gateway: the one given, or 1. -/
theorem safeSearch_agree {x : UInt8} :
    argSafeSearch (argumentsOf q page safe lang) = .ok x ↔ checkSafeSearch safe 1 = .ok x := by
  have hcast : castArg 8 ((argumentsOf q page safe lang).get "safe_search")
      = (safe.getD 1).toNat := by
    rw [argumentsOf_safeSearch]
    cases safe with
    | none => rfl
    | some s =>
        have := s.toNat_lt
        simp only [castArg, Option.map_some, Option.bind_some, Json.ofNat, Json.asU64,
          Option.getD_some, UInt8.toNat_toUInt64]
        omega
  rw [argSafeSearch_eq_ok, hcast, checkSafeSearch]
  simp only [gt_iff_lt, UInt8.lt_iff_toNat_lt, UInt8.toNat_ofNat, UInt8.toNat_inj]
  split_ifs with hbad
  · constructor
    · rintro ⟨rfl, hle⟩
      omega
    · intro h
      exact absurd h (by simp)
  · rw [Except.ok.injEq]
    constructor
    · rintro ⟨rfl, -⟩
      rfl
    · rintro rfl
      exact ⟨rfl, by omega⟩

/-- The languages that both gateways know are in lower case and need no trimming. -/
theorem normalized_of_supported (platform : Platform) {l : String}
    (h : l ∈ Search.supportedLanguages) :
    RustStr.toLowercase platform.lowercaseTable (RustStr.trim l) = l := by
  simp only [Search.supportedLanguages, List.mem_cons, List.not_mem_nil, or_false] at h
  rcases h with rfl | rfl | rfl | rfl <;> rfl

/-- Of the languages that HTTP accepts, MCP accepts those that are trimmed and in lower case. -/
theorem language_agree (platform : Platform) {x : Option String} :
    argLanguage (argumentsOf q page safe lang) = .ok x
      ↔ checkLanguage platform lang = .ok x
        ∧ ∀ l ∈ lang, RustStr.toLowercase platform.lowercaseTable (RustStr.trim l) = l := by
  cases lang with
  | none => simp [argLanguage, argumentsOf_language, checkLanguage]
  | some l =>
      simp only [argLanguage, argumentsOf_language, Option.map_some, Option.bind_some, Json.asStr,
        checkLanguage, Option.mem_def, Option.some.injEq, forall_eq']
      constructor
      · intro h
        have hregion : (Search.ddgRegionForLanguage l).isSome = true := by
          split_ifs at h with h1 h2
          exact Option.isSome_iff_ne_none.mpr (by simpa using h2)
        -- A language with a region is one of the four, and these are normalised already.
        have hnorm := normalized_of_supported platform
          ((Search.ddgRegionForLanguage_isSome l).mp hregion)
        refine ⟨?_, hnorm⟩
        rw [hnorm]
        split_ifs at h ⊢ with h1 h2
        exact congrArg Except.ok (Except.ok.inj h)
      · rintro ⟨h, hnorm⟩
        rw [hnorm] at h
        split_ifs at h ⊢ with h1 h2
        exact congrArg Except.ok (Except.ok.inj h)

end arguments

/-! ## The requests -/

/-- With a valid default, the level is accepted by one gateway when it is by the
other; it is the same when it is given. -/
theorem checkSafeSearch_default {safe : Option UInt8} {d d' : UInt8} (hd' : d' ≤ 2)
    {x : UInt8} (h : checkSafeSearch safe d = .ok x) :
    ∃ x', checkSafeSearch safe d' = .ok x' ∧ (safe.isSome = true ∨ d = d' → x' = x) := by
  cases safe with
  | none =>
      refine ⟨d', ?_, ?_⟩
      · simp [checkSafeSearch, UInt8.not_lt.mpr hd']
      · rintro (hsome | rfl)
        · exact absurd hsome (by simp)
        · simpa [checkSafeSearch, UInt8.not_lt.mpr hd'] using h
  | some s => exact ⟨x, h, fun _ => rfl⟩

/-- **The gateways validate a search alike.**  For a validated configuration and every
request, the MCP gateway accepts when the HTTP gateway does and the language, if there
is one, is written the way the HTTP gateway normalises it.  The requests they build
have the same query, page and language, and are the same as soon as the level is given
or its configured default is 1. -/
theorem searchRequests_agree (platform : Platform) (config : Config)
    (hvalid : config.validate platform = .ok ()) (q : String) (page : Option UInt32)
    (safe : Option UInt8) (lang : Option String) :
    ((∃ req, searchRequestOfArguments (argumentsOf q page safe lang) = .ok req)
      ↔ (∃ req, tryFromParams platform ⟨some q, page, safe, lang⟩
            config.search.safeSearchDefault = .ok req)
        ∧ ∀ l ∈ lang, RustStr.toLowercase platform.lowercaseTable (RustStr.trim l) = l)
    ∧ ∀ http mcp, tryFromParams platform ⟨some q, page, safe, lang⟩
          config.search.safeSearchDefault = .ok http →
        searchRequestOfArguments (argumentsOf q page safe lang) = .ok mcp →
        mcp.query = http.query ∧ mcp.page = http.page ∧ mcp.language = http.language
        ∧ (safe.isSome = true ∨ config.search.safeSearchDefault = 1 → mcp = http) := by
  have hdefault := ((config.validate_eq_ok_iff platform).mp hvalid).safeSearch
  simp only [searchRequestOfArguments_eq_ok, tryFromParams_eq_ok, query_agree, page_agree,
    safeSearch_agree, language_agree q page safe lang platform]
  refine ⟨⟨?_, ?_⟩, ?_⟩
  · rintro ⟨req, hquery, hpage, hsafe, hlanguage, hnorm⟩
    obtain ⟨s, hs, -⟩ := checkSafeSearch_default hdefault hsafe
    exact ⟨⟨⟨req.query, req.page, s, req.language⟩, hquery, hpage, hs, hlanguage⟩, hnorm⟩
  · rintro ⟨⟨req, hquery, hpage, hsafe, hlanguage⟩, hnorm⟩
    obtain ⟨s, hs, -⟩ := checkSafeSearch_default (show (1 : UInt8) ≤ 2 by decide) hsafe
    exact ⟨⟨req.query, req.page, s, req.language⟩, hquery, hpage, hs, hlanguage, hnorm⟩
  · rintro http mcp ⟨hquery, hpage, hsafe, hlanguage⟩ ⟨hquery', hpage', hsafe', hlanguage', -⟩
    have hq : mcp.query = http.query := Except.ok.inj (hquery'.symm.trans hquery)
    have hp : mcp.page = http.page := Except.ok.inj (hpage'.symm.trans hpage)
    have hl : mcp.language = http.language := Except.ok.inj (hlanguage'.symm.trans hlanguage)
    refine ⟨hq, hp, hl, ?_⟩
    intro hsame
    obtain ⟨s, hs, heq⟩ := checkSafeSearch_default (show (1 : UInt8) ≤ 2 by decide) hsafe
    have hsm : mcp.safeSearch = s := Except.ok.inj (hsafe'.symm.trans hs)
    obtain ⟨query, page, safeSearch, language⟩ := http
    obtain ⟨query', page', safeSearch', language'⟩ := mcp
    dsimp only at hq hp hl hsm heq
    rw [hq, hp, hl, hsm, heq hsame]

/-- The default configuration and a request with every field. -/
theorem searchRequests_agree_default :
    Config.default.validate Platform.ascii = .ok ()
    ∧ (∃ req, searchRequestOfArguments (argumentsOf "rust" (some 2) (some 0) (some "de"))
        = .ok req) := by
  have hvalid : Config.default.validate Platform.ascii = .ok () :=
    (Config.validate_eq_ok_iff _ _).mpr (Config.default_valid rfl)
  refine ⟨hvalid, ?_⟩
  rw [(searchRequests_agree Platform.ascii Config.default hvalid "rust" (some 2) (some 0)
    (some "de")).1]
  refine ⟨⟨⟨"rust", 2, 0, some "de"⟩, rfl⟩, ?_⟩
  intro l hl
  obtain rfl : l = "de" := (Option.some.inj hl).symm
  rfl

/-- The language ` EN ` is taken by the HTTP gateway only. -/
theorem searchRequests_differ :
    tryFromParams Platform.ascii ⟨some "rust", none, none, some " EN "⟩
        Config.default.search.safeSearchDefault = .ok ⟨"rust", 1, 1, some "en"⟩
      ∧ ∀ req, searchRequestOfArguments (argumentsOf "rust" none none (some " EN "))
        ≠ .ok req := by
  refine ⟨rfl, ?_⟩
  intro req h
  rw [searchRequestOfArguments_eq_ok, language_agree _ _ _ _ Platform.ascii] at h
  exact absurd (h.2.2.2.2 " EN " rfl) (by decide)

end SearchParity
