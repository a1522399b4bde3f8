/-
# The HTTP gateway

The search and extract handlers of the HTTP API.  `tryFromParams` validates the
query parameters of a search.
-/
import Serica.Gateway

/-- The query parameters of a search. -/
structure SearchParams where
  q : Option String
  page : Option UInt32
  safe : Option UInt8
  lang : Option String
deriving DecidableEq, Repr

namespace HttpGateway

/-! ## Validation -/

/-- The query, trimmed: neither empty nor longer than 500 characters. -/
def checkQuery (q : Option String) : Except AppError String :=
  let trimmed := RustStr.trim (q.getD "")
  if trimmed = "" then .error (.invalidQuery "Query is empty")
  else if trimmed.length > 500 then
    .error (.invalidQuery "Query exceeds maximum length of 500 characters")
  else .ok trimmed

def checkPage (page : Option UInt32) : Except AppError UInt32 :=
  let page := page.getD 1
  if !(1 ≤ page && page ≤ 50) then
    .error (.invalidPage ("Page must be between 1 and 50, got " ++ toString page.toNat))
  else .ok page

def checkSafeSearch (safe : Option UInt8) (defaultSafeSearch : UInt8) : Except AppError UInt8 :=
  let safeSearch := safe.getD defaultSafeSearch
  if safeSearch > 2 then .error (.invalidSafeSearch safeSearch) else .ok safeSearch

/-- The language, trimmed and in lower case: two ASCII letters with a region. -/
def checkLanguage (platform : Platform) (lang : Option String) :
    Except AppError (Option String) :=
  match lang.map fun l => RustStr.toLowercase platform.lowercaseTable (RustStr.trim l) with
  | none => .ok none
  | some lang =>
      if RustStr.len lang ≠ 2 || !lang.toList.all RustStr.isAsciiLowercase then
        .error (.invalidLanguage ("Invalid language code: " ++ lang
          ++ ". Expected 2-letter ISO 639-1 code"))
      else if (Search.ddgRegionForLanguage lang).isNone then
        .error (.invalidLanguage ("Unsupported language code: " ++ lang
          ++ ". Supported languages: " ++ ", ".intercalate Search.supportedLanguages))
      else .ok (some lang)

/-- `SearchRequest::try_from_params`. -/
def tryFromParams (platform : Platform) (params : SearchParams) (defaultSafeSearch : UInt8) :
    Except AppError SearchRequest := do
  let query ← checkQuery params.q
  let page ← checkPage params.page
  let safeSearch ← checkSafeSearch params.safe defaultSafeSearch
  let language ← checkLanguage platform params.lang
  .ok { query := query, page := page, safeSearch := safeSearch, language := language }

/-- Everything that `tryFromParams` accepts. -/
theorem tryFromParams_eq_ok {platform : Platform} {params : SearchParams}
    {defaultSafeSearch : UInt8} {req : SearchRequest} :
    tryFromParams platform params defaultSafeSearch = .ok req
      ↔ checkQuery params.q = .ok req.query ∧ checkPage params.page = .ok req.page
        ∧ checkSafeSearch params.safe defaultSafeSearch = .ok req.safeSearch
        ∧ checkLanguage platform params.lang = .ok req.language := by
  obtain ⟨query, page, safeSearch, language⟩ := req
  rw [tryFromParams]
  cases checkQuery params.q <;> cases checkPage params.page <;>
    cases checkSafeSearch params.safe defaultSafeSearch <;>
    cases checkLanguage platform params.lang <;> simp [bind, Except.bind]

/-- **A rejected parameter is a bad request.** -/
theorem tryFromParams_status {platform : Platform} {params : SearchParams}
    {defaultSafeSearch : UInt8} {e : AppError}
    (h : tryFromParams platform params defaultSafeSearch = .error e) : e.toHttpParts.1 = 400 := by
  have hquery : ∀ e', checkQuery params.q = .error e' → e'.toHttpParts.1 = 400 := by
    intro e' he
    unfold checkQuery at he
    dsimp only at he
    split_ifs at he <;> exact (Except.error.inj he) ▸ rfl
  have hpage : ∀ e', checkPage params.page = .error e' → e'.toHttpParts.1 = 400 := by
    intro e' he
    unfold checkPage at he
    dsimp only at he
    split_ifs at he
    exact (Except.error.inj he) ▸ rfl
  have hsafe : ∀ e', checkSafeSearch params.safe defaultSafeSearch = .error e' →
      e'.toHttpParts.1 = 400 := by
    intro e' he
    unfold checkSafeSearch at he
    dsimp only at he
    split_ifs at he
    exact (Except.error.inj he) ▸ rfl
  have hlanguage : ∀ e', checkLanguage platform params.lang = .error e' →
      e'.toHttpParts.1 = 400 := by
    intro e' he
    unfold checkLanguage at he
    split at he
    · exact absurd he (by simp)
    · split_ifs at he <;> exact (Except.error.inj he) ▸ rfl
  rcases except_bind_eq_error.mp h with hq | ⟨query, -, h⟩
  · exact hquery e hq
  rcases except_bind_eq_error.mp h with hp | ⟨page, -, h⟩
  · exact hpage e hp
  rcases except_bind_eq_error.mp h with hs | ⟨safeSearch, -, h⟩
  · exact hsafe e hs
  rcases except_bind_eq_error.mp h with hl | ⟨language, -, h⟩
  · exact hlanguage e hl
  exact absurd h (by simp)

/-! ## Handlers -/

/-- What an engine error means to the client; nothing when the result is an empty
page. -/
def mapSearchError (e : SearchError) : Option AppError :=
  match e with
  | .parseEmpty => none
  | .blocked => some (.serviceUnavailable "Search engine is currently blocked upstream")
  | .challenged =>
      some (.serviceUnavailable "Search engine is presenting an anti-bot challenge upstream")
  | .upstream _ => some (.serviceUnavailable e.display)
  | .transport _ => some (.serviceUnavailable e.display)
  | .parsePanicked => some (.internal e.display)

/-- An engine error is a server error, but no timeout. -/
theorem mapSearchError_status {e : SearchError} {appErr : AppError}
    (h : mapSearchError e = some appErr) :
    appErr.toHttpParts.1 = 500 ∨ appErr.toHttpParts.1 = 503 := by
  cases e with
  | parseEmpty => exact absurd h (by simp [mapSearchError])
  | parsePanicked => exact (Option.some.inj h) ▸ Or.inl rfl
  | blocked => exact (Option.some.inj h) ▸ Or.inr rfl
  | challenged => exact (Option.some.inj h) ▸ Or.inr rfl
  | upstream status => exact (Option.some.inj h) ▸ Or.inr rfl
  | transport msg => exact (Option.some.inj h) ▸ Or.inr rfl

/-- The counter of an engine error. -/
def metricOf : SearchError → Metric
  | .parseEmpty => .emptyParse
  | .blocked => .blocked
  | .challenged => .challenged
  | .upstream _ => .error
  | .transport _ => .error
  | .parsePanicked => .error

variable (g : Gateway)

/-- The end of a search: timing, metrics, filter and cache. -/
def finishSearch (request : SearchRequest) (results : List SearchResult) :
    Prog GatewayI (Except AppError SearchResponse) :=
  .call (I := GatewayI) .elapsedMs fun ms =>
    .call (I := GatewayI) (.record (.search ms)) fun _ =>
      (g.searchCodec.storeAndReturn (Search.cacheKey g.hash request) g.config.cache.ttlSeconds
        (Search.finalizeResults g.platform results request g.config.search.maxResultsPerPage
          ms)).bind fun response => .ret (.ok response)

/-- `search_handler`, from the validated request on. -/
def searchProgram (request : SearchRequest) : Prog GatewayI (Except AppError SearchResponse) :=
  .call (I := GatewayI) (.cacheGet (Search.cacheKey g.hash request)) fun cachedBytes =>
    match cachedBytes.bind g.searchCodec.fromSlice with
    | some response =>
        .call (I := GatewayI) .elapsedMs fun ms =>
          .ret (.ok { response with cached := true, timingMs := ms })
    | none =>
        .call (I := GatewayI) (.engineSearch request.query request.page request.language
            request.safeSearch) fun
          | .ok results => finishSearch g request results
          | .error e =>
              .call (I := GatewayI) (.record (metricOf e)) fun _ =>
                match mapSearchError e with
                | some appErr => .ret (.error appErr)
                | none => finishSearch g request []

def searchHandler (params : SearchParams) : Prog GatewayI (Except AppError SearchResponse) :=
  match tryFromParams g.platform params g.config.search.safeSearchDefault with
  | .error e => .ret (.error e)
  | .ok request => searchProgram g request

def extractHandler (url : String) : Prog GatewayI (Except AppError ExtractResponse) :=
  let url := RustStr.trim url
  if url = "" then .ret (.error (.invalidQuery "URL is empty"))
  else
    match g.platform.parseUrl url with
    | .error _ => .ret (.error (.invalidQuery "URL could not be parsed"))
    | .ok parsedUrl => g.runExtract parsedUrl

end HttpGateway
