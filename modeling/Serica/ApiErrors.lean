/-
# The errors of the API

A request of the API passes the limiter and the handler of its route, under the timeout of
the route, and the layer on top that rewrites bare timeouts.  Each of them may end it with
an error of its own.  Only a query string that cannot be read is refused outside of all this,
before the handler, with a plain text.

* `readErrorBody_errorBody`: the code and the message of an error are read back from its
  body, whatever the message is.
* `replies_documented`: a route replies with its data, with one of its documented errors, or to
  a query string that cannot be read with the text of `axum`.
-/
import Serica.ExtractDeadline
import Serica.JsonString
import Serica.StatsGate

namespace HttpGateway

/-! ## The body of an error -/

/-- Two strings between three fixed texts. -/
def readPair (first second third : String) (cs : List Char) : Option (String × String) := do
  let cs ← JsonString.expect first cs
  let (a, cs) ← JsonString.read cs
  let cs ← JsonString.expect second cs
  let (b, cs) ← JsonString.read cs
  let cs ← JsonString.expect third cs
  if cs = [] then some (a, b) else none

/-- The code and the message of an error, from its body. -/
def readErrorBody : List Char → Option (String × String) :=
  readPair "\x7b\"error\":\x7b\"code\":" ",\"message\":" "\x7d,\"success\":false\x7d"

/-- Every escape is one. -/
theorem writes_escapeChar (c : Char) : JsonString.Writes (escapeChar c).toList c := by
  unfold escapeChar
  split_ifs with hquote hescape hback htab hline hfeed hreturn hcontrol
  · obtain rfl : c = Char.ofNat 0x22 := by rw [← hquote, Char.ofNat_toNat]
    exact JsonString.writes_letter (by decide) (by decide)
  · obtain rfl : c = Char.ofNat 0x5C := by rw [← hescape, Char.ofNat_toNat]
    exact JsonString.writes_letter (by decide) (by decide)
  · obtain rfl : c = Char.ofNat 0x08 := by rw [← hback, Char.ofNat_toNat]
    exact JsonString.writes_letter (by decide) (by decide)
  · obtain rfl : c = Char.ofNat 0x09 := by rw [← htab, Char.ofNat_toNat]
    exact JsonString.writes_letter (by decide) (by decide)
  · obtain rfl : c = Char.ofNat 0x0A := by rw [← hline, Char.ofNat_toNat]
    exact JsonString.writes_letter (by decide) (by decide)
  · obtain rfl : c = Char.ofNat 0x0C := by rw [← hfeed, Char.ofNat_toNat]
    exact JsonString.writes_letter (by decide) (by decide)
  · obtain rfl : c = Char.ofNat 0x0D := by rw [← hreturn, Char.ofNat_toNat]
    exact JsonString.writes_letter (by decide) (by decide)
  · -- The other control characters have four digits.
    have hdigits : ∀ n < 0x20, ∃ x y z w, Search.hexDigits 4 n = [x, y, z, w]
        ∧ JsonString.codeUnit x y z w = some (Char.ofNat n) := by
      intro n hn
      refine ⟨_, _, _, _, rfl, ?_⟩
      revert n
      decide
    obtain ⟨x, y, z, w, htext, hunit⟩ := hdigits c.toNat hcontrol
    rw [Char.ofNat_toNat] at hunit
    simp only [String.toList_append, String.toList_ofList, htext]
    show JsonString.Writes [Char.ofNat 0x5C, 'u', x, y, z, w] c
    exact JsonString.writes_codeUnit (by decide) hunit
  · rw [String.toList_singleton]
    exact JsonString.writes_plain (by omega) hquote hescape

theorem toList_quote (s : String) :
    (quote s).toList = '"' :: (s.toList.flatMap (fun c => (escapeChar c).toList) ++ ['"']) := by
  have hjoin : ∀ cs : List Char, (String.join (cs.map escapeChar)).toList
      = cs.flatMap fun c => (escapeChar c).toList := by
    intro cs
    induction cs with
    | nil => rfl
    | cons c cs ih =>
        rw [List.map_cons, String.join_cons, String.toList_append, ih, List.flatMap_cons]
  rw [quote, String.toList_append, String.toList_append, hjoin]
  rfl

/-- A quoted text is read back. -/
theorem read_quote (s : String) (rest : List Char) :
    JsonString.read ((quote s).toList ++ rest) = some (s, rest) := by
  rw [toList_quote, List.cons_append, List.append_assoc, List.singleton_append,
    JsonString.read_write writes_escapeChar rfl rfl, String.ofList_toList]

theorem readPair_quote (first second third a b : String) :
    readPair first second third
        (first ++ quote a ++ second ++ quote b ++ third).toList = some (a, b) := by
  have hlast : JsonString.expect third third.toList = some [] := by
    have h := JsonString.expect_append third []
    rwa [List.append_nil] at h
  unfold readPair
  simp only [String.toList_append, List.append_assoc, JsonString.expect_append, read_quote, hlast,
    Option.bind_eq_bind, Option.bind_some, if_true]

/-- **The code and the message are read back.** -/
theorem readErrorBody_errorBody (code message : String) :
    readErrorBody (errorBody code message).toList = some (code, message) :=
  readPair_quote _ _ _ code message

theorem readErrorBody_intoResponse (e : AppError) :
    readErrorBody (Utf8.decodeLossy (intoResponse e).body) = some e.toHttpParts.2 := by
  rw [intoResponse, RustStr.asBytes, Utf8.decodeLossy_encode]
  exact readErrorBody_errorBody _ _

/-! ## The routes -/

/-- A `GET` request of the API whose body is within the limit.  A query string is what `Query`
has made of it: the parameters of the handler, or the text of its refusal. -/
inductive ApiRequest
  | search (query : Except String SearchParams)
  | stats (headers : StatsGate.HeaderMap)
  | extract (query : Except String String)

/-- The text of the refusal, when the query string cannot be read. -/
def ApiRequest.unreadable : ApiRequest → Option String
  | .search (.error text) => some text
  | .extract (.error text) => some text
  | _ => none

/-- `QueryRejection`, as a response. -/
def queryRejection (text : String) : HttpResponse :=
  ⟨400, [("content-type", "text/plain; charset=utf-8")], RustStr.asBytes text⟩

/-- A request on its way: the headers of its refusal when the limiter refuses it, what the
handler is answered, the statistics, and the milliseconds until there is a reply. -/
structure ApiVisit (g : Gateway) where
  request : ApiRequest
  refusal : Option (List (String × String))
  env : Env GatewayI
  statistics : String
  time : ℕ∞
  spanned : SpanAnswers g env

/-- `rate_limit_error_handler`, when there were too many requests. -/
def rateLimitErrorHandler (headers : List (String × String)) : HttpResponse :=
  { intoResponse .rateLimited with headers := jsonHeaders ++ headers }

/-- The timeout of a route, in milliseconds. -/
def routeDeadline (config : Config) : ApiRequest → ℕ
  | .search _ => config.search.defaultTimeoutMs.toNat
  | .stats _ => config.search.defaultTimeoutMs.toNat
  | .extract _ => extractRouteDeadline

section Router

variable (g : Gateway) (pageJson : SearchResponse → String) (extractJson : ExtractResponse → String)

/-- The handler of the route. -/
def handle (v : ApiVisit g) : HttpResponse :=
  match v.request with
  | .search (.error text) => queryRejection text
  | .search (.ok params) =>
      match (searchHandler g params).result v.env 0 with
      | .ok response => successResponse (pageJson response)
      | .error e => intoResponse e
  | .stats headers =>
      match StatsGate.checkApiKey g.config.server.apiKey headers with
      | .ok _ => successResponse v.statistics
      | .error e => intoResponse e
  | .extract (.error text) => queryRejection text
  | .extract (.ok url) => replyOf extractJson ((extractHandler g url).result v.env 0)

/-- The responses that may leave the router. -/
def RouterReply (v : ApiVisit g) (response : HttpResponse) : Prop :=
  ∃ outer, Under (routeDeadline g.config v.request)
      ⟨v.time, (v.refusal.map rateLimitErrorHandler).getD (handle g pageJson extractJson v)⟩ outer
    ∧ response = convertTimeoutResponse (outer.value.getD timedOut)

end Router

/-- The statuses and the codes of the errors of a route. -/
def documented : ApiRequest → List (ℕ × String)
  | .search _ =>
      [(400, "INVALID_QUERY"), (400, "INVALID_PAGE"), (400, "INVALID_SAFE_SEARCH"),
        (400, "INVALID_LANGUAGE"), (429, "RATE_LIMITED"), (500, "INTERNAL_ERROR"),
        (503, "SERVICE_UNAVAILABLE")]
  | .stats _ => [(401, "UNAUTHORIZED"), (429, "RATE_LIMITED"), (503, "SERVICE_UNAVAILABLE")]
  | .extract _ =>
      [(400, "INVALID_QUERY"), (413, "CONTENT_TOO_LARGE"), (429, "RATE_LIMITED"),
        (500, "INTERNAL_ERROR"), (503, "SERVICE_UNAVAILABLE"), (504, "EXTRACT_TIMEOUT")]

/-- The error is one of the route. -/
def DocumentedError (r : ApiRequest) (e : AppError) : Prop :=
  (e.toHttpParts.1, e.toHttpParts.2.1) ∈ documented r

/-- The response has the data of a success, or the status of an error of the route, whose
code and message are read back from its body.  There is no data for a query string that cannot be
read; the response may then be that text. -/
def Documented (r : ApiRequest) (response : HttpResponse) : Prop :=
  (r.unreadable = none ∧ ∃ data, response = successResponse data)
    ∨ (∃ e, DocumentedError r e ∧ response.status = e.toHttpParts.1
      ∧ readErrorBody (Utf8.decodeLossy response.body) = some e.toHttpParts.2)
    ∨ ∃ text, r.unreadable = some text ∧ response = queryRejection text

/-- Headers do not matter. -/
theorem documented_of_error {r : ApiRequest} {e : AppError} (h : DocumentedError r e)
    {response : HttpResponse} (hstatus : response.status = (intoResponse e).status)
    (hbody : response.body = (intoResponse e).body) : Documented r response := by
  refine Or.inr (Or.inl ⟨e, h, hstatus, ?_⟩)
  rw [hbody]
  exact readErrorBody_intoResponse e

/-! ## The errors of the handlers -/

section Errors

variable {g : Gateway} {env : Env GatewayI} {e : AppError}

/-- A rejected parameter is named. -/
theorem tryFromParams_documented {platform : Platform} {params : SearchParams}
    {defaultSafeSearch : UInt8} (query : Except String SearchParams)
    (h : tryFromParams platform params defaultSafeSearch = .error e) :
    DocumentedError (.search query) e := by
  have hquery : ∀ e', checkQuery params.q = .error e' → DocumentedError (.search query) e' := by
    intro e' he
    unfold checkQuery at he
    dsimp only at he
    split_ifs at he <;> exact (Except.error.inj he) ▸ List.mem_cons_self
  have hpage : ∀ e', checkPage params.page = .error e' → DocumentedError (.search query) e' := by
    intro e' he
    unfold checkPage at he
    dsimp only at he
    split_ifs at he
    rw [← Except.error.inj he]
    simp [DocumentedError, AppError.toHttpParts, documented]
  have hsafe : ∀ e', checkSafeSearch params.safe defaultSafeSearch = .error e' →
      DocumentedError (.search query) e' := by
    intro e' he
    unfold checkSafeSearch at he
    dsimp only at he
    split_ifs at he
    rw [← Except.error.inj he]
    simp [DocumentedError, AppError.toHttpParts, documented]
  have hlanguage : ∀ e', checkLanguage platform params.lang = .error e' →
      DocumentedError (.search query) e' := by
    intro e' he
    unfold checkLanguage at he
    split at he
    · exact absurd he (by simp)
    · split_ifs at he
      all_goals
        rw [← Except.error.inj he]
        simp [DocumentedError, AppError.toHttpParts, documented]
  rcases except_bind_eq_error.mp h with hq | ⟨_, -, h⟩
  · exact hquery e hq
  rcases except_bind_eq_error.mp h with hp | ⟨page, -, h⟩
  · exact hpage e hp
  rcases except_bind_eq_error.mp h with hs | ⟨safeSearch, -, h⟩
  · exact hsafe e hs
  rcases except_bind_eq_error.mp h with hl | ⟨language, -, h⟩
  · exact hlanguage e hl
  exact absurd h (by simp)

/-- After validation a search fails only as the engine fails. -/
theorem searchProgram_fails (g : Gateway) (request : SearchRequest) :
    (searchProgram g request).Returns fun outcome =>
      ∀ e, outcome = .error e → ∃ cause, mapSearchError cause = some e := by
  have hfinish : ∀ results, (finishSearch g request results).Returns fun outcome =>
      ∀ e, outcome = .error e → ∃ cause, mapSearchError cause = some e := by
    intro results
    apply (finishSearch_returns g request results).mono
    rintro _ ⟨response, rfl⟩ e h
    cases h
  apply Prog.Returns.call
  intro cachedBytes
  cases cachedBytes.bind g.searchCodec.fromSlice with
  | some response =>
      intro ms e h
      cases h
  | none =>
      apply Prog.Returns.call
      intro results
      cases results with
      | ok results => exact hfinish results
      | error cause =>
          apply Prog.Returns.call
          intro _
          cases hmap : mapSearchError cause with
          | none => exact hfinish []
          | some appErr =>
              rintro _ ⟨rfl⟩
              exact ⟨cause, hmap⟩

theorem searchHandler_documented {params : SearchParams}
    (h : (searchHandler g params).result env 0 = .error e) :
    DocumentedError (.search (.ok params)) e := by
  unfold searchHandler at h
  cases hvalid : tryFromParams g.platform params g.config.search.safeSearchDefault with
  | error e' =>
      rw [hvalid] at h
      rw [← Except.error.inj h]
      exact tryFromParams_documented _ hvalid
  | ok request =>
      rw [hvalid] at h
      obtain ⟨cause, hmap⟩ := (searchProgram_fails g request).result env 0 e h
      cases cause with
      | parseEmpty => exact absurd hmap (by simp [mapSearchError])
      | _ =>
          rw [← Option.some.inj hmap]
          simp [DocumentedError, AppError.toHttpParts, documented]

theorem extractHandler_documented {url : String} (hspan : SpanAnswers g env)
    (h : (extractHandler g url).result env 0 = .error e) :
    DocumentedError (.extract (.ok url)) e := by
  rcases extractHandler_error hspan h with rfl | hspanned
  · simp [DocumentedError, AppError.toHttpParts, documented]
  · cases e with
    | invalidQuery _ | contentTooLarge _ | internal _ | serviceUnavailable _ =>
        simp [DocumentedError, AppError.toHttpParts, documented]
    | _ => exact hspanned.elim

theorem checkApiKey_error {key : Option String} {headers : StatsGate.HeaderMap}
    (h : StatsGate.checkApiKey key headers = .error e) :
    e = .unauthorized "Missing or invalid API key" := by
  unfold StatsGate.checkApiKey at h
  split at h
  · exact absurd h (by simp)
  · split at h
    · split_ifs at h
      exact (Except.error.inj h).symm
    · exact (Except.error.inj h).symm

end Errors

/-! ## The replies -/

section Replies

variable {g : Gateway} {pageJson : SearchResponse → String}
  {extractJson : ExtractResponse → String}

theorem documented_queryRejection {r : ApiRequest} {text : String}
    (h : r.unreadable = some text) : Documented r (convertTimeoutResponse (queryRejection text)) :=
  Or.inr (Or.inr ⟨text, h, convertTimeoutResponse_of_ne (show 400 ≠ 504 by decide)⟩)

/-- A handler replies with its data or one of its errors, and the layer on top leaves it
alone. -/
theorem handle_documented (v : ApiVisit g) :
    Documented v.request (convertTimeoutResponse (handle g pageJson extractJson v)) := by
  obtain ⟨request, refusal, env, statistics, time, hspan⟩ := v
  cases request with
  | search query =>
      cases query with
      | error text => exact documented_queryRejection rfl
      | ok params =>
          unfold handle
          dsimp only
          cases hresult : (searchHandler g params).result env 0 with
          | ok response =>
              rw [convertTimeoutResponse_fromHandler (.success (g := g) (pageJson response))]
              exact Or.inl ⟨rfl, _, rfl⟩
          | error e =>
              have hfails : DocumentedError (.search (.ok params)) e :=
                searchHandler_documented hresult
              rw [convertTimeoutResponse_fromHandler (.search hresult)]
              exact documented_of_error hfails rfl rfl
  | stats headers =>
      unfold handle
      dsimp only
      cases hkey : StatsGate.checkApiKey g.config.server.apiKey headers with
      | ok _ =>
          rw [convertTimeoutResponse_fromHandler (.success (g := g) statistics)]
          exact Or.inl ⟨rfl, _, rfl⟩
      | error e =>
          obtain rfl := checkApiKey_error hkey
          have hgate : DocumentedError (.stats headers)
              (.unauthorized "Missing or invalid API key") := List.mem_cons_self
          rw [convertTimeoutResponse_fromHandler (.unauthorized (g := g))]
          exact documented_of_error hgate rfl rfl
  | extract query =>
      cases query with
      | error text => exact documented_queryRejection rfl
      | ok url =>
          unfold handle
          dsimp only
          cases hresult : (extractHandler g url).result env 0 with
          | ok response =>
              rw [replyOf,
                convertTimeoutResponse_fromHandler (.success (g := g) (extractJson response))]
              exact Or.inl ⟨rfl, _, rfl⟩
          | error e =>
              have hfails : DocumentedError (.extract (.ok url)) e :=
                extractHandler_documented hspan hresult
              rw [replyOf, convertTimeoutResponse_fromHandler (.extract hspan hresult)]
              exact documented_of_error hfails rfl rfl

/-- **Every reply is documented.**  Whatever the limiter, the cache, the engine, the network
and the clock do, a route of the API replies with its data, or with the status of one of its
documented errors, whose code and message the client reads back from the body, or to a query
string that cannot be read with a plain text. -/
theorem replies_documented {v : ApiVisit g} {response : HttpResponse}
    (h : RouterReply g pageJson extractJson v response) : Documented v.request response := by
  obtain ⟨outer, houter, rfl⟩ := h
  cases houter with
  | finished _ =>
      rw [Option.getD_some]
      cases v.refusal with
      | none => exact handle_documented v
      | some headers =>
          have hlimited : DocumentedError v.request .rateLimited := by
            cases v.request <;> simp [DocumentedError, AppError.toHttpParts, documented]
          rw [Option.map_some, Option.getD_some,
            convertTimeoutResponse_of_ne (show 429 ≠ 504 by decide)]
          exact documented_of_error hlimited rfl rfl
  | elapsed _ =>
      have hcut : DocumentedError v.request (.serviceUnavailable "Request timed out") := by
        cases v.request <;> simp [DocumentedError, AppError.toHttpParts, documented]
      rw [Option.getD_none, convertTimeoutResponse_timedOut]
      exact documented_of_error hcut rfl rfl

end Replies

/-- A gateway with a key for its statistics. -/
def gatedGateway : Gateway :=
  { Gateway.idle with
    config := { Config.default with
      server := { Config.default.server with apiKey := some "secret" } } }

/-- A request for the statistics without a key. -/
def keyless : ApiVisit gatedGateway where
  request := .stats []
  refusal := none
  env := stuckVisit.env .elapsed
  statistics := ""
  time := 0
  spanned _ _ := Or.inl rfl

theorem replies_documented_keyless :
    Documented (.stats []) (intoResponse (.unauthorized "Missing or invalid API key")) := by
  have hreply : RouterReply gatedGateway (fun _ => "") (fun _ => "") keyless
      (intoResponse (.unauthorized "Missing or invalid API key")) := by
    refine ⟨_, .finished zero_le, ?_⟩
    exact (convertTimeoutResponse_fromHandler (.unauthorized (g := gatedGateway))).symm
  exact replies_documented hreply

end HttpGateway
