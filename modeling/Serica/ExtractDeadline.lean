/-
# Two deadlines

An extract has a budget of its own, `extract.timeout_ms`, and runs under the timeout
of its route.  The inner one ends in an error with a code of its own; the outer one
ends in an empty reply, which a layer outside rewrites into a general error.

`extract_timeout_iff`: an extract over its budget is reported as such exactly when the
budget runs out before the timeout of the route does, and the layer changes no reply
of a handler.
-/
import Serica.ExtractSpan
import Serica.HttpGateway

/-! ## Responses -/

/-- `body` is what a read of the body yields. -/
structure HttpResponse where
  status : ℕ
  headers : List (String × String)
  body : List UInt8
deriving DecidableEq

namespace HttpGateway

/-- A character in a JSON string. -/
def escapeChar (c : Char) : String :=
  if c.toNat = 0x22 then "\\\""
  else if c.toNat = 0x5C then "\\\\"
  else if c.toNat = 0x08 then "\\b"
  else if c.toNat = 0x09 then "\\t"
  else if c.toNat = 0x0A then "\\n"
  else if c.toNat = 0x0C then "\\f"
  else if c.toNat = 0x0D then "\\r"
  else if c.toNat < 0x20 then "\\u" ++ String.ofList (Search.hexDigits 4 c.toNat)
  else String.singleton c

/-- A text as a JSON string. -/
def quote (s : String) : String := "\"" ++ String.join (s.toList.map escapeChar) ++ "\""

/-- The body of an error: the members of an object are written in the order of their
names. -/
def errorBody (code message : String) : String :=
  "\x7b\"error\":\x7b\"code\":" ++ quote code ++ ",\"message\":" ++ quote message
    ++ "\x7d,\"success\":false\x7d"

def jsonHeaders : List (String × String) := [("content-type", "application/json")]

/-- `AppError::into_response`. -/
def intoResponse (e : AppError) : HttpResponse :=
  ⟨e.toHttpParts.1, jsonHeaders,
    RustStr.asBytes (errorBody e.toHttpParts.2.1 e.toHttpParts.2.2)⟩

/-- The reply of a handler that succeeds, with its data as JSON. -/
def successResponse (data : String) : HttpResponse :=
  ⟨200, jsonHeaders, RustStr.asBytes ("\x7b\"data\":" ++ data ++ ",\"success\":true\x7d")⟩

/-! ## The outer timeout -/

/-- `TIMEOUT_MARKER_STATUS`. -/
def timeoutMarkerStatus : ℕ := 504

/-- What the layer of a route replies when its deadline passes. -/
def timedOut : HttpResponse := ⟨timeoutMarkerStatus, [], []⟩

/-- The rewriting of an empty 504.  A body that cannot be read counts as empty, and only
the first 8192 bytes are read. -/
def convertTimeoutResponse (response : HttpResponse) : HttpResponse :=
  if response.status ≠ timeoutMarkerStatus then response
  else if response.body.length > 8192 then
    intoResponse (.serviceUnavailable "Request timed out")
  else if response.body = [] then intoResponse (.serviceUnavailable "Request timed out")
  else response

/-- The timeout of the extract route, in milliseconds: five seconds more than that of
one hop. -/
def extractRouteDeadline : ℕ := Ssrf.extractTimeout * 1000 + 5 * 1000

end HttpGateway

/-! ## Deadlines -/

/-- Work that finishes after `time` milliseconds, or never. -/
structure Timed (α : Type) where
  time : ℕ∞
  value : α

/-- What can come of work under a deadline, and when.  Of two things that fall due in the
same millisecond either may be seen first. -/
inductive Under {α : Type} (deadline : ℕ) (work : Timed α) : Timed (Option α) → Prop
  | finished : work.time ≤ deadline → Under deadline work ⟨work.time, some work.value⟩
  | elapsed : deadline ≤ work.time → Under deadline work ⟨deadline, none⟩

/-- Work over its budget is cut off, whatever is seen first. -/
theorem under_of_lt {α : Type} {deadline : ℕ} {work : Timed α} {out : Timed (Option α)}
    (hlong : deadline < work.time) : Under deadline work out ↔ out = ⟨deadline, none⟩ := by
  constructor
  · rintro (hle | _)
    · exact absurd hlong (not_lt.mpr hle)
    · rfl
  · rintro rfl
    exact .elapsed hlong.le

/-- Work that is done before the deadline is seen to be done. -/
theorem under_of_gt {α : Type} {deadline : ℕ} {work : Timed α} {out : Timed (Option α)}
    (hshort : work.time < deadline) :
    Under deadline work out ↔ out = ⟨work.time, some work.value⟩ := by
  constructor
  · rintro (_ | hge)
    · rfl
    · exact absurd hshort (not_lt.mpr hge)
  · rintro rfl
    exact .finished hshort.le

namespace HttpGateway

/-! ## The extract route -/

/-- A request for an extract: its parameter, what the cache holds for it, the time that
passes before the span starts, the readings of its timer, and the span. -/
structure ExtractVisit where
  url : String
  cached : Option (List UInt8)
  lookupMs : ℕ
  elapsedMs : UInt64
  span : Timed (Except AppError (String × ExtractOutcome))

def attemptOf : Option (Except AppError (String × ExtractOutcome)) → Attempt
  | none => .elapsed
  | some result => .finished result

/-- The answers that the handler gets; it does not search. -/
def ExtractVisit.env (v : ExtractVisit) (attempt : Attempt) : Env GatewayI
  | _, .cacheGet _ => v.cached
  | _, .cacheSet _ _ _ => ()
  | _, .elapsedMs => v.elapsedMs
  | _, .engineSearch _ _ _ _ => Except.error SearchError.parseEmpty
  | _, .record _ => ()
  | _, .extractAttempt _ => attempt

variable (g : Gateway) (toJson : ExtractResponse → String)

def replyOf : Except AppError ExtractResponse → HttpResponse
  | .ok response => successResponse (toJson response)
  | .error e => intoResponse e

/-- The responses that may leave the router. -/
def ExtractReply (v : ExtractVisit) (response : HttpResponse) : Prop :=
  ∃ inner outer, Under g.config.extract.timeoutMs.toNat v.span inner
    ∧ Under extractRouteDeadline ⟨v.lookupMs + inner.time,
        replyOf toJson ((extractHandler g v.url).result (v.env (attemptOf inner.value)) 0)⟩ outer
    ∧ response = convertTimeoutResponse (outer.value.getD timedOut)

/-- The response is a 504 with the code `EXTRACT_TIMEOUT`. -/
def ReportsTimeout (response : HttpResponse) : Prop :=
  ∃ msg, response = intoResponse (.extractTimeout msg)

/-! ## What handlers reply -/

/-- The span is cut off, or ends as the network lets it end. -/
def SpanAnswers (env : Env GatewayI) : Prop :=
  ∀ n url, env n (.extractAttempt url) = .elapsed
    ∨ ∃ lib net k, env n (.extractAttempt url)
        = .finished ((Extract.extractSpan lib g.config url).result net k)

/-- The responses of the handlers of the router. -/
inductive FromHandler : HttpResponse → Prop
  | success (data : String) : FromHandler (successResponse data)
  | unready (data : String) : FromHandler { successResponse data with status := 503 }
  | unauthorized : FromHandler (intoResponse (.unauthorized "Missing or invalid API key"))
  | search {params : SearchParams} {env : Env GatewayI} {e : AppError} :
      (searchHandler g params).result env 0 = .error e → FromHandler (intoResponse e)
  | extract {url : String} {env : Env GatewayI} {e : AppError} :
      SpanAnswers g env → (extractHandler g url).result env 0 = .error e →
      FromHandler (intoResponse e)

/-- The text of an exceeded budget. -/
def exceeded (timeoutMs : UInt64) : String :=
  "extract exceeded " ++ toString timeoutMs.toNat ++ "ms"

/-! ## The size of an error -/

theorem length_escapeChar_le (c : Char) : (RustStr.asBytes (escapeChar c)).length ≤ 6 := by
  unfold escapeChar
  split_ifs
  · decide
  · decide
  · decide
  · decide
  · decide
  · decide
  · decide
  · have hdigits : ∀ n < 0x20,
        (RustStr.asBytes ("\\u" ++ String.ofList (Search.hexDigits 4 n))).length ≤ 6 := by
      decide
    exact hdigits c.toNat (by assumption)
  · rw [RustStr.asBytes, String.toList_singleton, Utf8.length_encode, List.map_singleton,
      List.sum_singleton]
    have := c.utf8Size_le_four
    omega

theorem length_join_le (cs : List Char) :
    (RustStr.asBytes (String.join (cs.map escapeChar))).length ≤ 6 * cs.length := by
  induction cs with
  | nil => decide
  | cons c cs ih =>
      rw [List.map_cons, String.join_cons, RustStr.asBytes_append, List.length_append,
        List.length_cons]
      have := length_escapeChar_le c
      omega

/-- An escape has at most six bytes. -/
theorem length_quote_le (s : String) :
    (RustStr.asBytes (quote s)).length ≤ 6 * s.length + 2 := by
  have hjoin := length_join_le s.toList
  have hquote : (RustStr.asBytes "\"").length = 1 := rfl
  rw [quote, RustStr.asBytes_append, RustStr.asBytes_append, List.length_append,
    List.length_append, hquote]
  rw [String.length_toList] at hjoin
  omega

theorem length_exceeded_le (timeoutMs : UInt64) : (exceeded timeoutMs).length ≤ 40 := by
  have hlt : timeoutMs.toNat < 10 ^ 20 := timeoutMs.toNat_lt.trans (by decide)
  have hdigits : (toString timeoutMs.toNat).length ≤ 20 := by
    rw [Nat.toString_eq_repr]
    exact (Nat.length_repr_le_iff (by decide)).mpr hlt
  have htext : "extract exceeded ".length = 17 := rfl
  have hms : "ms".length = 2 := rfl
  unfold exceeded
  generalize toString timeoutMs.toNat = digits at hdigits
  simp only [String.length_append, htext, hms]
  omega

/-- The body of an exceeded budget is read whole. -/
theorem length_errorBody_exceeded (timeoutMs : UInt64) :
    0 < (RustStr.asBytes (errorBody "EXTRACT_TIMEOUT" (exceeded timeoutMs))).length
      ∧ (RustStr.asBytes (errorBody "EXTRACT_TIMEOUT" (exceeded timeoutMs))).length ≤ 8192 := by
  have hmsg := length_quote_le (exceeded timeoutMs)
  have hlen := length_exceeded_le timeoutMs
  have hcode : (RustStr.asBytes (quote "EXTRACT_TIMEOUT")).length = 17 := by decide
  have hfirst : (RustStr.asBytes "\x7b\"error\":\x7b\"code\":").length = 17 := by decide
  have hmid : (RustStr.asBytes ",\"message\":").length = 11 := by decide
  have hlast : (RustStr.asBytes "\x7d,\"success\":false\x7d").length = 18 := by decide
  unfold errorBody
  simp only [RustStr.asBytes_append, List.length_append, hcode, hfirst, hmid, hlast]
  omega

/-! ## What the layer rewrites -/

theorem convertTimeoutResponse_of_ne {response : HttpResponse}
    (h : response.status ≠ timeoutMarkerStatus) : convertTimeoutResponse response = response :=
  if_pos h

/-- A 504 with a body that can be read whole stays as it is. -/
theorem convertTimeoutResponse_of_body {response : HttpResponse} (hpos : 0 < response.body.length)
    (hle : response.body.length ≤ 8192) : convertTimeoutResponse response = response := by
  unfold convertTimeoutResponse
  split_ifs with hstatus hlarge hnil
  · rfl
  · omega
  · exact absurd hnil (List.ne_nil_of_length_pos hpos)
  · rfl

theorem intoResponse_extractTimeout (msg : String) : intoResponse (.extractTimeout msg)
    = ⟨504, jsonHeaders, RustStr.asBytes (errorBody "EXTRACT_TIMEOUT" msg)⟩ := rfl

theorem convertTimeoutResponse_exceeded (timeoutMs : UInt64) :
    convertTimeoutResponse (intoResponse (.extractTimeout (exceeded timeoutMs)))
      = intoResponse (.extractTimeout (exceeded timeoutMs)) := by
  obtain ⟨hpos, hle⟩ := length_errorBody_exceeded timeoutMs
  generalize exceeded timeoutMs = msg at hpos hle ⊢
  rw [intoResponse_extractTimeout]
  exact convertTimeoutResponse_of_body hpos hle

theorem convertTimeoutResponse_timedOut :
    convertTimeoutResponse timedOut = intoResponse (.serviceUnavailable "Request timed out") := rfl

theorem intoResponse_status_ne {e : AppError} (h : ∀ msg, e ≠ .extractTimeout msg) :
    (intoResponse e).status ≠ timeoutMarkerStatus := by
  cases e with
  | extractTimeout msg => exact absurd rfl (h msg)
  | _ => simp [intoResponse, AppError.toHttpParts, timeoutMarkerStatus]

/-! ## The errors of the handlers -/

section Handlers

variable {g : Gateway} {env : Env GatewayI} {e : AppError}

theorem finishSearch_returns (g : Gateway) (request : SearchRequest)
    (results : List SearchResult) :
    (finishSearch g request results).Returns fun outcome => ∃ response, outcome = .ok response := by
  intro ms _
  apply (Prog.Returns.any _).bind
  exact fun response _ => ⟨response, rfl⟩

/-- A search does not end in a 504, whatever the cache holds and the engine answers. -/
theorem searchProgram_returns (g : Gateway) (request : SearchRequest) :
    (searchProgram g request).Returns fun outcome =>
      ∀ e, outcome = .error e → e.toHttpParts.1 ≠ 504 := by
  have hfinish : ∀ results, (finishSearch g request results).Returns fun outcome =>
      ∀ e, outcome = .error e → e.toHttpParts.1 ≠ 504 := by
    intro results
    apply (finishSearch_returns g request results).mono
    rintro _ ⟨response, rfl⟩ e h
    cases h
  apply Prog.Returns.call
  intro cachedBytes
  cases cachedBytes.bind g.searchCodec.fromSlice with
  | some response =>
      intro ms e h
      cases h
  | none =>
      apply Prog.Returns.call
      intro results
      cases results with
      | ok results => exact hfinish results
      | error e =>
          apply Prog.Returns.call
          intro _
          cases hmap : mapSearchError e with
          | none => exact hfinish []
          | some appErr =>
              rintro _ ⟨rfl⟩
              have hstatus := mapSearchError_status hmap
              omega

theorem searchHandler_error {params : SearchParams}
    (h : (searchHandler g params).result env 0 = .error e) : e.toHttpParts.1 ≠ 504 := by
  unfold searchHandler at h
  cases hvalid : tryFromParams g.platform params g.config.search.safeSearchDefault with
  | error e' =>
      rw [hvalid] at h
      rw [← Except.error.inj h, tryFromParams_status hvalid]
      decide
  | ok request =>
      rw [hvalid] at h
      exact (searchProgram_returns g request).result env 0 e h

/-- An extract ends in an exceeded budget, or in an error of the span. -/
theorem extractHandler_error {url : String} (hspan : SpanAnswers g env)
    (h : (extractHandler g url).result env 0 = .error e) :
    e = .extractTimeout (exceeded g.config.extract.timeoutMs) ∨ Extract.SpanError e := by
  unfold extractHandler at h
  dsimp only at h
  split_ifs at h
  · rw [← Except.error.inj h]
    exact Or.inr trivial
  · cases hparse : g.platform.parseUrl (RustStr.trim url) with
    | error msg =>
        rw [hparse] at h
        rw [← Except.error.inj h]
        exact Or.inr trivial
    | ok parsed =>
        rw [hparse] at h
        dsimp only at h
        rw [Gateway.runExtract_result] at h
        cases hhit : (env 0 (.cacheGet (Search.extractCacheKey g.hash
            (Ssrf.normalizeExtractUrl parsed)))).bind g.extractCodec.fromSlice with
        | some response =>
            rw [hhit] at h
            exact absurd h (by simp)
        | none =>
            rw [hhit] at h
            rcases hspan (0 + 1) parsed with helapsed | ⟨lib, net, k, hfinished⟩
            · rw [helapsed] at h
              exact Or.inl (Except.error.inj h).symm
            · rw [hfinished] at h
              cases hresult : (Extract.extractSpan lib g.config parsed).result net k with
              | error e' =>
                  rw [hresult] at h
                  rw [← Except.error.inj h]
                  exact Or.inr (Extract.extractSpan_error lib g.config parsed net k e' hresult)
              | ok p =>
                  rw [hresult] at h
                  exact absurd h (by simp)

/-- **No reply of a handler is rewritten.** -/
theorem convertTimeoutResponse_fromHandler {response : HttpResponse}
    (h : FromHandler g response) : convertTimeoutResponse response = response := by
  cases h with
  | success data => exact convertTimeoutResponse_of_ne (by simp [successResponse,
      timeoutMarkerStatus])
  | unready data => exact convertTimeoutResponse_of_ne (by simp [timeoutMarkerStatus])
  | unauthorized => exact convertTimeoutResponse_of_ne (by decide)
  | search herror => exact convertTimeoutResponse_of_ne (searchHandler_error herror)
  | extract hspan herror =>
      rcases extractHandler_error hspan herror with rfl | hother
      · exact convertTimeoutResponse_exceeded _
      · apply convertTimeoutResponse_of_ne
        apply intoResponse_status_ne
        rintro msg rfl
        exact hother

end Handlers

/-! ## The race -/

section Race

variable {g : Gateway} {toJson : ExtractResponse → String} {v : ExtractVisit} {parsed : Url}

/-- A span that is cut off ends the handler with the exceeded budget. -/
theorem extractHandler_elapsed (hurl : RustStr.trim v.url ≠ "")
    (hparse : g.platform.parseUrl (RustStr.trim v.url) = .ok parsed)
    (hmiss : v.cached.bind g.extractCodec.fromSlice = none) :
    (extractHandler g v.url).result (v.env .elapsed) 0
      = .error (.extractTimeout (exceeded g.config.extract.timeoutMs)) := by
  unfold extractHandler
  dsimp only
  rw [if_neg hurl, hparse]
  dsimp only
  rw [Gateway.runExtract_result]
  have hget : (v.env .elapsed 0 (.cacheGet (Search.extractCacheKey g.hash
      (Ssrf.normalizeExtractUrl parsed)))).bind g.extractCodec.fromSlice = none := hmiss
  rw [hget]
  rfl

/-- When the timeout of the route passes first, the reply is a general error. -/
theorem extractReply_cut (hlong : g.config.extract.timeoutMs.toNat < v.span.time)
    (hge : extractRouteDeadline ≤ v.lookupMs + g.config.extract.timeoutMs.toNat) :
    ExtractReply g toJson v (intoResponse (.serviceUnavailable "Request timed out")) := by
  have hcast : (extractRouteDeadline : ℕ∞)
      ≤ v.lookupMs + (g.config.extract.timeoutMs.toNat : ℕ∞) := by
    exact_mod_cast hge
  exact ⟨_, ⟨extractRouteDeadline, none⟩, (under_of_lt hlong).mpr rfl, .elapsed hcast,
    convertTimeoutResponse_timedOut.symm⟩

theorem not_reportsTimeout_serviceUnavailable (msg : String) :
    ¬ ReportsTimeout (intoResponse (.serviceUnavailable msg)) := by
  rintro ⟨msg', h⟩
  have hstatus := congrArg HttpResponse.status h
  exact absurd hstatus (by simp [intoResponse, AppError.toHttpParts])

/-- **Which deadline passes first.**  An extract over its budget is reported as such if
and only if its budget ends before the timeout of the route; and the layer on top
rewrites no reply of a handler. -/
theorem extract_timeout_iff (hurl : RustStr.trim v.url ≠ "")
    (hparse : g.platform.parseUrl (RustStr.trim v.url) = .ok parsed)
    (hmiss : v.cached.bind g.extractCodec.fromSlice = none)
    (hlong : g.config.extract.timeoutMs.toNat < v.span.time) :
    ((∀ response, ExtractReply g toJson v response → ReportsTimeout response)
      ↔ v.lookupMs + g.config.extract.timeoutMs.toNat < extractRouteDeadline)
    ∧ ∀ response, FromHandler g response → convertTimeoutResponse response = response := by
  refine ⟨?_, fun response h => convertTimeoutResponse_fromHandler h⟩
  constructor
  · intro h
    by_contra hge
    exact not_reportsTimeout_serviceUnavailable _ (h _ (extractReply_cut hlong (not_lt.mp hge)))
  · rintro hlt response ⟨inner, outer, hinner, houter, rfl⟩
    have hcast : v.lookupMs + (g.config.extract.timeoutMs.toNat : ℕ∞) < extractRouteDeadline := by
      exact_mod_cast hlt
    rw [under_of_lt hlong] at hinner
    subst hinner
    rw [under_of_gt hcast] at houter
    subst houter
    rw [Option.getD_some, attemptOf, extractHandler_elapsed hurl hparse hmiss]
    exact ⟨_, convertTimeoutResponse_exceeded _⟩

end Race

/-- A gateway with the default configuration but for the budget of an extract; every text
parses as one URL. -/
def budgetGateway (timeoutMs : UInt64) : Gateway where
  config :=
    { Config.default with extract := { Config.default.extract with timeoutMs := timeoutMs } }
  platform :=
    { Platform.ascii with
      parseUrl := fun _ =>
        .ok ⟨"https", some ⟨"", none, some "example.com", none⟩, "/", none, none⟩ }
  hash _ := 0
  searchCodec := Codec.unasked SearchResponse
  extractCodec := Codec.unasked ExtractResponse

/-- A page that never arrives. -/
def stuckVisit : ExtractVisit :=
  { url := "https://example.com/"
    cached := none
    lookupMs := 0
    elapsedMs := 0
    span := ⟨⊤, .error (.internal "never")⟩ }

/-- A budget of 5 seconds ends before the timeout of the route. -/
theorem extract_timeout_short :
    ∃ response, ExtractReply (budgetGateway 5000) (fun _ => "") stuckVisit response
      ∧ ReportsTimeout response := by
  have hall : ∀ response, ExtractReply (budgetGateway 5000) (fun _ => "") stuckVisit response →
      ReportsTimeout response := by
    refine (extract_timeout_iff ?_ rfl rfl ?_).1.mpr ?_
    · show RustStr.trim "https://example.com/" ≠ ""
      decide
    · exact ENat.natCast_lt_top _
    · show 0 + (5000 : UInt64).toNat < extractRouteDeadline
      decide
  have hfits : ((stuckVisit.lookupMs : ℕ∞) + (5000 : ℕ)) ≤ (extractRouteDeadline : ℕ∞) := by
    show ((0 : ℕ) : ℕ∞) + (5000 : ℕ) ≤ ((20000 : ℕ) : ℕ∞)
    exact_mod_cast (by decide : 0 + 5000 ≤ 20000)
  have hreply : ExtractReply (budgetGateway 5000) (fun _ => "") stuckVisit _ :=
    ⟨⟨(5000 : ℕ), none⟩, _, .elapsed le_top, .finished hfits, rfl⟩
  exact ⟨_, hreply, hall _ hreply⟩

/-- With the default budget of 30 seconds the route is the first to give up. -/
theorem extract_timeout_default :
    ¬ ∀ (g : Gateway) (toJson : ExtractResponse → String) (v : ExtractVisit) (parsed : Url),
      g.config.Valid g.platform → RustStr.trim v.url ≠ "" →
      g.platform.parseUrl (RustStr.trim v.url) = .ok parsed →
      v.cached.bind g.extractCodec.fromSlice = none →
      g.config.extract.timeoutMs.toNat < v.span.time →
      ∀ response, ExtractReply g toJson v response → ReportsTimeout response := by
  intro h
  have hreply : ExtractReply (budgetGateway 30000) (fun _ => "") stuckVisit
      (intoResponse (.serviceUnavailable "Request timed out")) :=
    extractReply_cut (ENat.natCast_lt_top _) (by decide)
  exact not_reportsTimeout_serviceUnavailable _
    (h (budgetGateway 30000) (fun _ => "") stuckVisit _ (Config.default_valid rfl) (by decide) rfl
      rfl (ENat.natCast_lt_top _) _ hreply)

end HttpGateway
