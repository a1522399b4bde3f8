/-
# Where replies come from

Processes with different configurations share one cache.  DuckDuckGo and the network reply
to them as they like, and what one process has made of a reply may be served by another,
long after and through the other gateway.  The limits of the server are then not kept, since
they are applied when a response is made.  What does hold of a response that is served,
fresh or cached, is settled here, from what the upstream has sent to what a client receives.

* `pages_as_asked`: a page has the number that was asked for, and its results are web
  addresses that DuckDuckGo has listed for what was asked, less those that the filter of the
  level asked for forbids.
* `extracts_delivered`: an extract is made of an HTML page within the limit of its maker,
  which an address that has passed the check has delivered for the URL that was asked for.
-/
import Serica.CacheLimits
import Serica.CappedBody
import Serica.ErrorOpacity
import Serica.ResultLinks
import Serica.SafeSearch

namespace Provenance

open CacheLimits (ServerI configured threads)
open CacheSoundness (Request Reply Ask serve serve_cases searchSteps finishSteps)

/-! ## The surroundings -/

/-- How DuckDuckGo may reply to a search, and how the network may answer a fetch. -/
structure World where
  engines : Set DuckDuckGo.Adapter
  nets : Set (Env Ssrf.NetI)

/-- What is cached. -/
abbrev Entries : Type := String → Option (List UInt8)

section Source

variable (g : Gateway) (lib : Extract.SpanLib) (w : World)

/-- How a call ends that a process with the configuration `c` makes. -/
def answer (s : Entries) (o : ServerI.Op) (r : ServerI.Ans o) (s' : Entries) : Prop :=
  match o with
  | (_, .cacheGet key) =>
      s' = s ∧ (r = none ∨ r = s key ∨ ∃ bytes, r = some bytes ∧ CacheSoundness.Undecodable g bytes)
  | (_, .cacheSet key bytes _) => s' = s ∨ s' = Function.update s key (some bytes)
  | (_, .elapsedMs) => s' = s
  | (_, .engineSearch query page language safeSearch) =>
      s' = s ∧ ∃ a ∈ w.engines, r = a.search query page language safeSearch
  | (_, .record _) => s' = s
  | (c, .extractAttempt url) =>
      s' = s ∧ (r = .elapsed ∨ ∃ net ∈ w.nets, ∃ n,
        r = .finished ((Extract.extractSpan lib c url).result net n))

/-- The cache may forget any entries. -/
def forgets (s s' : Entries) : Prop := ∀ key, s' key = none ∨ s' key = s key

def sharedStore : Store ServerI Entries := ⟨answer g lib w, forgets⟩

end Source

/-! ## Where an extract comes from -/

section Origin

variable (lib : Extract.SpanLib) (config : Config)

/-- The reply is an HTML page within the limit, and the outcome is made of it. -/
structure MadeOf (response : Ssrf.Response) (outcome : ExtractOutcome) : Prop where
  success : 200 ≤ response.status ∧ response.status < 300
  html : Fetch.isExtractableContentTypeHeader lib.platform response.contentType = true
  body : ∃ bodies : List (List UInt8), response.chunks = bodies.map .ok
    ∧ bodies.flatten.length ≤ config.extract.maxRawBytes
    ∧ Extract.extractFromHtml lib.html lib.extractor
        (String.ofList (Utf8.decodeLossy bodies.flatten))
        (Extract.extractOptionsFromConfig config) config.extract = some outcome

/-- The calls of a fetch in which every request goes to an address that its own lookup has
found and that is not forbidden, and the last is answered with the page that the outcome is
made of. -/
structure Delivered (events : List (Event Ssrf.NetI)) (final : String)
    (outcome : ExtractOutcome) : Prop where
  guarded : Ssrf.Guarded none events
  few : events.countP Ssrf.isSend ≤ 1 + Ssrf.maxRedirectHops
  page : ∃ client url response,
    events.getLast? = some ⟨.send client url Ssrf.requestHeaders, .ok response⟩
      ∧ final = url.asStr ∧ MadeOf lib config response outcome

/-- A reply that makes an outcome has passed every check. -/
theorem madeOf_of_extractReply {response : Ssrf.Response} {url : Url} {final : String}
    {outcome : ExtractOutcome}
    (h : Extract.extractReply lib config response url = .ok (final, outcome)) :
    final = url.asStr ∧ MadeOf lib config response outcome := by
  unfold Extract.extractReply at h
  split_ifs at h with hstatus hhtml
  cases hbody : Fetch.readCappedBody lib.displayBodyError response
      config.extract.maxRawBytes with
  | error e =>
      rw [hbody] at h
      exact absurd h (by simp)
  | ok body =>
      rw [hbody] at h
      cases hout : Extract.extractFromHtml lib.html lib.extractor body
          (Extract.extractOptionsFromConfig config) config.extract with
      | none =>
          simp only [hout] at h
          exact absurd h (by simp)
      | some made =>
          simp only [hout, Except.ok.injEq, Prod.mk.injEq] at h
          obtain ⟨rfl, rfl⟩ := h
          obtain ⟨-, bodies, hchunks, hlimit, rfl⟩ := Fetch.readCappedBody_eq_ok_iff.mp hbody
          refine ⟨rfl, ?_, ?_, bodies, hchunks, hlimit, hout⟩
          · simpa using hstatus
          · simpa using hhtml

/-- **A successful extraction without a proxy has been delivered.** -/
theorem delivered_of_span (hproxy : config.proxy.extractUrl = none) {url : Url}
    {env : Env Ssrf.NetI} {n : ℕ} {final : String} {outcome : ExtractOutcome}
    (h : (Extract.extractSpan lib config url).result env n = .ok (final, outcome)) :
    Delivered lib config ((Extract.extractSpan lib config url).trace env n) final outcome := by
  unfold Extract.extractSpan at h ⊢
  rw [hproxy] at h ⊢
  have hhops := Ssrf.fetchLoop_hops lib.toFetchLib env n 0 (Ssrf.normalizeExtractUrl url)
  cases hfetch : (Ssrf.fetchExtractTarget lib.toFetchLib url none).result env n with
  | error e =>
      rw [Prog.result_andThen_error _ hfetch] at h
      exact absurd h (by simp)
  | ok p =>
      obtain ⟨response, finalUrl⟩ := p
      rw [Prog.result_andThen_ok _ hfetch] at h
      rw [Prog.trace_andThen_ok _ hfetch]
      dsimp only [Prog.trace] at h ⊢
      rw [List.append_nil]
      obtain ⟨hfinal, hmade⟩ := madeOf_of_extractReply lib config h
      obtain ⟨-, client, hlast⟩ := hhops.last hfetch
      exact ⟨hhops.guarded, hhops.countP_isSend (Nat.zero_le _), client, finalUrl, response,
        hlast, hfinal, hmade⟩

end Origin

/-! ## Where a page comes from -/

section Pages

variable (w : World) (platform : Platform) (select : String → List DuckDuckGo.Container)

/-- DuckDuckGo as it is asked in production, and the parser of its pages. -/
def Scrapes (a : DuckDuckGo.Adapter) : Prop :=
  a.searchUrl = "https://html.duckduckgo.com/html/"
    ∧ ∀ body, a.parseResults body = some (DuckDuckGo.parseResults platform.parseUrl select body)

/-- The result is on a page that DuckDuckGo has sent for a URL with the parameters of the
request, and that is no challenge. -/
def Listed (req : SearchRequest) (r : SearchResult) : Prop :=
  ∃ a ∈ w.engines, ∃ (url : String) (status : ℕ) (body : String),
    FormUrlencoded.parse (RustStr.asBytes (DuckDuckGo.queryPart url))
        = DuckDuckGo.searchParams req.query (DuckDuckGo.offset req.page) req.language
            req.safeSearch
      ∧ a.send url = .ok ⟨status, .ok body⟩ ∧ 200 ≤ status ∧ status < 300
      ∧ DuckDuckGo.isChallengePage status body = false
      ∧ r ∈ DuckDuckGo.parseResults platform.parseUrl select body

/-- A page with the number that was asked for, within the limit of one of the
configurations, that counts no fewer results than it shows; each of them is a titled web
address that is listed for the request and has no word on the list of the level asked for. -/
structure PageFor (configs : Set Config) (req : SearchRequest) (resp : SearchResponse) :
    Prop where
  number : resp.page = req.page
  size : ∃ c ∈ configs, resp.results.length ≤ c.search.maxResultsPerPage
  counted : resp.results.length ≤ resp.totalResults
  titled : ∀ r ∈ resp.results, DuckDuckGo.IsHttp platform.parseUrl r.url ∧ r.title ≠ ""
  listed : ∀ r ∈ resp.results, Listed w platform select req r
  filtered : ∀ r ∈ resp.results,
    ¬ Search.HasListedWord platform (Search.safeSearchBlocklist req.safeSearch) r

/-- What a process may make a page of: results of a search, or nothing. -/
def Found (req : SearchRequest) (results : List SearchResult) : Prop :=
  ∀ r ∈ results, ∃ a ∈ w.engines, ∃ found,
    a.search req.query req.page req.language req.safeSearch = .ok found ∧ r ∈ found

variable {w platform select}

/-- The page that the results of a search were parsed of. -/
theorem body_of_search {a : DuckDuckGo.Adapter} {query : String} {page : UInt32}
    {language : Option String} {safeSearch : UInt8} {results : List SearchResult}
    (h : a.search query page language safeSearch = .ok results) :
    ∃ status body, a.send (DuckDuckGo.buildSearchUrl a.searchUrl query (DuckDuckGo.offset page)
        language safeSearch) = .ok ⟨status, .ok body⟩
      ∧ 200 ≤ status ∧ status < 300 ∧ DuckDuckGo.isChallengePage status body = false
      ∧ a.parseResults body = some results := by
  unfold DuckDuckGo.Adapter.search at h
  split at h
  · cases h
  · rename_i reply hsend
    obtain ⟨status, text⟩ := reply
    unfold DuckDuckGo.Adapter.classify at h
    split_ifs at h with hforbidden hsuccess
    split at h
    · cases h
    · rename_i body hbody
      obtain rfl : text = .ok body := hbody
      split_ifs at h with hchallenge
      split at h
      · cases h
      · rename_i found hfound
        split_ifs at h
        obtain rfl := Except.ok.inj h
        refine ⟨status, body, hsend, ?_, ?_, Bool.eq_false_iff.mpr hchallenge, hfound⟩
        all_goals simp at hsuccess; omega

/-- The parameters of the production URL. -/
theorem parse_buildSearchUrl (query : String) (offset : UInt32) (language : Option String)
    (safeSearch : UInt8) :
    FormUrlencoded.parse (RustStr.asBytes (DuckDuckGo.queryPart (DuckDuckGo.buildSearchUrl
        "https://html.duckduckgo.com/html/" query offset language safeSearch)))
      = DuckDuckGo.searchParams query offset language safeSearch := by
  rw [DuckDuckGo.buildSearchUrl_eq, DuckDuckGo.queryPart_append (by decide) (by decide)
    (DuckDuckGo.hash_not_mem_serialize _), FormUrlencoded.parse_serialize]

/-- Results of a search are listed. -/
theorem Found.listed (hengines : ∀ a ∈ w.engines, Scrapes platform select a)
    {req : SearchRequest} {results : List SearchResult} (h : Found w req results) :
    ∀ r ∈ results, Listed w platform select req r := by
  intro r hr
  obtain ⟨a, ha, found, hsearch, hmem⟩ := h r hr
  obtain ⟨hbase, hparse⟩ := hengines a ha
  obtain ⟨status, body, hsend, hlow, hhigh, hchallenge, hbody⟩ := body_of_search hsearch
  rw [hparse, Option.some.injEq] at hbody
  rw [← hbody] at hmem
  refine ⟨a, ha, _, status, body, ?_, hsend, hlow, hhigh, hchallenge, hmem⟩
  rw [hbase]
  exact parse_buildSearchUrl _ _ _ _

/-- **What a process makes of the results**: the filter runs before the page is cut. -/
theorem pageFor_finalizeResults (hreparses : DuckDuckGo.Reparses platform.parseUrl)
    (hengines : ∀ a ∈ w.engines, Scrapes platform select a) {configs : Set Config} {c : Config}
    (hc : c ∈ configs) {req : SearchRequest} {results : List SearchResult}
    (hfound : Found w req results) (ms : UInt64) :
    PageFor w platform select configs req
      (Search.finalizeResults platform results req c.search.maxResultsPerPage ms) := by
  have hkept : ∀ r ∈ (Search.finalizeResults platform results req
      c.search.maxResultsPerPage ms).results,
      r ∈ results
        ∧ ¬ Search.isBlocked platform (Search.safeSearchBlocklist req.safeSearch) r = true := by
    intro r hr
    have hfiltered : r ∈ Search.applySafeSearchFilter platform results req.safeSearch :=
      List.mem_of_mem_take hr
    rw [Search.applySafeSearchFilter_eq, List.mem_filter, Bool.not_eq_true'] at hfiltered
    exact ⟨hfiltered.1, by rw [hfiltered.2]; exact Bool.false_ne_true⟩
  refine ⟨rfl, ⟨c, hc, List.length_take_le _ _⟩, List.length_take_le' _ _, ?_, ?_, ?_⟩
  · intro r hr
    obtain ⟨a, ha, url, status, body, -, -, -, -, -, hmem⟩ :=
      hfound.listed hengines r (hkept r hr).1
    exact DuckDuckGo.parseResults_isHttp hreparses hmem
  · exact fun r hr => hfound.listed hengines r (hkept r hr).1
  · intro r hr hlisted
    apply (hkept r hr).2
    rw [Search.isBlocked_iff platform (Search.blank_not_mem_safeSearchBlocklist req.safeSearch)]
    exact hlisted

end Pages

/-! ## What is served -/

/-- Properties of pages and extracts that whoever makes them gives them, and that they keep
when they are served again. -/
structure Lasting (g : Gateway) (lib : Extract.SpanLib) (w : World) (configs : Set Config)
    (IsPage : SearchRequest → SearchResponse → Prop) (IsExtract : Url → ExtractResponse → Prop) :
    Prop where
  page : ∀ c ∈ configs, ∀ req results ms, Found w req results →
    IsPage req (Search.finalizeResults g.platform results req c.search.maxResultsPerPage ms)
  pageAgain : ∀ req resp ms, IsPage req resp →
    IsPage req { resp with cached := true, timingMs := ms }
  extract : ∀ c ∈ configs, ∀ url, ∀ net ∈ w.nets, ∀ n final outcome ms,
    (Extract.extractSpan lib c url).result net n = .ok (final, outcome) →
    IsExtract url (ExtractResponse.ofOutcome final outcome ms)
  extractAgain : ∀ url resp ms, IsExtract url resp →
    IsExtract url { resp with cached := true, timingMs := ms }
  /-- URLs with the same normal form share their extracts. -/
  extractShared : ∀ url url' resp,
    (Ssrf.normalizeExtractUrl url').asStr = (Ssrf.normalizeExtractUrl url).asStr →
    IsExtract url resp → IsExtract url' resp

/-- A successful reply is a page or an extract that has the property: over HTTP the response
itself, over MCP the one that the tool result is made of. -/
def Serves (g : Gateway) (IsPage : SearchRequest → SearchResponse → Prop)
    (IsExtract : Url → ExtractResponse → Prop) (ask : Option Ask) : Reply → Prop
  | .httpSearch (.ok resp) => ∃ req, ask = some (.search req) ∧ IsPage req resp
  | .httpExtract (.ok resp) => ∃ url, ask = some (.extract url) ∧ IsExtract url resp
  | .mcpCall response => response.error = none →
      (∃ req resp, ask = some (.search req) ∧ IsPage req resp
        ∧ response = McpGateway.toolCallResult g.searchCodec response.id resp)
      ∨ ∃ url resp, ask = some (.extract url) ∧ IsExtract url resp
        ∧ response = McpGateway.toolCallResult g.extractCodec response.id resp
  | _ => True

section Contract

variable {g : Gateway} {lib : Extract.SpanLib} {w : World} {configs : Set Config}
  {IsPage : SearchRequest → SearchResponse → Prop} {IsExtract : Url → ExtractResponse → Prop}
  {streams : Set (List UInt8)}

theorem serves_errorResponse (ask : Option Ask) (id : Json) (e : JsonRpcErrorObject) :
    Serves g IsPage IsExtract ask (.mcpCall (McpGateway.errorResponse id e)) :=
  fun h => absurd h (by simp [McpGateway.errorResponse])

theorem serves_of_refuses {reply : Reply} (h : reply.Refuses) (ask : Option Ask) :
    Serves g IsPage IsExtract ask reply := by
  rcases reply with result | result | response
  · obtain ⟨e, rfl⟩ := h
    trivial
  · obtain ⟨e, rfl⟩ := h
    trivial
  · obtain ⟨id, e, rfl⟩ := h
    exact serves_errorResponse ask id e

/-! ## The contract -/

/-- **The invariant**: what is cached for something whose stream is among `streams` may be
served for it. -/
structure Held (g : Gateway) (IsPage : SearchRequest → SearchResponse → Prop)
    (IsExtract : Url → ExtractResponse → Prop) (streams : Set (List UInt8)) (s : Entries) :
    Prop where
  page : ∀ req, Search.hashStream req ∈ streams → ∀ bytes resp,
    s (Search.cacheKey g.hash req) = some bytes →
    g.searchCodec.fromSlice bytes = some resp → IsPage req resp
  extract : ∀ url, Search.strStream (Ssrf.normalizeExtractUrl url).asStr ∈ streams →
    ∀ bytes resp, s (Search.extractCacheKey g.hash (Ssrf.normalizeExtractUrl url)) = some bytes →
    g.extractCodec.fromSlice bytes = some resp → IsExtract url resp

/-- The others may do anything that keeps the invariant. -/
def contract (g : Gateway) (IsPage : SearchRequest → SearchResponse → Prop)
    (IsExtract : Url → ExtractResponse → Prop) (streams : Set (List UInt8)) : Contract Entries :=
  ⟨Held g IsPage IsExtract streams, fun _ _ => True, fun _ => trivial, fun _ _ => trivial⟩

/-- The store as a process with the configuration `c` sees it. -/
def view (g : Gateway) (lib : Extract.SpanLib) (w : World) (c : Config) : Store GatewayI Entries :=
  (sharedStore g lib w).seenBy c

theorem Held.forgets {s t : Entries} (h : Held g IsPage IsExtract streams s) (hst : forgets s t) :
    Held g IsPage IsExtract streams t := by
  have hold : ∀ {key bytes}, t key = some bytes → s key = some bytes := by
    intro key bytes hbytes
    rcases hst key with hnone | hsame
    · rw [hnone] at hbytes
      exact absurd hbytes (by simp)
    · rw [← hsame]
      exact hbytes
  exact ⟨fun req hreq bytes resp hbytes => h.page req hreq bytes resp (hold hbytes),
    fun url hurl bytes resp hbytes => h.extract url hurl bytes resp (hold hbytes)⟩

/-- What is put under a key may be served for everything that has the key. -/
theorem Held.store {s : Entries} (h : Held g IsPage IsExtract streams s) {key : String}
    {bytes : List UInt8}
    (hpage : ∀ req, Search.hashStream req ∈ streams → Search.cacheKey g.hash req = key →
      ∀ resp, g.searchCodec.fromSlice bytes = some resp → IsPage req resp)
    (hextract : ∀ url, Search.strStream (Ssrf.normalizeExtractUrl url).asStr ∈ streams →
      Search.extractCacheKey g.hash (Ssrf.normalizeExtractUrl url) = key →
      ∀ resp, g.extractCodec.fromSlice bytes = some resp → IsExtract url resp) :
    Held g IsPage IsExtract streams (Function.update s key (some bytes)) := by
  have hcases : ∀ {key' bytes'}, Function.update s key (some bytes) key' = some bytes' →
      key' = key ∧ bytes' = bytes ∨ s key' = some bytes' := by
    intro key' bytes' hentry
    by_cases hkey : key' = key
    · rw [hkey, Function.update_self, Option.some.injEq] at hentry
      exact Or.inl ⟨hkey, hentry.symm⟩
    · rw [Function.update_of_ne hkey] at hentry
      exact Or.inr hentry
  refine ⟨?_, ?_⟩
  · intro req hreq bytes' resp hentry hresp
    rcases hcases hentry with ⟨hkey, rfl⟩ | hold
    · exact hpage req hreq hkey resp hresp
    · exact h.page req hreq bytes' resp hold hresp
  · intro url hurl bytes' resp hentry hresp
    rcases hcases hentry with ⟨hkey, rfl⟩ | hold
    · exact hextract url hurl hkey resp hresp
    · exact h.extract url hurl bytes' resp hold hresp

/-! ## One call at a time -/

section Calls

variable {ρ : Type} {post : Entries → ρ → Prop} {c : Config} {s : Entries}

theorem quiet_elapsedMs (t : Entries) (r : GatewayOp.Ans .elapsedMs) (t' : Entries)
    (h : (view g lib w c).answer t .elapsedMs r t') : t' = t := h

theorem quiet_record (metric : Metric) (t : Entries) (r : GatewayOp.Ans (.record metric))
    (t' : Entries) (h : (view g lib w c).answer t (.record metric) r t') : t' = t := h

/-- A lookup that decodes has found an entry. -/
theorem keeps_cacheGet {key : String} {k : Option (List UInt8) → Prog GatewayI ρ}
    (h : ∀ t r, Held g IsPage IsExtract streams t →
      (∀ bytes, r = some bytes → CacheSoundness.Undecodable g bytes ∨ t key = some bytes) →
      (contract g IsPage IsExtract streams).Keeps (view g lib w c) post (k r) t) :
    (contract g IsPage IsExtract streams).Keeps (view g lib w c) post
      (.call (I := GatewayI) (.cacheGet key) k) s := by
  intro t _ hheld r t' hans
  obtain ⟨rfl, hr⟩ := hans
  refine ⟨hheld, trivial, h t' r hheld ?_⟩
  rintro bytes rfl
  rcases hr with hnone | hentry | ⟨bytes', hsome, hbad⟩
  · exact absurd hnone (by simp)
  · exact Or.inr hentry.symm
  · rw [Option.some.inj hsome]
    exact Or.inl hbad

/-- The page of one request does not end up under the key of another: the hash separates
what is asked for. -/
theorem storeSearch_keeps (hhash : streams.InjOn g.hash) {req : SearchRequest}
    (hreq : Search.hashStream req ∈ streams) {resp : SearchResponse} (hpage : IsPage req resp)
    (ttlSeconds : UInt64) :
    (contract g IsPage IsExtract streams).Keeps (view g lib w c) (fun _ r => IsPage req r)
      (g.searchCodec.storeAndReturn (Search.cacheKey g.hash req) ttlSeconds resp) s := by
  refine Codec.storeAndReturn_keeps (fun _ _ h _ => h) ?_ hpage
  intro t bytes r t' (hheld : Held g IsPage IsExtract streams t) hnow hvec hans
  rcases hans with rfl | rfl
  · exact ⟨hheld, trivial⟩
  refine ⟨hheld.store ?_ ?_, trivial⟩
  · intro req' hreq' hkey resp' hresp'
    obtain rfl := Search.cacheKey_injOn hhash hreq' hreq hkey
    rw [g.searchCodec.fromSlice_toVec hvec] at hresp'
    rw [← Option.some.inj hresp']
    exact hnow
  · intro url _ hkey
    exact absurd hkey.symm (Search.cacheKey_ne_extractCacheKey g.hash req _)

/-- The same for extracts, where several URLs share an entry on purpose. -/
theorem storeExtract_keeps (hlasting : Lasting g lib w configs IsPage IsExtract)
    (hhash : streams.InjOn g.hash) {url : Url}
    (hurl : Search.strStream (Ssrf.normalizeExtractUrl url).asStr ∈ streams)
    {resp : ExtractResponse} (h : IsExtract url resp) (ttlSeconds : UInt64) :
    (contract g IsPage IsExtract streams).Keeps (view g lib w c) (fun _ r => IsExtract url r)
      (g.extractCodec.storeAndReturn
        (Search.extractCacheKey g.hash (Ssrf.normalizeExtractUrl url)) ttlSeconds resp) s := by
  refine Codec.storeAndReturn_keeps (fun _ _ h _ => h) ?_ h
  intro t bytes r t' (hheld : Held g IsPage IsExtract streams t) hnow hvec hans
  rcases hans with rfl | rfl
  · exact ⟨hheld, trivial⟩
  refine ⟨hheld.store ?_ ?_, trivial⟩
  · intro req _ hkey
    exact absurd hkey (Search.cacheKey_ne_extractCacheKey g.hash req _)
  · intro url' hurl' hkey resp' hresp'
    have hsame := Search.extractCacheKey_injOn hhash hurl' hurl hkey
    rw [g.extractCodec.fromSlice_toVec hvec] at hresp'
    rw [← Option.some.inj hresp']
    exact hlasting.extractShared url url' resp hsame hnow

/-! ## Searching and extracting -/

section Search

variable {reply : SearchResponse → ρ} {fail : SearchError → Option ρ}
  {metric : SearchError → Metric}

theorem finishSteps_keeps (hlasting : Lasting g lib w configs IsPage IsExtract)
    (hhash : streams.InjOn g.hash) (hc : c ∈ configs) {req : SearchRequest}
    (hreq : Search.hashStream req ∈ streams)
    (hreply : ∀ t resp, IsPage req resp → post t (reply resp)) {results : List SearchResult}
    (hfound : Found w req results) :
    (contract g IsPage IsExtract streams).Keeps (view g lib w c) post
      (finishSteps (configured g c) reply req results) s := by
  unfold CacheSoundness.finishSteps
  apply Contract.Keeps.quiet quiet_elapsedMs
  intro t ms _
  apply Contract.Keeps.quiet (quiet_record _)
  intro u _ _
  have hpage := hlasting.page c hc req results ms hfound
  exact (storeSearch_keeps hhash hreq hpage _).bind hreply

/-- **A search keeps the contract**, and replies with a page of its request. -/
theorem searchSteps_keeps (hlasting : Lasting g lib w configs IsPage IsExtract)
    (hhash : streams.InjOn g.hash) (hc : c ∈ configs) {req : SearchRequest}
    (hreq : Search.hashStream req ∈ streams)
    (hreply : ∀ t resp, IsPage req resp → post t (reply resp))
    (hfail : ∀ t e failed, fail e = some failed → post t failed) :
    (contract g IsPage IsExtract streams).Keeps (view g lib w c) post
      (searchSteps (configured g c) reply fail metric req) s := by
  unfold CacheSoundness.searchSteps
  apply keeps_cacheGet
  intro t r hheld hr
  cases hhit : r.bind (configured g c).searchCodec.fromSlice with
  | some response =>
      obtain ⟨bytes, rfl, hdecode⟩ := Option.bind_eq_some_iff.mp hhit
      apply Contract.Keeps.quiet quiet_elapsedMs
      intro u ms _
      rcases hr bytes rfl with hbad | hentry
      · exact absurd (hbad.1.symm.trans hdecode) (by simp)
      · apply hreply
        apply hlasting.pageAgain
        exact hheld.page req hreq bytes response hentry hdecode
  | none =>
      intro u _ hheld' result u' hans
      obtain ⟨rfl, a, ha, hresult⟩ := hans
      refine ⟨hheld', trivial, ?_⟩
      cases result with
      | ok results =>
          have hfound : Found w req results :=
            fun r hr => ⟨a, ha, results, hresult.symm, hr⟩
          exact finishSteps_keeps hlasting hhash hc hreq hreply hfound
      | error e =>
          apply Contract.Keeps.quiet (quiet_record _)
          intro v _ _
          cases hf : fail e with
          | some failed => exact hfail v e failed hf
          | none =>
              have hfound : Found w req [] := fun r hr => absurd hr List.not_mem_nil
              exact finishSteps_keeps hlasting hhash hc hreq hreply hfound

end Search

/-- **An extraction keeps the contract**, and returns an extract of its URL. -/
theorem runExtract_keeps (hlasting : Lasting g lib w configs IsPage IsExtract)
    (hhash : streams.InjOn g.hash) (hc : c ∈ configs) {url : Url}
    (hurl : Search.strStream (Ssrf.normalizeExtractUrl url).asStr ∈ streams) :
    (contract g IsPage IsExtract streams).Keeps (view g lib w c)
      (fun _ r => ∀ resp, r = .ok resp → IsExtract url resp)
      ((configured g c).runExtract url) s := by
  unfold Gateway.runExtract
  apply keeps_cacheGet
  intro t r hheld hr
  cases hhit : r.bind (configured g c).extractCodec.fromSlice with
  | some response =>
      obtain ⟨bytes, rfl, hdecode⟩ := Option.bind_eq_some_iff.mp hhit
      apply Contract.Keeps.quiet quiet_elapsedMs
      intro u ms _ resp hresp
      rcases hr bytes rfl with hbad | hentry
      · exact absurd (hbad.2.symm.trans hdecode) (by simp)
      · rw [← Except.ok.inj hresp]
        apply hlasting.extractAgain
        exact hheld.extract url hurl bytes response hentry hdecode
  | none =>
      intro u _ hheld' attempt u' hans
      obtain ⟨rfl, hattempt⟩ := hans
      refine ⟨hheld', trivial, ?_⟩
      rcases attempt with _ | (e | ⟨final, outcome⟩)
      · exact fun resp hresp => absurd hresp (by simp)
      · exact fun resp hresp => absurd hresp (by simp)
      · obtain ⟨net, hnet, n, hspan⟩ := hattempt.resolve_left (by simp)
        apply Contract.Keeps.quiet quiet_elapsedMs
        intro v ms _
        have hextract := hlasting.extract c hc url net hnet n final outcome ms
          (Attempt.finished.inj hspan).symm
        refine (storeExtract_keeps hlasting hhash hurl hextract _).bind ?_
        intro x resp hresp resp' hresp'
        rw [← Except.ok.inj hresp']
        exact hresp

end Calls

/-! ## Requests -/

/-- **Every request keeps the contract**, when the stream of what it asks for is among those
that the hash separates. -/
theorem serve_keeps (hlasting : Lasting g lib w configs IsPage IsExtract)
    (hhash : streams.InjOn g.hash) {c : Config} (hc : c ∈ configs) (r : Request)
    (hstream : ∀ ask, r.ask (configured g c) = some ask → ask.stream ∈ streams) (s : Entries) :
    (contract g IsPage IsExtract streams).Keeps (view g lib w c)
      (fun _ reply => Serves g IsPage IsExtract (r.ask (configured g c)) reply)
      (serve (configured g c) r) s := by
  rcases serve_cases (configured g c) r with ⟨reply, hserve, hrefuses⟩ | ⟨req, hask, hserve⟩
    | ⟨url, hask, hserve⟩ | ⟨id, req, hask, hserve⟩ | ⟨id, url, hask, hserve⟩
  · rw [hserve]
    exact serves_of_refuses hrefuses _
  · have hreq : Search.hashStream req ∈ streams := hstream (.search req) hask
    rw [hserve, hask, CacheSoundness.http_searchProgram_eq]
    have hsearch : (contract g IsPage IsExtract streams).Keeps (view g lib w c)
        (fun _ r => Serves g IsPage IsExtract (some (.search req)) (.httpSearch r))
        (searchSteps (configured g c) Except.ok
          (fun e => (HttpGateway.mapSearchError e).map Except.error) HttpGateway.metricOf req)
        s := by
      apply searchSteps_keeps hlasting hhash hc hreq
      · exact fun t resp h => ⟨req, rfl, h⟩
      · intro t e failed hf
        obtain ⟨appErr, _, rfl⟩ := Option.map_eq_some_iff.mp hf
        exact trivial
    exact hsearch.bind fun t r h => h
  · have hurl : Search.strStream (Ssrf.normalizeExtractUrl url).asStr ∈ streams :=
      hstream (.extract url) hask
    rw [hserve, hask]
    apply (runExtract_keeps hlasting hhash hc hurl).bind
    intro t r h
    cases r with
    | error e => exact trivial
    | ok resp => exact ⟨url, rfl, h resp rfl⟩
  · have hreq : Search.hashStream req ∈ streams := hstream (.search req) hask
    rw [hserve, hask, CacheSoundness.mcp_searchProgram_eq]
    have hsearch : (contract g IsPage IsExtract streams).Keeps (view g lib w c)
        (fun _ r => Serves g IsPage IsExtract (some (.search req)) (.mcpCall r))
        (searchSteps (configured g c) (McpGateway.toolCallResult g.searchCodec id)
          (CacheSoundness.mcpFail id) HttpGateway.metricOf req) s := by
      apply searchSteps_keeps hlasting hhash hc hreq
      · intro t resp h _
        refine Or.inl ⟨req, resp, rfl, h, ?_⟩
        rw [CacheSoundness.toolCallResult_id]
      · intro t e failed hf
        obtain ⟨err, rfl⟩ := CacheSoundness.mcpFail_eq_some hf
        exact serves_errorResponse _ id err
    exact hsearch.bind fun t r h => h
  · have hurl : Search.strStream (Ssrf.normalizeExtractUrl url).asStr ∈ streams :=
      hstream (.extract url) hask
    rw [hserve, hask]
    have hextract : (contract g IsPage IsExtract streams).Keeps (view g lib w c)
        (fun _ r => Serves g IsPage IsExtract (some (.extract url)) (.mcpCall r))
        (McpGateway.extractProgram (configured g c) id url) s := by
      unfold McpGateway.extractProgram
      apply (runExtract_keeps hlasting hhash hc hurl).bind
      intro t r h
      cases r with
      | error e => exact serves_errorResponse _ id (McpGateway.extractErrorObject e)
      | ok resp =>
          intro _
          refine Or.inr ⟨url, resp, rfl, h resp rfl, ?_⟩
          rw [CacheSoundness.toolCallResult_id]
          rfl
    exact hextract.bind fun t r h => h

end Contract

/-! ## The pool -/

section Pool

variable {g : Gateway} {lib : Extract.SpanLib} {w : World} {reqs : List (Config × Request)}

/-- The streams that the requests feed to the hasher. -/
def streamsOf (g : Gateway) (reqs : List (Config × Request)) : Set (List UInt8) :=
  { stream | ∃ p ∈ reqs, ∃ ask, p.2.ask (configured g p.1) = some ask ∧ ask.stream = stream }

/-- The configurations of the processes. -/
def configsOf (reqs : List (Config × Request)) : Set Config := { c | ∃ p ∈ reqs, p.1 = c }

/-- The response is made of what one of the processes has been delivered for a URL with the
same normal form. -/
def DeliveredFor (lib : Extract.SpanLib) (w : World) (configs : Set Config) (url : Url)
    (resp : ExtractResponse) : Prop :=
  ∃ c ∈ configs, ∃ net ∈ w.nets, ∃ (entry : Url) (n : ℕ) (final : String)
    (outcome : ExtractOutcome) (timingMs : UInt64),
    (Ssrf.normalizeExtractUrl entry).asStr = (Ssrf.normalizeExtractUrl url).asStr
      ∧ Delivered lib c ((Extract.extractSpan lib c entry).trace net n) final outcome
      ∧ CacheSoundness.ExtractResponse.Agrees resp
          (ExtractResponse.ofOutcome final outcome timingMs)

theorem lasting_pageFor {select : String → List DuckDuckGo.Container}
    (hreparses : DuckDuckGo.Reparses g.platform.parseUrl)
    (hengines : ∀ a ∈ w.engines, Scrapes g.platform select a) (configs : Set Config) :
    Lasting g lib w configs (PageFor w g.platform select configs) fun _ _ => True where
  page _ hc _ _ ms hfound := pageFor_finalizeResults hreparses hengines hc hfound ms
  pageAgain _ _ _ h := ⟨h.number, h.size, h.counted, h.titled, h.listed, h.filtered⟩
  extract _ _ _ _ _ _ _ _ _ _ := trivial
  extractAgain _ _ _ _ := trivial
  extractShared _ _ _ _ _ := trivial

theorem lasting_deliveredFor {configs : Set Config}
    (hproxy : ∀ c ∈ configs, c.proxy.extractUrl = none) :
    Lasting g lib w configs (fun _ _ => True) (DeliveredFor lib w configs) where
  page _ _ _ _ _ _ := trivial
  pageAgain _ _ _ _ := trivial
  extract c hc url net hnet n final outcome ms hspan :=
    ⟨c, hc, net, hnet, url, n, final, outcome, ms, rfl,
      delivered_of_span lib c (hproxy c hc) hspan, rfl⟩
  extractAgain _ _ _ h := h
  extractShared _ _ _ hsame h := by
    obtain ⟨c, hc, net, hnet, entry, n, final, outcome, ms, hentry, hrest⟩ := h
    exact ⟨c, hc, net, hnet, entry, n, final, outcome, ms, hentry.trans hsame.symm, hrest⟩

/-- **What lasts is served**, in every interleaving. -/
theorem serves_of_runs {IsPage : SearchRequest → SearchResponse → Prop}
    {IsExtract : Url → ExtractResponse → Prop}
    (hlasting : Lasting g lib w (configsOf reqs) IsPage IsExtract)
    (hhash : (streamsOf g reqs).InjOn g.hash) {Q : Pool ServerI Entries Reply}
    (hruns : Pool.Runs (sharedStore g lib w) ⟨fun _ => none, threads g reqs⟩ Q) {i : ℕ}
    {c : Config} {r : Request} {reply : Reply} (hr : reqs[i]? = some (c, r))
    (hreply : Q.threads[i]? = some (.ret reply)) :
    Serves g IsPage IsExtract (r.ask (configured g c)) reply := by
  have hinit : (contract g IsPage IsExtract (streamsOf g reqs)).Sound (sharedStore g lib w)
      (fun i _ reply => ∀ c r, reqs[i]? = some (c, r) →
        Serves g IsPage IsExtract (r.ask (configured g c)) reply)
      ⟨fun _ => none, threads g reqs⟩ := by
    refine ⟨⟨?_, ?_⟩, fun i p hp => ?_⟩
    · intro req _ bytes resp hentry
      exact absurd hentry (by simp)
    · intro url _ bytes resp hentry
      exact absurd hentry (by simp)
    · rw [threads, List.getElem?_map, Option.map_eq_some_iff] at hp
      obtain ⟨⟨c, r⟩, hr, rfl⟩ := hp
      have hmem : (c, r) ∈ reqs := List.mem_of_getElem? hr
      have hc : c ∈ configsOf reqs := ⟨(c, r), hmem, rfl⟩
      have hstream : ∀ ask, r.ask (configured g c) = some ask → ask.stream ∈ streamsOf g reqs :=
        fun ask hask => ⟨(c, r), hmem, ask, hask, rfl⟩
      apply Contract.Keeps.tagged
      apply (serve_keeps hlasting hhash hc r hstream _).mono
      intro s reply h c' r' hr'
      obtain ⟨rfl, rfl⟩ := Prod.mk.inj (Option.some.inj (hr.symm.trans hr'))
      exact h
  have hfinal := hinit.runs (fun i s t reply h _ => h)
    (fun s t (hs : Held g IsPage IsExtract (streamsOf g reqs) s) hst => ⟨hs.forgets hst, trivial⟩)
    hruns
  exact hfinal.2 i _ hreply c r hr

variable (g lib w reqs)

/-- **Pages are as asked for.**  In every interleaving of requests to processes with any
configurations over one cache, whatever DuckDuckGo replies and whenever, every successful
reply to a search, fresh or cached and whoever made it, is a page for that very search, so
long as the hash separates what is asked for. -/
theorem pages_as_asked (select : String → List DuckDuckGo.Container)
    (hreparses : DuckDuckGo.Reparses g.platform.parseUrl)
    (hengines : ∀ a ∈ w.engines, Scrapes g.platform select a)
    (hhash : (streamsOf g reqs).InjOn g.hash) {Q : Pool ServerI Entries Reply}
    (hruns : Pool.Runs (sharedStore g lib w) ⟨fun _ => none, threads g reqs⟩ Q) :
    ∀ (i : ℕ) (c : Config) (r : Request) (reply : Reply), reqs[i]? = some (c, r) →
      Q.threads[i]? = some (.ret reply) →
      Serves g (PageFor w g.platform select (configsOf reqs)) (fun _ _ => True)
        (r.ask (configured g c)) reply := by
  intro i c r reply hr hreply
  have hlasting : Lasting g lib w (configsOf reqs) _ _ :=
    lasting_pageFor hreparses hengines (configsOf reqs)
  exact serves_of_runs hlasting hhash hruns hr hreply

/-- **Extracts have been delivered.**  In every interleaving of requests to processes without
a proxy for extracts, whatever the resolvers and the servers answer, every successful extract,
fresh or cached and whoever made it, is made of an HTML page within the limit of its maker,
which the last of at most `1 + maxRedirectHops` requests has fetched, each of them to an
address of its own lookup, none of which is forbidden. -/
theorem extracts_delivered (hproxy : ∀ p ∈ reqs, p.1.proxy.extractUrl = none)
    (hhash : (streamsOf g reqs).InjOn g.hash) {Q : Pool ServerI Entries Reply}
    (hruns : Pool.Runs (sharedStore g lib w) ⟨fun _ => none, threads g reqs⟩ Q) :
    ∀ (i : ℕ) (c : Config) (r : Request) (reply : Reply), reqs[i]? = some (c, r) →
      Q.threads[i]? = some (.ret reply) →
      Serves g (fun _ _ => True) (DeliveredFor lib w (configsOf reqs))
        (r.ask (configured g c)) reply := by
  intro i c r reply hr hreply
  have hnone : ∀ c ∈ configsOf reqs, c.proxy.extractUrl = none := by
    rintro c ⟨p, hp, rfl⟩
    exact hproxy p hp
  exact serves_of_runs (lasting_deliveredFor hnone) hhash hruns hr hreply

end Pool

/-! ## A page and an extract -/

section Examples

open CacheLimits (limited)
open CacheSoundness (fnv1a fnv1a_separates goKey goSearch pageBytes rustAsk rustKey rustSearch
  serdeGateway)
open DuckDuckGo (Container rustParser rustLang redirectLink wrappedQuery)
open Opacity (exampleLib)

/-- The only result on the page. -/
def rustContainer : Container where
  title := some ⟨some ("//duckduckgo.com/l/?" ++ wrappedQuery [] ["rut=abc123"] rustLang.asStr),
    ["Rust"]⟩
  snippet := none

def rustResult : SearchResult := ⟨rustLang.asStr, "Rust", ""⟩

/-- DuckDuckGo, with one result for whatever it is asked. -/
def rustEngine : DuckDuckGo.Adapter where
  searchUrl := "https://html.duckduckgo.com/html/"
  send _ := .ok ⟨200, .ok ""⟩
  parseResults body := some (DuckDuckGo.parseResults rustParser (fun _ => [rustContainer]) body)
  showStatus _ := "200 OK"

theorem rustParser_redirect :
    rustParser (redirectLink (wrappedQuery [] ["rut=abc123"] rustLang.asStr)).asStr
      = .ok (redirectLink (wrappedQuery [] ["rut=abc123"] rustLang.asStr)) := by
  have hne : (redirectLink (wrappedQuery [] ["rut=abc123"] rustLang.asStr)).asStr
      ≠ rustLang.asStr := by decide +kernel
  rw [rustParser, if_neg hne, if_pos rfl]

theorem reparses_rustParser : DuckDuckGo.Reparses rustParser := by
  intro s v h
  unfold rustParser at h
  split_ifs at h
  · rw [← Except.ok.inj h]
    exact if_pos rfl
  · rw [← Except.ok.inj h]
    exact rustParser_redirect

theorem search_rustEngine (query : String) (page : UInt32) (language : Option String)
    (safeSearch : UInt8) :
    rustEngine.search query page language safeSearch = .ok [rustResult] := by
  have hlink : DuckDuckGo.extractUddgUrl rustParser
      ("//duckduckgo.com/l/?" ++ wrappedQuery [] ["rut=abc123"] rustLang.asStr)
        = some rustLang.asStr :=
    DuckDuckGo.extractUddgUrl_of_absolute (by decide +kernel) (Or.inr rfl) (if_pos rfl)
      (DuckDuckGo.absoluteHref_link _).1 rustParser_redirect
  have hparse : DuckDuckGo.parseResult rustParser rustContainer = some rustResult := by
    unfold DuckDuckGo.parseResult rustContainer
    simp only [Option.bind_some, hlink, Option.map_some]
    rfl
  have hpage : rustEngine.parseResults "" = some [rustResult] := by
    show some (List.filterMap _ [rustContainer]) = _
    rw [List.filterMap_cons, hparse]
    rfl
  show rustEngine.classify ⟨200, .ok ""⟩ = _
  unfold DuckDuckGo.Adapter.classify
  simp only [hpage]
  rfl

/-- A gateway that parses links. -/
def linkGateway : Gateway :=
  { serdeGateway with platform := { Platform.ascii with parseUrl := rustParser } }

/-- The page with the result, which was found in so many milliseconds. -/
def listedPage (timingMs : UInt64) : SearchResponse :=
  { results := [rustResult], totalResults := 1, page := 1, timingMs := timingMs, cached := false }

/-- Two searches, and one of them again in a process with smaller pages. -/
def searches : List (Config × Request) :=
  [(Config.default, rustSearch), (Config.default, goSearch), (limited 1, rustSearch)]

/-- What is cached after the first two. -/
def listedEntries : Entries :=
  Function.update (Function.update (fun _ => none) goKey (some (pageBytes (listedPage 9)))) rustKey
    (some (pageBytes (listedPage 7)))

/-- The first two are found upstream and stored, and the third one is found in the cache. -/
theorem runs_searches : Pool.Runs (sharedStore linkGateway exampleLib ⟨{rustEngine}, ∅⟩)
    ⟨fun _ => none, threads linkGateway searches⟩
    ⟨listedEntries,
      [.ret (.httpSearch (.ok (listedPage 7))), .ret (.httpSearch (.ok (listedPage 9))),
        .ret (.httpSearch (.ok { listedPage 7 with cached := true, timingMs := 0 }))]⟩ := by
  have hhit : (some (pageBytes (listedPage 7))).bind
      (configured linkGateway (limited 1)).searchCodec.fromSlice = some (listedPage 7) :=
    linkGateway.searchCodec.fromSlice_toVec rfl
  have hentry : listedEntries rustKey = some (pageBytes (listedPage 7)) := by
    rw [listedEntries, Function.update_self]
  have hfound : ∀ query, (sharedStore linkGateway exampleLib ⟨{rustEngine}, ∅⟩).answer
      (fun _ => none) (Config.default, .engineSearch query 1 none 0) (.ok [rustResult])
      (fun _ => none) := fun query => ⟨rfl, rustEngine, rfl, (search_rustEngine _ _ _ _).symm⟩
  refine .head (.call (I := ServerI) (i := 0) (o := (Config.default, GatewayOp.cacheGet _))
    (r := none) rfl ⟨rfl, Or.inl rfl⟩) ?_
  refine .head (.call (I := ServerI) (i := 1) (o := (Config.default, GatewayOp.cacheGet _))
    (r := none) rfl ⟨rfl, Or.inl rfl⟩) ?_
  refine .head (.call (I := ServerI) (i := 0) rfl (hfound "rust")) ?_
  refine .head (.call (I := ServerI) (i := 1) rfl (hfound "go")) ?_
  refine .head (.call (I := ServerI) (i := 0) (o := (Config.default, GatewayOp.elapsedMs))
    (r := (7 : UInt64)) rfl rfl) ?_
  refine .head (.call (I := ServerI) (i := 1) (o := (Config.default, GatewayOp.elapsedMs))
    (r := (9 : UInt64)) rfl rfl) ?_
  refine .head (.call (I := ServerI) (i := 0) (o := (Config.default, GatewayOp.record _)) (r := ())
    rfl rfl) ?_
  refine .head (.call (I := ServerI) (i := 1) (o := (Config.default, GatewayOp.record _)) (r := ())
    rfl rfl) ?_
  refine .head (.call (I := ServerI) (i := 1)
    (o := (Config.default, GatewayOp.cacheSet goKey (pageBytes (listedPage 9)) _)) (r := ()) rfl
    (Or.inr rfl)) ?_
  refine .head (.call (I := ServerI) (i := 0)
    (o := (Config.default, GatewayOp.cacheSet rustKey (pageBytes (listedPage 7)) _)) (r := ()) rfl
    (Or.inr rfl)) ?_
  refine .head (.call (I := ServerI) (i := 2) (o := (limited 1, GatewayOp.cacheGet rustKey))
    (r := some (pageBytes (listedPage 7))) rfl
    ⟨rfl, Or.inr (Or.inl hentry.symm)⟩) ?_
  refine .head (.call (I := ServerI) (i := 2) (o := (limited 1, GatewayOp.elapsedMs))
    (r := (0 : UInt64))
    (k := fun ms => .ret (.httpSearch (.ok { listedPage 7 with cached := true, timingMs := ms })))
    ?_ rfl) .refl
  refine congrArg some ?_
  dsimp only
  rw [hhit]
  rfl

/-- The search that is served from the cache. -/
theorem pages_as_asked_searches :
    Serves linkGateway (PageFor ⟨{rustEngine}, ∅⟩ linkGateway.platform (fun _ => [rustContainer])
        (configsOf searches))
      (fun _ _ => True) (some (.search rustAsk))
      (.httpSearch (.ok { listedPage 7 with cached := true, timingMs := 0 })) := by
  have hengines : ∀ a ∈ ({rustEngine} : Set DuckDuckGo.Adapter),
      Scrapes linkGateway.platform (fun _ => [rustContainer]) a := by
    rintro a rfl
    exact ⟨rfl, fun body => rfl⟩
  have hhash : (streamsOf linkGateway searches).InjOn linkGateway.hash := by
    refine fnv1a_separates.mono ?_
    rintro stream ⟨p, hp, ask, hask, rfl⟩
    simp only [searches, List.mem_cons, List.not_mem_nil, or_false] at hp
    rcases hp with rfl | rfl | rfl <;> obtain rfl := Option.some.inj hask
    · exact Or.inl rfl
    · exact Or.inr rfl
    · exact Or.inl rfl
  exact pages_as_asked linkGateway exampleLib ⟨{rustEngine}, ∅⟩ _ (fun _ => [rustContainer])
    reparses_rustParser hengines hhash runs_searches 2 (limited 1) rustSearch _ rfl rfl

/-- A network whose only page is the letter `a`. -/
def letterNet : Env Ssrf.NetI
  | _, .lookupHost _ port => .ok [⟨.v4 ⟨93, 184, 215, 14⟩, port⟩]
  | _, .parseProxy _ => none
  | _, .buildClient _ => none
  | _, .send _ _ _ => .ok ⟨200, none, some (RustStr.asBytes "text/html"), none, [.ok [0x61]]⟩

def pageUrl (host : String) : Url := ⟨"https", some ⟨"", none, some host, none⟩, "/", none, none⟩

def comUrl : Url := pageUrl "example.com"

def orgUrl : Url := pageUrl "example.org"

/-- A parser that knows two pages. -/
def pageParser (s : String) : Except String Url :=
  if s = comUrl.asStr then .ok comUrl
  else if s = orgUrl.asStr then .ok orgUrl
  else .error "relative URL without a base"

def pageGateway : Gateway :=
  { serdeGateway with platform := { Platform.ascii with parseUrl := pageParser } }

/-- The letter can be extracted from any of them. -/
theorem extractSpan_letterNet : ∃ outcome, ∀ host,
    (Extract.extractSpan exampleLib Config.default (pageUrl host)).result letterNet 0
      = .ok ((pageUrl host).asStr, outcome) := by
  obtain ⟨outcome, hout, -⟩ := Extract.extractFromHtml_eq exampleLib.html exampleLib.extractor
    (String.ofList (Utf8.decodeLossy [0x61])) (Extract.extractOptionsFromConfig Config.default)
    Config.default.extract
  refine ⟨outcome, fun host => ?_⟩
  have hreply : Extract.extractReply exampleLib Config.default
      ⟨200, none, some (RustStr.asBytes "text/html"), none, [.ok [0x61]]⟩ (pageUrl host)
      = .ok ((pageUrl host).asStr, outcome) := by
    have hbody : Fetch.readCappedBody exampleLib.displayBodyError
        ⟨200, none, some (RustStr.asBytes "text/html"), none, [.ok [0x61]]⟩
        Config.default.extract.maxRawBytes = .ok (String.ofList (Utf8.decodeLossy [0x61])) := rfl
    unfold Extract.extractReply
    rw [if_neg (by decide), if_neg (by decide), hbody]
    dsimp only
    rw [hout]
  rw [Extract.extractSpan, Ssrf.fetchExtractTarget, Ssrf.fetchLoop]
  exact hreply

/-- Two extracts, and one of them again. -/
def extracts : List (Config × Request) :=
  [(Config.default, .httpExtract comUrl.asStr), (Config.default, .httpExtract orgUrl.asStr),
    (limited 1, .httpExtract comUrl.asStr)]

def comKey : String := Search.extractCacheKey fnv1a comUrl

def orgKey : String := Search.extractCacheKey fnv1a orgUrl

/-- What is stored of an extract. -/
def extractBytes (resp : ExtractResponse) : List UInt8 :=
  RustStr.asBytes (String.ofList (JsonText.write (serdeJson .oneHalf) .compact resp.toJson 0))

/-- The first two are fetched and stored, and the third one is found in the cache. -/
theorem runs_extracts {outcome : ExtractOutcome} (hspan : ∀ host,
      (Extract.extractSpan exampleLib Config.default (pageUrl host)).result letterNet 0
        = .ok ((pageUrl host).asStr, outcome)) :
    Pool.Runs (sharedStore pageGateway exampleLib ⟨∅, {letterNet}⟩)
      ⟨fun _ => none, threads pageGateway extracts⟩
      ⟨Function.update (Function.update (fun _ => none) orgKey
          (some (extractBytes (.ofOutcome orgUrl.asStr outcome 9)))) comKey
          (some (extractBytes (.ofOutcome comUrl.asStr outcome 7))),
        [.ret (.httpExtract (.ok (.ofOutcome comUrl.asStr outcome 7))),
          .ret (.httpExtract (.ok (.ofOutcome orgUrl.asStr outcome 9))),
          .ret (.httpExtract (.ok
            { ExtractResponse.ofOutcome comUrl.asStr outcome 7 with
              cached := true, timingMs := 0 }))]⟩ := by
  have hhit : (some (extractBytes (.ofOutcome comUrl.asStr outcome 7))).bind
      (configured pageGateway (limited 1)).extractCodec.fromSlice
      = some (.ofOutcome comUrl.asStr outcome 7) :=
    pageGateway.extractCodec.fromSlice_toVec rfl
  have hfetched : ∀ host, (sharedStore pageGateway exampleLib ⟨∅, {letterNet}⟩).answer
      (fun _ => none) (Config.default, .extractAttempt (pageUrl host))
      (.finished (.ok ((pageUrl host).asStr, outcome))) (fun _ => none) := fun host =>
    ⟨rfl, Or.inr ⟨letterNet, rfl, 0, congrArg _ (hspan host).symm⟩⟩
  refine .head (.call (I := ServerI) (i := 0) (o := (Config.default, GatewayOp.cacheGet comKey))
    (r := none) rfl ⟨rfl, Or.inl rfl⟩) ?_
  refine .head (.call (I := ServerI) (i := 1) (o := (Config.default, GatewayOp.cacheGet orgKey))
    (r := none) rfl ⟨rfl, Or.inl rfl⟩) ?_
  refine .head (.call (I := ServerI) (i := 0) rfl (hfetched "example.com")) ?_
  refine .head (.call (I := ServerI) (i := 1) rfl (hfetched "example.org")) ?_
  refine .head (.call (I := ServerI) (i := 0) (o := (Config.default, GatewayOp.elapsedMs))
    (r := (7 : UInt64)) rfl rfl) ?_
  refine .head (.call (I := ServerI) (i := 1) (o := (Config.default, GatewayOp.elapsedMs))
    (r := (9 : UInt64)) rfl rfl) ?_
  refine .head (.call (I := ServerI) (i := 1)
    (o := (Config.default, GatewayOp.cacheSet orgKey
      (extractBytes (.ofOutcome orgUrl.asStr outcome 9)) _)) (r := ()) rfl (Or.inr rfl)) ?_
  refine .head (.call (I := ServerI) (i := 0)
    (o := (Config.default, GatewayOp.cacheSet comKey
      (extractBytes (.ofOutcome comUrl.asStr outcome 7)) _)) (r := ()) rfl (Or.inr rfl)) ?_
  have hentry : Function.update (Function.update (fun _ => none) orgKey
      (some (extractBytes (.ofOutcome orgUrl.asStr outcome 9)))) comKey
      (some (extractBytes (.ofOutcome comUrl.asStr outcome 7))) comKey
      = some (extractBytes (.ofOutcome comUrl.asStr outcome 7)) := by
    rw [Function.update_self]
  refine .head (.call (I := ServerI) (i := 2) (o := (limited 1, GatewayOp.cacheGet comKey))
    (r := some (extractBytes (.ofOutcome comUrl.asStr outcome 7))) rfl
    ⟨rfl, Or.inr (Or.inl hentry.symm)⟩) ?_
  refine .head (.call (I := ServerI) (i := 2) (o := (limited 1, GatewayOp.elapsedMs))
    (r := (0 : UInt64))
    (k := fun ms => .ret (.httpExtract (.ok
      { ExtractResponse.ofOutcome comUrl.asStr outcome 7 with cached := true, timingMs := ms })))
    ?_ rfl) .refl
  refine congrArg some ?_
  dsimp only
  rw [hhit]
  rfl

/-- The extract that is served from the cache. -/
theorem extracts_delivered_extracts : ∃ resp, resp.cached = true
    ∧ Serves pageGateway (fun _ _ => True)
      (DeliveredFor exampleLib ⟨∅, {letterNet}⟩ (configsOf extracts))
      (some (.extract comUrl)) (.httpExtract (.ok resp)) := by
  have hproxy : ∀ p ∈ extracts, p.1.proxy.extractUrl = none := by
    intro p hp
    simp only [extracts, List.mem_cons, List.not_mem_nil, or_false] at hp
    rcases hp with rfl | rfl | rfl <;> rfl
  have hseparates : ({Search.strStream comUrl.asStr, Search.strStream orgUrl.asStr} :
      Set (List UInt8)).InjOn fnv1a :=
    Set.injOn_pair.mpr fun hsame => absurd hsame (by decide)
  have hhash : (streamsOf pageGateway extracts).InjOn pageGateway.hash := by
    refine hseparates.mono ?_
    rintro stream ⟨p, hp, ask, hask, rfl⟩
    simp only [extracts, List.mem_cons, List.not_mem_nil, or_false] at hp
    rcases hp with rfl | rfl | rfl <;> obtain rfl := Option.some.inj hask
    · exact Or.inl rfl
    · exact Or.inr rfl
    · exact Or.inl rfl
  obtain ⟨outcome, hspan⟩ := extractSpan_letterNet
  exact ⟨_, rfl, extracts_delivered pageGateway exampleLib ⟨∅, {letterNet}⟩ extracts hproxy hhash
    (runs_extracts hspan) 2 (limited 1) (.httpExtract comUrl.asStr) _ rfl rfl⟩

end Examples

end Provenance
