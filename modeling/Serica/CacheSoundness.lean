/-
# One cache, two gateways

The requests of both gateways run as a pool of programs over one shared cache.  The
cache forgets at any time, may fail to store, and may return bytes that nobody can
decode; otherwise it returns what was last stored under a key.  Beside the cache the
store logs what the engine replied and which extractions finished.

`served_sound`: in every interleaving, what a request is served is made of a reply to
the same request, or of a finished extraction of the same URL.  The invariant
(`Intact`) says this of every cache entry; each handler is shown once to keep it
(`searchSteps_keeps`, `runExtract_keeps`), and the rely-guarantee rule does the rest.

A request that is dropped half-way is one that takes no further steps.
-/
import Serica.HttpGateway
import Serica.McpGateway
import Serica.ResponseJson

namespace CacheSoundness

/-! ## The shared store -/

/-- The cache, the engine's replies and the finished extractions. -/
structure Shared where
  entries : String → Option (List UInt8)
  replies : List (SearchRequest × Except SearchError (List SearchResult))
  extractions : List (Url × String × ExtractOutcome)

/-- An empty cache, before any reply and any extraction. -/
def Shared.empty : Shared := ⟨fun _ => none, [], []⟩

variable (g : Gateway)

/-- Bytes that are no response of either kind. -/
def Undecodable (bytes : List UInt8) : Prop :=
  g.searchCodec.fromSlice bytes = none ∧ g.extractCodec.fromSlice bytes = none

/-- The store after an attempt: a finished extraction is logged. -/
def Shared.logAttempt (s : Shared) (url : Url) : Attempt → Shared
  | .finished (.ok (final, outcome)) =>
      { s with extractions := (url, final, outcome) :: s.extractions }
  | _ => s

/-- The answers that a call can get, and the store that it leaves.  Storing may fail. -/
def answer (s : Shared) (o : GatewayOp) (r : GatewayOp.Ans o) (s' : Shared) : Prop :=
  match o with
  | .cacheGet key =>
      s' = s ∧ (r = none ∨ r = s.entries key ∨ ∃ bytes, r = some bytes ∧ Undecodable g bytes)
  | .cacheSet key bytes _ =>
      s' = s ∨ s' = { s with entries := fun k => if k = key then some bytes else s.entries k }
  | .elapsedMs => s' = s
  | .engineSearch query page language safeSearch =>
      s' = { s with replies := (⟨query, page, safeSearch, language⟩, r) :: s.replies }
  | .record _ => s' = s
  | .extractAttempt url => s' = s.logAttempt url r

/-- The cache may forget any entries. -/
def forgets (s s' : Shared) : Prop :=
  s'.replies = s.replies ∧ s'.extractions = s.extractions
    ∧ ∀ key, s'.entries key = none ∨ s'.entries key = s.entries key

def sharedStore : Store GatewayI Shared := ⟨answer g, forgets⟩

/-! ## What may be served -/

/-- Equal except for `timingMs` and `cached`. -/
def SearchResponse.Agrees (r r' : SearchResponse) : Prop :=
  { r with timingMs := r'.timingMs, cached := r'.cached } = r'

/-- Equal except for `timingMs` and `cached`. -/
def ExtractResponse.Agrees (r r' : ExtractResponse) : Prop :=
  { r with timingMs := r'.timingMs, cached := r'.cached } = r'

/-- The response is the finalized reply of the engine to this very request, or the
finalized empty page. -/
def FromEngine (s : Shared) (req : SearchRequest) (resp : SearchResponse) : Prop :=
  ∃ results timingMs,
    ((req, .ok results) ∈ s.replies ∨ results = [] ∧ (req, .error .parseEmpty) ∈ s.replies)
      ∧ SearchResponse.Agrees resp (Search.finalizeResults g.platform results req
          g.config.search.maxResultsPerPage timingMs)

/-- The response is that of a finished extraction of the same normalized URL. -/
def FromExtraction (s : Shared) (url : Url) (resp : ExtractResponse) : Prop :=
  ∃ url' final outcome timingMs, (url', final, outcome) ∈ s.extractions
    ∧ (Ssrf.normalizeExtractUrl url').asStr = (Ssrf.normalizeExtractUrl url).asStr
    ∧ ExtractResponse.Agrees resp (ExtractResponse.ofOutcome final outcome timingMs)

/-- A store reached later: the logs have grown. -/
structure Later (s t : Shared) : Prop where
  replies : s.replies ⊆ t.replies
  extractions : s.extractions ⊆ t.extractions

theorem FromEngine.later {s t : Shared} (hst : Later s t) {req : SearchRequest}
    {resp : SearchResponse} (h : FromEngine g s req resp) : FromEngine g t req resp := by
  obtain ⟨results, timingMs, hreply, hagrees⟩ := h
  exact ⟨results, timingMs,
    hreply.imp (fun h => hst.replies h) (fun h => ⟨h.1, hst.replies h.2⟩), hagrees⟩

theorem FromExtraction.later {s t : Shared} (hst : Later s t) {url : Url}
    {resp : ExtractResponse} (h : FromExtraction s url resp) : FromExtraction t url resp := by
  obtain ⟨url', final, outcome, timingMs, hmem, hrest⟩ := h
  exact ⟨url', final, outcome, timingMs, hst.extractions hmem, hrest⟩

/-! ## The contract -/

variable (streams : Set (List UInt8))

/-- **The invariant**: what decodes under a key is what the requests with that key may
be served. -/
structure Intact (s : Shared) : Prop where
  search : ∀ req bytes resp, Search.hashStream req ∈ streams →
    s.entries (Search.cacheKey g.hash req) = some bytes →
    g.searchCodec.fromSlice bytes = some resp → FromEngine g s req resp
  extract : ∀ url bytes resp, Search.strStream (Ssrf.normalizeExtractUrl url).asStr ∈ streams →
    s.entries (Search.extractCacheKey g.hash (Ssrf.normalizeExtractUrl url)) = some bytes →
    g.extractCodec.fromSlice bytes = some resp → FromExtraction s url resp

theorem Later.refl (s : Shared) : Later s s := ⟨List.Subset.refl _, List.Subset.refl _⟩

theorem Later.trans {s t u : Shared} (h : Later s t) (h' : Later t u) : Later s u :=
  ⟨fun _ hx => h'.replies (h.replies hx), fun _ hx => h'.extractions (h.extractions hx)⟩

def contract : Contract Shared := ⟨Intact g streams, Later, Later.refl, Later.trans⟩

variable {g} {streams}

/-- Logging keeps the cache intact. -/
theorem Intact.later {s t : Shared} (h : Intact g streams s) (hst : Later s t)
    (hentries : t.entries = s.entries) : Intact g streams t where
  search req bytes resp hreq hbytes hresp := by
    rw [hentries] at hbytes
    exact (h.search req bytes resp hreq hbytes hresp).later g hst
  extract url bytes resp hurl hbytes hresp := by
    rw [hentries] at hbytes
    exact (h.extract url bytes resp hurl hbytes hresp).later hst

/-- Forgetting keeps the cache intact. -/
theorem Intact.forgets {s t : Shared} (h : Intact g streams s) (hst : forgets s t) :
    Intact g streams t ∧ Later s t := by
  obtain ⟨hreplies, hextractions, hentries⟩ := hst
  have hlater : Later s t := by
    refine ⟨?_, ?_⟩
    · rw [hreplies]
      exact List.Subset.refl _
    · rw [hextractions]
      exact List.Subset.refl _
  have hold : ∀ {key bytes}, t.entries key = some bytes → s.entries key = some bytes := by
    intro key bytes hbytes
    -- What is still there was there before.
    rcases hentries key with hnone | hsame
    · rw [hnone] at hbytes
      exact absurd hbytes (by simp)
    · rwa [← hsame]
  exact ⟨⟨fun req bytes resp hreq hbytes hresp =>
      (h.search req bytes resp hreq (hold hbytes) hresp).later g hlater,
    fun url bytes resp hurl hbytes hresp =>
      (h.extract url bytes resp hurl (hold hbytes) hresp).later hlater⟩, hlater⟩

/-! ## One call at a time -/

section Calls

variable {ρ : Type} {post : Shared → ρ → Prop} {s : Shared}

/-- A call that leaves the store as it is. -/
theorem keeps_quiet {o : GatewayOp} (hquiet : ∀ s r s', answer g s o r s' → s' = s)
    {k : GatewayOp.Ans o → Prog GatewayI ρ}
    (h : ∀ t r, Later s t → (contract g streams).Keeps (sharedStore g) post (k r) t) :
    (contract g streams).Keeps (sharedStore g) post (.call o k) s :=
  Contract.Keeps.quiet hquiet h

/-- A lookup: what it returns is nothing, undecodable, or under the key. -/
theorem keeps_cacheGet {key : String} {k : Option (List UInt8) → Prog GatewayI ρ}
    (h : ∀ t r, Later s t → Intact g streams t →
      (r = none ∨ r = t.entries key ∨ ∃ bytes, r = some bytes ∧ Undecodable g bytes) →
      (contract g streams).Keeps (sharedStore g) post (k r) t) :
    (contract g streams).Keeps (sharedStore g) post
      (.call (I := GatewayI) (.cacheGet key) k) s := by
  intro t hst hintact r t' hans
  obtain ⟨rfl, hr⟩ := hans
  exact ⟨hintact, Later.refl t', h t' r hst hintact hr⟩

theorem quiet_elapsedMs (s : Shared) (r : GatewayOp.Ans .elapsedMs) (s' : Shared)
    (h : answer g s .elapsedMs r s') : s' = s := h

theorem quiet_record (metric : Metric) (s : Shared) (r : GatewayOp.Ans (.record metric))
    (s' : Shared) (h : answer g s (.record metric) r s') : s' = s := h

/-- What a lookup returns and somebody can decode is what the store holds. -/
theorem entry_of_decodable {key : String} {bytes : List UInt8}
    (h : some bytes = none ∨ some bytes = s.entries key
      ∨ ∃ bytes', some bytes = some bytes' ∧ Undecodable g bytes')
    (hgood : ¬ Undecodable g bytes) : s.entries key = some bytes := by
  rcases h with h | h | ⟨bytes', h, hbad⟩
  · exact absurd h (by simp)
  · exact h.symm
  · rw [← Option.some.inj h] at hbad
    exact absurd hbad hgood

end Calls

/-- Timing and the cache flag do not count. -/
theorem FromEngine.retimed {s : Shared} {req : SearchRequest} {resp : SearchResponse}
    (h : FromEngine g s req resp) (ms : UInt64) :
    FromEngine g s req { resp with cached := true, timingMs := ms } := by
  obtain ⟨results, timingMs, hreply, hagrees⟩ := h
  exact ⟨results, timingMs, hreply, hagrees⟩

theorem FromExtraction.retimed {s : Shared} {url : Url} {resp : ExtractResponse}
    (h : FromExtraction s url resp) (ms : UInt64) :
    FromExtraction s url { resp with cached := true, timingMs := ms } := by
  obtain ⟨url', final, outcome, timingMs, hmem, hurl, hagrees⟩ := h
  exact ⟨url', final, outcome, timingMs, hmem, hurl, hagrees⟩

/-! ## Storing -/

variable (hhash : streams.InjOn g.hash)

include hhash in
/-- A search response goes under the key of its request, and only there. -/
theorem storeSearch_keeps {req : SearchRequest} (hreq : Search.hashStream req ∈ streams)
    {resp : SearchResponse} {s : Shared} (h : FromEngine g s req resp) (ttlSeconds : UInt64) :
    (contract g streams).Keeps (sharedStore g) (fun t r => FromEngine g t req r)
      (g.searchCodec.storeAndReturn (Search.cacheKey g.hash req) ttlSeconds resp) s := by
  refine Codec.storeAndReturn_keeps (fun t u h hst => h.later g hst) ?_ h
  intro t bytes r t' (hintact : Intact g streams t) hnow hvec hans
  rcases hans with rfl | rfl
  · exact ⟨hintact, Later.refl t'⟩
  refine ⟨⟨?_, ?_⟩, ⟨List.Subset.refl _, List.Subset.refl _⟩⟩
  · intro req' bytes' resp' hreq' hbytes hresp
    dsimp only at hbytes
    split_ifs at hbytes with hkey
    · -- The same key is the same request, and the bytes decode to the response.
      obtain rfl := Search.cacheKey_injOn hhash hreq' hreq hkey
      obtain rfl := Option.some.inj hbytes
      rw [g.searchCodec.fromSlice_toVec hvec] at hresp
      obtain rfl := Option.some.inj hresp
      exact hnow
    · exact hintact.search req' bytes' resp' hreq' hbytes hresp
  · intro url bytes' resp' hurl hbytes hresp
    dsimp only at hbytes
    -- Extract keys have a prefix of their own.
    rw [if_neg (Search.cacheKey_ne_extractCacheKey g.hash req _).symm] at hbytes
    exact hintact.extract url bytes' resp' hurl hbytes hresp

include hhash in
/-- An extract response goes under the key of its normalized URL, and only there. -/
theorem storeExtract_keeps {url : Url}
    (hurl : Search.strStream (Ssrf.normalizeExtractUrl url).asStr ∈ streams)
    {resp : ExtractResponse} {s : Shared} (h : FromExtraction s url resp) (ttlSeconds : UInt64) :
    (contract g streams).Keeps (sharedStore g) (fun t r => FromExtraction t url r)
      (g.extractCodec.storeAndReturn
        (Search.extractCacheKey g.hash (Ssrf.normalizeExtractUrl url)) ttlSeconds resp) s := by
  refine Codec.storeAndReturn_keeps (fun t u h hst => h.later hst) ?_ h
  intro t bytes r t' (hintact : Intact g streams t) hnow hvec hans
  rcases hans with rfl | rfl
  · exact ⟨hintact, Later.refl t'⟩
  refine ⟨⟨?_, ?_⟩, ⟨List.Subset.refl _, List.Subset.refl _⟩⟩
  · intro req bytes' resp' hreq hbytes hresp
    dsimp only at hbytes
    rw [if_neg (Search.cacheKey_ne_extractCacheKey g.hash req _)] at hbytes
    exact hintact.search req bytes' resp' hreq hbytes hresp
  · intro url' bytes' resp' hurl' hbytes hresp
    dsimp only at hbytes
    split_ifs at hbytes with hkey
    · -- The same key is the same normalized URL, though perhaps another entry URL.
      have hsame := Search.extractCacheKey_injOn hhash hurl' hurl hkey
      obtain rfl := Option.some.inj hbytes
      rw [g.extractCodec.fromSlice_toVec hvec] at hresp
      obtain rfl := Option.some.inj hresp
      obtain ⟨v, final, outcome, timingMs, hmem, hv, hagrees⟩ := hnow
      exact ⟨v, final, outcome, timingMs, hmem, hv.trans hsame.symm, hagrees⟩
    · exact hintact.extract url' bytes' resp' hurl' hbytes hresp

/-! ## Searching -/

section Steps

variable (g) {ρ : Type} (reply : SearchResponse → ρ) (fail : SearchError → Option ρ)
  (metric : SearchError → Metric)

/-- The end of a search, in either gateway. -/
def finishSteps (req : SearchRequest) (results : List SearchResult) : Prog GatewayI ρ :=
  .call (I := GatewayI) .elapsedMs fun ms =>
    .call (I := GatewayI) (.record (.search ms)) fun _ =>
      (g.searchCodec.storeAndReturn (Search.cacheKey g.hash req) g.config.cache.ttlSeconds
        (Search.finalizeResults g.platform results req g.config.search.maxResultsPerPage
          ms)).bind fun response => .ret (reply response)

/-- A search in either gateway: they differ in how they reply, in what they count, and
in the errors they make of the engine's. -/
def searchSteps (req : SearchRequest) : Prog GatewayI ρ :=
  .call (I := GatewayI) (.cacheGet (Search.cacheKey g.hash req)) fun cachedBytes =>
    match cachedBytes.bind g.searchCodec.fromSlice with
    | some response =>
        .call (I := GatewayI) .elapsedMs fun ms =>
          .ret (reply { response with cached := true, timingMs := ms })
    | none =>
        .call (I := GatewayI) (.engineSearch req.query req.page req.language req.safeSearch) fun
          | .ok results => finishSteps g reply req results
          | .error e =>
              .call (I := GatewayI) (.record (metric e)) fun _ =>
                match fail e with
                | some failed => .ret failed
                | none => finishSteps g reply req []

end Steps

theorem http_searchProgram_eq (g : Gateway) (req : SearchRequest) :
    HttpGateway.searchProgram g req
      = searchSteps g Except.ok (fun e => (HttpGateway.mapSearchError e).map Except.error)
          HttpGateway.metricOf req := by
  unfold HttpGateway.searchProgram searchSteps
  congr 1
  funext cachedBytes
  cases cachedBytes.bind g.searchCodec.fromSlice with
  | some response => rfl
  | none =>
      dsimp only
      congr 1
      funext result
      cases result with
      | ok results => rfl
      | error e => cases e <;> rfl

/-- The MCP gateway's answer to an engine error. -/
def mcpFail (id : Json) : SearchError → Option JsonRpcResponse
  | .parseEmpty => none
  | .blocked => some (McpGateway.errorResponse id
      (McpGateway.jsonrpcError (-32000) "Search engine is currently blocked upstream"))
  | .challenged => some (McpGateway.errorResponse id (McpGateway.jsonrpcError (-32000)
      "Search engine is presenting an anti-bot challenge upstream"))
  | .parsePanicked => some (McpGateway.errorResponse id
      (McpGateway.jsonrpcError (-32603) SearchError.parsePanicked.display))
  | e => some (McpGateway.errorResponse id (McpGateway.jsonrpcError (-32000) e.display))

theorem mcp_searchProgram_eq (g : Gateway) (id : Json) (req : SearchRequest) :
    McpGateway.searchProgram g id req
      = searchSteps g (McpGateway.toolCallResult g.searchCodec id) (mcpFail id)
          HttpGateway.metricOf req := by
  unfold McpGateway.searchProgram searchSteps
  congr 1
  funext cachedBytes
  cases cachedBytes.bind g.searchCodec.fromSlice with
  | some response => rfl
  | none =>
      dsimp only
      congr 1
      funext result
      cases result with
      | ok results => rfl
      | error e => cases e <;> rfl

section SearchKeeps

variable {ρ : Type} {reply : SearchResponse → ρ} {fail : SearchError → Option ρ}
  {metric : SearchError → Metric} {post : Shared → ρ → Prop} {req : SearchRequest}

include hhash in
theorem finishSteps_keeps (hreq : Search.hashStream req ∈ streams)
    (hreply : ∀ t resp, FromEngine g t req resp → post t (reply resp))
    {results : List SearchResult} {s : Shared}
    (hresults : (req, .ok results) ∈ s.replies
      ∨ results = [] ∧ (req, .error .parseEmpty) ∈ s.replies) :
    (contract g streams).Keeps (sharedStore g) post (finishSteps g reply req results) s := by
  unfold finishSteps
  apply keeps_quiet quiet_elapsedMs
  intro t ms hst
  apply keeps_quiet (quiet_record _)
  intro u _ htu
  have hsu : Later s u := hst.trans htu
  have hfrom : FromEngine g u req (Search.finalizeResults g.platform results req
      g.config.search.maxResultsPerPage ms) :=
    ⟨results, ms, hresults.imp (fun h => hsu.replies h) (fun h => ⟨h.1, hsu.replies h.2⟩), rfl⟩
  exact (storeSearch_keeps hhash hreq hfrom _).bind hreply

include hhash in
/-- **A search keeps the contract**, and replies with what the request may be served. -/
theorem searchSteps_keeps (hreq : Search.hashStream req ∈ streams)
    (hreply : ∀ t resp, FromEngine g t req resp → post t (reply resp))
    (hfail : ∀ t e failed, fail e = some failed → post t failed)
    (hempty : ∀ e, fail e = none → e = .parseEmpty) (s : Shared) :
    (contract g streams).Keeps (sharedStore g) post (searchSteps g reply fail metric req) s := by
  unfold searchSteps
  apply keeps_cacheGet
  intro t r _ hintact hr
  cases hhit : r.bind g.searchCodec.fromSlice with
  | some response =>
      -- A hit decodes, so it is what the store holds under the key.
      obtain ⟨bytes, rfl, hdecode⟩ := Option.bind_eq_some_iff.mp hhit
      have hentry := entry_of_decodable hr fun hbad => by
        rw [hbad.1] at hdecode
        exact absurd hdecode (by simp)
      have hfrom := hintact.search req bytes response hreq hentry hdecode
      apply keeps_quiet quiet_elapsedMs
      intro u ms htu
      exact hreply u _ ((hfrom.later g htu).retimed ms)
  | none =>
      -- The reply is logged as the engine gives it, before anything is stored.
      intro u _ hintact' result u' hans
      obtain rfl : u' = _ := hans
      have hgrown : Later u { u with replies := (req, result) :: u.replies } :=
        ⟨List.subset_cons_self _ _, List.Subset.refl _⟩
      refine ⟨hintact'.later hgrown rfl, hgrown, ?_⟩
      cases result with
      | ok results => exact finishSteps_keeps hhash hreq hreply (Or.inl List.mem_cons_self)
      | error e =>
          apply keeps_quiet (quiet_record _)
          intro v _ huv
          cases hf : fail e with
          | some failed => exact hfail v e failed hf
          | none =>
              obtain rfl := hempty e hf
              exact finishSteps_keeps hhash hreq hreply
                (Or.inr ⟨rfl, huv.replies List.mem_cons_self⟩)

end SearchKeeps

/-! ## Extracting -/

include hhash in
/-- **An extraction keeps the contract**, and returns what its URL may be served. -/
theorem runExtract_keeps {url : Url}
    (hurl : Search.strStream (Ssrf.normalizeExtractUrl url).asStr ∈ streams) (s : Shared) :
    (contract g streams).Keeps (sharedStore g)
      (fun t r => ∀ resp, r = .ok resp → FromExtraction t url resp) (g.runExtract url) s := by
  unfold Gateway.runExtract
  apply keeps_cacheGet
  intro t r _ hintact hr
  cases hhit : r.bind g.extractCodec.fromSlice with
  | some response =>
      obtain ⟨bytes, rfl, hdecode⟩ := Option.bind_eq_some_iff.mp hhit
      have hentry := entry_of_decodable hr fun hbad => by
        rw [hbad.2] at hdecode
        exact absurd hdecode (by simp)
      have hfrom := hintact.extract url bytes response hurl hentry hdecode
      apply keeps_quiet quiet_elapsedMs
      intro u ms htu resp hresp
      rw [← Except.ok.inj hresp]
      exact (hfrom.later htu).retimed ms
  | none =>
      intro u _ hintact' attempt u' hans
      obtain rfl : u' = u.logAttempt url attempt := hans
      -- Only an attempt that finished well is logged, and only its response is returned.
      rcases attempt with _ | (e | ⟨final, outcome⟩)
      · exact ⟨hintact', Later.refl u, fun resp hresp => absurd hresp (by simp)⟩
      · exact ⟨hintact', Later.refl u, fun resp hresp => absurd hresp (by simp)⟩
      · have hgrown : Later u (u.logAttempt url (.finished (.ok (final, outcome)))) :=
          ⟨List.Subset.refl _, List.subset_cons_self _ _⟩
        refine ⟨hintact'.later hgrown rfl, hgrown, ?_⟩
        apply keeps_quiet quiet_elapsedMs
        intro v ms hv
        have hfrom : FromExtraction v url (ExtractResponse.ofOutcome final outcome ms) :=
          ⟨url, final, outcome, ms, hv.extractions List.mem_cons_self, rfl, rfl⟩
        refine (storeExtract_keeps hhash hurl hfrom _).bind ?_
        intro w resp hresp resp' hresp'
        rwa [← Except.ok.inj hresp']

/-! ## Requests -/

/-- A request of either gateway. -/
inductive Request
  | httpSearch (params : SearchParams)
  | httpExtract (url : String)
  | mcpCall (id params : Json)

inductive Reply
  | httpSearch (result : Except AppError SearchResponse)
  | httpExtract (result : Except AppError ExtractResponse)
  | mcpCall (response : JsonRpcResponse)

/-- How a request is served. -/
def serve (g : Gateway) : Request → Prog GatewayI Reply
  | .httpSearch params => (HttpGateway.searchHandler g params).bind fun r => .ret (.httpSearch r)
  | .httpExtract url => (HttpGateway.extractHandler g url).bind fun r => .ret (.httpExtract r)
  | .mcpCall id params => (McpGateway.handleToolsCall g id params).bind fun r => .ret (.mcpCall r)

/-- What a request asks for. -/
inductive Ask
  | search (req : SearchRequest)
  | extract (url : Url)

/-- What a request asks for, when it is valid. -/
def Request.ask (g : Gateway) : Request → Option Ask
  | .httpSearch params =>
      match HttpGateway.tryFromParams g.platform params g.config.search.safeSearchDefault with
      | .ok req => some (.search req)
      | .error _ => none
  | .httpExtract url =>
      if RustStr.trim url = "" then none
      else
        match g.platform.parseUrl (RustStr.trim url) with
        | .ok parsed => some (.extract parsed)
        | .error _ => none
  | .mcpCall _ params =>
      match params.get "arguments" with
      | none => none
      | some args =>
          let name := ((params.get "name").bind Json.asStr).getD ""
          if name = "serica_search" then
            match McpGateway.searchRequestOfArguments args with
            | .ok req => some (.search req)
            | .error _ => none
          else if name = "serica_extract" then
            match McpGateway.argUrl g args with
            | .ok parsed => some (.extract parsed)
            | .error _ => none
          else none

/-- The reply is an error. -/
def Reply.Refuses : Reply → Prop
  | .httpSearch result => ∃ e, result = .error e
  | .httpExtract result => ∃ e, result = .error e
  | .mcpCall response => ∃ id e, response = McpGateway.errorResponse id e

/-- **How a request is served**: it is refused at once, or it is a search or an
extraction of what it asks for, over HTTP or over MCP. -/
theorem serve_cases (g : Gateway) (r : Request) :
    (∃ reply, serve g r = .ret reply ∧ reply.Refuses)
      ∨ (∃ req, r.ask g = some (.search req) ∧ serve g r
          = (HttpGateway.searchProgram g req).bind fun x => .ret (.httpSearch x))
      ∨ (∃ url, r.ask g = some (.extract url) ∧ serve g r
          = (g.runExtract url).bind fun x => .ret (.httpExtract x))
      ∨ (∃ id req, r.ask g = some (.search req) ∧ serve g r
          = (McpGateway.searchProgram g id req).bind fun x => .ret (.mcpCall x))
      ∨ ∃ id url, r.ask g = some (.extract url) ∧ serve g r
          = (McpGateway.extractProgram g id url).bind fun x => .ret (.mcpCall x) := by
  cases r with
  | httpSearch params =>
      rw [serve, HttpGateway.searchHandler, Request.ask]
      cases HttpGateway.tryFromParams g.platform params g.config.search.safeSearchDefault with
      | error e => exact Or.inl ⟨_, rfl, e, rfl⟩
      | ok req => exact Or.inr (Or.inl ⟨req, rfl, rfl⟩)
  | httpExtract url =>
      unfold serve HttpGateway.extractHandler Request.ask
      dsimp only
      by_cases hblank : RustStr.trim url = ""
      · rw [if_pos hblank]
        exact Or.inl ⟨_, rfl, _, rfl⟩
      · rw [if_neg hblank, if_neg hblank]
        cases g.platform.parseUrl (RustStr.trim url) with
        | error e => exact Or.inl ⟨_, rfl, _, rfl⟩
        | ok parsed => exact Or.inr (Or.inr (Or.inl ⟨parsed, rfl, rfl⟩))
  | mcpCall id params =>
      unfold serve McpGateway.handleToolsCall Request.ask
      dsimp only
      cases params.get "arguments" with
      | none => exact Or.inl ⟨_, rfl, _, _, rfl⟩
      | some args =>
          dsimp only
          generalize ((params.get "name").bind Json.asStr).getD "" = name
          by_cases hsearch : name = "serica_search"
          · rw [if_pos hsearch, if_pos hsearch]
            cases McpGateway.searchRequestOfArguments args with
            | error e => exact Or.inl ⟨_, rfl, _, _, rfl⟩
            | ok req => exact Or.inr (Or.inr (Or.inr (Or.inl ⟨id, req, rfl, rfl⟩)))
          rw [if_neg hsearch, if_neg hsearch]
          by_cases hextract : name = "serica_extract"
          · rw [if_pos hextract, if_pos hextract]
            cases McpGateway.argUrl g args with
            | error e => exact Or.inl ⟨_, rfl, _, _, rfl⟩
            | ok parsed => exact Or.inr (Or.inr (Or.inr (Or.inr ⟨id, parsed, rfl, rfl⟩)))
          · rw [if_neg hextract, if_neg hextract]
            exact Or.inl ⟨_, rfl, _, _, rfl⟩

/-- The stream of bytes that is hashed for a request. -/
def Ask.stream : Ask → List UInt8
  | .search req => Search.hashStream req
  | .extract url => Search.strStream (Ssrf.normalizeExtractUrl url).asStr

/-- The streams that the requests feed to the hasher. -/
def streamsOf (g : Gateway) (reqs : List Request) : Set (List UInt8) :=
  { stream | ∃ r ∈ reqs, ∃ ask, r.ask g = some ask ∧ ask.stream = stream }

/-- A successful reply to a request is one that what it asks for may be served: over
HTTP the response itself, over MCP the tool result made of one. -/
def Served (g : Gateway) (s : Shared) (ask : Option Ask) : Reply → Prop
  | .httpSearch (.ok resp) => ∃ req, ask = some (.search req) ∧ FromEngine g s req resp
  | .httpExtract (.ok resp) => ∃ url, ask = some (.extract url) ∧ FromExtraction s url resp
  | .mcpCall response => response.error = none →
      (∃ req resp, ask = some (.search req) ∧ FromEngine g s req resp
        ∧ response = McpGateway.toolCallResult g.searchCodec response.id resp)
      ∨ ∃ url resp, ask = some (.extract url) ∧ FromExtraction s url resp
        ∧ response = McpGateway.toolCallResult g.extractCodec response.id resp
  | _ => True

theorem Served.later {s t : Shared} (hst : Later s t) {ask : Option Ask} {reply : Reply}
    (h : Served g s ask reply) : Served g t ask reply := by
  rcases reply with (_ | resp) | (_ | resp) | response
  · trivial
  · obtain ⟨req, hask, hfrom⟩ := h
    exact ⟨req, hask, hfrom.later g hst⟩
  · trivial
  · obtain ⟨url, hask, hfrom⟩ := h
    exact ⟨url, hask, hfrom.later hst⟩
  · intro hok
    rcases h hok with ⟨req, resp, hask, hfrom, heq⟩ | ⟨url, resp, hask, hfrom, heq⟩
    · exact Or.inl ⟨req, resp, hask, hfrom.later g hst, heq⟩
    · exact Or.inr ⟨url, resp, hask, hfrom.later hst, heq⟩

/-- Serving the request keeps the contract, from every store on, and ends in a reply that
it may be served. -/
structure KeepsServed (g : Gateway) (streams : Set (List UInt8)) (r : Request) : Prop where
  keeps : ∀ s, (contract g streams).Keeps (sharedStore g)
    (fun t reply => Served g t (r.ask g) reply) (serve g r) s

/-- A tool result carries the identifier of its request. -/
theorem toolCallResult_id {α : Type} (codec : Codec α) (id : Json) (value : α) :
    (McpGateway.toolCallResult codec id value).id = id := by
  unfold McpGateway.toolCallResult
  split <;> rfl

theorem served_errorResponse (s : Shared) (ask : Option Ask) (id : Json)
    (e : JsonRpcErrorObject) : Served g s ask (.mcpCall (McpGateway.errorResponse id e)) :=
  fun h => absurd h (by simp [McpGateway.errorResponse])

/-- An error may be served to anybody. -/
theorem served_of_refuses {reply : Reply} (h : reply.Refuses) (s : Shared) (ask : Option Ask) :
    Served g s ask reply := by
  rcases reply with result | result | response
  · obtain ⟨e, rfl⟩ := h
    trivial
  · obtain ⟨e, rfl⟩ := h
    trivial
  · obtain ⟨id, e, rfl⟩ := h
    exact served_errorResponse s ask id e

include hhash in
theorem httpSearch_keeps {req : SearchRequest} (hreq : Search.hashStream req ∈ streams)
    (s : Shared) :
    (contract g streams).Keeps (sharedStore g)
      (fun t r => Served g t (some (.search req)) (.httpSearch r))
      (HttpGateway.searchProgram g req) s := by
  rw [http_searchProgram_eq]
  apply searchSteps_keeps hhash hreq
  · exact fun t resp h => ⟨req, rfl, h⟩
  · intro t e failed hf
    obtain ⟨appErr, _, rfl⟩ := Option.map_eq_some_iff.mp hf
    exact trivial
  · intro e hf
    cases e <;> first | rfl | exact absurd hf (by simp [HttpGateway.mapSearchError])

/-- An engine error that is answered is answered by an error. -/
theorem mcpFail_eq_some {id : Json} {e : SearchError} {failed : JsonRpcResponse}
    (h : mcpFail id e = some failed) : ∃ err, failed = McpGateway.errorResponse id err := by
  unfold mcpFail at h
  cases e with
  | parseEmpty => exact absurd h (by simp)
  | blocked => exact ⟨_, (Option.some.inj h).symm⟩
  | challenged => exact ⟨_, (Option.some.inj h).symm⟩
  | upstream msg => exact ⟨_, (Option.some.inj h).symm⟩
  | transport msg => exact ⟨_, (Option.some.inj h).symm⟩
  | parsePanicked => exact ⟨_, (Option.some.inj h).symm⟩

theorem mcpFail_eq_none {id : Json} {e : SearchError} (h : mcpFail id e = none) :
    e = .parseEmpty := by
  unfold mcpFail at h
  cases e with
  | parseEmpty => rfl
  | _ => exact absurd h (by simp)

include hhash in
theorem mcpSearch_keeps (id : Json) {req : SearchRequest}
    (hreq : Search.hashStream req ∈ streams) (s : Shared) :
    (contract g streams).Keeps (sharedStore g)
      (fun t r => Served g t (some (.search req)) (.mcpCall r))
      (McpGateway.searchProgram g id req) s := by
  rw [mcp_searchProgram_eq]
  apply searchSteps_keeps hhash hreq
  · intro t resp h _
    refine Or.inl ⟨req, resp, rfl, h, ?_⟩
    rw [toolCallResult_id]
  · intro t e failed hf
    obtain ⟨err, rfl⟩ := mcpFail_eq_some hf
    exact served_errorResponse t _ id err
  · intro e hf
    exact mcpFail_eq_none hf

include hhash in
theorem mcpExtract_keeps (id : Json) {url : Url}
    (hurl : Search.strStream (Ssrf.normalizeExtractUrl url).asStr ∈ streams) (s : Shared) :
    (contract g streams).Keeps (sharedStore g)
      (fun t r => Served g t (some (.extract url)) (.mcpCall r))
      (McpGateway.extractProgram g id url) s := by
  unfold McpGateway.extractProgram
  apply (runExtract_keeps hhash hurl s).bind
  intro t r h
  cases r with
  | error e => exact served_errorResponse t _ id (McpGateway.extractErrorObject e)
  | ok resp =>
      intro _
      refine Or.inr ⟨url, resp, rfl, h resp rfl, ?_⟩
      rw [toolCallResult_id]

/-! ## The pool -/

include hhash in
/-- **Every request keeps the contract.** -/
theorem serve_keeps (r : Request) (hstream : ∀ ask, r.ask g = some ask → ask.stream ∈ streams) :
    KeepsServed g streams r := by
  constructor
  intro s
  rcases serve_cases g r with ⟨reply, hserve, hrefuses⟩ | ⟨req, hask, hserve⟩
    | ⟨url, hask, hserve⟩ | ⟨id, req, hask, hserve⟩ | ⟨id, url, hask, hserve⟩
  · rw [hserve]
    exact served_of_refuses hrefuses s (r.ask g)
  · rw [hserve, hask]
    exact (httpSearch_keeps hhash (hstream (.search req) hask) s).bind fun t r h => h
  · rw [hserve, hask]
    apply (runExtract_keeps hhash (hstream (.extract url) hask) s).bind
    intro t r h
    cases r with
    | error e => exact trivial
    | ok resp => exact ⟨url, rfl, h resp rfl⟩
  · rw [hserve, hask]
    exact (mcpSearch_keeps hhash id (hstream (.search req) hask) s).bind fun t r h => h
  · rw [hserve, hask]
    exact (mcpExtract_keeps hhash id (hstream (.extract url) hask) s).bind fun t r h => h

/-- Nothing is stored yet. -/
theorem Intact.empty : Intact g streams Shared.empty where
  search _ _ _ _ hbytes _ := absurd hbytes (by simp [Shared.empty])
  extract _ _ _ _ hbytes _ := absurd hbytes (by simp [Shared.empty])

/-- **Cache soundness**: whatever the interleaving of the requests, and whatever the cache
forgets, a successful reply is one that its request may be served. -/
theorem served_sound (g : Gateway) (reqs : List Request) (hhash : (streamsOf g reqs).InjOn g.hash)
    {Q : Pool GatewayI Shared Reply}
    (hruns : Pool.Runs (sharedStore g) ⟨Shared.empty, reqs.map (serve g)⟩ Q) :
    ∀ (i : ℕ) (r : Request) (reply : Reply), reqs[i]? = some r →
      Q.threads[i]? = some (.ret reply) → Served g Q.store (r.ask g) reply := by
  have hinit : (contract g (streamsOf g reqs)).Sound (sharedStore g)
      (fun i s reply => ∀ r, reqs[i]? = some r → Served g s (r.ask g) reply)
      ⟨Shared.empty, reqs.map (serve g)⟩ := by
    refine ⟨Intact.empty, fun i p hp => ?_⟩
    rw [List.getElem?_map, Option.map_eq_some_iff] at hp
    obtain ⟨r, hr, rfl⟩ := hp
    have hkeeps : KeepsServed g (streamsOf g reqs) r :=
      serve_keeps hhash r fun ask hask => ⟨r, List.mem_of_getElem? hr, ask, hask, rfl⟩
    apply (hkeeps.keeps Shared.empty).mono
    intro s reply h r' hr'
    rw [← Option.some.inj (hr.symm.trans hr')]
    exact h
  have hfinal := hinit.runs (fun i s t reply h hst r hr => (h r hr).later hst)
    (fun s t (hs : Intact g (streamsOf g reqs) s) hst => hs.forgets hst) hruns
  intro i r reply hr hreply
  exact hfinal.2 i _ hreply r hr

/-! ## Two searches and a hit -/

/-- A hash of 64 bits (FNV-1a). -/
def fnv1a (bytes : List UInt8) : UInt64 :=
  bytes.foldl (fun h b => (h ^^^ b.toUInt64) * 0x100000001b3) 0xcbf29ce484222325

/-- The default gateway, with the codecs of `serde_json`. -/
def serdeGateway : Gateway where
  config := Config.default
  platform := Platform.ascii
  hash := fnv1a
  searchCodec := SearchResponse.codec (serdeJson .oneHalf)
  extractCodec := ExtractResponse.codec (serdeJson .oneHalf)

def rustResults : List SearchResult :=
  [⟨"https://rust-lang.org/", "Rust", "A language."⟩, ⟨"https://docs.rs/", "Docs", "Crates."⟩]

def goResults : List SearchResult := [⟨"https://go.dev/", "Go", "Another language."⟩]

def rustAsk : SearchRequest := ⟨"rust", 1, 0, none⟩

def goAsk : SearchRequest := ⟨"go", 1, 0, none⟩

/-- Searches over HTTP, without a filter. -/
def rustSearch : Request := .httpSearch ⟨some "rust", none, some 0, none⟩

def goSearch : Request := .httpSearch ⟨some "go", none, some 0, none⟩

/-- The page of the results that were found in 7 ms. -/
def rustPage : SearchResponse :=
  { results := rustResults, totalResults := 2, page := 1, timingMs := 7, cached := false }

def goPage : SearchResponse :=
  { results := goResults, totalResults := 1, page := 1, timingMs := 9, cached := false }

/-- What is stored of a page. -/
def pageBytes (page : SearchResponse) : List UInt8 :=
  RustStr.asBytes (String.ofList (JsonText.write (serdeJson .oneHalf) .compact page.toJson 0))

def rustKey : String := Search.cacheKey fnv1a rustAsk

def goKey : String := Search.cacheKey fnv1a goAsk

/-- The store after both pages. -/
def pagesStore : Shared where
  entries key :=
    if key = rustKey then some (pageBytes rustPage)
    else if key = goKey then some (pageBytes goPage)
    else none
  replies := [(goAsk, .ok goResults), (rustAsk, .ok rustResults)]
  extractions := []

/-- Two searches take turns and fill the cache, and a third one hits it. -/
theorem runs_pages :
    Pool.Runs (sharedStore serdeGateway)
      ⟨Shared.empty, [rustSearch, goSearch, rustSearch].map (serve serdeGateway)⟩
      ⟨pagesStore, [.ret (.httpSearch (.ok rustPage)), .ret (.httpSearch (.ok goPage)),
        .ret (.httpSearch (.ok { rustPage with cached := true, timingMs := 0 }))]⟩ := by
  have hhit : (some (pageBytes rustPage)).bind serdeGateway.searchCodec.fromSlice
      = some rustPage := serdeGateway.searchCodec.fromSlice_toVec rfl
  refine .head (.call (I := GatewayI) (i := 0) (o := GatewayOp.cacheGet _) (r := none) rfl
    ⟨rfl, Or.inl rfl⟩) ?_
  refine .head (.call (I := GatewayI) (i := 1) (o := GatewayOp.cacheGet _) (r := none) rfl
    ⟨rfl, Or.inl rfl⟩) ?_
  refine .head (.call (I := GatewayI) (i := 0) (o := GatewayOp.engineSearch _ _ _ _)
    (r := .ok rustResults) rfl rfl) ?_
  refine .head (.call (I := GatewayI) (i := 1) (o := GatewayOp.engineSearch _ _ _ _)
    (r := .ok goResults) rfl rfl) ?_
  refine .head (.call (I := GatewayI) (i := 0) (o := GatewayOp.elapsedMs) (r := (7 : UInt64))
    rfl rfl) ?_
  refine .head (.call (I := GatewayI) (i := 1) (o := GatewayOp.elapsedMs) (r := (9 : UInt64))
    rfl rfl) ?_
  refine .head (.call (I := GatewayI) (i := 0) (o := GatewayOp.record _) (r := ()) rfl rfl) ?_
  refine .head (.call (I := GatewayI) (i := 1) (o := GatewayOp.record _) (r := ()) rfl rfl) ?_
  refine .head (.call (I := GatewayI) (i := 1) (o := GatewayOp.cacheSet goKey (pageBytes goPage) _)
    (r := ()) rfl (Or.inr rfl)) ?_
  refine .head (.call (I := GatewayI) (i := 0)
    (o := GatewayOp.cacheSet rustKey (pageBytes rustPage) _) (r := ()) rfl (Or.inr rfl)) ?_
  refine .head (.call (I := GatewayI) (i := 2) (o := GatewayOp.cacheGet rustKey)
    (r := some (pageBytes rustPage)) rfl ⟨rfl, Or.inr (Or.inl rfl)⟩) ?_
  refine .head (.call (I := GatewayI) (i := 2) (o := GatewayOp.elapsedMs) (r := (0 : UInt64))
    (k := fun ms => .ret (.httpSearch (.ok { rustPage with cached := true, timingMs := ms })))
    ?_ rfl) .refl
  refine congrArg some ?_
  dsimp only
  rw [hhit]
  rfl

/-- The two searches have keys of their own. -/
theorem fnv1a_separates :
    ({Search.hashStream rustAsk, Search.hashStream goAsk} : Set (List UInt8)).InjOn fnv1a :=
  Set.injOn_pair.mpr fun hsame => absurd hsame (by decide)

theorem served_sound_pages :
    Served serdeGateway pagesStore (some (.search rustAsk))
      (.httpSearch (.ok { rustPage with cached := true, timingMs := 0 })) := by
  have hhash : (streamsOf serdeGateway [rustSearch, goSearch, rustSearch]).InjOn
      serdeGateway.hash := by
    refine fnv1a_separates.mono ?_
    rintro stream ⟨r, hr, ask, hask, rfl⟩
    simp only [List.mem_cons, List.not_mem_nil, or_false] at hr
    rcases hr with rfl | rfl | rfl <;> obtain rfl := Option.some.inj hask
    · exact Or.inl rfl
    · exact Or.inr rfl
    · exact Or.inl rfl
  exact served_sound serdeGateway [rustSearch, goSearch, rustSearch] hhash runs_pages 2 rustSearch
    _ rfl rfl

end CacheSoundness
