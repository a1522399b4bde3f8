/-
# Two search paths

A search over HTTP and a search over MCP are written twice.  Here both run over the same
cache entries and the same counters, with an engine that gives the same outcome; each run
has a reading of its own of its timer.

`served` is what a search does, whatever its gateway, and `exec_searchSteps` says that
either program does it.  `search_paths_agree` compares the two runs.
-/
import Serica.CacheSoundness

/-! ## Counters -/

/-- `MetricsCollector`. -/
structure MetricsCollector where
  totalSearches : UInt64
  totalLatencyMs : UInt64
  totalErrors : UInt64
  totalBlocked : UInt64
  totalChallenged : UInt64
  totalEmptyParses : UInt64
deriving DecidableEq, Repr

namespace MetricsCollector

/-- `MetricsCollector::new`. -/
def new : MetricsCollector := ⟨0, 0, 0, 0, 0, 0⟩

/-- `record_search` and the other counters; `fetch_add` wraps around. -/
def record (m : MetricsCollector) : Metric → MetricsCollector
  | .search timingMs =>
      { m with
        totalSearches := m.totalSearches + 1, totalLatencyMs := m.totalLatencyMs + timingMs }
  | .error => { m with totalErrors := m.totalErrors + 1 }
  | .blocked => { m with totalBlocked := m.totalBlocked + 1 }
  | .challenged => { m with totalChallenged := m.totalChallenged + 1 }
  | .emptyParse => { m with totalEmptyParses := m.totalEmptyParses + 1 }

/-- Every counter has changed by the same amount in two runs from `before`, except that the
latency of a search is the reading of the run's own timer. -/
structure SameChange (before : MetricsCollector) (ms ms' : UInt64) (m m' : MetricsCollector) :
    Prop where
  totalSearches : m.totalSearches = m'.totalSearches
  totalErrors : m.totalErrors = m'.totalErrors
  totalBlocked : m.totalBlocked = m'.totalBlocked
  totalChallenged : m.totalChallenged = m'.totalChallenged
  totalEmptyParses : m.totalEmptyParses = m'.totalEmptyParses
  totalLatencyMs :
    (m.totalLatencyMs = before.totalLatencyMs ∧ m'.totalLatencyMs = before.totalLatencyMs)
      ∨ (m.totalLatencyMs = before.totalLatencyMs + ms
        ∧ m'.totalLatencyMs = before.totalLatencyMs + ms')

end MetricsCollector

namespace SearchPaths

open CacheSoundness (searchSteps finishSteps)

/-! ## The surroundings of a search -/

/-- The entries of the cache, each with its TTL in seconds, and the counters. -/
structure World where
  entries : String → Option (List UInt8 × UInt64)
  metrics : MetricsCollector

namespace World

def store (w : World) (key : String) (bytes : List UInt8) (ttlSeconds : UInt64) : World :=
  { w with entries := Function.update w.entries key (some (bytes, ttlSeconds)) }

def record (w : World) (metric : Metric) : World :=
  { w with metrics := w.metrics.record metric }

/-- How calls are answered while the engine has the outcome `outcome` for the search and
the timer reads `ms`. -/
def answer (outcome : Except SearchError (List SearchResult)) (ms : UInt64) (w : World) :
    (o : GatewayOp) → World × o.Ans
  | .cacheGet key => (w, (w.entries key).map Prod.fst)
  | .cacheSet key bytes ttlSeconds => (w.store key bytes ttlSeconds, ())
  | .elapsedMs => (w, ms)
  | .engineSearch _ _ _ _ => (w, outcome)
  | .record metric => (w.record metric, ())
  | .extractAttempt _ => (w, .elapsed)

end World

/-! ## What a search does -/

section Served

variable (g : Gateway) (req : SearchRequest) (ms : UInt64)

/-- The page that is made of `results`. -/
def page (results : List SearchResult) : SearchResponse :=
  Search.finalizeResults g.platform results req g.config.search.maxResultsPerPage ms

/-- A search that ends with `results` is counted, and its page is stored. -/
def finished (results : List SearchResult) (w : World) : World :=
  match g.searchCodec.toVec (page g req ms results) with
  | some bytes =>
      (w.record (.search ms)).store (Search.cacheKey g.hash req) bytes g.config.cache.ttlSeconds
  | none => w.record (.search ms)

/-- What a search does, in either gateway: the state that it leaves, and its response or
the error of the engine. -/
def served (outcome : Except SearchError (List SearchResult)) (w : World) :
    World × Except SearchError SearchResponse :=
  match ((w.entries (Search.cacheKey g.hash req)).map Prod.fst).bind g.searchCodec.fromSlice with
  | some response => (w, .ok { response with cached := true, timingMs := ms })
  | none =>
      match outcome with
      | .ok results => (finished g req ms results w, .ok (page g req ms results))
      | .error .parseEmpty =>
          (finished g req ms [] (w.record .emptyParse), .ok (page g req ms []))
      | .error e => (w.record (HttpGateway.metricOf e), .error e)

end Served

variable {g : Gateway} {req : SearchRequest} {ms ms' : UInt64}
  {outcome : Except SearchError (List SearchResult)} {w : World}

section Steps

variable {ρ : Type} {reply : SearchResponse → ρ} {fail : SearchError → Option ρ}

/-- A finished search replies with the page and stores it. -/
theorem exec_finishSteps (results : List SearchResult) :
    (finishSteps g reply req results).exec (World.answer outcome ms) w
      = (finished g req ms results w, reply (page g req ms results)) := by
  unfold finishSteps Codec.storeAndReturn finished
  rw [Prog.exec_call, Prog.exec_call, Prog.exec_bind]
  dsimp only [World.answer]
  cases htoVec : g.searchCodec.toVec (page g req ms results) with
  | some bytes =>
      rw [page] at htoVec
      rw [htoVec]
      rfl
  | none =>
      rw [page] at htoVec
      rw [htoVec]
      rfl

/-- What a gateway replies to the result of a search. -/
def Replies (reply : SearchResponse → ρ) (fail : SearchError → Option ρ) :
    Except SearchError SearchResponse → ρ → Prop
  | .ok response, r => r = reply response
  | .error e, r => fail e = some r

/-- **A search does what `served` says**, and replies with the response, or with what its
gateway makes of the engine's error. -/
theorem exec_searchSteps (hfail : ∀ e, fail e = none ↔ e = .parseEmpty) :
    ∃ r, (searchSteps g reply fail HttpGateway.metricOf req).exec (World.answer outcome ms) w
        = ((served g req ms outcome w).1, r)
      ∧ Replies reply fail (served g req ms outcome w).2 r := by
  unfold searchSteps served
  rw [Prog.exec_call]
  dsimp only [World.answer]
  cases ((w.entries (Search.cacheKey g.hash req)).map Prod.fst).bind g.searchCodec.fromSlice with
  | some response => exact ⟨_, rfl, rfl⟩
  | none =>
      dsimp only
      rw [Prog.exec_call]
      dsimp only [World.answer]
      cases outcome with
      | ok results => exact ⟨_, exec_finishSteps results, rfl⟩
      | error e =>
          dsimp only
          rw [Prog.exec_call]
          dsimp only [World.answer]
          cases hf : fail e with
          | none =>
              obtain rfl := (hfail e).mp hf
              exact ⟨_, exec_finishSteps [], rfl⟩
          | some failed =>
              have hne : e ≠ .parseEmpty := by
                rintro rfl
                exact absurd (hf.symm.trans ((hfail _).mpr rfl)) (by simp)
              cases e with
              | parseEmpty => exact absurd rfl hne
              | _ => exact ⟨_, rfl, hf⟩

end Steps

/-! ## The two gateways -/

/-- The run of a search over HTTP. -/
def httpRun (g : Gateway) (req : SearchRequest)
    (outcome : Except SearchError (List SearchResult)) (ms : UInt64) (w : World) :
    World × Except AppError SearchResponse :=
  (HttpGateway.searchProgram g req).exec (World.answer outcome ms) w

/-- The run of a search over MCP. -/
def mcpRun (g : Gateway) (id : Json) (req : SearchRequest)
    (outcome : Except SearchError (List SearchResult)) (ms : UInt64) (w : World) :
    World × JsonRpcResponse :=
  (McpGateway.searchProgram g id req).exec (World.answer outcome ms) w

/-- The response is a tool result with the text `text`. -/
def IsToolResult (r : JsonRpcResponse) (text : String) : Prop :=
  r.error = none ∧ r.result = some (.object
    [("content", .array [.object [("type", .string "text"), ("text", .string text)]]),
      ("isError", .bool false)])

/-- A response without its `timing_ms`. -/
def untimed (d : SearchResponse) : SearchResponse := { d with timingMs := 0 }

/-- The response is a tool result whose text is the JSON of `d`, up to `timing_ms`. -/
def CarriesJson (codec : Codec SearchResponse) (r : JsonRpcResponse) (d : SearchResponse) : Prop :=
  ∃ d' text, untimed d' = untimed d ∧ codec.toStringPretty d' = .ok text ∧ IsToolResult r text

/-- Two entries of a cache are equal, or hold the same response with the same TTL, up to
`timing_ms`. -/
def EntryAgrees (codec : Codec SearchResponse) (x y : Option (List UInt8 × UInt64)) : Prop :=
  x = y ∨ ∃ d d' bytes bytes' ttlSeconds, untimed d = untimed d' ∧ codec.toVec d = some bytes
    ∧ codec.toVec d' = some bytes' ∧ x = some (bytes, ttlSeconds) ∧ y = some (bytes', ttlSeconds)

/-- A response can be serialised, in either form and whatever its timing. -/
def Serialises (codec : Codec SearchResponse) (d : SearchResponse) : Prop :=
  ∀ ms, (∃ bytes, codec.toVec { d with timingMs := ms } = some bytes)
    ∧ ∃ text, codec.toStringPretty { d with timingMs := ms } = .ok text

variable (g req ms outcome w) in
/-- The program of HTTP serves the search and replies in its own way. -/
theorem httpRun_eq : ∃ r, httpRun g req outcome ms w = ((served g req ms outcome w).1, r)
    ∧ Replies Except.ok (fun e => (HttpGateway.mapSearchError e).map Except.error)
      (served g req ms outcome w).2 r := by
  unfold httpRun
  rw [CacheSoundness.http_searchProgram_eq]
  refine exec_searchSteps fun e => ?_
  cases e <;> simp [HttpGateway.mapSearchError]

variable (g req ms outcome w) in
/-- So does the program of MCP. -/
theorem mcpRun_eq (id : Json) : ∃ r,
    mcpRun g id req outcome ms w = ((served g req ms outcome w).1, r)
    ∧ Replies (McpGateway.toolCallResult g.searchCodec id) (CacheSoundness.mcpFail id)
      (served g req ms outcome w).2 r := by
  unfold mcpRun
  rw [CacheSoundness.mcp_searchProgram_eq]
  refine exec_searchSteps fun e => ?_
  cases e <;> simp [CacheSoundness.mcpFail]

/-! ## Timing -/

/-- With another reading of the timer a search has the same result but for its timing. -/
theorem served_result (g : Gateway) (req : SearchRequest) (ms ms' : UInt64)
    (outcome : Except SearchError (List SearchResult)) (w : World) :
    (∃ d : SearchResponse, (served g req ms outcome w).2 = .ok { d with timingMs := ms }
        ∧ (served g req ms' outcome w).2 = .ok { d with timingMs := ms' })
      ∨ ∃ e, (served g req ms outcome w).2 = .error e
        ∧ (served g req ms' outcome w).2 = .error e := by
  unfold served
  cases ((w.entries (Search.cacheKey g.hash req)).map Prod.fst).bind g.searchCodec.fromSlice with
  | some response => exact Or.inl ⟨{ response with cached := true }, rfl, rfl⟩
  | none =>
      cases outcome with
      | ok results => exact Or.inl ⟨page g req 0 results, rfl, rfl⟩
      | error e =>
          cases e with
          | parseEmpty => exact Or.inl ⟨page g req 0 [], rfl, rfl⟩
          | _ => exact Or.inr ⟨_, rfl, rfl⟩

theorem finished_metrics (results : List SearchResult) :
    (finished g req ms results w).metrics = w.metrics.record (.search ms) := by
  unfold finished
  cases g.searchCodec.toVec (page g req ms results) <;> rfl

/-- Serving changes the counters in the same way, whatever the timing. -/
theorem served_sameChange (g : Gateway) (req : SearchRequest) (ms ms' : UInt64)
    (outcome : Except SearchError (List SearchResult)) (w : World) :
    MetricsCollector.SameChange w.metrics ms ms' (served g req ms outcome w).1.metrics
      (served g req ms' outcome w).1.metrics := by
  have hsearch : ∀ m : MetricsCollector, m.totalLatencyMs = w.metrics.totalLatencyMs →
      MetricsCollector.SameChange w.metrics ms ms' (m.record (.search ms))
        (m.record (.search ms')) := by
    intro m hm
    refine ⟨rfl, rfl, rfl, rfl, rfl, Or.inr ⟨?_, ?_⟩⟩
    · rw [← hm]
      rfl
    · rw [← hm]
      rfl
  unfold served
  cases ((w.entries (Search.cacheKey g.hash req)).map Prod.fst).bind g.searchCodec.fromSlice with
  | some response => exact ⟨rfl, rfl, rfl, rfl, rfl, Or.inl ⟨rfl, rfl⟩⟩
  | none =>
      cases outcome with
      | ok results =>
          dsimp only
          rw [finished_metrics, finished_metrics]
          exact hsearch w.metrics rfl
      | error e =>
          cases e with
          | parseEmpty =>
              dsimp only
              rw [finished_metrics, finished_metrics]
              exact hsearch (w.metrics.record .emptyParse) rfl
          | _ => exact ⟨rfl, rfl, rfl, rfl, rfl, Or.inl ⟨rfl, rfl⟩⟩

/-- A page that is stored with either timing is the same entry. -/
theorem finished_entries {results : List SearchResult}
    (h : Serialises g.searchCodec (page g req ms results)) (ms' : UInt64) (key : String) :
    EntryAgrees g.searchCodec ((finished g req ms results w).entries key)
      ((finished g req ms' results w).entries key) := by
  obtain ⟨⟨bytes, hbytes⟩, -⟩ := h ms
  obtain ⟨⟨bytes', hbytes'⟩, -⟩ := h ms'
  have hpage : g.searchCodec.toVec (page g req ms results) = some bytes := hbytes
  have hpage' : g.searchCodec.toVec (page g req ms' results) = some bytes' := hbytes'
  unfold finished
  rw [hpage, hpage']
  dsimp only [World.store]
  by_cases hkey : key = Search.cacheKey g.hash req
  · subst hkey
    rw [Function.update_self, Function.update_self]
    exact Or.inr ⟨page g req ms results, page g req ms' results, bytes, bytes', _, rfl, hpage,
      hpage', rfl, rfl⟩
  · rw [Function.update_of_ne hkey, Function.update_of_ne hkey]
    exact Or.inl rfl

/-- Serving stores the same response, whatever the timing. -/
theorem served_entries (h : ∀ d, (served g req ms outcome w).2 = .ok d → Serialises g.searchCodec d)
    (ms' : UInt64) (key : String) :
    EntryAgrees g.searchCodec ((served g req ms outcome w).1.entries key)
      ((served g req ms' outcome w).1.entries key) := by
  unfold served at h ⊢
  cases hhit :
      ((w.entries (Search.cacheKey g.hash req)).map Prod.fst).bind g.searchCodec.fromSlice with
  | some response => exact Or.inl rfl
  | none =>
      rw [hhit] at h
      cases outcome with
      | ok results => exact finished_entries (h _ rfl) ms' key
      | error e =>
          cases e with
          | parseEmpty => exact finished_entries (h _ rfl) ms' key
          | _ => exact Or.inl rfl

/-! ## The comparison -/

theorem isToolResult_toolCallResult {codec : Codec SearchResponse} {d : SearchResponse}
    {text : String} (id : Json) (h : codec.toStringPretty d = .ok text) :
    IsToolResult (McpGateway.toolCallResult codec id d) text := by
  unfold McpGateway.toolCallResult
  rw [h]
  exact ⟨rfl, rfl⟩

/-- A tool result has one text. -/
theorem IsToolResult.text_eq {r : JsonRpcResponse} {text text' : String}
    (h : IsToolResult r text) (h' : IsToolResult r text') : text = text' := by
  have hresult := Option.some.inj (h.2.symm.trans h'.2)
  simpa using hresult

/-- Both searches return the same data, the timing aside, or both an error. -/
theorem runs_cases (g : Gateway) (id : Json) (req : SearchRequest)
    (outcome : Except SearchError (List SearchResult)) (w : World) (ms ms' : UInt64)
    (hser : ∀ d, (httpRun g req outcome ms w).2 = .ok d → Serialises g.searchCodec d) :
    (∃ (d : SearchResponse) (text : String),
        (httpRun g req outcome ms w).2 = .ok { d with timingMs := ms }
        ∧ g.searchCodec.toStringPretty { d with timingMs := ms' } = .ok text
        ∧ IsToolResult (mcpRun g id req outcome ms' w).2 text)
      ∨ ∃ appErr e, (httpRun g req outcome ms w).2 = .error appErr
        ∧ (mcpRun g id req outcome ms' w).2 = McpGateway.errorResponse id e := by
  obtain ⟨r, hhttp, hreply⟩ := httpRun_eq g req ms outcome w
  obtain ⟨r', hmcp, hreply'⟩ := mcpRun_eq g req ms' outcome w id
  rw [hhttp] at hser ⊢
  rw [hmcp]
  rcases served_result g req ms ms' outcome w with ⟨d, hd, hd'⟩ | ⟨e, he, he'⟩
  · rw [hd] at hreply
    rw [hd'] at hreply'
    obtain rfl := hreply
    obtain rfl := hreply'
    obtain ⟨-, text, htext⟩ := hser _ rfl ms'
    exact Or.inl ⟨d, text, rfl, htext, isToolResult_toolCallResult id htext⟩
  · rw [he] at hreply
    rw [he'] at hreply'
    obtain ⟨appErr, -, rfl⟩ := Option.map_eq_some_iff.mp hreply
    obtain ⟨err, rfl⟩ := CacheSoundness.mcpFail_eq_some hreply'
    exact Or.inr ⟨appErr, err, rfl, rfl⟩

/-- **After validation the two search paths are the same program.**  Over the same entries
and counters and with the same outcome of the engine, the HTTP handler returns the data
`d` exactly when the MCP tool call returns a tool result whose text is the JSON of `d`, up
to `timing_ms`; otherwise both return an error; and the entries and the counters that they
leave differ at most in the timing. -/
theorem search_paths_agree (g : Gateway) (id : Json) (req : SearchRequest)
    (outcome : Except SearchError (List SearchResult)) (w : World) (ms ms' : UInt64)
    (hser : ∀ d, (httpRun g req outcome ms w).2 = .ok d → Serialises g.searchCodec d)
    (hinj : ∀ d d' text, g.searchCodec.toStringPretty d = .ok text →
      g.searchCodec.toStringPretty d' = .ok text → d = d') :
    (∀ d, (∃ d', (httpRun g req outcome ms w).2 = .ok d' ∧ untimed d' = untimed d)
        ↔ CarriesJson g.searchCodec (mcpRun g id req outcome ms' w).2 d)
      ∧ ((∃ e, (httpRun g req outcome ms w).2 = .error e)
        ↔ ∃ e, (mcpRun g id req outcome ms' w).2 = McpGateway.errorResponse id e)
      ∧ (∀ key, EntryAgrees g.searchCodec ((httpRun g req outcome ms w).1.entries key)
        ((mcpRun g id req outcome ms' w).1.entries key))
      ∧ MetricsCollector.SameChange w.metrics ms ms' (httpRun g req outcome ms w).1.metrics
        (mcpRun g id req outcome ms' w).1.metrics := by
  have hworlds : (∀ key, EntryAgrees g.searchCodec ((httpRun g req outcome ms w).1.entries key)
        ((mcpRun g id req outcome ms' w).1.entries key))
      ∧ MetricsCollector.SameChange w.metrics ms ms' (httpRun g req outcome ms w).1.metrics
        (mcpRun g id req outcome ms' w).1.metrics := by
    obtain ⟨r, hhttp, hreply⟩ := httpRun_eq g req ms outcome w
    obtain ⟨r', hmcp, -⟩ := mcpRun_eq g req ms' outcome w id
    rw [hhttp] at hser ⊢
    rw [hmcp]
    refine ⟨served_entries ?_ ms', served_sameChange g req ms ms' outcome w⟩
    intro d hd
    rw [hd] at hreply
    exact hser d hreply
  refine ⟨?_, ?_, hworlds⟩
  · intro d
    rcases runs_cases g id req outcome w ms ms' hser with
      ⟨d₀, text, hhttp, htext, htool⟩ | ⟨appErr, err, hhttp, hmcp⟩
    · constructor
      · rintro ⟨d', hd', hsame⟩
        obtain rfl := Except.ok.inj (hhttp.symm.trans hd')
        exact ⟨{ d₀ with timingMs := ms' }, text, hsame, htext, htool⟩
      · rintro ⟨d', text', hsame, htext', htool'⟩
        rw [htool.text_eq htool'] at htext
        obtain rfl := hinj _ _ _ htext htext'
        exact ⟨_, hhttp, hsame⟩
    · rw [hhttp, hmcp]
      constructor
      · rintro ⟨_, hd, -⟩
        exact absurd hd (by simp)
      · rintro ⟨_, _, -, -, herror, -⟩
        exact absurd herror (by simp [McpGateway.errorResponse])
  · rcases runs_cases g id req outcome w ms ms' hser with
      ⟨d₀, text, hhttp, -, htool⟩ | ⟨appErr, err, hhttp, hmcp⟩
    · constructor
      · rintro ⟨e, he⟩
        exact absurd (hhttp.symm.trans he) (by simp)
      · rintro ⟨e, he⟩
        rw [he] at htool
        exact absurd htool.1 (by simp [McpGateway.errorResponse])
    · exact ⟨fun _ => ⟨err, hmcp⟩, fun _ => ⟨appErr, hhttp⟩⟩

open CacheSoundness (rustAsk rustPage rustResults serdeGateway)

theorem httpRun_rustPage : (httpRun serdeGateway rustAsk (.ok rustResults) 7
    ⟨fun _ => none, .new⟩).2 = .ok rustPage := by
  obtain ⟨r, hrun, hreply⟩ := httpRun_eq serdeGateway rustAsk 7 (.ok rustResults)
    ⟨fun _ => none, .new⟩
  rw [hrun]
  exact hreply

/-- A page of two results, found in 7 ms over HTTP and in 9 ms over MCP. -/
theorem search_paths_agree_rustPage :
    CarriesJson serdeGateway.searchCodec (mcpRun serdeGateway .null rustAsk (.ok rustResults) 9
      ⟨fun _ => none, .new⟩).2 rustPage := by
  have hser : ∀ d, (httpRun serdeGateway rustAsk (.ok rustResults) 7
      ⟨fun _ => none, .new⟩).2 = .ok d → Serialises serdeGateway.searchCodec d := by
    intro d hd ms
    rw [httpRun_rustPage] at hd
    obtain rfl := Except.ok.inj hd
    exact ⟨⟨_, rfl⟩, ⟨_, rfl⟩⟩
  obtain ⟨hdata, -⟩ := search_paths_agree serdeGateway .null rustAsk (.ok rustResults)
    ⟨fun _ => none, .new⟩ 7 9 hser fun _ _ _ => SearchResponse.toStringPretty_inj
  exact (hdata _).mp ⟨_, httpRun_rustPage, rfl⟩

end SearchPaths
