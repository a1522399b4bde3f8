/-
# One cache, several configurations

The cache outlives the processes that fill it, and processes with different limits may
share it.  Here every call carries the configuration of the process that makes it, and
every cache entry that of the process that wrote it.

The limits of a process are applied when a response is made, not when it is looked up:
an entry keeps the limits of its writer (`Bounded`).

* `served_within`: when no process looks up an entry of a writer with larger limits or
  another output format, every response is within the limits of the process that
  serves it.
* `served_exceeds`: a process serves a page that is longer than its own limit.
-/
import Serica.CacheSoundness
import Serica.ExtractSpan

namespace CacheLimits

open CacheSoundness (Request Reply serve serve_cases searchSteps finishSteps)

/-! ## The shared store -/

section Source

variable (g : Gateway) (lib : Extract.SpanLib)

/-- The gateway in a process with another configuration. -/
def configured (c : Config) : Gateway := { g with config := c }

/-- An extraction that has finished in a process with the configuration `config`. -/
structure Extraction where
  config : Config
  url : Url
  final : String
  outcome : ExtractOutcome
  spanned : ∃ env n, (Extract.extractSpan lib config url).result env n = .ok (final, outcome)

/-- The cache, each entry with the configuration of its writer, and the finished
extractions. -/
structure Shared where
  entries : String → Option (Config × List UInt8)
  extractions : List (Extraction lib)

/-- The calls of processes, each with the configuration of its process. -/
abbrev ServerI : Interface := GatewayI.tagged Config

/-- How a call ends that a process with the configuration `c` makes. -/
def answer (s : Shared lib) (o : ServerI.Op) (r : ServerI.Ans o) (s' : Shared lib) : Prop :=
  match o with
  | (_, .cacheGet key) =>
      s' = s ∧ (r = none ∨ r = (s.entries key).map Prod.snd
        ∨ ∃ bytes, r = some bytes ∧ CacheSoundness.Undecodable g bytes)
  | (c, .cacheSet key bytes _) =>
      s' = s ∨ s' = { s with entries := Function.update s.entries key (some (c, bytes)) }
  | (_, .elapsedMs) => s' = s
  | (_, .engineSearch _ _ _ _) => s' = s
  | (_, .record _) => s' = s
  | (c, .extractAttempt url) =>
      match r with
      | .finished (.ok (final, outcome)) =>
          ∃ h, s' = { s with extractions := ⟨c, url, final, outcome, h⟩ :: s.extractions }
      | _ => s' = s

/-- The cache may forget any entries. -/
def forgets (s s' : Shared lib) : Prop :=
  s'.extractions = s.extractions ∧ ∀ key, s'.entries key = none ∨ s'.entries key = s.entries key

def sharedStore : Store ServerI (Shared lib) := ⟨answer g lib, forgets lib⟩

/-- The threads of the requests, each in a process with its configuration. -/
def threads (reqs : List (Config × Request)) : List (Prog ServerI Reply) :=
  reqs.map fun (c, r) => (serve (configured g c) r).tagged c

/-- Nothing is stored yet. -/
def Shared.empty : Shared lib := ⟨fun _ => none, []⟩

end Source

/-! ## Limits -/

variable {g : Gateway} {lib : Extract.SpanLib}

/-- A page within the limit of a configuration. -/
def PageWithin (c : Config) (resp : SearchResponse) : Prop :=
  resp.results.length ≤ c.search.maxResultsPerPage

/-- An extract within the limit of a configuration, that an extraction with its output
format has made. -/
structure ExtractWithin (s : Shared lib) (c : Config) (resp : ExtractResponse) : Prop where
  size : ∀ t, resp.content = some t → RustStr.len t ≤ c.extract.maxContentChars
  format : ∃ e ∈ s.extractions, e.config.extract.outputFormat = c.extract.outputFormat
    ∧ ∃ timingMs, CacheSoundness.ExtractResponse.Agrees resp
        (ExtractResponse.ofOutcome e.final e.outcome timingMs)

/-- A successful reply is within the limits of a configuration: over HTTP the response
itself, over MCP the one that the tool result is made of. -/
def Within (g : Gateway) (s : Shared lib) (c : Config) : Reply → Prop
  | .httpSearch (.ok resp) => PageWithin c resp
  | .httpExtract (.ok resp) => ExtractWithin s c resp
  | .mcpCall response => response.error = none →
      (∃ resp, PageWithin c resp
        ∧ response = McpGateway.toolCallResult g.searchCodec response.id resp)
      ∨ ∃ resp, ExtractWithin s c resp
        ∧ response = McpGateway.toolCallResult g.extractCodec response.id resp
  | _ => True

/-- What is cached under a key may be served by the reader: the limits that matter for
the key are no larger in the writer's configuration. -/
structure Admits (g : Gateway) (key : String) (writer reader : Config) : Prop where
  page : ∀ req, key = Search.cacheKey g.hash req →
    writer.search.maxResultsPerPage ≤ reader.search.maxResultsPerPage
  content : ∀ url, key = Search.extractCacheKey g.hash url →
    writer.extract.maxContentChars ≤ reader.extract.maxContentChars
  format : ∀ url, key = Search.extractCacheKey g.hash url →
    writer.extract.outputFormat = reader.extract.outputFormat

/-- A lookup finds nothing, or an entry that its process may serve. -/
def entryFits (g : Gateway) (s : Shared lib) (o : ServerI.Op) : Prop :=
  match o with
  | (reader, .cacheGet key) => ∀ writer bytes, s.entries key = some (writer, bytes) →
      Admits g key writer reader
  | _ => True

/-! ## What a process makes -/

theorem PageWithin.mono {writer reader : Config} {resp : SearchResponse}
    (h : PageWithin writer resp)
    (hle : writer.search.maxResultsPerPage ≤ reader.search.maxResultsPerPage) :
    PageWithin reader resp := by
  show resp.results.length ≤ reader.search.maxResultsPerPage
  exact le_trans h hle

/-- A page is cut when it is made. -/
theorem pageWithin_finalizeResults (platform : Platform) (results : List SearchResult)
    (req : SearchRequest) (c : Config) (timingMs : UInt64) :
    PageWithin c (Search.finalizeResults platform results req c.search.maxResultsPerPage
      timingMs) := by
  show (List.take c.search.maxResultsPerPage _).length ≤ c.search.maxResultsPerPage
  exact List.length_take_le _ _

/-- The content is cut when it is extracted. -/
theorem Extraction.content_le (e : Extraction lib) {t : String}
    (h : e.outcome.content = some t) : RustStr.len t ≤ e.config.extract.maxContentChars := by
  obtain ⟨env, n, hspan⟩ := e.spanned
  obtain ⟨body, hbody⟩ := Extract.extractSpan_ok lib e.config hspan
  obtain ⟨outcome, hout, hcontent, -⟩ := Extract.extractFromHtml_eq lib.html lib.extractor body
    (Extract.extractOptionsFromConfig e.config) e.config.extract
  obtain rfl : outcome = e.outcome := Option.some.inj (hout.symm.trans hbody)
  obtain ⟨_, _, _, hle⟩ := hcontent t h
  exact hle

/-- The response of a finished extraction. -/
theorem extractWithin_ofOutcome {s : Shared lib} {e : Extraction lib} (he : e ∈ s.extractions)
    (timingMs : UInt64) :
    ExtractWithin s e.config (ExtractResponse.ofOutcome e.final e.outcome timingMs) := by
  refine ⟨fun t ht => e.content_le ht, e, he, rfl, timingMs, rfl⟩

theorem ExtractWithin.mono {s t : Shared lib} {writer reader : Config} {resp : ExtractResponse}
    (h : ExtractWithin s writer resp) (hst : s.extractions ⊆ t.extractions)
    (hle : writer.extract.maxContentChars ≤ reader.extract.maxContentChars)
    (hformat : writer.extract.outputFormat = reader.extract.outputFormat) :
    ExtractWithin t reader resp := by
  obtain ⟨e, he, hsame, hmade⟩ := h.format
  refine ⟨fun text ht => le_trans (h.size text ht) hle, e, hst he, ?_, hmade⟩
  exact hsame.trans hformat

/-- Timing and the cache flag do not count. -/
theorem ExtractWithin.retimed {s : Shared lib} {c : Config} {resp : ExtractResponse}
    (h : ExtractWithin s c resp) (ms : UInt64) :
    ExtractWithin s c { resp with cached := true, timingMs := ms } :=
  ⟨h.size, h.format⟩

/-! ## The contract -/

/-- **The invariant**: an entry is within the limits of its writer. -/
structure Bounded (g : Gateway) (s : Shared lib) : Prop where
  search : ∀ req writer bytes resp,
    s.entries (Search.cacheKey g.hash req) = some (writer, bytes) →
    g.searchCodec.fromSlice bytes = some resp → PageWithin writer resp
  extract : ∀ url writer bytes resp,
    s.entries (Search.extractCacheKey g.hash url) = some (writer, bytes) →
    g.extractCodec.fromSlice bytes = some resp → ExtractWithin s writer resp

/-- The log of the extractions grows. -/
def Later (s t : Shared lib) : Prop := s.extractions ⊆ t.extractions

def contract (g : Gateway) (lib : Extract.SpanLib) : Contract (Shared lib) :=
  ⟨Bounded g, Later, fun s => List.Subset.refl s.extractions, fun h h' => List.Subset.trans h h'⟩

/-- The store as a process with the configuration `c` sees it, when lookups fit. -/
def view (g : Gateway) (lib : Extract.SpanLib) (c : Config) : Store GatewayI (Shared lib) :=
  ((sharedStore g lib).admitting (entryFits g)).seenBy c

theorem Bounded.of_entries {s t : Shared lib} (h : Bounded g s) (hst : Later s t)
    (hentries : ∀ key writer bytes, t.entries key = some (writer, bytes) →
      s.entries key = some (writer, bytes)) : Bounded g t where
  search req writer bytes resp hentry hresp :=
    h.search req writer bytes resp (hentries _ _ _ hentry) hresp
  extract url writer bytes resp hentry hresp :=
    (h.extract url writer bytes resp (hentries _ _ _ hentry) hresp).mono hst le_rfl rfl

theorem Bounded.forgets {s t : Shared lib} (h : Bounded g s) (hst : forgets lib s t) :
    Bounded g t ∧ Later s t := by
  obtain ⟨hextractions, hentries⟩ := hst
  have hlater : Later s t := by
    show s.extractions ⊆ t.extractions
    rw [hextractions]
    exact List.Subset.refl s.extractions
  refine ⟨h.of_entries hlater ?_, hlater⟩
  intro key writer bytes hentry
  rcases hentries key with hnone | hsame
  · rw [hnone] at hentry
    exact absurd hentry (by simp)
  · rw [← hsame]
    exact hentry

/-! ## One call at a time -/

section Calls

variable {ρ : Type} {post : Shared lib → ρ → Prop} {c : Config} {s : Shared lib}

theorem quiet_elapsedMs (t : Shared lib) (r : GatewayOp.Ans .elapsedMs) (t' : Shared lib)
    (h : (view g lib c).answer t .elapsedMs r t') : t' = t := h.2

theorem quiet_record (metric : Metric) (t : Shared lib) (r : GatewayOp.Ans (.record metric))
    (t' : Shared lib) (h : (view g lib c).answer t (.record metric) r t') : t' = t := h.2

theorem quiet_engineSearch (query : String) (page : UInt32) (language : Option String)
    (safeSearch : UInt8) (t : Shared lib)
    (r : GatewayOp.Ans (.engineSearch query page language safeSearch)) (t' : Shared lib)
    (h : (view g lib c).answer t (.engineSearch query page language safeSearch) r t') :
    t' = t := h.2

/-- A lookup: what it returns is nothing, undecodable, or an entry that fits. -/
theorem keeps_cacheGet {key : String} {k : Option (List UInt8) → Prog GatewayI ρ}
    (h : ∀ t r, Later s t → Bounded g t →
      (∀ bytes, r = some bytes → CacheSoundness.Undecodable g bytes
        ∨ ∃ writer, t.entries key = some (writer, bytes) ∧ Admits g key writer c) →
      (contract g lib).Keeps (view g lib c) post (k r) t) :
    (contract g lib).Keeps (view g lib c) post
      (.call (I := GatewayI) (.cacheGet key) k) s := by
  intro t hst hbounded r t' hans
  obtain ⟨hfits, rfl, hr⟩ := hans
  refine ⟨hbounded, List.Subset.refl _, h t' r hst hbounded ?_⟩
  rintro bytes rfl
  rcases hr with hnone | hentry | ⟨bytes', hsome, hbad⟩
  · exact absurd hnone (by simp)
  · obtain ⟨⟨writer, bytes'⟩, hfound, hbytes⟩ := Option.map_eq_some_iff.mp hentry.symm
    obtain rfl : bytes' = bytes := hbytes
    exact Or.inr ⟨writer, hfound, hfits writer bytes' hfound⟩
  · rw [Option.some.inj hsome]
    exact Or.inl hbad

/-- An entry within the limits of its writer. -/
theorem Bounded.store (h : Bounded g s) {key : String} {bytes : List UInt8}
    (hsearch : ∀ req resp, key = Search.cacheKey g.hash req →
      g.searchCodec.fromSlice bytes = some resp → PageWithin c resp)
    (hextract : ∀ url resp, key = Search.extractCacheKey g.hash url →
      g.extractCodec.fromSlice bytes = some resp → ExtractWithin s c resp) :
    Bounded g { s with entries := Function.update s.entries key (some (c, bytes)) } := by
  have hcases : ∀ {key' writer bytes'},
      Function.update s.entries key (some (c, bytes)) key' = some (writer, bytes') →
      (key' = key ∧ writer = c ∧ bytes' = bytes) ∨ s.entries key' = some (writer, bytes') := by
    intro key' writer bytes' hentry
    by_cases hkey : key' = key
    · subst hkey
      rw [Function.update_self, Option.some.injEq, Prod.mk.injEq] at hentry
      exact Or.inl ⟨rfl, hentry.1.symm, hentry.2.symm⟩
    · rw [Function.update_of_ne hkey] at hentry
      exact Or.inr hentry
  refine ⟨?_, ?_⟩
  · intro req writer bytes' resp hentry hresp
    rcases hcases hentry with ⟨hkey, rfl, rfl⟩ | hold
    · exact hsearch req resp hkey.symm hresp
    · exact h.search req writer bytes' resp hold hresp
  · intro url writer bytes' resp hentry hresp
    rcases hcases hentry with ⟨hkey, rfl, rfl⟩ | hold
    · exact (hextract url resp hkey.symm hresp).mono (List.Subset.refl _) le_rfl rfl
    · exact (h.extract url writer bytes' resp hold hresp).mono (List.Subset.refl _) le_rfl rfl

/-- A page goes under the key of a search. -/
theorem storeSearch_keeps {req : SearchRequest} {resp : SearchResponse} (h : PageWithin c resp)
    (ttlSeconds : UInt64) :
    (contract g lib).Keeps (view g lib c) (fun _ r => PageWithin c r)
      (g.searchCodec.storeAndReturn (Search.cacheKey g.hash req) ttlSeconds resp) s := by
  refine Codec.storeAndReturn_keeps (fun _ _ h _ => h) ?_ h
  intro t bytes r t' (hbounded : Bounded g t) hpage hvec hans
  rcases hans.2 with rfl | rfl
  · exact ⟨hbounded, List.Subset.refl _⟩
  refine ⟨hbounded.store ?_ ?_, List.Subset.refl _⟩
  · intro _ resp' _ hresp'
    rw [g.searchCodec.fromSlice_toVec hvec] at hresp'
    rw [← Option.some.inj hresp']
    exact hpage
  · intro url _ hkey _
    exact absurd hkey (Search.cacheKey_ne_extractCacheKey g.hash req url)

/-- An extract goes under the key of an extraction. -/
theorem storeExtract_keeps {url : Url} {resp : ExtractResponse} (h : ExtractWithin s c resp)
    (ttlSeconds : UInt64) :
    (contract g lib).Keeps (view g lib c) (fun t r => ExtractWithin t c r)
      (g.extractCodec.storeAndReturn (Search.extractCacheKey g.hash url) ttlSeconds resp) s := by
  refine Codec.storeAndReturn_keeps (fun t u h hst => h.mono hst le_rfl rfl) ?_ h
  intro t bytes r t' (hbounded : Bounded g t) hwithin hvec hans
  rcases hans.2 with rfl | rfl
  · exact ⟨hbounded, List.Subset.refl _⟩
  refine ⟨hbounded.store ?_ ?_, List.Subset.refl _⟩
  · intro req _ hkey _
    exact absurd hkey.symm (Search.cacheKey_ne_extractCacheKey g.hash req url)
  · intro _ resp' _ hresp'
    rw [g.extractCodec.fromSlice_toVec hvec] at hresp'
    rw [← Option.some.inj hresp']
    exact hwithin

/-! ## Searching and extracting -/

section Search

variable {reply : SearchResponse → ρ} {fail : SearchError → Option ρ}
  {metric : SearchError → Metric}

theorem finishSteps_keeps (hreply : ∀ t resp, PageWithin c resp → post t (reply resp))
    (req : SearchRequest) (results : List SearchResult) :
    (contract g lib).Keeps (view g lib c) post
      (finishSteps (configured g c) reply req results) s := by
  unfold CacheSoundness.finishSteps
  apply Contract.Keeps.quiet quiet_elapsedMs
  intro t ms _
  apply Contract.Keeps.quiet (quiet_record _)
  intro u _ _
  have hpage : PageWithin c (Search.finalizeResults g.platform results req
      c.search.maxResultsPerPage ms) := pageWithin_finalizeResults g.platform results req c ms
  exact (storeSearch_keeps hpage _).bind hreply

/-- **A search keeps the contract**, and replies with a page within the limit. -/
theorem searchSteps_keeps (hreply : ∀ t resp, PageWithin c resp → post t (reply resp))
    (hfail : ∀ t e failed, fail e = some failed → post t failed) (req : SearchRequest) :
    (contract g lib).Keeps (view g lib c) post
      (searchSteps (configured g c) reply fail metric req) s := by
  unfold CacheSoundness.searchSteps
  apply keeps_cacheGet
  intro t r _ hbounded hr
  cases hhit : r.bind (configured g c).searchCodec.fromSlice with
  | some response =>
      -- A hit decodes, so it is an entry, and one that fits.
      obtain ⟨bytes, rfl, hdecode⟩ := Option.bind_eq_some_iff.mp hhit
      apply Contract.Keeps.quiet quiet_elapsedMs
      intro u ms _
      rcases hr bytes rfl with hbad | ⟨writer, hentry, hfits⟩
      · exact absurd (hbad.1.symm.trans hdecode) (by simp)
      · have hpage := hbounded.search req writer bytes response hentry hdecode
        exact hreply u _ (hpage.mono (hfits.page req rfl))
  | none =>
      apply Contract.Keeps.quiet (quiet_engineSearch _ _ _ _)
      intro u result _
      cases result with
      | ok results => exact finishSteps_keeps hreply req results
      | error e =>
          apply Contract.Keeps.quiet (quiet_record _)
          intro v _ _
          cases hf : fail e with
          | some failed => exact hfail v e failed hf
          | none => exact finishSteps_keeps hreply req []

end Search

/-- **An extraction keeps the contract**, and returns an extract within the limits. -/
theorem runExtract_keeps (url : Url) :
    (contract g lib).Keeps (view g lib c) (fun t r => ∀ resp, r = .ok resp → ExtractWithin t c resp)
      ((configured g c).runExtract url) s := by
  unfold Gateway.runExtract
  apply keeps_cacheGet
  intro t r _ hbounded hr
  cases hhit : r.bind (configured g c).extractCodec.fromSlice with
  | some response =>
      obtain ⟨bytes, rfl, hdecode⟩ := Option.bind_eq_some_iff.mp hhit
      apply Contract.Keeps.quiet quiet_elapsedMs
      intro u ms htu resp hresp
      rcases hr bytes rfl with hbad | ⟨writer, hentry, hfits⟩
      · exact absurd (hbad.2.symm.trans hdecode) (by simp)
      · have hwithin := hbounded.extract _ writer bytes response hentry hdecode
        rw [← Except.ok.inj hresp]
        exact (hwithin.mono htu (hfits.content _ rfl) (hfits.format _ rfl)).retimed ms
  | none =>
      intro u _ hbounded' attempt u' hans
      rcases attempt with _ | (e | ⟨final, outcome⟩)
      · obtain rfl : u' = u := hans.2
        exact ⟨hbounded', List.Subset.refl _, fun resp hresp => absurd hresp (by simp)⟩
      · obtain rfl : u' = u := hans.2
        exact ⟨hbounded', List.Subset.refl _, fun resp hresp => absurd hresp (by simp)⟩
      · -- The extraction is logged before its response is made.
        obtain ⟨hspan, rfl⟩ := hans.2
        have hgrown : Later u { u with extractions := ⟨c, url, final, outcome, hspan⟩
            :: u.extractions } := List.subset_cons_self _ _
        refine ⟨hbounded'.of_entries hgrown fun _ _ _ h => h, hgrown, ?_⟩
        apply Contract.Keeps.quiet quiet_elapsedMs
        intro v ms hv
        have hwithin : ExtractWithin v c (ExtractResponse.ofOutcome final outcome ms) :=
          extractWithin_ofOutcome (hv List.mem_cons_self) ms
        refine (storeExtract_keeps hwithin _).bind ?_
        intro w resp hresp resp' hresp'
        rw [← Except.ok.inj hresp']
        exact hresp

end Calls

/-! ## Requests -/

theorem Within.later {s t : Shared lib} (hst : Later s t) {c : Config} {reply : Reply}
    (h : Within g s c reply) : Within g t c reply := by
  rcases reply with (_ | resp) | (_ | resp) | response
  · trivial
  · exact h
  · trivial
  · exact ExtractWithin.mono h hst le_rfl rfl
  · intro hok
    rcases h hok with hpage | ⟨resp, hwithin, hmade⟩
    · exact Or.inl hpage
    · exact Or.inr ⟨resp, hwithin.mono hst le_rfl rfl, hmade⟩

theorem within_errorResponse (s : Shared lib) (c : Config) (id : Json) (e : JsonRpcErrorObject) :
    Within g s c (.mcpCall (McpGateway.errorResponse id e)) :=
  fun h => absurd h (by simp [McpGateway.errorResponse])

/-- Errors have no limits. -/
theorem within_of_refuses {reply : Reply} (h : reply.Refuses) (s : Shared lib) (c : Config) :
    Within g s c reply := by
  rcases reply with result | result | response
  · obtain ⟨e, rfl⟩ := h
    trivial
  · obtain ⟨e, rfl⟩ := h
    trivial
  · obtain ⟨id, e, rfl⟩ := h
    exact within_errorResponse s c id e

/-- **Every request keeps the contract.** -/
theorem serve_keeps (c : Config) (r : Request) (s : Shared lib) :
    (contract g lib).Keeps (view g lib c) (fun t reply => Within g t c reply)
      (serve (configured g c) r) s := by
  rcases serve_cases (configured g c) r with ⟨reply, hserve, hrefuses⟩ | ⟨req, -, hserve⟩
    | ⟨url, -, hserve⟩ | ⟨id, req, -, hserve⟩ | ⟨id, url, -, hserve⟩
  · rw [hserve]
    exact within_of_refuses hrefuses s c
  · rw [hserve, CacheSoundness.http_searchProgram_eq]
    have hsearch : (contract g lib).Keeps (view g lib c)
        (fun t r => Within g t c (.httpSearch r))
        (searchSteps (configured g c) Except.ok
          (fun e => (HttpGateway.mapSearchError e).map Except.error) HttpGateway.metricOf req)
        s := by
      apply searchSteps_keeps
      · exact fun t resp h => h
      · intro t e failed hf
        obtain ⟨appErr, _, rfl⟩ := Option.map_eq_some_iff.mp hf
        exact trivial
    exact hsearch.bind fun t r h => h
  · rw [hserve]
    apply (runExtract_keeps url).bind
    intro t r h
    cases r with
    | error e => exact trivial
    | ok resp => exact h resp rfl
  · rw [hserve, CacheSoundness.mcp_searchProgram_eq]
    have hsearch : (contract g lib).Keeps (view g lib c)
        (fun t r => Within g t c (.mcpCall r))
        (searchSteps (configured g c) (McpGateway.toolCallResult g.searchCodec id)
          (CacheSoundness.mcpFail id) HttpGateway.metricOf req) s := by
      apply searchSteps_keeps
      · intro t resp h _
        refine Or.inl ⟨resp, h, ?_⟩
        rw [CacheSoundness.toolCallResult_id]
      · intro t e failed hf
        obtain ⟨err, rfl⟩ := CacheSoundness.mcpFail_eq_some hf
        exact within_errorResponse t c id err
    exact hsearch.bind fun t r h => h
  · rw [hserve]
    have hextract : (contract g lib).Keeps (view g lib c)
        (fun t r => Within g t c (.mcpCall r))
        (McpGateway.extractProgram (configured g c) id url) s := by
      unfold McpGateway.extractProgram
      apply (runExtract_keeps url).bind
      intro t r h
      cases r with
      | error e => exact within_errorResponse t c id (McpGateway.extractErrorObject e)
      | ok resp =>
          intro _
          refine Or.inr ⟨resp, h resp rfl, ?_⟩
          rw [CacheSoundness.toolCallResult_id]
          rfl
    exact hextract.bind fun t r h => h

/-! ## The pool -/

theorem Bounded.empty : Bounded g (Shared.empty lib) where
  search _ _ _ _ hentry _ := absurd hentry (by simp [Shared.empty])
  extract _ _ _ _ hentry _ := absurd hentry (by simp [Shared.empty])

/-- **Limits hold among processes that suit each other.**  In every interleaving of
requests to processes with any configurations over one cache, in which no lookup finds
an entry of a writer with larger limits or another output format, every successful
reply is within the limits of the process that serves it. -/
theorem served_within (g : Gateway) (lib : Extract.SpanLib) (reqs : List (Config × Request))
    {Q : Pool ServerI (Shared lib) Reply}
    (hruns : Pool.Runs ((sharedStore g lib).admitting (entryFits g))
      ⟨Shared.empty lib, threads g reqs⟩ Q) :
    ∀ (i : ℕ) (c : Config) (r : Request) (reply : Reply), reqs[i]? = some (c, r) →
      Q.threads[i]? = some (.ret reply) → Within g Q.store c reply := by
  have hinit : (contract g lib).Sound ((sharedStore g lib).admitting (entryFits g))
      (fun i s reply => ∀ c r, reqs[i]? = some (c, r) → Within g s c reply)
      ⟨Shared.empty lib, threads g reqs⟩ := by
    refine ⟨Bounded.empty, fun i p hp => ?_⟩
    rw [threads, List.getElem?_map, Option.map_eq_some_iff] at hp
    obtain ⟨⟨c, r⟩, hr, rfl⟩ := hp
    apply Contract.Keeps.tagged
    apply (serve_keeps c r (Shared.empty lib)).mono
    intro s reply h c' r' hr'
    obtain ⟨rfl, -⟩ := Prod.mk.inj (Option.some.inj (hr.symm.trans hr'))
    exact h
  have hfinal := hinit.runs (fun i s t reply h hst c r hr => (h c r hr).later hst)
    (fun s t (hs : Bounded g s) hst => hs.forgets hst) hruns
  intro i c r reply hr hreply
  exact hfinal.2 i _ hreply c r hr

/-! ## A page in a cache -/

open CacheSoundness (pageBytes rustKey rustPage rustResults rustSearch serdeGateway)

/-- The default configuration with another limit on pages. -/
def limited (maxResultsPerPage : ℕ) : Config :=
  { Config.default with
    search := { Config.default.search with maxResultsPerPage := maxResultsPerPage } }

/-- Libraries that are not asked for. -/
def rustLib : Extract.SpanLib :=
  ⟨⟨fun _ _ => none, fun _ => "200 OK"⟩, Extract.decodingError, Extract.plainLib, fun _ _ => none,
    Platform.ascii⟩

/-- The store after the page, which a process with the default limit has written. -/
def rustStore : Shared rustLib where
  entries := Function.update (fun _ => none) rustKey (some (limited 20, pageBytes rustPage))
  extractions := []

/-- A process with the default limit fills the cache, and one with the limit `n` hits it. -/
theorem runs_rust (n : ℕ) (ok : Shared rustLib → ServerI.Op → Prop)
    (hempty : ∀ o, ok (Shared.empty rustLib) o) (hfilled : ∀ o, ok rustStore (limited n, o)) :
    Pool.Runs ((sharedStore serdeGateway rustLib).admitting ok)
      ⟨Shared.empty rustLib,
        threads serdeGateway [(limited 20, rustSearch), (limited n, rustSearch)]⟩
      ⟨rustStore, [.ret (.httpSearch (.ok rustPage)),
        .ret (.httpSearch (.ok { rustPage with cached := true, timingMs := 0 }))]⟩ := by
  have hset : ((sharedStore serdeGateway rustLib).admitting ok).answer (Shared.empty rustLib)
      (limited 20, .cacheSet rustKey (pageBytes rustPage) 300) () rustStore :=
    ⟨hempty _, Or.inr rfl⟩
  have hentry : rustStore.entries rustKey = some (limited 20, pageBytes rustPage) := by
    simp only [rustStore, Function.update_self]
  have hhit : (some (pageBytes rustPage)).bind
      (configured serdeGateway (limited n)).searchCodec.fromSlice = some rustPage :=
    serdeGateway.searchCodec.fromSlice_toVec rfl
  have hget : ((sharedStore serdeGateway rustLib).admitting ok).answer rustStore
      (limited n, .cacheGet rustKey) (some (pageBytes rustPage)) rustStore := by
    refine ⟨hfilled _, rfl, Or.inr (Or.inl ?_)⟩
    rw [hentry, Option.map_some]
  refine .head (.call (I := ServerI) (i := 0) (o := (limited 20, GatewayOp.cacheGet _)) (r := none)
    rfl ⟨hempty _, rfl, Or.inl rfl⟩) ?_
  refine .head (.call (I := ServerI) (i := 0) (o := (limited 20, GatewayOp.engineSearch _ _ _ _))
    (r := .ok rustResults) rfl ⟨hempty _, rfl⟩) ?_
  refine .head (.call (I := ServerI) (i := 0) (o := (limited 20, GatewayOp.elapsedMs))
    (r := (7 : UInt64)) rfl ⟨hempty _, rfl⟩) ?_
  refine .head (.call (I := ServerI) (i := 0) (o := (limited 20, GatewayOp.record _)) (r := ()) rfl
    ⟨hempty _, rfl⟩) ?_
  refine .head (.call (I := ServerI) (i := 0) rfl hset) ?_
  refine .head (.call (I := ServerI) (i := 1) rfl hget) ?_
  refine .head (.call (I := ServerI) (i := 1) (o := (limited n, GatewayOp.elapsedMs))
    (r := (0 : UInt64))
    (k := fun ms => .ret (.httpSearch (.ok { rustPage with cached := true, timingMs := ms })))
    ?_ ⟨hfilled _, rfl⟩) .refl
  refine congrArg some ?_
  dsimp only
  rw [hhit]
  rfl

/-- A process with the limit 50 hits the page of one with the limit 20. -/
theorem served_within_rust : Within serdeGateway rustStore (limited 50)
    (.httpSearch (.ok { rustPage with cached := true, timingMs := 0 })) := by
  have hempty : ∀ o, entryFits serdeGateway (Shared.empty rustLib) o := by
    rintro ⟨c, o⟩
    cases o with
    | cacheGet key => exact fun writer bytes hentry => absurd hentry (by simp [Shared.empty])
    | _ => exact trivial
  have hfilled : ∀ o, entryFits serdeGateway rustStore (limited 50, o) := by
    intro o
    cases o with
    | cacheGet key =>
        intro writer bytes hentry
        by_cases hkey : key = rustKey
        · subst hkey
          simp only [rustStore, Function.update_self, Option.some.injEq, Prod.mk.injEq] at hentry
          obtain ⟨rfl, -⟩ := hentry
          refine ⟨fun _ _ => ?_, fun url h => ?_, fun url h => ?_⟩
          · show 20 ≤ 50
            decide
          · exact absurd h (Search.cacheKey_ne_extractCacheKey _ _ url)
          · exact absurd h (Search.cacheKey_ne_extractCacheKey _ _ url)
        · simp only [rustStore, Function.update_of_ne hkey] at hentry
          exact absurd hentry (by simp)
    | _ => exact trivial
  have hruns := runs_rust 50 (entryFits serdeGateway) hempty hfilled
  exact served_within serdeGateway rustLib _ hruns 1 (limited 50) rustSearch _ rfl rfl

/-- A process with the limit 1 serves both results that one with the limit 20 has found. -/
theorem served_exceeds : ¬ ∀ (g : Gateway) (lib : Extract.SpanLib) (reqs : List (Config × Request)),
    (∀ p ∈ reqs, p.1.validate g.platform = .ok ()) →
    ∀ Q : Pool ServerI (Shared lib) Reply,
      Pool.Runs (sharedStore g lib) ⟨Shared.empty lib, threads g reqs⟩ Q →
      ∀ (i : ℕ) (c : Config) (r : Request) (reply : Reply), reqs[i]? = some (c, r) →
        Q.threads[i]? = some (.ret reply) → Within g Q.store c reply := by
  intro h
  have hvalid : ∀ p ∈ [(limited 20, rustSearch), (limited 1, rustSearch)],
      p.1.validate serdeGateway.platform = .ok () := by
    intro p hp
    simp only [List.mem_cons, List.not_mem_nil, or_false] at hp
    rcases hp with rfl | rfl
    · rfl
    · rfl
  have hruns := runs_rust 1 (fun _ _ => True) (fun _ => trivial) fun _ => trivial
  have hwithin := h serdeGateway rustLib _ hvalid _ hruns.of_admitting 1 (limited 1) rustSearch _
    rfl rfl
  exact absurd hwithin (show ¬ 2 ≤ 1 by decide)

end CacheLimits
