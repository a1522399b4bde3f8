/-
# Pages of a ranking

The adapter asks for page `p` at the offset `20 * (p - 1)`, and `finalizeResults` cuts
what comes back to `maxResultsPerPage`.

`pages_tile_iff`: the pages 1 to 50 are the first 1000 entries of the ranking exactly
when nothing is cut.  With a smaller page the entries between the cut and the next
offset are on no page.
-/
import Serica.CacheSoundness
import Serica.DuckDuckGo

/-! ## Windows of a list -/

namespace Windows

variable {α : Type}

/-- The `i`-th window of `k` elements. -/
def window (k : ℕ) (xs : List α) (i : ℕ) : List α := (xs.drop (i * k)).take k

/-- The first `n` windows, side by side, are the start of the list. -/
theorem flatMap_window (k n : ℕ) (xs : List α) :
    (List.range n).flatMap (window k xs) = xs.take (n * k) := by
  induction n with
  | zero => simp
  | succ n ih =>
      rw [List.range_succ, List.flatMap_append, ih, List.flatMap_singleton, window,
        Nat.succ_mul, List.take_add]

/-- Windows that are cut to `m` elements still tile the list when nothing is cut, and
only then. -/
theorem flatMap_take_window_iff {k n m : ℕ} (hn : 0 < n) (xs : List α) :
    ((List.range n).flatMap fun i => (window k xs i).take m) = xs.take (n * k)
      ↔ k ≤ m ∨ xs.length ≤ m := by
  constructor
  · intro h
    by_contra hcut
    rw [not_or, not_le, not_le] at hcut
    have hlen := congrArg List.length h
    rw [← flatMap_window, List.length_flatMap, List.length_flatMap] at hlen
    -- No window grows, and the first one loses an element.
    have hle : ∀ i ∈ List.range n, ((window k xs i).take m).length ≤ (window k xs i).length := by
      intro i _
      rw [List.length_take]
      omega
    have hlt : ((window k xs 0).take m).length < (window k xs 0).length := by
      rw [window, List.length_take, List.length_take, Nat.zero_mul, List.drop_zero]
      omega
    exact absurd hlen (List.sum_lt_sum _ _ hle ⟨0, List.mem_range.mpr hn, hlt⟩).ne
  · intro h
    rw [← flatMap_window]
    apply List.flatMap_congr
    intro i _
    apply List.take_of_length_le
    rw [window, List.length_take, List.length_drop]
    omega

end Windows

namespace SearchPaging

open CacheSoundness (SearchResponse.Agrees searchSteps finishSteps)

variable (g : Gateway)

/-! ## The response to a search -/

/-- A response made for `req` of an outcome of the engine. -/
def MadeFrom (req : SearchRequest) (outcome : Except SearchError (List SearchResult))
    (resp : SearchResponse) : Prop :=
  ∃ results timingMs, (outcome = .ok results ∨ results = [] ∧ outcome = .error .parseEmpty)
    ∧ SearchResponse.Agrees resp (Search.finalizeResults g.platform results req
        g.config.search.maxResultsPerPage timingMs)

/-- The answers that a search gets: the engine's are the adapter's, and what the cache
holds under its key is a response made for the same request. -/
structure Answers (a : DuckDuckGo.Adapter) (req : SearchRequest) (env : Env GatewayI) :
    Prop where
  engine : ∀ n, env n (.engineSearch req.query req.page req.language req.safeSearch)
    = a.search req.query req.page req.language req.safeSearch
  cache : ∀ n bytes resp, env n (.cacheGet (Search.cacheKey g.hash req)) = some bytes →
    g.searchCodec.fromSlice bytes = some resp →
    MadeFrom g req (a.search req.query req.page req.language req.safeSearch) resp

variable {g} {a : DuckDuckGo.Adapter} {req : SearchRequest} {env : Env GatewayI}

section Steps

variable {ρ : Type} {reply : SearchResponse → ρ} {fail : SearchError → Option ρ}
  {metric : SearchError → Metric}

theorem finishSteps_result {results : List SearchResult}
    {outcome : Except SearchError (List SearchResult)}
    (h : outcome = .ok results ∨ results = [] ∧ outcome = .error .parseEmpty) (n : ℕ) :
    ∃ resp, (finishSteps g reply req results).result env n = reply resp
      ∧ MadeFrom g req outcome resp := by
  refine ⟨Search.finalizeResults g.platform results req g.config.search.maxResultsPerPage
    (env n .elapsedMs), ?_, results, env n .elapsedMs, h, rfl⟩
  unfold finishSteps
  rw [Prog.result_call, Prog.result_call, Prog.result_bind, Codec.result_storeAndReturn]
  rfl

variable (reply fail metric) in
/-- A search that gets results, or an empty page, replies with a response made for its
request. -/
theorem searchSteps_result (h : Answers g a req env)
    (hempty : ∀ e, a.search req.query req.page req.language req.safeSearch = .error e →
      e = .parseEmpty) (hfail : fail .parseEmpty = none) (n : ℕ) :
    ∃ resp, (searchSteps g reply fail metric req).result env n = reply resp
      ∧ MadeFrom g req (a.search req.query req.page req.language req.safeSearch) resp := by
  unfold searchSteps
  rw [Prog.result_call]
  cases hhit : (env n (.cacheGet (Search.cacheKey g.hash req))).bind g.searchCodec.fromSlice with
  | some response =>
      obtain ⟨bytes, hbytes, hresp⟩ := Option.bind_eq_some_iff.mp hhit
      obtain ⟨results, timingMs, houtcome, hagrees⟩ := h.cache n bytes response hbytes hresp
      exact ⟨_, rfl, results, timingMs, houtcome, hagrees⟩
  | none =>
      dsimp only
      rw [Prog.result_call, h.engine]
      cases hsearch : a.search req.query req.page req.language req.safeSearch with
      | ok results => exact finishSteps_result (Or.inl rfl) _
      | error e =>
          obtain rfl := hempty e hsearch
          dsimp only
          rw [Prog.result_call, hfail]
          exact finishSteps_result (Or.inr ⟨rfl, rfl⟩) _

end Steps

/-! ## Fifty pages -/

/-- The request for page `i + 1`, without safe search. -/
def pageRequest (query : String) (language : Option String) (i : ℕ) : SearchRequest :=
  ⟨query, UInt32.ofNat (i + 1), 0, language⟩

/-- The results on the pages 1 to 50, one after the other, are the first 1000 entries of
the ranking.  The search for page `i + 1` runs in `env i`. -/
def Tiles (g : Gateway) (env : ℕ → Env GatewayI) (query : String) (language : Option String)
    (ranking : List SearchResult) : Prop :=
  ∃ responses : ℕ → SearchResponse,
    (∀ i < 50, (HttpGateway.searchProgram g (pageRequest query language i)).result (env i) 0
      = .ok (responses i))
    ∧ (List.range 50).flatMap (fun i => (responses i).results) = ranking.take 1000

variable {query : String} {language : Option String} {ranking : List SearchResult}

theorem toNat_offset_pageRequest {i : ℕ} (hi : i < 50) :
    (DuckDuckGo.offset (pageRequest query language i).page).toNat = i * 20 := by
  have hpage : (pageRequest query language i).page.toNat = i + 1 := by
    rw [pageRequest, UInt32.toNat_ofNat', Nat.mod_eq_of_lt (by omega)]
  rw [DuckDuckGo.toNat_offset (by omega) (by omega), hpage, Nat.add_sub_cancel]

theorem search_pageRequest (h : DuckDuckGo.Ranks a query language ranking) {i : ℕ} (hi : i < 50) :
    a.search query (pageRequest query language i).page language 0
      = if Windows.window 20 ranking i = [] then .error .parseEmpty
        else .ok (Windows.window 20 ranking i) := by
  rw [DuckDuckGo.search_of_ranks h, toNat_offset_pageRequest hi]
  rfl

/-- A page holds its window, cut to its size. -/
theorem results_of_madeFrom (h : DuckDuckGo.Ranks a query language ranking) {i : ℕ} (hi : i < 50)
    {resp : SearchResponse} (hresp : MadeFrom g (pageRequest query language i)
      (a.search query (pageRequest query language i).page language 0) resp) :
    resp.results = (Windows.window 20 ranking i).take g.config.search.maxResultsPerPage := by
  obtain ⟨results, timingMs, houtcome, hagrees⟩ := hresp
  have hresults : resp.results = results.take g.config.search.maxResultsPerPage := by
    have := congrArg SearchResponse.results hagrees
    exact this
  rw [search_pageRequest h hi] at houtcome
  split_ifs at houtcome with hnil
  · obtain rfl : results = [] := by simpa using houtcome
    rw [hresults, hnil]
  · obtain rfl : Windows.window 20 ranking i = results := by simpa using houtcome
    exact hresults

/-- The search for a page succeeds, with the page's window cut to the page size. -/
theorem searchProgram_page (h : DuckDuckGo.Ranks a query language ranking) {i : ℕ} (hi : i < 50)
    (hans : Answers g a (pageRequest query language i) env) : ∃ resp,
      (HttpGateway.searchProgram g (pageRequest query language i)).result env 0 = .ok resp
      ∧ resp.results
          = (Windows.window 20 ranking i).take g.config.search.maxResultsPerPage := by
  rw [CacheSoundness.http_searchProgram_eq]
  have hempty : ∀ e, a.search (pageRequest query language i).query
      (pageRequest query language i).page (pageRequest query language i).language
      (pageRequest query language i).safeSearch = .error e → e = .parseEmpty := by
    intro e he
    rw [show a.search (pageRequest query language i).query
        (pageRequest query language i).page (pageRequest query language i).language
        (pageRequest query language i).safeSearch = _ from search_pageRequest h hi] at he
    split_ifs at he
    exact (Except.error.inj he).symm
  obtain ⟨resp, hresult, hmade⟩ := searchSteps_result Except.ok
    (fun e => (HttpGateway.mapSearchError e).map Except.error) HttpGateway.metricOf hans hempty
    rfl 0
  exact ⟨resp, hresult, results_of_madeFrom h hi hmade⟩

/-- What the pages hold, one after the other. -/
theorem tiles_iff_windows {env : ℕ → Env GatewayI} (h : DuckDuckGo.Ranks a query language ranking)
    (hans : ∀ i < 50, Answers g a (pageRequest query language i) (env i)) :
    Tiles g env query language ranking
      ↔ ((List.range 50).flatMap fun i =>
          (Windows.window 20 ranking i).take g.config.search.maxResultsPerPage)
        = ranking.take 1000 := by
  constructor
  · rintro ⟨responses, hok, hconcat⟩
    rw [← hconcat]
    apply List.flatMap_congr
    intro i hi
    have hi' := List.mem_range.mp hi
    obtain ⟨resp, hresult, hresults⟩ := searchProgram_page h hi' (hans i hi')
    rw [hok i hi'] at hresult
    rw [Except.ok.inj hresult, hresults]
  · intro hconcat
    have : Inhabited SearchResponse := ⟨⟨[], 0, 0, 0, false⟩⟩
    choose! responses hok hresults using fun i (hi : i < 50) =>
      searchProgram_page h hi (hans i hi)
    refine ⟨responses, hok, ?_⟩
    rw [← hconcat]
    apply List.flatMap_congr
    intro i hi
    exact hresults i (List.mem_range.mp hi)

/-- **Pages tile the ranking** if and only if a page has room for the whole window, or
for the whole ranking. -/
theorem pages_tile_iff {env : ℕ → Env GatewayI} (h : DuckDuckGo.Ranks a query language ranking)
    (hans : ∀ i < 50, Answers g a (pageRequest query language i) (env i)) :
    Tiles g env query language ranking
      ↔ 20 ≤ g.config.search.maxResultsPerPage
        ∨ ranking.length ≤ g.config.search.maxResultsPerPage := by
  rw [tiles_iff_windows h hans]
  exact Windows.flatMap_take_window_iff (k := 20) (n := 50) (by decide) ranking

/-- The answers without a cache. -/
def uncached (a : DuckDuckGo.Adapter) : Env GatewayI
  | _, .cacheGet _ => none
  | _, .cacheSet _ _ _ => ()
  | _, .elapsedMs => (7 : UInt64)
  | _, .engineSearch query page language safeSearch => a.search query page language safeSearch
  | _, .record _ => ()
  | _, .extractAttempt _ => Attempt.elapsed

theorem answers_uncached (g : Gateway) (a : DuckDuckGo.Adapter) (req : SearchRequest) :
    Answers g a req (uncached a) where
  engine _ := rfl
  cache _ _ _ h _ := absurd h (by simp [uncached])

/-- A ranking of two entries. -/
def twoResults : List SearchResult :=
  [⟨"https://www.rust-lang.org/", "Rust", "A language"⟩, ⟨"https://crates.io/", "crates.io", ""⟩]

/-- A ranking of 45 entries, which takes three pages. -/
def manyResults : List SearchResult :=
  (List.range 45).map fun n => ⟨"https://docs.rs/" ++ n.repr, "Crate " ++ n.repr, ""⟩

theorem pages_tile_manyResults : Tiles CacheSoundness.serdeGateway
    (fun _ => uncached (DuckDuckGo.echo "rust" none manyResults)) "rust" none manyResults :=
  (pages_tile_iff (DuckDuckGo.ranks_echo "rust" none (by decide))
    fun _ _ => answers_uncached _ _ _).mpr (Or.inl (by decide))

/-- A gateway whose pages have one entry. -/
def oneResultGateway : Gateway :=
  { CacheSoundness.serdeGateway with
    config :=
      { Config.default with
        search := { Config.default.search with maxResultsPerPage := 1 } } }

theorem oneResultGateway_valid :
    oneResultGateway.config.Valid oneResultGateway.platform := by
  have hdefault : Config.default.Valid Platform.ascii := Config.default_valid rfl
  exact { hdefault with maxResults := by decide }

/-- With pages of one entry the second of two entries is on no page. -/
theorem pages_skip : ¬ ∀ (g : Gateway) (a : DuckDuckGo.Adapter) (env : ℕ → Env GatewayI)
    (query : String) (language : Option String) (ranking : List SearchResult),
    g.config.Valid g.platform → DuckDuckGo.Ranks a query language ranking →
    (∀ i < 50, Answers g a (pageRequest query language i) (env i)) →
    Tiles g env query language ranking := by
  intro h
  have hranks : DuckDuckGo.Ranks (DuckDuckGo.echo "rust" none twoResults) "rust" none twoResults :=
    DuckDuckGo.ranks_echo "rust" none (by decide)
  have htiles := h oneResultGateway (DuckDuckGo.echo "rust" none twoResults)
    (fun _ => uncached (DuckDuckGo.echo "rust" none twoResults)) "rust" none twoResults
    oneResultGateway_valid hranks fun _ _ => answers_uncached _ _ _
  rw [tiles_iff_windows hranks fun _ _ => answers_uncached _ _ _] at htiles
  exact absurd (congrArg List.length htiles) (by decide)

end SearchPaging
