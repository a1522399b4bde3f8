/-
# What requests cost

The requests of both gateways run as a pool, in any surroundings at all: the cache, the
engine and the network may answer every call as they like.

* `counters_follow_replies`: the counters count every reply of the engine once.
* `work_bounded`: upstream is asked at most once for each request, and a key is written at
  most once for each usable answer.
* `cached_exact`: a reply says that it was cached exactly when its request did not go
  upstream.
-/
import Serica.Ledger
import Serica.SearchPaths

/-! ## Counters -/

/-- The counters of calls. -/
inductive Counter
  | searches
  | errors
  | blocked
  | challenged
  | emptyParses
deriving DecidableEq, Repr

def MetricsCollector.get (m : MetricsCollector) : Counter → UInt64
  | .searches => m.totalSearches
  | .errors => m.totalErrors
  | .blocked => m.totalBlocked
  | .challenged => m.totalChallenged
  | .emptyParses => m.totalEmptyParses

/-- The counter that a record adds to. -/
def Metric.counter : Metric → Counter
  | .search _ => .searches
  | .error => .errors
  | .blocked => .blocked
  | .challenged => .challenged
  | .emptyParse => .emptyParses

theorem MetricsCollector.get_record (m : MetricsCollector) (metric : Metric) (c : Counter) :
    (m.record metric).get c = m.get c + if metric.counter = c then 1 else 0 := by
  cases metric <;> cases c <;> simp [record, get, Metric.counter]

theorem MetricsCollector.get_new (c : Counter) : MetricsCollector.new.get c = 0 := by
  cases c <;> rfl

deriving instance DecidableEq for CacheSoundness.Ask

namespace RequestAccounts

open CacheSoundness (Request Reply Ask serve serve_cases searchSteps finishSteps
  http_searchProgram_eq mcp_searchProgram_eq mcpFail mcpFail_eq_some mcpFail_eq_none)

/-- A search that ends in a page is counted as a search. -/
def yieldsPage : Except SearchError (List SearchResult) → Bool
  | .ok _ => true
  | .error e => e = .parseEmpty

/-- The counters that a reply of the engine is to be counted by. -/
def countedBy (c : Counter) (result : Except SearchError (List SearchResult)) : Bool :=
  match result with
  | .ok _ => c = .searches
  | .error e => c = (HttpGateway.metricOf e).counter || c = .searches && e = .parseEmpty

/-- The answer is a reply of the engine that the counter is to count. -/
def isReply (c : Counter) : (o : GatewayOp) → o.Ans → Bool
  | .engineSearch _ _ _ _, result => countedBy c result
  | _, _ => false

/-- The call adds to the counter. -/
def isRecord (c : Counter) : (o : GatewayOp) → o.Ans → Bool
  | .record metric, _ => metric.counter = c
  | _, _ => false

/-- What a call adds to what is still to be counted. -/
def uncounted (c : Counter) (o : GatewayOp) (r : o.Ans) : ℤ :=
  (if isReply c o r then 1 else 0) - if isRecord c o r then 1 else 0

/-- Nothing, or one reply. -/
def atMostOne (m : ℤ) : Prop := m = 0 ∨ m = 1

section Steps

variable {g : Gateway} {ρ : Type} {reply : SearchResponse → ρ} {fail : SearchError → Option ρ}
  {c : Counter} {req : SearchRequest}

theorem storeAndReturn_uncounted {α : Type} (codec : Codec α) (key : String)
    (ttlSeconds : UInt64) (response : α) :
    (codec.storeAndReturn key ttlSeconds response).Balanced (I := GatewayI) (uncounted c)
      atMostOne (fun _ m => m = 0) 0 := by
  unfold Codec.storeAndReturn
  cases codec.toVec response with
  | some bytes => exact .free (Or.inl rfl) (fun _ => rfl) fun _ => rfl
  | none => exact rfl

/-- The end of a search settles the search that is still to be counted. -/
theorem finishSteps_uncounted (results : List SearchResult) :
    (finishSteps g reply req results).Balanced (I := GatewayI) (uncounted c) atMostOne
      (fun _ m => m = 0) (if c = .searches then 1 else 0) := by
  have hdue : atMostOne (if c = .searches then 1 else 0) := by
    unfold atMostOne
    split_ifs <;> simp
  unfold finishSteps
  refine .free hdue (fun _ => rfl) fun ms => ⟨hdue, fun _ => ?_⟩
  have hzero :
      (if c = .searches then 1 else 0 : ℤ) + uncounted c (.record (.search ms)) () = 0 := by
    cases c <;> rfl
  rw [hzero]
  exact (storeAndReturn_uncounted _ _ _ _).bind fun _ _ hm => hm

/-- **A search settles what it owes the counters.** -/
theorem searchSteps_uncounted (hfail : ∀ e, fail e = none ↔ e = .parseEmpty) :
    (searchSteps g reply fail HttpGateway.metricOf req).Balanced (I := GatewayI) (uncounted c)
      atMostOne (fun _ m => m = 0) 0 := by
  unfold searchSteps
  refine .free (Or.inl rfl) (fun _ => rfl) fun cachedBytes => ?_
  cases cachedBytes.bind g.searchCodec.fromSlice with
  | some response => exact .free (Or.inl rfl) (fun _ => rfl) fun _ => rfl
  | none =>
      refine ⟨Or.inl rfl, fun result => ?_⟩
      cases result with
      | ok results =>
          have hone : 0 + uncounted c (.engineSearch req.query req.page req.language req.safeSearch)
              (.ok results) = if c = .searches then 1 else 0 := by
            cases c <;> rfl
          rw [hone]
          exact finishSteps_uncounted results
      | error e =>
          -- The error is counted by its own counter, and an empty page as a search too.
          refine ⟨?_, fun _ => ?_⟩
          · cases c <;> cases e <;> first | exact Or.inl rfl | exact Or.inr rfl
          cases hf : fail e with
          | none =>
              obtain rfl := (hfail e).mp hf
              have hone : 0 + uncounted c (.engineSearch req.query req.page req.language
                    req.safeSearch) (.error .parseEmpty)
                  + uncounted c (.record (HttpGateway.metricOf .parseEmpty)) ()
                  = if c = .searches then 1 else 0 := by
                cases c <;> rfl
              rw [hone]
              exact finishSteps_uncounted []
          | some failed =>
              have hne : e ≠ .parseEmpty := by
                rintro rfl
                exact absurd (hf.symm.trans ((hfail _).mpr rfl)) (by simp)
              cases e with
              | parseEmpty => exact absurd rfl hne
              | _ => cases c <;> rfl

end Steps

variable {g : Gateway} {c : Counter}

/-- An extraction counts nothing. -/
theorem runExtract_uncounted (url : Url) :
    (g.runExtract url).Balanced (I := GatewayI) (uncounted c) atMostOne (fun _ m => m = 0) 0 := by
  unfold Gateway.runExtract
  refine .free (Or.inl rfl) (fun _ => rfl) fun cachedBytes => ?_
  cases cachedBytes.bind g.extractCodec.fromSlice with
  | some response => exact .free (Or.inl rfl) (fun _ => rfl) fun _ => rfl
  | none =>
      refine .free (Or.inl rfl) (fun _ => rfl) fun attempt => ?_
      rcases attempt with _ | (e | ⟨final, outcome⟩)
      · exact rfl
      · exact rfl
      · refine .free (Or.inl rfl) (fun _ => rfl) fun ms => ?_
        exact (storeAndReturn_uncounted _ _ _ _).bind fun _ _ hm => hm

theorem mcpFail_eq_none_iff (id : Json) (e : SearchError) :
    mcpFail id e = none ↔ e = .parseEmpty := by
  refine ⟨mcpFail_eq_none, ?_⟩
  rintro rfl
  rfl

theorem httpFail_eq_none_iff (e : SearchError) :
    (HttpGateway.mapSearchError e).map (Except.error (α := SearchResponse)) = none
      ↔ e = .parseEmpty := by
  cases e <;> simp [HttpGateway.mapSearchError]

/-- **Every request settles what it owes the counters.** -/
theorem serve_uncounted (r : Request) :
    (serve g r).Balanced (I := GatewayI) (uncounted c) atMostOne (fun _ m => m = 0) 0 := by
  rcases serve_cases g r with ⟨reply, hserve, -⟩ | ⟨req, -, hserve⟩ | ⟨url, -, hserve⟩
    | ⟨id, req, -, hserve⟩ | ⟨id, url, -, hserve⟩
  · rw [hserve]
    exact rfl
  · rw [hserve, http_searchProgram_eq]
    exact (searchSteps_uncounted httpFail_eq_none_iff).bind fun _ _ hm => hm
  · rw [hserve]
    exact (runExtract_uncounted url).bind fun _ _ hm => hm
  · rw [hserve, mcp_searchProgram_eq]
    exact (searchSteps_uncounted (mcpFail_eq_none_iff id)).bind fun _ _ hm => hm
  · rw [hserve]
    refine Prog.Balanced.bind ?_ fun _ _ hm => hm
    unfold McpGateway.extractProgram
    refine (runExtract_uncounted url).bind fun result m hm => ?_
    cases result <;> exact hm

/-! ### The counters of a process -/

variable {σ : Type} (S : Store GatewayI σ)

/-- The counters after a call. -/
def countCall (m : MetricsCollector) : GatewayOp → MetricsCollector
  | .record metric => m.record metric
  | _ => m

/-- Surroundings with the counters, which only records change. -/
def metered : Store GatewayI (σ × MetricsCollector) where
  answer s o r s' := S.answer s.1 o r s'.1 ∧ s'.2 = countCall s.2 o
  drift s s' := S.drift s.1 s'.1 ∧ s'.2 = s.2

variable {S}

/-- The counters are what has been recorded, as 64-bit numbers. -/
theorem get_eq_recorded {s : σ} {ts : List (Prog GatewayI Reply)}
    {Q : Pool GatewayI ((σ × MetricsCollector) × List (Event GatewayI)) Reply}
    (hruns : Pool.Runs (metered S).logged ⟨((s, .new), []), ts⟩ Q) (c : Counter) :
    Q.store.1.2.get c = UInt64.ofNat (Q.store.2.countP fun e => isRecord c e.op e.ans) := by
  induction hruns with
  | refl => exact MetricsCollector.get_new c
  | tail _ hstep ih =>
      cases hstep with
      | @call s s' ts i o k r hi hans =>
          obtain ⟨⟨-, hmetrics⟩, hlog⟩ := hans
          dsimp only at ih ⊢
          rw [hlog, List.countP_cons, hmetrics]
          cases o with
          | record metric =>
              rw [countCall, MetricsCollector.get_record, ih]
              by_cases hc : metric.counter = c
              · simp [isRecord, hc]
              · simp [isRecord, hc]
          | _ => simpa [isRecord, countCall] using ih
      | @drift s s' ts hd =>
          obtain ⟨⟨-, hmetrics⟩, hlog⟩ := hd
          dsimp only at ih ⊢
          rw [hlog, hmetrics]
          exact ih

/-- **The counters follow the engine.**  In every interleaving a counter has counted, modulo
`2 ^ 64`, no more replies than the engine gave, and all of them but at most one for each
request that has not returned. -/
theorem counters_follow_replies (g : Gateway) (reqs : List Request) (S : Store GatewayI σ) (s : σ)
    {Q : Pool GatewayI ((σ × MetricsCollector) × List (Event GatewayI)) Reply}
    (hruns : Pool.Runs (metered S).logged ⟨((s, .new), []), reqs.map (serve g)⟩ Q)
    (c : Counter) :
    ∃ recorded, Q.store.1.2.get c = UInt64.ofNat recorded
      ∧ recorded ≤ Q.store.2.countP (fun e => isReply c e.op e.ans)
      ∧ Q.store.2.countP (fun e => isReply c e.op e.ans) ≤ recorded + Q.unfinished := by
  have hstart : Pool.Accounted (I := GatewayI) (uncounted c) (fun _ => atMostOne)
      (fun _ (_ : Reply) m => m = 0) ⟨((s, MetricsCollector.new), []), reqs.map (serve g)⟩ := by
    refine .start fun i p hp => ?_
    rw [List.getElem?_map, Option.map_eq_some_iff] at hp
    obtain ⟨r, -, rfl⟩ := hp
    exact serve_uncounted r
  obtain ⟨hlow, hhigh⟩ := (hstart.runs hruns).settled
  unfold uncounted at hlow hhigh
  rw [logCost_sub (I := GatewayI)] at hlow hhigh
  refine ⟨_, get_eq_recorded hruns c, ?_, ?_⟩ <;> omega

/-- Surroundings that may answer anything. -/
def anything : Store GatewayI Unit := ⟨fun _ _ _ _ => True, fun _ _ => False⟩

open CacheSoundness (goKey goSearch pageBytes rustKey rustPage rustResults rustSearch serdeGateway)

/-- Two searches that took turns, with their calls, the latest first: one has found a page, and
the other one was blocked. -/
def bothSearched : Pool GatewayI ((Unit × MetricsCollector) × List (Event GatewayI)) Reply where
  store := (((), { MetricsCollector.new with
      totalSearches := 1, totalLatencyMs := 7, totalBlocked := 1 }),
    [⟨.cacheSet rustKey (pageBytes rustPage) serdeGateway.config.cache.ttlSeconds, ()⟩,
      ⟨.record (.search 7), ()⟩, ⟨.record .blocked, ()⟩, ⟨.elapsedMs, (7 : UInt64)⟩,
      ⟨.engineSearch "go" 1 none 0, .error .blocked⟩,
      ⟨.engineSearch "rust" 1 none 0, .ok rustResults⟩,
      ⟨.cacheGet goKey, none⟩, ⟨.cacheGet rustKey, none⟩])
  threads := [.ret (.httpSearch (.ok rustPage)),
    .ret (.httpSearch (.error (.serviceUnavailable "Search engine is currently blocked upstream")))]

/-- A call in surroundings that may answer anything. -/
theorem step_anything {m : MetricsCollector} {log : List (Event GatewayI)}
    {ts : List (Prog GatewayI Reply)} {i : ℕ} {o : GatewayOp} {k : o.Ans → Prog GatewayI Reply}
    (r : o.Ans) (hi : ts[i]? = some (.call (I := GatewayI) o k)) :
    Pool.Step (metered anything).logged ⟨(((), m), log), ts⟩
      ⟨(((), countCall m o), ⟨o, r⟩ :: log), ts.set i (k r)⟩ :=
  .callLogged hi ⟨trivial, rfl⟩

theorem runs_bothSearched :
    Pool.Runs (metered anything).logged
      ⟨(((), .new), []), [rustSearch, goSearch].map (serve serdeGateway)⟩ bothSearched := by
  refine .head (step_anything (i := 0) (o := GatewayOp.cacheGet _) none rfl) ?_
  refine .head (step_anything (i := 1) (o := GatewayOp.cacheGet _) none rfl) ?_
  refine .head (step_anything (i := 0) (o := GatewayOp.engineSearch _ _ _ _) (.ok rustResults)
    rfl) ?_
  refine .head (step_anything (i := 1) (o := GatewayOp.engineSearch _ _ _ _) (.error .blocked)
    rfl) ?_
  refine .head (step_anything (i := 0) (o := GatewayOp.elapsedMs) (7 : UInt64) rfl) ?_
  refine .head (step_anything (i := 1) (o := GatewayOp.record _) () rfl) ?_
  refine .head (step_anything (i := 0) (o := GatewayOp.record _) () rfl) ?_
  refine .head (step_anything (i := 0) (o := GatewayOp.cacheSet _ _ _) () rfl) ?_
  exact .refl

theorem counters_follow_bothSearched :
    ∃ recorded, bothSearched.store.1.2.get .searches = UInt64.ofNat recorded
      ∧ recorded ≤ bothSearched.store.2.countP (fun e => isReply .searches e.op e.ans)
      ∧ bothSearched.store.2.countP (fun e => isReply .searches e.op e.ans)
        ≤ recorded + bothSearched.unfinished :=
  counters_follow_replies serdeGateway [rustSearch, goSearch] anything () runs_bothSearched
    .searches

/-! ## Work -/

/-- An extraction that ended with a page. -/
def yieldsContent : Attempt → Bool
  | .finished (.ok _) => true
  | _ => false

/-- What a call asks upstream, and whether the answer is one to make a response of. -/
def upstream : (o : GatewayOp) → o.Ans → Option (Ask × Bool)
  | .engineSearch query page language safeSearch, result =>
      some (.search ⟨query, page, safeSearch, language⟩, yieldsPage result)
  | .extractAttempt url, attempt => some (.extract url, yieldsContent attempt)
  | _, _ => none

/-- What a call stores: the key, the bytes and their TTL. -/
def written : GatewayOp → Option (String × List UInt8 × UInt64)
  | .cacheSet key bytes ttlSeconds => some (key, bytes, ttlSeconds)
  | _ => none

section Work

variable {W : Type} [AddCommMonoid W] (up : Ask × Bool → W)
  (write : String × List UInt8 × UInt64 → W)

/-- What a call costs: what it costs to ask upstream, or to store. -/
def workCost (o : GatewayOp) (r : o.Ans) : W := (upstream o r).elim 0 up + (written o).elim 0 write

/-- What it costs to store a response. -/
def storeCost {α : Type} (codec : Codec α) (key : String) (ttlSeconds : UInt64)
    (response : α) : W :=
  (codec.toVec response).elim 0 fun bytes => write (key, bytes, ttlSeconds)

/-- The key under which the answer is stored. -/
def keyOf (g : Gateway) : Ask → String
  | .search req => Search.cacheKey g.hash req
  | .extract url => Search.extractCacheKey g.hash (Ssrf.normalizeExtractUrl url)

/-- How long the answer is kept. -/
def ttlOf (g : Gateway) : Ask → UInt64
  | .search _ => g.config.cache.ttlSeconds
  | .extract _ => g.config.cache.extractTtlSeconds

variable {up} {write}

/-- A call that neither goes upstream nor stores. -/
theorem free_work {ρ : Type} {during : W → Prop} {final : ρ → W → Prop} {m : W} {o : GatewayOp}
    {k : o.Ans → Prog GatewayI ρ} (hm : during m) (hup : ∀ r, upstream o r = none)
    (hwrite : written o = none)
    (h : ∀ r, (k r).Balanced (I := GatewayI) (workCost up write) during final m) :
    (Prog.call (I := GatewayI) o k).Balanced (workCost up write) during final m := by
  refine .free hm (fun r => ?_) h
  rw [workCost, hup r, hwrite]
  exact add_zero 0

theorem storeAndReturn_work {α : Type} {codec : Codec α} {key : String} {ttlSeconds : UInt64}
    {response : α} {during : W → Prop} {m : W} (hm : during m) :
    (codec.storeAndReturn key ttlSeconds response).Balanced (I := GatewayI) (workCost up write)
      during (fun a m' => a = response ∧ m' = m + storeCost write codec key ttlSeconds response)
      m := by
  unfold Codec.storeAndReturn storeCost
  cases codec.toVec response with
  | some bytes => exact ⟨hm, fun _ => ⟨rfl, by simp [workCost, upstream, written]⟩⟩
  | none => exact ⟨rfl, by simp⟩

/-- What a request has cost: nothing, or an answer from upstream, while it runs. -/
def Working (up : Ask × Bool → W) (ask : Option Ask) (m : W) : Prop :=
  m = 0 ∨ ∃ a b, ask = some a ∧ m = up (a, b)

/-- **How a request can end.**  It fails, with nothing stored; or its response is the
`cached` one, at no cost; or it is a fresh one, of one answer from upstream, which is stored
as it is. -/
inductive Ends {ρ α : Type} (up : Ask × Bool → W) (write : String × List UInt8 × UInt64 → W)
    (g : Gateway) (a : Ask) (codec : Codec α) (cached : α → Bool) (refused : ρ → Prop)
    (reply : α → ρ) : ρ → W → Prop
  | refused {x : ρ} : refused x → Ends up write g a codec cached refused reply x (up (a, false))
  | cached {response : α} : cached response = true →
      Ends up write g a codec cached refused reply (reply response) 0
  | fresh {response : α} : cached response = false →
      Ends up write g a codec cached refused reply (reply response)
        (up (a, true) + storeCost write codec (keyOf g a) (ttlOf g a) response)

section Search

variable {ρ : Type} {reply : SearchResponse → ρ} {fail : SearchError → Option ρ}
  {metric : SearchError → Metric} {req : SearchRequest} {ask : Option Ask}

theorem finishSteps_work (hask : ask = some (.search req)) (results : List SearchResult) :
    (finishSteps g reply req results).Balanced (I := GatewayI) (workCost up write)
      (Working up ask)
      (Ends up write g (.search req) g.searchCodec (·.cached) (fun x => ∃ e, fail e = some x) reply)
      (up (.search req, true)) := by
  have hworking : Working up ask (up (.search req, true)) := Or.inr ⟨_, _, hask, rfl⟩
  unfold finishSteps
  refine free_work hworking (fun _ => rfl) rfl fun ms => ?_
  refine free_work hworking (fun _ => rfl) rfl fun _ => ?_
  refine (storeAndReturn_work hworking).bind ?_
  rintro response m ⟨rfl, rfl⟩
  exact .fresh rfl

/-- **How a search ends.** -/
theorem searchSteps_work (hask : ask = some (.search req))
    (hempty : ∀ e, fail e = none → e = .parseEmpty) (hfail : fail .parseEmpty = none) :
    (searchSteps g reply fail metric req).Balanced (I := GatewayI) (workCost up write)
      (Working up ask)
      (Ends up write g (.search req) g.searchCodec (·.cached) (fun x => ∃ e, fail e = some x) reply)
      0 := by
  unfold searchSteps
  refine free_work (Or.inl rfl) (fun _ => rfl) rfl fun cachedBytes => ?_
  cases cachedBytes.bind g.searchCodec.fromSlice with
  | some response =>
      refine free_work (Or.inl rfl) (fun _ => rfl) rfl fun ms => ?_
      exact .cached rfl
  | none =>
      refine ⟨Or.inl rfl, fun result => ?_⟩
      have hcost : 0 + workCost up write (.engineSearch req.query req.page req.language
          req.safeSearch) result = up (.search req, yieldsPage result) := by
        simp [workCost, upstream, written]
      rw [hcost]
      cases result with
      | ok results => exact finishSteps_work hask results
      | error e =>
          refine free_work (Or.inr ⟨_, _, hask, rfl⟩) (fun _ => rfl) rfl fun _ => ?_
          cases hf : fail e with
          | none =>
              obtain rfl := hempty e hf
              exact finishSteps_work hask []
          | some failed =>
              have hunusable : yieldsPage (.error e) = false := by
                rw [yieldsPage, decide_eq_false_iff_not]
                rintro rfl
                exact absurd (hf.symm.trans hfail) (by simp)
              rw [hunusable]
              exact .refused ⟨e, hf⟩

end Search

/-- **How an extraction ends.** -/
theorem runExtract_work {url : Url} {ask : Option Ask} (hask : ask = some (.extract url)) :
    (g.runExtract url).Balanced (I := GatewayI) (workCost up write) (Working up ask)
      (Ends up write g (.extract url) g.extractCodec (·.cached) (fun x => ∃ e, x = .error e) .ok)
      0 := by
  unfold Gateway.runExtract
  refine free_work (Or.inl rfl) (fun _ => rfl) rfl fun cachedBytes => ?_
  cases cachedBytes.bind g.extractCodec.fromSlice with
  | some response =>
      refine free_work (Or.inl rfl) (fun _ => rfl) rfl fun ms => ?_
      exact .cached rfl
  | none =>
      refine ⟨Or.inl rfl, fun attempt => ?_⟩
      have hcost : 0 + workCost up write (.extractAttempt url) attempt
          = up (.extract url, yieldsContent attempt) := by
        simp [workCost, upstream, written]
      rw [hcost]
      have hworking : ∀ b, Working up ask (up (.extract url, b)) := fun b =>
        Or.inr ⟨_, b, hask, rfl⟩
      rcases attempt with _ | (e | ⟨final, outcome⟩)
      · exact .refused ⟨_, rfl⟩
      · exact .refused ⟨e, rfl⟩
      · refine free_work (hworking true) (fun _ => rfl) rfl fun ms => ?_
        refine (storeAndReturn_work (hworking true)).bind ?_
        rintro response m ⟨rfl, rfl⟩
        exact .fresh rfl

/-- The reply is made of a response with this flag and this serialised form. -/
def Carries (g : Gateway) (cached : Bool) (bytes : Option (List UInt8)) : Reply → Prop
  | .httpSearch result => ∃ response, result = .ok response ∧ response.cached = cached
      ∧ g.searchCodec.toVec response = bytes
  | .httpExtract result => ∃ response, result = .ok response ∧ response.cached = cached
      ∧ g.extractCodec.toVec response = bytes
  | .mcpCall r => (∃ id response, r = McpGateway.toolCallResult g.searchCodec id response
        ∧ response.cached = cached ∧ g.searchCodec.toVec response = bytes)
      ∨ ∃ id response, r = McpGateway.toolCallResult g.extractCodec id response
        ∧ response.cached = cached ∧ g.extractCodec.toVec response = bytes

/-- **How a request is answered**, and at what cost: it is refused, at the cost of at most one
answer from upstream; or it is answered by a cached response, at none; or by a fresh one, at
the cost of one answer and of storing the response. -/
inductive Answered (up : Ask × Bool → W) (write : String × List UInt8 × UInt64 → W)
    (g : Gateway) (ask : Option Ask) : Reply → W → Prop
  | invalid {reply : Reply} : reply.Refuses → Answered up write g ask reply 0
  | refused {reply : Reply} {a : Ask} : ask = some a → reply.Refuses →
      Answered up write g ask reply (up (a, false))
  | cached {reply : Reply} {bytes : Option (List UInt8)} : Carries g true bytes reply →
      Answered up write g ask reply 0
  | fresh {reply : Reply} {a : Ask} {bytes : Option (List UInt8)} : ask = some a →
      Carries g false bytes reply → Answered up write g ask reply
        (up (a, true) + bytes.elim 0 fun b => write (keyOf g a, b, ttlOf g a))

theorem extractProgram_work (id : Json) {url : Url} {ask : Option Ask}
    (hask : ask = some (.extract url)) :
    (McpGateway.extractProgram g id url).Balanced (I := GatewayI) (workCost up write)
      (Working up ask) (fun x => Answered up write g ask (.mcpCall x)) 0 := by
  unfold McpGateway.extractProgram
  refine (runExtract_work hask).bind ?_
  rintro x m (⟨e, rfl⟩ | hcached | hfresh)
  · exact .refused hask ⟨id, _, rfl⟩
  · exact .cached (Or.inr ⟨id, _, rfl, hcached, rfl⟩)
  · exact .fresh hask (Or.inr ⟨id, _, rfl, hfresh, rfl⟩)

/-- **Every request is answered at that cost.** -/
theorem serve_work (r : Request) :
    (serve g r).Balanced (I := GatewayI) (workCost up write) (Working up (r.ask g))
      (Answered up write g (r.ask g)) 0 := by
  rcases serve_cases g r with ⟨reply, hserve, hrefuses⟩ | ⟨req, hask, hserve⟩
    | ⟨url, hask, hserve⟩ | ⟨id, req, hask, hserve⟩ | ⟨id, url, hask, hserve⟩
  · rw [hserve]
    exact .invalid hrefuses
  · rw [hserve, http_searchProgram_eq]
    refine (searchSteps_work hask (fun e => (httpFail_eq_none_iff e).mp)
      ((httpFail_eq_none_iff _).mpr rfl)).bind ?_
    rintro x m (⟨e, he⟩ | hcached | hfresh)
    · obtain ⟨appErr, -, rfl⟩ := Option.map_eq_some_iff.mp he
      exact .refused hask ⟨appErr, rfl⟩
    · exact .cached ⟨_, rfl, hcached, rfl⟩
    · exact .fresh hask ⟨_, rfl, hfresh, rfl⟩
  · rw [hserve]
    refine (runExtract_work hask).bind ?_
    rintro x m (⟨e, rfl⟩ | hcached | hfresh)
    · exact .refused hask ⟨e, rfl⟩
    · exact .cached ⟨_, rfl, hcached, rfl⟩
    · exact .fresh hask ⟨_, rfl, hfresh, rfl⟩
  · rw [hserve, mcp_searchProgram_eq]
    refine (searchSteps_work hask (fun e => mcpFail_eq_none) rfl).bind ?_
    rintro x m (⟨e, he⟩ | hcached | hfresh)
    · obtain ⟨err, rfl⟩ := mcpFail_eq_some he
      exact .refused hask ⟨id, err, rfl⟩
    · exact .cached (Or.inl ⟨id, _, rfl, hcached, rfl⟩)
    · exact .fresh hask (Or.inl ⟨id, _, rfl, hfresh, rfl⟩)
  · rw [hserve]
    exact (extractProgram_work id hask).bind fun _ _ hm => hm

end Work

/-! ### One request -/

/-- What a run asks upstream, with whether the answers are usable. -/
def asked (log : List (Event GatewayI)) : List (Ask × Bool) :=
  log.filterMap fun e => upstream e.op e.ans

/-- What a run stores. -/
def stored (log : List (Event GatewayI)) : List (String × List UInt8 × UInt64) :=
  log.filterMap fun e => written e.op

/-- The work of a run in full: what is asked, and what is stored. -/
abbrev Kept := Multiset (Ask × Bool) × Multiset (String × List UInt8 × UInt64)

def keepAsked (p : Ask × Bool) : Kept := ({p}, 0)

def keepStored (w : String × List UInt8 × UInt64) : Kept := (0, {w})

theorem logCost_kept (log : List (Event GatewayI)) :
    logCost (I := GatewayI) (workCost keepAsked keepStored) log
      = ((asked log : Multiset _), (stored log : Multiset _)) := by
  induction log with
  | nil => rfl
  | cons e log ih =>
      have hcons : ∀ {α : Type} (x : Option α) (l : List α),
          ((x.elim l (· :: l) : List α) : Multiset α) = x.elim 0 ({·}) + (l : Multiset α) := by
        intro α x l
        cases x <;> simp
      have hasked : asked (e :: log) = (upstream e.op e.ans).elim (asked log) (· :: asked log) := by
        rw [asked, List.filterMap_cons]
        cases upstream e.op e.ans <;> rfl
      have hstored : stored (e :: log) = (written e.op).elim (stored log) (· :: stored log) := by
        rw [stored, List.filterMap_cons]
        cases written e.op <;> rfl
      rw [logCost_cons, ih, hasked, hstored, hcons, hcons, workCost]
      cases upstream e.op e.ans <;> cases written e.op <;> simp [keepAsked, keepStored]

/-- The request is refused: nothing is stored, and no usable answer was asked for. -/
def Refused (g : Gateway) (r : Request) (env : Env GatewayI) (n : ℕ) : Prop :=
  ((serve g r).result env n).Refuses ∧ stored ((serve g r).trace env n) = []
    ∧ (asked ((serve g r).trace env n) = []
      ∨ ∃ a, r.ask g = some a ∧ asked ((serve g r).trace env n) = [(a, false)])

/-- The request is served from the cache: nothing is asked or stored. -/
def ServedCached (g : Gateway) (r : Request) (env : Env GatewayI) (n : ℕ) : Prop :=
  ∃ bytes, Carries g true bytes ((serve g r).result env n)
    ∧ asked ((serve g r).trace env n) = [] ∧ stored ((serve g r).trace env n) = []

/-- The request is served with a new response, which is stored as far as it can be serialised. -/
def ServedFresh (g : Gateway) (r : Request) (env : Env GatewayI) (n : ℕ) : Prop :=
  ∃ a bytes, r.ask g = some a ∧ Carries g false bytes ((serve g r).result env n)
    ∧ asked ((serve g r).trace env n) = [(a, true)]
    ∧ stored ((serve g r).trace env n) = (bytes.map fun b => (keyOf g a, b, ttlOf g a)).toList

/-- The serialiser refuses to print some response. -/
def Unprintable (g : Gateway) : Prop :=
  (∃ response e, g.searchCodec.toStringPretty response = .error e)
    ∨ ∃ response e, g.extractCodec.toStringPretty response = .error e

/-- A tool result is an error only when its value cannot be printed. -/
theorem toStringPretty_of_refuses {α : Type} {codec : Codec α} {id : Json} {response : α}
    (h : (Reply.mcpCall (McpGateway.toolCallResult codec id response)).Refuses) :
    ∃ e, codec.toStringPretty response = .error e := by
  obtain ⟨id', err, herr⟩ := h
  unfold McpGateway.toolCallResult at herr
  cases hprint : codec.toStringPretty response with
  | error e => exact ⟨e, rfl⟩
  | ok text =>
      rw [hprint] at herr
      exact absurd (congrArg JsonRpcResponse.result herr) (by simp [McpGateway.errorResponse])

theorem Carries.unprintable {g : Gateway} {cached : Bool} {bytes : Option (List UInt8)}
    {reply : Reply} (h : Carries g cached bytes reply) (hrefuses : reply.Refuses) :
    Unprintable g := by
  cases reply with
  | httpSearch result =>
      obtain ⟨response, rfl, -, -⟩ := h
      obtain ⟨e, he⟩ := hrefuses
      exact absurd he (by simp)
  | httpExtract result =>
      obtain ⟨response, rfl, -, -⟩ := h
      obtain ⟨e, he⟩ := hrefuses
      exact absurd he (by simp)
  | mcpCall r =>
      rcases h with ⟨id, response, rfl, -, -⟩ | ⟨id, response, rfl, -, -⟩
      · exact Or.inl ⟨response, toStringPretty_of_refuses hrefuses⟩
      · exact Or.inr ⟨response, toStringPretty_of_refuses hrefuses⟩

/-- **How a request is served**, whatever the answers are.  It is refused, and nothing is
stored; or its response is marked as cached, and nothing is asked or stored; or its response
is not, and one usable answer was asked for, and the response itself is stored under the key
of the request, as far as it can be serialised.  The three exclude one another; a cached
response may only look like a refusal when it cannot be printed. -/
theorem cached_exact (g : Gateway) (r : Request) (env : Env GatewayI) (n : ℕ) :
    (Refused g r env n ∨ ServedCached g r env n ∨ ServedFresh g r env n)
      ∧ ¬(ServedCached g r env n ∧ ServedFresh g r env n)
      ∧ ¬(Refused g r env n ∧ ServedFresh g r env n)
      ∧ (Refused g r env n ∧ ServedCached g r env n → Unprintable g) := by
  have hwork : (serve g r).Balanced (I := GatewayI) (workCost keepAsked keepStored)
      (Working keepAsked (r.ask g)) (Answered keepAsked keepStored g (r.ask g)) 0 := serve_work r
  have hrun := hwork.run env n
  rw [zero_add, logCost_kept] at hrun
  unfold Refused ServedCached ServedFresh
  generalize (serve g r).result env n = reply at hrun ⊢
  generalize asked ((serve g r).trace env n) = calls at hrun ⊢
  generalize stored ((serve g r).trace env n) = stores at hrun ⊢
  refine ⟨?_, ?_, ?_, ?_⟩
  · generalize hm : (((calls : Multiset _), (stores : Multiset _)) : Kept) = m at hrun
    cases hrun with
    | invalid hrefuses =>
        obtain ⟨hcalls, hstores⟩ := Prod.mk.inj hm
        exact Or.inl ⟨hrefuses, (Multiset.coe_eq_zero _).mp hstores,
          Or.inl ((Multiset.coe_eq_zero _).mp hcalls)⟩
    | refused hask hrefuses =>
        obtain ⟨hcalls, hstores⟩ := Prod.mk.inj hm
        exact Or.inl ⟨hrefuses, (Multiset.coe_eq_zero _).mp hstores,
          Or.inr ⟨_, hask, Multiset.coe_eq_singleton.mp hcalls⟩⟩
    | cached hcarries =>
        obtain ⟨hcalls, hstores⟩ := Prod.mk.inj hm
        exact Or.inr (Or.inl ⟨_, hcarries, (Multiset.coe_eq_zero _).mp hcalls,
          (Multiset.coe_eq_zero _).mp hstores⟩)
    | @fresh a bytes hask hcarries =>
        refine Or.inr (Or.inr ⟨a, bytes, hask, hcarries, ?_⟩)
        cases bytes with
        | none =>
            obtain ⟨hcalls, hstores⟩ := Prod.mk.inj hm
            exact ⟨Multiset.coe_eq_singleton.mp hcalls, (Multiset.coe_eq_zero _).mp hstores⟩
        | some b =>
            obtain ⟨hcalls, hstores⟩ := Prod.mk.inj hm
            refine ⟨Multiset.coe_eq_singleton.mp ?_, Multiset.coe_eq_singleton.mp ?_⟩
            · simpa [keepAsked, keepStored] using hcalls
            · simpa [keepAsked, keepStored] using hstores
  · -- Whether a usable answer was asked for tells the last way from the others.
    rintro ⟨⟨_, -, hnone, -⟩, a, _, -, -, hone, -⟩
    exact absurd (hnone.symm.trans hone) (by simp)
  · rintro ⟨⟨-, -, hcalls⟩, a, _, -, -, hone, -⟩
    rcases hcalls with hnone | ⟨b, -, hfailed⟩
    · exact absurd (hnone.symm.trans hone) (by simp)
    · exact absurd (hfailed.symm.trans hone) (by simp)
  · rintro ⟨⟨hrefuses, -, -⟩, bytes, hcarries, -, -⟩
    exact hcarries.unprintable hrefuses

/-! ### Many requests -/

/-- The call asks upstream for this. -/
def isAsk (a : Ask) (o : GatewayOp) (r : o.Ans) : Bool := (upstream o r).any fun p => p.1 = a

/-- The call gets a usable answer to be stored under this key. -/
def isAnswer (g : Gateway) (key : String) (o : GatewayOp) (r : o.Ans) : Bool :=
  (upstream o r).any fun p => p.2 && keyOf g p.1 = key

/-- The call stores under this key. -/
def isStore (key : String) (o : GatewayOp) (_ : o.Ans) : Bool := (written o).any fun w => w.1 = key

theorem workCost_isAsk (a : Ask) :
    workCost (fun p => if p.1 = a then 1 else 0) (fun _ => 0)
      = fun (o : GatewayOp) (r : o.Ans) => if isAsk a o r then 1 else 0 := by
  funext o r
  unfold workCost isAsk
  cases upstream o r <;> cases written o <;> simp

theorem workCost_isStore (g : Gateway) (key : String) :
    workCost (fun p => if p.2 && keyOf g p.1 = key then -1 else 0)
        (fun w => if w.1 = key then 1 else 0)
      = fun (o : GatewayOp) (r : o.Ans) =>
        (if isStore key o r then 1 else 0 : ℤ) - if isAnswer g key o r then 1 else 0 := by
  funext o r
  cases o with
  | cacheSet k bytes ttlSeconds => simp [workCost, isStore, isAnswer, upstream, written]
  | engineSearch query page language safeSearch =>
      simp only [workCost, isStore, isAnswer, upstream, written, Option.elim_some, Option.elim_none,
        Option.any_some, Option.any_none]
      split_ifs <;> simp_all
  | extractAttempt url =>
      simp only [workCost, isStore, isAnswer, upstream, written, Option.elim_some, Option.elim_none,
        Option.any_some, Option.any_none]
      split_ifs <;> simp_all
  | _ => simp [workCost, isStore, isAnswer, upstream, written]

section Many

variable {σ : Type} {S : Store GatewayI σ} {W : Type} [AddCommMonoid W] (up : Ask × Bool → W)
  (write : String × List UInt8 × UInt64 → W)

/-- The requests start without any work. -/
theorem accounted_start (g : Gateway) (reqs : List Request) (s : σ) :
    Pool.Accounted (I := GatewayI) (workCost up write)
      (fun i => Working up ((reqs[i]?).bind (·.ask g)))
      (fun i => Answered up write g ((reqs[i]?).bind (·.ask g)))
      ⟨(s, []), reqs.map (serve g)⟩ := by
  refine .start fun i p hp => ?_
  rw [List.getElem?_map, Option.map_eq_some_iff] at hp
  obtain ⟨r, hr, rfl⟩ := hp
  rw [hr]
  exact serve_work r

/-- **The work of a pool is bounded by its requests.**  In every interleaving each thing is
asked upstream at most as often as it was requested, and a key is written at most once for
each usable answer to be stored under it. -/
theorem work_bounded (g : Gateway) (reqs : List Request) (S : Store GatewayI σ) (s : σ)
    {Q : Pool GatewayI (σ × List (Event GatewayI)) Reply}
    (hruns : Pool.Runs S.logged ⟨(s, []), reqs.map (serve g)⟩ Q) :
    (∀ a, Q.store.2.countP (fun e => isAsk a e.op e.ans)
        ≤ reqs.countP fun r => r.ask g = some a)
      ∧ ∀ key, Q.store.2.countP (fun e => isStore key e.op e.ans)
        ≤ Q.store.2.countP fun e => isAnswer g key e.op e.ans := by
  constructor
  · intro a
    have hwork := ((accounted_start (fun p => if p.1 = a then 1 else 0) (fun _ => 0) g reqs s).runs
      hruns).le_sum (fun i => if (reqs[i]?).any fun r => r.ask g = some a then 1 else 0)
      (fun i m hm => ?_) fun i reply m hm => ?_
    · rwa [workCost_isAsk, logCost_ite, hruns.length_eq, List.length_map,
        ← Pool.countP_eq_sum] at hwork
    · rcases hm with rfl | ⟨a', b, hask, rfl⟩
      · exact Nat.zero_le _
      · obtain ⟨r, hr, hask⟩ := Option.bind_eq_some_iff.mp hask
        simp [hr, hask]
    · cases hm with
      | invalid _ => exact Nat.zero_le _
      | refused hask _ =>
          obtain ⟨r, hr, hask⟩ := Option.bind_eq_some_iff.mp hask
          simp [hr, hask]
      | cached _ => exact Nat.zero_le _
      | @fresh a' bytes hask _ =>
          obtain ⟨r, hr, hask⟩ := Option.bind_eq_some_iff.mp hask
          cases bytes <;> simp [hr, hask]
  · intro key
    have hwork := ((accounted_start (fun p => if p.2 && keyOf g p.1 = key then (-1 : ℤ) else 0)
      (fun w => if w.1 = key then 1 else 0) g reqs s).runs hruns).le_sum (fun _ => 0)
      (fun i m hm => ?_) fun i reply m hm => ?_
    · rw [workCost_isStore, logCost_sub, Finset.sum_const_zero] at hwork
      omega
    · rcases hm with rfl | ⟨a, b, -, rfl⟩
      · exact le_rfl
      · dsimp only
        split_ifs <;> omega
    · cases hm with
      | invalid _ => exact le_rfl
      | refused _ _ => simp
      | cached _ => exact le_rfl
      | @fresh a bytes _ _ =>
          -- What is stored is stored under the key of the answer.
          cases bytes with
          | none => by_cases hkey : keyOf g a = key <;> simp [hkey]
          | some bytes => by_cases hkey : keyOf g a = key <;> simp [hkey]

end Many

theorem work_bounded_bothSearched :
    (∀ a, bothSearched.store.2.countP (fun e => isAsk a e.op e.ans)
        ≤ [rustSearch, goSearch].countP fun r => r.ask serdeGateway = some a)
      ∧ ∀ key, bothSearched.store.2.countP (fun e => isStore key e.op e.ans)
        ≤ bothSearched.store.2.countP fun e => isAnswer serdeGateway key e.op e.ans :=
  work_bounded serdeGateway [rustSearch, goSearch] (metered anything) ((), .new) runs_bothSearched

end RequestAccounts
