/-
# What the gateways ask for

A request is served by a program over `GatewayI`: it looks its key up in the shared
cache, asks the engine or starts an extraction, records metrics, reads its timer and
stores its response.

`runExtract` is the part that both gateways share as code.  The span that runs under
the timeout is one call, `extractAttempt`.
-/
import Serica.Error
import Serica.Interaction
import Serica.Search
import Serica.Ssrf

/-- The counters of the metrics collector. -/
inductive Metric
  | search (timingMs : UInt64)
  | error
  | blocked
  | challenged
  | emptyParse
deriving DecidableEq, Repr

/-- The outcome of the span under the timeout: it elapsed, or the span ended with an
error or with the final URL and what was extracted. -/
inductive Attempt
  | elapsed
  | finished (result : Except AppError (String × ExtractOutcome))

inductive GatewayOp
  | cacheGet (key : String)
  | cacheSet (key : String) (bytes : List UInt8) (ttlSeconds : UInt64)
  /-- `start.elapsed().as_millis()`. -/
  | elapsedMs
  | engineSearch (query : String) (page : UInt32) (language : Option String) (safeSearch : UInt8)
  | record (metric : Metric)
  | extractAttempt (url : Url)

abbrev GatewayOp.Ans : GatewayOp → Type
  | cacheGet _ => Option (List UInt8)
  | cacheSet _ _ _ => Unit
  | elapsedMs => UInt64
  | engineSearch _ _ _ _ => Except SearchError (List SearchResult)
  | record _ => Unit
  | extractAttempt _ => Attempt

abbrev GatewayI : Interface := ⟨GatewayOp, GatewayOp.Ans⟩

/-- The JSON form of a type: as bytes in the cache, and pretty-printed for a tool
result.  Serialisation may fail, and decodes to the value when it does not. -/
structure Codec (α : Type) where
  toVec : α → Option (List UInt8)
  fromSlice : List UInt8 → Option α
  toStringPretty : α → Except String String
  fromSlice_toVec : ∀ {a bytes}, toVec a = some bytes → fromSlice bytes = some a

/-- A codec that is not asked for. -/
def Codec.unasked (α : Type) : Codec α where
  toVec _ := none
  fromSlice _ := none
  toStringPretty _ := .error "not asked for"
  fromSlice_toVec h := absurd h (by simp)

/-- Stores a response when it can be serialised, and returns it. -/
def Codec.storeAndReturn {α : Type} (codec : Codec α) (key : String) (ttlSeconds : UInt64)
    (response : α) : Prog GatewayI α :=
  match codec.toVec response with
  | some bytes => .call (I := GatewayI) (.cacheSet key bytes ttlSeconds) fun _ => .ret response
  | none => .ret response

/-- What is stored may be returned, when storing it keeps the contract. -/
theorem Codec.storeAndReturn_keeps {α σ : Type} {C : Contract σ} {S : Store GatewayI σ}
    {codec : Codec α} {good : σ → α → Prop} {key : String} {ttlSeconds : UInt64} {response : α}
    {s : σ} (hlater : ∀ t u, good t response → C.rely t u → good u response)
    (hput : ∀ t bytes r u, C.inv t → good t response → codec.toVec response = some bytes →
      S.answer t (.cacheSet key bytes ttlSeconds) r u → C.inv u ∧ C.rely t u)
    (h : good s response) :
    C.Keeps S good (codec.storeAndReturn key ttlSeconds response) s := by
  unfold Codec.storeAndReturn
  cases hvec : codec.toVec response with
  | none => exact h
  | some bytes =>
      intro t hst hinv r u hans
      have hnow : good t response := hlater s t h hst
      obtain ⟨hinv', hrely⟩ := hput t bytes r u hinv hnow hvec hans
      exact ⟨hinv', hrely, hlater t u hnow hrely⟩

theorem Codec.result_storeAndReturn {α : Type} (codec : Codec α) (key : String)
    (ttlSeconds : UInt64) (response : α) (env : Env GatewayI) (n : ℕ) :
    (codec.storeAndReturn key ttlSeconds response).result env n = response := by
  unfold Codec.storeAndReturn
  cases codec.toVec response <;> rfl

/-- A page without results. -/
def Codec.emptyPage (timingMs : UInt64) : SearchResponse :=
  { results := [], totalResults := 0, page := 1, timingMs := timingMs, cached := false }

/-- What a running process holds: its configuration, the library functions it calls,
the hasher and the serialisers. -/
structure Gateway where
  config : Config
  platform : Platform
  hash : List UInt8 → UInt64
  searchCodec : Codec SearchResponse
  extractCodec : Codec ExtractResponse

namespace Gateway

variable (g : Gateway)

/-- `run_extract`. -/
def runExtract (url : Url) : Prog GatewayI (Except AppError ExtractResponse) :=
  let key := Search.extractCacheKey g.hash (Ssrf.normalizeExtractUrl url)
  .call (I := GatewayI) (.cacheGet key) fun cachedBytes =>
    match cachedBytes.bind g.extractCodec.fromSlice with
    | some response =>
        .call (I := GatewayI) .elapsedMs fun ms =>
          .ret (.ok { response with cached := true, timingMs := ms })
    | none =>
        .call (I := GatewayI) (.extractAttempt url) fun
          | .elapsed =>
              .ret (.error (.extractTimeout ("extract exceeded "
                ++ toString g.config.extract.timeoutMs.toNat ++ "ms")))
          | .finished (.error e) => .ret (.error e)
          | .finished (.ok (urlString, outcome)) =>
              .call (I := GatewayI) .elapsedMs fun ms =>
                (g.extractCodec.storeAndReturn key g.config.cache.extractTtlSeconds
                  (ExtractResponse.ofOutcome urlString outcome ms)).bind fun response =>
                    .ret (.ok response)

/-- What an extraction returns, by the answers that it gets. -/
theorem runExtract_result (env : Env GatewayI) (n : ℕ) (url : Url) :
    (g.runExtract url).result env n
      = match (env n (.cacheGet (Search.extractCacheKey g.hash
            (Ssrf.normalizeExtractUrl url)))).bind g.extractCodec.fromSlice with
        | some response =>
            .ok { response with cached := true, timingMs := env (n + 1) .elapsedMs }
        | none =>
            match env (n + 1) (.extractAttempt url) with
            | .elapsed => .error (.extractTimeout ("extract exceeded "
                ++ toString g.config.extract.timeoutMs.toNat ++ "ms"))
            | .finished (.error e) => .error e
            | .finished (.ok (urlString, outcome)) =>
                .ok (ExtractResponse.ofOutcome urlString outcome
                  (env (n + 2) .elapsedMs)) := by
  rw [runExtract, Prog.result_call]
  cases (env n (.cacheGet (Search.extractCacheKey g.hash
      (Ssrf.normalizeExtractUrl url)))).bind g.extractCodec.fromSlice with
  | some response => rfl
  | none =>
      dsimp only
      rw [Prog.result_call]
      cases env (n + 1) (.extractAttempt url) with
      | elapsed => rfl
      | finished result =>
          cases result with
          | error e => rfl
          | ok final =>
              dsimp only
              rw [Prog.result_call, Prog.result_bind, Codec.result_storeAndReturn]
              rfl

/-- A gateway that stores nothing and parses no URL. -/
def idle : Gateway where
  config := Config.default
  platform := Platform.ascii
  hash _ := 0
  searchCodec := Codec.unasked SearchResponse
  extractCodec := Codec.unasked ExtractResponse

end Gateway

/-- An empty cache, an engine without results, and a network that fails at once. -/
def idleEnv : Env GatewayI
  | _, .cacheGet _ => none
  | _, .cacheSet _ _ _ => ()
  | _, .elapsedMs => (0 : UInt64)
  | _, .engineSearch _ _ _ _ => Except.error SearchError.parseEmpty
  | _, .record _ => ()
  | _, .extractAttempt _ => .finished (.error (.serviceUnavailable "Failed to fetch URL"))
