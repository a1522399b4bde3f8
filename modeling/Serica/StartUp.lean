/-
# Start-up

`main.rs`: what happens between the command line and the first request, in the order of
the source.  A start-up ends early with an error, or with a panic where the source expects
a value.

* `buildGovernorConfig_isSome`: no rate limit lets the rate limiter fail.
* `startUp_never_panics_iff`: a validated configuration panics exactly when the server comes
  to a host that is no address.
-/
import Serica.Config
import Serica.Error
import Serica.SocketAddrText

namespace StartUp

/-! ## The source -/

/-- How a start-up ends early. -/
inductive Stop
  | error (message : String)
  | panic (message : String)
deriving DecidableEq

inductive Command
  | server
  | mcp
  | healthcheck
deriving DecidableEq

/-- What start-up is built with: whether the feature `redis-cache` is on, and the errors of
`redis::Client::open`, of the HTTP client with a proxy and of the parser of header values,
where they have one. -/
structure Build where
  redisCache : Bool
  openRedis : String → Option String
  proxyClient : String → Option String
  parseHeaderValue : String → Option String

inductive CacheLayer
  | noop
  | redis (url : String) (defaultTtl : UInt64)
deriving DecidableEq

inductive CorsLayer
  | any
  | origin (value : String)
deriving DecidableEq

structure GovernorConfig where
  periodMs : UInt64
  burstSize : UInt32
deriving DecidableEq

/-- What both gateways are given. -/
structure Shared where
  cache : CacheLayer
  searchProxy : Option String
  extractProxy : Option String
deriving DecidableEq

structure Http where
  general : GovernorConfig
  extract : GovernorConfig
  cors : Option CorsLayer
  keyGate : Option String
  addr : SocketAddr
deriving DecidableEq

inductive Started
  | healthcheck (port : UInt16)
  | mcp (shared : Shared)
  | server (shared : Shared) (http : Http)
deriving DecidableEq

/-- The panic of `init_logging`. -/
def initLogging (platform : Platform) (config : Config) : Except Stop Unit :=
  match platform.parseDirective config.server.logLevel with
  | none => .ok ()
  | some e => .error (.panic ("Invalid log level in config: " ++ e))

def checkMcpEnabled (config : Config) : Except String Unit :=
  if !config.mcp.enabled then
    .error "MCP server is disabled via config; set SERICA_MCP__ENABLED=true to enable it"
  else .ok ()

/-- Redis if it is configured and built in; its client is not connected yet. -/
def buildCache (build : Build) (config : Config) : Except Stop CacheLayer :=
  let redisUrl := config.cache.redisUrl.getD ""
  if redisUrl ≠ "" then
    if build.redisCache then
      match build.openRedis redisUrl with
      | none => .ok (.redis redisUrl config.cache.ttlSeconds)
      -- A URL that Redis does not take leaves the server uncached, with a warning.
      | some _ => .ok .noop
    else .error (.error ("cache.redis_url is set to '" ++ redisUrl
      ++ "' but this binary was built without the "
      ++ "redis-cache feature; rebuild with --features redis-cache or unset the "
      ++ "Redis URL to run uncached"))
  else .ok .noop

/-- The proxy that the adapter searches through. -/
def buildEngine (build : Build) (config : Config) : Except Stop (Option String) :=
  match config.proxy.searchUrl with
  | some proxyUrl =>
      match build.proxyClient proxyUrl with
      | none => .ok (some proxyUrl)
      | some e => .error (.error ("proxy.search_url is set to an invalid proxy URL: " ++ e))
  | none => .ok none

def buildShared (build : Build) (config : Config) : Except Stop Shared := do
  let cache ← buildCache build config
  let searchProxy ← buildEngine build config
  .ok ⟨cache, searchProxy, config.proxy.extractUrl⟩

/-- `GovernorConfigBuilder::finish`. -/
def finish (periodMs : UInt64) (burstSize : UInt32) : Option GovernorConfig :=
  if periodMs = 0 ∨ burstSize = 0 then none else some ⟨periodMs, burstSize⟩

/-- `build_governor_config`; the source expects a value. -/
def buildGovernorConfig (requestsPerMinute : UInt32) : Option GovernorConfig :=
  let effectiveRpm := max requestsPerMinute 1
  let periodMs := max (60000 / effectiveRpm.toUInt64) 1
  finish periodMs effectiveRpm

def expectGovernor (governor : Option GovernorConfig) : Except Stop GovernorConfig :=
  match governor with
  | some g => .ok g
  | none => .error
      (.panic "rate limiter config: burst_size and period are guaranteed non-zero")

def buildCorsLayer (build : Build) (origin : Option String) :
    Except String (Option CorsLayer) :=
  match origin with
  | none => .ok none
  | some o =>
      -- Blank is disabled.
      if o = "" then .ok none
      else if o = "*" then .ok (some .any)
      else match build.parseHeaderValue o with
        | none => .ok (some (.origin o))
        | some e => .error ("invalid cors.origin '" ++ o ++ "': " ++ e
            ++ " (set SERICA_CORS__ORIGIN or [cors].origin "
            ++ "in serica.toml to a valid origin, e.g. https://example.com, or leave it "
            ++ "unset to disable CORS)")

/-- The key that `check_api_key` asks for, if the gate is on. -/
def configuredKey (key : Option String) : Option String := key.filter (· ≠ "")

/-- `check_api_key`; `provided` is the key in the headers. -/
def checkApiKey (key provided : Option String) : Except AppError Unit :=
  match configuredKey key with
  | none => .ok ()
  | some configured =>
      if provided = some configured then .ok ()
      else .error (.unauthorized "Missing or invalid API key")

/-- `format!("{}:{}", host, port).parse()`, which the source expects to succeed. -/
def serverAddress (config : Config) : Except Stop SocketAddr :=
  match SocketAddrText.parseSocketAddr
      (config.server.host ++ ":" ++ toString config.server.port.toNat) with
  | some addr => .ok addr
  | none => .error (.panic "Invalid server address")

/-- The router, and the address that it is bound to. -/
def buildHttp (build : Build) (config : Config) : Except Stop Http := do
  let general ← expectGovernor (buildGovernorConfig config.server.rateLimitPerMinute)
  let extract ← expectGovernor
    (buildGovernorConfig (max (config.server.rateLimitPerMinute / 4) 1))
  let cors ← (buildCorsLayer build config.cors.origin).mapError .error
  let addr ← serverAddress config
  .ok ⟨general, extract, cors, configuredKey config.server.apiKey, addr⟩

/-- `main` up to the first request. -/
def startUp (build : Build) (platform : Platform) (command : Command) (config : Config) :
    Except Stop Started := do
  -- Before anything else, and for every command.
  (config.validate platform).mapError .error
  match command with
  | .healthcheck => .ok (.healthcheck config.server.port)
  | .mcp => do
      (checkMcpEnabled config).mapError .error
      initLogging platform config
      let shared ← buildShared build config
      .ok (.mcp shared)
  | .server => do
      initLogging platform config
      let shared ← buildShared build config
      let http ← buildHttp build config
      .ok (.server shared http)

/-! ## Panics -/

theorem max_one_ne_zero (n : UInt32) : max n 1 ≠ 0 := by
  intro h
  have hmax := congrArg UInt32.toNat h
  rw [UInt32.toNat_max] at hmax
  exact absurd (le_max_right n.toNat (1 : UInt32).toNat) (by rw [hmax]; decide)

theorem max_one_ne_zero64 (n : UInt64) : max n 1 ≠ 0 := by
  intro h
  have hmax := congrArg UInt64.toNat h
  rw [UInt64.toNat_max] at hmax
  exact absurd (le_max_right n.toNat (1 : UInt64).toNat) (by rw [hmax]; decide)

/-- The rate limiter never fails, whatever the limit. -/
theorem buildGovernorConfig_isSome (requestsPerMinute : UInt32) :
    (buildGovernorConfig requestsPerMinute).isSome = true := by
  rw [buildGovernorConfig, finish,
    if_neg (not_or.mpr ⟨max_one_ne_zero64 _, max_one_ne_zero requestsPerMinute⟩)]
  rfl

/-- A Redis URL without the feature, or a proxy that the search client does not take. -/
def SharedFails (build : Build) (config : Config) : Prop :=
  (config.cache.redisUrl.getD "" ≠ "" ∧ build.redisCache = false)
    ∨ ∃ url ∈ config.proxy.searchUrl, (build.proxyClient url).isSome

/-- The start-up of the server stops with an error before it comes to the address: there, or
at an origin that is no header value. -/
def StopsBefore (build : Build) (config : Config) : Prop :=
  SharedFails build config
    ∨ ∃ o ∈ config.cors.origin, o ≠ "" ∧ o ≠ "*" ∧ (build.parseHeaderValue o).isSome

/-- The host is an IPv4 address, or an IPv6 address in brackets. -/
def HostIsAddress (config : Config) : Prop :=
  (SocketAddrText.hostAddr config.server.host.toList).isSome

theorem expectGovernor_eq (requestsPerMinute : UInt32) :
    ∃ g, expectGovernor (buildGovernorConfig requestsPerMinute) = .ok g := by
  obtain ⟨g, hg⟩ := Option.isSome_iff_exists.mp (buildGovernorConfig_isSome requestsPerMinute)
  exact ⟨g, by rw [hg]; rfl⟩

/-- The cache and the engine: no panic, and an error exactly when the URL of one of them is
not taken. -/
theorem buildShared_cases (build : Build) (config : Config) :
    (∃ shared, buildShared build config = .ok shared) ∧ ¬ SharedFails build config
      ∨ (∃ e, buildShared build config = .error (.error e)) ∧ SharedFails build config := by
  have hcache : (∃ cache, buildCache build config = .ok cache)
        ∧ ¬ (config.cache.redisUrl.getD "" ≠ "" ∧ build.redisCache = false)
      ∨ (∃ e, buildCache build config = .error (.error e))
        ∧ (config.cache.redisUrl.getD "" ≠ "" ∧ build.redisCache = false) := by
    unfold buildCache
    simp only []
    split_ifs with hurl hfeature
    · refine Or.inl ⟨?_, fun h => by simp [hfeature] at h⟩
      cases build.openRedis (config.cache.redisUrl.getD "") <;> exact ⟨_, rfl⟩
    · exact Or.inr ⟨⟨_, rfl⟩, hurl, by simpa using hfeature⟩
    · exact Or.inl ⟨⟨_, rfl⟩, fun h => hurl h.1⟩
  have hengine : (∃ proxy, buildEngine build config = .ok proxy)
        ∧ ¬ (∃ url ∈ config.proxy.searchUrl, (build.proxyClient url).isSome)
      ∨ (∃ e, buildEngine build config = .error (.error e))
        ∧ ∃ url ∈ config.proxy.searchUrl, (build.proxyClient url).isSome := by
    unfold buildEngine
    cases config.proxy.searchUrl with
    | none => exact Or.inl ⟨⟨_, rfl⟩, by simp⟩
    | some url =>
        cases hclient : build.proxyClient url with
        | none => exact Or.inl ⟨⟨some url, by simp [hclient]⟩, by simp [hclient]⟩
        | some e =>
            refine Or.inr ⟨⟨"proxy.search_url is set to an invalid proxy URL: " ++ e, ?_⟩, url,
              rfl, by rw [hclient]; rfl⟩
            simp only [hclient]
  rcases hcache with ⟨⟨cache, hcache⟩, hno⟩ | ⟨⟨e, hcache⟩, hyes⟩
  · rcases hengine with ⟨⟨proxy, hengine⟩, hno'⟩ | ⟨⟨e, hengine⟩, hyes'⟩
    · exact Or.inl ⟨⟨_, by rw [buildShared, hcache, hengine]; rfl⟩, not_or.mpr ⟨hno, hno'⟩⟩
    · exact Or.inr ⟨⟨e, by rw [buildShared, hcache, hengine]; rfl⟩, Or.inr hyes'⟩
  · exact Or.inr ⟨⟨e, by rw [buildShared, hcache]; rfl⟩, Or.inl hyes⟩

/-- The origin: no panic, and an error exactly when it is no header value. -/
theorem buildCorsLayer_cases (build : Build) (origin : Option String) :
    (∃ cors, buildCorsLayer build origin = .ok cors)
        ∧ ¬ (∃ o ∈ origin, o ≠ "" ∧ o ≠ "*" ∧ (build.parseHeaderValue o).isSome)
      ∨ (∃ e, buildCorsLayer build origin = .error e)
        ∧ ∃ o ∈ origin, o ≠ "" ∧ o ≠ "*" ∧ (build.parseHeaderValue o).isSome := by
  cases origin with
  | none => exact Or.inl ⟨⟨_, rfl⟩, by simp⟩
  | some o =>
      by_cases hblank : o = ""
      · exact Or.inl ⟨⟨none, by rw [buildCorsLayer, if_pos hblank]⟩, by simp [hblank]⟩
      · by_cases hany : o = "*"
        · exact Or.inl ⟨⟨some .any, by rw [buildCorsLayer, if_neg hblank, if_pos hany]⟩,
            by simp [hany]⟩
        · cases hparse : build.parseHeaderValue o with
          | none =>
              refine Or.inl ⟨⟨some (.origin o), ?_⟩, by simp [hparse]⟩
              rw [buildCorsLayer, if_neg hblank, if_neg hany, hparse]
          | some e =>
              refine Or.inr ⟨⟨_, by rw [buildCorsLayer, if_neg hblank, if_neg hany, hparse]⟩, ?_⟩
              exact ⟨o, rfl, hblank, hany, by rw [hparse]; rfl⟩

/-- The rate limiters are there; what is left is the origin and the address. -/
theorem buildHttp_eq (build : Build) (config : Config) :
    ∃ general extract, buildHttp build config = (do
      let cors ← (buildCorsLayer build config.cors.origin).mapError .error
      let addr ← serverAddress config
      .ok ⟨general, extract, cors, configuredKey config.server.apiKey, addr⟩) := by
  obtain ⟨general, hgeneral⟩ := expectGovernor_eq config.server.rateLimitPerMinute
  obtain ⟨extract, hextract⟩ := expectGovernor_eq (max (config.server.rateLimitPerMinute / 4) 1)
  refine ⟨general, extract, ?_⟩
  rw [buildHttp, hgeneral, hextract]
  rfl

/-- The log level of a validated configuration is a directive. -/
theorem startUp_server {platform : Platform} {config : Config}
    (hvalid : config.validate platform = .ok ()) (build : Build) :
    startUp build platform .server config = (do
      let shared ← buildShared build config
      let http ← buildHttp build config
      .ok (.server shared http)) := by
  have hlog : initLogging platform config = .ok () := by
    rw [initLogging, ((Config.validate_eq_ok_iff platform config).mp hvalid).logLevel]
  rw [startUp, hvalid, hlog]
  rfl

/-- The address is a panic exactly when the host is none. -/
theorem serverAddress_eq (config : Config) :
    serverAddress config = match SocketAddrText.hostAddr config.server.host.toList with
      | some ip => .ok ⟨ip, config.server.port⟩
      | none => .error (.panic "Invalid server address") := by
  rw [serverAddress, SocketAddrText.parseSocketAddr_hostPort]
  cases SocketAddrText.hostAddr config.server.host.toList <;> rfl

/-- **When a validated configuration does not panic**: exactly when the host is an address,
or the start-up stops with an error before it comes to it. -/
theorem startUp_never_panics_iff {platform : Platform} {config : Config}
    (hvalid : config.validate platform = .ok ()) (build : Build) :
    (∀ message, startUp build platform .server config ≠ .error (.panic message))
      ↔ HostIsAddress config ∨ StopsBefore build config := by
  rw [startUp_server hvalid, StopsBefore]
  obtain ⟨general, extract, hhttp⟩ := buildHttp_eq build config
  -- The stages in their order; the address is the last, and the only one that can panic.
  rcases buildShared_cases build config with ⟨⟨shared, hshared⟩, hno⟩ | ⟨⟨e, hshared⟩, hyes⟩
  · rw [hshared, or_iff_right hno, hhttp]
    rcases buildCorsLayer_cases build config.cors.origin with
      ⟨⟨cors, hcors⟩, hnone⟩ | ⟨⟨e, hcors⟩, hsome⟩
    · rw [or_iff_left hnone, hcors, serverAddress_eq, HostIsAddress]
      cases SocketAddrText.hostAddr config.server.host.toList with
      | none =>
          refine iff_of_false (fun h => ?_) (by simp)
          exact h "Invalid server address" rfl
      | some ip => exact iff_of_true (fun message h => nomatch h) rfl
    · rw [hcors]
      exact iff_of_true (fun message h => nomatch h) (Or.inr hsome)
  · rw [hshared]
    exact iff_of_true (fun message h => nomatch h) (Or.inr (Or.inl hyes))

/-- A build that takes every text. -/
def laxBuild : Build :=
  { redisCache := true, openRedis := fun _ => none, proxyClient := fun _ => none,
    parseHeaderValue := fun _ => none }

theorem startUp_default_never_panics :
    (∀ message, startUp laxBuild Platform.ascii .server Config.default
        ≠ .error (.panic message))
      ↔ HostIsAddress Config.default ∨ StopsBefore laxBuild Config.default :=
  startUp_never_panics_iff ((Config.validate_eq_ok_iff _ _).mpr (Config.default_valid rfl)) _

/-- A host name is no address. -/
theorem localhost_panics :
    ¬ ∀ (build : Build) (platform : Platform) (config : Config),
      config.validate platform = .ok () →
      ∀ message, startUp build platform .server config ≠ .error (.panic message) := by
  intro h
  let server := { Config.default.server with host := "localhost" }
  let config := { Config.default with server := server }
  have hvalid : config.validate Platform.ascii = .ok () := by
    have hdefault : Config.default.Valid Platform.ascii := Config.default_valid rfl
    rw [Config.validate_eq_ok_iff]
    exact { hdefault with }
  refine h laxBuild Platform.ascii config hvalid "Invalid server address" ?_
  have hhost : SocketAddrText.hostAddr config.server.host.toList = none := by decide
  obtain ⟨general, extract, hhttp⟩ := buildHttp_eq laxBuild config
  rw [startUp_server hvalid, hhttp, serverAddress_eq, hhost]
  rfl

end StartUp
