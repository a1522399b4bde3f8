/-
# Configuration

The configuration record with its defaults, and `validate`, which the program calls
once at start-up.  The texts are those of the source.  `Config.Valid` collects what
a validated configuration promises to the rest of the program.
-/
import Serica.Url

/-- The library functions that `validate` and the request handlers call and that are
not modelled: the parser of tracing directives (the text of its error, if there is
one), `Url::parse`, the Unicode property that `char::is_alphanumeric` tests, and the
Unicode lower-case mapping of texts that are not ASCII. -/
structure Platform where
  parseDirective : String → Option String
  parseUrl : String → Except String Url
  isAlphanumeric : Char → Bool
  lowercaseTable : String → String

/-- A platform on which only ASCII is alphanumeric and no URL parses. -/
def Platform.ascii : Platform :=
  { parseDirective := fun _ => none
    parseUrl := fun _ => .error "relative URL without a base"
    isAlphanumeric := Char.isAlphanum
    lowercaseTable := id }

structure ServerConfig where
  host : String
  port : UInt16
  logLevel : String
  logFormat : String
  shutdownDrainTimeoutSeconds : UInt64
  rateLimitPerMinute : UInt32
  apiKey : Option String
  maxConcurrentExtracts : ℕ
deriving DecidableEq, Repr

structure SearchConfig where
  defaultTimeoutMs : UInt64
  maxResultsPerPage : ℕ
  safeSearchDefault : UInt8
deriving DecidableEq, Repr

structure CacheConfig where
  ttlSeconds : UInt64
  extractTtlSeconds : UInt64
  redisUrl : Option String
deriving DecidableEq, Repr

structure McpConfig where
  enabled : Bool
deriving DecidableEq, Repr

structure CorsConfig where
  origin : Option String
deriving DecidableEq, Repr

structure ExtractConfig where
  maxContentChars : ℕ
  outputFormat : String
  maxRawBytes : ℕ
  timeoutMs : UInt64
deriving DecidableEq, Repr

structure ProxyConfig where
  searchUrl : Option String
  extractUrl : Option String
deriving DecidableEq, Repr

structure Config where
  server : ServerConfig
  search : SearchConfig
  cache : CacheConfig
  mcp : McpConfig
  cors : CorsConfig
  extract : ExtractConfig
  proxy : ProxyConfig
deriving DecidableEq, Repr

/-- The default of `extract.max_raw_bytes`, shared with the fetch. -/
def defaultMaxExtractBytes : ℕ := 4 * 1024 * 1024

namespace Config

/-- `Config::default()`. -/
def default : Config :=
  { server :=
      { host := "127.0.0.1", port := 3000, logLevel := "info", logFormat := "json",
        shutdownDrainTimeoutSeconds := 10, rateLimitPerMinute := 30, apiKey := none,
        maxConcurrentExtracts := 2 }
    search := { defaultTimeoutMs := 4000, maxResultsPerPage := 20, safeSearchDefault := 1 }
    cache := { ttlSeconds := 300, extractTtlSeconds := 3600, redisUrl := none }
    mcp := { enabled := true }
    cors := { origin := none }
    extract :=
      { maxContentChars := 50000, outputFormat := "markdown",
        maxRawBytes := defaultMaxExtractBytes, timeoutMs := 30000 }
    proxy := { searchUrl := none, extractUrl := none } }

/-! ## Validation -/

/-- One check: the error when the value is bad. -/
def check (bad : Bool) (msg : String) : Except String Unit :=
  if bad then .error msg else .ok ()

/-- The check that a proxy setting parses.  The value itself stays out of the text. -/
def checkProxyUrl (platform : Platform) (setting : Option String) (name hint : String) :
    Except String Unit :=
  match setting with
  | none => .ok ()
  | some url =>
      match platform.parseUrl url with
      | .ok _ => .ok ()
      | .error e => .error (name ++ " is not a valid URL (" ++ e ++ "); set " ++ hint)

def validate (platform : Platform) (config : Config) : Except String Unit := do
  check (config.server.rateLimitPerMinute == 0)
    ("server.rate_limit_per_minute must be >= 1 (0 is silently clamped to a floor of "
      ++ "1/minute by the rate limiter, which is almost certainly not what was intended); "
      ++ "set SERICA_SERVER__RATE_LIMIT_PER_MINUTE or [server].rate_limit_per_minute")
  check (config.server.port == 0)
    ("server.port must be 1..=65535 (0 asks the OS for an ephemeral port, but the "
      ++ "container HEALTHCHECK and the startup log both target the *configured* port, "
      ++ "so they'd end up targeting the wrong one); set SERICA_SERVER__PORT or "
      ++ "[server].port")
  check (!(1 ≤ config.search.maxResultsPerPage && config.search.maxResultsPerPage ≤ 100))
    ("search.max_results_per_page must be 1..=100, got "
      ++ toString config.search.maxResultsPerPage ++ " (0 makes every search "
      ++ "return zero results via `take(0)`); set SERICA_SEARCH__MAX_RESULTS_PER_PAGE or "
      ++ "[search].max_results_per_page")
  check (config.cache.ttlSeconds == 0)
    ("cache.ttl_seconds must be >= 1 (0 makes Redis reject every SETEX, so every "
      ++ "cache write silently fails); set SERICA_CACHE__TTL_SECONDS or "
      ++ "[cache].ttl_seconds")
  check (config.cache.extractTtlSeconds == 0)
    ("cache.extract_ttl_seconds must be >= 1 (0 makes Redis reject every SETEX, so "
      ++ "every cache write silently fails); set SERICA_CACHE__EXTRACT_TTL_SECONDS or "
      ++ "[cache].extract_ttl_seconds")
  check (config.search.safeSearchDefault > 2)
    ("search.safe_search_default must be 0, 1, or 2, got "
      ++ toString config.search.safeSearchDefault.toNat ++ "; set "
      ++ "SERICA_SEARCH__SAFE_SEARCH_DEFAULT or [search].safe_search_default")
  check (platform.parseDirective config.server.logLevel).isSome
    ("invalid server.log_level '" ++ config.server.logLevel ++ "': "
      ++ (platform.parseDirective config.server.logLevel).getD ""
      ++ " (set SERICA_SERVER__LOG_LEVEL or "
      ++ "[server].log_level to a valid tracing directive, e.g. \"info\" or \"debug\")")
  check (!(config.server.logFormat == "json" || config.server.logFormat == "pretty"))
    ("server.log_format must be \"json\" or \"pretty\", got \"" ++ config.server.logFormat
      ++ "\" (any other value "
      ++ "currently falls through to JSON silently, which is exactly the surprise this "
      ++ "check exists to prevent); set SERICA_SERVER__LOG_FORMAT or [server].log_format")
  check (config.extract.maxContentChars == 0)
    ("extract.max_content_chars must be >= 1 (0 would silently produce empty "
      ++ "extractions for every request); set SERICA_EXTRACT__MAX_CONTENT_CHARS or "
      ++ "[extract].max_content_chars")
  check (!(config.extract.outputFormat == "text" || config.extract.outputFormat == "markdown"))
    ("extract.output_format must be \"text\" or \"markdown\", got \""
      ++ config.extract.outputFormat ++ "\"; set "
      ++ "SERICA_EXTRACT__OUTPUT_FORMAT or [extract].output_format")
  check (!(64 * 1024 ≤ config.extract.maxRawBytes
      && config.extract.maxRawBytes ≤ 16 * 1024 * 1024))
    ("extract.max_raw_bytes must be 64KB..=16MB, got " ++ toString config.extract.maxRawBytes
      ++ " bytes (below the floor, "
      ++ "accidentally rejects nearly every real page as too small to bother extracting; "
      ++ "above the ceiling, lets an operator configure an effectively-unbounded raw-HTML "
      ++ "buffer, a self-DoS footgun); set SERICA_EXTRACT__MAX_RAW_BYTES or "
      ++ "[extract].max_raw_bytes")
  check (config.extract.timeoutMs == 0)
    ("extract.timeout_ms must be >= 1 (0 would make every extract time out "
      ++ "instantly); set SERICA_EXTRACT__TIMEOUT_MS or [extract].timeout_ms")
  check (!(1 ≤ config.server.maxConcurrentExtracts && config.server.maxConcurrentExtracts ≤ 16))
    ("server.max_concurrent_extracts must be 1..=16, got "
      ++ toString config.server.maxConcurrentExtracts ++ " (0 would mean no extract "
      ++ "request could ever acquire a permit and the service would hang forever; above "
      ++ "16 is unreasonable for the concurrency's RAM budget); set "
      ++ "SERICA_SERVER__MAX_CONCURRENT_EXTRACTS or "
      ++ "[server].max_concurrent_extracts")
  checkProxyUrl platform config.proxy.searchUrl "proxy.search_url"
    "SERICA_PROXY__SEARCH_URL or [proxy].search_url"
  checkProxyUrl platform config.proxy.extractUrl "proxy.extract_url"
    "SERICA_PROXY__EXTRACT_URL or [proxy].extract_url"

def proxyUrlParses (platform : Platform) (setting : Option String) : Prop :=
  ∀ url ∈ setting, ∃ parsed, platform.parseUrl url = .ok parsed

/-- What a validated configuration promises. -/
structure Valid (platform : Platform) (config : Config) : Prop where
  rateLimit : config.server.rateLimitPerMinute ≠ 0
  port : config.server.port ≠ 0
  maxResults : 1 ≤ config.search.maxResultsPerPage ∧ config.search.maxResultsPerPage ≤ 100
  ttl : config.cache.ttlSeconds ≠ 0
  extractTtl : config.cache.extractTtlSeconds ≠ 0
  safeSearch : config.search.safeSearchDefault ≤ 2
  logLevel : platform.parseDirective config.server.logLevel = none
  logFormat : config.server.logFormat = "json" ∨ config.server.logFormat = "pretty"
  maxContent : config.extract.maxContentChars ≠ 0
  outputFormat : config.extract.outputFormat = "text" ∨ config.extract.outputFormat = "markdown"
  maxRaw : 64 * 1024 ≤ config.extract.maxRawBytes
    ∧ config.extract.maxRawBytes ≤ 16 * 1024 * 1024
  timeout : config.extract.timeoutMs ≠ 0
  extracts : 1 ≤ config.server.maxConcurrentExtracts ∧ config.server.maxConcurrentExtracts ≤ 16
  searchProxy : proxyUrlParses platform config.proxy.searchUrl
  extractProxy : proxyUrlParses platform config.proxy.extractUrl

theorem check_bind_eq_ok {bad : Bool} {msg : String} {rest : Unit → Except String Unit} :
    (check bad msg >>= rest) = .ok () ↔ bad = false ∧ rest () = .ok () := by
  cases bad with
  | false => exact ⟨fun h => ⟨rfl, h⟩, fun h => h.2⟩
  | true => exact ⟨fun h => absurd h (by simp [check, bind, Except.bind]), fun h => by simp at h⟩

theorem checkProxyUrl_eq_ok {platform : Platform} {setting : Option String} {name hint : String} :
    checkProxyUrl platform setting name hint = .ok () ↔ proxyUrlParses platform setting := by
  cases setting with
  | none => simp [checkProxyUrl, proxyUrlParses]
  | some url =>
      simp only [checkProxyUrl, proxyUrlParses, Option.mem_def, Option.some.injEq, forall_eq']
      cases hparse : platform.parseUrl url <;> simp

theorem checkProxyUrl_bind_eq_ok {platform : Platform} {setting : Option String}
    {name hint : String} {rest : Unit → Except String Unit} :
    (checkProxyUrl platform setting name hint >>= rest) = .ok ()
      ↔ proxyUrlParses platform setting ∧ rest () = .ok () := by
  rw [← @checkProxyUrl_eq_ok platform setting name hint]
  cases checkProxyUrl platform setting name hint with
  | ok u => exact ⟨fun h => ⟨rfl, h⟩, fun h => h.2⟩
  | error e => exact ⟨fun h => absurd h (by simp [bind, Except.bind]), fun h => by simp at h⟩

/-- **Validation is exact**: it accepts the valid configurations and no others. -/
theorem validate_eq_ok_iff (platform : Platform) (config : Config) :
    config.validate platform = .ok () ↔ config.Valid platform := by
  rw [validate]
  simp only [check_bind_eq_ok, checkProxyUrl_bind_eq_ok, checkProxyUrl_eq_ok, beq_eq_false_iff_ne,
    Bool.not_eq_false', Bool.and_eq_true, Bool.or_eq_true, decide_eq_true_eq, beq_iff_eq,
    Option.isSome_eq_false_iff, Option.isNone_iff_eq_none, decide_eq_false_iff_not]
  constructor
  · rintro ⟨h1, h2, h3, h4, h5, h6, h7, h8, h9, h10, h11, h12, h13, h14, h15⟩
    exact ⟨h1, h2, h3, h4, h5, UInt8.not_lt.mp h6, h7, h8, h9, h10, h11, h12, h13, h14, h15⟩
  · intro h
    exact ⟨h.rateLimit, h.port, h.maxResults, h.ttl, h.extractTtl, UInt8.not_lt.mpr h.safeSearch,
      h.logLevel, h.logFormat, h.maxContent, h.outputFormat, h.maxRaw, h.timeout, h.extracts,
      h.searchProxy, h.extractProxy⟩

/-- The default configuration is valid as soon as `info` is a directive. -/
theorem default_valid {platform : Platform} (h : platform.parseDirective "info" = none) :
    default.Valid platform := by
  constructor <;> first | exact h | exact fun _ hurl => nomatch hurl | decide

end Config
