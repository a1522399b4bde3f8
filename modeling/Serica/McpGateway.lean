/-
# The MCP gateway: tool calls

`tools/call` over JSON-RPC.  The arguments of a search are validated one by one from
the JSON value; `searchRequestOfArguments` is that part of `handleToolsCall`.
-/
import Serica.Gateway
import Serica.Json

/-- The error member of a JSON-RPC response. -/
structure JsonRpcErrorObject where
  code : ℤ
  message : String
  data : Option Json

structure JsonRpcResponse where
  jsonrpc : String
  id : Json
  result : Option Json
  error : Option JsonRpcErrorObject

namespace McpGateway

def jsonrpcError (code : ℤ) (message : String) : JsonRpcErrorObject := ⟨code, message, none⟩

def jsonrpcErrorWithData (code : ℤ) (message : String) (data : Json) : JsonRpcErrorObject :=
  ⟨code, message, some data⟩

def errorResponse (id : Json) (e : JsonRpcErrorObject) : JsonRpcResponse :=
  { jsonrpc := "2.0", id := id, result := none, error := some e }

/-- The data of an error about an argument. -/
def fieldError (field message : String) : Json :=
  .object [("field", .string field), ("message", .string message)]

/-- A tool result is the pretty-printed value; a value that cannot be serialised is an
error. -/
def toolCallResult {α : Type} (codec : Codec α) (id : Json) (value : α) : JsonRpcResponse :=
  match codec.toStringPretty value with
  | .ok text =>
      { jsonrpc := "2.0"
        id := id
        result := some (.object
          [("content", .array [.object [("type", .string "text"), ("text", .string text)]]),
            ("isError", .bool false)])
        error := none }
  | .error e => errorResponse id (jsonrpcError (-32603) ("Serialization failed: " ++ e))

/-! ## The arguments of a search -/

def argQuery (args : Json) : Except JsonRpcErrorObject String :=
  match (args.get "query").bind Json.asStr with
  | none => .error (jsonrpcError (-32602) "Missing required 'query' parameter")
  | some q =>
      let query := RustStr.trim q
      if query = "" || query.length > 500 then
        .error (jsonrpcErrorWithData (-32602) "Invalid 'query' parameter"
          (fieldError "query" "must be 1-500 characters"))
      else .ok query

/-- An absent page, and one that is no unsigned integer, is page 1; an integer is cut
to 32 bits. -/
def argPage (args : Json) : Except JsonRpcErrorObject UInt32 :=
  let page := (((args.get "page").bind Json.asU64).getD 1).toUInt32
  if !(1 ≤ page && page ≤ 50) then
    .error (jsonrpcErrorWithData (-32602) "Invalid 'page' parameter"
      (fieldError "page" "must be between 1 and 50"))
  else .ok page

/-- The same for the level, which is cut to 8 bits. -/
def argSafeSearch (args : Json) : Except JsonRpcErrorObject UInt8 :=
  let safeSearch := (((args.get "safe_search").bind Json.asU64).getD 1).toUInt8
  if safeSearch > 2 then
    .error (jsonrpcErrorWithData (-32602) "Invalid 'safe_search' parameter"
      (fieldError "safe_search" "must be 0, 1, or 2"))
  else .ok safeSearch

/-- A language that is no string counts as absent. -/
def argLanguage (args : Json) : Except JsonRpcErrorObject (Option String) :=
  match (args.get "language").bind Json.asStr with
  | none => .ok none
  | some lang =>
      if RustStr.len lang ≠ 2 || !lang.toList.all RustStr.isAsciiLowercase then
        .error (jsonrpcErrorWithData (-32602) "Invalid 'language' parameter"
          (fieldError "language" "must be a 2-letter ISO 639-1 code"))
      else if (Search.ddgRegionForLanguage lang).isNone then
        .error (jsonrpcErrorWithData (-32602) "Unsupported 'language' parameter"
          (fieldError "language" ("unsupported language code '" ++ lang ++ "'; supported: "
            ++ ", ".intercalate Search.supportedLanguages)))
      else .ok (some lang)

def searchRequestOfArguments (args : Json) : Except JsonRpcErrorObject SearchRequest := do
  let query ← argQuery args
  let page ← argPage args
  let safeSearch ← argSafeSearch args
  let language ← argLanguage args
  .ok { query := query, page := page, safeSearch := safeSearch, language := language }

/-! ## Tool calls -/

variable (g : Gateway)

/-- The end of a search: timing, metrics, filter and cache. -/
def finishSearch (id : Json) (searchReq : SearchRequest) (searchResults : List SearchResult) :
    Prog GatewayI JsonRpcResponse :=
  .call (I := GatewayI) .elapsedMs fun ms =>
    .call (I := GatewayI) (.record (.search ms)) fun _ =>
      (g.searchCodec.storeAndReturn (Search.cacheKey g.hash searchReq) g.config.cache.ttlSeconds
        (Search.finalizeResults g.platform searchResults searchReq
          g.config.search.maxResultsPerPage ms)).bind fun searchResp =>
            .ret (toolCallResult g.searchCodec id searchResp)

/-- The search branch of `handleToolsCall`, from the validated request on. -/
def searchProgram (id : Json) (searchReq : SearchRequest) : Prog GatewayI JsonRpcResponse :=
  .call (I := GatewayI) (.cacheGet (Search.cacheKey g.hash searchReq)) fun cachedBytes =>
    match cachedBytes.bind g.searchCodec.fromSlice with
    | some response =>
        .call (I := GatewayI) .elapsedMs fun ms =>
          .ret (toolCallResult g.searchCodec id { response with cached := true, timingMs := ms })
    | none =>
        .call (I := GatewayI) (.engineSearch searchReq.query searchReq.page searchReq.language
            searchReq.safeSearch) fun
          | .ok results => finishSearch g id searchReq results
          | .error .parseEmpty =>
              .call (I := GatewayI) (.record .emptyParse) fun _ => finishSearch g id searchReq []
          | .error .blocked =>
              .call (I := GatewayI) (.record .blocked) fun _ =>
                .ret (errorResponse id
                  (jsonrpcError (-32000) "Search engine is currently blocked upstream"))
          | .error .challenged =>
              .call (I := GatewayI) (.record .challenged) fun _ =>
                .ret (errorResponse id (jsonrpcError (-32000)
                  "Search engine is presenting an anti-bot challenge upstream"))
          | .error .parsePanicked =>
              .call (I := GatewayI) (.record .error) fun _ =>
                .ret (errorResponse id
                  (jsonrpcError (-32603) SearchError.parsePanicked.display))
          | .error e =>
              .call (I := GatewayI) (.record .error) fun _ =>
                .ret (errorResponse id (jsonrpcError (-32000) e.display))

/-- How an error of `run_extract` is answered. -/
def extractErrorObject : AppError → JsonRpcErrorObject
  | .invalidQuery msg =>
      jsonrpcErrorWithData (-32602) ("Invalid 'url' parameter: " ++ msg) (fieldError "url" msg)
  | .serviceUnavailable msg => jsonrpcError (-32000) msg
  | .contentTooLarge msg => jsonrpcError (-32000) msg
  | .extractTimeout msg => jsonrpcError (-32000) msg
  | e => jsonrpcError (-32000) ("Failed to prepare request: " ++ e.display)

/-- The URL of an extraction: a string that is not blank and parses. -/
def argUrl (args : Json) : Except JsonRpcErrorObject Url :=
  match (args.get "url").bind Json.asStr with
  | none => .error (jsonrpcError (-32602) "Missing required 'url' parameter")
  | some u =>
      let url := RustStr.trim u
      if url = "" then
        .error (jsonrpcErrorWithData (-32602) "Invalid 'url' parameter"
          (fieldError "url" "must be a valid https:// URL"))
      else
        match g.platform.parseUrl url with
        | .error _ =>
            .error (jsonrpcErrorWithData (-32602) "Invalid 'url' parameter"
              (fieldError "url" "could not be parsed"))
        | .ok parsedUrl => .ok parsedUrl

/-- The extract branch of `handleToolsCall`, from the parsed URL on. -/
def extractProgram (id : Json) (parsedUrl : Url) : Prog GatewayI JsonRpcResponse :=
  (g.runExtract parsedUrl).bind fun
    | .ok response => .ret (toolCallResult g.extractCodec id response)
    | .error e => .ret (errorResponse id (extractErrorObject e))

def handleToolsCall (id params : Json) : Prog GatewayI JsonRpcResponse :=
  let name := ((params.get "name").bind Json.asStr).getD ""
  match params.get "arguments" with
  | none => .ret (errorResponse id (jsonrpcError (-32602) "Missing 'arguments' field"))
  | some args =>
      if name = "serica_search" then
        match searchRequestOfArguments args with
        | .error e => .ret (errorResponse id e)
        | .ok searchReq => searchProgram g id searchReq
      else if name = "serica_extract" then
        match argUrl g args with
        | .error e => .ret (errorResponse id e)
        | .ok parsedUrl => extractProgram g id parsedUrl
      else .ret (errorResponse id (jsonrpcError (-32601) ("Method not found: " ++ name)))

/-! ## What the validation of a search keeps -/

/-- Everything that `searchRequestOfArguments` accepts. -/
theorem searchRequestOfArguments_eq_ok {args : Json} {req : SearchRequest} :
    searchRequestOfArguments args = .ok req
      ↔ argQuery args = .ok req.query ∧ argPage args = .ok req.page
        ∧ argSafeSearch args = .ok req.safeSearch ∧ argLanguage args = .ok req.language := by
  obtain ⟨query, page, safeSearch, language⟩ := req
  rw [searchRequestOfArguments]
  cases argQuery args <;> cases argPage args <;> cases argSafeSearch args <;>
    cases argLanguage args <;> simp [bind, Except.bind]

/-- The number that a cast to `w` bits makes of an argument; absent ones and those that
are no unsigned integer count as `1`. -/
def castArg (w : ℕ) (arg : Option Json) : ℕ := ((arg.bind Json.asU64).getD 1).toNat % 2 ^ w

theorem argPage_eq_ok {args : Json} {page : UInt32} :
    argPage args = .ok page
      ↔ page.toNat = castArg 32 (args.get "page") ∧ 1 ≤ page.toNat ∧ page.toNat ≤ 50 := by
  rw [argPage, castArg, ← UInt64.toNat_toUInt32, UInt32.toNat_inj]
  generalize (((args.get "page").bind Json.asU64).getD 1).toUInt32 = p
  simp only [Bool.not_eq_true', Bool.and_eq_false_iff, decide_eq_false_iff_not,
    UInt32.le_iff_toNat_le, UInt32.toNat_ofNat]
  split_ifs with hbad
  · constructor
    · intro h
      exact absurd h (by simp)
    · rintro ⟨rfl, hlow, hhigh⟩
      omega
  · rw [Except.ok.injEq]
    constructor
    · rintro rfl
      exact ⟨rfl, by omega, by omega⟩
    · rintro ⟨rfl, -, -⟩
      rfl

theorem argSafeSearch_eq_ok {args : Json} {safeSearch : UInt8} :
    argSafeSearch args = .ok safeSearch
      ↔ safeSearch.toNat = castArg 8 (args.get "safe_search") ∧ safeSearch.toNat ≤ 2 := by
  rw [argSafeSearch, castArg, ← UInt64.toNat_toUInt8, UInt8.toNat_inj]
  generalize (((args.get "safe_search").bind Json.asU64).getD 1).toUInt8 = s
  simp only [gt_iff_lt, UInt8.lt_iff_toNat_lt, UInt8.toNat_ofNat]
  split_ifs with hbad
  · constructor
    · intro h
      exact absurd h (by simp)
    · rintro ⟨rfl, hle⟩
      omega
  · rw [Except.ok.injEq]
    constructor
    · rintro rfl
      exact ⟨rfl, by omega⟩
    · rintro ⟨rfl, -⟩
      rfl

theorem argQuery_error_code {args : Json} {e : JsonRpcErrorObject}
    (h : argQuery args = .error e) : e.code = -32602 := by
  rw [argQuery] at h
  split at h
  · rw [← Except.error.inj h]
    rfl
  · dsimp only at h
    split_ifs at h
    rw [← Except.error.inj h]
    rfl

theorem argPage_error_code {args : Json} {e : JsonRpcErrorObject}
    (h : argPage args = .error e) : e.code = -32602 := by
  simp only [argPage] at h
  split_ifs at h
  rw [← Except.error.inj h]
  rfl

theorem argSafeSearch_error_code {args : Json} {e : JsonRpcErrorObject}
    (h : argSafeSearch args = .error e) : e.code = -32602 := by
  simp only [argSafeSearch] at h
  split_ifs at h
  rw [← Except.error.inj h]
  rfl

theorem argLanguage_error_code {args : Json} {e : JsonRpcErrorObject}
    (h : argLanguage args = .error e) : e.code = -32602 := by
  rw [argLanguage] at h
  split at h
  · exact absurd h (by simp)
  · split_ifs at h <;> rw [← Except.error.inj h] <;> rfl

/-- Every rejection is an invalid-params error. -/
theorem searchRequestOfArguments_error_code {args : Json} {e : JsonRpcErrorObject}
    (h : searchRequestOfArguments args = .error e) : e.code = -32602 := by
  rw [searchRequestOfArguments] at h
  rcases except_bind_eq_error.mp h with hq | ⟨query, -, h⟩
  · exact argQuery_error_code hq
  rcases except_bind_eq_error.mp h with hp | ⟨page, -, h⟩
  · exact argPage_error_code hp
  rcases except_bind_eq_error.mp h with hs | ⟨safeSearch, -, h⟩
  · exact argSafeSearch_error_code hs
  rcases except_bind_eq_error.mp h with hl | ⟨language, -, h⟩
  · exact argLanguage_error_code hl
  exact absurd h (by simp)

/-- An argument that is there is an unsigned integer with the value `x`. -/
def Kept (arg : Option Json) (x : ℕ) : Prop :=
  ∀ v, arg = some v → ∃ n : UInt64, v = .ofNat n ∧ n.toNat = x

/-- An argument that is there is an unsigned integer of at most `w` bits. -/
def Narrow (w : ℕ) (arg : Option Json) : Prop :=
  ∀ v, arg = some v → ∃ n : UInt64, v = .ofNat n ∧ n.toNat < 2 ^ w

/-- An argument that is there is an unsigned integer in a range. -/
def InRange (lo hi : ℕ) (arg : Option Json) : Prop :=
  ∀ v, arg = some v → ∃ n : UInt64, v = .ofNat n ∧ lo ≤ n.toNat ∧ n.toNat ≤ hi

/-- An argument that is an unsigned integer is in a range modulo `2 ^ w`. -/
def ResidueInRange (w lo hi : ℕ) (arg : Option Json) : Prop :=
  ∀ n : UInt64, arg = some (.ofNat n) → lo ≤ n.toNat % 2 ^ w ∧ n.toNat % 2 ^ w ≤ hi

/-- The cast of an argument by its cases: absent or no unsigned integer, or one. -/
theorem castArg_cases {w : ℕ} (hw : 0 < w) (arg : Option Json) :
    ((∀ n, arg ≠ some (.ofNat n)) ∧ castArg w arg = 1)
      ∨ ∃ n, arg = some (.ofNat n) ∧ castArg w arg = n.toNat % 2 ^ w := by
  cases harg : arg.bind Json.asU64 with
  | none =>
      refine Or.inl ⟨?_, ?_⟩
      · rintro n rfl
        exact absurd harg (by simp [Json.ofNat, Json.asU64])
      · have hone : 1 < 2 ^ w := Nat.one_lt_two_pow hw.ne'
        rw [castArg, harg, Option.getD_none]
        exact Nat.mod_eq_of_lt hone
  | some n =>
      rw [Option.bind_eq_some_iff] at harg
      obtain ⟨v, rfl, hv⟩ := harg
      rw [Json.asU64_eq_some] at hv
      subst hv
      exact Or.inr ⟨n, rfl, rfl⟩

/-- A range that holds the default is met by the cast exactly when the residue of an
unsigned integer meets it. -/
theorem castArg_inRange_iff {w lo hi : ℕ} (hw : 0 < w) (hlo : lo ≤ 1) (hhi : 1 ≤ hi)
    (arg : Option Json) :
    (lo ≤ castArg w arg ∧ castArg w arg ≤ hi) ↔ ResidueInRange w lo hi arg := by
  rcases castArg_cases hw arg with ⟨hnone, hcast⟩ | ⟨n, rfl, hcast⟩
  · rw [hcast]
    exact ⟨fun _ n hn => absurd hn (hnone n), fun _ => ⟨hlo, hhi⟩⟩
  · rw [hcast]
    constructor
    · intro h m hm
      rw [Option.some.injEq, Json.ofNat, Json.ofNat, Json.number.injEq,
        JsonNumber.posInt.injEq] at hm
      rw [← hm]
      exact h
    · intro h
      exact h n rfl

/-- The cast keeps exactly the narrow arguments. -/
theorem kept_castArg_iff {w : ℕ} (hw : 0 < w) (arg : Option Json) :
    Kept arg (castArg w arg) ↔ Narrow w arg := by
  rcases castArg_cases hw arg with ⟨hnone, -⟩ | ⟨n, rfl, hcast⟩
  · constructor <;> intro h v hv <;> obtain ⟨n, rfl, -⟩ := h v hv <;> exact absurd hv (hnone n)
  · rw [hcast]
    have hlt : n.toNat % 2 ^ w = n.toNat ↔ n.toNat < 2 ^ w := by
      constructor
      · intro h
        rw [← h]
        exact Nat.mod_lt _ (by positivity)
      · exact Nat.mod_eq_of_lt
    constructor
    · intro h v hv
      obtain ⟨m, hm, hval⟩ := h v hv
      obtain rfl : v = .ofNat n := (Option.some.inj hv).symm
      rw [Json.ofNat, Json.ofNat, Json.number.injEq, JsonNumber.posInt.injEq] at hm
      subst hm
      exact ⟨n, rfl, hlt.mp hval.symm⟩
    · intro h v hv
      obtain ⟨m, hm, hval⟩ := h v hv
      obtain rfl : v = .ofNat n := (Option.some.inj hv).symm
      rw [Json.ofNat, Json.ofNat, Json.number.injEq, JsonNumber.posInt.injEq] at hm
      subst hm
      exact ⟨n, rfl, (hlt.mpr hval).symm⟩

/-- A call of the search tool. -/
def searchCall (args : Json) : Json :=
  .object [("name", .string "serica_search"), ("arguments", args)]

theorem handleToolsCall_searchCall (id args : Json) :
    handleToolsCall g id (searchCall args)
      = match searchRequestOfArguments args with
        | .error e => .ret (errorResponse id e)
        | .ok searchReq => searchProgram g id searchReq := by
  rfl

/-- The arguments of a search are never altered: the page and the level that reach the
cache are those given, and any other value is answered with an invalid-params error
and reaches neither the cache nor the engine. -/
def KeepsArguments (args : Json) : Prop :=
  (∀ req, searchRequestOfArguments args = .ok req →
    (args.get "page" = none → req.page = 1) ∧ Kept (args.get "page") req.page.toNat
      ∧ 1 ≤ req.page.toNat ∧ req.page.toNat ≤ 50
      ∧ Kept (args.get "safe_search") req.safeSearch.toNat ∧ req.safeSearch.toNat ≤ 2)
  ∧ (¬ (InRange 1 50 (args.get "page") ∧ InRange 0 2 (args.get "safe_search")) →
    ∃ e, e.code = -32602
      ∧ ∀ id, handleToolsCall g id (searchCall args) = .ret (errorResponse id e))

/-- Either something else in the call is rejected, or the page and the level, when they
are there, are unsigned integers that the casts do not change. -/
def CastsAreExact (args : Json) : Prop :=
  (∃ query, argQuery args = .ok query) → (∃ language, argLanguage args = .ok language) →
  ResidueInRange 32 1 50 (args.get "page") → ResidueInRange 8 0 2 (args.get "safe_search") →
  Narrow 32 (args.get "page") ∧ Narrow 8 (args.get "safe_search")

/-- A call with residues in range is accepted when its query and its language are. -/
theorem accepted_of_residues {args : Json} {query : String} {language : Option String}
    (hquery : argQuery args = .ok query) (hlanguage : argLanguage args = .ok language)
    (hpage : ResidueInRange 32 1 50 (args.get "page"))
    (hsafe : ResidueInRange 8 0 2 (args.get "safe_search")) :
    ∃ req, searchRequestOfArguments args = .ok req
      ∧ req.page.toNat = castArg 32 (args.get "page")
      ∧ req.safeSearch.toNat = castArg 8 (args.get "safe_search") := by
  have hpage' := (castArg_inRange_iff (by omega) (by omega) (by omega) _).mpr hpage
  have hsafe' := (castArg_inRange_iff (by omega) (by omega) (by omega) _).mpr hsafe
  have hp : (UInt32.ofNat (castArg 32 (args.get "page"))).toNat
      = castArg 32 (args.get "page") := by
    rw [UInt32.toNat_ofNat']
    omega
  have hs : (UInt8.ofNat (castArg 8 (args.get "safe_search"))).toNat
      = castArg 8 (args.get "safe_search") := by
    rw [UInt8.toNat_ofNat']
    omega
  refine ⟨⟨query, UInt32.ofNat (castArg 32 (args.get "page")),
    UInt8.ofNat (castArg 8 (args.get "safe_search")), language⟩, ?_, hp, hs⟩
  refine searchRequestOfArguments_eq_ok.mpr ⟨hquery, ?_, ?_, hlanguage⟩
  · rw [argPage_eq_ok, hp]
    exact ⟨rfl, hpage'⟩
  · rw [argSafeSearch_eq_ok, hs]
    exact ⟨rfl, hsafe'.2⟩

/-- Exact casts keep the arguments of an accepted call. -/
theorem kept_of_castsAreExact {args : Json} (hexact : CastsAreExact args) {req : SearchRequest}
    (hreq : searchRequestOfArguments args = .ok req) :
    (args.get "page" = none → req.page = 1) ∧ Kept (args.get "page") req.page.toNat
      ∧ 1 ≤ req.page.toNat ∧ req.page.toNat ≤ 50
      ∧ Kept (args.get "safe_search") req.safeSearch.toNat ∧ req.safeSearch.toNat ≤ 2 := by
  obtain ⟨hquery, hpage, hsafe, hlanguage⟩ := searchRequestOfArguments_eq_ok.mp hreq
  obtain ⟨hp, hlow, hhigh⟩ := argPage_eq_ok.mp hpage
  obtain ⟨hs, hle⟩ := argSafeSearch_eq_ok.mp hsafe
  obtain ⟨hnarrow, hnarrow'⟩ := hexact ⟨_, hquery⟩ ⟨_, hlanguage⟩
    ((castArg_inRange_iff (by omega) (by omega) (by omega) _).mp (by omega))
    ((castArg_inRange_iff (by omega) (by omega) (by omega) _).mp (by omega))
  refine ⟨?_, ?_, hlow, hhigh, ?_, hle⟩
  · intro hnone
    rw [hnone] at hp
    exact UInt32.toNat_inj.mp hp
  · rw [hp]
    exact (kept_castArg_iff (by omega) _).mpr hnarrow
  · rw [hs]
    exact (kept_castArg_iff (by omega) _).mpr hnarrow'

/-- A value that is kept and in range is an argument in range. -/
theorem Kept.inRange {arg : Option Json} {x lo hi : ℕ} (h : Kept arg x) (hlo : lo ≤ x)
    (hhi : x ≤ hi) : InRange lo hi arg := by
  intro v hv
  obtain ⟨n, hn, hval⟩ := h v hv
  exact ⟨n, hn, by omega, by omega⟩

/-- **When the arguments of a search are kept**: exactly when the casts are exact. -/
theorem keepsArguments_iff (args : Json) : KeepsArguments g args ↔ CastsAreExact args := by
  constructor
  · rintro ⟨hkept, -⟩ ⟨query, hquery⟩ ⟨language, hlanguage⟩ hpage hsafe
    -- The residues are accepted, so the request that they make must hold the arguments.
    obtain ⟨req, hreq, hp, hs⟩ := accepted_of_residues hquery hlanguage hpage hsafe
    obtain ⟨-, hkp, -, -, hks, -⟩ := hkept req hreq
    rw [hp] at hkp
    rw [hs] at hks
    exact ⟨(kept_castArg_iff (by omega) _).mp hkp, (kept_castArg_iff (by omega) _).mp hks⟩
  · intro hexact
    refine ⟨fun req hreq => kept_of_castsAreExact hexact hreq, ?_⟩
    intro hout
    cases hreq : searchRequestOfArguments args with
    | error e =>
        refine ⟨e, searchRequestOfArguments_error_code hreq, ?_⟩
        intro id
        rw [handleToolsCall_searchCall, hreq]
    | ok req =>
        -- An accepted call has both arguments in range.
        obtain ⟨-, hkp, hlow, hhigh, hks, hle⟩ := kept_of_castsAreExact hexact hreq
        exact absurd ⟨hkp.inRange hlow hhigh, hks.inRange (Nat.zero_le _) hle⟩ hout

/-- The level 256 switches the filter off, page 4294967297 is page 1, and so is the
page `"2"`. -/
theorem searchRequestOfArguments_alters :
    searchRequestOfArguments (.object [("query", .string "x"), ("safe_search", .ofNat 256)])
        = .ok ⟨"x", 1, 0, none⟩
      ∧ searchRequestOfArguments (.object [("query", .string "x"), ("page", .ofNat 4294967297)])
        = .ok ⟨"x", 1, 1, none⟩
      ∧ searchRequestOfArguments (.object [("query", .string "x"), ("page", .string "2")])
        = .ok ⟨"x", 1, 1, none⟩ := by
  refine ⟨?_, ?_, ?_⟩ <;> rfl

end McpGateway
