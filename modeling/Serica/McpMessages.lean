/-
# MCP messages

A line of `stdin`: how it is read as a request, and how `handle_message` answers it.

* `readObject_eq_some_iff`: the objects that are requests.
* `handleMessage_response`: every request has one response, with a result or an error.
* `handleMessage_silent_iff`: which messages stay unanswered, and under which id the others
  are answered.
-/
import Serica.McpGateway

/-! ## Reading a request -/

/-- The top of a line that is JSON: the members of an object, in their order, or the elements
of an array.  A value that can be skipped but not read as a `Value` is missing. -/
inductive JsonLine
  | object (members : List (String × Option Json))
  | array (elements : List (Option Json))
  | other

/-- `serde_json` on a line: its JSON, if it is any, and the text of the error where it is no
request. -/
structure JsonLib where
  parse : String → Option JsonLine
  errorText : String → String

structure JsonRpcRequest where
  jsonrpc : String
  id : Option Json
  method : String
  params : Option Json

namespace JsonRpcRequest

/-- An optional value: `null` is read as none. -/
def optional : Json → Option Json
  | .null => none
  | v => some v

/-- The values of the members with a name. -/
def valuesOf (key : String) (members : List (String × Option Json)) : List (Option Json) :=
  (members.filter (·.1 = key)).map Prod.snd

/-- A field of the record: no member of its name, or one that can be read.  A second one is an
error. -/
def field {α : Type} (read : Json → Option α) (key : String)
    (members : List (String × Option Json)) : Option (Option α) :=
  match valuesOf key members with
  | [] => some none
  | [value] => (value.bind read).map some
  | _ => none

/-- The derived reading of an object: other members are skipped, and `jsonrpc` and `method`
must be there. -/
def readObject (members : List (String × Option Json)) : Option JsonRpcRequest := do
  let jsonrpc ← field Json.asStr "jsonrpc" members
  let id ← field (some ∘ optional) "id" members
  let method ← field Json.asStr "method" members
  let params ← field (some ∘ optional) "params" members
  some ⟨← jsonrpc, id.join, ← method, params.join⟩

/-- The derived reading of an array: the four fields in their order. -/
def readArray (elements : List (Option Json)) : Option JsonRpcRequest :=
  match elements with
  | [jsonrpc, id, method, params] => do
      some ⟨← jsonrpc.bind Json.asStr, optional (← id), ← method.bind Json.asStr,
        optional (← params)⟩
  | _ => none

/-- `serde_json::from_str`. -/
def fromStr (lib : JsonLib) (line : String) : Except String JsonRpcRequest :=
  let request := match lib.parse line with
    | some (.object members) => readObject members
    | some (.array elements) => readArray elements
    | _ => none
  -- The text of the error names a place in the line.
  match request with
  | some request => .ok request
  | none => .error (lib.errorText line)

end JsonRpcRequest

namespace McpGateway

/-! ## The methods -/

/-- `env!("CARGO_PKG_VERSION")`. -/
def pkgVersion : String := "0.2.0"

def supportedProtocolVersion : String := "2025-06-18"

/-- `YYYY-MM-DD`. -/
def looksLikeProtocolVersion (v : String) : Bool :=
  let bytes := RustStr.asBytes v
  bytes.length == 10 && bytes[4]? == some 0x2D && bytes[7]? == some 0x2D
    && bytes.zipIdx.all fun p =>
      if p.2 == 4 || p.2 == 7 then true else 0x30 ≤ p.1 && p.1 ≤ 0x39

def handleInitialize (id : Json) (params : Option Json) : JsonRpcResponse :=
  let protocolVersion := (((params.bind (·.get "protocolVersion")).bind Json.asStr).filter
    looksLikeProtocolVersion).getD supportedProtocolVersion
  { jsonrpc := "2.0"
    id := id
    result := some (.object
      [("protocolVersion", .string protocolVersion),
        ("serverInfo", .object [("name", .string "serica"), ("version", .string pkgVersion)]),
        ("capabilities", .object [("tools", .object [])])])
    error := none }

def searchTool : Json :=
  .object
    [("name", .string "serica_search"),
      ("description", .string "Search the web using DuckDuckGo."),
      ("inputSchema", .object
        [("type", .string "object"),
          ("properties", .object
            [("query", .object
                [("type", .string "string"),
                  ("description", .string "Search query (1-500 characters)")]),
              ("page", .object
                [("type", .string "integer"), ("description", .string "Page number (1-50)"),
                  ("default", .ofNat 1)]),
              ("safe_search", .object
                [("type", .string "integer"),
                  ("description",
                    .string "Safe search level: 0=off, 1=moderate, 2=strict"),
                  ("default", .ofNat 1),
                  ("enum", .array [.ofNat 0, .ofNat 1, .ofNat 2])]),
              ("language", .object
                [("type", .string "string"),
                  ("description", .string ("2-letter ISO 639-1 language code. Only 'en', 'de', "
                    ++ "'fr', and 'es' are supported — results are constrained via "
                    ++ "DuckDuckGo's own region parameter for these. Any other code is "
                    ++ "rejected.")),
                  ("enum",
                    .array [.string "en", .string "de", .string "fr", .string "es"])])]),
          ("required", .array [.string "query"])])]

def extractTool : Json :=
  .object
    [("name", .string "serica_extract"),
      ("description", .string ("Fetch a URL and extract clean article content (title, author, "
        ++ "date, main text, excerpt). Strips ads, nav, and boilerplate. Content is returned "
        ++ "as Markdown by default (server-configured).")),
      ("inputSchema", .object
        [("type", .string "object"),
          ("properties", .object
            [("url", .object
              [("type", .string "string"),
                ("description", .string "The URL of the page to extract content from"),
                ("format", .string "uri")])]),
          ("required", .array [.string "url"])])]

def handleToolsList (id : Json) : JsonRpcResponse :=
  { jsonrpc := "2.0"
    id := id
    result := some (.object [("tools", .array [searchTool, extractTool])])
    error := none }

/-- The response to a request with an id. -/
def handleRequest (g : Gateway) (request : JsonRpcRequest) (id : Json) :
    Prog GatewayI JsonRpcResponse :=
  if request.method = "initialize" then .ret (handleInitialize id request.params)
  else if request.method = "tools/list" then .ret (handleToolsList id)
  else if request.method = "tools/call" then
    handleToolsCall g id (request.params.getD (.object []))
  else .ret (errorResponse id (jsonrpcError (-32601) ("Method not found: " ++ request.method)))

/-- A notification has no response. -/
def handleMessage (lib : JsonLib) (g : Gateway) (line : String) :
    Prog GatewayI (Option JsonRpcResponse) :=
  match JsonRpcRequest.fromStr lib line with
  | .error e => .ret (some (errorResponse .null (jsonrpcError (-32700) ("Parse error: " ++ e))))
  | .ok request =>
      -- The handshake is ignored even with an id.
      if request.method = "notifications/initialized" then .ret none
      else
        match request.id with
        | none => .ret none
        | some id => (handleRequest g request id).bind fun response => .ret (some response)

/-! ## One well-formed response -/

/-- A response of the protocol, under this id: exactly one of result and error is there. -/
structure WellFormed (id : Json) (response : JsonRpcResponse) : Prop where
  jsonrpc : response.jsonrpc = "2.0"
  sameId : response.id = id
  exclusive : response.result.isSome = !response.error.isSome

/-- A response with an error is well formed. -/
theorem wellFormed_errorResponse (id : Json) (e : JsonRpcErrorObject) :
    WellFormed id (errorResponse id e) := ⟨rfl, rfl, rfl⟩

/-- A tool result is well formed. -/
theorem wellFormed_toolCallResult {α : Type} (codec : Codec α) (id : Json) (value : α) :
    WellFormed id (toolCallResult codec id value) := by
  unfold toolCallResult
  cases codec.toStringPretty value with
  | ok text => exact ⟨rfl, rfl, rfl⟩
  | error e => exact wellFormed_errorResponse id _

section ToolCalls

variable (g : Gateway) (id : Json)

/-- What a search ends with is well formed. -/
theorem finishSearch_returns (searchReq : SearchRequest) (results : List SearchResult) :
    (finishSearch g id searchReq results).Returns (WellFormed id) := by
  intro ms _
  apply (Prog.Returns.any _).bind
  intro searchResp _
  exact wellFormed_toolCallResult g.searchCodec id searchResp

/-- Whatever the cache holds and the engine answers. -/
theorem searchProgram_returns (searchReq : SearchRequest) :
    (searchProgram g id searchReq).Returns (WellFormed id) := by
  apply Prog.Returns.call
  intro cachedBytes
  cases cachedBytes.bind g.searchCodec.fromSlice with
  | some response => exact fun ms => wellFormed_toolCallResult g.searchCodec id _
  | none =>
      apply Prog.Returns.call
      intro results
      cases results with
      | ok results => exact finishSearch_returns g id searchReq results
      | error e =>
          cases e with
          | parseEmpty => exact fun _ => finishSearch_returns g id searchReq []
          | blocked => exact fun _ => wellFormed_errorResponse id _
          | challenged => exact fun _ => wellFormed_errorResponse id _
          | parsePanicked => exact fun _ => wellFormed_errorResponse id _
          | upstream status => exact fun _ => wellFormed_errorResponse id _
          | transport msg => exact fun _ => wellFormed_errorResponse id _

/-- Whatever `run_extract` comes to. -/
theorem extractProgram_returns (parsedUrl : Url) :
    (extractProgram g id parsedUrl).Returns (WellFormed id) := by
  apply (Prog.Returns.any _).bind
  intro outcome _
  cases outcome with
  | ok response => exact wellFormed_toolCallResult g.extractCodec id response
  | error e => exact wellFormed_errorResponse id _

/-- The arguments of a tool call have passed all checks of their tool. -/
def ArgumentsPass (params : Json) : Prop :=
  ∃ args, params.get "arguments" = some args
    ∧ (((params.get "name").bind Json.asStr = some "serica_search"
          ∧ ∃ searchReq, searchRequestOfArguments args = .ok searchReq)
      ∨ (params.get "name").bind Json.asStr = some "serica_extract"
          ∧ ∃ parsedUrl, argUrl g args = .ok parsedUrl)

/-- What a tool call promises: a response, and a result only for arguments that pass. -/
def Promised (params : Json) (response : JsonRpcResponse) : Prop :=
  WellFormed id response ∧ (response.result.isSome = true → ArgumentsPass g params)

/-- An error is promised to every call. -/
theorem promised_errorResponse (params : Json) (e : JsonRpcErrorObject) :
    Promised g id params (errorResponse id e) :=
  ⟨wellFormed_errorResponse id e, fun h => Bool.noConfusion h⟩

/-- A tool call is answered as promised. -/
theorem handleToolsCall_returns (params : Json) :
    (handleToolsCall g id params).Returns (Promised g id params) := by
  unfold handleToolsCall
  dsimp only
  cases hargs : params.get "arguments" with
  | none => exact promised_errorResponse g id params _
  | some args =>
      dsimp only
      split_ifs with hsearch hextract
      · have hname := (Option.getD_eq_iff.mp hsearch).resolve_right (by simp)
        cases hreq : searchRequestOfArguments args with
        | error e => exact promised_errorResponse g id params e
        | ok searchReq =>
            apply (searchProgram_returns g id searchReq).mono
            exact fun response h => ⟨h, fun _ => ⟨args, hargs, Or.inl ⟨hname, searchReq, hreq⟩⟩⟩
      · have hname := (Option.getD_eq_iff.mp hextract).resolve_right (by simp)
        cases hurl : argUrl g args with
        | error e => exact promised_errorResponse g id params e
        | ok parsedUrl =>
            apply (extractProgram_returns g id parsedUrl).mono
            exact fun response h => ⟨h, fun _ => ⟨args, hargs, Or.inr ⟨hname, parsedUrl, hurl⟩⟩⟩
      · exact promised_errorResponse g id params _

end ToolCalls

section Messages

variable {lib : JsonLib} {g : Gateway} {line : String} {request : JsonRpcRequest} {id : Json}

/-- The requests that may have a result. -/
def MayHaveResult (g : Gateway) (request : JsonRpcRequest) : Prop :=
  request.method = "initialize" ∨ request.method = "tools/list"
    ∨ request.method = "tools/call" ∧ ArgumentsPass g (request.params.getD (.object []))

/-- A request is answered well formed, and with a result only where it may have one. -/
theorem handleRequest_returns (g : Gateway) (request : JsonRpcRequest) (id : Json) :
    (handleRequest g request id).Returns fun response =>
      WellFormed id response ∧ (response.result.isSome = true → MayHaveResult g request) := by
  unfold handleRequest
  split_ifs with hinitialize hlist hcall
  · exact ⟨⟨rfl, rfl, rfl⟩, fun _ => Or.inl hinitialize⟩
  · exact ⟨⟨rfl, rfl, rfl⟩, fun _ => Or.inr (Or.inl hlist)⟩
  · apply (handleToolsCall_returns g id (request.params.getD (.object []))).mono
    exact fun response h => ⟨h.1, fun hresult => Or.inr (Or.inr ⟨hcall, h.2 hresult⟩)⟩
  · exact ⟨wellFormed_errorResponse id _, fun h => Bool.noConfusion h⟩

/-- A request with an id is answered by its handler. -/
theorem handleMessage_of_id (hline : JsonRpcRequest.fromStr lib line = .ok request)
    (hmethod : request.method ≠ "notifications/initialized") (hid : request.id = some id)
    (env : Env GatewayI) :
    (handleMessage lib g line).result env 0 = some ((handleRequest g request id).result env 0) := by
  rw [handleMessage, hline]
  dsimp only
  rw [if_neg hmethod, hid]
  dsimp only
  rw [Prog.result_bind]
  rfl

/-- **Every request has one well-formed response**, under its own id: with a result or with an
error, and with a result only for the three methods and for arguments that pass. -/
theorem handleMessage_response (hline : JsonRpcRequest.fromStr lib line = .ok request)
    (hmethod : request.method ≠ "notifications/initialized") (hid : request.id = some id)
    (env : Env GatewayI) :
    ∃ response, (handleMessage lib g line).result env 0 = some response
      ∧ WellFormed id response
      ∧ (response.result.isSome = true → MayHaveResult g request) :=
  ⟨_, handleMessage_of_id hline hmethod hid env, (handleRequest_returns g request id).result env 0⟩

end Messages

/-- `serde_json` on one line, with these members, and with this error where it is no request. -/
def exampleLib (line : String) (members : List (String × Option Json)) (error : String) :
    JsonLib where
  parse l := if l = line then some (.object members) else none
  errorText l := if l = line then error else "expected value at line 1 column 1"

theorem exampleLib_parse (line : String) (members : List (String × Option Json))
    (error : String) : (exampleLib line members error).parse line = some (.object members) :=
  if_pos rfl

def listLine : String := "\x7b\"jsonrpc\":\"2.0\",\"id\":7,\"method\":\"tools/list\"\x7d"

def listMembers : List (String × Option Json) :=
  [("jsonrpc", some (.string "2.0")), ("id", some (.ofNat 7)),
    ("method", some (.string "tools/list"))]

theorem fromStr_listLine : JsonRpcRequest.fromStr (exampleLib listLine listMembers "") listLine
    = .ok ⟨"2.0", some (.ofNat 7), "tools/list", none⟩ := by
  rfl

theorem handleMessage_list :
    ∃ response, (handleMessage (exampleLib listLine listMembers "") Gateway.idle listLine).result
          idleEnv 0 = some response
      ∧ WellFormed (.ofNat 7) response
      ∧ (response.result.isSome = true →
        MayHaveResult Gateway.idle ⟨"2.0", some (.ofNat 7), "tools/list", none⟩) :=
  handleMessage_response fromStr_listLine (by decide) rfl idleEnv

/-! ## Silence -/

open JsonRpcRequest (valuesOf readObject)

/-- The names of the fields. -/
def fieldNames : List String := ["jsonrpc", "id", "method", "params"]

/-- The objects that are requests: no field is there twice or unreadable, and `jsonrpc` and
`method` are texts. -/
structure IsRequest (members : List (String × Option Json)) : Prop where
  once : ∀ key ∈ fieldNames, (valuesOf key members).length ≤ 1
  readable : ∀ key ∈ fieldNames, none ∉ valuesOf key members
  jsonrpc : ∃ text, ("jsonrpc", some (.string text)) ∈ members
  method : ∃ text, ("method", some (.string text)) ∈ members

section Members

variable {members : List (String × Option Json)} {key : String}

/-- The values of a key are those of the members that it names. -/
theorem mem_valuesOf {value : Option Json} :
    value ∈ valuesOf key members ↔ (key, value) ∈ members := by
  simp only [valuesOf, List.mem_map, List.mem_filter, decide_eq_true_eq, Prod.exists]
  constructor
  · rintro ⟨k, v, ⟨hmem, rfl⟩, rfl⟩
    exact hmem
  · intro hmem
    exact ⟨key, value, ⟨hmem, rfl⟩, rfl⟩

/-- A field is read when it is left out, or there once with a value of its type. -/
theorem field_eq_some_iff {α : Type} {read : Json → Option α} {slot : Option α} :
    JsonRpcRequest.field read key members = some slot
      ↔ (valuesOf key members = [] ∧ slot = none)
        ∨ ∃ v a, valuesOf key members = [some v] ∧ read v = some a ∧ slot = some a := by
  unfold JsonRpcRequest.field
  rcases valuesOf key members with _ | ⟨value, _ | ⟨value', rest⟩⟩
  · simp [eq_comm]
  · cases value with
    | none => simp
    | some v => simp [eq_comm]
  · simp

/-- How an optional field is read. -/
def IsOptional (key : String) (members : List (String × Option Json)) (slot : Option Json) :
    Prop :=
  (valuesOf key members = [] ∧ slot = none)
    ∨ ∃ v, valuesOf key members = [some v] ∧ slot = JsonRpcRequest.optional v

/-- A text is read when it is there once. -/
theorem field_asStr_iff {text : String} :
    JsonRpcRequest.field Json.asStr key members = some (some text)
      ↔ valuesOf key members = [some (.string text)] := by
  rw [field_eq_some_iff]
  constructor
  · rintro (⟨-, h⟩ | ⟨v, a, hvalues, hread, h⟩)
    · cases h
    · cases h
      rw [hvalues, Json.asStr_eq_some.mp hread]
  · exact fun h => Or.inr ⟨.string text, text, h, rfl, rfl⟩

/-- An optional field is read when it is there at most once. -/
theorem field_optional_iff {slot : Option Json} :
    (∃ read, JsonRpcRequest.field (some ∘ JsonRpcRequest.optional) key members = some read
        ∧ read.join = slot)
      ↔ IsOptional key members slot := by
  simp only [field_eq_some_iff, IsOptional]
  constructor
  · rintro ⟨read, ⟨hnone, rfl⟩ | ⟨v, a, hvalues, hread, rfl⟩, rfl⟩
    · exact Or.inl ⟨hnone, rfl⟩
    · exact Or.inr ⟨v, hvalues, (Option.some.inj hread).symm⟩
  · rintro (⟨hnone, rfl⟩ | ⟨v, hvalues, rfl⟩)
    · exact ⟨none, Or.inl ⟨hnone, rfl⟩, rfl⟩
    · exact ⟨some (JsonRpcRequest.optional v), Or.inr ⟨v, _, hvalues, rfl, rfl⟩, rfl⟩

/-- **The objects that are read as a request**, and as which. -/
theorem readObject_eq_some_iff {request : JsonRpcRequest} :
    readObject members = some request
      ↔ valuesOf "jsonrpc" members = [some (.string request.jsonrpc)]
        ∧ IsOptional "id" members request.id
        ∧ valuesOf "method" members = [some (.string request.method)]
        ∧ IsOptional "params" members request.params := by
  obtain ⟨jsonrpc, id, method, params⟩ := request
  simp only [readObject, Option.bind_eq_bind, Option.bind_eq_some_iff, Option.some.injEq,
    JsonRpcRequest.mk.injEq, ← field_asStr_iff, ← field_optional_iff]
  constructor
  · rintro ⟨_, hjsonrpc, id', hid, _, hmethod, params', hparams, _, rfl, _, rfl, rfl, hid', rfl,
      hparams'⟩
    exact ⟨hjsonrpc, ⟨id', hid, hid'⟩, hmethod, params', hparams, hparams'⟩
  · rintro ⟨hjsonrpc, ⟨id', hid, hid'⟩, hmethod, params', hparams, hparams'⟩
    exact ⟨_, hjsonrpc, id', hid, _, hmethod, params', hparams, jsonrpc, rfl, method, rfl, rfl,
      hid', rfl, hparams'⟩

/-- What is there at most once is left out or there once. -/
theorem valuesOf_cases (honce : (valuesOf key members).length ≤ 1) :
    valuesOf key members = [] ∨ ∃ value, valuesOf key members = [value] := by
  generalize valuesOf key members = values at honce ⊢
  rcases values with _ | ⟨value, _ | ⟨value', rest⟩⟩
  · exact Or.inl rfl
  · exact Or.inr ⟨value, rfl⟩
  · exact absurd honce (by simp)

/-- An optional field that is there at most once has a value. -/
theorem exists_isOptional (honce : (valuesOf key members).length ≤ 1)
    (hread : none ∉ valuesOf key members) : ∃ slot, IsOptional key members slot := by
  rcases valuesOf_cases honce with hnone | ⟨value, hvalue⟩
  · exact ⟨none, Or.inl ⟨hnone, rfl⟩⟩
  · cases value with
    | none => exact absurd (by simp [hvalue]) hread
    | some v => exact ⟨_, Or.inr ⟨v, hvalue, rfl⟩⟩

/-- A member that is there at most once has the only value of its key. -/
theorem valuesOf_eq_singleton {value : Option Json} (honce : (valuesOf key members).length ≤ 1)
    (hmem : (key, value) ∈ members) : valuesOf key members = [value] := by
  rw [← mem_valuesOf] at hmem
  rcases valuesOf_cases honce with hnone | ⟨value', hvalue⟩
  · rw [hnone] at hmem
    exact absurd hmem List.not_mem_nil
  · rw [hvalue, List.mem_singleton] at hmem
    rw [hvalue, hmem]

theorem isOptional_of_eq {v : Json} (h : valuesOf key members = [some v]) :
    IsOptional key members (JsonRpcRequest.optional v) := Or.inr ⟨v, h, rfl⟩

/-- A field that is read is there at most once, with a value. -/
theorem IsOptional.readable {slot : Option Json} (h : IsOptional key members slot) :
    (valuesOf key members).length ≤ 1 ∧ none ∉ valuesOf key members := by
  rcases h with ⟨hnone, -⟩ | ⟨v, hvalue, -⟩
  · simp [hnone]
  · simp [hvalue]

/-- An object is a request exactly when it can be read as one. -/
theorem isRequest_iff : IsRequest members ↔ ∃ request, readObject members = some request := by
  constructor
  · intro h
    obtain ⟨jsonrpc, hjsonrpc⟩ := h.jsonrpc
    obtain ⟨method, hmethod⟩ := h.method
    obtain ⟨id, hid⟩ := exists_isOptional (h.once "id" (by simp [fieldNames]))
      (h.readable "id" (by simp [fieldNames]))
    obtain ⟨params, hparams⟩ := exists_isOptional (h.once "params" (by simp [fieldNames]))
      (h.readable "params" (by simp [fieldNames]))
    refine ⟨⟨jsonrpc, id, method, params⟩, readObject_eq_some_iff.mpr ⟨?_, hid, ?_, hparams⟩⟩
    · exact valuesOf_eq_singleton (h.once "jsonrpc" (by simp [fieldNames])) hjsonrpc
    · exact valuesOf_eq_singleton (h.once "method" (by simp [fieldNames])) hmethod
  · rintro ⟨request, hread⟩
    obtain ⟨hjsonrpc, hid, hmethod, hparams⟩ := readObject_eq_some_iff.mp hread
    have hfields : ∀ key ∈ fieldNames,
        (valuesOf key members).length ≤ 1 ∧ none ∉ valuesOf key members := by
      simp only [fieldNames, List.forall_mem_cons]
      exact ⟨(isOptional_of_eq hjsonrpc).readable, hid.readable,
        (isOptional_of_eq hmethod).readable, hparams.readable, by simp⟩
    refine ⟨fun key hkey => (hfields key hkey).1, fun key hkey => (hfields key hkey).2, ?_, ?_⟩
    · exact ⟨request.jsonrpc, mem_valuesOf.mp (by simp [hjsonrpc])⟩
    · exact ⟨request.method, mem_valuesOf.mp (by simp [hmethod])⟩

end Members

/-- A notification, by its members: without an id, or the handshake. -/
def IsNotification (members : List (String × Option Json)) : Prop :=
  (∀ value, ("id", value) ∉ members)
    ∨ ("method", some (.string "notifications/initialized")) ∈ members

/-- Notifications stay unanswered and nothing else does, and an answer has the id of the
message. -/
def AnswersById (members : List (String × Option Json)) (reply : Option JsonRpcResponse) :
    Prop :=
  (reply = none ↔ IsNotification members)
    ∧ ∀ response, reply = some response → ∀ id, ("id", some id) ∈ members → response.id = id

section Answers

variable {lib : JsonLib} {g : Gateway} {line : String} {members : List (String × Option Json)}
  {request : JsonRpcRequest}

/-- A value other than `null` is kept. -/
theorem optional_of_ne {v : Json} (h : v ≠ .null) : JsonRpcRequest.optional v = some v := by
  cases v with
  | null => exact absurd rfl h
  | _ => rfl

/-- An object is read by its members. -/
theorem fromStr_object (hline : lib.parse line = some (.object members))
    (hread : readObject members = some request) :
    JsonRpcRequest.fromStr lib line = .ok request := by
  rw [JsonRpcRequest.fromStr, hline]
  dsimp only
  rw [hread]

/-- A request without an id stays unanswered, and so does the handshake. -/
theorem handleMessage_of_notification (hrequest : JsonRpcRequest.fromStr lib line = .ok request)
    (h : request.id = none ∨ request.method = "notifications/initialized") (env : Env GatewayI) :
    (handleMessage lib g line).result env 0 = none := by
  rw [handleMessage, hrequest]
  dsimp only
  split_ifs with hmethod
  · rfl
  · rw [h.resolve_right hmethod]
    rfl

/-- A line that cannot be read is answered with a parse error under the id `null`. -/
theorem handleMessage_of_error {e : String} (h : JsonRpcRequest.fromStr lib line = .error e)
    (env : Env GatewayI) :
    (handleMessage lib g line).result env 0
      = some (errorResponse .null (jsonrpcError (-32700) ("Parse error: " ++ e))) := by
  rw [handleMessage, h]
  rfl

/-- An object that is a request is answered by its id, when that is not `null`. -/
theorem answersById_of_read (hline : lib.parse line = some (.object members))
    (hread : readObject members = some request) (hnull : ("id", some .null) ∉ members)
    (g : Gateway) (env : Env GatewayI) :
    AnswersById members ((handleMessage lib g line).result env 0) := by
  have hrequest := fromStr_object hline hread
  obtain ⟨-, hid, hmethod, -⟩ := readObject_eq_some_iff.mp hread
  have hshake : ("method", some (.string "notifications/initialized")) ∈ members
      ↔ request.method = "notifications/initialized" := by
    rw [← mem_valuesOf, hmethod, List.mem_singleton, Option.some.injEq, Json.string.injEq,
      eq_comm]
  rcases hid with ⟨hnone, hid⟩ | ⟨v, hvalue, hid⟩
  · -- No member is the id, so there is nothing to answer under.
    have hnoId : ∀ value, ("id", value) ∉ members := by
      intro value hmem
      rw [← mem_valuesOf, hnone] at hmem
      exact absurd hmem List.not_mem_nil
    rw [handleMessage_of_notification hrequest (Or.inl hid)]
    exact ⟨iff_of_true rfl (Or.inl hnoId), nofun⟩
  · have hmem : ("id", some v) ∈ members := mem_valuesOf.mp (by simp [hvalue])
    have hv : v ≠ .null := by
      rintro rfl
      exact hnull hmem
    rw [optional_of_ne hv] at hid
    by_cases hinitialized : request.method = "notifications/initialized"
    · rw [handleMessage_of_notification hrequest (Or.inr hinitialized)]
      exact ⟨iff_of_true rfl (Or.inr (hshake.mpr hinitialized)), nofun⟩
    · rw [handleMessage_of_id hrequest hinitialized hid]
      refine ⟨iff_of_false nofun ?_, ?_⟩
      · rintro (hnoId | hmethod')
        · exact hnoId _ hmem
        · exact hinitialized (hshake.mp hmethod')
      · rintro response hresponse id hid'
        -- The id is there once, so the value that was read is the one of the member.
        rw [← mem_valuesOf, hvalue, List.mem_singleton, Option.some.injEq] at hid'
        rw [hid', ← Option.some.inj hresponse]
        exact ((handleRequest_returns g request v).result env 0).1.sameId

/-- **Which messages stay unanswered.**  An object that is a request, with an id that is not
`null` if it has one, stays unanswered exactly when it is a notification, and is answered
under its own id; an object that is no request is answered with an error, under the id
`null`. -/
theorem handleMessage_silent_iff (hline : lib.parse line = some (.object members)) (g : Gateway)
    (env : Env GatewayI) :
    (IsRequest members → ("id", some .null) ∉ members →
      AnswersById members ((handleMessage lib g line).result env 0))
    ∧ (¬ IsRequest members → ∃ response e,
      (handleMessage lib g line).result env 0 = some response
        ∧ response.id = .null ∧ response.error = some e ∧ e.code = -32700) := by
  refine ⟨?_, ?_⟩
  · intro hobject hnull
    obtain ⟨request, hread⟩ := isRequest_iff.mp hobject
    exact answersById_of_read hline hread hnull g env
  · intro hobject
    have hread : readObject members = none := by
      cases hread : readObject members with
      | none => rfl
      | some request => exact absurd (isRequest_iff.mpr ⟨request, hread⟩) hobject
    have hrequest : JsonRpcRequest.fromStr lib line = .error (lib.errorText line) := by
      rw [JsonRpcRequest.fromStr, hline]
      dsimp only
      rw [hread]
    exact ⟨_, _, handleMessage_of_error hrequest env, rfl, rfl, rfl⟩

end Answers

theorem listMembers_isRequest : IsRequest listMembers :=
  isRequest_iff.mpr ⟨_, rfl⟩

/-- The request for the tools is answered under its id. -/
theorem handleMessage_list_answered :
    AnswersById listMembers
      ((handleMessage (exampleLib listLine listMembers "") Gateway.idle listLine).result idleEnv
        0) :=
  (handleMessage_silent_iff (exampleLib_parse _ _ _) Gateway.idle idleEnv).1 listMembers_isRequest
    (by simp [listMembers, Json.ofNat])

/-- An object with nothing but an id. -/
def bareLine : String := "\x7b\"id\":1\x7d"

/-- It is no request, so that its id is lost. -/
theorem bare_id_lost :
    ¬ ∀ (lib : JsonLib) (g : Gateway) (env : Env GatewayI) (line : String)
      (members : List (String × Option Json)), lib.parse line = some (.object members) →
      AnswersById members ((handleMessage lib g line).result env 0) := by
  intro h
  have hanswers := (h (exampleLib bareLine [("id", some (.ofNat 1))]
    "missing field `jsonrpc` at line 1 column 8") Gateway.idle idleEnv bareLine
    [("id", some (.ofNat 1))] (exampleLib_parse _ _ _)).2 _ rfl (.ofNat 1) (by simp)
  cases hanswers

end McpGateway
