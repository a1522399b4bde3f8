/-
# Responses on the wire

A response is written to stdout as compact JSON on a line of its own, and a client reads
stdout line by line.  A `Value` keeps the members of its objects in the order of their
names, whatever their order was, and a client gets them in that order (`sorted`); the order
does not matter to it.

* `ofJson_toJson`: a response is read back from its JSON.
* `handleMessage_plain`: every response answers its line, and can be written.
* `replies_read`: whatever the schedule is, a client reads the responses to distinct
  messages, whole and under the ids of their requests.
-/
import Serica.McpMessages
import Serica.McpStdio
import Serica.ResponseJson

/-! ## Members in order -/

namespace Json

mutual

/-- The value with the members of every object in the order of their names. -/
def sorted : Json → Json
  | .null => .null
  | .bool b => .bool b
  | .number n => .number n
  | .string s => .string s
  | .array items => .array (sortedItems items)
  | .object fields => .object ((sortedFields fields).insertionSort fun p q => p.1 ≤ q.1)

def sortedItems : List Json → List Json
  | [] => []
  | v :: items => sorted v :: sortedItems items

def sortedFields : List (String × Json) → List (String × Json)
  | [] => []
  | (key, v) :: fields => (key, sorted v) :: sortedFields fields

end

/-- The items of an array are sorted one by one. -/
theorem sortedItems_eq (items : List Json) : sortedItems items = items.map sorted := by
  induction items with
  | nil => rfl
  | cons v items ih => rw [sortedItems, ih, List.map_cons]

/-- The values of the members are sorted one by one. -/
theorem sortedFields_eq (fields : List (String × Json)) :
    sortedFields fields = fields.map fun field => (field.1, sorted field.2) := by
  induction fields with
  | nil => rfl
  | cons field fields ih => rw [sortedFields, ih, List.map_cons]

/-- Only `null` becomes `null`. -/
theorem sorted_ne_null {v : Json} (h : v ≠ .null) : v.sorted ≠ .null := by
  cases v with
  | null => exact absurd rfl h
  | _ => simp [sorted]

/-- An integer of at most 64 bits. -/
def ofInt (z : ℤ) : Json :=
  .number (if 0 ≤ z then .posInt (UInt64.ofNat z.toNat) else .negInt z)

def asInt : Json → Option ℤ
  | .number (.posInt n) => some n.toNat
  | .number (.negInt z) => some z
  | _ => none

/-- A code of 32 bits is read back from its number. -/
theorem asInt_ofInt {z : ℤ} (hz : z < 2 ^ 31) : asInt (ofInt z) = some z := by
  unfold ofInt
  split_ifs with h
  · have hlt : z.toNat < UInt64.size := by
      have : UInt64.size = 2 ^ 64 := rfl
      omega
    rw [asInt, UInt64.toNat_ofNat_of_lt' hlt, Int.toNat_of_nonneg h]
  · rfl

end Json

section Sorted

variable {F : JsonFormat}

/-- The order of the members makes no difference to what can be written. -/
theorem writable_sorted {v : Json} (hv : JsonText.Writable F v) :
    JsonText.Writable F v.sorted := by
  induction hv with
  | null => exact .null
  | bool b => exact .bool b
  | number hn => exact .number hn
  | string s => exact .string s
  | array hitems ih =>
      rw [Json.sorted, Json.sortedItems_eq]
      apply JsonText.Writable.array
      intro v hv
      obtain ⟨w, hw, rfl⟩ := List.mem_map.mp hv
      exact ih w hw
  | object hfields ih =>
      rw [Json.sorted, Json.sortedFields_eq]
      apply JsonText.Writable.object
      intro field hfield
      rw [List.mem_insertionSort] at hfield
      obtain ⟨member, hmember, rfl⟩ := List.mem_map.mp hfield
      exact ih member hmember

/-- A code of 32 bits can be written. -/
theorem writable_ofInt {z : ℤ} (hlow : -2 ^ 31 ≤ z) : JsonText.Writable F (.ofInt z) := by
  unfold Json.ofInt
  split_ifs with h
  · exact .number trivial
  · exact .number ⟨by omega, by omega⟩

end Sorted

/-! ## Responses as JSON -/

namespace JsonRpcErrorObject

/-- As derived; data that is missing is left out. -/
def toJson (e : JsonRpcErrorObject) : Json :=
  .object ([("code", .ofInt e.code), ("message", .string e.message)]
    ++ (e.data.map fun d => ("data", d.sorted)).toList)

def ofJson (v : Json) : Option JsonRpcErrorObject := do
  let code ← (v.get "code").bind Json.asInt
  let message ← (v.get "message").bind Json.asStr
  some ⟨code, message, v.get "data"⟩

def sorted (e : JsonRpcErrorObject) : JsonRpcErrorObject :=
  { e with data := e.data.map Json.sorted }

/-- The JSON of an error is read as the error. -/
theorem ofJson_toJson {e : JsonRpcErrorObject} (hcode : e.code < 2 ^ 31) :
    ofJson e.toJson = some e.sorted := by
  have hcode' : e.toJson.get "code" = some (.ofInt e.code) := rfl
  have hmessage : e.toJson.get "message" = some (.string e.message) := rfl
  have hdata : e.toJson.get "data" = e.data.map Json.sorted := by
    obtain ⟨code, message, data⟩ := e
    cases data <;> rfl
  rw [ofJson, hcode', hmessage, hdata, Option.bind_some, Json.asInt_ofInt hcode]
  rfl

end JsonRpcErrorObject

namespace JsonRpcResponse

/-- As derived; of result and error, what is missing is left out. -/
def toJson (r : JsonRpcResponse) : Json :=
  .object ([("jsonrpc", .string r.jsonrpc), ("id", r.id.sorted)]
    ++ (r.result.map fun v => ("result", v.sorted)).toList
    ++ (r.error.map fun e => ("error", e.toJson)).toList)

/-- How a client reads a response. -/
def ofJson (v : Json) : Option JsonRpcResponse := do
  let jsonrpc ← (v.get "jsonrpc").bind Json.asStr
  let id ← v.get "id"
  match v.get "error" with
  | none => some ⟨jsonrpc, id, v.get "result", none⟩
  | some e => (JsonRpcErrorObject.ofJson e).map fun e => ⟨jsonrpc, id, v.get "result", some e⟩

def sorted (r : JsonRpcResponse) : JsonRpcResponse :=
  { r with
    id := r.id.sorted
    result := r.result.map Json.sorted
    error := r.error.map JsonRpcErrorObject.sorted }

/-- The JSON of a response is read as the response. -/
theorem ofJson_toJson {r : JsonRpcResponse} (hcode : ∀ e ∈ r.error, e.code < 2 ^ 31) :
    ofJson r.toJson = some r.sorted := by
  obtain ⟨jsonrpc, id, result, error⟩ := r
  cases error with
  | none => cases result <;> rfl
  | some e =>
      have hread := JsonRpcErrorObject.ofJson_toJson (hcode e rfl)
      have herror : (toJson ⟨jsonrpc, id, result, some e⟩).get "error" = some e.toJson := by
        cases result <;> rfl
      have hresult : (toJson ⟨jsonrpc, id, result, some e⟩).get "result"
          = result.map Json.sorted := by
        cases result <;> rfl
      rw [ofJson, herror, hresult]
      show (JsonRpcErrorObject.ofJson e.toJson).map _ = _
      rw [hread]
      rfl

end JsonRpcResponse

/-! ## Every response can be written -/

namespace McpWire

open McpGateway

/-- The code is one of 32 bits, and the data can be written. -/
structure PlainError (F : JsonFormat) (e : JsonRpcErrorObject) : Prop where
  low : -2 ^ 31 ≤ e.code
  high : e.code < 2 ^ 31
  data : ∀ d ∈ e.data, JsonText.Writable F d

/-- Every part of the response can be written. -/
structure Plain (F : JsonFormat) (r : JsonRpcResponse) : Prop where
  id : JsonText.Writable F r.id
  result : ∀ v ∈ r.result, JsonText.Writable F v
  error : ∀ e ∈ r.error, PlainError F e

section Plain

variable {F : JsonFormat} {id : Json}

/-- The JSON of a plain error can be written. -/
theorem PlainError.writable {e : JsonRpcErrorObject} (h : PlainError F e) :
    JsonText.Writable F e.toJson := by
  have hcode := writable_ofInt (F := F) h.low
  cases hd : e.data with
  | none => simp [JsonRpcErrorObject.toJson, hd, hcode]
  | some d => simp [JsonRpcErrorObject.toJson, hd, hcode, writable_sorted (h.data d hd)]

/-- The JSON of a plain response can be written. -/
theorem Plain.writable {r : JsonRpcResponse} (h : Plain F r) : JsonText.Writable F r.toJson := by
  rw [JsonRpcResponse.toJson, JsonText.writable_object]
  intro field hfield
  simp only [List.mem_append, List.mem_cons, List.not_mem_nil, or_false, Option.mem_toList,
    Option.map_eq_some_iff] at hfield
  rcases hfield with ((rfl | rfl) | ⟨v, hv, rfl⟩) | ⟨e, he, rfl⟩
  · exact .string _
  · exact writable_sorted h.id
  · exact writable_sorted (h.result v hv)
  · exact (h.error e he).writable

/-- A response that can be written is read back from its text. -/
theorem Plain.read_back {r : JsonRpcResponse} (h : Plain F r) :
    (JsonText.read F (JsonText.write F .compact r.toJson 0)).bind JsonRpcResponse.ofJson
      = some r.sorted := by
  rw [JsonText.read_write h.writable, Option.bind_some]
  exact JsonRpcResponse.ofJson_toJson fun e he => (h.error e he).high

/-- A response with a plain error is plain. -/
theorem plain_errorResponse (hid : JsonText.Writable F id) {e : JsonRpcErrorObject}
    (he : PlainError F e) : Plain F (errorResponse id e) where
  id := hid
  result := by simp [errorResponse]
  error := by
    rintro _ ⟨⟩
    exact he

/-- An error with a code of 32 bits and a message is plain. -/
theorem plainError_jsonrpcError {code : ℤ} (hlow : -2 ^ 31 ≤ code) (hhigh : code < 2 ^ 31)
    (message : String) : PlainError F (jsonrpcError code message) :=
  ⟨hlow, hhigh, by simp [jsonrpcError]⟩

/-- So is one that names a field. -/
theorem plainError_fieldError {code : ℤ} (hlow : -2 ^ 31 ≤ code) (hhigh : code < 2 ^ 31)
    (message field text : String) :
    PlainError F (jsonrpcErrorWithData code message (fieldError field text)) := by
  refine ⟨hlow, hhigh, ?_⟩
  rintro _ ⟨⟩
  simp [fieldError]

/-- A tool result is plain, whether or not its value has been written. -/
theorem plain_toolCallResult {α : Type} (codec : Codec α) (hid : JsonText.Writable F id)
    (value : α) : Plain F (toolCallResult codec id value) := by
  unfold toolCallResult
  cases codec.toStringPretty value with
  | ok text =>
      refine ⟨hid, ?_, by simp⟩
      rintro _ ⟨⟩
      simp
  | error e => exact plain_errorResponse hid (plainError_jsonrpcError (by decide) (by decide) _)

/-! ### Tool calls -/

section ToolCalls

variable (g : Gateway) {args params : Json} {e : JsonRpcErrorObject}

theorem plainError_argQuery (h : argQuery args = .error e) : PlainError F e := by
  rw [argQuery] at h
  split at h
  · rw [← Except.error.inj h]
    exact plainError_jsonrpcError (by decide) (by decide) _
  · dsimp only at h
    split_ifs at h
    rw [← Except.error.inj h]
    exact plainError_fieldError (by decide) (by decide) _ _ _

theorem plainError_argPage (h : argPage args = .error e) : PlainError F e := by
  simp only [argPage] at h
  split_ifs at h
  rw [← Except.error.inj h]
  exact plainError_fieldError (by decide) (by decide) _ _ _

theorem plainError_argSafeSearch (h : argSafeSearch args = .error e) : PlainError F e := by
  simp only [argSafeSearch] at h
  split_ifs at h
  rw [← Except.error.inj h]
  exact plainError_fieldError (by decide) (by decide) _ _ _

theorem plainError_argLanguage (h : argLanguage args = .error e) : PlainError F e := by
  rw [argLanguage] at h
  split at h
  · exact absurd h (by simp)
  · split_ifs at h <;> rw [← Except.error.inj h] <;>
      exact plainError_fieldError (by decide) (by decide) _ _ _

/-- The errors about the arguments of a search are plain. -/
theorem plainError_searchRequest (h : searchRequestOfArguments args = .error e) :
    PlainError F e := by
  rw [searchRequestOfArguments] at h
  rcases except_bind_eq_error.mp h with hq | ⟨query, -, h⟩
  · exact plainError_argQuery hq
  rcases except_bind_eq_error.mp h with hp | ⟨page, -, h⟩
  · exact plainError_argPage hp
  rcases except_bind_eq_error.mp h with hs | ⟨safeSearch, -, h⟩
  · exact plainError_argSafeSearch hs
  rcases except_bind_eq_error.mp h with hl | ⟨language, -, h⟩
  · exact plainError_argLanguage hl
  exact absurd h (by simp)

/-- The errors about the argument of an extract are plain. -/
theorem plainError_argUrl (h : argUrl g args = .error e) : PlainError F e := by
  rw [argUrl] at h
  split at h
  · rw [← Except.error.inj h]
    exact plainError_jsonrpcError (by decide) (by decide) _
  · dsimp only at h
    split_ifs at h
    · rw [← Except.error.inj h]
      exact plainError_fieldError (by decide) (by decide) _ _ _
    · split at h
      · rw [← Except.error.inj h]
        exact plainError_fieldError (by decide) (by decide) _ _ _
      · exact absurd h (by simp)

/-- The errors of an extract are plain. -/
theorem plainError_extract (e : AppError) : PlainError F (extractErrorObject e) := by
  cases e with
  | invalidQuery msg => exact plainError_fieldError (by decide) (by decide) _ _ _
  | _ => exact plainError_jsonrpcError (by decide) (by decide) _

variable (hid : JsonText.Writable F id)

include hid

theorem finishSearch_plain (searchReq : SearchRequest) (results : List SearchResult) :
    (finishSearch g id searchReq results).Returns (Plain F) := by
  intro ms _
  apply (Prog.Returns.any _).bind
  intro searchResp _
  exact plain_toolCallResult g.searchCodec hid searchResp

theorem plain_error (code : ℤ) (hlow : -2 ^ 31 ≤ code) (hhigh : code < 2 ^ 31)
    (message : String) : Plain F (errorResponse id (jsonrpcError code message)) :=
  plain_errorResponse hid (plainError_jsonrpcError hlow hhigh message)

theorem searchProgram_plain (searchReq : SearchRequest) :
    (searchProgram g id searchReq).Returns (Plain F) := by
  apply Prog.Returns.call
  intro cachedBytes
  cases cachedBytes.bind g.searchCodec.fromSlice with
  | some response => exact fun ms => plain_toolCallResult g.searchCodec hid _
  | none =>
      apply Prog.Returns.call
      intro results
      cases results with
      | ok results => exact finishSearch_plain g hid searchReq results
      | error e =>
          cases e with
          | parseEmpty => exact fun _ => finishSearch_plain g hid searchReq []
          | parsePanicked => exact fun _ => plain_error hid (-32603) (by decide) (by decide) _
          | _ => exact fun _ => plain_error hid (-32000) (by decide) (by decide) _

theorem extractProgram_plain (parsedUrl : Url) :
    (extractProgram g id parsedUrl).Returns (Plain F) := by
  apply (Prog.Returns.any _).bind
  intro outcome _
  cases outcome with
  | ok response => exact plain_toolCallResult g.extractCodec hid response
  | error e => exact plain_errorResponse hid (plainError_extract e)

/-- Whatever a tool call is answered with is plain. -/
theorem handleToolsCall_plain : (handleToolsCall g id params).Returns (Plain F) := by
  unfold handleToolsCall
  dsimp only
  cases params.get "arguments" with
  | none => exact plain_error hid (-32602) (by decide) (by decide) _
  | some args =>
      dsimp only
      split_ifs
      · cases hreq : searchRequestOfArguments args with
        | error e => exact plain_errorResponse hid (plainError_searchRequest hreq)
        | ok searchReq => exact searchProgram_plain g hid searchReq
      · cases hurl : argUrl g args with
        | error e => exact plain_errorResponse hid (plainError_argUrl g hurl)
        | ok parsedUrl => exact extractProgram_plain g hid parsedUrl
      · exact plain_error hid (-32601) (by decide) (by decide) _

/-- Whatever a request is answered with is plain. -/
theorem handleRequest_plain (request : JsonRpcRequest) :
    (handleRequest g request id).Returns (Plain F) := by
  unfold handleRequest
  split_ifs
  · refine ⟨hid, ?_, by simp [handleInitialize]⟩
    rintro _ ⟨⟩
    simp
  · refine ⟨hid, ?_, by simp [handleToolsList]⟩
    rintro _ ⟨⟩
    simp [searchTool, extractTool]
  · exact handleToolsCall_plain g hid
  · exact plain_error hid (-32601) (by decide) (by decide) _

end ToolCalls

end Plain

/-! ### Messages -/

/-- Every number of a line is one that `serde_json` keeps. -/
structure Numeric (F : JsonFormat) (lib : JsonLib) : Prop where
  object : ∀ line members, lib.parse line = some (.object members) →
    ∀ key v, (key, some v) ∈ members → JsonText.Writable F v
  array : ∀ line elements, lib.parse line = some (.array elements) →
    ∀ v, some v ∈ elements → JsonText.Writable F v

section Messages

variable {F : JsonFormat} {lib : JsonLib} {line : String} {request : JsonRpcRequest} {id : Json}

/-- An identifier that is there is not `null`. -/
theorem optional_eq_some {v : Json} (h : JsonRpcRequest.optional v = some id) :
    v = id ∧ id ≠ .null := by
  cases v with
  | null => exact absurd h (by simp [JsonRpcRequest.optional])
  | _ =>
      obtain rfl := Option.some.inj h
      exact ⟨rfl, by simp⟩

/-- The id of a request is a value of the line. -/
theorem fromStr_id (hlib : Numeric F lib) (h : JsonRpcRequest.fromStr lib line = .ok request)
    (hid : request.id = some id) : JsonText.Writable F id ∧ id ≠ .null := by
  unfold JsonRpcRequest.fromStr at h
  cases hparse : lib.parse line with
  | none =>
      rw [hparse] at h
      exact absurd h (by simp)
  | some top =>
      rw [hparse] at h
      cases top with
      | other => exact absurd h (by simp)
      | object members =>
          dsimp only at h
          cases hread : JsonRpcRequest.readObject members with
          | none =>
              rw [hread] at h
              exact absurd h (by simp)
          | some request' =>
              rw [hread] at h
              obtain rfl := Except.ok.inj h
              obtain ⟨-, hoptional, -, -⟩ := readObject_eq_some_iff.mp hread
              rcases hoptional with ⟨-, hnone⟩ | ⟨v, hvalue, hslot⟩
              · rw [hnone] at hid
                exact absurd hid (by simp)
              · obtain ⟨rfl, hnull⟩ := optional_eq_some (hslot.symm.trans hid)
                have hmem : ("id", some v) ∈ members := mem_valuesOf.mp (by simp [hvalue])
                exact ⟨hlib.object line members hparse "id" v hmem, hnull⟩
      | array elements =>
          dsimp only at h
          cases hread : JsonRpcRequest.readArray elements with
          | none =>
              rw [hread] at h
              exact absurd h (by simp)
          | some request' =>
              rw [hread] at h
              obtain rfl := Except.ok.inj h
              unfold JsonRpcRequest.readArray at hread
              split at hread
              · simp only [Option.bind_eq_bind, Option.bind_eq_some_iff, Option.some.injEq] at hread
                obtain ⟨_, _, v, rfl, _, _, _, _, rfl⟩ := hread
                have hslot : JsonRpcRequest.optional v = some id := hid
                obtain ⟨rfl, hnull⟩ := optional_eq_some hslot
                exact ⟨hlib.array line _ hparse v (by simp), hnull⟩
              · exact absurd hread (by simp)

/-- What the response to a line has to be: to a request, one under its id, with a result or an
error; to anything else, an error without an id. -/
def AnswersLine (lib : JsonLib) (g : Gateway) (line : String) (response : JsonRpcResponse) :
    Prop :=
  match JsonRpcRequest.fromStr lib line with
  | .ok request => request.method ≠ "notifications/initialized"
      ∧ ∃ id, request.id = some id ∧ WellFormed id response
        ∧ (response.result.isSome = true → MayHaveResult g request)
  | .error _ => WellFormed .null response ∧ ∃ e, response.error = some e ∧ e.code = -32700

/-- **Every response answers its line**, and can be written. -/
theorem handleMessage_plain (hlib : Numeric F lib) (g : Gateway) (line : String)
    (env : Env GatewayI) {response : JsonRpcResponse}
    (h : (handleMessage lib g line).result env 0 = some response) :
    Plain F response ∧ AnswersLine lib g line response := by
  unfold AnswersLine
  cases hrequest : JsonRpcRequest.fromStr lib line with
  | error e =>
      rw [handleMessage_of_error hrequest] at h
      obtain rfl := Option.some.inj h
      exact ⟨plain_error .null (-32700) (by decide) (by decide) _,
        wellFormed_errorResponse .null _, _, rfl, rfl⟩
  | ok request =>
      by_cases hmethod : request.method = "notifications/initialized"
      · rw [handleMessage_of_notification hrequest (Or.inr hmethod)] at h
        exact absurd h (by simp)
      · cases hid : request.id with
        | none =>
            rw [handleMessage_of_notification hrequest (Or.inl hid)] at h
            exact absurd h (by simp)
        | some id =>
            rw [handleMessage_of_id hrequest hmethod hid] at h
            obtain rfl := Option.some.inj h
            obtain ⟨hwritable, -⟩ := fromStr_id hlib hrequest hid
            obtain ⟨hwell, hresult⟩ := (handleRequest_returns g request id).result env 0
            exact ⟨(handleRequest_plain g hwritable request).result env 0, hmethod, id, hid, hwell,
              hresult⟩

end Messages

/-! ## What a client reads -/

open McpStdio

/-- `handle_message` on the `i`-th message, whose call has surroundings of its own. -/
def respond (lib : JsonLib) (g : Gateway) (env : ℕ → Env GatewayI) (i : ℕ) (line : String) :
    Option JsonRpcResponse :=
  (handleMessage lib g line).result (env i) 0

/-- `serde_json::to_string`, which fails on no response. -/
def lineText (F : JsonFormat) (response : JsonRpcResponse) : String :=
  String.ofList (JsonText.write F .compact response.toJson 0)

/-- The texts of the responses. -/
def texts (F : JsonFormat) (lib : JsonLib) (g : Gateway) (env : ℕ → Env GatewayI) :
    ℕ → String → Option String :=
  answers (respond lib g env) fun response => some (lineText F response)

/-- The response to the `i`-th message of an input. -/
def replyTo (lib : JsonLib) (g : Gateway) (env : ℕ → Env GatewayI) (input : List ReadResult)
    (i : ℕ) : Option JsonRpcResponse :=
  (messagesOf input)[i]?.bind (respond lib g env i)

/-- The id of the `i`-th message, when it is a request with one. -/
def idAt (lib : JsonLib) (input : List ReadResult) (i : ℕ) : Option Json :=
  (messagesOf input)[i]?.bind fun line =>
    match JsonRpcRequest.fromStr lib line with
    | .ok request => request.id
    | .error _ => none

/-- The responses on the lines of stdout that are complete. -/
def clientReads (F : JsonFormat) (stdout : List UInt8) : List (Option JsonRpcResponse) :=
  (stdout.splitOn lineBreak).dropLast.map fun l =>
    (JsonText.read F (Utf8.decodeLossy l)).bind JsonRpcResponse.ofJson

section Client

variable {F : JsonFormat} {lib : JsonLib} {g : Gateway} {env : ℕ → Env GatewayI}
  {input : List ReadResult} {i : ℕ} {response : JsonRpcResponse}

/-- Every line is answered with the text of the reply to it. -/
theorem responseOf_texts (i : ℕ) :
    responseOf (texts F lib g env) input i = (replyTo lib g env input i).map (lineText F) := by
  unfold responseOf replyTo texts answers
  cases (messagesOf input)[i]? with
  | none => rfl
  | some line =>
      show (respond lib g env i line).bind (fun response => some (lineText F response)) = _
      rw [Option.bind_some]
      cases respond lib g env i line <;> rfl

/-- A reply is plain, and it answers its line. -/
theorem plain_of_replyTo (hlib : Numeric F lib)
    (h : replyTo lib g env input i = some response) : Plain F response
      ∧ ∃ line, (messagesOf input)[i]? = some line ∧ AnswersLine lib g line response := by
  obtain ⟨line, hline, hresponse⟩ := Option.bind_eq_some_iff.mp h
  obtain ⟨hplain, hanswers⟩ := handleMessage_plain hlib g line (env i) hresponse
  exact ⟨hplain, line, hline, hanswers⟩

/-- A response is written on one line. -/
theorem lineBreak_not_mem_lineText (h : Plain F response) :
    lineBreak ∉ RustStr.asBytes (lineText F response) := by
  apply lineBreak_not_mem
  intro hmem
  rw [lineText, String.toList_ofList] at hmem
  exact absurd (JsonText.le_of_mem_compact h.writable 0 _ hmem) (by decide)

/-- A line is read as the response that was written on it. -/
theorem read_line (h : Plain F response) :
    (JsonText.read F (Utf8.decodeLossy (RustStr.asBytes (lineText F response)))).bind
      JsonRpcResponse.ofJson = some response.sorted := by
  rw [RustStr.asBytes, Utf8.decodeLossy_encode, lineText, String.toList_ofList, h.read_back]

/-- The lines on stdout are read one by one. -/
theorem clientReads_lines (hlib : Numeric F lib) {order : List ℕ} {rest : List UInt8}
    (hsome : ∀ i ∈ order, (replyTo lib g env input i).isSome = true)
    (hrest : lineBreak ∉ rest) :
    clientReads F (order.flatMap (lineOf (texts F lib g env) input) ++ rest)
      = order.map fun i => (replyTo lib g env input i).map JsonRpcResponse.sorted := by
  have htext : ∀ i ∈ order, ∃ response, replyTo lib g env input i = some response
      ∧ Plain F response
      ∧ responseOf (texts F lib g env) input i = some (lineText F response) := by
    intro i hi
    obtain ⟨response, hresponse⟩ := Option.isSome_iff_exists.mp (hsome i hi)
    obtain ⟨hplain, -⟩ := plain_of_replyTo hlib hresponse
    exact ⟨response, hresponse, hplain, by rw [responseOf_texts, hresponse, Option.map_some]⟩
  have hlines : ∀ i ∈ order, (responseOf (texts F lib g env) input i).isSome = true := by
    intro i hi
    obtain ⟨response, -, -, heq⟩ := htext i hi
    rw [heq]
    rfl
  rw [clientReads, flatMap_lineOf hlines, splitOn_lines _ hrest, List.dropLast_concat,
    List.map_map]
  · apply List.map_congr_left
    intro i hi
    obtain ⟨response, hresponse, hplain, heq⟩ := htext i hi
    rw [Function.comp_apply, heq, hresponse, Option.map_some, Option.map_some, Option.getD_some]
    exact read_line hplain
  · intro l hl
    obtain ⟨i, hi, rfl⟩ := List.mem_map.mp hl
    obtain ⟨response, -, hplain, heq⟩ := htext i hi
    rw [heq, Option.map_some, Option.getD_some]
    exact lineBreak_not_mem_lineText hplain

/-- A response under the id of one request alone is the response to that request. -/
theorem eq_of_id (hlib : Numeric F lib) {j : ℕ} {id : Json}
    (hresponse : replyTo lib g env input j = some response) (hid : idAt lib input i = some id)
    (heq : response.id.sorted = id.sorted)
    (honce : ∀ k, k ≠ i → ∀ id', idAt lib input k = some id' → id'.sorted ≠ id.sorted) :
    j = i := by
  obtain ⟨-, line, hline, hanswers⟩ := plain_of_replyTo hlib hresponse
  unfold AnswersLine at hanswers
  cases hrequest : JsonRpcRequest.fromStr lib line with
  | ok request =>
      rw [hrequest] at hanswers
      obtain ⟨-, id', hid', hwell, -⟩ := hanswers
      by_contra hne
      have hidAt : idAt lib input j = some id' := by
        rw [idAt, hline, Option.bind_some, hrequest]
        exact hid'
      rw [hwell.sameId] at heq
      exact honce j hne id' hidAt heq
  | error e =>
      -- The id of a request is not `null`.
      rw [hrequest] at hanswers
      rw [hanswers.1.sameId] at heq
      obtain ⟨line', hline', hread⟩ := Option.bind_eq_some_iff.mp hid
      cases hrequest' : JsonRpcRequest.fromStr lib line' with
      | error e =>
          rw [hrequest'] at hread
          exact absurd hread (by simp)
      | ok request =>
          rw [hrequest'] at hread
          obtain ⟨-, hnull⟩ := fromStr_id hlib hrequest' hread
          exact absurd heq.symm (Json.sorted_ne_null hnull)

end Client

/-- A client has read the responses to the messages `order` in the state `s`. -/
structure HasRead (F : JsonFormat) (lib : JsonLib) (g : Gateway) (env : ℕ → Env GatewayI)
    (input : List ReadResult) (s : State) (order : List ℕ) : Prop where
  nodup : order.Nodup
  reads : clientReads F s.shared.stdout
    = order.map fun i => (replyTo lib g env input i).map JsonRpcResponse.sorted
  answers : ∀ i ∈ order, ∃ line response, (messagesOf input)[i]? = some line
    ∧ replyTo lib g env input i = some response ∧ AnswersLine lib g line response
  finished : ∀ (i : ℕ) (t : Task), s.tasks[i]? = some t → t.stage = .finished →
    (replyTo lib g env input i).isSome = true → i ∈ order
  paired : ∀ (k i : ℕ) (id : Json) (response : JsonRpcResponse),
    (clientReads F s.shared.stdout)[k]? = some (some response) →
      idAt lib input i = some id → response.id = id.sorted →
        (∀ j, j ≠ i → ∀ id', idAt lib input j = some id' → id'.sorted ≠ id.sorted) →
          order[k]? = some i

/-- **A client reads the responses, whole and under their ids.**  However the tasks are
scheduled and whatever cache, engine and network answer, the complete lines of stdout are read
as the responses to distinct messages, in some order: each is a response of the protocol to
its message, and every task that has finished with a response is among them.  A response
under an id that only one request has is the response to that request. -/
theorem replies_read (F : JsonFormat) {lib : JsonLib} (hlib : Numeric F lib) (g : Gateway)
    (env : ℕ → Env GatewayI) {input : List ReadResult} {s : State}
    (hs : (machine (texts F lib g env) input).Reach Machine.anyStep s) :
    ∃ order, HasRead F lib g env input s order := by
  have hinv : Inv (texts F lib g env) input s :=
    hs.invariant (fun _ => Inv.init) fun _ _ _ h _ hstep => h.step hstep
  obtain ⟨order, hnodup, hmem, hout⟩ := hinv.framed
  have hsome : ∀ i ∈ order, (replyTo lib g env input i).isSome = true := by
    intro i hi
    obtain ⟨t, ht, hwritten⟩ := (hmem i).mp hi
    have hresponse := hinv.isSome_of_lineWritten ht hwritten
    rwa [responseOf_texts, Option.isSome_map] at hresponse
  have hrest : lineBreak ∉ partialOf s.shared.lock s.tasks := by
    rcases hinv.partialOf_cases with hnil | ⟨i, r, -, hr, hpre⟩
    · rw [hnil]
      exact List.not_mem_nil
    · rw [responseOf_texts] at hr
      obtain ⟨response, hresponse, rfl⟩ := Option.map_eq_some_iff.mp hr
      obtain ⟨hplain, -⟩ := plain_of_replyTo hlib hresponse
      exact fun h => lineBreak_not_mem_lineText hplain (hpre.subset h)
  have hreads := clientReads_lines hlib hsome hrest
  rw [← hout] at hreads
  refine ⟨order, hnodup, hreads, ?_, ?_, ?_⟩
  · intro i hi
    obtain ⟨response, hresponse⟩ := Option.isSome_iff_exists.mp (hsome i hi)
    obtain ⟨-, line, hline, hanswers⟩ := plain_of_replyTo hlib hresponse
    exact ⟨line, response, hline, hresponse, hanswers⟩
  · intro i t ht hfinished hresponse
    refine (hmem i).mpr ⟨t, ht, ?_⟩
    rw [hfinished, Stage.lineWritten, responseOf_texts, Option.isSome_map]
    exact hresponse
  · intro k i id response hread hid heq honce
    rw [hreads, List.getElem?_map] at hread
    obtain ⟨j, hj, hreply⟩ := Option.map_eq_some_iff.mp hread
    obtain ⟨written, hwritten, rfl⟩ := Option.map_eq_some_iff.mp hreply
    rw [hj, eq_of_id hlib hwritten hid heq honce]

/-! ### One request -/

/-- A task that has begun to write goes on to the end of its response. -/
theorem reach_written {handle : ℕ → String → Option String} {input : List ReadResult}
    {msg : String} {permits : ℕ} {out written rest : List UInt8}
    (h : (machine handle input).Reach Machine.anyStep
      ⟨.running, [], ⟨permits, some 0, out⟩, [⟨msg, .writing written rest⟩]⟩) :
    (machine handle input).Reach Machine.anyStep
      ⟨.running, [], ⟨permits, some 0, out ++ rest⟩, [⟨msg, .writing (written ++ rest) []⟩]⟩ := by
  induction rest generalizing out written with
  | nil => simpa using h
  | cons b rest ih =>
      have hnext : (machine handle input).Reach Machine.anyStep
          ⟨.running, [], ⟨permits, some 0, out ++ [b]⟩, [⟨msg, .writing (written ++ [b]) rest⟩]⟩ :=
        h.of_run (Machine.runOk_anyStep _ [.task 0]) rfl
      simpa using ih hnext

/-- The only message is answered. -/
theorem reach_answered {handle : ℕ → String → Option String} {msg r : String}
    (htrim : RustStr.trim msg = msg) (hne : msg ≠ "") (hr : handle 0 msg = some r) :
    (machine handle [.line msg]).Reach Machine.anyStep
      ⟨.running, [], ⟨32, none, RustStr.asBytes r ++ [lineBreak]⟩, [⟨msg, .finished⟩]⟩ := by
  have hinit : (machine handle [.line msg]).init
      ⟨.running, [.line msg], ⟨maxInFlight, none, []⟩, []⟩ := rfl
  have hbegun : (machine handle [.line msg]).Reach Machine.anyStep
      ⟨.running, [], ⟨31, some 0, []⟩, [⟨msg, .writing [] (RustStr.asBytes r)⟩]⟩ := by
    apply (Machine.Reach.init hinit).of_run
      (Machine.runOk_anyStep _ [.read, .task 0, .task 0, .task 0])
    simp [Machine.run, machine, readStep, taskStep, McpStdio.advance, maxInFlight, htrim, hne, hr]
  exact (reach_written hbegun).of_run (Machine.runOk_anyStep _ [.task 0, .task 0]) rfl

theorem numeric_listLine {F : JsonFormat} : Numeric F (exampleLib listLine listMembers "") where
  object line members h key v hv := by
    simp only [exampleLib] at h
    split_ifs at h
    obtain rfl := JsonLine.object.inj (Option.some.inj h)
    simp only [listMembers, List.mem_cons, List.not_mem_nil, or_false, Prod.mk.injEq,
      Option.some.injEq] at hv
    rcases hv with ⟨-, rfl⟩ | ⟨-, rfl⟩ | ⟨-, rfl⟩ <;> simp
  array line elements h := by
    simp only [exampleLib] at h
    split_ifs at h
    exact JsonLine.noConfusion (Option.some.inj h)

theorem respond_listLine :
    respond (exampleLib listLine listMembers "") Gateway.idle (fun _ => idleEnv) 0 listLine
      = some (handleToolsList (.ofNat 7)) := by
  rw [respond, handleMessage_of_id (g := Gateway.idle) fromStr_listLine (by decide) rfl idleEnv]
  rfl

/-- The request for the tools is answered, and a client has read the answer. -/
theorem replies_read_list : ∃ s order,
    HasRead (serdeJson .oneHalf) (exampleLib listLine listMembers "") Gateway.idle
        (fun _ => idleEnv) [.line listLine] s order
      ∧ 0 ∈ order := by
  have htrim : RustStr.trim listLine = listLine := by decide
  have hne : listLine ≠ "" := by decide
  have htext : texts (serdeJson .oneHalf) (exampleLib listLine listMembers "") Gateway.idle
      (fun _ => idleEnv) 0 listLine
      = some (lineText (serdeJson .oneHalf) (handleToolsList (.ofNat 7))) := by
    rw [texts, answers, respond_listLine]
    rfl
  obtain ⟨order, horder⟩ := replies_read (serdeJson .oneHalf) numeric_listLine Gateway.idle
    (fun _ => idleEnv) (reach_answered htrim hne htext)
  refine ⟨_, order, horder, horder.finished 0 _ rfl rfl ?_⟩
  have hmessages : messagesOf [.line listLine] = [listLine] := by
    simp only [messagesOf, List.filterMap_cons, htrim, if_neg hne, List.filterMap_nil]
  rw [replyTo, hmessages, List.getElem?_cons_zero, Option.bind_some, respond_listLine]
  rfl

end McpWire
