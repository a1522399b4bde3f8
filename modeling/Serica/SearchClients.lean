/-
# What the clients of a search read

A search response reaches a client as the data of an HTTP reply, with the members of its
objects in order, or inside the text of a tool result, pretty-printed with the fields as they
are declared.

* `SearchResponse.ofJson_toJson`, `SearchResponse.ofJson_sorted`: either JSON is read as the
  response.
* `clients_read_alike`: the client of a search over HTTP and the client of the same search over
  MCP read the same response, the timing aside, or both read an error.
-/
import Serica.McpWire
import Serica.SearchPaths

/-! ## Members in order -/

namespace Json

/-- Where no member is named twice, a look-up finds every member. -/
theorem lookup_eq_some_iff_mem {fields : List (String × Json)}
    (hnodup : (fields.map Prod.fst).Nodup) {key : String} {v : Json} :
    fields.lookup key = some v ↔ (key, v) ∈ fields := by
  induction fields with
  | nil => simp
  | cons field fields ih =>
      obtain ⟨name, w⟩ := field
      rw [List.map_cons, List.nodup_cons] at hnodup
      obtain ⟨hnew, hrest⟩ := hnodup
      rw [List.lookup_cons, List.mem_cons, Prod.mk.injEq, ← ih hrest]
      by_cases hname : key = name
      · subst hname
        have hnone : fields.lookup key ≠ some v := by
          intro h
          exact hnew (List.mem_map.mpr ⟨(key, v), (ih hrest).mp h, rfl⟩)
        simp [hnone, eq_comm]
      · have hbeq : (key == name) = false := beq_eq_false_iff_ne.mpr hname
        simp [hname, hbeq]

/-- The order of the members makes no difference to a look-up. -/
theorem get_sorted {fields : List (String × Json)} (hnodup : (fields.map Prod.fst).Nodup)
    (key : String) :
    (Json.object fields).sorted.get key = ((Json.object fields).get key).map sorted := by
  have hperm := List.perm_insertionSort (fun p q : String × Json => p.1 ≤ q.1)
    (sortedFields fields)
  have hnames : (sortedFields fields).map Prod.fst = fields.map Prod.fst := by
    rw [sortedFields_eq, List.map_map]
    rfl
  have hnodup' := (hperm.map Prod.fst).nodup_iff.mpr (hnames ▸ hnodup)
  ext v
  show (List.insertionSort _ (sortedFields fields)).lookup key = some v
    ↔ (fields.lookup key).map sorted = some v
  rw [lookup_eq_some_iff_mem hnodup', hperm.mem_iff, sortedFields_eq, List.mem_map,
    Option.map_eq_some_iff]
  constructor
  · rintro ⟨⟨name, w⟩, hw, heq⟩
    obtain ⟨rfl, rfl⟩ := Prod.mk.inj heq
    exact ⟨w, (lookup_eq_some_iff_mem hnodup).mpr hw, rfl⟩
  · rintro ⟨w, hw, rfl⟩
    exact ⟨(key, w), (lookup_eq_some_iff_mem hnodup).mp hw, rfl⟩

end Json

/-! ## Responses with their members in order -/

/-- With its members in order a result is read as the same one. -/
theorem SearchResult.ofJson_sorted (r : SearchResult) : ofJson r.toJson.sorted = some r := by
  rw [ofJson, toJson, Json.get_sorted r.nodup_members, Json.get_sorted r.nodup_members,
    Json.get_sorted r.nodup_members]
  rfl

/-- With its members in order the JSON is read as the same response. -/
theorem SearchResponse.ofJson_sorted {d : SearchResponse} (htotal : d.totalResults < 2 ^ 64) :
    ofJson d.toJson.sorted = some d := by
  have hitems : (Json.sortedItems (d.results.map SearchResult.toJson)).mapM SearchResult.ofJson
      = some d.results := by
    rw [Json.sortedItems_eq, List.map_map, List.mapM_map]
    have hread : SearchResult.ofJson ∘ Json.sorted ∘ SearchResult.toJson = some := by
      funext r
      exact r.ofJson_sorted
    rw [hread]
    exact List.mapM_pure.trans (congrArg some (List.map_id _))
  have hget := fun key => Json.get_sorted d.nodup_members key
  exact ofJson_of_get htotal hitems (hget _) (hget _) (hget _) (hget _) (hget _)

/-! ## What the clients read -/

namespace SearchClients

open HttpGateway SearchPaths

/-- The codec writes responses in the format, as they are derived, and no response that it reads
counts more results than an unsigned integer of 64 bits can. -/
structure IsSerde (F : JsonFormat) (codec : Codec SearchResponse) : Prop where
  toStringPretty : ∀ d : SearchResponse, d.totalResults < 2 ^ 64 →
    codec.toStringPretty d = .ok (String.ofList (JsonText.write F .pretty d.toJson 0))
  fromSlice : ∀ bytes d, codec.fromSlice bytes = some d → d.totalResults < 2 ^ 64

/-- The codec of the responses is one. -/
theorem isSerde_codec (F : JsonFormat) : IsSerde F (SearchResponse.codec F) where
  toStringPretty _ htotal := if_pos (decide_eq_true htotal)
  fromSlice bytes d h := by
    simp only [SearchResponse.codec, Codec.derived] at h
    split_ifs at h
    obtain ⟨v, -, hv⟩ := Option.bind_eq_some_iff.mp h
    exact SearchResponse.totalResults_ofJson hv

/-- The body of the reply of `search_handler`, as a `Value`. -/
def replyJson : Except AppError SearchResponse → Json
  | .ok d => .object [("data", d.toJson.sorted), ("success", .bool true)]
  | .error e => .object
      [("error", .object
          [("code", .string e.toHttpParts.2.1), ("message", .string e.toHttpParts.2.2)]),
        ("success", .bool false)]

/-- The reply of `search_handler`. -/
def httpReply (F : JsonFormat) (result : Except AppError SearchResponse) : HttpResponse where
  status := match result with
    | .ok _ => 200
    | .error e => e.toHttpParts.1
  headers := jsonHeaders
  body := RustStr.asBytes (String.ofList (JsonText.write F .compact (replyJson result) 0))

/-- How a client reads the data of a reply. -/
def readData (F : JsonFormat) (body : List UInt8) : Option SearchResponse :=
  ((JsonText.read F (Utf8.decodeLossy body)).bind fun v => v.get "data").bind SearchResponse.ofJson

/-- How a client reads the code and the message of an error. -/
def readError (F : JsonFormat) (body : List UInt8) : Option (String × String) := do
  let v ← JsonText.read F (Utf8.decodeLossy body)
  let e ← v.get "error"
  let code ← (e.get "code").bind Json.asStr
  let message ← (e.get "message").bind Json.asStr
  some (code, message)

/-- The text of a tool result. -/
def toolText (response : JsonRpcResponse) : Option String := do
  let result ← response.result
  let items ← (result.get "content").bind Json.asArray
  let item ← items.head?
  (item.get "text").bind Json.asStr

/-- How a client reads the text of a tool result. -/
def readTool (F : JsonFormat) (response : JsonRpcResponse) : Option SearchResponse := do
  let text ← toolText response
  let v ← JsonText.read F text.toList
  SearchResponse.ofJson v

/-- A response on its line. -/
def lineOf (F : JsonFormat) (response : JsonRpcResponse) : List UInt8 :=
  RustStr.asBytes (McpWire.lineText F response)

/-- How a client reads a line. -/
def readLine (F : JsonFormat) (line : List UInt8) : Option JsonRpcResponse :=
  (JsonText.read F (Utf8.decodeLossy line)).bind JsonRpcResponse.ofJson

section Clients

variable {F : JsonFormat} {d : SearchResponse}

/-- The body of a reply can be written. -/
theorem writable_replyJson (result : Except AppError SearchResponse) :
    JsonText.Writable F (replyJson result) := by
  cases result with
  | ok d => simp [replyJson, writable_sorted d.writable_toJson]
  | error e => simp [replyJson]

/-- The body of a reply is read back. -/
theorem read_httpReply (result : Except AppError SearchResponse) :
    JsonText.read F (Utf8.decodeLossy (httpReply F result).body) = some (replyJson result) := by
  show JsonText.read F (Utf8.decodeLossy (RustStr.asBytes (String.ofList _))) = _
  rw [RustStr.asBytes, Utf8.decodeLossy_encode, String.toList_ofList,
    JsonText.read_write (writable_replyJson result)]

/-- The client of a reply with data reads the data. -/
theorem readData_httpReply (htotal : d.totalResults < 2 ^ 64) :
    readData F (httpReply F (.ok d)).body = some d := by
  rw [readData, read_httpReply]
  exact SearchResponse.ofJson_sorted htotal

/-- The client of an error reads its code and its message. -/
theorem readError_httpReply (e : AppError) :
    readError F (httpReply F (.error e)).body = some e.toHttpParts.2 := by
  rw [readError, read_httpReply]
  rfl

section Serde

variable {floats : FloatText}

/-- `quote` writes strings as `serde_json` does. -/
theorem writeString_serdeJson (s : String) :
    JsonText.writeString (serdeJson floats) s = (quote s).toList :=
  (toList_quote s).symm

/-- With the texts of `serde_json` the reply to a success is the one of the handlers. -/
theorem httpReply_ok (d : SearchResponse) : httpReply (serdeJson floats) (.ok d)
    = successResponse
      (String.ofList (JsonText.write (serdeJson floats) .compact d.toJson.sorted 1)) := by
  have hopen : "\x7b\"data\":" = "\x7b" ++ quote "data" ++ ":" := by decide
  have hclose : ",\"success\":true\x7d" = "," ++ quote "success" ++ ":" ++ "true" ++ "\x7d" := by
    decide
  have htext : "\x7b\"data\":"
        ++ String.ofList (JsonText.write (serdeJson floats) .compact d.toJson.sorted 1)
        ++ ",\"success\":true\x7d"
      = String.ofList (JsonText.write (serdeJson floats) .compact (replyJson (.ok d)) 0) := by
    rw [hopen, hclose, ← String.toList_inj]
    simp [replyJson, JsonText.write, JsonText.writeFields, JsonText.enclose, JsonText.commas,
      JsonText.Layout.compact, writeString_serdeJson]
  unfold httpReply successResponse
  rw [htext]

variable (floats) in
/-- The body of an error is the JSON of an object. -/
theorem errorBody_eq (code message : String) : errorBody code message
    = String.ofList (JsonText.write (serdeJson floats) .compact (.object
      [("error", .object [("code", .string code), ("message", .string message)]),
        ("success", .bool false)]) 0) := by
  have hopen : "\x7b\"error\":\x7b\"code\":".toList
      = '\x7b' :: (quote "error").toList ++ ':' :: '\x7b' :: (quote "code").toList ++ [':'] := by
    decide +kernel
  have hcomma : ",\"message\":".toList = ',' :: (quote "message").toList ++ [':'] := by
    decide +kernel
  have hclose : "\x7d,\"success\":false\x7d".toList
      = '\x7d' :: ',' :: (quote "success").toList ++ ':' :: "false".toList ++ ['\x7d'] := by
    decide +kernel
  refine String.toList_inj.mp ?_
  rw [String.toList_ofList]
  simp only [JsonText.write, JsonText.writeFields, JsonText.enclose, JsonText.commas,
    JsonText.Layout.compact, writeString_serdeJson]
  unfold errorBody
  generalize quote code = codeText
  generalize quote message = messageText
  simp only [String.toList_append, hopen, hcomma, hclose]
  simp

/-- With the texts of `serde_json` the reply to an error is `AppError::into_response`. -/
theorem httpReply_error (e : AppError) :
    httpReply (serdeJson floats) (.error e) = intoResponse e := by
  unfold httpReply intoResponse
  rw [errorBody_eq floats]
  rfl

end Serde

variable {codec : Codec SearchResponse}

/-- The errors of a search over MCP are plain. -/
theorem plain_mcpFail {id : Json} (hid : JsonText.Writable F id) {e : SearchError}
    {failed : JsonRpcResponse} (h : CacheSoundness.mcpFail id e = some failed) :
    McpWire.Plain F failed := by
  cases e with
  | parseEmpty => exact absurd h (by simp [CacheSoundness.mcpFail])
  | parsePanicked =>
      rw [← Option.some.inj h]
      exact McpWire.plain_error hid (-32603) (by decide) (by decide) _
  | _ =>
      rw [← Option.some.inj h]
      exact McpWire.plain_error hid (-32000) (by decide) (by decide) _

/-- The text of a tool result is found with its members in order. -/
theorem toolText_sorted {response : JsonRpcResponse} {text : String}
    (h : IsToolResult response text) : toolText response.sorted = some text := by
  have hitem : (Json.object [("type", .string "text"), ("text", .string text)]).sorted.get "text"
      = some (.string text) := by
    rw [Json.get_sorted (by show ["type", "text"].Nodup; decide)]
    rfl
  have hcontent : (Json.object
      [("content", .array [.object [("type", .string "text"), ("text", .string text)]]),
        ("isError", .bool false)]).sorted.get "content"
      = some (.array
        [(Json.object [("type", .string "text"), ("text", .string text)]).sorted]) := by
    rw [Json.get_sorted (by show ["content", "isError"].Nodup; decide)]
    rfl
  rw [toolText, JsonRpcResponse.sorted, h.2]
  show ((((Json.object _).sorted.get "content").bind Json.asArray).bind fun items =>
    items.head?.bind fun item => (item.get "text").bind Json.asStr) = some text
  rw [hcontent]
  show ((Json.object _).sorted.get "text").bind Json.asStr = some text
  rw [hitem]
  rfl

/-- The client of a tool result reads the response inside its text. -/
theorem readTool_toolCallResult (hcodec : IsSerde F codec) (id : Json)
    (htotal : d.totalResults < 2 ^ 64) :
    readTool F (McpGateway.toolCallResult codec id d).sorted = some d := by
  have htool := isToolResult_toolCallResult id (hcodec.toStringPretty d htotal)
  rw [readTool, toolText_sorted htool]
  show (JsonText.read F (String.ofList _).toList).bind SearchResponse.ofJson = some d
  rw [String.toList_ofList, JsonText.read_write d.writable_toJson]
  exact SearchResponse.ofJson_toJson htotal

end Clients

/-! ## The comparison -/

variable {g : Gateway} {req : SearchRequest} {outcome : Except SearchError (List SearchResult)}
  {ms : UInt64} {w : World}

/-- A page counts no more results than the engine has found. -/
theorem totalResults_page (results : List SearchResult) :
    (page g req ms results).totalResults ≤ results.length := by
  show (Search.applySafeSearchFilter g.platform results req.safeSearch).length ≤ results.length
  unfold Search.applySafeSearchFilter
  split_ifs
  · exact le_rfl
  · exact List.length_filter_le _ _
  · exact List.length_filter_le _ _

/-- A response that is served counts results that the engine has found, or those of an
entry. -/
theorem totalResults_served {F : JsonFormat} (hcodec : IsSerde F g.searchCodec)
    (hsize : ∀ results, outcome = .ok results → results.length < 2 ^ 64) {d : SearchResponse}
    (h : (served g req ms outcome w).2 = .ok d) : d.totalResults < 2 ^ 64 := by
  unfold served at h
  cases hhit :
      ((w.entries (Search.cacheKey g.hash req)).map Prod.fst).bind g.searchCodec.fromSlice with
  | some response =>
      rw [hhit] at h
      obtain ⟨bytes, -, hbytes⟩ := Option.bind_eq_some_iff.mp hhit
      rw [← Except.ok.inj h]
      exact hcodec.fromSlice bytes response hbytes
  | none =>
      rw [hhit] at h
      cases outcome with
      | ok results =>
          rw [← Except.ok.inj h]
          exact (totalResults_page results).trans_lt (hsize results rfl)
      | error e =>
          cases e with
          | parseEmpty =>
              rw [← Except.ok.inj h]
              exact (totalResults_page []).trans_lt (by simp)
          | _ => exact absurd h (by simp)

/-- Both clients have read the response of a search, each with the timing of its own run. -/
structure BothRead (F : JsonFormat) (id : Json) (ms ms' : UInt64)
    (r : Except AppError SearchResponse) (r' : JsonRpcResponse) (d : SearchResponse) : Prop where
  ok : r = .ok { d with timingMs := ms }
  data : readData F (httpReply F r).body = some { d with timingMs := ms }
  tool : ∃ response, readLine F (lineOf F r') = some response ∧ response.id = id.sorted
    ∧ readTool F response = some { d with timingMs := ms' }

/-- Both clients have read an error. -/
structure BothFailed (F : JsonFormat) (id : Json) (r : Except AppError SearchResponse)
    (r' : JsonRpcResponse) : Prop where
  body : ∃ e : AppError, r = .error e
    ∧ readError F (httpReply F r).body = some e.toHttpParts.2
  line : ∃ response e, readLine F (lineOf F r') = some response ∧ response.id = id.sorted
    ∧ response.result = none ∧ response.error = some e

/-- The client of a line reads the response on it, with its members in order. -/
theorem readLine_lineOf {F : JsonFormat} {response : JsonRpcResponse}
    (h : McpWire.Plain F response) : readLine F (lineOf F response) = some response.sorted :=
  McpWire.read_line h

/-- A tool result has the id of its request. -/
theorem toolCallResult_id {F : JsonFormat} (hcodec : IsSerde F g.searchCodec) (id : Json)
    {d : SearchResponse} (htotal : d.totalResults < 2 ^ 64) :
    (McpGateway.toolCallResult g.searchCodec id d).id = id := by
  rw [McpGateway.toolCallResult, hcodec.toStringPretty d htotal]

/-- **The two clients of a search read alike.**  Over the same entries and with the same outcome
of the engine, either the client of HTTP reads a response from the body of its reply, and the
client of MCP reads the same one, the timing aside, from the tool result on its line, or both
read an error.  A vector has fewer than `2 ^ 64` elements (`hsize`). -/
theorem clients_read_alike (F : JsonFormat) (g : Gateway) (hcodec : IsSerde F g.searchCodec)
    {id : Json} (hid : JsonText.Writable F id) (req : SearchRequest)
    (outcome : Except SearchError (List SearchResult))
    (hsize : ∀ results, outcome = .ok results → results.length < 2 ^ 64) (w : World)
    (ms ms' : UInt64) :
    (∃ d, BothRead F id ms ms' (httpRun g req outcome ms w).2
        (mcpRun g id req outcome ms' w).2 d)
      ∨ BothFailed F id (httpRun g req outcome ms w).2 (mcpRun g id req outcome ms' w).2 := by
  obtain ⟨r, hhttp, hreply⟩ := httpRun_eq g req ms outcome w
  obtain ⟨r', hmcp, hreply'⟩ := mcpRun_eq g req ms' outcome w id
  rw [hhttp, hmcp]
  rcases served_result g req ms ms' outcome w with ⟨d, hd, hd'⟩ | ⟨e, he, he'⟩
  · have hserved := totalResults_served hcodec hsize hd
    have htotal : d.totalResults < 2 ^ 64 := hserved
    rw [hd] at hreply
    rw [hd'] at hreply'
    obtain rfl := hreply
    obtain rfl := hreply'
    have hplain := McpWire.plain_toolCallResult g.searchCodec hid { d with timingMs := ms' }
    refine Or.inl ⟨d, rfl, readData_httpReply htotal, _, readLine_lineOf hplain, ?_, ?_⟩
    · exact congrArg Json.sorted (toolCallResult_id hcodec id htotal)
    · exact readTool_toolCallResult hcodec id htotal
  · rw [he] at hreply
    rw [he'] at hreply'
    obtain ⟨appErr, -, rfl⟩ := Option.map_eq_some_iff.mp hreply
    have hplain := plain_mcpFail hid hreply'
    obtain ⟨err, rfl⟩ := CacheSoundness.mcpFail_eq_some hreply'
    refine Or.inr ⟨⟨appErr, rfl, readError_httpReply appErr⟩, ?_⟩
    exact ⟨_, err.sorted, readLine_lineOf hplain, rfl, rfl, rfl⟩

open CacheSoundness (rustAsk rustResults serdeGateway)

/-- A page of two results is read in 7 ms over HTTP and in 9 ms over MCP. -/
theorem clients_read_alike_rustPage :
    ∃ d, BothRead (serdeJson .oneHalf) (.ofNat 7) 7 9
      (httpRun serdeGateway rustAsk (.ok rustResults) 7 ⟨fun _ => none, .new⟩).2
      (mcpRun serdeGateway (.ofNat 7) rustAsk (.ok rustResults) 9 ⟨fun _ => none, .new⟩).2 d := by
  have hid : JsonText.Writable (serdeJson .oneHalf) (.ofNat 7) := by simp
  have hsize : ∀ results, Except.ok (ε := SearchError) rustResults = .ok results →
      results.length < 2 ^ 64 := by
    intro results h
    obtain rfl := Except.ok.inj h
    decide
  rcases clients_read_alike (serdeJson .oneHalf) serdeGateway (isSerde_codec _) hid rustAsk
      (.ok rustResults) hsize ⟨fun _ => none, .new⟩ 7 9 with hread | hfailed
  · exact hread
  · obtain ⟨e, herror, -⟩ := hfailed.body
    exact absurd (herror.symm.trans httpRun_rustPage) (by simp)

end SearchClients
