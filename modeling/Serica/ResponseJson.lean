/-
# Responses as JSON

The responses of a search and of an extract are stored and sent as JSON, as it is derived from
their declarations.

* `SearchResponse.ofJson_toJson`, `ExtractResponse.ofJson_toJson`: the JSON of a response is
  read as the response.
* `SearchResponse.codec`, `ExtractResponse.codec`: what is stored of a response is read back.
-/
import Serica.ApiErrors
import Serica.JsonText

/-! ## `serde_json` -/

/-- An escape has no control characters. -/
theorem HttpGateway.le_of_mem_escapeChar (c x : Char)
    (h : x ∈ (HttpGateway.escapeChar c).toList) : 0x20 ≤ x.toNat := by
  by_cases hlow : c.toNat ≤ 0x5C
  · -- All characters that are escaped are here.
    have hall : ∀ n ≤ 0x5C, ((HttpGateway.escapeChar (Char.ofNat n)).toList.all fun x =>
        decide (0x20 ≤ x.toNat)) = true := by decide
    have hc := List.all_eq_true.mp (hall c.toNat hlow)
    rw [Char.ofNat_toNat] at hc
    exact of_decide_eq_true (hc x h)
  · have hself : HttpGateway.escapeChar c = String.singleton c := by
      unfold HttpGateway.escapeChar
      repeat rw [if_neg (by omega)]
    rw [hself, String.toList_singleton, List.mem_singleton] at h
    rw [h]
    omega

/-- The texts of `serde_json`. -/
def serdeJson (floats : FloatText) : JsonFormat where
  toFloatText := floats
  escape c := (HttpGateway.escapeChar c).toList
  writes_escape := HttpGateway.writes_escapeChar
  le_of_mem_escape := HttpGateway.le_of_mem_escapeChar

/-- One float and its text. -/
def FloatText.oneHalf : FloatText where
  IsFloat q := q = 1 / 2
  writeFloat _ := ['0', '.', '5']
  readFloat cs := if cs = ['0', '.', '5'] then some (1 / 2) else none
  float_chars _ _ c hc := by
    simp only [List.mem_cons, List.not_mem_nil, or_false] at hc
    rcases hc with rfl | rfl | rfl <;> decide
  float_mark _ _ := ⟨'.', by decide, Or.inl rfl⟩
  readFloat_writeFloat q hq := by rw [hq, if_pos rfl]

namespace Json

def asBool : Json → Option Bool
  | .bool b => some b
  | _ => none

def asArray : Json → Option (List Json)
  | .array items => some items
  | _ => none

/-- As derived for an `Option<String>`, which is `null` when there is none. -/
def ofOption : Option String → Json
  | none => null
  | some s => string s

/-- A member that may be left out, or be `null`. -/
def optional (v : Json) (key : String) : Option (Option String) :=
  match v.get key with
  | none => some none
  | some null => some none
  | some (string s) => some (some s)
  | some _ => none

/-- An `Option<String>` is read back as a member. -/
theorem optional_of_get {v : Json} {key : String} {s : Option String}
    (h : v.get key = some (ofOption s)) : v.optional key = some s := by
  rw [optional, h]
  cases s <;> rfl

theorem writable_ofOption {F : JsonFormat} (s : Option String) :
    JsonText.Writable F (ofOption s) := by
  cases s <;> simp [ofOption]

end Json

/-- The codec of a type whose values are written as JSON and read back from it, as far as they
fit; bytes that are not those of a text are rejected. -/
def Codec.derived {α : Type} (F : JsonFormat) (toJson : α → Json) (ofJson : Json → Option α)
    (fits : α → Bool) (hwritable : ∀ a, JsonText.Writable F (toJson a))
    (hback : ∀ a, fits a = true → ofJson (toJson a) = some a) : Codec α where
  toVec a :=
    if fits a then some (RustStr.asBytes (String.ofList (JsonText.write F .compact (toJson a) 0)))
    else none
  fromSlice bytes :=
    if Utf8.encode (Utf8.decodeLossy bytes) = bytes then
      (JsonText.read F (Utf8.decodeLossy bytes)).bind ofJson
    else none
  toStringPretty a :=
    if fits a then .ok (String.ofList (JsonText.write F .pretty (toJson a) 0))
    else .error "number out of range"
  fromSlice_toVec := by
    intro a bytes h
    split_ifs at h with hfits
    rw [← Option.some.inj h, RustStr.asBytes, Utf8.decodeLossy_encode, if_pos rfl,
      String.toList_ofList, JsonText.read_write (hwritable a)]
    exact hback a hfits

/-- Values with the same pretty text are the same. -/
theorem Codec.derived_toStringPretty_inj {α : Type} {F : JsonFormat} {toJson : α → Json}
    {ofJson : Json → Option α} {fits : α → Bool}
    (hwritable : ∀ a, JsonText.Writable F (toJson a))
    (hback : ∀ a, fits a = true → ofJson (toJson a) = some a) {a b : α} {text : String}
    (ha : (Codec.derived F toJson ofJson fits hwritable hback).toStringPretty a = .ok text)
    (hb : (Codec.derived F toJson ofJson fits hwritable hback).toStringPretty b = .ok text) :
    a = b := by
  simp only [Codec.derived] at ha hb
  split_ifs at ha hb with hfits hfits'
  have hread : JsonText.read F text.toList = some (toJson a) := by
    rw [← Except.ok.inj ha, String.toList_ofList]
    exact JsonText.read_write (hwritable a) 0
  have hread' : JsonText.read F text.toList = some (toJson b) := by
    rw [← Except.ok.inj hb, String.toList_ofList]
    exact JsonText.read_write (hwritable b) 0
  have hjson : toJson a = toJson b := Option.some.inj (hread.symm.trans hread')
  exact Option.some.inj (by rw [← hback a hfits, ← hback b hfits', hjson])

/-! ## Searches -/

namespace SearchResult

def members (r : SearchResult) : List (String × Json) :=
  [("url", .string r.url), ("title", .string r.title), ("snippet", .string r.snippet)]

/-- The fields of a result have different names. -/
theorem nodup_members (r : SearchResult) : (r.members.map Prod.fst).Nodup := by
  show ["url", "title", "snippet"].Nodup
  decide

/-- As derived. -/
def toJson (r : SearchResult) : Json := .object r.members

def ofJson (v : Json) : Option SearchResult := do
  let url ← (v.get "url").bind Json.asStr
  let title ← (v.get "title").bind Json.asStr
  let snippet ← (v.get "snippet").bind Json.asStr
  some ⟨url, title, snippet⟩

/-- The JSON of a result is read as the result. -/
theorem ofJson_toJson (r : SearchResult) : ofJson r.toJson = some r := rfl

theorem writable_toJson {F : JsonFormat} (r : SearchResult) : JsonText.Writable F r.toJson := by
  simp [toJson, members]

end SearchResult

namespace SearchResponse

def members (d : SearchResponse) : List (String × Json) :=
  [("results", .array (d.results.map SearchResult.toJson)),
    ("total_results", .ofNat (UInt64.ofNat d.totalResults)),
    ("page", .ofNat d.page.toUInt64), ("timing_ms", .ofNat d.timingMs),
    ("cached", .bool d.cached)]

/-- The fields of a response have different names. -/
theorem nodup_members (d : SearchResponse) : (d.members.map Prod.fst).Nodup := by
  show ["results", "total_results", "page", "timing_ms", "cached"].Nodup
  decide

/-- As derived. -/
def toJson (d : SearchResponse) : Json := .object d.members

/-- As derived, on objects that name no member twice. -/
def ofJson (v : Json) : Option SearchResponse := do
  let items ← (v.get "results").bind Json.asArray
  let results ← items.mapM SearchResult.ofJson
  let totalResults ← (v.get "total_results").bind Json.asU64
  let page ← (v.get "page").bind Json.asU64
  let timingMs ← (v.get "timing_ms").bind Json.asU64
  let cached ← (v.get "cached").bind Json.asBool
  if page.toNat < 2 ^ 32 then
    some ⟨results, totalResults.toNat, page.toUInt32, timingMs, cached⟩
  else none

theorem writable_toJson {F : JsonFormat} (d : SearchResponse) : JsonText.Writable F d.toJson := by
  simp [toJson, members, SearchResult.writable_toJson]

/-- A response is read off its members, wherever they stand in the object. -/
theorem ofJson_of_get {v : Json} {items : List Json} {d : SearchResponse}
    (htotal : d.totalResults < 2 ^ 64) (hitems : items.mapM SearchResult.ofJson = some d.results)
    (hresults : v.get "results" = some (.array items))
    (htotalResults : v.get "total_results" = some (.ofNat (UInt64.ofNat d.totalResults)))
    (hpage : v.get "page" = some (.ofNat d.page.toUInt64))
    (htiming : v.get "timing_ms" = some (.ofNat d.timingMs))
    (hcached : v.get "cached" = some (.bool d.cached)) : ofJson v = some d := by
  have hlt : d.page.toUInt64.toNat < 2 ^ 32 := by
    rw [UInt32.toNat_toUInt64]
    exact d.page.toNat_lt
  have hback : (UInt64.ofNat d.totalResults).toNat = d.totalResults :=
    UInt64.toNat_ofNat_of_lt' htotal
  rw [ofJson, hresults, htotalResults, hpage, htiming, hcached]
  show (items.mapM SearchResult.ofJson).bind (fun results =>
    if d.page.toUInt64.toNat < 2 ^ 32 then
      some ⟨results, (UInt64.ofNat d.totalResults).toNat, d.page.toUInt64.toUInt32, d.timingMs,
        d.cached⟩
    else none) = some d
  rw [hitems, Option.bind_some, if_pos hlt, hback, UInt32.toUInt32_toUInt64]

/-- The JSON of a response is read as the response. -/
theorem ofJson_toJson {d : SearchResponse} (htotal : d.totalResults < 2 ^ 64) :
    ofJson d.toJson = some d := by
  have hitems : (d.results.map SearchResult.toJson).mapM SearchResult.ofJson = some d.results := by
    rw [List.mapM_map]
    exact List.mapM_pure.trans (congrArg some (List.map_id _))
  exact ofJson_of_get htotal hitems rfl rfl rfl rfl rfl

/-- A count that has been read fits in 64 bits. -/
theorem totalResults_ofJson {v : Json} {d : SearchResponse} (h : ofJson v = some d) :
    d.totalResults < 2 ^ 64 := by
  simp only [ofJson, Option.bind_eq_bind, Option.bind_eq_some_iff] at h
  obtain ⟨-, -, results, -, n, -, page, -, timingMs, -, cached, -, h⟩ := h
  split_ifs at h
  rw [← Option.some.inj h]
  exact n.toNat_lt

/-- A count of results is an unsigned integer of 64 bits. -/
def codec (F : JsonFormat) : Codec SearchResponse :=
  .derived F toJson ofJson (fun d => d.totalResults < 2 ^ 64) writable_toJson
    fun _ h => ofJson_toJson (of_decide_eq_true h)

/-- Different responses have different pretty texts. -/
theorem toStringPretty_inj {F : JsonFormat} {d d' : SearchResponse} {text : String}
    (h : (codec F).toStringPretty d = .ok text) (h' : (codec F).toStringPretty d' = .ok text) :
    d = d' :=
  Codec.derived_toStringPretty_inj writable_toJson
    (fun _ h => ofJson_toJson (of_decide_eq_true h)) h h'

end SearchResponse

/-! ## Extracts -/

namespace ExtractResponse

def members (d : ExtractResponse) : List (String × Json) :=
  [("url", .string d.url), ("title", .ofOption d.title), ("author", .ofOption d.author),
    ("date", .ofOption d.date), ("sitename", .ofOption d.sitename),
    ("page_type", .ofOption d.pageType), ("content", .ofOption d.content),
    ("excerpt", .ofOption d.excerpt), ("timing_ms", .ofNat d.timingMs), ("cached", .bool d.cached)]

/-- As derived. -/
def toJson (d : ExtractResponse) : Json := .object d.members

/-- As derived, on objects that name no member twice. -/
def ofJson (v : Json) : Option ExtractResponse := do
  let url ← (v.get "url").bind Json.asStr
  let title ← v.optional "title"
  let author ← v.optional "author"
  let date ← v.optional "date"
  let sitename ← v.optional "sitename"
  let pageType ← v.optional "page_type"
  let content ← v.optional "content"
  let excerpt ← v.optional "excerpt"
  let timingMs ← (v.get "timing_ms").bind Json.asU64
  let cached ← (v.get "cached").bind Json.asBool
  some ⟨url, title, author, date, sitename, pageType, content, excerpt, timingMs, cached⟩

theorem writable_toJson {F : JsonFormat} (d : ExtractResponse) :
    JsonText.Writable F d.toJson := by
  simp [toJson, members, Json.writable_ofOption]

/-- The JSON of a response is read as the response. -/
theorem ofJson_toJson (d : ExtractResponse) : ofJson d.toJson = some d := by
  have hoptional : ∀ key s, d.toJson.get key = some (.ofOption s) →
      d.toJson.optional key = some s := fun _ _ => Json.optional_of_get
  rw [ofJson, hoptional "title" d.title rfl, hoptional "author" d.author rfl,
    hoptional "date" d.date rfl, hoptional "sitename" d.sitename rfl,
    hoptional "page_type" d.pageType rfl, hoptional "content" d.content rfl,
    hoptional "excerpt" d.excerpt rfl]
  rfl

def codec (F : JsonFormat) : Codec ExtractResponse :=
  .derived F toJson ofJson (fun _ => true) writable_toJson fun d _ => ofJson_toJson d

end ExtractResponse
