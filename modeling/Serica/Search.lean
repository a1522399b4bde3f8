/-
# Keys and results

The code that both gateways share: the cache keys, the safe-search filter and the
finalize step.

A cache key hashes a stream of bytes.  Streams determine the requests they come from
(`hashStream_injective`), so two requests share a key only when the hash collides or
they are the same request (`cacheKey_injOn`).
-/
import Serica.Config
import Serica.Models

/-! ## The outcome of a search -/

/-- `SearchError`; the text of `upstream` is the displayed status. -/
inductive SearchError
  | blocked
  | challenged
  | upstream (status : String)
  | transport (msg : String)
  | parseEmpty
  | parsePanicked
deriving DecidableEq, Repr

namespace SearchError

/-- `e.to_string()`. -/
def display : SearchError → String
  | blocked => "upstream blocked the request (403)"
  | challenged => "upstream returned an anti-bot challenge (202) instead of results"
  | upstream status => "upstream returned non-success status: " ++ status
  | transport msg => "transport error: " ++ msg
  | parseEmpty => "upstream returned a success status but zero results were parsed"
  | parsePanicked => "search result parser task panicked"

end SearchError

namespace Search

/-! ## Languages -/

def supportedLanguages : List String := ["en", "de", "fr", "es"]

def ddgRegionForLanguage (lang : String) : Option String :=
  if lang = "en" then some "us-en"
  else if lang = "de" then some "de-de"
  else if lang = "fr" then some "fr-fr"
  else if lang = "es" then some "es-es"
  else none

/-- The region mapping knows exactly the listed languages. -/
theorem ddgRegionForLanguage_isSome (lang : String) :
    (ddgRegionForLanguage lang).isSome = true ↔ lang ∈ supportedLanguages := by
  rw [ddgRegionForLanguage]
  split_ifs with h1 h2 h3 h4 <;> simp [supportedLanguages, *]

/-! ## Cache keys -/

/-- What `str::hash` feeds to the hasher. -/
def strStream (s : String) : List UInt8 := RustStr.asBytes s ++ [0xFF]

/-- What `u32::hash` feeds to the hasher. -/
def u32Stream (n : UInt32) : List UInt8 :=
  [n.toUInt8, (n >>> 8).toUInt8, (n >>> 16).toUInt8, (n >>> 24).toUInt8]

/-- What `Option<String>::hash` feeds to the hasher: the discriminant, as eight bytes,
and the text. -/
def optionStream : Option String → List UInt8
  | none => [0, 0, 0, 0, 0, 0, 0, 0]
  | some s => [1, 0, 0, 0, 0, 0, 0, 0] ++ strStream s

def hashStream (req : SearchRequest) : List UInt8 :=
  strStream req.query ++ u32Stream req.page ++ [req.safeSearch] ++ optionStream req.language

/-- The lower-case hexadecimal digit of a value below 16. -/
def hexDigit (v : ℕ) : Char := if v < 10 then Char.ofNat (0x30 + v) else Char.ofNat (0x57 + v)

/-- The last `k` hexadecimal digits of a number. -/
def hexDigits : ℕ → ℕ → List Char
  | 0, _ => []
  | k + 1, n => hexDigits k (n / 16) ++ [hexDigit (n % 16)]

/-- The format `016x`. -/
def hex16 (n : UInt64) : String := String.ofList (hexDigits 16 n.toNat)

/-- `hash` stands for the standard hasher run over a stream of bytes. -/
def cacheKey (hash : List UInt8 → UInt64) (req : SearchRequest) : String :=
  "serica:v1:search:" ++ hex16 (hash (hashStream req))

def extractCacheKey (hash : List UInt8 → UInt64) (url : Url) : String :=
  "serica:v1:extract:" ++ hex16 (hash (strStream url.asStr))

/-- A text at the start of a stream determines itself and the rest. -/
theorem strStream_append_inj {s t : String} {xs ys : List UInt8}
    (h : strStream s ++ xs = strStream t ++ ys) : s = t ∧ xs = ys := by
  rw [strStream, strStream, List.append_assoc, List.append_assoc] at h
  obtain ⟨hst, hxs⟩ := Utf8.encode_append_ff_inj h
  exact ⟨String.toList_inj.mp hst, hxs⟩

/-- A string is known by its bytes in the stream. -/
theorem strStream_injective : Function.Injective strStream := by
  intro s t h
  have happ : strStream s ++ [] = strStream t ++ [] := by rw [h]
  exact (strStream_append_inj happ).1

/-- So is a number. -/
theorem u32Stream_injective : Function.Injective u32Stream := by
  intro m n h
  have h8 : UInt32.toNat 8 % 32 = 8 := rfl
  have h16 : UInt32.toNat 16 % 32 = 16 := rfl
  have h24 : UInt32.toNat 24 % 32 = 24 := rfl
  simp only [u32Stream, List.cons.injEq, and_true, ← UInt8.toNat_inj, UInt32.toNat_toUInt8,
    UInt32.toNat_shiftRight, h8, h16, h24, Nat.shiftRight_eq_div_pow] at h
  have hm := m.toNat_lt
  have hn := n.toNat_lt
  apply UInt32.toNat_inj.mp
  omega

/-- So is an optional string. -/
theorem optionStream_injective : Function.Injective optionStream := by
  intro s t h
  cases s with
  | none =>
      cases t with
      | none => rfl
      | some t => simp [optionStream] at h
  | some s =>
      cases t with
      | none => simp [optionStream] at h
      | some t => rw [strStream_injective (List.append_cancel_left h)]

/-- **Streams determine requests**: no query or language can imitate another field. -/
theorem hashStream_injective : Function.Injective hashStream := by
  intro r r' h
  obtain ⟨query, page, safe, language⟩ := r
  obtain ⟨query', page', safe', language'⟩ := r'
  -- The query ends at its `0xFF`, and the page and the level have a fixed length.
  simp only [hashStream, List.append_assoc] at h
  obtain ⟨rfl, hrest⟩ := strStream_append_inj h
  obtain ⟨hpage, hrest⟩ := List.append_inj hrest rfl
  obtain ⟨hsafe, hlanguage⟩ := List.append_inj hrest rfl
  rw [u32Stream_injective hpage, (List.cons.inj hsafe).1, optionStream_injective hlanguage]

theorem hexDigit_inj : ∀ v < 16, ∀ w < 16, hexDigit v = hexDigit w → v = w := by
  decide

theorem hexDigits_length (k n : ℕ) : (hexDigits k n).length = k := by
  induction k generalizing n with
  | zero => rfl
  | succ k ih => rw [hexDigits, List.length_append, ih, List.length_singleton]

/-- Numbers of `k` digits are known by them. -/
theorem hexDigits_inj {k m n : ℕ} (hm : m < 16 ^ k) (hn : n < 16 ^ k)
    (h : hexDigits k m = hexDigits k n) : m = n := by
  induction k generalizing m n with
  | zero =>
      rw [pow_zero] at hm hn
      omega
  | succ k ih =>
      rw [hexDigits, hexDigits] at h
      obtain ⟨hhigh, hlow⟩ := List.append_inj h (by rw [hexDigits_length, hexDigits_length])
      have hdiv : m / 16 = n / 16 := by
        apply ih _ _ hhigh
        · rw [pow_succ] at hm
          omega
        · rw [pow_succ] at hn
          omega
      have hmod : m % 16 = n % 16 :=
        hexDigit_inj _ (Nat.mod_lt _ (by omega)) _ (Nat.mod_lt _ (by omega)) (List.cons.inj hlow).1
      omega

/-- A hash is known by its digits. -/
theorem hex16_injective : Function.Injective hex16 := by
  intro m n h
  rw [hex16, hex16, String.ofList_inj] at h
  exact UInt64.toNat_inj.mp (hexDigits_inj m.toNat_lt n.toNat_lt h)

theorem append_left_cancel {s t u : String} (h : s ++ t = s ++ u) : t = u := by
  have hchars := congrArg String.toList h
  rw [String.toList_append, String.toList_append] at hchars
  exact String.toList_inj.mp (List.append_cancel_left hchars)

/-- **Search keys separate requests** whose streams the hash separates. -/
theorem cacheKey_injOn {hash : List UInt8 → UInt64} {streams : Set (List UInt8)}
    (hhash : streams.InjOn hash) {r r' : SearchRequest} (hr : hashStream r ∈ streams)
    (hr' : hashStream r' ∈ streams) (h : cacheKey hash r = cacheKey hash r') : r = r' := by
  unfold cacheKey at h
  have hval : hash (hashStream r) = hash (hashStream r') := hex16_injective (append_left_cancel h)
  have hstream : hashStream r = hashStream r' := hhash hr hr' hval
  exact hashStream_injective hstream

/-- **Extract keys separate URLs** whose streams the hash separates. -/
theorem extractCacheKey_injOn {hash : List UInt8 → UInt64} {streams : Set (List UInt8)}
    (hhash : streams.InjOn hash) {u v : Url} (hu : strStream u.asStr ∈ streams)
    (hv : strStream v.asStr ∈ streams) (h : extractCacheKey hash u = extractCacheKey hash v) :
    u.asStr = v.asStr := by
  unfold extractCacheKey at h
  have hval : hash (strStream u.asStr) = hash (strStream v.asStr) :=
    hex16_injective (append_left_cancel h)
  have hstream : strStream u.asStr = strStream v.asStr := hhash hu hv hval
  exact strStream_injective hstream

/-- The two kinds of keys never meet. -/
theorem cacheKey_ne_extractCacheKey (hash : List UInt8 → UInt64) (r : SearchRequest) (u : Url) :
    cacheKey hash r ≠ extractCacheKey hash u := by
  intro h
  unfold cacheKey extractCacheKey at h
  -- The prefixes differ in their eleventh character.
  have hchars := congrArg String.toList h
  rw [String.toList_append, String.toList_append] at hchars
  have hhead := congrArg (fun cs => cs[10]?) hchars
  rw [List.getElem?_append_left (by decide), List.getElem?_append_left (by decide)] at hhead
  exact absurd hhead (by decide)

/-! ## The safe-search filter -/

def safeSearchBlocklistStrict : List String :=
  ["porn", "xxx", "adult", "nsfw", "sex", "pornography", "explicit", "nude", "nudity", "erotic",
    "fetish", "hentai", "onlyfans", "escort", "camgirl", "webcam", "stripper", "stripclub"]

def safeSearchBlocklistModerate : List String :=
  ["porn", "xxx", "nsfw", "pornography", "explicit", "nudity", "erotic", "fetish", "hentai",
    "onlyfans", "escort", "camgirl", "stripper", "stripclub"]

/-- `s.split(|c| !c.is_alphanumeric())`. -/
def words (platform : Platform) (s : String) : List String :=
  (s.toList.splitOnP fun c => !platform.isAlphanumeric c).map String.ofList

/-- `word.to_ascii_lowercase()`. -/
def toAsciiLowercase (word : String) : String := String.ofList (word.toList.map Char.toLower)

/-- A result with a word on the list in its title, its snippet or the host of its URL. -/
def isBlocked (platform : Platform) (blocklist : List String) (r : SearchResult) : Bool :=
  let host :=
    match platform.parseUrl r.url with
    | .ok u => u.hostStr.getD ""
    | .error _ => ""
  (words platform r.title ++ words platform r.snippet ++ words platform host).any fun word =>
    toAsciiLowercase word ∈ blocklist

def applySafeSearchFilter (platform : Platform) (results : List SearchResult) (level : UInt8) :
    List SearchResult :=
  if level = 0 then results
  else
    let blocklist := if level = 1 then safeSearchBlocklistModerate else safeSearchBlocklistStrict
    results.filter fun r => !isBlocked platform blocklist r

/-- Filters, counts, and cuts the page to its size. -/
def finalizeResults (platform : Platform) (results : List SearchResult) (req : SearchRequest)
    (maxPerPage : ℕ) (timingMs : UInt64) : SearchResponse :=
  let filtered := applySafeSearchFilter platform results req.safeSearch
  { results := filtered.take maxPerPage, totalResults := filtered.length, page := req.page,
    timingMs := timingMs, cached := false }

end Search
