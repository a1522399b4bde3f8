/-
# The DuckDuckGo adapter

A search is one GET of the HTML endpoint.  The page goes into the URL as an offset;
the reply is classified by its status and its body, and parsed.

Sending the request and parsing the HTML are parameters of the adapter.
-/
import Serica.Search

namespace DuckDuckGo

/-! ## The URL of a search -/

/-- `(page.saturating_sub(1)) * 20`. -/
def offset (page : UInt32) : UInt32 := (if page = 0 then 0 else page - 1) * 20

def ddgKpForSafeSearch : UInt8 → String
  | 0 => "-2"
  | 1 => "-1"
  | _ => "1"

def buildSearchUrl (base query : String) (offset : UInt32) (language : Option String)
    (safeSearch : UInt8) : String :=
  base ++ "?q=" ++ FormUrlencoded.serializeText query ++ "&s=" ++ toString offset.toNat
  ++ (match language.bind Search.ddgRegionForLanguage with
    | some region => "&kl=" ++ region
    | none => "")
  ++ "&kp=" ++ ddgKpForSafeSearch safeSearch

example : buildSearchUrl "https://html.duckduckgo.com/html/" "a b" 20 (some "de") 0
    = "https://html.duckduckgo.com/html/?q=a+b&s=20&kl=de-de&kp=-2" := by decide +kernel

/-- The query of a URL, as it is written: what follows the first `?`, up to a `#`. -/
def queryPart (url : String) : String :=
  String.ofList (((url.toList.takeWhile (· != '#')).dropWhile (· != '?')).drop 1)

/-- The parameters of a search. -/
def searchParams (query : String) (offset : UInt32) (language : Option String)
    (safeSearch : UInt8) : List (String × String) :=
  [("q", query), ("s", toString offset.toNat)]
    ++ ((language.bind Search.ddgRegionForLanguage).map fun region => ("kl", region)).toList
    ++ [("kp", ddgKpForSafeSearch safeSearch)]

theorem serializeText_offset (offset : UInt32) :
    FormUrlencoded.serializeText (toString offset.toNat) = toString offset.toNat := by
  apply FormUrlencoded.serializeText_eq_self
  intro b hb
  obtain ⟨c, hc, hbc⟩ := List.mem_flatMap.mp hb
  have hdigits : (toString offset.toNat).toList = Nat.toDigits 10 offset.toNat :=
    String.toList_ofList
  rw [hdigits] at hc
  have hdigit := Nat.isDigit_of_mem_toDigits (by omega) (by omega) hc
  rw [Char.isDigit, Bool.and_eq_true, decide_eq_true_eq, decide_eq_true_eq] at hdigit
  have hle : 48 ≤ c.toNat ∧ c.toNat ≤ 57 := ⟨hdigit.1, hdigit.2⟩
  rw [Utf8.encodeChar_ascii (by omega), List.mem_singleton] at hbc
  have hb : b.toNat = c.toNat := by
    rw [hbc, UInt8.toNat_ofNat', Nat.mod_eq_of_lt (by omega)]
  have hrange : (0x30 ≤ b && b ≤ 0x39) = true := by
    rw [Bool.and_eq_true, decide_eq_true_eq, decide_eq_true_eq, UInt8.le_iff_toNat_le,
      UInt8.le_iff_toNat_le, hb]
    exact hle
  simp [FormUrlencoded.byteUnchanged, hrange]

theorem serializeText_region {language : Option String} {region : String}
    (h : language.bind Search.ddgRegionForLanguage = some region) :
    FormUrlencoded.serializeText region = region := by
  obtain ⟨lang, -, hlang⟩ := Option.bind_eq_some_iff.mp h
  have hregion : region ∈ ["us-en", "de-de", "fr-fr", "es-es"] := by
    unfold Search.ddgRegionForLanguage at hlang
    split_ifs at hlang <;> simp [← Option.some.inj hlang]
  have hall : ∀ r ∈ ["us-en", "de-de", "fr-fr", "es-es"], FormUrlencoded.serializeText r = r := by
    decide +kernel
  exact hall region hregion

theorem serializeText_kp (safeSearch : UInt8) :
    FormUrlencoded.serializeText (ddgKpForSafeSearch safeSearch)
      = ddgKpForSafeSearch safeSearch := by
  have hall : ∀ level : UInt8, FormUrlencoded.serializeText (ddgKpForSafeSearch level)
      = ddgKpForSafeSearch level := by decide +kernel
  exact hall safeSearch

/-- The URL is the endpoint with the serialised parameters. -/
theorem buildSearchUrl_eq (base query : String) (offset : UInt32) (language : Option String)
    (safeSearch : UInt8) : buildSearchUrl base query offset language safeSearch = base ++ "?"
      ++ FormUrlencoded.serialize (searchParams query offset language safeSearch) := by
  have hname : ∀ name ∈ ["q", "s", "kl", "kp"], FormUrlencoded.serializeText name = name := by
    decide +kernel
  have hq := hname "q" (by simp)
  have hs := hname "s" (by simp)
  have hkl := hname "kl" (by simp)
  have hkp := hname "kp" (by simp)
  have hquestion : "?q=" = "?" ++ ("q" ++ "=") := rfl
  have hoffset : "&s=" = "&" ++ ("s" ++ "=") := rfl
  have hregions : "&kl=" = "&" ++ ("kl" ++ "=") := rfl
  have hlevel : "&kp=" = "&" ++ ("kp" ++ "=") := rfl
  rw [buildSearchUrl, FormUrlencoded.serialize, searchParams, hquestion, hoffset, hlevel]
  cases hregion : language.bind Search.ddgRegionForLanguage with
  | none =>
      simp only [Option.map_none, Option.toList_none, List.append_nil, List.cons_append,
        List.nil_append, List.map_cons, List.map_nil, String.intercalate_cons_cons,
        String.intercalate_singleton, hq, hs, hkp, serializeText_offset, serializeText_kp,
        String.append_assoc, String.empty_append]
  | some region =>
      dsimp only
      rw [hregions]
      simp only [Option.map_some, Option.toList_some, List.cons_append, List.nil_append,
        List.map_cons, List.map_nil, String.intercalate_cons_cons, String.intercalate_singleton,
        hq, hs, hkl, hkp, serializeText_offset, serializeText_kp, serializeText_region hregion,
        String.append_assoc]

theorem hash_not_mem_serialize (pairs : List (String × String)) :
    '#' ∉ (FormUrlencoded.serialize pairs).toList := by
  intro h
  rcases FormUrlencoded.of_mem_asBytes_serialize ((Utf8.mem_encode_ascii (a := '#') (by decide)).mpr
    h) with h | h | h <;> exact absurd h (by decide)

theorem queryPart_append {base query : String} (hquestion : '?' ∉ base.toList)
    (hhash : '#' ∉ base.toList) (hquery : '#' ∉ query.toList) :
    queryPart (base ++ "?" ++ query) = query := by
  have hurl : (base ++ "?" ++ query).toList = base.toList ++ '?' :: query.toList := by
    rw [String.toList_append, String.toList_append, List.append_assoc]
    rfl
  have hnohash : ∀ c ∈ base.toList ++ '?' :: query.toList, (c != '#') = true := by
    intro c hc
    rw [bne_iff_ne]
    rintro rfl
    rcases List.mem_append.mp hc with hc | hc
    · exact hhash hc
    · exact hquery (List.mem_of_ne_of_mem (by decide) hc)
  have hnoquestion : ∀ c ∈ base.toList, (c != '?') = true := by
    intro c hc
    rw [bne_iff_ne]
    rintro rfl
    exact hquestion hc
  rw [queryPart, hurl, List.takeWhile_eq_self_iff.mpr hnohash,
    List.dropWhile_append_of_pos hnoquestion, List.dropWhile_cons_of_neg (by decide), List.drop_one,
    List.tail_cons, String.ofList_toList]

/-- **No query disturbs another parameter**: parsed, the query of the URL is the list of
the parameters, whatever the text searched for is. -/
theorem buildSearchUrl_params {base : String} (hquestion : '?' ∉ base.toList)
    (hhash : '#' ∉ base.toList) (query : String) (offset : UInt32) (language : Option String)
    (safeSearch : UInt8) :
    FormUrlencoded.parse (RustStr.asBytes
        (queryPart (buildSearchUrl base query offset language safeSearch)))
      = [("q", query), ("s", toString offset.toNat)]
        ++ ((language.bind Search.ddgRegionForLanguage).map fun region => ("kl", region)).toList
        ++ [("kp", ddgKpForSafeSearch safeSearch)] := by
  rw [buildSearchUrl_eq, queryPart_append hquestion hhash (hash_not_mem_serialize _),
    FormUrlencoded.parse_serialize]
  rfl

/-- A query that looks like parameters is searched for as it is. -/
theorem buildSearchUrl_params_injection :
    FormUrlencoded.parse (RustStr.asBytes (queryPart
        (buildSearchUrl "https://html.duckduckgo.com/html/" "a&kp=-2#" 20 (some "de") 2)))
      = [("q", "a&kp=-2#"), ("s", "20"), ("kl", "de-de"), ("kp", "1")] :=
  buildSearchUrl_params (by decide) (by decide) "a&kp=-2#" 20 (some "de") 2

/-! ## The reply -/

/-- A reply: its status, and its body unless reading it fails. -/
structure Reply where
  status : ℕ
  text : Except String String

/-- The page with the anti-bot challenge. -/
def isChallengePage (status : ℕ) (body : String) : Bool :=
  status == 202 && (RustStr.contains body "anomaly-modal" || RustStr.contains body "challenge-form")

/-- What the reply to a probe says of the upstream; no reply says that it is down. -/
def showsUp : Except String Reply → Bool
  | .error _ => false
  | .ok reply =>
      if !(200 ≤ reply.status && reply.status < 300) then false
      else
        match reply.text with
        | .ok body => !isChallengePage reply.status body
        | .error _ => false

/-- The errors of a search that say that the upstream is down. -/
def saysDown : Except SearchError (List SearchResult) → Bool
  | .error .blocked => true
  | .error .challenged => true
  | .error (.upstream _) => true
  | .error (.transport _) => true
  | _ => false

/-- `search_url` is the endpoint, `send` the request with the fixed headers, `parseResults` the
parser, where `none` is a parser that panicked, and `showStatus` displays a status. -/
structure Adapter where
  searchUrl : String
  send : String → Except String Reply
  parseResults : String → Option (List SearchResult)
  showStatus : ℕ → String

namespace Adapter

variable (a : Adapter)

/-- What the reply to a search is taken for. -/
def classify (reply : Reply) : Except SearchError (List SearchResult) :=
  if reply.status = 403 then .error .blocked
  else if !(200 ≤ reply.status && reply.status < 300) then
    .error (.upstream (a.showStatus reply.status))
  else
    match reply.text with
    | .error e => .error (.transport e)
    | .ok body =>
        if isChallengePage reply.status body then .error .challenged
        else
          match a.parseResults body with
          | none => .error .parsePanicked
          | some results => if results.isEmpty then .error .parseEmpty else .ok results

def search (query : String) (page : UInt32) (language : Option String) (safeSearch : UInt8) :
    Except SearchError (List SearchResult) :=
  match a.send (buildSearchUrl a.searchUrl query (offset page) language safeSearch) with
  | .error e => .error (.transport e)
  | .ok reply => a.classify reply

/-- `probe_upstream`. -/
def probeUpstream : Bool := showsUp (a.send a.searchUrl)

/-- **A probe reads a reply as a search does**: it takes the upstream to be up exactly when a
search does not take the same reply for an upstream that is down. -/
theorem showsUp_eq (reply : Reply) : showsUp (.ok reply) = !saysDown (a.classify reply) := by
  simp only [showsUp, classify]
  by_cases hforbidden : reply.status = 403
  · simp [hforbidden, saysDown]
  rw [if_neg hforbidden]
  cases decide (200 ≤ reply.status) && decide (reply.status < 300) with
  | false => rfl
  | true =>
      rw [Bool.not_true, if_neg Bool.false_ne_true, if_neg Bool.false_ne_true]
      cases reply.text with
      | error e => rfl
      | ok body =>
          dsimp only
          cases isChallengePage reply.status body with
          | true => rfl
          | false =>
              rw [if_neg Bool.false_ne_true]
              cases a.parseResults body with
              | none => rfl
              | some results => cases results <;> rfl

end Adapter

/-- The offset of a page that the gateways let through. -/
theorem toNat_offset {page : UInt32} (hpos : 1 ≤ page.toNat) (hle : page.toNat ≤ 50) :
    (offset page).toNat = (page.toNat - 1) * 20 := by
  have hne : page ≠ 0 := by
    rintro rfl
    exact absurd hpos (by decide)
  have hone : (1 : UInt32) ≤ page := UInt32.le_iff_toNat_le.mpr hpos
  rw [offset, if_neg hne, UInt32.toNat_mul, UInt32.toNat_sub_of_le _ _ hone,
    show UInt32.toNat 1 = 1 from rfl, show UInt32.toNat 20 = 20 from rfl]
  omega

/-! ## An upstream that serves a ranking -/

/-- Asked for any offset, the engine replies with a page that holds the next 20 entries
of the ranking. -/
def Ranks (a : Adapter) (query : String) (language : Option String)
    (ranking : List SearchResult) : Prop :=
  ∀ s : UInt32, ∃ status body,
    a.send (buildSearchUrl a.searchUrl query s language 0) = .ok ⟨status, .ok body⟩
      ∧ 200 ≤ status ∧ status < 300 ∧ isChallengePage status body = false
      ∧ a.parseResults body = some ((ranking.drop s.toNat).take 20)

/-- A window without entries is an error of its own. -/
theorem search_of_ranks {a : Adapter} {query : String} {language : Option String}
    {ranking : List SearchResult} (h : Ranks a query language ranking) (page : UInt32) :
    a.search query page language 0
      = if (ranking.drop (offset page).toNat).take 20 = [] then .error .parseEmpty
        else .ok ((ranking.drop (offset page).toNat).take 20) := by
  obtain ⟨status, body, hsend, hge, hlt, hchallenge, hparse⟩ := h (offset page)
  have hsuccess : (200 ≤ status && status < 300) = true := by simp [hge, hlt]
  rw [Adapter.search, hsend]
  simp only [Adapter.classify]
  rw [if_neg (by omega), hsuccess, hchallenge, hparse]
  simp

/-- Different offsets are asked for under different URLs. -/
theorem buildSearchUrl_inj {base query : String} {s t : UInt32} {language : Option String}
    {safeSearch : UInt8} (h : buildSearchUrl base query s language safeSearch
      = buildSearchUrl base query t language safeSearch) : s = t := by
  rw [buildSearchUrl, buildSearchUrl, String.append_left_inj, String.append_left_inj,
    String.append_left_inj, String.append_right_inj] at h
  exact UInt32.toNat_inj.mp (Nat.repr_injective h)

/-- An upstream that echoes the URL of the request as its page; the parser finds the
offset in it. -/
def echo (query : String) (language : Option String) (ranking : List SearchResult) : Adapter where
  searchUrl := "https://html.duckduckgo.com/html/"
  send url := .ok ⟨200, .ok url⟩
  parseResults body :=
    match (List.range ranking.length).find? fun s => body
      == buildSearchUrl "https://html.duckduckgo.com/html/" query (UInt32.ofNat s) language 0 with
    | some s => some ((ranking.drop s).take 20)
    | none => some []
  showStatus _ := "200 OK"

theorem ranks_echo (query : String) (language : Option String) {ranking : List SearchResult}
    (hlen : ranking.length < 2 ^ 32) :
    Ranks (echo query language ranking) query language ranking := by
  intro s
  refine ⟨200, _, rfl, by decide, by decide, rfl, ?_⟩
  simp only [echo]
  split
  · rename_i t ht
    have hmem := List.mem_range.mp (List.mem_of_find?_eq_some ht)
    have hsame := List.find?_some ht
    have hurl := buildSearchUrl_inj (beq_iff_eq.mp hsame)
    rw [hurl, UInt32.toNat_ofNat', Nat.mod_eq_of_lt (by omega)]
  · rename_i hnone
    rw [List.find?_eq_none] at hnone
    have hge : ranking.length ≤ s.toNat := by
      by_contra hlt
      refine hnone s.toNat (List.mem_range.mpr (by omega)) ?_
      rw [UInt32.ofNat_toNat]
      exact beq_self_eq_true _
    rw [List.drop_eq_nil_of_le hge, List.take_nil]

end DuckDuckGo
