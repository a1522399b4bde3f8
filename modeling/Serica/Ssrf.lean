/-
# The guard of the extract endpoint

Both gateways fetch a caller-supplied URL.  `fetchExtractTarget` follows redirects
by hand: every hop is normalised, its host is resolved, every address found is
checked, and the request goes to one of the addresses found.

The network is adversarial: `NetOp` are the calls the fetch makes, and an
environment answers each as it likes.  What is assumed of the HTTP client is
`Client.dial`: where a request goes, given how the client was built.

* `fetchExtractTarget_safe`: no connection is made to an address that was not
  checked, the number of requests is bounded, and the reply that is returned is the
  one to the request for the URL that is returned with it.
* `isForbiddenTarget_iff`: the addresses that are refused are exactly those of the
  documented blocks.
-/
import Serica.Error
import Serica.Interaction
import Serica.IpAddr
import Serica.Url

namespace Ssrf

/-! ## Forbidden targets -/

def isForbiddenV4 (v4 : Ipv4Addr) : Bool :=
  v4.isLoopback || v4.isPrivate || v4.isLinkLocal || v4.isBroadcast || v4.isDocumentation
    || v4.isUnspecified || (v4.o0 == 100 && (64 ≤ v4.o1 && v4.o1 < 128))
    || v4.octets == [169, 254, 169, 254]

def isForbiddenTarget : IpAddr → Bool
  | .v4 v4 => isForbiddenV4 v4
  | .v6 v6 =>
      v6.isLoopback || v6.isUnspecified || (v6.s0 &&& 0xfe00) == 0xfc00
        || (v6.s0 &&& 0xffc0) == 0xfe80 || (v6.toIpv4Mapped.map isForbiddenV4).getD false

/-- The IPv4 blocks that the comment on `isForbiddenTarget` lists. -/
def forbiddenBlocksV4 : List Ipv4Block :=
  [⟨⟨127, 0, 0, 0⟩, 8⟩, ⟨⟨10, 0, 0, 0⟩, 8⟩, ⟨⟨172, 16, 0, 0⟩, 12⟩, ⟨⟨192, 168, 0, 0⟩, 16⟩,
    ⟨⟨169, 254, 0, 0⟩, 16⟩, ⟨⟨255, 255, 255, 255⟩, 32⟩, ⟨⟨192, 0, 2, 0⟩, 24⟩,
    ⟨⟨198, 51, 100, 0⟩, 24⟩, ⟨⟨203, 0, 113, 0⟩, 24⟩, ⟨⟨0, 0, 0, 0⟩, 32⟩, ⟨⟨100, 64, 0, 0⟩, 10⟩]

/-- The IPv6 blocks it lists: `::1`, `::`, `fc00::/7` and `fe80::/10`. -/
def forbiddenBlocksV6 : List Ipv6Block :=
  [⟨⟨0, 0, 0, 0, 0, 0, 0, 1⟩, 128⟩, ⟨⟨0, 0, 0, 0, 0, 0, 0, 0⟩, 128⟩,
    ⟨⟨0xfc00, 0, 0, 0, 0, 0, 0, 0⟩, 7⟩, ⟨⟨0xfe80, 0, 0, 0, 0, 0, 0, 0⟩, 10⟩]

/-- `::ffff:0:0/96`. -/
def mappedBlock : Ipv6Block := ⟨⟨0, 0, 0, 0, 0, 0xffff, 0, 0⟩, 96⟩

def NonPublicV4 (a : Ipv4Addr) : Prop := ∃ b ∈ forbiddenBlocksV4, a ∈ b

/-- The documented notion of a non-public address. -/
def NonPublic : IpAddr → Prop
  | .v4 a => NonPublicV4 a
  | .v6 a => (∃ b ∈ forbiddenBlocksV6, a ∈ b) ∨ a ∈ mappedBlock ∧ NonPublicV4 a.low32

theorem isForbiddenV4_iff (a : Ipv4Addr) : isForbiddenV4 a = true ↔ NonPublicV4 a := by
  have hcgnat : (64 ≤ a.o1 ∧ a.o1 < 128)
      ↔ a.o1.toNat / 2 ^ (8 - 2) = (64 : UInt8).toNat / 2 ^ (8 - 2) := by
    rw [UInt8.le_iff_toNat_le, UInt8.lt_iff_toNat_lt]
    simp only [UInt8.toNat_ofNat]
    omega
  have hshared : (a.o0 == 100 && (64 ≤ a.o1 && a.o1 < 128)) = true
      ↔ a ∈ Ipv4Block.mk ⟨100, 64, 0, 0⟩ 10 := by
    rw [Ipv4Block.mem_of_second a (k := 2) (by omega), ← hcgnat]
    simp
  -- The metadata address is link-local, so its own test adds nothing.
  have hmeta : (a.octets == [169, 254, 169, 254]) = true → a.isLinkLocal = true := by
    simp only [Ipv4Addr.octets, Ipv4Addr.isLinkLocal, beq_iff_eq, Bool.and_eq_true,
      List.cons.injEq]
    rintro ⟨h0, h1, -⟩
    exact ⟨h0, h1⟩
  rw [isForbiddenV4, Bool.or_eq_true, or_iff_left_of_imp (fun h => by simp [hmeta h]),
    NonPublicV4, forbiddenBlocksV4]
  simp only [Bool.or_eq_true, hshared, a.isLoopback_iff, a.isPrivate_iff, a.isLinkLocal_iff,
    a.isBroadcast_iff, a.isDocumentation_iff, a.isUnspecified_iff, List.exists_mem_cons_iff,
    List.not_mem_nil, false_and, exists_false, or_false, or_assoc]

theorem isForbiddenTarget_iff (ip : IpAddr) : isForbiddenTarget ip = true ↔ NonPublic ip := by
  cases ip with
  | v4 a => exact isForbiddenV4_iff a
  | v6 a =>
      have hunique : a.s0 &&& 0xfe00 = 0xfc00
          ↔ a ∈ Ipv6Block.mk ⟨0xfc00, 0, 0, 0, 0, 0, 0, 0⟩ 7 :=
        a.and_mask_iff (by omega) (by decide) (by decide)
      have hlink : a.s0 &&& 0xffc0 = 0xfe80
          ↔ a ∈ Ipv6Block.mk ⟨0xfe80, 0, 0, 0, 0, 0, 0, 0⟩ 10 :=
        a.and_mask_iff (by omega) (by decide) (by decide)
      have hmapped : (a.toIpv4Mapped.map isForbiddenV4).getD false = true
          ↔ a ∈ mappedBlock ∧ NonPublicV4 a.low32 := by
        rw [Option.getD_eq_iff]
        simp only [Option.map_eq_some_iff, a.toIpv4Mapped_iff, Bool.false_eq_true, and_false,
          or_false]
        constructor
        · rintro ⟨v, ⟨hmem, rfl⟩, hv⟩
          exact ⟨hmem, (isForbiddenV4_iff _).mp hv⟩
        · rintro ⟨hmem, hv⟩
          exact ⟨a.low32, ⟨hmem, rfl⟩, (isForbiddenV4_iff _).mpr hv⟩
      rw [NonPublic, forbiddenBlocksV6]
      simp only [isForbiddenTarget, Bool.or_eq_true, beq_iff_eq, hunique, hlink, hmapped,
        a.isLoopback_iff, a.isUnspecified_iff, List.exists_mem_cons_iff, List.not_mem_nil,
        false_and, exists_false, or_false, or_assoc]

/-! ## The network -/

/-- What `build_pinned_extract_client` sets on the client builder. -/
structure Client where
  httpsOnly : Bool
  followsRedirects : Bool
  /-- `resolve(host, addr)`. -/
  pinned : String × SocketAddr
  userAgent : String
  timeoutSecs : ℕ
  /-- `no_proxy()`: the proxies named in the environment are ignored. -/
  noProxy : Bool
  proxy : Option String
deriving DecidableEq, Repr

/-- Where a request goes. -/
inductive Dial
  | refused
  | proxied
  | address (addr : SocketAddr)
  | resolver
deriving DecidableEq, Repr

/-- The assumed behaviour of the HTTP client: a request for the pinned host goes to
the pinned address, unless a proxy is in use. -/
def Client.dial (client : Client) (url : Url) : Dial :=
  if client.httpsOnly && url.scheme ≠ "https" then .refused
  else if client.proxy.isSome || !client.noProxy then .proxied
  else if url.hostStr = some client.pinned.1 then .address client.pinned.2
  else .resolver

/-- A response: its status, the headers that the program reads, and the chunks of its
body, each of which may be a transport error, given by the text of its cause. -/
structure Response where
  status : ℕ
  location : Option (List UInt8)
  contentType : Option (List UInt8)
  contentLength : Option UInt64
  chunks : List (Except String (List UInt8))

namespace Response

def isRedirection (response : Response) : Bool := 300 ≤ response.status && response.status < 400

end Response

/-- `HeaderValue::to_str`: fails unless every byte is visible ASCII or a tab. -/
def headerToStr (value : List UInt8) : Option String :=
  if value.all fun b => (0x20 ≤ b && b < 0x7F) || b == 0x09 then
    some (String.ofList (value.map fun b => Char.ofNat b.toNat))
  else none

/-- The bytes of header values that are texts. -/
def isHeaderByte (b : UInt8) : Bool := (0x20 ≤ b && b < 0x7F) || b == 0x09

theorem lt_of_isHeaderByte {b : UInt8} (h : isHeaderByte b = true) : b.toNat < 128 := by
  simp only [isHeaderByte, Bool.or_eq_true, Bool.and_eq_true, decide_eq_true_eq, beq_iff_eq,
    UInt8.lt_iff_toNat_lt, ← UInt8.toNat_inj] at h
  have h7f : UInt8.toNat 0x7F = 0x7F := rfl
  have h09 : UInt8.toNat 0x09 = 0x09 := rfl
  omega

/-- A header value is the text that it is read as, and only texts of some ASCII characters are
read. -/
theorem headerToStr_eq_some_iff {value : List UInt8} {s : String} :
    headerToStr value = some s
      ↔ value = RustStr.asBytes s ∧ ∀ c ∈ s.toList, Utf8.ascii isHeaderByte c = true := by
  have hall : headerToStr value = if value.all isHeaderByte then
      some (String.ofList (value.map fun b => Char.ofNat b.toNat)) else none := rfl
  rw [hall, Option.ite_none_right_eq_some, List.all_eq_true, Option.some.injEq]
  constructor
  · rintro ⟨hbytes, rfl⟩
    obtain ⟨htext, hclass⟩ := Utf8.encode_map_ofNat (fun _ => lt_of_isHeaderByte) hbytes
    rw [RustStr.asBytes, String.toList_ofList, htext]
    exact ⟨rfl, hclass⟩
  · rintro ⟨rfl, hclass⟩
    obtain ⟨hchars, hbytes⟩ := Utf8.map_ofNat_encode hclass
    refine ⟨hbytes, ?_⟩
    rw [RustStr.asBytes, hchars, String.ofList_toList]

/-- What the fetch uses of its libraries: `Url::join`, and how a status is displayed. -/
structure FetchLib where
  join : Url → String → Option Url
  showStatus : ℕ → String

/-- The calls that the fetch makes. -/
inductive NetOp
  | lookupHost (host : String) (port : UInt16)
  | parseProxy (proxyUrl : String)
  | buildClient (client : Client)
  | send (client : Client) (url : Url) (headers : List (String × String))

/-- The addresses of a host or a response, or the text of a transport error; the builders give
the text of their error if there was one. -/
abbrev NetOp.Ans : NetOp → Type
  | lookupHost _ _ => Except String (List SocketAddr)
  | parseProxy _ => Option String
  | buildClient _ => Option String
  | send _ _ _ => Except String Response

abbrev NetI : Interface := ⟨NetOp, NetOp.Ans⟩

def isSend : Event NetI → Bool
  | ⟨.send _ _ _, _⟩ => true
  | _ => false

/-- Fetching code that fails with an `AppError`. -/
abbrev Net (α : Type) : Type := Prog NetI (Except AppError α)

/-! ## The fetch -/

def extractUserAgent : String := "Mozilla/5.0 (compatible; Serica/0.2)"

/-- `EXTRACT_TIMEOUT`, in seconds. -/
def extractTimeout : ℕ := 15

def maxRedirectHops : ℕ := 5

/-- The loop over the candidates: the first address, unless one is forbidden. -/
def checkCandidates : Option SocketAddr → List SocketAddr → Except AppError SocketAddr
  | some addr, [] => .ok addr
  | none, [] => .error (.invalidQuery "Host could not be resolved")
  | resolved, addr :: candidates =>
      if isForbiddenTarget addr.ip then
        .error (.invalidQuery "URL resolves to a non-public address")
      else checkCandidates (some (resolved.getD addr)) candidates

def validateExtractTarget (url : Url) : Net SocketAddr :=
  if url.scheme ≠ "https" then
    .ret (.error (.invalidQuery "Only https:// URLs may be extracted"))
  else
    match url.hostStr with
    | none => .ret (.error (.invalidQuery "URL has no host"))
    | some host =>
        .call (I := NetI) (.lookupHost host (url.portOrKnownDefault.getD 443)) fun
          | .error _ => .ret (.error (.invalidQuery "Host could not be resolved"))
          | .ok candidates => .ret (checkCandidates none candidates)

def trackingQueryParams : List String :=
  ["utm_source", "utm_medium", "utm_campaign", "utm_term", "utm_content", "fbclid", "gclid",
    "msclkid", "mc_cid", "mc_eid", "igshid", "ref", "ref_src", "_ga", "yclid"]

/-- Drops the fragment and the tracking parameters.  A query without tracking
parameters is left as it is written. -/
def normalizeExtractUrl (url : Url) : Url :=
  let normalized := url.clearFragment
  if !normalized.queryPairs.any fun p => p.1 ∈ trackingQueryParams then normalized
  else
    let retained := normalized.queryPairs.filter fun p => p.1 ∉ trackingQueryParams
    if retained.isEmpty then normalized.clearQuery else normalized.setQueryPairs retained

/-- What the builder of the client for one hop is set to. -/
def pinnedClient (host : String) (addr : SocketAddr) (proxyUrl : Option String) : Client :=
  { httpsOnly := true
    followsRedirects := false
    pinned := (host, addr)
    userAgent := extractUserAgent
    timeoutSecs := extractTimeout
    noProxy := true
    proxy := proxyUrl }

/-- `builder.build()`. -/
def buildClient (client : Client) : Net Client :=
  .call (I := NetI) (.buildClient client) fun
    | some e => .ret (.error (.internal ("Failed to build extract client: " ++ e)))
    | none => .ret (.ok client)

/-- The client for one hop.  Errors of the library are wrapped with their text. -/
def buildPinnedExtractClient (host : String) (addr : SocketAddr) (proxyUrl : Option String) :
    Net Client :=
  match proxyUrl with
  | none => buildClient (pinnedClient host addr proxyUrl)
  | some url =>
      .call (I := NetI) (.parseProxy url) fun
        | some e => .ret (.error (.internal ("Failed to build extract proxy: " ++ e)))
        | none => buildClient (pinnedClient host addr proxyUrl)

def resolveRedirectTarget (join : Url → String → Option Url) (current : Url)
    (location : String) : Except AppError Url :=
  match join current location with
  | none => .error (.invalidQuery "Redirect target could not be parsed as a URL")
  | some next => .ok (normalizeExtractUrl next)

def requestHeaders : List (String × String) :=
  [("Accept", "text/html,application/xhtml+xml;q=0.9"), ("Accept-Language", "en-US,en;q=0.9"),
    ("DNT", "1")]

/-- The loop of `fetchExtractTarget`, from the hop that requests `current`. -/
def fetchLoop (lib : FetchLib) (proxyUrl : Option String) (current : Url)
    (redirectsFollowed : ℕ) : Net (Response × Url) :=
  (validateExtractTarget current).andThen fun validatedAddr =>
    match current.hostStr with
    | none => .ret (.error (.invalidQuery "URL has no host"))
    | some host =>
        (buildPinnedExtractClient host validatedAddr proxyUrl).andThen fun client =>
          .call (I := NetI) (.send client current requestHeaders) fun
            | .error _ => .ret (.error (.serviceUnavailable "Failed to fetch URL"))
            | .ok response =>
                if !response.isRedirection then .ret (.ok (response, current))
                else if redirectsFollowed ≥ maxRedirectHops then
                  .ret (.error (.invalidQuery
                    ("Too many redirects (exceeded " ++ toString maxRedirectHops ++ ")")))
                else
                  match response.location.bind headerToStr with
                  | none =>
                      .ret (.error (.invalidQuery ("Redirect response ("
                        ++ lib.showStatus response.status ++ ") had no usable Location header")))
                  | some location =>
                      match resolveRedirectTarget lib.join current location with
                      | .error e => .ret (.error e)
                      | .ok next => fetchLoop lib proxyUrl next (redirectsFollowed + 1)
  termination_by maxRedirectHops - redirectsFollowed

def fetchExtractTarget (lib : FetchLib) (url : Url)
    (proxyUrl : Option String) : Net (Response × Url) :=
  fetchLoop lib proxyUrl (normalizeExtractUrl url) 0

/-! ## Accepted addresses -/

/-- The loop over the candidates accepts the first address when none is forbidden,
and nothing else. -/
theorem checkCandidates_eq_ok {resolved : Option SocketAddr} {candidates : List SocketAddr}
    {addr : SocketAddr} (h : checkCandidates resolved candidates = .ok addr) :
    (resolved.or candidates.head? = some addr)
      ∧ ∀ other ∈ candidates, isForbiddenTarget other.ip = false := by
  induction candidates generalizing resolved with
  | nil =>
      cases resolved with
      | none => simp [checkCandidates] at h
      | some first =>
          rw [checkCandidates, Except.ok.injEq] at h
          exact ⟨by simp [h], by simp⟩
  | cons first rest ih =>
      rw [checkCandidates] at h
      split_ifs at h with hfirst
      obtain ⟨haddr, hrest⟩ := ih h
      refine ⟨?_, ?_⟩
      · cases resolved <;> simpa using haddr
      · intro other hother
        rcases List.mem_cons.mp hother with rfl | hmem
        · exact Bool.eq_false_iff.mpr hfirst
        · exact hrest other hmem

/-- Everything that `validateExtractTarget` can do: it fails without a request, or it
makes one lookup and accepts one of its addresses. -/
theorem validateExtractTarget_cases (env : Env NetI) (k : ℕ) (url : Url) :
    (∃ e, (validateExtractTarget url).result env k = .error e
      ∧ ∀ ev ∈ (validateExtractTarget url).trace env k, isSend ev = false)
    ∨ ∃ host port addrs addr,
        (validateExtractTarget url).result env k = .ok addr
        ∧ (validateExtractTarget url).trace env k = [⟨.lookupHost host port, .ok addrs⟩]
        ∧ url.scheme = "https" ∧ url.hostStr = some host ∧ addr ∈ addrs
        ∧ ∀ other ∈ addrs, isForbiddenTarget other.ip = false := by
  rw [validateExtractTarget]
  by_cases hscheme : url.scheme = "https"
  · rw [if_neg (not_not.mpr hscheme)]
    cases hhost : url.hostStr with
    | none => exact Or.inl ⟨_, rfl, by simp⟩
    | some host =>
        simp only [Prog.result_call, Prog.trace_call]
        generalize hfound : env k (.lookupHost host (url.portOrKnownDefault.getD 443)) = found
        cases found with
        | error _ => exact Or.inl ⟨_, rfl, by simp [isSend]⟩
        | ok addrs =>
            cases hcheck : checkCandidates none addrs with
            | error e => exact Or.inl ⟨e, hcheck, by simp [isSend]⟩
            | ok addr =>
                obtain ⟨hhead, hall⟩ := checkCandidates_eq_ok hcheck
                rw [Option.none_or] at hhead
                exact Or.inr ⟨host, _, addrs, addr, hcheck, rfl, hscheme, rfl,
                  List.mem_of_head? hhead, hall⟩
  · rw [if_pos hscheme]
    exact Or.inl ⟨_, rfl, by simp⟩

/-- **Exactly the documented addresses are refused.**  An address is forbidden when it
lies in one of the listed blocks, or carries such an IPv4 address in the IPv4-mapped
form; and whatever the resolver answers, no such address is accepted. -/
theorem validateExtractTarget_public :
    (∀ ip : IpAddr, isForbiddenTarget ip = true ↔ NonPublic ip)
    ∧ ∀ (env : Env NetI) (k : ℕ) (url : Url) (addr : SocketAddr),
        (validateExtractTarget url).result env k = .ok addr → ¬ NonPublic addr.ip := by
  refine ⟨isForbiddenTarget_iff, ?_⟩
  intro env k url addr hok hnon
  rcases validateExtractTarget_cases env k url with
    ⟨e, herr, -⟩ | ⟨_, _, _, a, ha, -, -, -, hmem, hall⟩
  · rw [herr] at hok
    simp at hok
  · rw [ha, Except.ok.injEq] at hok
    subst hok
    rw [← isForbiddenTarget_iff, hall a hmem] at hnon
    simp at hnon

/-- The check lets pass: addresses of `0.0.0.0/8`, `192.0.0.0/24`, `198.18.0.0/15`,
`224.0.0.0/4` and `240.0.0.0/4`, an address of `ff00::/8`, and `10.0.0.1` in its
IPv4-compatible (`::/96`), NAT64 (`64:ff9b::/96`) and 6to4 (`2002::/16`) forms. -/
theorem isForbiddenTarget_gaps :
    (∀ p ∈ [(Ipv4Addr.mk 0 0 0 1, Ipv4Block.mk ⟨0, 0, 0, 0⟩ 8),
        (⟨192, 0, 0, 1⟩, ⟨⟨192, 0, 0, 0⟩, 24⟩), (⟨198, 18, 0, 1⟩, ⟨⟨198, 18, 0, 0⟩, 15⟩),
        (⟨224, 0, 0, 1⟩, ⟨⟨224, 0, 0, 0⟩, 4⟩), (⟨240, 0, 0, 1⟩, ⟨⟨240, 0, 0, 0⟩, 4⟩)],
      p.1 ∈ p.2 ∧ isForbiddenTarget (.v4 p.1) = false)
    ∧ ∀ p ∈ [(Ipv6Addr.mk 0xff02 0 0 0 0 0 0 1, Ipv6Block.mk ⟨0xff00, 0, 0, 0, 0, 0, 0, 0⟩ 8),
        (⟨0, 0, 0, 0, 0, 0, 0x0a00, 0x0001⟩, ⟨⟨0, 0, 0, 0, 0, 0, 0, 0⟩, 96⟩),
        (⟨0x0064, 0xff9b, 0, 0, 0, 0, 0x0a00, 0x0001⟩, ⟨⟨0x0064, 0xff9b, 0, 0, 0, 0, 0, 0⟩, 96⟩),
        (⟨0x2002, 0x0a00, 0x0001, 0, 0, 0, 0, 1⟩, ⟨⟨0x2002, 0, 0, 0, 0, 0, 0, 0⟩, 16⟩)],
      p.1 ∈ p.2 ∧ isForbiddenTarget (.v6 p.1) = false := by
  decide

/-! ## Safety of the redirect loop -/

/-- A monitor of the calls of a fetch.  It remembers the last lookup that no request
has used, and demands of every request that it uses up such a lookup: for the host
of its `https` URL, without a forbidden address in the answer, and dialling one of
these addresses. -/
def Guarded : Option (String × List SocketAddr) → List (Event NetI) → Prop
  | _, [] => True
  | _, ⟨.lookupHost host _, found⟩ :: events =>
      Guarded ((Except.toOption found).map fun addrs => (host, addrs)) events
  | last, ⟨.parseProxy _, _⟩ :: events => Guarded last events
  | last, ⟨.buildClient _, _⟩ :: events => Guarded last events
  | last, ⟨.send client url _, _⟩ :: events =>
      (∃ host addrs addr, last = some (host, addrs) ∧ url.scheme = "https"
        ∧ url.hostStr = some host ∧ client.followsRedirects = false
        ∧ client.dial url = .address addr ∧ addr ∈ addrs
        ∧ ∀ other ∈ addrs, isForbiddenTarget other.ip = false)
      ∧ Guarded none events

/-- What one hop asks for before its request, and the request. -/
def hopEvents (host : String) (port : UInt16) (addrs : List SocketAddr) (client : Client)
    (url : Url) (reply : Except String Response) : List (Event NetI) :=
  [⟨.lookupHost host port, .ok addrs⟩, ⟨.buildClient client, none⟩,
    ⟨.send client url requestHeaders, reply⟩]

/-- A hop whose addresses were checked and whose client is pinned to one of them. -/
def CheckedHop (url : Url) (reply : Except String Response) (events : List (Event NetI)) :
    Prop :=
  ∃ host port addrs addr, url.scheme = "https" ∧ url.hostStr = some host
    ∧ addr ∈ addrs ∧ (∀ other ∈ addrs, isForbiddenTarget other.ip = false)
    ∧ events = hopEvents host port addrs (pinnedClient host addr none) url reply

/-- The runs of the redirect loop, hop by hop: `Hops url n events result` is a run from
the hop that requests `url` after `n` redirects. -/
inductive Hops : Url → ℕ → List (Event NetI) → Except AppError (Response × Url) → Prop
  /-- The hop fails before its request. -/
  | refused {url : Url} {n : ℕ} {events : List (Event NetI)} {e : AppError} :
      (∀ ev ∈ events, isSend ev = false) → Hops url n events (.error e)
  /-- The hop sends its request, and the fetch fails. -/
  | failed {url : Url} {n : ℕ} {reply : Except String Response} {events : List (Event NetI)}
      {e : AppError} : CheckedHop url reply events → Hops url n events (.error e)
  /-- The reply is no redirect. -/
  | fetched {url : Url} {n : ℕ} {response : Response} {events : List (Event NetI)} :
      CheckedHop url (.ok response) events → response.isRedirection = false →
      Hops url n events (.ok (response, url))
  /-- The reply is a redirect that is followed. -/
  | followed {url next : Url} {n : ℕ} {reply : Except String Response}
      {events events' : List (Event NetI)} {result : Except AppError (Response × Url)} :
      n < maxRedirectHops → CheckedHop url reply events → Hops next (n + 1) events' result →
      Hops url n (events ++ events') result

/-- A client that is built, and what is done with it. -/
theorem buildClient_andThen {α : Type} (client : Client) (f : Client → Net α) :
    (buildClient client).andThen f
      = .call (I := NetI) (.buildClient client) fun
          | some e => .ret (.error (.internal ("Failed to build extract client: " ++ e)))
          | none => f client := by
  rw [buildClient, Prog.andThen, Prog.bind]
  congr 1
  funext failure
  cases failure <;> rfl

/-- **The loop is a sequence of hops**, for every environment. -/
theorem fetchLoop_hops (lib : FetchLib) (env : Env NetI) (k n : ℕ)
    (current : Url) :
    Hops current n ((fetchLoop lib none current n).trace env k)
      ((fetchLoop lib none current n).result env k) := by
  -- The induction is on the redirects that are left; it cuts one hop off the front of the run.
  induction hm : maxRedirectHops - n using Nat.strong_induction_on generalizing n k current with
  | _ m ih =>
    rw [fetchLoop]
    rcases validateExtractTarget_cases env k current with
      ⟨e, herr, hquiet⟩ | ⟨host, port, addrs, addr, hok, htrace, hscheme, hhost, hmem, hall⟩
    · rw [Prog.trace_andThen_error _ herr, Prog.result_andThen_error _ herr]
      exact Hops.refused hquiet
    · rw [Prog.trace_andThen_ok _ hok, Prog.result_andThen_ok _ hok, htrace, hhost]
      simp only [buildPinnedExtractClient, buildClient_andThen, Prog.result_call, Prog.trace_call]
      -- Without a proxy the builder is the only step between the lookup and the request.
      generalize hbuilt : env _ (NetOp.buildClient _) = built
      cases built with
      | some e =>
          refine Hops.refused ?_
          simp [isSend]
      | none =>
          simp only [Prog.result_call, Prog.trace_call]
          generalize hreply : env _ (NetOp.send _ _ _) = reply
          have hhop : CheckedHop current reply
              (hopEvents host port addrs (pinnedClient host addr none) current reply) :=
            ⟨host, port, addrs, addr, hscheme, hhost, hmem, hall, rfl⟩
          cases reply with
          | error e => exact Hops.failed hhop
          | ok response =>
              cases hredirect : response.isRedirection with
              | false =>
                  simp only [hredirect, Bool.not_false, if_true]
                  exact Hops.fetched hhop hredirect
              | true =>
                  simp only [hredirect, Bool.not_true, Bool.false_eq_true, if_false]
                  by_cases hn : n ≥ maxRedirectHops
                  · simp only [if_pos hn]
                    exact Hops.failed hhop
                  · simp only [if_neg hn]
                    cases response.location.bind headerToStr with
                    | none => exact Hops.failed hhop
                    | some location =>
                        cases hnext : resolveRedirectTarget lib.join current location with
                        | error e =>
                            simp only [hnext]
                            exact Hops.failed hhop
                        | ok next =>
                            simp only [hnext]
                            have hrest := ih _ (by omega) (k + 1 + 1 + 1) (n + 1) next rfl
                            have hrun := Hops.followed (not_le.mp hn) hhop hrest
                            exact hrun

theorem guarded_of_quiet {last : Option (String × List SocketAddr)}
    {events : List (Event NetI)} (h : ∀ ev ∈ events, isSend ev = false) :
    Guarded last events := by
  induction events generalizing last with
  | nil => exact trivial
  | cons ev events ih =>
      have hrest : ∀ ev ∈ events, isSend ev = false := fun e he => h e (List.mem_cons_of_mem _ he)
      obtain ⟨op, ans⟩ := ev
      cases op with
      | lookupHost host port => exact ih hrest
      | parseProxy proxyUrl => exact ih hrest
      | buildClient client => exact ih hrest
      | send client url headers => exact absurd (h _ List.mem_cons_self) (by simp [isSend])

/-- The request of a checked hop is guarded by the hop's own lookup. -/
theorem CheckedHop.guarded {url : Url} {reply : Except String Response}
    {events rest : List (Event NetI)} (h : CheckedHop url reply events)
    (hrest : Guarded none rest) :
    Guarded none (events ++ rest) := by
  obtain ⟨host, port, addrs, addr, hscheme, hhost, hmem, hall, rfl⟩ := h
  -- The client is pinned to the host of the URL, so the request dials the checked address.
  refine ⟨⟨host, addrs, addr, rfl, hscheme, hhost, rfl, ?_, hmem, hall⟩, hrest⟩
  simp [Client.dial, pinnedClient, hscheme, hhost]

theorem Hops.guarded {url : Url} {n : ℕ} {events : List (Event NetI)}
    {result : Except AppError (Response × Url)} (h : Hops url n events result) :
    Guarded none events := by
  induction h with
  | refused hquiet => exact guarded_of_quiet hquiet
  | failed hhop => simpa using hhop.guarded (show Guarded none [] from trivial)
  | fetched hhop _ => simpa using hhop.guarded (show Guarded none [] from trivial)
  | followed _ hhop _ ih => exact hhop.guarded ih

theorem CheckedHop.countP_isSend {url : Url} {reply : Except String Response}
    {events : List (Event NetI)} (h : CheckedHop url reply events) :
    events.countP isSend = 1 := by
  obtain ⟨host, port, addrs, addr, -, -, -, -, rfl⟩ := h
  rfl

theorem Hops.countP_isSend {url : Url} {n : ℕ} {events : List (Event NetI)}
    {result : Except AppError (Response × Url)} (h : Hops url n events result)
    (hn : n ≤ maxRedirectHops) : events.countP isSend ≤ 1 + maxRedirectHops - n := by
  induction h with
  | refused hquiet =>
      rw [List.countP_eq_zero.mpr (by simpa using hquiet)]
      exact Nat.zero_le _
  | failed hhop =>
      rw [hhop.countP_isSend]
      omega
  | fetched hhop _ =>
      rw [hhop.countP_isSend]
      omega
  | followed hlt hhop _ ih =>
      rw [List.countP_append, hhop.countP_isSend]
      have := ih hlt
      omega

theorem Hops.last {url u : Url} {n : ℕ} {events : List (Event NetI)} {response : Response}
    {result : Except AppError (Response × Url)} (h : Hops url n events result)
    (hok : result = .ok (response, u)) :
    response.isRedirection = false
      ∧ ∃ client, events.getLast? = some ⟨.send client u requestHeaders, .ok response⟩ := by
  induction h with
  | refused _ => simp at hok
  | failed _ => simp at hok
  | fetched hhop hstatus =>
      rw [Except.ok.injEq, Prod.mk.injEq] at hok
      obtain ⟨rfl, rfl⟩ := hok
      obtain ⟨host, port, addrs, addr, -, -, -, -, rfl⟩ := hhop
      exact ⟨hstatus, pinnedClient host addr none, rfl⟩
  | followed _ _ _ ih =>
      obtain ⟨hstatus, client, hlast⟩ := ih hok
      refine ⟨hstatus, client, ?_⟩
      rw [List.getLast?_append, hlast]
      rfl

/-- **SSRF safety of the redirect loop.**  Without a proxy, for every entry URL, every
`join`, and every sequence of answers of the resolver and of the upstream: every
request is guarded by a lookup of its own, at most `1 + maxRedirectHops` requests are
sent, and a response that is returned is no redirect and answers the last request,
which is for the URL returned with it. -/
theorem fetchExtractTarget_safe (lib : FetchLib) (env : Env NetI) (url : Url) :
    Guarded none ((fetchExtractTarget lib url none).trace env 0)
    ∧ ((fetchExtractTarget lib url none).trace env 0).countP isSend ≤ 1 + maxRedirectHops
    ∧ ∀ response u, (fetchExtractTarget lib url none).result env 0 = .ok (response, u) →
        response.isRedirection = false
        ∧ ∃ client, ((fetchExtractTarget lib url none).trace env 0).getLast?
            = some ⟨.send client u requestHeaders, .ok response⟩ := by
  have hhops := fetchLoop_hops lib env 0 0 (normalizeExtractUrl url)
  exact ⟨hhops.guarded, hhops.countP_isSend (Nat.zero_le _), fun _ _ hok => hhops.last hok⟩

end Ssrf
