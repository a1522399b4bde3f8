/-
# The span under the timeout

What `run_extract` does between its cache look-up and its cache write: it fetches the
URL, checks the status and the type of the reply, reads the body up to a limit, and
extracts.

`extractSpan_ok` and `extractSpan_error` are all that the rest of the development
needs to know of it: where a successful outcome comes from, and which errors there are.
-/
import Serica.Extract
import Serica.Ssrf

namespace Fetch

/-! ## Reading a reply -/

def isExtractableContentType (platform : Platform) (contentType : String) : Bool :=
  let ctLower := RustStr.toLowercase platform.lowercaseTable contentType
  RustStr.contains ctLower "text/html" || RustStr.contains ctLower "application/xhtml"

/-- A missing header, or one that is no text, is refused. -/
def isExtractableContentTypeHeader (platform : Platform) (contentType : Option (List UInt8)) :
    Bool :=
  ((contentType.bind Ssrf.headerToStr).map (isExtractableContentType platform)).getD false

def tooLarge (maxBytes : ℕ) : AppError :=
  .contentTooLarge ("Response exceeds maximum size of " ++ toString maxBytes ++ " bytes")

/-- The loop of `readCappedBody`: the total is checked after every chunk.  `display` is how the
client shows an error of a body. -/
def readChunks (display : String → String) (maxBytes : ℕ) :
    List UInt8 → List (Except String (List UInt8)) → Except AppError (List UInt8)
  | buf, [] => .ok buf
  | _, .error e :: _ => .error (.internal ("Failed to read response body: " ++ display e))
  | buf, .ok chunk :: rest =>
      if (buf ++ chunk).length > maxBytes then .error (tooLarge maxBytes)
      else readChunks display maxBytes (buf ++ chunk) rest

def readCappedBody (display : String → String) (response : Ssrf.Response) (maxBytes : ℕ) :
    Except AppError String :=
  if response.contentLength.any fun len => decide (len.toNat > maxBytes) then
    .error (tooLarge maxBytes)
  else
    match readChunks display maxBytes [] response.chunks with
    | .error e => .error e
    | .ok buf => .ok (String.ofList (Utf8.decodeLossy buf))

end Fetch

namespace Extract

/-- What the span calls: the libraries of the fetch, those on HTML, and those on text; and how the
HTTP client shows an error of a body, given its cause. -/
structure SpanLib extends Ssrf.FetchLib where
  displayBodyError : String → String
  html : HtmlLib
  extractor : Extractor
  platform : Platform

/-- `reqwest` shows every error of a body alike. -/
def decodingError (_cause : String) : String := "error decoding response body"

section Source

variable (lib : SpanLib) (config : Config)

/-- The part of the span after the reply. -/
def extractReply (response : Ssrf.Response) (finalUrl : Url) :
    Except AppError (String × ExtractOutcome) :=
  if !(200 ≤ response.status && response.status < 300) then
    .error (.serviceUnavailable ("URL returned HTTP " ++ lib.showStatus response.status))
  else if !Fetch.isExtractableContentTypeHeader lib.platform response.contentType then
    .error (.invalidQuery ("URL returned Content-Type '"
      ++ (response.contentType.bind Ssrf.headerToStr).getD "<missing or unparseable>"
      ++ "', expected text/html"))
  else
    match Fetch.readCappedBody lib.displayBodyError response config.extract.maxRawBytes with
    | .error e => .error e
    | .ok body =>
        match extractFromHtml lib.html lib.extractor body (extractOptionsFromConfig config)
            config.extract with
        | none => .error (.internal "Extraction task panicked")
        | some outcome => .ok (finalUrl.asStr, outcome)

/-- The span under the timeout. -/
def extractSpan (url : Url) : Ssrf.Net (String × ExtractOutcome) :=
  (Ssrf.fetchExtractTarget lib.toFetchLib url config.proxy.extractUrl).andThen
    fun (response, finalUrl) => .ret (extractReply lib config response finalUrl)

end Source

/-! ## The errors of the span -/

/-- The errors of the span: none of them is the timeout. -/
def SpanError : AppError → Prop
  | .invalidQuery _ | .contentTooLarge _ | .internal _ | .serviceUnavailable _ => True
  | _ => False

/-- However the network answers, the program fails only with errors of the span. -/
def Fails {α : Type} (p : Ssrf.Net α) : Prop :=
  ∀ env n e, p.result env n = .error e → SpanError e

theorem Fails.ret_ok {α : Type} (a : α) : Fails (.ret (.ok a)) :=
  fun _ _ _ h => absurd h (by simp [Prog.result])

/-- A program that ends with an error of the span fails so. -/
theorem Fails.ret_error {α : Type} {e : AppError} (h : SpanError e) :
    Fails (.ret (.error e) : Ssrf.Net α) := by
  intro env n e' he
  rw [Prog.result, Except.error.injEq] at he
  rwa [← he]

/-- A call fails as what follows it does. -/
theorem Fails.call {α : Type} {o : Ssrf.NetOp} {k : Ssrf.NetOp.Ans o → Ssrf.Net α}
    (h : ∀ r, Fails (k r)) : Fails (.call (I := Ssrf.NetI) o k) :=
  fun env n e he => h _ env (n + 1) e he

/-- Programs in sequence fail as each of them does. -/
theorem Fails.andThen {α β : Type} {p : Ssrf.Net α} {f : α → Ssrf.Net β} (hp : Fails p)
    (hf : ∀ a, Fails (f a)) : Fails (p.andThen f) := by
  intro env n e he
  cases hres : p.result env n with
  | error e' =>
      rw [Prog.result_andThen_error f hres] at he
      rw [← Except.error.inj he]
      exact hp env n e' hres
  | ok a =>
      rw [Prog.result_andThen_ok f hres] at he
      exact hf a env _ e he

/-- A refused address is an error of the span. -/
theorem checkCandidates_fails (candidates : List SocketAddr) {resolved : Option SocketAddr}
    {e : AppError} (h : Ssrf.checkCandidates resolved candidates = .error e) : SpanError e := by
  induction candidates generalizing resolved with
  | nil =>
      cases resolved with
      | none =>
          rw [Ssrf.checkCandidates, Except.error.injEq] at h
          rw [← h]
          trivial
      | some addr => exact absurd h (by simp [Ssrf.checkCandidates])
  | cons addr candidates ih =>
      rw [Ssrf.checkCandidates] at h
      split_ifs at h with hforbidden
      · rw [Except.error.injEq] at h
        rw [← h]
        trivial
      · exact ih h

/-- The checks of a target fail with errors of the span. -/
theorem validateExtractTarget_fails (url : Url) : Fails (Ssrf.validateExtractTarget url) := by
  unfold Ssrf.validateExtractTarget
  split_ifs
  · exact .ret_error trivial
  · cases url.hostStr with
    | none => exact .ret_error trivial
    | some host =>
        apply Fails.call
        intro r
        cases r with
        | error _ => exact .ret_error trivial
        | ok candidates => exact fun _ _ _ he => checkCandidates_fails candidates he

/-- So does a client that cannot be built. -/
theorem buildClient_fails (client : Ssrf.Client) : Fails (Ssrf.buildClient client) := by
  apply Fails.call
  intro r
  cases r with
  | none => exact .ret_ok client
  | some e => exact .ret_error trivial

/-- So does one for a pinned address. -/
theorem buildPinnedExtractClient_fails (host : String) (addr : SocketAddr)
    (proxyUrl : Option String) : Fails (Ssrf.buildPinnedExtractClient host addr proxyUrl) := by
  cases proxyUrl with
  | none => exact buildClient_fails _
  | some url =>
      apply Fails.call
      intro r
      cases r with
      | none => exact buildClient_fails _
      | some e => exact .ret_error trivial

/-- A redirect that leads nowhere is an error of the span. -/
theorem resolveRedirectTarget_fails {join : Url → String → Option Url} {current : Url}
    {location : String} {e : AppError}
    (h : Ssrf.resolveRedirectTarget join current location = .error e) : SpanError e := by
  rw [Ssrf.resolveRedirectTarget] at h
  split at h
  · rw [← Except.error.inj h]
    trivial
  · exact absurd h (by simp)

/-- Induction on the hops that are left. -/
theorem fetchLoop_fails (lib : Ssrf.FetchLib) (proxyUrl : Option String) (url : Url)
    (n : ℕ) : Fails (Ssrf.fetchLoop lib proxyUrl url n) := by
  induction hleft : Ssrf.maxRedirectHops - n using Nat.strong_induction_on generalizing url n with
  | _ left ih =>
      rw [Ssrf.fetchLoop]
      apply (validateExtractTarget_fails url).andThen
      intro addr
      cases url.hostStr with
      | none => exact .ret_error trivial
      | some host =>
          apply (buildPinnedExtractClient_fails host addr proxyUrl).andThen
          intro client
          apply Fails.call
          intro r
          cases r with
          | error e => exact .ret_error trivial
          | ok response =>
              dsimp only
              split_ifs with hredirect hhops
              · exact .ret_ok _
              · exact .ret_error trivial
              · cases response.location.bind Ssrf.headerToStr with
                | none => exact .ret_error trivial
                | some location =>
                    dsimp only
                    cases hnext : Ssrf.resolveRedirectTarget lib.join url location with
                    | error e => exact .ret_error (resolveRedirectTarget_fails hnext)
                    | ok next => exact ih _ (by omega) next (n + 1) rfl

/-- A body that cannot be read is an error of the span. -/
theorem readChunks_fails {display : String → String} {maxBytes : ℕ}
    {chunks : List (Except String (List UInt8))} {buf : List UInt8} {e : AppError}
    (h : Fetch.readChunks display maxBytes buf chunks = .error e) : SpanError e := by
  induction chunks generalizing buf with
  | nil => exact absurd h (by simp [Fetch.readChunks])
  | cons chunk chunks ih =>
      cases chunk with
      | error msg =>
          rw [← Except.error.inj h]
          trivial
      | ok chunk =>
          rw [Fetch.readChunks] at h
          split_ifs at h with hlarge
          · rw [← Except.error.inj h]
            trivial
          · exact ih h

section Outcomes

variable (lib : SpanLib) (config : Config)

/-- A reply is refused with an error of the span, or its body has been extracted. -/
theorem extractReply_cases (response : Ssrf.Response) (finalUrl : Url) :
    (∃ e, extractReply lib config response finalUrl = .error e ∧ SpanError e)
    ∨ ∃ body outcome, extractReply lib config response finalUrl = .ok (finalUrl.asStr, outcome)
      ∧ extractFromHtml lib.html lib.extractor body (extractOptionsFromConfig config)
          config.extract = some outcome := by
  unfold extractReply
  split_ifs
  · exact Or.inl ⟨_, rfl, trivial⟩
  · exact Or.inl ⟨_, rfl, trivial⟩
  · cases hbody : Fetch.readCappedBody lib.displayBodyError response
      config.extract.maxRawBytes with
    | error e =>
        refine Or.inl ⟨e, rfl, ?_⟩
        rw [Fetch.readCappedBody] at hbody
        split_ifs at hbody
        · rw [← Except.error.inj hbody]
          trivial
        · cases hchunks : Fetch.readChunks lib.displayBodyError config.extract.maxRawBytes []
            response.chunks with
          | error e' =>
              rw [hchunks, Except.error.injEq] at hbody
              rw [← hbody]
              exact readChunks_fails hchunks
          | ok buf =>
              rw [hchunks] at hbody
              exact absurd hbody (by simp)
    | ok body =>
        dsimp only
        cases hout : extractFromHtml lib.html lib.extractor body
            (extractOptionsFromConfig config) config.extract with
        | none => exact Or.inl ⟨_, rfl, trivial⟩
        | some outcome => exact Or.inr ⟨body, outcome, rfl, hout⟩

/-- **The errors of the span**, for every behaviour of the network. -/
theorem extractSpan_error (url : Url) : Fails (extractSpan lib config url) := by
  apply (fetchLoop_fails lib.toFetchLib config.proxy.extractUrl _ 0).andThen
  rintro ⟨response, finalUrl⟩
  intro env n e he
  rcases extractReply_cases lib config response finalUrl with ⟨e', heq, hspan⟩ | ⟨_, _, heq, _⟩
  · rw [Prog.result, heq, Except.error.injEq] at he
    rwa [← he]
  · rw [Prog.result, heq] at he
    exact absurd he (by simp)

/-- **A successful span** ends with the outcome of an extraction under the limits of its
configuration. -/
theorem extractSpan_ok {url : Url} {env : Env Ssrf.NetI} {n : ℕ} {final : String}
    {outcome : ExtractOutcome}
    (h : (extractSpan lib config url).result env n = .ok (final, outcome)) :
    ∃ body, extractFromHtml lib.html lib.extractor body (extractOptionsFromConfig config)
      config.extract = some outcome := by
  unfold extractSpan at h
  cases hfetch : (Ssrf.fetchExtractTarget lib.toFetchLib url config.proxy.extractUrl).result env n
    with
  | error e =>
      rw [Prog.result_andThen_error _ hfetch] at h
      exact absurd h (by simp)
  | ok p =>
      rw [Prog.result_andThen_ok _ hfetch, Prog.result] at h
      rcases extractReply_cases lib config p.1 p.2 with ⟨e, heq, _⟩ | ⟨body, out, heq, hout⟩
      · rw [heq] at h
        exact absurd h (by simp)
      · rw [heq, Except.ok.injEq, Prod.mk.injEq] at h
        exact ⟨body, by rw [hout, h.2]⟩

end Outcomes

end Extract
