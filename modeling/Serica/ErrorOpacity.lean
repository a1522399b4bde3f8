/-
# Opaque transport errors

Two extracts over networks that differ in nothing but the texts of transport errors, and what
their clients see of the difference.

* `fetchLoop_rel`: the redirect loop makes the same requests over both networks, and keeps
  every text to itself.
* `extractReply_of_rel`: so does the rest of the span, unless the body breaks off and the HTTP
  client shows why.
* `errors_opaque`: the clients see no difference, given that the HTTP client shows every error
  of a body alike; `errors_opaque_iff` says when they see none otherwise.
-/
import Serica.ExtractSpan
import Serica.HttpGateway
import Serica.McpGateway

namespace Opacity

open Ssrf

/-! ## Networks that differ in texts -/

/-- The same outcome up to the text of a transport error. -/
abbrev SameButError {α : Type} (Q : α → α → Prop) : Except String α → Except String α → Prop :=
  ExceptRel (fun _ _ => True) Q

/-- The same response up to the texts of transport errors. -/
structure SameResponse (response response' : Response) : Prop where
  status : response.status = response'.status
  location : response.location = response'.location
  contentType : response.contentType = response'.contentType
  contentLength : response.contentLength = response'.contentLength
  chunks : List.Forall₂ (SameButError Eq) response.chunks response'.chunks

/-- The same answer up to the texts of transport errors, where `S` relates the responses.  The
builders are no transport. -/
def SameAnswer (S : Response → Response → Prop) : (o : NetOp) → o.Ans → o.Ans → Prop
  | .lookupHost _ _, found, found' => SameButError Eq found found'
  | .parseProxy _, failure, failure' => failure = failure'
  | .buildClient _, failure, failure' => failure = failure'
  | .send _ _ _, reply, reply' => SameButError S reply reply'

/-- Two networks that see the same and fail at the same points. -/
def SameNet (net net' : Env NetI) : Prop :=
  ∀ n o, SameAnswer SameResponse o (net n o) (net' n o)

/-! ## The fetch -/

section Fetch

variable {S : Response → Response → Prop}

theorem validateExtractTarget_rel (S : Response → Response → Prop) (url : Url) :
    Prog.Rel (SameAnswer S) (ExceptRel Eq Eq) (validateExtractTarget url)
      (validateExtractTarget url) := by
  unfold validateExtractTarget
  split_ifs
  · exact .ret .rfl
  · cases url.hostStr with
    | none => exact .ret .rfl
    | some host =>
        apply Prog.Rel.call
        rintro found found' (rfl | _)
        · exact .ret .rfl
        · exact .ret .rfl

theorem buildClient_rel (S : Response → Response → Prop) (client : Client) :
    Prog.Rel (SameAnswer S) (ExceptRel Eq Eq) (buildClient client) (buildClient client) := by
  apply Prog.Rel.call
  rintro failure _ rfl
  cases failure <;> exact .ret .rfl

theorem buildPinnedExtractClient_rel (S : Response → Response → Prop) (host : String)
    (addr : SocketAddr) (proxyUrl : Option String) :
    Prog.Rel (SameAnswer S) (ExceptRel Eq Eq) (buildPinnedExtractClient host addr proxyUrl)
      (buildPinnedExtractClient host addr proxyUrl) := by
  cases proxyUrl with
  | none => exact buildClient_rel S _
  | some url =>
      apply Prog.Rel.call
      rintro failure _ rfl
      cases failure with
      | none => exact buildClient_rel S _
      | some e => exact .ret .rfl

/-- **The redirect loop keeps the texts to itself**: over networks that differ in them it
makes the same calls and ends with the same error, or with related responses for the same
URL.  Only the status and the location decide where it goes. -/
theorem fetchLoop_rel (hS : ∀ r r', S r r' → r.status = r'.status ∧ r.location = r'.location)
    (lib : FetchLib) (proxyUrl : Option String) (url : Url) (n : ℕ) :
    Prog.Rel (SameAnswer S) (ExceptRel Eq fun p p' => S p.1 p'.1 ∧ p.2 = p'.2)
      (fetchLoop lib proxyUrl url n) (fetchLoop lib proxyUrl url n) := by
  -- The induction is on the redirects that are left.
  induction hleft : maxRedirectHops - n using Nat.strong_induction_on generalizing url n with
  | _ left ih =>
      rw [fetchLoop]
      apply (validateExtractTarget_rel S url).andThen
      rintro addr _ rfl
      cases url.hostStr with
      | none => exact .ret (.error rfl)
      | some host =>
          apply (buildPinnedExtractClient_rel S host addr proxyUrl).andThen
          rintro client _ rfl
          apply Prog.Rel.call
          rintro reply reply' (hresponse | _)
          -- Responses: where the loop goes on, it does so over both networks.
          · rename_i response response'
            obtain ⟨hstatus, hlocation⟩ := hS _ _ hresponse
            have hredirect : response.isRedirection = response'.isRedirection := by
              rw [Response.isRedirection, hstatus, Response.isRedirection]
            dsimp only
            rw [hredirect, hstatus, hlocation]
            split_ifs with hfinal hhops
            · exact .ret (.ok ⟨hresponse, rfl⟩)
            · exact .ret (.error rfl)
            · cases response'.location.bind headerToStr with
              | none => exact .ret (.error rfl)
              | some location =>
                  dsimp only
                  cases hnext : resolveRedirectTarget lib.join url location with
                  | error e => exact .ret (.error rfl)
                  | ok next => exact ih _ (by omega) next (n + 1) rfl
          -- Errors: their texts go to the log.
          · exact .ret (.error rfl)

theorem fetchExtractTarget_rel
    (hS : ∀ r r', S r r' → r.status = r'.status ∧ r.location = r'.location)
    {net net' : Env NetI} (hnet : ∀ n o, SameAnswer S o (net n o) (net' n o))
    (lib : FetchLib) (url : Url) (proxyUrl : Option String) :
    ExceptRel Eq (fun p p' => S p.1 p'.1 ∧ p.2 = p'.2)
      ((fetchExtractTarget lib url proxyUrl).result net 0)
      ((fetchExtractTarget lib url proxyUrl).result net' 0) :=
  (fetchLoop_rel hS lib proxyUrl (normalizeExtractUrl url) 0).result hnet 0

end Fetch

/-! ## The body -/

/-- The body breaks off with a transport error, before it has more than `maxBytes` bytes. -/
def BreaksOff (maxBytes : ℕ) (chunks : List (Except String (List UInt8))) : Prop :=
  ∃ (whole : List (List UInt8)) (e : String) (rest : List (Except String (List UInt8))),
    chunks = whole.map .ok ++ .error e :: rest ∧ whole.flatten.length ≤ maxBytes

theorem readChunks_error {display : String → String} {maxBytes : ℕ} (whole : List (List UInt8))
    (e : String) (rest : List (Except String (List UInt8))) (buf : List UInt8)
    (hsmall : buf.length + whole.flatten.length ≤ maxBytes) :
    Fetch.readChunks display maxBytes buf (whole.map .ok ++ .error e :: rest)
      = .error (.internal ("Failed to read response body: " ++ display e)) := by
  induction whole generalizing buf with
  | nil => rfl
  | cons chunk whole ih =>
      rw [List.flatten_cons, List.length_append] at hsmall
      rw [List.map_cons, List.cons_append, Fetch.readChunks, if_neg, ih]
      · rw [List.length_append]
        omega
      · rw [List.length_append]
        omega

/-- Where all errors are shown alike, a body is read over both networks to the same end. -/
theorem readChunks_of_alike {display : String → String} {maxBytes : ℕ}
    (hdisplay : ∀ e e', display e = display e')
    {chunks chunks' : List (Except String (List UInt8))}
    (h : List.Forall₂ (SameButError Eq) chunks chunks') (buf : List UInt8) :
    Fetch.readChunks display maxBytes buf chunks
      = Fetch.readChunks display maxBytes buf chunks' := by
  induction h generalizing buf with
  | nil => rfl
  | cons hchunk _ ih =>
      cases hchunk with
      | ok hbytes =>
          rw [hbytes, Fetch.readChunks, Fetch.readChunks, ih]
      | @error e e' _ => rw [Fetch.readChunks, Fetch.readChunks, hdisplay e e']

/-- A body that is read over both networks either breaks off or is read to the same end. -/
theorem readChunks_of_rel {display : String → String} {maxBytes : ℕ}
    {chunks chunks' : List (Except String (List UInt8))}
    (h : List.Forall₂ (SameButError Eq) chunks chunks') (buf : List UInt8)
    (hbuf : buf.length ≤ maxBytes) :
    Fetch.readChunks display maxBytes buf chunks = Fetch.readChunks display maxBytes buf chunks'
      ∨ ∃ (whole : List (List UInt8)) (e : String) (rest : List (Except String (List UInt8))),
        chunks = whole.map .ok ++ .error e :: rest
          ∧ buf.length + whole.flatten.length ≤ maxBytes := by
  induction h generalizing buf with
  | nil => exact Or.inl rfl
  | @cons chunk chunk' chunks chunks' hchunk hrest ih =>
      cases hchunk with
      | @ok bytes _ hbytes =>
          subst hbytes
          rw [Fetch.readChunks, Fetch.readChunks]
          split_ifs with hlarge
          · exact Or.inl rfl
          · rcases ih (buf ++ bytes) (not_lt.mp hlarge) with hsame | ⟨whole, e, rest, rfl, hlen⟩
            · exact Or.inl hsame
            · refine Or.inr ⟨bytes :: whole, e, rest, rfl, ?_⟩
              rw [List.length_append] at hlen
              rw [List.flatten_cons, List.length_append]
              omega
      | @error e _ _ => exact Or.inr ⟨[], e, chunks, rfl, hbuf⟩

/-- A reply whose body the span reads. -/
structure Accepted (platform : Platform) (maxBytes : ℕ) (response : Response) : Prop where
  status : 200 ≤ response.status ∧ response.status < 300
  contentType : Fetch.isExtractableContentTypeHeader platform response.contentType = true
  contentLength : ∀ len ∈ response.contentLength, len.toNat ≤ maxBytes

section Span

variable (lib : Extract.SpanLib) (config : Config)

/-- The URL is answered, over this network, by a reply that is accepted and whose body breaks
off. -/
def BodyBreaksOff (net : Env NetI) (url : Url) : Prop :=
  ∃ response final,
    (fetchExtractTarget lib.toFetchLib url config.proxy.extractUrl).result net 0
        = .ok (response, final)
      ∧ Accepted lib.platform config.extract.maxRawBytes response
      ∧ BreaksOff config.extract.maxRawBytes response.chunks

/-- What the body of an accepted reply makes of the span. -/
theorem extractReply_of_accepted {response : Response}
    (h : Accepted lib.platform config.extract.maxRawBytes response) (final : Url) :
    Extract.extractReply lib config response final
      = match Fetch.readChunks lib.displayBodyError config.extract.maxRawBytes []
          response.chunks with
        | .error e => .error e
        | .ok buf =>
            match Extract.extractFromHtml lib.html lib.extractor
                (String.ofList (Utf8.decodeLossy buf)) (Extract.extractOptionsFromConfig config)
                config.extract with
            | none => .error (.internal "Extraction task panicked")
            | some outcome => .ok (final.asStr, outcome) := by
  have hlength : ¬ (response.contentLength.any fun len =>
      decide (len.toNat > config.extract.maxRawBytes)) = true := by
    rw [Option.any_eq_true]
    rintro ⟨len, hlen, hgt⟩
    exact absurd (of_decide_eq_true hgt) (not_lt.mpr (h.contentLength len hlen))
  rw [Extract.extractReply, if_neg (by simpa using h.status), if_neg (by simp [h.contentType]),
    Fetch.readCappedBody, if_neg hlength]
  cases Fetch.readChunks lib.displayBodyError config.extract.maxRawBytes [] response.chunks <;>
    rfl

/-- All errors of a body are shown alike. -/
def ShownAlike : Prop := ∀ e e', lib.displayBodyError e = lib.displayBodyError e'

/-- **The rest of the span keeps the texts to itself**, unless the body breaks off and the reason
is shown. -/
theorem extractReply_of_rel {response response' : Response}
    (h : SameResponse response response')
    (hwhole : Accepted lib.platform config.extract.maxRawBytes response →
      BreaksOff config.extract.maxRawBytes response.chunks → ShownAlike lib) (final : Url) :
    Extract.extractReply lib config response final
      = Extract.extractReply lib config response' final := by
  obtain ⟨status, location, contentType, contentLength, chunks⟩ := response
  obtain ⟨_, _, _, _, chunks'⟩ := response'
  obtain ⟨rfl, rfl, rfl, rfl, hchunks⟩ := h
  unfold Extract.extractReply
  split_ifs with hstatus htype
  · rfl
  · rfl
  · have hbody : Fetch.readCappedBody lib.displayBodyError
          ⟨status, location, contentType, contentLength, chunks⟩ config.extract.maxRawBytes
        = Fetch.readCappedBody lib.displayBodyError
          ⟨status, location, contentType, contentLength, chunks'⟩ config.extract.maxRawBytes := by
      unfold Fetch.readCappedBody
      split_ifs with hlength
      · rfl
      · rcases readChunks_of_rel hchunks [] (Nat.zero_le _) with
          hsame | ⟨whole, e, rest, hbreaks, hlen⟩
        · rw [hsame]
        · have hacc : Accepted lib.platform config.extract.maxRawBytes
              ⟨status, location, contentType, contentLength, chunks⟩ := by
            refine ⟨by simpa using hstatus, by simpa using htype, fun len hlen' => ?_⟩
            by_contra hgt
            apply hlength
            rw [Option.any_eq_true]
            exact ⟨len, hlen', decide_eq_true (not_le.mp hgt)⟩
          have halike := hwhole hacc ⟨whole, e, rest, hbreaks, by simpa using hlen⟩
          rw [readChunks_of_alike halike hchunks]
    rw [hbody]

/-! ## Other texts -/

def retext (f : String → String) (response : Response) : Response :=
  { response with chunks := response.chunks.map (Except.mapError f) }

/-- The network with other texts for its transport errors. -/
def retextNet (f : String → String) (net : Env NetI) : Env NetI
  | n, .lookupHost host port => (net n (.lookupHost host port)).mapError f
  | n, .parseProxy proxyUrl => net n (.parseProxy proxyUrl)
  | n, .buildClient client => net n (.buildClient client)
  | n, .send client url headers =>
      ((net n (.send client url headers)).map (retext f)).mapError f

theorem sameButError_mapError {α β : Type} (f : String → String) {Q : α → β → Prop}
    {x : Except String α} {y : Except String β} (h : ExceptRel (fun _ _ => True) Q x y) :
    ExceptRel (fun _ _ => True) Q x (y.mapError f) := by
  cases h with
  | ok hq => exact .ok hq
  | error he => exact .error trivial

theorem sameResponse_retext (f : String → String) (response : Response) :
    SameResponse response (retext f response) := by
  refine ⟨rfl, rfl, rfl, rfl, ?_⟩
  rw [retext, List.forall₂_map_right_iff, List.forall₂_same]
  intro chunk _
  apply sameButError_mapError
  cases chunk with
  | ok bytes => exact .ok rfl
  | error e => exact .error trivial

theorem sameAnswer_retextNet (f : String → String) (net : Env NetI) (n : ℕ) (o : NetOp) :
    SameAnswer (fun r r' => r' = retext f r) o (net n o) (retextNet f net n o) := by
  cases o with
  | lookupHost host port =>
      apply sameButError_mapError
      cases net n (.lookupHost host port) with
      | ok addrs => exact .ok rfl
      | error e => exact .error trivial
  | parseProxy proxyUrl => rfl
  | buildClient client => rfl
  | send client url headers =>
      apply sameButError_mapError
      cases net n (.send client url headers) with
      | ok response => exact .ok rfl
      | error e => exact .error trivial

theorem SameAnswer.mono {S S' : Response → Response → Prop} (hS : ∀ r r', S r r' → S' r r')
    {o : NetOp} {x y : o.Ans} (h : SameAnswer S o x y) : SameAnswer S' o x y := by
  cases o with
  | lookupHost host port => exact h
  | parseProxy proxyUrl => exact h
  | buildClient client => exact h
  | send client url headers =>
      cases h with
      | ok hs => exact .ok (hS _ _ hs)
      | error he => exact .error he

theorem sameNet_retextNet (f : String → String) (net : Env NetI) :
    SameNet net (retextNet f net) := by
  intro n o
  apply (sameAnswer_retextNet f net n o).mono
  rintro response _ rfl
  exact sameResponse_retext f response

/-! ## The span -/

variable {lib config} {net net' : Env NetI} {url : Url}

/-- **The span keeps the texts to itself**, unless the body breaks off and the reason is shown. -/
theorem extractSpan_of_same (hnet : SameNet net net')
    (hwhole : BodyBreaksOff lib config net url → ShownAlike lib) :
    (Extract.extractSpan lib config url).result net 0
      = (Extract.extractSpan lib config url).result net' 0 := by
  have hhead : ∀ r r', SameResponse r r' → r.status = r'.status ∧ r.location = r'.location :=
    fun r r' h => ⟨h.status, h.location⟩
  have hfetch := fetchExtractTarget_rel hhead hnet lib.toFetchLib url config.proxy.extractUrl
  unfold Extract.extractSpan
  generalize hrun : (fetchExtractTarget lib.toFetchLib url config.proxy.extractUrl).result net 0
    = fetched at hfetch
  generalize hrun' : (fetchExtractTarget lib.toFetchLib url config.proxy.extractUrl).result net' 0
    = fetched' at hfetch
  cases hfetch with
  | error he => rw [Prog.result_andThen_error _ hrun, Prog.result_andThen_error _ hrun', he]
  | @ok p p' hsame =>
      obtain ⟨hresponse, hfinal⟩ := hsame
      rw [Prog.result_andThen_ok _ hrun, Prog.result_andThen_ok _ hrun']
      show Extract.extractReply lib config p.1 p.2 = Extract.extractReply lib config p'.1 p'.2
      rw [← hfinal]
      apply extractReply_of_rel lib config hresponse
      exact fun hacc hbreaks => hwhole ⟨p.1, p.2, hrun, hacc, hbreaks⟩

/-- A body that breaks off puts what is shown of its error into that of the span. -/
theorem extractSpan_of_breaksOff (h : BodyBreaksOff lib config net url) (e' : String) :
    (Extract.extractSpan lib config url).result (retextNet (fun _ => e') net) 0
      = .error (.internal ("Failed to read response body: " ++ lib.displayBodyError e')) := by
  obtain ⟨response, final, hrun, hacc, whole, e, rest, hchunks, hlen⟩ := h
  have hzero : ([] : List UInt8).length + whole.flatten.length
      ≤ config.extract.maxRawBytes := by simpa using hlen
  let f : String → String := fun _ => e'
  have hhead : ∀ r r', r' = retext f r → r.status = r'.status ∧ r.location = r'.location := by
    rintro r _ rfl
    exact ⟨rfl, rfl⟩
  have hfetch := fetchExtractTarget_rel hhead (sameAnswer_retextNet f net) lib.toFetchLib url
    config.proxy.extractUrl
  rw [hrun] at hfetch
  generalize hrun' :
    (fetchExtractTarget lib.toFetchLib url config.proxy.extractUrl).result (retextNet f net) 0
      = fetched at hfetch
  cases hfetch with
  | @ok _ p' hsame =>
      have hacc' : Accepted lib.platform config.extract.maxRawBytes (retext f response) :=
        ⟨hacc.status, hacc.contentType, hacc.contentLength⟩
      have hchunks' : (retext f response).chunks
          = whole.map .ok ++ .error e' :: rest.map (Except.mapError f) := by
        rw [retext, hchunks, List.map_append, List.map_map, List.map_cons]
        rfl
      rw [Extract.extractSpan, Prog.result_andThen_ok _ hrun']
      show Extract.extractReply lib config p'.1 p'.2 = _
      rw [hsame.1, extractReply_of_accepted lib config hacc', hchunks',
        readChunks_error whole e' _ [] hzero]

end Span

/-! ## The gateways -/

/-- A request: for the extract endpoint, or a tool call. -/
inductive Request
  | http (url : String)
  | mcp (id params : Json)

/-- What the client sees: the status, the code and the message of an HTTP error, or the
response; or the JSON-RPC response. -/
inductive Visible
  | http (outcome : Except (ℕ × String × String) ExtractResponse)
  | mcp (response : JsonRpcResponse)

def visible (g : Gateway) (env : Env GatewayI) : Request → Visible
  | .http url =>
      .http (((HttpGateway.extractHandler g url).result env 0).mapError AppError.toHttpParts)
  | .mcp id params => .mcp ((McpGateway.handleToolsCall g id params).result env 0)

/-- The surroundings in which a span that is not cut off runs over a network. -/
def surroundings (lib : Extract.SpanLib) (config : Config) (net : Env NetI) (env : Env GatewayI) :
    Env GatewayI
  | n, .cacheGet key => env n (.cacheGet key)
  | n, .cacheSet key bytes ttl => env n (.cacheSet key bytes ttl)
  | n, .elapsedMs => env n .elapsedMs
  | n, .engineSearch query page language safe => env n (.engineSearch query page language safe)
  | n, .record metric => env n (.record metric)
  | n, .extractAttempt url =>
      match env n (.extractAttempt url) with
      | .elapsed => .elapsed
      | .finished _ => .finished ((Extract.extractSpan lib config url).result net 0)

/-- The request comes to the extraction of the URL. -/
def Asks (g : Gateway) (url : Url) : Request → Prop
  | .http text => RustStr.trim text ≠ "" ∧ g.platform.parseUrl (RustStr.trim text) = .ok url
  | .mcp _ params =>
      (params.get "name").bind Json.asStr = some "serica_extract"
        ∧ ∃ args, params.get "arguments" = some args ∧ McpGateway.argUrl g args = .ok url

/-- How a gateway answers with the outcome of an extraction. -/
def answer (g : Gateway) (outcome : Except AppError ExtractResponse) : Request → Visible
  | .http _ => .http (outcome.mapError AppError.toHttpParts)
  | .mcp id _ => .mcp (match outcome with
      | .ok response => McpGateway.toolCallResult g.extractCodec id response
      | .error e => McpGateway.errorResponse id (McpGateway.extractErrorObject e))

section Gateways

variable {g : Gateway} {env env' : Env GatewayI} {request : Request} {url : Url}

theorem visible_of_asks (h : Asks g url request) (env : Env GatewayI) :
    visible g env request = answer g ((g.runExtract url).result env 0) request := by
  cases request with
  | http text =>
      rw [visible, HttpGateway.extractHandler, if_neg h.1, h.2]
      rfl
  | mcp id params =>
      obtain ⟨hname, args, hargs, hurl⟩ := h
      rw [visible, McpGateway.handleToolsCall, hname, hargs]
      dsimp only [Option.getD_some]
      rw [if_neg (by decide), if_pos rfl, hurl]
      dsimp only
      rw [McpGateway.extractProgram, Prog.result_bind]
      cases (g.runExtract url).result env 0 <;> rfl

/-- The same answer to everything but an extraction. -/
def SameElse : (o : GatewayOp) → o.Ans → o.Ans → Prop
  | .cacheGet _, found, found' => found = found'
  | .cacheSet _ _ _, _, _ => True
  | .elapsedMs, ms, ms' => ms = ms'
  | .engineSearch _ _ _ _, results, results' => results = results'
  | .record _, _, _ => True
  | .extractAttempt _, _, _ => True

theorem sameElse_surroundings (lib : Extract.SpanLib) (config : Config) (net net' : Env NetI)
    (env : Env GatewayI) (n : ℕ) (o : GatewayOp) :
    SameElse o (surroundings lib config net env n o) (surroundings lib config net' env n o) := by
  cases o <;> first | rfl | trivial

theorem storeAndReturn_rel {α β : Type} (codec : Codec α) (key : String)
    (ttlSeconds : UInt64) (response : α) (f : α → β) :
    Prog.Rel SameElse Eq
      ((codec.storeAndReturn key ttlSeconds response).bind fun r => .ret (f r))
      ((codec.storeAndReturn key ttlSeconds response).bind fun r => .ret (f r)) := by
  unfold Codec.storeAndReturn
  cases codec.toVec response with
  | none => exact .ret rfl
  | some bytes => exact .call fun _ _ _ => .ret rfl

theorem finishSearch_rel (g : Gateway) (id : Json) (searchReq : SearchRequest)
    (results : List SearchResult) :
    Prog.Rel SameElse Eq (McpGateway.finishSearch g id searchReq results)
      (McpGateway.finishSearch g id searchReq results) := by
  apply Prog.Rel.call
  rintro ms _ rfl
  apply Prog.Rel.call
  rintro _ _ _
  exact storeAndReturn_rel _ _ _ _ _

/-- A search asks for no extraction. -/
theorem searchProgram_rel (g : Gateway) (id : Json) (searchReq : SearchRequest) :
    Prog.Rel SameElse Eq (McpGateway.searchProgram g id searchReq)
      (McpGateway.searchProgram g id searchReq) := by
  apply Prog.Rel.call
  rintro cachedBytes _ rfl
  cases cachedBytes.bind g.searchCodec.fromSlice with
  | some response =>
      apply Prog.Rel.call
      rintro ms _ rfl
      exact .ret rfl
  | none =>
      apply Prog.Rel.call
      rintro results _ rfl
      cases results with
      | ok results => exact finishSearch_rel g id searchReq results
      | error e =>
          cases e with
          | parseEmpty => exact .call fun _ _ _ => finishSearch_rel g id searchReq []
          | blocked => exact .call fun _ _ _ => .ret rfl
          | challenged => exact .call fun _ _ _ => .ret rfl
          | parsePanicked => exact .call fun _ _ _ => .ret rfl
          | upstream status => exact .call fun _ _ _ => .ret rfl
          | transport msg => exact .call fun _ _ _ => .ret rfl

/-- A request that comes to no extraction sees no network. -/
theorem visible_of_not_asks (h : ∀ url, ¬ Asks g url request)
    (hsame : ∀ n o, SameElse o (env n o) (env' n o)) :
    visible g env request = visible g env' request := by
  cases request with
  | http text =>
      rw [visible, visible, HttpGateway.extractHandler]
      split_ifs with hempty
      · rfl
      · cases hparse : g.platform.parseUrl (RustStr.trim text) with
        | error e => rfl
        | ok parsed => exact absurd ⟨hempty, hparse⟩ (h parsed)
  | mcp id params =>
      rw [visible, visible]
      congr 1
      unfold McpGateway.handleToolsCall
      dsimp only
      cases hargs : params.get "arguments" with
      | none => rfl
      | some args =>
          dsimp only
          split_ifs with hsearch hextract
          · cases McpGateway.searchRequestOfArguments args with
            | error e => rfl
            | ok searchReq => exact (searchProgram_rel g id searchReq).result hsame 0
          · cases hurl : McpGateway.argUrl g args with
            | error e => rfl
            | ok parsed =>
                have hname := (Option.getD_eq_iff.mp hextract).resolve_right (by simp)
                exact absurd ⟨hname, args, hargs, hurl⟩ (h parsed)
          · rfl

/-- The request runs the span for the URL to its end: the cache has nothing for it, and the
budget does not run out. -/
def Spans (g : Gateway) (env : Env GatewayI) (request : Request) (url : Url) : Prop :=
  Asks g url request
    ∧ (env 0 (.cacheGet (Search.extractCacheKey g.hash (normalizeExtractUrl url)))).bind
        g.extractCodec.fromSlice = none
    ∧ env 1 (.extractAttempt url) ≠ .elapsed

variable {lib : Extract.SpanLib} {net net' : Env NetI}

theorem surroundings_extractAttempt {n : ℕ} (h : env n (.extractAttempt url) ≠ .elapsed) :
    surroundings lib g.config net env n (.extractAttempt url)
      = .finished ((Extract.extractSpan lib g.config url).result net 0) := by
  rw [surroundings]
  cases hattempt : env n (.extractAttempt url) with
  | elapsed => exact absurd hattempt h
  | finished result => rfl

/-- An error of the span ends the extraction. -/
theorem runExtract_error (hspans : Spans g env request url) {e : AppError}
    (hrun : (Extract.extractSpan lib g.config url).result net 0 = .error e) :
    (g.runExtract url).result (surroundings lib g.config net env) 0 = .error e := by
  obtain ⟨-, hmiss, htime⟩ := hspans
  rw [Gateway.runExtract_result, surroundings_extractAttempt htime, hrun]
  simp only [surroundings, hmiss]

/-- The network is seen only through the span. -/
theorem runExtract_congr (hasks : Asks g url request)
    (hsame : Spans g env request url → (Extract.extractSpan lib g.config url).result net 0
      = (Extract.extractSpan lib g.config url).result net' 0) :
    (g.runExtract url).result (surroundings lib g.config net env) 0
      = (g.runExtract url).result (surroundings lib g.config net' env) 0 := by
  rw [Gateway.runExtract_result, Gateway.runExtract_result]
  simp only [surroundings]
  cases hmiss : (env 0 (.cacheGet (Search.extractCacheKey g.hash
      (normalizeExtractUrl url)))).bind g.extractCodec.fromSlice with
  | some response => rfl
  | none =>
      cases hattempt : env 1 (.extractAttempt url) with
      | elapsed => rfl
      | finished result => rw [hsame ⟨hasks, hmiss, by rw [hattempt]; exact nofun⟩]

/-- A text that is in the error of the span is in what the client sees. -/
theorem answer_internal_ne (g : Gateway) (request : Request) {msg msg' : String}
    (h : msg ≠ msg') :
    answer g (.error (.internal msg)) request ≠ answer g (.error (.internal msg')) request := by
  cases request with
  | http text =>
      intro hsame
      injection hsame with houtcome
      injection houtcome with hparts
      exact h (Prod.mk.inj (Prod.mk.inj hparts).2).2
  | mcp id params =>
      intro hsame
      injection hsame with hresponse
      have herror := Option.some.inj (congrArg JsonRpcResponse.error hresponse)
      have hmessage := congrArg JsonRpcErrorObject.message herror
      exact h ((String.append_right_inj _).mp ((String.append_right_inj _).mp hmessage))

/-- **When the errors of the network stay opaque**: no client tells two networks apart that
differ in the texts of transport errors, if and only if the request comes to no URL whose
body breaks off while it is read, or all such errors are shown alike. -/
theorem errors_opaque_iff (g : Gateway) (lib : Extract.SpanLib) (net : Env NetI)
    (env : Env GatewayI) (request : Request) :
    (∀ net', SameNet net net' → visible g (surroundings lib g.config net env) request
        = visible g (surroundings lib g.config net' env) request)
      ↔ ∀ url, Spans g env request url → BodyBreaksOff lib g.config net url →
        ShownAlike lib := by
  constructor
  · intro hsame url hspans hbreaks e e'
    -- Over two networks with these texts the client gets what is shown of each.
    have hvisible := (hsame _ (sameNet_retextNet (fun _ => e) net)).symm.trans
      (hsame _ (sameNet_retextNet (fun _ => e') net))
    rw [visible_of_asks hspans.1, visible_of_asks hspans.1,
      runExtract_error hspans (extractSpan_of_breaksOff hbreaks e),
      runExtract_error hspans (extractSpan_of_breaksOff hbreaks e')] at hvisible
    by_contra hne
    exact answer_internal_ne g request (fun h => hne ((String.append_right_inj _).mp h)) hvisible
  · intro hwhole net' hnet
    by_cases hasks : ∃ url, Asks g url request
    · obtain ⟨url, hasks⟩ := hasks
      rw [visible_of_asks hasks, visible_of_asks hasks, runExtract_congr hasks]
      exact fun hspans => extractSpan_of_same hnet (hwhole url hspans)
    · apply visible_of_not_asks (not_exists.mp hasks)
      exact sameElse_surroundings lib g.config net net' env

/-- **The errors of the network are opaque.**  Where the HTTP client shows all errors of a body
alike, whatever the cause, no client of either gateway tells two networks apart that differ in
nothing but the texts of transport errors. -/
theorem errors_opaque (g : Gateway) (lib : Extract.SpanLib)
    (hdisplay : ∀ e e', lib.displayBodyError e = lib.displayBodyError e') {net net' : Env NetI}
    (hnet : SameNet net net') (env : Env GatewayI) (request : Request) :
    visible g (surroundings lib g.config net env) request
      = visible g (surroundings lib g.config net' env) request :=
  (errors_opaque_iff g lib net env request).mpr (fun _ _ _ => hdisplay) net' hnet

end Gateways

/-! ## A body that breaks off -/

def exampleUrl : Url := ⟨"https", some ⟨"", none, some "example.com", none⟩, "/", none, none⟩

def exampleGateway : Gateway :=
  { Gateway.idle with platform := { Platform.ascii with parseUrl := fun _ => .ok exampleUrl } }

def exampleLib : Extract.SpanLib :=
  { join := fun _ _ => none, showStatus := fun _ => "200 OK",
    displayBodyError := Extract.decodingError, html := Extract.plainLib,
    extractor := fun _ _ => none, platform := exampleGateway.platform }

/-- A network on which every page breaks off before its first byte. -/
def brokenNet (e : String) : Env NetI
  | _, .lookupHost _ port => .ok [⟨.v4 ⟨93, 184, 215, 14⟩, port⟩]
  | _, .parseProxy _ => none
  | _, .buildClient _ => none
  | _, .send _ _ _ => .ok ⟨200, none, some (RustStr.asBytes "text/html"), none, [.error e]⟩

theorem sameNet_brokenNet (e e' : String) : SameNet (brokenNet e) (brokenNet e') := by
  intro n o
  cases o with
  | lookupHost host port => exact .ok rfl
  | parseProxy proxyUrl => rfl
  | buildClient client => rfl
  | send client url headers =>
      exact .ok ⟨rfl, rfl, rfl, rfl, .cons (.error trivial) .nil⟩

/-- A page that breaks off does not tell its reader how. -/
theorem errors_opaque_brokenNet :
    visible exampleGateway (surroundings exampleLib exampleGateway.config
        (brokenNet "connection reset by 10.0.0.7") idleEnv) (.http "https://example.com/")
      = visible exampleGateway (surroundings exampleLib exampleGateway.config
        (brokenNet "connection timed out") idleEnv) (.http "https://example.com/") :=
  errors_opaque exampleGateway exampleLib (fun _ _ => rfl) (sameNet_brokenNet _ _) idleEnv _

end Opacity
