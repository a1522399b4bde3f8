/-
# A Redis that cannot be reached

Searches over HTTP whose cache is a `LazyRedisCache` that never gets a connection.  Time
passes in milliseconds.  A call of the cache goes through `ensure_conn` and is then
answered as `NoopCache` answers it; the search route gives up on a request when its
deadline passes, and a request that holds the write lock then releases it.

Time passes only when no request can move, and no further than to the next moment at which
one can.

* `unobservable_iff`: no response differs from that of `NoopCache` if and only if the time
  of the engine and of the attempts that a request may wait for stays below the deadline.
-/
import Serica.CacheSoundness
import Serica.ExtractDeadline
import Serica.LazyRedis

namespace UnreachableRedis

open LazyRedis

/-- The program of a handler. -/
abbrev Handler : Type := Prog GatewayI (Except AppError SearchResponse)

/-- What a request is told; nothing when the route gives up on it. -/
abbrev Reply : Type := Option (Except AppError SearchResponse)

/-! ## States and steps -/

/-- A request: when it arrives, what it asks for, how the engine answers it, and after how
many milliseconds. -/
structure Visit where
  arrived : ℕ
  params : SearchParams
  delay : ℕ
  outcome : Except SearchError (List SearchResult)

/-- Where a request stands; `rest` is what remains of the handler once the cache has
answered. -/
inductive Phase
  /-- In front of the next call of its handler. -/
  | ready (p : Handler)
  /-- Between the two locks of `ensure_conn`. -/
  | upgrading (rest : Handler)
  /-- Under the write lock, with an attempt that fails at `ends`. -/
  | connecting (ends : ℕ) (rest : Handler)
  /-- The engine answers at `ends`. -/
  | searching (ends : ℕ) (k : Except SearchError (List SearchResult) → Handler)
  | finished (reply : Reply)

def Phase.isFinished : Phase → Bool
  | .finished _ => true
  | _ => false

structure Request where
  visit : Visit
  phase : Phase

structure State where
  now : ℕ
  cache : LazyState
  writer : Option ℕ
  requests : List Request

inductive Label
  | tick (d : ℕ)
  | arrive (params : SearchParams) (delay : ℕ) (outcome : Except SearchError (List SearchResult))
  /-- Request `i` moves.  An attempt that it begins would fail after `fails`. -/
  | move (i fails : ℕ)
  /-- The route gives up on request `i`. -/
  | cut (i : ℕ)

/-- What remains after a call of the cache, when it is answered as `NoopCache` answers it. -/
def afterMiss : Handler → Option Handler
  | .call (.cacheGet _) k => some (k none)
  | .call (.cacheSet _ _ _) k => some (k ())
  | _ => none

/-- The section under the read lock. -/
def read (s : State) (rest : Handler) : Option (State × Phase) :=
  if s.writer = none then
    match s.cache.look s.now with
    | .connected _ => none
    | .throttled => some (s, .ready rest)
    | .due => some (s, .upgrading rest)
  else none

/-- The section under the write lock; the attempt of `ensure_conn` has a timeout. -/
def write (s : State) (i fails : ℕ) (rest : Handler) : Option (State × Phase) :=
  if s.writer = none then
    match s.cache.look s.now with
    | .connected _ => none
    | .throttled => some (s, .ready rest)
    | .due =>
        some ({ s with
          cache := { s.cache with lastAttempt := some s.now }, writer := some i },
          .connecting (s.now + min fails connectTimeout) rest)
  else none

/-- One move of request `i`: the state that it leaves, its own phase aside, and the
phase. -/
def advance (s : State) (i fails : ℕ) (v : Visit) : Phase → Option (State × Phase)
  | .ready (.ret value) => some (s, .finished (some value))
  | .ready (.call (.cacheGet _) k) => read s (k none)
  | .ready (.call (.cacheSet _ _ _) k) => read s (k ())
  | .ready (.call .elapsedMs k) => some (s, .ready (k (UInt64.ofNat (s.now - v.arrived))))
  | .ready (.call (.record _) k) => some (s, .ready (k ()))
  | .ready (.call (.engineSearch _ _ _ _) k) => some (s, .searching (s.now + v.delay) k)
  | .ready (.call (.extractAttempt _) _) => none
  | .upgrading rest => write s i fails rest
  | .connecting ends rest =>
      if ends ≤ s.now then some ({ s with writer := none }, .ready rest) else none
  | .searching ends k => if ends ≤ s.now then some (s, .ready (k v.outcome)) else none
  | .finished _ => none

/-- The deadline of the search route, in milliseconds. -/
def searchDeadline (config : Config) : ℕ := config.search.defaultTimeoutMs.toNat

/-- The request need not move before `t`. -/
def Request.rests (config : Config) (s : State) (t : ℕ) (r : Request) : Bool :=
  match r.phase with
  | .finished _ => true
  | .ready p =>
      (afterMiss p).isSome && s.writer.isSome && t ≤ r.visit.arrived + searchDeadline config
  | .upgrading _ => s.writer.isSome && t ≤ r.visit.arrived + searchDeadline config
  | .connecting ends _ => t ≤ ends && t ≤ r.visit.arrived + searchDeadline config
  | .searching ends _ => t ≤ ends && t ≤ r.visit.arrived + searchDeadline config

/-- The searches of one process. -/
def machine (g : Gateway) : Machine State Label where
  init s := s.cache = ⟨none, none⟩ ∧ s.writer = none ∧ s.requests = []
  next s
    | .tick d =>
        if s.requests.all (Request.rests g.config s (s.now + d)) then
          some { s with now := s.now + d }
        else none
    | .arrive params delay outcome =>
        some { s with
          requests := s.requests
            ++ [⟨⟨s.now, params, delay, outcome⟩, .ready (HttpGateway.searchHandler g params)⟩] }
    | .move i fails =>
        match s.requests[i]? with
        | none => none
        | some r =>
            (advance s i fails r.visit r.phase).map fun p =>
              { p.1 with requests := s.requests.set i ⟨r.visit, p.2⟩ }
    | .cut i =>
        match s.requests[i]? with
        | none => none
        | some r =>
            if !r.phase.isFinished ∧ r.visit.arrived + searchDeadline g.config ≤ s.now then
              some { s with
                writer := if s.writer = some i then none else s.writer,
                requests := s.requests.set i ⟨r.visit, .finished none⟩ }
            else none

/-- The cache is about to be asked, or asked again under the write lock. -/
inductive Asks : Phase → Handler → Prop
  | ready {p rest : Handler} : afterMiss p = some rest → Asks (.ready p) rest
  | upgrading {rest : Handler} : Asks (.upgrading rest) rest

/-- Everything that a move of request `i` can do. -/
inductive Moves (i fails : ℕ) (v : Visit) : State → Phase → State → Phase → Prop
  | ret {s : State} {value : Except AppError SearchResponse} :
      Moves i fails v s (.ready (.ret value)) s (.finished (some value))
  | elapsed {s : State} {k : UInt64 → Handler} (ms : UInt64) :
      Moves i fails v s (.ready (.call (I := GatewayI) .elapsedMs k)) s (.ready (k ms))
  | record {s : State} {metric : Metric} {k : Unit → Handler} :
      Moves i fails v s (.ready (.call (I := GatewayI) (.record metric) k)) s (.ready (k ()))
  | ask {s : State} {query : String} {page : UInt32} {language : Option String}
      {safeSearch : UInt8} {k : Except SearchError (List SearchResult) → Handler} :
      Moves i fails v s
        (.ready (.call (I := GatewayI) (.engineSearch query page language safeSearch) k)) s
        (.searching (s.now + v.delay) k)
  | skip {s : State} {phase : Phase} {rest : Handler} :
      Asks phase rest → s.writer = none → s.cache.look s.now = .throttled →
      Moves i fails v s phase s (.ready rest)
  | upgrade {s : State} {p rest : Handler} :
      afterMiss p = some rest → s.writer = none → s.cache.look s.now = .due →
      Moves i fails v s (.ready p) s (.upgrading rest)
  | connect {s : State} {rest : Handler} :
      s.writer = none → s.cache.look s.now = .due →
      Moves i fails v s (.upgrading rest)
        { s with cache := { s.cache with lastAttempt := some s.now }, writer := some i }
        (.connecting (s.now + min fails connectTimeout) rest)
  | refused {s : State} {ends : ℕ} {rest : Handler} :
      ends ≤ s.now →
      Moves i fails v s (.connecting ends rest) { s with writer := none } (.ready rest)
  | answered {s : State} {ends : ℕ} {k : Except SearchError (List SearchResult) → Handler} :
      ends ≤ s.now → Moves i fails v s (.searching ends k) s (.ready (k v.outcome))

theorem moves_of_read {i fails : ℕ} {v : Visit} {s t : State} {p rest : Handler} {phase : Phase}
    (hafter : afterMiss p = some rest) (h : read s rest = some (t, phase)) :
    Moves i fails v s (.ready p) t phase := by
  unfold read at h
  split_ifs at h with hfree
  split at h
  · exact absurd h (by simp)
  · obtain ⟨rfl, rfl⟩ := Prod.mk.inj (Option.some.inj h)
    exact .skip (.ready hafter) hfree (by assumption)
  · obtain ⟨rfl, rfl⟩ := Prod.mk.inj (Option.some.inj h)
    exact .upgrade hafter hfree (by assumption)

theorem moves_of_write {i fails : ℕ} {v : Visit} {s t : State} {rest : Handler} {phase : Phase}
    (h : write s i fails rest = some (t, phase)) : Moves i fails v s (.upgrading rest) t phase := by
  unfold write at h
  split_ifs at h with hfree
  split at h
  · exact absurd h (by simp)
  · obtain ⟨rfl, rfl⟩ := Prod.mk.inj (Option.some.inj h)
    exact .skip .upgrading hfree (by assumption)
  · obtain ⟨rfl, rfl⟩ := Prod.mk.inj (Option.some.inj h)
    exact .connect hfree (by assumption)

theorem moves_of_advance {i fails : ℕ} {v : Visit} {s t : State} {phase phase' : Phase}
    (h : advance s i fails v phase = some (t, phase')) : Moves i fails v s phase t phase' := by
  unfold advance at h
  split at h
  · obtain ⟨rfl, rfl⟩ := Prod.mk.inj (Option.some.inj h)
    exact .ret
  · exact moves_of_read rfl h
  · exact moves_of_read rfl h
  · obtain ⟨rfl, rfl⟩ := Prod.mk.inj (Option.some.inj h)
    exact .elapsed _
  · obtain ⟨rfl, rfl⟩ := Prod.mk.inj (Option.some.inj h)
    exact .record
  · obtain ⟨rfl, rfl⟩ := Prod.mk.inj (Option.some.inj h)
    exact .ask
  · exact absurd h (by simp)
  · exact moves_of_write h
  · split_ifs at h with hends
    obtain ⟨rfl, rfl⟩ := Prod.mk.inj (Option.some.inj h)
    exact .refused hends
  · split_ifs at h with hends
    obtain ⟨rfl, rfl⟩ := Prod.mk.inj (Option.some.inj h)
    exact .answered hends
  · exact absurd h (by simp)

/-- A step lets time pass, brings a request, moves one or cuts one off. -/
theorem next_cases {g : Gateway} {s s' : State} {a : Label}
    (h : (machine g).next s a = some s') :
    (∃ d, a = .tick d ∧ (∀ r ∈ s.requests, r.rests g.config s (s.now + d) = true)
        ∧ s' = { s with now := s.now + d })
      ∨ (∃ params delay outcome, a = .arrive params delay outcome ∧ s' = { s with
          requests := s.requests
            ++ [⟨⟨s.now, params, delay, outcome⟩, .ready (HttpGateway.searchHandler g params)⟩] })
      ∨ (∃ i fails r t phase, a = .move i fails ∧ s.requests[i]? = some r
        ∧ Moves i fails r.visit s r.phase t phase
        ∧ s' = { t with requests := s.requests.set i ⟨r.visit, phase⟩ })
      ∨ ∃ i r, a = .cut i ∧ s.requests[i]? = some r ∧ r.phase.isFinished = false
        ∧ r.visit.arrived + searchDeadline g.config ≤ s.now
        ∧ s' = { s with
            writer := if s.writer = some i then none else s.writer,
            requests := s.requests.set i ⟨r.visit, .finished none⟩ } := by
  cases a with
  | tick d =>
      simp only [machine] at h
      split_ifs at h with hrests
      exact Or.inl ⟨d, rfl, List.all_eq_true.mp hrests, (Option.some.inj h).symm⟩
  | arrive params delay outcome =>
      exact Or.inr (Or.inl ⟨params, delay, outcome, rfl, (Option.some.inj h).symm⟩)
  | move i fails =>
      simp only [machine] at h
      split at h
      · exact absurd h (by simp)
      · rename_i r hr
        obtain ⟨⟨t, phase⟩, hadvance, rfl⟩ := Option.map_eq_some_iff.mp h
        exact Or.inr (Or.inr (Or.inl
          ⟨i, fails, r, t, phase, rfl, hr, moves_of_advance hadvance, rfl⟩))
  | cut i =>
      simp only [machine] at h
      split at h
      · exact absurd h (by simp)
      · rename_i r hr
        rw [Option.ite_none_right_eq_some] at h
        obtain ⟨⟨hphase, hdue⟩, h⟩ := h
        exact Or.inr (Or.inr (Or.inr
          ⟨i, r, rfl, hr, by simpa using hphase, hdue, (Option.some.inj h).symm⟩))

/-! ## What a request gets without a cache -/

/-- The answers that a handler gets when there is no cache. -/
def Visit.noopEnv (v : Visit) (elapsedMs : UInt64) : Env GatewayI
  | _, .cacheGet _ => none
  | _, .cacheSet _ _ _ => ()
  | _, .elapsedMs => elapsedMs
  | _, .engineSearch _ _ _ _ => v.outcome
  | _, .record _ => ()
  | _, .extractAttempt _ => .elapsed

/-- A call of the engine. -/
def isSearch (e : Event GatewayI) : Bool :=
  match e.op with
  | .engineSearch _ _ _ _ => true
  | _ => false

/-- The handler without a cache: only the engine takes time. -/
def Visit.noopWork (g : Gateway) (v : Visit) (elapsedMs : UInt64) :
    Timed (Except AppError SearchResponse) :=
  let p := HttpGateway.searchHandler g v.params
  ⟨((p.trace (v.noopEnv elapsedMs) 0).countP isSearch * v.delay : ℕ),
    p.result (v.noopEnv elapsedMs) 0⟩

/-- What a request may be told by a server with `NoopCache`. -/
def NoopReply (g : Gateway) (v : Visit) (reply : Reply) : Prop :=
  ∃ elapsedMs out, Under (searchDeadline g.config) (v.noopWork g elapsedMs) out
    ∧ reply = out.value

/-! ## Responses up to timing -/

/-- The reply without its `timing_ms`. -/
def untimed (reply : Reply) : Reply :=
  reply.map fun result => result.map fun response => { response with timingMs := 0 }

/-- The response that leaves the router. -/
def respond (toJson : SearchResponse → String) (reply : Reply) : HttpResponse :=
  HttpGateway.convertTimeoutResponse <|
    match reply with
    | none => HttpGateway.timedOut
    | some (.ok response) => HttpGateway.successResponse (toJson response)
    | some (.error e) => HttpGateway.intoResponse e

/-- Two replies lead to the same response but for `timing_ms`. -/
def SameResponse (reply reply' : Reply) : Prop :=
  ∀ toJson, respond toJson (untimed reply) = respond toJson (untimed reply')

/-- The longest time that a request whose engine takes `delay` waits for attempts that last
at most `attempt`: for one of them, or for two when the throttle lets another begin before
its response is stored. -/
def waitFor (attempt delay : ℕ) : ℕ :=
  if delay + attempt < reconnectMinInterval then attempt else 2 * attempt

/-- Every engine answers within `delay`, and every attempt fails within `attempt`. -/
def Paced (attempt delay : ℕ) (_ : State) : Label → Prop
  | .arrive _ d _ => d ≤ delay
  | .move _ fails => min fails connectTimeout ≤ attempt
  | _ => True

/-- No response differs from what the request may be told without a cache. -/
def Unobservable (g : Gateway) (attempt delay : ℕ) : Prop :=
  ∀ s, (machine g).Reach (Paced attempt delay) s → ∀ r ∈ s.requests, ∀ reply reply',
    r.phase = .finished reply → NoopReply g r.visit reply' → SameResponse reply reply'

/-! ## What remains of a handler -/

/-- How far a handler has come. -/
inductive Stage
  /-- In front of the look-up. -/
  | getting
  /-- In front of the engine. -/
  | asking
  /-- In front of the store. -/
  | storing
  /-- With no wait ahead. -/
  | returning

/-- Handlers at a stage all of whose values are `good`, when the cache answers as
`NoopCache` does and the engine as it does for `v`. -/
inductive Left (v : Visit) (good : Except AppError SearchResponse → Prop) : Stage → Handler → Prop
  | get {key : String} {k : Option (List UInt8) → Handler} :
      Left v good .asking (k none) → Left v good .getting (.call (I := GatewayI) (.cacheGet key) k)
  | ask {query : String} {page : UInt32} {language : Option String} {safeSearch : UInt8}
      {k : Except SearchError (List SearchResult) → Handler} :
      Left v good .storing (k v.outcome) →
      Left v good .asking
        (.call (I := GatewayI) (.engineSearch query page language safeSearch) k)
  | store {key : String} {bytes : List UInt8} {ttlSeconds : UInt64} {k : Unit → Handler} :
      Left v good .returning (k ()) →
      Left v good .storing (.call (I := GatewayI) (.cacheSet key bytes ttlSeconds) k)
  | elapsed {stage : Stage} {k : UInt64 → Handler} :
      (∀ ms, Left v good stage (k ms)) → Left v good stage (.call (I := GatewayI) .elapsedMs k)
  | record {stage : Stage} {metric : Metric} {k : Unit → Handler} :
      Left v good stage (k ()) → Left v good stage (.call (I := GatewayI) (.record metric) k)
  | ret {stage : Stage} {value : Except AppError SearchResponse} :
      good value → Left v good stage (.ret value)

/-- What a handler returns that has waited `ms` for an engine that answers as for `v`. -/
def Visit.answer (g : Gateway) (v : Visit) (ms : UInt64) : Except AppError SearchResponse :=
  match HttpGateway.tryFromParams g.platform v.params g.config.search.safeSearchDefault with
  | .error e => .error e
  | .ok request =>
      let found := Search.finalizeResults g.platform
      match v.outcome with
      | .ok results => .ok (found results request g.config.search.maxResultsPerPage ms)
      | .error e =>
          match HttpGateway.mapSearchError e with
          | some appErr => .error appErr
          | none => .ok (found [] request g.config.search.maxResultsPerPage ms)

/-- The values that a handler may return when nothing is cached. -/
def Visit.Uncached (g : Gateway) (v : Visit) (value : Except AppError SearchResponse) : Prop :=
  ∃ ms, value = v.answer g ms

variable {g : Gateway} {v : Visit}

theorem left_finishSearch {good : Except AppError SearchResponse → Prop} {request : SearchRequest}
    {results : List SearchResult}
    (h : ∀ ms, good (.ok (Search.finalizeResults g.platform results request
      g.config.search.maxResultsPerPage ms))) :
    Left v good .storing (HttpGateway.finishSearch g request results) := by
  unfold HttpGateway.finishSearch
  refine .elapsed fun ms => .record ?_
  unfold Codec.storeAndReturn
  split
  · exact .store (.ret (h ms))
  · exact .ret (h ms)

/-- A handler starts in front of its look-up, or rejects its request. -/
theorem left_searchHandler (g : Gateway) (v : Visit) :
    Left v (v.Uncached g) .getting (HttpGateway.searchHandler g v.params) := by
  unfold HttpGateway.searchHandler
  cases hvalid :
      HttpGateway.tryFromParams g.platform v.params g.config.search.safeSearchDefault with
  | error e => exact .ret ⟨0, by rw [Visit.answer, hvalid]⟩
  | ok request =>
      refine .get (.ask ?_)
      dsimp only [Option.bind_none]
      cases houtcome : v.outcome with
      | ok results => exact left_finishSearch fun ms => ⟨ms, by rw [Visit.answer, hvalid, houtcome]⟩
      | error e =>
          refine .record ?_
          cases hmap : HttpGateway.mapSearchError e with
          | some appErr => exact .ret ⟨0, by simp only [Visit.answer, hvalid, houtcome, hmap]⟩
          | none =>
              refine left_finishSearch fun ms => ⟨ms, ?_⟩
              simp only [Visit.answer, hvalid, houtcome, hmap]

/-- Values of one request differ at most in their timing. -/
theorem untimed_of_uncached {value value' : Except AppError SearchResponse}
    (h : v.Uncached g value) (h' : v.Uncached g value') :
    untimed (some value) = untimed (some value') := by
  obtain ⟨ms, rfl⟩ := h
  obtain ⟨ms', rfl⟩ := h'
  unfold Visit.answer
  cases HttpGateway.tryFromParams g.platform v.params g.config.search.safeSearchDefault with
  | error e => rfl
  | ok request =>
      dsimp only
      cases v.outcome with
      | ok results => rfl
      | error e =>
          dsimp only
          cases HttpGateway.mapSearchError e <;> rfl

/-! ## The reply without a cache -/

/-- How often a handler at this stage still asks the engine. -/
def Stage.searches : Stage → ℕ
  | .getting => 1
  | .asking => 1
  | .storing => 0
  | .returning => 0

/-- Without a cache a handler returns one of its values, and asks the engine as its stage
says. -/
theorem Left.noop {good : Except AppError SearchResponse → Prop} {stage : Stage} {p : Handler}
    (h : Left v good stage p) (elapsedMs : UInt64) (n : ℕ) :
    good (p.result (v.noopEnv elapsedMs) n)
      ∧ (p.trace (v.noopEnv elapsedMs) n).countP isSearch ≤ stage.searches := by
  induction h generalizing n with
  | get _ ih =>
      obtain ⟨hgood, hcount⟩ := ih (n + 1)
      refine ⟨hgood, ?_⟩
      rw [Prog.trace_call, List.countP_cons_of_neg (by simp [isSearch])]
      exact hcount
  | ask _ ih =>
      obtain ⟨hgood, hcount⟩ := ih (n + 1)
      refine ⟨hgood, ?_⟩
      rw [Prog.trace_call, List.countP_cons_of_pos rfl]
      exact Nat.succ_le_succ hcount
  | store _ ih =>
      obtain ⟨hgood, hcount⟩ := ih (n + 1)
      refine ⟨hgood, ?_⟩
      rw [Prog.trace_call, List.countP_cons_of_neg (by simp [isSearch])]
      exact hcount
  | elapsed _ ih =>
      obtain ⟨hgood, hcount⟩ := ih elapsedMs (n + 1)
      refine ⟨hgood, ?_⟩
      rw [Prog.trace_call, List.countP_cons_of_neg (by simp [isSearch])]
      exact hcount
  | record _ ih =>
      obtain ⟨hgood, hcount⟩ := ih (n + 1)
      refine ⟨hgood, ?_⟩
      rw [Prog.trace_call, List.countP_cons_of_neg (by simp [isSearch])]
      exact hcount
  | ret hgood => exact ⟨hgood, Nat.zero_le _⟩

/-- The handler alone is done when the engine is. -/
theorem noopWork_time_le (g : Gateway) (v : Visit) (elapsedMs : UInt64) :
    (v.noopWork g elapsedMs).time ≤ v.delay := by
  obtain ⟨-, hcount⟩ := (left_searchHandler g v).noop elapsedMs 0
  have hle := Nat.mul_le_mul_right v.delay hcount
  rw [Stage.searches, one_mul] at hle
  exact Nat.cast_le.mpr hle

/-- Before the deadline the reply without a cache is one of the handler's values. -/
theorem noopReply_uncached {reply : Reply} (h : NoopReply g v reply)
    (hshort : v.delay < searchDeadline g.config) :
    ∃ value, reply = some value ∧ v.Uncached g value := by
  obtain ⟨elapsedMs, out, hunder, rfl⟩ := h
  have hlt : (v.noopWork g elapsedMs).time < searchDeadline g.config :=
    (noopWork_time_le g v elapsedMs).trans_lt (Nat.cast_lt.mpr hshort)
  rw [(under_of_gt hlt).mp hunder]
  exact ⟨_, rfl, ((left_searchHandler g v).noop elapsedMs 0).1⟩

/-! ## Time -/

section Time

variable {s t : State} {attempt : ℕ}

/-- What the others may do to the time, the state behind the lock and the lock: release
the lock, or begin an attempt that is due. -/
def Shares (s t : State) : Prop :=
  t.now = s.now ∧ (s.cache.look s.now = .due
    ∨ t.cache.lastAttempt = s.cache.lastAttempt ∧ (t.writer = s.writer ∨ t.writer = none))

/-- A request that began to wait for the cache at `since` waits for no other attempt than
one that had begun by then. -/
def WaitsSince (attempt : ℕ) (s : State) (since : ℕ) : Prop :=
  s.now = since
    ∨ ∃ last, s.cache.lastAttempt = some last ∧ last ≤ since ∧ s.now ≤ last + attempt

/-- The last attempt is over, and began so late that no other begins before `ends`. -/
def CalmUntil (attempt : ℕ) (s : State) (v : Visit) (ends : ℕ) : Prop :=
  ∃ last, s.cache.lastAttempt = some last ∧ last ≤ v.arrived
    ∧ ends ≤ last + attempt + v.delay ∧ s.writer = none

/-- When the engine answers, at `ends`. -/
def AnswersAt (attempt : ℕ) (s : State) (v : Visit) (ends : ℕ) : Prop :=
  s.now ≤ ends ∧ ends ≤ v.arrived + attempt + v.delay
    ∧ (v.delay + attempt < reconnectMinInterval →
        ends = v.arrived + v.delay ∨ CalmUntil attempt s v ends)

/-- The state in which a request has its answer from the engine. -/
def StoresIn (attempt : ℕ) (s : State) (v : Visit) : Prop :=
  (∃ since ≤ v.arrived + attempt + v.delay, WaitsSince attempt s since)
    ∧ (v.delay + attempt < reconnectMinInterval →
        WaitsSince attempt s (v.arrived + v.delay) ∨ CalmUntil attempt s v s.now)

/-- The states in which a handler may stand at a stage. -/
def OnTime (attempt : ℕ) (s : State) (v : Visit) : Stage → Prop
  | .getting => WaitsSince attempt s v.arrived
  | .asking => AnswersAt attempt s v (s.now + v.delay)
  | .storing => StoresIn attempt s v
  | .returning => s.now ≤ v.arrived + v.delay + waitFor attempt v.delay

theorem WaitsSince.le {since : ℕ} (h : WaitsSince attempt s since) : s.now ≤ since + attempt := by
  rcases h with hnow | ⟨last, -, hlast, hnow⟩ <;> omega

theorem le_waitFor (attempt delay : ℕ) : attempt ≤ waitFor attempt delay := by
  unfold waitFor
  split_ifs <;> omega

/-- A request is on time while it is not later than its longest wait. -/
theorem OnTime.le {stage : Stage} (h : OnTime attempt s v stage) :
    s.now ≤ v.arrived + v.delay + waitFor attempt v.delay := by
  have hwait := le_waitFor attempt v.delay
  cases stage with
  | getting =>
      have := WaitsSince.le h
      omega
  | asking =>
      obtain ⟨-, hends, -⟩ := h
      omega
  | storing =>
      obtain ⟨⟨since, hsince, hwaits⟩, hcalm⟩ := h
      unfold waitFor
      split_ifs with hshort
      · rcases hcalm hshort with hwaits' | ⟨last, -, hlast, hends, -⟩
        · have := hwaits'.le
          omega
        · omega
      · have := hwaits.le
        omega
  | returning => exact h

/-! ### What the others change -/

variable {v : Visit} {delay : ℕ}

/-- Right after an attempt no other is due. -/
theorem look_ne_due {cache : LazyState} {now last : ℕ} (hlast : cache.lastAttempt = some last)
    (hsoon : now < last + reconnectMinInterval) : cache.look now ≠ .due := by
  have hpos : 0 < reconnectMinInterval := by decide
  unfold LazyState.look
  rw [hlast]
  split
  · simp
  · dsimp only
    rw [if_pos (by omega)]
    simp

theorem WaitsSince.shares {since : ℕ} (hshort : attempt < reconnectMinInterval)
    (h : WaitsSince attempt s since) (hst : Shares s t) : WaitsSince attempt t since := by
  obtain ⟨hnow, hst⟩ := hst
  rcases h with heq | ⟨last, hlast, hle, hend⟩
  · exact Or.inl (hnow.trans heq)
  · rcases hst with hdue | ⟨hsame, -⟩
    · exact absurd hdue (look_ne_due hlast (by omega))
    · exact Or.inr ⟨last, hsame.trans hlast, hle, hnow ▸ hend⟩

theorem CalmUntil.shares {ends : ℕ} (hshort : v.delay + attempt < reconnectMinInterval)
    (hends : s.now ≤ ends) (h : CalmUntil attempt s v ends) (hst : Shares s t) :
    CalmUntil attempt t v ends := by
  obtain ⟨last, hlast, hle, hend, hfree⟩ := h
  obtain ⟨-, hdue | ⟨hsame, hwriter⟩⟩ := hst
  · exact absurd hdue (look_ne_due hlast (by omega))
  · refine ⟨last, hsame.trans hlast, hle, hend, ?_⟩
    rcases hwriter with hwriter | hwriter
    · exact hwriter.trans hfree
    · exact hwriter

theorem AnswersAt.shares {ends : ℕ} (h : AnswersAt attempt s v ends) (hst : Shares s t) :
    AnswersAt attempt t v ends := by
  obtain ⟨hnow, hends, hcalm⟩ := h
  refine ⟨hst.1 ▸ hnow, hends, ?_⟩
  intro hshort
  exact (hcalm hshort).imp_right fun hcalm => hcalm.shares hshort hnow hst

theorem StoresIn.shares (hattempt : attempt < reconnectMinInterval) (h : StoresIn attempt s v)
    (hst : Shares s t) : StoresIn attempt t v := by
  obtain ⟨⟨since, hsince, hwaits⟩, hcalm⟩ := h
  refine ⟨⟨since, hsince, hwaits.shares hattempt hst⟩, ?_⟩
  intro hshort
  rw [hst.1]
  exact (hcalm hshort).imp (fun hwaits => hwaits.shares hattempt hst)
    fun hcalm => hcalm.shares hshort le_rfl hst

theorem OnTime.shares (hattempt : attempt < reconnectMinInterval) {stage : Stage}
    (h : OnTime attempt s v stage) (hst : Shares s t) : OnTime attempt t v stage := by
  cases stage with
  | getting => exact WaitsSince.shares hattempt h hst
  | asking =>
      show AnswersAt attempt t v (t.now + v.delay)
      rw [hst.1]
      exact AnswersAt.shares h hst
  | storing => exact StoresIn.shares hattempt h hst
  | returning => exact (congrArg (· ≤ _) hst.1).mpr h

/-! ### What a request may be doing -/

/-- The cache is asked for a handler, of which `rest` remains. -/
def Awaits (g : Gateway) (attempt : ℕ) (s : State) (v : Visit) (rest : Handler) : Prop :=
  (Left v (v.Uncached g) .asking rest ∧ OnTime attempt s v .getting)
    ∨ (Left v (v.Uncached g) .returning rest ∧ OnTime attempt s v .storing)

/-- The phases in which a request may be, on time. -/
inductive Fits (g : Gateway) (attempt : ℕ) (s : State) (v : Visit) : Phase → Prop
  | ready {p : Handler} {stage : Stage} :
      Left v (v.Uncached g) stage p → OnTime attempt s v stage → Fits g attempt s v (.ready p)
  | upgrading {rest : Handler} : Awaits g attempt s v rest → Fits g attempt s v (.upgrading rest)
  | connecting {ends : ℕ} {rest : Handler} :
      Awaits g attempt s v rest → Fits g attempt s v (.connecting ends rest)
  | searching {ends : ℕ} {k : Except SearchError (List SearchResult) → Handler} :
      Left v (v.Uncached g) .storing (k v.outcome) → AnswersAt attempt s v ends →
      Fits g attempt s v (.searching ends k)
  | finished {value : Except AppError SearchResponse} :
      v.Uncached g value → Fits g attempt s v (.finished (some value))

variable {g : Gateway}

theorem Awaits.shares (hattempt : attempt < reconnectMinInterval) {rest : Handler}
    (h : Awaits g attempt s v rest) (hst : Shares s t) : Awaits g attempt t v rest :=
  h.imp (And.imp_right fun htime => htime.shares hattempt hst)
    (And.imp_right fun htime => htime.shares hattempt hst)

theorem Fits.shares (hattempt : attempt < reconnectMinInterval) {phase : Phase}
    (h : Fits g attempt s v phase) (hst : Shares s t) : Fits g attempt t v phase := by
  cases h with
  | ready hleft htime => exact .ready hleft (htime.shares hattempt hst)
  | upgrading hawaits => exact .upgrading (hawaits.shares hattempt hst)
  | connecting hawaits => exact .connecting (hawaits.shares hattempt hst)
  | searching hleft hanswers => exact .searching hleft (hanswers.shares hst)
  | finished hvalue => exact .finished hvalue

theorem Awaits.le {rest : Handler} (h : Awaits g attempt s v rest) :
    s.now ≤ v.arrived + v.delay + waitFor attempt v.delay := by
  rcases h with ⟨-, htime⟩ | ⟨-, htime⟩
  · exact htime.le
  · exact htime.le

/-- A request that is not finished is not late. -/
theorem Fits.le {phase : Phase} (h : Fits g attempt s v phase) (hphase : phase.isFinished = false) :
    s.now ≤ v.arrived + v.delay + waitFor attempt v.delay := by
  cases h with
  | ready _ htime => exact htime.le
  | upgrading hawaits => exact hawaits.le
  | connecting hawaits => exact hawaits.le
  | searching _ hanswers =>
      obtain ⟨hnow, hends, -⟩ := hanswers
      have := le_waitFor attempt v.delay
      omega
  | finished => exact absurd hphase (by simp [Phase.isFinished])

/-- A call of the cache is the look-up or the store. -/
theorem awaits_of_left {stage : Stage} {p rest : Handler} (h : Left v (v.Uncached g) stage p)
    (htime : OnTime attempt s v stage) (hafter : afterMiss p = some rest) :
    Awaits g attempt s v rest := by
  cases h with
  | get hleft =>
      obtain rfl := Option.some.inj hafter
      exact Or.inl ⟨hleft, htime⟩
  | store hleft =>
      obtain rfl := Option.some.inj hafter
      exact Or.inr ⟨hleft, htime⟩
  | _ => exact absurd hafter (by simp [afterMiss])

/-- The answer of the cache comes while nobody holds the lock. -/
theorem Awaits.ready {rest : Handler} (h : Awaits g attempt s v rest) (hfree : s.writer = none) :
    Fits g attempt s v (.ready rest) := by
  rcases h with ⟨hleft, hwaits⟩ | ⟨hleft, hstores⟩
  · refine .ready hleft ⟨Nat.le_add_right _ _, ?_, ?_⟩
    · have := WaitsSince.le hwaits
      omega
    · intro _
      rcases hwaits with hnow | ⟨last, hlast, hle, hend⟩
      · exact Or.inl (by rw [hnow])
      · exact Or.inr ⟨last, hlast, hle, by omega, hfree⟩
  · exact .ready hleft hstores.le

/-- A handler stores its response as soon as the engine has answered. -/
theorem storesIn_of_answersAt (h : AnswersAt attempt s v s.now) : StoresIn attempt s v := by
  obtain ⟨-, hends, hcalm⟩ := h
  refine ⟨⟨s.now, hends, Or.inl rfl⟩, ?_⟩
  intro hshort
  exact (hcalm hshort).imp_left Or.inl

end Time

/-! ## The invariant of a run -/

variable {attempt delay : ℕ} {s t : State}

/-- Nothing is connected; the lock is held by the request whose attempt began last, and by
no other; and every request is on time. -/
structure Inv (g : Gateway) (attempt delay : ℕ) (s : State) : Prop where
  unreachable : s.cache.conn = none
  past : ∀ last, s.cache.lastAttempt = some last → last ≤ s.now
  lock : ∀ i, s.writer = some i → ∃ r ends rest last, s.requests[i]? = some r
    ∧ r.phase = .connecting ends rest ∧ s.cache.lastAttempt = some last ∧ ends ≤ last + attempt
  holder : ∀ i r ends rest, s.requests[i]? = some r → r.phase = .connecting ends rest →
    s.writer = some i
  fits : ∀ r ∈ s.requests, r.visit.delay ≤ delay ∧ Fits g attempt s r.visit r.phase

theorem Inv.init (h : (machine g).init s) : Inv g attempt delay s := by
  obtain ⟨hcache, hwriter, hrequests⟩ := h
  constructor
  · rw [hcache]
  · intro last hlast
    rw [hcache] at hlast
    exact absurd hlast (by simp)
  · intro i hi
    exact absurd (hwriter.symm.trans hi) (by simp)
  · intro i r ends rest hr
    rw [hrequests] at hr
    exact absurd hr (by simp)
  · intro r hr
    rw [hrequests] at hr
    exact absurd hr (by simp)

/-- Time passes only up to the end of the attempt that is in progress. -/
theorem WaitsSince.tick {d since : ℕ} (h : WaitsSince attempt s since)
    (hlock : ∃ last, s.cache.lastAttempt = some last ∧ last ≤ s.now
      ∧ s.now + d ≤ last + attempt) :
    WaitsSince attempt { s with now := s.now + d } since := by
  obtain ⟨last, hlast, hpast, hend⟩ := hlock
  rcases h with hnow | ⟨last', hlast', hle, -⟩
  · exact Or.inr ⟨last, hlast, by omega, hend⟩
  · obtain rfl := Option.some.inj (hlast'.symm.trans hlast)
    exact Or.inr ⟨last', hlast, hle, hend⟩

theorem StoresIn.tick {d : ℕ} (h : StoresIn attempt s v) (hheld : s.writer ≠ none)
    (hlock : ∃ last, s.cache.lastAttempt = some last ∧ last ≤ s.now
      ∧ s.now + d ≤ last + attempt) :
    StoresIn attempt { s with now := s.now + d } v := by
  obtain ⟨⟨since, hsince, hwaits⟩, hcalm⟩ := h
  refine ⟨⟨since, hsince, hwaits.tick hlock⟩, ?_⟩
  intro hshort
  rcases hcalm hshort with hwaits' | ⟨_, _, _, _, hfree⟩
  · exact Or.inl (hwaits'.tick hlock)
  · exact absurd hfree hheld

theorem Awaits.tick {d : ℕ} {rest : Handler} (h : Awaits g attempt s v rest)
    (hheld : s.writer ≠ none)
    (hlock : ∃ last, s.cache.lastAttempt = some last ∧ last ≤ s.now
      ∧ s.now + d ≤ last + attempt) :
    Awaits g attempt { s with now := s.now + d } v rest :=
  h.imp (And.imp_right fun hwaits => hwaits.tick hlock)
    (And.imp_right fun hstores => hstores.tick hheld hlock)

/-- The end of the attempt that is in progress bounds the time that may pass. -/
theorem Inv.tickEnd {d : ℕ} (hs : Inv g attempt delay s)
    (hrests : ∀ r ∈ s.requests, r.rests g.config s (s.now + d) = true) (hheld : s.writer ≠ none) :
    ∃ last, s.cache.lastAttempt = some last ∧ last ≤ s.now ∧ s.now + d ≤ last + attempt := by
  obtain ⟨i, hi⟩ := Option.ne_none_iff_exists'.mp hheld
  obtain ⟨r, ends, rest, last, hr, hphase, hlast, hends⟩ := hs.lock i hi
  have hrest := hrests r (List.mem_of_getElem? hr)
  simp only [Request.rests, hphase, Bool.and_eq_true, decide_eq_true_eq] at hrest
  exact ⟨last, hlast, hs.past last hlast, by omega⟩

/-- Time passes over a request that need not move. -/
theorem Inv.tick {d : ℕ} (hs : Inv g attempt delay s)
    (hrests : ∀ r ∈ s.requests, r.rests g.config s (s.now + d) = true) :
    Inv g attempt delay { s with now := s.now + d } := by
  refine ⟨hs.unreachable, fun last hlast => (hs.past last hlast).trans (Nat.le_add_right _ _),
    hs.lock, hs.holder, ?_⟩
  intro r hr
  obtain ⟨hdelay, hfits⟩ := hs.fits r hr
  refine ⟨hdelay, ?_⟩
  have hrest := hrests r hr
  obtain ⟨i, hi⟩ := List.getElem?_of_mem hr
  obtain ⟨v, phase⟩ := r
  cases hfits with
  | ready hleft htime =>
      simp only [Request.rests, Bool.and_eq_true] at hrest
      obtain ⟨⟨hcalls, hheld⟩, -⟩ := hrest
      have hheld : s.writer ≠ none := Option.isSome_iff_ne_none.mp hheld
      have hlock := hs.tickEnd hrests hheld
      cases hleft with
      | get hleft => exact .ready (.get hleft) (WaitsSince.tick htime hlock)
      | store hleft => exact .ready (.store hleft) (StoresIn.tick htime hheld hlock)
      | _ => exact absurd hcalls (by simp [afterMiss])
  | upgrading hawaits =>
      simp only [Request.rests, Bool.and_eq_true] at hrest
      have hheld : s.writer ≠ none := Option.isSome_iff_ne_none.mp hrest.1
      exact .upgrading (hawaits.tick hheld (hs.tickEnd hrests hheld))
  | connecting hawaits =>
      have hheld : s.writer ≠ none := by
        rw [hs.holder i _ _ _ hi rfl]
        simp
      exact .connecting (hawaits.tick hheld (hs.tickEnd hrests hheld))
  | searching hleft hanswers =>
      simp only [Request.rests, Bool.and_eq_true, decide_eq_true_eq] at hrest
      obtain ⟨-, hends, hcalm⟩ := hanswers
      exact .searching hleft ⟨hrest.1, hends, hcalm⟩
  | finished hvalue => exact .finished hvalue

theorem Moves.shares {i fails : ℕ} {v : Visit} {phase phase' : Phase}
    (h : Moves i fails v s phase t phase') : Shares s t := by
  cases h with
  | connect _ hdue => exact ⟨rfl, Or.inl hdue⟩
  | refused => exact ⟨rfl, Or.inr ⟨rfl, Or.inr rfl⟩⟩
  | _ => exact ⟨rfl, Or.inr ⟨rfl, Or.inl rfl⟩⟩

/-- A move leads a request on time to a phase in which it is on time. -/
theorem Moves.fits {i fails : ℕ} {v : Visit} {phase phase' : Phase}
    (h : Moves i fails v s phase t phase') (hattempt : attempt < reconnectMinInterval)
    (hfits : Fits g attempt s v phase) : Fits g attempt t v phase' := by
  have hshares := h.shares
  cases h with
  | ret =>
      obtain ⟨hleft, -⟩ := hfits
      cases hleft with
      | ret hvalue => exact .finished hvalue
  | elapsed ms =>
      obtain ⟨hleft, htime⟩ := hfits
      cases hleft with
      | elapsed hleft => exact .ready (hleft ms) htime
  | record =>
      obtain ⟨hleft, htime⟩ := hfits
      cases hleft with
      | record hleft => exact .ready hleft htime
  | ask =>
      obtain ⟨hleft, htime⟩ := hfits
      cases hleft with
      | ask hleft => exact .searching hleft htime
  | skip hasks hfree =>
      cases hasks with
      | ready hafter =>
          obtain ⟨hleft, htime⟩ := hfits
          exact (awaits_of_left hleft htime hafter).ready hfree
      | upgrading =>
          cases hfits with
          | upgrading hawaits => exact hawaits.ready hfree
  | upgrade hafter =>
      obtain ⟨hleft, htime⟩ := hfits
      exact .upgrading (awaits_of_left hleft htime hafter)
  | connect =>
      cases hfits with
      | upgrading hawaits => exact .connecting (hawaits.shares hattempt hshares)
  | refused =>
      cases hfits with
      | connecting hawaits => exact (hawaits.shares hattempt hshares).ready rfl
  | answered hends =>
      cases hfits with
      | searching hleft hanswers =>
          have hnow := le_antisymm hends hanswers.1
          rw [hnow] at hanswers
          exact .ready hleft (storesIn_of_answersAt hanswers)

/-- A move that is not the beginning or the end of an attempt leaves the lock alone. -/
theorem Moves.lock {i fails : ℕ} {v : Visit} {phase phase' : Phase}
    (h : Moves i fails v s phase t phase') :
    (t = s ∧ ∀ ends rest, phase ≠ .connecting ends rest ∧ phase' ≠ .connecting ends rest)
      ∨ (s.writer = none ∧ t = { s with
          cache := { s.cache with lastAttempt := some s.now }, writer := some i }
        ∧ ∃ rest, phase' = .connecting (s.now + min fails connectTimeout) rest)
      ∨ (t = { s with writer := none } ∧ (∃ ends rest, phase = .connecting ends rest)
        ∧ ∃ rest, phase' = .ready rest) := by
  cases h with
  | connect hfree => exact Or.inr (Or.inl ⟨hfree, rfl, _, rfl⟩)
  | refused => exact Or.inr (Or.inr ⟨rfl, ⟨_, _, rfl⟩, _, rfl⟩)
  | skip hasks => cases hasks <;> exact Or.inl ⟨rfl, by simp⟩
  | _ => exact Or.inl ⟨rfl, by simp⟩

theorem Inv.move {i fails : ℕ} {r : Request} {phase : Phase} (hs : Inv g attempt delay s)
    (hattempt : attempt < reconnectMinInterval) (hfails : min fails connectTimeout ≤ attempt)
    (hr : s.requests[i]? = some r) (h : Moves i fails r.visit s r.phase t phase) :
    Inv g attempt delay { t with requests := s.requests.set i ⟨r.visit, phase⟩ } := by
  have hlt : i < s.requests.length := (List.getElem?_eq_some_iff.mp hr).1
  have hshares : Shares s { t with requests := s.requests.set i ⟨r.visit, phase⟩ } := h.shares
  obtain ⟨hdelay, hfits⟩ := hs.fits r (List.mem_of_getElem? hr)
  have hmoved : ∀ x ∈ s.requests.set i ⟨r.visit, phase⟩, x.visit.delay ≤ delay
      ∧ Fits g attempt { t with requests := s.requests.set i ⟨r.visit, phase⟩ } x.visit
        x.phase := by
    intro x hx
    rcases List.mem_or_eq_of_mem_set hx with hold | rfl
    · exact ⟨(hs.fits x hold).1, (hs.fits x hold).2.shares hattempt hshares⟩
    · exact ⟨hdelay, (h.fits hattempt hfits).shares hattempt ⟨rfl, Or.inr ⟨rfl, Or.inl rfl⟩⟩⟩
  rcases h.lock with ⟨rfl, hneither⟩ | ⟨hfree, rfl, rest, rfl⟩
    | ⟨rfl, ⟨ends, rest, hphase⟩, rest', rfl⟩
  · refine ⟨hs.unreachable, hs.past, ?_, ?_, hmoved⟩
    · intro j hj
      obtain ⟨r', ends, rest, last, hr', hphase, hlast, hends⟩ := hs.lock j hj
      have hne : i ≠ j := by
        rintro rfl
        obtain rfl := Option.some.inj (hr.symm.trans hr')
        exact (hneither ends rest).1 hphase
      exact ⟨r', ends, rest, last, (List.getElem?_set_ne hne).trans hr', hphase, hlast, hends⟩
    · intro j r' ends rest hr' hphase
      by_cases hij : i = j
      · subst hij
        rw [List.getElem?_set_self hlt] at hr'
        exact absurd ((congrArg Request.phase (Option.some.inj hr')).trans hphase)
          (hneither ends rest).2
      · exact hs.holder j r' ends rest ((List.getElem?_set_ne hij).symm.trans hr') hphase
  · refine ⟨hs.unreachable, ?_, ?_, ?_, hmoved⟩
    · intro last hlast
      exact (Option.some.inj hlast).ge
    · intro j hj
      obtain rfl : i = j := Option.some.inj hj
      exact ⟨_, _, rest, s.now, List.getElem?_set_self hlt, rfl, rfl, Nat.add_le_add_left hfails _⟩
    · intro j r' ends rest' hr' hphase
      by_cases hij : i = j
      · exact congrArg some hij
      · have hheld := hs.holder j r' ends rest' ((List.getElem?_set_ne hij).symm.trans hr') hphase
        exact absurd (hfree.symm.trans hheld) (by simp)
  · refine ⟨hs.unreachable, hs.past, fun j hj => absurd hj (by simp), ?_, hmoved⟩
    intro j r' ends' rest'' hr' hphase'
    have hheld := hs.holder i r ends rest hr hphase
    by_cases hij : i = j
    · subst hij
      rw [List.getElem?_set_self hlt] at hr'
      exact absurd ((congrArg Request.phase (Option.some.inj hr')).trans hphase') (by simp)
    · have hheld' := hs.holder j r' ends' rest'' ((List.getElem?_set_ne hij).symm.trans hr') hphase'
      exact absurd (Option.some.inj (hheld.symm.trans hheld')) hij

theorem Inv.arrive {params : SearchParams} {d : ℕ}
    {outcome : Except SearchError (List SearchResult)} (hs : Inv g attempt delay s)
    (hattempt : attempt < reconnectMinInterval) (hdelay : d ≤ delay) :
    Inv g attempt delay { s with
      requests := s.requests
        ++ [⟨⟨s.now, params, d, outcome⟩, .ready (HttpGateway.searchHandler g params)⟩] } := by
  refine ⟨hs.unreachable, hs.past, ?_, ?_, ?_⟩
  · intro i hi
    obtain ⟨r, ends, rest, last, hr, hphase, hlast, hends⟩ := hs.lock i hi
    have hlt := (List.getElem?_eq_some_iff.mp hr).1
    exact ⟨r, ends, rest, last, (List.getElem?_append_left hlt).trans hr, hphase, hlast, hends⟩
  · intro i r ends rest hr hphase
    rcases lt_or_ge i s.requests.length with hlt | hge
    · exact hs.holder i r ends rest ((List.getElem?_append_left hlt).symm.trans hr) hphase
    · dsimp only at hr
      rw [List.getElem?_append_right hge] at hr
      have hmem := List.mem_singleton.mp (List.mem_of_getElem? hr)
      exact absurd ((congrArg Request.phase hmem).symm.trans hphase) (by simp)
  · intro r hr
    rcases List.mem_append.mp hr with hold | hnew
    · exact ⟨(hs.fits r hold).1,
        (hs.fits r hold).2.shares hattempt ⟨rfl, Or.inr ⟨rfl, Or.inl rfl⟩⟩⟩
    · rw [List.mem_singleton.mp hnew]
      exact ⟨hdelay, .ready (left_searchHandler g ⟨s.now, params, d, outcome⟩) (Or.inl rfl)⟩

theorem add_waitFor_mono {d : ℕ} (hle : d ≤ delay) :
    d + waitFor attempt d ≤ delay + waitFor attempt delay := by
  unfold waitFor
  split_ifs <;> omega

/-- **Nobody is cut off.**  Every run that is slow enough for nobody to wait until the
deadline keeps the invariant. -/
theorem Inv.of_reach (hattempt : attempt ≤ connectTimeout)
    (hshort : delay + waitFor attempt delay < searchDeadline g.config)
    (hs : (machine g).Reach (Paced attempt delay) s) : Inv g attempt delay s := by
  have hinterval : attempt < reconnectMinInterval := hattempt.trans_lt (by decide)
  refine hs.invariant (fun s hinit => .init hinit) ?_
  intro s a s' hinv hpaced hnext
  rcases next_cases hnext with ⟨d, -, hrests, rfl⟩ | ⟨params, d, outcome, rfl, rfl⟩
    | ⟨i, fails, r, t, phase, rfl, hr, hmoves, rfl⟩ | ⟨i, r, -, hr, hphase, hdue, -⟩
  · exact hinv.tick hrests
  · exact hinv.arrive hinterval hpaced
  · exact hinv.move hinterval hpaced hr hmoves
  · obtain ⟨hdelay, hfits⟩ := hinv.fits r (List.mem_of_getElem? hr)
    have hnow := hfits.le hphase
    have hmono : r.visit.delay + waitFor attempt r.visit.delay ≤ delay + waitFor attempt delay :=
      add_waitFor_mono hdelay
    omega

/-- Every reply is the one that the request gets without a cache. -/
theorem unobservable_of_lt (hattempt : attempt ≤ connectTimeout)
    (hshort : delay + waitFor attempt delay < searchDeadline g.config) :
    Unobservable g attempt delay := by
  intro s hs r hr reply reply' hphase hnoop toJson
  obtain ⟨hdelay, hfits⟩ := (Inv.of_reach hattempt hshort hs).fits r hr
  rw [hphase] at hfits
  obtain ⟨value', rfl, hvalue'⟩ := noopReply_uncached hnoop (by omega)
  cases hfits with
  | finished hvalue => rw [untimed_of_uncached hvalue hvalue']

/-! ## A request alone -/

/-- A search for "rust" that the engine answers with nothing. -/
def probe (delay : ℕ) : Visit := ⟨0, ⟨some "rust", none, some 0, none⟩, delay, .ok []⟩

def probeRequest : SearchRequest := ⟨"rust", 1, 0, none⟩

/-- A process with one request. -/
def single (now : ℕ) (lastAttempt writer : Option ℕ) (v : Visit) (phase : Phase) : State :=
  ⟨now, ⟨none, lastAttempt⟩, writer, [⟨v, phase⟩]⟩

theorem tryFromParams_probe (g : Gateway) (delay : ℕ) :
    HttpGateway.tryFromParams g.platform (probe delay).params g.config.search.safeSearchDefault
      = .ok probeRequest := by
  refine HttpGateway.tryFromParams_eq_ok.mpr ⟨?_, rfl, rfl, rfl⟩
  show HttpGateway.checkQuery (some "rust") = .ok "rust"
  decide

theorem searchHandler_probe (g : Gateway) (delay : ℕ) :
    HttpGateway.searchHandler g (probe delay).params
      = HttpGateway.searchProgram g probeRequest := by
  unfold HttpGateway.searchHandler
  rw [tryFromParams_probe]

/-- The probe is cut off in some run. -/
def CutsProbe (g : Gateway) (attempt delay : ℕ) : Prop :=
  ∃ s r, (machine g).Reach (Paced attempt delay) s ∧ r ∈ s.requests
    ∧ r.visit = probe delay ∧ r.phase = .finished none

variable {now : ℕ} {lastAttempt writer : Option ℕ} {phase : Phase} {v : Visit}

theorem tick_single {d : ℕ}
    (h : Request.rests g.config (single now lastAttempt writer v phase) (now + d) ⟨v, phase⟩) :
    (machine g).next (single now lastAttempt writer v phase) (.tick d)
      = some (single (now + d) lastAttempt writer v phase) := by
  refine if_pos ?_
  rw [single, List.all_cons, List.all_nil, Bool.and_true]
  exact h

/-- The phases in which a request waits for a moment that is known. -/
inductive Busy (ends : ℕ) : Phase → Prop
  | connecting {rest : Handler} : Busy ends (.connecting ends rest)
  | searching {k : Except SearchError (List SearchResult) → Handler} :
      Busy ends (.searching ends k)

/-- Time may pass up to the end of a wait, and up to the deadline. -/
theorem reach_tick {ends t : ℕ}
    (hs : (machine g).Reach (Paced attempt delay) (single now lastAttempt writer v phase))
    (hbusy : Busy ends phase) (hnow : now ≤ t) (hends : t ≤ ends)
    (hdue : t ≤ v.arrived + searchDeadline g.config) :
    (machine g).Reach (Paced attempt delay) (single t lastAttempt writer v phase) := by
  obtain ⟨d, rfl⟩ := Nat.exists_eq_add_of_le hnow
  refine hs.step (a := Label.tick d) trivial (tick_single ?_)
  cases hbusy <;> simp [Request.rests, hends, hdue]

/-- A wait that is not over at the deadline is cut off. -/
theorem cutsProbe_of_busy {ends : ℕ}
    (hs : (machine g).Reach (Paced attempt delay)
      (single now lastAttempt writer (probe delay) phase))
    (hbusy : Busy ends phase) (hnow : now ≤ searchDeadline g.config)
    (hends : searchDeadline g.config ≤ ends) : CutsProbe g attempt delay := by
  have hdue : (probe delay).arrived + searchDeadline g.config = searchDeadline g.config :=
    Nat.zero_add _
  have hwaited := reach_tick hs hbusy hnow hends hdue.ge
  have hphase : phase.isFinished = false := by
    cases hbusy <;> rfl
  have hcut : (machine g).next
      (single (searchDeadline g.config) lastAttempt writer (probe delay) phase) (.cut 0)
      = some { single (searchDeadline g.config) lastAttempt writer (probe delay)
          (.finished none) with writer := if writer = some 0 then none else writer } :=
    if_pos ⟨by simp [hphase], hdue.le⟩
  exact ⟨_, _, hwaited.step (a := Label.cut 0) trivial hcut, List.mem_singleton_self _, rfl, rfl⟩

/-- What remains of the probe when the engine has answered. -/
def engineAnswered (g : Gateway) : Except SearchError (List SearchResult) → Handler
  | .ok results => HttpGateway.finishSearch g probeRequest results
  | .error e =>
      .call (I := GatewayI) (.record (HttpGateway.metricOf e)) fun _ =>
        match HttpGateway.mapSearchError e with
        | some appErr => .ret (.error appErr)
        | none => HttpGateway.finishSearch g probeRequest []

/-- The probe in front of the engine. -/
def asking (g : Gateway) : Handler :=
  .call (I := GatewayI) (.engineSearch "rust" 1 none 0) (engineAnswered g)

theorem afterMiss_searchProgram (g : Gateway) :
    afterMiss (HttpGateway.searchProgram g probeRequest) = some (asking g) := by
  unfold HttpGateway.searchProgram asking
  show some (Prog.call _ _) = some _
  congr 2
  funext result
  cases result <;> rfl

/-- The first attempt begins at once. -/
theorem reach_connecting (hattempt : attempt ≤ connectTimeout) :
    (machine g).Reach (Paced attempt delay)
      (single 0 (some 0) (some 0) (probe delay) (.connecting attempt (asking g))) := by
  have hinit : (machine g).init ⟨0, ⟨none, none⟩, none, []⟩ := ⟨rfl, rfl, rfl⟩
  have harrive : (machine g).next ⟨0, ⟨none, none⟩, none, []⟩
      (.arrive (probe delay).params delay (.ok []))
      = some (single 0 none none (probe delay)
          (.ready (HttpGateway.searchProgram g probeRequest))) := by
    rw [← searchHandler_probe g delay]
    rfl
  have hupgrade : (machine g).next
      (single 0 none none (probe delay) (.ready (HttpGateway.searchProgram g probeRequest)))
      (.move 0 0) = some (single 0 none none (probe delay) (.upgrading (asking g))) := by
    rw [← Option.some.inj (afterMiss_searchProgram g)]
    rfl
  have hconnect : (machine g).next (single 0 none none (probe delay) (.upgrading (asking g)))
      (.move 0 attempt)
      = some (single 0 (some 0) (some 0) (probe delay) (.connecting attempt (asking g))) := by
    show some (single 0 (some 0) (some 0) (probe delay)
      (.connecting (0 + min attempt connectTimeout) (asking g))) = _
    rw [Nat.min_eq_left hattempt, Nat.zero_add]
  have hempty : (machine g).Reach (Paced attempt delay) ⟨0, ⟨none, none⟩, none, []⟩ := .init hinit
  have hready := hempty.step le_rfl harrive
  have hwaits := hready.step (a := Label.move 0 0) (Nat.zero_le attempt) hupgrade
  exact hwaits.step (a := Label.move 0 attempt) (Nat.min_le_left attempt connectTimeout) hconnect

/-- The first attempt is over, and the engine is asked. -/
theorem reach_searching (hattempt : attempt ≤ connectTimeout)
    (hlong : attempt ≤ searchDeadline g.config) :
    (machine g).Reach (Paced attempt delay)
      (single attempt (some 0) none (probe delay)
        (.searching (attempt + delay) (engineAnswered g))) := by
  have hdue : attempt ≤ (probe delay).arrived + searchDeadline g.config :=
    hlong.trans (Nat.zero_add _).ge
  have hrefused : (machine g).next
      (single attempt (some 0) (some 0) (probe delay) (.connecting attempt (asking g)))
      (.move 0 0)
      = some (single attempt (some 0) none (probe delay) (.ready (asking g))) := by
    simp [machine, single, advance]
  have hask : (machine g).next
      (single attempt (some 0) none (probe delay) (.ready (asking g))) (.move 0 0)
      = some (single attempt (some 0) none (probe delay)
          (.searching (attempt + delay) (engineAnswered g))) := rfl
  have hconnecting : (machine g).Reach (Paced attempt delay)
      (single 0 (some 0) (some 0) (probe delay) (.connecting attempt (asking g))) :=
    reach_connecting hattempt
  have hwaited := reach_tick hconnecting .connecting (Nat.zero_le _) le_rfl hdue
  have hready := hwaited.step (a := Label.move 0 0) (Nat.zero_le attempt) hrefused
  exact hready.step (a := Label.move 0 0) (Nat.zero_le attempt) hask

/-- With nothing in the throttle's way, a handler in front of a store begins an attempt. -/
theorem reach_second {key : String} {bytes : List UInt8} {ttlSeconds : UInt64} {k : Unit → Handler}
    {lastAttempt : Option ℕ} (hattempt : attempt ≤ connectTimeout)
    (hs : (machine g).Reach (Paced attempt delay)
      (single now lastAttempt none v
        (.ready (.call (I := GatewayI) (.cacheSet key bytes ttlSeconds) k))))
    (hdue : LazyState.look ⟨none, lastAttempt⟩ now = .due) :
    (machine g).Reach (Paced attempt delay)
      (single now (some now) (some 0) v (.connecting (now + attempt) (k ()))) := by
  have hupgrade : (machine g).next
      (single now lastAttempt none v
        (.ready (.call (I := GatewayI) (.cacheSet key bytes ttlSeconds) k))) (.move 0 0)
      = some (single now lastAttempt none v (.upgrading (k ()))) := by
    simp [machine, single, advance, read, hdue]
  have hconnect : (machine g).next (single now lastAttempt none v (.upgrading (k ())))
      (.move 0 attempt)
      = some (single now (some now) (some 0) v (.connecting (now + attempt) (k ()))) := by
    simp [machine, single, advance, write, hdue, Nat.min_eq_left hattempt]
  have hwaits := hs.step (a := Label.move 0 0) (Nat.zero_le attempt) hupgrade
  exact hwaits.step (a := Label.move 0 attempt) (Nat.min_le_left attempt connectTimeout) hconnect

/-- The engine has answered, and the response is stored. -/
theorem reach_storing (hattempt : attempt ≤ connectTimeout)
    (hlong : attempt + delay ≤ searchDeadline g.config)
    (hinterval : reconnectMinInterval ≤ delay + attempt)
    (hvec : ∀ ms, g.searchCodec.toVec (Codec.emptyPage ms) ≠ none) : ∃ rest,
    (machine g).Reach (Paced attempt delay)
      (single (attempt + delay) (some (attempt + delay)) (some 0) (probe delay)
        (.connecting (attempt + delay + attempt) rest)) := by
  have hdue : attempt + delay ≤ (probe delay).arrived + searchDeadline g.config :=
    hlong.trans (Nat.zero_add _).ge
  have hanswered : (machine g).next
      (single (attempt + delay) (some 0) none (probe delay)
        (.searching (attempt + delay) (engineAnswered g))) (.move 0 0)
      = some (single (attempt + delay) (some 0) none (probe delay)
          (.ready (HttpGateway.finishSearch g probeRequest []))) := by
    simp [machine, single, advance, engineAnswered, probe]
  have hsearching : (machine g).Reach (Paced attempt delay)
      (single attempt (some 0) none (probe delay)
        (.searching (attempt + delay) (engineAnswered g))) :=
    reach_searching hattempt (by omega)
  have hwaited := reach_tick hsearching .searching (Nat.le_add_right _ _) le_rfl hdue
  have hfinish := hwaited.step (a := Label.move 0 0) (Nat.zero_le attempt) hanswered
  have hrecord := hfinish.step (a := Label.move 0 0) (Nat.zero_le attempt) rfl
  let page := Codec.emptyPage (UInt64.ofNat (attempt + delay - (probe delay).arrived))
  obtain ⟨bytes, hbytes⟩ : ∃ bytes, g.searchCodec.toVec page = some bytes :=
    Option.ne_none_iff_exists'.mp (hvec _)
  have hstore : (machine g).Reach (Paced attempt delay)
      (single (attempt + delay) (some 0) none (probe delay)
        (.ready ((g.searchCodec.storeAndReturn (Search.cacheKey g.hash probeRequest)
          g.config.cache.ttlSeconds page).bind fun response => .ret (.ok response)))) := by
    have hpage : Search.finalizeResults g.platform [] probeRequest
        g.config.search.maxResultsPerPage
        (UInt64.ofNat (attempt + delay - (probe delay).arrived)) = page := by
      rw [Search.finalizeResults, probeRequest, Search.applySafeSearchFilter]
      simp [page, Codec.emptyPage]
    rw [← hpage]
    exact hrecord.step (a := Label.move 0 0) (Nat.zero_le attempt) rfl
  have hset : (g.searchCodec.storeAndReturn (Search.cacheKey g.hash probeRequest)
      g.config.cache.ttlSeconds page).bind (fun response => (.ret (.ok response) : Handler))
      = .call (I := GatewayI)
          (.cacheSet (Search.cacheKey g.hash probeRequest) bytes g.config.cache.ttlSeconds)
          fun _ => .ret (.ok page) := by
    unfold Codec.storeAndReturn
    rw [hbytes]
    rfl
  rw [hset] at hstore
  refine ⟨_, reach_second hattempt hstore ?_⟩
  have hlate : ¬ attempt + delay - 0 < reconnectMinInterval := by omega
  simp only [LazyState.look, if_neg hlate]

/-! ## When the difference shows -/

/-- When the waits reach the deadline, the probe is cut off. -/
theorem cutsProbe_of_le (hattempt : attempt ≤ connectTimeout)
    (hvec : ∀ ms, g.searchCodec.toVec (Codec.emptyPage ms) ≠ none)
    (hlong : searchDeadline g.config ≤ delay + waitFor attempt delay) :
    CutsProbe g attempt delay := by
  by_cases hfirst : searchDeadline g.config ≤ attempt
  · exact cutsProbe_of_busy (reach_connecting hattempt) .connecting (Nat.zero_le _) hfirst
  by_cases hengine : searchDeadline g.config ≤ attempt + delay
  · exact cutsProbe_of_busy (reach_searching hattempt (by omega)) .searching (by omega) hengine
  have hinterval : reconnectMinInterval ≤ delay + attempt := by
    by_contra hshort
    rw [waitFor, if_pos (by omega)] at hlong
    omega
  rw [waitFor, if_neg (by omega)] at hlong
  obtain ⟨rest, hstoring⟩ := reach_storing hattempt (by omega) hinterval hvec
  exact cutsProbe_of_busy hstoring .connecting (by omega) (by omega)

/-- The reply of the search route when it gives up differs from a page of results. -/
theorem not_sameResponse (response : SearchResponse) :
    ¬ SameResponse none (some (.ok response)) := by
  intro h
  have hstatus := congrArg HttpResponse.status (h fun _ => "")
  have hok : respond (fun _ => "") (untimed (some (.ok response)))
      = HttpGateway.successResponse "" := by
    show HttpGateway.convertTimeoutResponse (HttpGateway.successResponse "") = _
    exact HttpGateway.convertTimeoutResponse_of_ne (by decide)
  rw [hok] at hstatus
  exact absurd hstatus (by decide)

theorem answer_probe (g : Gateway) (delay : ℕ) (ms : UInt64) :
    (probe delay).answer g ms = .ok (Search.finalizeResults g.platform [] probeRequest
      g.config.search.maxResultsPerPage ms) := by
  unfold Visit.answer
  rw [tryFromParams_probe]
  rfl

/-- Without a cache the probe gets its page. -/
theorem noopReply_probe (hdelay : delay ≤ searchDeadline g.config) : ∃ response,
    NoopReply g (probe delay) (some (.ok response)) := by
  obtain ⟨⟨ms, hvalue⟩, -⟩ := (left_searchHandler g (probe delay)).noop 0 0
  rw [answer_probe] at hvalue
  have htime := (noopWork_time_le g (probe delay) 0).trans (Nat.cast_le.mpr hdelay)
  exact ⟨_, 0, _, .finished htime, congrArg some hvalue.symm⟩

theorem not_unobservable_of_cutsProbe (hdelay : delay ≤ searchDeadline g.config)
    (h : CutsProbe g attempt delay) : ¬ Unobservable g attempt delay := by
  intro hsame
  obtain ⟨s, r, hs, hr, hvisit, hphase⟩ := h
  obtain ⟨response, hnoop⟩ := noopReply_probe hdelay
  exact not_sameResponse response (hsame s hs r hr none _ hphase (hvisit ▸ hnoop))

/-- **An unreachable Redis is like no cache exactly when nobody can wait until the
deadline.**  Let every attempt fail within `attempt`, the time of the whole call with the
retries that the client makes inside it, which `connectTimeout` bounds, and let the engine
answer within `delay`.  Then no response in any run differs from one without a cache if and
only if the time of the engine and the longest wait for attempts stay below the deadline. -/
theorem unobservable_iff (hattempt : attempt ≤ connectTimeout)
    (hdelay : delay ≤ searchDeadline g.config)
    (hvec : ∀ ms, g.searchCodec.toVec (Codec.emptyPage ms) ≠ none) :
    Unobservable g attempt delay ↔ delay + waitFor attempt delay < searchDeadline g.config := by
  constructor
  · intro hsame
    by_contra hlong
    exact not_unobservable_of_cutsProbe hdelay
      (cutsProbe_of_le hattempt hvec (not_lt.mp hlong)) hsame
  · exact unobservable_of_lt hattempt

/-- A process whose searches may take 20 seconds. -/
def patientGateway : Gateway :=
  { CacheSoundness.serdeGateway with
    config :=
      { Config.default with search := { Config.default.search with defaultTimeoutMs := 20000 } } }

/-- Two attempts of five seconds and an engine that takes six do not show within 20. -/
theorem unobservable_patient : Unobservable patientGateway 5000 6000 := by
  refine (unobservable_iff ?_ ?_ ?_).mpr ?_
  · decide
  · decide
  · intro ms
    exact Option.some_ne_none _
  · decide

/-- With the default deadline of 4 seconds a server that never answers shows, however fast
the engine is. -/
theorem observable_default : ¬ ∀ (g : Gateway) (attempt delay : ℕ),
    g.config.Valid g.platform → attempt ≤ connectTimeout → delay ≤ searchDeadline g.config →
    Unobservable g attempt delay := by
  intro h
  have hsame := h CacheSoundness.serdeGateway connectTimeout 0 (Config.default_valid rfl) le_rfl
    (Nat.zero_le _)
  have hcut : CutsProbe CacheSoundness.serdeGateway connectTimeout 0 :=
    cutsProbe_of_busy (reach_connecting le_rfl) .connecting (Nat.zero_le _) (by decide)
  exact not_unobservable_of_cutsProbe (Nat.zero_le _) hcut hsame

end UnreachableRedis
