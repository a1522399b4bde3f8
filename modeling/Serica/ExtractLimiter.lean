/-
# The extract limiter

The life of `run_extract` calls under the limiter.  A call waits for a permit,
fetches, hands the parse to the blocking pool and waits for it; the permit is a local
of the span under the timeout, so it is given back when the span ends and also when
the span is dropped, by its own timeout or with the whole request.  A closure handed
to the blocking pool is not dropped with the call: it starts when the pool has room,
and runs to its end.

The machine has a label for the arrival of a call and one for every move of a call.
`Moves` lists what a move can do, once, and the invariants are read off it.

* `inProgress_le`: when no call is dropped while its closure is queued or running, at
  most `max_concurrent_extracts` extractions are in progress.
* `inProgress_exceeds`: otherwise the bound can be exceeded.
* `permits_return`: no drop of a call ever costs a permit for good.
-/
import Serica.Config
import Serica.Progress

namespace ExtractLimiter

/-! ## States and steps -/

/-- Where a call stands; `done` covers every way in which its span can end. -/
inductive Stage
  | waiting
  | fetching
  | parsing
  | done
deriving DecidableEq, Repr

/-- The closure that a call hands to the blocking pool. -/
inductive Closure
  | absent
  | queued
  | running
  | finished
deriving DecidableEq, Repr

structure Call where
  stage : Stage
  closure : Closure
deriving DecidableEq, Repr

/-- The free permits and the calls that have arrived. -/
structure State where
  permits : ℕ
  calls : List Call
deriving DecidableEq, Repr

inductive Move
  /-- The permit is acquired and the fetch begins. -/
  | acquire
  /-- The fetch, a check of the response or the read of its body fails. -/
  | fetchFailed
  /-- The body is there, and `spawn_blocking` is called. -/
  | fetched
  /-- The blocking pool starts the closure. -/
  | start
  /-- The closure returns, or panics. -/
  | finish
  /-- The call learns the outcome of its closure. -/
  | join
  /-- The span is dropped at the await where it stands. -/
  | cancel
deriving DecidableEq, Repr

inductive Label
  | arrive
  | move (i : ℕ) (m : Move)
deriving DecidableEq, Repr

/-- One move of a call, with the permits that it leaves. -/
def advance (permits : ℕ) (c : Call) : Move → Option (ℕ × Call)
  | .acquire =>
      if c.stage = .waiting ∧ 0 < permits then some (permits - 1, { c with stage := .fetching })
      else none
  | .fetchFailed =>
      if c.stage = .fetching then some (permits + 1, { c with stage := .done }) else none
  | .fetched =>
      if c.stage = .fetching then some (permits, ⟨.parsing, .queued⟩) else none
  | .start =>
      if c.closure = .queued then some (permits, { c with closure := .running }) else none
  | .finish =>
      if c.closure = .running then some (permits, { c with closure := .finished }) else none
  | .join =>
      if c.stage = .parsing ∧ c.closure = .finished then
        some (permits + 1, { c with stage := .done })
      else none
  | .cancel =>
      match c.stage with
      | .waiting => some (permits, { c with stage := .done })
      | .fetching => some (permits + 1, { c with stage := .done })
      | .parsing => some (permits + 1, { c with stage := .done })
      | .done => none

/-- The calls of one process; `ExtractLimiter::new` gives it its permits. -/
def machine (config : Config) : Machine State Label where
  init s := s = ⟨config.server.maxConcurrentExtracts, []⟩
  next s
    | .arrive => some { s with calls := s.calls ++ [⟨.waiting, .absent⟩] }
    | .move i m =>
        match s.calls[i]? with
        | none => none
        | some c => (advance s.permits c m).map fun p => ⟨p.1, s.calls.set i p.2⟩

/-- Everything that a move can do. -/
inductive Moves : ℕ → Call → Move → ℕ → Call → Prop
  | acquire {n : ℕ} {closure : Closure} :
      Moves (n + 1) ⟨.waiting, closure⟩ .acquire n ⟨.fetching, closure⟩
  | fetchFailed {n : ℕ} {closure : Closure} :
      Moves n ⟨.fetching, closure⟩ .fetchFailed (n + 1) ⟨.done, closure⟩
  | fetched {n : ℕ} {closure : Closure} :
      Moves n ⟨.fetching, closure⟩ .fetched n ⟨.parsing, .queued⟩
  | start {n : ℕ} {stage : Stage} : Moves n ⟨stage, .queued⟩ .start n ⟨stage, .running⟩
  | finish {n : ℕ} {stage : Stage} : Moves n ⟨stage, .running⟩ .finish n ⟨stage, .finished⟩
  | join {n : ℕ} : Moves n ⟨.parsing, .finished⟩ .join (n + 1) ⟨.done, .finished⟩
  | cancelWaiting {n : ℕ} {closure : Closure} :
      Moves n ⟨.waiting, closure⟩ .cancel n ⟨.done, closure⟩
  | cancelFetching {n : ℕ} {closure : Closure} :
      Moves n ⟨.fetching, closure⟩ .cancel (n + 1) ⟨.done, closure⟩
  | cancelParsing {n : ℕ} {closure : Closure} :
      Moves n ⟨.parsing, closure⟩ .cancel (n + 1) ⟨.done, closure⟩

/-- `advance` makes no other moves. -/
theorem moves_of_advance {n n' : ℕ} {c c' : Call} {m : Move}
    (h : advance n c m = some (n', c')) : Moves n c m n' c' := by
  obtain ⟨stage, closure⟩ := c
  cases m with
  | acquire =>
      simp only [advance] at h
      split_ifs at h with hguard
      obtain ⟨rfl, rfl⟩ := Prod.mk.inj (Option.some.inj h)
      obtain ⟨rfl, hpos⟩ := hguard
      rw [← Nat.sub_add_cancel hpos]
      exact .acquire
  | fetchFailed =>
      simp only [advance] at h
      split_ifs at h with hguard
      obtain ⟨rfl, rfl⟩ := Prod.mk.inj (Option.some.inj h)
      subst hguard
      exact .fetchFailed
  | fetched =>
      simp only [advance] at h
      split_ifs at h with hguard
      obtain ⟨rfl, rfl⟩ := Prod.mk.inj (Option.some.inj h)
      subst hguard
      exact .fetched
  | start =>
      simp only [advance] at h
      split_ifs at h with hguard
      obtain ⟨rfl, rfl⟩ := Prod.mk.inj (Option.some.inj h)
      subst hguard
      exact .start
  | finish =>
      simp only [advance] at h
      split_ifs at h with hguard
      obtain ⟨rfl, rfl⟩ := Prod.mk.inj (Option.some.inj h)
      subst hguard
      exact .finish
  | join =>
      simp only [advance] at h
      split_ifs at h with hguard
      obtain ⟨rfl, rfl⟩ := Prod.mk.inj (Option.some.inj h)
      obtain ⟨rfl, rfl⟩ := hguard
      exact .join
  | cancel =>
      cases stage with
      | waiting =>
          obtain ⟨rfl, rfl⟩ := Prod.mk.inj (Option.some.inj h)
          exact .cancelWaiting
      | fetching =>
          obtain ⟨rfl, rfl⟩ := Prod.mk.inj (Option.some.inj h)
          exact .cancelFetching
      | parsing =>
          obtain ⟨rfl, rfl⟩ := Prod.mk.inj (Option.some.inj h)
          exact .cancelParsing
      | done => exact absurd h (by simp [advance])

/-- A step is an arrival or a move of one call. -/
theorem next_cases {config : Config} {s s' : State} {a : Label}
    (h : (machine config).next s a = some s') :
    (a = .arrive ∧ s' = { s with calls := s.calls ++ [⟨.waiting, .absent⟩] })
      ∨ ∃ i m c n c', a = .move i m ∧ s.calls[i]? = some c ∧ Moves s.permits c m n c'
        ∧ s' = ⟨n, s.calls.set i c'⟩ := by
  cases a with
  | arrive => exact Or.inl ⟨rfl, (Option.some.inj h).symm⟩
  | move i m =>
      simp only [machine] at h
      split at h
      · exact absurd h (by simp)
      · rename_i c hc
        obtain ⟨⟨n, c'⟩, hadvance, rfl⟩ := Option.map_eq_some_iff.mp h
        exact Or.inr ⟨i, m, c, n, c', rfl, hc, moves_of_advance hadvance, rfl⟩

/-- A call whose fetch or parse is in progress. -/
def Call.inProgress (c : Call) : Bool := c.stage = .fetching || c.closure = .running

/-- A call that holds a permit. -/
def Call.holdsPermit (c : Call) : Bool := c.stage = .fetching || c.stage = .parsing

/-- The number of extractions in progress. -/
def inProgress (s : State) : ℕ := s.calls.countP Call.inProgress

/-! ## Permits are conserved -/

/-- A move takes what it gives to a call from the free permits. -/
theorem Moves.permits {n n' : ℕ} {c c' : Call} {m : Move} (h : Moves n c m n' c') :
    n' + (if c'.holdsPermit then 1 else 0) = n + (if c.holdsPermit then 1 else 0) := by
  cases h <;> rfl

variable {config : Config}

/-- **Permits are conserved**: the free ones and those held make up the limit, in every
run. -/
theorem permits_conserved {s : State} (hs : (machine config).Reach Machine.anyStep s) :
    s.permits + s.calls.countP Call.holdsPermit = config.server.maxConcurrentExtracts := by
  refine hs.invariant
    (P := fun s => s.permits + s.calls.countP Call.holdsPermit
      = config.server.maxConcurrentExtracts) ?_ ?_
  · rintro s rfl
    rfl
  · intro s a s' hinv _ hstep
    rcases next_cases hstep with ⟨-, rfl⟩ | ⟨i, m, c, n, c', -, hc, hmoves, rfl⟩
    · rw [List.countP_append]
      exact hinv
    · obtain ⟨hlt, hget⟩ := List.getElem?_eq_some_iff.mp hc
      have hmove := hmoves.permits
      -- The call that moves is counted among the holders, so the difference is exact.
      have hle : (if c.holdsPermit then 1 else 0) ≤ s.calls.countP Call.holdsPermit := by
        split_ifs with hp
        · exact List.countP_pos_iff.mpr ⟨c, List.mem_of_getElem? hc, hp⟩
        · exact Nat.zero_le _
      simp only [List.countP_set hlt, hget]
      omega

/-! ## The bound -/

/-- A call is dropped only while its closure is neither queued nor running. -/
def cancelWhenIdle (s : State) (a : Label) : Prop :=
  ∀ i c, a = .move i .cancel → s.calls[i]? = some c → c.closure ≠ .queued ∧ c.closure ≠ .running

/-- A call with a closure in the pool is still waiting for it. -/
def Call.Attached (c : Call) : Prop :=
  c.closure = .queued ∨ c.closure = .running → c.stage = .parsing

/-- A move keeps a call attached unless it cancels one with a closure to run. -/
theorem Moves.attached {n n' : ℕ} {c c' : Call} {m : Move} (h : Moves n c m n' c')
    (hc : c.Attached) (hcancel : m = .cancel → c.closure ≠ .queued ∧ c.closure ≠ .running) :
    c'.Attached := by
  intro hpool
  -- A closure in the pool means that the call is parsing, so it moves only by a join,
  -- which needs a finished closure, or by a drop, which is ruled out.
  cases h with
  | acquire => exact absurd (hc hpool) (by simp)
  | fetchFailed => exact absurd (hc hpool) (by simp)
  | fetched => rfl
  | start => exact hc (Or.inl rfl)
  | finish => exact absurd hpool (by simp)
  | join => exact absurd hpool (by decide)
  | cancelWaiting => exact absurd (hc hpool) (by simp)
  | cancelFetching => exact absurd (hc hpool) (by simp)
  | cancelParsing =>
      obtain ⟨hqueued, hrunning⟩ := hcancel rfl
      exact absurd hpool (not_or.mpr ⟨hqueued, hrunning⟩)

/-- In every state reached under the condition all calls are attached. -/
theorem attached_of_reach {s : State} (hs : (machine config).Reach cancelWhenIdle s) :
    ∀ c ∈ s.calls, c.Attached := by
  refine hs.invariant (P := fun s => ∀ c ∈ s.calls, c.Attached) ?_ ?_
  · rintro s rfl c hc
    exact absurd hc (by simp)
  · intro s a s' hinv hok hstep c' hc'
    rcases next_cases hstep with ⟨-, rfl⟩ | ⟨i, m, c, n, moved, rfl, hc, hmoves, rfl⟩
    · rcases List.mem_append.mp hc' with hold | hnew
      · exact hinv c' hold
      · rw [List.mem_singleton.mp hnew]
        intro hpool
        exact absurd hpool (by decide)
    · rcases List.mem_or_eq_of_mem_set hc' with hold | rfl
      · exact hinv c' hold
      · apply hmoves.attached (hinv c (List.mem_of_getElem? hc))
        rintro rfl
        exact hok i c rfl hc

/-- **The limit bounds the work when no closure is orphaned.**  In every run in which
no call is dropped while its closure is queued or running, the number of extractions
whose fetch or parse is in progress never exceeds the configured limit. -/
theorem inProgress_le {s : State} (hs : (machine config).Reach cancelWhenIdle s) :
    inProgress s ≤ config.server.maxConcurrentExtracts := by
  have hattached := attached_of_reach hs
  have hpermits := permits_conserved hs.anyStep
  have hle : inProgress s ≤ s.calls.countP Call.holdsPermit := by
    refine List.countP_mono_left ?_
    intro c hc hprogress
    simp only [Call.inProgress, Call.holdsPermit, Bool.or_eq_true, decide_eq_true_eq]
      at hprogress ⊢
    rcases hprogress with hfetching | hrunning
    · exact Or.inl hfetching
    · exact Or.inr (hattached c hc (Or.inr hrunning))
  omega

/-- The two calls that the default limit admits, one that was dropped in front of the limiter,
and one that still waits there. -/
def atLimit : State :=
  ⟨0, [⟨.parsing, .running⟩, ⟨.fetching, .absent⟩, ⟨.done, .absent⟩, ⟨.waiting, .absent⟩]⟩

theorem reach_atLimit : (machine Config.default).Reach cancelWhenIdle atLimit := by
  have hinit : (machine Config.default).init ⟨2, []⟩ := rfl
  have hkept : ∀ s a, (∀ i, a ≠ .move i .cancel) → cancelWhenIdle s a :=
    fun _ _ hne i _ h => absurd h (hne i)
  refine (Machine.Reach.init hinit).of_run
    (l := [.arrive, .arrive, .arrive, .move 0 .acquire, .move 1 .acquire, .move 2 .cancel,
      .arrive, .move 0 .fetched, .move 0 .start]) ?_ rfl
  refine .cons (hkept _ _ (by simp)) rfl (.cons (hkept _ _ (by simp)) rfl ?_)
  refine .cons (hkept _ _ (by simp)) rfl (.cons (hkept _ _ (by simp)) rfl ?_)
  refine .cons (hkept _ _ (by simp)) rfl (.cons ?_ rfl ?_)
  · -- The third call is dropped before it has a closure.
    intro i c h hc
    obtain ⟨rfl, -⟩ := Label.move.inj h
    obtain rfl := Option.some.inj hc
    decide
  refine .cons (hkept _ _ (by simp)) rfl (.cons (hkept _ _ (by simp)) rfl ?_)
  exact .cons (hkept _ _ (by simp)) rfl (.nil _)

theorem inProgress_le_atLimit :
    inProgress atLimit = 2 ∧ inProgress atLimit ≤ Config.default.server.maxConcurrentExtracts :=
  ⟨rfl, inProgress_le reach_atLimit⟩

/-- One permit, one call whose span is dropped while its closure runs: the next call
fetches while the closure of the first is still parsing. -/
theorem inProgress_exceeds :
    ∃ config s, config.server.maxConcurrentExtracts = 1
      ∧ (machine config).Reach Machine.anyStep s ∧ inProgress s = 2 := by
  let config : Config :=
    { Config.default with server := { Config.default.server with maxConcurrentExtracts := 1 } }
  have hinit : (machine config).init ⟨1, []⟩ := rfl
  refine ⟨config, ⟨0, [⟨.done, .running⟩, ⟨.fetching, .absent⟩]⟩, rfl, ?_, rfl⟩
  exact (Machine.Reach.init hinit).of_run (Machine.runOk_anyStep _
    [.arrive, .move 0 .acquire, .move 0 .fetched, .move 0 .start, .move 0 .cancel, .arrive,
      .move 1 .acquire]) rfl

/-! ## Permits come back -/

/-- How far the closure of a call may be, given the stage of the call. -/
def Call.Ordered (c : Call) : Prop :=
  match c.stage with
  | .waiting => c.closure = .absent
  | .fetching => c.closure = .absent
  | .parsing => c.closure ≠ .absent
  | .done => True

/-- Every move keeps a call in order. -/
theorem Moves.ordered {n n' : ℕ} {c c' : Call} {m : Move} (h : Moves n c m n' c')
    (hc : c.Ordered) : c'.Ordered := by
  cases h with
  | acquire => exact hc
  | fetched => exact fun hclosure => Closure.noConfusion hclosure
  | @start _ stage => cases stage <;> first | trivial | simp [Call.Ordered] at hc ⊢
  | @finish _ stage => cases stage <;> first | trivial | simp [Call.Ordered] at hc ⊢
  | _ => trivial

theorem ordered_of_next {s t : State} {a : Label} (h : ∀ c ∈ s.calls, c.Ordered)
    (hnext : (machine config).next s a = some t) : ∀ c ∈ t.calls, c.Ordered := by
  intro c' hc'
  rcases next_cases hnext with ⟨-, rfl⟩ | ⟨i, m, c, n, moved, -, hc, hmoves, rfl⟩
  · rcases List.mem_append.mp hc' with hold | hnew
    · exact h c' hold
    · rw [List.mem_singleton.mp hnew]
      exact rfl
  · rcases List.mem_or_eq_of_mem_set hc' with hold | rfl
    · exact h c' hold
    · exact hmoves.ordered (h c (List.mem_of_getElem? hc))

/-- In every state reached all calls are in order. -/
theorem ordered_of_reach {s : State} (hs : (machine config).Reach Machine.anyStep s) :
    ∀ c ∈ s.calls, c.Ordered := by
  refine hs.invariant (P := fun s => ∀ c ∈ s.calls, c.Ordered) ?_
    fun s a t h _ hnext => ordered_of_next h hnext
  rintro s rfl c hc
  exact absurd hc (by simp)

/-- The moves that a call and its closure have before them, at most. -/
def Call.work (c : Call) : ℕ :=
  (match c.stage with
    | .waiting => 5
    | .fetching => 4
    | .parsing => 1
    | .done => 0)
  + match c.closure with
    | .queued => 2
    | .running => 1
    | _ => 0

/-- A call has at most five moves to make. -/
theorem Call.Ordered.work_le {c : Call} (h : c.Ordered) : c.work ≤ 5 := by
  obtain ⟨stage, closure⟩ := c
  cases stage with
  | waiting =>
      obtain rfl : closure = .absent := h
      decide
  | fetching =>
      obtain rfl : closure = .absent := h
      decide
  | parsing => cases closure <;> decide
  | done => cases closure <;> decide

/-- Every move leaves one less. -/
theorem Moves.work {n n' : ℕ} {c c' : Call} {m : Move} (h : Moves n c m n' c')
    (hc : c.Ordered) : c'.work < c.work := by
  cases h with
  | fetched =>
      rw [Call.Ordered] at hc
      subst hc
      decide
  | start => exact Nat.lt_succ_self _
  | finish => exact Nat.lt_succ_self _
  | join => decide
  | _ => simp [Call.work]

/-- No further call arrives; those that are there may be dropped. -/
def noArrival (_ : State) (a : Label) : Prop := a ≠ .arrive

/-- No further call arrives, and none is dropped. -/
def undisturbed (_ : State) (a : Label) : Prop := a ≠ .arrive ∧ ∀ i, a ≠ .move i .cancel

/-- The moves left of all calls are a measure of the runs without new ones. -/
theorem ranked (config : Config) : (machine config).Ranked noArrival
    (fun s => ∀ c ∈ s.calls, c.Ordered) fun s => (s.calls.map Call.work).sum := by
  refine ⟨fun s a t h _ hnext => ordered_of_next h hnext, fun s a t h hok hnext => ?_⟩
  rcases next_cases hnext with ⟨rfl, -⟩ | ⟨i, m, c, n, moved, -, hc, hmoves, rfl⟩
  · exact absurd rfl hok
  · exact Machine.sum_map_set_lt _ hc (hmoves.work (h c (List.mem_of_getElem? hc)))

/-- A move of a call that is not dropped is a step. -/
theorem advance_of_stuck {s : State} (hstuck : (machine config).Stuck undisturbed s) {i : ℕ}
    {c : Call} (hc : s.calls[i]? = some c) {m : Move} (hm : m ≠ .cancel) :
    advance s.permits c m = none := by
  have hnone := hstuck (.move i m) ⟨by simp, fun j hj => hm (Label.move.inj hj).2⟩
  simp only [machine, hc] at hnone
  exact Option.map_eq_none_iff.mp hnone

/-- **What holds up a call at rest**: nothing but the lack of a permit. -/
theorem call_of_stuck {s : State} (hordered : ∀ c ∈ s.calls, c.Ordered)
    (hstuck : (machine config).Stuck undisturbed s) {c : Call} (hc : c ∈ s.calls) :
    (c.stage = .waiting ∧ s.permits = 0)
      ∨ (c.stage = .done ∧ (c.closure = .absent ∨ c.closure = .finished)) := by
  have hor := hordered c hc
  obtain ⟨i, hi⟩ := List.mem_iff_getElem?.mp hc
  have hnone : ∀ m, m ≠ .cancel → advance s.permits c m = none :=
    fun m hm => advance_of_stuck hstuck hi hm
  have hclosure : c.closure = .absent ∨ c.closure = .finished := by
    cases hclosure : c.closure with
    | absent => exact Or.inl rfl
    | finished => exact Or.inr rfl
    | queued =>
        have hstart := hnone .start (by simp)
        simp [advance, hclosure] at hstart
    | running =>
        have hfinish := hnone .finish (by simp)
        simp [advance, hclosure] at hfinish
  cases hstage : c.stage with
  | waiting =>
      have hacquire := hnone .acquire (by simp)
      simp only [advance, hstage, true_and] at hacquire
      split_ifs at hacquire with hpos
      exact Or.inl ⟨rfl, Nat.eq_zero_of_not_pos hpos⟩
  | fetching =>
      have hfetched := hnone .fetched (by simp)
      simp [advance, hstage] at hfetched
  | parsing =>
      have hjoin := hnone .join (by simp)
      rw [Call.Ordered, hstage] at hor
      have hfinished : c.closure = .finished := hclosure.resolve_left hor
      simp [advance, hstage, hfinished] at hjoin
  | done => exact Or.inr ⟨rfl, hclosure⟩

/-- **No permit is lost.**  Wherever calls have been dropped, once no further call arrives
there are at most five more steps for each call; they come to rest, and when they rest after
no further drops, every call and every closure has ended and all the permits are free. -/
theorem permits_return {platform : Platform} (hvalid : config.validate platform = .ok ())
    {s : State} (hs : (machine config).Reach Machine.anyStep s) :
    (∀ n t, (machine config).Leads noArrival s n t → n ≤ 5 * s.calls.length)
      ∧ (∃ n t, (machine config).Leads undisturbed s n t
        ∧ (machine config).Stuck undisturbed t)
      ∧ ∀ n t, (machine config).Leads undisturbed s n t → (machine config).Stuck undisturbed t →
        t.permits = config.server.maxConcurrentExtracts
          ∧ ∀ c ∈ t.calls, c.stage = .done ∧ (c.closure = .absent ∨ c.closure = .finished) := by
  have hordered := ordered_of_reach hs
  refine ⟨fun n t hrun => ?_, ?_, fun n t hrun hstuck => ?_⟩
  · have hle := (ranked config).length_le hordered hrun
    have hsum : (s.calls.map Call.work).sum ≤ s.calls.length * 5 := by
      have hcard := List.sum_le_card_nsmul (s.calls.map Call.work) 5 fun w hw => by
        obtain ⟨c, hc, rfl⟩ := List.mem_map.mp hw
        exact (hordered c hc).work_le
      simpa using hcard
    omega
  · exact ((ranked config).mono fun _ _ h => h.1).comes_to_rest hordered
  · have ht : (machine config).Reach Machine.anyStep t := by
      refine hrun.keeps (P := (machine config).Reach Machine.anyStep) ?_ hs
      exact fun _ _ _ hreach _ hnext => hreach.step trivial hnext
    have hcalls : ∀ c ∈ t.calls, _ := fun c hc => call_of_stuck (ordered_of_reach ht) hstuck hc
    have hholders : t.calls.countP Call.holdsPermit = 0 := by
      rw [List.countP_eq_zero]
      intro c hc
      rcases hcalls c hc with ⟨hstage, -⟩ | ⟨hstage, -⟩ <;> simp [Call.holdsPermit, hstage]
    have hpermits := permits_conserved ht
    rw [hholders, Nat.add_zero] at hpermits
    refine ⟨hpermits, fun c hc => (hcalls c hc).resolve_left fun hwaiting => ?_⟩
    have hpos := ((Config.validate_eq_ok_iff platform config).mp hvalid).extracts.1
    omega

/-- One call is dropped while its closure runs, another one while it fetches. -/
theorem permits_return_dropped :
    ∃ n t, (machine Config.default).Leads undisturbed
      ⟨2, [⟨.done, .running⟩, ⟨.done, .absent⟩]⟩ n t ∧ t.permits = 2 := by
  have hinit : (machine Config.default).init ⟨2, []⟩ := rfl
  have hreach : (machine Config.default).Reach Machine.anyStep
      ⟨2, [⟨.done, .running⟩, ⟨.done, .absent⟩]⟩ :=
    (Machine.Reach.init hinit).of_run (Machine.runOk_anyStep _ [.arrive, .arrive,
      .move 0 .acquire, .move 1 .acquire, .move 0 .fetched, .move 0 .start, .move 0 .cancel,
      .move 1 .cancel]) rfl
  have hvalid : Config.default.validate Platform.ascii = .ok () :=
    (Config.validate_eq_ok_iff _ _).mpr (Config.default_valid rfl)
  obtain ⟨-, ⟨n, t, hrun, hstuck⟩, hrest⟩ := permits_return hvalid hreach
  exact ⟨n, t, hrun, (hrest n t hrun hstuck).1⟩

end ExtractLimiter
