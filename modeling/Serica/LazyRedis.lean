/-
# The lazy Redis cache

The concurrent operations on one `LazyRedisCache`.  An operation, a get or a set, looks
at the shared state under the read lock, again under the write lock when an attempt is
due, and keeps the write lock while it connects.  It runs its command on a clone of the
handle, without a lock, and drops the stored connection when the command fails.

Connections are numbered in the order in which they are made.  An attempt may last as
long as it likes here, and an operation may be dropped at any await.

* `ownDrops_iff`: in every run, a stored connection is dropped only by operations whose
  command has failed on it if and only if no operation drops a connection that was made
  after its own.
* `ownDrop_of_settled`: it is enough that nobody still uses an older connection when a
  new one is made.
-/
import Serica.Machine

namespace LazyRedis

/-- `CONNECT_TIMEOUT`, in milliseconds. -/
def connectTimeout : ℕ := 5 * 1000

/-- `RECONNECT_MIN_INTERVAL`, in milliseconds. -/
def reconnectMinInterval : ℕ := 10 * 1000

/-- The state behind the lock: the stored connection, and when the last attempt began. -/
structure LazyState where
  conn : Option ℕ
  lastAttempt : Option ℕ
deriving DecidableEq, Repr

/-- What the checks of `ensure_conn` find. -/
inductive Found
  | connected (c : ℕ)
  | throttled
  | due
deriving DecidableEq, Repr

/-- The checks that `ensure_conn` makes under either lock. -/
def LazyState.look (cache : LazyState) (now : ℕ) : Found :=
  match cache.conn with
  | some c => .connected c
  | none =>
      match cache.lastAttempt with
      | some last => if now - last < reconnectMinInterval then .throttled else .due
      | none => .due

/-! ## States and steps -/

/-- Where an operation stands. -/
inductive Stage
  /-- In front of the read lock. -/
  | called
  /-- Between the two locks. -/
  | upgrading
  /-- Under the write lock, with its attempt. -/
  | connecting
  /-- With a handle on a connection. -/
  | running (c : ℕ)
  /-- Its command has failed on a connection, and it waits for the write lock. -/
  | invalidating (c : ℕ)
  | done
deriving DecidableEq, Repr

/-- `made` connections have been made so far, and `writer` holds the write lock across
an await. -/
structure State where
  now : ℕ
  cache : LazyState
  made : ℕ
  writer : Option ℕ
  ops : List Stage
deriving DecidableEq, Repr

inductive Move
  /-- The section under the read lock. -/
  | read
  /-- The section under the write lock, up to the attempt. -/
  | write
  /-- The attempt makes a connection. -/
  | connected
  /-- The attempt fails, or times out. -/
  | refused
  /-- The command succeeds. -/
  | succeed
  /-- The command fails. -/
  | fail
  /-- `invalidate`. -/
  | invalidate
  /-- The operation is dropped at the await where it stands. -/
  | cancel
deriving DecidableEq, Repr

inductive Label
  | tick (d : ℕ)
  | call
  | move (i : ℕ) (m : Move)
deriving DecidableEq, Repr

/-- What comes of the checks of `ensure_conn`, with what to do when an attempt is due. -/
def check (s : State) (due : State × Stage) : State × Stage :=
  match s.cache.look s.now with
  | .connected c => (s, .running c)
  | .throttled => (s, .done)
  | .due => due

/-- One move of operation `i`: the state that it leaves, its own stage aside, and the
stage. -/
def advance (s : State) (i : ℕ) (stage : Stage) : Move → Option (State × Stage)
  | .read =>
      if stage = .called ∧ s.writer = none then some (check s (s, .upgrading)) else none
  | .write =>
      if stage = .upgrading ∧ s.writer = none then
        some (check s ({ s with
          cache := { s.cache with lastAttempt := some s.now }, writer := some i }, .connecting))
      else none
  | .connected =>
      if stage = .connecting then
        some ({ s with
          cache := { s.cache with conn := some s.made }, made := s.made + 1, writer := none },
          .running s.made)
      else none
  | .refused =>
      if stage = .connecting then some ({ s with writer := none }, .done) else none
  | .succeed =>
      match stage with
      | .running _ => some (s, .done)
      | _ => none
  | .fail =>
      match stage with
      | .running c => some (s, .invalidating c)
      | _ => none
  | .invalidate =>
      match stage with
      | .invalidating _ =>
          if s.writer = none then
            some ({ s with cache := { s.cache with conn := none } }, .done)
          else none
      | _ => none
  | .cancel =>
      match stage with
      | .done => none
      | .connecting => some ({ s with writer := none }, .done)
      | _ => some (s, .done)

/-- The operations on one cache; `LazyRedisCache::new` connects to nothing. -/
def machine : Machine State Label where
  init s := s.cache = ⟨none, none⟩ ∧ s.made = 0 ∧ s.writer = none ∧ s.ops = []
  next s
    | .tick d => some { s with now := s.now + d }
    | .call => some { s with ops := s.ops ++ [.called] }
    | .move i m =>
        match s.ops[i]? with
        | none => none
        | some stage => (advance s i stage m).map fun p => { p.1 with ops := s.ops.set i p.2 }

/-- The move that makes the checks at a stage. -/
inductive Checks : Stage → Move → Prop
  | read : Checks .called .read
  | write : Checks .upgrading .write

/-- Everything that a move of operation `i` can do. -/
inductive Moves (i : ℕ) : State → Stage → Move → State → Stage → Prop
  | found {s : State} {stage : Stage} {m : Move} {c : ℕ} :
      Checks stage m → s.writer = none → s.cache.conn = some c → Moves i s stage m s (.running c)
  | throttled {s : State} {stage : Stage} {m : Move} :
      Checks stage m → s.writer = none → s.cache.look s.now = .throttled →
      Moves i s stage m s .done
  | readDue {s : State} :
      s.writer = none → s.cache.look s.now = .due → Moves i s .called .read s .upgrading
  | writeDue {s : State} :
      s.writer = none → s.cache.look s.now = .due →
      Moves i s .upgrading .write
        { s with cache := { s.cache with lastAttempt := some s.now }, writer := some i }
        .connecting
  | connected {s : State} :
      Moves i s .connecting .connected
        { s with
          cache := { s.cache with conn := some s.made }, made := s.made + 1, writer := none }
        (.running s.made)
  | refused {s : State} : Moves i s .connecting .refused { s with writer := none } .done
  | succeed {s : State} {c : ℕ} : Moves i s (.running c) .succeed s .done
  | fail {s : State} {c : ℕ} : Moves i s (.running c) .fail s (.invalidating c)
  | invalidate {s : State} {c : ℕ} :
      s.writer = none →
      Moves i s (.invalidating c) .invalidate { s with cache := { s.cache with conn := none } }
        .done
  | cancelConnecting {s : State} :
      Moves i s .connecting .cancel { s with writer := none } .done
  | cancel {s : State} {stage : Stage} :
      stage ≠ .done → stage ≠ .connecting → Moves i s stage .cancel s .done

theorem LazyState.conn_of_look {cache : LazyState} {now c : ℕ}
    (h : cache.look now = .connected c) : cache.conn = some c := by
  unfold LazyState.look at h
  split at h
  · rename_i c' hconn
    rw [hconn, Found.connected.inj h]
  · split at h
    · split_ifs at h
    · exact absurd h (by simp)

/-- What a check leads to, when what it leads to for a due attempt is known. -/
theorem moves_of_check {i : ℕ} {s t : State} {stage stage' : Stage} {m : Move}
    {due : State × Stage} (hchecks : Checks stage m) (hfree : s.writer = none)
    (hdue : s.cache.look s.now = .due → Moves i s stage m due.1 due.2)
    (h : check s due = (t, stage')) : Moves i s stage m t stage' := by
  unfold check at h
  cases hlook : s.cache.look s.now with
  | connected c =>
      rw [hlook] at h
      obtain ⟨rfl, rfl⟩ := Prod.mk.inj h
      exact .found hchecks hfree (LazyState.conn_of_look hlook)
  | throttled =>
      rw [hlook] at h
      obtain ⟨rfl, rfl⟩ := Prod.mk.inj h
      exact .throttled hchecks hfree hlook
  | due =>
      rw [hlook] at h
      dsimp only at h
      subst h
      exact hdue hlook

theorem moves_of_advance {i : ℕ} {s t : State} {stage stage' : Stage} {m : Move}
    (h : advance s i stage m = some (t, stage')) : Moves i s stage m t stage' := by
  cases m with
  | read =>
      simp only [advance] at h
      split_ifs at h with hguard
      obtain ⟨rfl, hfree⟩ := hguard
      exact moves_of_check .read hfree (fun hlook => .readDue hfree hlook) (Option.some.inj h)
  | write =>
      simp only [advance] at h
      split_ifs at h with hguard
      obtain ⟨rfl, hfree⟩ := hguard
      exact moves_of_check .write hfree (fun hlook => .writeDue hfree hlook) (Option.some.inj h)
  | connected =>
      simp only [advance] at h
      split_ifs at h with hguard
      obtain ⟨rfl, rfl⟩ := Prod.mk.inj (Option.some.inj h)
      subst hguard
      exact .connected
  | refused =>
      simp only [advance] at h
      split_ifs at h with hguard
      obtain ⟨rfl, rfl⟩ := Prod.mk.inj (Option.some.inj h)
      subst hguard
      exact .refused
  | succeed =>
      simp only [advance] at h
      split at h
      · obtain ⟨rfl, rfl⟩ := Prod.mk.inj (Option.some.inj h)
        exact .succeed
      · exact absurd h (by simp)
  | fail =>
      simp only [advance] at h
      split at h
      · obtain ⟨rfl, rfl⟩ := Prod.mk.inj (Option.some.inj h)
        exact .fail
      · exact absurd h (by simp)
  | invalidate =>
      simp only [advance] at h
      split at h
      · split_ifs at h with hfree
        obtain ⟨rfl, rfl⟩ := Prod.mk.inj (Option.some.inj h)
        exact .invalidate hfree
      · exact absurd h (by simp)
  | cancel =>
      simp only [advance] at h
      split at h
      · exact absurd h (by simp)
      · obtain ⟨rfl, rfl⟩ := Prod.mk.inj (Option.some.inj h)
        exact .cancelConnecting
      · rename_i hdone hconnecting
        obtain ⟨rfl, rfl⟩ := Prod.mk.inj (Option.some.inj h)
        exact .cancel hdone hconnecting

/-- A step lets time pass, adds an operation or moves one. -/
theorem next_cases {s s' : State} {a : Label} (h : machine.next s a = some s') :
    (∃ d, a = .tick d ∧ s' = { s with now := s.now + d })
      ∨ (a = .call ∧ s' = { s with ops := s.ops ++ [.called] })
      ∨ ∃ i m stage stage' t, a = .move i m ∧ s.ops[i]? = some stage
        ∧ Moves i s stage m t stage' ∧ s' = { t with ops := s.ops.set i stage' } := by
  cases a with
  | tick d => exact Or.inl ⟨d, rfl, (Option.some.inj h).symm⟩
  | call => exact Or.inr (Or.inl ⟨rfl, (Option.some.inj h).symm⟩)
  | move i m =>
      simp only [machine] at h
      split at h
      · exact absurd h (by simp)
      · rename_i stage hstage
        obtain ⟨⟨t, stage'⟩, hadvance, rfl⟩ := Option.map_eq_some_iff.mp h
        exact Or.inr (Or.inr ⟨i, m, stage, stage', t, rfl, hstage, moves_of_advance hadvance, rfl⟩)

/-! ## The connections of a run -/

/-- The connection that an operation has a handle on. -/
def Stage.handle : Stage → Option ℕ
  | .running c => some c
  | .invalidating c => some c
  | _ => none

/-- The stored connection is the last one made, and every handle is on one that was
made. -/
structure Numbered (s : State) : Prop where
  stored : ∀ c, s.cache.conn = some c → c + 1 = s.made
  handles : ∀ stage ∈ s.ops, ∀ c, stage.handle = some c → c < s.made

theorem Numbered.init {s : State} (h : machine.init s) : Numbered s := by
  obtain ⟨hcache, -, -, hops⟩ := h
  constructor
  · intro c hc
    rw [hcache] at hc
    exact absurd hc (by simp)
  · intro stage hstage
    rw [hops] at hstage
    exact absurd hstage (by simp)

/-- A move keeps the stored connection or makes or drops one, and the operation keeps
its handle or gets the stored one. -/
theorem Moves.numbered {i : ℕ} {s t : State} {stage stage' : Stage} {m : Move}
    (h : Moves i s stage m t stage') (hstored : ∀ c, s.cache.conn = some c → c + 1 = s.made)
    (hhandle : ∀ c, stage.handle = some c → c < s.made) :
    s.made ≤ t.made ∧ (∀ c, t.cache.conn = some c → c + 1 = t.made)
      ∧ ∀ c, stage'.handle = some c → c < t.made := by
  have hdone : ∀ c, Stage.done.handle = some c → c < t.made := fun c hc => nomatch hc
  cases h with
  | found _ _ hconn =>
      refine ⟨le_rfl, hstored, ?_⟩
      intro c hc
      have := hstored c (hconn.trans hc)
      omega
  | throttled => exact ⟨le_rfl, hstored, hdone⟩
  | readDue => exact ⟨le_rfl, hstored, fun c hc => nomatch hc⟩
  | writeDue => exact ⟨le_rfl, hstored, fun c hc => nomatch hc⟩
  | connected =>
      refine ⟨Nat.le_succ _, ?_, ?_⟩
      · intro c hc
        rw [Option.some.inj hc]
      · intro c hc
        rw [← Option.some.inj hc]
        exact Nat.lt_succ_self _
  | refused => exact ⟨le_rfl, hstored, hdone⟩
  | succeed => exact ⟨le_rfl, hstored, hdone⟩
  | fail => exact ⟨le_rfl, hstored, hhandle⟩
  | invalidate => exact ⟨le_rfl, fun c hc => absurd hc (by simp), hdone⟩
  | cancelConnecting => exact ⟨le_rfl, hstored, hdone⟩
  | cancel => exact ⟨le_rfl, hstored, hdone⟩

theorem Numbered.step {s s' : State} {a : Label} (hs : Numbered s)
    (h : machine.next s a = some s') : Numbered s' := by
  rcases next_cases h with ⟨d, -, rfl⟩ | ⟨-, rfl⟩ | ⟨i, m, stage, stage', t, -, hstage, hmoves, rfl⟩
  · exact ⟨hs.stored, hs.handles⟩
  · refine ⟨hs.stored, ?_⟩
    intro stage hstage c hc
    rcases List.mem_append.mp hstage with hold | hnew
    · exact hs.handles stage hold c hc
    · rw [List.mem_singleton.mp hnew] at hc
      exact absurd hc (by simp [Stage.handle])
  · obtain ⟨hle, hstored, hhandle⟩ :=
      hmoves.numbered hs.stored (hs.handles stage (List.mem_of_getElem? hstage))
    refine ⟨hstored, ?_⟩
    intro x hx c hc
    rcases List.mem_or_eq_of_mem_set hx with hold | rfl
    · exact (hs.handles x hold c hc).trans_le hle
    · exact hhandle c hc

/-! ## Who drops a connection -/

/-- The step drops a stored connection only as the `invalidate` of an operation whose
command has failed on that connection. -/
def OwnDrop (s : State) (a : Label) : Prop :=
  ∀ c s', s.cache.conn = some c → machine.next s a = some s' → s'.cache.conn = none →
    ∃ i, a = .move i .invalidate ∧ s.ops[i]? = some (.invalidating c)

/-- When an operation comes to its `invalidate`, no connection has been made since the one
that its command failed on, or none is stored. -/
def Current (s : State) (a : Label) : Prop :=
  ∀ i c, a = .move i .invalidate → s.ops[i]? = some (.invalidating c) →
    c + 1 = s.made ∨ s.cache.conn = none

/-- Only `invalidate` drops a connection. -/
theorem Moves.eq_invalidate {i : ℕ} {s t : State} {stage stage' : Stage} {m : Move} {c : ℕ}
    (h : Moves i s stage m t stage') (hconn : s.cache.conn = some c)
    (hdrop : t.cache.conn = none) : m = .invalidate ∧ ∃ c', stage = .invalidating c' := by
  cases h with
  | invalidate => exact ⟨rfl, _, rfl⟩
  | connected => exact absurd hdrop (by simp)
  | _ => exact absurd (hconn.symm.trans hdrop) (by simp)

theorem ownDrop_iff_current {s s' : State} {a : Label} (hs : Numbered s)
    (h : machine.next s a = some s') : OwnDrop s a ↔ Current s a := by
  constructor
  · rintro hown i c rfl hi
    cases hconn : s.cache.conn with
    | none => exact Or.inr rfl
    | some c' =>
        have hdrop : s'.cache.conn = none := by
          rcases next_cases h with ⟨_, ha, -⟩ | ⟨ha, -⟩
            | ⟨j, m, stage, stage', t, ha, -, hmoves, rfl⟩
          · exact absurd ha (by simp)
          · exact absurd ha (by simp)
          · obtain ⟨rfl, rfl⟩ := Label.move.inj ha
            cases hmoves with
            | invalidate => rfl
            | found hchecks => exact nomatch hchecks
            | throttled hchecks => exact nomatch hchecks
        obtain ⟨j, ha, hj⟩ := hown c' s' hconn h hdrop
        obtain ⟨rfl, -⟩ := Label.move.inj ha
        obtain rfl : c = c' := Stage.invalidating.inj (Option.some.inj (hi.symm.trans hj))
        exact Or.inl (hs.stored c hconn)
  · intro hcurrent c t hconn hnext hdrop
    rcases next_cases hnext with ⟨_, -, rfl⟩ | ⟨-, rfl⟩
      | ⟨i, m, stage, stage', u, rfl, hi, hmoves, rfl⟩
    · exact absurd (hconn.symm.trans hdrop) (by simp)
    · exact absurd (hconn.symm.trans hdrop) (by simp)
    · obtain ⟨rfl, c', rfl⟩ := hmoves.eq_invalidate hconn hdrop
      rcases hcurrent i c' rfl hi with hmade | hnone
      · have hstored := hs.stored c hconn
        obtain rfl : c' = c := by omega
        exact ⟨i, rfl, hi⟩
      · exact absurd (hconn.symm.trans hnone) (by simp)

/-- **A connection is dropped by its own failures if and only if no failure comes late.**
In every run, a stored connection is dropped only by operations whose command has failed
on it exactly when no operation invalidates after a connection was made that is newer than
its own and still stored. -/
theorem ownDrops_iff {s t : State} {l : List Label} (hinit : machine.init s)
    (hrun : machine.run s l = some t) :
    machine.RunOk OwnDrop s l ↔ machine.RunOk Current s l :=
  Machine.runOk_iff (P := Numbered) (fun _ _ _ hs hnext => hs.step hnext)
    (fun _ _ _ hs hnext => ownDrop_iff_current hs hnext) (.init hinit) hrun

/-- A cache that has never been used. -/
def idle : State := ⟨0, ⟨none, none⟩, 0, none, []⟩

/-- Two operations share a connection, on which one succeeds and the other one fails and drops
it; a third one connects anew, fails and drops its own connection. -/
theorem ownDrops_reconnect : machine.RunOk OwnDrop idle
    [.call, .move 0 .read, .move 0 .write, .move 0 .connected, .call, .move 1 .read,
      .move 0 .fail, .move 1 .succeed, .move 0 .invalidate, .tick 10000, .call, .move 2 .read,
      .move 2 .write, .move 2 .connected, .move 2 .fail, .move 2 .invalidate] := by
  have hother : ∀ l : List Label, (∀ a ∈ l, ∀ i, a ≠ .move i .invalidate) →
      ∀ s, machine.RunOk Current s l :=
    fun l hl => Machine.runOk_of_forall fun a ha s i c h => absurd h (hl a ha i)
  have hdrop : ∀ (t : State) (j c : ℕ), t.ops[j]? = some (.invalidating c) → c + 1 = t.made →
      Current t (.move j .invalidate) := by
    rintro t j c hj hmade i c' ha hi
    obtain ⟨rfl, -⟩ := Label.move.inj ha
    obtain rfl := Stage.invalidating.inj (Option.some.inj (hj.symm.trans hi))
    exact Or.inl hmade
  have hrun : machine.run idle
      [.call, .move 0 .read, .move 0 .write, .move 0 .connected, .call, .move 1 .read,
        .move 0 .fail, .move 1 .succeed, .move 0 .invalidate, .tick 10000, .call, .move 2 .read,
        .move 2 .write, .move 2 .connected, .move 2 .fail, .move 2 .invalidate]
      = some ⟨10000, ⟨none, some 10000⟩, 2, none, [.done, .done, .done]⟩ := rfl
  refine (ownDrops_iff ⟨rfl, rfl, rfl, rfl⟩ hrun).mpr ?_
  have hfirst : machine.run idle
      [.call, .move 0 .read, .move 0 .write, .move 0 .connected, .call, .move 1 .read,
        .move 0 .fail, .move 1 .succeed]
      = some ⟨0, ⟨some 0, some 0⟩, 1, none, [.invalidating 0, .done]⟩ := rfl
  have hsecond : machine.run ⟨0, ⟨none, some 0⟩, 1, none, [.done, .done]⟩
      [.tick 10000, .call, .move 2 .read, .move 2 .write, .move 2 .connected, .move 2 .fail]
      = some ⟨10000, ⟨some 1, some 10000⟩, 2, none, [.done, .done, .invalidating 1]⟩ := rfl
  have hlast : machine.RunOk Current
      ⟨10000, ⟨some 1, some 10000⟩, 2, none, [.done, .done, .invalidating 1]⟩
      [.move 2 .invalidate] := .cons (hdrop _ 2 1 rfl rfl) rfl (.nil _)
  have hmiddle : machine.RunOk Current ⟨0, ⟨some 0, some 0⟩, 1, none, [.invalidating 0, .done]⟩
      (.move 0 .invalidate :: [.tick 10000, .call, .move 2 .read, .move 2 .write,
        .move 2 .connected, .move 2 .fail, .move 2 .invalidate]) :=
    .cons (hdrop _ 0 0 rfl rfl) rfl ((hother _ (by simp) _).append hsecond hlast)
  exact (hother _ (by simp) _).append hfirst hmiddle

/-- Two operations share a connection.  The first fails, drops it, and a third connects
anew; then the second fails late, and drops the new connection. -/
theorem late_failure_drops : ¬ ∀ s a, machine.Reach Machine.anyStep s → OwnDrop s a := by
  intro h
  have hinit : machine.init idle := ⟨rfl, rfl, rfl, rfl⟩
  have hreach : machine.Reach Machine.anyStep
      ⟨10000, ⟨some 1, some 10000⟩, 2, none, [.done, .invalidating 0, .running 1]⟩ :=
    (Machine.Reach.init hinit).of_run (Machine.runOk_anyStep _
      [.call, .move 0 .read, .move 0 .write, .move 0 .connected, .call, .move 1 .read,
        .move 0 .fail, .move 0 .invalidate, .tick 10000, .call, .move 2 .read, .move 2 .write,
        .move 2 .connected, .move 1 .fail]) rfl
  obtain ⟨i, ha, hi⟩ := h _ (.move 1 .invalidate) hreach 1 _ rfl rfl rfl
  obtain ⟨rfl, -⟩ := Label.move.inj ha
  exact absurd hi (by decide)

/-! ## Reconnecting when nobody holds an old handle -/

/-- When an attempt makes a connection, no operation has a handle on an older one. -/
def Settled (s : State) (a : Label) : Prop :=
  ∀ i, a = .move i .connected → ∀ stage ∈ s.ops, stage.handle = none

theorem current_of_settled {s : State} (hs : machine.Reach Settled s) :
    Numbered s ∧ ∀ stage ∈ s.ops, ∀ c, stage.handle = some c → c + 1 = s.made := by
  refine hs.invariant (P := fun s => Numbered s ∧ ∀ stage ∈ s.ops, ∀ c,
    stage.handle = some c → c + 1 = s.made) ?_ ?_
  · rintro s hinit
    refine ⟨.init hinit, ?_⟩
    rw [hinit.2.2.2]
    exact fun stage hstage => absurd hstage (by simp)
  · rintro s a s' ⟨hnumbered, hlast⟩ hsettled hnext
    refine ⟨hnumbered.step hnext, ?_⟩
    rcases next_cases hnext with ⟨d, -, rfl⟩ | ⟨-, rfl⟩
      | ⟨i, m, stage, stage', t, rfl, hi, hmoves, rfl⟩
    · exact hlast
    · intro stage hstage c hc
      rcases List.mem_append.mp hstage with hold | hnew
      · exact hlast stage hold c hc
      · rw [List.mem_singleton.mp hnew] at hc
        exact absurd hc (by simp [Stage.handle])
    · intro x hx c hc
      have hstage := hlast stage (List.mem_of_getElem? hi)
      rcases List.mem_or_eq_of_mem_set hx with hold | rfl
      · cases hmoves with
        | connected => exact absurd (hsettled i rfl x hold) (by simp [hc])
        | _ => exact hlast x hold c hc
      · cases hmoves with
        | found _ _ hconn => exact hnumbered.stored c (hconn.trans hc)
        | connected => rw [← Option.some.inj hc]
        | fail => exact hstage c hc
        | _ => exact absurd hc (by simp [Stage.handle])

/-- **Settled reconnects suffice.**  When no operation has a handle on an older connection
at the moment at which a new one is made, only its own failures drop a connection. -/
theorem ownDrop_of_settled {s s' : State} {a : Label} (hs : machine.Reach Settled s)
    (hnext : machine.next s a = some s') : OwnDrop s a := by
  obtain ⟨hnumbered, hlast⟩ := current_of_settled hs
  refine (ownDrop_iff_current hnumbered hnext).mpr ?_
  intro i c _ hi
  exact Or.inl (hlast _ (List.mem_of_getElem? hi) c rfl)

end LazyRedis
