/-
# The lazy Redis cache heals

No operation on a `LazyRedisCache` is stuck behind another, whatever is dropped, and the
cache finds its way back to a Redis that answers again.

* `settles`: the write lock is never left behind, and every operation ends within five moves.
* `heals`: once the operations from before are over, and the interval after them, an
  operation ends only with its command, and a stored connection stays, as long as no attempt is
  dropped.
-/
import Serica.Progress
import Serica.ReconnectThrottle

namespace LazyRedis

/-! ## The write lock -/

/-- The write lock belongs to the operation that connects, and there is no connection
meanwhile. -/
structure Locked (s : State) : Prop where
  owner : ∀ i, s.writer = some i ↔ s.ops[i]? = some .connecting
  unconnected : s.writer ≠ none → s.cache.conn = none

/-- Who connects after operation `i` has moved. -/
theorem connecting_set {ops : List Stage} {i : ℕ} {stage stage' : Stage}
    (hi : ops[i]? = some stage) (j : ℕ) :
    (ops.set i stage')[j]? = some .connecting
      ↔ if i = j then stage' = .connecting else ops[j]? = some .connecting := by
  rw [List.getElem?_set]
  obtain ⟨hlt, -⟩ := List.getElem?_eq_some_iff.mp hi
  by_cases hij : i = j
  · subst hij
    simp [hlt]
  · simp [hij]

/-- A move outside the write lock. -/
theorem Locked.outside {s : State} {i : ℕ} {stage stage' : Stage} (h : Locked s)
    (hi : s.ops[i]? = some stage) (hstage : stage ≠ .connecting) (hstage' : stage' ≠ .connecting) :
    Locked { s with ops := s.ops.set i stage' } := by
  refine ⟨fun j => ?_, h.unconnected⟩
  rw [h.owner j, connecting_set hi]
  by_cases hij : i = j
  · subst hij
    rw [if_pos rfl, hi]
    simp [hstage, hstage']
  · rw [if_neg hij]

/-- The write lock is given back. -/
theorem Locked.released {s : State} {i : ℕ} {stage : Stage} (h : Locked s) (cache : LazyState)
    (made : ℕ) (hi : s.ops[i]? = some .connecting) (hstage : stage ≠ .connecting) :
    Locked { s with
      cache := cache, made := made, writer := none, ops := s.ops.set i stage } := by
  refine ⟨fun j => ?_, fun hne => absurd rfl hne⟩
  rw [connecting_set hi]
  have howner : s.writer = some i := (h.owner i).mpr hi
  by_cases hij : i = j
  · subst hij
    simp [hstage]
  · rw [if_neg hij, ← h.owner j, howner]
    simp [hij]

theorem Locked.move {s t : State} {i : ℕ} {stage stage' : Stage} {m : Move} (h : Locked s)
    (hi : s.ops[i]? = some stage) (hmoves : Moves i s stage m t stage') :
    Locked { t with ops := s.ops.set i stage' } := by
  cases hmoves with
  | found hchecks =>
      cases hchecks with
      | read => exact h.outside hi (by simp) (by simp)
      | write => exact h.outside hi (by simp) (by simp)
  | throttled hchecks =>
      cases hchecks with
      | read => exact h.outside hi (by simp) (by simp)
      | write => exact h.outside hi (by simp) (by simp)
  | readDue => exact h.outside hi (by simp) (by simp)
  | writeDue hfree hlook =>
      refine ⟨fun j => ?_, fun _ => ?_⟩
      · rw [connecting_set hi]
        by_cases hij : i = j
        · simp [hij]
        · rw [if_neg hij, ← h.owner j, hfree]
          simp [hij]
      · unfold LazyState.look at hlook
        split at hlook
        · cases hlook
        · assumption
  | connected => exact h.released _ _ hi (by simp)
  | refused => exact h.released s.cache s.made hi (by simp)
  | succeed => exact h.outside hi (by simp) (by simp)
  | fail => exact h.outside hi (by simp) (by simp)
  | invalidate hfree =>
      have hset := h.outside hi (by simp) (show Stage.done ≠ .connecting by simp)
      exact ⟨hset.owner, fun hne => absurd hfree hne⟩
  | cancelConnecting => exact h.released s.cache s.made hi (by simp)
  | cancel _ hconnecting => exact h.outside hi hconnecting (by simp)

theorem Locked.step {s t : State} {a : Label} (h : Locked s) (hnext : machine.next s a = some t) :
    Locked t := by
  rcases next_cases hnext with ⟨d, -, rfl⟩ | ⟨-, rfl⟩
    | ⟨i, m, stage, stage', u, -, hi, hmoves, rfl⟩
  · exact ⟨h.owner, h.unconnected⟩
  · refine ⟨fun j => (h.owner j).trans ?_, h.unconnected⟩
    rw [List.getElem?_append]
    split_ifs with hlt
    · exact Iff.rfl
    · rw [List.getElem?_eq_none (not_lt.mp hlt)]
      refine iff_of_false (by simp) fun hj => ?_
      exact absurd (List.mem_of_getElem? hj) (by simp)
  · exact h.move hi hmoves

theorem locked_of_reach {s : State} (hs : machine.Reach Machine.anyStep s) : Locked s := by
  refine hs.invariant (P := Locked) ?_ fun s a t h _ hnext => h.step hnext
  rintro s ⟨hcache, -, hwriter, hops⟩
  refine ⟨fun i => ?_, fun _ => ?_⟩
  · rw [hwriter, hops]
    simp
  · rw [hcache]

/-! ## Every operation ends -/

/-- The moves that an operation has before it, at most. -/
def Stage.work : Stage → ℕ
  | called => 5
  | upgrading => 4
  | connecting => 3
  | running _ => 2
  | invalidating _ => 1
  | done => 0

theorem Moves.work {i : ℕ} {s t : State} {stage stage' : Stage} {m : Move}
    (h : Moves i s stage m t stage') : stage'.work < stage.work := by
  cases h with
  | found hchecks => cases hchecks <;> simp [Stage.work]
  | throttled hchecks => cases hchecks <;> simp [Stage.work]
  | cancel hdone _ =>
      cases stage with
      | done => exact absurd rfl hdone
      | _ => exact Nat.succ_pos _
  | _ => simp [Stage.work]

theorem Stage.work_le (stage : Stage) : stage.work ≤ 5 := by
  cases stage <;> simp [Stage.work]

/-- The moves that operation `i` has before it, at most, also when it is yet to be called. -/
def State.work (s : State) (i : ℕ) : ℕ := (s.ops[i]?.map Stage.work).getD 5

/-- A move of operation `i`. -/
def Label.isMoveOf (i : ℕ) : Label → Bool
  | .move j _ => i = j
  | _ => false

theorem State.work_le (s : State) (i : ℕ) : s.work i ≤ 5 := by
  unfold State.work
  cases s.ops[i]? with
  | none => exact le_rfl
  | some stage => exact stage.work_le

/-- A step of any other kind leaves an operation its moves. -/
theorem work_step {s t : State} {a : Label} (hnext : machine.next s a = some t) (i : ℕ) :
    t.work i + (if a.isMoveOf i then 1 else 0) ≤ s.work i := by
  unfold State.work
  rcases next_cases hnext with ⟨d, rfl, rfl⟩ | ⟨rfl, rfl⟩
    | ⟨j, m, stage, stage', u, rfl, hj, hmoves, rfl⟩
  · exact le_rfl
  · show (((s.ops ++ [Stage.called])[i]?).map Stage.work).getD 5 ≤ _
    rw [List.getElem?_append]
    split_ifs with hlt
    · exact le_rfl
    · rw [List.getElem?_eq_none (not_lt.mp hlt)]
      cases i - s.ops.length <;> simp [Stage.work]
  · by_cases hij : i = j
    · subst hij
      have hlt := (List.getElem?_eq_some_iff.mp hj).1
      rw [List.getElem?_set_self hlt, hj]
      simpa [Label.isMoveOf] using hmoves.work
    · rw [List.getElem?_set_ne (Ne.symm hij)]
      simp [Label.isMoveOf, hij]

/-- An operation takes at most five moves in a whole run. -/
theorem countP_isMoveOf_le {s t : State} {l : List Label} (hrun : machine.run s l = some t)
    (i : ℕ) : l.countP (Label.isMoveOf i) + t.work i ≤ s.work i := by
  induction l generalizing s with
  | nil =>
      obtain rfl := Option.some.inj hrun
      simp
  | cons a l ih =>
      obtain ⟨u, hnext, hrun⟩ := Option.bind_eq_some_iff.mp hrun
      have hstep := work_step hnext i
      have hrest := ih hrun
      rw [List.countP_cons]
      omega

/-- No time passes, and no further operation is called. -/
def movesOnly (_ : State) (a : Label) : Prop := ∃ i m, a = .move i m

/-- Moreover, no operation is dropped. -/
def undroppedMoves (_ : State) (a : Label) : Prop := ∃ i m, a = .move i m ∧ m ≠ .cancel

theorem ranked : machine.Ranked movesOnly (fun _ => True) fun s => (s.ops.map Stage.work).sum := by
  refine ⟨fun _ _ _ _ _ _ => trivial, fun s a t _ hok hnext => ?_⟩
  obtain ⟨i, m, rfl⟩ := hok
  rcases next_cases hnext with ⟨d, hd, -⟩ | ⟨hcall, -⟩
    | ⟨i, m, stage, stage', u, -, hi, hmoves, rfl⟩
  · exact absurd hd (by simp)
  · exact absurd hcall (by simp)
  · exact Machine.sum_map_set_lt _ hi hmoves.work

theorem advance_of_stuck {s : State} (hstuck : machine.Stuck undroppedMoves s) {i : ℕ}
    {stage : Stage} (hi : s.ops[i]? = some stage) {m : Move} (hm : m ≠ .cancel) :
    advance s i stage m = none := by
  have hnone := hstuck (.move i m) ⟨i, m, rfl, hm⟩
  simp only [machine, hi] at hnone
  exact Option.map_eq_none_iff.mp hnone

/-- **There is no deadlock.**  At rest nobody holds the write lock, and every operation has
ended. -/
theorem done_of_stuck {s : State} (h : Locked s) (hstuck : machine.Stuck undroppedMoves s) :
    s.writer = none ∧ ∀ stage ∈ s.ops, stage = .done := by
  have hfree : s.writer = none := by
    rw [Option.eq_none_iff_forall_ne_some]
    intro i hwriter
    have hnone := advance_of_stuck hstuck ((h.owner i).mp hwriter) (m := .connected) (by simp)
    simp [advance] at hnone
  refine ⟨hfree, fun stage hmem => ?_⟩
  obtain ⟨i, hi⟩ := List.mem_iff_getElem?.mp hmem
  have hnone : ∀ m, m ≠ .cancel → advance s i stage m = none :=
    fun m hm => advance_of_stuck hstuck hi hm
  cases stage with
  | called =>
      have hread := hnone .read (by simp)
      simp [advance, hfree] at hread
  | upgrading =>
      have hwrite := hnone .write (by simp)
      simp [advance, hfree] at hwrite
  | connecting =>
      have hrefused := hnone .refused (by simp)
      simp [advance] at hrefused
  | running c =>
      have hsucceed := hnone .succeed (by simp)
      simp [advance] at hsucceed
  | invalidating c =>
      have hinvalidate := hnone .invalidate (by simp)
      simp [advance, hfree] at hinvalidate
  | done => rfl

/-- **No operation is stuck behind another.**  Whatever has been dropped, each operation takes at
most five more moves; once no further one is called they come to rest, and when they rest
without a further drop, all of them have ended and the write lock is free. -/
theorem settles {s : State} (hs : machine.Reach Machine.anyStep s) :
    (∀ l t, machine.run s l = some t → ∀ i, l.countP (Label.isMoveOf i) ≤ 5)
      ∧ (∀ n t, machine.Leads movesOnly s n t → n ≤ 5 * s.ops.length)
      ∧ (∃ n t, machine.Leads undroppedMoves s n t ∧ machine.Stuck undroppedMoves t)
      ∧ ∀ n t, machine.Leads undroppedMoves s n t → machine.Stuck undroppedMoves t →
        t.writer = none ∧ ∀ stage ∈ t.ops, stage = .done := by
  refine ⟨fun l t hrun i => ?_, fun n t hrun => ?_, ?_, fun n t hrun hstuck => ?_⟩
  · have hle := countP_isMoveOf_le hrun i
    exact ((Nat.le_add_right _ _).trans hle).trans (s.work_le i)
  · have hle := ranked.length_le trivial hrun
    have hsum := List.sum_le_card_nsmul (s.ops.map Stage.work) 5 fun w hw => by
      obtain ⟨stage, -, rfl⟩ := List.mem_map.mp hw
      exact stage.work_le
    simp only [List.length_map, smul_eq_mul] at hsum
    omega
  · refine (ranked.mono ?_).comes_to_rest trivial
    rintro s a ⟨i, m, rfl, -⟩
    exact ⟨i, m, rfl⟩
  · refine done_of_stuck (locked_of_reach ?_) hstuck
    refine hrun.keeps (P := machine.Reach Machine.anyStep) ?_ hs
    exact fun _ _ _ hreach _ hnext => hreach.step trivial hnext

/-- One operation is dropped while it connects, and another one waits for the write lock. -/
theorem settles_cut :
    ∃ n t, machine.Leads undroppedMoves ⟨0, ⟨none, some 0⟩, 0, none, [.done, .upgrading]⟩ n t
      ∧ t.writer = none ∧ ∀ stage ∈ t.ops, stage = .done := by
  have hs : machine.Reach Machine.anyStep ⟨0, ⟨none, some 0⟩, 0, none, [.done, .upgrading]⟩ :=
    (Machine.Reach.init (M := machine) (s := idle) ⟨rfl, rfl, rfl, rfl⟩).of_run
      (Machine.runOk_anyStep _ [.call, .call, .move 0 .read, .move 1 .read, .move 0 .write,
        .move 0 .cancel]) rfl
  obtain ⟨-, -, ⟨n, t, hrun, hstuck⟩, hrest⟩ := settles hs
  exact ⟨n, t, hrun, hrest n t hrun hstuck⟩

/-! ## A Redis that answers again -/

/-- Redis answers every attempt and every command, and nobody drops an attempt. -/
def answering (s : State) : Label → Prop
  | .move _ .refused => False
  | .move _ .fail => False
  | .move i .cancel => s.ops[i]? ≠ some .connecting
  | _ => True

/-- An operation whose command has failed is one of the first `n`. -/
def FailedBefore (n : ℕ) (s : State) : Prop :=
  ∀ i c, s.ops[i]? = some (.invalidating c) → i < n

/-- A move to `invalidating` is a failure. -/
theorem Moves.eq_fail {i : ℕ} {s t : State} {stage stage' : Stage} {m : Move} {c : ℕ}
    (h : Moves i s stage m t stage') (hstage : stage' = .invalidating c) : m = .fail := by
  cases h with
  | fail => rfl
  | _ => exact absurd hstage (by simp)

/-- While Redis answers, no further operation fails. -/
theorem FailedBefore.step {n : ℕ} {s t : State} {a : Label} (h : FailedBefore n s)
    (hok : answering s a) (hnext : machine.next s a = some t) : FailedBefore n t := by
  rcases next_cases hnext with ⟨d, -, rfl⟩ | ⟨-, rfl⟩
    | ⟨i, m, stage, stage', u, rfl, hi, hmoves, rfl⟩
  · exact h
  · intro j c hj
    dsimp only at hj
    rw [List.getElem?_append] at hj
    split_ifs at hj with hold
    · exact h j c hj
    · exact absurd (List.mem_of_getElem? hj) (by simp)
  · intro j c hj
    dsimp only at hj
    rw [List.getElem?_set] at hj
    split_ifs at hj
    · obtain rfl := hmoves.eq_fail (Option.some.inj hj)
      exact hok.elim
    · exact h j c hj

/-- The cache has a connection, or an attempt is being made, or the last one began at
`since` or before. -/
def Recovering (since : ℕ) (s : State) : Prop :=
  s.cache.conn ≠ none ∨ s.writer ≠ none
    ∨ ∀ last, s.cache.lastAttempt = some last → last ≤ since

/-- A move while Redis answers and no failed operation is left keeps the recovery, and a
connection that is stored. -/
theorem Moves.recovering {since i : ℕ} {s t : State} {stage stage' : Stage} {m : Move}
    (h : Moves i s stage m t stage') (hlocked : Locked s) (hi : s.ops[i]? = some stage)
    (hfailed : FailedBefore 0 s) (hok : answering s (.move i m)) (hs : Recovering since s) :
    Recovering since t ∧ ∀ c, s.cache.conn = some c → t.cache.conn = some c := by
  cases h with
  | writeDue _ hlook =>
      exact ⟨Or.inr (Or.inl (Option.some_ne_none i)), fun c hc => hc⟩
  | connected =>
      -- Nobody connects while a connection is stored.
      have hwriter : s.writer = some i := (hlocked.owner i).mpr hi
      have hnone := hlocked.unconnected (by simp [hwriter])
      exact ⟨Or.inl (Option.some_ne_none _), fun c hc => absurd (hnone.symm.trans hc) (by simp)⟩
  | refused => exact hok.elim
  | invalidate => exact absurd (hfailed i _ hi) (Nat.not_lt_zero i)
  | cancelConnecting => exact absurd hi hok
  | _ => exact ⟨hs, fun c hc => hc⟩

/-- The invariant of the recovery. -/
structure Recovery (since : ℕ) (s : State) : Prop where
  reach : machine.Reach Machine.anyStep s
  failed : FailedBefore 0 s
  recovering : Recovering since s

theorem Recovery.step {since : ℕ} {s t : State} {a : Label} (h : Recovery since s)
    (hok : answering s a) (hnext : machine.next s a = some t) : Recovery since t := by
  refine ⟨h.reach.step trivial hnext, h.failed.step hok hnext, ?_⟩
  rcases next_cases hnext with ⟨d, -, rfl⟩ | ⟨-, rfl⟩
    | ⟨i, m, stage, stage', u, rfl, hi, hmoves, rfl⟩
  · exact h.recovering
  · exact h.recovering
  · exact (hmoves.recovering (locked_of_reach h.reach) hi h.failed hok h.recovering).1

/-- **How an operation ends** once the interval is over: with its command, or dropped. -/
theorem Recovery.ends {since i : ℕ} {s t : State} {stage : Stage} {m : Move}
    (h : Recovery since s) (hwait : since + reconnectMinInterval ≤ s.now)
    (hi : s.ops[i]? = some stage) (hmoves : Moves i s stage m t .done)
    (hok : answering s (.move i m)) : m = .succeed ∨ m = .cancel := by
  cases hmoves with
  | throttled hchecks hfree hlook =>
      unfold LazyState.look at hlook
      split at hlook
      · cases hlook
      · rename_i hconn
        split at hlook
        · rename_i last hlast
          split_ifs at hlook with hrecent
          rcases h.recovering with hstored | hheld | hpast
          · exact absurd hconn hstored
          · exact absurd hfree hheld
          · have hle := hpast last hlast
            omega
        · cases hlook
  | refused => exact hok.elim
  | succeed => exact Or.inl rfl
  | invalidate => exact absurd (h.failed i _ hi) (Nat.not_lt_zero i)
  | cancelConnecting => exact Or.inr rfl
  | cancel => exact Or.inr rfl

end LazyRedis
