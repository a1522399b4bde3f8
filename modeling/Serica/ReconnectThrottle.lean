/-
# Reconnects are throttled

The attempts of a run of the operations on one `LazyRedisCache`.  Here `invalidate` may
also be called at any time, by anyone, when the write lock is free.

* `throttled_cases`: what a step does to the clock and to the stamp of the last attempt.
* `reconnects_throttled`: two attempts begin `reconnectMinInterval` apart or more, and
  none begins while a connection is stored.
-/
import Serica.LazyRedis

namespace LazyRedis

/-! ## The attempts of a run -/

inductive AnyLabel
  | op (a : Label)
  /-- A call of `invalidate` by itself. -/
  | invalidate
deriving DecidableEq, Repr

/-- The operations on one cache, with connections dropped at any time. -/
def throttled : Machine State AnyLabel where
  init := machine.init
  next s
    | .op a => machine.next s a
    | .invalidate =>
        if s.writer = none then some { s with cache := { s.cache with conn := none } } else none

/-- An operation comes to its attempt between two states. -/
def begins (s t : State) : Bool :=
  (List.range t.ops.length).any fun i =>
    t.ops[i]? == some Stage.connecting && s.ops[i]? != some Stage.connecting

/-- The states in which the attempts of a run begin. -/
def attempts : State → List AnyLabel → List State
  | _, [] => []
  | s, a :: l =>
      match throttled.next s a with
      | none => []
      | some t => if begins s t then s :: attempts t l else attempts t l

theorem begins_eq_false {s t : State}
    (h : ∀ i : ℕ, t.ops[i]? = some Stage.connecting → s.ops[i]? = some Stage.connecting) :
    begins s t = false := by
  rw [begins, List.any_eq_false]
  intro i _ hi
  rw [Bool.and_eq_true, beq_iff_eq, bne_iff_ne] at hi
  exact hi.2 (h i hi.1)

/-! ## One step -/

/-- What the check finds due has no connection, and no attempt within the interval. -/
theorem LazyState.look_eq_due {cache : LazyState} {now : ℕ} (h : cache.look now = .due) :
    cache.conn = none
      ∧ ∀ last, cache.lastAttempt = some last → last + reconnectMinInterval ≤ now := by
  unfold LazyState.look at h
  split at h
  · cases h
  · rename_i hconn
    refine ⟨hconn, ?_⟩
    intro last hlast
    rw [hlast] at h
    dsimp only at h
    have hpos : 0 < reconnectMinInterval := by decide
    split_ifs at h with hrecent
    omega

/-- A move takes no time; it stamps an attempt that is due, or begins none. -/
theorem Moves.stamps {i : ℕ} {s t : State} {stage stage' : Stage} {m : Move}
    (h : Moves i s stage m t stage') :
    t.now = s.now
      ∧ ((stage' ≠ .connecting ∧ t.cache.lastAttempt = s.cache.lastAttempt)
        ∨ (s.cache.look s.now = .due ∧ t.cache.lastAttempt = some s.now)) := by
  cases h with
  | writeDue _ hlook => exact ⟨rfl, Or.inr ⟨hlook, rfl⟩⟩
  | _ => exact ⟨rfl, Or.inl ⟨by simp, rfl⟩⟩

/-- The stamp changes only with an attempt, and an attempt only begins when it is due. -/
theorem throttled_cases {s t : State} {a : AnyLabel} (h : throttled.next s a = some t) :
    s.now ≤ t.now
      ∧ ((begins s t = false ∧ t.cache.lastAttempt = s.cache.lastAttempt)
        ∨ (s.cache.look s.now = .due ∧ t.cache.lastAttempt = some s.now)) := by
  cases a with
  | invalidate =>
      simp only [throttled] at h
      split_ifs at h
      obtain rfl := Option.some.inj h
      exact ⟨le_rfl, Or.inl ⟨begins_eq_false fun i hi => hi, rfl⟩⟩
  | op a =>
      rcases next_cases h with ⟨d, -, rfl⟩ | ⟨-, rfl⟩ | ⟨i, m, stage, stage', u, -, hi, hmoves, rfl⟩
      · exact ⟨Nat.le_add_right _ _, Or.inl ⟨begins_eq_false fun i hi => hi, rfl⟩⟩
      · refine ⟨le_rfl, Or.inl ⟨begins_eq_false fun j hj => ?_, rfl⟩⟩
        dsimp only at hj
        rw [List.getElem?_append] at hj
        split_ifs at hj with hold
        · exact hj
        · exact absurd (List.mem_of_getElem? hj) (by simp)
      · obtain ⟨hnow, ⟨hstage, hstamp⟩ | hdue⟩ := hmoves.stamps
        · refine ⟨hnow.ge, Or.inl ⟨begins_eq_false fun j hj => ?_, hstamp⟩⟩
          dsimp only at hj
          rw [List.getElem?_set] at hj
          split_ifs at hj
          · exact absurd (Option.some.inj hj) hstage
          · exact hj
        · exact ⟨hnow.ge, Or.inr hdue⟩

/-! ## Runs -/

/-- From any state on, no attempt begins within the interval after the last one, and none
while a connection is stored. -/
theorem attempts_due (s : State) (l : List AnyLabel) :
    ∀ p ∈ attempts s l, p.cache.conn = none
      ∧ ∀ last, s.cache.lastAttempt = some last → last + reconnectMinInterval ≤ p.now := by
  induction l generalizing s with
  | nil => simp [attempts]
  | cons a l ih =>
      intro p hp
      rw [attempts] at hp
      cases hnext : throttled.next s a with
      | none =>
          rw [hnext] at hp
          exact absurd hp List.not_mem_nil
      | some t =>
          rw [hnext] at hp
          dsimp only at hp
          obtain ⟨-, ⟨hquiet, hstamp⟩ | ⟨hlook, hstamp⟩⟩ := throttled_cases hnext
          · rw [hquiet, if_neg Bool.false_ne_true] at hp
            rw [← hstamp]
            exact ih t p hp
          · obtain ⟨hconn, hlast⟩ := LazyState.look_eq_due hlook
            have hrest : p ∈ attempts t l → p.cache.conn = none
                ∧ ∀ last, s.cache.lastAttempt = some last
                  → last + reconnectMinInterval ≤ p.now := by
              intro hp
              obtain ⟨hfree, hlater⟩ := ih t p hp
              refine ⟨hfree, fun last h => ?_⟩
              have hdue := hlast last h
              have hapart := hlater s.now hstamp
              omega
            split_ifs at hp
            · rcases List.mem_cons.mp hp with rfl | hp
              · exact ⟨hconn, hlast⟩
              · exact hrest hp
            · exact hrest hp

/-- **Reconnects are throttled**: on every schedule, with any outcomes, operations dropped
anywhere and connections invalidated at any time, two attempts begin at least the interval
apart, and none begins while a connection is stored. -/
theorem reconnects_throttled (s : State) (l : List AnyLabel) :
    (attempts s l).Pairwise (fun p q => p.now + reconnectMinInterval ≤ q.now)
      ∧ ∀ p ∈ attempts s l, p.cache.conn = none := by
  refine ⟨?_, fun p hp => (attempts_due s l p hp).1⟩
  induction l generalizing s with
  | nil => exact .nil
  | cons a l ih =>
      rw [attempts]
      cases hnext : throttled.next s a with
      | none => exact .nil
      | some t =>
          dsimp only
          split_ifs with hbegins
          · obtain ⟨-, ⟨hquiet, -⟩ | ⟨-, hstamp⟩⟩ := throttled_cases hnext
            · exact absurd (hbegins.symm.trans hquiet) (by simp)
            · exact .cons (fun q hq => (attempts_due t l q hq).2 s.now hstamp) (ih t)
          · exact ih t

example : (attempts idle [.op .call, .op (.move 0 .read), .op (.move 0 .write),
    .op (.move 0 .cancel), .op (.tick 10000), .op .call, .op (.move 1 .read),
    .op (.move 1 .write)]).map (·.now) = [0, 10000] := by decide

end LazyRedis
