/-
# Accounts of calls

What the calls of a program cost adds up, whatever the programs beside it do.

* `Prog.Balanced`: the running balance of a program stays in a set while it runs, and ends
  in a set that may depend on what it returns, whatever the answers are.
* `Store.logged` keeps a log of the calls, and loses no run (`Pool.Runs.logged`).
* `Pool.Accounted.runs`: in every interleaving, the log of a pool costs what the balances
  of its threads add up to.
-/
import Serica.Interaction

variable {I : Interface} {M α β σ : Type} [AddCommMonoid M]

/-- What a log of calls costs. -/
def logCost (cost : (o : I.Op) → I.Ans o → M) (log : List (Event I)) : M :=
  (log.map fun e => cost e.op e.ans).sum

variable {cost : (o : I.Op) → I.Ans o → M}

@[simp] theorem logCost_nil : logCost cost [] = 0 := rfl

theorem logCost_cons (e : Event I) (log : List (Event I)) :
    logCost cost (e :: log) = cost e.op e.ans + logCost cost log := by
  rw [logCost, List.map_cons, List.sum_cons]
  rfl

/-- What every call that counts costs. -/
theorem logCost_ite (p : (o : I.Op) → I.Ans o → Bool) (log : List (Event I)) :
    logCost (fun o r => if p o r then 1 else 0) log = log.countP fun e => p e.op e.ans := by
  induction log with
  | nil => rfl
  | cons e log ih =>
      rw [logCost_cons, ih, List.countP_cons]
      omega

/-- Calls of one kind against calls of another. -/
theorem logCost_sub (p q : (o : I.Op) → I.Ans o → Bool) (log : List (Event I)) :
    logCost (M := ℤ) (fun o r => (if p o r then 1 else 0) - if q o r then 1 else 0) log
      = (log.countP fun e => p e.op e.ans) - log.countP fun e => q e.op e.ans := by
  induction log with
  | nil => rfl
  | cons e log ih =>
      rw [logCost_cons, ih, List.countP_cons, List.countP_cons]
      push_cast
      omega

/-! ## One program -/

namespace Prog

/-- **A balanced program.**  Its balance is `m`; every call moves it by what the call costs,
and it stays in `during` up to the last call, and ends in `final`. -/
def Balanced (cost : (o : I.Op) → I.Ans o → M) (during : M → Prop) (final : α → M → Prop) :
    Prog I α → M → Prop
  | ret a, m => final a m
  | call o k, m => during m ∧ ∀ r, (k r).Balanced cost during final (m + cost o r)

variable {during : M → Prop} {final : α → M → Prop} {m : M}

/-- A call that costs nothing. -/
theorem Balanced.free {o : I.Op} {k : I.Ans o → Prog I α} (hm : during m)
    (hfree : ∀ r, cost o r = 0) (h : ∀ r, (k r).Balanced cost during final m) :
    (call o k).Balanced cost during final m := by
  refine ⟨hm, fun r => ?_⟩
  rw [hfree r, add_zero]
  exact h r

/-- Sequencing: the second part starts with the balance that the first has left. -/
theorem Balanced.bind {mid : α → M → Prop} {final : β → M → Prop} {p : Prog I α}
    {f : α → Prog I β} (h : p.Balanced cost during mid m)
    (hf : ∀ a m, mid a m → (f a).Balanced cost during final m) :
    (p.bind f).Balanced cost during final m := by
  induction p generalizing m with
  | ret a => exact hf a m h
  | call o k ih => exact ⟨h.1, fun r => ih r (h.2 r)⟩

/-- The balance at the end of a run. -/
theorem Balanced.run {p : Prog I α} (h : p.Balanced cost during final m) (env : Env I) (n : ℕ) :
    final (p.result env n) (m + logCost cost (p.trace env n)) := by
  induction p generalizing m n with
  | ret a =>
      rw [trace_ret, logCost_nil, add_zero]
      exact h
  | call o k ih =>
      rw [result_call, trace_call, logCost_cons, ← add_assoc]
      exact ih _ (h.2 _) (n + 1)

/-- The program has returned. -/
def returned : Prog I α → Bool
  | ret _ => true
  | call _ _ => false

end Prog

/-! ## A pool of programs -/

/-- The store with a log of the calls, the latest first. -/
def Store.logged (S : Store I σ) : Store I (σ × List (Event I)) where
  answer s o r s' := S.answer s.1 o r s'.1 ∧ s'.2 = ⟨o, r⟩ :: s.2
  drift s s' := S.drift s.1 s'.1 ∧ s'.2 = s.2

namespace Pool

/-- The number of threads that have not returned. -/
def unfinished (P : Pool I σ α) : ℕ := P.threads.countP fun p => !p.returned

/-- A call, with the log. -/
theorem Step.callLogged {S : Store I σ} {s s' : σ} {log : List (Event I)} {ts : List (Prog I α)}
    {i : ℕ} {o : I.Op} {k : I.Ans o → Prog I α} {r : I.Ans o}
    (hi : ts[i]? = some (.call o k)) (hans : S.answer s o r s') :
    Step S.logged ⟨(s, log), ts⟩ ⟨(s', ⟨o, r⟩ :: log), ts.set i (k r)⟩ :=
  .call hi ⟨hans, rfl⟩

/-- **The log loses no run.** -/
theorem Runs.logged {S : Store I σ} {P Q : Pool I σ α} (h : Runs S P Q) (log : List (Event I)) :
    ∃ log', Runs S.logged ⟨(P.store, log), P.threads⟩ ⟨(Q.store, log'), Q.threads⟩ := by
  induction h with
  | refl => exact ⟨log, .refl⟩
  | tail _ hstep ih =>
      obtain ⟨log', hruns⟩ := ih
      cases hstep with
      | call hi hans => exact ⟨_, hruns.tail (.callLogged hi hans)⟩
      | drift hd => exact ⟨_, hruns.tail (.drift ⟨hd, rfl⟩)⟩

theorem Step.length_eq {S : Store I σ} {P Q : Pool I σ α} (h : Step S P Q) :
    Q.threads.length = P.threads.length := by
  cases h with
  | call _ _ => exact List.length_set
  | drift _ => rfl

theorem Runs.length_eq {S : Store I σ} {P Q : Pool I σ α} (h : Runs S P Q) :
    Q.threads.length = P.threads.length := by
  induction h with
  | refl => rfl
  | tail _ hstep ih => exact hstep.length_eq.trans ih

/-- **An accounted pool**: its log costs what the balances of its threads add up to. -/
def Accounted (cost : (o : I.Op) → I.Ans o → M) (during : ℕ → M → Prop)
    (final : ℕ → α → M → Prop) (P : Pool I (σ × List (Event I)) α) : Prop :=
  ∃ b : ℕ → M, (∀ (i : ℕ) (p : Prog I α), P.threads[i]? = some p →
      p.Balanced cost (during i) (final i) (b i))
    ∧ logCost cost P.store.2 = ∑ i ∈ Finset.range P.threads.length, b i

namespace Accounted

variable {S : Store I σ} {during : ℕ → M → Prop} {final : ℕ → α → M → Prop}
  {P Q : Pool I (σ × List (Event I)) α}

/-- Programs that are balanced at 0, before any call. -/
theorem start {s : σ} {ts : List (Prog I α)}
    (h : ∀ (i : ℕ) (p : Prog I α), ts[i]? = some p →
      p.Balanced cost (during i) (final i) 0) :
    Accounted cost during final ⟨(s, []), ts⟩ :=
  ⟨fun _ => 0, h, by simp⟩

theorem step (h : Accounted cost during final P) (hstep : Step S.logged P Q) :
    Accounted cost during final Q := by
  obtain ⟨b, hbalances, hlog⟩ := h
  cases hstep with
  | @call s s' ts i o k r hi hans =>
      -- The thread that moved and the log both move by what the call costs.
      have hlt : i < ts.length := (List.getElem?_eq_some_iff.mp hi).1
      refine ⟨Function.update b i (b i + cost o r), ?_, ?_⟩
      · intro j p hj
        by_cases hij : i = j
        · subst hij
          rw [List.getElem?_set_self hlt] at hj
          rw [← Option.some.inj hj, Function.update_self]
          exact (hbalances i _ hi).2 r
        · rw [List.getElem?_set_ne hij] at hj
          rw [Function.update_of_ne (Ne.symm hij)]
          exact hbalances j p hj
      · have hmem : i ∈ Finset.range ts.length := Finset.mem_range.mpr hlt
        rw [hans.2, logCost_cons, hlog, List.length_set, Finset.sum_update_of_mem hmem,
          Finset.sdiff_singleton_eq_erase, add_comm (b i), add_assoc,
          Finset.add_sum_erase _ _ hmem]
  | @drift s s' ts hd =>
      refine ⟨b, hbalances, ?_⟩
      rw [hd.2]
      exact hlog

/-- **The balances add up, in every interleaving.** -/
theorem runs (h : Accounted cost during final P) (hruns : Runs S.logged P Q) :
    Accounted cost during final Q := by
  induction hruns with
  | refl => exact h
  | tail _ hstep ih => exact ih.step hstep

/-- A bound on every balance bounds the log. -/
theorem le_sum [PartialOrder M] [IsOrderedAddMonoid M] (h : Accounted cost during final P)
    (bound : ℕ → M) (hduring : ∀ i m, during i m → m ≤ bound i)
    (hfinal : ∀ i a m, final i a m → m ≤ bound i) :
    logCost cost P.store.2 ≤ ∑ i ∈ Finset.range P.threads.length, bound i := by
  obtain ⟨b, hbalances, hlog⟩ := h
  rw [hlog]
  refine Finset.sum_le_sum fun i hi => ?_
  obtain ⟨p, hp⟩ : ∃ p, P.threads[i]? = some p :=
    ⟨_, List.getElem?_eq_getElem (Finset.mem_range.mp hi)⟩
  have hbal := hbalances i p hp
  cases p with
  | ret a => exact hfinal i a _ hbal
  | call o k => exact hduring i _ hbal.1

end Accounted

/-- The elements of a list that count, place by place. -/
theorem countP_eq_sum {γ : Type} (p : γ → Bool) (l : List γ) :
    l.countP p = ∑ i ∈ Finset.range l.length, if (l[i]?).any p then 1 else 0 := by
  induction l with
  | nil => rfl
  | cons x l ih =>
      rw [List.length_cons, Finset.sum_range_succ', List.countP_cons, ih]
      simp

/-- **Debts that are settled at the end**: each thread owes at most one call while it runs and
nothing once it has returned, so the log is behind by at most the unfinished threads. -/
theorem Accounted.settled {cost : (o : I.Op) → I.Ans o → ℤ}
    {P : Pool I (σ × List (Event I)) α}
    (h : Accounted cost (fun _ m => m = 0 ∨ m = 1) (fun _ _ m => m = 0) P) :
    0 ≤ logCost cost P.store.2 ∧ logCost cost P.store.2 ≤ P.unfinished := by
  obtain ⟨b, hbalances, hlog⟩ := h
  have hbound : ∀ i ∈ Finset.range P.threads.length,
      0 ≤ b i ∧ b i ≤ ((if (P.threads[i]?).any fun p => !p.returned then 1 else 0 : ℕ) : ℤ) := by
    intro i hi
    obtain ⟨p, hp⟩ : ∃ p, P.threads[i]? = some p :=
      ⟨_, List.getElem?_eq_getElem (Finset.mem_range.mp hi)⟩
    have hbal := hbalances i p hp
    rw [hp]
    cases p with
    | ret a =>
        have hb : b i = 0 := hbal
        simp [hb, Prog.returned]
    | call o k =>
        have hb : b i = 0 ∨ b i = 1 := hbal.1
        rcases hb with hb | hb <;> simp [hb, Prog.returned]
  rw [hlog, unfinished, countP_eq_sum, Nat.cast_sum]
  exact ⟨Finset.sum_nonneg fun i hi => (hbound i hi).1,
    Finset.sum_le_sum fun i hi => (hbound i hi).2⟩

end Pool
