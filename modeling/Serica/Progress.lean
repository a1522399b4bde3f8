/-
# Progress of machines

A machine comes to rest when every step lowers a rank.  `Leads` counts the steps of a run
from one state to another, and a state is stuck when no step is admitted.

* `Ranked.length_le`: a run is no longer than the rank of the state in which it begins.
* `Ranked.comes_to_rest`: every state that meets the invariant leads to one that is stuck.
-/
import Serica.Machine

namespace Machine

variable {σ α : Type*}

/-- A run of `n` admitted steps from a state to another. -/
inductive Leads (M : Machine σ α) (ok : σ → α → Prop) (s : σ) : ℕ → σ → Prop
  | refl : Leads M ok s 0 s
  | tail {n : ℕ} {t u : σ} {a : α} :
      Leads M ok s n t → ok t a → M.next t a = some u → Leads M ok s (n + 1) u

/-- No step is admitted. -/
def Stuck (M : Machine σ α) (ok : σ → α → Prop) (s : σ) : Prop :=
  ∀ a, ok s a → M.next s a = none

variable {M : Machine σ α} {ok : σ → α → Prop} {s t u : σ} {n m : ℕ}

/-- A step, before a run. -/
theorem Leads.head {a : α} (hok : ok s a) (hnext : M.next s a = some t) (h : M.Leads ok t n u) :
    M.Leads ok s (n + 1) u := by
  induction h with
  | refl => exact .tail .refl hok hnext
  | tail _ hok' hnext' ih => exact .tail ih hok' hnext'

/-- An explicit run. -/
theorem Leads.of_run {l : List α} (hok : M.RunOk ok s l) (hrun : M.run s l = some t) :
    M.Leads ok s l.length t := by
  induction l generalizing s with
  | nil =>
      obtain rfl := Option.some.inj hrun
      exact .refl
  | cons a l ih =>
      obtain ⟨u, hnext, hrun⟩ := Option.bind_eq_some_iff.mp hrun
      exact (ih (hok.2 u hnext) hrun).head hok.1 hnext

/-- What every admitted step keeps, a run keeps. -/
theorem Leads.keeps {P : σ → Prop}
    (hstep : ∀ s a s', P s → ok s a → M.next s a = some s' → P s')
    (h : M.Leads ok s n t) (hs : P s) : P t := by
  induction h with
  | refl => exact hs
  | tail _ hok hnext ih => exact hstep _ _ _ ih hok hnext

/-- A run from a state that is reached. -/
theorem Leads.reach (h : M.Leads ok s n t) (hs : M.Reach ok s) : M.Reach ok t :=
  h.keeps (P := M.Reach ok) (fun _ _ _ hreach hok hnext => hreach.step hok hnext) hs

/-- **A rank.**  Every step from a state that meets the invariant keeps it, and lowers the
rank. -/
structure Ranked (M : Machine σ α) (ok : σ → α → Prop) (P : σ → Prop) (rank : σ → ℕ) :
    Prop where
  keeps : ∀ s a t, P s → ok s a → M.next s a = some t → P t
  lowers : ∀ s a t, P s → ok s a → M.next s a = some t → rank t < rank s

namespace Ranked

variable {P : σ → Prop} {rank : σ → ℕ}

/-- With fewer steps admitted. -/
theorem mono {ok' : σ → α → Prop} (h : M.Ranked ok P rank) (hok : ∀ s a, ok' s a → ok s a) :
    M.Ranked ok' P rank :=
  ⟨fun s a t hs ha => h.keeps s a t hs (hok s a ha),
    fun s a t hs ha => h.lowers s a t hs (hok s a ha)⟩

/-- **Runs are bounded** by the rank of the state in which they begin. -/
theorem length_le (h : M.Ranked ok P rank) (hs : P s) (hrun : M.Leads ok s n t) :
    rank t + n ≤ rank s := by
  induction hrun with
  | refl => exact le_rfl
  | tail hrun hok hnext ih =>
      have hlt := h.lowers _ _ _ (hrun.keeps h.keeps hs) hok hnext
      omega

/-- **A ranked machine comes to rest**, and from every state. -/
theorem comes_to_rest (h : M.Ranked ok P rank) (hs : P s) :
    ∃ n t, M.Leads ok s n t ∧ M.Stuck ok t := by
  induction hrank : rank s using Nat.strong_induction_on generalizing s with
  | _ r ih =>
      by_cases hstuck : M.Stuck ok s
      · exact ⟨0, s, .refl, hstuck⟩
      · simp only [Stuck, not_forall] at hstuck
        obtain ⟨a, hok, hnext⟩ := hstuck
        obtain ⟨t, ht⟩ := Option.ne_none_iff_exists'.mp hnext
        obtain ⟨n, u, hrun, hrest⟩ :=
          ih (rank t) (hrank ▸ h.lowers s a t hs hok ht) (h.keeps s a t hs hok ht) rfl
        exact ⟨n + 1, u, hrun.head hok ht, hrest⟩

end Ranked

/-- A sum of ranks is lowered by lowering one of them. -/
theorem sum_map_set_lt (rank : α → ℕ) {l : List α} {i : ℕ} {a b : α} (hi : l[i]? = some a)
    (hlt : rank b < rank a) : ((l.set i b).map rank).sum < (l.map rank).sum := by
  induction l generalizing i with
  | nil => exact absurd hi (by simp)
  | cons c l ih =>
      cases i with
      | zero =>
          obtain rfl := Option.some.inj hi
          simpa using hlt
      | succ i =>
          have hrest := ih hi
          simpa using hrest

end Machine
