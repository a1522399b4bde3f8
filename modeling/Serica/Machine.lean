/-
# Machines: labelled transition systems with a partial next-state function

A machine is a predicate on its starting states and a partial function that
gives the next state for a label.  All nondeterminism sits in the labels: a
scheduler's choice, a reply of the environment, the moment at which a timer
fires.  A label that is not enabled in a state has no next state.

`Reach M ok` are the states reached by runs whose every step `(s, a)` meets the
side condition `ok s a`; with the trivial condition these are the reachable
states.  `Reach.invariant` is the one induction over runs; every safety result
about a machine is an application of it.
-/
import Mathlib

/-- A machine over states `σ` and labels `α`. -/
structure Machine (σ α : Type*) where
  init : σ → Prop
  next : σ → α → Option σ

namespace Machine

variable {σ α : Type*}

/-- The states reached by the runs of `M` all of whose steps meet `ok`. -/
inductive Reach (M : Machine σ α) (ok : σ → α → Prop) : σ → Prop
  | init {s : σ} : M.init s → Reach M ok s
  | step {s : σ} {a : α} {s' : σ} :
      Reach M ok s → ok s a → M.next s a = some s' → Reach M ok s'

/-- The side condition that every step meets. -/
def anyStep : σ → α → Prop := fun _ _ => True

variable {M : Machine σ α} {ok : σ → α → Prop}

/-- **The invariant rule.**  A predicate that holds of every starting state and
that every admitted step preserves holds of every state reached. -/
theorem Reach.invariant {P : σ → Prop} (hinit : ∀ s, M.init s → P s)
    (hstep : ∀ s a s', P s → ok s a → M.next s a = some s' → P s')
    {s : σ} (h : M.Reach ok s) : P s := by
  induction h with
  | init h0 => exact hinit _ h0
  | step _ hok hnext ih => exact hstep _ _ _ ih hok hnext

/-- A run under a side condition is a run. -/
theorem Reach.anyStep {s : σ} (h : M.Reach ok s) : M.Reach Machine.anyStep s := by
  induction h with
  | init h0 => exact .init h0
  | step _ _ hnext ih => exact ih.step trivial hnext

/-- A run along a list of labels, when every label of it is enabled. -/
def run (M : Machine σ α) : σ → List α → Option σ
  | s, [] => some s
  | s, a :: as => (M.next s a).bind fun s' => run M s' as

/-- The steps of the run along a list of labels all meet `ok`. -/
def RunOk (M : Machine σ α) (ok : σ → α → Prop) : σ → List α → Prop
  | _, [] => True
  | s, a :: as => ok s a ∧ ∀ s', M.next s a = some s' → RunOk M ok s' as

theorem RunOk.nil (s : σ) : M.RunOk ok s [] := trivial

/-- A step that meets the side condition, before a run that does. -/
theorem RunOk.cons {s t : σ} {a : α} {l : List α} (hok : ok s a) (hnext : M.next s a = some t)
    (h : M.RunOk ok t l) : M.RunOk ok s (a :: l) := by
  refine ⟨hok, ?_⟩
  intro s' hs'
  rw [← Option.some.inj (hnext.symm.trans hs')]
  exact h

/-- An explicit run ends in a reached state. -/
theorem Reach.of_run {s : σ} (hs : M.Reach ok s) :
    ∀ {l : List α} {s' : σ}, M.RunOk ok s l → M.run s l = some s' → M.Reach ok s' := by
  intro l
  induction l generalizing s with
  | nil =>
      intro s' _ hrun
      rw [run, Option.some.injEq] at hrun
      rw [← hrun]
      exact hs
  | cons a as ih =>
      intro s' hok hrun
      rw [run, Option.bind_eq_some_iff] at hrun
      obtain ⟨t, hnext, hrun⟩ := hrun
      exact ih (hs.step hok.1 hnext) (hok.2 t hnext) hrun

/-- **Side conditions that agree under an invariant** are met by the same runs. -/
theorem runOk_iff {ok' : σ → α → Prop} {P : σ → Prop}
    (hstep : ∀ s a s', P s → M.next s a = some s' → P s')
    (hiff : ∀ s a s', P s → M.next s a = some s' → (ok s a ↔ ok' s a)) {s t : σ} {l : List α}
    (hs : P s) (hrun : M.run s l = some t) : M.RunOk ok s l ↔ M.RunOk ok' s l := by
  induction l generalizing s with
  | nil => exact Iff.rfl
  | cons a as ih =>
      rw [run, Option.bind_eq_some_iff] at hrun
      obtain ⟨s', hnext, hrun⟩ := hrun
      have htail := ih (hstep s a s' hs hnext) hrun
      refine and_congr (hiff s a s' hs hnext) ?_
      rw [hnext]
      simpa using htail

/-- A run meets a side condition that each of its labels meets in every state. -/
theorem runOk_of_forall {l : List α} (h : ∀ a ∈ l, ∀ s, ok s a) (s : σ) : M.RunOk ok s l := by
  induction l generalizing s with
  | nil => exact trivial
  | cons a as ih =>
      exact ⟨h a List.mem_cons_self s,
        fun s' _ => ih (fun b hb => h b (List.mem_cons_of_mem a hb)) s'⟩

/-- Every run meets the trivial side condition. -/
theorem runOk_anyStep (s : σ) (as : List α) : M.RunOk anyStep s as :=
  runOk_of_forall (fun _ _ _ => trivial) s

/-- Two runs that meet the side condition, one after the other. -/
theorem RunOk.append {s t : σ} {l l' : List α} (h : M.RunOk ok s l) (hrun : M.run s l = some t)
    (h' : M.RunOk ok t l') : M.RunOk ok s (l ++ l') := by
  induction l generalizing s with
  | nil =>
      rw [run, Option.some.injEq] at hrun
      rw [hrun]
      exact h'
  | cons a as ih =>
      rw [run, Option.bind_eq_some_iff] at hrun
      obtain ⟨s', hnext, hrun⟩ := hrun
      exact .cons h.1 hnext (ih (h.2 s' hnext) hrun)

end Machine
