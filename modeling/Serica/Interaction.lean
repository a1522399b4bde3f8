/-
# Interaction programs

A program that talks to its surroundings is a tree: it either returns, or makes
one call and goes on with the answer.  The answers are not part of the program.
Three readings of such a tree are given.

* `Prog.result` and `Prog.trace` take an environment, which answers the `n`-th call of
  the run as it likes, and give the result and the trace of calls and answers.  A
  statement for every environment is a statement about every adversary.

* `Prog.exec` runs a program in surroundings that have a state and are deterministic.

* `Pool` runs several programs at once over a shared store.  A step lets one
  program make its next call, answered as the store allows, or lets the store
  change by itself.  Calls may carry a tag that says who makes them.
  `Contract.Sound.runs` is the rely-guarantee rule: when each program keeps the store
  invariant and moves the store only along the rely relation, all of them do so
  together, in every interleaving.
-/
import Mathlib

/-- What a program may ask for, and the answers each call can get. -/
structure Interface where
  Op : Type
  Ans : Op → Type

/-- Programs over an interface that return a value of type `α`. -/
inductive Prog (I : Interface) (α : Type) : Type
  | ret (a : α) : Prog I α
  | call (o : I.Op) (k : I.Ans o → Prog I α) : Prog I α

/-- One call together with the answer it got. -/
structure Event (I : Interface) where
  op : I.Op
  ans : I.Ans op

/-- An environment answers the `n`-th call of a run. -/
def Env (I : Interface) : Type := ℕ → (o : I.Op) → I.Ans o

namespace Prog

variable {I : Interface} {α β ε : Type}

/-- Sequencing. -/
def bind : Prog I α → (α → Prog I β) → Prog I β
  | ret a, f => f a
  | call o k, f => call o fun r => (k r).bind f

/-- Sequencing of fallible programs: an error ends the program. -/
def andThen (p : Prog I (Except ε α)) (f : α → Prog I (Except ε β)) :
    Prog I (Except ε β) :=
  p.bind fun
    | .ok a => f a
    | .error e => ret (.error e)

/-- The result of the run whose first call is call number `n`. -/
def result (env : Env I) : ℕ → Prog I α → α
  | _, ret a => a
  | n, call o k => result env (n + 1) (k (env n o))

/-- The run in surroundings that have a state: each call is answered in the state that the
calls before it have left. -/
def exec {σ : Type} (answer : σ → (o : I.Op) → σ × I.Ans o) : σ → Prog I α → σ × α
  | s, ret a => (s, a)
  | s, call o k => exec answer (answer s o).1 (k (answer s o).2)

/-- The trace of the run whose first call is call number `n`. -/
def trace (env : Env I) : ℕ → Prog I α → List (Event I)
  | _, ret _ => []
  | n, call o k => ⟨o, env n o⟩ :: trace env (n + 1) (k (env n o))

@[simp] theorem trace_ret (env : Env I) (n : ℕ) (a : α) : (ret a : Prog I α).trace env n = [] :=
  rfl

@[simp] theorem result_call (env : Env I) (n : ℕ) (o : I.Op) (k : I.Ans o → Prog I α) :
    (call o k).result env n = (k (env n o)).result env (n + 1) := rfl

@[simp] theorem trace_call (env : Env I) (n : ℕ) (o : I.Op) (k : I.Ans o → Prog I α) :
    (call o k).trace env n = ⟨o, env n o⟩ :: (k (env n o)).trace env (n + 1) := rfl

@[simp] theorem exec_ret {σ : Type} (answer : σ → (o : I.Op) → σ × I.Ans o) (s : σ) (a : α) :
    (ret a : Prog I α).exec answer s = (s, a) := rfl

@[simp] theorem exec_call {σ : Type} (answer : σ → (o : I.Op) → σ × I.Ans o) (s : σ) (o : I.Op)
    (k : I.Ans o → Prog I α) :
    (call o k).exec answer s = (k (answer s o).2).exec answer (answer s o).1 := rfl

/-- In surroundings with a state the second part of a sequence starts in the state that
the first has left. -/
theorem exec_bind {σ : Type} (answer : σ → (o : I.Op) → σ × I.Ans o) (s : σ) (p : Prog I α)
    (f : α → Prog I β) :
    (p.bind f).exec answer s = (f (p.exec answer s).2).exec answer (p.exec answer s).1 := by
  induction p generalizing s with
  | ret a => rfl
  | call o k ih => rw [bind, exec_call, ih, exec_call]

/-- The run of a sequence: the second part starts where the first has ended. -/
theorem result_bind (env : Env I) (n : ℕ) (p : Prog I α) (f : α → Prog I β) :
    (p.bind f).result env n
      = (f (p.result env n)).result env (n + (p.trace env n).length) := by
  induction p generalizing n with
  | ret a => rfl
  | call o k ih =>
      rw [bind, result_call, ih, result_call, trace_call, List.length_cons,
        show n + 1 + ((k (env n o)).trace env (n + 1)).length
          = n + (((k (env n o)).trace env (n + 1)).length + 1) by omega]

theorem trace_bind (env : Env I) (n : ℕ) (p : Prog I α) (f : α → Prog I β) :
    (p.bind f).trace env n
      = p.trace env n
        ++ (f (p.result env n)).trace env (n + (p.trace env n).length) := by
  induction p generalizing n with
  | ret a => rfl
  | call o k ih =>
      rw [bind, trace_call, ih, result_call, trace_call, List.length_cons, List.cons_append,
        show n + 1 + ((k (env n o)).trace env (n + 1)).length
          = n + (((k (env n o)).trace env (n + 1)).length + 1) by omega]

/-- A fallible program that fails ends the sequence with its own trace. -/
theorem result_andThen_error {env : Env I} {n : ℕ} {p : Prog I (Except ε α)} {e : ε}
    (f : α → Prog I (Except ε β)) (h : p.result env n = .error e) :
    (p.andThen f).result env n = .error e := by
  rw [andThen, result_bind, h]
  rfl

theorem trace_andThen_error {env : Env I} {n : ℕ} {p : Prog I (Except ε α)} {e : ε}
    (f : α → Prog I (Except ε β)) (h : p.result env n = .error e) :
    (p.andThen f).trace env n = p.trace env n := by
  rw [andThen, trace_bind, h, trace_ret, List.append_nil]

/-- A fallible program that succeeds hands its value to the rest. -/
theorem result_andThen_ok {env : Env I} {n : ℕ} {p : Prog I (Except ε α)} {a : α}
    (f : α → Prog I (Except ε β)) (h : p.result env n = .ok a) :
    (p.andThen f).result env n = (f a).result env (n + (p.trace env n).length) := by
  rw [andThen, result_bind, h]

theorem trace_andThen_ok {env : Env I} {n : ℕ} {p : Prog I (Except ε α)} {a : α}
    (f : α → Prog I (Except ε β)) (h : p.result env n = .ok a) :
    (p.andThen f).trace env n
      = p.trace env n ++ (f a).trace env (n + (p.trace env n).length) := by
  rw [andThen, trace_bind, h]

/-! ### Every run -/

/-- Whatever the answers are, what the program returns meets `post`. -/
def Returns (post : α → Prop) : Prog I α → Prop
  | ret a => post a
  | call _ k => ∀ r, (k r).Returns post

theorem Returns.call {post : α → Prop} {o : I.Op} {k : I.Ans o → Prog I α}
    (h : ∀ r, (k r).Returns post) : (Prog.call o k).Returns post := h

theorem Returns.bind {post : α → Prop} {post' : β → Prop} {p : Prog I α} {f : α → Prog I β}
    (h : p.Returns post) (hf : ∀ a, post a → (f a).Returns post') :
    (p.bind f).Returns post' := by
  induction p with
  | ret a => exact hf a h
  | call o k ih => exact fun r => ih r (h r)

theorem Returns.mono {post post' : α → Prop} {p : Prog I α} (h : p.Returns post)
    (hpost : ∀ a, post a → post' a) : p.Returns post' := by
  induction p with
  | ret a => exact hpost a h
  | call o k ih => exact fun r => ih r (h r)

theorem Returns.result {post : α → Prop} {p : Prog I α} (h : p.Returns post) (env : Env I)
    (n : ℕ) : post (p.result env n) := by
  induction p generalizing n with
  | ret a => exact h
  | call o k ih => exact ih _ (h _) (n + 1)

theorem Returns.any (p : Prog I α) : p.Returns fun _ => True := by
  induction p with
  | ret a => exact trivial
  | call o k ih => exact fun r => ih r

/-! ### Two runs -/

/-- Two programs that make the same calls and return related values, as long as their answers
are related. -/
inductive Rel (R : (o : I.Op) → I.Ans o → I.Ans o → Prop) (Q : α → β → Prop) :
    Prog I α → Prog I β → Prop
  | ret {a : α} {b : β} : Q a b → Rel R Q (ret a) (ret b)
  | call {o : I.Op} {k : I.Ans o → Prog I α} {k' : I.Ans o → Prog I β} :
      (∀ r r', R o r r' → Rel R Q (k r) (k' r')) → Rel R Q (call o k) (call o k')

section Rel

variable {R : (o : I.Op) → I.Ans o → I.Ans o → Prop} {Q : α → β → Prop}

/-- Two runs of related programs in related surroundings have related results. -/
theorem Rel.result {p : Prog I α} {p' : Prog I β} {env env' : Env I} (h : Rel R Q p p')
    (henv : ∀ n o, R o (env n o) (env' n o)) (n : ℕ) : Q (p.result env n) (p'.result env' n) := by
  induction h generalizing n with
  | ret hq => exact hq
  | call _ ih => exact ih _ _ (henv n _) (n + 1)

theorem Rel.bind {γ δ : Type} {Q' : γ → δ → Prop} {p : Prog I α} {p' : Prog I β}
    {f : α → Prog I γ} {f' : β → Prog I δ} (h : Rel R Q p p')
    (hf : ∀ a b, Q a b → Rel R Q' (f a) (f' b)) : Rel R Q' (p.bind f) (p'.bind f') := by
  induction h with
  | ret hq => exact hf _ _ hq
  | call _ ih => exact .call ih

end Rel

end Prog

/-- Two outcomes of the same kind, with related errors or related values. -/
inductive ExceptRel {ε ε' α β : Type} (E : ε → ε' → Prop) (Q : α → β → Prop) :
    Except ε α → Except ε' β → Prop
  | ok {a : α} {b : β} : Q a b → ExceptRel E Q (.ok a) (.ok b)
  | error {e : ε} {e' : ε'} : E e e' → ExceptRel E Q (.error e) (.error e')

theorem ExceptRel.rfl {ε α : Type} {x : Except ε α} : ExceptRel Eq Eq x x := by
  cases x with
  | ok a => exact .ok (Eq.refl a)
  | error e => exact .error (Eq.refl e)

/-- Fallible programs with related values and the same errors. -/
theorem Prog.Rel.andThen {I : Interface} {α β γ δ ε : Type}
    {R : (o : I.Op) → I.Ans o → I.Ans o → Prop} {Q : α → β → Prop} {Q' : γ → δ → Prop}
    {p : Prog I (Except ε α)} {p' : Prog I (Except ε β)} {f : α → Prog I (Except ε γ)}
    {f' : β → Prog I (Except ε δ)} (h : Prog.Rel R (ExceptRel Eq Q) p p')
    (hf : ∀ a b, Q a b → Prog.Rel R (ExceptRel Eq Q') (f a) (f' b)) :
    Prog.Rel R (ExceptRel Eq Q') (p.andThen f) (p'.andThen f') := by
  apply h.bind
  rintro a b (hq | he)
  · exact hf _ _ hq
  · exact .ret (.error he)

/-! ## Programs that share a store -/

/-- A shared store: which answers a call may get, with the store it leaves, and
how the store may change by itself. -/
structure Store (I : Interface) (σ : Type) where
  answer : σ → (o : I.Op) → I.Ans o → σ → Prop
  drift : σ → σ → Prop

/-- The store that admits only the calls that meet a condition in the state before them:
its runs are the runs of `S` whose calls all do. -/
def Store.admitting {I : Interface} {σ : Type} (S : Store I σ) (ok : σ → I.Op → Prop) :
    Store I σ :=
  ⟨fun s o r s' => ok s o ∧ S.answer s o r s', S.drift⟩

/-- Calls that carry a tag, such as who makes them. -/
def Interface.tagged (τ : Type) (I : Interface) : Interface := ⟨τ × I.Op, fun o => I.Ans o.2⟩

/-- The program whose calls all carry the tag `t`. -/
def Prog.tagged {I : Interface} {τ α : Type} (t : τ) : Prog I α → Prog (I.tagged τ) α
  | ret a => ret a
  | call o k => call (I := I.tagged τ) (t, o) fun r => (k r).tagged t

/-- The store as the programs with the tag `t` see it. -/
def Store.seenBy {I : Interface} {τ σ : Type} (S : Store (I.tagged τ) σ) (t : τ) : Store I σ :=
  ⟨fun s o r s' => S.answer s (t, o) r s', S.drift⟩

/-- A pool of programs over a store. -/
structure Pool (I : Interface) (σ α : Type) where
  store : σ
  threads : List (Prog I α)

namespace Pool

variable {I : Interface} {σ α : Type}

/-- One step of a pool: some thread makes its next call, or the store drifts. -/
inductive Step (S : Store I σ) : Pool I σ α → Pool I σ α → Prop
  | call {s s' : σ} {ts : List (Prog I α)} {i : ℕ} {o : I.Op}
      {k : I.Ans o → Prog I α} {r : I.Ans o} :
      ts[i]? = some (.call o k) → S.answer s o r s' →
      Step S ⟨s, ts⟩ ⟨s', ts.set i (k r)⟩
  | drift {s s' : σ} {ts : List (Prog I α)} :
      S.drift s s' → Step S ⟨s, ts⟩ ⟨s', ts⟩

/-- The pools reached from `P` by any interleaving of its threads. -/
def Runs (S : Store I σ) (P Q : Pool I σ α) : Prop := Relation.ReflTransGen (Step S) P Q

/-- A run in which every call meets a condition is a run. -/
theorem Runs.of_admitting {S : Store I σ} {ok : σ → I.Op → Prop} {P Q : Pool I σ α}
    (h : Runs (S.admitting ok) P Q) : Runs S P Q := by
  induction h with
  | refl => exact .refl
  | tail _ hstep ih =>
      cases hstep with
      | call hi hans => exact ih.tail (.call hi hans.2)
      | drift hd => exact ih.tail (.drift hd)

end Pool

/-! ## The rely-guarantee rule -/

/-- The terms on which the threads of a pool share the store: an invariant of the
store and a preorder along which everybody moves it. -/
structure Contract (σ : Type) where
  inv : σ → Prop
  rely : σ → σ → Prop
  refl : ∀ s, rely s s
  trans : ∀ {s t u}, rely s t → rely t u → rely s u

namespace Contract

variable {I : Interface} {σ α : Type}

/-- **A program keeps the contract.**  Whenever it is scheduled, after any moves of
the others, its call leaves a store that satisfies the invariant and lies further
along the rely relation, and the rest of it keeps the contract from there; what
it returns satisfies `post`. -/
def Keeps (C : Contract σ) (S : Store I σ) (post : σ → α → Prop) : Prog I α → σ → Prop
  | .ret a, s => post s a
  | .call o k, s => ∀ s₁, C.rely s s₁ → C.inv s₁ → ∀ r s₂, S.answer s₁ o r s₂ →
      C.inv s₂ ∧ C.rely s₁ s₂ ∧ C.Keeps S post (k r) s₂

/-- The moves of the others do not break what a program still has to keep. -/
theorem Keeps.of_rely {C : Contract σ} {S : Store I σ} {post : σ → α → Prop}
    (hpost : ∀ s t a, post s a → C.rely s t → post t a) {p : Prog I α} {s t : σ}
    (h : C.Keeps S post p s) (hst : C.rely s t) : C.Keeps S post p t := by
  cases p with
  | ret a => exact hpost s t a h hst
  | call o k => exact fun s₁ hs₁ => h s₁ (C.trans hst hs₁)

/-- Sequencing: the second part keeps the contract after every result of the first. -/
theorem Keeps.bind {β : Type} {C : Contract σ} {S : Store I σ} {post : σ → α → Prop}
    {post' : σ → β → Prop} {p : Prog I α} {f : α → Prog I β} {s : σ} (h : C.Keeps S post p s)
    (hf : ∀ t a, post t a → C.Keeps S post' (f a) t) : C.Keeps S post' (p.bind f) s := by
  induction p generalizing s with
  | ret a => exact hf s a h
  | call o k ih =>
      intro s₁ hs₁ hinv r s₂ hans
      obtain ⟨hinv', hrely, hrest⟩ := h s₁ hs₁ hinv r s₂ hans
      exact ⟨hinv', hrely, ih r hrest⟩

/-- A program that keeps the contract keeps it for a weaker postcondition. -/
theorem Keeps.mono {C : Contract σ} {S : Store I σ} {post post' : σ → α → Prop} {p : Prog I α}
    {s : σ} (h : C.Keeps S post p s) (hpost : ∀ t a, post t a → post' t a) :
    C.Keeps S post' p s := by
  induction p generalizing s with
  | ret a => exact hpost s a h
  | call o k ih =>
      intro s₁ hs₁ hinv r s₂ hans
      obtain ⟨hinv', hrely, hrest⟩ := h s₁ hs₁ hinv r s₂ hans
      exact ⟨hinv', hrely, ih r hrest⟩

/-- A call that leaves the store as it is. -/
theorem Keeps.quiet {C : Contract σ} {S : Store I σ} {post : σ → α → Prop} {s : σ} {o : I.Op}
    {k : I.Ans o → Prog I α} (hquiet : ∀ t r t', S.answer t o r t' → t' = t)
    (h : ∀ t r, C.rely s t → C.Keeps S post (k r) t) : C.Keeps S post (.call o k) s := by
  intro t hst hinv r t' hans
  obtain rfl := hquiet t r t' hans
  exact ⟨hinv, C.refl t', h t' r hst⟩

/-- A tagged program keeps what it keeps as its tag sees the store. -/
theorem Keeps.tagged {τ : Type} {C : Contract σ} {S : Store (I.tagged τ) σ} {t : τ}
    {post : σ → α → Prop} {p : Prog I α} {s : σ} (h : C.Keeps (S.seenBy t) post p s) :
    C.Keeps S post (p.tagged t) s := by
  induction p generalizing s with
  | ret a => exact h
  | call o k ih =>
      intro s₁ hs₁ hinv r s₂ hans
      obtain ⟨hinv', hrely, hrest⟩ := h s₁ hs₁ hinv r s₂ hans
      exact ⟨hinv', hrely, ih r hrest⟩

/-- The invariant of a pool whose `i`-th thread has the postcondition `post i`. -/
def Sound (C : Contract σ) (S : Store I σ) (post : ℕ → σ → α → Prop) (P : Pool I σ α) : Prop :=
  C.inv P.store ∧ ∀ i p, P.threads[i]? = some p → C.Keeps S (post i) p P.store

/-- **The rely-guarantee step.**  A step of the pool keeps every thread sound. -/
theorem Sound.step {C : Contract σ} {S : Store I σ} {post : ℕ → σ → α → Prop}
    (hpost : ∀ i s t a, post i s a → C.rely s t → post i t a)
    (hdrift : ∀ s t, C.inv s → S.drift s t → C.inv t ∧ C.rely s t)
    {P Q : Pool I σ α} (h : C.Sound S post P) (hstep : Pool.Step S P Q) :
    C.Sound S post Q := by
  obtain ⟨hinv, hkeeps⟩ := h
  cases hstep with
  | @call s s' ts i o k r hi hans =>
      -- The thread that moved keeps its own terms; the others are pushed along the rely relation.
      obtain ⟨hinv', hrely, hrest⟩ := hkeeps i _ hi s (C.refl s) hinv r s' hans
      refine ⟨hinv', fun j p hj => ?_⟩
      by_cases hij : i = j
      · subst hij
        rw [List.getElem?_set_self (by
          rw [List.getElem?_eq_some_iff] at hi
          exact hi.1)] at hj
        rw [← Option.some.inj hj]
        exact hrest
      · rw [List.getElem?_set_ne hij] at hj
        exact (hkeeps j p hj).of_rely (hpost j) hrely
  | @drift s s' ts hd =>
      obtain ⟨hinv', hrely⟩ := hdrift s s' hinv hd
      exact ⟨hinv', fun i p hi => (hkeeps i p hi).of_rely (hpost i) hrely⟩

/-- **The rely-guarantee rule.**  Threads that each keep the contract from the
initial store keep it together, whatever the interleaving. -/
theorem Sound.runs {C : Contract σ} {S : Store I σ} {post : ℕ → σ → α → Prop}
    (hpost : ∀ i s t a, post i s a → C.rely s t → post i t a)
    (hdrift : ∀ s t, C.inv s → S.drift s t → C.inv t ∧ C.rely s t)
    {P Q : Pool I σ α} (h : C.Sound S post P) (hruns : Pool.Runs S P Q) :
    C.Sound S post Q := by
  induction hruns with
  | refl => exact h
  | tail _ hstep ih => exact ih.step hpost hdrift hstep

end Contract
