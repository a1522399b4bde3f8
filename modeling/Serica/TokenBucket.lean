/-
# Token buckets

A bucket holds at most `burst` tokens and is full at the start; it regains one token in each
`period`, evenly, and a request takes a token or is turned away.  Times and tokens are
elements of an ordered field.

* `countP_accepted_le`: in a span of time a bucket accepts at most its burst and what it
  regains in the span.
* `accepted_steady`: a burst followed by a request in each period is accepted whole, so the
  bound is met.
* `timesOf_serve`: with a bucket for each key, the requests of a key are served as if there were
  no others.
-/
import Mathlib

namespace TokenBucket

variable {K : Type*} [Field K] [LinearOrder K]

/-- What a bucket holds at most, and the time in which it regains a token. -/
structure Quota (K : Type*) where
  period : K
  burst : ℕ

/-- The tokens of a bucket at the time of its last request. -/
structure Bucket (K : Type*) where
  tokens : K
  time : K

/-- The tokens at a time; a bucket that was never asked is full. -/
def tokensAt (q : Quota K) (b : Option (Bucket K)) (t : K) : K :=
  match b with
  | none => q.burst
  | some b => min q.burst (b.tokens + (t - b.time) / q.period)

/-- A request at a time: whether it finds a token, and what is left. -/
def request (q : Quota K) (b : Option (Bucket K)) (t : K) : Bool × Bucket K :=
  if 1 ≤ tokensAt q b t then (true, ⟨tokensAt q b t - 1, t⟩) else (false, ⟨tokensAt q b t, t⟩)

/-- The times of the requests that are accepted. -/
def accepted (q : Quota K) : Option (Bucket K) → List K → List K
  | _, [] => []
  | b, t :: ts =>
      if (request q b t).1 then t :: accepted q (some (request q b t).2) ts
      else accepted q (some (request q b t).2) ts

theorem tokensAt_le_burst (q : Quota K) (b : Option (Bucket K)) (t : K) :
    tokensAt q b t ≤ q.burst := by
  cases b with
  | none => exact le_rfl
  | some b => exact min_le_left _ _

/-- A request that is accepted costs a token. -/
theorem accepted_cons_of_le {q : Quota K} {b : Option (Bucket K)} {t : K}
    (h : 1 ≤ tokensAt q b t) (ts : List K) :
    accepted q b (t :: ts) = t :: accepted q (some ⟨tokensAt q b t - 1, t⟩) ts := by
  rw [accepted, request, if_pos h, if_pos rfl]

theorem accepted_cons_of_lt {q : Quota K} {b : Option (Bucket K)} {t : K}
    (h : ¬ 1 ≤ tokensAt q b t) (ts : List K) :
    accepted q b (t :: ts) = accepted q (some ⟨tokensAt q b t, t⟩) ts := by
  rw [accepted, request, if_neg h, if_neg Bool.false_ne_true]

theorem accepted_sublist (q : Quota K) (b : Option (Bucket K)) (ts : List K) :
    (accepted q b ts).Sublist ts := by
  induction ts generalizing b with
  | nil => exact List.Sublist.refl _
  | cons t ts ih =>
      rw [accepted]
      split_ifs
      · exact (ih _).cons_cons t
      · exact (ih _).cons t

/-- Only requests are accepted. -/
theorem countP_accepted_of_forall {q : Quota K} {b : Option (Bucket K)} {ts : List K} {p : K → Bool}
    (h : ∀ t ∈ ts, p t = false) : (accepted q b ts).countP p = 0 := by
  rw [List.countP_eq_zero]
  intro t ht
  rw [h t ((accepted_sublist q b ts).subset ht)]
  exact Bool.false_ne_true

/-- Of a bucket only the tokens at the next request matter. -/
theorem accepted_cons_congr {q : Quota K} {b b' : Option (Bucket K)} {t : K}
    (h : tokensAt q b t = tokensAt q b' t) (ts : List K) :
    accepted q b (t :: ts) = accepted q b' (t :: ts) := by
  have hrequest : request q b t = request q b' t := by rw [request, request, h]
  rw [accepted, accepted, hrequest]

/-- A bucket is as if it had been asked at the time of the first request. -/
theorem accepted_asked {q : Quota K} {b : Option (Bucket K)} (t : K) (ts : List K) :
    accepted q b (t :: ts) = accepted q (some ⟨tokensAt q b t, t⟩) (t :: ts) := by
  refine accepted_cons_congr ?_ ts
  rw [tokensAt, sub_self, zero_div, add_zero, min_eq_right (tokensAt_le_burst q b t)]

/-! ## The bound -/

section Bound

variable [IsStrictOrderedRing K] {q : Quota K}

theorem tokensAt_nonneg (hperiod : 0 < q.period) {b : Bucket K} (hb : 0 ≤ b.tokens) {t : K}
    (ht : b.time ≤ t) : 0 ≤ tokensAt q (some b) t := by
  have hregained : 0 ≤ (t - b.time) / q.period := div_nonneg (sub_nonneg.mpr ht) hperiod.le
  exact le_min (Nat.cast_nonneg _) (add_nonneg hb hregained)

/-- What is accepted up to a time is paid from the tokens and from what is regained. -/
theorem countP_accepted_until (hperiod : 0 < q.period) {b : Bucket K} (hb : 0 ≤ b.tokens)
    {ts : List K} (hsorted : (b.time :: ts).Pairwise (· ≤ ·)) {e : K} (he : b.time ≤ e) :
    ((accepted q (some b) ts).countP (· ≤ e) : K) ≤ b.tokens + (e - b.time) / q.period := by
  induction ts generalizing b with
  | nil =>
      have hregained : 0 ≤ (e - b.time) / q.period := div_nonneg (sub_nonneg.mpr he) hperiod.le
      rw [accepted, List.countP_nil, Nat.cast_zero]
      exact add_nonneg hb hregained
  | cons t ts ih =>
      obtain ⟨hlater, hts⟩ := List.pairwise_cons.mp hsorted
      have hbt : b.time ≤ t := hlater t List.mem_cons_self
      by_cases hte : t ≤ e
      · -- The tokens at `t` and what is regained behind `t` are the whole of it.
        have hpaid : tokensAt q (some b) t + (e - t) / q.period
            ≤ b.tokens + (e - b.time) / q.period := by
          calc tokensAt q (some b) t + (e - t) / q.period
              ≤ b.tokens + (t - b.time) / q.period + (e - t) / q.period := by
                gcongr
                exact min_le_right _ _
            _ = b.tokens + (e - b.time) / q.period := by
                rw [add_assoc, ← add_div]
                ring_nf
        by_cases htoken : 1 ≤ tokensAt q (some b) t
        · have hrest := ih (b := ⟨tokensAt q (some b) t - 1, t⟩) (sub_nonneg.mpr htoken) hts hte
          have hcount : ∀ l : List K, (t :: l).countP (· ≤ e) = l.countP (· ≤ e) + 1 :=
            fun l => List.countP_cons_of_pos (decide_eq_true hte)
          rw [accepted_cons_of_le htoken, hcount, Nat.cast_succ]
          dsimp only at hrest
          linarith only [hrest, hpaid]
        · rw [accepted_cons_of_lt htoken]
          exact (ih (b := ⟨_, t⟩) (tokensAt_nonneg hperiod hb hbt) hts hte).trans hpaid
      · have hnone : (accepted q (some b) (t :: ts)).countP (· ≤ e) = 0 := by
          refine countP_accepted_of_forall fun t' ht' => decide_eq_false ?_
          rcases List.mem_cons.mp ht' with rfl | ht'
          · exact hte
          · exact fun hle => hte (((List.pairwise_cons.mp hts).1 t' ht').trans hle)
        have hregained : 0 ≤ (e - b.time) / q.period := div_nonneg (sub_nonneg.mpr he) hperiod.le
        rw [hnone, Nat.cast_zero]
        exact add_nonneg hb hregained

/-- From the first request on, no more is accepted than a full bucket and what is regained. -/
theorem countP_accepted_from (hperiod : 0 < q.period) {b : Option (Bucket K)} {t : K} {ts : List K}
    (htokens : 0 ≤ tokensAt q b t) (hsorted : (t :: ts).Pairwise (· ≤ ·)) {e : K} (hte : t ≤ e) :
    ((accepted q b (t :: ts)).countP (· ≤ e) : K) ≤ q.burst + (e - t) / q.period := by
  have hrepeated : (t :: t :: ts).Pairwise (· ≤ ·) := by
    refine List.pairwise_cons.mpr ⟨fun t' ht' => ?_, hsorted⟩
    rcases List.mem_cons.mp ht' with rfl | ht'
    · exact le_rfl
    · exact (List.pairwise_cons.mp hsorted).1 t' ht'
  calc ((accepted q b (t :: ts)).countP (· ≤ e) : K)
      ≤ tokensAt q b t + (e - t) / q.period := by
        rw [accepted_asked]
        exact countP_accepted_until hperiod (b := ⟨tokensAt q b t, t⟩) htokens hrepeated hte
    _ ≤ q.burst + (e - t) / q.period := by
        gcongr
        exact tokensAt_le_burst q b t

/-- A bucket that can be asked at these times: it was not asked later, and it owes nothing. -/
def Ready (b : Option (Bucket K)) (ts : List K) : Prop :=
  ∀ b' ∈ b, 0 ≤ b'.tokens ∧ ∀ t ∈ ts, b'.time ≤ t

/-- **The bound**: in a span of time a bucket accepts at most its burst and what it regains in
the span. -/
theorem countP_accepted_le (hperiod : 0 < q.period) {b : Option (Bucket K)} {ts : List K}
    (hb : Ready b ts) (hsorted : ts.Pairwise (· ≤ ·)) {s e : K} (hse : s ≤ e) :
    ((accepted q b ts).countP (fun t => s ≤ t ∧ t ≤ e) : K) ≤ q.burst + (e - s) / q.period := by
  have hbound : 0 ≤ q.burst + (e - s) / q.period :=
    add_nonneg (Nat.cast_nonneg _) (div_nonneg (sub_nonneg.mpr hse) hperiod.le)
  induction ts generalizing b with
  | nil =>
      rw [accepted, List.countP_nil, Nat.cast_zero]
      exact hbound
  | cons t ts ih =>
      obtain ⟨hlater, hts⟩ := List.pairwise_cons.mp hsorted
      have htokens : 0 ≤ tokensAt q b t := by
        cases b with
        | none => exact Nat.cast_nonneg _
        | some b => exact tokensAt_nonneg hperiod (hb b rfl).1 ((hb b rfl).2 t List.mem_cons_self)
      by_cases hst : s ≤ t
      · by_cases hte : t ≤ e
        · calc ((accepted q b (t :: ts)).countP (fun t => s ≤ t ∧ t ≤ e) : K)
              ≤ ((accepted q b (t :: ts)).countP (· ≤ e) : K) := by
                refine Nat.cast_le.mpr (List.countP_mono_left fun t' _ hin => ?_)
                rw [decide_eq_true_eq] at hin ⊢
                exact hin.2
            _ ≤ q.burst + (e - t) / q.period := countP_accepted_from hperiod htokens hsorted hte
            _ ≤ q.burst + (e - s) / q.period := by gcongr
        · have hnone : ∀ t' ∈ t :: ts, decide (s ≤ t' ∧ t' ≤ e) = false := by
            refine fun t' ht' => decide_eq_false fun hin => hte ?_
            rcases List.mem_cons.mp ht' with rfl | ht'
            · exact hin.2
            · exact (hlater t' ht').trans hin.2
          rw [countP_accepted_of_forall hnone, Nat.cast_zero]
          exact hbound
      · -- A request before the span is not counted, and leaves a bucket behind.
        have hbefore : ∀ l : List K, (t :: l).countP (fun t => s ≤ t ∧ t ≤ e)
            = l.countP (fun t => s ≤ t ∧ t ≤ e) :=
          fun l => List.countP_cons_of_neg (by simp [hst])
        have hready : ∀ tokens : K, 0 ≤ tokens → Ready (some ⟨tokens, t⟩) ts := by
          rintro tokens htokens _ ⟨⟩
          exact ⟨htokens, hlater⟩
        by_cases htoken : 1 ≤ tokensAt q b t
        · rw [accepted_cons_of_le htoken, hbefore]
          exact ih (hready _ (sub_nonneg.mpr htoken)) hts
        · rw [accepted_cons_of_lt htoken]
          exact ih (hready _ htokens) hts

/-! ## Meeting the bound -/

/-- A request in each of the next `k` periods. -/
def ticks (period start : K) : ℕ → List K
  | 0 => []
  | k + 1 => (start + period) :: ticks period (start + period) k

/-- A burst at the time 0, and then a request in each of `k` periods. -/
def steady (q : Quota K) (k : ℕ) : List K := List.replicate q.burst 0 ++ ticks q.period 0 k

omit [LinearOrder K] [IsStrictOrderedRing K] in
theorem length_ticks (period start : K) (k : ℕ) : (ticks period start k).length = k := by
  induction k generalizing start with
  | zero => rfl
  | succ k ih => rw [ticks, List.length_cons, ih]

omit [LinearOrder K] [IsStrictOrderedRing K] in
theorem length_steady (q : Quota K) (k : ℕ) : (steady q k).length = q.burst + k := by
  rw [steady, List.length_append, List.length_replicate, length_ticks]

theorem mem_ticks {period start t : K} (hperiod : 0 < period) {k : ℕ}
    (h : t ∈ ticks period start k) : start ≤ t ∧ t ≤ start + k * period := by
  induction k generalizing start with
  | zero => exact absurd h List.not_mem_nil
  | succ k ih =>
      have hregained : 0 ≤ k * period := mul_nonneg (Nat.cast_nonneg k) hperiod.le
      rw [Nat.cast_succ, add_mul, one_mul]
      rcases List.mem_cons.mp h with rfl | h
      · exact ⟨by linarith, by linarith⟩
      · obtain ⟨hge, hle⟩ := ih h
        exact ⟨by linarith, by linarith⟩

theorem mem_steady (hperiod : 0 < q.period) {k : ℕ} {t : K} (h : t ∈ steady q k) :
    0 ≤ t ∧ t ≤ k * q.period := by
  rcases List.mem_append.mp h with h | h
  · rw [List.eq_of_mem_replicate h]
    exact ⟨le_rfl, mul_nonneg (Nat.cast_nonneg k) hperiod.le⟩
  · rw [← zero_add (k * q.period)]
    exact mem_ticks hperiod h

theorem pairwise_ticks {period : K} (hperiod : 0 < period) (start : K) (k : ℕ) :
    (ticks period start k).Pairwise (· ≤ ·) := by
  induction k generalizing start with
  | zero => exact .nil
  | succ k ih => exact .cons (fun t ht => (mem_ticks hperiod ht).1) (ih _)

theorem pairwise_steady (hperiod : 0 < q.period) (k : ℕ) : (steady q k).Pairwise (· ≤ ·) := by
  refine List.pairwise_append.mpr ⟨?_, pairwise_ticks hperiod 0 k, ?_⟩
  · exact List.pairwise_replicate.mpr (Or.inr le_rfl)
  · intro t ht t' ht'
    rw [List.eq_of_mem_replicate ht]
    exact (mem_ticks hperiod ht').1

/-- An empty bucket has a token a period later. -/
theorem accepted_ticks (hperiod : 0 < q.period) (hburst : 0 < q.burst) (start : K) (k : ℕ) :
    accepted q (some ⟨0, start⟩) (ticks q.period start k) = ticks q.period start k := by
  induction k generalizing start with
  | zero => rfl
  | succ k ih =>
      have hone : tokensAt q (some ⟨0, start⟩) (start + q.period) = 1 := by
        rw [tokensAt, add_sub_cancel_left, div_self hperiod.ne', zero_add]
        exact min_eq_right (Nat.one_le_cast.mpr hburst)
      rw [ticks, accepted_cons_of_le hone.ge, hone, sub_self, ih]

/-- A bucket accepts as many requests at once as it has tokens. -/
theorem accepted_replicate {n : ℕ} (hn : n ≤ q.burst) (start : K) (ts : List K) :
    accepted q (some ⟨n, start⟩) (List.replicate n start ++ ts)
      = List.replicate n start ++ accepted q (some ⟨0, start⟩) ts := by
  induction n with
  | zero => rw [Nat.cast_zero]; rfl
  | succ n ih =>
      have htokens : tokensAt q (some ⟨(n + 1 : ℕ), start⟩) start = (n + 1 : ℕ) := by
        rw [tokensAt, sub_self, zero_div, add_zero]
        exact min_eq_right (Nat.cast_le.mpr hn)
      have hone : (1 : K) ≤ (n + 1 : ℕ) := Nat.one_le_cast.mpr (Nat.succ_pos n)
      rw [List.replicate_succ, List.cons_append, accepted_cons_of_le (hone.trans_eq htokens.symm),
        htokens, Nat.cast_succ, add_sub_cancel_right, ih (by omega)]
      rfl

/-- **The bound is met**: a burst and then a request in each period are all accepted. -/
theorem accepted_steady (hperiod : 0 < q.period) (hburst : 0 < q.burst) (k : ℕ) :
    accepted q none (steady q k) = steady q k := by
  have hasked : accepted q none (steady q k) = accepted q (some ⟨q.burst, 0⟩) (steady q k) := by
    obtain ⟨n, hn⟩ := Nat.exists_eq_add_one.mpr hburst
    rw [steady, hn, List.replicate_succ, List.cons_append, ← hn]
    refine accepted_cons_congr ?_ _
    rw [tokensAt, tokensAt, sub_self, zero_div, add_zero, min_self]
  rw [hasked, steady, accepted_replicate le_rfl, accepted_ticks hperiod hburst]

end Bound

/-! ## A bucket for each key -/

section Keys

variable {ι : Type*} [DecidableEq ι]

/-- The requests that are accepted by a limiter with a bucket for each key. -/
def serve (q : Quota K) : (ι → Option (Bucket K)) → List (ι × K) → List (ι × K)
  | _, [] => []
  | buckets, (i, t) :: reqs =>
      let rest := serve q (Function.update buckets i (some (request q (buckets i) t).2)) reqs
      if (request q (buckets i) t).1 then (i, t) :: rest else rest

/-- The times of the requests of a key. -/
def timesOf {T : Type*} (i : ι) (reqs : List (ι × T)) : List T :=
  (reqs.filter (·.1 = i)).map Prod.snd

theorem timesOf_cons_self {T : Type*} (i : ι) (t : T) (reqs : List (ι × T)) :
    timesOf i ((i, t) :: reqs) = t :: timesOf i reqs := by
  rw [timesOf, List.filter_cons_of_pos (by simp)]
  rfl

theorem timesOf_cons_of_ne {T : Type*} {i j : ι} (h : j ≠ i) (t : T) (reqs : List (ι × T)) :
    timesOf i ((j, t) :: reqs) = timesOf i reqs := by
  rw [timesOf, List.filter_cons_of_neg (by simp [h])]
  rfl

/-- **The keys are apart**: the requests of a key are served as if there were no others. -/
theorem timesOf_serve (q : Quota K) (i : ι) (buckets : ι → Option (Bucket K))
    (reqs : List (ι × K)) :
    timesOf i (serve q buckets reqs) = accepted q (buckets i) (timesOf i reqs) := by
  induction reqs generalizing buckets with
  | nil => rfl
  | cons req reqs ih =>
      obtain ⟨j, t⟩ := req
      rw [serve]
      by_cases hj : j = i
      · subst hj
        have hrest := ih (Function.update buckets j (some (request q (buckets j) t).2))
        rw [Function.update_self] at hrest
        rw [timesOf_cons_self, accepted]
        split_ifs
        · rw [timesOf_cons_self, hrest]
        · exact hrest
      · have hrest := ih (Function.update buckets j (some (request q (buckets j) t).2))
        rw [Function.update_of_ne (Ne.symm hj)] at hrest
        rw [timesOf_cons_of_ne hj]
        split_ifs
        · rw [timesOf_cons_of_ne hj, hrest]
        · exact hrest

end Keys

end TokenBucket
