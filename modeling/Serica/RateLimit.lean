/-
# The rate limit

What the limiter that `buildGovernorConfig` sets up lets through: a bucket for each peer, of
as many tokens as requests are allowed in a minute, which regains a token in each period.

* `le_periodMs_mul_iff`: when the period, which is rounded down, is long enough.
* `withinRate_iff`: when the limiter keeps to the configured rate.
-/
import Serica.StartUp
import Serica.TokenBucket

namespace RateLimit

open StartUp TokenBucket

/-- The bucket of a peer, with times in milliseconds. -/
def quotaOf (g : GovernorConfig) : Quota ℚ := ⟨g.periodMs.toNat, g.burstSize.toNat⟩

/-- The requests that are let through, each with its peer and the time of its arrival. -/
def letThrough (g : GovernorConfig) (reqs : List (IpAddr × ℚ)) : List (IpAddr × ℚ) :=
  serve (quotaOf g) (fun _ => none) reqs

/-- Of any peer, and in any span of time, no more requests are let through than a burst and
what the rate allows in the span. -/
def WithinRate (requestsPerMinute : UInt32) : Prop :=
  ∀ g, buildGovernorConfig requestsPerMinute = some g →
    ∀ reqs : List (IpAddr × ℚ), (reqs.map Prod.snd).Pairwise (· ≤ ·) →
      ∀ (peer : IpAddr) (start span : ℚ), 0 ≤ span →
        ((timesOf peer (letThrough g reqs)).countP
            (fun t => start ≤ t ∧ t ≤ start + span) : ℤ)
          ≤ requestsPerMinute.toNat + ⌈span * requestsPerMinute.toNat / 60000⌉

/-! ## The settings -/

/-- The period in milliseconds. -/
def periodMs (requestsPerMinute : ℕ) : ℕ := max (60000 / max requestsPerMinute 1) 1

/-- The settings of the limiter, as numbers. -/
theorem buildGovernorConfig_eq_some {r : UInt32} {g : GovernorConfig}
    (h : buildGovernorConfig r = some g) :
    quotaOf g = ⟨periodMs r.toNat, max r.toNat 1⟩ := by
  unfold buildGovernorConfig finish at h
  dsimp only at h
  rw [Option.ite_none_left_eq_some, Option.some.injEq] at h
  have hminute : UInt64.toNat 60000 = 60000 := rfl
  have hone : UInt32.toNat 1 = 1 := rfl
  have hone64 : UInt64.toNat 1 = 1 := rfl
  rw [quotaOf, ← h.2, UInt64.toNat_max, UInt32.toNat_max, UInt64.toNat_div,
    UInt32.toNat_toUInt64, UInt32.toNat_max, hminute, hone, hone64]
  rfl

/-- The period is not rounded down below the rate exactly when it need not be rounded. -/
theorem le_periodMs_mul_iff (r : ℕ) : 60000 ≤ periodMs r * r ↔ r ∣ 60000 ∨ 60000 ≤ r := by
  unfold periodMs
  rcases Nat.eq_zero_or_pos r with rfl | hpos
  · exact iff_of_false (by decide) (by decide)
  · rw [max_eq_left (Nat.succ_le_of_lt hpos : 1 ≤ r)]
    by_cases hsmall : r < 60000
    · have hperiod : 1 ≤ 60000 / r := (Nat.one_le_div_iff hpos).mpr hsmall.le
      have hle := Nat.div_mul_le_self 60000 r
      rw [max_eq_left hperiod, or_iff_left (not_le.mpr hsmall)]
      constructor
      · exact fun hge => Dvd.intro_left (60000 / r) (le_antisymm hle hge)
      · exact fun hdvd => (Nat.div_mul_cancel hdvd).ge
    · have hone : 1 ≤ max (60000 / r) 1 := le_max_right _ _
      refine iff_of_true ?_ (Or.inr (not_lt.mp hsmall))
      calc 60000 ≤ 1 * r := by omega
        _ ≤ max (60000 / r) 1 * r := Nat.mul_le_mul_right r hone

/-! ## What is let through -/

theorem periodMs_pos (r : ℕ) : (0 : ℚ) < periodMs r := by
  have hone : 1 ≤ periodMs r := le_max_right _ _
  exact_mod_cast hone

/-- The arrivals of a peer are in order when all arrivals are. -/
theorem pairwise_timesOf {reqs : List (IpAddr × ℚ)} (h : (reqs.map Prod.snd).Pairwise (· ≤ ·))
    (peer : IpAddr) : (timesOf peer reqs).Pairwise (· ≤ ·) :=
  h.sublist (List.filter_sublist.map Prod.snd)

/-- A peer that is let through as often as can be. -/
theorem letThrough_steady {r : UInt32} {g : GovernorConfig} (h : buildGovernorConfig r = some g)
    (peer : IpAddr) (k : ℕ) :
    timesOf peer (letThrough g ((steady (quotaOf g) k).map fun t => (peer, t)))
      = steady (quotaOf g) k := by
  have htimes : timesOf peer ((steady (quotaOf g) k).map fun t => (peer, t))
      = steady (quotaOf g) k := by
    rw [timesOf, List.filter_eq_self.mpr (by simp), List.map_map]
    exact List.map_id _
  rw [letThrough, timesOf_serve, htimes, buildGovernorConfig_eq_some h]
  exact accepted_steady (periodMs_pos _) (Nat.lt_of_lt_of_le Nat.one_pos (le_max_right _ _)) k

/-- In the span of `k` periods the limiter may let through its burst and `k` requests. -/
theorem not_withinRate {r : UInt32} (k : ℕ)
    (h : (r.toNat : ℤ) + ⌈(k * periodMs r.toNat : ℚ) * r.toNat / 60000⌉
      < (max r.toNat 1 : ℕ) + k) : ¬ WithinRate r := by
  intro hwithin
  obtain ⟨g, hg⟩ := Option.isSome_iff_exists.mp (buildGovernorConfig_isSome r)
  have hquota := buildGovernorConfig_eq_some hg
  have hpos := periodMs_pos r.toNat
  let peer : IpAddr := .v4 ⟨203, 0, 113, 9⟩
  have hbound := hwithin g hg ((steady (quotaOf g) k).map fun t => (peer, t))
    (by rw [List.map_map, hquota]
        exact (List.map_id _).symm ▸ pairwise_steady hpos k)
    peer 0 (k * periodMs r.toNat) (mul_nonneg (Nat.cast_nonneg k) hpos.le)
  rw [letThrough_steady hg, hquota] at hbound
  have hall : (steady (⟨periodMs r.toNat, max r.toNat 1⟩ : Quota ℚ) k).countP
      (fun t : ℚ => 0 ≤ t ∧ t ≤ 0 + k * periodMs r.toNat) = max r.toNat 1 + k := by
    rw [List.countP_eq_length.mpr, length_steady]
    intro t ht
    rw [decide_eq_true_eq, zero_add]
    exact mem_steady hpos ht
  rw [hall] at hbound
  push_cast at hbound h
  omega

/-- A period that is long enough keeps the limiter to the rate. -/
theorem withinRate_of_le {r : UInt32} (hge : 60000 ≤ periodMs r.toNat * r.toNat) :
    WithinRate r := by
  intro g hg reqs hsorted peer start span hspan
  have hquota := buildGovernorConfig_eq_some hg
  generalize r.toNat = r at hge hquota ⊢
  have hpos : (0 : ℚ) < periodMs r := periodMs_pos r
  have hne : r ≠ 0 := fun hzero => by simp [hzero] at hge
  have hburst : max r 1 = r := max_eq_left (Nat.pos_of_ne_zero hne)
  have hready : Ready none (timesOf peer reqs) := fun b hb => nomatch hb
  have hbound := countP_accepted_le (q := (⟨periodMs r, r⟩ : Quota ℚ)) hpos hready
    (pairwise_timesOf hsorted peer) (le_add_of_nonneg_right hspan : start ≤ start + span)
  -- What is regained in the span is no more than the rate allows.
  have hregained : span / periodMs r ≤ span * r / 60000 := by
    have hge' : (60000 : ℚ) ≤ periodMs r * r := by exact_mod_cast hge
    rw [div_le_div_iff₀ hpos (by norm_num), mul_assoc, mul_comm (r : ℚ)]
    exact mul_le_mul_of_nonneg_left hge' hspan
  have hceil := Int.le_ceil (span * r / 60000)
  rw [letThrough, timesOf_serve, hquota, hburst]
  rw [add_sub_cancel_left] at hbound
  have hcount : (((accepted (⟨periodMs r, r⟩ : Quota ℚ) none (timesOf peer reqs)).countP
      (fun t => start ≤ t ∧ t ≤ start + span) : ℕ) : ℚ) ≤ r + ⌈span * r / 60000⌉ := by
    linarith only [hbound, hregained, hceil]
  exact_mod_cast hcount

/-- **When the limiter keeps to the rate**: when a minute is a multiple of the rate, in
milliseconds, and for rates of a request in each millisecond or more. -/
theorem withinRate_iff (requestsPerMinute : UInt32) :
    WithinRate requestsPerMinute
      ↔ requestsPerMinute.toNat ∣ 60000 ∨ 60000 ≤ requestsPerMinute.toNat := by
  rw [← le_periodMs_mul_iff]
  refine ⟨fun hwithin => ?_, withinRate_of_le⟩
  by_contra hlt
  -- In 60000 periods as many requests are regained, and the rate allows `periodMs r * r`.
  refine not_withinRate 60000 ?_ hwithin
  generalize requestsPerMinute.toNat = r at hlt ⊢
  have hrate : ((60000 : ℕ) * periodMs r : ℚ) * r / 60000 = (periodMs r * r : ℕ) := by
    push_cast
    ring
  rw [hrate, Int.ceil_natCast]
  push_cast
  have hburst : r ≤ max r 1 := le_max_left r 1
  omega

/-- With a refill in each millisecond, 3 of them regain more than 40000 a minute allow. -/
theorem not_withinRate_40000 : ¬ WithinRate 40000 := by
  refine not_withinRate 3 ?_
  have hrate : (40000 : UInt32).toNat = 40000 := rfl
  have hperiod : periodMs 40000 = 1 := by decide
  rw [hrate, hperiod]
  norm_num

end RateLimit
