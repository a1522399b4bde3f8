/-
# Blocks of digit strings

Numbers written with a fixed number of digits in base `2 ^ w`, most significant digit
first, and the numbers that agree with one of them in their first bits.

* `sameDigits_iff`: a block that ends with a digit fixes the digits before its end.
* `sameBits_iff`: a block that ends within a digit fixes the digits before that one, and
  the top of it.
-/
import Mathlib

namespace DigitBlock

/-- The number with the digits `ds` in base `2 ^ w`, most significant digit first. -/
def value (w : ℕ) (ds : List ℕ) : ℕ := Nat.ofDigits (2 ^ w) ds.reverse

/-- The digits are below the base. -/
def Digits (w : ℕ) (ds : List ℕ) : Prop := ∀ d ∈ ds, d < 2 ^ w

/-- `x` and `y`, both of `n` digits, agree in their first `len` bits. -/
def SameBits (w n len x y : ℕ) : Prop := x / 2 ^ (w * n - len) = y / 2 ^ (w * n - len)

variable {w : ℕ} {xs ys : List ℕ}

theorem value_append_singleton (ds : List ℕ) (d : ℕ) :
    value w (ds ++ [d]) = value w ds * 2 ^ w + d := by
  rw [value, List.reverse_append, List.reverse_singleton, List.singleton_append,
    Nat.ofDigits_cons, value]
  ring

theorem Digits.take {ds : List ℕ} (h : Digits w ds) (k : ℕ) : Digits w (ds.take k) :=
  fun d hd => h d (List.mem_of_mem_take hd)

/-- Cutting digits off is a division. -/
theorem value_div {ds : List ℕ} (h : Digits w ds) {k : ℕ} (hk : k ≤ ds.length) :
    value w ds / 2 ^ (w * (ds.length - k)) = value w (ds.take k) := by
  have hdigits : ∀ d ∈ ds.reverse, d < 2 ^ w := fun d hd => h d (List.mem_reverse.mp hd)
  rw [pow_mul, value, Nat.ofDigits_div_pow_eq_ofDigits_drop _ (by positivity) _ hdigits,
    List.drop_reverse, Nat.sub_sub_self hk, value]

/-- A number of a given length determines its digits. -/
theorem value_inj (hw : 0 < w) (hx : Digits w xs) (hy : Digits w ys)
    (hlen : xs.length = ys.length) : value w xs = value w ys ↔ xs = ys := by
  constructor
  · intro h
    have hbase : 1 < 2 ^ w := Nat.one_lt_two_pow hw.ne'
    apply List.reverse_injective
    apply Nat.ofDigits_inj_of_len_eq hbase (by simpa using hlen)
    · exact fun d hd => hx d (List.mem_reverse.mp hd)
    · exact fun d hd => hy d (List.mem_reverse.mp hd)
    · exact h
  · rintro rfl
    rfl

/-- **A block that ends with a digit** fixes the digits before its end. -/
theorem sameDigits_iff (hw : 0 < w) (hx : Digits w xs) (hy : Digits w ys)
    (hlen : xs.length = ys.length) {k : ℕ} (hk : k ≤ xs.length) :
    SameBits w xs.length (w * k) (value w xs) (value w ys) ↔ xs.take k = ys.take k := by
  have htake : (xs.take k).length = (ys.take k).length := by
    rw [List.length_take, List.length_take, hlen]
  rw [SameBits, ← Nat.mul_sub, value_div hx hk]
  rw [hlen, value_div hy (hlen ▸ hk)]
  exact value_inj hw (hx.take k) (hy.take k) htake

/-- The first bits of a number that end within the digit `d`. -/
theorem value_div_within {front back : List ℕ} {d : ℕ} (hds : Digits w (front ++ d :: back))
    {j : ℕ} (hj : j ≤ w) :
    value w (front ++ d :: back) / 2 ^ (w * back.length + (w - j))
      = value w front * 2 ^ j + d / 2 ^ (w - j) := by
  have hlen : (front ++ d :: back).length - (front ++ [d]).length = back.length := by
    simp only [List.length_append, List.length_cons, List.length_nil]
    omega
  have hle : (front ++ [d]).length ≤ (front ++ d :: back).length := by simp
  have htake : (front ++ d :: back).take (front ++ [d]).length = front ++ [d] := by
    rw [List.append_cons front d back]
    exact List.take_left
  have hpow : 2 ^ w = 2 ^ j * 2 ^ (w - j) := by rw [← pow_add, Nat.add_sub_cancel' hj]
  have hcut := value_div hds hle
  rw [hlen, htake, value_append_singleton] at hcut
  rw [pow_add, ← Nat.div_div_eq_div_mul, hcut, hpow, ← mul_assoc, mul_comm _ (2 ^ (w - j)),
    Nat.mul_add_div (by positivity)]

/-- **A block that ends within a digit** fixes the digits before that one, and its top. -/
theorem sameBits_iff (hw : 0 < w) (front front' : List ℕ) {back back' : List ℕ} {d d' : ℕ}
    (hx : Digits w (front ++ d :: back)) (hy : Digits w (front' ++ d' :: back'))
    (hfront : front.length = front'.length) (hback : back.length = back'.length)
    {j : ℕ} (hj : j ≤ w) :
    SameBits w (front ++ d :: back).length (w * front.length + j)
        (value w (front ++ d :: back)) (value w (front' ++ d' :: back'))
      ↔ front = front' ∧ d / 2 ^ (w - j) = d' / 2 ^ (w - j) := by
  have hbits : w * (front ++ d :: back).length - (w * front.length + j)
      = w * back.length + (w - j) := by
    rw [List.length_append, List.length_cons, Nat.mul_add, Nat.mul_add]
    omega
  have htop : ∀ {front back : List ℕ} {d : ℕ}, Digits w (front ++ d :: back) →
      d / 2 ^ (w - j) < 2 ^ j := by
    intro front back d hds
    rw [Nat.div_lt_iff_lt_mul (by positivity), ← pow_add, Nat.add_sub_cancel' hj]
    exact hds d (by simp)
  have hinj := value_inj hw (fun c hc => hx c (List.mem_append_left _ hc))
    (fun c hc => hy c (List.mem_append_left _ hc)) hfront
  rw [SameBits, hbits, value_div_within hx hj, hback, value_div_within hy hj, ← hinj]
  constructor
  · intro h
    have hdiv := congrArg (· / 2 ^ j) h
    have hmod := congrArg (· % 2 ^ j) h
    simp only [Nat.mul_add_mod', Nat.mod_eq_of_lt (htop hx), Nat.mod_eq_of_lt (htop hy)] at hmod
    simp only [mul_comm _ (2 ^ j), Nat.mul_add_div (Nat.two_pow_pos j),
      Nat.div_eq_of_lt (htop hx), Nat.div_eq_of_lt (htop hy), add_zero] at hdiv
    exact ⟨hdiv, hmod⟩
  · rintro ⟨hvalue, hdigit⟩
    rw [hvalue, hdigit]

end DigitBlock
