/-
# Numeric character references

`&#57344;` and `&#xE000;` in a text.  A decoder may ask for the closing `;` or not;
`hasRef` has both readings.

* `hasRef_of_closed`: a closed reference is a reference.
* `hasRef_of_infix`: a closed reference of a part of a text is one of the text.
* `hasRef_separated`: a blank ends every reference.
-/
import Mathlib

namespace CharRef

/-- The characters that a reference is made of after its `&`. -/
def isRefChar (c : Char) : Bool := c.isAlphanum || c == '#' || c == ';'

def digitValue (c : Char) : ℕ :=
  if c.isDigit then c.toNat - '0'.toNat
  else if c.isLower then c.toNat - 'a'.toNat + 10
  else c.toNat - 'A'.toNat + 10

/-- The number that the digits up front make, and whether a `;` closes them. -/
def readDigits (base : ℕ) (isDigit : Char → Bool) (cs : List Char) : Option (ℕ × Bool) :=
  if cs.takeWhile isDigit = [] then none
  else some ((cs.takeWhile isDigit).foldl (fun n c => n * base + digitValue c) 0,
    (cs.dropWhile isDigit).head? == some ';')

/-- The code that the text after a `&` stands for, and whether a `;` closes it. -/
def refCode : List Char → Option (ℕ × Bool)
  | '#' :: d :: cs =>
      if d = 'x' ∨ d = 'X' then readDigits 16 Char.isHexDigit cs
      else readDigits 10 Char.isDigit (d :: cs)
  | _ => none

/-- The text after a `&` starts with a reference to the code `n`; with `closed`, one that
a `;` closes. -/
def isRef (closed : Bool) (n : ℕ) (cs : List Char) : Bool :=
  match refCode (cs.takeWhile isRefChar) with
  | some (m, semicolon) => m == n && (semicolon || !closed)
  | none => false

/-- A reference to the code `n` occurs in the text. -/
def hasRef (closed : Bool) (n : ℕ) : List Char → Bool
  | [] => false
  | c :: cs => (c == '&' && isRef closed n cs) || hasRef closed n cs

example : hasRef true 0xE000 "a&#57344;b".toList = true := by decide +kernel
example : hasRef false 0xE000 "&#xe000g".toList = true := by decide +kernel
example : hasRef false 0xE000 "&#xE0 00;".toList = false := by decide +kernel

/-- A closed reference is a reference. -/
theorem hasRef_of_closed {n : ℕ} {cs : List Char} (h : hasRef true n cs = true) :
    hasRef false n cs = true := by
  induction cs with
  | nil => exact h
  | cons c cs ih =>
      rw [hasRef, Bool.or_eq_true, Bool.and_eq_true] at h ⊢
      refine h.imp (fun ⟨hamp, href⟩ => ⟨hamp, ?_⟩) ih
      unfold isRef at href ⊢
      split at href
      · rename_i m semicolon hcode
        rw [Bool.and_eq_true] at href
        simp [href.1]
      · exact absurd href (by simp)

theorem hasRef_append_right (closed : Bool) (n : ℕ) (xs : List Char) {cs : List Char}
    (h : hasRef closed n cs = true) : hasRef closed n (xs ++ cs) = true := by
  induction xs with
  | nil => exact h
  | cons x xs ih => rw [List.cons_append, hasRef, ih, Bool.or_true]

/-- A scan that stops inside a text does not see what is appended. -/
theorem takeWhile_append_of_dropWhile {α : Type} {p : α → Bool} {xs : List α} {y : α} {ys : List α}
    (h : xs.dropWhile p = y :: ys) (zs : List α) :
    (xs ++ zs).takeWhile p = xs.takeWhile p ∧ (xs ++ zs).dropWhile p = y :: (ys ++ zs) := by
  have hy : p y = false := by
    have := List.head?_dropWhile_not p xs
    rw [h] at this
    simpa using this
  have hsplit : xs = xs.takeWhile p ++ y :: ys := by
    rw [← h, List.takeWhile_append_dropWhile]
  have hall : ∀ x ∈ xs.takeWhile p, p x = true := fun x hx => List.mem_takeWhile_imp hx
  rw [hsplit, List.append_assoc, List.takeWhile_append_of_pos hall,
    List.dropWhile_append_of_pos hall, List.cons_append, List.takeWhile_cons_of_neg (by simp [hy]),
    List.dropWhile_cons_of_neg (by simp [hy]), List.append_nil,
    List.takeWhile_append_of_pos hall, List.takeWhile_cons_of_neg (by simp [hy]), List.append_nil]
  exact ⟨rfl, rfl⟩

theorem readDigits_append {base n : ℕ} {p : Char → Bool} {xs : List Char}
    (h : readDigits base p xs = some (n, true)) (ys : List Char) :
    readDigits base p (xs ++ ys) = some (n, true) := by
  unfold readDigits at h ⊢
  split_ifs at h with hne
  rw [Option.some.injEq, Prod.mk.injEq, beq_iff_eq] at h
  obtain ⟨hn, hsemi⟩ := h
  obtain ⟨rest, hdrop⟩ := List.head?_eq_some_iff.mp hsemi
  obtain ⟨htake, hdrop'⟩ := takeWhile_append_of_dropWhile hdrop ys
  rw [htake, hdrop', if_neg hne, hn]
  rfl

theorem refCode_append {n : ℕ} {xs : List Char} (h : refCode xs = some (n, true))
    (ys : List Char) : refCode (xs ++ ys) = some (n, true) := by
  unfold refCode at h
  split at h
  · rename_i d cs
    rw [List.cons_append, List.cons_append, refCode]
    split_ifs at h ⊢
    · exact readDigits_append h ys
    · exact readDigits_append h ys
  · exact absurd h (by simp)

/-- What follows the end of a closed reference does not matter. -/
theorem isRef_append {n : ℕ} {xs : List Char} (h : isRef true n xs = true) (ys : List Char) :
    isRef true n (xs ++ ys) = true := by
  unfold isRef at h
  split at h
  · rename_i m semicolon hcode
    rw [Bool.and_eq_true, beq_iff_eq, Bool.not_true, Bool.or_false] at h
    obtain ⟨rfl, rfl⟩ := h
    have hlonger : ∃ zs, (xs ++ ys).takeWhile isRefChar = xs.takeWhile isRefChar ++ zs := by
      cases hdrop : xs.dropWhile isRefChar with
      | cons y rest =>
          exact ⟨[], by rw [(takeWhile_append_of_dropWhile hdrop ys).1, List.append_nil]⟩
      | nil =>
          have hall : xs.takeWhile isRefChar = xs := by
            have := List.takeWhile_append_dropWhile (p := isRefChar) (l := xs)
            rwa [hdrop, List.append_nil] at this
          refine ⟨ys.takeWhile isRefChar, ?_⟩
          rw [List.takeWhile_append_of_pos, hall]
          intro c hc
          rw [← hall] at hc
          exact List.mem_takeWhile_imp hc
    obtain ⟨zs, hzs⟩ := hlonger
    rw [isRef, hzs, refCode_append hcode]
    simp
  · exact absurd h (by simp)

theorem hasRef_append_left {n : ℕ} {xs : List Char} (h : hasRef true n xs = true)
    (ys : List Char) : hasRef true n (xs ++ ys) = true := by
  induction xs with
  | nil => exact absurd h (by simp [hasRef])
  | cons x xs ih =>
      rw [List.cons_append]
      rw [hasRef, Bool.or_eq_true, Bool.and_eq_true] at h ⊢
      exact h.imp (fun ⟨hamp, href⟩ => ⟨hamp, isRef_append href ys⟩) ih

/-- A closed reference of a part of a text is one of the text. -/
theorem hasRef_of_infix {n : ℕ} {xs cs : List Char} (hin : xs <:+: cs)
    (h : hasRef true n xs = true) : hasRef true n cs = true := by
  obtain ⟨front, back, rfl⟩ := hin
  rw [List.append_assoc]
  exact hasRef_append_right true n front (hasRef_append_left h back)

/-- A blank ends every reference. -/
theorem hasRef_separated (closed : Bool) (n : ℕ) (xs cs : List Char) :
    hasRef closed n (xs ++ ' ' :: cs) = (hasRef closed n xs || hasRef closed n cs) := by
  have hblank : isRefChar ' ' = false := by decide
  have htake : ∀ ys : List Char,
      (ys ++ ' ' :: cs).takeWhile isRefChar = ys.takeWhile isRefChar := by
    intro ys
    induction ys with
    | nil => exact List.takeWhile_cons_of_neg (by simp [hblank])
    | cons y ys ih => rw [List.cons_append, List.takeWhile_cons, List.takeWhile_cons, ih]
  induction xs with
  | nil => rw [List.nil_append, hasRef, hasRef]; rfl
  | cons x xs ih => rw [List.cons_append, hasRef, hasRef, ih, isRef, htake, Bool.or_assoc, isRef]

end CharRef
