/-
# JSON strings

Strings in JSON texts are read character by character, with their escapes.  A writer need
not escape what another does; it is read back when each character that it writes is
(`Writes`).

An escaped surrogate is refused, also where it is one half of a pair.

* `read_write`: what a writer has written is read back, whatever follows it.
-/
import Mathlib

namespace JsonString

/-! ## Reading -/

/-- The value of a hexadecimal digit. -/
def hexValue (c : Char) : Option ℕ :=
  if 0x30 ≤ c.toNat ∧ c.toNat ≤ 0x39 then some (c.toNat - 0x30)
  else if 0x41 ≤ c.toNat ∧ c.toNat ≤ 0x46 then some (c.toNat - 0x37)
  else if 0x61 ≤ c.toNat ∧ c.toNat ≤ 0x66 then some (c.toNat - 0x57)
  else none

/-- The character that four digits stand for. -/
def codeUnit (a b c d : Char) : Option Char := do
  let a ← hexValue a
  let b ← hexValue b
  let c ← hexValue c
  let d ← hexValue d
  let n := ((a * 16 + b) * 16 + c) * 16 + d
  if n.isValidChar then some (Char.ofNat n) else none

/-- The character that an escape of one letter stands for. -/
def letter (c : Char) : Option Char :=
  if c.toNat = 0x22 ∨ c.toNat = 0x5C ∨ c.toNat = 0x2F then some c
  else if c = 'b' then some (Char.ofNat 0x08)
  else if c = 't' then some (Char.ofNat 0x09)
  else if c = 'n' then some (Char.ofNat 0x0A)
  else if c = 'f' then some (Char.ofNat 0x0C)
  else if c = 'r' then some (Char.ofNat 0x0D)
  else none

/-- One more character in front of what is read. -/
def prepend (c : Char) (p : List Char × List Char) : List Char × List Char := (c :: p.1, p.2)

/-- The characters up to the closing quote, and what follows it. -/
def readChars : List Char → Option (List Char × List Char)
  | [] => none
  | c :: cs =>
      if c.toNat = 0x22 then some ([], cs)
      else if c.toNat = 0x5C then
        match cs with
        | [] => none
        | e :: cs =>
            if e = 'u' then
              match cs with
              | x :: y :: z :: w :: cs =>
                  (codeUnit x y z w).bind fun u => (readChars cs).map (prepend u)
              | _ => none
            else (letter e).bind fun l => (readChars cs).map (prepend l)
      else if c.toNat < 0x20 then none
      else (readChars cs).map (prepend c)

/-- A string in its quotes, and what follows it. -/
def read : List Char → Option (String × List Char)
  | [] => none
  | c :: cs =>
      if c.toNat = 0x22 then (readChars cs).map fun p => (String.ofList p.1, p.2) else none

/-- The text has to come next. -/
def expect (text : String) (cs : List Char) : Option (List Char) :=
  if text.toList <+: cs then some (cs.drop text.toList.length) else none

@[simp] theorem expect_append (text : String) (cs : List Char) :
    expect text (text.toList ++ cs) = some cs := by
  rw [expect, if_pos (List.prefix_append _ _), List.drop_left]

/-! ## Writing -/

/-- The characters `w` are a way to write `c` in a string. -/
def Writes (w : List Char) (c : Char) : Prop :=
  ∀ cs, readChars (w ++ cs) = (readChars cs).map (prepend c)

theorem writes_plain {c : Char} (hcontrol : 0x20 ≤ c.toNat) (hquote : c.toNat ≠ 0x22)
    (hescape : c.toNat ≠ 0x5C) : Writes [c] c := by
  intro cs
  rw [List.singleton_append, readChars.eq_def]
  dsimp only
  rw [if_neg hquote, if_neg hescape, if_neg (by omega)]

theorem writes_letter {b e c : Char} (hb : b.toNat = 0x5C) (he : letter e = some c) :
    Writes [b, e] c := by
  intro cs
  have hu : e ≠ 'u' := by
    rintro rfl
    have hnone : letter 'u' = none := by decide
    exact absurd (hnone.symm.trans he) (by simp)
  rw [List.cons_append, List.singleton_append, readChars.eq_def]
  dsimp only
  rw [if_neg (by omega), if_pos hb, if_neg hu, he, Option.bind_some]

theorem writes_codeUnit {b x y z w c : Char} (hb : b.toNat = 0x5C)
    (hc : codeUnit x y z w = some c) : Writes [b, 'u', x, y, z, w] c := by
  intro cs
  simp only [List.cons_append, List.nil_append]
  rw [readChars.eq_def]
  dsimp only
  rw [if_neg (by omega), if_pos hb, if_pos rfl, hc, Option.bind_some]

/-- **What is written is read back**, whatever follows it. -/
theorem read_write {write : Char → List Char} (hwrite : ∀ c, Writes (write c) c) {q q' : Char}
    (hq : q.toNat = 0x22) (hq' : q'.toNat = 0x22) (s : List Char) (rest : List Char) :
    read (q :: (s.flatMap write ++ q' :: rest)) = some (String.ofList s, rest) := by
  have hchars : readChars (s.flatMap write ++ q' :: rest) = some (s, rest) := by
    induction s with
    | nil =>
        rw [List.flatMap_nil, List.nil_append, readChars.eq_def]
        exact if_pos hq'
    | cons c s ih =>
        rw [List.flatMap_cons, List.append_assoc, hwrite c, ih]
        rfl
  rw [read, if_pos hq, hchars]
  rfl

end JsonString
