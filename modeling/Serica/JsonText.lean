/-
# JSON texts

Values are written without blanks between the tokens, or indented, and read in either form.
How a writer escapes the characters of a string, and how it writes the numbers that are no
integers, is up to its `JsonFormat`.

* `read_write`: what a writer has written is read back, in either layout.
* `le_of_mem_compact`: a compact text has no control characters, and so it is on one line.
-/
import Serica.Json
import Serica.JsonString
import Serica.RustStr

/-! ## Formats -/

/-- The characters of numbers. -/
def JsonText.isNumberChar (c : Char) : Bool :=
  c.isDigit || c = '-' || c = '+' || c = '.' || c = 'e' || c = 'E'

/-- How floats are written, and how they are read.  A text of a float has a mark that integers
do not have. -/
structure FloatText where
  IsFloat : ℚ → Prop
  writeFloat : ℚ → List Char
  readFloat : List Char → Option ℚ
  float_chars : ∀ q, IsFloat q → ∀ c ∈ writeFloat q, JsonText.isNumberChar c = true
  float_mark : ∀ q, IsFloat q → ∃ c ∈ writeFloat q, c = '.' ∨ c = 'e'
  readFloat_writeFloat : ∀ q, IsFloat q → readFloat (writeFloat q) = some q

/-- How floats and the characters of strings are written. -/
structure JsonFormat extends FloatText where
  escape : Char → List Char
  writes_escape : ∀ c, JsonString.Writes (escape c) c
  le_of_mem_escape : ∀ c, ∀ x ∈ escape c, 0x20 ≤ x.toNat

namespace JsonText

variable (F : JsonFormat)

/-! ## Writing -/

def writeNumber : JsonNumber → List Char
  | .posInt n => Nat.toDigits 10 n.toNat
  | .negInt z => '-' :: Nat.toDigits 10 z.natAbs
  | .float value => F.writeFloat value

def writeString (s : String) : List Char := '"' :: (s.toList.flatMap F.escape ++ ['"'])

def isBlank (c : Char) : Bool :=
  c.toNat = 0x20 || c.toNat = 0x09 || c.toNat = 0x0A || c.toNat = 0x0D

/-- The blanks in front of an element at a depth, and those after a colon. -/
structure Layout where
  gap : ℕ → List Char
  colon : List Char
  blank_gap : ∀ d, ∀ c ∈ gap d, isBlank c = true
  blank_colon : ∀ c ∈ colon, isBlank c = true

/-- No blanks. -/
def Layout.compact : Layout where
  gap _ := []
  colon := []
  blank_gap := by simp
  blank_colon := by simp

/-- A line break and the blanks after it are blanks. -/
theorem isBlank_of_mem_indent {k : ℕ} {c : Char} (h : c ∈ '\n' :: List.replicate k ' ') :
    isBlank c = true := by
  rcases List.mem_cons.mp h with rfl | h
  · decide
  · rw [List.eq_of_mem_replicate h]
    decide

/-- Each element on a line of its own, indented by two blanks for each level. -/
def Layout.pretty : Layout where
  gap d := '\n' :: List.replicate (2 * d) ' '
  colon := [' ']
  blank_gap _ _ h := isBlank_of_mem_indent h
  blank_colon _ h := isBlank_of_mem_indent (k := 1) (List.mem_cons_of_mem _ h)

/-- Texts with a comma between any two. -/
def commas (texts : List (List Char)) : List Char := [','].intercalate texts

variable (L : Layout)

/-- The elements of a list and its end. -/
def enclose (close : Char) (d : ℕ) (texts : List (List Char)) : List Char :=
  match texts with
  | [] => [close]
  | text :: texts => commas (text :: texts) ++ (L.gap d ++ [close])

mutual

/-- The text of a value at a depth. -/
def write : Json → ℕ → List Char
  | .null, _ => "null".toList
  | .bool b, _ => (if b then "true" else "false").toList
  | .number n, _ => writeNumber F n
  | .string s, _ => writeString F s
  | .array items, d => '[' :: enclose L ']' d (writeItems items (d + 1))
  | .object fields, d => '\x7b' :: enclose L '\x7d' d (writeFields fields (d + 1))

def writeItems : List Json → ℕ → List (List Char)
  | [], _ => []
  | v :: items, d => (L.gap d ++ write v d) :: writeItems items d

def writeFields : List (String × Json) → ℕ → List (List Char)
  | [], _ => []
  | (key, v) :: fields, d =>
      (L.gap d ++ (writeString F key ++ ':' :: (L.colon ++ write v d))) :: writeFields fields d

end

/-- The numbers that can be written: unsigned integers of 64 bits, negative ones of as many,
and floats. -/
def IsNumber : JsonNumber → Prop
  | .posInt _ => True
  | .negInt z => z < 0 ∧ z.natAbs ≤ 2 ^ 63
  | .float value => F.IsFloat value

/-- Every number of the value can be written. -/
inductive Writable : Json → Prop
  | null : Writable .null
  | bool (b : Bool) : Writable (.bool b)
  | number {n : JsonNumber} : IsNumber F n → Writable (.number n)
  | string (s : String) : Writable (.string s)
  | array {items : List Json} : (∀ v ∈ items, Writable v) → Writable (.array items)
  | object {fields : List (String × Json)} :
      (∀ field ∈ fields, Writable field.2) → Writable (.object fields)

section Writable

variable {F}

@[simp] theorem writable_null : Writable F .null := .null

@[simp] theorem writable_bool (b : Bool) : Writable F (.bool b) := .bool b

@[simp] theorem writable_string (s : String) : Writable F (.string s) := .string s

@[simp] theorem writable_ofNat (n : UInt64) : Writable F (.ofNat n) := .number trivial

@[simp] theorem writable_array {items : List Json} :
    Writable F (.array items) ↔ ∀ v ∈ items, Writable F v := by
  constructor
  · rintro ⟨⟩
    assumption
  · exact .array

@[simp] theorem writable_object {fields : List (String × Json)} :
    Writable F (.object fields) ↔ ∀ field ∈ fields, Writable F field.2 := by
  constructor
  · rintro ⟨⟩
    assumption
  · exact .object

end Writable

/-! ## Reading -/

/-- A number without a fraction, sign and needless zeros. -/
def isNatural (token : List Char) : Bool :=
  token ≠ [] && token.all Char.isDigit && (token = ['0'] || token.head? ≠ some '0')

/-- An integer that fits is kept as one; every other number is a float. -/
def readNumber (token : List Char) : Option JsonNumber :=
  let digits := token.dropWhile (· = '-')
  let n := Nat.ofDigitChars 10 digits 0
  if isNatural token ∧ n < 2 ^ 64 then some (.posInt (UInt64.ofNat n))
  else if token = '-' :: digits ∧ isNatural digits ∧ 0 < n ∧ n ≤ 2 ^ 63 then
    some (.negInt (-(n : ℤ)))
  else (F.readFloat token).map .float

def skip (cs : List Char) : List Char := cs.dropWhile isBlank

/-- What follows `c`, when it is what comes next. -/
def next (c : Char) (cs : List Char) : Option (List Char) :=
  match skip cs with
  | [] => none
  | d :: cs => if d = c then some cs else none

/-- A literal or a number. -/
def readAtom (cs : List Char) : Option (Json × List Char) :=
  match JsonString.expect "null" cs, JsonString.expect "true" cs,
      JsonString.expect "false" cs with
  | some cs, _, _ => some (.null, cs)
  | _, some cs, _ => some (.bool true, cs)
  | _, _, some cs => some (.bool false, cs)
  | _, _, _ => (readNumber F (cs.takeWhile isNumberChar)).map fun n =>
      (.number n, cs.dropWhile isNumberChar)

section Lists

variable {α : Type*} (close : Char) (element : List Char → Option (α × List Char))

/-- The elements of a list that has some, and what follows the list. -/
def readElements : ℕ → List Char → Option (List α × List Char)
  | 0, _ => none
  | fuel + 1, cs =>
      (element cs).bind fun p =>
        match next close p.2 with
        | some cs => some ([p.1], cs)
        | none => (next ',' p.2).bind fun cs =>
            (readElements fuel cs).map fun q => (p.1 :: q.1, q.2)

def readList (fuel : ℕ) (cs : List Char) : Option (List α × List Char) :=
  match next close cs with
  | some cs => some ([], cs)
  | none => readElements close element fuel cs

end Lists

/-- A member of an object. -/
def readField (value : List Char → Option (Json × List Char)) (cs : List Char) :
    Option ((String × Json) × List Char) :=
  (JsonString.read (skip cs)).bind fun key => (next ':' key.2).bind fun cs =>
    (value cs).map fun p => ((key.1, p.1), p.2)

/-- A value, and what follows it. -/
def readValue : ℕ → List Char → Option (Json × List Char)
  | 0, _ => none
  | fuel + 1, cs =>
      match skip cs with
      | [] => none
      | c :: cs =>
          if c = '"' then (JsonString.read (c :: cs)).map fun p => (.string p.1, p.2)
          else if c = '[' then
            (readList ']' (readValue fuel) fuel cs).map fun p => (.array p.1, p.2)
          else if c = '\x7b' then
            (readList '\x7d' (readField (readValue fuel)) fuel cs).map fun p =>
              (.object p.1, p.2)
          else readAtom F (c :: cs)

/-- The value of a text, with nothing after it. -/
def read (cs : List Char) : Option Json :=
  (readValue F (cs.length + 1) cs).bind fun p => if skip p.2 = [] then some p.1 else none

/-! ## Numbers are read back -/

variable {F}

theorem isNumberChar_of_isDigit {c : Char} (h : c.isDigit = true) : isNumberChar c = true := by
  simp [isNumberChar, h]

theorem isDigit_of_mem_toDigits {n : ℕ} {c : Char} (h : c ∈ Nat.toDigits 10 n) :
    c.isDigit = true :=
  Nat.isDigit_of_mem_toDigits (by omega) (by omega) h

/-- Only zero begins with a zero. -/
theorem head_toDigits_ne {n : ℕ} (hn : 0 < n) : (Nat.toDigits 10 n).head? ≠ some '0' := by
  induction n using Nat.strong_induction_on with
  | h n ih =>
      by_cases hlt : n < 10
      · rw [Nat.toDigits_of_lt_base hlt]
        interval_cases n <;> decide
      · have hfirst := ih (n / 10) (by omega) (by omega)
        rw [Nat.toDigits_of_base_le (by omega) (by omega),
          List.head?_append_of_ne_nil _ Nat.toDigits_ne_nil]
        exact hfirst

/-- Decimal digits are the text of a natural number. -/
theorem isNatural_toDigits (n : ℕ) : isNatural (Nat.toDigits 10 n) = true := by
  have hall : (Nat.toDigits 10 n).all Char.isDigit = true := by
    rw [List.all_eq_true]
    exact fun c hc => isDigit_of_mem_toDigits hc
  have hzero : Nat.toDigits 10 n = ['0'] ∨ (Nat.toDigits 10 n).head? ≠ some '0' := by
    rcases Nat.eq_zero_or_pos n with rfl | hn
    · exact Or.inl (by decide)
    · exact Or.inr (head_toDigits_ne hn)
  simp [isNatural, hall, hzero, Nat.toDigits_ne_nil]

/-- Decimal digits have no sign in front. -/
theorem dropWhile_minus_toDigits (n : ℕ) :
    (Nat.toDigits 10 n).dropWhile (· = '-') = Nat.toDigits 10 n := by
  rw [List.dropWhile_eq_self_iff]
  intro hpos hminus
  have hdigit := isDigit_of_mem_toDigits (List.getElem_mem hpos)
  rw [of_decide_eq_true hminus] at hdigit
  exact absurd hdigit (by decide)

/-- A text with a point or an exponent is no integer, whatever its signs. -/
theorem isNatural_eq_false {token : List Char} {c : Char} (hc : c ∈ token)
    (hdigit : c.isDigit = false) : isNatural token = false := by
  have hall : token.all Char.isDigit = false := by
    rw [List.all_eq_false]
    exact ⟨c, hc, by simp [hdigit]⟩
  simp [isNatural, hall]

/-- A number is read back from its text. -/
theorem readNumber_writeNumber {n : JsonNumber} (hn : IsNumber F n) :
    readNumber F (writeNumber F n) = some n := by
  cases n with
  | posInt n =>
      have hn := isNatural_toDigits n.toNat
      simp only [readNumber, writeNumber, dropWhile_minus_toDigits, Nat.ofDigitChars_ten_toDigits]
      rw [if_pos ⟨hn, n.toNat_lt⟩, UInt64.ofNat_toNat]
  | negInt z =>
      obtain ⟨hneg, hle⟩ := hn
      have hnot : isNatural ('-' :: Nat.toDigits 10 z.natAbs) = false :=
        isNatural_eq_false (c := '-') List.mem_cons_self (by decide)
      have hdigits : ('-' :: Nat.toDigits 10 z.natAbs).dropWhile (· = '-')
          = Nat.toDigits 10 z.natAbs := by
        rw [List.dropWhile_cons_of_pos (by decide), dropWhile_minus_toDigits]
      have hz : -(z.natAbs : ℤ) = z := by omega
      simp only [readNumber, writeNumber, hdigits, Nat.ofDigitChars_ten_toDigits]
      rw [if_neg (by simp [hnot]), if_pos ⟨trivial, isNatural_toDigits _, by omega, hle⟩, hz]
  | float value =>
      obtain ⟨c, hc, hmark⟩ := F.float_mark value hn
      have hdigit : c.isDigit = false := by
        rcases hmark with rfl | rfl <;> decide
      have hnot := isNatural_eq_false hc hdigit
      rw [writeNumber, readNumber, if_neg (by simp [hnot]), if_neg, F.readFloat_writeFloat value hn]
      · rfl
      · -- Without the sign it still has its mark.
        rintro ⟨heq, hnatural, -⟩
        rw [heq] at hc
        rcases List.mem_cons.mp hc with rfl | hmem
        · rcases hmark with h | h <;> exact absurd h (by decide)
        · exact Bool.false_ne_true ((isNatural_eq_false hmem hdigit).symm.trans hnatural)

/-! ## Values are read back -/

/-- The characters that a text begins with. -/
def isStart (c : Char) : Bool :=
  c = '"' || c = '[' || c = '\x7b' || c = 'n' || c = 't' || c = 'f' || isNumberChar c

/-- No text begins with a blank. -/
theorem isBlank_of_isStart {c : Char} (h : isStart c = true) : isBlank c = false := by
  by_contra hblank
  simp only [Bool.not_eq_false, isBlank, Bool.or_eq_true, decide_eq_true_eq] at hblank
  rcases hblank with ((hc | hc) | hc) | hc <;>
    rw [← Char.ofNat_toNat c, hc] at h <;> exact absurd h (by decide)

/-- Blanks only. -/
def Blank (pad : List Char) : Prop := ∀ c ∈ pad, isBlank c = true

/-- Blanks in front of a text are skipped. -/
theorem skip_append {pad : List Char} (hpad : Blank pad) {c : Char} (hc : isBlank c = false)
    (cs : List Char) : skip (pad ++ c :: cs) = c :: cs := by
  rw [skip, List.dropWhile_append_of_pos hpad, List.dropWhile_cons_of_neg (by simp [hc])]

/-- The character that comes next is found behind blanks. -/
theorem next_self {pad : List Char} (hpad : Blank pad) {c : Char} (hc : isBlank c = false)
    (cs : List Char) : next c (pad ++ c :: cs) = some cs := by
  rw [next, skip_append hpad hc]
  exact if_pos rfl

/-- Another character than the one that comes next is not. -/
theorem next_of_ne {pad : List Char} (hpad : Blank pad) {c d : Char} (hd : isBlank d = false)
    (hne : d ≠ c) (cs : List Char) : next c (pad ++ d :: cs) = none := by
  rw [next, skip_append hpad hd]
  exact if_neg hne

theorem blank_nil : Blank [] := by simp [Blank]

/-- What follows a number does not continue it. -/
def Ends (cs : List Char) : Prop := ∀ c ∈ cs.head?, isNumberChar c = false

/-- A blank ends a number. -/
theorem isNumberChar_of_isBlank {c : Char} (h : isBlank c = true) : isNumberChar c = false := by
  simp only [isBlank, Bool.or_eq_true, decide_eq_true_eq] at h
  rcases h with ((hc | hc) | hc) | hc <;> rw [← Char.ofNat_toNat c, hc] <;> decide

/-- Behind a number, blanks and a character of no number do not continue it. -/
theorem ends_append {pad : List Char} (hpad : Blank pad) {c : Char}
    (hc : isNumberChar c = false) (cs : List Char) : Ends (pad ++ c :: cs) := by
  cases pad with
  | nil =>
      rintro _ ⟨⟩
      exact hc
  | cons b pad =>
      rintro _ ⟨⟩
      exact isNumberChar_of_isBlank (hpad b List.mem_cons_self)

/-- A number ends where its characters do. -/
theorem span_number {w rest : List Char} (hw : ∀ c ∈ w, isNumberChar c = true)
    (hrest : Ends rest) :
    (w ++ rest).takeWhile isNumberChar = w ∧ (w ++ rest).dropWhile isNumberChar = rest := by
  rw [List.takeWhile_append_of_pos hw, List.dropWhile_append_of_pos hw]
  cases rest with
  | nil => exact ⟨by simp, rfl⟩
  | cons c cs =>
      have hc : ¬ isNumberChar c = true := by simp [hrest c rfl]
      exact ⟨by rw [List.takeWhile_cons_of_neg hc, List.append_nil],
        List.dropWhile_cons_of_neg hc⟩

/-- A literal is told from other texts by its first letter. -/
theorem expect_eq_none {text : String} {c d : Char} {ds : List Char} (ht : text.toList = d :: ds)
    (hne : d ≠ c) (cs : List Char) : JsonString.expect text (c :: cs) = none := by
  rw [JsonString.expect, if_neg]
  rw [ht, List.cons_prefix_cons]
  exact fun h => hne h.1

/-- The text of a number consists of its characters. -/
theorem isNumberChar_of_mem_writeNumber {n : JsonNumber} (hn : IsNumber F n) {c : Char}
    (hc : c ∈ writeNumber F n) : isNumberChar c = true := by
  cases n with
  | posInt n => exact isNumberChar_of_isDigit (isDigit_of_mem_toDigits hc)
  | negInt z =>
      rcases List.mem_cons.mp hc with rfl | hc
      · decide
      · exact isNumberChar_of_isDigit (isDigit_of_mem_toDigits hc)
  | float value => exact F.float_chars value hn c hc

/-- The text of a number is not empty. -/
theorem writeNumber_ne_nil {n : JsonNumber} (hn : IsNumber F n) : writeNumber F n ≠ [] := by
  cases n with
  | posInt n => exact Nat.toDigits_ne_nil
  | negInt z => exact List.cons_ne_nil _ _
  | float value =>
      obtain ⟨c, hc, -⟩ := F.float_mark value hn
      exact List.ne_nil_of_mem hc

/-- A number is read back whatever follows that does not continue it. -/
theorem readAtom_number {n : JsonNumber} (hn : IsNumber F n) {rest : List Char}
    (hrest : Ends rest) :
    readAtom F (writeNumber F n ++ rest) = some (.number n, rest) := by
  obtain ⟨c, w, hw⟩ := List.exists_cons_of_ne_nil (writeNumber_ne_nil hn)
  have hchars : ∀ c ∈ writeNumber F n, isNumberChar c = true :=
    fun c hc => isNumberChar_of_mem_writeNumber hn hc
  have hc : isNumberChar c = true := hchars c (by simp [hw])
  have hletter : ∀ d, isNumberChar d = false → d ≠ c := by
    rintro d hd rfl
    rw [hc] at hd
    exact Bool.noConfusion hd
  obtain ⟨htake, hdrop⟩ := span_number hchars hrest
  have hnull : JsonString.expect "null" (c :: (w ++ rest)) = none :=
    expect_eq_none (rfl : "null".toList = 'n' :: "ull".toList) (hletter 'n' (by decide)) _
  have htrue : JsonString.expect "true" (c :: (w ++ rest)) = none :=
    expect_eq_none (rfl : "true".toList = 't' :: "rue".toList) (hletter 't' (by decide)) _
  have hfalse : JsonString.expect "false" (c :: (w ++ rest)) = none :=
    expect_eq_none (rfl : "false".toList = 'f' :: "alse".toList) (hletter 'f' (by decide)) _
  rw [← List.cons_append, ← hw] at hnull htrue hfalse
  rw [readAtom, hnull, htrue, hfalse]
  dsimp only
  rw [htake, hdrop, readNumber_writeNumber hn]
  rfl

section Layouts

variable {L : Layout}

/-- The first character of a text. -/
theorem head_write {v : Json} (hv : Writable F v) (d : ℕ) :
    ∃ c cs, write F L v d = c :: cs ∧ isStart c = true := by
  cases hv with
  | null => exact ⟨'n', "ull".toList, rfl, by decide⟩
  | bool b =>
      cases b with
      | true => exact ⟨'t', "rue".toList, rfl, by decide⟩
      | false => exact ⟨'f', "alse".toList, rfl, by decide⟩
  | number hn =>
      obtain ⟨c, w, hw⟩ := List.exists_cons_of_ne_nil (writeNumber_ne_nil hn)
      have hc := isNumberChar_of_mem_writeNumber hn (c := c) (by simp [hw])
      exact ⟨c, w, hw, by simp [isStart, hc]⟩
  | string s => exact ⟨'"', _, rfl, by decide⟩
  | array h => exact ⟨'[', _, rfl, by decide⟩
  | object h => exact ⟨'\x7b', _, rfl, by decide⟩

/-- An item of an array, with the blanks in front of it. -/
def writeItem (F : JsonFormat) (L : Layout) (d : ℕ) (v : Json) : List Char :=
  L.gap d ++ write F L v d

/-- A member of an object, with the blanks in front of it. -/
def writeField (F : JsonFormat) (L : Layout) (d : ℕ) (field : String × Json) : List Char :=
  L.gap d ++ (writeString F field.1 ++ ':' :: (L.colon ++ write F L field.2 d))

/-- The items of an array are written one by one. -/
theorem writeItems_eq (items : List Json) (d : ℕ) :
    writeItems F L items d = items.map (writeItem F L d) := by
  induction items with
  | nil => rfl
  | cons v items ih => rw [writeItems, ih, List.map_cons, writeItem]

/-- The members of an object are written one by one. -/
theorem writeFields_eq (fields : List (String × Json)) (d : ℕ) :
    writeFields F L fields d = fields.map (writeField F L d) := by
  induction fields with
  | nil => rfl
  | cons field fields ih => rw [writeFields, ih, List.map_cons, writeField]

/-- A string is read back, whatever follows. -/
theorem read_writeString (s : String) (rest : List Char) :
    JsonString.read (writeString F s ++ rest) = some (s, rest) := by
  rw [writeString, List.cons_append, List.append_assoc, List.singleton_append,
    JsonString.read_write F.writes_escape rfl rfl, String.ofList_toList]

theorem commas_singleton (text : List Char) : commas [text] = text :=
  List.intercalate_singleton

theorem commas_cons_cons (text text' : List Char) (texts : List (List Char)) :
    commas (text :: text' :: texts) = text ++ ',' :: commas (text' :: texts) := by
  rw [commas, List.intercalate_cons_cons, List.append_assoc, List.singleton_append, commas]

/-- No text is longer than the list it stands in. -/
theorem length_le_commas {text : List Char} {texts : List (List Char)} (h : text ∈ texts) :
    text.length ≤ (commas texts).length := by
  induction texts with
  | nil => exact absurd h List.not_mem_nil
  | cons first texts ih =>
      cases texts with
      | nil => rw [List.mem_singleton.mp h, commas_singleton]
      | cons second texts =>
          rw [commas_cons_cons, List.length_append, List.length_cons]
          rcases List.mem_cons.mp h with rfl | h
          · omega
          · have := ih h
            omega

/-- Between any two elements there is a comma. -/
theorem count_le_commas (texts : List (List Char)) :
    texts.length ≤ (commas texts).length + 1 := by
  induction texts with
  | nil => simp
  | cons first texts ih =>
      cases texts with
      | nil => simp
      | cons second texts =>
          rw [commas_cons_cons]
          simp only [List.length_append, List.length_cons] at ih ⊢
          omega

/-- The end of a list counts as a character. -/
theorem length_enclose (close : Char) (d : ℕ) (texts : List (List Char)) :
    (commas texts).length < (enclose L close d texts).length := by
  cases texts with
  | nil => simp [enclose, commas]
  | cons text texts =>
      rw [enclose, List.length_append, List.length_append, List.length_singleton]
      omega

section Lists

variable {α : Type*} {close : Char} {element : List Char → Option (α × List Char)}
  {text : α → List Char} {items : List α}

/-- The elements of a list are read back one after the other, with a fuel of one for each. -/
theorem readElements_commas (hclose : isBlank close = false ∧ isNumberChar close = false)
    (hcomma : ',' ≠ close) {a : α}
    (helement : ∀ b ∈ a :: items, ∀ rest, Ends rest →
      element (text b ++ rest) = some (b, rest)) (fuel : ℕ) (hfuel : items.length < fuel)
    {pad : List Char} (hpad : Blank pad) (rest : List Char) :
    readElements close element fuel (commas ((a :: items).map text) ++ (pad ++ close :: rest))
      = some (a :: items, rest) := by
  obtain ⟨fuel, rfl⟩ : ∃ n, fuel = n + 1 := ⟨fuel - 1, by omega⟩
  induction items generalizing a fuel with
  | nil =>
      rw [List.map_singleton, commas_singleton, readElements,
        helement a List.mem_cons_self _ (ends_append hpad hclose.2 rest), Option.bind_some,
        next_self hpad hclose.1]
  | cons b items ih =>
      obtain ⟨fuel, rfl⟩ : ∃ n, fuel = n + 1 := ⟨fuel - 1, by simp at hfuel; omega⟩
      have htail := ih (a := b) (fun c hc => helement c (List.mem_cons_of_mem a hc)) fuel
        (by simpa using hfuel)
      have hafter : ∀ cs, next close (',' :: cs) = none :=
        next_of_ne blank_nil (by decide) hcomma
      have hcomma' : ∀ cs, next ',' (',' :: cs) = some cs := next_self blank_nil (by decide)
      have hends : ∀ cs, Ends (',' :: cs) := ends_append blank_nil (by decide)
      rw [List.map_cons, List.map_cons, commas_cons_cons, ← List.map_cons, List.append_assoc,
        List.cons_append, readElements,
        helement a List.mem_cons_self _ (hends _), Option.bind_some]
      dsimp only
      rw [hafter, hcomma', Option.bind_some, htail]
      rfl

/-- A list is read back when its elements are, and none of them looks like its end. -/
theorem readList_enclose (hclose : isBlank close = false ∧ isNumberChar close = false)
    (hcomma : ',' ≠ close)
    (helement : ∀ a ∈ items, ∀ rest, Ends rest → element (text a ++ rest) = some (a, rest))
    (hhead : ∀ a ∈ items, ∀ rest, next close (text a ++ rest) = none)
    (fuel : ℕ) (hfuel : items.length ≤ fuel) (d : ℕ) (rest : List Char) :
    readList close element fuel (enclose L close d (items.map text) ++ rest)
      = some (items, rest) := by
  cases items with
  | nil =>
      show readList close element fuel (close :: rest) = some ([], rest)
      have hend : next close (close :: rest) = some rest := next_self blank_nil hclose.1 rest
      rw [readList, hend]
  | cons a items =>
      have hfirst : ∃ ds, commas ((a :: items).map text) ++ (L.gap d ++ close :: rest)
          = text a ++ ds := by
        cases items with
        | nil => exact ⟨L.gap d ++ close :: rest, by rw [List.map_singleton, commas_singleton]⟩
        | cons b items =>
            exact ⟨',' :: commas (text b :: items.map text) ++ (L.gap d ++ close :: rest),
              by simp [commas_cons_cons]⟩
      obtain ⟨ds, hds⟩ := hfirst
      have helements := readElements_commas hclose hcomma helement fuel hfuel (L.blank_gap d) rest
      have htext : enclose L close d ((a :: items).map text) ++ rest
          = commas ((a :: items).map text) ++ (L.gap d ++ close :: rest) := by
        simp [enclose]
      rw [htext]
      rw [hds] at helements ⊢
      rw [readList, hhead a List.mem_cons_self]
      exact helements

end Lists

/-- What begins neither a string nor a list is a literal or a number. -/
theorem readValue_atom {c : Char} (hstart : isStart c = true) (hstring : c ≠ '"')
    (harray : c ≠ '[') (hobject : c ≠ '\x7b') {pad : List Char} (hpad : Blank pad) (fuel : ℕ)
    (cs : List Char) : readValue F (fuel + 1) (pad ++ c :: cs) = readAtom F (c :: cs) := by
  rw [readValue, skip_append hpad (isBlank_of_isStart hstart)]
  dsimp only
  rw [if_neg hstring, if_neg harray, if_neg hobject]

/-- A text has a character. -/
theorem exists_fuel {v : Json} (hv : Writable F v) {d fuel : ℕ}
    (hfuel : (write F L v d).length ≤ fuel) : ∃ n, fuel = n + 1 := by
  obtain ⟨c, cs, htext, -⟩ := head_write (L := L) hv d
  rw [htext, List.length_cons] at hfuel
  exact ⟨fuel - 1, by omega⟩

/-- The value is read back from its text at every depth, whatever follows it, with a fuel of
one for each character. -/
def ReadsBack (F : JsonFormat) (L : Layout) (v : Json) : Prop :=
  ∀ (pad rest : List Char) (d fuel : ℕ), Blank pad → Ends rest →
    (write F L v d).length ≤ fuel →
      readValue F fuel (pad ++ (write F L v d ++ rest)) = some (v, rest)

/-- Numbers are read back. -/
theorem readsBack_number {n : JsonNumber} (hn : IsNumber F n) : ReadsBack F L (.number n) := by
  intro pad rest d fuel hpad hrest hfuel
  obtain ⟨fuel, rfl⟩ := exists_fuel (.number hn) hfuel
  obtain ⟨c, w, hw⟩ := List.exists_cons_of_ne_nil (writeNumber_ne_nil hn)
  have hc := isNumberChar_of_mem_writeNumber hn (c := c) (by simp [hw])
  have hatom := readAtom_number hn hrest
  rw [write]
  rw [hw, List.cons_append] at hatom ⊢
  rw [readValue_atom _ _ _ _ hpad, hatom]
  · simp [isStart, hc]
  all_goals
    rintro rfl
    exact absurd hc (by decide)

/-- Strings are read back. -/
theorem readsBack_string (s : String) : ReadsBack F L (.string s) := by
  intro pad rest d fuel hpad hrest hfuel
  obtain ⟨fuel, rfl⟩ := exists_fuel (.string s) hfuel
  have hread := read_writeString (F := F) s rest
  rw [write, readValue]
  rw [writeString, List.cons_append] at hread ⊢
  rw [skip_append hpad (by decide)]
  dsimp only
  rw [if_pos rfl, hread]
  rfl

/-- Arrays are read back when their items are. -/
theorem readsBack_array {items : List Json} (hitems : ∀ v ∈ items, Writable F v)
    (ih : ∀ v ∈ items, ReadsBack F L v) : ReadsBack F L (.array items) := by
  intro pad rest d fuel hpad hrest hfuel
  obtain ⟨fuel, rfl⟩ := exists_fuel (.array hitems) hfuel
  rw [write, writeItems_eq, List.length_cons] at hfuel
  have hlength := length_enclose (L := L) ']' d (items.map (writeItem F L (d + 1)))
  have hcount := count_le_commas (items.map (writeItem F L (d + 1)))
  rw [List.length_map] at hcount
  have helement : ∀ v ∈ items, ∀ rest, Ends rest →
      readValue F fuel (writeItem F L (d + 1) v ++ rest) = some (v, rest) := by
    intro v hv rest hrest
    have hle := length_le_commas (List.mem_map_of_mem (f := writeItem F L (d + 1)) hv)
    rw [writeItem, List.length_append] at hle
    rw [writeItem, List.append_assoc]
    exact ih v hv _ rest (d + 1) fuel (L.blank_gap _) hrest (by omega)
  have hhead : ∀ v ∈ items, ∀ rest, next ']' (writeItem F L (d + 1) v ++ rest) = none := by
    intro v hv rest
    obtain ⟨c, cs, htext, hstart⟩ := head_write (L := L) (hitems v hv) (d + 1)
    rw [writeItem, htext, List.append_assoc, List.cons_append]
    refine next_of_ne (L.blank_gap _) (isBlank_of_isStart hstart) ?_ _
    rintro rfl
    exact absurd hstart (by decide)
  have hlist := readList_enclose (L := L) ⟨by decide, by decide⟩ (by decide) helement hhead fuel
    (by omega) d rest
  rw [write, writeItems_eq, List.cons_append, readValue, skip_append hpad (by decide)]
  dsimp only
  rw [if_neg (by decide), if_pos rfl, hlist]
  rfl

/-- Objects are read back when the values of their members are. -/
theorem readsBack_object {fields : List (String × Json)}
    (hfields : ∀ field ∈ fields, Writable F field.2)
    (ih : ∀ field ∈ fields, ReadsBack F L field.2) : ReadsBack F L (.object fields) := by
  intro pad rest d fuel hpad hrest hfuel
  obtain ⟨fuel, rfl⟩ := exists_fuel (.object hfields) hfuel
  rw [write, writeFields_eq, List.length_cons] at hfuel
  have hlength := length_enclose (L := L) '\x7d' d (fields.map (writeField F L (d + 1)))
  have hcount := count_le_commas (fields.map (writeField F L (d + 1)))
  rw [List.length_map] at hcount
  have helement : ∀ field ∈ fields, ∀ rest, Ends rest →
      readField (readValue F fuel) (writeField F L (d + 1) field ++ rest)
        = some (field, rest) := by
    intro field hfield rest hrest
    have hle := length_le_commas (List.mem_map_of_mem (f := writeField F L (d + 1)) hfield)
    simp only [writeField, List.length_append, List.length_cons] at hle
    have hvalue := ih field hfield _ rest (d + 1) fuel L.blank_colon hrest (by omega)
    have hskip : ∀ cs, skip (L.gap (d + 1) ++ (writeString F field.1 ++ cs))
        = writeString F field.1 ++ cs :=
      fun cs => skip_append (L.blank_gap _) (by decide) _
    have hcolon : ∀ cs, next ':' (':' :: cs) = some cs := next_self blank_nil (by decide)
    rw [writeField, List.append_assoc, List.append_assoc, List.cons_append, List.append_assoc,
      readField, hskip, read_writeString, Option.bind_some, hcolon, Option.bind_some, hvalue]
    rfl
  have hhead : ∀ field ∈ fields, ∀ rest,
      next '\x7d' (writeField F L (d + 1) field ++ rest) = none := by
    intro field hfield rest
    rw [writeField, writeString, List.append_assoc, List.cons_append, List.cons_append]
    exact next_of_ne (L.blank_gap _) (by decide) (by decide) _
  have hlist := readList_enclose (L := L) ⟨by decide, by decide⟩ (by decide) helement hhead fuel
    (by omega) d rest
  rw [write, writeFields_eq, List.cons_append, readValue, skip_append hpad (by decide)]
  dsimp only
  rw [if_neg (by decide), if_neg (by decide), if_pos rfl, hlist]
  rfl

/-- **Every value is read back from its text**, in every layout. -/
theorem readsBack {v : Json} (hv : Writable F v) : ReadsBack F L v := by
  induction hv with
  | null =>
      intro pad rest d fuel hpad hrest hfuel
      obtain ⟨fuel, rfl⟩ := exists_fuel .null hfuel
      exact readValue_atom (by decide) (by decide) (by decide) (by decide) hpad fuel _
  | bool b =>
      intro pad rest d fuel hpad hrest hfuel
      obtain ⟨fuel, rfl⟩ := exists_fuel (.bool b) hfuel
      cases b <;>
        exact readValue_atom (by decide) (by decide) (by decide) (by decide) hpad fuel _
  | number hn => exact readsBack_number hn
  | string s => exact readsBack_string s
  | array hitems ih => exact readsBack_array hitems ih
  | object hfields ih => exact readsBack_object hfields ih

/-- A text is that of its value. -/
theorem read_write {v : Json} (hv : Writable F v) (d : ℕ) : read F (write F L v d) = some v := by
  have hvalue := readsBack (L := L) hv [] [] d ((write F L v d).length + 1) blank_nil
    (by simp [Ends]) (Nat.le_succ _)
  rw [List.append_nil, List.nil_append] at hvalue
  rw [read, hvalue]
  rfl

end Layouts

/-! ## No control characters -/

theorem le_of_isNumberChar {c : Char} (h : isNumberChar c = true) : 0x20 ≤ c.toNat := by
  by_contra hlt
  have hall : ∀ n < 0x20, isNumberChar (Char.ofNat n) = false := by decide
  rw [← Char.ofNat_toNat c, hall c.toNat (by omega)] at h
  exact Bool.noConfusion h

/-- A string is written without control characters. -/
theorem le_of_mem_writeString {s : String} {c : Char} (hc : c ∈ writeString F s) :
    0x20 ≤ c.toNat := by
  rcases List.mem_cons.mp hc with rfl | hc
  · decide
  rcases List.mem_append.mp hc with hc | hc
  · obtain ⟨d, -, hd⟩ := List.mem_flatMap.mp hc
    exact F.le_of_mem_escape d c hd
  · rw [List.mem_singleton.mp hc]
    decide

/-- A list without blanks has no control characters when its elements have none. -/
theorem le_of_mem_enclose {close c : Char} {d : ℕ} {texts : List (List Char)}
    (hclose : 0x20 ≤ close.toNat) (htexts : ∀ text ∈ texts, ∀ c ∈ text, 0x20 ≤ c.toNat)
    (hc : c ∈ enclose Layout.compact close d texts) : 0x20 ≤ c.toNat := by
  cases texts with
  | nil => rwa [List.mem_singleton.mp hc]
  | cons text texts =>
      rcases List.mem_append.mp hc with hc | hc
      · rcases RustStr.mem_intercalate hc with rfl | ⟨text', htext, hc⟩
        · decide
        · exact htexts text' htext c hc
      · rwa [List.mem_singleton.mp hc]

/-- **A compact text is on one line**, as it has no control characters. -/
theorem le_of_mem_compact {v : Json} (hv : Writable F v) (d : ℕ) :
    ∀ c ∈ write F Layout.compact v d, 0x20 ≤ c.toNat := by
  induction hv generalizing d with
  | null => simp [write]
  | bool b => cases b <;> simp [write]
  | number hn => exact fun c hc => le_of_isNumberChar (isNumberChar_of_mem_writeNumber hn hc)
  | string s => exact fun c hc => le_of_mem_writeString hc
  | array hitems ih =>
      rw [write, writeItems_eq]
      intro c hc
      rcases List.mem_cons.mp hc with rfl | hc
      · decide
      apply le_of_mem_enclose (by decide) _ hc
      intro text htext
      obtain ⟨v, hv, rfl⟩ := List.mem_map.mp htext
      exact ih v hv (d + 1)
  | object hfields ih =>
      rw [write, writeFields_eq]
      intro c hc
      rcases List.mem_cons.mp hc with rfl | hc
      · decide
      apply le_of_mem_enclose (by decide) _ hc
      intro text htext c hc
      obtain ⟨field, hfield, rfl⟩ := List.mem_map.mp htext
      have hc' : c ∈ writeString F field.1 ++ ':' :: write F Layout.compact field.2 (d + 1) := hc
      rcases List.mem_append.mp hc' with hc | hc
      · exact le_of_mem_writeString hc
      rcases List.mem_cons.mp hc with rfl | hc
      · decide
      · exact ih field hfield (d + 1) c hc

end JsonText
