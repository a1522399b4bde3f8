/-
# UTF-8

The encoding of a list of characters as bytes, and the facts about it that byte
scanners rest on.

* An ASCII character is encoded as its own byte, and every byte of any other
  character is at least `0x80`: a scan for an ASCII byte sees exactly the ASCII
  characters (`encode_takeWhile_ne`, `encode_takeWhile_ascii`).
* No byte of an encoded text is `0xFF` (`ne_ff_of_mem_encode`), so that byte can
  end a text in a stream (`encode_append_ff_inj`).
* `splitAt` cuts a text at a byte offset, when the offset is a character boundary.
* `decodeLossy` reads any bytes as a text, with U+FFFD in the place of what is no
  character.  It reads an encoded text back (`decodeLossy_encode`), and what it reads
  without a replacement was an encoded text (`encode_decodeLossy`).
-/
import Mathlib

namespace Utf8

/-- The bytes of a text. -/
def encode (cs : List Char) : List UInt8 := cs.flatMap String.utf8EncodeChar

@[simp] theorem encode_nil : encode [] = [] := rfl

@[simp] theorem encode_cons (c : Char) (cs : List Char) :
    encode (c :: cs) = String.utf8EncodeChar c ++ encode cs := rfl

@[simp] theorem encode_append (cs ds : List Char) :
    encode (cs ++ ds) = encode cs ++ encode ds := List.flatMap_append

theorem length_encode (cs : List Char) :
    (encode cs).length = (cs.map Char.utf8Size).sum := by
  induction cs with
  | nil => rfl
  | cons c cs ih =>
      rw [encode_cons, List.length_append, String.length_utf8EncodeChar, ih, List.map_cons,
        List.sum_cons]

/-- A part of a text has no more bytes than the text. -/
theorem length_encode_le_of_infix {xs cs : List Char} (h : xs <:+: cs) :
    (encode xs).length ≤ (encode cs).length := by
  obtain ⟨front, back, rfl⟩ := h
  rw [encode_append, encode_append, List.length_append, List.length_append]
  omega

/-! ## The bytes of one character -/

/-- An ASCII character is its own byte. -/
theorem encodeChar_ascii {c : Char} (h : c.toNat < 128) :
    String.utf8EncodeChar c = [UInt8.ofNat c.toNat] := by
  have hle : c.val.toNat ≤ 0x7f := by
    have : c.val.toNat = c.toNat := rfl
    omega
  unfold String.utf8EncodeChar
  simp only [hle, if_true]
  rfl

/-- Every byte of a character that is not ASCII is at least `0x80`. -/
theorem le_of_mem_encodeChar {c : Char} (h : 128 ≤ c.toNat) {b : UInt8}
    (hb : b ∈ String.utf8EncodeChar c) : 128 ≤ b.toNat := by
  have hv : ¬ c.val.toNat ≤ 0x7f := by
    have : c.val.toNat = c.toNat := rfl
    omega
  unfold String.utf8EncodeChar at hb
  simp only [hv, if_false] at hb
  split_ifs at hb <;>
    simp only [List.mem_cons, List.not_mem_nil, or_false] at hb <;>
    rcases hb with rfl | rfl | rfl | rfl <;>
    simp only [UInt8.toNat_ofNat'] <;> omega

/-- No byte of a character is `0xFF`. -/
theorem ne_ff_of_mem_encodeChar {c : Char} {b : UInt8} (hb : b ∈ String.utf8EncodeChar c) :
    b ≠ 0xFF := by
  intro hff
  have hnat : b.toNat = 255 := by rw [hff]; rfl
  unfold String.utf8EncodeChar at hb
  simp only at hb
  split_ifs at hb <;>
    simp only [List.mem_cons, List.not_mem_nil, or_false] at hb <;>
    rcases hb with rfl | rfl | rfl | rfl <;>
    simp only [UInt8.toNat_ofNat'] at hnat <;> omega

theorem utf8EncodeChar_length_pos (c : Char) : 0 < (String.utf8EncodeChar c).length :=
  List.length_pos_of_ne_nil String.utf8EncodeChar_ne_nil

/-! ## Injectivity -/

theorem encode_injective : Function.Injective encode := by
  intro cs ds h
  have hbytes : (String.ofList cs).toByteArray = (String.ofList ds).toByteArray := by
    rw [String.toByteArray_ofList, String.toByteArray_ofList]
    exact congrArg List.toByteArray h
  have hstr : String.ofList cs = String.ofList ds := String.toByteArray_inj.mp hbytes
  rw [← String.toList_ofList (l := cs), hstr, String.toList_ofList]

theorem ne_ff_of_mem_encode {cs : List Char} {b : UInt8} (hb : b ∈ encode cs) : b ≠ 0xFF := by
  rw [encode, List.mem_flatMap] at hb
  obtain ⟨c, _, hc⟩ := hb
  exact ne_ff_of_mem_encodeChar hc

/-- **`0xFF` ends a text**: a stream that starts with a text and the byte `0xFF`
determines both the text and the rest. -/
theorem encode_append_ff_inj {cs ds : List Char} {xs ys : List UInt8}
    (h : encode cs ++ 0xFF :: xs = encode ds ++ 0xFF :: ys) : cs = ds ∧ xs = ys := by
  have hstop : ∀ (es : List Char) (zs : List UInt8),
      (encode es ++ 0xFF :: zs).takeWhile (· != 0xFF) = encode es := by
    intro es zs
    rw [List.takeWhile_append_of_pos]
    · simp
    · intro b hb
      simpa using ne_ff_of_mem_encode hb
  have henc : encode cs = encode ds := by
    rw [← hstop cs xs, h, hstop ds ys]
  rw [henc] at h
  have hrest := List.append_cancel_left h
  exact ⟨encode_injective henc, (List.cons.inj hrest).2⟩

/-! ## Scanning for an ASCII byte -/

/-- The byte of an ASCII character occurs in an encoded character only when it is
that character. -/
theorem mem_encodeChar_ascii {a c : Char} (ha : a.toNat < 128) :
    UInt8.ofNat a.toNat ∈ String.utf8EncodeChar c ↔ c = a := by
  have hval : (UInt8.ofNat a.toNat).toNat = a.toNat := by
    rw [UInt8.toNat_ofNat']
    omega
  constructor
  · intro hmem
    by_cases hc : c.toNat < 128
    · rw [encodeChar_ascii hc, List.mem_singleton] at hmem
      have hcv : (UInt8.ofNat c.toNat).toNat = c.toNat := by
        rw [UInt8.toNat_ofNat']
        omega
      have hnat : a.toNat = c.toNat := by rw [← hval, hmem, hcv]
      exact (Char.ext (UInt32.toNat_inj.mp hnat)).symm
    · have := le_of_mem_encodeChar (by omega) hmem
      omega
  · rintro rfl
    rw [encodeChar_ascii ha]
    exact List.mem_singleton.mpr rfl

theorem mem_encode_ascii {a : Char} (ha : a.toNat < 128) {cs : List Char} :
    UInt8.ofNat a.toNat ∈ encode cs ↔ a ∈ cs := by
  rw [encode, List.mem_flatMap]
  constructor
  · rintro ⟨c, hc, hmem⟩
    rwa [(mem_encodeChar_ascii ha).mp hmem] at hc
  · intro hc
    exact ⟨a, hc, (mem_encodeChar_ascii ha).mpr rfl⟩

/-- A scan of the bytes up to an ASCII byte is a scan of the characters up to that
character. -/
theorem encode_takeWhile_ne {a : Char} (ha : a.toNat < 128) (cs : List Char) :
    (encode cs).takeWhile (· != UInt8.ofNat a.toNat) = encode (cs.takeWhile (· != a)) := by
  induction cs with
  | nil => rfl
  | cons c cs ih =>
      by_cases hc : c = a
      · rw [hc, encode_cons, encodeChar_ascii ha, List.takeWhile_cons_of_neg (by simp)]
        simp
      · rw [encode_cons, List.takeWhile_append_of_pos, ih, List.takeWhile_cons_of_pos (by simpa),
          encode_cons]
        intro b hb
        have hne : b ≠ UInt8.ofNat a.toNat := by
          rintro rfl
          exact hc ((mem_encodeChar_ascii ha).mp hb)
        simpa using hne

/-! ## Classes of ASCII bytes -/

/-- The characters whose byte lies in a class of ASCII bytes. -/
def ascii (p : UInt8 → Bool) (c : Char) : Bool :=
  decide (c.toNat < 128) && p (UInt8.ofNat c.toNat)

/-- A byte of a character lies in a class of ASCII bytes only when the character
does; the character is then that byte. -/
theorem ascii_of_mem_encodeChar {p : UInt8 → Bool} (hp : ∀ b, p b = true → b.toNat < 128)
    {c : Char} {b : UInt8} (hb : b ∈ String.utf8EncodeChar c) (hpb : p b = true) :
    ascii p c = true ∧ String.utf8EncodeChar c = [b] := by
  have hlt : c.toNat < 128 := by
    by_contra hge
    have h1 := le_of_mem_encodeChar (by omega) hb
    have h2 := hp b hpb
    omega
  rw [encodeChar_ascii hlt, List.mem_singleton] at hb
  refine ⟨?_, ?_⟩
  · rw [ascii, decide_eq_true hlt, Bool.true_and, ← hb]
    exact hpb
  · rw [encodeChar_ascii hlt, hb]

theorem encodeChar_of_ascii {p : UInt8 → Bool} {c : Char} (h : ascii p c = true) :
    String.utf8EncodeChar c = [UInt8.ofNat c.toNat] ∧ p (UInt8.ofNat c.toNat) = true := by
  rw [ascii, Bool.and_eq_true, decide_eq_true_eq] at h
  exact ⟨encodeChar_ascii h.1, h.2⟩

/-- The character of an ASCII byte. -/
theorem encodeChar_ofNat_ascii {p : UInt8 → Bool} (hp : ∀ b, p b = true → b.toNat < 128)
    {b : UInt8} (hb : p b = true) :
    String.utf8EncodeChar (Char.ofNat b.toNat) = [b] ∧ ascii p (Char.ofNat b.toNat) = true := by
  have hlt := hp b hb
  have hval : (Char.ofNat b.toNat).toNat = b.toNat := by
    rw [Char.toNat_ofNat, if_pos (Or.inl (by omega))]
  have hbyte : UInt8.ofNat (Char.ofNat b.toNat).toNat = b := by rw [hval, UInt8.ofNat_toNat]
  have hchar : (Char.ofNat b.toNat).toNat < 128 := by rwa [hval]
  rw [encodeChar_ascii hchar, ascii, hbyte, hb, decide_eq_true hchar]
  exact ⟨rfl, rfl⟩

/-- Bytes of an ASCII class are the text of their characters. -/
theorem encode_map_ofNat {p : UInt8 → Bool} (hp : ∀ b, p b = true → b.toNat < 128)
    {bs : List UInt8} (h : ∀ b ∈ bs, p b = true) :
    encode (bs.map fun b => Char.ofNat b.toNat) = bs
      ∧ ∀ c ∈ bs.map (fun b => Char.ofNat b.toNat), ascii p c = true := by
  induction bs with
  | nil => exact ⟨rfl, by simp⟩
  | cons b bs ih =>
      obtain ⟨hb, hbs⟩ := List.forall_mem_cons.mp h
      obtain ⟨hbyte, hclass⟩ := encodeChar_ofNat_ascii hp hb
      obtain ⟨hrest, hclasses⟩ := ih hbs
      rw [List.map_cons, encode_cons, hbyte, hrest]
      exact ⟨rfl, List.forall_mem_cons.mpr ⟨hclass, hclasses⟩⟩

/-- A text of an ASCII class is the characters of its bytes. -/
theorem map_ofNat_encode {p : UInt8 → Bool} {cs : List Char} (h : ∀ c ∈ cs, ascii p c = true) :
    (encode cs).map (fun b => Char.ofNat b.toNat) = cs ∧ ∀ b ∈ encode cs, p b = true := by
  induction cs with
  | nil => exact ⟨rfl, by simp⟩
  | cons c cs ih =>
      obtain ⟨hc, hcs⟩ := List.forall_mem_cons.mp h
      obtain ⟨hbyte, hclass⟩ := encodeChar_of_ascii hc
      obtain ⟨hrest, hclasses⟩ := ih hcs
      have hlt : c.toNat < 128 := by
        rw [ascii, Bool.and_eq_true, decide_eq_true_eq] at hc
        exact hc.1
      have hchar : Char.ofNat (UInt8.ofNat c.toNat).toNat = c := by
        rw [UInt8.toNat_ofNat', Nat.mod_eq_of_lt (by omega), Char.ofNat_toNat]
      rw [encode_cons, hbyte, List.singleton_append, List.map_cons, hrest, hchar]
      exact ⟨rfl, List.forall_mem_cons.mpr ⟨hclass, hclasses⟩⟩

/-- The first byte of a text lies in a class of ASCII bytes when its first
character does. -/
theorem head_encode_ascii {p : UInt8 → Bool} (hp : ∀ b, p b = true → b.toNat < 128)
    (cs : List Char) : (encode cs).head?.any p = cs.head?.any (ascii p) := by
  cases cs with
  | nil => rfl
  | cons c cs =>
      obtain ⟨b, bs, hbs⟩ := List.exists_cons_of_ne_nil (String.utf8EncodeChar_ne_nil (c := c))
      rw [encode_cons, hbs, List.cons_append, List.head?_cons, List.head?_cons, Option.any_some,
        Option.any_some]
      cases hc : ascii p c with
      | true =>
          obtain ⟨henc, hpc⟩ := encodeChar_of_ascii hc
          rw [henc, List.cons.injEq] at hbs
          rw [← hbs.1]
          exact hpc
      | false =>
          cases hpb : p b with
          | false => rfl
          | true =>
              have := (ascii_of_mem_encodeChar hp (by rw [hbs]; exact List.mem_cons_self) hpb).1
              rw [hc] at this
              exact absurd this Bool.false_ne_true

/-- The class of one byte is the class of one character. -/
theorem ascii_beq {a : Char} (ha : a.toNat < 128) (c : Char) :
    ascii (· == UInt8.ofNat a.toNat) c = (c == a) := by
  have hmem := mem_encodeChar_ascii ha (c := c)
  rw [Bool.eq_iff_iff, ascii, Bool.and_eq_true, decide_eq_true_eq, beq_iff_eq, beq_iff_eq, ← hmem]
  constructor
  · rintro ⟨hc, hbyte⟩
    rw [encodeChar_ascii hc, hbyte]
    exact List.mem_singleton.mpr rfl
  · intro hbyte
    have hca := hmem.mp hbyte
    subst hca
    exact ⟨ha, rfl⟩

/-- The first byte of a text is an ASCII byte when its first character is that
character. -/
theorem head_encode_beq {a : Char} (ha : a.toNat < 128) (cs : List Char) :
    ((encode cs).head? == some (UInt8.ofNat a.toNat)) = (cs.head? == some a) := by
  have hany : ∀ {β : Type} [BEq β] (o : Option β) (b : β), (o == some b) = o.any (· == b) := by
    intro β _ o b
    cases o <;> rfl
  have hlt : ∀ b : UInt8, (b == UInt8.ofNat a.toNat) = true → b.toNat < 128 := by
    intro b hb
    rw [beq_iff_eq] at hb
    rw [hb, UInt8.toNat_ofNat']
    omega
  rw [hany, hany, head_encode_ascii hlt]
  congr 1
  funext c
  exact ascii_beq ha c

/-- A scan of the bytes over a class of ASCII bytes is a scan of the characters. -/
theorem encode_takeWhile_ascii {p : UInt8 → Bool} (hp : ∀ b, p b = true → b.toNat < 128)
    (cs : List Char) : (encode cs).takeWhile p = encode (cs.takeWhile (ascii p)) := by
  induction cs with
  | nil => rfl
  | cons c cs ih =>
      cases hc : ascii p c with
      | true =>
          obtain ⟨henc, hpc⟩ := encodeChar_of_ascii hc
          rw [List.takeWhile_cons_of_pos hc, encode_cons, encode_cons, henc, List.singleton_append,
            List.takeWhile_cons_of_pos hpc, ih, List.singleton_append]
      | false =>
          have hhead := head_encode_ascii hp (c :: cs)
          rw [List.head?_cons, Option.any_some, hc] at hhead
          rw [List.takeWhile_cons_of_neg (by simp [hc]), encode_nil]
          cases henc : encode (c :: cs) with
          | nil => rfl
          | cons b bs =>
              rw [henc, List.head?_cons, Option.any_some] at hhead
              exact List.takeWhile_cons_of_neg (by simp [hhead])

/-! ## Cutting at a byte offset -/

/-- Cuts a text at a byte offset; `none` when the offset lies inside a character or
past the end. -/
def splitAt : List Char → ℕ → Option (List Char × List Char)
  | cs, 0 => some ([], cs)
  | [], _ + 1 => none
  | c :: cs, n + 1 =>
      if c.utf8Size ≤ n + 1 then
        (splitAt cs (n + 1 - c.utf8Size)).map fun p => (c :: p.1, p.2)
      else none

/-- The offset of the end of a prefix cuts the prefix off. -/
theorem splitAt_length_encode (cs ds : List Char) :
    splitAt (cs ++ ds) (encode cs).length = some (cs, ds) := by
  induction cs with
  | nil =>
      rw [List.nil_append, encode_nil, List.length_nil]
      cases ds <;> rfl
  | cons c cs ih =>
      rw [List.cons_append, encode_cons, List.length_append, String.length_utf8EncodeChar]
      have hpos : 0 < c.utf8Size := c.utf8Size_pos
      obtain ⟨n, hn⟩ : ∃ n, c.utf8Size + (encode cs).length = n + 1 := ⟨_, (by omega :
        c.utf8Size + (encode cs).length = (c.utf8Size + (encode cs).length - 1) + 1)⟩
      rw [hn, splitAt, if_pos (by omega), show n + 1 - c.utf8Size = (encode cs).length by omega,
        ih, Option.map_some]

/-! ## Lossy decoding -/

/-- A continuation byte. -/
def isContinuation (b : UInt8) : Bool := 0x80 ≤ b && b ≤ 0xBF

/-- The lengths of the characters by their first byte; `0` where none starts. -/
def charWidth (b : UInt8) : ℕ :=
  if b < 0x80 then 1
  else if b < 0xC2 then 0
  else if b < 0xE0 then 2
  else if b < 0xF0 then 3
  else if b < 0xF5 then 4
  else 0

/-- The bytes that may follow the first byte `b`: shorter encodings, surrogates and
what lies past U+10FFFF are excluded. -/
def isSecond (b c : UInt8) : Bool :=
  if b == 0xE0 then 0xA0 ≤ c && c ≤ 0xBF
  else if b == 0xED then 0x80 ≤ c && c ≤ 0x9F
  else if b == 0xF0 then 0x90 ≤ c && c ≤ 0xBF
  else if b == 0xF4 then 0x80 ≤ c && c ≤ 0x8F
  else isContinuation c

/-- The replacement character. -/
def replacement : Char := '\uFFFD'

/-- The low six bits of a continuation byte. -/
def payload (b : UInt8) : ℕ := b.toNat % 64

/-- The character read at the byte `b` followed by `bs`, with the number of bytes of
`bs` that belong to it.  A sequence that breaks off is replaced as a whole. -/
def decodeChar (b : UInt8) (bs : List UInt8) : Char × ℕ :=
  match charWidth b, bs with
  | 1, _ => (Char.ofNat b.toNat, 0)
  | 2, c :: _ =>
      if isSecond b c then (Char.ofNat (b.toNat % 32 * 64 + payload c), 1) else (replacement, 0)
  | 3, c :: d :: _ =>
      if !isSecond b c then (replacement, 0)
      else if !isContinuation d then (replacement, 1)
      else (Char.ofNat ((b.toNat % 16 * 64 + payload c) * 64 + payload d), 2)
  | 3, [c] => if isSecond b c then (replacement, 1) else (replacement, 0)
  | 4, c :: d :: e :: _ =>
      if !isSecond b c then (replacement, 0)
      else if !isContinuation d then (replacement, 1)
      else if !isContinuation e then (replacement, 2)
      else (Char.ofNat (((b.toNat % 8 * 64 + payload c) * 64 + payload d) * 64 + payload e), 3)
  | 4, [c, d] =>
      if !isSecond b c then (replacement, 0)
      else if isContinuation d then (replacement, 2) else (replacement, 1)
  | 4, [c] => if isSecond b c then (replacement, 1) else (replacement, 0)
  | _, _ => (replacement, 0)

/-- `decodeLossy` past the first `skip` bytes. -/
def decodeLossyFrom : ℕ → List UInt8 → List Char
  | _, [] => []
  | skip + 1, _ :: bs => decodeLossyFrom skip bs
  | 0, b :: bs => (decodeChar b bs).1 :: decodeLossyFrom (decodeChar b bs).2 bs

/-- Any bytes as a text. -/
def decodeLossy (bs : List UInt8) : List Char := decodeLossyFrom 0 bs

/-- The examples of the standard: a shorter encoding, a surrogate, a character that
breaks off, and one past U+10FFFF. -/
example : decodeLossy [0xC0, 0xAF, 0xED, 0xA0, 0x80, 0x61, 0xE2, 0x82, 0x62]
    = ['\uFFFD', '\uFFFD', '\uFFFD', '\uFFFD', '\uFFFD', 'a', '\uFFFD', 'b'] := by decide

/-! ## Reading back what was encoded -/

theorem charWidth_toNat (b : UInt8) : charWidth b =
    if b.toNat < 0x80 then 1 else if b.toNat < 0xC2 then 0 else if b.toNat < 0xE0 then 2
    else if b.toNat < 0xF0 then 3 else if b.toNat < 0xF5 then 4 else 0 := rfl

theorem isContinuation_iff (b : UInt8) :
    isContinuation b = true ↔ 0x80 ≤ b.toNat ∧ b.toNat ≤ 0xBF := by
  rw [isContinuation, Bool.and_eq_true, decide_eq_true_eq, decide_eq_true_eq]
  rfl

theorem isSecond_iff (b c : UInt8) :
    isSecond b c = true ↔ 0x80 ≤ c.toNat ∧ c.toNat ≤ 0xBF
      ∧ (b.toNat = 0xE0 → 0xA0 ≤ c.toNat) ∧ (b.toNat = 0xED → c.toNat ≤ 0x9F)
      ∧ (b.toNat = 0xF0 → 0x90 ≤ c.toNat) ∧ (b.toNat = 0xF4 → c.toNat ≤ 0x8F) := by
  have hle : ∀ x y : UInt8, x ≤ y ↔ x.toNat ≤ y.toNat := fun x y => Iff.rfl
  simp only [isSecond, beq_iff_eq, ← UInt8.toNat_inj, isContinuation]
  split_ifs with h1 h2 h3 h4 <;>
    simp only [Bool.and_eq_true, decide_eq_true_eq, hle, UInt8.toNat_ofNat] at * <;> omega

/-- A character is read where it is encoded. -/
theorem decodeChar_encodeChar (c : Char) : ∃ b tail, String.utf8EncodeChar c = b :: tail ∧
    ∀ rest, decodeChar b (tail ++ rest) = (c, tail.length) := by
  have hvalid : c.val.toNat < 0xd800 ∨ 0xdfff < c.val.toNat ∧ c.val.toNat < 0x110000 := c.valid
  have hread : ∀ n, n = c.val.toNat → Char.ofNat n = c := fun n hn => by
    rw [hn]
    exact Char.ofNat_toNat c
  unfold String.utf8EncodeChar
  simp only
  split_ifs with h1 h2 h3
  · refine ⟨_, _, rfl, fun rest => ?_⟩
    have hw : charWidth (UInt8.ofNat c.val.toNat) = 1 := by
      rw [charWidth_toNat, UInt8.toNat_ofNat', if_pos (by omega)]
    simp only [decodeChar, hw]
    rw [hread _ (by rw [UInt8.toNat_ofNat']; omega), List.length_nil]
  · refine ⟨_, _, rfl, fun rest => ?_⟩
    have hw : charWidth (UInt8.ofNat (c.val.toNat / 64 % 32 + 192)) = 2 := by
      rw [charWidth_toNat, UInt8.toNat_ofNat', if_neg (by omega), if_neg (by omega),
        if_pos (by omega)]
    have hs : isSecond (UInt8.ofNat (c.val.toNat / 64 % 32 + 192))
        (UInt8.ofNat (c.val.toNat % 64 + 128)) = true := by
      simp only [isSecond_iff, UInt8.toNat_ofNat']
      omega
    simp only [decodeChar, hw, hs, List.cons_append, List.nil_append, if_true]
    rw [hread _ (by simp only [payload, UInt8.toNat_ofNat']; omega), List.length_singleton]
  · refine ⟨_, _, rfl, fun rest => ?_⟩
    have hw : charWidth (UInt8.ofNat (c.val.toNat / 4096 % 16 + 224)) = 3 := by
      rw [charWidth_toNat, UInt8.toNat_ofNat', if_neg (by omega), if_neg (by omega),
        if_neg (by omega), if_pos (by omega)]
    have hs : isSecond (UInt8.ofNat (c.val.toNat / 4096 % 16 + 224))
        (UInt8.ofNat (c.val.toNat / 64 % 64 + 128)) = true := by
      simp only [isSecond_iff, UInt8.toNat_ofNat']
      omega
    have hd : isContinuation (UInt8.ofNat (c.val.toNat % 64 + 128)) = true := by
      simp only [isContinuation_iff, UInt8.toNat_ofNat']
      omega
    simp only [decodeChar, hw, hs, hd, List.cons_append, List.nil_append, Bool.not_true,
      Bool.false_eq_true, if_false]
    rw [hread _ (by simp only [payload, UInt8.toNat_ofNat']; omega)]
    rfl
  · refine ⟨_, _, rfl, fun rest => ?_⟩
    have hw : charWidth (UInt8.ofNat (c.val.toNat / 262144 % 8 + 240)) = 4 := by
      rw [charWidth_toNat, UInt8.toNat_ofNat', if_neg (by omega), if_neg (by omega),
        if_neg (by omega), if_neg (by omega), if_pos (by omega)]
    have hs : isSecond (UInt8.ofNat (c.val.toNat / 262144 % 8 + 240))
        (UInt8.ofNat (c.val.toNat / 4096 % 64 + 128)) = true := by
      simp only [isSecond_iff, UInt8.toNat_ofNat']
      omega
    have hd : isContinuation (UInt8.ofNat (c.val.toNat / 64 % 64 + 128)) = true := by
      simp only [isContinuation_iff, UInt8.toNat_ofNat']
      omega
    have he : isContinuation (UInt8.ofNat (c.val.toNat % 64 + 128)) = true := by
      simp only [isContinuation_iff, UInt8.toNat_ofNat']
      omega
    simp only [decodeChar, hw, hs, hd, he, List.cons_append, List.nil_append, Bool.not_true,
      Bool.false_eq_true, if_false]
    rw [hread _ (by simp only [payload, UInt8.toNat_ofNat']; omega)]
    rfl

/-- The encoding of a character by its number. -/
theorem encodeChar_ofNat {n : ℕ} (h : n.isValidChar) : String.utf8EncodeChar (Char.ofNat n)
    = if n ≤ 0x7f then [UInt8.ofNat n]
      else if n ≤ 0x7ff then [UInt8.ofNat (n / 64 % 32 + 0xc0), UInt8.ofNat (n % 64 + 0x80)]
      else if n ≤ 0xffff then
        [UInt8.ofNat (n / 4096 % 16 + 0xe0), UInt8.ofNat (n / 64 % 64 + 0x80),
          UInt8.ofNat (n % 64 + 0x80)]
      else
        [UInt8.ofNat (n / 262144 % 8 + 0xf0), UInt8.ofNat (n / 4096 % 64 + 0x80),
          UInt8.ofNat (n / 64 % 64 + 0x80), UInt8.ofNat (n % 64 + 0x80)] := by
  have hval : (Char.ofNat n).val.toNat = n := by
    rw [Char.ofNat, dif_pos h]
    rfl
  rw [String.utf8EncodeChar, hval]

/-- What is read is the character encoded there, or the replacement character. -/
theorem decodeChar_cases (b : UInt8) (bs : List UInt8) : (decodeChar b bs).1 = replacement ∨
    ∃ tail rest, bs = tail ++ rest ∧ (decodeChar b bs).2 = tail.length
      ∧ String.utf8EncodeChar (decodeChar b bs).1 = b :: tail := by
  have hb := b.toNat_lt
  have hbyte : ∀ (x : UInt8) (n : ℕ), n = x.toNat → UInt8.ofNat n = x := fun x n hn => by
    rw [hn, UInt8.ofNat_toNat]
  have hwidth := charWidth_toNat b
  fun_cases decodeChar b bs with
  | case1 bs hw =>
      right
      have hlt : b.toNat < 128 := by split_ifs at hwidth <;> omega
      refine ⟨[], bs, rfl, rfl, ?_⟩
      rw [encodeChar_ofNat (Or.inl (by omega)), if_pos (by omega), hbyte b _ rfl]
  | case2 c rest hw hs =>
      right
      rw [isSecond_iff] at hs
      have hlt : 0xC2 ≤ b.toNat ∧ b.toNat < 0xE0 := by split_ifs at hwidth <;> omega
      have hpc : payload c = c.toNat % 64 := rfl
      refine ⟨[c], rest, rfl, rfl, ?_⟩
      rw [encodeChar_ofNat (Or.inl (by omega)), if_neg (by omega), if_pos (by omega),
        hbyte b _ (by omega), hbyte c _ (by omega)]
  | case6 c d rest hw hs hd =>
      right
      simp only [Bool.not_eq_true, Bool.not_eq_false', isSecond_iff, isContinuation_iff] at hs hd
      have hlt : 0xE0 ≤ b.toNat ∧ b.toNat < 0xF0 := by split_ifs at hwidth <;> omega
      have hpc : payload c = c.toNat % 64 := rfl
      have hpd : payload d = d.toNat % 64 := rfl
      refine ⟨[c, d], rest, rfl, rfl, ?_⟩
      rw [encodeChar_ofNat (by rw [Nat.isValidChar]; omega), if_neg (by omega), if_neg (by omega),
        if_pos (by omega), hbyte b _ (by omega), hbyte c _ (by omega), hbyte d _ (by omega)]
  | case12 c d e rest hw hs hd he =>
      right
      simp only [Bool.not_eq_true, Bool.not_eq_false', isSecond_iff, isContinuation_iff]
        at hs hd he
      have hlt : 0xF0 ≤ b.toNat ∧ b.toNat < 0xF5 := by split_ifs at hwidth <;> omega
      have hpc : payload c = c.toNat % 64 := rfl
      have hpd : payload d = d.toNat % 64 := rfl
      have hpe : payload e = e.toNat % 64 := rfl
      refine ⟨[c, d, e], rest, rfl, rfl, ?_⟩
      rw [encodeChar_ofNat (by rw [Nat.isValidChar]; omega), if_neg (by omega), if_neg (by omega),
        if_neg (by omega), hbyte b _ (by omega), hbyte c _ (by omega), hbyte d _ (by omega),
        hbyte e _ (by omega)]
  | _ => exact Or.inl rfl

theorem decodeLossyFrom_append (tail rest : List UInt8) :
    decodeLossyFrom tail.length (tail ++ rest) = decodeLossyFrom 0 rest := by
  induction tail with
  | nil => rfl
  | cons b tail ih => exact ih

/-- **An encoded text is read back.** -/
theorem decodeLossy_encode (cs : List Char) : decodeLossy (encode cs) = cs := by
  induction cs with
  | nil => rfl
  | cons c cs ih =>
      obtain ⟨b, tail, henc, hread⟩ := decodeChar_encodeChar c
      rw [encode_cons, henc, List.cons_append, decodeLossy, decodeLossyFrom, hread,
        decodeLossyFrom_append]
      exact congrArg (c :: ·) ih

/-- Bytes that are read without a replacement are the encoding of what is read. -/
theorem encode_decodeLossy {bs : List UInt8} (h : replacement ∉ decodeLossy bs) :
    encode (decodeLossy bs) = bs := by
  induction hn : bs.length using Nat.strong_induction_on generalizing bs with
  | _ n ih =>
      cases bs with
      | nil => rfl
      | cons b bs =>
          rw [decodeLossy, decodeLossyFrom, List.mem_cons, not_or] at h
          obtain hrep | ⟨tail, rest, hbs, hskip, henc⟩ := decodeChar_cases b bs
          · exact absurd hrep.symm h.1
          · rw [hskip, hbs, decodeLossyFrom_append] at h
            have hrest := ih rest.length (by rw [← hn, hbs]; simp) h.2 rfl
            rw [decodeLossy, decodeLossyFrom, encode_cons, henc, hskip, hbs,
              decodeLossyFrom_append]
            rw [decodeLossy] at hrest
            rw [hrest, List.cons_append]

end Utf8
