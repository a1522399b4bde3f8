/-
# `application/x-www-form-urlencoded`

Parsing and serialising lists of name-value pairs: `&` separates the pairs, the
first `=` of a pair its value, `+` stands for a space and `%XX` for a byte.
Parsing never fails: a `%` that no two hexadecimal digits follow stands for itself
and bytes that are no UTF-8 are replaced.

What is serialised is parsed back, byte for byte (`parseBytes_serialize`); the
converse fails, since there are many ways to write a pair.
-/
import Serica.RustStr

namespace FormUrlencoded

/-! ## Percent encoding -/

/-- The value of a hexadecimal digit. -/
def hexValue (b : UInt8) : Option UInt8 :=
  if 0x30 ≤ b ∧ b ≤ 0x39 then some (b - 0x30)
  else if 0x41 ≤ b ∧ b ≤ 0x46 then some (b - 0x37)
  else if 0x61 ≤ b ∧ b ≤ 0x66 then some (b - 0x57)
  else none

/-- The byte whose two digits a text starts with. -/
def hexPair : List UInt8 → Option UInt8
  | x :: y :: _ => do some ((← hexValue x) * 16 + (← hexValue y))
  | _ => none

/-- `percentDecode` past the first `skip` bytes. -/
def percentDecodeFrom : ℕ → List UInt8 → List UInt8
  | _, [] => []
  | skip + 1, _ :: bs => percentDecodeFrom skip bs
  | 0, b :: bs =>
      match if b == 0x25 then hexPair bs else none with
      | some v => v :: percentDecodeFrom 2 bs
      | none => b :: percentDecodeFrom 0 bs

/-- Replaces every `%XX` by its byte. -/
def percentDecode (bs : List UInt8) : List UInt8 := percentDecodeFrom 0 bs

/-- The upper-case hexadecimal digit of a value below 16. -/
def hexDigit (v : UInt8) : UInt8 := if v < 10 then v + 0x30 else v + 0x37

/-- `%XX`. -/
def percentEncodeByte (b : UInt8) : List UInt8 := [0x25, hexDigit (b / 16), hexDigit (b % 16)]

/-! ## Parsing -/

/-- `+` stands for a space. -/
def replacePlus (bs : List UInt8) : List UInt8 := bs.map fun b => if b == 0x2B then 0x20 else b

/-- The text of a name or a value. -/
def decode (bs : List UInt8) : String :=
  String.ofList (Utf8.decodeLossy (percentDecode (replacePlus bs)))

/-- A pair is cut at its first `=`. -/
def parsePair (bs : List UInt8) : String × String :=
  (decode (bs.takeWhile (· != 0x3D)), decode ((bs.dropWhile (· != 0x3D)).drop 1))

/-- The pairs of an encoded text.  Empty pairs are skipped. -/
def parse (bs : List UInt8) : List (String × String) :=
  ((bs.splitOn 0x26).filter (· ≠ [])).map parsePair

/-! ## Serialising -/

/-- The bytes that stand for themselves: ASCII letters, digits and `*-._`. -/
def byteUnchanged (b : UInt8) : Bool :=
  b == 0x2A || b == 0x2D || b == 0x2E || b == 0x5F || (0x30 ≤ b && b ≤ 0x39)
    || (0x41 ≤ b && b ≤ 0x5A) || (0x61 ≤ b && b ≤ 0x7A)

def byteSerialize (b : UInt8) : List UInt8 :=
  if byteUnchanged b then [b] else if b == 0x20 then [0x2B] else percentEncodeByte b

/-- The serialisation of a text holds only ASCII bytes, each one a character. -/
def serializeText (s : String) : String :=
  String.ofList (((RustStr.asBytes s).flatMap byteSerialize).map fun b => Char.ofNat b.toNat)

/-- The serialisation of a list of pairs. -/
def serialize (pairs : List (String × String)) : String :=
  String.intercalate "&" (pairs.map fun p => serializeText p.1 ++ "=" ++ serializeText p.2)

example : parse (RustStr.asBytes "q=a+b%21&&utm_source&x=%zz")
    = [("q", "a b!"), ("utm_source", ""), ("x", "%zz")] := by decide

example : serialize [("q", "a b!"), ("x", "")] = "q=a+b%21&x=" := by decide

/-! ## Pairs of bytes

A name and a value are bytes before they are texts. -/

/-- The bytes of a name or a value. -/
def decodeBytes (bs : List UInt8) : List UInt8 := percentDecode (replacePlus bs)

/-- `decode`, after the percent decoding. -/
def textOf (bs : List UInt8) : String := String.ofList (Utf8.decodeLossy bs)

def pairBytes (bs : List UInt8) : List UInt8 × List UInt8 :=
  (decodeBytes (bs.takeWhile (· != 0x3D)), decodeBytes ((bs.dropWhile (· != 0x3D)).drop 1))

/-- The pairs of an encoded text, as bytes. -/
def parseBytes (bs : List UInt8) : List (List UInt8 × List UInt8) :=
  ((bs.splitOn 0x26).filter (· ≠ [])).map pairBytes

theorem parse_eq (bs : List UInt8) : parse bs = (parseBytes bs).map (Prod.map textOf textOf) := by
  rw [parse, parseBytes, List.map_map]
  rfl

theorem textOf_asBytes (s : String) : textOf (RustStr.asBytes s) = s := by
  rw [textOf, RustStr.asBytes, Utf8.decodeLossy_encode, String.ofList_toList]

/-- Bytes that read as a text without a replacement are that text. -/
theorem textOf_eq_iff {bs : List UInt8} {s : String} (h : Utf8.replacement ∉ s.toList) :
    textOf bs = s ↔ bs = RustStr.asBytes s := by
  constructor
  · intro htext
    rw [← htext, textOf, String.toList_ofList] at h
    rw [← htext, RustStr.asBytes, textOf, String.toList_ofList, Utf8.encode_decodeLossy h]
  · rintro rfl
    exact textOf_asBytes s

/-! ## The round trip of a text -/

@[simp] theorem replacePlus_append (xs ys : List UInt8) :
    replacePlus (xs ++ ys) = replacePlus xs ++ replacePlus ys := List.map_append

theorem percentDecode_cons_ne {b : UInt8} (h : b ≠ 0x25) (bs : List UInt8) :
    percentDecode (b :: bs) = b :: percentDecode bs := by
  rw [percentDecode, percentDecodeFrom, if_neg (by simpa using h)]
  rfl

/-- An escaped byte is read back. -/
theorem percentDecode_percentEncodeByte (b : UInt8) (bs : List UInt8) :
    percentDecode (percentEncodeByte b ++ bs) = b :: percentDecode bs := by
  have hhexPair : ∀ b : UInt8, hexPair [hexDigit (b / 16), hexDigit (b % 16)] = some b := by
    decide +kernel
  have hb : hexPair (hexDigit (b / 16) :: hexDigit (b % 16) :: bs) = some b := hhexPair b
  rw [percentEncodeByte, List.cons_append, List.cons_append, List.cons_append, List.nil_append,
    percentDecode, percentDecodeFrom, if_pos (by rfl), hb]
  rfl

theorem replacePlus_percentEncodeByte (b : UInt8) :
    replacePlus (percentEncodeByte b) = percentEncodeByte b := by
  revert b
  decide +kernel

/-- A serialised byte is read back. -/
theorem decodeBytes_byteSerialize (b : UInt8) (bs : List UInt8) :
    decodeBytes (byteSerialize b ++ bs) = b :: decodeBytes bs := by
  have hplain : ∀ b : UInt8, byteUnchanged b = true → b ≠ 0x25 ∧ b ≠ 0x2B := by decide +kernel
  rw [decodeBytes, decodeBytes, replacePlus_append, byteSerialize]
  split_ifs with hb hspace
  · obtain ⟨hpercent, hplus⟩ := hplain b hb
    rw [show replacePlus [b] = [b] by simp [replacePlus, hplus], List.singleton_append,
      percentDecode_cons_ne hpercent]
  · rw [beq_iff_eq] at hspace
    rw [hspace]
    exact percentDecode_cons_ne (by decide) _
  · rw [replacePlus_percentEncodeByte, percentDecode_percentEncodeByte]

theorem decodeBytes_flatMap_byteSerialize (bs : List UInt8) :
    decodeBytes (bs.flatMap byteSerialize) = bs := by
  induction bs with
  | nil => rfl
  | cons b bs ih => rw [List.flatMap_cons, decodeBytes_byteSerialize, ih]

/-- The bytes that a serialised text is written with. -/
def isWritten (b : UInt8) : Bool := byteUnchanged b || b == 0x2B || b == 0x25

theorem isWritten_of_mem_byteSerialize {b c : UInt8} (h : c ∈ byteSerialize b) :
    isWritten c = true := by
  have hall : ∀ b : UInt8, (byteSerialize b).all isWritten = true := by decide +kernel
  exact List.all_eq_true.mp (hall b) c h

theorem ascii_of_isWritten {b : UInt8} (h : isWritten b = true) : b.toNat < 128 := by
  have hall : ∀ b : UInt8, (!isWritten b || b < 128) = true := by decide +kernel
  have hb := hall b
  rw [h, Bool.not_true, Bool.false_or, decide_eq_true_eq] at hb
  exact UInt8.lt_iff_toNat_lt.mp hb

/-- The serialisation of a text has one byte for each of its characters. -/
theorem asBytes_serializeText (s : String) :
    RustStr.asBytes (serializeText s) = (RustStr.asBytes s).flatMap byteSerialize := by
  have hascii : ∀ bs : List UInt8, (∀ c ∈ bs, c.toNat < 128) →
      Utf8.encode (bs.map fun b => Char.ofNat b.toNat) = bs := by
    intro bs hbs
    induction bs with
    | nil => rfl
    | cons b bs ih =>
        have hb := hbs b List.mem_cons_self
        have hval : (Char.ofNat b.toNat).toNat = b.toNat := by
          rw [Char.ofNat, dif_pos (Or.inl (by omega))]
          rfl
        rw [List.map_cons, Utf8.encode_cons, Utf8.encodeChar_ascii (by rw [hval]; exact hb), hval,
          UInt8.ofNat_toNat, ih fun c hc => hbs c (List.mem_cons_of_mem b hc)]
        rfl
  rw [serializeText, RustStr.asBytes, String.toList_ofList, hascii]
  intro c hc
  rw [List.mem_flatMap] at hc
  obtain ⟨b, -, hb⟩ := hc
  exact ascii_of_isWritten (isWritten_of_mem_byteSerialize hb)

/-- No separator is among them. -/
theorem not_mem_asBytes_serializeText {c : UInt8} (hc : isWritten c = false) (s : String) :
    c ∉ RustStr.asBytes (serializeText s) := by
  rw [asBytes_serializeText, List.mem_flatMap]
  rintro ⟨b, -, hb⟩
  exact absurd (isWritten_of_mem_byteSerialize hb) (by simp [hc])

/-- A text of bytes that stand for themselves is its own serialisation. -/
theorem serializeText_eq_self {s : String} (h : ∀ b ∈ RustStr.asBytes s, byteUnchanged b = true) :
    serializeText s = s := by
  have hbytes : ∀ bs : List UInt8, (∀ b ∈ bs, byteUnchanged b = true) →
      bs.flatMap byteSerialize = bs := by
    intro bs hbs
    induction bs with
    | nil => rfl
    | cons b bs ih =>
        rw [List.flatMap_cons, ih fun c hc => hbs c (List.mem_cons_of_mem b hc), byteSerialize,
          if_pos (hbs b List.mem_cons_self), List.singleton_append]
  have hsame : RustStr.asBytes (serializeText s) = RustStr.asBytes s := by
    rw [asBytes_serializeText, hbytes _ h]
  rw [← textOf_asBytes (serializeText s), hsame, textOf_asBytes]

/-! ## The round trip of a list of pairs -/

/-- The pairs of segments that are joined with `&`. -/
theorem parseBytes_intercalate {segments : List String}
    (h : ∀ segment ∈ segments, (0x26 : UInt8) ∉ RustStr.asBytes segment) :
    parseBytes (RustStr.asBytes ("&".intercalate segments))
      = ((segments.map RustStr.asBytes).filter (· ≠ [])).map pairBytes := by
  cases segments with
  | nil => rfl
  | cons s segments =>
      rw [parseBytes, RustStr.asBytes_intercalate, show RustStr.asBytes "&" = [0x26] by rfl,
        List.splitOn_intercalate]
      · simpa using h
      · simp

theorem parse_intercalate {segments : List String}
    (h : ∀ segment ∈ segments, (0x26 : UInt8) ∉ RustStr.asBytes segment) :
    parse (RustStr.asBytes ("&".intercalate segments))
      = ((segments.map RustStr.asBytes).filter (· ≠ [])).map parsePair := by
  rw [parse_eq, parseBytes_intercalate h, List.map_map]
  rfl

/-- A serialised pair is read back. -/
theorem pairBytes_serialize (p : String × String) :
    pairBytes (RustStr.asBytes (serializeText p.1 ++ "=" ++ serializeText p.2))
      = (RustStr.asBytes p.1, RustStr.asBytes p.2) := by
  have hname : ∀ b ∈ RustStr.asBytes (serializeText p.1), (b != 0x3D) = true := by
    intro b hb
    rw [bne_iff_ne]
    rintro rfl
    exact not_mem_asBytes_serializeText (by decide) p.1 hb
  rw [RustStr.asBytes_append, RustStr.asBytes_append, List.append_assoc, pairBytes,
    List.takeWhile_append_of_pos hname, List.dropWhile_append_of_pos hname,
    show RustStr.asBytes "=" = [0x3D] by rfl, List.singleton_append,
    List.takeWhile_cons_of_neg (by decide), List.dropWhile_cons_of_neg (by decide),
    List.append_nil, List.drop_one, List.tail_cons, asBytes_serializeText, asBytes_serializeText,
    decodeBytes_flatMap_byteSerialize, decodeBytes_flatMap_byteSerialize]

theorem parsePair_serialize (p : String × String) :
    parsePair (RustStr.asBytes (serializeText p.1 ++ "=" ++ serializeText p.2)) = p := by
  have hbytes := congrArg (Prod.map textOf textOf) (pairBytes_serialize p)
  exact hbytes.trans (Prod.ext (textOf_asBytes p.1) (textOf_asBytes p.2))

/-- **What is serialised is parsed back**, byte for byte. -/
theorem parseBytes_serialize (pairs : List (String × String)) :
    parseBytes (RustStr.asBytes (serialize pairs))
      = pairs.map (Prod.map RustStr.asBytes RustStr.asBytes) := by
  have hamp : ∀ segment ∈ pairs.map fun p => serializeText p.1 ++ "=" ++ serializeText p.2,
      (0x26 : UInt8) ∉ RustStr.asBytes segment := by
    intro segment hsegment
    rw [List.mem_map] at hsegment
    obtain ⟨p, -, rfl⟩ := hsegment
    rw [RustStr.asBytes_append, RustStr.asBytes_append, List.mem_append, List.mem_append]
    rintro ((hname | heq) | hvalue)
    · exact not_mem_asBytes_serializeText (by decide) p.1 hname
    · exact absurd heq (by decide)
    · exact not_mem_asBytes_serializeText (by decide) p.2 hvalue
  have hne : ∀ p : String × String,
      RustStr.asBytes (serializeText p.1 ++ "=" ++ serializeText p.2) ≠ [] := by
    intro p
    rw [RustStr.asBytes_append, RustStr.asBytes_append, show RustStr.asBytes "=" = [0x3D] by rfl]
    simp
  rw [serialize, parseBytes_intercalate hamp, List.map_map, List.filter_eq_self.mpr, List.map_map]
  · apply List.map_congr_left
    intro p _
    rw [Function.comp_apply, Function.comp_apply, pairBytes_serialize]
    rfl
  · intro bs hbs
    rw [List.mem_map] at hbs
    obtain ⟨p, -, hp⟩ := hbs
    rw [Function.comp_apply] at hp
    rw [decide_eq_true_eq, ← hp]
    exact hne p

theorem parse_serialize (pairs : List (String × String)) :
    parse (RustStr.asBytes (serialize pairs)) = pairs := by
  rw [parse_eq, parseBytes_serialize, List.map_map]
  have hid : Prod.map textOf textOf ∘ Prod.map RustStr.asBytes RustStr.asBytes = id := by
    funext p
    rw [Function.comp_apply, Prod.map_map]
    exact Prod.ext (textOf_asBytes p.1) (textOf_asBytes p.2)
  rw [hid, List.map_id]

/-- The bytes of a serialised list. -/
theorem of_mem_asBytes_serialize {b : UInt8} {pairs : List (String × String)}
    (h : b ∈ RustStr.asBytes (serialize pairs)) : isWritten b = true ∨ b = 0x26 ∨ b = 0x3D := by
  have htext : ∀ s, b ∈ RustStr.asBytes (serializeText s) → isWritten b = true := by
    intro s hb
    by_contra hb'
    exact not_mem_asBytes_serializeText (by simpa using hb') s hb
  rw [serialize, RustStr.asBytes_intercalate] at h
  rcases RustStr.mem_intercalate h with hamp | ⟨segment, hsegment, hb⟩
  · exact Or.inr (Or.inl hamp)
  · rw [List.map_map, List.mem_map] at hsegment
    obtain ⟨p, -, rfl⟩ := hsegment
    rw [Function.comp_apply, RustStr.asBytes_append, RustStr.asBytes_append, List.mem_append,
      List.mem_append] at hb
    rcases hb with (hname | heq) | hvalue
    · exact Or.inl (htext _ hname)
    · exact Or.inr (Or.inr (List.mem_singleton.mp heq))
    · exact Or.inl (htext _ hvalue)

end FormUrlencoded
