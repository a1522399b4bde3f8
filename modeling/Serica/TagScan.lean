/-
# Scanning for tags

The byte-level helpers that the two code-block patches share: is there an opening
tag here, where does the tag end, is there a closing tag here and how long is it.
Each helper works on the bytes of a text and an index.  At an index that is a
character boundary it has a reading on the list of the remaining characters:

* `openAt_encode`: `openAt` is `tagOpen`;
* `findTagEnd_encode`: `findTagEnd` is `tagEnd`, which cuts the tag off;
* `closeLen_encode`: `closeLen` is `closeTag`, which cuts the closing tag off.

The proofs about the patches use the readings and never the indices.
-/
import Serica.RustStr

namespace TagScan

/-! ## The helpers on bytes -/

/-- `b.is_ascii_whitespace()`. -/
def isAsciiWhitespace (b : UInt8) : Bool :=
  b == 0x20 || b == 0x09 || b == 0x0A || b == 0x0C || b == 0x0D

/-- `b.to_ascii_lowercase()`. -/
def toAsciiLowercase (b : UInt8) : UInt8 := if 0x41 ≤ b ∧ b ≤ 0x5A then b + 0x20 else b

/-- `b.eq_ignore_ascii_case(&t)`. -/
def eqIgnoreAsciiCase (b t : UInt8) : Bool := toAsciiLowercase b == toAsciiLowercase t

/-- The comparison of the bytes from `i` on with a tag. -/
def matchesAt (bytes : List UInt8) : ℕ → List UInt8 → Bool
  | _, [] => true
  | i, t :: tag => bytes[i]?.any (eqIgnoreAsciiCase · t) && matchesAt bytes (i + 1) tag

/-- A byte that may follow the name of an opening tag: whitespace, `>` or `/`. -/
def isNameEnd (b : UInt8) : Bool := isAsciiWhitespace b || b == 0x3E || b == 0x2F

/-- The bytes from `i` on start with `tag`, and the name ends there. -/
def openAt (tag bytes : List UInt8) (i : ℕ) : Bool :=
  if i + tag.length > bytes.length then false
  else if !matchesAt bytes i tag then false
  else bytes[i + tag.length]?.any isNameEnd

/-- The loop of `findTagEnd`: the rest of the bytes, its index, and the two quote
flags. -/
def findTagEndLoop : List UInt8 → ℕ → Bool → Bool → Option ℕ
  | [], _, _, _ => none
  | b :: bs, k, true, inDquote => findTagEndLoop bs (k + 1) (b != 0x27) inDquote
  | b :: bs, k, false, true => findTagEndLoop bs (k + 1) false (b != 0x22)
  | b :: bs, k, false, false =>
      if b == 0x27 then findTagEndLoop bs (k + 1) true false
      else if b == 0x22 then findTagEndLoop bs (k + 1) false true
      else if b == 0x3E then some k
      else findTagEndLoop bs (k + 1) false false

/-- The index of the `>` that closes the tag at `start`, past quoted values. -/
def findTagEnd (bytes : List UInt8) (start : ℕ) : Option ℕ :=
  findTagEndLoop (bytes.drop start) start false false

/-- The first index from `k` on that holds no ASCII whitespace. -/
def skipWhitespace (bytes : List UInt8) (k : ℕ) : ℕ :=
  k + ((bytes.drop k).takeWhile isAsciiWhitespace).length

/-- The length of the closing tag at `j` when there is one: `tag`, optional
whitespace and `>`. -/
def closeLen (tag bytes : List UInt8) (j : ℕ) : Option ℕ :=
  if j + tag.length > bytes.length then none
  else if !matchesAt bytes j tag then none
  else
    let k := skipWhitespace bytes (j + tag.length)
    if k < bytes.length && bytes[k]? == some 0x3E then some (k + 1 - j) else none

/-- The first index from `j` on that holds `<`, or the length. -/
def nextLt (bytes : List UInt8) (j : ℕ) : ℕ :=
  j + ((bytes.drop j).takeWhile (· != 0x3C)).length

/-! ## Their readings on characters -/

/-- ASCII whitespace, on characters. -/
def isSpace (c : Char) : Bool := Utf8.ascii isAsciiWhitespace c

/-- The text starts with `tag`, up to the case of ASCII letters. -/
def matchesTag : List UInt8 → List Char → Bool
  | [], _ => true
  | _ :: _, [] => false
  | t :: tag, c :: cs => Utf8.ascii (eqIgnoreAsciiCase · t) c && matchesTag tag cs

/-- The text starts with the opening tag `tag`, and the name ends there. -/
def tagOpen (tag : List UInt8) (cs : List Char) : Bool :=
  matchesTag tag cs && (cs.drop tag.length).head?.any (Utf8.ascii isNameEnd)

/-- Cuts a text after the `>` that closes its first tag. -/
def tagEnd : Bool → Bool → List Char → Option (List Char × List Char)
  | _, _, [] => none
  | true, inDquote, c :: cs => (tagEnd (c != '\'') inDquote cs).map fun p => (c :: p.1, p.2)
  | false, true, c :: cs => (tagEnd false (c != '"') cs).map fun p => (c :: p.1, p.2)
  | false, false, c :: cs =>
      if c = '\'' then (tagEnd true false cs).map fun p => (c :: p.1, p.2)
      else if c = '"' then (tagEnd false true cs).map fun p => (c :: p.1, p.2)
      else if c = '>' then some ([c], cs)
      else (tagEnd false false cs).map fun p => (c :: p.1, p.2)

/-- Cuts a text after the closing tag it starts with. -/
def closeTag (tag : List UInt8) (cs : List Char) : Option (List Char × List Char) :=
  if matchesTag tag cs then
    match (cs.drop tag.length).dropWhile isSpace with
    | '>' :: rest =>
        some (cs.take tag.length ++ (cs.drop tag.length).takeWhile isSpace ++ ['>'], rest)
    | _ => none
  else none

/-! ## Cutting keeps the text -/

/-- The tag and the rest make up the text; the tag is not empty. -/
theorem tagEnd_eq {sq dq : Bool} {cs tag rest : List Char}
    (h : tagEnd sq dq cs = some (tag, rest)) : cs = tag ++ rest ∧ tag ≠ [] := by
  induction cs generalizing sq dq tag rest with
  | nil => simp [tagEnd] at h
  | cons c cs ih =>
      have hrec : ∀ sq' dq', (tagEnd sq' dq' cs).map (fun p => (c :: p.1, p.2)) = some (tag, rest) →
          c :: cs = tag ++ rest ∧ tag ≠ [] := by
        intro sq' dq' hmap
        rw [Option.map_eq_some_iff] at hmap
        obtain ⟨⟨tag', rest'⟩, hcut, heq⟩ := hmap
        obtain ⟨hcs, -⟩ := ih hcut
        rw [Prod.mk.injEq] at heq
        rw [← heq.1, ← heq.2, hcs]
        exact ⟨rfl, List.cons_ne_nil _ _⟩
      cases sq with
      | true => exact hrec _ _ h
      | false =>
          cases dq with
          | true => exact hrec _ _ h
          | false =>
              rw [tagEnd] at h
              split_ifs at h with h1 h2 h3
              · exact hrec _ _ h
              · exact hrec _ _ h
              · rw [Option.some.injEq, Prod.mk.injEq] at h
                rw [← h.1, ← h.2]
                exact ⟨rfl, List.cons_ne_nil _ _⟩
              · exact hrec _ _ h

/-- A tag ends in `>`. -/
theorem tagEnd_gt {sq dq : Bool} {cs tag rest : List Char}
    (h : tagEnd sq dq cs = some (tag, rest)) : ∃ front, tag = front ++ ['>'] := by
  induction cs generalizing sq dq tag rest with
  | nil => simp [tagEnd] at h
  | cons c cs ih =>
      have hrec : ∀ sq' dq', (tagEnd sq' dq' cs).map (fun p => (c :: p.1, p.2)) = some (tag, rest) →
          ∃ front, tag = front ++ ['>'] := by
        intro sq' dq' hmap
        rw [Option.map_eq_some_iff] at hmap
        obtain ⟨⟨tag', rest'⟩, hcut, heq⟩ := hmap
        obtain ⟨front, hfront⟩ := ih hcut
        rw [Prod.mk.injEq] at heq
        exact ⟨c :: front, by rw [← heq.1, hfront]; rfl⟩
      cases sq with
      | true => exact hrec _ _ h
      | false =>
          cases dq with
          | true => exact hrec _ _ h
          | false =>
              rw [tagEnd] at h
              split_ifs at h with h1 h2 h3
              · exact hrec _ _ h
              · exact hrec _ _ h
              · rw [Option.some.injEq, Prod.mk.injEq] at h
                exact ⟨[], by rw [← h.1, h3]; rfl⟩
              · exact hrec _ _ h

/-- The closing tag and the rest make up the text; the closing tag is not empty. -/
theorem closeTag_eq {tag : List UInt8} {cs close rest : List Char}
    (h : closeTag tag cs = some (close, rest)) : cs = close ++ rest ∧ close ≠ [] := by
  rw [closeTag] at h
  split_ifs at h
  split at h
  · rename_i hdrop
    rw [Option.some.injEq, Prod.mk.injEq] at h
    have htail : cs.drop tag.length
        = (cs.drop tag.length).takeWhile isSpace ++ '>' :: rest := by
      rw [← h.2, ← hdrop, List.takeWhile_append_dropWhile]
    rw [← h.1]
    refine ⟨?_, by simp⟩
    calc cs = cs.take tag.length ++ cs.drop tag.length := (List.take_append_drop _ _).symm
      _ = cs.take tag.length ++ ((cs.drop tag.length).takeWhile isSpace ++ '>' :: rest) := by
        rw [← htail]
      _ = _ := by simp
  · exact absurd h (by simp)

/-- A closing tag ends in `>`. -/
theorem closeTag_gt {tag : List UInt8} {cs close rest : List Char}
    (h : closeTag tag cs = some (close, rest)) : ∃ front, close = front ++ ['>'] := by
  rw [closeTag] at h
  split_ifs at h
  split at h
  · rw [Option.some.injEq, Prod.mk.injEq] at h
    exact ⟨_, h.1.symm⟩
  · exact absurd h (by simp)

/-! ## How far the readings look

A tag without `>` is matched, opened or closed in front of the first `>`; what stands
behind it does not matter. -/

/-- No byte of the tag matches `>`. -/
def NoGt (tag : List UInt8) : Prop := ∀ t ∈ tag, Utf8.ascii (eqIgnoreAsciiCase · t) '>' = false

theorem tagOpen_cons (t : UInt8) (tag : List UInt8) (c : Char) (cs : List Char) :
    tagOpen (t :: tag) (c :: cs)
      = (Utf8.ascii (eqIgnoreAsciiCase · t) c && tagOpen tag cs) := by
  rw [tagOpen, tagOpen, matchesTag, Bool.and_assoc]
  rfl

theorem tagOpen_behind {tag : List UInt8} (htag : NoGt tag) (front xs : List Char) :
    tagOpen tag (front ++ '>' :: xs) = tagOpen tag (front ++ ['>']) := by
  induction tag generalizing front with
  | nil => cases front <;> rfl
  | cons t tag ih =>
      have hgt := htag t List.mem_cons_self
      have hrest : NoGt tag := fun t' h' => htag t' (List.mem_cons_of_mem t h')
      cases front with
      | nil => rw [List.nil_append, List.nil_append, tagOpen_cons, tagOpen_cons, hgt]; rfl
      | cons c front =>
          rw [List.cons_append, List.cons_append, tagOpen_cons, tagOpen_cons, ih hrest]

theorem closeTag_cons (t : UInt8) (tag : List UInt8) (c : Char) (cs : List Char) :
    closeTag (t :: tag) (c :: cs)
      = if Utf8.ascii (eqIgnoreAsciiCase · t) c then
          (closeTag tag cs).map fun p => (c :: p.1, p.2)
        else none := by
  rw [closeTag, closeTag, matchesTag]
  cases Utf8.ascii (eqIgnoreAsciiCase · t) c with
  | false => rfl
  | true =>
      rw [Bool.true_and, if_pos rfl]
      cases matchesTag tag cs with
      | false => rfl
      | true =>
          rw [if_pos rfl, if_pos rfl, List.length_cons, List.drop_succ_cons, List.take_succ_cons]
          split <;> rfl

/-- Without a name left, only whitespace may stand in front of the `>`. -/
theorem closeTag_space (c : Char) (cs : List Char) :
    closeTag [] (c :: cs)
      = if isSpace c then (closeTag [] cs).map fun p => (c :: p.1, p.2)
        else if c = '>' then some (['>'], cs) else none := by
  rw [closeTag, closeTag, matchesTag, matchesTag, if_pos rfl, if_pos rfl]
  simp only [List.length_nil, List.drop_zero, List.take_zero, List.nil_append,
    List.dropWhile_cons, List.takeWhile_cons]
  cases isSpace c with
  | true =>
      simp only [if_true]
      split <;> rfl
  | false =>
      by_cases hc : c = '>'
      · subst hc
        rfl
      · simp only [Bool.false_eq_true, if_false, hc]
        split
        · next heq => exact absurd (List.cons.inj heq).1 hc
        · rfl

theorem closeTag_behind {tag : List UInt8} (htag : NoGt tag) (front xs : List Char) :
    closeTag tag (front ++ '>' :: xs)
      = (closeTag tag (front ++ ['>'])).map fun p => (p.1, p.2 ++ xs) := by
  have hgt : isSpace '>' = false := by decide
  induction tag generalizing front with
  | nil =>
      induction front with
      | nil =>
          rw [List.nil_append, List.nil_append, closeTag_space, closeTag_space, hgt]
          rfl
      | cons c front ih =>
          rw [List.cons_append, List.cons_append, closeTag_space, closeTag_space, ih]
          split_ifs
          · rw [Option.map_map, Option.map_map]
            rfl
          · simp
          · rfl
  | cons t tag ih =>
      have hfirst := htag t List.mem_cons_self
      have hrest : NoGt tag := fun t' h' => htag t' (List.mem_cons_of_mem t h')
      cases front with
      | nil =>
          rw [List.nil_append, List.nil_append, closeTag_cons, closeTag_cons, hfirst]
          rfl
      | cons c front =>
          rw [List.cons_append, List.cons_append, closeTag_cons, closeTag_cons, ih hrest]
          split_ifs
          · rw [Option.map_map, Option.map_map]
            rfl
          · rfl

/-- A tag that is cut off ends there whatever follows. -/
theorem tagEnd_behind {sq dq : Bool} {cs tag rest : List Char}
    (h : tagEnd sq dq cs = some (tag, rest)) (xs : List Char) :
    tagEnd sq dq (tag ++ xs) = some (tag, xs) := by
  induction cs generalizing sq dq tag rest with
  | nil => simp [tagEnd] at h
  | cons c cs ih =>
      have hrec : ∀ sq' dq', (tagEnd sq' dq' cs).map (fun p => (c :: p.1, p.2)) = some (tag, rest) →
          ∃ tag', tag = c :: tag'
            ∧ (tagEnd sq' dq' (tag' ++ xs)).map (fun p => (c :: p.1, p.2)) = some (tag, xs) := by
        intro sq' dq' hmap
        rw [Option.map_eq_some_iff] at hmap
        obtain ⟨⟨tag', rest'⟩, hcut, heq⟩ := hmap
        rw [Prod.mk.injEq] at heq
        exact ⟨tag', heq.1.symm, by rw [ih hcut, ← heq.1]; rfl⟩
      cases sq with
      | true =>
          obtain ⟨tag', rfl, hcut⟩ := hrec _ _ h
          exact hcut
      | false =>
          cases dq with
          | true =>
              obtain ⟨tag', rfl, hcut⟩ := hrec _ _ h
              exact hcut
          | false =>
              rw [tagEnd] at h
              split_ifs at h with h1 h2 h3
              · obtain ⟨tag', rfl, hcut⟩ := hrec _ _ h
                rwa [List.cons_append, tagEnd, if_pos h1]
              · obtain ⟨tag', rfl, hcut⟩ := hrec _ _ h
                rwa [List.cons_append, tagEnd, if_neg h1, if_pos h2]
              · rw [Option.some.injEq, Prod.mk.injEq] at h
                rw [← h.1, h3]
                rfl
              · obtain ⟨tag', rfl, hcut⟩ := hrec _ _ h
                rwa [List.cons_append, tagEnd, if_neg h1, if_neg h2, if_neg h3]

/-- A closing tag that is cut off ends there whatever follows. -/
theorem closeTag_cut {tag : List UInt8} (htag : NoGt tag) {cs close rest : List Char}
    (h : closeTag tag cs = some (close, rest)) (xs : List Char) :
    closeTag tag (close ++ xs) = some (close, xs) := by
  obtain ⟨front, rfl⟩ := closeTag_gt h
  obtain ⟨hcs, -⟩ := closeTag_eq h
  rw [hcs, List.append_assoc, List.singleton_append, closeTag_behind htag,
    Option.map_eq_some_iff] at h
  obtain ⟨⟨close', rest'⟩, hcut, heq⟩ := h
  rw [Prod.mk.injEq] at heq
  have hempty : rest' = [] := by simpa using heq.2
  rw [List.append_assoc, List.singleton_append, closeTag_behind htag, hcut, Option.map_some,
    hempty, heq.1]
  rfl

/-- A character that is no blank, no `>` and none of the tag does not stand in a closing tag. -/
theorem not_mem_closeTag {x : Char} (hspace : isSpace x = false) (hgt : x ≠ '>') {tag : List UInt8}
    (htag : ∀ t ∈ tag, Utf8.ascii (eqIgnoreAsciiCase · t) x = false) {cs close rest : List Char}
    (h : closeTag tag cs = some (close, rest)) : ∀ c ∈ close, c ≠ x := by
  induction tag generalizing cs close rest with
  | nil =>
      induction cs generalizing close rest with
      | nil => exact absurd h (by simp [closeTag, matchesTag])
      | cons c cs ih =>
          rw [closeTag_space] at h
          split_ifs at h with hblank hend
          · rw [Option.map_eq_some_iff] at h
            obtain ⟨⟨close', rest'⟩, hcut, heq⟩ := h
            rw [Prod.mk.injEq] at heq
            rw [← heq.1, List.forall_mem_cons]
            refine ⟨?_, ih hcut⟩
            rintro rfl
            exact absurd (hspace.symm.trans hblank) Bool.false_ne_true
          · rw [Option.some.injEq, Prod.mk.injEq] at h
            rw [← h.1]
            simpa using hgt.symm
  | cons t tag ih =>
      cases cs with
      | nil => exact absurd h (by simp [closeTag, matchesTag])
      | cons c cs =>
          rw [closeTag_cons] at h
          split_ifs at h with hc
          rw [Option.map_eq_some_iff] at h
          obtain ⟨⟨close', rest'⟩, hcut, heq⟩ := h
          rw [Prod.mk.injEq] at heq
          rw [← heq.1, List.forall_mem_cons]
          refine ⟨?_, ih (fun t' h' => htag t' (List.mem_cons_of_mem t h')) hcut⟩
          rintro rfl
          rw [htag t List.mem_cons_self] at hc
          exact absurd hc Bool.false_ne_true

/-- Behind its first character, a closing tag holds no `<`. -/
theorem closeTag_no_lt {tag : List UInt8}
    (htag : ∀ t ∈ tag, Utf8.ascii (eqIgnoreAsciiCase · t) '<' = false) {cs close rest : List Char}
    (h : closeTag tag cs = some (close, rest)) : ∀ c ∈ close, c ≠ '<' :=
  not_mem_closeTag (by decide) (by decide) htag h

/-- A closing tag holds at most one `<`, its first character. -/
theorem closeTag_tail_no_lt {t : UInt8} {tag : List UInt8}
    (htag : ∀ t' ∈ tag, Utf8.ascii (eqIgnoreAsciiCase · t') '<' = false) {cs close rest : List Char}
    (h : closeTag (t :: tag) cs = some (close, rest)) :
    ∃ c close', close = c :: close' ∧ ∀ d ∈ close', d ≠ '<' := by
  cases cs with
  | nil => exact absurd h (by simp [closeTag, matchesTag])
  | cons c cs =>
      rw [closeTag_cons] at h
      split_ifs at h
      rw [Option.map_eq_some_iff] at h
      obtain ⟨⟨close', rest'⟩, hcut, heq⟩ := h
      rw [Prod.mk.injEq] at heq
      exact ⟨c, close', heq.1.symm, closeTag_no_lt htag hcut⟩

/-- A closing tag is no opening tag: their second characters differ. -/
theorem tagOpen_of_closeTag {t s t' s' : UInt8} {tag tag' : List UInt8}
    (hne : toAsciiLowercase s ≠ toAsciiLowercase s') {cs close rest : List Char}
    (h : closeTag (t :: s :: tag) cs = some (close, rest)) :
    tagOpen (t' :: s' :: tag') cs = false := by
  cases cs with
  | nil => rfl
  | cons c cs =>
      cases cs with
      | nil => rw [tagOpen_cons, Bool.and_eq_false_iff]; exact Or.inr rfl
      | cons d cs =>
          rw [closeTag_cons, closeTag_cons] at h
          split_ifs at h with hc hd
          · rw [tagOpen_cons, tagOpen_cons, Bool.and_eq_false_iff, Bool.and_eq_false_iff]
            refine Or.inr (Or.inl ?_)
            rw [Utf8.ascii, Bool.and_eq_true, eqIgnoreAsciiCase, beq_iff_eq] at hd
            rw [Utf8.ascii, Bool.and_eq_false_iff, eqIgnoreAsciiCase, beq_eq_false_iff_ne, hd.2]
            exact Or.inr hne
          · exact absurd h (by simp)

/-- The two texts differ only behind a `>`, and there not in a quote. -/
inductive SameTags : List Char → List Char → Prop
  | nil : SameTags [] []
  | copied (c : Char) {xs cs : List Char} (h : SameTags xs cs) : SameTags (c :: xs) (c :: cs)
  | behind {as bs xs cs : List Char} (has : ∀ c ∈ as, c ≠ '\'' ∧ c ≠ '"')
      (hbs : ∀ c ∈ bs, c ≠ '\'' ∧ c ≠ '"') (h : SameTags xs cs) :
      SameTags ('>' :: (as ++ xs)) ('>' :: (bs ++ cs))

namespace SameTags

/-- Up to the first difference, and the `>` before it, the texts are one. -/
theorem common {xs cs : List Char} (h : SameTags xs cs) :
    xs = cs ∨ ∃ front xs' cs', xs = front ++ '>' :: xs' ∧ cs = front ++ '>' :: cs' := by
  induction h with
  | nil => exact Or.inl rfl
  | copied c _ ih =>
      rcases ih with rfl | ⟨front, xs', cs', rfl, rfl⟩
      · exact Or.inl rfl
      · exact Or.inr ⟨c :: front, xs', cs', rfl, rfl⟩
  | behind => exact Or.inr ⟨[], _, _, rfl, rfl⟩

theorem tagOpen_eq {tag : List UInt8} (htag : NoGt tag) {xs cs : List Char}
    (h : SameTags xs cs) : tagOpen tag xs = tagOpen tag cs := by
  rcases h.common with rfl | ⟨front, xs', cs', rfl, rfl⟩
  · rfl
  · rw [tagOpen_behind htag, tagOpen_behind htag front cs']

theorem closeTag_eq_none_iff {tag : List UInt8} (htag : NoGt tag) {xs cs : List Char}
    (h : SameTags xs cs) : closeTag tag xs = none ↔ closeTag tag cs = none := by
  rcases h.common with rfl | ⟨front, xs', cs', rfl, rfl⟩
  · exact Iff.rfl
  · rw [closeTag_behind htag, closeTag_behind htag front cs', Option.map_eq_none_iff,
      Option.map_eq_none_iff]

/-- In front of the first `>` nothing is different. -/
theorem cons_inv {c : Char} (hc : c ≠ '>') {xs cs : List Char} (h : SameTags xs (c :: cs)) :
    ∃ xs', xs = c :: xs' ∧ SameTags xs' cs := by
  cases h with
  | copied _ h => exact ⟨_, rfl, h⟩
  | behind => exact absurd rfl hc

end SameTags

/-- In a quoted value, text without quotes leaves the tag open. -/
theorem tagEnd_quoted {sq dq : Bool} (hquoted : (sq || dq) = true) {as : List Char}
    (has : ∀ c ∈ as, c ≠ '\'' ∧ c ≠ '"') (cs : List Char) :
    tagEnd sq dq (as ++ cs) = none ↔ tagEnd sq dq cs = none := by
  induction as with
  | nil => exact Iff.rfl
  | cons c as ih =>
      obtain ⟨hsingle, hdouble⟩ := has c List.mem_cons_self
      rw [← ih fun c' h' => has c' (List.mem_cons_of_mem c h'), List.cons_append]
      cases sq with
      | true => rw [tagEnd, bne_iff_ne.mpr hsingle, Option.map_eq_none_iff]
      | false =>
          cases dq with
          | true => rw [tagEnd, bne_iff_ne.mpr hdouble, Option.map_eq_none_iff]
          | false => exact absurd hquoted (by simp)

theorem SameTags.tagEnd_eq_none_iff {xs cs : List Char} (h : SameTags xs cs) {sq dq : Bool} :
    tagEnd sq dq xs = none ↔ tagEnd sq dq cs = none := by
  induction h generalizing sq dq with
  | nil => exact Iff.rfl
  | copied c _ ih =>
      cases sq with
      | true => rw [tagEnd, tagEnd, Option.map_eq_none_iff, Option.map_eq_none_iff, ih]
      | false =>
          cases dq with
          | true => rw [tagEnd, tagEnd, Option.map_eq_none_iff, Option.map_eq_none_iff, ih]
          | false =>
              rw [tagEnd, tagEnd]
              split_ifs <;> simp [ih]
  | @behind as bs xs cs has hbs _ ih =>
      have hgt : ∀ c ∈ ['>'], c ≠ '\'' ∧ c ≠ '"' := by simp
      have hquoted : ∀ sq dq : Bool, (sq || dq) = true →
          (tagEnd sq dq ('>' :: (as ++ xs)) = none ↔ tagEnd sq dq ('>' :: (bs ++ cs)) = none) := by
        intro sq dq hq
        have hxs := (tagEnd_quoted hq hgt (as ++ xs)).trans (tagEnd_quoted hq has xs)
        have hcs := (tagEnd_quoted hq hgt (bs ++ cs)).trans (tagEnd_quoted hq hbs cs)
        exact hxs.trans (ih.trans hcs.symm)
      cases sq with
      | true => exact hquoted true dq rfl
      | false =>
          cases dq with
          | true => exact hquoted false true rfl
          -- Outside the quotes both tags end at the `>`.
          | false => simp [tagEnd]

/-! ## Positions -/

/-- The index `i` of `bytes` is the start of the characters `cs`, the last of the text. -/
structure At (bytes : List UInt8) (i : ℕ) (cs : List Char) : Prop where
  le : i ≤ bytes.length
  drop_eq : bytes.drop i = Utf8.encode cs

namespace At

variable {bytes : List UInt8} {i : ℕ} {cs : List Char}

/-- What is left from a position on has the length of the rest. -/
theorem length_eq (h : At bytes i cs) : bytes.length = i + (Utf8.encode cs).length := by
  rw [← h.drop_eq, List.length_drop]
  have := h.le
  omega

theorem advance {xs : List Char} (h : At bytes i (xs ++ cs)) :
    At bytes (i + (Utf8.encode xs).length) cs := by
  have hlen := h.length_eq
  rw [Utf8.encode_append, List.length_append] at hlen
  refine ⟨by omega, ?_⟩
  rw [← List.drop_drop, h.drop_eq, Utf8.encode_append, List.drop_left]

/-- An ASCII character takes one byte. -/
theorem afterAscii {p : UInt8 → Bool} {c : Char} (h : At bytes i (c :: cs))
    (hc : Utf8.ascii p c = true) : At bytes (i + 1) cs := by
  rw [← List.singleton_append] at h
  have hnext := h.advance
  rw [Utf8.encode_cons, (Utf8.encodeChar_of_ascii hc).1] at hnext
  exact hnext

theorem getElem?_eq (h : At bytes i cs) : bytes[i]? = (Utf8.encode cs).head? := by
  rw [← h.drop_eq, List.head?_drop]

/-- The byte at a position lies in a class of ASCII bytes when the character does. -/
theorem any_eq {p : UInt8 → Bool} (hp : ∀ b, p b = true → b.toNat < 128) (h : At bytes i cs) :
    bytes[i]?.any p = cs.head?.any (Utf8.ascii p) := by
  rw [h.getElem?_eq, Utf8.head_encode_ascii hp]

/-- The comparison of the byte at a position with an ASCII byte. -/
theorem getElem?_beq {a : Char} (ha : a.toNat < 128) (h : At bytes i cs) :
    (bytes[i]? == some (UInt8.ofNat a.toNat)) = (cs.head? == some a) := by
  rw [h.getElem?_eq, Utf8.head_encode_beq ha]

theorem lt_length_iff (h : At bytes i cs) : i < bytes.length ↔ cs ≠ [] := by
  rw [h.length_eq]
  cases cs with
  | nil => simp
  | cons c cs =>
      have hpos := Utf8.utf8EncodeChar_length_pos c
      rw [Utf8.encode_cons, List.length_append]
      simp only [ne_eq, reduceCtorEq, not_false_eq_true, iff_true]
      omega

end At

/-! ## The readings are right -/

/-- The tag is made of ASCII bytes. -/
def AsciiTag (tag : List UInt8) : Prop := ∀ t ∈ tag, t.toNat < 128

theorem asciiTag_encode {cs : List Char} (h : ∀ c ∈ cs, c.toNat < 128) :
    AsciiTag (Utf8.encode cs) := by
  intro t ht
  rw [Utf8.encode, List.mem_flatMap] at ht
  obtain ⟨c, hc, hmem⟩ := ht
  rw [Utf8.encodeChar_ascii (h c hc), List.mem_singleton] at hmem
  rw [hmem, UInt8.toNat_ofNat']
  have := h c hc
  omega

theorem isAsciiWhitespace_ascii (b : UInt8) (h : isAsciiWhitespace b = true) : b.toNat < 128 := by
  simp only [isAsciiWhitespace, Bool.or_eq_true, beq_iff_eq] at h
  rcases h with (((rfl | rfl) | rfl) | rfl) | rfl <;> decide

theorem isNameEnd_ascii (b : UInt8) (h : isNameEnd b = true) : b.toNat < 128 := by
  simp only [isNameEnd, Bool.or_eq_true, beq_iff_eq] at h
  rcases h with (h | rfl) | rfl
  · exact isAsciiWhitespace_ascii b h
  · decide
  · decide

theorem toNat_toAsciiLowercase (b : UInt8) :
    (toAsciiLowercase b).toNat = if 65 ≤ b.toNat ∧ b.toNat ≤ 90 then b.toNat + 32 else b.toNat := by
  unfold toAsciiLowercase
  have hle : (0x41 ≤ b ∧ b ≤ 0x5A) ↔ (65 ≤ b.toNat ∧ b.toNat ≤ 90) := by
    rw [UInt8.le_iff_toNat_le, UInt8.le_iff_toNat_le]
    rfl
  simp only [hle]
  split_ifs with h
  · have h32 : (0x20 : UInt8).toNat = 32 := rfl
    rw [UInt8.toNat_add]
    omega
  · rfl

theorem toNat_toAsciiLowercase_lt (b : UInt8) :
    (toAsciiLowercase b).toNat < 128 ↔ b.toNat < 128 := by
  rw [toNat_toAsciiLowercase]
  split_ifs <;> omega

/-- Only an ASCII byte is an ASCII byte up to case. -/
theorem eqIgnoreAsciiCase_ascii {t : UInt8} (ht : t.toNat < 128) (b : UInt8)
    (h : eqIgnoreAsciiCase b t = true) : b.toNat < 128 := by
  rw [eqIgnoreAsciiCase, beq_iff_eq] at h
  rw [← toNat_toAsciiLowercase_lt, h, toNat_toAsciiLowercase_lt]
  exact ht

theorem matchesAt_encode {bytes tag : List UInt8} (htag : AsciiTag tag) {i : ℕ} {cs : List Char}
    (h : At bytes i cs) : matchesAt bytes i tag = matchesTag tag cs := by
  induction tag generalizing i cs with
  | nil => rw [matchesAt, matchesTag]
  | cons t tag ih =>
      have ht := eqIgnoreAsciiCase_ascii (htag t List.mem_cons_self)
      rw [matchesAt, h.any_eq ht]
      cases cs with
      | nil => rfl
      | cons c cs =>
          rw [matchesTag, List.head?_cons, Option.any_some]
          cases hc : Utf8.ascii (eqIgnoreAsciiCase · t) c with
          | false => rfl
          | true =>
              have hnext := h.afterAscii hc
              rw [ih (fun t' h' => htag t' (List.mem_cons_of_mem _ h')) hnext]

/-- A text that matches a tag starts with as many ASCII characters. -/
theorem length_encode_take {tag : List UInt8} {cs : List Char} (h : matchesTag tag cs = true) :
    (Utf8.encode (cs.take tag.length)).length = tag.length := by
  induction tag generalizing cs with
  | nil => rfl
  | cons t tag ih =>
      cases cs with
      | nil => exact absurd h (by simp [matchesTag])
      | cons c cs =>
          rw [matchesTag, Bool.and_eq_true] at h
          rw [List.length_cons, List.take_succ_cons, Utf8.encode_cons,
            (Utf8.encodeChar_of_ascii h.1).1, List.length_append, ih h.2, List.length_singleton,
            Nat.add_comm]

/-- The position after the tag that a text matches. -/
theorem At.afterTag {bytes tag : List UInt8} {i : ℕ} {cs : List Char} (h : At bytes i cs)
    (hm : matchesTag tag cs = true) : At bytes (i + tag.length) (cs.drop tag.length) := by
  rw [← List.take_append_drop tag.length cs] at h
  have hnext := h.advance
  rw [length_encode_take hm] at hnext
  exact hnext

theorem openAt_encode {bytes tag : List UInt8} (htag : AsciiTag tag) {i : ℕ} {cs : List Char}
    (h : At bytes i cs) : openAt tag bytes i = tagOpen tag cs := by
  rw [openAt, tagOpen, matchesAt_encode htag h]
  cases hm : matchesTag tag cs with
  | false => simp
  | true =>
      have hnext := h.afterTag hm
      rw [if_neg (by have := hnext.le; omega), hnext.any_eq isNameEnd_ascii]
      simp

/-- Bytes past ASCII neither end a tag nor open or close a quoted value. -/
theorem findTagEndLoop_append {xs : List UInt8} (hxs : ∀ b ∈ xs, 128 ≤ b.toNat)
    (bs : List UInt8) (k : ℕ) (sq dq : Bool) :
    findTagEndLoop (xs ++ bs) k sq dq = findTagEndLoop bs (k + xs.length) sq dq := by
  induction xs generalizing k with
  | nil => rfl
  | cons b xs ih =>
      have hb := hxs b List.mem_cons_self
      have hne : ∀ a : UInt8, a.toNat < 128 → (b == a) = false := by
        intro a ha
        rw [beq_eq_false_iff_ne]
        rintro rfl
        omega
      have hrec := ih (fun b' h' => hxs b' (List.mem_cons_of_mem _ h')) (k + 1)
      rw [List.length_cons, show k + (xs.length + 1) = k + 1 + xs.length by omega, ← hrec]
      cases sq with
      | true =>
          rw [List.cons_append, findTagEndLoop, bne, hne _ (by decide)]
          rfl
      | false =>
          cases dq with
          | true =>
              rw [List.cons_append, findTagEndLoop, bne, hne _ (by decide)]
              rfl
          | false =>
              rw [List.cons_append, findTagEndLoop, hne _ (by decide), hne _ (by decide),
                hne _ (by decide)]
              simp

/-- The same of the characters past ASCII. -/
theorem tagEnd_cons {c : Char} (hc : 128 ≤ c.toNat) (cs : List Char) (sq dq : Bool) :
    tagEnd sq dq (c :: cs) = (tagEnd sq dq cs).map fun p => (c :: p.1, p.2) := by
  have hne : ∀ a : Char, a.toNat < 128 → c ≠ a := by
    rintro a ha rfl
    omega
  cases sq with
  | true => rw [tagEnd, bne_iff_ne.mpr (hne '\'' (by decide))]
  | false =>
      cases dq with
      | true => rw [tagEnd, bne_iff_ne.mpr (hne '"' (by decide))]
      | false =>
          rw [tagEnd, if_neg (hne '\'' (by decide)), if_neg (hne '"' (by decide)),
            if_neg (hne '>' (by decide))]

/-- The scan for the end of a tag computes `tagEnd`. -/
theorem findTagEndLoop_encode (cs : List Char) (k : ℕ) (sq dq : Bool) :
    findTagEndLoop (Utf8.encode cs) k sq dq
      = (tagEnd sq dq cs).map fun p => k + (Utf8.encode p.1).length - 1 := by
  induction cs generalizing k sq dq with
  | nil => rw [Utf8.encode_nil, findTagEndLoop, tagEnd, Option.map_none]
  | cons c cs ih =>
      -- Keeping the character in front moves the end of the tag by its bytes.
      have hshift : ∀ (sq' dq' : Bool),
          findTagEndLoop (Utf8.encode cs) (k + (String.utf8EncodeChar c).length) sq' dq'
            = ((tagEnd sq' dq' cs).map fun p => (c :: p.1, p.2)).map
                fun p => k + (Utf8.encode p.1).length - 1 := by
        intro sq' dq'
        rw [ih, Option.map_map]
        congr 1
        funext p
        simp only [Function.comp, Utf8.encode_cons, List.length_append]
        omega
      by_cases hc : c.toNat < 128
      · have henc := Utf8.encodeChar_ascii hc
        have hbeq : ∀ a : Char, a.toNat < 128 →
            (UInt8.ofNat c.toNat == UInt8.ofNat a.toNat) = (c == a) := by
          intro a ha
          rw [← Utf8.ascii_beq ha, Utf8.ascii, decide_eq_true hc, Bool.true_and]
        have hsq : (UInt8.ofNat c.toNat == 0x27) = (c == '\'') := hbeq '\'' (by decide)
        have hdq : (UInt8.ofNat c.toNat == 0x22) = (c == '"') := hbeq '"' (by decide)
        have hgt : (UInt8.ofNat c.toNat == 0x3E) = (c == '>') := hbeq '>' (by decide)
        rw [henc, List.length_singleton] at hshift
        rw [Utf8.encode_cons, henc, List.singleton_append]
        cases sq with
        | true =>
            rw [findTagEndLoop, tagEnd, bne, hsq]
            exact hshift _ _
        | false =>
            cases dq with
            | true =>
                rw [findTagEndLoop, tagEnd, bne, hdq]
                exact hshift _ _
            | false =>
                rw [findTagEndLoop, tagEnd, hsq, hdq, hgt]
                simp only [beq_iff_eq]
                split_ifs with h1 h2 h3
                · exact hshift _ _
                · exact hshift _ _
                · rw [Option.map_some, Utf8.encode_cons, henc]
                  rfl
                · exact hshift _ _
      · have hge : ∀ b ∈ String.utf8EncodeChar c, 128 ≤ b.toNat :=
          fun b hb => Utf8.le_of_mem_encodeChar (by omega) hb
        rw [Utf8.encode_cons, findTagEndLoop_append hge, hshift, tagEnd_cons (by omega)]

/-- The index that `findTagEnd` returns is the one of the last byte of the tag. -/
theorem findTagEnd_encode {bytes : List UInt8} {i : ℕ} {cs : List Char} (h : At bytes i cs) :
    findTagEnd bytes i
      = (tagEnd false false cs).map fun p => i + (Utf8.encode p.1).length - 1 := by
  rw [findTagEnd, h.drop_eq, findTagEndLoop_encode]

/-- The index after that byte. -/
theorem sub_one_add_one (i : ℕ) {tag : List Char} (hne : tag ≠ []) :
    i + (Utf8.encode tag).length - 1 + 1 = i + (Utf8.encode tag).length := by
  obtain ⟨c, cs, rfl⟩ := List.exists_cons_of_ne_nil hne
  have hpos := Utf8.utf8EncodeChar_length_pos c
  rw [Utf8.encode_cons, List.length_append]
  omega

theorem skipWhitespace_encode {bytes : List UInt8} {k : ℕ} {cs : List Char} (h : At bytes k cs) :
    skipWhitespace bytes k = k + (Utf8.encode (cs.takeWhile isSpace)).length := by
  rw [skipWhitespace, h.drop_eq, Utf8.encode_takeWhile_ascii isAsciiWhitespace_ascii]
  rfl

theorem closeLen_encode {bytes tag : List UInt8} (htag : AsciiTag tag) {i : ℕ} {cs : List Char}
    (h : At bytes i cs) :
    closeLen tag bytes i = (closeTag tag cs).map fun p => (Utf8.encode p.1).length := by
  rw [closeLen, closeTag, matchesAt_encode htag h]
  cases hm : matchesTag tag cs with
  | false => simp
  | true =>
      have hname := h.afterTag hm
      have hsplit := List.takeWhile_append_dropWhile (p := isSpace) (l := cs.drop tag.length)
      rw [if_neg (by have := hname.le; omega), skipWhitespace_encode hname]
      rw [← hsplit] at hname
      have hrest := hname.advance
      have hgt := hrest.getElem?_beq (a := '>') (by decide)
      have hbyte : UInt8.ofNat '>'.toNat = 0x3E := rfl
      rw [hbyte] at hgt
      simp only [hgt, Bool.not_true, Bool.false_eq_true, if_false, if_true]
      cases hdrop : (cs.drop tag.length).dropWhile isSpace with
      | nil => simp
      | cons c rest =>
          -- What follows the whitespace decides: a `>` ends the closing tag.
          rw [hdrop] at hrest
          rw [decide_eq_true (hrest.lt_length_iff.mpr (List.cons_ne_nil _ _)), Bool.true_and,
            List.head?_cons]
          by_cases hc : c = '>'
          · subst hc
            have hone : (Utf8.encode ['>']).length = 1 := rfl
            simp only [beq_self_eq_true, if_true, Option.map_some, Utf8.encode_append,
              List.length_append, length_encode_take hm, hone]
            congr 1
            omega
          · rw [if_neg (by simpa using hc)]
            split
            · next heq => exact absurd (List.cons.inj heq).1 hc
            · rfl

theorem nextLt_encode {bytes : List UInt8} {j : ℕ} {cs : List Char} (h : At bytes j cs) :
    nextLt bytes j = j + (Utf8.encode (cs.takeWhile (· != '<'))).length := by
  rw [nextLt, h.drop_eq, ← Utf8.encode_takeWhile_ne (by decide)]
  rfl

/-! ## The classes of characters, spelled out -/

theorem toNat_toLower (c : Char) :
    c.toLower.toNat = if 65 ≤ c.toNat ∧ c.toNat ≤ 90 then c.toNat + 32 else c.toNat := by
  have hup : c.isUpper = true ↔ 65 ≤ c.toNat ∧ c.toNat ≤ 90 := by
    unfold Char.isUpper
    rw [decide_eq_true_eq, ge_iff_le, UInt32.le_iff_toNat_le, UInt32.le_iff_toNat_le]
    rfl
  split_ifs with h
  · rw [Char.toLower_eq_of_isUpper (hup.mpr h), Char.toNat_ofNat, if_pos]
    exact Or.inl (by omega)
  · rw [Char.toLower_eq_of_not_isUpper (by rwa [hup])]

/-- The comparison of bytes up to the case of ASCII letters, on characters. -/
theorem ascii_eqIgnoreAsciiCase {t : Char} (ht : t.toNat < 128) (c : Char) :
    Utf8.ascii (eqIgnoreAsciiCase · (UInt8.ofNat t.toNat)) c = (c.toLower == t.toLower) := by
  have hbyte : ∀ d : Char, d.toNat < 128 →
      (toAsciiLowercase (UInt8.ofNat d.toNat)).toNat = d.toLower.toNat := by
    intro d hd
    have hd' : (UInt8.ofNat d.toNat).toNat = d.toNat := by
      rw [UInt8.toNat_ofNat']
      omega
    rw [toNat_toAsciiLowercase, toNat_toLower, hd']
  rw [Bool.eq_iff_iff, beq_iff_eq, ← Char.toNat_inj, Utf8.ascii, Bool.and_eq_true,
    decide_eq_true_eq, eqIgnoreAsciiCase, beq_iff_eq, ← UInt8.toNat_inj]
  constructor
  · rintro ⟨hc, heq⟩
    rw [← hbyte c hc, heq, hbyte t ht]
  · intro heq
    have hc : c.toNat < 128 := by
      rw [toNat_toLower, toNat_toLower] at heq
      split_ifs at heq <;> omega
    exact ⟨hc, by rw [hbyte c hc, heq, hbyte t ht]⟩

theorem isSpace_iff (c : Char) :
    isSpace c = true ↔ c = ' ' ∨ c = '\t' ∨ c = '\n' ∨ c = '\x0C' ∨ c = '\r' := by
  have hor : isSpace c = (Utf8.ascii (· == UInt8.ofNat ' '.toNat) c
      || Utf8.ascii (· == UInt8.ofNat '\t'.toNat) c || Utf8.ascii (· == UInt8.ofNat '\n'.toNat) c
      || Utf8.ascii (· == UInt8.ofNat '\x0C'.toNat) c
      || Utf8.ascii (· == UInt8.ofNat '\r'.toNat) c) := by
    simp only [isSpace, Utf8.ascii, isAsciiWhitespace, ← Bool.and_or_distrib_left]
    rfl
  rw [hor]
  simp only [Utf8.ascii_beq (show ' '.toNat < 128 by decide),
    Utf8.ascii_beq (show '\t'.toNat < 128 by decide),
    Utf8.ascii_beq (show '\n'.toNat < 128 by decide),
    Utf8.ascii_beq (show '\x0C'.toNat < 128 by decide),
    Utf8.ascii_beq (show '\r'.toNat < 128 by decide), Bool.or_eq_true, beq_iff_eq, or_assoc]

/-- A name ends before whitespace, `>` and `/`. -/
theorem ascii_isNameEnd (c : Char) :
    Utf8.ascii isNameEnd c = (isSpace c || c == '>' || c == '/') := by
  rw [← Utf8.ascii_beq (show '>'.toNat < 128 by decide),
    ← Utf8.ascii_beq (show '/'.toNat < 128 by decide)]
  simp only [isSpace, Utf8.ascii, isNameEnd, ← Bool.and_or_distrib_left]
  rfl

theorem matchesTag_cons {t : Char} (ht : t.toNat < 128) (tag : List Char) (c : Char)
    (cs : List Char) :
    matchesTag (Utf8.encode (t :: tag)) (c :: cs)
      = (c.toLower == t.toLower && matchesTag (Utf8.encode tag) cs) := by
  rw [Utf8.encode_cons, Utf8.encodeChar_ascii ht, List.singleton_append, matchesTag,
    ascii_eqIgnoreAsciiCase ht]

/-- `<` is no letter, and a tag starts with it. -/
theorem toLower_eq_lt_iff (c : Char) : c.toLower = '<'.toLower ↔ c = '<' := by
  have hlt : '<'.toLower.toNat = 60 := rfl
  have hlt' : '<'.toNat = 60 := rfl
  rw [← Char.toNat_inj, ← Char.toNat_inj, toNat_toLower, hlt, hlt']
  split_ifs <;> omega

theorem closeTag_of_ne_lt (name : List Char) {c : Char} (hc : c ≠ '<') (cs : List Char) :
    closeTag (Utf8.encode ('<' :: name)) (c :: cs) = none := by
  have hlt : (c.toLower == '<'.toLower) = false := by
    rw [beq_eq_false_iff_ne, ne_eq, toLower_eq_lt_iff]
    exact hc
  rw [closeTag, matchesTag_cons (by decide), hlt, Bool.false_and]
  rfl

/-- `/` is no letter. -/
theorem toLower_eq_slash_iff (c : Char) : c.toLower = '/'.toLower ↔ c = '/' := by
  have hslash : '/'.toLower.toNat = 47 := rfl
  have hslash' : '/'.toNat = 47 := rfl
  rw [← Char.toNat_inj, ← Char.toNat_inj, toNat_toLower, hslash, hslash']
  split_ifs <;> omega

/-- A closing tag is cut off behind a character that has no case. -/
theorem closeTag_encode_cons {t : Char} (ht : t.toNat < 128)
    (hcase : ∀ c : Char, c.toLower = t.toLower → c = t) {name cs close rest : List Char}
    (h : closeTag (Utf8.encode (t :: name)) cs = some (close, rest)) :
    ∃ cs' close', close = t :: close' ∧ closeTag (Utf8.encode name) cs' = some (close', rest) := by
  rw [Utf8.encode_cons, Utf8.encodeChar_ascii ht, List.singleton_append] at h
  cases cs with
  | nil => exact absurd h (by simp [closeTag, matchesTag])
  | cons c cs =>
      rw [closeTag_cons, ascii_eqIgnoreAsciiCase ht] at h
      split_ifs at h with hc
      rw [Option.map_eq_some_iff] at h
      obtain ⟨⟨close', rest'⟩, hcut, heq⟩ := h
      obtain ⟨rfl, rfl⟩ := Prod.mk.inj heq
      obtain rfl := hcase c (beq_iff_eq.mp hc)
      exact ⟨cs, close', rfl, hcut⟩

/-- A closing tag begins with `</`. -/
theorem closeTag_start {name cs close rest : List Char}
    (h : closeTag (Utf8.encode ('<' :: '/' :: name)) cs = some (close, rest)) :
    ∃ close', close = '<' :: '/' :: close' := by
  obtain ⟨_, _, rfl, hslash⟩ :=
    closeTag_encode_cons (by decide) (fun c => (toLower_eq_lt_iff c).mp) h
  obtain ⟨_, close', rfl, -⟩ :=
    closeTag_encode_cons (by decide) (fun c => (toLower_eq_slash_iff c).mp) hslash
  exact ⟨close', rfl⟩

theorem tagOpen_of_ne_lt (name : List Char) {c : Char} (hc : c ≠ '<') (cs : List Char) :
    tagOpen (Utf8.encode ('<' :: name)) (c :: cs) = false := by
  have hlt : (c.toLower == '<'.toLower) = false := by
    rw [beq_eq_false_iff_ne, ne_eq, toLower_eq_lt_iff]
    exact hc
  rw [tagOpen, matchesTag_cons (by decide), hlt, Bool.false_and, Bool.false_and]

end TagScan
