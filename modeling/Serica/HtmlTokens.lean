/-
# Documents as lists of tokens

The well-formed documents that the code-block patches are measured on: texts, start
tags with their attributes, and end tags.  Every part carries the characters it may
be made of, so a list of tokens is well formed by construction; only that no two
texts are adjacent is left to ask (`Separated`).

* `Token.render` is the text of a token, `render` that of a document.
* `Named` compares names up to the case of ASCII letters.
* `tagOpen_start`, `tagEnd_start`, `closeTag_end`, ... say what the helpers of the
  scanners see at the start of a token.
-/
import Serica.CopyLoop

namespace HtmlTokens

open TagScan

/-! ## Parts -/

/-- A text whose characters all lie in a class. -/
structure Chars (p : Char → Bool) where
  chars : List Char
  all : ∀ c ∈ chars, p c = true

/-- A text that is not empty. -/
structure Chars1 (p : Char → Bool) extends Chars p where
  ne_nil : chars ≠ []

def Chars.nil {p : Char → Bool} : Chars p := ⟨[], fun _ h => absurd h List.not_mem_nil⟩

def Chars1.single {p : Char → Bool} (c : Char) (h : p c = true) : Chars1 p :=
  ⟨⟨[c], List.forall_mem_singleton.mpr h⟩, List.cons_ne_nil c []⟩

/-- The characters of a name: ASCII letters, digits and `-`. -/
def isNameChar (c : Char) : Bool := c.isAlphanum || c == '-'

/-- The characters of an unquoted value. -/
def isUnquoted (c : Char) : Bool :=
  !isSpace c && c != '\'' && c != '"' && c != '=' && c != '<' && c != '>' && c != '\x60'

/-- The characters of a value between the quotes `q`. -/
def isQuoted (q c : Char) : Bool := c != q && c != '<'

abbrev Name := Chars1 isNameChar

inductive Attr where
  | bare (name : Name)
  | unquoted (name : Name) (value : Chars isUnquoted)
  | singleQuoted (name : Name) (value : Chars (isQuoted '\''))
  | doubleQuoted (name : Name) (value : Chars (isQuoted '"'))

inductive Token where
  | text (chars : Chars1 (· != '<'))
  | startTag (name : Name) (attrs : List (Chars1 isSpace × Attr)) (space : Chars isSpace)
      (selfClosing : Bool)
  | endTag (name : Name) (space : Chars isSpace)

/-! ## Rendering -/

def Attr.render : Attr → List Char
  | .bare name => name.chars
  | .unquoted name value => name.chars ++ '=' :: value.chars
  | .singleQuoted name value => name.chars ++ '=' :: '\'' :: (value.chars ++ ['\''])
  | .doubleQuoted name value => name.chars ++ '=' :: '"' :: (value.chars ++ ['"'])

/-- The attributes of a start tag, each with the whitespace before it. -/
def renderAttrs (attrs : List (Chars1 isSpace × Attr)) : List Char :=
  attrs.flatMap fun a => a.1.chars ++ a.2.render

/-- A start tag after its name, up to the `>`. -/
def startTail (attrs : List (Chars1 isSpace × Attr)) (space : Chars isSpace)
    (selfClosing : Bool) : List Char :=
  renderAttrs attrs ++ (space.chars ++ if selfClosing then ['/'] else [])

def Token.render : Token → List Char
  | .text chars => chars.chars
  | .startTag name attrs space selfClosing =>
      '<' :: (name.chars ++ (startTail attrs space selfClosing ++ ['>']))
  | .endTag name space => '<' :: '/' :: (name.chars ++ (space.chars ++ ['>']))

/-- The text of a document. -/
def render (ts : List Token) : List Char := ts.flatMap Token.render

@[simp] theorem render_nil : render [] = [] := rfl

@[simp] theorem render_cons (t : Token) (ts : List Token) :
    render (t :: ts) = t.render ++ render ts := rfl

/-! ## Properties of tokens -/

def Token.isText : Token → Bool
  | .text _ => true
  | _ => false

/-- No two texts are adjacent. -/
def Separated (ts : List Token) : Prop := ts.IsChain fun a b => !(a.isText && b.isText)

/-- The names are the same up to the case of ASCII letters. -/
def Named (name : List Char) (n : Name) : Bool :=
  n.chars.map Char.toLower == name.map Char.toLower

def Token.isStart (name : List Char) : Token → Bool
  | .startTag n _ _ _ => Named name n
  | _ => false

def Token.isEnd (name : List Char) : Token → Bool
  | .endTag n _ => Named name n
  | _ => false

/-- A token that opens a name is a start tag with that name. -/
theorem Token.isStart_eq_true {name : List Char} {t : Token} (h : t.isStart name = true) :
    ∃ n attrs space selfClosing, t = .startTag n attrs space selfClosing ∧ Named name n = true := by
  cases t with
  | text => exact absurd h (by simp [Token.isStart])
  | startTag n attrs space selfClosing => exact ⟨n, attrs, space, selfClosing, rfl, h⟩
  | endTag => exact absurd h (by simp [Token.isStart])

/-- A token that closes a name is an end tag with that name. -/
theorem Token.isEnd_eq_true {name : List Char} {t : Token} (h : t.isEnd name = true) :
    ∃ n space, t = .endTag n space ∧ Named name n = true := by
  cases t with
  | text => exact absurd h (by simp [Token.isEnd])
  | startTag => exact absurd h (by simp [Token.isEnd])
  | endTag n space => exact ⟨n, space, rfl, h⟩

/-- The text after the `<` of a tag. -/
def Token.inner : Token → List Char
  | .text _ => []
  | .startTag name attrs space selfClosing =>
      name.chars ++ (startTail attrs space selfClosing ++ ['>'])
  | .endTag name space => '/' :: (name.chars ++ (space.chars ++ ['>']))

/-- A tag begins with `<`. -/
theorem render_tag {t : Token} (h : t.isText = false) : t.render = '<' :: t.inner := by
  cases t with
  | text => exact absurd h (by simp [Token.isText])
  | startTag => rfl
  | endTag => rfl

/-! ## What the parts do not contain -/

theorem isNameChar_cases {c : Char} (h : isNameChar c = true) :
    isSpace c = false ∧ c ≠ '>' ∧ c ≠ '/' ∧ c ≠ '<' ∧ c ≠ '\'' ∧ c ≠ '"' ∧ c ≠ '=' := by
  refine ⟨?_, ?_, ?_, ?_, ?_, ?_, ?_⟩
  · cases hs : isSpace c with
    | false => rfl
    | true =>
        rcases (isSpace_iff c).mp hs with rfl | rfl | rfl | rfl | rfl <;> exact absurd h (by decide)
  all_goals
    rintro rfl
    exact absurd h (by decide)

/-- A blank is no character that the scanners look for. -/
theorem isSpace_cases {c : Char} (h : isSpace c = true) :
    c ≠ '>' ∧ c ≠ '<' ∧ c ≠ '\'' ∧ c ≠ '"' := by
  rcases (isSpace_iff c).mp h with rfl | rfl | rfl | rfl | rfl <;> decide

/-- The characters of names are letters, digits and `-`. -/
theorem isNameChar_iff (c : Char) :
    isNameChar c = true ↔ (65 ≤ c.toNat ∧ c.toNat ≤ 90) ∨ (97 ≤ c.toNat ∧ c.toNat ≤ 122)
      ∨ (48 ≤ c.toNat ∧ c.toNat ≤ 57) ∨ c.toNat = 45 := by
  have hdash : c = '-' ↔ c.toNat = 45 := by
    rw [← Char.toNat_inj]
    rfl
  simp only [isNameChar, Char.isAlphanum, Char.isAlpha, Char.isUpper, Char.isLower, Char.isDigit,
    Bool.or_eq_true, Bool.and_eq_true, decide_eq_true_eq, beq_iff_eq, ge_iff_le,
    UInt32.le_iff_toNat_le, hdash, or_assoc]
  rfl

/-- The case of a letter makes no difference to names. -/
theorem isNameChar_toLower (c : Char) : isNameChar c.toLower = isNameChar c := by
  rw [Bool.eq_iff_iff, isNameChar_iff, isNameChar_iff, toNat_toLower]
  split_ifs <;> omega

/-- Names are ASCII. -/
theorem ascii_of_isNameChar {c : Char} (h : isNameChar c = true) : c.toNat < 128 := by
  rw [isNameChar_iff] at h
  omega

/-- An attribute holds no `<`. -/
theorem renderAttr_ne_lt (a : Attr) : ∀ c ∈ a.render, c ≠ '<' := by
  have hname : ∀ (n : Name), ∀ c ∈ n.chars, c ≠ '<' :=
    fun n c hc => (isNameChar_cases (n.all c hc)).2.2.2.1
  have hquoted : ∀ (q : Char) (v : Chars (isQuoted q)), ∀ c ∈ v.chars, c ≠ '<' := by
    intro q v c hc
    have := v.all c hc
    simp only [isQuoted, Bool.and_eq_true, bne_iff_ne] at this
    exact this.2
  intro c hc
  cases a with
  | bare n => exact hname n c hc
  | unquoted n v =>
      simp only [Attr.render, List.mem_append, List.mem_cons] at hc
      rcases hc with hc | rfl | hc
      · exact hname n c hc
      · decide
      · have := v.all c hc
        simp only [isUnquoted, Bool.and_eq_true, bne_iff_ne] at this
        exact this.1.1.2
  | singleQuoted n v =>
      simp only [Attr.render, List.mem_append, List.mem_cons, List.not_mem_nil, or_false] at hc
      rcases hc with hc | rfl | rfl | hc | rfl
      · exact hname n c hc
      · decide
      · decide
      · exact hquoted _ v c hc
      · decide
  | doubleQuoted n v =>
      simp only [Attr.render, List.mem_append, List.mem_cons, List.not_mem_nil, or_false] at hc
      rcases hc with hc | rfl | rfl | hc | rfl
      · exact hname n c hc
      · decide
      · decide
      · exact hquoted _ v c hc
      · decide

/-- Behind its name a start tag holds no `<`. -/
theorem startTail_ne_lt (attrs : List (Chars1 isSpace × Attr)) (space : Chars isSpace)
    (selfClosing : Bool) : ∀ c ∈ startTail attrs space selfClosing, c ≠ '<' := by
  intro c hc
  simp only [startTail, renderAttrs, List.mem_append, List.mem_flatMap] at hc
  rcases hc with ⟨a, _, hc | hc⟩ | hc | hc
  · exact (isSpace_cases (a.1.all c hc)).2.1
  · exact renderAttr_ne_lt a.2 c hc
  · exact (isSpace_cases (space.all c hc)).2.1
  · cases selfClosing with
    | true =>
        rw [if_pos rfl, List.mem_singleton] at hc
        rw [hc]
        decide
    | false => exact absurd hc (by simp)

/-- A tag holds no `<` but its first character. -/
theorem inner_ne_lt (t : Token) : ∀ c ∈ t.inner, c ≠ '<' := by
  intro c hc
  cases t with
  | text => exact absurd hc (by simp [Token.inner])
  | startTag n attrs space selfClosing =>
      simp only [Token.inner, List.mem_append, List.mem_singleton] at hc
      rcases hc with hc | hc | rfl
      · exact (isNameChar_cases (n.all c hc)).2.2.2.1
      · exact startTail_ne_lt attrs space selfClosing c hc
      · decide
  | endTag n space =>
      simp only [Token.inner, List.mem_cons, List.mem_append, List.not_mem_nil, or_false] at hc
      rcases hc with rfl | hc | hc | rfl
      · decide
      · exact (isNameChar_cases (n.all c hc)).2.2.2.1
      · exact (isSpace_cases (space.all c hc)).2.1
      · decide

/-! ## Names -/

/-- A tag name to look for. -/
def IsName (name : List Char) : Prop := name ≠ [] ∧ ∀ c ∈ name, isNameChar c = true

def IsName.toName {name : List Char} (h : IsName name) : Name := ⟨⟨name, h.2⟩, h.1⟩

/-- An ASCII name has a byte for each character. -/
theorem length_encode_name {name : List Char} (h : ∀ c ∈ name, c.toNat < 128) :
    (Utf8.encode name).length = name.length := by
  induction name with
  | nil => rfl
  | cons c name ih =>
      rw [Utf8.encode_cons, Utf8.encodeChar_ascii (h c List.mem_cons_self), List.length_append,
        ih fun c' h' => h c' (List.mem_cons_of_mem _ h'), List.length_singleton, List.length_cons,
        Nat.add_comm]

/-- **Reading a name** `n` in front of a character that belongs to no name: either it
is the name looked for, and that character is next; or the comparison fails, or it
stops in front of a character of `n`. -/
theorem matchesTag_name {name n : List Char} (hname : ∀ c ∈ name, isNameChar c = true)
    (hn : ∀ c ∈ n, isNameChar c = true) {x : Char} (hx : isNameChar x = false) (tail : List Char) :
    n.map Char.toLower = name.map Char.toLower
        ∧ matchesTag (Utf8.encode name) (n ++ x :: tail) = true
        ∧ (n ++ x :: tail).drop name.length = x :: tail
      ∨ n.map Char.toLower ≠ name.map Char.toLower
        ∧ (matchesTag (Utf8.encode name) (n ++ x :: tail) = false
          ∨ ∃ c ds, (n ++ x :: tail).drop name.length = c :: ds ∧ isNameChar c = true) := by
  induction name generalizing n with
  | nil =>
      cases n with
      | nil => exact Or.inl ⟨rfl, rfl, rfl⟩
      | cons c n => exact Or.inr ⟨by simp, Or.inr ⟨c, _, rfl, hn c List.mem_cons_self⟩⟩
  | cons t name ih =>
      have ht := hname t List.mem_cons_self
      have htail := fun c' h' => hname c' (List.mem_cons_of_mem t h')
      cases n with
      | nil =>
          refine Or.inr ⟨by simp, Or.inl ?_⟩
          have hne : (x.toLower == t.toLower) = false := by
            rw [beq_eq_false_iff_ne]
            intro heq
            rw [← isNameChar_toLower, heq, isNameChar_toLower, ht] at hx
            exact absurd hx (by simp)
          rw [List.nil_append, matchesTag_cons (ascii_of_isNameChar ht), hne, Bool.false_and]
      | cons c n =>
          have hrest := ih htail fun c' h' => hn c' (List.mem_cons_of_mem c h')
          rw [List.cons_append, matchesTag_cons (ascii_of_isNameChar ht), List.map_cons,
            List.map_cons, List.length_cons, List.drop_succ_cons]
          by_cases hc : c.toLower = t.toLower
          · rw [beq_iff_eq.mpr hc, Bool.true_and, hc]
            simpa using hrest
          · refine Or.inr ⟨fun heq => hc (List.cons.inj heq).1, Or.inl ?_⟩
            rw [beq_eq_false_iff_ne.mpr hc, Bool.false_and]

theorem length_encode_lt_name {name : List Char} (hname : ∀ c ∈ name, isNameChar c = true) :
    (Utf8.encode ('<' :: name)).length = name.length + 1 := by
  apply length_encode_name
  intro c hc
  rcases List.mem_cons.mp hc with rfl | hc
  · decide
  · exact ascii_of_isNameChar (hname c hc)

theorem length_encode_slash_name {name : List Char} (hname : ∀ c ∈ name, isNameChar c = true) :
    (Utf8.encode ('<' :: '/' :: name)).length = name.length + 2 := by
  apply length_encode_name
  intro c hc
  rcases List.mem_cons.mp hc with rfl | hc
  · decide
  · rcases List.mem_cons.mp hc with rfl | hc
    · decide
    · exact ascii_of_isNameChar (hname c hc)

/-- What follows the name of a start tag starts with whitespace, `/` or `>`. -/
theorem startTail_head (attrs : List (Chars1 isSpace × Attr)) (space : Chars isSpace)
    (selfClosing : Bool) (rest : List Char) :
    ∃ x, (startTail attrs space selfClosing ++ '>' :: rest).head? = some x
      ∧ Utf8.ascii isNameEnd x = true := by
  have hspace : ∀ x, isSpace x = true → Utf8.ascii isNameEnd x = true := by
    intro x hx
    rw [ascii_isNameEnd, hx]
    rfl
  cases attrs with
  | cons a attrs =>
      -- An attribute is set off by whitespace.
      obtain ⟨x, xs, hx⟩ := List.exists_cons_of_ne_nil a.1.ne_nil
      refine ⟨x, ?_, hspace x (a.1.all x (by rw [hx]; exact List.mem_cons_self))⟩
      simp [startTail, renderAttrs, hx]
  | nil =>
      cases hsp : space.chars with
      | cons x xs =>
          refine ⟨x, ?_, hspace x (space.all x (by rw [hsp]; exact List.mem_cons_self))⟩
          simp [startTail, renderAttrs, hsp]
      | nil =>
          cases selfClosing with
          | true => exact ⟨'/', by simp [startTail, renderAttrs, hsp], by decide⟩
          | false => exact ⟨'>', by simp [startTail, renderAttrs, hsp], by decide⟩

/-- What ends a name does not belong to it. -/
theorem isNameChar_of_isNameEnd {x : Char} (h : Utf8.ascii isNameEnd x = true) :
    isNameChar x = false := by
  cases hx : isNameChar x with
  | false => rfl
  | true =>
      obtain ⟨h1, h2, h3, -⟩ := isNameChar_cases hx
      simp [ascii_isNameEnd, h1, h2, h3] at h

/-! ## What the scanners see -/

variable {name : List Char}

/-- A start tag opens exactly its own name. -/
theorem tagOpen_start (hname : IsName name) (n : Name) (attrs : List (Chars1 isSpace × Attr))
    (space : Chars isSpace) (selfClosing : Bool) (rest : List Char) :
    tagOpen (Utf8.encode ('<' :: name)) ((Token.startTag n attrs space selfClosing).render ++ rest)
      = Named name n := by
  obtain ⟨x, hhead, hx⟩ := startTail_head attrs space selfClosing rest
  obtain ⟨tail, htail⟩ := List.head?_eq_some_iff.mp hhead
  have hrender : (Token.startTag n attrs space selfClosing).render ++ rest
      = '<' :: (n.chars ++ x :: tail) := by
    rw [← htail]
    simp [Token.render]
  rw [hrender, tagOpen, matchesTag_cons (by decide), length_encode_lt_name hname.2,
    List.drop_succ_cons, Named, beq_self_eq_true, Bool.true_and]
  rcases matchesTag_name hname.2 n.all (isNameChar_of_isNameEnd hx) tail with
    ⟨heq, hmatch, hdrop⟩ | ⟨hne, hmatch | ⟨c, ds, hdrop, hc⟩⟩
  · rw [hmatch, hdrop, heq]
    simpa using hx
  · rw [hmatch, beq_eq_false_iff_ne.mpr hne, Bool.false_and]
  · rw [hdrop, beq_eq_false_iff_ne.mpr hne, List.head?_cons, Option.any_some, Bool.and_eq_false_iff]
    refine Or.inr ?_
    cases hend : Utf8.ascii isNameEnd c with
    | false => rfl
    | true =>
        rw [isNameChar_of_isNameEnd hend] at hc
        exact absurd hc (by simp)

/-- The `/` of an end tag is the start of no name. -/
theorem tagOpen_end (hname : IsName name) (n : Name) (space : Chars isSpace) (rest : List Char) :
    tagOpen (Utf8.encode ('<' :: name)) ((Token.endTag n space).render ++ rest) = false := by
  obtain ⟨t, ts, rfl⟩ := List.exists_cons_of_ne_nil hname.1
  have ht := hname.2 t List.mem_cons_self
  have hne : ('/'.toLower == t.toLower) = false := by
    rw [beq_eq_false_iff_ne]
    intro heq
    rw [← isNameChar_toLower, ← heq] at ht
    exact absurd ht (by decide)
  rw [Token.render, List.cons_append, List.cons_append, tagOpen, matchesTag_cons (by decide),
    matchesTag_cons (ascii_of_isNameChar ht), hne, Bool.false_and, Bool.and_false, Bool.false_and]

/-- The search for the end of a tag passes over `xs`. -/
def Passes (xs : List Char) : Prop :=
  ∀ cs, tagEnd false false (xs ++ cs) = (tagEnd false false cs).map fun p => (xs ++ p.1, p.2)

theorem Passes.nil : Passes [] := by
  intro cs
  simp

theorem Passes.append {xs ys : List Char} (hx : Passes xs) (hy : Passes ys) :
    Passes (xs ++ ys) := by
  intro cs
  rw [List.append_assoc, hx, hy, Option.map_map]
  congr 1
  funext p
  simp

/-- A text without quotes and `>` is passed. -/
theorem Passes.plain {xs : List Char} (h : ∀ c ∈ xs, c ≠ '\'' ∧ c ≠ '"' ∧ c ≠ '>') :
    Passes xs := by
  induction xs with
  | nil => exact Passes.nil
  | cons c xs ih =>
      obtain ⟨h1, h2, h3⟩ := h c List.mem_cons_self
      intro cs
      rw [List.cons_append, tagEnd, if_neg h1, if_neg h2, if_neg h3,
        ih fun c' h' => h c' (List.mem_cons_of_mem _ h'), Option.map_map]
      rfl

/-- Inside single quotes everything is passed up to the closing quote. -/
theorem tagEnd_singleQuoted {v : List Char} (hv : ∀ c ∈ v, c ≠ '\'') (cs : List Char) :
    tagEnd true false (v ++ '\'' :: cs)
      = (tagEnd false false cs).map fun p => (v ++ '\'' :: p.1, p.2) := by
  induction v with
  | nil => rfl
  | cons c v ih =>
      rw [List.cons_append, tagEnd, bne_iff_ne.mpr (hv c List.mem_cons_self),
        ih fun c' h' => hv c' (List.mem_cons_of_mem _ h'), Option.map_map]
      rfl

/-- So is a value in single quotes. -/
theorem Passes.singleQuoted {v : List Char} (hv : ∀ c ∈ v, c ≠ '\'') :
    Passes ('\'' :: (v ++ ['\''])) := by
  intro cs
  rw [List.cons_append, tagEnd, if_pos rfl, List.append_assoc, List.singleton_append,
    tagEnd_singleQuoted hv, Option.map_map]
  congr 1
  funext p
  simp

/-- Inside double quotes everything is passed up to the closing quote. -/
theorem tagEnd_doubleQuoted {v : List Char} (hv : ∀ c ∈ v, c ≠ '"') (cs : List Char) :
    tagEnd false true (v ++ '"' :: cs)
      = (tagEnd false false cs).map fun p => (v ++ '"' :: p.1, p.2) := by
  induction v with
  | nil => rfl
  | cons c v ih =>
      rw [List.cons_append, tagEnd, bne_iff_ne.mpr (hv c List.mem_cons_self),
        ih fun c' h' => hv c' (List.mem_cons_of_mem _ h'), Option.map_map]
      rfl

/-- So is a value in double quotes. -/
theorem Passes.doubleQuoted {v : List Char} (hv : ∀ c ∈ v, c ≠ '"') :
    Passes ('"' :: (v ++ ['"'])) := by
  intro cs
  rw [List.cons_append, tagEnd, if_neg (by decide), if_pos rfl, List.append_assoc,
    List.singleton_append, tagEnd_doubleQuoted hv, Option.map_map]
  congr 1
  funext p
  simp

theorem Passes.ofName (n : Name) : Passes n.chars := by
  apply Passes.plain
  intro c hc
  obtain ⟨-, h1, -, -, h2, h3, -⟩ := isNameChar_cases (n.all c hc)
  exact ⟨h2, h3, h1⟩

theorem Passes.ofSpace (space : Chars isSpace) : Passes space.chars := by
  apply Passes.plain
  intro c hc
  obtain ⟨h1, -, h2, h3⟩ := isSpace_cases (space.all c hc)
  exact ⟨h2, h3, h1⟩

theorem Passes.ofAttr (a : Attr) : Passes a.render := by
  have heq : Passes ['='] := Passes.plain (by simp)
  have hquoted : ∀ {q : Char} (v : Chars (isQuoted q)), ∀ c ∈ v.chars, c ≠ q := by
    intro q v c hc
    have := v.all c hc
    simp only [isQuoted, Bool.and_eq_true, bne_iff_ne] at this
    exact this.1
  cases a with
  | bare n => exact Passes.ofName n
  | unquoted n v =>
      refine (Passes.ofName n).append (heq.append (Passes.plain ?_))
      intro c hc
      have := v.all c hc
      simp only [isUnquoted, Bool.and_eq_true, bne_iff_ne] at this
      exact ⟨this.1.1.1.1.1.2, this.1.1.1.1.2, this.1.2⟩
  | singleQuoted n v =>
      exact (Passes.ofName n).append (heq.append (Passes.singleQuoted (hquoted v)))
  | doubleQuoted n v =>
      exact (Passes.ofName n).append (heq.append (Passes.doubleQuoted (hquoted v)))

/-- So is what follows the name of a start tag. -/
theorem Passes.ofStartTail (attrs : List (Chars1 isSpace × Attr)) (space : Chars isSpace)
    (selfClosing : Bool) : Passes (startTail attrs space selfClosing) := by
  have hattrs : Passes (renderAttrs attrs) := by
    induction attrs with
    | nil => exact Passes.nil
    | cons a attrs ih =>
        have hhead := (Passes.ofSpace a.1.toChars).append (Passes.ofAttr a.2)
        exact hhead.append ih
  refine hattrs.append ((Passes.ofSpace space).append ?_)
  cases selfClosing with
  | true => exact Passes.plain (by simp)
  | false => exact Passes.nil

/-- A start tag ends at its own `>`. -/
theorem tagEnd_start (n : Name) (attrs : List (Chars1 isSpace × Attr)) (space : Chars isSpace)
    (selfClosing : Bool) (rest : List Char) :
    tagEnd false false ((Token.startTag n attrs space selfClosing).render ++ rest)
      = some ((Token.startTag n attrs space selfClosing).render, rest) := by
  have hlt : Passes ['<'] := Passes.plain (by simp)
  have hpass := (hlt.append (Passes.ofName n)).append (Passes.ofStartTail attrs space selfClosing)
  have hrender : (Token.startTag n attrs space selfClosing).render
      = ['<'] ++ n.chars ++ startTail attrs space selfClosing ++ ['>'] := by
    simp [Token.render]
  have hgt : tagEnd false false ('>' :: rest) = some (['>'], rest) := by
    rw [tagEnd, if_neg (by decide), if_neg (by decide), if_pos rfl]
  rw [hrender, List.append_assoc, hpass]
  show (tagEnd false false ('>' :: rest)).map _ = _
  rw [hgt, Option.map_some]

/-- An end tag is a closing tag of its own name, and of no other. -/
theorem closeTag_end (hname : IsName name) (n : Name) (space : Chars isSpace) (rest : List Char) :
    closeTag (Utf8.encode ('<' :: '/' :: name)) ((Token.endTag n space).render ++ rest)
      = if Named name n then some ((Token.endTag n space).render, rest) else none := by
  have hspace : ∀ c ∈ space.chars, isSpace c = true := space.all
  have htake : (space.chars ++ '>' :: rest).takeWhile isSpace = space.chars := by
    rw [List.takeWhile_append_of_pos hspace, List.takeWhile_cons_of_neg (by decide),
      List.append_nil]
  have hdropSpace : (space.chars ++ '>' :: rest).dropWhile isSpace = '>' :: rest := by
    rw [List.dropWhile_append_of_pos hspace, List.dropWhile_cons_of_neg (by decide)]
  -- The character after the name belongs to no name.
  obtain ⟨x, tail, htail, hx⟩ : ∃ x tail, space.chars ++ '>' :: rest = x :: tail
      ∧ isNameChar x = false := by
    cases hsp : space.chars with
    | nil => exact ⟨'>', rest, rfl, by decide⟩
    | cons x xs =>
        refine ⟨x, _, rfl, isNameChar_of_isNameEnd ?_⟩
        rw [ascii_isNameEnd, hspace x (by rw [hsp]; exact List.mem_cons_self)]
        rfl
  have hrender : (Token.endTag n space).render ++ rest
      = '<' :: '/' :: (n.chars ++ (space.chars ++ '>' :: rest)) := by
    simp [Token.render]
  rw [hrender, closeTag, matchesTag_cons (by decide), matchesTag_cons (by decide),
    length_encode_slash_name hname.2, List.drop_succ_cons, List.drop_succ_cons,
    List.take_succ_cons, List.take_succ_cons, beq_self_eq_true, beq_self_eq_true, Bool.true_and,
    Bool.true_and, Named]
  rcases matchesTag_name hname.2 n.all hx tail with
    ⟨heq, hmatch, hdrop⟩ | ⟨hne, hmatch | ⟨c, ds, hdrop, hc⟩⟩
  · rw [← htail] at hmatch hdrop
    have hlen : n.chars.length = name.length := by simpa using congrArg List.length heq
    rw [if_pos hmatch, hdrop, hdropSpace, htake, ← hlen, List.take_left, heq, beq_self_eq_true,
      if_pos rfl]
    simp [Token.render]
  · rw [← htail] at hmatch
    rw [hmatch, beq_eq_false_iff_ne.mpr hne]
    rfl
  · rw [← htail] at hdrop
    obtain ⟨hcs, hgt, -⟩ := isNameChar_cases hc
    rw [hdrop, List.dropWhile_cons_of_neg (by rw [hcs]; simp), beq_eq_false_iff_ne.mpr hne,
      if_neg (show ¬ false = true by simp)]
    split_ifs
    · split
      · rename_i heq
        exact absurd (List.cons.inj heq).1 hgt
      · rfl
    · rfl

/-- No start tag is a closing tag. -/
theorem closeTag_start (n : Name) (attrs : List (Chars1 isSpace × Attr))
    (space : Chars isSpace) (selfClosing : Bool) (rest : List Char) :
    closeTag (Utf8.encode ('<' :: '/' :: name))
      ((Token.startTag n attrs space selfClosing).render ++ rest) = none := by
  obtain ⟨c, cs, hc⟩ := List.exists_cons_of_ne_nil n.ne_nil
  have hchar := n.all c (by rw [hc]; exact List.mem_cons_self)
  have hne : (c.toLower == '/'.toLower) = false := by
    rw [beq_eq_false_iff_ne]
    intro heq
    rw [← isNameChar_toLower, heq] at hchar
    exact absurd hchar (by decide)
  rw [Token.render, hc, closeTag, List.cons_append, List.cons_append, matchesTag_cons (by decide),
    List.cons_append, matchesTag_cons (by decide), hne, Bool.false_and, Bool.and_false]
  rfl

theorem closeTag_nil : closeTag (Utf8.encode ('<' :: '/' :: name)) [] = none := by
  rw [Utf8.encode_cons, Utf8.encodeChar_ascii (by decide), List.singleton_append, closeTag,
    matchesTag]
  rfl

/-! ## Copying a document token by token -/

theorem render_takeWhile_text (b : Chars1 (· != '<')) {ts : List Token}
    (hts : ts.head?.all (!·.isText) = true) :
    (b.chars ++ render ts).takeWhile (· != '<') = b.chars
      ∧ (b.chars ++ render ts).dropWhile (· != '<') = render ts := by
  have hlt : (render ts).takeWhile (· != '<') = []
      ∧ (render ts).dropWhile (· != '<') = render ts := by
    cases ts with
    | nil => exact ⟨rfl, rfl⟩
    | cons t ts =>
        have ht : t.isText = false := by simpa using hts
        rw [render_cons, render_tag ht, List.cons_append]
        exact ⟨List.takeWhile_cons_of_neg (by simp), List.dropWhile_cons_of_neg (by simp)⟩
  rw [List.takeWhile_append_of_pos b.all, List.dropWhile_append_of_pos b.all, hlt.1, hlt.2,
    List.append_nil]
  exact ⟨rfl, rfl⟩

variable {σ : Type} (R : CopyLoop.Rewriter σ) (s : σ)

/-- A text is copied. -/
theorem run_text (b : Chars1 (· != '<')) (rest : List Char) :
    R.run s ((Token.text b).render ++ rest) = (Token.text b).render ++ R.run s rest :=
  R.run_append s (fun c hc => by simpa using b.all c hc) rest

/-- At a tag the patch makes its cut. -/
theorem run_cut {t : Token} (ht : t.isText = false) {rest : List Char} {c : CopyLoop.Cut σ}
    (hcut : R.cut s (t.render ++ rest) = c) :
    R.run s (t.render ++ rest) = c.pushed ++ R.run c.state c.rest := by
  rw [render_tag ht, List.cons_append] at hcut ⊢
  rw [R.run_lt, hcut]

/-- A tag whose `<` is copied alone is copied as a whole. -/
theorem run_tag {t : Token} (ht : t.isText = false) {rest : List Char}
    (hcut : R.cut s (t.render ++ rest) = ⟨['<'], t.inner ++ rest, s⟩) :
    R.run s (t.render ++ rest) = t.render ++ R.run s rest := by
  rw [run_cut R s ht hcut, R.run_append s (inner_ne_lt t), render_tag ht]
  rfl

end HtmlTokens
